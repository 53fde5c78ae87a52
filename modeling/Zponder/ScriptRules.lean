import Zponder.DecodeEvent

/-!
# The rules of the script engine

A rule compares a field of an event with a number, and does something if the comparison
holds. The engine is handed the fields as `decodeLog` has them, with a number as the hex digits
of its word, and reads them as decimal numbers, or compares them as texts, and there are
two of the comparisons it does not know. What is left is that a rule of the form `>= 0` is followed,
and that a rule does nothing where its comparison does not hold
(`Zponder.Script.follows_iff`).
-/

namespace Zponder

open Decode

namespace Script

/-! ### The engine -/

/-- `Action`. The one that does nothing, and that no file can ask for, is left out. -/
inductive Action where
  | logMsg (msg : Text)
  | webhookUrl (url : Text)
  deriving DecidableEq, Repr

/-- `Rule` -/
structure Rule where
  contract : Text
  event : Text
  field : Text
  op : Text
  val : Text
  action : Action
  deriving DecidableEq, Repr

/-- What is no decimal number counts as 0. -/
def parseOrZero (s : Text) : Nat := (Text.parseInt 10 (2 ^ 256) s).getD 0

/-- A turn of the loop over the fields. -/
def Rule.compares (r : Rule) (f : DecodedField) : Bool :=
  if f.name ≠ r.field then false
  else if r.op = "eq".toList then f.value == r.val
  else if r.op = "gt".toList then decide (parseOrZero f.value > parseOrZero r.val)
  else if r.op = "gte".toList then decide (parseOrZero f.value ≥ parseOrZero r.val)
  else false

/-- The rule is about an event. -/
def Rule.applies (r : Rule) (contractName eventName : Text) : Bool :=
  (r.contract == "*".toList || r.contract == contractName) &&
    (r.event == "*".toList || r.event == eventName)

/-- `processEvent`: what is done, in the order of the rules. -/
def processEvent (rules : List Rule) (contractName eventName : Text) (fields : List DecodedField) :
    List Action :=
  (rules.filter fun r => r.applies contractName eventName &&
    (r.op == "always".toList || fields.any r.compares)).map (·.action)

/-! ### What a rule asks for -/

/-- The comparisons. -/
def ops : List Text := ["eq".toList, "gt".toList, "gte".toList, "lt".toList, "lte".toList]

/-- A comparison of integers. -/
def Holds (op : Text) (v bound : Nat) : Prop :=
  (op = "eq".toList → v = bound) ∧ (op = "gt".toList → v > bound) ∧
    (op = "gte".toList → v ≥ bound) ∧ (op = "lt".toList → v < bound) ∧
      (op = "lte".toList → v ≤ bound)

/-- A decimal numeral. -/
structure Numeral (s : Text) (n : Nat) : Prop where
  ne_nil : s ≠ []
  digits : ∀ c ∈ s, c.isDigit = true
  value : Nat.ofDigitChars 10 s 0 = n
  lt : n < 2 ^ 256

/-- The integers that the inputs of one name carry. -/
def numbers (name : Text) : (inputs : List Input) → Values inputs → List Nat
  | [], _ => []
  | .indexed n _ :: inputs, vs =>
    if n = name then BitVec.toNat vs.1 :: numbers name inputs vs.2 else numbers name inputs vs.2
  | .data n (.value v) :: inputs, vs =>
    if n = name then BitVec.toNat (w := v.width) vs.1 :: numbers name inputs vs.2
    else numbers name inputs vs.2
  | .data _ _ :: inputs, vs => numbers name inputs vs.2

/-- An input of another name, or an unsigned integer. -/
def UnsignedIf (name : Text) : Input → Prop
  | .indexed n v => n = name → ∃ k, v = .uint k
  | .data n t => n = name → ∃ k, t = .value (.uint k)

/-- **The action of a rule is done once if the comparison holds of the number the event
carries, and else not.** -/
def Follows (r : Rule) (bound : Nat) (contractName : Text) (log : DecodedLog) (vs : List Nat) :
    Prop :=
  ((r.applies contractName log.eventName = true ∧ ∃ v ∈ vs, Holds r.op v bound) →
    processEvent [r] contractName log.eventName log.fields = [r.action]) ∧
  (¬(r.applies contractName log.eventName = true ∧ ∃ v ∈ vs, Holds r.op v bound) →
    processEvent [r] contractName log.eventName log.fields = [])

/-! ### What the engine makes of it -/

section Compare

variable {r : Rule} {bound : Nat}

theorem parseOrZero_numeral {s : Text} {n : Nat} (h : Numeral s n) : parseOrZero s = n := by
  have hparse : Text.parseInt 10 (2 ^ 256) s = some (Nat.ofDigitChars 10 s 0) :=
    Text.parseInt_of_isDigit h.ne_nil h.digits (h.value.symm ▸ h.lt)
  rw [parseOrZero, hparse, Option.getD_some, h.value]

/-- The hex digits of a word are no decimal number. -/
theorem parseOrZero_hex (w : Text) : parseOrZero ("0x".toList ++ w) = 0 := by
  have hparse : Text.parseInt 10 (2 ^ 256) ("0x".toList ++ w) = none := by
    show Text.parseMagnitude 10 (2 ^ 256) false ('0' :: 'x' :: w) = none
    unfold Text.parseMagnitude
    split
    · rfl
    · rfl
  rw [parseOrZero, hparse, Option.getD_none]

/-- **Of a word the engine knows nothing**: only what holds of every number is seen. -/
theorem compares_hex (h : Numeral r.val bound) (w : Text) :
    r.compares ⟨r.field, "0x".toList ++ w⟩ = decide (r.op = "gte".toList ∧ bound = 0) := by
  have htext : ("0x".toList ++ w == r.val) = false := by
    rw [beq_eq_false_iff_ne]
    intro heq
    have hx : 'x' ∈ r.val := heq ▸ List.mem_cons_of_mem _ List.mem_cons_self
    exact absurd (h.digits 'x' hx) (by decide)
  rw [Rule.compares, if_neg (not_not_intro rfl), parseOrZero_hex, parseOrZero_numeral h]
  split
  · next heq =>
    rw [htext, heq]
    exact (decide_eq_false fun hboth => absurd hboth.1 (by decide)).symm
  split
  · next heq =>
    rw [heq, decide_eq_false (Nat.not_lt_zero bound)]
    exact (decide_eq_false fun hboth => absurd hboth.1 (by decide)).symm
  split
  · next heq =>
    rw [decide_eq_decide]
    exact ⟨fun hle => ⟨heq, Nat.le_zero.1 hle⟩, fun hboth => hboth.2.le⟩
  · next hne => exact (decide_eq_false fun hboth => hne hboth.1).symm

theorem compares_of_ne {f : DecodedField} (h : f.name ≠ r.field) : r.compares f = false := by
  rw [Rule.compares, if_pos h]

/-- The fields of an event, one after the other. -/
theorem any_compares (h : Numeral r.val bound) {inputs : List Input} (vs : Values inputs)
    (hunsigned : ∀ input ∈ inputs, UnsignedIf r.field input) :
    (reference inputs vs).any r.compares = true ↔
      (r.op = "gte".toList ∧ bound = 0) ∧ numbers r.field inputs vs ≠ [] := by
  induction inputs with
  | nil => exact ⟨fun h => absurd h Bool.false_ne_true, fun h => absurd rfl h.2⟩
  | cons input inputs ih =>
    obtain ⟨hinput, hothers⟩ := List.forall_mem_cons.1 hunsigned
    -- a field of another name adds nothing, and of a number nothing but `>= 0` is seen
    have hskip : ∀ f : DecodedField, f.name ≠ r.field →
        numbers r.field (input :: inputs) vs = numbers r.field inputs vs.2 →
        ((f :: reference inputs vs.2).any r.compares = true ↔ (r.op = "gte".toList ∧ bound = 0) ∧
          numbers r.field (input :: inputs) vs ≠ []) := by
      intro f hf hnumbers
      rw [List.any_cons, compares_of_ne hf, Bool.false_or, hnumbers]
      exact ih vs.2 hothers
    have hnumber : ∀ (w : Text) (n : Nat),
        numbers r.field (input :: inputs) vs = n :: numbers r.field inputs vs.2 →
        (((⟨r.field, "0x".toList ++ w⟩ : DecodedField) :: reference inputs vs.2).any r.compares =
          true ↔ (r.op = "gte".toList ∧ bound = 0) ∧
            numbers r.field (input :: inputs) vs ≠ []) := by
      intro w n hnumbers
      rw [List.any_cons, compares_hex h, Bool.or_eq_true, decide_eq_true_iff, ih vs.2 hothers,
        hnumbers]
      exact ⟨fun hor => ⟨hor.elim id (·.1), List.cons_ne_nil _ _⟩, fun hboth => .inl hboth.1⟩
    cases input with
    | indexed n v =>
      by_cases hn : n = r.field
      · obtain ⟨k, rfl⟩ := hinput hn
        subst hn
        exact hnumber _ _ (if_pos rfl)
      · exact hskip _ hn (if_neg hn)
    | data n t =>
      by_cases hn : n = r.field
      · obtain ⟨k, rfl⟩ := hinput hn
        subst hn
        exact hnumber (Text.hexOf 64 ((ValueType.uint k).word vs.1).toNat) _ (if_pos rfl)
      · refine hskip _ hn ?_
        cases t with
        | value v => exact if_neg hn
        | _ => rfl

end Compare

/-- **A rule is followed** if and only if it is of the form `>= 0`, or its comparison does not
hold of any number the event carries. -/
theorem follows_iff (r : Rule) (bound : Nat) (contractName name signature : Text)
    (inputs : List Input) (vs : Values inputs) (rest : Text) (hop : r.op ∈ ops)
    (hval : Numeral r.val bound) (hunsigned : ∀ input ∈ inputs, UnsignedIf r.field input)
    (hnarrow : ∀ input ∈ inputs, input.Narrow)
    (hsize : (encodeData inputs vs ++ rest).length ≤ u64Max) :
    Follows r bound contractName (decodeLog (eventOf name inputs) (signature :: topics inputs vs)
      ("0x".toList ++ (encodeData inputs vs ++ rest))) (numbers r.field inputs vs) ↔
        (r.applies contractName name = true → (r.op = "gte".toList ∧ bound = 0) ∨
          ∀ v ∈ numbers r.field inputs vs, ¬Holds r.op v bound) := by
  rw [decodeLog_encode name signature inputs vs rest hnarrow hsize, Follows]
  dsimp only
  have hdone : processEvent [r] contractName name (reference inputs vs) =
      if r.applies contractName name = true ∧ (r.op = "gte".toList ∧ bound = 0) ∧
        numbers r.field inputs vs ≠ [] then [r.action] else [] := by
    have halways : (r.op == "always".toList) = false := by
      rw [beq_eq_false_iff_ne]
      intro heq
      rw [heq] at hop
      exact absurd hop (by decide)
    rw [processEvent]
    by_cases hall : r.applies contractName name = true ∧ (r.op = "gte".toList ∧ bound = 0) ∧
        numbers r.field inputs vs ≠ []
    · rw [if_pos hall, List.filter_cons_of_pos]
      · rfl
      · rw [hall.1, halways, Bool.true_and, Bool.false_or]
        exact (any_compares hval vs hunsigned).2 hall.2
    · rw [if_neg hall, List.filter_cons_of_neg]
      · rfl
      · rw [halways, Bool.false_or, Bool.and_eq_true, any_compares hval vs hunsigned]
        exact hall
  rw [hdone]
  constructor
  · intro hfollows happlies
    by_contra hcontra
    push Not at hcontra
    obtain ⟨hform, v, hv, hholds⟩ := hcontra
    have hdo := hfollows.1 ⟨happlies, v, hv, hholds⟩
    rw [if_neg fun hall => hform hall.2.1.1 hall.2.1.2] at hdo
    exact List.cons_ne_nil _ _ hdo.symm
  · intro hcond
    constructor
    · rintro ⟨happlies, v, hv, hholds⟩
      obtain hform | hnone := hcond happlies
      · exact if_pos ⟨happlies, hform, List.ne_nil_of_mem hv⟩
      · exact absurd hholds (hnone v hv)
    · intro hnot
      refine if_neg ?_
      rintro ⟨happlies, ⟨hgte, rfl⟩, hne⟩
      obtain ⟨v, hv⟩ := List.exists_mem_of_ne_nil _ hne
      refine hnot ⟨happlies, v, hv, ?_⟩
      rw [hgte]
      exact ⟨fun h => absurd h (by decide), fun h => absurd h (by decide), fun _ => Nat.zero_le v,
        fun h => absurd h (by decide), fun h => absurd h (by decide)⟩

/-- `amount0In >= 1000` -/
def largeSwap : Rule :=
  ⟨"*".toList, "Swap".toList, "amount0In".toList, "gte".toList, "1000".toList, .logMsg []⟩

/-- A swap of 2000. -/
def swapInputs : List Input := [.data "amount0In".toList (.value (.uint ⟨31, by decide⟩))]

def swapValues : Values swapInputs := (2000#256, ())

theorem numeral_largeSwap : Numeral largeSwap.val 1000 :=
  ⟨by decide, List.all_eq_true.1 rfl, rfl, by norm_num⟩

theorem unsigned_swap : ∀ input ∈ swapInputs, UnsignedIf largeSwap.field input := by
  simp [swapInputs, UnsignedIf]

theorem follows_iff_swap :
    Follows largeSwap 1000 "Pair".toList
      (decodeLog (eventOf "Swap".toList swapInputs) ([] :: topics swapInputs swapValues)
        ("0x".toList ++ (encodeData swapInputs swapValues ++ [])))
      (numbers largeSwap.field swapInputs swapValues) ↔
        (largeSwap.applies "Pair".toList "Swap".toList = true →
          (largeSwap.op = "gte".toList ∧ 1000 = 0) ∨
            ∀ v ∈ numbers largeSwap.field swapInputs swapValues, ¬Holds largeSwap.op v 1000) :=
  follows_iff largeSwap 1000 _ _ _ _ _ _ (by decide) numeral_largeSwap unsigned_swap
    (by simp [swapInputs, Input.Narrow, AbiType.Narrow]) (by decide +kernel)

/-- A swap of 2000 is not noticed. -/
theorem not_follows_swap : ¬Follows largeSwap 1000 "Pair".toList
    (decodeLog (eventOf "Swap".toList swapInputs) ([] :: topics swapInputs swapValues)
      ("0x".toList ++ (encodeData swapInputs swapValues ++ [])))
    (numbers largeSwap.field swapInputs swapValues) := by
  rw [decodeLog_encode _ _ _ _ _ (by simp [swapInputs, Input.Narrow, AbiType.Narrow])
    (by decide +kernel)]
  intro hfollows
  have hholds : Holds largeSwap.op 2000 1000 :=
    ⟨by decide, by decide, by decide, by decide, by decide⟩
  have hdo := hfollows.1 ⟨by decide, 2000, by decide +kernel, hholds⟩
  exact absurd hdo (by decide +kernel)

end Script

end Zponder

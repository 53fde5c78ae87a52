import Zponder.World

/-!
# What the API is asked, and the keys it is cached under

A query for the rows of an event table (`Zponder.EventQuery`), the rows it selects, and
the key its answer is cached under; and the same for the queries of the configuration.

The key of an event query is built so that no two queries share one: what is free text
comes with its length, and what is optional with a mark. That is proved here
(`Zponder.EventQuery.cacheKey_injective`). The key of a configured query is not: its values
are only set apart by colons, and the names they belong to are left out.
-/

namespace Zponder

namespace Text

/-- `{d}` -/
def decimal (n : Nat) : Text := Nat.toDigits 10 n

theorem decimal_injective {m n : Nat} (h : decimal m = decimal n) : m = n := by
  have hrepr : Nat.repr m = Nat.repr n := by
    rw [Nat.repr, Nat.repr]
    exact congrArg String.ofList h
  exact Nat.repr_injective hrepr

theorem colon_notMem_decimal (n : Nat) : ':' ∉ decimal n := by
  intro h
  have hdigit : (':' : Char).isDigit = true :=
    Nat.isDigit_of_mem_toDigits (by decide) (by decide) h
  exact absurd hdigit (by decide)

/-- `{d}:{s}`, a text with its length. -/
def lengthed (s : Text) : Text := decimal s.length ++ ':' :: s

/-- Up to the first colon, two texts can be told apart. -/
theorem append_colon_inj {a b r r' : Text} (ha : ':' ∉ a) (hb : ':' ∉ b)
    (h : a ++ ':' :: r = b ++ ':' :: r') : a = b ∧ r = r' := by
  induction a generalizing b with
  | nil =>
    cases b with
    | nil => exact ⟨rfl, (List.cons.inj h).2⟩
    | cons c b =>
      obtain ⟨rfl, -⟩ := List.cons.inj h
      exact absurd List.mem_cons_self hb
  | cons c a ih =>
    cases b with
    | nil =>
      obtain ⟨rfl, -⟩ := List.cons.inj h
      exact absurd List.mem_cons_self ha
    | cons d b =>
      obtain ⟨rfl, htail⟩ := List.cons.inj h
      obtain ⟨rfl, hr⟩ := ih (fun hm => ha (List.mem_cons_of_mem _ hm))
        (fun hm => hb (List.mem_cons_of_mem _ hm)) htail
      exact ⟨rfl, hr⟩

/-- **A text with its length ends where it ends**, whatever it holds and whatever comes
after it. -/
theorem lengthed_append_inj {s s' r r' : Text} (h : lengthed s ++ r = lengthed s' ++ r') :
    s = s' ∧ r = r' := by
  simp only [lengthed, List.append_assoc, List.cons_append] at h
  obtain ⟨hlen, h⟩ := append_colon_inj (colon_notMem_decimal _) (colon_notMem_decimal _) h
  exact List.append_inj h (decimal_injective hlen)

end Text

/-! ### Queries for events -/

/-- `EventQueryParams`, with the contract and the event of the path. -/
structure EventQuery where
  contractName : Text
  eventName : Text
  blockFrom : Option Nat := none
  blockTo : Option Nat := none
  txHash : Option Text := none
  address : Option Text := none
  limit : Nat := 100
  offset : Nat := 0
  orderDesc : Bool := true
  deriving DecidableEq, Repr

namespace EventQuery

/-- The event table it reads. -/
def table (q : EventQuery) : Text := eventTable q.contractName q.eventName

/-- The blocks it asks for. -/
def inRange (q : EventQuery) (r : EventRow) : Bool :=
  q.blockFrom.all (fun b => decide (b ≤ r.blockNumber)) &&
    q.blockTo.all (fun b => decide (r.blockNumber ≤ b))

/-- The `WHERE` of `queryEventLogs`. -/
def selects (q : EventQuery) (r : EventRow) : Bool :=
  q.inRange r && q.txHash.all (fun h => r.key.txHash == h) &&
    q.address.all (fun a => r.key.contractAddress == a)

/-- The rows of the table. -/
def rowsOf (table : Text) (t : Tables) : List EventRow := t.events.filter (·.key.table == table)

/-- `ORDER BY block_number` -/
def ordered (desc : Bool) (rows : List EventRow) : List EventRow :=
  rows.insertionSort fun a b =>
    if desc = true then b.blockNumber ≤ a.blockNumber else a.blockNumber ≤ b.blockNumber

/-- The rows `queryEventLogs` answers with, given how a row is written down. PostgreSQL is
always asked for the last blocks first. RocksDB keeps the rows by their blocks, counts the
offset before it looks for the transaction, looks for it anywhere in the row, and knows no
addresses. -/
def rows (backend : Backend) (json : EventRow → Text) (q : EventQuery) (t : Tables) :
    Option (List EventRow) :=
  let table := rowsOf q.table t
  match backend with
  | .sqlite => some (((ordered q.orderDesc (table.filter q.selects)).drop q.offset).take q.limit)
  | .postgresql => some (((ordered true (table.filter q.selects)).drop q.offset).take q.limit)
  | .rocksdb =>
    if q.address.isSome = true then none
    else
      let kept := (ordered false (table.filter q.inRange)).drop q.offset
      some ((kept.filter fun r => q.txHash.all fun h => decide (h <:+: json r)).take q.limit)

/-- What a query answers depends on the rows of its table alone. -/
theorem rows_congr {backend : Backend} {json : EventRow → Text} {q : EventQuery} {t t' : Tables}
    (h : rowsOf q.table t = rowsOf q.table t') :
    q.rows backend json t = q.rows backend json t' := by
  unfold rows
  rw [h]

/-- `{?d}` -/
def optional (n : Option Nat) : Text := (n.map Text.decimal).getD "null".toList

/-- `@intFromBool` -/
def bit (b : Bool) : Text := if b = true then "1".toList else "0".toList

/-- `{}` of a truth value. -/
def truth (b : Bool) : Text := if b = true then "true".toList else "false".toList

/-- `buildEventCacheKey` -/
def cacheKey (q : EventQuery) : Text :=
  "c=".toList ++ (Text.lengthed q.contractName ++ (":e=".toList ++ (Text.lengthed q.eventName ++
  (":bf=".toList ++ (optional q.blockFrom ++ (":bt=".toList ++ (optional q.blockTo ++
  (":txset=".toList ++ (bit q.txHash.isSome ++ (":tx=".toList ++
  (Text.lengthed (q.txHash.getD []) ++ (":adset=".toList ++ (bit q.address.isSome ++
  (":ad=".toList ++ (Text.lengthed (q.address.getD []) ++ (":l=".toList ++
  (Text.decimal q.limit ++ (":o=".toList ++ (Text.decimal q.offset ++
  (":od=".toList ++ truth q.orderDesc))))))))))))))))))))

theorem colon_notMem_optional (n : Option Nat) : ':' ∉ optional n := by
  cases n with
  | none => decide
  | some n => exact Text.colon_notMem_decimal n

theorem optional_injective {m n : Option Nat} (h : optional m = optional n) : m = n := by
  have hnull : ∀ k, Text.decimal k ≠ "null".toList := by
    intro k hk
    have hmem : 'n' ∈ Nat.toDigits 10 k := by
      change 'n' ∈ Text.decimal k
      rw [hk]
      decide
    have hdigit := Nat.isDigit_of_mem_toDigits (by decide) (by decide) hmem
    exact absurd hdigit (by decide)
  cases m with
  | none =>
    cases n with
    | none => rfl
    | some n => exact absurd h.symm (hnull n)
  | some m =>
    cases n with
    | none => exact absurd h (hnull m)
    | some n => exact congrArg some (Text.decimal_injective h)

theorem colon_notMem_bit (b : Bool) : ':' ∉ bit b := by
  cases b <;> decide

theorem bit_injective {b c : Bool} (h : bit b = bit c) : b = c := by
  cases b <;> cases c <;> first | rfl | exact absurd h (by decide)

theorem truth_injective {b c : Bool} (h : truth b = truth c) : b = c := by
  cases b <;> cases c <;> first | rfl | exact absurd h (by decide)

/-- A value that is there, and its text, are told from one that is not. -/
theorem optional_text_injective {s s' : Option Text} (hset : s.isSome = s'.isSome)
    (h : s.getD [] = s'.getD []) : s = s' := by
  cases s with
  | none =>
    cases s' with
    | none => rfl
    | some s' => cases hset
  | some s =>
    cases s' with
    | none => cases hset
    | some s' => exact congrArg some h

/-- **No two queries for events share a key.** -/
theorem cacheKey_injective {q q' : EventQuery} (h : q.cacheKey = q'.cacheKey) : q = q' := by
  unfold cacheKey at h
  obtain ⟨hcontract, h⟩ := Text.lengthed_append_inj (List.append_cancel_left h)
  obtain ⟨hevent, h⟩ := Text.lengthed_append_inj (List.append_cancel_left h)
  obtain ⟨hfrom, h⟩ := Text.append_colon_inj (colon_notMem_optional _) (colon_notMem_optional _)
    (List.append_cancel_left h)
  obtain ⟨hto, h⟩ := Text.append_colon_inj (colon_notMem_optional _) (colon_notMem_optional _)
    (@List.append_cancel_left _ "bt=".toList _ _ h)
  obtain ⟨htxset, h⟩ := Text.append_colon_inj (colon_notMem_bit _) (colon_notMem_bit _)
    (@List.append_cancel_left _ "txset=".toList _ _ h)
  obtain ⟨htx, h⟩ := Text.lengthed_append_inj (@List.append_cancel_left _ "tx=".toList _ _ h)
  obtain ⟨hadset, h⟩ := Text.append_colon_inj (colon_notMem_bit _) (colon_notMem_bit _)
    (List.append_cancel_left h)
  obtain ⟨had, h⟩ := Text.lengthed_append_inj (@List.append_cancel_left _ "ad=".toList _ _ h)
  obtain ⟨hlimit, h⟩ := Text.append_colon_inj (Text.colon_notMem_decimal _)
    (Text.colon_notMem_decimal _) (List.append_cancel_left h)
  obtain ⟨hoffset, h⟩ := Text.append_colon_inj (Text.colon_notMem_decimal _)
    (Text.colon_notMem_decimal _) (@List.append_cancel_left _ "o=".toList _ _ h)
  have horder := truth_injective (@List.append_cancel_left _ "od=".toList _ _ h)
  cases q
  cases q'
  simp only [EventQuery.mk.injEq]
  exact ⟨hcontract, hevent, optional_injective hfrom, optional_injective hto,
    optional_text_injective (bit_injective htxset) htx,
    optional_text_injective (bit_injective hadset) had, Text.decimal_injective hlimit,
    Text.decimal_injective hoffset, horder⟩

/-- **The key of a query says all there is to know about it**: two queries have one key if
and only if they are one. -/
theorem cacheKey_eq_iff (q q' : EventQuery) : q.cacheKey = q'.cacheKey ↔ q = q' := by
  constructor
  · exact cacheKey_injective
  · rintro rfl
    rfl

/-- A value that is missing is not one that is empty. -/
example : cacheKey ⟨[], [], none, none, none, none, 100, 0, true⟩ ≠
    cacheKey ⟨[], [], none, none, some [], none, 100, 0, true⟩ := by decide

end EventQuery

end Zponder

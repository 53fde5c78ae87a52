import Zponder.Lib.JsonRows

/-!
# JSON

JSON values, a reader for them, and what becomes of a value when it is written without
escapes.

A number is left as it is written. An object is the list of its members, in the order they
are in, and the reader refuses one in which two members have the same name. A string is
bytes, and has to be UTF-8.

A writer that splices texts between quotes, without looking at them (`Json.splice`), writes
something that may be read as another value, or not at all. It is read as the value that
was meant exactly if every text in it is clean (`Json.Clean`), every number is one, and the
names in every object differ (`Json.readValue_splice`).
-/

namespace Json

/-- A JSON value. -/
inductive Value where
  | null
  | bool (b : Bool)
  | number (digits : List Char)
  | text (s : List Char)
  | array (items : List Value)
  | object (members : List (List Char × Value))
  deriving Repr, Inhabited

/-! ### UTF-8 -/

/-- Whether bytes go on to be UTF-8: so many continuation bytes are due, and the first of them is
between the bounds. -/
def isUtf8 : Nat → Nat → Nat → List Char → Bool
  | due, _, _, [] => due == 0
  | 0, _, _, c :: s =>
    let b := c.toNat
    if b < 0x80 then isUtf8 0 0 0 s
    else if 0xC2 ≤ b ∧ b ≤ 0xDF then isUtf8 1 0x80 0xBF s
    else if b = 0xE0 then isUtf8 2 0xA0 0xBF s
    else if b = 0xED then isUtf8 2 0x80 0x9F s
    else if 0xE1 ≤ b ∧ b ≤ 0xEF then isUtf8 2 0x80 0xBF s
    else if b = 0xF0 then isUtf8 3 0x90 0xBF s
    else if 0xF1 ≤ b ∧ b ≤ 0xF3 then isUtf8 3 0x80 0xBF s
    else if b = 0xF4 then isUtf8 3 0x80 0x8F s
    else false
  | due + 1, lo, hi, c :: s =>
    if lo ≤ c.toNat ∧ c.toNat ≤ hi then isUtf8 due 0x80 0xBF s else false

/-! ### Reading -/

/-- What may stand between two tokens. -/
def isBlank (c : Char) : Bool := c == ' ' || c == '\t' || c == '\n' || c == '\r'

/-- Go past blanks. -/
def skip (s : List Char) : List Char := s.dropWhile isBlank

/-- A digit at least, and behind the digits something else. -/
def digitsThen (behind : List Char → Bool) (s : List Char) : Bool :=
  s.takeWhile Char.isDigit ≠ [] && behind (s.dropWhile Char.isDigit)

/-- An exponent, or nothing. -/
def isExponent (s : List Char) : Bool :=
  if s = [] then true
  else if s.head? = some 'e' ∨ s.head? = some 'E' then
    digitsThen List.isEmpty
      (if s.tail.head? = some '+' ∨ s.tail.head? = some '-' then s.tail.tail else s.tail)
  else false

/-- A fraction, or none, and an exponent, or none. -/
def isFraction (s : List Char) : Bool :=
  if s.head? = some '.' then digitsThen isExponent s.tail else isExponent s

/-- A number without its sign: no zero comes before other digits. -/
def isMagnitude (s : List Char) : Bool :=
  if s.head? = some '0' then isFraction s.tail else digitsThen isFraction s

/-- A number. -/
def isNumber (s : List Char) : Bool := isMagnitude (if s.head? = some '-' then s.tail else s)

/-- A string, behind its opening quote. -/
def readText (s : List Char) : Option (List Char × List Char) :=
  (JsonRows.readString .plain s).filter fun r => isUtf8 0 0 0 r.1

section Items

variable {α : Type} (item : List Char → Option (α × List Char)) (close : Char)

/-- Items with commas in between, up to the closing bracket. There is at least one. -/
def readItems : Nat → List Char → Option (List α × List Char)
  | 0, _ => none
  | n + 1, s =>
    (item s).bind fun first =>
      let behind := skip first.2
      if behind.head? = some ',' then
        (readItems n behind.tail).map fun others => (first.1 :: others.1, others.2)
      else if behind.head? = some close then some ([first.1], behind.tail)
      else none

/-- Items, behind the opening bracket. -/
def readBetween (s : List Char) : Option (List α × List Char) :=
  if (skip s).head? = some close then some ([], (skip s).tail)
  else readItems item close (s.length + 1) s

end Items

/-- A member of an object, with a reader for its value. -/
def readMember (value : List Char → Option (Value × List Char)) (s : List Char) :
    Option ((List Char × Value) × List Char) :=
  if (skip s).head? = some '"' then
    (readText (skip s).tail).bind fun key =>
      if (skip key.2).head? = some ':' then
        (value (skip key.2).tail).map fun r => ((key.1, r.1), r.2)
      else none
  else none

/-- `null`, a truth value or a number. -/
def readWord (s : List Char) : Option (Value × List Char) :=
  if s.take 4 = "null".toList then some (.null, s.drop 4)
  else if s.take 4 = "true".toList then some (.bool true, s.drop 4)
  else if s.take 5 = "false".toList then some (.bool false, s.drop 5)
  else if isNumber (s.takeWhile JsonRows.isNumeric) = true then
    some (.number (s.takeWhile JsonRows.isNumeric), s.dropWhile JsonRows.isNumeric)
  else none

/-- A value, nested no deeper than the fuel, and what comes behind. -/
def readValue : Nat → List Char → Option (Value × List Char)
  | 0, _ => none
  | n + 1, s =>
    let s := skip s
    if s.head? = some '"' then (readText s.tail).map fun r => (.text r.1, r.2)
    else if s.head? = some '[' then
      (readBetween (readValue n) ']' s.tail).map fun r => (.array r.1, r.2)
    else if s.head? = some '{' then
      ((readBetween (readMember (readValue n)) '}' s.tail).filter fun r =>
        decide (r.1.map Prod.fst).Nodup).map fun r => (.object r.1, r.2)
    else readWord s

/-- A value, and nothing behind it. -/
def read (s : List Char) : Option Value :=
  ((readValue (s.length + 1) s).filter fun r => (skip r.2).isEmpty).map Prod.fst

/-! ### Writing without escapes -/

mutual

/-- A value, its texts put between quotes as they are. -/
def splice : Value → List Char
  | .null => "null".toList
  | .bool b => if b = true then "true".toList else "false".toList
  | .number digits => digits
  | .text s => '"' :: (s ++ ['"'])
  | .array items => '[' :: (spliceItems items ++ [']'])
  | .object members => '{' :: (spliceMembers members ++ ['}'])

/-- Values with commas in between. -/
def spliceItems : List Value → List Char
  | [] => []
  | [v] => splice v
  | v :: w :: vs => splice v ++ ',' :: spliceItems (w :: vs)

/-- Members with commas in between. -/
def spliceMembers : List (List Char × Value) → List Char
  | [] => []
  | [(key, v)] => '"' :: (key ++ '"' :: ':' :: splice v)
  | (key, v) :: m :: ms => '"' :: (key ++ '"' :: ':' :: (splice v ++ ',' :: spliceMembers (m :: ms)))

end

mutual

/-- How deep a value is nested. -/
def depth : Value → Nat
  | .array items => depthItems items + 1
  | .object members => depthMembers members + 1
  | _ => 1

/-- How deep values are nested. -/
def depthItems : List Value → Nat
  | [] => 0
  | v :: vs => max (depth v) (depthItems vs)

/-- How deep the values of members are nested. -/
def depthMembers : List (List Char × Value) → Nat
  | [] => 0
  | (_, v) :: ms => max (depth v) (depthMembers ms)

end

/-- A byte that stands for itself in a string. -/
def IsPlain (c : Char) : Prop := c ≠ '"' ∧ c ≠ '\\' ∧ 0x20 ≤ c.toNat

instance (c : Char) : Decidable (IsPlain c) := inferInstanceAs (Decidable (_ ∧ _ ∧ _))

/-- A text that needs no escape. -/
def Clean (s : List Char) : Prop := (∀ c ∈ s, IsPlain c) ∧ isUtf8 0 0 0 s = true

instance (s : List Char) : Decidable (Clean s) :=
  decidable_of_iff ((s.all fun c => decide (IsPlain c)) = true ∧ isUtf8 0 0 0 s = true)
    (by simp [Clean])

mutual

/-- A value that may be written without escapes. -/
def Plain : Value → Prop
  | .number digits => isNumber digits = true ∧ ∀ c ∈ digits, JsonRows.isNumeric c = true
  | .text s => Clean s
  | .array items => PlainItems items
  | .object members => (members.map Prod.fst).Nodup ∧ PlainMembers members
  | _ => True

/-- Values that may be written without escapes. -/
def PlainItems : List Value → Prop
  | [] => True
  | v :: vs => Plain v ∧ PlainItems vs

/-- Members whose names and values may be written without escapes. -/
def PlainMembers : List (List Char × Value) → Prop
  | [] => True
  | (key, v) :: ms => (Clean key ∧ Plain v) ∧ PlainMembers ms

end

open JsonRows (Mode readString codePoint hexValue push utf8)

/-! ### Reading a clean string -/

theorem length_utf8_le (n : Nat) : (utf8 n).length ≤ 3 := by
  unfold utf8
  split
  · simp
  · split <;> simp

theorem length_codePoint_le {digits bytes : List Char} (h : codePoint digits = some bytes) :
    bytes.length ≤ 3 := by
  obtain ⟨ds, -, rfl⟩ := Option.map_eq_some_iff.mp h
  exact length_utf8_le _

theorem hexValue_quote : hexValue '"' = none := by decide

theorem codePoint_eq_none {digits : List Char} (h : '"' ∈ digits) : codePoint digits = none := by
  have : digits.mapM hexValue = none := by
    induction digits with
    | nil => exact absurd h (by simp)
    | cons c digits ih =>
      rw [List.mapM_cons]
      rcases List.mem_cons.mp h with rfl | h
      · rw [hexValue_quote]
        rfl
      · rw [ih h]
        cases hexValue c <;> rfl
  rw [codePoint, this]
  rfl

/-- A quote among the digits of `\u` cannot be read. -/
theorem readString_unicode_quote {digits : List Char} (h : '"' ∈ digits) (s : List Char) :
    readString (.unicode digits) s = none := by
  induction s generalizing digits with
  | nil => rfl
  | cons c s ih =>
    rw [readString]
    split
    · exact ih (List.mem_append_left _ h)
    · rw [codePoint_eq_none (List.mem_append_left _ h)]
      rfl

/-- How many bytes more than it goes past a reader may give, in the middle of an escape. -/
def credit : Mode → Nat
  | .plain => 0
  | .escape => 1
  | .unicode digits => digits.length

/-- Not more than three digits have been read. -/
def Short : Mode → Prop
  | .unicode digits => digits.length ≤ 3
  | _ => True

theorem push_eq_some_iff {bytes : List Char} {r : Option (List Char × List Char)}
    {x : List Char × List Char} :
    push bytes r = some x ↔ ∃ s, r = some (s, x.2) ∧ x.1 = bytes ++ s := by
  cases r with
  | none => simp [push]
  | some r =>
    simp only [push, Option.map_some, Option.some.injEq]
    constructor
    · rintro rfl
      exact ⟨r.1, rfl, rfl⟩
    · rintro ⟨s, rfl, h⟩
      exact Prod.ext h.symm rfl

/-- Where a reader is that was started at a text without quotes and a quote behind it: it stopped
at the quote, having read as many bytes as there are only if none was escaped, or the quote is
among what it has read. -/
def Stops (m : Mode) (a t : List Char) (r rest : List Char) : Prop :=
  (rest = t ∧ r.length ≤ a.length + credit m ∧
    (r.length = a.length + credit m → m = .plain ∧ ∀ c ∈ a, IsPlain c)) ∨
    '"' ∈ r.take (a.length + credit m)

/-- Bytes before what is read next, when the reader is in the middle of an escape. -/
theorem Stops.push {m m' : Mode} {a t r rest : List Char} (bytes : List Char) (c : Char)
    (h : Stops m' a t r rest) (hle : bytes.length + credit m' ≤ credit m + 1)
    (hne : bytes.length + credit m' = credit m + 1 → m' ≠ .plain) :
    Stops m (c :: a) t (bytes ++ r) rest := by
  have hlen : (c :: a).length = a.length + 1 := rfl
  rcases h with ⟨hrest, hr, hall⟩ | hmem
  · refine .inl ⟨hrest, by rw [List.length_append]; omega, fun heq => ?_⟩
    rw [List.length_append] at heq
    exact absurd (hall (by omega)).1 (hne (by omega))
  · refine .inr (List.take_subset_take_left (bytes ++ r)
      (show bytes.length + (a.length + credit m') ≤ _ by omega) ?_)
    rw [List.take_length_add_append]
    exact List.mem_append_right bytes hmem

/-- **A reader at a text without quotes, up to a quote.** -/
theorem stops_of_readString {a t r rest : List Char} {m : Mode} (ha : '"' ∉ a) (hm : Short m)
    (h : readString m (a ++ '"' :: t) = some (r, rest)) : Stops m a t r rest := by
  induction a generalizing m r with
  | nil =>
    cases m with
    | plain =>
      obtain ⟨rfl, rfl⟩ : [] = r ∧ t = rest := by simpa [readString] using h
      exact .inl ⟨rfl, le_rfl, fun _ => ⟨rfl, by simp⟩⟩
    | escape =>
      have h : JsonRows.push ['"'] (readString .plain t) = some (r, rest) := h
      obtain ⟨s, -, rfl : r = _⟩ := push_eq_some_iff.mp h
      exact .inr (by simp [credit])
    | unicode digits =>
      have hmem : '"' ∈ digits ++ ['"'] := by simp
      rw [List.nil_append, readString] at h
      split at h
      · rw [readString_unicode_quote hmem] at h
        cases h
      · rw [codePoint_eq_none hmem] at h
        cases h
  | cons c a ih =>
    have hc : c ≠ '"' := fun hc => ha (hc ▸ List.mem_cons_self)
    have ha' : '"' ∉ a := fun h => ha (List.mem_cons_of_mem c h)
    cases m with
    | plain =>
      rw [List.cons_append, readString, if_neg hc] at h
      split at h
      · exact (ih ha' (m := .escape) trivial h).push [] c (by simp [credit]) (by simp)
      · rename_i hslash
        split at h
        · cases h
        · rename_i hctl
          obtain ⟨s, hs, rfl : r = _⟩ := push_eq_some_iff.mp h
          rcases ih ha' (m := .plain) trivial hs with ⟨hrest, hle, hall⟩ | hmem
          · refine .inl ⟨hrest, by simpa [credit] using hle, fun heq => ⟨rfl, ?_⟩⟩
            exact List.forall_mem_cons.mpr
              ⟨⟨hc, hslash, by omega⟩, (hall (by simpa [credit] using heq)).2⟩
          · exact .inr (List.mem_cons_of_mem c hmem)
    | escape =>
      rw [List.cons_append, readString] at h
      split at h
      · exact (ih ha' (m := .unicode []) (Nat.zero_le 3) h).push [] c
          (by simp [credit]) (by simp)
      · obtain ⟨d, -, h⟩ := Option.bind_eq_some_iff.mp h
        obtain ⟨s, hs, rfl : r = _⟩ := push_eq_some_iff.mp h
        exact (ih ha' (m := .plain) trivial hs).push _ c (by simp [credit]) (by simp [credit])
    | unicode digits =>
      rw [List.cons_append, readString] at h
      split at h
      · rename_i hlt
        refine (ih ha' (m := .unicode (digits ++ [c])) ?_ h).push [] c
          (by simp [credit]) (by simp)
        simpa [Short] using hlt
      · rename_i hlt
        obtain ⟨bytes, hbytes, h⟩ := Option.bind_eq_some_iff.mp h
        obtain ⟨s, hs, rfl : r = _⟩ := push_eq_some_iff.mp h
        have := length_codePoint_le hbytes
        exact (ih ha' (m := .plain) trivial hs).push _ c (by simp only [credit]; omega)
          (by simp only [credit]; omega)

theorem readString_clean {s : List Char} (h : ∀ c ∈ s, IsPlain c) (rest : List Char) :
    readString .plain (s ++ '"' :: rest) = some (s, rest) := by
  induction s with
  | nil => rfl
  | cons c s ih =>
    obtain ⟨hquote, hslash, hctl⟩ := h c List.mem_cons_self
    rw [List.cons_append, readString, if_neg hquote, if_neg hslash, if_neg (by omega),
      ih fun d hd => h d (List.mem_cons_of_mem c hd)]
    rfl

/-- **A text between quotes is read as itself exactly if all its bytes stand for themselves.** -/
theorem readString_iff {s rest rest' : List Char} :
    readString .plain (s ++ '"' :: rest) = some (s, rest') ↔
      (∀ c ∈ s, IsPlain c) ∧ rest' = rest := by
  constructor
  · intro h
    by_cases hquote : '"' ∈ s
    · -- The reader stops at the first quote, too early, or has read a quote before it is due.
      obtain ⟨a, b, rfl, ha⟩ := List.eq_append_cons_of_mem hquote
      have h' : readString .plain (a ++ '"' :: (b ++ '"' :: rest)) = some (a ++ '"' :: b, rest') := by
        simpa using h
      rcases stops_of_readString (m := .plain) ha trivial h' with ⟨-, hle, -⟩ | hmem
      · simp only [credit, List.length_append, List.length_cons] at hle
        omega
      · simp only [credit, Nat.add_zero, List.take_left] at hmem
        exact absurd hmem ha
    · rcases stops_of_readString (m := .plain) hquote trivial h with ⟨hrest, -, hall⟩ | hmem
      · exact ⟨(hall rfl).2, hrest⟩
      · exact absurd (List.mem_of_mem_take hmem) hquote
  · rintro ⟨h, rfl⟩
    exact readString_clean h rest'

/-- **A text between quotes is read as itself exactly if it is clean.** -/
theorem readText_iff {s rest rest' : List Char} :
    readText (s ++ '"' :: rest) = some (s, rest') ↔ Clean s ∧ rest' = rest := by
  rw [readText, Option.filter_eq_some_iff, readString_iff, Clean]
  exact ⟨fun h => ⟨⟨h.1.1, h.2⟩, h.1.2⟩, fun h => ⟨⟨h.1.1, h.2⟩, h.1.2⟩⟩

/-! ### Reading what was spliced -/

@[simp] theorem skip_cons {c : Char} (h : isBlank c = false) (s : List Char) :
    skip (c :: s) = c :: s := by
  simp [skip, h]

section Items

variable {α : Type} {item : List Char → Option (α × List Char)} {close : Char}
  {print : α → List Char} {Good : α → Prop}

/-- An item is read from its text exactly if it is good, whatever of the two comes behind. -/
def Reads (item : List Char → Option (α × List Char)) (close : Char) (print : α → List Char)
    (Good : α → Prop) (x : α) : Prop :=
  ∀ c, c = ',' ∨ c = close → ∀ rest rest',
    item (print x ++ c :: rest) = some (x, rest') ↔ Good x ∧ rest' = c :: rest

/-- What was read when a first item was: the item, and then others behind a comma or the bracket. -/
theorem readItems_eq_some {n : Nat} {s rest : List Char} {x : α} {xs : List α}
    (h : readItems item close (n + 1) s = some (x :: xs, rest)) :
    ∃ behind, item s = some (x, behind) ∧
      ((skip behind).head? = some ',' ∧
          readItems item close n (skip behind).tail = some (xs, rest) ∨
        (skip behind).head? ≠ some ',' ∧ (skip behind).tail = rest ∧ xs = []) := by
  rw [readItems] at h
  obtain ⟨first, hfirst, h⟩ := Option.bind_eq_some_iff.mp h
  dsimp only at h
  split at h
  · rename_i hcomma
    obtain ⟨others, hothers, h⟩ := Option.map_eq_some_iff.mp h
    obtain ⟨hlist, hrest⟩ := Prod.mk.inj h
    obtain ⟨hx, hxs⟩ := List.cons.inj hlist
    subst hx hxs hrest
    exact ⟨first.2, hfirst, .inl ⟨hcomma, hothers⟩⟩
  · rename_i hcomma
    split at h
    · obtain ⟨hlist, hrest⟩ := Prod.mk.inj (Option.some.inj h)
      obtain ⟨hx, hxs⟩ := List.cons.inj hlist
      subst hx
      exact ⟨first.2, hfirst, .inr ⟨hcomma, hrest, hxs.symm⟩⟩
    · cases h

theorem readItems_iff (hcomma : close ≠ ',') (hblank : isBlank close = false) {xs : List α}
    (hxs : xs ≠ []) (hitem : ∀ x ∈ xs, Reads item close print Good x) {n : Nat}
    (hn : xs.length ≤ n) {r rest' : List Char} :
    readItems item close n (JsonRows.items (xs.map print) ++ close :: r) = some (xs, rest') ↔
      (∀ x ∈ xs, Good x) ∧ rest' = r := by
  induction xs generalizing n with
  | nil => exact absurd rfl hxs
  | cons x xs ih =>
    cases n with
    | zero => exact absurd hn (by simp)
    | succ n =>
      have hx := hitem x List.mem_cons_self
      cases xs with
      | nil =>
        rw [List.map_singleton, JsonRows.items_singleton]
        constructor
        · intro h
          obtain ⟨behind, hfirst, h⟩ := readItems_eq_some h
          obtain ⟨hgood, rfl⟩ := (hx close (.inr rfl) r behind).mp hfirst
          rw [skip_cons hblank] at h
          rcases h with ⟨hhead, -⟩ | ⟨-, hrest, -⟩
          · exact absurd (Option.some.inj hhead) hcomma
          · exact ⟨by simpa using hgood, hrest.symm⟩
        · rintro ⟨hgood, rfl⟩
          rw [readItems, (hx close (.inr rfl) rest' _).mpr ⟨hgood x List.mem_cons_self, rfl⟩]
          simp [skip_cons hblank, hcomma]
      | cons y ys =>
        have ih := ih (List.cons_ne_nil y ys) (fun z hz => hitem z (List.mem_cons_of_mem x hz))
          (n := n) (Nat.le_of_succ_le_succ hn)
        rw [List.map_cons] at ih
        rw [List.map_cons, List.map_cons, JsonRows.items_cons_cons, List.append_assoc,
          List.cons_append]
        have hx := hx ',' (.inl rfl) (JsonRows.items (print y :: ys.map print) ++ close :: r)
        constructor
        · intro h
          obtain ⟨behind, hfirst, h⟩ := readItems_eq_some h
          obtain ⟨hgood, rfl⟩ := (hx behind).mp hfirst
          rw [skip_cons rfl] at h
          rcases h with ⟨-, hothers⟩ | ⟨hhead, -⟩
          · obtain ⟨hgoods, hrest⟩ := ih.mp hothers
            exact ⟨List.forall_mem_cons.mpr ⟨hgood, hgoods⟩, hrest⟩
          · exact absurd rfl hhead
        · rintro ⟨hgood, hrest⟩
          obtain ⟨hgx, hgs⟩ := List.forall_mem_cons.mp hgood
          rw [readItems, (hx _).mpr ⟨hgx, rfl⟩]
          simp only [Option.bind_some, skip_cons (show isBlank ',' = false from rfl),
            List.head?_cons, if_true, List.tail_cons]
          rw [ih.mpr ⟨hgs, hrest⟩]
          rfl

theorem length_le_items (ts : List (List Char)) : ts.length ≤ (JsonRows.items ts).length + 1 := by
  induction ts with
  | nil => simp
  | cons t ts ih =>
    cases ts with
    | nil => simp
    | cons u us =>
      rw [JsonRows.items_cons_cons]
      simp only [List.length_cons, List.length_append] at ih ⊢
      omega

theorem readBetween_iff (hcomma : close ≠ ',') (hblank : isBlank close = false)
    (hclose : ∀ s, (skip s).head? = some close → item s = none) {xs : List α}
    (hitem : ∀ x ∈ xs, Reads item close print Good x) {rest rest' : List Char} :
    readBetween item close (JsonRows.items (xs.map print) ++ close :: rest) = some (xs, rest') ↔
      (∀ x ∈ xs, Good x) ∧ rest' = rest := by
  cases xs with
  | nil =>
    simp [readBetween, JsonRows.items, skip_cons hblank, eq_comm]
  | cons x xs =>
    rw [readBetween]
    split
    · rename_i hhead
      constructor
      · intro h
        cases h
      · -- A good item is read, and nothing is read at a closing bracket.
        rintro ⟨hgood, -⟩
        have hread := (readItems_iff hcomma hblank (List.cons_ne_nil x xs) hitem le_rfl
          (r := rest)).mpr ⟨hgood, rfl⟩
        obtain ⟨behind, hfirst, -⟩ := readItems_eq_some hread
        rw [hclose _ hhead] at hfirst
        cases hfirst
    · refine readItems_iff hcomma hblank (List.cons_ne_nil x xs) hitem ?_
      have := length_le_items ((x :: xs).map print)
      simp only [List.length_map, List.length_append] at this ⊢
      omega

end Items

/-- A member, its texts put between quotes as they are. -/
def spliceMember (m : List Char × Value) : List Char := '"' :: (m.1 ++ '"' :: ':' :: splice m.2)

theorem spliceItems_eq (vs : List Value) : spliceItems vs = JsonRows.items (vs.map splice) := by
  induction vs with
  | nil => rfl
  | cons v vs ih =>
    cases vs with
    | nil => rw [spliceItems, List.map_singleton, JsonRows.items_singleton]
    | cons w ws =>
      rw [spliceItems, ih, List.map_cons, List.map_cons, List.map_cons, JsonRows.items_cons_cons]

theorem spliceMembers_eq (ms : List (List Char × Value)) :
    spliceMembers ms = JsonRows.items (ms.map spliceMember) := by
  induction ms with
  | nil => rfl
  | cons m ms ih =>
    obtain ⟨key, v⟩ := m
    cases ms with
    | nil => rw [spliceMembers, List.map_singleton, JsonRows.items_singleton]; rfl
    | cons m' ms =>
      rw [spliceMembers, ih, List.map_cons, List.map_cons, List.map_cons, JsonRows.items_cons_cons]
      simp [spliceMember]

theorem plainItems_iff {vs : List Value} : PlainItems vs ↔ ∀ v ∈ vs, Plain v := by
  induction vs with
  | nil => simp [PlainItems]
  | cons v vs ih => rw [PlainItems, ih, List.forall_mem_cons]

theorem plainMembers_iff {ms : List (List Char × Value)} :
    PlainMembers ms ↔ ∀ m ∈ ms, Clean m.1 ∧ Plain m.2 := by
  induction ms with
  | nil => simp [PlainMembers]
  | cons m ms ih =>
    obtain ⟨key, v⟩ := m
    rw [PlainMembers, ih, List.forall_mem_cons]

theorem depth_le_depthItems {v : Value} {vs : List Value} (h : v ∈ vs) :
    depth v ≤ depthItems vs := by
  induction vs with
  | nil => cases h
  | cons w vs ih =>
    rw [depthItems]
    rcases List.mem_cons.mp h with rfl | h
    · exact le_max_left _ _
    · exact (ih h).trans (le_max_right _ _)

theorem depth_le_depthMembers {m : List Char × Value} {ms : List (List Char × Value)}
    (h : m ∈ ms) : depth m.2 ≤ depthMembers ms := by
  induction ms with
  | nil => cases h
  | cons m' ms ih =>
    obtain ⟨key, v⟩ := m'
    rw [depthMembers]
    rcases List.mem_cons.mp h with rfl | h
    · exact le_max_left _ _
    · exact (ih h).trans (le_max_right _ _)

/-- Characters of numbers are not blank, and open nothing else than a number. -/
theorem isNumeric_head {c : Char} (h : JsonRows.isNumeric c = true) :
    isBlank c = false ∧ c ≠ '"' ∧ c ≠ '[' ∧ c ≠ '{' ∧ c ≠ 'n' ∧ c ≠ 't' ∧ c ≠ 'f' := by
  have hno : ∀ d : Char, JsonRows.isNumeric d = false → c ≠ d := by
    rintro d hd rfl
    rw [h] at hd
    cases hd
  refine ⟨?_, hno _ (by decide), hno _ (by decide), hno _ (by decide), hno _ (by decide),
    hno _ (by decide), hno _ (by decide)⟩
  simp [isBlank, hno ' ' (by decide), hno '\t' (by decide), hno '\n' (by decide),
    hno '\r' (by decide)]

theorem isNumber_nil : isNumber [] = false := by decide

theorem readWord_of_head {c : Char} {s : List Char} (h : JsonRows.isNumeric c = false)
    (hn : c ≠ 'n' ∧ c ≠ 't' ∧ c ≠ 'f') : readWord (c :: s) = none := by
  have htake : (c :: s).takeWhile JsonRows.isNumeric = [] := by simp [h]
  rw [readWord, htake, isNumber_nil]
  simp [hn.1, hn.2.1, hn.2.2]

theorem readWord_number {digits rest : List Char} (hnumber : isNumber digits = true)
    (hdigits : ∀ c ∈ digits, JsonRows.isNumeric c = true) (hrest : JsonRows.Ends rest) :
    readWord (digits ++ rest) = some (.number digits, rest) := by
  obtain ⟨htake, hdrop⟩ := JsonRows.takeWhile_numeric hdigits hrest
  cases digits with
  | nil => rw [isNumber_nil] at hnumber; cases hnumber
  | cons c digits =>
    obtain ⟨-, -, -, -, hn, ht, hf⟩ := isNumeric_head (hdigits c List.mem_cons_self)
    rw [readWord, htake, hdrop, hnumber]
    simp [hn, ht, hf]

/-- **A number is read as itself exactly if it is one.** -/
theorem readValue_number {digits rest rest' : List Char} (n : Nat) (hrest : JsonRows.Ends rest) :
    readValue (n + 1) (digits ++ rest) = some (.number digits, rest') ↔
      (isNumber digits = true ∧ ∀ c ∈ digits, JsonRows.isNumeric c = true) ∧ rest' = rest := by
  constructor
  · intro h
    rw [readValue] at h
    -- Only `readWord` gives a number.
    have h : readWord (skip (digits ++ rest)) = some (.number digits, rest') := by
      split at h
      · obtain ⟨r, -, h⟩ := Option.map_eq_some_iff.mp h
        cases h
      · split at h
        · obtain ⟨r, -, h⟩ := Option.map_eq_some_iff.mp h
          cases h
        · split at h
          · obtain ⟨r, -, h⟩ := Option.map_eq_some_iff.mp h
            cases h
          · exact h
    rw [readWord] at h
    split at h
    · cases h
    split at h
    · cases h
    split at h
    · cases h
    split at h
    · rename_i hnumber
      injection h with h
      injection h with hdigits hdrop
      injection hdigits with hdigits
      rw [hdigits] at hnumber
      have hnumeric : ∀ c ∈ digits, JsonRows.isNumeric c = true := fun c hc =>
        List.mem_takeWhile_imp (hdigits ▸ hc)
      refine ⟨⟨hnumber, hnumeric⟩, ?_⟩
      have hsplit := List.takeWhile_append_dropWhile (p := JsonRows.isNumeric)
        (l := skip (digits ++ rest))
      rw [hdigits, hdrop] at hsplit
      cases digits with
      | nil => rw [isNumber_nil] at hnumber; cases hnumber
      | cons c digits =>
        rw [List.cons_append, List.cons_append,
          skip_cons (isNumeric_head (hnumeric c List.mem_cons_self)).1] at hsplit
        exact List.append_cancel_left (List.cons.inj hsplit).2
    · cases h
  · rintro ⟨⟨hnumber, hnumeric⟩, rfl⟩
    have hword := readWord_number hnumber hnumeric hrest
    cases digits with
    | nil => rw [isNumber_nil] at hnumber; cases hnumber
    | cons c digits =>
      obtain ⟨hblank, hquote, hbracket, hbrace, -⟩ :=
        isNumeric_head (hnumeric c List.mem_cons_self)
      rw [readValue, List.cons_append, skip_cons hblank]
      simp only [List.head?_cons, Option.some.injEq, hquote, hbracket, hbrace, if_false]
      exact hword

theorem readValue_close {s : List Char} (n : Nat) (h : (skip s).head? = some ']') :
    readValue n s = none := by
  cases n with
  | zero => rfl
  | succ n =>
    obtain ⟨t, ht⟩ := List.head?_eq_some_iff.mp h
    rw [readValue, ht]
    exact readWord_of_head (c := ']') (s := t) (by decide) (by decide)

theorem readMember_iff {value : List Char → Option (Value × List Char)}
    {m : List Char × Value} {rest rest' : List Char}
    (h : ∀ r, value (splice m.2 ++ rest) = some (m.2, r) ↔ Plain m.2 ∧ r = rest) :
    readMember value (spliceMember m ++ rest) = some (m, rest') ↔
      (Clean m.1 ∧ Plain m.2) ∧ rest' = rest := by
  have hquote : isBlank '"' = false := rfl
  have hcolon : isBlank ':' = false := rfl
  rw [readMember, spliceMember, List.cons_append, skip_cons hquote, List.append_assoc,
    List.cons_append, List.cons_append]
  simp only [List.head?_cons, if_true, List.tail_cons]
  constructor
  · intro hm
    obtain ⟨key, hkey, hm⟩ := Option.bind_eq_some_iff.mp hm
    split at hm
    · obtain ⟨r, hr, hm⟩ := Option.map_eq_some_iff.mp hm
      obtain ⟨rfl, rfl⟩ := Prod.mk.inj hm
      obtain ⟨hclean, hbehind⟩ := readText_iff.mp hkey
      rw [hbehind, skip_cons hcolon, List.tail_cons] at hr
      obtain ⟨hplain, hrest⟩ := (h r.2).mp hr
      exact ⟨⟨hclean, hplain⟩, hrest⟩
    · cases hm
  · rintro ⟨⟨hclean, hplain⟩, rfl⟩
    rw [readText_iff.mpr ⟨hclean, rfl⟩]
    simp only [Option.bind_some, skip_cons hcolon, List.head?_cons, if_true, List.tail_cons]
    rw [(h rest').mpr ⟨hplain, rfl⟩]
    rfl

theorem readMember_close {value : List Char → Option (Value × List Char)} {s : List Char}
    (h : (skip s).head? = some '}') : readMember value s = none := by
  rw [readMember, h]
  rfl

theorem ends_cons {c : Char} (h : JsonRows.isNumeric c = false) (s : List Char) :
    JsonRows.Ends (c :: s) := by
  rintro d hd
  cases hd
  exact h

theorem toDigits_head {n : Nat} (h : 0 < n) : (Nat.toDigits 10 n).head? ≠ some '0' := by
  induction n using Nat.strong_induction_on with
  | _ n ih =>
    rcases Nat.lt_or_ge n 10 with hlt | hge
    · rw [Nat.toDigits_of_lt_base hlt]
      have hno : ∀ d < 10, 0 < d → [Nat.digitChar d].head? ≠ some '0' := by decide
      exact hno n hlt h
    · rw [Nat.toDigits_of_base_le (by decide) hge]
      have hdiv : 0 < n / 10 := by omega
      rw [List.head?_append_of_ne_nil _ Nat.toDigits_ne_nil]
      exact ih (n / 10) (by omega) hdiv

/-- The digits of a number are a number. -/
theorem isNumber_toDigits (n : Nat) : isNumber (Nat.toDigits 10 n) = true := by
  have hdigit : ∀ c ∈ Nat.toDigits 10 n, c.isDigit = true := fun c =>
    Nat.isDigit_of_mem_toDigits (by decide) (by decide)
  rcases Nat.eq_zero_or_pos n with rfl | hpos
  · decide
  have hsign : (Nat.toDigits 10 n).head? ≠ some '-' := by
    intro h
    have := hdigit '-' (List.mem_of_mem_head? h)
    revert this
    decide
  rw [isNumber, if_neg hsign, isMagnitude, if_neg (toDigits_head hpos), digitsThen,
    List.takeWhile_eq_self_iff.mpr hdigit, List.dropWhile_eq_nil_iff.mpr hdigit]
  simp [Nat.toDigits_ne_nil, isFraction, isExponent]

theorem isNumeric_toDigits {n : Nat} {c : Char} (h : c ∈ Nat.toDigits 10 n) :
    JsonRows.isNumeric c = true := by
  simp [JsonRows.isNumeric, Nat.isDigit_of_mem_toDigits (by decide) (by decide) h]

/-- **What was spliced is read as the value that was meant exactly if the value is plain.** The
induction is on the fuel, which bounds how deep the value is nested. -/
theorem readValue_splice {n : Nat} {v : Value} (hn : depth v ≤ n) {rest rest' : List Char}
    (hrest : JsonRows.Ends rest) :
    readValue n (splice v ++ rest) = some (v, rest') ↔ Plain v ∧ rest' = rest := by
  induction n generalizing v rest rest' with
  | zero => cases v <;> simp [depth] at hn
  | succ n ih =>
    cases v with
    | null =>
      have : readValue (n + 1) (splice .null ++ rest) = some (.null, rest) := rfl
      simp [this, Plain, eq_comm]
    | bool b =>
      have : readValue (n + 1) (splice (.bool b) ++ rest) = some (.bool b, rest) := by
        cases b <;> rfl
      simp [this, Plain, eq_comm]
    | number digits => exact readValue_number n hrest
    | text s =>
      have : readValue (n + 1) (splice (.text s) ++ rest) =
          (readText (s ++ '"' :: rest)).map fun r => (.text r.1, r.2) := by
        simp [readValue, splice, skip_cons (show isBlank '"' = false from rfl)]
      rw [this, Plain, ← readText_iff]
      simp [Option.map_eq_some_iff, Prod.ext_iff]
    | array items =>
      have : readValue (n + 1) (splice (.array items) ++ rest) =
          (readBetween (readValue n) ']' (JsonRows.items (items.map splice) ++ ']' :: rest)).map
            fun r => (.array r.1, r.2) := by
        simp [readValue, splice, spliceItems_eq, skip_cons (show isBlank '[' = false from rfl)]
      have hitem : ∀ v ∈ items, Reads (readValue n) ']' splice Plain v := by
        intro v hv c hc rest rest'
        refine ih ?_ (ends_cons (by rcases hc with rfl | rfl <;> decide) rest)
        have := depth_le_depthItems hv
        rw [depth] at hn
        omega
      rw [this, Plain, plainItems_iff, ← readBetween_iff (by decide) (by decide)
        (fun s => readValue_close n) hitem]
      simp [Option.map_eq_some_iff, Prod.ext_iff]
    | object members =>
      have : readValue (n + 1) (splice (.object members) ++ rest) =
          ((readBetween (readMember (readValue n)) '}'
            (JsonRows.items (members.map spliceMember) ++ '}' :: rest)).filter fun r =>
              decide (r.1.map Prod.fst).Nodup).map fun r => (.object r.1, r.2) := by
        simp [readValue, splice, spliceMembers_eq, skip_cons (show isBlank '{' = false from rfl)]
      have hitem : ∀ m ∈ members, Reads (readMember (readValue n)) '}' spliceMember
          (fun m => Clean m.1 ∧ Plain m.2) m := by
        intro m hm c hc rest rest'
        refine readMember_iff fun r => ih ?_ (ends_cons (by rcases hc with rfl | rfl <;> decide) rest)
        have := depth_le_depthMembers hm
        rw [depth] at hn
        omega
      have hclose : ∀ s, (skip s).head? = some '}' → readMember (readValue n) s = none :=
        fun s => readMember_close
      rw [this, Plain, plainMembers_iff, and_assoc,
        ← readBetween_iff (by decide) (by decide) hclose hitem]
      constructor
      · intro h
        obtain ⟨r, hr, h⟩ := Option.map_eq_some_iff.mp h
        obtain ⟨hr, hnodup⟩ := Option.filter_eq_some_iff.mp hr
        obtain ⟨hmembers, rfl⟩ := Prod.mk.inj h
        injection hmembers with hmembers
        subst hmembers
        exact ⟨of_decide_eq_true hnodup, hr⟩
      · rintro ⟨hnodup, hr⟩
        rw [hr]
        simp [hnodup]

mutual

theorem depth_le_length (v : Value) : depth v ≤ (splice v).length + 1 := by
  cases v with
  | array items =>
    have := depthItems_le_length items
    simp only [depth, splice, List.length_cons, List.length_append, List.length_nil]
    omega
  | object members =>
    have := depthMembers_le_length members
    simp only [depth, splice, List.length_cons, List.length_append, List.length_nil]
    omega
  | null => simp [depth]
  | bool b => simp [depth]
  | number digits => simp [depth]
  | text s => simp [depth]

theorem depthItems_le_length (vs : List Value) : depthItems vs ≤ (spliceItems vs).length + 1 := by
  cases vs with
  | nil => simp [depthItems]
  | cons v vs =>
    have hv := depth_le_length v
    have hvs := depthItems_le_length vs
    cases vs with
    | nil => simpa [depthItems, spliceItems] using hv
    | cons w ws =>
      rw [depthItems, spliceItems]
      simp only [List.length_cons, List.length_append]
      omega

theorem depthMembers_le_length (ms : List (List Char × Value)) :
    depthMembers ms ≤ (spliceMembers ms).length + 1 := by
  cases ms with
  | nil => simp [depthMembers]
  | cons m ms =>
    obtain ⟨key, v⟩ := m
    have hv := depth_le_length v
    have hms := depthMembers_le_length ms
    cases ms with
    | nil =>
      simp only [depthMembers, spliceMembers, List.length_cons, List.length_append]
      omega
    | cons m' ms =>
      rw [depthMembers, spliceMembers]
      simp only [List.length_cons, List.length_append]
      omega

end

/-- **Reading a whole text that was spliced.** -/
theorem read_splice {v : Value} : read (splice v) = some v ↔ Plain v := by
  have hread : ∀ rest', readValue ((splice v).length + 1) (splice v) = some (v, rest') ↔
      Plain v ∧ rest' = [] := by
    intro rest'
    have h : readValue ((splice v).length + 1) (splice v ++ []) = some (v, rest') ↔
        Plain v ∧ rest' = [] := readValue_splice (depth_le_length v) (by simp [JsonRows.Ends])
    rwa [List.append_nil] at h
  rw [read]
  constructor
  · intro h
    obtain ⟨r, hr, rfl⟩ := Option.map_eq_some_iff.mp h
    exact ((hread r.2).mp (Option.filter_eq_some_iff.mp hr).1).1
  · intro h
    rw [(hread []).mpr ⟨h, rfl⟩]
    rfl

theorem read_splice_append {v : Value} {c : Char} (hnumeric : JsonRows.isNumeric c = false)
    (hblank : isBlank c = false) (s : List Char) : read (splice v ++ c :: s) ≠ some v := by
  intro h
  obtain ⟨r, hr, rfl⟩ := Option.map_eq_some_iff.mp h
  obtain ⟨hread, hend⟩ := Option.filter_eq_some_iff.mp hr
  have hdepth : depth r.1 ≤ (splice r.1 ++ c :: s).length + 1 := by
    have := depth_le_length r.1
    rw [List.length_append]
    omega
  rw [((readValue_splice hdepth (ends_cons hnumeric s)).mp hread).2, skip_cons hblank] at hend
  cases hend

/-! ### No line is broken -/

theorem IsPlain.of_isNumeric {c : Char} (h : JsonRows.isNumeric c = true) : 0x20 ≤ c.toNat := by
  by_contra hlt
  have hno : ∀ n < 0x20, JsonRows.isNumeric (Char.ofNat n) = false := by decide
  have := hno c.toNat (by omega)
  rw [Char.ofNat_toNat, h] at this
  cases this

theorem forall_mem_items {P : Char → Prop} (hcomma : P ',') {ts : List (List Char)}
    (h : ∀ t ∈ ts, ∀ c ∈ t, P c) : ∀ c ∈ JsonRows.items ts, P c := by
  induction ts with
  | nil => intro c hc; cases hc
  | cons t ts ih =>
    obtain ⟨ht, hts⟩ := List.forall_mem_cons.mp h
    cases ts with
    | nil => rwa [JsonRows.items_singleton]
    | cons u us =>
      rw [JsonRows.items_cons_cons]
      exact List.forall_mem_append.mpr ⟨ht, List.forall_mem_cons.mpr ⟨hcomma, ih hts⟩⟩

theorem mem_items {c : Char} {t : List Char} {ts : List (List Char)} (ht : t ∈ ts) (hc : c ∈ t) :
    c ∈ JsonRows.items ts := by
  induction ts with
  | nil => cases ht
  | cons u ts ih =>
    cases ts with
    | nil => rwa [JsonRows.items_singleton, ← List.mem_singleton.mp ht]
    | cons u' us =>
      rw [JsonRows.items_cons_cons]
      rcases List.mem_cons.mp ht with rfl | ht
      · exact List.mem_append_left _ hc
      · exact List.mem_append_right _ (List.mem_cons_of_mem _ (ih ht))

/-- A text that was spliced from a plain value has no control characters. -/
theorem forall_mem_splice {n : Nat} {v : Value} (hn : depth v ≤ n) (h : Plain v) :
    ∀ c ∈ splice v, 0x20 ≤ c.toNat := by
  induction n generalizing v with
  | zero => cases v <;> simp [depth] at hn
  | succ n ih =>
    cases v with
    | null => simp [splice]
    | bool b => cases b <;> simp [splice]
    | number digits => exact fun c hc => IsPlain.of_isNumeric (h.2 c hc)
    | text s =>
      intro c hc
      rcases List.mem_cons.mp hc with rfl | hc
      · decide
      · rcases List.mem_append.mp hc with hc | hc
        · exact (h.1 c hc).2.2
        · rw [List.mem_singleton.mp hc]
          decide
    | array items =>
      rw [Plain, plainItems_iff] at h
      rw [splice, spliceItems_eq]
      refine List.forall_mem_cons.mpr ⟨by decide, List.forall_mem_append.mpr
        ⟨?_, List.forall_mem_singleton.mpr (by decide)⟩⟩
      refine forall_mem_items (by decide) (List.forall_mem_map.mpr fun v hv => ih ?_ (h v hv))
      have := depth_le_depthItems hv
      rw [depth] at hn
      omega
    | object members =>
      rw [Plain, plainMembers_iff] at h
      rw [splice, spliceMembers_eq]
      refine List.forall_mem_cons.mpr ⟨by decide, List.forall_mem_append.mpr
        ⟨?_, List.forall_mem_singleton.mpr (by decide)⟩⟩
      refine forall_mem_items (by decide) (List.forall_mem_map.mpr fun m hm => ?_)
      have hdepth := depth_le_depthMembers hm
      rw [depth] at hn
      refine List.forall_mem_cons.mpr ⟨by decide, List.forall_mem_append.mpr
        ⟨fun c hc => ((h.2 m hm).1.1 c hc).2.2, ?_⟩⟩
      exact List.forall_mem_cons.mpr ⟨by decide, List.forall_mem_cons.mpr
        ⟨by decide, ih (by omega) (h.2 m hm).2⟩⟩

end Json

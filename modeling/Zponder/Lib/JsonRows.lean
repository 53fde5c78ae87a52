import Mathlib

/-!
# Rows in JSON

The answer of a query to a table is, more often than not, a JSON array of objects whose
members are texts, numbers and `null`. A reader for this part of JSON, byte by byte:
`JsonRows.readRows` gives the members of every object, in the order they are in, or nothing
if the text is not such an array.

A row is read back from what was written (`JsonRows.readObject_object`,
`JsonRows.readRows_rows`), whatever bytes its texts are of, provided the writer escapes
them so that each can be read (`JsonRows.Escapes`). An array with an item that cannot be
read is not read at all (`JsonRows.readRows_bad`).
-/

namespace JsonRows

/-- The value of a member. A number is left as it is written. -/
inductive Value where
  | null
  | number (digits : List Char)
  | text (s : List Char)
  deriving DecidableEq, Repr

/-- The members of an object. -/
abbrev Row := List (List Char × Value)

/-! ### Reading a string -/

/-- Where in a string the reader is. -/
inductive Mode where
  | plain
  | escape
  | unicode (digits : List Char)

/-- The byte of a short escape. -/
def unescape (c : Char) : Option Char :=
  if c = '"' ∨ c = '\\' ∨ c = '/' then some c
  else if c = 'n' then some '\n'
  else if c = 'r' then some '\r'
  else if c = 't' then some '\t'
  else if c = 'b' then some (Char.ofNat 8)
  else if c = 'f' then some (Char.ofNat 12)
  else none

/-- The value of a hex digit. -/
def hexValue (c : Char) : Option Nat :=
  if '0' ≤ c ∧ c ≤ '9' then some (c.toNat - '0'.toNat)
  else if 'a' ≤ c ∧ c ≤ 'f' then some (c.toNat - 'a'.toNat + 10)
  else if 'A' ≤ c ∧ c ≤ 'F' then some (c.toNat - 'A'.toNat + 10)
  else none

/-- The bytes of a code point below `2 ^ 16`. -/
def utf8 (n : Nat) : List Char :=
  if n < 0x80 then [Char.ofNat n]
  else if n < 0x800 then [Char.ofNat (0xC0 + n / 64), Char.ofNat (0x80 + n % 64)]
  else [Char.ofNat (0xE0 + n / 4096), Char.ofNat (0x80 + n / 64 % 64), Char.ofNat (0x80 + n % 64)]

/-- The bytes of `\uXXXX`. -/
def codePoint (digits : List Char) : Option (List Char) :=
  (digits.mapM hexValue).map fun ds => utf8 (ds.foldl (fun n d => n * 16 + d) 0)

/-- What was read goes before what is read next. -/
def push (bytes : List Char) (r : Option (List Char × List Char)) : Option (List Char × List Char) :=
  r.map fun r => (bytes ++ r.1, r.2)

/-- A string up to its closing quote, and what comes behind. -/
def readString : Mode → List Char → Option (List Char × List Char)
  | _, [] => none
  | .plain, c :: s =>
    if c = '"' then some ([], s)
    else if c = '\\' then readString .escape s
    else if c.toNat < 0x20 then none
    else push [c] (readString .plain s)
  | .escape, c :: s =>
    if c = 'u' then readString (.unicode []) s
    else (unescape c).bind fun d => push [d] (readString .plain s)
  | .unicode digits, c :: s =>
    if digits.length < 3 then readString (.unicode (digits ++ [c])) s
    else (codePoint (digits ++ [c])).bind fun bytes => push bytes (readString .plain s)

/-! ### Reading rows -/

/-- The characters of a number. -/
def isNumeric (c : Char) : Bool := c.isDigit || c == '-' || c == '+' || c == '.' || c == 'e' || c == 'E'

/-- The value of a member, and what comes behind. -/
def readValue (s : List Char) : Option (Value × List Char) :=
  if s.head? = some '"' then (readString .plain s.tail).map fun r => (.text r.1, r.2)
  else if s.take 4 = "null".toList then some (.null, s.drop 4)
  else if s.takeWhile isNumeric = [] then none
  else some (.number (s.takeWhile isNumeric), s.dropWhile isNumeric)

/-- A member. -/
def readMember (s : List Char) : Option ((List Char × Value) × List Char) :=
  if s.head? = some '"' then
    (readString .plain s.tail).bind fun key =>
      if key.2.head? = some ':' then
        (readValue key.2.tail).map fun value => ((key.1, value.1), value.2)
      else none
  else none

section Items

variable {α : Type} (item : List Char → Option (α × List Char)) (close : Char)

/-- Items with commas in between, up to the closing bracket. There is at least one. -/
def readItems : Nat → List Char → Option (List α × List Char)
  | 0, _ => none
  | n + 1, s =>
    (item s).bind fun first =>
      if first.2.head? = some ',' then
        (readItems n first.2.tail).map fun others => (first.1 :: others.1, others.2)
      else if first.2.head? = some close then some ([first.1], first.2.tail)
      else none

/-- Items in brackets. -/
def readBetween (openWith : Char) : List Char → Option (List α × List Char)
  | [] => none
  | c :: s =>
    if c ≠ openWith then none
    else if s.head? = some close then some ([], s.tail)
    else readItems item close (s.length + 1) s

end Items

/-- An object. -/
def readObject (s : List Char) : Option (Row × List Char) :=
  readBetween readMember '}' '{' s

/-- An array of objects, and nothing behind it. -/
def readRows (s : List Char) : Option (List Row) :=
  (readBetween readObject ']' '[' s).bind fun r => if r.2 = [] then some r.1 else none

/-! ### Writing rows -/

section Write

variable (esc : Char → List Char)

/-- A text in quotes. -/
def quoted (s : List Char) : List Char := '"' :: (s.flatMap esc ++ ['"'])

/-- The value of a member. -/
def value : Value → List Char
  | .null => "null".toList
  | .number digits => digits
  | .text s => quoted esc s

/-- A member. -/
def member (m : List Char × Value) : List Char := quoted esc m.1 ++ ':' :: value esc m.2

/-- Texts with commas in between. -/
def items (ts : List (List Char)) : List Char := [','].intercalate ts

/-- An object. -/
def object (row : Row) : List Char := '{' :: (items (row.map (member esc)) ++ ['}'])

/-- An array of texts. -/
def array (ts : List (List Char)) : List Char := '[' :: (items ts ++ [']'])

end Write

theorem items_cons_cons (t u : List Char) (ts : List (List Char)) :
    items (t :: u :: ts) = t ++ ',' :: items (u :: ts) := by
  simp [items, List.intercalate]

theorem items_singleton (t : List Char) : items [t] = t := by
  simp [items, List.intercalate]

/-- **What is escaped is read again.** -/
def Escapes (esc : Char → List Char) : Prop :=
  ∀ c s, readString .plain (esc c ++ s) = push [c] (readString .plain s)

/-- A number has a digit, and only characters of numbers. -/
def Value.Numeric : Value → Prop
  | .number digits => digits ≠ [] ∧ ∀ c ∈ digits, isNumeric c = true
  | _ => True

/-- What comes behind a value does not go on with it. -/
def Ends (rest : List Char) : Prop := ∀ c ∈ rest.head?, isNumeric c = false

section Read

variable {esc : Char → List Char}

theorem readString_flatMap (h : Escapes esc) (s rest : List Char) :
    readString .plain (s.flatMap esc ++ '"' :: rest) = some (s, rest) := by
  induction s with
  | nil => rfl
  | cons c s ih =>
    rw [List.flatMap_cons, List.append_assoc, h, ih]
    rfl

theorem takeWhile_numeric {digits rest : List Char} (h : ∀ c ∈ digits, isNumeric c = true)
    (hrest : Ends rest) : (digits ++ rest).takeWhile isNumeric = digits ∧
      (digits ++ rest).dropWhile isNumeric = rest := by
  induction digits with
  | nil =>
    cases rest with
    | nil => exact ⟨rfl, rfl⟩
    | cons c rest => simp [hrest c rfl]
  | cons c digits ih =>
    have hc := h c List.mem_cons_self
    have := ih fun d hd => h d (List.mem_cons_of_mem c hd)
    simp [hc, this.1, this.2]

theorem readValue_value (h : Escapes esc) {v : Value} (hv : v.Numeric) {rest : List Char}
    (hrest : Ends rest) : readValue (value esc v ++ rest) = some (v, rest) := by
  cases v with
  | null => rfl
  | text s =>
    rw [value, quoted, readValue]
    simp only [List.cons_append, List.head?_cons, if_true, List.tail_cons, List.append_assoc,
      List.nil_append, readString_flatMap h, Option.map_some]
  | number digits =>
    obtain ⟨hne, hdigits⟩ := hv
    obtain ⟨htake, hdrop⟩ := takeWhile_numeric hdigits hrest
    cases digits with
    | nil => exact absurd rfl hne
    | cons d ds =>
      have hd := hdigits d List.mem_cons_self
      have hquote : d ≠ '"' := by
        rintro rfl
        exact absurd hd (by decide)
      have hnull : d ≠ 'n' := by
        rintro rfl
        exact absurd hd (by decide)
      rw [value, readValue, if_neg (by simpa using hquote), if_neg, if_neg, htake, hdrop]
      · rw [htake]
        exact hne
      · rw [List.cons_append, List.take_succ_cons]
        exact fun heq => hnull (List.cons.inj heq).1

theorem readMember_member (h : Escapes esc) {m : List Char × Value} (hm : m.2.Numeric)
    {rest : List Char} (hrest : Ends rest) :
    readMember (member esc m ++ rest) = some (m, rest) := by
  rw [member, quoted, readMember]
  simp only [List.cons_append, List.head?_cons, if_true, List.tail_cons, List.append_assoc,
    List.nil_append, readString_flatMap h, Option.bind_some]
  rw [readValue_value h hm hrest]
  rfl

section Items

variable {α : Type} {item : List Char → Option (α × List Char)} {close : Char}
  {print : α → List Char}

/-- Items that are each read from what is printed are read one after the other. -/
theorem readItems_items {xs : List α} (hne : xs ≠ []) (hclose : close ≠ ',')
    (h : ∀ x ∈ xs, ∀ c rest, c = ',' ∨ c = close →
      item (print x ++ c :: rest) = some (x, c :: rest)) {n : Nat} (hn : xs.length ≤ n)
    (rest : List Char) :
    readItems item close n (items (xs.map print) ++ close :: rest) = some (xs, rest) := by
  induction xs generalizing n with
  | nil => exact absurd rfl hne
  | cons x xs ih =>
    cases n with
    | zero => simp at hn
    | succ n =>
      cases xs with
      | nil =>
        rw [List.map_singleton, items_singleton, readItems,
          h x List.mem_cons_self close rest (.inr rfl), Option.bind_some]
        simp [hclose]
      | cons y ys =>
        rw [List.map_cons, List.map_cons, items_cons_cons, List.append_assoc, List.cons_append,
          readItems, h x List.mem_cons_self ',' _ (.inl rfl), Option.bind_some]
        simp only [List.head?_cons, if_true, List.tail_cons]
        rw [← List.map_cons, ih (by simp) (fun z hz => h z (List.mem_cons_of_mem x hz))
          (by simpa using hn)]
        rfl

/-- What is printed of an item begins with a character that is not the closing bracket. -/
def Opens (close : Char) (t : List Char) : Prop := ∃ c s, t = c :: s ∧ c ≠ close

theorem length_le_items {ts : List (List Char)} (h : ∀ t ∈ ts, Opens close t) :
    ts.length ≤ (items ts).length := by
  induction ts with
  | nil => exact Nat.zero_le _
  | cons t ts ih =>
    obtain ⟨c, s, rfl, -⟩ := h t List.mem_cons_self
    cases ts with
    | nil => simp [items_singleton]
    | cons u us =>
      have := ih fun v hv => h v (List.mem_cons_of_mem _ hv)
      rw [items_cons_cons]
      simp only [List.length_cons, List.length_append] at this ⊢
      omega

theorem head?_items {t : List Char} {ts : List (List Char)} (ht : Opens close t)
    (rest : List Char) : (items (t :: ts) ++ rest).head? ≠ some close := by
  obtain ⟨c, s, rfl, hc⟩ := ht
  cases ts with
  | nil => simpa [items_singleton] using hc
  | cons u us => simpa [items_cons_cons] using hc

theorem readBetween_items {openWith : Char} {xs : List α} (hclose : close ≠ ',')
    (hopens : ∀ x ∈ xs, Opens close (print x))
    (h : ∀ x ∈ xs, ∀ c rest, c = ',' ∨ c = close →
      item (print x ++ c :: rest) = some (x, c :: rest)) (rest : List Char) :
    readBetween item close openWith (openWith :: (items (xs.map print) ++ [close]) ++ rest) =
      some (xs, rest) := by
  rw [List.cons_append, List.append_assoc, List.singleton_append, readBetween,
    if_neg (not_not.2 rfl)]
  cases xs with
  | nil => simp [items, List.intercalate]
  | cons x xs =>
    have hopens' : ∀ t ∈ (x :: xs).map print, Opens close t := by
      intro t ht
      obtain ⟨y, hy, rfl⟩ := List.mem_map.1 ht
      exact hopens y hy
    have hlen := length_le_items hopens'
    rw [List.length_map] at hlen
    rw [List.map_cons, if_neg (head?_items (hopens x List.mem_cons_self) _), ← List.map_cons]
    refine readItems_items (by simp) hclose h ?_ rest
    simp only [List.length_cons, List.length_append] at hlen ⊢
    omega

/-- **An item that cannot be read** spoils them all. The items before it are read, or are
like it. -/
theorem readItems_bad {ts : List (List Char)}
    (h : ∀ t ∈ ts, (∃ x, ∀ c rest, c = ',' ∨ c = close →
      item (t ++ c :: rest) = some (x, c :: rest)) ∨ ∀ rest, item (t ++ rest) = none)
    {t : List Char} (ht : t ∈ ts) (hbad : ∀ rest, item (t ++ rest) = none) (n : Nat)
    (rest : List Char) : readItems item close n (items ts ++ close :: rest) = none := by
  induction ts generalizing n with
  | nil => cases ht
  | cons u us ih =>
    cases n with
    | zero => rfl
    | succ n =>
      rw [readItems]
      rcases h u List.mem_cons_self with ⟨x, hx⟩ | hu
      · cases us with
        | nil =>
          rw [List.mem_singleton.1 ht] at hbad
          rw [items_singleton, hbad]
          rfl
        | cons v vs =>
          rw [items_cons_cons, List.append_assoc, List.cons_append, hx ',' _ (.inl rfl)]
          have hrest : readItems item close n (items (v :: vs) ++ close :: rest) = none := by
            rcases List.mem_cons.1 ht with rfl | ht
            · exact absurd ((hx ',' [] (.inl rfl)).symm.trans (hbad [','])) (by simp)
            · exact ih (fun w hw => h w (List.mem_cons_of_mem u hw)) ht n
          simp [hrest]
      · cases us with
        | nil =>
          rw [items_singleton, hu]
          rfl
        | cons v vs =>
          rw [items_cons_cons, List.append_assoc, hu]
          rfl

end Items

theorem opens_member (m : List Char × Value) : Opens '}' (member esc m) :=
  ⟨'"', _, rfl, by decide⟩

theorem opens_object (row : Row) : Opens ']' (object esc row) := ⟨'{', _, rfl, by decide⟩

/-- **An object is read back**, its members in the order they are in. -/
theorem readObject_object (h : Escapes esc) {row : Row} (hrow : ∀ m ∈ row, m.2.Numeric)
    (rest : List Char) : readObject (object esc row ++ rest) = some (row, rest) := by
  refine readBetween_items (by decide) (fun m _ => opens_member m) (fun m hm c rest hc => ?_) rest
  refine readMember_member h (hrow m hm) fun d hd => ?_
  obtain rfl := Option.some.inj hd
  rcases hc with rfl | rfl
  · decide
  · decide

/-- **An array of objects is read back.** -/
theorem readRows_rows (h : Escapes esc) {rows : List Row}
    (hrows : ∀ row ∈ rows, ∀ m ∈ row, m.2.Numeric) :
    readRows (array (rows.map (object esc))) = some rows := by
  have hread : readBetween readObject ']' '[' (array (rows.map (object esc)) ++ []) =
      some (rows, []) :=
    readBetween_items (by decide) (fun row _ => opens_object row)
      (fun row hrow c rest _ => readObject_object h (hrows row hrow) (c :: rest)) []
  rw [List.append_nil] at hread
  rw [readRows, hread]
  rfl

/-- **An array with an item that is no object is not read.** -/
theorem readRows_bad {ts : List (List Char)}
    (h : ∀ t ∈ ts, (∃ row, ∀ rest, readObject (t ++ rest) = some (row, rest)) ∨
      ∀ rest, readObject (t ++ rest) = none)
    (hopens : ∀ t ∈ ts, Opens ']' t) {t : List Char} (ht : t ∈ ts)
    (hbad : ∀ rest, readObject (t ++ rest) = none) : readRows (array ts) = none := by
  rw [readRows, array, readBetween, if_neg (not_not.2 rfl)]
  cases ts with
  | nil => cases ht
  | cons u us =>
    rw [if_neg (head?_items (hopens u List.mem_cons_self) _), readItems_bad ?_ ht hbad]
    · rfl
    · exact fun v hv => (h v hv).imp_left fun hrow =>
        hrow.imp fun row hrow c rest _ => hrow (c :: rest)

end Read

end JsonRows

import Mathlib

/-!
# Text

Everything the indexer reads from a node, a configuration file or a database
column is a byte string, and much of what it decides rests on how it compares and
cuts such strings: addresses and hashes are compared ignoring the case of their
hex digits, an address is the key of a table in its lower-case form, the topics of
a cached log are joined with commas and split again, the topics of a dead letter
travel through a small JSON array.

A text is modelled as the list of its bytes, each a `Char`. Only the ASCII letters
have a case (`Char.toLower` changes nothing else).
-/

namespace Zponder

/-- A byte string. -/
abbrev Text := List Char

namespace Text

/-! ### Comparing -/

/-- `std.ascii.lowerString` -/
def lower (s : Text) : Text := s.map Char.toLower

/-- `std.ascii.eqlIgnoreCase` -/
def eqlIgnoreCase (a b : Text) : Bool := lower a == lower b

theorem eqlIgnoreCase_iff {a b : Text} : eqlIgnoreCase a b = true ↔ lower a = lower b := by
  simp [eqlIgnoreCase]

@[simp] theorem eqlIgnoreCase_refl (a : Text) : eqlIgnoreCase a a = true := by
  simp [eqlIgnoreCase]

theorem eqlIgnoreCase_comm (a b : Text) : eqlIgnoreCase a b = eqlIgnoreCase b a := by
  rw [Bool.eq_iff_iff, eqlIgnoreCase_iff, eqlIgnoreCase_iff, eq_comm]

@[simp] theorem lower_lower (s : Text) : lower (lower s) = lower s := by
  simp [lower]

@[simp] theorem length_lower (s : Text) : (lower s).length = s.length := by
  simp [lower]

theorem eqlIgnoreCase_lower (a : Text) : eqlIgnoreCase (lower a) a = true := by
  rw [eqlIgnoreCase_iff, lower_lower]

theorem eqlIgnoreCase_trans {a b c : Text} (h₁ : eqlIgnoreCase a b = true)
    (h₂ : eqlIgnoreCase b c = true) : eqlIgnoreCase a c = true := by
  rw [eqlIgnoreCase_iff] at *
  rw [h₁, h₂]

/-- `std.mem.order`: the lexicographic order of byte strings. -/
def le : Text → Text → Bool
  | [], _ => true
  | _ :: _, [] => false
  | a :: as, b :: bs => if a = b then le as bs else a.toNat < b.toNat

/-! ### Addresses -/

/-- The shape of an address that is ever rewritten: `0x` and forty more bytes. -/
def isAddress (s : Text) : Bool := s.length == 42 && "0x".toList.isPrefixOf s

/-- `normalizeHexAddress`: the lower-case form, or nothing for another shape. -/
def normalizeHexAddress (s : Text) : Option Text :=
  if isAddress s then some (lower s) else none

/-- `log_cache.cacheAddress`: the lower-case form, other shapes as they are. -/
def cacheAddress (s : Text) : Text :=
  if isAddress s then lower s else s

theorem cacheAddress_eq (s : Text) : cacheAddress s = (normalizeHexAddress s).getD s := by
  unfold cacheAddress normalizeHexAddress
  split <;> rfl

theorem isAddress_lower {s : Text} (h : isAddress s = true) : isAddress (lower s) = true := by
  rcases s with _ | ⟨a, _ | ⟨b, s⟩⟩
  · simp [isAddress] at h
  · simp [isAddress] at h
  · simp only [isAddress, Bool.and_eq_true, beq_iff_eq] at h ⊢
    obtain ⟨hlen, hpre⟩ := h
    have hab : '0' = a ∧ 'x' = b := by
      simpa [List.isPrefixOf] using hpre
    obtain ⟨rfl, rfl⟩ := hab
    exact ⟨by simpa using hlen, by simp [lower, List.isPrefixOf]⟩

@[simp] theorem cacheAddress_idem (s : Text) : cacheAddress (cacheAddress s) = cacheAddress s := by
  unfold cacheAddress
  by_cases h : isAddress s
  · simp [h, isAddress_lower h]
  · simp [h]

theorem eqlIgnoreCase_cacheAddress (s : Text) : eqlIgnoreCase (cacheAddress s) s = true := by
  unfold cacheAddress
  split
  · exact eqlIgnoreCase_lower s
  · exact eqlIgnoreCase_refl s

theorem isAddress_cacheAddress {s : Text} (h : isAddress s = true) :
    isAddress (cacheAddress s) = true := by
  rw [cacheAddress, if_pos h]
  exact isAddress_lower h

/-- Two addresses with one lower-case form differ in case only. -/
theorem eqlIgnoreCase_of_cacheAddress {a b : Text} (h : cacheAddress b = cacheAddress a) :
    eqlIgnoreCase a b = true := by
  have h₁ := eqlIgnoreCase_cacheAddress a
  have h₂ := eqlIgnoreCase_cacheAddress b
  rw [eqlIgnoreCase_comm] at h₁
  exact eqlIgnoreCase_trans h₁ (h ▸ h₂)

/-- Of addresses, the converse holds too. -/
theorem cacheAddress_eq_of_eqlIgnoreCase {a b : Text} (ha : isAddress a = true)
    (hb : isAddress b = true) (h : eqlIgnoreCase a b = true) : cacheAddress b = cacheAddress a := by
  rw [cacheAddress, cacheAddress, if_pos ha, if_pos hb, (eqlIgnoreCase_iff.1 h)]

/-! ### Numbers -/

/-- `std.fmt.charToDigit` -/
def charToDigit (c : Char) (base : Nat) : Option Nat :=
  let v :=
    if '0' ≤ c ∧ c ≤ '9' then some (c.toNat - '0'.toNat)
    else if 'A' ≤ c ∧ c ≤ 'Z' then some (c.toNat - 'A'.toNat + 10)
    else if 'a' ≤ c ∧ c ≤ 'z' then some (c.toNat - 'a'.toNat + 10)
    else none
  v.filter (· < base)

/-- The digits of `std.fmt.parseInt`, most significant first: an underscore between
digits is skipped, a value that leaves the range is an error. -/
def parseDigits (base limit : Nat) (negative : Bool) : Nat → Text → Option Nat
  | acc, [] => some acc
  | acc, c :: cs =>
    if c = '_' then parseDigits base limit negative acc cs
    else
      match charToDigit c base with
      | none => none
      | some d =>
        let v := acc * base + d
        if v < limit ∧ (negative = true → v = 0) then parseDigits base limit negative v cs
        else none

/-- `std.fmt.parseInt` at an unsigned type with `limit` values, after the sign. -/
def parseMagnitude (base limit : Nat) (negative : Bool) (s : Text) : Option Nat :=
  if s = [] ∨ s.head? = some '_' ∨ s.getLast? = some '_' then none
  else parseDigits base limit negative 0 s

/-- `std.fmt.parseInt` at an unsigned type with `limit` values. -/
def parseInt (base limit : Nat) (s : Text) : Option Nat :=
  match s with
  | '+' :: rest => parseMagnitude base limit false rest
  | '-' :: rest => parseMagnitude base limit true rest
  | _ => parseMagnitude base limit false s

/-- `std.mem.trim(u8, s, " \t")` -/
def trim (s : Text) : Text :=
  let blank := fun c => c == ' ' || c == '\t'
  ((s.dropWhile blank).reverse.dropWhile blank).reverse

/-- `parseU256`: decimal, or hex after `0x`. -/
def parseU256 (s : Text) : Option Nat :=
  let trimmed := trim s
  if "0x".toList.isPrefixOf trimmed then parseInt 16 (2 ^ 256) (trimmed.drop 2)
  else parseInt 10 (2 ^ 256) trimmed

/-- `std.fmt.hexToBytes`, for an output buffer that is long enough. -/
def hexToBytes : Text → Option (List Nat)
  | [] => some []
  | [_] => none
  | a :: b :: rest =>
    match charToDigit a 16, charToDigit b 16, hexToBytes rest with
    | some hi, some lo, some bytes => some ((hi * 16 + lo) :: bytes)
    | _, _, _ => none

/-- The lower-case hex digits of a byte. -/
def hexDigits (b : Nat) : Text := [Nat.digitChar (b / 16), Nat.digitChar (b % 16)]

/-- `std.fmt.bytesToHex(_, .lower)` -/
def bytesToHex (bytes : List Nat) : Text := bytes.flatMap hexDigits

/-! ### Topics of a cached log -/

/-- `joinTopics`: the topics with a comma between them. -/
def joinTopics (topics : List Text) : Text := [','].intercalate topics

/-- `splitTopics` -/
def splitTopics (s : Text) : List Text :=
  if s = [] then [] else s.splitOn ','

theorem joinTopics_eq_nil {ts : List Text} (h : ∀ t ∈ ts, t ≠ []) :
    joinTopics ts = [] ↔ ts = [] := by
  rcases ts with _ | ⟨t, _ | ⟨u, us⟩⟩
  · simp [joinTopics]
  · simpa [joinTopics] using h t (by simp)
  · simp [joinTopics, List.intercalate_cons_cons]

/-- **Joining loses nothing** as long as no topic is empty or holds a comma. -/
theorem splitTopics_joinTopics {ts : List Text} (hne : ∀ t ∈ ts, t ≠ [])
    (h : ∀ t ∈ ts, ',' ∉ t) : splitTopics (joinTopics ts) = ts := by
  unfold splitTopics
  by_cases hts : ts = []
  · simp [hts, joinTopics]
  · rw [if_neg (mt (joinTopics_eq_nil hne).1 hts)]
    exact List.splitOn_intercalate ',' h hts

/-- The loop of `topicsKey` over the sorted topics: the first of equal neighbours. -/
def dedupSorted : List Text → List Text
  | [] => []
  | [t] => [t]
  | t :: u :: ts => if t = u then dedupSorted (u :: ts) else t :: dedupSorted (u :: ts)

theorem mem_dedupSorted {x : Text} : ∀ {ts : List Text}, x ∈ dedupSorted ts ↔ x ∈ ts
  | [] => by simp [dedupSorted]
  | [t] => by simp [dedupSorted]
  | t :: u :: ts => by
    have ih := @mem_dedupSorted x (u :: ts)
    unfold dedupSorted
    split
    · next h => subst h; rw [ih]; simp
    · rw [List.mem_cons, ih, List.mem_cons (a := x) (b := t)]

/-- `log_cache.topicsKey`: one key for a set of topics, `*` for no filter. -/
def topicsKey (topics : List Text) : Text :=
  if topics = [] then "*".toList
  else joinTopics (dedupSorted (topics.insertionSort fun a b => le a b = true))

/-! ### Topics of a dead letter -/

/-- One byte of a topic inside a JSON string. -/
def escapeChar (c : Char) : Text :=
  if c = '\\' then ['\\', '\\']
  else if c = '"' then ['\\', '"']
  else if c = '\n' then ['\\', 'n']
  else if c = '\r' then ['\\', 'r']
  else if c = '\t' then ['\\', 't']
  else if c.toNat ≤ 0x1F then ['\\', 'u', '0', '0'] ++ hexDigits c.toNat
  else [c]

/-- One topic as a JSON string. -/
def quoteTopic (t : Text) : Text := '"' :: t.flatMap escapeChar ++ ['"']

/-- `formatTopicsJson` -/
def formatTopicsJson (topics : List Text) : Text :=
  '[' :: joinTopics (topics.map quoteTopic) ++ [']']

/-- The inner loop of `parseTopicsJson`: a string up to its closing quote, and what
follows it. A backslash stands for the byte after it. -/
def parseQuoted : Text → Text × Text
  | [] => ([], [])
  | [c] => if c = '"' then ([], []) else ([c], [])
  | c :: d :: rest =>
    if c = '"' then ([], d :: rest)
    else if c = '\\' then
      let r := parseQuoted rest
      (d :: r.1, r.2)
    else
      let r := parseQuoted (d :: rest)
      (c :: r.1, r.2)

theorem length_parseQuoted : ∀ s : Text, (parseQuoted s).2.length ≤ s.length
  | [] => by simp [parseQuoted]
  | [c] => by
    unfold parseQuoted
    split <;> simp
  | c :: d :: rest => by
    have h₁ := length_parseQuoted rest
    have h₂ := length_parseQuoted (d :: rest)
    unfold parseQuoted
    split
    · simp
    · split
      · simp only [List.length_cons]
        omega
      · simp only [List.length_cons] at h₂ ⊢
        omega

/-- `parseTopicsJson` -/
def parseTopicsJson : Text → List Text
  | [] => []
  | c :: rest =>
    if c = '"' then
      have : (parseQuoted rest).2.length < rest.length + 1 := by
        have := length_parseQuoted rest
        omega
      (parseQuoted rest).1 :: parseTopicsJson (parseQuoted rest).2
    else parseTopicsJson rest
termination_by s => s.length

end Text

end Zponder

import Zponder.Text

/-!
# The bearer token

`auth.zig`: the value of a header is cut out of the raw bytes of the request, and compared
with the token byte by byte. Beside the functions stands what they are to decide, in terms
of the lines of the header block: `Zponder.Auth.Presents` says that the first `Authorization`
header holds the scheme and the token.
-/

namespace Zponder.Auth

open Text

/-! ### Headers -/

/-- `std.mem.splitSequence(u8, s, "\r\n")` -/
def splitCrlf : Text → List Text
  | [] => [[]]
  | [c] => [[c]]
  | c :: d :: rest =>
    if c = '\r' ∧ d = '\n' then [] :: splitCrlf rest
    else
      match splitCrlf (d :: rest) with
      | [] => [[c]]
      | line :: lines => (c :: line) :: lines

/-- The key and the value of a line that has a colon. -/
def headerField (line : Text) : Option (Text × Text) :=
  match line.dropWhile (· != ':') with
  | [] => none
  | _ :: value => some (trim (line.takeWhile (· != ':')), trim value)

/-- The loop of `headerValue`. -/
def findHeader (name : Text) : List Text → Text
  | [] => []
  | line :: rest =>
    if line = [] then []
    else
      match headerField line with
      | none => findHeader name rest
      | some (key, value) => if eqlIgnoreCase key name = true then value else findHeader name rest

/-- `headerValue` -/
def headerValue (headBuffer name : Text) : Text := findHeader name (splitCrlf headBuffer).tail

/-! ### Comparing -/

/-- A byte, or zero behind the end. -/
def byteAt (s : Text) (i : Nat) : Nat := (s[i]?.map Char.toNat).getD 0

/-- `timingSafeEql` -/
def timingSafeEql (a b : Text) : Bool :=
  let diff := if a.length = b.length then 0 else 1
  (List.range (max a.length b.length)).foldl (fun d i => d ||| (byteAt a i ^^^ byteAt b i)) diff == 0

/-- The scheme, and the space after it. -/
def bearer : Text := "Bearer ".toList

/-- `bearerMatches` -/
def bearerMatches (expected authorization : Text) : Bool :=
  if authorization.length < bearer.length then false
  else if eqlIgnoreCase (authorization.take bearer.length) bearer = false then false
  else timingSafeEql expected (trim (authorization.drop bearer.length))

/-- `requestAllowed` -/
def requestAllowed (expected headBuffer : Text) : Bool :=
  if expected = [] then true
  else bearerMatches expected (headerValue headBuffer "Authorization".toList)

/-- `routeAllowed` -/
def routeAllowed (expected : Text) (methodIsOptions : Bool) (path headBuffer : Text) : Bool :=
  if methodIsOptions = true then true
  else if path = "/health".toList then true
  else requestAllowed expected headBuffer

/-! ### What they are to decide -/

/-- A line is a header with this name and value. -/
def HeaderLine (name value line : Text) : Prop :=
  ∃ key rest, line = key ++ ':' :: rest ∧ ':' ∉ key ∧ eqlIgnoreCase (trim key) name = true ∧
    value = trim rest

/-- The first header with this name, among the lines between the request line and the first
empty one, has this value. -/
def FirstHeader (head name value : Text) : Prop :=
  ∃ request before line after, splitCrlf head = request :: (before ++ line :: after) ∧
    (∀ l ∈ before, l ≠ [] ∧ ∀ v, ¬HeaderLine name v l) ∧ HeaderLine name value line

/-- The scheme, in any case, followed by the token up to surrounding blanks. -/
def Credentials (token value : Text) : Prop :=
  ∃ scheme rest, value = scheme ++ ' ' :: rest ∧ eqlIgnoreCase scheme "Bearer".toList = true ∧
    trim rest = trim token

/-- **The request presents the token.** -/
def Presents (token head : Text) : Prop :=
  ∃ value, FirstHeader head "Authorization".toList value ∧ Credentials token value

/-! ### Trimming -/

section Trim

variable {s : Text}

/-- The blanks `trim` takes away. -/
def blank (c : Char) : Bool := c == ' ' || c == '\t'

theorem trim_eq (s : Text) : trim s = ((s.dropWhile blank).reverse.dropWhile blank).reverse := rfl

theorem dropWhile_blank_idem (s : Text) : (s.dropWhile blank).dropWhile blank = s.dropWhile blank :=
  List.dropWhile_idempotent blank s

/-- What a text without leading blanks loses at its end leaves it without them. -/
theorem dropWhile_reverse_dropWhile (h : s.dropWhile blank = s) :
    ((s.reverse.dropWhile blank).reverse).dropWhile blank = (s.reverse.dropWhile blank).reverse := by
  obtain ⟨t, ht⟩ : ∃ t, (s.reverse.dropWhile blank).reverse ++ t = s := by
    refine ⟨(s.reverse.takeWhile blank).reverse, ?_⟩
    rw [← List.reverse_append, List.takeWhile_append_dropWhile, List.reverse_reverse]
  rcases hp : (s.reverse.dropWhile blank).reverse with _ | ⟨c, p⟩
  · rfl
  · rw [hp, List.cons_append] at ht
    rw [← ht, List.dropWhile_cons] at h
    split at h
    · -- the first byte would be a blank that was not dropped
      have hlen := congrArg List.length h
      have hle := (List.dropWhile_sublist (p := blank) (l := p ++ t)).length_le
      simp only [List.length_cons] at hlen
      omega
    · next hc => rw [List.dropWhile_cons, if_neg hc]

@[simp] theorem trim_trim (s : Text) : trim (trim s) = trim s := by
  rw [trim_eq (trim s), trim_eq s]
  rw [dropWhile_reverse_dropWhile (dropWhile_blank_idem s), List.reverse_reverse,
    List.dropWhile_idempotent]

end Trim

/-! ### The functions decide it -/

section Decide

variable {a b head name value line token : Text}

theorem foldl_or_eq_zero (f : Nat → Nat) : ∀ (l : List Nat) (d : Nat),
    l.foldl (fun d i => d ||| f i) d = 0 ↔ d = 0 ∧ ∀ i ∈ l, f i = 0
  | [], d => by simp
  | i :: l, d => by
    rw [List.foldl_cons, foldl_or_eq_zero f l, Nat.or_eq_zero_iff]
    simp [and_assoc]

theorem byteAt_eq_iff {i : Nat} (ha : i < a.length) (hb : i < b.length) :
    byteAt a i = byteAt b i ↔ a[i]? = b[i]? := by
  simp only [byteAt, List.getElem?_eq_getElem ha, List.getElem?_eq_getElem hb, Option.map_some,
    Option.getD_some, Option.some.injEq]
  exact Char.toNat_inj

/-- The comparison is one of equality. -/
theorem timingSafeEql_iff : timingSafeEql a b = true ↔ a = b := by
  simp only [timingSafeEql, beq_iff_eq, foldl_or_eq_zero, List.mem_range, Nat.xor_eq_zero_iff]
  constructor
  · rintro ⟨hlen, hbytes⟩
    have hlen : a.length = b.length := by
      by_contra hne
      simp [hne] at hlen
    refine List.ext_getElem? fun i => ?_
    by_cases hi : i < a.length
    · exact (byteAt_eq_iff hi (hlen ▸ hi)).1 (hbytes i (lt_max_of_lt_left hi))
    · rw [List.getElem?_eq_none (by omega), List.getElem?_eq_none (by omega)]
  · rintro rfl
    simp

theorem toLower_eq_space {c : Char} (h : c.toLower = ' ') : c = ' ' := by
  unfold Char.toLower at h
  split at h
  · next hc =>
    -- a capital letter becomes a letter
    have hval : c.val + ('a'.val - 'A'.val) = ' '.val := congrArg Char.val h
    obtain ⟨hlo, hhi⟩ := hc
    exfalso
    have h₁ : c.val.toNat + 32 = 32 := by
      have := congrArg UInt32.toNat hval
      have hle : c.val.toNat ≤ 90 := UInt32.le_iff_toNat_le.1 hhi
      rw [UInt32.toNat_add] at this
      change (c.val.toNat + 32) % 2 ^ 32 = 32 at this
      omega
    have h₂ : 65 ≤ c.val.toNat := UInt32.le_iff_toNat_le.1 hlo
    omega
  · exact h

/-- The scheme with its space is the scheme and a space. -/
theorem eqlIgnoreCase_bearer {p : Text} : eqlIgnoreCase p bearer = true ↔
    ∃ scheme, p = scheme ++ [' '] ∧ eqlIgnoreCase scheme "Bearer".toList = true := by
  simp only [eqlIgnoreCase_iff]
  constructor
  · intro h
    have hlen : p.length = bearer.length := by
      have := congrArg List.length h
      simpa using this
    obtain ⟨scheme, c, rfl⟩ : ∃ scheme c, p = scheme ++ [c] := by
      refine ⟨p.dropLast, p.getLast (by rintro rfl; simp [bearer] at hlen), ?_⟩
      rw [List.dropLast_append_getLast]
    have hsplit : lower scheme ++ [c.toLower] = lower "Bearer".toList ++ [' '] := by
      rw [← show lower bearer = lower "Bearer".toList ++ [' '] by decide, ← h]
      simp [lower]
    obtain ⟨hscheme, hc⟩ := List.append_inj' hsplit rfl
    rw [toLower_eq_space (List.singleton_inj.1 hc)]
    exact ⟨scheme, rfl, hscheme⟩
  · rintro ⟨scheme, rfl, h⟩
    rw [show lower bearer = lower "Bearer".toList ++ [' '] by decide, ← h]
    simp [lower]

/-- What the value of the header must be. -/
theorem bearerMatches_iff : bearerMatches token value = true ↔
    ∃ scheme rest, value = scheme ++ ' ' :: rest ∧
      eqlIgnoreCase scheme "Bearer".toList = true ∧ trim rest = token := by
  have hmatch : bearerMatches token value = true ↔ bearer.length ≤ value.length ∧
      eqlIgnoreCase (value.take bearer.length) bearer = true ∧
        token = trim (value.drop bearer.length) := by
    unfold bearerMatches
    split
    · next h => simp [Nat.not_le.2 h]
    · next h =>
      rw [Nat.not_lt] at h
      split
      · next h' => simp [h']
      · next h' => simp [h, h', timingSafeEql_iff]
  rw [hmatch, eqlIgnoreCase_bearer]
  constructor
  · rintro ⟨-, ⟨scheme, htake, hscheme⟩, htoken⟩
    refine ⟨scheme, value.drop bearer.length, ?_, hscheme, htoken.symm⟩
    calc value = value.take bearer.length ++ value.drop bearer.length :=
          (List.take_append_drop ..).symm
      _ = _ := by rw [htake, List.append_assoc]; rfl
  · rintro ⟨scheme, rest, rfl, hscheme, rfl⟩
    have hlen : (scheme ++ [' ']).length = bearer.length := by
      have := congrArg List.length (eqlIgnoreCase_iff.1 hscheme)
      simpa [bearer] using this
    have hvalue : scheme ++ ' ' :: rest = (scheme ++ [' ']) ++ rest := by simp
    rw [hvalue, List.take_left' hlen, List.drop_left' hlen]
    exact ⟨by simp only [List.length_append] at hlen ⊢; omega, ⟨scheme, rfl, hscheme⟩, rfl⟩

theorem headerField_eq_some {key v : Text} : headerField line = some (key, v) ↔
    ∃ k rest, line = k ++ ':' :: rest ∧ ':' ∉ k ∧ key = trim k ∧ v = trim rest := by
  have hsplit := List.takeWhile_append_dropWhile (p := (· != ':')) (l := line)
  have hkey : ':' ∉ line.takeWhile (· != ':') := by
    intro h
    simpa using List.mem_takeWhile_imp h
  unfold headerField
  constructor
  · intro h
    split at h
    · cases h
    · next c rest hdrop =>
      obtain ⟨rfl, rfl⟩ := Prod.mk.inj (Option.some.inj h)
      have hc : c = ':' := by
        have := List.head_dropWhile_not (· != ':') (l := line) (by simp [hdrop])
        simpa [hdrop] using this
      subst hc
      exact ⟨_, rest, by rw [← hdrop, hsplit], hkey, rfl, rfl⟩
  · rintro ⟨k, rest, rfl, hk, rfl, rfl⟩
    have hall : ∀ c ∈ k, (c != ':') = true := by
      intro c hc
      simp only [bne_iff_ne, ne_eq]
      rintro rfl
      exact hk hc
    rw [List.dropWhile_append_of_pos hall, List.takeWhile_append_of_pos hall]
    simp

theorem headerLine_iff : HeaderLine name value line ↔
    ∃ key, headerField line = some (key, value) ∧ eqlIgnoreCase key name = true := by
  simp only [HeaderLine, headerField_eq_some]
  constructor
  · rintro ⟨k, rest, hline, hk, heq, hv⟩
    exact ⟨_, ⟨k, rest, hline, hk, rfl, hv⟩, heq⟩
  · rintro ⟨_, ⟨k, rest, hline, hk, rfl, hv⟩, heq⟩
    exact ⟨k, rest, hline, hk, heq, hv⟩

/-- The loop finds the first header, and nothing but an empty value where there is none. -/
theorem findHeader_iff : ∀ {lines : List Text}, value ≠ [] →
    (findHeader name lines = value ↔ ∃ before line after, lines = before ++ line :: after ∧
      (∀ l ∈ before, l ≠ [] ∧ ∀ v, ¬HeaderLine name v l) ∧ HeaderLine name value line)
  | [], hv => by simp [findHeader, hv.symm]
  | line :: rest, hv => by
    -- a line that is no header of this name is passed over
    have hskip : (line ≠ [] ∧ ∀ v, ¬HeaderLine name v line) →
        (findHeader name rest = value ↔ ∃ before l after, line :: rest = before ++ l :: after ∧
          (∀ l ∈ before, l ≠ [] ∧ ∀ v, ¬HeaderLine name v l) ∧ HeaderLine name value l) := by
      rintro ⟨hne, hno⟩
      rw [findHeader_iff hv]
      constructor
      · rintro ⟨before, l, after, rfl, hbefore, hl⟩
        refine ⟨line :: before, l, after, rfl, ?_, hl⟩
        intro l' hl'
        rcases List.mem_cons.1 hl' with rfl | hl'
        · exact ⟨hne, hno⟩
        · exact hbefore l' hl'
      · rintro ⟨before, l, after, heq, hbefore, hl⟩
        cases before with
        | nil =>
          obtain ⟨rfl, rfl⟩ := List.cons.inj heq
          exact absurd hl (hno _)
        | cons b before =>
          obtain ⟨rfl, rfl⟩ := List.cons.inj heq
          exact ⟨before, l, after, rfl, fun l' hl' => hbefore l' (List.mem_cons_of_mem _ hl'), hl⟩
    rw [findHeader]
    split
    · next hnil =>
      -- the empty line ends the headers
      subst hnil
      refine ⟨fun h => absurd h.symm hv, ?_⟩
      rintro ⟨before, l, after, heq, hbefore, hl⟩
      cases before with
      | nil =>
        obtain ⟨rfl, rfl⟩ := List.cons.inj heq
        obtain ⟨k, rest', hk, -⟩ := hl
        simp at hk
      | cons b before =>
        obtain ⟨rfl, rfl⟩ := List.cons.inj heq
        exact absurd rfl (hbefore [] (by simp)).1
    · next hne =>
      split
      · next hfield =>
        refine hskip ⟨hne, fun v hv' => ?_⟩
        obtain ⟨key, hkey, -⟩ := headerLine_iff.1 hv'
        simp [hfield] at hkey
      · next key v hfield =>
        split
        · next heq =>
          have hline : HeaderLine name v line := headerLine_iff.2 ⟨key, hfield, heq⟩
          constructor
          · rintro rfl
            exact ⟨[], line, rest, rfl, by simp, hline⟩
          · rintro ⟨before, l, after, hsplit, hbefore, hl⟩
            cases before with
            | nil =>
              obtain ⟨rfl, rfl⟩ := List.cons.inj hsplit
              obtain ⟨key', hkey', -⟩ := headerLine_iff.1 hl
              rw [hfield] at hkey'
              exact (Prod.mk.inj (Option.some.inj hkey')).2
            | cons b before =>
              obtain ⟨rfl, rfl⟩ := List.cons.inj hsplit
              exact absurd hline ((hbefore line (by simp)).2 v)
        · next hneq =>
          refine hskip ⟨hne, fun v' hv' => ?_⟩
          obtain ⟨key', hkey', heq'⟩ := headerLine_iff.1 hv'
          rw [hfield] at hkey'
          obtain ⟨rfl, rfl⟩ := Prod.mk.inj (Option.some.inj hkey')
          exact hneq heq'

theorem splitCrlf_ne_nil : ∀ s : Text, splitCrlf s ≠ []
  | [] => by simp [splitCrlf]
  | [c] => by simp [splitCrlf]
  | c :: d :: rest => by
    unfold splitCrlf
    split
    · simp
    · split <;> simp

theorem headerValue_iff (hv : value ≠ []) : headerValue head name = value ↔
    FirstHeader head name value := by
  obtain ⟨request, lines, hsplit⟩ := List.exists_cons_of_ne_nil (splitCrlf_ne_nil head)
  rw [headerValue, findHeader_iff hv, FirstHeader, hsplit, List.tail_cons]
  constructor
  · rintro ⟨before, line, after, rfl, hrest⟩
    exact ⟨request, before, line, after, rfl, hrest⟩
  · rintro ⟨_, before, line, after, heq, hrest⟩
    obtain ⟨rfl, rfl⟩ := List.cons.inj heq
    exact ⟨before, line, after, rfl, hrest⟩

/-- **The token and the header**: a request passes if it presents the token, and the token
has no blanks around it. -/
theorem requestAllowed_iff (htoken : token ≠ []) :
    requestAllowed token head = true ↔ Presents token head ∧ trim token = token := by
  rw [requestAllowed, if_neg htoken, bearerMatches_iff]
  constructor
  · rintro ⟨scheme, rest, hvalue, hscheme, rfl⟩
    have hfirst : FirstHeader head "Authorization".toList (scheme ++ ' ' :: rest) :=
      (headerValue_iff (by simp)).1 hvalue
    exact ⟨⟨_, hfirst, scheme, rest, rfl, hscheme, (trim_trim rest).symm⟩, trim_trim rest⟩
  · rintro ⟨⟨_, hfirst, scheme, rest, rfl, hscheme, hrest⟩, htrim⟩
    exact ⟨scheme, rest, (headerValue_iff (by simp)).2 hfirst, hscheme, hrest.trans htrim⟩

end Decide

end Zponder.Auth

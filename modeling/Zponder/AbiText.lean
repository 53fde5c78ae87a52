import Zponder.AbiType

/-!
# Types are read back from their texts

The decoder knows a type by its text only. Here is what it finds out about the text of a
type (`Zponder.AbiType.text`): whether it is an array and of what, whether it is a tuple and
of which members, whether there is an offset for it, and of how many words it is.

Where the members of a tuple end is found by counting brackets, so the text of a type has to
leave the count as it was (`Zponder.AbiType.passes_text`).
-/

namespace Zponder

namespace Text

theorem isDigit_of_mem_decimal {n : Nat} {c : Char} (h : c ∈ decimal n) : c.isDigit = true :=
  Nat.isDigit_of_mem_toDigits (by decide) (by decide) h

theorem decimal_ne_nil (n : Nat) : decimal n ≠ [] := Nat.toDigits_ne_nil

/-- A number only grows by more digits. -/
theorem le_ofDigitChars (cs : Text) (acc : Nat) : acc ≤ Nat.ofDigitChars 10 cs acc := by
  rw [Nat.ofDigitChars_eq_ofDigitChars_zero]
  have hpow : 1 ≤ 10 ^ cs.length := Nat.one_le_pow _ _ (by decide)
  calc acc ≤ 10 ^ cs.length * acc := Nat.le_mul_of_pos_left _ hpow
    _ ≤ _ := Nat.le_add_right _ _

theorem charToDigit_of_isDigit {c : Char} (h : c.isDigit = true) :
    charToDigit c 10 = some (c.toNat - '0'.toNat) ∧ c ≠ '_' ∧ c ≠ '+' ∧ c ≠ '-' := by
  have hrange : '0' ≤ c ∧ c ≤ '9' := by
    rw [Char.isDigit, Bool.and_eq_true, decide_eq_true_iff, decide_eq_true_iff] at h
    exact h
  have hval : c.toNat ≤ '9'.toNat := hrange.2
  refine ⟨?_, ?_, ?_, ?_⟩
  · unfold charToDigit
    rw [if_pos hrange, Option.filter_some, if_pos]
    have h9 : '9'.toNat = 57 := rfl
    have h0 : '0'.toNat = 48 := rfl
    exact decide_eq_true (by omega)
  all_goals
    rintro rfl
    exact absurd h (by decide)

theorem parseDigits_of_isDigit {limit : Nat} {cs : Text} (hcs : ∀ c ∈ cs, c.isDigit = true)
    {acc : Nat} (h : Nat.ofDigitChars 10 cs acc < limit) :
    parseDigits 10 limit false acc cs = some (Nat.ofDigitChars 10 cs acc) := by
  induction cs generalizing acc with
  | nil => rw [parseDigits, Nat.ofDigitChars_nil]
  | cons c cs ih =>
    obtain ⟨hdigit, hscore, -⟩ := charToDigit_of_isDigit (hcs c List.mem_cons_self)
    rw [Nat.ofDigitChars_cons] at h ⊢
    rw [parseDigits, if_neg hscore, hdigit]
    have hcomm : acc * 10 + (c.toNat - '0'.toNat) = 10 * acc + (c.toNat - '0'.toNat) := by
      rw [Nat.mul_comm]
    have hlt := (le_ofDigitChars cs (10 * acc + (c.toNat - '0'.toNat))).trans_lt h
    simp only [hcomm]
    rw [if_pos ⟨hlt, by simp⟩]
    exact ih (fun d hd => hcs d (List.mem_cons_of_mem c hd)) h

/-- Digits have no sign and no underscores. -/
theorem parseInt_eq_parseDigits (limit : Nat) {cs : Text} (hne : cs ≠ [])
    (hdigits : ∀ c ∈ cs, c.isDigit = true) :
    parseInt 10 limit cs = parseDigits 10 limit false 0 cs := by
  have hmagnitude : parseMagnitude 10 limit false cs = parseDigits 10 limit false 0 cs := by
    unfold parseMagnitude
    rw [if_neg]
    rintro (hnil | hhead | hlast)
    · exact hne hnil
    · exact (charToDigit_of_isDigit (hdigits _ (List.mem_of_head? hhead))).2.1 rfl
    · exact (charToDigit_of_isDigit (hdigits _ (List.mem_of_getLast? hlast))).2.1 rfl
  unfold parseInt
  split
  · have h := charToDigit_of_isDigit (hdigits '+' List.mem_cons_self)
    exact absurd rfl h.2.2.1
  · have h := charToDigit_of_isDigit (hdigits '-' List.mem_cons_self)
    exact absurd rfl h.2.2.2
  · exact hmagnitude

/-- **Digits are read as their number.** -/
theorem parseInt_of_isDigit {limit : Nat} {cs : Text} (hne : cs ≠ [])
    (hdigits : ∀ c ∈ cs, c.isDigit = true) (h : Nat.ofDigitChars 10 cs 0 < limit) :
    parseInt 10 limit cs = some (Nat.ofDigitChars 10 cs 0) := by
  rw [parseInt_eq_parseDigits limit hne hdigits]
  exact parseDigits_of_isDigit hdigits h

/-- **A number is read back from its digits.** -/
theorem parseInt_decimal {limit n : Nat} (h : n < limit) :
    parseInt 10 limit (decimal n) = some n := by
  have hvalue : Nat.ofDigitChars 10 (decimal n) 0 = n := Nat.ofDigitChars_ten_toDigits
  rw [parseInt_of_isDigit (decimal_ne_nil n) (fun c hc => isDigit_of_mem_decimal hc)
    (hvalue.symm ▸ h), hvalue]

/-- What begins and ends with no blank is not trimmed. -/
theorem trim_eq_self {s : Text} (h : ∀ c ∈ s, c ≠ ' ' ∧ c ≠ '\t') : trim s = s := by
  have hblank : ∀ c ∈ s, ¬((c == ' ' || c == '\t') = true) := by
    intro c hc hblank
    rw [Bool.or_eq_true, beq_iff_eq, beq_iff_eq] at hblank
    exact hblank.elim (h c hc).1 (h c hc).2
  have hdrop : ∀ s' : Text, (∀ c ∈ s', ¬((c == ' ' || c == '\t') = true)) →
      s'.dropWhile (fun c => c == ' ' || c == '\t') = s' := by
    intro s' hs'
    cases s' with
    | nil => rfl
    | cons c s' => exact List.dropWhile_cons_of_neg (hs' c List.mem_cons_self)
  unfold trim
  simp only
  rw [hdrop s hblank, hdrop s.reverse fun c hc => hblank c (List.mem_reverse.1 hc),
    List.reverse_reverse]

end Text

open Decode

/-! ### Counting brackets -/

/-- The count goes over a text, from one depth to another, and does not stop in it. -/
def Passes (depth : Nat) (s : Text) (depth' : Nat) : Prop :=
  ∀ rest, splitField depth (s ++ rest) =
    (s ++ (splitField depth' rest).1, (splitField depth' rest).2)

theorem Passes.nil (depth : Nat) : Passes depth [] depth := fun _ => rfl

theorem Passes.append {d d' d'' : Nat} {s s' : Text} (h : Passes d s d') (h' : Passes d' s' d'') :
    Passes d (s ++ s') d'' := by
  intro rest
  rw [List.append_assoc, h, h', List.append_assoc]

theorem Passes.cons {d d' : Nat} {c : Char} {s : Text} (hc : ¬(c = ',' ∧ d = 0))
    (h : Passes (depthAfter d c) s d') : Passes d (c :: s) d' := by
  intro rest
  rw [List.cons_append, splitField, if_neg hc, h]
  rfl

/-- Letters and digits are of no account. -/
theorem Passes.of_isAlphanum {s : Text} (h : ∀ c ∈ s, c.isAlphanum = true) (d : Nat) :
    Passes d s d := by
  induction s with
  | nil => exact .nil d
  | cons c s ih =>
    have hc := h c List.mem_cons_self
    have hne : ∀ c' : Char, c'.isAlphanum = false → c ≠ c' := by
      rintro c' hc' rfl
      rw [hc] at hc'
      cases hc'
    have hdepth : depthAfter d c = d := by
      unfold depthAfter
      rw [if_neg (not_or.2 ⟨hne '(' (by decide), hne '[' (by decide)⟩),
        if_neg (not_or.2 ⟨hne ')' (by decide), hne ']' (by decide)⟩)]
    refine .cons (fun hcomma => hne ',' (by decide) hcomma.1) ?_
    rw [hdepth]
    exact ih fun c hc => h c (List.mem_cons_of_mem _ hc)

theorem isAlphanum_of_mem_decimal {n : Nat} {c : Char} (h : c ∈ Text.decimal n) :
    c.isAlphanum = true := by
  rw [Char.isAlphanum, Text.isDigit_of_mem_decimal h, Bool.or_true]

namespace ValueType

/-- The text of a value type is of letters and digits. -/
theorem isAlphanum_text (v : ValueType) : ∀ c ∈ v.text, c.isAlphanum = true := by
  have hword : ∀ {s r : Text}, s.all Char.isAlphanum = true →
      (∀ c ∈ r, c.isAlphanum = true) → ∀ c ∈ s ++ r, c.isAlphanum = true := by
    intro s r hs hr c hc
    exact (List.mem_append.1 hc).elim (List.all_eq_true.1 hs c) (hr c)
  have hsize : ∀ n, ∀ c ∈ Text.decimal n, c.isAlphanum = true :=
    fun n c hc => isAlphanum_of_mem_decimal hc
  have hsizes : ∀ m n, ∀ c ∈ Text.decimal m ++ 'x' :: Text.decimal n, c.isAlphanum = true := by
    intro m n c hc
    rcases List.mem_append.1 hc with hc | hc
    · exact hsize m c hc
    · rcases List.mem_cons.1 hc with rfl | hc
      · decide
      · exact hsize n c hc
  cases v with
  | uint n => exact hword (by decide) (hsize _)
  | int n => exact hword (by decide) (hsize _)
  | ufixed n d => exact hword (by decide) (hsizes _ _)
  | fixed n d => exact hword (by decide) (hsizes _ _)
  | address => exact List.all_eq_true.1 (by decide)
  | bool => exact List.all_eq_true.1 (by decide)
  | bytes n => exact hword (by decide) (hsize _)
  | function => exact List.all_eq_true.1 (by decide)

/-- No value type is called as one of the types of any length. -/
theorem text_ne_dynamic (v : ValueType) : v.text ≠ "string".toList ∧ v.text ≠ "bytes".toList := by
  constructor
  · cases v <;> exact fun h => absurd (List.cons.inj h).1 (by decide)
  · intro h
    cases v with
    | bool => exact absurd h (by decide)
    | bytes n =>
      have hnil : Text.decimal (n.val + 1) = [] := by
        exact @List.append_cancel_left _ "bytes".toList _ [] h
      exact Text.decimal_ne_nil _ hnil
    | uint n => exact absurd (List.cons.inj h).1 (by decide)
    | int n => exact absurd (List.cons.inj h).1 (by decide)
    | ufixed n d => exact absurd (List.cons.inj h).1 (by decide)
    | fixed n d => exact absurd (List.cons.inj h).1 (by decide)
    | address => exact absurd (List.cons.inj h).1 (by decide)
    | function => exact absurd (List.cons.inj h).1 (by decide)

end ValueType

namespace AbiType

/-- In brackets, the texts of some types are gone over. -/
theorem passes_textList {ts : List AbiType} (h : ∀ t ∈ ts, ∀ d, Passes d t.text d) (d : Nat) :
    Passes (d + 1) (textList ts) (d + 1) := by
  induction ts with
  | nil => exact .nil _
  | cons t ts ih =>
    have ht : Passes (d + 1) t.text (d + 1) := h t List.mem_cons_self _
    cases ts with
    | nil => exact ht
    | cons t' ts =>
      have hrest := ih fun t ht => h t (List.mem_cons_of_mem _ ht)
      exact ht.append (.cons (fun hcomma => by cases hcomma.2) hrest)

/-- **The text of a type leaves the count of the brackets as it was.** -/
theorem passes_text (t : AbiType) : ∀ d, Passes d t.text d := by
  induction t using induct with
  | value v => exact Passes.of_isAlphanum v.isAlphanum_text
  | string => exact Passes.of_isAlphanum (List.all_eq_true.1 (by decide))
  | bytes => exact Passes.of_isAlphanum (List.all_eq_true.1 (by decide))
  | array t count ih =>
    intro d
    have hcount : Passes (d + 1) (Text.decimal count) (d + 1) :=
      Passes.of_isAlphanum (fun c hc => isAlphanum_of_mem_decimal hc) _
    have hclose : Passes (d + 1) [']'] d := .cons (fun h => absurd h.1 (by decide)) (.nil d)
    rw [text]
    exact (ih d).append (.cons (fun h => absurd h.1 (by decide)) (hcount.append hclose))
  | slice t ih =>
    intro d
    have hclose : Passes (d + 1) [']'] d := .cons (fun h => absurd h.1 (by decide)) (.nil d)
    rw [text]
    exact (ih d).append (.cons (fun h => absurd h.1 (by decide)) hclose)
  | tuple ts ih =>
    intro d
    have hclose : Passes (d + 1) [')'] d := .cons (fun h => absurd h.1 (by decide)) (.nil d)
    rw [text]
    exact .cons (fun h => absurd h.1 (by decide)) ((passes_textList ih d).append hclose)

/-- There are no blanks in it. -/
theorem blank_notMem_text (t : AbiType) : ∀ c ∈ t.text, c ≠ ' ' ∧ c ≠ '\t' := by
  have halpha : ∀ {s : Text}, (∀ c ∈ s, c.isAlphanum = true) → ∀ c ∈ s, c ≠ ' ' ∧ c ≠ '\t' := by
    intro s hs c hc
    constructor
    all_goals
      rintro rfl
      exact absurd (hs _ hc) (by decide)
  induction t using induct with
  | value v => exact halpha v.isAlphanum_text
  | string => exact halpha (List.all_eq_true.1 (by decide))
  | bytes => exact halpha (List.all_eq_true.1 (by decide))
  | array t count ih =>
    intro c hc
    rw [text, List.mem_append, List.mem_cons, List.mem_append, List.mem_singleton] at hc
    rcases hc with hc | rfl | hc | rfl
    · exact ih c hc
    · decide
    · exact halpha (fun c hc => isAlphanum_of_mem_decimal hc) c hc
    · decide
  | slice t ih =>
    intro c hc
    rw [text, List.mem_append] at hc
    rcases hc with hc | hc
    · exact ih c hc
    · revert c
      simp
  | tuple ts ih =>
    have hmembers : ∀ c ∈ textList ts, c ≠ ' ' ∧ c ≠ '\t' := by
      clear halpha
      induction ts with
      | nil => intros; contradiction
      | cons t ts ihts =>
        have ht := ih t List.mem_cons_self
        have hts := ihts fun t ht => ih t (List.mem_cons_of_mem _ ht)
        cases ts with
        | nil => exact ht
        | cons t' ts =>
          intro c hc
          rw [textList, List.mem_append, List.mem_cons] at hc
          rcases hc with hc | rfl | hc
          · exact ht c hc
          · decide
          · exact hts c hc
    intro c hc
    rw [text, List.mem_cons, List.mem_append, List.mem_singleton] at hc
    rcases hc with rfl | hc | rfl
    · decide
    · exact hmembers c hc
    · decide

/-! ### Arrays and tuples -/

/-- **The members of a tuple are found again.** -/
theorem tupleFields_textList (ts : List AbiType) : tupleFields (textList ts) = ts.map text := by
  induction ts with
  | nil => rw [textList, tupleFields]; rfl
  | cons t ts ih =>
    have htrim : Text.trim t.text = t.text := Text.trim_eq_self t.blank_notMem_text
    cases ts with
    | nil =>
      have hsplit : splitField 0 t.text = (t.text, []) := by
        have h := t.passes_text 0 []
        rw [List.append_nil] at h
        rw [h]
        exact Prod.ext (List.append_nil _) rfl
      have hnext : nextTupleField (textList [t]) = some (t.text, []) := by
        unfold nextTupleField
        simp only [textList, hsplit, htrim, if_neg t.text_ne_nil, List.drop_nil]
      rw [tupleFields, hnext]
      change t.text :: tupleFields [] = [t.text]
      rw [tupleFields]
      rfl
    | cons t' ts =>
      have hnext : nextTupleField (textList (t :: t' :: ts)) =
          some (t.text, textList (t' :: ts)) := by
        have hsplit : splitField 0 (t.text ++ ',' :: textList (t' :: ts)) =
            (t.text, ',' :: textList (t' :: ts)) := by
          rw [t.passes_text 0, splitField, if_pos ⟨rfl, rfl⟩]
          exact Prod.ext (List.append_nil _) rfl
        unfold nextTupleField
        simp only [textList, hsplit, htrim, if_neg t.text_ne_nil, List.drop_one, List.tail_cons]
      rw [tupleFields, hnext]
      exact congrArg (t.text :: ·) ih

/-- What is in the last brackets of a text. -/
theorem parseArray_append {inner inside : Text} (hinner : inner ≠ []) (hinside : '[' ∉ inside) :
    parseArray (inner ++ '[' :: (inside ++ [']'])) =
      if inside = [] then some ⟨inner, none⟩
      else (Text.parseInt 10 (2 ^ 64) inside).map fun n => ⟨inner, some n⟩ := by
  have hlen : ¬((inner ++ '[' :: (inside ++ [']'])).length < 3 ∨
      (inner ++ '[' :: (inside ++ [']'])).getLast? ≠ some ']') := by
    have hpos := List.length_pos_of_ne_nil hinner
    rintro (hlt | hlast)
    · simp only [List.length_append, List.length_cons, List.length_nil] at hlt
      omega
    · rw [← List.cons_append, ← List.append_assoc, List.getLast?_concat] at hlast
      exact hlast rfl
  have hdrop : (inner ++ '[' :: (inside ++ [']'])).dropLast = inner ++ '[' :: inside := by
    rw [← List.cons_append, ← List.append_assoc]
    exact List.dropLast_concat
  have hrev : (inner ++ '[' :: inside).reverse = inside.reverse ++ '[' :: inner.reverse := by
    rw [List.reverse_append, List.reverse_cons, List.append_assoc]
    rfl
  have hno : ∀ c ∈ inside.reverse, (c != '[') = true := by
    intro c hc
    rw [bne_iff_ne]
    rintro rfl
    exact hinside (List.mem_reverse.1 hc)
  have htake : (inside.reverse ++ '[' :: inner.reverse).takeWhile (· != '[') = inside.reverse := by
    rw [List.takeWhile_append_of_pos hno, List.takeWhile_cons_of_neg (by decide),
      List.append_nil]
  have hrest : (inside.reverse ++ '[' :: inner.reverse).dropWhile (· != '[') =
      '[' :: inner.reverse := by
    rw [List.dropWhile_append_of_pos hno, List.dropWhile_cons_of_neg (by decide)]
  unfold parseArray
  rw [if_neg hlen]
  simp only [hdrop, hrev, htake, hrest, List.reverse_reverse, List.drop_one, List.tail_cons,
    if_neg hinner]

theorem parseArray_array (t : AbiType) (count : Fin (maxArrayLen + 1)) :
    parseArray (array t count).text = some ⟨t.text, some count⟩ := by
  have hno : '[' ∉ Text.decimal count := fun h =>
    absurd (Text.isDigit_of_mem_decimal h) (by decide)
  have hlt : count.val < 2 ^ 64 := count.isLt.trans (by decide)
  rw [text, parseArray_append t.text_ne_nil hno, if_neg (Text.decimal_ne_nil _),
    Text.parseInt_decimal hlt]
  rfl

theorem parseArray_slice (t : AbiType) : parseArray (slice t).text = some ⟨t.text, none⟩ := by
  have h := parseArray_append t.text_ne_nil List.not_mem_nil
  rw [if_pos rfl] at h
  rw [text]
  exact h

/-- A text that does not end in a bracket is not of an array. -/
theorem parseArray_eq_none {s : Text} (h : s.getLast? ≠ some ']') : parseArray s = none := by
  unfold parseArray
  rw [if_pos (.inr h)]

theorem tupleInner_tuple (ts : List AbiType) : tupleInner (tuple ts).text = some (textList ts) := by
  unfold tupleInner
  have hlast : ('(' :: (textList ts ++ [')'])).getLast? = some ')' := by
    rw [← List.cons_append]
    exact List.getLast?_concat
  rw [text, if_pos ⟨by simp, rfl, hlast⟩, List.drop_one, List.tail_cons, List.dropLast_concat]

theorem tupleInner_eq_none {s : Text} (h : s.head? ≠ some '(' ∨ s.getLast? ≠ some ')') :
    tupleInner s = none := by
  unfold tupleInner
  rw [if_neg]
  rintro ⟨-, hhead, hlast⟩
  exact h.elim (· hhead) (· hlast)

/-- What the text of a type of letters and digits is not. -/
theorem plain_of_isAlphanum {s : Text} (h : ∀ c ∈ s, c.isAlphanum = true) :
    parseArray s = none ∧ tupleInner s = none := by
  constructor
  · refine parseArray_eq_none fun hlast => ?_
    exact absurd (h _ (List.mem_of_getLast? hlast)) (by decide)
  · refine tupleInner_eq_none (.inl fun hhead => ?_)
    exact absurd (h _ (List.mem_of_head? hhead)) (by decide)

theorem parseArray_tuple (ts : List AbiType) : parseArray (tuple ts).text = none := by
  refine parseArray_eq_none ?_
  rw [text, ← List.cons_append, List.getLast?_concat]
  decide

theorem getLast?_array (t : AbiType) (count : Fin (maxArrayLen + 1)) :
    (array t count).text.getLast? = some ']' := by
  rw [text, ← List.cons_append, ← List.append_assoc, List.getLast?_concat]

theorem getLast?_slice (t : AbiType) : (slice t).text.getLast? = some ']' := by
  rw [text]
  exact List.getLast?_append_of_ne_nil _ (by decide)

theorem tupleInner_array (t : AbiType) (count : Fin (maxArrayLen + 1)) :
    tupleInner (array t count).text = none := by
  refine tupleInner_eq_none (.inr ?_)
  rw [getLast?_array]
  decide

theorem tupleInner_slice (t : AbiType) : tupleInner (slice t).text = none := by
  refine tupleInner_eq_none (.inr ?_)
  rw [getLast?_slice]
  decide

theorem not_isBytes_of_getLast? {s : Text} {c : Char} (h : s.getLast? = some c) (hc : c ≠ 'g')
    (hc' : c ≠ 's') : ¬(s = "string".toList ∨ s = "bytes".toList) := by
  rintro (rfl | rfl)
  · exact hc (Option.some.inj h).symm
  · exact hc' (Option.some.inj h).symm

end AbiType

/-! ### Offsets and words -/

namespace Decode

theorem isDynamicType_eq {s : Text} (hs : ¬(s = "string".toList ∨ s = "bytes".toList)) :
    isDynamicType s = (parseArray s).elim
      ((tupleInner s).elim false fun inner => (tupleFields inner).any isDynamicType)
      fun arr => if arr.fixed = none then true else isDynamicType arr.inner := by
  rw [isDynamicType, if_neg hs]
  split
  · next arr harr =>
    rw [harr]
    cases arr with
    | mk inner fixed => cases fixed <;> rfl
  · next harr =>
    rw [harr]
    split
    · next inner htuple =>
      rw [htuple, tupleHasDynamic, List.any_subtype (g := isDynamicType) fun _ _ => rfl,
        List.unattach_attach]
      rfl
    · next htuple =>
      rw [htuple]
      rfl

theorem isDynamicType_of_array {s : Text} {arr : ArrayBound}
    (hs : ¬(s = "string".toList ∨ s = "bytes".toList)) (harr : parseArray s = some arr) :
    isDynamicType s = if arr.fixed = none then true else isDynamicType arr.inner := by
  rw [isDynamicType_eq hs, harr, Option.elim_some]

theorem isDynamicType_of_tuple {s inner : Text}
    (hs : ¬(s = "string".toList ∨ s = "bytes".toList)) (harr : parseArray s = none)
    (htuple : tupleInner s = some inner) :
    isDynamicType s = (tupleFields inner).any isDynamicType := by
  rw [isDynamicType_eq hs, harr, htuple, Option.elim_none, Option.elim_some]

theorem isDynamicType_of_plain {s : Text} (hs : ¬(s = "string".toList ∨ s = "bytes".toList))
    (hplain : parseArray s = none ∧ tupleInner s = none) : isDynamicType s = false := by
  rw [isDynamicType_eq hs, hplain.1, hplain.2, Option.elim_none, Option.elim_none]

theorem staticWordCount_eq (s : Text) :
    staticWordCount s = (parseArray s).elim
      ((tupleInner s).elim 1 fun inner =>
        ((tupleFields inner).map staticWordCount).foldl satAdd 0)
      fun arr => arr.fixed.elim 1 fun n =>
        if staticWordCount arr.inner ≠ 0 ∧ n > u64Max / staticWordCount arr.inner then u64Max
        else n * staticWordCount arr.inner := by
  rw [staticWordCount]
  split
  · next arr harr =>
    rw [harr]
    cases arr with
    | mk inner fixed => cases fixed <;> rfl
  · next harr =>
    rw [harr]
    split
    · next inner htuple =>
      rw [htuple, tupleStaticWords, Option.elim_none, Option.elim_some, List.foldl_map]
      exact List.foldl_attach (f := fun sum field => satAdd sum (staticWordCount field))
    · next htuple =>
      rw [htuple]
      rfl

theorem staticWordCount_of_array {s : Text} {arr : ArrayBound} {n : Nat}
    (harr : parseArray s = some arr) (hn : arr.fixed = some n) :
    staticWordCount s =
      if staticWordCount arr.inner ≠ 0 ∧ n > u64Max / staticWordCount arr.inner then u64Max
      else n * staticWordCount arr.inner := by
  rw [staticWordCount_eq, harr, Option.elim_some, hn, Option.elim_some]

theorem staticWordCount_of_tuple {s inner : Text} (harr : parseArray s = none)
    (htuple : tupleInner s = some inner) :
    staticWordCount s = ((tupleFields inner).map staticWordCount).foldl satAdd 0 := by
  rw [staticWordCount_eq, harr, htuple, Option.elim_none, Option.elim_some]

theorem staticWordCount_of_plain {s : Text} (hplain : parseArray s = none ∧ tupleInner s = none) :
    staticWordCount s = 1 := by
  rw [staticWordCount_eq, hplain.1, hplain.2, Option.elim_none, Option.elim_none]

end Decode

namespace AbiType

/-- **The decoder knows for which types there is an offset.** -/
theorem isDynamicType_text (t : AbiType) : isDynamicType t.text = t.isDynamic := by
  have hbracket : ∀ {s : Text}, s.getLast? = some ']' → ¬(s = "string".toList ∨ s = "bytes".toList) :=
    fun h => not_isBytes_of_getLast? h (by decide) (by decide)
  induction t using induct with
  | value v =>
    rw [text, isDynamic]
    exact isDynamicType_of_plain (not_or.2 v.text_ne_dynamic) (plain_of_isAlphanum v.isAlphanum_text)
  | string => rw [text, isDynamic, isDynamicType, if_pos (.inl rfl)]
  | bytes => rw [text, isDynamic, isDynamicType, if_pos (.inr rfl)]
  | array t count ih =>
    rw [isDynamicType_of_array (hbracket (getLast?_array t count)) (parseArray_array t count),
      isDynamic, if_neg (Option.some_ne_none _)]
    exact ih
  | slice t ih =>
    rw [isDynamicType_of_array (hbracket (getLast?_slice t)) (parseArray_slice t), isDynamic,
      if_pos rfl]
  | tuple ts ih =>
    have hlast : (tuple ts).text.getLast? = some ')' := by
      rw [text, ← List.cons_append, List.getLast?_concat]
    have hs := not_isBytes_of_getLast? hlast (by decide) (by decide)
    rw [isDynamicType_of_tuple hs (parseArray_tuple ts) (tupleInner_tuple ts),
      tupleFields_textList, isDynamic, List.any_map]
    clear hlast hs
    induction ts with
    | nil => rw [anyDynamic]; rfl
    | cons t ts ihts =>
      rw [anyDynamic, List.any_cons, ihts fun t ht => ih t (List.mem_cons_of_mem _ ht)]
      exact congrArg (· || anyDynamic ts) (ih t List.mem_cons_self)

mutual

/-- Of how many words the values are, if they are all of one length. -/
def words : AbiType → Nat
  | array t count => count * t.words
  | tuple ts => wordsList ts
  | _ => 1

def wordsList : List AbiType → Nat
  | [] => 0
  | t :: ts => t.words + wordsList ts

end

theorem anyDynamic_eq_false {ts : List AbiType} (h : anyDynamic ts = false) :
    ∀ t ∈ ts, t.isDynamic = false := by
  induction ts with
  | nil => simp
  | cons t ts ih =>
    rw [anyDynamic, Bool.or_eq_false_iff] at h
    exact List.forall_mem_cons.2 ⟨h.1, ih h.2⟩

/-- Numbers whose sum fits are added without loss. -/
theorem foldl_satAdd {ns : List Nat} {acc : Nat} (h : acc + ns.sum ≤ u64Max) :
    ns.foldl satAdd acc = acc + ns.sum := by
  induction ns generalizing acc with
  | nil => rfl
  | cons n ns ih =>
    rw [List.sum_cons, ← Nat.add_assoc] at h
    have hstep : satAdd acc n = acc + n := by
      unfold satAdd
      omega
    rw [List.foldl_cons, hstep, ih h, List.sum_cons, Nat.add_assoc]

/-- **The decoder counts the words of a type.** -/
theorem staticWordCount_text (t : AbiType) (hstatic : t.isDynamic = false)
    (hsize : t.words ≤ u64Max) : staticWordCount t.text = t.words := by
  induction t using induct with
  | value v =>
    rw [text, words]
    · exact staticWordCount_of_plain (plain_of_isAlphanum v.isAlphanum_text)
    · simp
    · simp
  | string => exact absurd hstatic (by rw [isDynamic]; decide)
  | bytes => exact absurd hstatic (by rw [isDynamic]; decide)
  | array t count ih =>
    rw [isDynamic] at hstatic
    rw [words] at hsize ⊢
    rw [staticWordCount_of_array (parseArray_array t count) rfl]
    rcases Nat.eq_zero_or_pos count.val with hzero | hpos
    · -- an array of nothing is of no words, whatever its elements are
      rw [hzero, if_neg (fun h => absurd h.2 (Nat.not_lt_zero _)), Nat.zero_mul, Nat.zero_mul]
    · have hinner : t.words ≤ u64Max := (Nat.le_mul_of_pos_left _ hpos).trans hsize
      rw [ih hstatic hinner, if_neg]
      rintro ⟨hne, hlt⟩
      exact absurd hsize (Nat.not_le.2 ((Nat.div_lt_iff_lt_mul (Nat.pos_of_ne_zero hne)).1 hlt))
  | slice t ih => exact absurd hstatic (by rw [isDynamic]; decide)
  | tuple ts ih =>
    rw [isDynamic] at hstatic
    rw [words] at hsize ⊢
    have hmembers : ∀ t ∈ ts, t.isDynamic = false := anyDynamic_eq_false hstatic
    have hsum : (ts.map fun t => staticWordCount t.text).sum = wordsList ts := by
      clear hstatic
      induction ts with
      | nil => rw [wordsList]; rfl
      | cons t ts ihts =>
        rw [wordsList] at hsize ⊢
        rw [List.map_cons, List.sum_cons, ihts (fun t ht => ih t (List.mem_cons_of_mem _ ht))
          (by omega) (fun t ht => hmembers t (List.mem_cons_of_mem _ ht))]
        congr 1
        exact ih t List.mem_cons_self (hmembers t List.mem_cons_self) (by omega)
    rw [staticWordCount_of_tuple (parseArray_tuple ts) (tupleInner_tuple ts), tupleFields_textList,
      List.map_map]
    change ((ts.map fun t => staticWordCount t.text).foldl satAdd 0) = _
    rw [foldl_satAdd, hsum, Nat.zero_add]
    rw [hsum, Nat.zero_add]
    exact hsize

end AbiType

end Zponder

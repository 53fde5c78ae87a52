import Zponder.AbiLoad
import Zponder.AbiText

/-!
# Signatures of events

The first topic of a log is the hash of a text, the name of its event and the types of the inputs.
In the file of the contract an input of a tuple type says `tuple`, with the dimensions of the array
behind it if it is one, and has its components beside it. `canonicalAbiType` puts the components in
the place of the word, so that the text is the canonical one, whatever is nested in what
(`Zponder.Signature.gives_parseEvent`).

The same texts tell the decoder what the types are. It takes them apart from the outside, the last
brackets first, and finds the types that were declared, unless an array is longer than a `usize`
can tell: then what is in the brackets is not read, and the text is taken for the name of a type
(`Zponder.Signature.typeOf_text_iff`).
-/

namespace Zponder

namespace Text

/-- Numbers that are read are below the limit. -/
theorem parseDigits_eq_some {limit : Nat} {cs : Text} (hcs : ∀ c ∈ cs, c.isDigit = true)
    {acc v : Nat} (hacc : acc < limit) (h : parseDigits 10 limit false acc cs = some v) :
    v < limit ∧ v = Nat.ofDigitChars 10 cs acc := by
  induction cs generalizing acc with
  | nil =>
    rw [parseDigits] at h
    obtain rfl := Option.some.inj h
    exact ⟨hacc, Nat.ofDigitChars_nil.symm⟩
  | cons c cs ih =>
    obtain ⟨hdigit, hscore, -⟩ := charToDigit_of_isDigit (hcs c List.mem_cons_self)
    rw [parseDigits, if_neg hscore, hdigit] at h
    simp only at h
    split at h
    · next hlt =>
      rw [Nat.ofDigitChars_cons, Nat.mul_comm]
      exact ih (fun d hd => hcs d (List.mem_cons_of_mem c hd)) hlt.1 h
    · cases h

/-- A number that is too large is not read. -/
theorem parseInt_decimal_of_le {limit n : Nat} (hlimit : 0 < limit) (h : limit ≤ n) :
    parseInt 10 limit (decimal n) = none := by
  rw [parseInt_eq_parseDigits limit (decimal_ne_nil n) fun c hc => isDigit_of_mem_decimal hc]
  by_contra hne
  obtain ⟨v, hv⟩ := Option.ne_none_iff_exists'.1 hne
  obtain ⟨hlt, rfl⟩ := parseDigits_eq_some (fun c hc => isDigit_of_mem_decimal hc) hlimit hv
  have hvalue : Nat.ofDigitChars 10 (decimal n) 0 = n := Nat.ofDigitChars_ten_toDigits
  omega

end Text

namespace Signature

open Exits Decode AbiLoad

open Json (Value)

/-! ### Types as they are declared -/

/-- The type of an input. -/
inductive TypeTree where
  | elementary (name : Text)
  | tuple (components : List TypeTree)
  | array (t : TypeTree) (count : Option Nat)

namespace TypeTree

/-- Induction over a type, and over the components of a tuple. -/
theorem induct {P : TypeTree → Prop} (elementary : ∀ name, P (.elementary name))
    (tuple : ∀ ts, (∀ t ∈ ts, P t) → P (.tuple ts)) (array : ∀ t count, P t → P (.array t count)) :
    ∀ t, P t :=
  @TypeTree.rec P (fun ts => ∀ t ∈ ts, P t) elementary tuple array (by simp)
    fun _ _ ht hts => List.forall_mem_cons.2 ⟨ht, hts⟩

/-- A dimension of an array. -/
def dimension : Option Nat → Text
  | none => "[]".toList
  | some n => '[' :: (Text.decimal n ++ [']'])

mutual

/-- The canonical text of a type. -/
def text : TypeTree → Text
  | elementary name => name
  | tuple ts => '(' :: (textList ts ++ [')'])
  | array t count => t.text ++ dimension count

/-- The types of the components, with commas between them. -/
def textList : List TypeTree → Text
  | [] => []
  | [t] => t.text
  | t :: t' :: ts => t.text ++ ',' :: textList (t' :: ts)

end

/-- What the file has for the type. -/
def word : TypeTree → Text
  | elementary name => name
  | tuple _ => "tuple".toList
  | array t count => t.word ++ dimension count

/-- The components the file has beside it. -/
def components : TypeTree → Option (List TypeTree)
  | elementary _ => none
  | tuple ts => some ts
  | array t _ => t.components

/-- Elementary types have names of letters and digits. -/
inductive WellFormed : TypeTree → Prop
  | elementary {name : Text} : name ≠ [] → (∀ c ∈ name, c.isAlphanum = true) →
      WellFormed (.elementary name)
  | tuple {ts : List TypeTree} : (∀ t ∈ ts, WellFormed t) → WellFormed (.tuple ts)
  | array {t : TypeTree} {count : Option Nat} : WellFormed t → WellFormed (.array t count)

/-- Every fixed array is of a length that a `usize` can tell. -/
inductive Fits : TypeTree → Prop
  | elementary {name : Text} : Fits (.elementary name)
  | tuple {ts : List TypeTree} : (∀ t ∈ ts, Fits t) → Fits (.tuple ts)
  | array {t : TypeTree} {count : Option Nat} : (∀ n ∈ count, n < 2 ^ 64) → Fits t →
      Fits (.array t count)

theorem textList_eq (ts : List TypeTree) : textList ts = List.intercalate [','] (ts.map text) := by
  induction ts with
  | nil => rfl
  | cons t ts ih =>
    cases ts with
    | nil => rw [textList, List.map_cons, List.map_nil, List.intercalate_singleton]
    | cons t' ts =>
      rw [textList, ih]
      simp only [List.map_cons, List.intercalate_cons_cons]
      simp

theorem text_tuple (ts : List TypeTree) : (tuple ts).text = tupleText (ts.map text) := by
  rw [text, tupleText, textList_eq]

/-- A type with components is the word with dimensions behind it, and written with the components
in place of the word. -/
theorem exists_dimensions {t : TypeTree} {ts : List TypeTree} (h : t.components = some ts) :
    ∃ dims, t.word = "tuple".toList ++ dims ∧ t.text = tupleText (ts.map text) ++ dims := by
  induction t using induct with
  | elementary name => cases h
  | tuple ts' ih =>
    obtain rfl := Option.some.inj h
    exact ⟨[], (List.append_nil _).symm, by rw [text_tuple, List.append_nil]⟩
  | array t count ih =>
    obtain ⟨dims, hword, htext⟩ := ih h
    exact ⟨dims ++ dimension count, by rw [word, hword, List.append_assoc],
      by rw [text, htext, List.append_assoc]⟩

/-- A type without components is written as it is. -/
theorem text_eq_word {t : TypeTree} (h : t.components = none) : t.text = t.word := by
  induction t using induct with
  | elementary name => rfl
  | tuple ts ih => cases h
  | array t count ih => rw [text, word, ih h]

end TypeTree

open TypeTree

/-! ### The file -/

/-- A value of the file declares a type: it has its word, and its components if there are any. -/
inductive Declares : Value → TypeTree → Prop
  | plain {members : Members} {t : TypeTree} :
      members.lookup "type".toList = some (.text t.word) → t.components = none →
      (∀ items, members.lookup "components".toList ≠ some (.array items)) →
      Declares (.object members) t
  | nested {members : Members} {t : TypeTree} {ts : List TypeTree} {items : List Value} :
      members.lookup "type".toList = some (.text t.word) → t.components = some ts →
      members.lookup "components".toList = some (.array items) →
      List.Forall₂ Declares items ts → Declares (.object members) t

section File

variable {keccak256 : Text → Fin 32 → Fin 256} {junk : Char}

theorem indexOf_tuple (dims : Text) : indexOf "tuple".toList ("tuple".toList ++ dims) = some 0 := by
  change indexOf "tuple".toList ('t' :: ("uple".toList ++ dims)) = some 0
  rw [indexOf, if_pos]
  exact List.isPrefixOf_iff_prefix.2 (List.prefix_append _ dims)

/-- **The type that is loaded is the canonical text**, with the components in it at any depth. -/
theorem gives_canonicalAbiType {v : Value} {t : TypeTree} (h : Declares v t) :
    Gives (canonicalAbiType junk v) t.text := by
  induction hsize : sizeOf v using Nat.strong_induction_on generalizing v t with
  | _ n ih =>
    subst hsize
    cases h with
    | plain htype hnone hcomps =>
      rw [canonicalAbiType_object htype, text_eq_word hnone]
      split
      · next items hitems => exact absurd hitems (hcomps items)
      · exact gives_pure.2 rfl
    | nested htype hcomps hitems hall =>
      rename_i members ts items
      have hparts : List.Forall₂ (fun item t => Gives (canonicalAbiType junk item) t.text)
          items ts := by
        have hboth := (List.forall₂_and_left _ _).2 ⟨fun item hitem =>
          fun t (h : Declares item t) => ih _ (sizeOf_components hitems hitem) h rfl, hall⟩
        exact hboth.imp fun item t h => h.1 t h.2
      obtain ⟨dims, hword, htext⟩ := exists_dimensions hcomps
      rw [canonicalAbiType_object htype, hitems]
      refine gives_bind.2 ⟨ts.map text, gives_mapM (List.forall₂_map_right_iff.2 hparts), ?_⟩
      have hreplace := @gives_replaceTuple junk t.word (tupleText (ts.map text))
      rw [hword, indexOf_tuple] at hreplace
      rw [htext, hword]
      exact hreplace

/-- An input of an event. -/
structure Input where
  name : Text
  type : TypeTree
  indexed : Bool

/-- What an input is loaded as. -/
def Input.loaded (i : Input) : EventInput := ⟨i.name, i.type.text, i.indexed⟩

/-- A value of the file that declares an input. What does not say whether it is indexed is not. -/
def DeclaresInput (v : Value) (i : Input) : Prop :=
  Declares v i.type ∧ ∃ members, v = .object members ∧
    members.lookup "name".toList = some (.text i.name) ∧
    (members.lookup "indexed".toList).getD (.bool false) = .bool i.indexed

theorem gives_parseEventInput {v : Value} {i : Input} (h : DeclaresInput v i) :
    Gives (parseEventInput junk v) i.loaded := by
  obtain ⟨htype, members, rfl, hname, hindexed⟩ := h
  have hflag : Gives (getOr members "indexed".toList bool false) i.indexed := by
    unfold getOr
    cases hlookup : members.lookup "indexed".toList with
    | none =>
      rw [hlookup, Option.getD_none] at hindexed
      exact gives_pure.2 (Value.bool.inj hindexed)
    | some v =>
      rw [hlookup, Option.getD_some] at hindexed
      exact gives_bool.2 hindexed
  unfold parseEventInput
  rw [gives_object_bind]
  exact gives_bind.2 ⟨_, gives_text.2 hname, gives_bind.2
    ⟨_, gives_canonicalAbiType htype, gives_bind.2 ⟨_, hflag, gives_pure.2 rfl⟩⟩⟩

/-- The canonical signature of an event. -/
def signature (name : Text) (inputs : List Input) : Text :=
  name ++ (TypeTree.tuple (inputs.map (·.type))).text

/-- **The first topic of an event is the hash of its canonical signature.** -/
theorem gives_parseEvent {members : Members} {name : Text} {items : List Value}
    {inputs : List Input} (hname : members.lookup "name".toList = some (.text name))
    (hinputs : members.lookup "inputs".toList = some (.array items))
    (h : List.Forall₂ DeclaresInput items inputs) :
    Gives (parseEvent keccak256 junk members)
      ⟨name, inputs.map Input.loaded, keccak256 (signature name inputs)⟩ := by
  have hloaded : Gives (items.mapM (parseEventInput junk)) (inputs.map Input.loaded) :=
    gives_mapM (List.forall₂_map_right_iff.2 (h.imp fun _ _ => gives_parseEventInput))
  have htext : formatEventSignature name (inputs.map Input.loaded) = signature name inputs := by
    rw [formatEventSignature, signature, text_tuple, List.map_map, List.map_map]
    rfl
  unfold parseEvent
  refine gives_bind.2 ⟨name, gives_text.2 hname, (gives_array_bind hinputs).2 ?_⟩
  exact gives_bind.2 ⟨_, hloaded, gives_pure.2 (by rw [htext])⟩

end File

/-! ### Back to types -/

/-- The type the decoder takes a text for: it looks at the last brackets first, and then for
parentheses. -/
def typeOf (abiType : Text) : TypeTree :=
  match _h : parseArray abiType with
  | some arr => .array (typeOf arr.inner) arr.fixed
  | none =>
    match _h' : tupleInner abiType with
    | some inner => .tuple ((tupleFields inner).attach.map fun field => typeOf field.1)
    | none => .elementary abiType
termination_by abiType.length
decreasing_by
  · exact length_inner_of_parseArray _h
  · exact (length_le_of_mem_tupleFields field.2).trans_lt (length_tupleInner _h')

theorem typeOf_of_array {s : Text} {arr : ArrayBound} (h : parseArray s = some arr) :
    typeOf s = .array (typeOf arr.inner) arr.fixed := by
  rw [typeOf]
  split
  · next arr' h' => rw [Option.some.inj (h.symm.trans h')]
  · next h' => cases h.symm.trans h'

theorem typeOf_of_tuple {s inner : Text} (h : parseArray s = none)
    (h' : tupleInner s = some inner) : typeOf s = .tuple ((tupleFields inner).map typeOf) := by
  rw [typeOf]
  split
  · next harr => cases h.symm.trans harr
  · split
    · next inner' htuple =>
      rw [← Option.some.inj (h'.symm.trans htuple), List.attach_map_val]
    · next htuple => cases h'.symm.trans htuple

theorem typeOf_of_plain {s : Text} (h : parseArray s = none) (h' : tupleInner s = none) :
    typeOf s = .elementary s := by
  rw [typeOf]
  split
  · next harr => cases h.symm.trans harr
  · split
    · next htuple => cases h'.symm.trans htuple
    · rfl

namespace TypeTree

theorem text_ne_nil {t : TypeTree} (h : t.WellFormed) : t.text ≠ [] := by
  induction h with
  | elementary hne => exact hne
  | tuple => exact List.cons_ne_nil _ _
  | array _ ih =>
    rw [text]
    exact List.append_ne_nil_of_left_ne_nil ih _

/-- In brackets, the texts of some types are gone over. -/
theorem passes_textList {ts : List TypeTree} (h : ∀ t ∈ ts, ∀ d, Passes d t.text d) (d : Nat) :
    Passes (d + 1) (textList ts) (d + 1) := by
  induction ts with
  | nil => exact .nil _
  | cons t ts ih =>
    have ht : Passes (d + 1) t.text (d + 1) := h t List.mem_cons_self _
    cases ts with
    | nil => exact ht
    | cons t' ts =>
      have hrest := ih fun t ht => h t (List.mem_cons_of_mem _ ht)
      exact ht.append (.cons (fun hcomma => by cases hcomma.2) hrest)

theorem passes_dimension (count : Option Nat) (d : Nat) : Passes d (dimension count) d := by
  have hclose : Passes (d + 1) [']'] d := .cons (fun h => absurd h.1 (by decide)) (.nil d)
  cases count with
  | none => exact .cons (fun h => absurd h.1 (by decide)) hclose
  | some n =>
    have hdigits : Passes (d + 1) (Text.decimal n) (d + 1) :=
      Passes.of_isAlphanum (fun c hc => isAlphanum_of_mem_decimal hc) _
    exact .cons (fun h => absurd h.1 (by decide)) (hdigits.append hclose)

/-- **The text of a type leaves the count of the brackets as it was.** -/
theorem passes_text {t : TypeTree} (h : t.WellFormed) : ∀ d, Passes d t.text d := by
  induction t using induct with
  | elementary name =>
    cases h with
    | elementary _ hname => exact Passes.of_isAlphanum hname
  | tuple ts ih =>
    cases h with
    | tuple hts =>
      intro d
      have hclose : Passes (d + 1) [')'] d := .cons (fun h => absurd h.1 (by decide)) (.nil d)
      rw [text]
      exact .cons (fun h => absurd h.1 (by decide))
        ((passes_textList (fun t ht => ih t ht (hts t ht)) d).append hclose)
  | array t count ih =>
    cases h with
    | array ht =>
      intro d
      rw [text]
      exact (ih ht d).append (passes_dimension count d)

theorem blank_notMem_textList {ts : List TypeTree}
    (h : ∀ t ∈ ts, ∀ c ∈ t.text, c ≠ ' ' ∧ c ≠ '\t') :
    ∀ c ∈ textList ts, c ≠ ' ' ∧ c ≠ '\t' := by
  induction ts with
  | nil => exact fun c hc => absurd hc List.not_mem_nil
  | cons t ts ih =>
    have ht := h t List.mem_cons_self
    have hts := ih fun t ht => h t (List.mem_cons_of_mem _ ht)
    cases ts with
    | nil => exact ht
    | cons t' ts =>
      intro c hc
      rw [textList, List.mem_append, List.mem_cons] at hc
      rcases hc with hc | rfl | hc
      · exact ht c hc
      · decide
      · exact hts c hc

theorem blank_notMem_of_isAlphanum {s : Text} (h : ∀ c ∈ s, c.isAlphanum = true) :
    ∀ c ∈ s, c ≠ ' ' ∧ c ≠ '\t' := by
  intro c hc
  constructor
  all_goals
    rintro rfl
    exact absurd (h _ hc) (by decide)

theorem blank_notMem_dimension (count : Option Nat) :
    ∀ c ∈ dimension count, c ≠ ' ' ∧ c ≠ '\t' := by
  cases count with
  | none => simp [dimension]
  | some n =>
    intro c hc
    rw [dimension, List.mem_cons, List.mem_append, List.mem_singleton] at hc
    rcases hc with rfl | hc | rfl
    · decide
    · exact blank_notMem_of_isAlphanum (fun c hc => isAlphanum_of_mem_decimal hc) c hc
    · decide

/-- There are no blanks in it. -/
theorem blank_notMem_text {t : TypeTree} (h : t.WellFormed) : ∀ c ∈ t.text, c ≠ ' ' ∧ c ≠ '\t' := by
  induction t using induct with
  | elementary name =>
    cases h with
    | elementary _ hname => exact blank_notMem_of_isAlphanum hname
  | tuple ts ih =>
    cases h with
    | tuple hts =>
      intro c hc
      rw [text, List.mem_cons, List.mem_append, List.mem_singleton] at hc
      rcases hc with rfl | hc | rfl
      · decide
      · exact blank_notMem_textList (fun t ht => ih t ht (hts t ht)) c hc
      · decide
  | array t count ih =>
    cases h with
    | array ht =>
      intro c hc
      rw [text, List.mem_append] at hc
      exact hc.elim (ih ht c) (blank_notMem_dimension count c)

/-- **The components of a tuple are found again.** -/
theorem tupleFields_textList {ts : List TypeTree} (h : ∀ t ∈ ts, t.WellFormed) :
    tupleFields (textList ts) = ts.map text := by
  induction ts with
  | nil =>
    rw [textList, tupleFields]
    rfl
  | cons t ts ih =>
    have ht := h t List.mem_cons_self
    have htrim : Text.trim t.text = t.text := Text.trim_eq_self (blank_notMem_text ht)
    cases ts with
    | nil =>
      have hsplit : splitField 0 t.text = (t.text, []) := by
        have hpasses := passes_text ht 0 []
        rw [List.append_nil] at hpasses
        rw [hpasses]
        exact Prod.ext (List.append_nil _) rfl
      have hnext : nextTupleField (textList [t]) = some (t.text, []) := by
        unfold nextTupleField
        simp only [textList, hsplit, htrim, if_neg (text_ne_nil ht), List.drop_nil]
      rw [tupleFields, hnext]
      change t.text :: tupleFields [] = [t.text]
      rw [tupleFields]
      rfl
    | cons t' ts =>
      have hnext : nextTupleField (textList (t :: t' :: ts)) =
          some (t.text, textList (t' :: ts)) := by
        have hsplit : splitField 0 (t.text ++ ',' :: textList (t' :: ts)) =
            (t.text, ',' :: textList (t' :: ts)) := by
          rw [passes_text ht 0, splitField, if_pos ⟨rfl, rfl⟩]
          exact Prod.ext (List.append_nil _) rfl
        unfold nextTupleField
        simp only [textList, hsplit, htrim, if_neg (text_ne_nil ht), List.drop_one, List.tail_cons]
      rw [tupleFields, hnext]
      exact congrArg (t.text :: ·) (ih fun t ht => h t (List.mem_cons_of_mem _ ht))

/-- The last brackets are those of the outermost array, if what is in them can be read. -/
theorem parseArray_array {t : TypeTree} (h : t.WellFormed) (count : Option Nat) :
    parseArray (array t count).text =
      if ∀ n ∈ count, n < 2 ^ 64 then some ⟨t.text, count⟩ else none := by
  rw [text]
  cases count with
  | none =>
    have harr := AbiType.parseArray_append (text_ne_nil h) (List.not_mem_nil (a := '['))
    rw [if_pos rfl] at harr
    rw [if_pos (by simp)]
    exact harr
  | some n =>
    have hno : '[' ∉ Text.decimal n := fun h => absurd (Text.isDigit_of_mem_decimal h) (by decide)
    rw [dimension, AbiType.parseArray_append (text_ne_nil h) hno, if_neg (Text.decimal_ne_nil _)]
    by_cases hn : n < 2 ^ 64
    · rw [Text.parseInt_decimal hn, if_pos (by simpa using hn)]
      rfl
    · rw [Text.parseInt_decimal_of_le (by decide) (Nat.not_lt.1 hn), if_neg (by simpa using hn)]
      rfl

theorem getLast?_array (t : TypeTree) (count : Option Nat) :
    (array t count).text.getLast? = some ']' := by
  rw [text]
  cases count with
  | none => exact List.getLast?_append_of_ne_nil _ (by decide)
  | some n => rw [dimension, ← List.cons_append, ← List.append_assoc, List.getLast?_concat]

theorem tupleInner_array (t : TypeTree) (count : Option Nat) :
    tupleInner (array t count).text = none := by
  refine AbiType.tupleInner_eq_none (.inr ?_)
  rw [getLast?_array]
  decide

theorem getLast?_tuple (ts : List TypeTree) : (tuple ts).text.getLast? = some ')' := by
  rw [text, ← List.cons_append, List.getLast?_concat]

theorem parseArray_tuple (ts : List TypeTree) : parseArray (tuple ts).text = none := by
  refine AbiType.parseArray_eq_none ?_
  rw [getLast?_tuple]
  decide

theorem tupleInner_tuple (ts : List TypeTree) :
    tupleInner (tuple ts).text = some (textList ts) := by
  have hlast := getLast?_tuple ts
  unfold tupleInner
  rw [if_pos ⟨by simp [text], by rw [text]; rfl, hlast⟩, text, List.drop_one, List.tail_cons,
    List.dropLast_concat]

end TypeTree

/-- **The text of a type is taken for the type** if its arrays are not too long. -/
theorem typeOf_text_iff {t : TypeTree} (h : t.WellFormed) : typeOf t.text = t ↔ t.Fits := by
  induction t using induct with
  | elementary name =>
    cases h with
    | elementary _ hname =>
      obtain ⟨harr, htuple⟩ := AbiType.plain_of_isAlphanum hname
      exact iff_of_true (typeOf_of_plain harr htuple) .elementary
  | tuple ts ih =>
    cases h with
    | tuple hts =>
      have heach : ts.map (fun t => typeOf t.text) = ts ↔ ∀ t ∈ ts, t.Fits := by
        have hid : ts.map (fun t => typeOf t.text) = ts ↔
            ts.map (fun t => typeOf t.text) = ts.map id := by rw [List.map_id]
        rw [hid, List.map_inj_left]
        exact forall₂_congr fun t ht => ih t ht (hts t ht)
      have hfits : (tuple ts).Fits ↔ ∀ t ∈ ts, t.Fits :=
        ⟨fun h => by cases h with | tuple h => exact h, .tuple⟩
      rw [typeOf_of_tuple (parseArray_tuple ts) (tupleInner_tuple ts), tupleFields_textList hts,
        List.map_map, hfits, ← heach]
      exact ⟨TypeTree.tuple.inj, congrArg TypeTree.tuple⟩
  | array t count ih =>
    cases h with
    | array ht =>
      have hfits : (array t count).Fits ↔ (∀ n ∈ count, n < 2 ^ 64) ∧ t.Fits :=
        ⟨fun h => by cases h with | array hcount ht => exact ⟨hcount, ht⟩, fun h => .array h.1 h.2⟩
      have harr := parseArray_array ht count
      rw [hfits, ← ih ht]
      by_cases hcount : ∀ n ∈ count, n < 2 ^ 64
      · rw [if_pos hcount] at harr
        rw [typeOf_of_array harr, and_iff_right hcount]
        exact ⟨fun heq => (TypeTree.array.inj heq).1, fun heq => congrArg (array · count) heq⟩
      · rw [if_neg hcount] at harr
        rw [typeOf_of_plain harr (tupleInner_array t count)]
        exact iff_of_false (fun heq => by cases heq) fun h => hcount h.1

/-! ### Both -/

/-- **The signature of an event is the canonical one**, and the decoder reads the types of the inputs
out of it that were declared, as far as their arrays are not too long. -/
theorem signature_canonical {keccak256 : Text → Fin 32 → Fin 256} {junk : Char}
    {members : Members} {name : Text} {items : List Value} {inputs : List Input}
    (hname : members.lookup "name".toList = some (.text name))
    (hinputs : members.lookup "inputs".toList = some (.array items))
    (h : List.Forall₂ DeclaresInput items inputs) (hwell : ∀ i ∈ inputs, i.type.WellFormed) :
    Gives (parseEvent keccak256 junk members)
        ⟨name, inputs.map Input.loaded, keccak256 (signature name inputs)⟩ ∧
      ∀ i ∈ inputs, (typeOf i.type.text = i.type ↔ i.type.Fits) :=
  ⟨gives_parseEvent hname hinputs h, fun i hi => typeOf_text_iff (hwell i hi)⟩

/-- An event whose one input is `tuple[3][]`, of a number and a text. -/
def pairsType : TypeTree :=
  .array (.array (.tuple [.elementary "uint256".toList, .elementary "string".toList]) (some 3)) none

def pairsInput : Input := ⟨"pairs".toList, pairsType, false⟩

def pairsItem : Value := .object
  [("name".toList, .text "pairs".toList), ("type".toList, .text "tuple[3][]".toList),
    ("components".toList, .array
      [.object [("type".toList, .text "uint256".toList)],
        .object [("type".toList, .text "string".toList)]])]

def pairsMembers : Members :=
  [("name".toList, .text "Paired".toList), ("inputs".toList, .array [pairsItem])]

/-- In the place of a hash, the length of a text. -/
def lengthHash (s : Text) (_ : Fin 32) : Fin 256 := ⟨s.length % 256, Nat.mod_lt _ (by decide)⟩

theorem declares_pairs : Declares pairsItem pairsType := by
  refine .nested rfl rfl rfl ?_
  refine .cons ?_ (.cons ?_ .nil)
  · exact .plain rfl rfl fun items h => by cases h
  · exact .plain rfl rfl fun items h => by cases h

theorem wellFormed_pairs : pairsType.WellFormed := by
  refine .array (.array (.tuple ?_))
  simp only [List.forall_mem_cons, List.not_mem_nil, false_implies, implies_true, and_true]
  exact ⟨.elementary (by decide) (List.all_eq_true.1 (by decide)),
    .elementary (by decide) (List.all_eq_true.1 (by decide))⟩

theorem signature_canonical_pairs :
    Gives (parseEvent lengthHash ' ' pairsMembers)
        ⟨"Paired".toList, [pairsInput].map Input.loaded,
          lengthHash "Paired((uint256,string)[3][])".toList⟩ ∧
      ∀ i ∈ [pairsInput], (typeOf i.type.text = i.type ↔ i.type.Fits) :=
  signature_canonical rfl rfl
    (.cons ⟨declares_pairs, _, rfl, rfl, rfl⟩ .nil)
    (List.forall_mem_singleton.2 wellFormed_pairs)

/-- An array of a length that does not fit is taken for an elementary type. -/
theorem typeOf_tooLong :
    (TypeTree.array (.elementary "uint8".toList) (some (2 ^ 64))).WellFormed ∧
      typeOf "uint8[18446744073709551616]".toList =
        .elementary "uint8[18446744073709551616]".toList ∧
      typeOf (TypeTree.array (.elementary "uint8".toList) (some (2 ^ 64))).text ≠
        .array (.elementary "uint8".toList) (some (2 ^ 64)) := by
  have hwell : (TypeTree.array (.elementary "uint8".toList) (some (2 ^ 64))).WellFormed :=
    .array (.elementary (by decide) (List.all_eq_true.1 (by decide)))
  refine ⟨hwell, typeOf_of_plain (by decide +kernel) (by decide +kernel), fun heq => ?_⟩
  cases (typeOf_text_iff hwell).1 heq with
  | array hcount _ => exact absurd (hcount _ rfl) (lt_irrefl _)

end Signature

end Zponder

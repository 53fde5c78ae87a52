import Zponder.CallResult
import Zponder.DecodeEvent

/-!
# The answer to a call is read back

The standard encoding of what a function returns, read by `decodeSingleOutput` where it has one
output and by `decodeCallResult` where it has several, is answered with the rendering of each
value (`Zponder.Decode.decodeOutputs_encode`): numbers in decimal digits, with a sign where they
are below zero.

The types, the values and their encoding are those of `Zponder.AbiType`, and so is what is found
on a walk along the heads. What is new is the cursor, which a tuple moves on for its caller, and
the sign, which is found in the first digit of a word.
-/

namespace Zponder

open Decode HeadTail

/-! ### The rendering -/

/-- A number with its sign. -/
def Text.integer : Int → Text
  | .ofNat n => Text.decimal n
  | .negSucc n => '-' :: Text.decimal (n + 1)

/-- **What a value of a call is to be answered with.** -/
def ValueType.callRender : (v : ValueType) → v.Val → Text
  | uint _, x => Text.decimal x.toNat
  | int _, x => Text.integer x.toInt
  | address, x => "0x".toList ++ Text.hexOf 40 x.toNat
  | bool, x => if x.toNat = 1 then "true".toList else "false".toList
  | v, x => "0x".toList ++ Text.hexOf 64 (v.word x).toNat

namespace AbiType

mutual

/-- **The reference rendering** of what a call returns. -/
def callRender : (t : AbiType) → t.Val → Text
  | value v, x => v.callRender x
  | string, s => "0x".toList ++ hexBytes s.bytes
  | bytes, s => "0x".toList ++ hexBytes s.bytes
  | array t _, vs => Decode.joinJsonArray (vs.1.map fun v => callRender t v)
  | slice t, vs => Decode.joinJsonArray (vs.1.map fun v => callRender t v)
  | tuple ts, vs => Decode.joinJsonArray (callRenderList ts vs)

/-- The renderings of the members. -/
def callRenderList : (ts : List AbiType) → Vals ts → List Text
  | [], _ => []
  | t :: ts, vs => callRender t vs.1 :: callRenderList ts vs.2

end

theorem callRender_value (v : ValueType) (x : (value v).Val) :
    callRender (value v) x = v.callRender x := rfl

theorem callRender_string (s : string.Val) :
    callRender string s = "0x".toList ++ hexBytes s.bytes := rfl

theorem callRender_bytes (s : bytes.Val) :
    callRender bytes s = "0x".toList ++ hexBytes s.bytes := rfl

theorem callRender_array (t : AbiType) (count : Fin (maxArrayLen + 1)) (vs : (array t count).Val) :
    callRender (array t count) vs = Decode.joinJsonArray (vs.1.map (callRender t)) := rfl

theorem callRender_slice (t : AbiType) (vs : (slice t).Val) :
    callRender (slice t) vs = Decode.joinJsonArray (vs.1.map (callRender t)) := rfl

theorem callRender_tuple (ts : List AbiType) (vs : (tuple ts).Val) :
    callRender (tuple ts) vs = Decode.joinJsonArray (callRenderList ts vs) := rfl

theorem callRenderList_nil (vs : Vals []) : callRenderList [] vs = [] := rfl

theorem callRenderList_cons (t : AbiType) (ts : List AbiType) (vs : Vals (t :: ts)) :
    callRenderList (t :: ts) vs = callRender t vs.1 :: callRenderList ts vs.2 := rfl

end AbiType

/-! ### Numbers in hex digits -/

namespace Text

/-- A hex digit, in lower case. -/
def IsHexDigit (c : Char) : Prop := ∃ d, d < 16 ∧ c = Nat.digitChar d

theorem IsHexDigit.charToDigit {c : Char} (h : IsHexDigit c) :
    charToDigit c 16 = some (hexDigit c) ∧ c ≠ '_' ∧ c ≠ '+' ∧ c ≠ '-' := by
  obtain ⟨d, hd, rfl⟩ := h
  interval_cases d <;> exact ⟨rfl, by decide, by decide, by decide⟩

theorem isHexDigit_of_mem_hexOf {n x : Nat} {c : Char} (h : c ∈ hexOf n x) : IsHexDigit c := by
  induction n generalizing x with
  | zero => cases h
  | succ n ih =>
    rw [hexOf, List.mem_append, List.mem_singleton] at h
    exact h.elim ih fun h => ⟨_, Nat.mod_lt x (by decide), h⟩

/-- The number some digits are read as, from another on. -/
def hexValue (s : Text) (acc : Nat) : Nat := s.foldl (fun result c => result * 16 + hexDigit c) acc

theorem le_hexValue (s : Text) (acc : Nat) : acc ≤ hexValue s acc := by
  induction s generalizing acc with
  | nil => exact le_rfl
  | cons c s ih => exact (by omega : acc ≤ acc * 16 + hexDigit c).trans (ih _)

theorem parseDigits_hex {limit : Nat} {s : Text} (hs : ∀ c ∈ s, IsHexDigit c) {acc : Nat}
    (h : hexValue s acc < limit) : parseDigits 16 limit false acc s = some (hexValue s acc) := by
  induction s generalizing acc with
  | nil => rfl
  | cons c s ih =>
    obtain ⟨hdigit, hscore, -⟩ := (hs c List.mem_cons_self).charToDigit
    have hstep : hexValue (c :: s) acc = hexValue s (acc * 16 + hexDigit c) := rfl
    have hlt : acc * 16 + hexDigit c < limit := (le_hexValue s _).trans_lt h
    rw [parseDigits, if_neg hscore, hdigit, hstep]
    exact (if_pos ⟨hlt, by simp⟩).trans (ih (fun d hd => hs d (List.mem_cons_of_mem c hd)) h)

theorem parseInt_hex {limit : Nat} {s : Text} (hne : s ≠ []) (hs : ∀ c ∈ s, IsHexDigit c)
    (h : hexValue s 0 < limit) : parseInt 16 limit s = some (hexValue s 0) := by
  have hmagnitude : parseMagnitude 16 limit false s = some (hexValue s 0) := by
    unfold parseMagnitude
    rw [if_neg]
    · exact parseDigits_hex hs h
    · rintro (hnil | hhead | hlast)
      · exact hne hnil
      · exact (hs _ (List.mem_of_head? hhead)).charToDigit.2.1 rfl
      · exact (hs _ (List.mem_of_getLast? hlast)).charToDigit.2.1 rfl
  unfold parseInt
  split
  · exact absurd rfl (hs '+' List.mem_cons_self).charToDigit.2.2.1
  · exact absurd rfl (hs '-' List.mem_cons_self).charToDigit.2.2.2
  · exact hmagnitude

/-- Zeros in front are worth nothing. -/
theorem hexValue_dropWhile (s : Text) : hexValue (s.dropWhile (· == '0')) 0 = hexValue s 0 := by
  induction s with
  | nil => rfl
  | cons c s ih =>
    rw [List.dropWhile_cons]
    split
    · next hzero =>
      obtain rfl := beq_iff_eq.1 hzero
      exact ih
    · rfl

theorem hexValue_hexOf {x : Nat} (h : x < 2 ^ 256) : hexValue (hexOf 64 x) 0 = x := by
  have hpow : (16 : Nat) ^ 64 = 2 ^ 256 := by norm_num
  unfold hexValue
  rw [foldl_hexOf, hpow, Nat.mod_eq_of_lt h, Nat.zero_mul, Nat.zero_add]

/-- The first digit of a word. -/
theorem head?_hexOf (x : Nat) : (hexOf 64 x).head? = some (Nat.digitChar (x / 16 ^ 63 % 16)) := by
  rw [hexOf_add 1 63]
  rfl

end Text

namespace Decode

theorem take_hexOf (x : Nat) : (Text.hexOf 64 x).take 64 = Text.hexOf 64 x :=
  List.take_of_length_le (by rw [Text.length_hexOf])

theorem callWordNegative_of_head {s : Text} {d : Nat} (hd : d < 16)
    (h : s.head? = some (Nat.digitChar d)) : callWordNegative s = decide (8 ≤ d) := by
  rw [callWordNegative, h]
  interval_cases d <;> rfl

/-- **The sign is in the first digit.** -/
theorem callWordNegative_hexOf {x : Nat} (h : x < 2 ^ 256) :
    callWordNegative (Text.hexOf 64 x) = decide (2 ^ 255 ≤ x) := by
  have hpow : (2 : Nat) ^ 256 = 16 * 16 ^ 63 := by norm_num
  have hhalf : (2 : Nat) ^ 255 = 8 * 16 ^ 63 := by norm_num
  have hlt : x / 16 ^ 63 < 16 := Nat.div_lt_of_lt_mul (by rw [Nat.mul_comm]; omega)
  have hiff : 2 ^ 255 ≤ x ↔ 8 ≤ x / 16 ^ 63 := by
    rw [Nat.le_div_iff_mul_le (by positivity), hhalf]
  have hhead := Text.head?_hexOf x
  rw [Nat.mod_eq_of_lt hlt] at hhead
  rw [callWordNegative_of_head hlt hhead, decide_eq_decide.2 hiff]

/-- **A number is read from its word.** -/
theorem decodeCallNumber_hexOf (signed : Bool) {x : Nat} (h : x < 2 ^ 256) :
    decodeCallNumber signed (Text.hexOf 64 x) =
      if signed = true ∧ 2 ^ 255 ≤ x then '-' :: Text.decimal (2 ^ 256 - x)
      else Text.decimal x := by
  have htake := take_hexOf x
  have hvalue := Text.hexValue_dropWhile (Text.hexOf 64 x)
  rw [Text.hexValue_hexOf h] at hvalue
  unfold decodeCallNumber
  simp only [htake]
  by_cases hnil : (Text.hexOf 64 x).dropWhile (· == '0') = []
  · rw [hnil] at hvalue
    have hzero : x = 0 := hvalue.symm
    rw [if_pos hnil, hzero, if_neg fun h => absurd h.2 (by decide)]
    rfl
  · have hdigits : ∀ c ∈ (Text.hexOf 64 x).dropWhile (· == '0'), Text.IsHexDigit c :=
      fun c hc => Text.isHexDigit_of_mem_hexOf ((List.dropWhile_sublist _).mem hc)
    have hread : Text.parseInt 16 (2 ^ 256) _ = some _ :=
      Text.parseInt_hex hnil hdigits (by rwa [hvalue])
    rw [hvalue] at hread
    rw [if_neg hnil, hread, callWordNegative_hexOf h]
    by_cases hneg : signed = true ∧ 2 ^ 255 ≤ x
    · have hpos : 0 < x := lt_of_lt_of_le (by positivity) hneg.2
      have hwrap : (2 ^ 256 - x) % 2 ^ 256 = 2 ^ 256 - x := Nat.mod_eq_of_lt (by omega)
      rw [if_pos hneg, ← hwrap]
      exact if_pos ⟨hneg.1, decide_eq_true hneg.2⟩
    · rw [if_neg hneg]
      exact if_neg fun h => hneg ⟨h.1, of_decide_eq_true h.2⟩

/-! ### Values of value types -/

theorem integer_neg {n : Nat} (h : 0 < n) : Text.integer (-(n : Int)) = '-' :: Text.decimal n := by
  obtain ⟨m, rfl⟩ := Nat.exists_eq_succ_of_ne_zero h.ne'
  rfl

/-- The number a word stands for, with its sign. -/
theorem integer_toInt (w : BitVec 256) :
    Text.integer w.toInt =
      if 2 ^ 255 ≤ w.toNat then '-' :: Text.decimal (2 ^ 256 - w.toNat)
      else Text.decimal w.toNat := by
  have hlt := w.isLt
  have hpow : (2 : Nat) ^ 256 = 2 * 2 ^ 255 := by norm_num
  rw [BitVec.toInt_eq_toNat_cond]
  by_cases hneg : 2 ^ 255 ≤ w.toNat
  · have hsub : (w.toNat : Int) - ((2 ^ 256 : Nat) : Int) =
        -((2 ^ 256 - w.toNat : Nat) : Int) := by
      omega
    rw [if_neg (by omega), if_pos hneg, hsub, integer_neg (by omega)]
  · rw [if_pos (by omega), if_neg hneg]
    rfl

section Scalar

variable {s : Text} {x : Nat}

/-- The word of a number. -/
theorem decodeCallScalar_number (hbool : s ≠ "bool".toList) (haddress : s ≠ "address".toList)
    (hnumber : "uint".toList.isPrefixOf s = true ∨ "int".toList.isPrefixOf s = true)
    (hx : x < 2 ^ 256) : decodeCallScalar s (Text.hexOf 64 x) =
      if "int".toList.isPrefixOf s = true ∧ 2 ^ 255 ≤ x then '-' :: Text.decimal (2 ^ 256 - x)
      else Text.decimal x := by
  have hlen : 64 ≤ (Text.hexOf 64 x).length := by rw [Text.length_hexOf]
  unfold decodeCallScalar
  rw [if_neg hbool, if_neg fun h => haddress h.1, if_pos ⟨hnumber, hlen⟩,
    decodeCallNumber_hexOf _ hx]

/-- A word that is neither a number nor an address nor a truth value is shown as it is. -/
theorem decodeCallScalar_whole (hbool : s ≠ "bool".toList) (haddress : s ≠ "address".toList)
    (hnumber : ¬("uint".toList.isPrefixOf s = true ∨ "int".toList.isPrefixOf s = true)) :
    decodeCallScalar s (Text.hexOf 64 x) = "0x".toList ++ Text.hexOf 64 x := by
  unfold decodeCallScalar
  simp only [if_neg hbool, if_neg fun h => haddress (And.left h), if_neg fun h => hnumber (And.left h),
    take_hexOf, ite_self]

theorem decodeCallScalar_address :
    decodeCallScalar "address".toList (Text.hexOf 64 x) = "0x".toList ++ Text.hexOf 40 x := by
  have hlen : 64 ≤ (Text.hexOf 64 x).length := by rw [Text.length_hexOf]
  unfold decodeCallScalar
  rw [if_neg (by decide), if_pos ⟨rfl, hlen⟩, take_hexOf, lastChars_hexOf]

/-- A truth value: zeros, and a digit. -/
theorem decodeCallScalar_bool (hx : x < 2) :
    decodeCallScalar "bool".toList (Text.hexOf 64 x) =
      if x = 1 then "true".toList else "false".toList := by
  unfold decodeCallScalar
  rw [if_pos rfl, take_hexOf, Text.length_hexOf]
  interval_cases x <;> decide

end Scalar

/-- **A value of a value type is read from its word.** -/
theorem decodeCallScalar_text (v : ValueType) (x : v.Val) :
    decodeCallScalar v.text (Text.hexOf 64 (v.word x).toNat) = v.callRender x := by
  cases v with
  | uint n =>
    have hword : (ValueType.uint n).word x = x.setWidth 256 := rfl
    have hnat : (x.setWidth 256).toNat = x.toNat := by
      rw [BitVec.toNat_setWidth]
      refine Nat.mod_eq_of_lt (x.isLt.trans_le (Nat.pow_le_pow_right (by decide) ?_))
      change 8 * (n.val + 1) ≤ 256
      omega
    have hscalar := decodeCallScalar_number (s := (ValueType.uint n).text)
      (fun h => absurd (List.cons.inj h).1 (by decide))
      (fun h => absurd (List.cons.inj h).1 (by decide)) (.inl rfl) (x.setWidth 256).isLt
    rw [if_neg fun h => absurd h.1 Bool.false_ne_true, hnat] at hscalar
    rw [hword, hnat]
    exact hscalar
  | int n =>
    have hword : (ValueType.int n).word x = x.signExtend 256 := rfl
    have hint : (x.signExtend 256).toInt = x.toInt := by
      refine BitVec.toInt_signExtend_of_le ?_
      change 8 * (n.val + 1) ≤ 256
      omega
    have hscalar := decodeCallScalar_number (s := (ValueType.int n).text)
      (fun h => absurd (List.cons.inj h).1 (by decide))
      (fun h => absurd (List.cons.inj h).1 (by decide)) (.inr rfl) (x.signExtend 256).isLt
    rw [hword, ValueType.callRender, ← hint, integer_toInt]
    exact hscalar.trans (if_congr (and_iff_right rfl) rfl rfl)
  | ufixed n d =>
    exact decodeCallScalar_whole (fun h => absurd (List.cons.inj h).1 (by decide))
      (fun h => absurd (List.cons.inj h).1 (by decide))
      (not_or.2 ⟨Bool.false_ne_true, Bool.false_ne_true⟩)
  | fixed n d =>
    exact decodeCallScalar_whole (fun h => absurd (List.cons.inj h).1 (by decide))
      (fun h => absurd (List.cons.inj h).1 (by decide))
      (not_or.2 ⟨Bool.false_ne_true, Bool.false_ne_true⟩)
  | address =>
    rw [toNat_word_address x, ValueType.callRender]
    exact decodeCallScalar_address
  | bool =>
    have hx : x.toNat < 2 := x.isLt
    rw [toNat_word_bool x, ValueType.callRender]
    exact decodeCallScalar_bool hx
  | bytes n =>
    -- it begins as `bool` does
    refine decodeCallScalar_whole (fun h => ?_) (fun h => absurd (List.cons.inj h).1 (by decide))
      (not_or.2 ⟨Bool.false_ne_true, Bool.false_ne_true⟩)
    exact absurd (List.cons.inj (List.cons.inj h).2).1 (by decide)
  | function =>
    exact decodeCallScalar_whole (by decide) (by decide) (by decide)

/-! ### One step of each function -/

section Step

variable {s inner hex : Text} {word base : Nat}

theorem decodeCallAt_static (htrim : Text.trim s = s) (hdyn : isDynamicType s = false)
    (htuple : tupleInner s = none) : decodeCallAt s hex word base =
      (decodeCallStatic s hex word, satAdd word (staticWordCount s)) := by
  rw [decodeCallAt]
  simp only
  rw [htrim, if_neg (by rw [hdyn]; exact Bool.false_ne_true)]
  split
  · next h => cases htuple.symm.trans h
  · rfl

theorem decodeCallAt_tuple (htrim : Text.trim s = s) (hdyn : isDynamicType s = false)
    (htuple : tupleInner s = some inner) (hword : word ≤ u64Max / 64) :
    decodeCallAt s hex word base = decodeCallTuple inner hex word (word * 64) := by
  rw [decodeCallAt]
  simp only
  rw [htrim, if_neg (by rw [hdyn]; exact Bool.false_ne_true)]
  split
  · next h =>
    obtain rfl := Option.some.inj (htuple.symm.trans h)
    rw [if_neg (Nat.not_lt.2 hword)]
  · next h => cases htuple.symm.trans h

theorem decodeCallAt_dynamic {off : Nat} (htrim : Text.trim s = s) (hdyn : isDynamicType s = true)
    (hhex : hex.length ≤ u64Max) (hmark : Placed (AbiType.offsetWord off) (word * 64) hex)
    (hoff : 64 ∣ off) (hle : base + off ≤ hex.length) :
    decodeCallAt s hex word base = (decodeCallTail s hex (base + off), word + 1) := by
  have hcur := hmark.le_length
  have hmax : u64Max = 2 ^ 64 - 1 := rfl
  rw [AbiType.offsetWord, Text.length_hexOf] at hcur
  have hcall : callWord hex word = some (AbiType.offsetWord off) := by
    unfold callWord
    rw [if_neg (by omega), slice_placed hmark (AbiType.length_offsetWord off)]
  have hread : hexWordToU256 (AbiType.offsetWord off) = off / 2 :=
    Text.hexWordToU256_hexOf (by omega)
  have hhalf : off / 2 * 2 = off := by omega
  have hnext : satAdd word 1 = word + 1 := by
    unfold satAdd
    omega
  rw [decodeCallAt]
  simp only
  rw [htrim, if_pos hdyn, hcall]
  simp only [hread, hhalf, hnext]
  rw [if_neg (by omega), if_neg (by omega)]

/-- The loop over the members of a tuple, without what shows that it ends. -/
theorem decodeCallTuple_eq : decodeCallTuple inner hex word base =
    ((joinJsonArray (walkFields (fun field w => decodeCallAt field hex w base)
      (tupleFields inner) word).1),
      (walkFields (fun field w => decodeCallAt field hex w base) (tupleFields inner) word).2) := by
  have hwalk : ∀ (p : Text → Prop) (fields : List {field // p field}) (w : Nat),
      walkFields (fun (field : {field // p field}) w => decodeCallAt field.1 hex w base) fields w =
        walkFields (fun field w => decodeCallAt field hex w base) (fields.map (·.1)) w := by
    intro p fields
    induction fields with
    | nil => exact fun _ => rfl
    | cons field fields ih =>
      intro w
      rw [List.map_cons, walkFields, walkFields, ih]
  rw [decodeCallTuple, hwalk, List.attach_map_subtype_val]

end Step

end Decode

namespace AbiType

/-! ### Reading a value -/

theorem trim_text (t : AbiType) : Text.trim t.text = t.text := Text.trim_eq_self t.blank_notMem_text

/-- What a type takes among the heads, in words. -/
def headCount (t : AbiType) : Nat := if t.isDynamic = true then 1 else t.words

/-- **The values of a type are read wherever they are placed**: where there are no offsets, at
the cursor, which goes on behind them, and else where an offset leads to. -/
def CallReads (t : AbiType) : Prop :=
  ∀ (v : t.Val) {data : Text}, data.length ≤ u64Max →
    (t.isDynamic = false → ∀ word base, Placed (encode t v) (word * 64) data →
      decodeCallStatic t.text data word = callRender t v ∧
        decodeCallAt t.text data word base = (callRender t v, word + t.words)) ∧
      (t.isDynamic = true → ¬"0x".toList.isPrefixOf data = true → ∀ pos, 64 ∣ pos →
        Placed (encode t v) pos data → decodeCallTail t.text data pos = callRender t v)

section Walk

variable {data : Text} {base word : Nat} {ps : List (HeadTail.Part Char)}

/-- **A step of a walk along the heads.** -/
theorem CallReads.step {t : AbiType} (ht : t.CallReads) (hdata : data.length ≤ u64Max)
    (hbase : 64 ∣ base) (hbare : t.isDynamic = true → ¬"0x".toList.isPrefixOf data = true)
    {v : t.Val}
    (h : Laid 64 offsetWord data base (word * 64) (⟨t.isDynamic, encode t v⟩ :: ps)) :
    decodeCallAt t.text data word base = (callRender t v, word + t.headCount) ∧
      Laid 64 offsetWord data base ((word + t.headCount) * 64) ps := by
  rw [headCount]
  cases h with
  | static hp hcode hrest =>
    change t.isDynamic = false at hp
    change Laid 64 offsetWord data base (word * 64 + (encode t v).length) ps at hrest
    have hnext : word * 64 + (encode t v).length = (word + t.words) * 64 := by
      rw [length_encode t hp v]
      ring
    rw [hnext] at hrest
    rw [hp, if_neg Bool.false_ne_true]
    exact ⟨((ht v hdata).1 hp word base hcode).2, hrest⟩
  | @dynamic _ off _ _ hp hmark hoff hcode hrest =>
    change t.isDynamic = true at hp
    have hle := hcode.le_length
    have hnext : word * 64 + 64 = (word + 1) * 64 := by ring
    rw [hnext] at hrest
    rw [hp, if_pos rfl, decodeCallAt_dynamic t.trim_text ((isDynamicType_text t).trans hp) hdata hmark
      hoff (by omega), (ht v hdata).2 hp (hbare hp) _ (hbase.add hoff) hcode]
    exact ⟨rfl, hrest⟩

/-- **The members of a tuple.** -/
theorem walkFields_parts {ts : List AbiType} (hts : ∀ t ∈ ts, t.CallReads)
    (hdata : data.length ≤ u64Max) (hbase : 64 ∣ base)
    (hbare : anyDynamic ts = true → ¬"0x".toList.isPrefixOf data = true) (vs : Vals ts)
    (h : Laid 64 offsetWord data base (word * 64) (parts ts vs)) :
    walkFields (fun field w => decodeCallAt field data w base) (ts.map text) word =
      (callRenderList ts vs, word + (ts.map headCount).sum) := by
  induction ts generalizing word with
  | nil => rw [callRenderList_nil]; rfl
  | cons t ts ih =>
    rw [parts] at h
    have hfirst : t.isDynamic = true → ¬"0x".toList.isPrefixOf data = true :=
      fun ht => hbare (by rw [anyDynamic, ht, Bool.true_or])
    have hothers : anyDynamic ts = true → ¬"0x".toList.isPrefixOf data = true :=
      fun ht => hbare (by rw [anyDynamic, ht, Bool.or_true])
    obtain ⟨hread, hrest⟩ := (hts t List.mem_cons_self).step hdata hbase hfirst h
    have hmembers := ih (fun t ht => hts t (List.mem_cons_of_mem _ ht)) hothers vs.2 hrest
    rw [callRenderList_cons, List.map_cons, walkFields]
    simp only [hread, hmembers, List.map_cons, List.sum_cons, Nat.add_assoc]

/-- **The body of a tuple.** -/
theorem decodeCallTuple_placed {ts : List AbiType} (hts : ∀ t ∈ ts, t.CallReads)
    (hdata : data.length ≤ u64Max)
    (hbare : anyDynamic ts = true → ¬"0x".toList.isPrefixOf data = true) (vs : Vals ts)
    (h : Placed (sequence (parts ts vs)) (word * 64) data) :
    decodeCallTuple (textList ts) data word (word * 64) =
      (joinJsonArray (callRenderList ts vs), word + (ts.map headCount).sum) := by
  have hparts := dvd_length_parts (fun t _ => dvd_length_encode t) vs
  have hlaid := laid_layout length_offsetWord hparts h
  rw [decodeCallTuple_eq, tupleFields_textList,
    walkFields_parts hts hdata (Nat.dvd_mul_left 64 word) hbare vs hlaid]

/-- **The elements of an array that have no offsets.** -/
theorem decodeCallElems_placed {t : AbiType} (ht : t.CallReads) (hstatic : t.isDynamic = false)
    (hdata : data.length ≤ u64Max) {vs : List t.Val} (hcount : vs.length ≤ maxArrayLen)
    (h : Placed (sequence (vs.map fun v => ⟨t.isDynamic, encode t v⟩)) (word * 64) data) :
    decodeCallElems t.text vs.length data word = joinJsonArray (vs.map (callRender t)) := by
  have helement (v : t.Val) (word : Nat) (hv : Placed (encode t v) (word * 64) data) :
      decodeCallStatic t.text data word = callRender t v :=
    ((ht v hdata).1 hstatic word 0 hv).1
  rw [decodeCallElems, if_neg (Nat.not_lt.2 hcount)]
  exact congrArg joinJsonArray (map_iterate_laid hstatic hdata helement vs (laid_elements h))

/-- **The elements of an array that have offsets.** -/
theorem decodeCallOffsetArray_placed {t : AbiType} (ht : t.CallReads) (hdyn : t.isDynamic = true)
    (hdata : data.length ≤ u64Max) (hbase : 64 ∣ base)
    (hbare : ¬"0x".toList.isPrefixOf data = true) {vs : List t.Val}
    (hcount : vs.length ≤ maxArrayLen)
    (h : Placed (sequence (vs.map fun v => ⟨t.isDynamic, encode t v⟩)) base data) :
    decodeCallOffsetArray t.text vs.length data base = joinJsonArray (vs.map (callRender t)) := by
  have hlaid := laid_elements h
  have hfirst : base = base + 0 * 64 := by omega
  nth_rewrite 2 [hfirst] at hlaid
  have hhead (i : Nat) (hi : base + i * 64 ≤ u64Max) :
      satAdd base (min (i * 64) u64Max) = base + i * 64 := by
    unfold satAdd
    omega
  have helement (v : t.Val) (pos : Nat) (hpos : 64 ∣ pos) (hv : Placed (encode t v) pos data) :
      decodeCallTail t.text data pos = callRender t v :=
    (ht v hdata).2 hdyn hbare pos hpos hv
  rw [decodeCallOffsetArray, if_neg (Nat.not_lt.2 hcount), List.range_eq_range',
    map_range_laid hdyn hdata hbase hhead helement vs hlaid]

end Walk

/-! ### Every type -/

/-- Of a type that is no tuple the cursor goes on by its words. -/
theorem decodeCallAt_words {t : AbiType} {data : Text} {word base : Nat}
    (hstatic : t.isDynamic = false) (htuple : tupleInner t.text = none)
    (hsize : word + t.words ≤ u64Max) :
    decodeCallAt t.text data word base =
      (decodeCallStatic t.text data word, word + t.words) := by
  have hsum : satAdd word t.words = word + t.words := by
    unfold satAdd
    omega
  rw [decodeCallAt_static t.trim_text ((isDynamicType_text t).trans hstatic) htuple,
    staticWordCount_text t hstatic (by omega), hsum]

theorem sum_headCount {ts : List AbiType} (h : ∀ t ∈ ts, t.isDynamic = false) :
    (ts.map headCount).sum = wordsList ts := by
  induction ts with
  | nil => rfl
  | cons t ts ih =>
    have ht := h t List.mem_cons_self
    rw [List.map_cons, List.sum_cons, ih fun t ht => h t (List.mem_cons_of_mem _ ht), headCount, ht,
      if_neg Bool.false_ne_true, wordsList]

/-- The words of a value that is placed are in the data. -/
theorem words_le_of_placed {t : AbiType} {v : t.Val} {data : Text} {word : Nat}
    (hstatic : t.isDynamic = false) (hdata : data.length ≤ u64Max)
    (h : Placed (encode t v) (word * 64) data) : word + t.words ≤ u64Max / 64 := by
  have hmax : u64Max = 2 ^ 64 - 1 := rfl
  have hle := h.le_length
  rw [length_encode t hstatic v] at hle
  omega

/-- A value of a value type. -/
theorem callReads_value (v : ValueType) : (value v).CallReads := by
  intro x data hdata
  refine ⟨fun hstatic word base h => ?_, fun hdyn => absurd hdyn (by rw [isDynamic]; decide)⟩
  have hmax : u64Max = 2 ^ 64 - 1 := rfl
  have hplain := plain_of_isAlphanum v.isAlphanum_text
  have hsize := words_le_of_placed hstatic hdata h
  have hread : decodeCallStatic (value v).text data word = callRender (value v) x := by
    rw [encode] at h
    have hle := h.le_length
    rw [Text.length_hexOf] at hle
    have hcall : callWord data word = some (Text.hexOf 64 (v.word x).toNat) := by
      unfold callWord
      rw [if_neg (by omega), slice_placed h (Text.length_hexOf 64 _)]
    rw [text, callRender_value, decodeCallStatic]
    split
    · next harr => cases hplain.1.symm.trans harr
    · split
      · next htuple => cases hplain.2.symm.trans htuple
      · rw [hcall]
        exact decodeCallScalar_text v x
  refine ⟨hread, ?_⟩
  rw [decodeCallAt_words hstatic (by rw [text]; exact hplain.2) (by omega), hread]

/-- An array of a fixed length. -/
theorem CallReads.array {t : AbiType} (ht : t.CallReads) (count : Fin (maxArrayLen + 1)) :
    (array t count).CallReads := by
  intro vs data hdata
  have hmax : u64Max = 2 ^ 64 - 1 := rfl
  have hcount : vs.1.length = count := vs.2
  have hle : vs.1.length ≤ maxArrayLen := hcount.trans_le (Nat.lt_succ_iff.1 count.isLt)
  constructor
  · intro hstatic word base h
    have hsize := words_le_of_placed hstatic hdata h
    have hread : decodeCallStatic (AbiType.array t count).text data word =
        callRender (AbiType.array t count) vs := by
      rw [isDynamic] at hstatic
      rw [encode] at h
      have helems := decodeCallElems_placed ht hstatic hdata hle h
      rw [hcount] at helems
      rw [callRender_array, decodeCallStatic]
      split
      · next arr harr =>
        obtain rfl := Option.some.inj ((parseArray_array t count).symm.trans harr)
        exact (if_neg (by omega)).trans helems
      · next harr => cases (parseArray_array t count).symm.trans harr
    refine ⟨hread, ?_⟩
    rw [decodeCallAt_words hstatic (tupleInner_array t count) (by omega), hread]
  · intro hdyn hbare pos hpos h
    rw [isDynamic] at hdyn
    rw [encode] at h
    have helems := decodeCallOffsetArray_placed ht hdyn hdata hpos hbare hle h
    have hbytes := not_isBytes_of_getLast? (getLast?_array t count) (by decide) (by decide)
    rw [hcount] at helems
    rw [callRender_array, decodeCallTail, if_neg hbytes]
    split
    · next htuple => cases (tupleInner_array t count).symm.trans htuple
    · split
      · next harr => cases (parseArray_array t count).symm.trans harr
      · next arr harr =>
        obtain rfl := Option.some.inj ((parseArray_array t count).symm.trans harr)
        exact (if_pos ((isDynamicType_text t).trans hdyn)).trans helems

/-- An array of any length. -/
theorem CallReads.slice {t : AbiType} (ht : t.CallReads) : (slice t).CallReads := by
  intro vs data hdata
  have hmax : u64Max = 2 ^ 64 - 1 := rfl
  have hle : vs.1.length ≤ maxArrayLen := vs.2
  have hlt : vs.1.length < 2 ^ 256 := hle.trans_lt (by decide)
  refine ⟨fun hstatic => absurd hstatic (by rw [isDynamic]; decide), fun _ hbare pos hpos h => ?_⟩
  rw [encode] at h
  have hbody := h.right
  have hlen := h.left.le_length
  rw [Text.length_hexOf] at hbody hlen
  have hread : hexWordToU256 (Decode.slice data pos 64) = vs.1.length := by
    rw [slice_placed h.left (Text.length_hexOf 64 _)]
    exact Text.hexWordToU256_hexOf hlt
  have hbytes := not_isBytes_of_getLast? (getLast?_slice t) (by decide) (by decide)
  rw [callRender_slice, decodeCallTail, if_neg hbytes]
  split
  · next htuple => cases (tupleInner_slice t).symm.trans htuple
  · split
    · next harr => cases (parseArray_slice t).symm.trans harr
    · next arr harr =>
      obtain rfl := Option.some.inj ((parseArray_slice t).symm.trans harr)
      simp only
      rw [if_neg (by omega), hread, if_neg (Nat.not_lt.2 hle), isDynamicType_text]
      cases hdyn : t.isDynamic with
      | true =>
        rw [if_pos rfl]
        exact decodeCallOffsetArray_placed ht hdyn hdata (hpos.add dvd_rfl) hbare hle hbody
      | false =>
        have hword : (pos + 64) / 64 * 64 = pos + 64 := Nat.div_mul_cancel (hpos.add dvd_rfl)
        rw [if_neg Bool.false_ne_true, if_neg (by omega)]
        rw [← hword] at hbody
        exact decodeCallElems_placed ht hdyn hdata hle hbody

/-- A tuple. -/
theorem callReads_tuple {ts : List AbiType} (hts : ∀ t ∈ ts, t.CallReads) :
    (tuple ts).CallReads := by
  intro vs data hdata
  constructor
  · intro hstatic word base h
    have hsize := words_le_of_placed hstatic hdata h
    have hmembers : anyDynamic ts = false := by rwa [isDynamic] at hstatic
    rw [encode] at h
    have hbody := decodeCallTuple_placed hts hdata
      (fun hdyn => absurd (hmembers.symm.trans hdyn) Bool.false_ne_true) vs h
    rw [sum_headCount (anyDynamic_eq_false hmembers)] at hbody
    rw [callRender_tuple, words]
    refine ⟨?_, ?_⟩
    · rw [decodeCallStatic]
      split
      · next harr => cases (parseArray_tuple ts).symm.trans harr
      · split
        · next inner htuple =>
          obtain rfl := Option.some.inj ((tupleInner_tuple ts).symm.trans htuple)
          rw [if_neg (by omega), hbody]
        · next htuple => cases (tupleInner_tuple ts).symm.trans htuple
    · rw [decodeCallAt_tuple (tuple ts).trim_text ((isDynamicType_text _).trans hstatic)
        (tupleInner_tuple ts) (by omega), hbody]
  · intro hdyn hbare pos hpos h
    rw [encode] at h
    have hword : pos / 64 * 64 = pos := Nat.div_mul_cancel hpos
    rw [← hword] at h
    have hbody := decodeCallTuple_placed hts hdata (fun _ => hbare) vs h
    have hlast : (tuple ts).text.getLast? = some ')' := by
      rw [text, ← List.cons_append, List.getLast?_concat]
    rw [callRender_tuple, decodeCallTail,
      if_neg (not_isBytes_of_getLast? hlast (by decide) (by decide))]
    split
    · next inner htuple =>
      obtain rfl := Option.some.inj ((tupleInner_tuple ts).symm.trans htuple)
      rw [hword] at hbody
      rw [if_neg (by omega), hbody]
    · next htuple => cases (tupleInner_tuple ts).symm.trans htuple

/-- **Every type is read.** -/
theorem callReads (t : AbiType) : t.CallReads := by
  induction t using induct with
  | value v => exact callReads_value v
  | string =>
    intro s data hdata
    refine ⟨fun hstatic => absurd hstatic (by rw [isDynamic]; decide), fun _ hbare pos _ h => ?_⟩
    rw [encode] at h
    rw [text, callRender_string, decodeCallTail, if_pos (.inl rfl),
      decodeDynamicValue_placed hdata hbare h]
  | bytes =>
    intro s data hdata
    refine ⟨fun hstatic => absurd hstatic (by rw [isDynamic]; decide), fun _ hbare pos _ h => ?_⟩
    rw [encode] at h
    rw [text, callRender_bytes, decodeCallTail, if_pos (.inr rfl),
      decodeDynamicValue_placed hdata hbare h]
  | array t count ih => exact ih.array count
  | slice t ih => exact ih.slice
  | tuple ts ih => exact callReads_tuple ih

end AbiType

namespace Decode

/-! ### What a function returns -/

/-- **The standard encoding of what a function returns.** -/
def returned (ts : List AbiType) (vs : AbiType.Vals ts) : Text :=
  "0x".toList ++ AbiType.sequence (AbiType.parts ts vs)

section Returned

variable {ts : List AbiType} {vs : AbiType.Vals ts}

theorem strip_returned : stripHexPrefix (returned ts vs) =
    AbiType.sequence (AbiType.parts ts vs) := by
  unfold stripHexPrefix
  rw [if_pos (.inl (List.isPrefixOf_iff_prefix.2 (List.prefix_append _ _)))]
  rfl

/-- No encoding begins as one with `0x` in front of it. -/
theorem bare_returned :
    ¬"0x".toList.isPrefixOf (AbiType.sequence (AbiType.parts ts vs)) = true := by
  have hx : 'x' ∉ AbiType.sequence (AbiType.parts ts vs) := by
    rw [← AbiType.encode_tuple ts vs]
    exact AbiType.x_notMem_encode (.tuple ts) vs
  intro hprefix
  obtain ⟨tail, htail⟩ := List.isPrefixOf_iff_prefix.1 hprefix
  rw [← htail] at hx
  exact hx (List.mem_append_left _ (List.mem_cons_of_mem _ List.mem_cons_self))

theorem length_stripped_le (hsize : (returned ts vs).length ≤ u64Max) :
    (AbiType.sequence (AbiType.parts ts vs)).length ≤ u64Max := by
  rw [returned, List.length_append] at hsize
  omega

theorem placed_returned :
    Placed (AbiType.sequence (AbiType.parts ts vs)) (0 * 64)
      (AbiType.sequence (AbiType.parts ts vs)) :=
  ⟨[], [], rfl, (List.append_nil _).symm⟩

/-- **Several outputs.** -/
theorem decodeCallResult_returned (hsize : (returned ts vs).length ≤ u64Max) :
    decodeCallResult (AbiType.tuple ts).text (returned ts vs) =
      joinJsonArray (AbiType.callRenderList ts vs) := by
  have hbody := AbiType.decodeCallTuple_placed (fun t _ => t.callReads) (length_stripped_le hsize)
    (fun _ => bare_returned) vs placed_returned
  unfold decodeCallResult
  rw [strip_returned, AbiType.tupleInner_tuple]
  exact congrArg Prod.fst hbody

end Returned

section Single

variable {t : AbiType} {vs : AbiType.Vals [t]}

/-- A single output is read at the beginning, as the only member of a tuple. -/
theorem decodeCallAt_returned (hsize : (returned [t] vs).length ≤ u64Max) :
    (decodeCallAt t.text (stripHexPrefix (returned [t] vs)) 0 0).1 = t.callRender vs.1 := by
  have hparts : ∀ p ∈ AbiType.parts [t] vs, 64 ∣ p.code.length :=
    AbiType.dvd_length_parts (fun t _ => t.dvd_length_encode) vs
  have hlaid := laid_layout AbiType.length_offsetWord hparts placed_returned
  rw [AbiType.parts] at hlaid
  have hstep := (t.callReads.step (length_stripped_le hsize) (Nat.dvd_mul_left 64 0)
    (fun _ => bare_returned) hlaid).1
  rw [Nat.zero_mul] at hstep
  rw [strip_returned, hstep]

/-- What has no offset is where it would be without anything around it. -/
theorem strip_returned_static (hstatic : t.isDynamic = false) :
    stripHexPrefix (returned [t] vs) = t.encode vs.1 := by
  have hparts : AbiType.parts [t] vs = [⟨false, t.encode vs.1⟩] := by
    rw [AbiType.parts, AbiType.parts, hstatic]
  rw [strip_returned, hparts]
  exact (List.append_nil _).trans (List.append_nil _)

/-- **One output.** -/
theorem decodeSingleOutput_returned (hsize : (returned [t] vs).length ≤ u64Max) :
    decodeSingleOutput t.text (returned [t] vs) = t.callRender vs.1 := by
  have hat := decodeCallAt_returned hsize
  have hdynamic := t.isDynamicType_text
  unfold decodeSingleOutput
  cases hdyn : t.isDynamic with
  | true => rw [if_pos (hdynamic.trans hdyn), hat]
  | false =>
    rw [hdyn] at hdynamic
    rw [if_neg (by rw [hdynamic]; exact Bool.false_ne_true)]
    unfold decodeCallResult
    cases t with
    | value v =>
      have hplain := AbiType.plain_of_isAlphanum v.isAlphanum_text
      have hstructured : callTypeIsStructured v.text = false := by
        have hdynamic : isDynamicType v.text = false := hdynamic
        rw [callTypeIsStructured, hplain.1, hplain.2, hdynamic]
        rfl
      rw [strip_returned_static hdyn, AbiType.text, hplain.2, AbiType.encode,
        AbiType.callRender_value]
      exact (if_neg (by rw [hstructured]; exact Bool.false_ne_true)).trans
        (decodeCallScalar_text v vs.1)
    | string => cases hdyn
    | bytes => cases hdyn
    | slice t => cases hdyn
    | array t count =>
      have hstructured : callTypeIsStructured (AbiType.array t count).text = true := by
        rw [callTypeIsStructured, AbiType.parseArray_array, Option.isSome_some, Bool.or_true,
          Bool.true_or]
      rw [AbiType.tupleInner_array]
      exact (if_pos hstructured).trans hat
    | tuple ts =>
      rw [decodeCallAt_tuple (AbiType.trim_text _) hdynamic (AbiType.tupleInner_tuple ts)
        (Nat.zero_le _)] at hat
      rw [AbiType.tupleInner_tuple]
      exact hat

end Single

/-- **The answer to a call is read back**, of a function with one output and of one with
several. -/
theorem decodeOutputs_encode :
    (∀ (t : AbiType) (vs : AbiType.Vals [t]), (returned [t] vs).length ≤ u64Max →
      decodeSingleOutput t.text (returned [t] vs) = t.callRender vs.1) ∧
    ∀ (ts : List AbiType) (vs : AbiType.Vals ts), (returned ts vs).length ≤ u64Max →
      decodeCallResult (AbiType.tuple ts).text (returned ts vs) =
        joinJsonArray (AbiType.callRenderList ts vs) :=
  ⟨fun _ _ => decodeSingleOutput_returned, fun _ _ => decodeCallResult_returned⟩

/-- A number with a sign, and a string, -/
def orderTypes : List AbiType := [.value (.int (Fin.last 31)), .string]

def orderValues : AbiType.Vals orderTypes := (BitVec.allOnes 256, ⟨[Fin.last 255]⟩, ())

/-- and both as one output. -/
def orderType : AbiType := .tuple orderTypes

def orderValue : orderType.Val := orderValues

def orderOutput : AbiType.Vals [orderType] := (orderValue, ())

theorem decodeOutputs_encode_order :
    decodeSingleOutput orderType.text (returned [orderType] orderOutput) =
        orderType.callRender orderOutput.1 ∧
      decodeCallResult (AbiType.tuple orderTypes).text (returned orderTypes orderValues) =
        joinJsonArray (AbiType.callRenderList orderTypes orderValues) := by
  have hone : (returned [orderType] orderOutput).length ≤ u64Max := by decide +kernel
  have htwo : (returned orderTypes orderValues).length ≤ u64Max := by decide +kernel
  exact ⟨decodeOutputs_encode.1 orderType orderOutput hone,
    decodeOutputs_encode.2 orderTypes orderValues htwo⟩

example : joinJsonArray (AbiType.callRenderList orderTypes orderValues) =
    "[\"-1\",\"0xff\"]".toList := by decide +kernel

end Decode

end Zponder

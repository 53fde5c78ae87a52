import Zponder.AbiText

/-!
# Decoding is the inverse of encoding

`decodeLog`, on the standard encoding of some values, answers with the rendering of each
(`Zponder.Decode.decodeLog_encode`).

The induction is over the type. What is said of a type is that its values are read wherever
their encoding is placed in the data, at a whole word (`Zponder.AbiType.Reads`): of a value
with an offset by where the offset leads to, of any other by the word the cursor is at. An
array or a tuple lays its parts out in a sequence, and the loops of the decoder are walks
along its heads, as `HeadTail.Laid` says what they find.

Of a tuple the decoder reads no more members than of an array elements. So a tuple of more
is not decoded in full, and the result is about types whose tuples are narrow enough.
-/

namespace Zponder

open Decode HeadTail

/-! ### Words -/

namespace Text

theorem hexDigit_digitChar {d : Nat} (h : d < 16) : hexDigit (Nat.digitChar d) = d := by
  interval_cases d <;> rfl

/-- The digits of a number, read on from another. -/
theorem foldl_hexOf (n x acc : Nat) :
    (hexOf n x).foldl (fun result c => result * 16 + hexDigit c) acc =
      acc * 16 ^ n + x % 16 ^ n := by
  induction n generalizing x with
  | zero =>
    rw [hexOf, List.foldl_nil]
    omega
  | succ n ih =>
    have hpow : 16 ^ (n + 1) = 16 * 16 ^ n := Nat.pow_succ'
    rw [hexOf, List.foldl_append, ih, List.foldl_cons, List.foldl_nil,
      hexDigit_digitChar (Nat.mod_lt x (by decide)), hpow, Nat.mod_mul]
    ring

/-- **A word is read back.** -/
theorem hexWordToU256_hexOf {x : Nat} (h : x < 2 ^ 256) : hexWordToU256 (hexOf 64 x) = x := by
  have hpow : (16 : Nat) ^ 64 = 2 ^ 256 := by norm_num
  unfold hexWordToU256
  rw [length_hexOf, if_neg (lt_irrefl _), List.take_of_length_le (by rw [length_hexOf]),
    foldl_hexOf, hpow, Nat.mod_eq_of_lt h, Nat.zero_mul, Nat.zero_add]

theorem x_notMem_hexOf (n x : Nat) : 'x' ∉ hexOf n x := by
  induction n generalizing x with
  | zero => exact List.not_mem_nil
  | succ n ih =>
    rw [hexOf, List.mem_append, List.mem_singleton, not_or]
    refine ⟨ih _, fun h => ?_⟩
    have hd : x % 16 < 16 := Nat.mod_lt x (by decide)
    generalize x % 16 = d at h hd
    interval_cases d <;> exact absurd h (by decide)

/-- What has no `x` in its first two characters does not begin with `0x`. -/
theorem not_isPrefixOf_of_notMem {s rest : Text} (h : 'x' ∉ s) (hlen : 2 ≤ s.length) :
    ¬"0x".toList.isPrefixOf (s ++ rest) = true := by
  intro hprefix
  obtain ⟨tail, htail⟩ := List.isPrefixOf_iff_prefix.1 hprefix
  match s, hlen with
  | a :: b :: s, _ =>
    have hb : 'x' = b := (List.cons.inj (List.cons.inj htail).2).1
    exact h (hb ▸ List.mem_cons_of_mem a List.mem_cons_self)

theorem not_isPrefixOf_hexOf (x : Nat) : ¬"0x".toList.isPrefixOf (hexOf 64 x) = true := by
  have h := @not_isPrefixOf_of_notMem (hexOf 64 x) [] (x_notMem_hexOf 64 x)
    (by rw [length_hexOf]; decide)
  rwa [List.append_nil] at h

end Text

namespace Decode

/-- What is read where something is placed. -/
theorem slice_placed {s data : Text} {pos n : Nat} (h : Placed s pos data) (hn : s.length = n) :
    slice data pos n = s := by
  rw [slice, ← hn]
  exact h.take_drop

theorem lastChars_length (s : Text) : lastChars s.length s = s := by
  rw [lastChars, Nat.sub_self]
  rfl

/-- A word that is not of an address and not a truth value is shown as it is. -/
theorem decodeStaticValue_word {abiType : Text} (haddress : abiType ≠ "address".toList)
    (hbool : abiType ≠ "bool".toList) (x : Nat) :
    decodeStaticValue abiType (Text.hexOf 64 x) = "0x".toList ++ Text.hexOf 64 x := by
  have hlen := Text.length_hexOf 64 x
  have hlast : lastChars 64 (Text.hexOf 64 x) = Text.hexOf 64 x := by
    have h := lastChars_length (Text.hexOf 64 x)
    rwa [hlen] at h
  unfold decodeStaticValue
  simp only [if_neg haddress, if_neg hbool, if_neg (Text.not_isPrefixOf_hexOf x), hlen, hlast,
    le_refl, ite_self]

/-- The last twenty bytes of a word. -/
theorem lastChars_hexOf (x : Nat) : lastChars 40 (Text.hexOf 64 x) = Text.hexOf 40 x := by
  have hsplit : Text.hexOf 64 x = Text.hexOf 24 (x / 16 ^ 40) ++ Text.hexOf 40 x :=
    Text.hexOf_add 24 40 x
  rw [lastChars, Text.length_hexOf, hsplit]
  exact List.drop_left' (Text.length_hexOf 24 _)

/-- Of the word of an address they are shown. -/
theorem decodeStaticValue_address (x : Nat) :
    decodeStaticValue "address".toList (Text.hexOf 64 x) = "0x".toList ++ Text.hexOf 40 x := by
  unfold decodeStaticValue
  rw [if_pos rfl, Text.length_hexOf, if_pos (by decide), lastChars_hexOf]

theorem decodeStaticValue_bool {x : Nat} (hx : x < 2) :
    decodeStaticValue "bool".toList (Text.hexOf 64 x) =
      if x = 1 then "true".toList else "false".toList := by
  have hread : hexWordToU256 (Text.hexOf 64 x) = x :=
    Text.hexWordToU256_hexOf (hx.trans (by decide))
  unfold decodeStaticValue
  rw [if_neg (by decide), if_pos rfl, hread]
  by_cases hone : x = 1
  · rw [if_pos hone, if_pos (by omega)]
  · rw [if_neg hone, if_neg (by omega)]

theorem toNat_word_address (x : BitVec 160) : (ValueType.address.word x).toNat = x.toNat := by
  have hword : ValueType.address.word x = x.setWidth 256 := rfl
  rw [hword, BitVec.toNat_setWidth]
  exact Nat.mod_eq_of_lt (x.isLt.trans (by decide))

theorem toNat_word_bool (x : BitVec 1) : (ValueType.bool.word x).toNat = x.toNat := by
  have hword : ValueType.bool.word x = x.setWidth 256 := rfl
  rw [hword, BitVec.toNat_setWidth]
  exact Nat.mod_eq_of_lt (x.isLt.trans (by decide))

/-- **A value of a value type is read from its word.** -/
theorem decodeStaticValue_text (v : ValueType) (x : v.Val) :
    decodeStaticValue v.text (Text.hexOf 64 (v.word x).toNat) = v.render x := by
  cases v with
  | address =>
    rw [toNat_word_address x, ValueType.render]
    exact decodeStaticValue_address _
  | bool =>
    have hx : x.toNat < 2 := x.isLt
    rw [toNat_word_bool x, ValueType.render]
    exact decodeStaticValue_bool hx
  | uint n =>
    exact decodeStaticValue_word (fun h => absurd (List.cons.inj h).1 (by decide))
      (fun h => absurd (List.cons.inj h).1 (by decide)) _
  | int n =>
    exact decodeStaticValue_word (fun h => absurd (List.cons.inj h).1 (by decide))
      (fun h => absurd (List.cons.inj h).1 (by decide)) _
  | ufixed n d =>
    exact decodeStaticValue_word (fun h => absurd (List.cons.inj h).1 (by decide))
      (fun h => absurd (List.cons.inj h).1 (by decide)) _
  | fixed n d =>
    exact decodeStaticValue_word (fun h => absurd (List.cons.inj h).1 (by decide))
      (fun h => absurd (List.cons.inj h).1 (by decide)) _
  | bytes n =>
    -- it begins as `bool` does
    refine decodeStaticValue_word (fun h => absurd (List.cons.inj h).1 (by decide)) (fun h => ?_) _
    exact absurd (List.cons.inj (List.cons.inj h).2).1 (by decide)
  | function =>
    exact decodeStaticValue_word (by decide) (by decide) _

/-- **An offset leads to what it marks.** -/
theorem followOffset_placed {data : Text} {base cur off : Nat} (hdata : data.length ≤ u64Max)
    (hmark : Placed (AbiType.offsetWord off) cur data) (hoff : 64 ∣ off)
    (hle : base + off ≤ data.length) : followOffset data base cur = some (base + off) := by
  have hcur := hmark.le_length
  have hmax : u64Max = 2 ^ 64 - 1 := rfl
  rw [AbiType.offsetWord, Text.length_hexOf] at hcur
  have hread : hexWordToU256 (slice data cur 64) = off / 2 := by
    rw [slice_placed hmark (Text.length_hexOf 64 _), AbiType.offsetWord]
    exact Text.hexWordToU256_hexOf (by omega)
  have hhalf : off / 2 * 2 = off := by omega
  unfold followOffset
  simp only [hread, hhalf]
  rw [if_neg (by omega), if_neg (by omega), if_neg (by omega)]

end Decode

namespace AbiType

/-! ### Lengths -/

theorem length_offsetWord (n : Nat) : (offsetWord n).length = 64 := Text.length_hexOf 64 _

theorem length_padded (bs : List (Fin 256)) : 64 ∣ (padded bs).length := by
  unfold padded
  rw [List.length_append, List.length_replicate]
  omega

theorem dvd_length_map {t : AbiType} (h : ∀ v : t.Val, 64 ∣ (encode t v).length)
    (vs : List t.Val) :
    64 ∣ (sequence (vs.map fun v => ⟨t.isDynamic, encode t v⟩)).length := by
  refine dvd_length_layout length_offsetWord fun p hp => ?_
  obtain ⟨v, -, rfl⟩ := List.mem_map.1 hp
  exact h v

theorem dvd_length_parts {ts : List AbiType}
    (h : ∀ t ∈ ts, ∀ v : t.Val, 64 ∣ (encode t v).length) (vs : Vals ts) :
    ∀ p ∈ parts ts vs, 64 ∣ p.code.length := by
  induction ts with
  | nil =>
    rw [parts]
    simp
  | cons t ts ih =>
    rw [parts]
    refine List.forall_mem_cons.2 ⟨h t List.mem_cons_self vs.1, ?_⟩
    exact ih (fun t ht => h t (List.mem_cons_of_mem _ ht)) vs.2

/-- **Every encoding is of whole words.** -/
theorem dvd_length_encode (t : AbiType) : ∀ v : t.Val, 64 ∣ (encode t v).length := by
  induction t using induct with
  | value v =>
    intro x
    rw [encode, Text.length_hexOf]
  | string =>
    intro s
    rw [encode, List.length_append, Text.length_hexOf]
    exact dvd_rfl.add (length_padded _)
  | bytes =>
    intro s
    rw [encode, List.length_append, Text.length_hexOf]
    exact dvd_rfl.add (length_padded _)
  | array t count ih =>
    intro vs
    rw [encode]
    exact dvd_length_map ih vs.1
  | slice t ih =>
    intro vs
    rw [encode, List.length_append, Text.length_hexOf]
    exact dvd_rfl.add (dvd_length_map ih vs.1)
  | tuple ts ih =>
    intro vs
    rw [encode]
    exact dvd_length_layout length_offsetWord (dvd_length_parts ih vs)

theorem length_layout_static {ps : List (HeadTail.Part Char)} (h : ∀ p ∈ ps, p.dynamic = false) :
    (sequence ps).length = (ps.map fun p => p.code.length).sum := by
  rw [sequence, length_layout length_offsetWord]
  congr 1
  refine List.map_congr_left fun p hp => ?_
  rw [Part.headLength, h p hp]
  rfl

/-- **Of a type without an offset every value takes the words of the type.** -/
theorem length_encode (t : AbiType) (hstatic : t.isDynamic = false) :
    ∀ v : t.Val, (encode t v).length = 64 * t.words := by
  induction t using induct with
  | value v =>
    intro x
    rw [encode, Text.length_hexOf, words]
    · simp
    · simp
  | string => exact absurd hstatic (by rw [isDynamic]; decide)
  | bytes => exact absurd hstatic (by rw [isDynamic]; decide)
  | array t count ih =>
    intro vs
    rw [isDynamic] at hstatic
    have hparts : ∀ p ∈ vs.1.map fun v => (⟨t.isDynamic, encode t v⟩ : HeadTail.Part Char),
        p.dynamic = false := by
      intro p hp
      obtain ⟨v, -, rfl⟩ := List.mem_map.1 hp
      exact hstatic
    have hsum : ∀ vs : List t.Val, (vs.map fun v => (encode t v).length).sum =
        64 * (vs.length * t.words) := by
      intro vs
      induction vs with
      | nil => rw [List.length_nil, Nat.zero_mul]; rfl
      | cons v vs ihvs =>
        have hmul : (vs.length + 1) * t.words = vs.length * t.words + t.words :=
          Nat.add_one_mul _ _
        rw [List.map_cons, List.sum_cons, ihvs, ih hstatic v, List.length_cons, hmul]
        omega
    have hcount : vs.1.length = count := vs.2
    rw [encode, length_layout_static hparts, List.map_map, words]
    exact (hsum vs.1).trans (by rw [hcount])
  | slice t ih => exact absurd hstatic (by rw [isDynamic]; decide)
  | tuple ts ih =>
    intro vs
    rw [isDynamic] at hstatic
    rw [encode, words]
    have hmembers := anyDynamic_eq_false hstatic
    have hparts : ∀ {ts : List AbiType} (vs : Vals ts), (∀ t ∈ ts, t.isDynamic = false) →
        (∀ t ∈ ts, t.isDynamic = false → ∀ v : t.Val, (encode t v).length = 64 * t.words) →
        (∀ p ∈ parts ts vs, p.dynamic = false) ∧
          ((parts ts vs).map fun p => p.code.length).sum = 64 * wordsList ts := by
      intro ts
      induction ts with
      | nil =>
        intro vs _ _
        rw [parts, wordsList]
        exact ⟨by simp, rfl⟩
      | cons t ts ihts =>
        intro vs hstatic hlen
        obtain ⟨hall, hsum⟩ := ihts vs.2 (fun t ht => hstatic t (List.mem_cons_of_mem _ ht))
          fun t ht => hlen t (List.mem_cons_of_mem _ ht)
        have ht := hstatic t List.mem_cons_self
        rw [parts, wordsList]
        refine ⟨List.forall_mem_cons.2 ⟨ht, hall⟩, ?_⟩
        rw [List.map_cons, List.sum_cons, hsum, hlen t List.mem_cons_self ht, Nat.mul_add]
    obtain ⟨hall, hsum⟩ := hparts vs hmembers ih
    rw [length_layout_static hall, hsum]

/-! ### Reading a value -/

/-- **The values of a type are read wherever they are placed.** Where there are offsets, the
data may not begin with `0x`, which reading bytes would take off it. -/
def Reads (t : AbiType) : Prop :=
  ∀ (v : t.Val) {data : Text} {pos : Nat}, data.length ≤ u64Max → 64 ∣ pos →
    Placed (encode t v) pos data →
    (t.isDynamic = false → decodeStaticType t.text data (pos / 64) = render t v) ∧
      (t.isDynamic = true → ¬"0x".toList.isPrefixOf data = true →
        decodeDynamicPayload t.text data pos = render t v)

/-- What a loop of the decoder answers for a type, with the cursor at a word. -/
def readHead (s hexData : Text) (base word : Nat) : Text :=
  if isDynamicType s = true then
    (followOffset hexData base (min (word * 64) u64Max)).elim empty fun offset =>
      decodeDynamicPayload s hexData offset
  else decodeStaticType s hexData word

/-- By how many words it goes on. -/
def headWords (s : Text) : Nat := if isDynamicType s = true then 1 else staticWordCount s

section Walk

variable {data : Text} {base : Nat} {ps : List (HeadTail.Part Char)}

/-- **A step of a walk along the heads**: the value is read, and the cursor is at the next
head. -/
theorem Reads.step {t : AbiType} (ht : t.Reads) (hdata : data.length ≤ u64Max)
    (hbase : 64 ∣ base) (hbare : t.isDynamic = true → ¬"0x".toList.isPrefixOf data = true)
    {v : t.Val} {word : Nat}
    (h : Laid 64 offsetWord data base (word * 64) (⟨t.isDynamic, encode t v⟩ :: ps)) :
    word * 64 ≤ u64Max ∧ readHead t.text data base word = render t v ∧
      Laid 64 offsetWord data base (satAdd word (headWords t.text) * 64) ps := by
  have hmax : u64Max = 2 ^ 64 - 1 := rfl
  rw [readHead, headWords, isDynamicType_text]
  cases h with
  | static hp hcode hrest =>
    change t.isDynamic = false at hp
    have hle := hcode.le_length
    change Laid 64 offsetWord data base (word * 64 + (encode t v).length) ps at hrest
    change word * 64 + (encode t v).length ≤ data.length at hle
    have hlen := length_encode t hp v
    have hwords : staticWordCount t.text = t.words :=
      staticWordCount_text t hp (by omega)
    have hread := (ht v hdata (Nat.dvd_mul_left 64 word) hcode).1 hp
    rw [Nat.mul_div_cancel _ (by decide : 0 < 64)] at hread
    have hnext : satAdd word t.words * 64 = word * 64 + (encode t v).length := by
      unfold satAdd
      omega
    rw [hp, if_neg Bool.false_ne_true, if_neg Bool.false_ne_true, hwords, hnext]
    exact ⟨by omega, hread, hrest⟩
  | @dynamic _ off _ _ hp hmark hoff hcode hrest =>
    change t.isDynamic = true at hp
    have hword := hmark.le_length
    rw [length_offsetWord] at hword
    have hle := hcode.le_length
    have hfollow : followOffset data base (word * 64) = some (base + off) :=
      followOffset_placed hdata hmark hoff (by omega)
    have hread := (ht v hdata (hbase.add hoff) hcode).2 hp (hbare hp)
    have hnext : satAdd word 1 * 64 = word * 64 + 64 := by
      unfold satAdd
      omega
    rw [hp, if_pos rfl, if_pos rfl, min_eq_left (by omega), hfollow, hnext]
    exact ⟨by omega, hread, hrest⟩

/-- **The heads of a tuple.** -/
theorem readHeads_parts {ts : List AbiType} (hts : ∀ t ∈ ts, t.Reads)
    (hdata : data.length ≤ u64Max) (hbase : 64 ∣ base)
    (hbare : anyDynamic ts = true → ¬"0x".toList.isPrefixOf data = true) (vs : Vals ts)
    {word : Nat} (h : Laid 64 offsetWord data base (word * 64) (parts ts vs)) :
    ((fieldCursors word (ts.map text)).map fun p => readHead p.1 data base p.2) =
      renderList ts vs := by
  induction ts generalizing word with
  | nil => rw [renderList]; rfl
  | cons t ts ih =>
    rw [parts] at h
    have hfirst : t.isDynamic = true → ¬"0x".toList.isPrefixOf data = true :=
      fun ht => hbare (by rw [anyDynamic, ht, Bool.true_or])
    have hothers : anyDynamic ts = true → ¬"0x".toList.isPrefixOf data = true :=
      fun ht => hbare (by rw [anyDynamic, ht, Bool.or_true])
    obtain ⟨-, hread, hrest⟩ := (hts t List.mem_cons_self).step hdata hbase hfirst h
    have hmembers := ih (fun t ht => hts t (List.mem_cons_of_mem _ ht)) hothers vs.2 hrest
    rw [renderList, List.map_cons, fieldCursors, List.map_cons]
    exact congrArg₂ List.cons hread hmembers

/-- **The heads of an array whose elements have offsets**: whatever is done at the places they
lead to is done to the values. -/
theorem map_range_laid {t : AbiType} (hdyn : t.isDynamic = true) (hdata : data.length ≤ u64Max)
    (hbase : 64 ∣ base) {headAt : Nat → Nat}
    (hhead : ∀ i, base + i * 64 ≤ u64Max → headAt i = base + i * 64) {f : Nat → Text}
    {g : t.Val → Text} (hf : ∀ v pos, 64 ∣ pos → Placed (encode t v) pos data → f pos = g v)
    (vs : List t.Val) {i : Nat}
    (h : Laid 64 offsetWord data base (base + i * 64)
      (vs.map fun v => ⟨t.isDynamic, encode t v⟩)) :
    ((List.range' i vs.length).map fun i =>
      (followOffset data base (headAt i)).elim empty f) = vs.map g := by
  induction vs generalizing i with
  | nil => rfl
  | cons v vs ih =>
    rw [List.length_cons, List.range'_succ, List.map_cons, List.map_cons]
    cases h with
    | static hp => cases hp.symm.trans hdyn
    | @dynamic _ off _ _ hp hmark hoff hcode hrest =>
      have hword := hmark.le_length
      rw [length_offsetWord] at hword
      have hle := hcode.le_length
      have hfollow : followOffset data base (headAt i) = some (base + off) := by
        rw [hhead i (by omega)]
        exact followOffset_placed hdata hmark hoff (by omega)
      have hread := hf v (base + off) (hbase.add hoff) hcode
      have hnext : base + i * 64 + 64 = base + (i + 1) * 64 := by omega
      rw [hnext] at hrest
      rw [hfollow]
      exact congrArg₂ List.cons hread (ih hrest)

/-- **The heads of an array whose elements have none.** -/
theorem map_iterate_laid {t : AbiType} (hstatic : t.isDynamic = false)
    (hdata : data.length ≤ u64Max) {f : Nat → Text} {g : t.Val → Text}
    (hf : ∀ v word, Placed (encode t v) (word * 64) data → f word = g v) (vs : List t.Val)
    {word : Nat}
    (h : Laid 64 offsetWord data base (word * 64) (vs.map fun v => ⟨t.isDynamic, encode t v⟩)) :
    ((List.iterate (satAdd · (staticWordCount t.text)) word vs.length).map f) = vs.map g := by
  have hmax : u64Max = 2 ^ 64 - 1 := rfl
  induction vs generalizing word with
  | nil => rfl
  | cons v vs ih =>
    rw [List.length_cons, List.iterate, List.map_cons, List.map_cons]
    cases h with
    | static hp hcode hrest =>
      have hle := hcode.le_length
      change Laid 64 offsetWord data base (word * 64 + (encode t v).length) _ at hrest
      change word * 64 + (encode t v).length ≤ data.length at hle
      have hlen := length_encode t hstatic v
      have hwords : staticWordCount t.text = t.words := staticWordCount_text t hstatic (by omega)
      have hnext : word * 64 + (encode t v).length =
          satAdd word (staticWordCount t.text) * 64 := by
        rw [hwords]
        unfold satAdd
        omega
      rw [hnext] at hrest
      exact congrArg₂ List.cons (hf v word hcode) (ih hrest)
    | dynamic hp => cases hstatic.symm.trans hp

end Walk

theorem length_hexBytes (bs : List (Fin 256)) : (hexBytes bs).length = bs.length * 2 := by
  induction bs with
  | nil => rfl
  | cons b bs ih =>
    have hcons : hexBytes (b :: bs) = Text.hexOf 2 b.val ++ hexBytes bs := List.flatMap_cons
    rw [hcons, List.length_append, Text.length_hexOf, ih, List.length_cons]
    omega

/-- Bytes are read behind their length. -/
theorem decodeDynamicValue_placed {data : Text} {pos : Nat} (hdata : data.length ≤ u64Max)
    (hbare : ¬"0x".toList.isPrefixOf data = true) {bs : List (Fin 256)}
    (h : Placed (Text.hexOf 64 bs.length ++ padded bs) pos data) :
    decodeDynamicValue data pos = "0x".toList ++ hexBytes bs := by
  have hmax : u64Max = 2 ^ 64 - 1 := rfl
  have hbody := h.right
  rw [Text.length_hexOf, padded] at hbody
  have hread := slice_placed hbody.left (length_hexBytes bs)
  have hplace := hbody.left.le_length
  rw [length_hexBytes] at hplace
  have hcount : hexWordToU256 (Decode.slice data pos 64) = bs.length := by
    rw [slice_placed h.left (Text.length_hexOf 64 _)]
    exact Text.hexWordToU256_hexOf (by omega)
  unfold decodeDynamicValue
  simp only [if_neg hbare, hcount]
  rw [if_neg (by omega), if_neg (by omega), if_neg (by omega), hread]

/-- A walk along the elements of an array. -/
theorem laid_elements {t : AbiType} {data : Text} {base : Nat} {vs : List t.Val}
    (h : Placed (sequence (vs.map fun v => ⟨t.isDynamic, encode t v⟩)) base data) :
    Laid 64 offsetWord data base base (vs.map fun v => ⟨t.isDynamic, encode t v⟩) := by
  refine laid_layout length_offsetWord (fun p hp => ?_) h
  obtain ⟨v, -, rfl⟩ := List.mem_map.1 hp
  exact dvd_length_encode t v

/-- **The body of an array.** -/
theorem decodeArray_placed {t : AbiType} (ht : t.Reads) {data : Text} {base : Nat}
    (hdata : data.length ≤ u64Max) (hbase : 64 ∣ base)
    (hbare : t.isDynamic = true → ¬"0x".toList.isPrefixOf data = true) {vs : List t.Val}
    (hcount : vs.length ≤ maxArrayLen)
    (h : Placed (sequence (vs.map fun v => ⟨t.isDynamic, encode t v⟩)) base data) :
    decodeArray t.text vs.length data base t.isDynamic = joinJsonArray (vs.map (render t)) := by
  have hlaid := laid_elements h
  rw [decodeArray, if_neg (Nat.not_lt.2 hcount)]
  cases hdyn : t.isDynamic with
  | true =>
    have hhead (i : Nat) (hi : base + i * 64 ≤ u64Max) : satAdd base (i * 64) = base + i * 64 := by
      unfold satAdd
      omega
    have hfirst : base = base + 0 * 64 := by omega
    nth_rewrite 2 [hfirst] at hlaid
    have hheads := map_range_laid hdyn hdata hbase hhead
      (fun v pos hpos hv => (ht v hdata hpos hv).2 hdyn (hbare hdyn)) vs hlaid
    rw [if_pos rfl, List.range_eq_range', hheads]
  | false =>
    have hword : base / 64 * 64 = base := Nat.div_mul_cancel hbase
    nth_rewrite 2 [← hword] at hlaid
    have helement (v : t.Val) (word : Nat) (hv : Placed (encode t v) (word * 64) data) :
        decodeStaticType t.text data word = render t v := by
      have hread := (ht v hdata (Nat.dvd_mul_left 64 word) hv).1 hdyn
      rwa [Nat.mul_div_cancel _ (by decide : 0 < 64)] at hread
    have hheads := map_iterate_laid hdyn hdata helement vs hlaid
    rw [if_neg Bool.false_ne_true, if_neg (by omega)]
    exact congrArg joinJsonArray hheads

/-- The loop over the members of a tuple, without what shows that it ends. -/
theorem decodeLogTuple_eq (inner hexData : Text) {base : Nat} (hbase : base % 64 = 0) :
    decodeLogTuple inner hexData base =
      joinJsonArray ((fieldCursors (base / 64) ((tupleFields inner).take maxArrayLen)).map fun p =>
        readHead p.1 hexData base p.2) := by
  rw [decodeLogTuple, if_neg (by omega)]
  simp only
  rw [List.map_subtype (g := fun p : Text × Nat => readHead p.1 hexData base p.2) fun _ _ => rfl,
    List.unattach_attach]

theorem fieldCursors_take (n cursor : Nat) (fields : List Text) :
    fieldCursors cursor (fields.take n) = (fieldCursors cursor fields).take n := by
  induction fields generalizing n cursor with
  | nil => rw [List.take_nil, fieldCursors, List.take_nil]
  | cons field fields ih =>
    cases n with
    | zero => rfl
    | succ n => exact congrArg (List.cons _) (ih n _)

/-- **The body of a tuple**: of more members than an array may have elements, the first are
read. -/
theorem decodeLogTuple_placed {ts : List AbiType} (hts : ∀ t ∈ ts, t.Reads) {data : Text}
    {base : Nat} (hdata : data.length ≤ u64Max) (hbase : 64 ∣ base)
    (hbare : anyDynamic ts = true → ¬"0x".toList.isPrefixOf data = true) (vs : Vals ts)
    (h : Placed (sequence (parts ts vs)) base data) :
    decodeLogTuple (textList ts) data base =
      joinJsonArray ((renderList ts vs).take maxArrayLen) := by
  have hparts := dvd_length_parts (fun t _ => dvd_length_encode t) vs
  have hlaid := laid_layout length_offsetWord hparts h
  have hword : base / 64 * 64 = base := Nat.div_mul_cancel hbase
  nth_rewrite 2 [← hword] at hlaid
  rw [decodeLogTuple_eq _ _ (Nat.mod_eq_zero_of_dvd hbase), tupleFields_textList,
    fieldCursors_take, List.map_take, readHeads_parts hts hdata hbase hbare vs hlaid]

/-! ### Every type -/

mutual

/-- No tuple in the type has more members than an array may have elements. -/
def Narrow : AbiType → Prop
  | array t _ => t.Narrow
  | slice t => t.Narrow
  | tuple ts => ts.length ≤ maxArrayLen ∧ NarrowList ts
  | _ => True

def NarrowList : List AbiType → Prop
  | [] => True
  | t :: ts => t.Narrow ∧ NarrowList ts

end

theorem NarrowList.forall {ts : List AbiType} (h : NarrowList ts) : ∀ t ∈ ts, t.Narrow := by
  induction ts with
  | nil => simp
  | cons t ts ih =>
    rw [NarrowList] at h
    exact List.forall_mem_cons.2 ⟨h.1, ih h.2⟩

theorem length_renderList (ts : List AbiType) (vs : Vals ts) :
    (renderList ts vs).length = ts.length := by
  induction ts with
  | nil => rw [renderList]; rfl
  | cons t ts ih => rw [renderList, List.length_cons, ih, List.length_cons]

/-- A value of a value type. -/
theorem reads_value (v : ValueType) : (value v).Reads := by
  intro x data pos hdata hpos h
  have hmax : u64Max = 2 ^ 64 - 1 := rfl
  have hplain := plain_of_isAlphanum v.isAlphanum_text
  refine ⟨fun _ => ?_, fun hdyn => absurd hdyn (by rw [isDynamic]; decide)⟩
  rw [encode] at h
  have hle := h.le_length
  rw [Text.length_hexOf] at hle
  have hword : pos / 64 * 64 = pos := Nat.div_mul_cancel hpos
  rw [text, render, decodeStaticType]
  split
  · next harr => cases hplain.1.symm.trans harr
  · split
    · next htuple => cases hplain.2.symm.trans htuple
    · rw [if_neg (by omega), hword, slice_placed h (Text.length_hexOf 64 _)]
      exact decodeStaticValue_text v x

/-- An array of a fixed length. -/
theorem Reads.array {t : AbiType} (ht : t.Reads) (count : Fin (maxArrayLen + 1)) :
    (array t count).Reads := by
  intro vs data pos hdata hpos h
  have hmax : u64Max = 2 ^ 64 - 1 := rfl
  have hcount : vs.1.length = count := vs.2
  have hle : vs.1.length ≤ maxArrayLen := hcount.trans_le (Nat.lt_succ_iff.1 count.isLt)
  rw [encode] at h
  have hlen := h.le_length
  rw [isDynamic, render]
  constructor
  · intro hstatic
    have hbody := decodeArray_placed ht hdata hpos (fun hdyn => by cases hstatic.symm.trans hdyn) hle h
    have hword : pos / 64 * 64 = pos := Nat.div_mul_cancel hpos
    rw [hstatic, hcount] at hbody
    rw [decodeStaticType]
    split
    · next arr harr =>
      obtain rfl := Option.some.inj ((parseArray_array t count).symm.trans harr)
      rw [hword]
      exact (if_neg (by omega)).trans hbody
    · next harr => cases (parseArray_array t count).symm.trans harr
  · intro hdyn hbare
    have hbody := decodeArray_placed ht hdata hpos (fun _ => hbare) hle h
    have hbytes := not_isBytes_of_getLast? (getLast?_array t count) (by decide) (by decide)
    rw [hcount] at hbody
    rw [decodeDynamicPayload, if_neg hbytes]
    split
    · next htuple => cases (tupleInner_array t count).symm.trans htuple
    · split
      · next harr => cases (parseArray_array t count).symm.trans harr
      · next arr harr =>
        obtain rfl := Option.some.inj ((parseArray_array t count).symm.trans harr)
        rw [isDynamicType_text]
        exact hbody

/-- An array of any length. -/
theorem Reads.slice {t : AbiType} (ht : t.Reads) : (slice t).Reads := by
  intro vs data pos hdata hpos h
  have hmax : u64Max = 2 ^ 64 - 1 := rfl
  have hle : vs.1.length ≤ maxArrayLen := vs.2
  have hlt : vs.1.length < 2 ^ 256 := hle.trans_lt (by decide)
  rw [encode] at h
  have hbody := h.right
  have hlen := h.left.le_length
  rw [Text.length_hexOf] at hbody hlen
  have hread : hexWordToU256 (Decode.slice data pos 64) = vs.1.length := by
    rw [slice_placed h.left (Text.length_hexOf 64 _)]
    exact Text.hexWordToU256_hexOf hlt
  rw [isDynamic, render]
  refine ⟨by simp, fun _ hbare => ?_⟩
  have harray := decodeArray_placed ht hdata (hpos.add dvd_rfl) (fun _ => hbare) hle hbody
  have hbytes := not_isBytes_of_getLast? (getLast?_slice t) (by decide) (by decide)
  rw [decodeDynamicPayload, if_neg hbytes]
  split
  · next htuple => cases (tupleInner_slice t).symm.trans htuple
  · split
    · next harr => cases (parseArray_slice t).symm.trans harr
    · next arr harr =>
      obtain rfl := Option.some.inj ((parseArray_slice t).symm.trans harr)
      simp only
      rw [if_neg (by omega), hread, if_neg (Nat.not_lt.2 hle), isDynamicType_text]
      exact harray

/-- A tuple that has no offset is read where the cursor is. -/
theorem decodeStaticType_tuple (ts : List AbiType) (data : Text) {word : Nat}
    (hword : word ≤ u64Max / 64) :
    decodeStaticType (tuple ts).text data word = decodeLogTuple (textList ts) data (word * 64) := by
  rw [decodeStaticType]
  split
  · next harr => cases (parseArray_tuple ts).symm.trans harr
  · split
    · next inner htuple =>
      obtain rfl := Option.some.inj ((tupleInner_tuple ts).symm.trans htuple)
      rw [if_neg (by omega)]
    · next htuple => cases (tupleInner_tuple ts).symm.trans htuple

/-- A tuple. -/
theorem reads_tuple {ts : List AbiType} (hts : ∀ t ∈ ts, t.Reads) (hlen : ts.length ≤ maxArrayLen) :
    (tuple ts).Reads := by
  intro vs data pos hdata hpos h
  have hmax : u64Max = 2 ^ 64 - 1 := rfl
  rw [encode] at h
  have hle := h.le_length
  have hall : (renderList ts vs).take maxArrayLen = renderList ts vs :=
    List.take_of_length_le ((length_renderList ts vs).trans_le hlen)
  rw [isDynamic, render]
  constructor
  · intro hstatic
    have hbody := decodeLogTuple_placed hts hdata hpos
      (fun hdyn => by cases hstatic.symm.trans hdyn) vs h
    have hword : pos / 64 * 64 = pos := Nat.div_mul_cancel hpos
    rw [hall] at hbody
    rw [decodeStaticType_tuple ts data (by omega), hword, hbody]
  · intro hdyn hbare
    have hbody := decodeLogTuple_placed hts hdata hpos (fun _ => hbare) vs h
    have hlast : (tuple ts).text.getLast? = some ')' := by
      rw [text, ← List.cons_append, List.getLast?_concat]
    rw [hall] at hbody
    rw [decodeDynamicPayload, if_neg (not_isBytes_of_getLast? hlast (by decide) (by decide))]
    split
    · next inner htuple =>
      obtain rfl := Option.some.inj ((tupleInner_tuple ts).symm.trans htuple)
      exact hbody
    · next htuple => cases (tupleInner_tuple ts).symm.trans htuple

/-- **Every type is read**, if its tuples are narrow. -/
theorem reads (t : AbiType) (hnarrow : t.Narrow) : t.Reads := by
  induction t using induct with
  | value v => exact reads_value v
  | string =>
    intro s data pos hdata _ h
    rw [encode] at h
    rw [isDynamic, render]
    refine ⟨by simp, fun _ hbare => ?_⟩
    rw [text, decodeDynamicPayload, if_pos (.inl rfl), decodeDynamicValue_placed hdata hbare h]
  | bytes =>
    intro s data pos hdata _ h
    rw [encode] at h
    rw [isDynamic, render]
    refine ⟨by simp, fun _ hbare => ?_⟩
    rw [text, decodeDynamicPayload, if_pos (.inr rfl), decodeDynamicValue_placed hdata hbare h]
  | array t count ih =>
    rw [Narrow] at hnarrow
    exact (ih hnarrow).array count
  | slice t ih =>
    rw [Narrow] at hnarrow
    exact (ih hnarrow).slice
  | tuple ts ih =>
    rw [Narrow] at hnarrow
    exact reads_tuple (fun t ht => ih t ht (hnarrow.2.forall t ht)) hnarrow.1

end AbiType

end Zponder

import Zponder.DecodeSound
import Zponder.Lib.Checked

/-!
# Decoding a log, with its checks

`decodeLog` once more, as a build with safety checks runs it: every sum, product and difference of
a `usize`, every `@intCast`, every slice and every `@memcpy` is one that may end the program
(`Checked`). What a contract emits cannot make it do so, since every number that is read is
looked at before it is used (`Zponder.Decode.Safe.total`). What can is an event: its inputs of a
type that has no room in a topic, and its inputs behind a type of too many words
(`Zponder.Decode.Safe.decodes_iff`).
-/

namespace Zponder

namespace Decode

namespace Safe

open Checked

/-! ### Values -/

/-- Memory that was not written yet. -/
def fresh (n : Nat) : Text := List.replicate n (Char.ofNat 0xaa)

/-- A buffer of a size, with a prefix written to its front and the rest filled by a copy. -/
def prefixed (pre src : Text) (size : Nat) : Option Text := do
  let buf ← copy (fresh size) 0 pre.length pre
  copy buf pre.length buf.length src

/-- `pos <= maxInt - n and pos + n <= len` -/
def fits (pos n len : Nat) : Option Bool := do
  let top ← sub u64Max n
  if pos > top then some false
  else
    let behind ← add u64Max pos n
    some (behind ≤ len)

/-- `hexWordToU256` -/
def hexWordToU256 (hexWord : Text) : Option Nat :=
  if hexWord.length < 64 then some 0
  else do
    let digits ← Checked.slice hexWord 0 64
    digits.foldlM (fun result c => do
      let shifted ← mul (2 ^ 256 - 1) result 16
      add (2 ^ 256 - 1) shifted (hexDigit c)) 0

/-- The last characters of a word, behind `0x`. -/
def last (n : Nat) (hexWord : Text) : Option Text := do
  let start ← sub hexWord.length n
  let word ← Checked.slice hexWord start hexWord.length
  prefixed "0x".toList word (2 + n)

/-- The end of `decodeStaticValue`: the word as it is. -/
def whole (hexWord : Text) : Option Text :=
  if "0x".toList.isPrefixOf hexWord then some hexWord
  else do
    let size ← add u64Max 2 hexWord.length
    prefixed "0x".toList hexWord size

/-- `decodeStaticValue` -/
def decodeStaticValue (abiType hexWord : Text) : Option Text :=
  if abiType = "address".toList then
    if 40 ≤ hexWord.length then last 40 hexWord else whole hexWord
  else if abiType = "bool".toList then do
    let val ← hexWordToU256 hexWord
    some (if val ≠ 0 then "true".toList else "false".toList)
  else if "uint".toList.isPrefixOf abiType ∨ "int".toList.isPrefixOf abiType ∨
      "bytes".toList.isPrefixOf abiType then
    if 64 ≤ hexWord.length then last 64 hexWord else whole hexWord
  else whole hexWord

/-- `decodeDynamicValue` -/
def decodeDynamicValue (data : Text) (offsetHex : Nat) : Option Text := do
  let hexStart := if "0x".toList.isPrefixOf data then 2 else 0
  let hexData ← Checked.slice data hexStart data.length
  if (← fits offsetHex 64 hexData.length) = true then
    let dataStart ← add u64Max offsetHex 64
    let lenWord ← Checked.slice hexData offsetHex dataStart
    let lenU256 ← hexWordToU256 lenWord
    if lenU256 > u64Max then some empty
    else
      let len ← intCast u64Max lenU256
      if len > u64Max / 2 then some empty
      else
        let hexLen ← mul u64Max len 2
        if (← fits dataStart hexLen hexData.length) = true then
          let behind ← add u64Max dataStart hexLen
          let resultHex ← Checked.slice hexData dataStart behind
          let size ← add u64Max 2 resultHex.length
          prefixed "0x".toList resultHex size
        else some empty
  else some empty

/-- Where the word at `wordAt` sends to, from `base` on. -/
def followOffset (hexData : Text) (base wordAt : Nat) : Option (Option Nat) := do
  if (← fits wordAt 64 hexData.length) = true then
    let behind ← add u64Max wordAt 64
    let word ← Checked.slice hexData wordAt behind
    let off ← hexWordToU256 word
    if off > u64Max / 2 then some none
    else
      let bytes ← intCast u64Max off
      let rel ← mul u64Max bytes 2
      let top ← sub u64Max rel
      if base > top then some none
      else
        let offset ← add u64Max base rel
        some (some offset)
  else some none

/-! ### Arrays and tuples -/

mutual

/-- `decodeStaticType` -/
def decodeStaticType (abiType hexData : Text) (wordIndex : Nat) : Option Text :=
  match _h : parseArray abiType with
  | some arr =>
    match arr.fixed with
    | none => some empty
    | some n =>
      if n > maxArrayLen ∨ wordIndex > u64Max / 64 then some empty
      else (mul u64Max wordIndex 64).bind fun start => decodeArray arr.inner n hexData start false
  | none =>
    match _h' : tupleInner abiType with
    | some inner =>
      if wordIndex > u64Max / 64 then some empty
      else (mul u64Max wordIndex 64).bind fun start => decodeLogTuple inner hexData start
    | none =>
      if wordIndex > u64Max / 64 then some "0x0".toList
      else (mul u64Max wordIndex 64).bind fun start =>
        if start ≥ hexData.length then some "0x0".toList
        else (add u64Max start 64).bind fun behind =>
          let upTo := if behind ≤ hexData.length then behind else hexData.length
          (Checked.slice hexData start upTo).bind fun word => decodeStaticValue abiType word
termination_by (abiType.length, 0)
decreasing_by
  · exact .left _ _ (length_inner_of_parseArray _h)
  · exact .left _ _ (length_tupleInner _h')

/-- `decodeArray` -/
def decodeArray (inner : Text) (count : Nat) (hexData : Text) (startHex : Nat)
    (headsAreOffsets : Bool) : Option Text :=
  if count > maxArrayLen then some empty
  else if headsAreOffsets = true then
    Option.map joinJsonArray <| (List.range count).mapM fun i =>
      (followOffset hexData startHex (satAdd startHex (i * 64))).bind fun offset =>
        offset.elim (some empty) fun offset => decodeDynamicPayload inner hexData offset
  else if startHex % 64 ≠ 0 then some empty
  else
    let words := staticWordCount inner
    Option.map joinJsonArray <| (List.iterate (satAdd · words) (startHex / 64) count).mapM
      fun wordIndex => decodeStaticType inner hexData wordIndex
termination_by (inner.length, 1)
decreasing_by
  · exact .right _ Nat.one_pos
  · exact .right _ Nat.one_pos

/-- `decodeDynamicPayload` -/
def decodeDynamicPayload (abiType hexData : Text) (offsetHex : Nat) : Option Text :=
  if abiType = "string".toList ∨ abiType = "bytes".toList then
    decodeDynamicValue hexData offsetHex
  else
    match _h' : tupleInner abiType with
    | some inner => decodeLogTuple inner hexData offsetHex
    | none =>
      match _h : parseArray abiType with
      | none => some empty
      | some arr =>
        match arr.fixed with
        | some n => decodeArray arr.inner n hexData offsetHex (isDynamicType arr.inner)
        | none => (fits offsetHex 64 hexData.length).bind fun fit =>
          if fit = true then
            (add u64Max offsetHex 64).bind fun body =>
              (Checked.slice hexData offsetHex body).bind fun word =>
                (hexWordToU256 word).bind fun len =>
                  if len > maxArrayLen then some empty
                  else (intCast u64Max len).bind fun n =>
                    decodeArray arr.inner n hexData body (isDynamicType arr.inner)
          else some empty
termination_by (abiType.length, 0)
decreasing_by
  · exact .left _ _ (length_tupleInner _h')
  · exact .left _ _ (length_inner_of_parseArray _h)
  · exact .left _ _ (length_inner_of_parseArray _h)

/-- `decodeLogTuple` -/
def decodeLogTuple (inner hexData : Text) (baseHex : Nat) : Option Text :=
  if baseHex % 64 ≠ 0 then some empty
  else
    let fields := fieldCursors (baseHex / 64) ((tupleFields inner).take maxArrayLen)
    Option.map joinJsonArray <| fields.attach.mapM fun ⟨(field, cursor), _⟩ =>
      if isDynamicType field = true then
        (followOffset hexData baseHex (min (cursor * 64) u64Max)).bind fun offset =>
          offset.elim (some empty) fun offset => decodeDynamicPayload field hexData offset
      else decodeStaticType field hexData cursor
termination_by (inner.length, 1)
decreasing_by
  all_goals
    have hmem : field ∈ tupleFields inner :=
      List.mem_of_mem_take (mem_of_mem_fieldCursors (by assumption))
    rcases (length_le_of_mem_tupleFields hmem).lt_or_eq with h | h
    · exact .left _ _ h
    · rw [h]
      exact .right _ Nat.one_pos

end

/-! ### The fields of an event -/

/-- The field of an indexed input. The buffer for a hash is three characters longer than its
prefix and the topic. -/
def decodeTopic (input : EventInput) (topic : Text) : Option DecodedField :=
  if indexedAsHash input.type = true then do
    let size ← add u64Max topic.length 10
    let value ← prefixed "hash:0x".toList topic size
    some ⟨input.name, value⟩
  else do
    let topicHex ← Checked.slice topic (if "0x".toList.isPrefixOf topic then 2 else 0) topic.length
    let start ← if 64 ≤ topicHex.length then sub topicHex.length 64 else some 0
    let word ← Checked.slice topicHex start topicHex.length
    let value ← decodeStaticValue input.type word
    some ⟨input.name, value⟩

/-- The field of an input that is in the data. Where its head is, is computed before anything is
compared. -/
def decodeData (input : EventInput) (hexData : Text) (dataWordIdx : Nat) : Option DecodedField := do
  let wordStart ← mul u64Max dataWordIdx 64
  if isDynamicType input.type = true then
    let offset ← followOffset hexData 0 wordStart
    let value ← offset.elim (some empty) fun offset =>
      decodeDynamicPayload input.type hexData offset
    some ⟨input.name, value⟩
  else
    let value ← decodeStaticType input.type hexData dataWordIdx
    some ⟨input.name, value⟩

/-- The word behind an input. Only what a type has is added with care. -/
def nextWordIdx (input : EventInput) (dataWordIdx : Nat) : Option Nat :=
  if isDynamicType input.type = true then add u64Max dataWordIdx 1
  else some (satAdd dataWordIdx (staticWordCount input.type))

/-- The loop of `decodeLog`, with the topics that are left. -/
def decodeInputs (hexData : Text) :
    List Text → Nat → List EventInput → Option (List DecodedField)
  | _, _, [] => some []
  | topics, dataWordIdx, input :: inputs =>
    if input.indexed = true then
      match topics with
      | [] => decodeInputs hexData [] dataWordIdx inputs
      | topic :: topics => do
        let field ← decodeTopic input topic
        let fields ← decodeInputs hexData topics dataWordIdx inputs
        some (field :: fields)
    else do
      let field ← decodeData input hexData dataWordIdx
      let next ← nextWordIdx input dataWordIdx
      let fields ← decodeInputs hexData topics next inputs
      some (field :: fields)

/-- `decodeLog` -/
def decodeLog (event : Event) (topics : List Text) (data : Text) : Option DecodedLog := do
  let hexData ← Checked.slice data (if "0x".toList.isPrefixOf data then 2 else 0) data.length
  let fields ← decodeInputs hexData (topics.drop 1) 0 event.inputs
  some ⟨event.name, fields⟩

/-! ### No value ends the program -/

section Values

variable {pre src w data hexData : Text} {pos n len size base wordAt : Nat}

theorem prefixed_eq (hsize : size = pre.length + src.length) :
    prefixed pre src size = some (pre ++ src) := by
  have hfresh : (fresh size).length = size := List.length_replicate
  have hcopied : pre.length ≤ (pre ++ (fresh size).drop pre.length).length := by
    rw [List.length_append]
    exact Nat.le_add_right _ _
  have hlen : (pre ++ (fresh size).drop pre.length).length = size := by
    rw [List.length_append, List.length_drop, hfresh]
    omega
  rw [prefixed, copy_of_le (Nat.zero_le _) (by omega) rfl, List.take_zero, List.nil_append,
    Option.bind_eq_bind, Option.bind_some, copy_of_le hcopied le_rfl (by omega),
    List.take_left, List.drop_length, List.append_nil]

/-- A source that does not fill the buffer is not copied. -/
theorem prefixed_eq_none (hsize : size ≠ pre.length + src.length) :
    prefixed pre src size = none := by
  rw [prefixed, Option.bind_eq_bind, Option.bind_eq_none_iff]
  intro buf hbuf
  obtain ⟨⟨-, hle, -⟩, hlen⟩ := copy_eq_some hbuf
  rw [fresh, List.length_replicate] at hlen
  rw [hlen, fresh, List.length_replicate] at *
  refine if_neg fun h => hsize ?_
  omega

theorem fits_of_le (hn : n ≤ u64Max) (hlen : len ≤ u64Max) (h : pos + n ≤ len) :
    fits pos n len = some true := by
  rw [fits, sub_of_le hn, Option.bind_eq_bind, Option.bind_some, if_neg (by omega),
    add_of_le (by omega), Option.bind_some, decide_eq_true h]

theorem fits_of_not_le (hn : n ≤ u64Max) (h : ¬pos + n ≤ len) :
    fits pos n len = some false := by
  rw [fits, sub_of_le hn, Option.bind_eq_bind, Option.bind_some]
  split
  · rfl
  · rw [add_of_le (by omega), Option.bind_some, decide_eq_false h]

theorem hexDigit_lt (c : Char) : hexDigit c < 16 := by
  have hle : ∀ d : Char, c ≤ d → c.toNat ≤ d.toNat := fun d h => UInt32.le_iff_toNat_le.1 h
  unfold hexDigit
  split
  · next h =>
    have hlast := hle '9' h.2
    simp at hlast ⊢
    omega
  · split
    · next h =>
      have hlast := hle 'f' h.2
      simp at hlast ⊢
      omega
    · split
      · next h =>
        have hlast := hle 'F' h.2
        simp at hlast ⊢
        omega
      · omega

theorem foldlM_digits {digits : Text} {acc m : Nat} (hacc : acc < 16 ^ m)
    (hlen : m + digits.length ≤ 64) :
    digits.foldlM (fun result c => do
      let shifted ← mul (2 ^ 256 - 1) result 16
      add (2 ^ 256 - 1) shifted (hexDigit c)) acc =
        some (digits.foldl (fun result c => result * 16 + hexDigit c) acc) := by
  induction digits generalizing acc m with
  | nil => rfl
  | cons c digits ih =>
    rw [List.length_cons] at hlen
    have hdigit := hexDigit_lt c
    have hnext : acc * 16 + hexDigit c < 16 ^ (m + 1) := by
      rw [pow_succ]
      omega
    have hword : 16 ^ (m + 1) ≤ 2 ^ 256 := by
      calc 16 ^ (m + 1) ≤ 16 ^ 64 := Nat.pow_le_pow_right (by omega) (by omega)
        _ = 2 ^ 256 := by norm_num
    rw [List.foldlM_cons, List.foldl_cons, mul_of_le (by omega), Option.bind_eq_bind,
      Option.bind_some, add_of_le (by omega), Option.bind_some]
    exact ih hnext (by omega)

/-- A word fits into two hundred and fifty-six bits. -/
theorem hexWordToU256_eq (w : Text) : hexWordToU256 w = some (Decode.hexWordToU256 w) := by
  unfold hexWordToU256 Decode.hexWordToU256
  split
  · rfl
  · next h =>
    rw [slice_of_le (Nat.zero_le _) (Nat.not_lt.1 h), Option.bind_eq_bind, Option.bind_some,
      List.drop_zero]
    have hlen : (w.take (64 - 0)).length ≤ 64 := List.length_take_le _ _
    exact foldlM_digits (m := 0) (by norm_num) (by omega)

theorem last_eq (hw : n ≤ w.length) : last n w = some ("0x".toList ++ lastChars n w) := by
  have hlen : (lastChars n w).length = n := by
    rw [lastChars, List.length_drop]
    omega
  rw [last, sub_of_le hw, Option.bind_eq_bind, Option.bind_some, slice_length (Nat.sub_le _ _),
    Option.bind_eq_bind, Option.bind_some]
  exact prefixed_eq (congrArg (2 + ·) hlen.symm)

theorem whole_eq (hw : w.length + 2 ≤ u64Max) :
    whole w = some (if "0x".toList.isPrefixOf w then w else "0x".toList ++ w) := by
  unfold whole
  split
  · rfl
  · rw [add_of_le (by omega), Option.bind_eq_bind, Option.bind_some]
    exact prefixed_eq rfl

theorem decodeStaticValue_eq (abiType : Text) (hw : w.length + 2 ≤ u64Max) :
    decodeStaticValue abiType w = some (Decode.decodeStaticValue abiType w) := by
  unfold decodeStaticValue Decode.decodeStaticValue
  simp only [hexWordToU256_eq, whole_eq hw, Option.bind_eq_bind, Option.bind_some]
  split
  · split
    · next h => exact last_eq h
    · rfl
  · split
    · rfl
    · split
      · split
        · next h => exact last_eq h
        · rfl
      · rfl

/-- The digits, without the `0x` in front of them. -/
theorem slice_hexData (data : Text) :
    Checked.slice data (if "0x".toList.isPrefixOf data then 2 else 0) data.length =
      some (if "0x".toList.isPrefixOf data then data.drop 2 else data) := by
  split
  · next h =>
    have hle := (List.isPrefixOf_iff_prefix.1 h).length_le
    exact slice_length hle
  · rw [slice_length (Nat.zero_le _), List.drop_zero]

theorem length_hexData_le (hdata : data.length + 64 ≤ u64Max) :
    (if "0x".toList.isPrefixOf data then data.drop 2 else data).length + 64 ≤ u64Max := by
  split
  · rw [List.length_drop]
    omega
  · exact hdata

/-- A word of the data, or what is there of it. -/
theorem slice_last (hexData : Text) {start : Nat} (h : start < hexData.length) :
    Checked.slice hexData start
      (if start + 64 ≤ hexData.length then start + 64 else hexData.length) =
        some (Decode.slice hexData start 64) := by
  split
  · next hfits =>
    rw [slice_of_le (Nat.le_add_right _ _) hfits, Nat.add_sub_cancel_left]
    rfl
  · rw [slice_length h.le, Decode.slice, List.take_of_length_le]
    rw [List.length_drop]
    omega

/-- A word of the data, as a slice. -/
theorem slice_word {a n : Nat} (h : a + n ≤ hexData.length) :
    Checked.slice hexData a (a + n) = some (Decode.slice hexData a n) := by
  rw [slice_of_le (Nat.le_add_right _ _) h, Nat.add_sub_cancel_left]
  rfl

theorem decodeDynamicValue_eq (hdata : data.length + 64 ≤ u64Max) (offsetHex : Nat) :
    decodeDynamicValue data offsetHex = some (Decode.decodeDynamicValue data offsetHex) := by
  unfold decodeDynamicValue Decode.decodeDynamicValue
  have hword : 64 ≤ u64Max := by decide
  simp only [Option.bind_eq_bind]
  rw [slice_hexData, Option.bind_some]
  have hlen := length_hexData_le hdata
  generalize (if "0x".toList.isPrefixOf data then data.drop 2 else data) = hexData at hlen ⊢
  by_cases hfits : offsetHex + 64 ≤ hexData.length
  · rw [fits_of_le hword (by omega) hfits, Option.bind_some, if_pos rfl, if_neg (by omega),
      add_of_le (by omega), Option.bind_some, slice_word hfits, Option.bind_some, hexWordToU256_eq,
      Option.bind_some]
    generalize Decode.hexWordToU256 (Decode.slice hexData offsetHex 64) = count
    by_cases hlarge : count > u64Max
    · rw [if_pos hlarge, if_pos (.inl hlarge)]
    rw [if_neg hlarge, intCast_of_le (Nat.not_lt.1 hlarge), Option.bind_some]
    by_cases hlarge' : count > u64Max / 2
    · rw [if_pos hlarge', if_pos (.inr hlarge')]
    have hdouble : count * 2 ≤ u64Max := by omega
    rw [if_neg hlarge', if_neg (by omega), mul_of_le hdouble, Option.bind_some]
    by_cases hfits' : offsetHex + 64 + count * 2 ≤ hexData.length
    · have hresult : (Decode.slice hexData (offsetHex + 64) (count * 2)).length ≤
          hexData.length := by
        rw [Decode.slice]
        exact (List.length_take_le _ _).trans (by omega)
      rw [fits_of_le hdouble (by omega) hfits', Option.bind_some, if_pos rfl, if_neg (by omega),
        add_of_le (by omega), Option.bind_some, slice_word hfits', Option.bind_some,
        add_of_le (by omega), Option.bind_some]
      exact prefixed_eq rfl
    · rw [fits_of_not_le hdouble hfits', Option.bind_some, if_neg Bool.false_ne_true,
        if_pos (by omega)]
  · rw [fits_of_not_le hword hfits, Option.bind_some, if_neg Bool.false_ne_true,
      if_pos (by omega)]

theorem followOffset_eq (hdata : hexData.length ≤ u64Max) (base wordAt : Nat) :
    followOffset hexData base wordAt = some (Decode.followOffset hexData base wordAt) := by
  unfold followOffset Decode.followOffset
  have hword : 64 ≤ u64Max := by decide
  simp only [Option.bind_eq_bind]
  by_cases hfits : wordAt + 64 ≤ hexData.length
  · rw [fits_of_le hword hdata hfits, Option.bind_some, if_pos rfl, if_neg (by omega),
      add_of_le (by omega), Option.bind_some, slice_word hfits, Option.bind_some, hexWordToU256_eq,
      Option.bind_some]
    generalize Decode.hexWordToU256 (Decode.slice hexData wordAt 64) = off
    by_cases hlarge : off > u64Max / 2
    · rw [if_pos hlarge, if_pos hlarge]
    have hdouble : off * 2 ≤ u64Max := by omega
    rw [if_neg hlarge, if_neg hlarge, intCast_of_le (by omega), Option.bind_some,
      mul_of_le hdouble, Option.bind_some, sub_of_le hdouble, Option.bind_some]
    split
    · rfl
    · rw [add_of_le (by omega), Option.bind_some]
  · rw [fits_of_not_le hword hfits, Option.bind_some, if_neg Bool.false_ne_true,
      if_pos (by omega)]

end Values

/-! ### No log ends the program -/

section Types

variable {abiType inner hexData : Text}

/-- Reading a value of the type does not end the program. -/
def Total (abiType hexData : Text) : Prop :=
  (∀ wordIndex, decodeStaticType abiType hexData wordIndex =
    some (Decode.decodeStaticType abiType hexData wordIndex)) ∧
  ∀ offsetHex, decodeDynamicPayload abiType hexData offsetHex =
    some (Decode.decodeDynamicPayload abiType hexData offsetHex)

/-- What an offset leads to. -/
theorem Total.follow (h : Total abiType hexData) (hdata : hexData.length + 64 ≤ u64Max)
    (base wordAt : Nat) :
    ((followOffset hexData base wordAt).bind fun offset =>
      offset.elim (some empty) fun offset => decodeDynamicPayload abiType hexData offset) =
      some ((Decode.followOffset hexData base wordAt).elim empty fun offset =>
        Decode.decodeDynamicPayload abiType hexData offset) := by
  rw [followOffset_eq (by omega), Option.bind_some]
  cases Decode.followOffset hexData base wordAt with
  | none => rfl
  | some offset => exact h.2 offset

theorem Total.decodeArray (h : Total inner hexData) (hdata : hexData.length + 64 ≤ u64Max)
    (count startHex : Nat) (headsAreOffsets : Bool) :
    Safe.decodeArray inner count hexData startHex headsAreOffsets =
      some (Decode.decodeArray inner count hexData startHex headsAreOffsets) := by
  rw [Safe.decodeArray, Decode.decodeArray]
  split
  · rfl
  · split
    · rw [mapM_eq_some fun i _ => h.follow hdata startHex _]
      rfl
    · split
      · rfl
      · exact congrArg (Option.map joinJsonArray) (mapM_eq_some fun wordIndex _ => h.1 wordIndex)

theorem decodeLogTuple_total (h : ∀ field ∈ tupleFields inner, Total field hexData)
    (hdata : hexData.length + 64 ≤ u64Max) (baseHex : Nat) :
    decodeLogTuple inner hexData baseHex =
      some (Decode.decodeLogTuple inner hexData baseHex) := by
  rw [decodeLogTuple, Decode.decodeLogTuple]
  split
  · rfl
  · dsimp only
    rw [mapM_eq_some]
    · rfl
    · rintro ⟨⟨field, cursor⟩, hmem⟩ -
      have hfield := h field (List.mem_of_mem_take (mem_of_mem_fieldCursors hmem))
      split
      · exact hfield.follow hdata baseHex _
      · exact hfield.1 cursor

/-- **Whatever the type is and whatever the data says.** -/
theorem total (abiType : Text) (hdata : hexData.length + 64 ≤ u64Max) :
    Total abiType hexData := by
  induction hn : abiType.length using Nat.strong_induction_on generalizing abiType with
  | _ n ih =>
    subst hn
    have harray : ∀ arr, parseArray abiType = some arr → Total arr.inner hexData :=
      fun arr harr => ih _ (length_inner_of_parseArray harr) arr.inner rfl
    have htuple : ∀ inner, tupleInner abiType = some inner → ∀ baseHex,
        decodeLogTuple inner hexData baseHex =
          some (Decode.decodeLogTuple inner hexData baseHex) := by
      intro inner hinner baseHex
      refine decodeLogTuple_total (fun field hfield => ?_) hdata baseHex
      exact ih _ ((length_le_of_mem_tupleFields hfield).trans_lt (length_tupleInner hinner)) _ rfl
    constructor
    · intro wordIndex
      rw [decodeStaticType, Decode.decodeStaticType]
      cases harr : parseArray abiType with
      | some arr =>
        cases harr' : arr.fixed with
        | none => simp only [harr']
        | some n =>
          simp only [harr']
          split
          · rfl
          · next hguard =>
            rw [mul_of_le (by omega), Option.bind_some]
            exact (harray arr harr).decodeArray hdata _ _ _
      | none =>
        cases hinner : tupleInner abiType with
        | some inner =>
          dsimp only
          split
          · rfl
          · next hguard =>
            rw [mul_of_le (by omega), Option.bind_some]
            exact htuple inner hinner _
        | none =>
          dsimp only
          split
          · next hguard => rw [if_pos (.inl hguard)]
          · next hguard =>
            rw [mul_of_le (by omega), Option.bind_some]
            split
            · next hstart => rw [if_pos (.inr hstart)]
            · next hstart =>
              rw [if_neg (by omega), add_of_le (by omega), Option.bind_some]
              have hword := slice_last hexData (Nat.not_le.1 hstart)
              have hlen : (Decode.slice hexData (wordIndex * 64) 64).length ≤ 64 :=
                List.length_take_le _ _
              rw [hword, Option.bind_some]
              exact decodeStaticValue_eq abiType ((Nat.add_le_add_right hlen 2).trans (by decide))
    · intro offsetHex
      rw [decodeDynamicPayload, Decode.decodeDynamicPayload]
      split
      · exact decodeDynamicValue_eq hdata offsetHex
      · cases hinner : tupleInner abiType with
        | some inner => exact htuple inner hinner offsetHex
        | none =>
          cases harr : parseArray abiType with
          | none => rfl
          | some arr =>
            cases harr' : arr.fixed with
            | some n =>
              simp only [harr']
              exact (harray arr harr).decodeArray hdata _ _ _
            | none =>
              simp only [harr']
              by_cases hfits : offsetHex + 64 ≤ hexData.length
              · rw [fits_of_le (by decide) (by omega) hfits, Option.bind_some, if_pos rfl,
                  if_neg (by omega), add_of_le (by omega), Option.bind_some, slice_word hfits,
                  Option.bind_some, hexWordToU256_eq, Option.bind_some]
                split
                · rfl
                · next hcount =>
                  rw [intCast_of_le, Option.bind_some]
                  · exact (harray arr harr).decodeArray hdata _ _ _
                  · exact (Nat.not_lt.1 hcount).trans (by decide)
              · rw [fits_of_not_le (by decide) hfits, Option.bind_some,
                  if_neg Bool.false_ne_true, if_pos (by omega)]

end Types

/-! ### What an event may not have -/

section Inputs

variable {input : EventInput} {inputs : List EventInput} {topic hexData : Text}
  {topics : List Text} {dataWordIdx words : Nat}

theorem decodeTopic_of_hash (h : indexedAsHash input.type = true) :
    decodeTopic input topic = none := by
  rw [decodeTopic, if_pos h, Option.bind_eq_bind, Option.bind_eq_none_iff]
  intro size hsize
  have hten : size = topic.length + 10 := by
    unfold add at hsize
    split at hsize
    · exact (Option.some.inj hsize).symm
    · cases hsize
  have hseven : ("hash:0x".toList : Text).length = 7 := rfl
  rw [prefixed_eq_none (by omega)]
  rfl

theorem decodeTopic_eq (h : ¬indexedAsHash input.type = true)
    (htopic : topic.length + 64 ≤ u64Max) :
    decodeTopic input topic = some (Decode.decodeTopic input topic) := by
  rw [decodeTopic, Decode.decodeTopic, if_neg h, if_neg h]
  simp only [Option.bind_eq_bind]
  rw [slice_hexData, Option.bind_some]
  have hlen := length_hexData_le htopic
  generalize (if "0x".toList.isPrefixOf topic then topic.drop 2 else topic) = topicHex at hlen ⊢
  split
  · next hlong =>
    rw [sub_of_le hlong, Option.bind_some, slice_length (Nat.sub_le _ _), Option.bind_some,
      decodeStaticValue_eq, Option.bind_some]
    · rfl
    · rw [List.length_drop]
      omega
  · rw [Option.bind_some, slice_length (Nat.zero_le _), Option.bind_some, List.drop_zero,
      decodeStaticValue_eq _ (by omega), Option.bind_some]

theorem decodeData_eq (hidx : dataWordIdx ≤ u64Max / 64) (hdata : hexData.length + 64 ≤ u64Max) :
    decodeData input hexData dataWordIdx = some (Decode.decodeData input hexData dataWordIdx) := by
  rw [decodeData, Decode.decodeData]
  simp only [Option.bind_eq_bind]
  rw [mul_of_le (by omega), Option.bind_some]
  split
  · have hfollow := (total input.type hdata).follow hdata 0 (dataWordIdx * 64)
    rw [← Option.bind_assoc, hfollow, Option.bind_some]
  · rw [(total input.type hdata).1 dataWordIdx, Option.bind_some]

theorem decodeData_of_lt (hidx : u64Max / 64 < dataWordIdx) :
    decodeData input hexData dataWordIdx = none := by
  rw [decodeData, mul_of_lt (by omega)]
  rfl

/-- What keeps the loop from ending the program, with so many topics left and so many words
before: no topic for what has no room in one, and no head behind the last address. -/
def CleanFrom : Nat → Nat → List EventInput → Prop
  | _, _, [] => True
  | topics, words, input :: inputs =>
    if input.indexed = true then
      (0 < topics → ¬indexedAsHash input.type = true) ∧ CleanFrom (topics - 1) words inputs
    else
      words ≤ u64Max / 64 ∧ CleanFrom topics (words + AbiType.headWords input.type) inputs

/-- The loop counts words up to the last number there is. -/
theorem satAdd_min (a b : Nat) : satAdd (min a u64Max) b = min (a + b) u64Max := by
  unfold satAdd
  omega

theorem nextWordIdx_eq (hidx : dataWordIdx ≤ u64Max / 64) : nextWordIdx input dataWordIdx =
    some (satAdd dataWordIdx (AbiType.headWords input.type)) := by
  have hmax : u64Max / 64 < u64Max := by decide
  rw [nextWordIdx, AbiType.headWords]
  split
  · rw [add_of_le (by omega), satAdd]
    exact congrArg some (by omega)
  · rfl

theorem decodeInputs_of_clean (hdata : hexData.length + 64 ≤ u64Max)
    (htopics : ∀ topic ∈ topics, topic.length + 64 ≤ u64Max)
    (h : CleanFrom topics.length words inputs) :
    decodeInputs hexData topics (min words u64Max) inputs =
      some (Decode.decodeInputs hexData topics (min words u64Max) inputs) := by
  induction inputs generalizing topics words with
  | nil => rfl
  | cons input inputs ih =>
    rw [decodeInputs.eq_def, Decode.decodeInputs.eq_def]
    rw [CleanFrom] at h
    dsimp only
    split at h
    · next hindexed =>
      rw [if_pos hindexed, if_pos hindexed]
      cases topics with
      | nil => exact ih htopics h.2
      | cons topic topics =>
        have hrest := ih (fun t ht => htopics t (List.mem_cons_of_mem topic ht)) h.2
        dsimp only
        rw [decodeTopic_eq (h.1 (Nat.succ_pos _)) (htopics topic List.mem_cons_self),
          Option.bind_eq_bind, Option.bind_some, hrest]
        rfl
    · next hindexed =>
      have hidx : min words u64Max ≤ u64Max / 64 := (Nat.min_le_left _ _).trans h.1
      have hrest := ih htopics h.2
      rw [← satAdd_min] at hrest
      rw [if_neg hindexed, if_neg hindexed]
      simp only [Option.bind_eq_bind]
      rw [decodeData_eq hidx hdata, Option.bind_some, nextWordIdx_eq hidx, Option.bind_some, hrest]
      rfl

theorem clean_of_decodeInputs {fields : List DecodedField}
    (h : decodeInputs hexData topics (min words u64Max) inputs = some fields) :
    CleanFrom topics.length words inputs := by
  induction inputs generalizing topics words fields with
  | nil => trivial
  | cons input inputs ih =>
    rw [decodeInputs.eq_def] at h
    rw [CleanFrom]
    dsimp only at h
    split at h
    · next hindexed =>
      rw [if_pos hindexed]
      cases topics with
      | nil => exact ⟨fun hpos => absurd hpos (Nat.lt_irrefl 0), ih h⟩
      | cons topic topics =>
        simp only [Option.bind_eq_bind, Option.bind_eq_some_iff] at h
        obtain ⟨field, hfield, rest, hrest, -⟩ := h
        refine ⟨fun _ hhash => ?_, ih hrest⟩
        rw [decodeTopic_of_hash hhash] at hfield
        cases hfield
    · next hindexed =>
      rw [if_neg hindexed]
      simp only [Option.bind_eq_bind, Option.bind_eq_some_iff] at h
      obtain ⟨field, hfield, next, hnext, rest, hrest, -⟩ := h
      have hidx : min words u64Max ≤ u64Max / 64 := by
        by_contra hlarge
        rw [decodeData_of_lt (Nat.not_le.1 hlarge)] at hfield
        cases hfield
      rw [nextWordIdx_eq hidx, satAdd_min] at hnext
      obtain rfl := Option.some.inj hnext
      refine ⟨?_, ih hrest⟩
      have hmax : u64Max / 64 < u64Max := by decide
      omega

end Inputs

section Clean

variable {pre inputs : List EventInput} {topics words : Nat}

/-- The words in front of an input. -/
def wordsOf (pre : List EventInput) : Nat :=
  ((pre.filter fun input => !input.indexed).map fun input => AbiType.headWords input.type).sum

/-- **An event that does not end the program**, with a log of so many topics: there is no topic
for an input whose values are hashed, and in front of an input in the data there are no more
words than can be counted in characters. -/
structure Clean (inputs : List EventInput) (topics : Nat) : Prop where
  hashed : ∀ pre input post, inputs = pre ++ input :: post → input.indexed = true →
    indexedAsHash input.type = true → topics ≤ 1 + pre.countP EventInput.indexed
  words : ∀ pre input post, inputs = pre ++ input :: post → input.indexed = false →
    wordsOf pre ≤ u64Max / 64

theorem cleanFrom_iff : CleanFrom topics words inputs ↔
    ∀ pre input post, inputs = pre ++ input :: post →
      (input.indexed = true → indexedAsHash input.type = true →
        topics ≤ pre.countP EventInput.indexed) ∧
      (input.indexed = false → words + wordsOf pre ≤ u64Max / 64) := by
  induction inputs generalizing topics words with
  | nil => simp [CleanFrom]
  | cons input inputs ih =>
    rw [CleanFrom]
    constructor
    · intro h pre input' post heq
      cases pre with
      | nil =>
        obtain ⟨rfl, rfl⟩ := List.cons.inj heq
        split at h
        · next hindexed =>
          refine ⟨fun _ hhash => Nat.le_of_not_lt fun hpos => h.1 hpos hhash, fun hnot => ?_⟩
          exact absurd (hindexed.symm.trans hnot) (by simp)
        · next hindexed => exact ⟨fun hi => absurd hi hindexed, fun _ => h.1⟩
      | cons first pre =>
        obtain ⟨rfl, rfl⟩ := List.cons.inj heq
        split at h
        · next hindexed =>
          have hrest := ih.1 h.2 pre input' post rfl
          rw [List.countP_cons_of_pos hindexed]
          refine ⟨fun hi hh => by have := hrest.1 hi hh; omega, fun hi => ?_⟩
          rw [wordsOf, List.filter_cons_of_neg (by simp [hindexed])]
          exact hrest.2 hi
        · next hindexed =>
          have hrest := ih.1 h.2 pre input' post rfl
          rw [List.countP_cons_of_neg hindexed]
          refine ⟨hrest.1, fun hi => ?_⟩
          rw [wordsOf, List.filter_cons_of_pos (by simpa using hindexed), List.map_cons,
            List.sum_cons, ← Nat.add_assoc]
          exact hrest.2 hi
    · intro h
      have hfirst := h [] input inputs rfl
      have hrest : ∀ pre input' post, inputs = pre ++ input' :: post → _ :=
        fun pre input' post heq => h (input :: pre) input' post (congrArg (input :: ·) heq)
      split
      · next hindexed =>
        refine ⟨fun hpos hhash => ?_, ih.2 fun pre input' post heq => ?_⟩
        · exact absurd (hfirst.1 hindexed hhash) (Nat.not_le.2 hpos)
        · obtain ⟨hhashed, hwords⟩ := hrest pre input' post heq
          rw [List.countP_cons_of_pos hindexed] at hhashed
          rw [wordsOf, List.filter_cons_of_neg (by simp [hindexed])] at hwords
          exact ⟨fun hi hh => by have := hhashed hi hh; omega, hwords⟩
      · next hindexed =>
        refine ⟨hfirst.2 (by simpa using hindexed), ih.2 fun pre input' post heq => ?_⟩
        obtain ⟨hhashed, hwords⟩ := hrest pre input' post heq
        rw [List.countP_cons_of_neg hindexed] at hhashed
        rw [wordsOf, List.filter_cons_of_pos (by simpa using hindexed), List.map_cons,
          List.sum_cons, ← Nat.add_assoc] at hwords
        exact ⟨hhashed, hwords⟩

/-- The first topic is the signature. -/
theorem clean_iff : Clean inputs topics ↔ CleanFrom (topics - 1) 0 inputs := by
  rw [cleanFrom_iff]
  constructor
  · intro h pre input post heq
    refine ⟨fun hi hh => ?_, fun hi => ?_⟩
    · have := h.hashed pre input post heq hi hh
      omega
    · rw [Nat.zero_add]
      exact h.words pre input post heq hi
  · intro h
    refine ⟨fun pre input post heq hi hh => ?_, fun pre input post heq hi => ?_⟩
    · have := (h pre input post heq).1 hi hh
      omega
    · have := (h pre input post heq).2 hi
      rwa [Nat.zero_add] at this

end Clean

section Log

variable {event : Event} {topics : List Text} {data : Text}

/-- **What a log has to be decoded to**: it is decoded, and what stands for an input whose values
are hashed is the prefix and its topic. -/
def Decodes (event : Event) (topics : List Text) (data : Text) : Prop :=
  ∃ log, decodeLog event topics data = some log ∧
    ∀ pre input post topic, event.inputs = pre ++ input :: post → input.indexed = true →
      indexedAsHash input.type = true → topics[1 + pre.countP EventInput.indexed]? = some topic →
        ⟨input.name, "hash:0x".toList ++ topic⟩ ∈ log.fields

/-- Where nothing ends the program, it is the decoder without the checks. -/
theorem decodeLog_of_clean (hdata : data.length + 64 ≤ u64Max)
    (htopics : ∀ topic ∈ topics, topic.length + 64 ≤ u64Max)
    (h : Clean event.inputs topics.length) :
    decodeLog event topics data = some (Decode.decodeLog event topics data) := by
  rw [decodeLog, Decode.decodeLog]
  simp only [Option.bind_eq_bind]
  rw [slice_hexData, Option.bind_some]
  have hlen := length_hexData_le hdata
  have hclean : CleanFrom (topics.drop 1).length 0 event.inputs := by
    rw [List.length_drop]
    exact clean_iff.1 h
  have hfields :=
    decodeInputs_of_clean hlen (fun t ht => htopics t (List.mem_of_mem_drop ht)) hclean
  rw [Nat.min_eq_left (Nat.zero_le _)] at hfields
  rw [hfields]
  rfl

/-- **Decoding ends the program on no log but one of an event that is not clean**: neither what
the topics say nor what the data says matters. -/
theorem decodes_iff (event : Event) (topics : List Text) (data : Text)
    (hdata : data.length + 64 ≤ u64Max) (htopics : ∀ topic ∈ topics, topic.length + 64 ≤ u64Max) :
    Decodes event topics data ↔ Clean event.inputs topics.length := by
  constructor
  · rintro ⟨log, hlog, -⟩
    unfold decodeLog at hlog
    simp only [Option.bind_eq_bind, Option.bind_eq_some_iff] at hlog
    obtain ⟨hexData, -, fields, hfields, -⟩ := hlog
    rw [clean_iff, ← List.length_drop]
    rw [← Nat.min_eq_left (Nat.zero_le u64Max)] at hfields
    exact clean_of_decodeInputs hfields
  · intro h
    refine ⟨_, decodeLog_of_clean hdata htopics h, ?_⟩
    -- a topic for such an input is one too many
    intro pre input post topic heq hindexed hhash htopic
    have hshort := h.hashed pre input post heq hindexed hhash
    rw [List.getElem?_eq_none hshort] at htopic
    cases htopic

end Log

/-- `Named(string indexed name)` -/
def namedEvent : Event := ⟨"Named".toList, [⟨"name".toList, "string".toList, true⟩]⟩

/-- The signature and the hash of a name. -/
def namedTopics : List Text := List.replicate 2 ("0x".toList ++ List.replicate 64 'a')

/-- A log with the hash of a string: the copy of the topic does not fill its buffer. -/
theorem not_decodes_named : decodeLog namedEvent namedTopics "0x".toList = none ∧
    ¬Decodes namedEvent namedTopics "0x".toList := by
  have hnone : decodeLog namedEvent namedTopics "0x".toList = none := by decide +kernel
  refine ⟨hnone, ?_⟩
  rintro ⟨log, hlog, -⟩
  rw [hnone] at hlog
  cases hlog

/-- `Flagged(bool indexed flag, bytes note)`, with both in the log. -/
theorem decodes_iff_flagged :
    Decodes ⟨"Flagged".toList, [⟨"flag".toList, "bool".toList, true⟩,
      ⟨"note".toList, "bytes".toList, false⟩]⟩ namedTopics (List.replicate 192 '0') ↔
    Clean [⟨"flag".toList, "bool".toList, true⟩, ⟨"note".toList, "bytes".toList, false⟩] 2 :=
  decodes_iff _ namedTopics _ (by rw [List.length_replicate]; decide) (by decide)

end Safe

end Decode

end Zponder

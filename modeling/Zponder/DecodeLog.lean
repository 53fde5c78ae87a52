import Zponder.Schema
import Zponder.Spans

/-!
# Reading the fields of an event out of a log

`decodeLog` and what it calls, as the ABI module has them. The type of an input is a text,
and it is read anew at every level: what is in the last pair of brackets makes an array, a
pair of parentheses a tuple. Values that are not of a fixed length are found through
offsets, which count from the place the sequence they are in begins.

The data of a log is read as the hex digits it comes in, so that a word is sixty-four
characters and an offset counts twice. What does not fit is answered with `0x`, and no
index leaves the range of a `usize`.
-/

namespace Zponder

namespace Decode

/-! ### Types as texts -/

/-- `AbiEventInput` -/
structure EventInput where
  name : Text
  type : Text
  indexed : Bool
  deriving DecidableEq, Repr

/-- `AbiEvent`, without the signature, which decoding does not use. -/
structure Event where
  name : Text
  inputs : List EventInput
  deriving DecidableEq, Repr

/-- `max_array_len` -/
def maxArrayLen : Nat := 1024

/-- `ArrayBound`: there is no number for `T[]`. -/
structure ArrayBound where
  inner : Text
  fixed : Option Nat
  deriving DecidableEq, Repr

/-- `parseArray`: the last pair of brackets is the outermost dimension. -/
def parseArray (abiType : Text) : Option ArrayBound :=
  if abiType.length < 3 ∨ abiType.getLast? ≠ some ']' then none
  else
    -- from the end, up to the last opening bracket
    let back := abiType.dropLast.reverse
    let inside := (back.takeWhile (· != '[')).reverse
    let inner := ((back.dropWhile (· != '[')).drop 1).reverse
    if inner = [] then none
    else if inside = [] then some ⟨inner, none⟩
    else (Text.parseInt 10 (2 ^ 64) inside).map fun n => ⟨inner, some n⟩

/-- `tupleInner` -/
def tupleInner (abiType : Text) : Option Text :=
  if 2 ≤ abiType.length ∧ abiType.head? = some '(' ∧ abiType.getLast? = some ')' then
    some (abiType.drop 1).dropLast
  else none

/-- How deep in brackets the text is behind a character. -/
def depthAfter (depth : Nat) (c : Char) : Nat :=
  if c = '(' ∨ c = '[' then depth + 1
  else if c = ')' ∨ c = ']' then depth - 1
  else depth

/-- Up to a comma that is in no brackets, and from there on. -/
def splitField : Nat → Text → Text × Text
  | _, [] => ([], [])
  | depth, c :: s =>
    if c = ',' ∧ depth = 0 then ([], c :: s)
    else
      let split := splitField (depthAfter depth c) s
      (c :: split.1, split.2)

/-- `nextTupleField`: the next of the fields, and what is left behind its comma. -/
def nextTupleField (inner : Text) : Option (Text × Text) :=
  let split := splitField 0 inner
  let field := Text.trim split.1
  if field = [] then none else some (field, split.2.drop 1)

theorem splitField_append (depth : Nat) (s : Text) :
    (splitField depth s).1 ++ (splitField depth s).2 = s := by
  induction s generalizing depth with
  | nil => rfl
  | cons c s ih =>
    rw [splitField]
    split
    · rfl
    · exact congrArg (c :: ·) (ih (depthAfter depth c))

theorem length_trim_le (s : Text) : (Text.trim s).length ≤ s.length := by
  unfold Text.trim
  rw [List.length_reverse]
  refine (List.length_dropWhile_le _ _).trans ?_
  rw [List.length_reverse]
  exact List.length_dropWhile_le _ _

/-- A field, and what comes behind it, are pieces of the text. -/
theorem nextTupleField_spec {inner field rest : Text}
    (h : nextTupleField inner = some (field, rest)) :
    field.length ≤ inner.length ∧ rest.length < inner.length := by
  have hsplit := congrArg List.length (splitField_append 0 inner)
  rw [List.length_append] at hsplit
  unfold nextTupleField at h
  simp only at h
  split at h
  · cases h
  · next hne =>
    obtain ⟨rfl, rfl⟩ := Prod.mk.inj (Option.some.inj h)
    have htrim := length_trim_le (splitField 0 inner).1
    have hpos : 0 < (Text.trim (splitField 0 inner).1).length := List.length_pos_of_ne_nil hne
    rw [List.length_drop]
    omega

/-- The fields a loop over `nextTupleField` comes by. -/
def tupleFields (inner : Text) : List Text :=
  match _h : nextTupleField inner with
  | none => []
  | some (field, rest) => field :: tupleFields rest
termination_by inner.length
decreasing_by exact (nextTupleField_spec _h).2

theorem length_le_of_mem_tupleFields {field inner : Text} (h : field ∈ tupleFields inner) :
    field.length ≤ inner.length := by
  induction inner using tupleFields.induct with
  | case1 inner hnone =>
    rw [tupleFields, hnone] at h
    cases h
  | case2 inner f rest hnext ih =>
    obtain ⟨hfield, hrest⟩ := nextTupleField_spec hnext
    rw [tupleFields, hnext] at h
    rcases List.mem_cons.1 h with rfl | h
    · exact hfield
    · exact (ih h).trans hrest.le

theorem length_inner_of_parseArray {abiType : Text} {arr : ArrayBound}
    (h : parseArray abiType = some arr) : arr.inner.length < abiType.length := by
  unfold parseArray at h
  split at h
  · cases h
  · next hlen =>
    have hshort : ((abiType.dropLast.reverse.dropWhile (· != '[')).drop 1).reverse.length <
        abiType.length := by
      have hdrop := List.length_dropWhile_le (· != '[') abiType.dropLast.reverse
      rw [List.length_reverse, List.length_dropLast] at hdrop
      rw [List.length_reverse, List.length_drop]
      omega
    simp only at h
    split at h
    · cases h
    · split at h
      · obtain rfl := Option.some.inj h
        exact hshort
      · obtain ⟨n, -, rfl⟩ := Option.map_eq_some_iff.1 h
        exact hshort

theorem length_tupleInner {abiType inner : Text} (h : tupleInner abiType = some inner) :
    inner.length < abiType.length := by
  unfold tupleInner at h
  split at h
  · next hlen =>
    obtain rfl := Option.some.inj h
    rw [List.length_dropLast, List.length_drop]
    omega
  · cases h

mutual

/-- `isDynamicType`: whether there is an offset for it. -/
def isDynamicType (abiType : Text) : Bool :=
  if abiType = "string".toList ∨ abiType = "bytes".toList then true
  else
    match _h : parseArray abiType with
    | some arr =>
      match arr.fixed with
      | none => true
      | some _ => isDynamicType arr.inner
    | none =>
      match _h' : tupleInner abiType with
      | some inner => tupleHasDynamic inner
      | none => false
termination_by (abiType.length, 0)
decreasing_by
  · exact .left _ _ (length_inner_of_parseArray _h)
  · exact .left _ _ (length_tupleInner _h')

/-- `tupleHasDynamic` -/
def tupleHasDynamic (inner : Text) : Bool :=
  (tupleFields inner).attach.any fun field => isDynamicType field.1
termination_by (inner.length, 1)
decreasing_by
  rcases (length_le_of_mem_tupleFields field.2).lt_or_eq with h | h
  · exact .left _ _ h
  · rw [h]
    exact .right _ Nat.one_pos

end

/-- `indexedAsHash`: what does not fit into a topic. -/
def indexedAsHash (abiType : Text) : Bool :=
  if abiType = "string".toList ∨ abiType = "bytes".toList then true
  else if abiType.head? = some '(' then true
  else abiType.contains '['

mutual

/-- `staticWordCount` -/
def staticWordCount (abiType : Text) : Nat :=
  match _h : parseArray abiType with
  | some arr =>
    match arr.fixed with
    | none => 1
    | some n =>
      let inner := staticWordCount arr.inner
      if inner ≠ 0 ∧ n > u64Max / inner then u64Max else n * inner
  | none =>
    match _h' : tupleInner abiType with
    | some inner => tupleStaticWords inner
    | none => 1
termination_by (abiType.length, 0)
decreasing_by
  · exact .left _ _ (length_inner_of_parseArray _h)
  · exact .left _ _ (length_tupleInner _h')

/-- `tupleStaticWords` -/
def tupleStaticWords (inner : Text) : Nat :=
  (tupleFields inner).attach.foldl (fun sum field => satAdd sum (staticWordCount field.1)) 0
termination_by (inner.length, 1)
decreasing_by
  rcases (length_le_of_mem_tupleFields field.2).lt_or_eq with h | h
  · exact .left _ _ h
  · rw [h]
    exact .right _ Nat.one_pos

end

/-! ### Words -/

/-- `hexDigit` -/
def hexDigit (c : Char) : Nat :=
  if '0' ≤ c ∧ c ≤ '9' then c.toNat - '0'.toNat
  else if 'a' ≤ c ∧ c ≤ 'f' then c.toNat - 'a'.toNat + 10
  else if 'A' ≤ c ∧ c ≤ 'F' then c.toNat - 'A'.toNat + 10
  else 0

/-- `hexWordToU256` -/
def hexWordToU256 (hexWord : Text) : Nat :=
  if hexWord.length < 64 then 0
  else (hexWord.take 64).foldl (fun result c => result * 16 + hexDigit c) 0

/-- `hex[start .. start + n]` -/
def slice (hex : Text) (start n : Nat) : Text := (hex.drop start).take n

/-- What is answered where nothing can be read. -/
def empty : Text := "0x".toList

/-- The last characters of a word. -/
def lastChars (n : Nat) (hexWord : Text) : Text := hexWord.drop (hexWord.length - n)

/-- `decodeStaticValue` -/
def decodeStaticValue (abiType hexWord : Text) : Text :=
  let whole := if "0x".toList.isPrefixOf hexWord then hexWord else "0x".toList ++ hexWord
  if abiType = "address".toList then
    if 40 ≤ hexWord.length then "0x".toList ++ lastChars 40 hexWord else whole
  else if abiType = "bool".toList then
    if hexWordToU256 hexWord ≠ 0 then "true".toList else "false".toList
  else if "uint".toList.isPrefixOf abiType ∨ "int".toList.isPrefixOf abiType ∨
      "bytes".toList.isPrefixOf abiType then
    if 64 ≤ hexWord.length then "0x".toList ++ lastChars 64 hexWord else whole
  else whole

/-- `decodeDynamicValue`: what a length comes before. -/
def decodeDynamicValue (data : Text) (offsetHex : Nat) : Text :=
  let hexData := if "0x".toList.isPrefixOf data then data.drop 2 else data
  if offsetHex > u64Max - 64 ∨ offsetHex + 64 > hexData.length then empty
  else
    let len := hexWordToU256 (slice hexData offsetHex 64)
    if len > u64Max ∨ len > u64Max / 2 then empty
    else
      let dataStart := offsetHex + 64
      if dataStart > u64Max - len * 2 ∨ dataStart + len * 2 > hexData.length then empty
      else "0x".toList ++ slice hexData dataStart (len * 2)

/-- An item of an array: who is an array itself goes without quotes. -/
def jsonItem (item : Text) : Text :=
  if item.head? = some '[' then item else '"' :: item ++ ['"']

/-- `joinJsonArray` -/
def joinJsonArray (items : List Text) : Text :=
  '[' :: [','].intercalate (items.map jsonItem) ++ [']']

/-! ### Arrays and tuples -/

/-- The fields of a tuple, each with the word its head is at. -/
def fieldCursors : Nat → List Text → List (Text × Nat)
  | _, [] => []
  | cursor, field :: fields =>
    (field, cursor) ::
      fieldCursors (satAdd cursor (if isDynamicType field = true then 1 else staticWordCount field))
        fields

theorem mem_of_mem_fieldCursors {field : Text} {cur cursor : Nat} {fields : List Text}
    (h : (field, cur) ∈ fieldCursors cursor fields) : field ∈ fields := by
  induction fields generalizing cursor with
  | nil => cases h
  | cons f fields ih =>
    rcases List.mem_cons.1 h with h | h
    · exact (Prod.mk.inj h).1 ▸ List.mem_cons_self
    · exact List.mem_cons_of_mem f (ih h)

/-- Where the word at `wordAt` sends to, from `base` on. -/
def followOffset (hexData : Text) (base wordAt : Nat) : Option Nat :=
  if wordAt > u64Max - 64 ∨ wordAt + 64 > hexData.length then none
  else
    let off := hexWordToU256 (slice hexData wordAt 64)
    if off > u64Max / 2 then none
    else if base > u64Max - off * 2 then none
    else some (base + off * 2)

mutual

/-- `decodeStaticType` -/
def decodeStaticType (abiType hexData : Text) (wordIndex : Nat) : Text :=
  match _h : parseArray abiType with
  | some arr =>
    match arr.fixed with
    | none => empty
    | some n =>
      if n > maxArrayLen ∨ wordIndex > u64Max / 64 then empty
      else decodeArray arr.inner n hexData (wordIndex * 64) false
  | none =>
    match _h' : tupleInner abiType with
    | some inner =>
      if wordIndex > u64Max / 64 then empty
      else decodeLogTuple inner hexData (wordIndex * 64)
    | none =>
      if wordIndex > u64Max / 64 ∨ wordIndex * 64 ≥ hexData.length then "0x0".toList
      else decodeStaticValue abiType (slice hexData (wordIndex * 64) 64)
termination_by (abiType.length, 0)
decreasing_by
  · exact .left _ _ (length_inner_of_parseArray _h)
  · exact .left _ _ (length_tupleInner _h')

/-- `decodeArray`: the body of an array begins at `startHex`. Items of a fixed length come
one after the other; any others have offsets that count from there. -/
def decodeArray (inner : Text) (count : Nat) (hexData : Text) (startHex : Nat)
    (headsAreOffsets : Bool) : Text :=
  if count > maxArrayLen then empty
  else if headsAreOffsets = true then
    joinJsonArray <| (List.range count).map fun i =>
      (followOffset hexData startHex (satAdd startHex (i * 64))).elim empty fun offset =>
        decodeDynamicPayload inner hexData offset
  else if startHex % 64 ≠ 0 then empty
  else
    let words := staticWordCount inner
    joinJsonArray <| (List.iterate (satAdd · words) (startHex / 64) count).map fun wordIndex =>
      decodeStaticType inner hexData wordIndex
termination_by (inner.length, 1)
decreasing_by
  · exact .right _ Nat.one_pos
  · exact .right _ Nat.one_pos

/-- `decodeDynamicPayload` -/
def decodeDynamicPayload (abiType hexData : Text) (offsetHex : Nat) : Text :=
  if abiType = "string".toList ∨ abiType = "bytes".toList then
    decodeDynamicValue hexData offsetHex
  else
    match _h' : tupleInner abiType with
    | some inner => decodeLogTuple inner hexData offsetHex
    | none =>
      match _h : parseArray abiType with
      | none => empty
      | some arr =>
        match arr.fixed with
        | some n => decodeArray arr.inner n hexData offsetHex (isDynamicType arr.inner)
        | none =>
          if offsetHex > u64Max - 64 ∨ offsetHex + 64 > hexData.length then empty
          else
            let len := hexWordToU256 (slice hexData offsetHex 64)
            if len > maxArrayLen then empty
            else decodeArray arr.inner len hexData (offsetHex + 64) (isDynamicType arr.inner)
termination_by (abiType.length, 0)
decreasing_by
  · exact .left _ _ (length_tupleInner _h')
  · exact .left _ _ (length_inner_of_parseArray _h)
  · exact .left _ _ (length_inner_of_parseArray _h)

/-- `decodeLogTuple`: the body of a tuple begins at `baseHex`, and there the offsets of its
members count from. -/
def decodeLogTuple (inner hexData : Text) (baseHex : Nat) : Text :=
  if baseHex % 64 ≠ 0 then empty
  else
    let fields := fieldCursors (baseHex / 64) ((tupleFields inner).take maxArrayLen)
    joinJsonArray <| fields.attach.map fun ⟨(field, cursor), _⟩ =>
      if isDynamicType field = true then
        (followOffset hexData baseHex (min (cursor * 64) u64Max)).elim empty fun offset =>
          decodeDynamicPayload field hexData offset
      else decodeStaticType field hexData cursor
termination_by (inner.length, 1)
decreasing_by
  all_goals
    have hmem : field ∈ tupleFields inner :=
      List.mem_of_mem_take (mem_of_mem_fieldCursors (by assumption))
    rcases (length_le_of_mem_tupleFields hmem).lt_or_eq with h | h
    · exact .left _ _ h
    · rw [h]
      exact .right _ Nat.one_pos

end

/-! ### The fields of an event -/

/-- The field of an indexed input. What is hashed is copied into a buffer of another size than it
has, and the value here is what would be there if both had the same. -/
def decodeTopic (input : EventInput) (topic : Text) : DecodedField :=
  if indexedAsHash input.type = true then ⟨input.name, "hash:0x".toList ++ topic⟩
  else
    let topicHex := if "0x".toList.isPrefixOf topic then topic.drop 2 else topic
    let word := if 64 ≤ topicHex.length then lastChars 64 topicHex else topicHex
    ⟨input.name, decodeStaticValue input.type word⟩

/-- The field of an input that is in the data, with its head at the word. -/
def decodeData (input : EventInput) (hexData : Text) (dataWordIdx : Nat) : DecodedField :=
  if isDynamicType input.type = true then
    ⟨input.name, (followOffset hexData 0 (dataWordIdx * 64)).elim empty fun offset =>
      decodeDynamicPayload input.type hexData offset⟩
  else ⟨input.name, decodeStaticType input.type hexData dataWordIdx⟩

/-- The loop of `decodeLog`, with the topics that are left. -/
def decodeInputs (hexData : Text) : List Text → Nat → List EventInput → List DecodedField
  | _, _, [] => []
  | topics, dataWordIdx, input :: inputs =>
    if input.indexed = true then
      match topics with
      | [] => decodeInputs hexData [] dataWordIdx inputs
      | topic :: topics => decodeTopic input topic :: decodeInputs hexData topics dataWordIdx inputs
    else
      let words := if isDynamicType input.type = true then 1 else staticWordCount input.type
      decodeData input hexData dataWordIdx ::
        decodeInputs hexData topics (satAdd dataWordIdx words) inputs

/-- `DecodedLog` -/
structure DecodedLog where
  eventName : Text
  fields : List DecodedField
  deriving DecidableEq, Repr

/-- `decodeLog`: the first topic is the signature. -/
def decodeLog (event : Event) (topics : List Text) (data : Text) : DecodedLog where
  eventName := event.name
  fields :=
    let hexData := if "0x".toList.isPrefixOf data then data.drop 2 else data
    decodeInputs hexData (topics.drop 1) 0 event.inputs

end Decode

end Zponder

import Zponder.DecodeLog
import Zponder.QueryKey

/-!
# Reading the answer to a call

`decodeCallResult`, `decodeSingleOutput` and what they call. The types are texts as for logs, and
what reads them is shared with `decodeLog`; the walk over the words is another one. It keeps one
cursor, the index of the next word, that a tuple without offsets moves on for its caller.

A tuple at the outside stands for the outputs of a function that has several: its members are at
the beginning. A single output that is of no fixed length has an offset before it, also if it is
a tuple.

What is returned is the text; that a type is too deep for the stack, or the memory too small, is
left out.
-/

namespace Zponder

namespace Decode

/-! ### Scalars -/

/-- `callWordNegative` -/
def callWordNegative (word : Text) : Bool :=
  match word.head? with
  | none => false
  | some c => ('8' ≤ c && c ≤ '9') || ('a' ≤ c && c ≤ 'f') || ('A' ≤ c && c ≤ 'F')

/-- The number of `decodeCallScalar`: in decimal digits, with a sign if there can be one. -/
def decodeCallNumber (signed : Bool) (hex : Text) : Text :=
  let word := hex.take 64
  let trimmed := word.dropWhile (· == '0')
  if trimmed = [] then "0".toList
  else
    match Text.parseInt 16 (2 ^ 256) trimmed with
    | none => hex
    | some val =>
      if signed = true ∧ callWordNegative word = true then
        '-' :: Text.decimal ((2 ^ 256 - val) % 2 ^ 256)
      else Text.decimal val

/-- `decodeCallScalar` -/
def decodeCallScalar (abiType hex : Text) : Text :=
  let whole := "0x".toList ++ hex
  if abiType = "bool".toList then
    if 64 ≤ hex.length ∧ (hex.take 64).any (· != '0') = true then "true".toList
    else "false".toList
  else if abiType = "address".toList ∧ 64 ≤ hex.length then
    "0x".toList ++ lastChars 40 (hex.take 64)
  else if ("uint".toList.isPrefixOf abiType ∨ "int".toList.isPrefixOf abiType) ∧
      64 ≤ hex.length then
    decodeCallNumber ("int".toList.isPrefixOf abiType) hex
  else if "bytes".toList.isPrefixOf abiType ∧ 64 ≤ hex.length then "0x".toList ++ hex.take 64
  else whole

/-- `callWord` -/
def callWord (hex : Text) (wordIndex : Nat) : Option Text :=
  if wordIndex > u64Max / 64 ∨ wordIndex * 64 > hex.length ∨ wordIndex * 64 + 64 > hex.length then
    none
  else some (slice hex (wordIndex * 64) 64)

/-- `callTypeIsStructured` -/
def callTypeIsStructured (abiType : Text) : Bool :=
  (tupleInner abiType).isSome || (parseArray abiType).isSome || isDynamicType abiType

/-! ### Arrays and tuples -/

/-- The loop over the members of a tuple: each is read where the one before has left the
cursor. -/
def walkFields {α : Type} (decodeAt : α → Nat → Text × Nat) : List α → Nat → List Text × Nat
  | [], wordIndex => ([], wordIndex)
  | field :: fields, wordIndex =>
    let val := decodeAt field wordIndex
    let vals := walkFields decodeAt fields val.2
    (val.1 :: vals.1, vals.2)

theorem length_trim_lt {abiType inner : Text} (h : tupleInner (Text.trim abiType) = some inner) :
    inner.length < abiType.length :=
  (length_tupleInner h).trans_le (length_trim_le abiType)

/-- A text that is no longer is read by what comes later in the order. -/
theorem lex_of_le {m n k l : Nat} (h : m ≤ n) (hkl : k < l) :
    Prod.Lex (· < ·) (· < ·) (m, k) (n, l) := by
  rcases h.lt_or_eq with h | rfl
  · exact .left _ _ h
  · exact .right _ hkl

mutual

/-- `decodeCallAt`: the text, and where the cursor is behind it. -/
def decodeCallAt (abiType hex : Text) (wordIndex baseHex : Nat) : Text × Nat :=
  let trimmed := Text.trim abiType
  if isDynamicType trimmed = true then
    match callWord hex wordIndex with
    | none => (empty, wordIndex)
    | some word =>
      let off := hexWordToU256 word
      let next := satAdd wordIndex 1
      if off > u64Max / 2 then (empty, next)
      else if baseHex > u64Max - off * 2 then (empty, next)
      else (decodeCallTail trimmed hex (baseHex + off * 2), next)
  else
    match _h : tupleInner trimmed with
    | some inner =>
      let startHex := if wordIndex > u64Max / 64 then baseHex else wordIndex * 64
      decodeCallTuple inner hex wordIndex startHex
    | none =>
      (decodeCallStatic trimmed hex wordIndex, satAdd wordIndex (staticWordCount trimmed))
termination_by (abiType.length, 2)
decreasing_by
  · exact lex_of_le (length_trim_le abiType) (by decide)
  · exact .left _ _ (length_trim_lt _h)
  · exact lex_of_le (length_trim_le abiType) (by decide)

/-- `decodeCallTuple`: the offsets of the members count from `baseHex`. -/
def decodeCallTuple (inner hex : Text) (wordIndex baseHex : Nat) : Text × Nat :=
  let vals := walkFields (fun field wordIndex => decodeCallAt field.1 hex wordIndex baseHex)
    (tupleFields inner).attach wordIndex
  (joinJsonArray vals.1, vals.2)
termination_by (inner.length, 3)
decreasing_by exact lex_of_le (length_le_of_mem_tupleFields field.2) (by decide)

/-- `decodeCallStatic` -/
def decodeCallStatic (abiType hex : Text) (wordIndex : Nat) : Text :=
  match _h : parseArray abiType with
  | some arr =>
    match arr.fixed with
    | none => empty
    | some n => if n > maxArrayLen then empty else decodeCallElems arr.inner n hex wordIndex
  | none =>
    match _h' : tupleInner abiType with
    | some inner =>
      if wordIndex > u64Max / 64 then empty
      else (decodeCallTuple inner hex wordIndex (wordIndex * 64)).1
    | none =>
      match callWord hex wordIndex with
      | none => empty
      | some word => decodeCallScalar abiType word
termination_by (abiType.length, 0)
decreasing_by
  · exact .left _ _ (length_inner_of_parseArray _h)
  · exact .left _ _ (length_tupleInner _h')

/-- `decodeCallTail`: what an offset leads to. -/
def decodeCallTail (abiType hex : Text) (offsetHex : Nat) : Text :=
  if abiType = "string".toList ∨ abiType = "bytes".toList then decodeDynamicValue hex offsetHex
  else
    match _h' : tupleInner abiType with
    | some inner =>
      if offsetHex % 64 ≠ 0 then empty
      else (decodeCallTuple inner hex (offsetHex / 64) offsetHex).1
    | none =>
      match _h : parseArray abiType with
      | none => empty
      | some arr =>
        match arr.fixed with
        | some n =>
          if isDynamicType arr.inner = true then decodeCallOffsetArray arr.inner n hex offsetHex
          else if offsetHex % 64 ≠ 0 then empty
          else decodeCallStatic abiType hex (offsetHex / 64)
        | none =>
          if offsetHex > u64Max - 64 ∨ offsetHex + 64 > hex.length then empty
          else
            let len := hexWordToU256 (slice hex offsetHex 64)
            let body := offsetHex + 64
            if len > maxArrayLen then empty
            else if isDynamicType arr.inner = true then decodeCallOffsetArray arr.inner len hex body
            else if body % 64 ≠ 0 then empty
            else decodeCallElems arr.inner len hex (body / 64)
termination_by (abiType.length, 1)
decreasing_by
  · exact .left _ _ (length_tupleInner _h')
  · exact .left _ _ (length_inner_of_parseArray _h)
  · exact .right _ Nat.one_pos
  · exact .left _ _ (length_inner_of_parseArray _h)
  · exact .left _ _ (length_inner_of_parseArray _h)

/-- `decodeCallElems`, which is the loop of `decodeCallStatic` too: elements one after the
other. -/
def decodeCallElems (inner : Text) (count : Nat) (hex : Text) (wordIndex : Nat) : Text :=
  if count > maxArrayLen then empty
  else
    let words := staticWordCount inner
    joinJsonArray <| (List.iterate (satAdd · words) wordIndex count).map fun w =>
      decodeCallStatic inner hex w
termination_by (inner.length, 1)
decreasing_by exact .right _ Nat.one_pos

/-- `decodeCallOffsetArray`: elements that have offsets, from `startHex` on. -/
def decodeCallOffsetArray (inner : Text) (count : Nat) (hex : Text) (startHex : Nat) : Text :=
  if count > maxArrayLen then empty
  else
    joinJsonArray <| (List.range count).map fun i =>
      (followOffset hex startHex (satAdd startHex (min (i * 64) u64Max))).elim empty fun offset =>
        decodeCallTail inner hex offset
termination_by (inner.length, 2)
decreasing_by exact .right _ (by decide)

end

/-! ### The answer to a call -/

/-- Without the `0x` in front. -/
def stripHexPrefix (resultHex : Text) : Text :=
  if "0x".toList.isPrefixOf resultHex ∨ "0X".toList.isPrefixOf resultHex then resultHex.drop 2
  else resultHex

/-- `decodeCallResult` -/
def decodeCallResult (abiType resultHex : Text) : Text :=
  let hex := stripHexPrefix resultHex
  match tupleInner abiType with
  | some inner => (decodeCallTuple inner hex 0 0).1
  | none =>
    if callTypeIsStructured abiType = true then (decodeCallAt abiType hex 0 0).1
    else decodeCallScalar abiType hex

/-- `decodeSingleOutput` -/
def decodeSingleOutput (abiType resultHex : Text) : Text :=
  if isDynamicType abiType = true then (decodeCallAt abiType (stripHexPrefix resultHex) 0 0).1
  else decodeCallResult abiType resultHex

end Decode

end Zponder

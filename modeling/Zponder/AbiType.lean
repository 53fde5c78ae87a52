import Zponder.DecodeLog
import Zponder.QueryKey
import Zponder.Lib.HeadTail

/-!
# The types of the ABI, and how their values are written down

What a log holds, said without the decoder: the types an input of an event can have
(`Zponder.AbiType`), the values of a type, their standard encoding, as the hex digits of the
data, and the text each value is to be answered with.

A type carries that its arrays are not too long, for fixed ones in the type and for others
in the value. Tuples of any number of members are types.
-/

namespace Zponder

/-! ### Hex digits -/

namespace Text

/-- A number in `n` hex digits. -/
def hexOf : Nat → Nat → Text
  | 0, _ => []
  | n + 1, x => hexOf n (x / 16) ++ [Nat.digitChar (x % 16)]

@[simp]
theorem length_hexOf (n x : Nat) : (hexOf n x).length = n := by
  induction n generalizing x with
  | zero => rfl
  | succ n ih => rw [hexOf, List.length_append, ih, List.length_singleton]

/-- The last digits are those of a number of so many. -/
theorem hexOf_add (m n x : Nat) : hexOf (m + n) x = hexOf m (x / 16 ^ n) ++ hexOf n x := by
  induction n generalizing x with
  | zero =>
    rw [Nat.add_zero, Nat.pow_zero, Nat.div_one]
    exact (List.append_nil _).symm
  | succ n ih =>
    rw [← Nat.add_assoc, hexOf, hexOf, ih, Nat.div_div_eq_div_mul, ← List.append_assoc,
      Nat.pow_succ']

end Text

/-- A value type: its kind, and of how many bytes it is. -/
inductive ValueType where
  | uint (bytes : Fin 32)
  | int (bytes : Fin 32)
  | ufixed (bytes : Fin 32) (decimals : Fin 81)
  | fixed (bytes : Fin 32) (decimals : Fin 81)
  | address
  | bool
  | bytes (length : Fin 32)
  | function
  deriving DecidableEq, Repr

namespace ValueType

/-- The text of the type. -/
def text : ValueType → Text
  | uint n => "uint".toList ++ Text.decimal (8 * (n + 1))
  | int n => "int".toList ++ Text.decimal (8 * (n + 1))
  | ufixed n d => "ufixed".toList ++ (Text.decimal (8 * (n + 1)) ++ 'x' :: Text.decimal d)
  | fixed n d => "fixed".toList ++ (Text.decimal (8 * (n + 1)) ++ 'x' :: Text.decimal d)
  | address => "address".toList
  | bool => "bool".toList
  | bytes n => "bytes".toList ++ Text.decimal (n + 1)
  | function => "function".toList

theorem text_ne_nil (v : ValueType) : v.text ≠ [] := by
  cases v <;> exact List.cons_ne_nil _ _

/-- How many bits a value is of. -/
def width : ValueType → Nat
  | uint n => 8 * (n + 1)
  | int n => 8 * (n + 1)
  | ufixed n _ => 8 * (n + 1)
  | fixed n _ => 8 * (n + 1)
  | address => 160
  | bool => 1
  | bytes n => 8 * (n + 1)
  | function => 192

/-- The values. -/
abbrev Val (v : ValueType) : Type := BitVec v.width

/-- The word a value is encoded as: bytes begin it, numbers end it, and the sign of a number
goes on to the left. -/
def word : (v : ValueType) → v.Val → BitVec 256
  | int _, x => x.signExtend 256
  | fixed _ _, x => x.signExtend 256
  | bytes n, x => x.setWidth 256 <<< (256 - 8 * (n.val + 1))
  | function, x => x.setWidth 256 <<< (256 - 192)
  | uint _, x => x.setWidth 256
  | ufixed _ _, x => x.setWidth 256
  | address, x => x.setWidth 256
  | bool, x => x.setWidth 256

/-- **What a value is to be answered with**: the bytes of an address, whether a truth value is
true, and of anything else the word. -/
def render : (v : ValueType) → v.Val → Text
  | address, x => "0x".toList ++ Text.hexOf 40 x.toNat
  | bool, x => if x.toNat = 1 then "true".toList else "false".toList
  | v, x => "0x".toList ++ Text.hexOf 64 (v.word x).toNat

end ValueType

/-- A type. An array of a fixed length is of at most so many elements as the decoder takes. -/
inductive AbiType where
  | value (v : ValueType)
  | string
  | bytes
  | array (t : AbiType) (count : Fin (Decode.maxArrayLen + 1))
  | slice (t : AbiType)
  | tuple (ts : List AbiType)

namespace AbiType

/-- Induction over a type, and over the members of a tuple. -/
theorem induct {P : AbiType → Prop} (value : ∀ v, P (.value v)) (string : P .string)
    (bytes : P .bytes) (array : ∀ t count, P t → P (.array t count))
    (slice : ∀ t, P t → P (.slice t)) (tuple : ∀ ts, (∀ t ∈ ts, P t) → P (.tuple ts)) :
    ∀ t, P t :=
  @AbiType.rec P (fun ts => ∀ t ∈ ts, P t) value string bytes array slice tuple (by simp)
    fun _ _ ht hts => List.forall_mem_cons.2 ⟨ht, hts⟩

mutual

/-- The text of a type. -/
def text : AbiType → Text
  | value v => v.text
  | string => "string".toList
  | bytes => "bytes".toList
  | array t count => t.text ++ '[' :: (Text.decimal count ++ [']'])
  | slice t => t.text ++ "[]".toList
  | tuple ts => '(' :: (textList ts ++ [')'])

/-- The types of the members, with commas between them. -/
def textList : List AbiType → Text
  | [] => []
  | [t] => t.text
  | t :: t' :: ts => t.text ++ ',' :: textList (t' :: ts)

end

theorem text_ne_nil (t : AbiType) : t.text ≠ [] := by
  cases t with
  | value v =>
    rw [text]
    exact v.text_ne_nil
  | string =>
    rw [text]
    decide
  | bytes =>
    rw [text]
    decide
  | array t count =>
    rw [text]
    exact List.append_ne_nil_of_right_ne_nil _ (List.cons_ne_nil _ _)
  | slice t =>
    rw [text]
    exact List.append_ne_nil_of_right_ne_nil _ (List.cons_ne_nil _ _)
  | tuple ts =>
    rw [text]
    exact List.cons_ne_nil _ _

mutual

/-- Whether values are not all of one length. -/
def isDynamic : AbiType → Bool
  | value _ => false
  | string => true
  | bytes => true
  | array t _ => t.isDynamic
  | slice _ => true
  | tuple ts => anyDynamic ts

def anyDynamic : List AbiType → Bool
  | [] => false
  | t :: ts => t.isDynamic || anyDynamic ts

end

/-- The value of a string, or of bytes. -/
structure ByteString where
  bytes : List (Fin 256)
  deriving DecidableEq, Repr

mutual

/-- The values of a type. -/
def Val : AbiType → Type
  | value v => v.Val
  | string => ByteString
  | bytes => ByteString
  | array t count => { vs : List t.Val // vs.length = count }
  | slice t => { vs : List t.Val // vs.length ≤ Decode.maxArrayLen }
  | tuple ts => Vals ts

/-- A value for each of the types. -/
def Vals : List AbiType → Type
  | [] => Unit
  | t :: ts => t.Val × Vals ts

end

/-- The mark of a place in the data: how many bytes it is away, in a word. -/
def offsetWord (pos : Nat) : Text := Text.hexOf 64 (pos / 2)

/-- The hex digits of some bytes. -/
def hexBytes (bytes : List (Fin 256)) : Text := bytes.flatMap fun b : Fin 256 => Text.hexOf 2 b.val

/-- Bytes, with zeros up to the end of a word. -/
def padded (bytes : List (Fin 256)) : Text :=
  hexBytes bytes ++ List.replicate ((64 - (hexBytes bytes).length % 64) % 64) '0'

/-- Parts one after the other, with their heads first. -/
def sequence (parts : List (HeadTail.Part Char)) : Text := HeadTail.layout 64 offsetWord parts

mutual

/-- **The standard encoding.** -/
def encode : (t : AbiType) → t.Val → Text
  | value v, x => Text.hexOf 64 (v.word x).toNat
  | string, s => Text.hexOf 64 s.bytes.length ++ padded s.bytes
  | bytes, s => Text.hexOf 64 s.bytes.length ++ padded s.bytes
  | array t _, vs => sequence (vs.1.map fun v => ⟨t.isDynamic, encode t v⟩)
  | slice t, vs =>
    Text.hexOf 64 vs.1.length ++ sequence (vs.1.map fun v => ⟨t.isDynamic, encode t v⟩)
  | tuple ts, vs => sequence (parts ts vs)

/-- The members of a tuple, as parts. -/
def parts : (ts : List AbiType) → Vals ts → List (HeadTail.Part Char)
  | [], _ => []
  | t :: ts, vs => ⟨t.isDynamic, encode t vs.1⟩ :: parts ts vs.2

end

theorem encode_tuple (ts : List AbiType) (vs : (tuple ts).Val) :
    encode (tuple ts) vs = sequence (parts ts vs) := by
  rw [encode]

mutual

/-- **The reference rendering**: a word, bytes, or an array of renderings. -/
def render : (t : AbiType) → t.Val → Text
  | value v, x => v.render x
  | string, s => "0x".toList ++ hexBytes s.bytes
  | bytes, s => "0x".toList ++ hexBytes s.bytes
  | array t _, vs => Decode.joinJsonArray (vs.1.map fun v => render t v)
  | slice t, vs => Decode.joinJsonArray (vs.1.map fun v => render t v)
  | tuple ts, vs => Decode.joinJsonArray (renderList ts vs)

/-- The renderings of the members. -/
def renderList : (ts : List AbiType) → Vals ts → List Text
  | [], _ => []
  | t :: ts, vs => render t vs.1 :: renderList ts vs.2

end

end AbiType

end Zponder

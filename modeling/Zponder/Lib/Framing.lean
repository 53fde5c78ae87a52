import Mathlib

/-!
# The base framing of RFC 6455

A frame is a message or a part of one, with an opcode and possibly a mask. Its bytes
(`Framing.Frame.bytes`) are a header of two bytes, the length of the payload in the shortest of
three ways, the mask, and the payload under it. Reading them (`Framing.decode`) refuses what is
not written so, and gives the frame back with the bytes behind it.
-/

namespace Framing

/-- Lengths are below this: in eight bytes, their first bit is not set. -/
def lengthBound : Nat := 2 ^ 63

/-! ### Numbers -/

/-- A number in `n` bytes, with the most significant one first. -/
def bigEndian : Nat → Nat → List UInt8
  | 0, _ => []
  | n + 1, v => bigEndian n (v / 256) ++ [UInt8.ofNat v]

/-- The number that is written so. -/
def ofBigEndian (bytes : List UInt8) : Nat :=
  bytes.foldl (fun v b => 256 * v + b.toNat) 0

@[simp] theorem length_bigEndian (n v : Nat) : (bigEndian n v).length = n := by
  induction n generalizing v with
  | zero => rfl
  | succ n ih => rw [bigEndian, List.length_append, ih, List.length_singleton]

theorem ofBigEndian_append (bytes : List UInt8) (b : UInt8) :
    ofBigEndian (bytes ++ [b]) = 256 * ofBigEndian bytes + b.toNat := by
  rw [ofBigEndian, List.foldl_append]
  rfl

/-- **A number that fits comes back.** -/
theorem ofBigEndian_bigEndian {n v : Nat} (h : v < 256 ^ n) : ofBigEndian (bigEndian n v) = v := by
  induction n generalizing v with
  | zero =>
    rw [Nat.pow_zero] at h
    obtain rfl : v = 0 := by omega
    rfl
  | succ n ih =>
    rw [Nat.pow_succ] at h
    rw [bigEndian, ofBigEndian_append, ih (by omega), UInt8.toNat_ofNat']
    omega

/-! ### Masks -/

/-- The byte of a mask whose turn it is. -/
def maskTurn (i : Nat) : Fin 4 := Fin.ofNat 4 i

/-- A payload under a mask. -/
def applyMask (mask : Fin 4 → UInt8) (payload : List UInt8) : List UInt8 :=
  payload.mapIdx fun i b => b ^^^ mask (maskTurn i)

@[simp] theorem length_applyMask (mask : Fin 4 → UInt8) (payload : List UInt8) :
    (applyMask mask payload).length = payload.length := List.length_mapIdx

/-- **A mask takes itself off.** -/
theorem applyMask_applyMask (mask : Fin 4 → UInt8) (payload : List UInt8) :
    applyMask mask (applyMask mask payload) = payload := by
  refine List.ext_getElem (by simp) fun i hi hi' => ?_
  simp only [applyMask, List.getElem_mapIdx]
  rw [UInt8.xor_assoc, UInt8.xor_self, UInt8.xor_zero]

/-! ### Frames -/

/-- The opcode in the four low bits of a number. -/
def opcodeOf (n : Nat) : Fin 16 := Fin.ofNat 16 n

/-- A frame without extensions. -/
structure Frame where
  fin : Bool
  opcode : Fin 16
  mask : Option (Fin 4 → UInt8)
  payload : List UInt8

/-- The byte of the opcode, with the bit of the last frame of a message. -/
def firstByte (opcode : Fin 16) (fin : Bool) : UInt8 :=
  UInt8.ofNat (opcode.val + if fin then 128 else 0)

/-- The byte of the short length, with the bit of the mask. -/
def secondByte (len7 : Nat) (masked : Bool) : UInt8 :=
  UInt8.ofNat (len7 + if masked then 128 else 0)

/-- The short length. -/
def shortLength (n : Nat) : Nat := if n ≤ 125 then n else if n ≤ 0xffff then 126 else 127

/-- The bytes of a length that the short one has no room for. -/
def lengthBytes (n : Nat) : List UInt8 :=
  if n ≤ 125 then [] else if n ≤ 0xffff then bigEndian 2 n else bigEndian 8 n

def maskBytes : Option (Fin 4 → UInt8) → List UInt8
  | none => []
  | some mask => List.ofFn mask

/-- The payload as it is sent. -/
def Frame.sealed (f : Frame) : List UInt8 :=
  match f.mask with
  | none => f.payload
  | some mask => applyMask mask f.payload

/-- What comes before the payload. -/
def Frame.header (f : Frame) : List UInt8 :=
  firstByte f.opcode f.fin :: secondByte (shortLength f.payload.length) f.mask.isSome ::
    (lengthBytes f.payload.length ++ maskBytes f.mask)

/-- The bytes of a frame. -/
def Frame.bytes (f : Frame) : List UInt8 := f.header ++ f.sealed

/-- The length, read in the way that the short one names. It is refused if a shorter way was
there, or if its first bit is set. -/
def decodeLength (len7 : Nat) (bytes : List UInt8) : Option (Nat × List UInt8) :=
  if len7 ≤ 125 then some (len7, bytes)
  else
    let width := if len7 = 126 then 2 else 8
    let n := ofBigEndian (bytes.take width)
    let least := if len7 = 126 then 126 else 0x10000
    if width ≤ bytes.length ∧ least ≤ n ∧ n < lengthBound then some (n, bytes.drop width) else none

/-- The mask, if there is one. -/
def decodeMask (masked : Bool) (bytes : List UInt8) :
    Option (Option (Fin 4 → UInt8) × List UInt8) :=
  if masked then
    match bytes with
    | a :: b :: c :: d :: rest => some (some ![a, b, c, d], rest)
    | _ => none
  else some (none, bytes)

/-- Reads one frame, and gives what is behind it. -/
def decode : List UInt8 → Option (Frame × List UInt8)
  | first :: second :: rest =>
    if first.toNat / 16 % 8 ≠ 0 then none
    else do
      let (n, rest) ← decodeLength (second.toNat % 128) rest
      let (mask, rest) ← decodeMask (128 ≤ second.toNat) rest
      if rest.length < n then none
      else
        let payload := match mask with
          | none => rest.take n
          | some mask => applyMask mask (rest.take n)
        some (⟨128 ≤ first.toNat, opcodeOf first.toNat, mask, payload⟩, rest.drop n)
  | _ => none

@[simp] theorem length_sealed (f : Frame) : f.sealed.length = f.payload.length := by
  rcases f with ⟨fin, opcode, _ | mask, payload⟩
  · rfl
  · exact length_applyMask mask payload

theorem toNat_firstByte (opcode : Fin 16) (fin : Bool) :
    (firstByte opcode fin).toNat = opcode.val + if fin then 128 else 0 := by
  have h := opcode.isLt
  refine UInt8.toNat_ofNat_of_lt' ?_
  show _ < 256
  split <;> omega

theorem shortLength_lt (n : Nat) : shortLength n < 128 := by
  unfold shortLength
  split
  · omega
  · split <;> omega

theorem toNat_secondByte {len7 : Nat} (h : len7 < 128) (masked : Bool) :
    (secondByte len7 masked).toNat = len7 + if masked then 128 else 0 := by
  refine UInt8.toNat_ofNat_of_lt' ?_
  show _ < 256
  split <;> omega

/-- **The length comes back**, whichever of the three ways it was written in. -/
theorem decodeLength_lengthBytes {n : Nat} (h : n < lengthBound) (rest : List UInt8) :
    decodeLength (shortLength n) (lengthBytes n ++ rest) = some (n, rest) := by
  unfold lengthBytes shortLength decodeLength
  by_cases hshort : n ≤ 125
  · rw [if_pos hshort, if_pos hshort, if_pos hshort]
    rfl
  rw [if_neg hshort, if_neg hshort]
  by_cases hlong : n ≤ 0xffff
  · rw [if_pos hlong, if_pos hlong, if_neg (by decide)]
    have hn : ofBigEndian (bigEndian 2 n) = n := ofBigEndian_bigEndian (by omega)
    simp only [if_pos, List.take_left' (length_bigEndian 2 n),
      List.drop_left' (length_bigEndian 2 n), hn]
    rw [if_pos ⟨by simp, by omega, h⟩]
  · rw [if_neg hlong, if_neg hlong, if_neg (by decide)]
    have hn : ofBigEndian (bigEndian 8 n) = n :=
      ofBigEndian_bigEndian (h.trans_le (by decide))
    simp only [if_neg (show ¬127 = 126 by decide), List.take_left' (length_bigEndian 8 n),
      List.drop_left' (length_bigEndian 8 n), hn]
    rw [if_pos ⟨by simp, by omega, h⟩]

theorem decodeMask_maskBytes (mask : Option (Fin 4 → UInt8)) (rest : List UInt8) :
    decodeMask mask.isSome (maskBytes mask ++ rest) = some (mask, rest) := by
  rcases mask with _ | mask
  · rfl
  · have hmask : ![mask 0, mask 1, mask 2, mask 3] = mask := by
      ext i
      fin_cases i <;> rfl
    simpa [maskBytes, decodeMask, List.ofFn_succ] using hmask

/-- **A frame comes back from its bytes**, and what is behind it is left. -/
theorem decode_bytes (f : Frame) (h : f.payload.length < lengthBound) (rest : List UInt8) :
    decode (f.bytes ++ rest) = some (f, rest) := by
  have hfirst := toNat_firstByte f.opcode f.fin
  have hsecond := toNat_secondByte (shortLength_lt f.payload.length) f.mask.isSome
  have hshort := shortLength_lt f.payload.length
  have hop := f.opcode.isLt
  have hreserved : (firstByte f.opcode f.fin).toNat / 16 % 8 = 0 := by
    rw [hfirst]
    split <;> omega
  have hlen7 : (secondByte (shortLength f.payload.length) f.mask.isSome).toNat % 128 =
      shortLength f.payload.length := by
    rw [hsecond]
    split <;> omega
  have hmasked : (decide (128 ≤ (secondByte (shortLength f.payload.length) f.mask.isSome).toNat)) =
      f.mask.isSome := by
    rw [hsecond]
    rcases f.mask with _ | mask
    · simpa using hshort
    · simp
  have hfin : decide (128 ≤ (firstByte f.opcode f.fin).toNat) = f.fin := by
    rw [hfirst]
    rcases f.fin with _ | _
    · simp
      omega
    · simp
  have hopcode : opcodeOf (firstByte f.opcode f.fin).toNat = f.opcode := by
    rw [hfirst]
    ext
    show (_ : Nat) % 16 = _
    split <;> omega
  rw [Frame.bytes, Frame.header, List.append_assoc, List.cons_append, List.cons_append,
    List.append_assoc, decode, if_neg (not_not.2 hreserved), hlen7,
    decodeLength_lengthBytes h, Option.bind_eq_bind, Option.bind_some]
  dsimp only
  rw [hmasked, decodeMask_maskBytes, Option.bind_eq_bind, Option.bind_some]
  dsimp only
  rw [if_neg (by simp), hfin, hopcode, List.take_left' (length_sealed f),
    List.drop_left' (length_sealed f)]
  rcases f with ⟨fin, opcode, _ | mask, payload⟩
  · rfl
  · simp only [Frame.sealed, applyMask_applyMask]

/-- The bytes are these frames, one behind the other. -/
def Decodes : List UInt8 → List Frame → Prop
  | bytes, [] => bytes = []
  | bytes, f :: fs => ∃ rest, decode bytes = some (f, rest) ∧ Decodes rest fs

/-- **Frames that are sent one behind the other are read one behind the other.** -/
theorem decodes_flatMap {fs : List Frame} (h : ∀ f ∈ fs, f.payload.length < lengthBound) :
    Decodes (fs.flatMap Frame.bytes) fs := by
  induction fs with
  | nil => rfl
  | cons f fs ih =>
    obtain ⟨hf, hfs⟩ := List.forall_mem_cons.1 h
    rw [List.flatMap_cons]
    exact ⟨_, decode_bytes f hf _, ih hfs⟩

end Framing

import Zponder.Spans
import Zponder.Lib.Checked
import Zponder.Lib.Exits
import Zponder.Lib.Framing

/-!
# The frames of the live subscription

The live session writes its frames by itself into a buffer, and reads what the server sends
out of the read buffer of its connection.

What is written is a frame of a client whatever its length is
(`Zponder.WsFrame.encodeMaskedFrame_eq`). What is read is asked for in one piece, and the reader
has no answer to a piece that its buffer has no room for. So the messages are delivered and
the pings are answered if and only if no payload is larger than the read buffer
(`Zponder.WsFrame.frames_iff`).
-/

namespace Zponder.WsFrame

open Exits Framing

/-! ### Writing -/

/-- `Opcode` -/
abbrev Opcode := Fin 16

def Opcode.text : Opcode := opcodeOf 1

def Opcode.binary : Opcode := opcodeOf 2

def Opcode.connectionClose : Opcode := opcodeOf 8

def Opcode.ping : Opcode := opcodeOf 9

def Opcode.pong : Opcode := opcodeOf 10

/-- The four bytes of a mask. -/
abbrev Mask := Fin 4 → UInt8

inductive WsError where
  | bufferTooSmall
  | closed
  | endOfStream
  | unexpectedServerMask
  | messageOversize
  | fragmentedNotSupported
  | unexpectedOpCode
  deriving DecidableEq, Repr

/-- `Header0`: the opcode in the four low bits, three reserved bits, and `fin`. -/
def header0 (opcode : Opcode) (fin : Bool) : UInt8 :=
  UInt8.ofNat (opcode.val + if fin then 128 else 0)

/-- `Header1`: the length in seven bits, and `mask`. -/
def header1 (payloadLen : Nat) (mask : Bool) : UInt8 :=
  UInt8.ofNat (payloadLen + if mask then 128 else 0)

/-- `std.mem.writeInt`, with `.big` -/
def writeInt (bytes v : Nat) : List UInt8 := Framing.bigEndian bytes v

/-- `maskPayload` -/
def maskPayload (mask : Mask) (payload : List UInt8) : List UInt8 :=
  payload.mapIdx fun i b => b ^^^ mask (maskTurn i)

/-- The length in `encodeMaskedFrame`, behind the first byte: where the mask goes, and the
buffer. -/
def writeLength (len : Nat) (out : List UInt8) : Run WsError (Nat × List UInt8) := do
  if len ≤ 125 then
    let short ← checked (Checked.intCast 127 len)
    let out ← checked (Checked.copy out 1 2 [header1 short true])
    return (2, out)
  else if len ≤ 0xffff then
    let need ← checked (Checked.add u64Max (1 + 1 + 2 + 4) len)
    if out.length < need then throw .bufferTooSmall
    let out ← checked (Checked.copy out 1 2 [header1 126 true])
    let len16 ← checked (Checked.intCast 0xffff len)
    let out ← checked (Checked.copy out 2 4 (writeInt 2 len16))
    return (4, out)
  else
    let need ← checked (Checked.add u64Max (1 + 1 + 8 + 4) len)
    if out.length < need then throw .bufferTooSmall
    let out ← checked (Checked.copy out 1 2 [header1 127 true])
    let out ← checked (Checked.copy out 2 10 (writeInt 8 len))
    return (10, out)

/-- The mask and the payload in `encodeMaskedFrame`: the number of bytes, and the buffer. -/
def writeMasked (payload : List UInt8) (mask : Mask) (i : Nat) (out : List UInt8) :
    Run WsError (Nat × List UInt8) := do
  let len := payload.length
  let need ← checked (Checked.add u64Max (i + 4) len)
  if out.length < need then throw .bufferTooSmall
  let out ← checked (Checked.copy out i (i + 4) (List.ofFn mask))
  let i := i + 4
  let out ← checked (Checked.copy out i (i + len) payload)
  let copied ← checked (Checked.slice out i (i + len))
  let out ← checked (Checked.copy out i (i + len) (maskPayload mask copied))
  return (i + len, out)

/-- `encodeMaskedFrame`: the number of bytes, and the buffer. -/
def encodeMaskedFrame (op : Opcode) (payload : List UInt8) (mask : Mask) (out : List UInt8) :
    Run WsError (Nat × List UInt8) := do
  if out.length < 2 then throw .bufferTooSmall
  let out ← checked (Checked.copy out 0 1 [header0 op true])
  let (i, out) ← writeLength payload.length out
  writeMasked payload mask i out

/-- The frame that is meant. -/
def clientFrame (op : Opcode) (payload : List UInt8) (mask : Mask) : Framing.Frame :=
  ⟨true, op, some mask, payload⟩

/-! ### What is written is the frame -/

theorem maskPayload_eq (mask : Mask) (payload : List UInt8) :
    maskPayload mask payload = Framing.applyMask mask payload := rfl

/-- **The mask and the payload**, behind what is written, if there is room for them. -/
theorem writeMasked_eq {payload : List UInt8} (hlen : payload.length < Framing.lengthBound)
    (mask : Mask) {written out : List UInt8} {i : Nat} (hi : written.length = i) (hi' : i ≤ 10)
    (hout : i ≤ out.length) :
    writeMasked payload mask i (written ++ out.drop i) =
      if out.length < i + 4 + payload.length then throw .bufferTooSmall
      else pure (i + 4 + payload.length,
        (written ++ (List.ofFn mask ++ Framing.applyMask mask payload)) ++
          out.drop (i + 4 + payload.length)) := by
  have hbound : Framing.lengthBound + 20 ≤ u64Max := by decide
  have hlength : (written ++ out.drop i).length = out.length := by
    rw [List.length_append, List.length_drop]
    omega
  unfold writeMasked
  dsimp only
  rw [Checked.add_of_le (by omega), checked_some, pure_bind, hlength]
  split
  · rfl
  next hroom =>
  have hmask : (List.ofFn mask).length = 4 := List.length_ofFn
  have hfront := Checked.copy_front (List.ofFn mask) out hi (by omega)
  rw [hmask] at hfront
  rw [hfront, checked_some, pure_bind]
  have hwritten : (written ++ List.ofFn mask).length = i + 4 := by
    rw [List.length_append, hmask, hi]
  rw [Checked.copy_front _ _ hwritten (by omega), checked_some, pure_bind]
  have hcopied : Checked.slice ((written ++ List.ofFn mask ++ payload) ++
      out.drop (i + 4 + payload.length)) (i + 4) (i + 4 + payload.length) = some payload := by
    rw [Checked.slice_of_le (Nat.le_add_right _ _) (by simp; omega), List.append_assoc,
      List.drop_left' hwritten, Nat.add_sub_cancel_left, List.take_left]
  rw [hcopied, checked_some, pure_bind, maskPayload_eq]
  have hsealed : Checked.copy ((written ++ List.ofFn mask ++ payload) ++
      out.drop (i + 4 + payload.length)) (i + 4) (i + 4 + payload.length)
      (Framing.applyMask mask payload) =
      some ((written ++ (List.ofFn mask ++ Framing.applyMask mask payload)) ++
        out.drop (i + 4 + payload.length)) := by
    rw [Checked.copy_of_le (Nat.le_add_right _ _) (by simp; omega) (by simp)]
    have hend : (written ++ List.ofFn mask ++ payload).length = i + 4 + payload.length := by
      rw [List.length_append, hwritten]
    rw [List.drop_left' hend, List.append_assoc, List.take_left' hwritten]
    simp only [List.append_assoc]
  rw [hsealed, checked_some, pure_bind]

/-- What comes behind the first byte of a frame with a mask, up to the mask. -/
def lengthPart (n : Nat) : List UInt8 :=
  Framing.secondByte (Framing.shortLength n) true :: Framing.lengthBytes n

theorem length_lengthPart (n : Nat) : (lengthPart n).length =
    if n ≤ 125 then 1 else if n ≤ 0xffff then 3 else 9 := by
  unfold lengthPart Framing.lengthBytes
  split
  · rfl
  · split <;> simp

theorem copy_writeInt (b c : UInt8) {w : Nat} (n : Nat) {out : List UInt8}
    (hroom : 2 + w ≤ out.length) :
    Checked.copy ([b, c] ++ out.drop 2) 2 (2 + w) (writeInt w n) =
      some (([b, c] ++ writeInt w n) ++ out.drop (2 + w)) := by
  have hlength : (writeInt w n).length = w := Framing.length_bigEndian w n
  have hcopy := Checked.copy_front (writeInt w n) out (show [b, c].length = 2 from rfl)
    (by omega)
  rwa [hlength] at hcopy

/-- **The length**, behind the first byte. A long one needs the room of the whole frame. -/
theorem writeLength_eq {n : Nat} (hlen : n < Framing.lengthBound) {b : UInt8} {out : List UInt8}
    (hout : 2 ≤ out.length) :
    writeLength n (b :: out.drop 1) =
      if 125 < n ∧ out.length < 1 + (lengthPart n).length + 4 + n then throw .bufferTooSmall
      else pure (1 + (lengthPart n).length,
        (b :: lengthPart n) ++ out.drop (1 + (lengthPart n).length)) := by
  have hbound : Framing.lengthBound + 20 ≤ u64Max := by decide
  have hlength : (b :: out.drop 1).length = out.length := by
    rw [List.length_cons, List.length_drop]
    omega
  have hsecond (c : UInt8) : Checked.copy (b :: out.drop 1) 1 2 [c] =
      some ([b, c] ++ out.drop 2) :=
    Checked.copy_front [c] out (show [b].length = 1 from rfl) (by simpa using hout)
  have hpart := length_lengthPart n
  unfold writeLength
  rcases Nat.lt_or_ge 125 n with hlong | hshort
  swap
  · rw [if_pos hshort] at hpart ⊢
    rw [Checked.intCast_of_le (by omega), checked_some, pure_bind, hsecond, checked_some,
      pure_bind, if_neg (fun h => absurd h.1 (by omega)), hpart]
    simp [lengthPart, Framing.lengthBytes, Framing.shortLength, hshort, header1,
      Framing.secondByte]
  rw [if_neg (Nat.not_le.2 hlong)] at hpart ⊢
  rcases Nat.lt_or_ge 0xffff n with hwide | hnarrow
  · rw [if_neg (Nat.not_le.2 hwide)] at hpart ⊢
    rw [Checked.add_of_le (by omega), checked_some, pure_bind, hlength, hpart]
    by_cases hroom : out.length < 1 + 9 + 4 + n
    · rw [if_pos (by omega), if_pos ⟨hlong, hroom⟩]
      rfl
    have hcopy : Checked.copy ([b, header1 127 true] ++ out.drop 2) 2 10 (writeInt 8 n) =
        some (([b, header1 127 true] ++ writeInt 8 n) ++ out.drop 10) :=
      copy_writeInt (w := 8) b _ n (by omega)
    rw [if_neg (by omega), if_neg (fun h => hroom h.2)]
    simp only [hsecond, checked_some, pure_bind, hcopy]
    simp [lengthPart, Framing.lengthBytes, Framing.shortLength, Nat.not_le.2 hlong,
      Nat.not_le.2 hwide, header1, Framing.secondByte, writeInt]
  · rw [if_pos hnarrow] at hpart ⊢
    rw [Checked.add_of_le (by omega), checked_some, pure_bind, hlength, hpart]
    by_cases hroom : out.length < 1 + 3 + 4 + n
    · rw [if_pos (by omega), if_pos ⟨hlong, hroom⟩]
      rfl
    have hcopy : Checked.copy ([b, header1 126 true] ++ out.drop 2) 2 4 (writeInt 2 n) =
        some (([b, header1 126 true] ++ writeInt 2 n) ++ out.drop 4) :=
      copy_writeInt (w := 2) b _ n (by omega)
    rw [if_neg (by omega), if_neg (fun h => hroom h.2)]
    simp only [hsecond, checked_some, pure_bind, Checked.intCast_of_le hnarrow, hcopy]
    simp [lengthPart, Framing.lengthBytes, Framing.shortLength, Nat.not_le.2 hlong,
      hnarrow, header1, Framing.secondByte, writeInt]

theorem bytes_clientFrame (op : Opcode) (payload : List UInt8) (mask : Mask) :
    (clientFrame op payload mask).bytes = (header0 op true :: lengthPart payload.length) ++
      (List.ofFn mask ++ Framing.applyMask mask payload) := by
  simp only [clientFrame, Framing.Frame.bytes, Framing.Frame.header, lengthPart,
    Framing.maskBytes, Framing.Frame.sealed, List.cons_append, List.append_assoc]
  rfl

/-- **What `encodeMaskedFrame` writes is the frame**, of whatever length, at the front of the
buffer, and it fails only if the frame is longer than the buffer. -/
theorem encodeMaskedFrame_eq (op : Opcode) {payload : List UInt8}
    (hlen : payload.length < Framing.lengthBound) (mask : Mask) (out : List UInt8) :
    encodeMaskedFrame op payload mask out =
      if out.length < (clientFrame op payload mask).bytes.length then throw .bufferTooSmall
      else pure ((clientFrame op payload mask).bytes.length,
        (clientFrame op payload mask).bytes ++
          out.drop (clientFrame op payload mask).bytes.length) := by
  have hlength : (clientFrame op payload mask).bytes.length =
      1 + (lengthPart payload.length).length + 4 + payload.length := by
    rw [bytes_clientFrame]
    simp only [List.length_append, List.length_cons, List.length_ofFn, Framing.length_applyMask]
    omega
  have hpart := length_lengthPart payload.length
  have hpart' : 1 ≤ (lengthPart payload.length).length ∧
      (lengthPart payload.length).length ≤ 9 := by
    rw [hpart]
    split
    · omega
    · split <;> omega
  unfold encodeMaskedFrame
  rcases Nat.lt_or_ge out.length 2 with hshort | hout
  · rw [if_pos hshort, if_pos (by omega)]
    rfl
  have hfirst := Checked.copy_front [header0 op true] out (List.length_nil (α := UInt8))
    (by simp; omega)
  simp only [List.drop_zero, List.nil_append, List.length_singleton, Nat.zero_add] at hfirst
  rw [if_neg (Nat.not_lt.2 hout), hfirst, checked_some, pure_bind, List.singleton_append,
    writeLength_eq hlen hout]
  split
  · next hroom =>
    rw [if_pos (by omega)]
    rfl
  · next hroom =>
    rw [pure_bind]
    dsimp only
    rw [writeMasked_eq hlen mask (by simp; omega) (by omega) (by
      by_cases hlong : 125 < payload.length
      · omega
      · rw [if_pos (by omega)] at hpart
        omega), hlength, bytes_clientFrame]

/-! ### Reading -/

/-- A connection, with the room its read buffer has, and what its session gets from elsewhere:
the masks it draws, what is in a buffer that is new, and whether it has been told to close. -/
structure Connection where
  capacity : Nat
  capacity_pos : 0 < capacity
  random : Nat → Mask
  junk : UInt8
  closing : Nat → Bool

/-- `Session`, as far as the frames go. -/
structure Session where
  /-- What the server has sent and nobody has read. -/
  input : List UInt8
  /-- What was sent to the server. -/
  output : List UInt8
  /-- How many masks were drawn. -/
  draws : Nat
  /-- How often `closing` was looked at. -/
  loads : Nat

/-- `Reader.take`: nothing is said of a piece that is larger than the buffer. -/
def take (capacity n : Nat) (input : List UInt8) : Run WsError (List UInt8 × List UInt8) :=
  if capacity < n then trap
  else if input.length < n then throw .endOfStream
  else pure (input.take n, input.drop n)

/-- `Reader.takeByte` and `Reader.takeInt` -/
def takeInt (capacity bytes : Nat) (input : List UInt8) : Run WsError (Nat × List UInt8) := do
  let (got, input) ← take capacity bytes input
  return (ofBigEndian got, input)

/-- A frame as it is received. -/
structure Received where
  opcode : Opcode
  fin : Bool
  payload : List UInt8

/-- The length in `readFramePayload`. -/
def readLength (capacity len7 : Nat) (input : List UInt8) : Run WsError (Nat × List UInt8) := do
  if len7 = 126 then takeInt capacity 2 input
  else if len7 = 127 then
    let (n, input) ← takeInt capacity 8 input
    if n ≤ u64Max then return (n, input) else throw .messageOversize
  else return (len7, input)

/-- The payload in `readFramePayload`: in one piece, if there is any. -/
def readPayload (capacity len : Nat) (input : List UInt8) :
    Run WsError (List UInt8 × List UInt8) :=
  if 0 < len then take capacity len input else pure ([], input)

/-- The frame in `readFramePayload`, up to the switch. -/
def receive (capacity : Nat) (input : List UInt8) : Run WsError (Received × List UInt8) := do
  let (h0, input) ← takeInt capacity 1 input
  let (h1, input) ← takeInt capacity 1 input
  if 128 ≤ h1 then throw .unexpectedServerMask
  let (len, input) ← readLength capacity (h1 % 128) input
  let (payload, input) ← readPayload capacity len input
  return (⟨opcodeOf h0, 128 ≤ h0, payload⟩, input)

/-- How a call of `readFramePayload` ends: with a message, with an error, or without anything
that can be said. -/
inductive Read where
  | message (opcode : Opcode) (data : List UInt8) (s : Session)
  | failed (e : WsError) (s : Session)
  | undefined

/-- A turn of the loop of `readFramePayload`. -/
inductive Turn where
  | again (s : Session)
  | done (r : Read)

/-- The answer to a ping: the bytes that are sent. -/
def answerPing (conn : Connection) (draws : Nat) (payload : List UInt8) :
    Run WsError (List UInt8) := do
  let buf := List.replicate (2 + 8 + 4 + payload.length) conn.junk
  let (n, buf) ← encodeMaskedFrame Opcode.pong payload (conn.random draws) buf
  checked (Checked.slice buf 0 n)

/-- The switch in `readFramePayload`. -/
def dispatch (conn : Connection) (s : Session) (f : Received) : Turn :=
  if f.opcode = Opcode.ping then
    match (answerPing conn s.draws f.payload).run with
    | some (.ok sent) => .again { s with output := s.output ++ sent, draws := s.draws + 1 }
    | some (.error e) => .done (.failed e s)
    | none => .done .undefined
  else if f.opcode = Opcode.pong then .again s
  else if f.opcode = Opcode.connectionClose then .done (.failed .closed s)
  else if f.opcode = Opcode.text ∨ f.opcode = Opcode.binary then
    if f.fin then .done (.message f.opcode f.payload s)
    else .done (.failed .fragmentedNotSupported s)
  else .done (.failed .unexpectedOpCode s)

/-- One turn: whether to close, the frame, the switch. -/
def turn (conn : Connection) (s : Session) : Turn :=
  if conn.closing s.loads then .done (.failed .closed s)
  else
    match (receive conn.capacity s.input).run with
    | some (.ok (f, input)) => dispatch conn { s with input, loads := s.loads + 1 } f
    | some (.error e) => .done (.failed e s)
    | none => .done .undefined

theorem gives_take {capacity n : Nat} {input got rest : List UInt8} :
    Gives (take capacity n input) (got, rest) ↔
      n ≤ capacity ∧ n ≤ input.length ∧ got = input.take n ∧ rest = input.drop n := by
  unfold take
  split
  · next h => simp only [not_gives_trap, false_iff]; omega
  · split
    · next h => simp only [not_gives_throw, false_iff]; omega
    · next h h' =>
      rw [gives_pure, Prod.mk.injEq]
      constructor
      · rintro ⟨rfl, rfl⟩
        exact ⟨by omega, by omega, rfl, rfl⟩
      · rintro ⟨-, -, rfl, rfl⟩
        exact ⟨rfl, rfl⟩

theorem length_le_of_gives_take {capacity n : Nat} {input got rest : List UInt8}
    (h : Gives (take capacity n input) (got, rest)) : rest.length + n = input.length := by
  obtain ⟨-, hn, -, rfl⟩ := gives_take.1 h
  rw [List.length_drop]
  omega

theorem length_of_gives_takeInt {capacity n v : Nat} {input rest : List UInt8}
    (h : Gives (takeInt capacity n input) (v, rest)) : rest.length + n = input.length := by
  obtain ⟨⟨got, rest'⟩, htake, h⟩ := gives_bind.1 h
  obtain ⟨-, rfl⟩ := Prod.mk.inj (gives_pure.1 h)
  exact length_le_of_gives_take htake

theorem length_of_gives_readLength {capacity n v : Nat} {input rest : List UInt8}
    (h : Gives (readLength capacity n input) (v, rest)) : rest.length ≤ input.length := by
  unfold readLength at h
  split at h
  · have := length_of_gives_takeInt h
    omega
  split at h
  · obtain ⟨⟨m, rest'⟩, htake, h⟩ := gives_bind.1 h
    have := length_of_gives_takeInt htake
    dsimp only at h
    split at h
    · obtain ⟨-, rfl⟩ := Prod.mk.inj (gives_pure.1 h)
      omega
    · exact absurd h (not_gives_throw _)
  · obtain ⟨-, rfl⟩ := Prod.mk.inj (gives_pure.1 h)
    exact le_rfl

/-- **A frame takes something away**: its first two bytes. -/
theorem length_lt_of_gives_receive {capacity : Nat} {input rest : List UInt8} {f : Received}
    (h : Gives (receive capacity input) (f, rest)) : rest.length < input.length := by
  obtain ⟨⟨h0, rest₀⟩, htake₀, h⟩ := gives_bind.1 h
  obtain ⟨⟨h1, rest₁⟩, htake₁, h⟩ := gives_bind.1 h
  have hlen₀ := length_of_gives_takeInt htake₀
  have hlen₁ := length_of_gives_takeInt htake₁
  dsimp only at h
  split at h
  · exact absurd h (not_gives_throw _)
  obtain ⟨⟨len, rest₂⟩, hlen, h⟩ := gives_bind.1 h
  have hlen₂ := length_of_gives_readLength hlen
  obtain ⟨⟨payload, rest₃⟩, hpayload, h⟩ := gives_bind.1 h
  obtain ⟨-, rfl⟩ := Prod.mk.inj (gives_pure.1 h)
  unfold readPayload at hpayload
  show rest₃.length < input.length
  split at hpayload
  · have := length_le_of_gives_take hpayload
    dsimp only at this
    omega
  · obtain ⟨-, rfl⟩ := Prod.mk.inj (gives_pure.1 hpayload)
    dsimp only
    omega

/-- What a turn leaves to the next one is shorter. -/
theorem turn_lt {conn : Connection} {s t : Session} (h : turn conn s = .again t) :
    t.input.length < s.input.length := by
  unfold turn at h
  split at h
  · cases h
  split at h
  · next f input hreceive =>
    have hlt := length_lt_of_gives_receive hreceive
    unfold dispatch at h
    split at h
    · split at h
      · obtain rfl := Turn.again.inj h
        exact hlt
      · cases h
      · cases h
    split at h
    · obtain rfl := Turn.again.inj h
      exact hlt
    split at h
    · cases h
    split at h
    · split at h <;> cases h
    · cases h
  · cases h
  · cases h

/-- And so is what a turn leaves to the next call. -/
theorem turn_message_lt {conn : Connection} {s t : Session} {opcode : Opcode} {data : List UInt8}
    (h : turn conn s = .done (.message opcode data t)) : t.input.length < s.input.length := by
  unfold turn at h
  split at h
  · cases h
  split at h
  · next f input hreceive =>
    have hlt := length_lt_of_gives_receive hreceive
    unfold dispatch at h
    split at h
    · split at h <;> cases h
    split at h
    · cases h
    split at h
    · cases h
    split at h
    · split at h
      · obtain ⟨-, -, rfl⟩ := Read.message.inj (Turn.done.inj h)
        exact hlt
      · cases h
    · cases h
  · cases h
  · cases h

/-- `readFramePayload` -/
def readFramePayload (conn : Connection) (s : Session) : Read :=
  match _h : turn conn s with
  | .again t => readFramePayload conn t
  | .done r => r
termination_by s.input.length
decreasing_by exact turn_lt _h

theorem readFramePayload_again {conn : Connection} {s t : Session} (h : turn conn s = .again t) :
    readFramePayload conn s = readFramePayload conn t := by
  rw [readFramePayload]
  split
  · next t' h' =>
    obtain rfl := Turn.again.inj (h.symm.trans h')
    rfl
  · next r h' => cases h.symm.trans h'

theorem readFramePayload_done {conn : Connection} {s : Session} {r : Read}
    (h : turn conn s = .done r) : readFramePayload conn s = r := by
  rw [readFramePayload]
  split
  · next t h' => cases h.symm.trans h'
  · next r' h' => exact Turn.done.inj (h'.symm.trans h)

theorem readFramePayload_lt {conn : Connection} {s t : Session} {opcode : Opcode}
    {data : List UInt8} (h : readFramePayload conn s = .message opcode data t) :
    t.input.length < s.input.length := by
  fun_induction readFramePayload conn s with
  | case1 s t' hturn ih => exact (ih h).trans (turn_lt hturn)
  | case2 s r hturn =>
    subst h
    exact turn_message_lt hturn

/-- How the reading ends. -/
inductive Ending where
  | failed (e : WsError)
  | undefined
  deriving DecidableEq, Repr

/-- What comes of reading until there is nothing to be read any more: the messages, what was sent
to the server, and how it ended. -/
structure Heard where
  delivered : List (Opcode × List UInt8)
  sent : List UInt8
  ending : Ending

/-- A message, and what comes after it. -/
def Heard.after (m : Opcode × List UInt8) (h : Heard) : Heard :=
  { h with delivered := m :: h.delivered }

/-- The loop of the live session: one frame after the other. -/
def listen (conn : Connection) (s : Session) : Heard :=
  match _h : readFramePayload conn s with
  | .message opcode data t => (listen conn t).after (opcode, data)
  | .failed e t => ⟨[], t.output, .failed e⟩
  | .undefined => ⟨[], [], .undefined⟩
termination_by s.input.length
decreasing_by exact readFramePayload_lt _h

theorem listen_again {conn : Connection} {s t : Session} (h : turn conn s = .again t) :
    listen conn s = listen conn t := by
  rw [listen, listen, readFramePayload_again h]

theorem listen_message {conn : Connection} {s t : Session} {opcode : Opcode} {data : List UInt8}
    (h : turn conn s = .done (.message opcode data t)) :
    listen conn s = (listen conn t).after (opcode, data) := by
  rw [listen]
  have hread := readFramePayload_done h
  split
  · next opcode' data' t' h' =>
    obtain ⟨rfl, rfl, rfl⟩ := Read.message.inj (h'.symm.trans hread)
    rfl
  · next h' => cases h'.symm.trans hread
  · next h' => cases h'.symm.trans hread

theorem listen_failed {conn : Connection} {s t : Session} {e : WsError}
    (h : turn conn s = .done (.failed e t)) : listen conn s = ⟨[], t.output, .failed e⟩ := by
  rw [listen]
  have hread := readFramePayload_done h
  split
  · next h' => cases h'.symm.trans hread
  · next e' t' h' =>
    obtain ⟨rfl, rfl⟩ := Read.failed.inj (h'.symm.trans hread)
    rfl
  · next h' => cases h'.symm.trans hread

theorem listen_undefined {conn : Connection} {s : Session} (h : turn conn s = .done .undefined) :
    listen conn s = ⟨[], [], .undefined⟩ := by
  rw [listen]
  have hread := readFramePayload_done h
  split
  · next h' => cases h'.symm.trans hread
  · next h' => cases h'.symm.trans hread
  · rfl

/-! ### What the server sends -/

/-- The frames that are not the end of a connection. -/
inductive Kind where
  | text
  | binary
  | ping
  | pong
  deriving DecidableEq, Repr

def Kind.opcode : Kind → Opcode
  | .text => Opcode.text
  | .binary => Opcode.binary
  | .ping => Opcode.ping
  | .pong => Opcode.pong

/-- A frame of the server, with no mask and in one piece. -/
structure ServerFrame where
  kind : Kind
  payload : List UInt8
  fits : payload.length < lengthBound

def ServerFrame.frame (f : ServerFrame) : Frame := ⟨true, f.kind.opcode, none, f.payload⟩

def ServerFrame.bytes (f : ServerFrame) : List UInt8 := f.frame.bytes

/-- The frames the caller gets. -/
def ServerFrame.isMessage (f : ServerFrame) : Bool := f.kind = .text ∨ f.kind = .binary

def ServerFrame.isPing (f : ServerFrame) : Bool := f.kind = .ping

/-- A session that begins, with what the server is going to send. -/
def start (frames : List ServerFrame) : Session := ⟨frames.flatMap ServerFrame.bytes, [], 0, 0⟩

/-- What the server sends is read to its end, the messages are delivered in order, and what
was sent to the server are pongs, each with the payload of its ping. -/
structure Answers (conn : Connection) (frames : List ServerFrame) : Prop where
  ending : (listen conn (start frames)).ending = .failed .endOfStream
  delivered : (listen conn (start frames)).delivered =
    (frames.filter ServerFrame.isMessage).map fun f => (f.kind.opcode, f.payload)
  answered : ∃ pongs, Decodes (listen conn (start frames)).sent pongs ∧
    (∀ p ∈ pongs, p.fin = true ∧ p.opcode = Opcode.pong ∧ p.mask.isSome) ∧
    pongs.map Frame.payload = (frames.filter ServerFrame.isPing).map ServerFrame.payload

theorem take_append {capacity n : Nat} {got : List UInt8} (hn : got.length = n)
    (rest : List UInt8) :
    take capacity n (got ++ rest) = if capacity < n then trap else pure (got, rest) := by
  rw [take, if_neg (show ¬(got ++ rest).length < n by simp [hn]), List.take_left' hn,
    List.drop_left' hn]

theorem takeInt_cons (conn : Connection) (b : UInt8) (rest : List UInt8) :
    takeInt conn.capacity 1 (b :: rest) = pure (b.toNat, rest) := by
  have hpos := conn.capacity_pos
  rw [takeInt, ← List.singleton_append, take_append (List.length_singleton (a := b)),
    if_neg (by omega), pure_bind]
  simp [ofBigEndian]

theorem takeInt_bigEndian {capacity w v : Nat} (hv : v < 256 ^ w) (rest : List UInt8) :
    takeInt capacity w (bigEndian w v ++ rest) =
      if capacity < w then trap else pure (v, rest) := by
  rw [takeInt, take_append (length_bigEndian w v)]
  split
  · rfl
  · rw [pure_bind]
    dsimp only
    rw [ofBigEndian_bigEndian hv]

/-- **The length is read**, if the buffer has room for it. -/
theorem readLength_eq {capacity n : Nat} (hn : n < lengthBound) (rest : List UInt8) :
    readLength capacity (shortLength n) (lengthBytes n ++ rest) =
      if capacity < (lengthBytes n).length then trap else pure (n, rest) := by
  have hbound : lengthBound ≤ u64Max := by decide
  unfold readLength shortLength lengthBytes
  by_cases hshort : n ≤ 125
  · simp only [if_pos hshort, List.length_nil, Nat.not_lt_zero, if_false, List.nil_append]
    rw [if_neg (by omega), if_neg (by omega)]
  by_cases hlong : n ≤ 0xffff
  · simp only [if_neg hshort, if_pos hlong, length_bigEndian, if_true]
    exact takeInt_bigEndian (by omega) rest
  · simp only [if_neg hshort, if_neg hlong, length_bigEndian]
    rw [if_neg (by decide), if_pos trivial, takeInt_bigEndian (hn.trans_le (by decide))]
    split
    · rfl
    · rw [pure_bind]
      exact if_pos (by omega)

theorem length_lengthBytes_le (n : Nat) : (lengthBytes n).length ≤ n := by
  unfold lengthBytes
  split
  · exact Nat.zero_le n
  split
  · rw [length_bigEndian]
    omega
  · rw [length_bigEndian]
    omega

theorem readPayload_append {capacity : Nat} (payload rest : List UInt8) :
    readPayload capacity payload.length (payload ++ rest) =
      if capacity < payload.length then trap else pure (payload, rest) := by
  unfold readPayload
  split
  · exact take_append rfl rest
  · next h =>
    obtain rfl := List.eq_nil_of_length_eq_zero (Nat.eq_zero_of_not_pos h)
    rfl

/-- **A frame is received** if its payload is not larger than the read buffer. -/
theorem receive_frame (conn : Connection) (f : ServerFrame) (rest : List UInt8) :
    receive conn.capacity (f.bytes ++ rest) =
      if conn.capacity < f.payload.length then trap
      else pure (⟨f.kind.opcode, true, f.payload⟩, rest) := by
  have hop := f.kind.opcode.isLt
  have hfirst := toNat_firstByte f.kind.opcode true
  have hshort := shortLength_lt f.payload.length
  have hsecond := toNat_secondByte hshort false
  simp only [if_true] at hfirst
  simp only [Bool.false_eq_true, if_false, Nat.add_zero] at hsecond
  have hbytes : f.bytes ++ rest = firstByte f.kind.opcode true ::
      secondByte (shortLength f.payload.length) false ::
        (lengthBytes f.payload.length ++ (f.payload ++ rest)) := by
    simp [ServerFrame.bytes, ServerFrame.frame, Frame.bytes, Frame.header, maskBytes,
      Frame.sealed]
  rw [hbytes, receive, takeInt_cons, pure_bind]
  dsimp only
  rw [takeInt_cons, pure_bind]
  dsimp only
  rw [hsecond, if_neg (by omega), Nat.mod_eq_of_lt hshort, readLength_eq f.fits]
  have hle := length_lengthBytes_le f.payload.length
  by_cases hroom : conn.capacity < (lengthBytes f.payload.length).length
  · rw [if_pos hroom, if_pos (by omega)]
    rfl
  rw [if_neg hroom, pure_bind]
  dsimp only
  rw [readPayload_append]
  split
  · rfl
  · have hopcode : opcodeOf (firstByte f.kind.opcode true).toNat = f.kind.opcode := by
      rw [hfirst]
      ext
      show (_ : Nat) % 16 = _
      omega
    rw [pure_bind, hopcode, hfirst, decide_eq_true (by omega)]

/-- The pong that answers a ping. -/
def pongFrame (conn : Connection) (draws : Nat) (payload : List UInt8) : Frame :=
  clientFrame Opcode.pong payload (conn.random draws)

/-- **A ping is answered with its own payload**: the buffer of the answer has room for it. -/
theorem answerPing_eq (conn : Connection) (draws : Nat) {payload : List UInt8}
    (hlen : payload.length < lengthBound) :
    answerPing conn draws payload = pure (pongFrame conn draws payload).bytes := by
  have hbytes : (pongFrame conn draws payload).bytes.length ≤ 2 + 8 + 4 + payload.length := by
    have hpart := length_lengthPart payload.length
    rw [pongFrame, bytes_clientFrame]
    simp only [List.length_append, List.length_cons, List.length_ofFn, length_applyMask]
    split at hpart
    · omega
    · split at hpart <;> omega
  rw [answerPing]
  dsimp only
  rw [encodeMaskedFrame_eq Opcode.pong hlen, if_neg (by
    rw [List.length_replicate]
    exact Nat.not_lt.2 hbytes), pure_bind]
  dsimp only
  rw [Checked.slice_of_le (Nat.zero_le _) (by simp), checked_some, List.drop_zero, Nat.sub_zero,
    List.take_left]
  rfl

/-! ### The frames are read one after the other -/

/-- The session behind the turn of a frame. -/
def behind (conn : Connection) (s : Session) (f : ServerFrame) (rest : List UInt8) : Session :=
  if f.kind = .ping then
    ⟨rest, s.output ++ (pongFrame conn s.draws f.payload).bytes, s.draws + 1, s.loads + 1⟩
  else { s with input := rest, loads := s.loads + 1 }

section Turn

variable {conn : Connection} (hopen : ∀ k, conn.closing k = false) {s : Session}
  {f : ServerFrame} {rest : List UInt8} (hinput : s.input = f.bytes ++ rest)

include hopen hinput

/-- **The turn of a frame that has room**: a message is handed over, and whatever is not a
message leaves the rest to the next turn. -/
theorem turn_frame (hroom : f.payload.length ≤ conn.capacity) :
    turn conn s = if f.isMessage then
      .done (.message f.kind.opcode f.payload (behind conn s f rest))
      else .again (behind conn s f rest) := by
  rw [turn, hopen, if_neg Bool.false_ne_true, hinput, receive_frame, if_neg (by omega)]
  show dispatch conn _ _ = _
  rcases f with ⟨kind, payload, fits⟩
  rcases kind with _ | _ | _ | _
  · rfl
  · rfl
  · show (match (answerPing conn s.draws payload).run with
      | some (.ok sent) => _
      | some (.error e) => _
      | none => _) = _
    rw [answerPing_eq conn s.draws fits]
    rfl
  · rfl

/-- The turn of a frame that has no room. -/
theorem turn_large (hlarge : conn.capacity < f.payload.length) :
    turn conn s = .done .undefined := by
  rw [turn, hopen, if_neg Bool.false_ne_true, hinput, receive_frame, if_pos hlarge]
  rfl

end Turn

/-- At the end of the stream. -/
theorem turn_nil {conn : Connection} (hopen : ∀ k, conn.closing k = false) {s : Session}
    (hinput : s.input = []) : turn conn s = .done (.failed .endOfStream s) := by
  have hpos := conn.capacity_pos
  rw [turn, hopen, if_neg Bool.false_ne_true, hinput, receive, takeInt, take,
    if_neg (by omega), if_pos (by simp)]
  rfl

/-- The pongs that answer the pings, with the masks as they are drawn. -/
def pongs (conn : Connection) : Nat → List ServerFrame → List Frame
  | _, [] => []
  | k, f :: fs =>
    if f.kind = .ping then pongFrame conn k f.payload :: pongs conn (k + 1) fs
    else pongs conn k fs

/-- **A session that has room for every frame** delivers the messages and sends the pongs. -/
theorem listen_frames {conn : Connection} (hopen : ∀ k, conn.closing k = false)
    {frames : List ServerFrame} (hroom : ∀ f ∈ frames, f.payload.length ≤ conn.capacity)
    {s : Session} (hinput : s.input = frames.flatMap ServerFrame.bytes) :
    listen conn s =
      ⟨(frames.filter ServerFrame.isMessage).map fun f => (f.kind.opcode, f.payload),
        s.output ++ (pongs conn s.draws frames).flatMap Frame.bytes, .failed .endOfStream⟩ := by
  induction frames generalizing s with
  | nil =>
    rw [listen_failed (turn_nil hopen hinput)]
    simp [pongs]
  | cons f frames ih =>
    rw [List.forall_mem_cons] at hroom
    rw [List.flatMap_cons] at hinput
    have hturn := turn_frame hopen hinput hroom.1
    have hbehind : (behind conn s f (frames.flatMap ServerFrame.bytes)).input =
        frames.flatMap ServerFrame.bytes := by
      unfold behind
      split <;> rfl
    have ih := ih hroom.2 hbehind
    rcases f with ⟨kind, payload, fits⟩
    rcases kind with _ | _ | _ | _
    · rw [listen_message hturn, ih]
      rfl
    · rw [listen_message hturn, ih]
      rfl
    · rw [listen_again hturn, ih]
      simp [behind, pongs, ServerFrame.isMessage]
    · rw [listen_again hturn, ih]
      rfl

/-- **A frame without room ends the session** with nothing that can be said. -/
theorem listen_large {conn : Connection} (hopen : ∀ k, conn.closing k = false)
    {frames : List ServerFrame} (hlarge : ∃ f ∈ frames, conn.capacity < f.payload.length)
    {s : Session} (hinput : s.input = frames.flatMap ServerFrame.bytes) :
    (listen conn s).ending = .undefined := by
  induction frames generalizing s with
  | nil => simp at hlarge
  | cons f frames ih =>
    rw [List.flatMap_cons] at hinput
    rcases Nat.lt_or_ge conn.capacity f.payload.length with hf | hf
    · rw [listen_undefined (turn_large hopen hinput hf)]
    have hrest : ∃ f ∈ frames, conn.capacity < f.payload.length := by
      obtain ⟨g, hg, hlarge⟩ := hlarge
      rcases List.mem_cons.1 hg with rfl | hg
      · exact absurd hlarge (Nat.not_lt.2 hf)
      · exact ⟨g, hg, hlarge⟩
    have hturn := turn_frame hopen hinput hf
    have hbehind : (behind conn s f (frames.flatMap ServerFrame.bytes)).input =
        frames.flatMap ServerFrame.bytes := by
      unfold behind
      split <;> rfl
    have ih := ih hrest hbehind
    split at hturn
    · rw [listen_message hturn]
      exact ih
    · rw [listen_again hturn]
      exact ih

theorem mem_pongs {conn : Connection} {k : Nat} {frames : List ServerFrame} {p : Frame}
    (h : p ∈ pongs conn k frames) :
    ∃ j, ∃ f ∈ frames, p = pongFrame conn j f.payload := by
  induction frames generalizing k with
  | nil => simp [pongs] at h
  | cons f frames ih =>
    rw [pongs] at h
    split at h
    · rcases List.mem_cons.1 h with rfl | h
      · exact ⟨k, f, List.mem_cons_self, rfl⟩
      · obtain ⟨j, g, hg, rfl⟩ := ih h
        exact ⟨j, g, List.mem_cons_of_mem f hg, rfl⟩
    · obtain ⟨j, g, hg, rfl⟩ := ih h
      exact ⟨j, g, List.mem_cons_of_mem f hg, rfl⟩

theorem payload_pongs (conn : Connection) (k : Nat) (frames : List ServerFrame) :
    (pongs conn k frames).map Frame.payload =
      (frames.filter ServerFrame.isPing).map ServerFrame.payload := by
  induction frames generalizing k with
  | nil => rfl
  | cons f frames ih =>
    rw [pongs]
    by_cases hping : f.kind = .ping
    · rw [if_pos hping, List.filter_cons_of_pos (by simpa [ServerFrame.isPing] using hping),
        List.map_cons, List.map_cons, ih]
      rfl
    · rw [if_neg hping, List.filter_cons_of_neg (by simpa [ServerFrame.isPing] using hping), ih]

/-- **The session answers if and only if it has room for every frame.** -/
theorem answers_iff {conn : Connection} (hopen : ∀ k, conn.closing k = false)
    (frames : List ServerFrame) :
    Answers conn frames ↔ ∀ f ∈ frames, f.payload.length ≤ conn.capacity := by
  constructor
  · intro h f hf
    by_contra hlarge
    have hend := listen_large hopen ⟨f, hf, Nat.not_le.1 hlarge⟩ (s := start frames) rfl
    cases hend.symm.trans h.ending
  · intro hroom
    have hlisten := listen_frames hopen hroom (s := start frames) rfl
    refine ⟨by rw [hlisten], by rw [hlisten], pongs conn 0 frames, ?_, ?_,
      payload_pongs conn 0 frames⟩
    · rw [hlisten]
      refine decodes_flatMap fun p hp => ?_
      obtain ⟨j, f, -, rfl⟩ := mem_pongs hp
      exact f.fits
    · intro p hp
      obtain ⟨j, f, -, rfl⟩ := mem_pongs hp
      exact ⟨rfl, rfl, rfl⟩

/-- The buffer is too small for the frame and that is said, or the frame is written inside it
and nothing else is changed: what is written decodes to the opcode and the payload. -/
def Encodes (op : Opcode) (payload : List UInt8) (mask : Mask) (out : List UInt8) : Prop :=
  (out.length < (clientFrame op payload mask).bytes.length ∧
    (encodeMaskedFrame op payload mask out).run = some (.error .bufferTooSmall)) ∨
  ∃ n out', Gives (encodeMaskedFrame op payload mask out) (n, out') ∧
    n ≤ out.length ∧ out'.length = out.length ∧ out'.drop n = out.drop n ∧
    decode (out'.take n) = some (⟨true, op, some mask, payload⟩, [])

theorem encodes (op : Opcode) {payload : List UInt8} (hlen : payload.length < lengthBound)
    (mask : Mask) (out : List UInt8) : Encodes op payload mask out := by
  have heq := encodeMaskedFrame_eq op hlen mask out
  set f := clientFrame op payload mask with hf
  rcases Nat.lt_or_ge out.length f.bytes.length with hshort | hroom
  · left
    rw [if_pos hshort] at heq
    refine ⟨hshort, ?_⟩
    rw [heq]
    rfl
  · right
    rw [if_neg (Nat.not_lt.2 hroom)] at heq
    refine ⟨f.bytes.length, f.bytes ++ out.drop f.bytes.length, ?_, hroom, ?_, List.drop_left, ?_⟩
    · rw [heq, gives_pure]
    · rw [List.length_append, List.length_drop]
      omega
    · have hdecode := decode_bytes f hlen []
      rw [List.append_nil] at hdecode
      rw [List.take_left, hdecode, hf]
      rfl

/-- **What is written is a frame of a client**, and what the server sends is read and answered
if and only if no payload is larger than the read buffer. -/
theorem frames_iff (conn : Connection) (hopen : ∀ k, conn.closing k = false) (op : Opcode)
    (payload : List UInt8) (hlen : payload.length < lengthBound) (mask : Mask)
    (out : List UInt8) (frames : List ServerFrame) :
    Encodes op payload mask out ∧
      (Answers conn frames ↔ ∀ f ∈ frames, f.payload.length ≤ conn.capacity) :=
  ⟨encodes op hlen mask out, answers_iff hopen frames⟩

/-- A connection of the standard client. -/
def standard : Connection where
  capacity := 8192
  capacity_pos := Nat.succ_pos 8191
  random _ _ := 7
  junk := 0
  closing _ := false

/-- A ping, and the notification behind it. -/
def quiet : List ServerFrame := [⟨.ping, [1, 2], by decide⟩, ⟨.text, [3], by decide⟩]

theorem frames_iff_quiet : Encodes Opcode.text [5] (fun _ => 9) [0, 0, 0, 0, 0, 0, 0] ∧
    Answers standard quiet := by
  obtain ⟨hencodes, hanswers⟩ := frames_iff standard (fun _ => rfl) Opcode.text [5] (by decide)
    (fun _ => 9) [0, 0, 0, 0, 0, 0, 0] quiet
  refine ⟨hencodes, hanswers.2 fun f hf => ?_⟩
  simp only [quiet, List.mem_cons, List.not_mem_nil, or_false] at hf
  rcases hf with rfl | rfl
  · exact show 2 ≤ 8192 by decide
  · exact show 1 ≤ 8192 by decide

/-- A notification of one byte more than the read buffer. -/
def crowded : ServerFrame where
  kind := .text
  payload := List.replicate 8193 0
  fits := by
    rw [List.length_replicate]
    exact show 8193 < 2 ^ 63 by decide

/-- One notification that is larger than the read buffer is not delivered. -/
theorem not_answers_crowded : ¬Answers standard [crowded] := by
  rw [answers_iff fun _ => rfl]
  intro h
  have hlen : (List.replicate 8193 (0 : UInt8)).length ≤ 8192 := h crowded List.mem_cons_self
  rw [List.length_replicate] at hlen
  omega

end Zponder.WsFrame

import Zponder.Lib.Checked
import Zponder.Text

/-!
# The data of an `eth_call`

`encodeFunctionCall` puts the selector of a function and its arguments into a buffer that
has sixty-four characters for each argument. An argument comes from a client of the API, and it is
filled up with zeros in front if it is shorter. One that is longer is copied as it is, over
what belongs to the arguments behind it, until the last of them is out of room
(`Zponder.Call.encoded_iff_short`).

The hash function is a parameter, and so is what the buffer holds before it is written.
-/

namespace Zponder

open Checked

namespace Call

section Encode

variable (keccak256 : Text → Fin 32 → Fin 256) (junk : Char)

/-- An argument without its `0x`. -/
def clean (arg : Text) : Text :=
  if "0x".toList.isPrefixOf arg ∨ "0X".toList.isPrefixOf arg then arg.drop 2 else arg

/-- A byte of the selector, digit by digit. -/
def writeByte (s : Text × Nat) (byte : Fin 256) : Option (Text × Nat) := do
  let buf ← copy s.1 s.2 (s.2 + 1) [Nat.digitChar (byte.val / 16)]
  let buf ← copy buf (s.2 + 1) (s.2 + 2) [Nat.digitChar (byte.val % 16)]
  pure (buf, s.2 + 2)

/-- An argument: the zeros, then the argument itself. -/
def writeArg (s : Text × Nat) (arg : Text) : Option (Text × Nat) := do
  let padCount := if (clean arg).length < 64 then 64 - (clean arg).length else 0
  let buf ← copy s.1 s.2 (s.2 + padCount) (List.replicate padCount '0')
  let pos := s.2 + padCount
  let buf ← copy buf pos (pos + (clean arg).length) (clean arg)
  pure (buf, pos + (clean arg).length)

/-- `encodeFunctionCall` -/
def encodeFunctionCall (signature : Text) (args : List Text) : Option Text := do
  let hash := keccak256 signature
  let buf ← copy (List.replicate (2 + 8 + 64 * args.length) junk) 0 2 "0x".toList
  let s ← [hash 0, hash 1, hash 2, hash 3].foldlM writeByte (buf, 2)
  let s ← args.foldlM writeArg s
  pure s.1

/-- A byte in hex. -/
def hexByte (byte : Fin 256) : Text :=
  [Nat.digitChar (byte.val / 16), Nat.digitChar (byte.val % 16)]

/-- The first four bytes of the hash, in hex. -/
def selector (signature : Text) : Text :=
  [keccak256 signature 0, keccak256 signature 1, keccak256 signature 2,
    keccak256 signature 3].flatMap hexByte

/-- An argument with zeros in front. -/
def padded (arg : Text) : Text :=
  List.replicate (64 - (clean arg).length) '0' ++ clean arg

/-- The selector and one word for each argument. -/
structure Encoded (args : List Text) (data : Text) : Prop where
  length_eq : data.length = 2 + 8 + 64 * args.length
  word_eq : ∀ i (h : i < args.length), (data.drop (2 + 8 + 64 * i)).take 64 = padded args[i]

end Encode

/-! ### What is written -/

section Written

variable {keccak256 : Text → Fin 32 → Fin 256} {junk : Char} {signature arg : Text}
  {args : List Text} {s t : Text × Nat} {done : Text} {room : Nat}

theorem filled_writeByte (byte : Fin 256) (h : Filled done room s) (hroom : 2 ≤ room) :
    ∃ t, writeByte s byte = some t ∧ Filled (done ++ hexByte byte) (room - 2) t := by
  obtain ⟨buf, hbuf, hfirst⟩ := h.copy [Nat.digitChar (byte.val / 16)]
    (by rw [List.length_singleton]; omega)
  obtain ⟨buf', hbuf', hsecond⟩ := hfirst.copy [Nat.digitChar (byte.val % 16)]
    (by rw [List.length_singleton, List.length_singleton]; omega)
  refine ⟨(buf', s.2 + 2), ?_, ?_⟩
  · simp only [List.length_singleton] at hbuf hbuf'
    simp only [writeByte, hbuf, Option.bind_eq_bind, Option.bind_some, hbuf', Option.pure_def]
  · simpa [hexByte, Nat.sub_sub, Nat.add_assoc] using hsecond

theorem length_padded (h : (clean arg).length ≤ 64) : (padded arg).length = 64 := by
  rw [padded, List.length_append, List.length_replicate]
  omega

theorem padCount_eq : (if (clean arg).length < 64 then 64 - (clean arg).length else 0) =
    64 - (clean arg).length := by
  split <;> omega

/-- A short argument takes the room of one. -/
theorem filled_writeArg (hshort : (clean arg).length ≤ 64) (h : Filled done room s)
    (hroom : (padded arg).length ≤ room) :
    ∃ t, writeArg s arg = some t ∧ Filled (done ++ padded arg) (room - (padded arg).length) t := by
  rw [length_padded hshort] at hroom ⊢
  obtain ⟨buf, hbuf, hzeros⟩ := h.copy (List.replicate (64 - (clean arg).length) '0')
    (by rw [List.length_replicate]; omega)
  obtain ⟨buf', hbuf', harg⟩ := hzeros.copy (clean arg)
    (by rw [List.length_replicate]; omega)
  rw [List.length_replicate] at hbuf hbuf' harg
  refine ⟨(buf', s.2 + (64 - (clean arg).length) + (clean arg).length), ?_, ?_⟩
  · simp only [writeArg, padCount_eq, hbuf, Option.bind_eq_bind, Option.bind_some, hbuf',
      Option.pure_def]
  · rwa [List.append_assoc, Nat.sub_sub, Nat.sub_add_cancel hshort] at harg

theorem length_selector : (selector keccak256 signature).length = 8 := rfl

theorem length_words (hshort : ∀ arg ∈ args, (clean arg).length ≤ 64) :
    (args.flatMap padded).length = 64 * args.length := by
  rw [List.length_flatMap, List.map_congr_left fun arg harg => length_padded (hshort arg harg),
    List.map_const', List.sum_replicate, smul_eq_mul, Nat.mul_comm]

/-- Where all arguments are short, the buffer is filled. -/
theorem encodeFunctionCall_of_short (hshort : ∀ arg ∈ args, (clean arg).length ≤ 64) :
    encodeFunctionCall keccak256 junk signature args =
      some ("0x".toList ++ selector keccak256 signature ++ args.flatMap padded) := by
  have htwo : ("0x".toList : Text).length = 2 := rfl
  have hempty := filled_nil (List.replicate (2 + 8 + 64 * args.length) junk)
  rw [List.length_replicate] at hempty
  obtain ⟨buf, hbuf, hprefix⟩ := hempty.copy "0x".toList (by rw [htwo]; omega)
  obtain ⟨t, ht, hselector⟩ := hprefix.foldlM writeByte hexByte
    [keccak256 signature 0, keccak256 signature 1, keccak256 signature 2, keccak256 signature 3]
    (fun byte _ done room s h hroom => filled_writeByte byte h hroom)
    (by change (selector keccak256 signature).length ≤ _
        rw [length_selector, htwo]
        omega)
  change Filled (_ ++ selector keccak256 signature)
    (_ - (selector keccak256 signature).length) t at hselector
  obtain ⟨u, hu, hargs⟩ := hselector.foldlM writeArg padded args
    (fun arg harg done room s h hroom => filled_writeArg (hshort arg harg) h hroom)
    (by rw [length_words hshort, length_selector, htwo]
        omega)
  rw [length_words hshort, length_selector, htwo,
    show 2 + 8 + 64 * args.length - 2 - 8 - 64 * args.length = 0 by omega] at hargs
  have hdone := hargs.eq_done
  rw [List.nil_append] at hdone
  rw [htwo] at hbuf ht
  simp only [encodeFunctionCall, hbuf, ht, hu, Option.bind_eq_bind, Option.bind_some,
    Option.pure_def, hdone]

/-- An argument is written somewhere, and the position behind it is still in the buffer. -/
theorem writeArg_spec (h : writeArg s arg = some t) :
    t.1.length = s.1.length ∧ t.2 = s.2 + max 64 (clean arg).length ∧ t.2 ≤ t.1.length := by
  unfold writeArg at h
  simp only [Option.bind_eq_bind, Option.bind_eq_some_iff, Option.pure_def, Option.some.injEq] at h
  obtain ⟨buf, hbuf, buf', hbuf', rfl⟩ := h
  obtain ⟨-, hlen⟩ := copy_eq_some hbuf
  obtain ⟨⟨-, hfits, -⟩, hlen'⟩ := copy_eq_some hbuf'
  refine ⟨hlen'.trans hlen, ?_, hlen' ▸ hfits⟩
  rw [padCount_eq]
  omega

theorem foldlM_writeArg_spec (h : args.foldlM writeArg s = some t) (hin : s.2 ≤ s.1.length) :
    t.1.length = s.1.length ∧ t.2 = s.2 + (args.map fun arg => max 64 (clean arg).length).sum ∧
      t.2 ≤ t.1.length := by
  induction args generalizing s with
  | nil =>
    obtain rfl : s = t := Option.some.inj h
    exact ⟨rfl, rfl, hin⟩
  | cons arg args ih =>
    rw [List.foldlM_cons, Option.bind_eq_bind, Option.bind_eq_some_iff] at h
    obtain ⟨u, hu, h⟩ := h
    obtain ⟨hlen, hpos, hin'⟩ := writeArg_spec hu
    obtain ⟨hlen', hpos', hin''⟩ := ih h hin'
    refine ⟨hlen'.trans hlen, ?_, hin''⟩
    rw [hpos', hpos, List.map_cons, List.sum_cons, Nat.add_assoc]

/-- Words that take no more room than one each are no longer than one. -/
theorem short_of_sum_le (h : (args.map fun arg => max 64 (clean arg).length).sum ≤
    64 * args.length) : ∀ arg ∈ args, (clean arg).length ≤ 64 := by
  have hlow : ∀ l : List Text,
      64 * l.length ≤ (l.map fun arg => max 64 (clean arg).length).sum := by
    intro l
    induction l with
    | nil => exact Nat.le_refl 0
    | cons arg l ih =>
      rw [List.map_cons, List.sum_cons, List.length_cons]
      omega
  induction args with
  | nil => simp
  | cons arg args ih =>
    rw [List.map_cons, List.sum_cons, List.length_cons] at h
    have hrest := hlow args
    intro a ha
    rcases List.mem_cons.1 ha with rfl | ha
    · omega
    · exact ih (by omega) a ha

theorem writeByte_spec {byte : Fin 256} (h : writeByte s byte = some t) :
    t.1.length = s.1.length ∧ t.2 = s.2 + 2 ∧ t.2 ≤ t.1.length := by
  unfold writeByte at h
  simp only [Option.bind_eq_bind, Option.bind_eq_some_iff, Option.pure_def, Option.some.injEq] at h
  obtain ⟨buf, hbuf, buf', hbuf', rfl⟩ := h
  obtain ⟨-, hlen⟩ := copy_eq_some hbuf
  obtain ⟨⟨-, hfits, -⟩, hlen'⟩ := copy_eq_some hbuf'
  exact ⟨hlen'.trans hlen, rfl, hlen' ▸ hfits⟩

/-- The words of a text that is cut into words. -/
theorem encoded_of_short (hshort : ∀ arg ∈ args, (clean arg).length ≤ 64) :
    Encoded args ("0x".toList ++ selector keccak256 signature ++ args.flatMap padded) := by
  have hhead : ("0x".toList ++ selector keccak256 signature).length = 2 + 8 := rfl
  refine ⟨?_, fun i h => ?_⟩
  · rw [List.length_append, hhead, length_words hshort]
  · rw [← hhead, ← List.drop_drop, List.drop_left]
    clear hhead
    induction args generalizing i with
    | nil => cases h
    | cons arg args ih =>
      have hlen := length_padded (hshort arg List.mem_cons_self)
      rw [List.flatMap_cons]
      cases i with
      | zero =>
        rw [Nat.mul_zero, List.drop_zero, ← hlen]
        exact List.take_left
      | succ i =>
        rw [Nat.mul_succ, Nat.add_comm, ← List.drop_drop, ← hlen, List.drop_left, hlen]
        exact ih (fun a ha => hshort a (List.mem_cons_of_mem arg ha)) i (Nat.lt_of_succ_lt_succ h)

/-- **The words of a call are where they belong if and only if no argument is too long**:
otherwise the encoder runs out of its buffer. -/
theorem encoded_iff_short (keccak256 : Text → Fin 32 → Fin 256) (junk : Char) (signature : Text)
    (args : List Text) :
    (∃ data, encodeFunctionCall keccak256 junk signature args = some data ∧ Encoded args data) ↔
      ∀ arg ∈ args, (clean arg).length ≤ 64 := by
  constructor
  · rintro ⟨data, hdata, -⟩
    unfold encodeFunctionCall at hdata
    simp only [Option.bind_eq_bind, Option.bind_eq_some_iff, Option.pure_def] at hdata
    obtain ⟨buf, hbuf, s, hs, t, ht, -⟩ := hdata
    have hlen := (copy_eq_some hbuf).2
    rw [List.length_replicate] at hlen
    simp only [List.foldlM_cons, List.foldlM_nil, Option.bind_eq_bind,
      Option.bind_eq_some_iff] at hs
    obtain ⟨s₁, h₁, s₂, h₂, s₃, h₃, s₄, h₄, hs⟩ := hs
    obtain rfl : s₄ = s := Option.some.inj hs
    have h₁ := writeByte_spec h₁
    have h₂ := writeByte_spec h₂
    have h₃ := writeByte_spec h₃
    have h₄ := writeByte_spec h₄
    obtain ⟨hlen', hpos, hin⟩ := foldlM_writeArg_spec ht h₄.2.2
    simp only at h₁
    refine short_of_sum_le ?_
    omega
  · intro hshort
    exact ⟨_, encodeFunctionCall_of_short hshort, encoded_of_short hshort⟩

end Written

/-- A function without a hash worth the name. -/
def noHash (_ : Text) (_ : Fin 32) : Fin 256 := Fin.last 255

/-- One argument of sixty-five digits: the encoder writes behind the end of its buffer. -/
theorem not_encoded_long : encodeFunctionCall noHash ' ' "f(uint256)".toList
    [List.replicate 65 '1'] = none ∧
      ¬∃ data, encodeFunctionCall noHash ' ' "f(uint256)".toList [List.replicate 65 '1'] =
        some data ∧ Encoded [List.replicate 65 '1'] data := by
  have hnone : encodeFunctionCall noHash ' ' "f(uint256)".toList [List.replicate 65 '1'] =
      none := by
    decide +kernel
  refine ⟨hnone, ?_⟩
  rintro ⟨data, hdata, -⟩
  rw [hnone] at hdata
  cases hdata

end Call

end Zponder

import Mathlib

/-!
# Operations that are checked

Sums and products of machine words, slices, and copies into a buffer, as a build with
safety checks runs them: each has a condition, and where it is not met the program ends
there. A program made of them is a value of `Option`, and `none` says that it has ended so.

A buffer is a list of fixed length, and a copy (`Checked.copy`) replaces a slice of it by
as many elements. A writer goes through a buffer from left to right, with its position beside
it, and what is behind the position is room (`Checked.Filled`).
-/

namespace Checked

variable {α : Type}

/-- `a + b`, of words up to `max`. -/
def add (max a b : Nat) : Option Nat := if a + b ≤ max then some (a + b) else none

/-- `a * b`, of words up to `max`. -/
def mul (max a b : Nat) : Option Nat := if a * b ≤ max then some (a * b) else none

/-- `a - b`, of words that have no sign. -/
def sub (a b : Nat) : Option Nat := if b ≤ a then some (a - b) else none

/-- `@intCast` of a number that is not negative. -/
def intCast (max a : Nat) : Option Nat := if a ≤ max then some a else none

/-- `s[a .. b]` -/
def slice (s : List α) (a b : Nat) : Option (List α) :=
  if a ≤ b ∧ b ≤ s.length then some ((s.drop a).take (b - a)) else none

/-- `@memcpy(buf[a .. b], src)`: both sides are of one length. -/
def copy (buf : List α) (a b : Nat) (src : List α) : Option (List α) :=
  if a ≤ b ∧ b ≤ buf.length ∧ src.length = b - a then
    some (buf.take a ++ (src ++ buf.drop b))
  else none

theorem add_of_le {max a b : Nat} (h : a + b ≤ max) : add max a b = some (a + b) := if_pos h

theorem mul_of_le {max a b : Nat} (h : a * b ≤ max) : mul max a b = some (a * b) := if_pos h

theorem mul_of_lt {max a b : Nat} (h : max < a * b) : mul max a b = none :=
  if_neg (Nat.not_le.2 h)

theorem sub_of_le {a b : Nat} (h : b ≤ a) : sub a b = some (a - b) := if_pos h

theorem intCast_of_le {max a : Nat} (h : a ≤ max) : intCast max a = some a := if_pos h

theorem slice_of_le {s : List α} {a b : Nat} (hab : a ≤ b) (hb : b ≤ s.length) :
    slice s a b = some ((s.drop a).take (b - a)) := if_pos ⟨hab, hb⟩

/-- A slice up to the end. -/
theorem slice_length {s : List α} {a : Nat} (ha : a ≤ s.length) :
    slice s a s.length = some (s.drop a) := by
  rw [slice_of_le ha le_rfl, List.take_of_length_le]
  rw [List.length_drop]

theorem copy_of_le {buf src : List α} {a b : Nat} (hab : a ≤ b) (hb : b ≤ buf.length)
    (hsrc : src.length = b - a) : copy buf a b src = some (buf.take a ++ (src ++ buf.drop b)) :=
  if_pos ⟨hab, hb, hsrc⟩

/-- A loop none of whose turns ends the program. -/
theorem mapM_eq_some {β : Type} {f : α → Option β} {g : α → β} {xs : List α}
    (h : ∀ x ∈ xs, f x = some (g x)) : xs.mapM f = some (xs.map g) := by
  induction xs with
  | nil => rfl
  | cons x xs ih =>
    rw [List.mapM_cons, h x List.mem_cons_self, ih fun y hy => h y (List.mem_cons_of_mem x hy)]
    rfl

/-- What a loop has made of its elements. -/
theorem mem_mapM {β : Type} {f : α → Option β} {xs : List α} {ys : List β}
    (h : xs.mapM f = some ys) (y : β) : y ∈ ys ↔ ∃ x ∈ xs, f x = some y := by
  induction xs generalizing ys with
  | nil =>
    obtain rfl := Option.some.inj h
    simp
  | cons x xs ih =>
    rw [List.mapM_cons, Option.bind_eq_bind, Option.bind_eq_some_iff] at h
    obtain ⟨z, hz, h⟩ := h
    rw [Option.bind_eq_bind, Option.bind_eq_some_iff] at h
    obtain ⟨zs, hzs, h⟩ := h
    obtain rfl := Option.some.inj h
    rw [List.mem_cons, ih hzs]
    constructor
    · rintro (rfl | ⟨x', hx', hy⟩)
      · exact ⟨x, List.mem_cons_self, hz⟩
      · exact ⟨x', List.mem_cons_of_mem x hx', hy⟩
    · rintro ⟨x', hx', hy⟩
      rcases List.mem_cons.1 hx' with rfl | hx'
      · exact .inl (Option.some.inj (hy.symm.trans hz))
      · exact .inr ⟨x', hx', hy⟩

theorem copy_eq_some {buf src out : List α} {a b : Nat} (h : copy buf a b src = some out) :
    (a ≤ b ∧ b ≤ buf.length ∧ src.length = b - a) ∧ out.length = buf.length := by
  unfold copy at h
  split at h
  · next hfits =>
    obtain rfl := Option.some.inj h
    refine ⟨hfits, ?_⟩
    rw [List.length_append, List.length_append, List.length_take, List.length_drop]
    omega
  · cases h

/-- **A copy behind what is written**: what is behind it stays as it was. -/
theorem copy_front {written : List α} (src buf : List α) {k : Nat} (hk : written.length = k)
    (hroom : k + src.length ≤ buf.length) :
    copy (written ++ buf.drop k) k (k + src.length) src =
      some ((written ++ src) ++ buf.drop (k + src.length)) := by
  rw [copy_of_le (Nat.le_add_right _ _) (by simp; omega) (by omega)]
  rw [List.take_left' hk, List.drop_append, List.drop_drop, hk, Nat.add_sub_cancel_left,
    List.drop_of_length_le (by omega), List.nil_append, List.append_assoc]

/-! ### Writing from left to right -/

/-- A buffer with `done` written into it, the position behind that, and so much room left. -/
def Filled (done : List α) (room : Nat) (s : List α × Nat) : Prop :=
  ∃ rest : List α, rest.length = room ∧ s = (done ++ rest, done.length)

theorem filled_nil (buf : List α) : Filled [] buf.length (buf, 0) := ⟨buf, rfl, rfl⟩

/-- A buffer without room is what was written. -/
theorem Filled.eq_done {done : List α} {s : List α × Nat} (h : Filled done 0 s) : s.1 = done := by
  obtain ⟨rest, hrest, rfl⟩ := h
  rw [List.eq_nil_of_length_eq_zero hrest, List.append_nil]

/-- **A copy to the position.** -/
theorem Filled.copy {done : List α} {room : Nat} {s : List α × Nat} (h : Filled done room s)
    (src : List α) (hroom : src.length ≤ room) : ∃ buf, copy s.1 s.2 (s.2 + src.length) src = some buf ∧
      Filled (done ++ src) (room - src.length) (buf, s.2 + src.length) := by
  obtain ⟨rest, rfl, rfl⟩ := h
  refine ⟨done ++ (src ++ rest.drop src.length), ?_, rest.drop src.length,
    List.length_drop, ?_⟩
  · rw [Checked.copy, if_pos]
    · rw [List.take_left, List.drop_append, List.drop_of_length_le (Nat.le_add_right _ _),
        Nat.add_sub_cancel_left, List.nil_append]
    · rw [List.length_append]
      omega
  · rw [List.append_assoc, List.length_append]

/-- A loop each turn of which writes a piece. -/
theorem Filled.foldlM {β : Type} {done : List α} {room : Nat} {s : List α × Nat}
    (h : Filled done room s) (f : List α × Nat → β → Option (List α × Nat))
    (piece : β → List α) (xs : List β)
    (hf : ∀ x ∈ xs, ∀ done room s, Filled done room s → (piece x).length ≤ room →
      ∃ t, f s x = some t ∧ Filled (done ++ piece x) (room - (piece x).length) t)
    (hroom : (xs.flatMap piece).length ≤ room) : ∃ t, xs.foldlM f s = some t ∧
      Filled (done ++ xs.flatMap piece) (room - (xs.flatMap piece).length) t := by
  induction xs generalizing done room s with
  | nil => exact ⟨s, rfl, by simpa using h⟩
  | cons x xs ih =>
    rw [List.flatMap_cons, List.length_append] at hroom
    obtain ⟨t, ht, hfilled⟩ := hf x List.mem_cons_self done room s h (by omega)
    obtain ⟨u, hu, hfilled'⟩ := ih hfilled (fun y hy => hf y (List.mem_cons_of_mem x hy)) (by omega)
    refine ⟨u, ?_, ?_⟩
    · rw [List.foldlM_cons, ht]
      exact hu
    · rwa [List.flatMap_cons, List.length_append, ← List.append_assoc, ← Nat.sub_sub]

end Checked

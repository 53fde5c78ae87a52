import Mathlib

/-!
# Programs with two ways out

A program without a state that may end with an error, which its caller sees, or with the process:
a value of `Exits.Run`. Two questions are asked of it, whether it returns at all
(`Exits.Returns`) and what value it returns, and each way of building a program answers both from
its parts. A loop returns if its turns do up to the first one that ends with an error
(`Exits.UpTo`).
-/

namespace Exits

/-- A program: no outcome is the end of the process. -/
abbrev Run (ε α : Type) := ExceptT ε Option α

variable {ε α β : Type}

/-- The end of the process. -/
def trap : Run ε α := ExceptT.mk none

/-- A program that ends with a value. -/
def Gives (p : Run ε α) (a : α) : Prop := p.run = some (.ok a)

/-- A program that ends with a value or an error. -/
def Returns (p : Run ε α) : Prop := p.run ≠ none

/-- A step that has its condition checked. -/
def checked : Option α → Run ε α
  | some a => pure a
  | none => trap

@[simp] theorem checked_some (a : α) : (checked (some a) : Run ε α) = pure a := rfl

@[simp] theorem checked_none : (checked none : Run ε α) = trap := rfl

variable {p : Run ε α} {f : α → Run ε β} {a : α} {b : β}

theorem throw_bind (e : ε) (f : α → Run ε β) : (throw e : Run ε α) >>= f = throw e := rfl

theorem trap_bind (f : α → Run ε β) : (trap : Run ε α) >>= f = trap := rfl

theorem Gives.returns (h : Gives p a) : Returns p := by
  rw [Returns, h]
  exact Option.some_ne_none _

@[simp] theorem gives_pure {a' : α} : Gives (pure a : Run ε α) a' ↔ a = a' := by
  simp [Gives]

@[simp] theorem returns_pure : Returns (pure a : Run ε α) := by
  simp [Returns]

@[simp] theorem not_gives_trap : ¬Gives (trap : Run ε α) a := by
  simp [Gives, trap]

@[simp] theorem not_returns_trap : ¬Returns (trap : Run ε α) := by
  simp [Returns, trap]

@[simp] theorem not_gives_throw (e : ε) : ¬Gives (throw e : Run ε α) a := by
  simp [Gives]

@[simp] theorem returns_throw (e : ε) : Returns (throw e : Run ε α) := by
  simp [Returns]

/-- The outcomes of one program and then another. -/
theorem run_bind : (p >>= f).run = match p.run with
    | none => none
    | some (.error e) => some (.error e)
    | some (.ok a) => (f a).run := by
  rw [ExceptT.run_bind]
  rcases p.run with _ | _ | _ <;> rfl

theorem gives_bind : Gives (p >>= f) b ↔ ∃ a, Gives p a ∧ Gives (f a) b := by
  unfold Gives
  rw [run_bind]
  rcases p.run with _ | _ | _ <;> simp

theorem returns_bind : Returns (p >>= f) ↔ Returns p ∧ ∀ a, Gives p a → Returns (f a) := by
  unfold Returns Gives
  rw [run_bind]
  rcases p.run with _ | _ | _ <;> simp

/-- A program without errors of its own, in front of one that does not depend on its value. -/
theorem returns_bind_const {c : Prop} (hp : Returns p → ∃ a, Gives p a)
    (hf : ∀ a, Returns (f a) ↔ c) : Returns (p >>= f) ↔ Returns p ∧ c := by
  rw [returns_bind]
  refine and_congr_right fun h => ?_
  obtain ⟨a, ha⟩ := hp h
  simp only [hf]
  exact ⟨fun h => h a ha, fun hc _ _ => hc⟩

theorem exists_gives_bind_const {c : Prop} (hp : ∃ a, Gives p a)
    (hf : ∀ a, (∃ b, Gives (f a) b) ↔ c) : (∃ b, Gives (p >>= f) b) ↔ c := by
  obtain ⟨a, ha⟩ := hp
  simp only [gives_bind]
  constructor
  · rintro ⟨b, a', -, hb⟩
    exact (hf a').1 ⟨b, hb⟩
  · intro hc
    obtain ⟨b, hb⟩ := (hf a).2 hc
    exact ⟨b, a, ha, hb⟩

/-- A program from whose value something is made. -/
theorem returns_bind_pure {g : α → β} : Returns (p >>= fun a => pure (g a)) ↔ Returns p := by
  simp only [returns_bind, returns_pure, implies_true, and_true]

theorem exists_gives_bind_pure {g : α → β} :
    (∃ b, Gives (p >>= fun a => pure (g a)) b) ↔ ∃ a, Gives p a := by
  simp only [gives_bind, gives_pure]
  constructor
  · rintro ⟨_, a, ha, -⟩
    exact ⟨a, ha⟩
  · rintro ⟨a, ha⟩
    exact ⟨_, a, ha, rfl⟩

/-! ### Loops -/

/-- Up to the first element that does not go on, all of them are safe. -/
def UpTo (goesOn safe : α → Prop) (xs : List α) : Prop :=
  ∀ ys x zs, xs = ys ++ x :: zs → (∀ y ∈ ys, goesOn y) → safe x

variable {goesOn safe : α → Prop}

@[simp] theorem upTo_nil : UpTo goesOn safe [] := by
  intro ys x zs h
  simp at h

theorem upTo_cons {x : α} {xs : List α} :
    UpTo goesOn safe (x :: xs) ↔ safe x ∧ (goesOn x → UpTo goesOn safe xs) := by
  constructor
  · intro h
    refine ⟨h [] x xs rfl (by simp), fun hx ys y zs heq hys => ?_⟩
    exact h (x :: ys) y zs (by rw [heq, List.cons_append]) (List.forall_mem_cons.2 ⟨hx, hys⟩)
  · rintro ⟨hx, hxs⟩ ys y zs heq hys
    cases ys with
    | nil =>
      obtain ⟨rfl, rfl⟩ := List.cons.inj heq
      exact hx
    | cons z ys =>
      obtain ⟨rfl, rfl⟩ := List.cons.inj heq
      obtain ⟨hz, hys⟩ := List.forall_mem_cons.1 hys
      exact hxs hz ys y zs rfl hys

/-- Where every element goes on, all are safe. -/
theorem upTo_true {xs : List α} : UpTo (fun _ => True) safe xs ↔ ∀ x ∈ xs, safe x := by
  induction xs with
  | nil => simp
  | cons x xs ih => rw [upTo_cons, ih, List.forall_mem_cons, imp_iff_right trivial]

/-- Of elements that are safe it does not matter how it is said that they go on. -/
theorem upTo_congr {goesOn' safe' : α → Prop} {xs : List α} (hsafe : ∀ x ∈ xs, safe x ↔ safe' x)
    (h : ∀ x ∈ xs, safe x → (goesOn x ↔ goesOn' x)) :
    UpTo goesOn safe xs ↔ UpTo goesOn' safe' xs := by
  induction xs with
  | nil => simp
  | cons x xs ih =>
    have ih := ih (fun y hy => hsafe y (List.mem_cons_of_mem x hy))
      fun y hy => h y (List.mem_cons_of_mem x hy)
    have hx := h x List.mem_cons_self
    rw [upTo_cons, upTo_cons, ih, ← hsafe x List.mem_cons_self]
    exact and_congr_right fun hsafe => by rw [hx hsafe]

/-- **A loop that collects.** -/
theorem returns_mapM {g : α → Run ε β} {xs : List α} :
    Returns (xs.mapM g) ↔ UpTo (fun x => ∃ b, Gives (g x) b) (fun x => Returns (g x)) xs := by
  induction xs with
  | nil => simp
  | cons x xs ih =>
    rw [List.mapM_cons, returns_bind, upTo_cons, ← ih, forall_exists_index]
    simp only [returns_bind, returns_pure, implies_true, and_true]

theorem exists_gives_mapM {g : α → Run ε β} {xs : List α} :
    (∃ bs, Gives (xs.mapM g) bs) ↔ ∀ x ∈ xs, ∃ b, Gives (g x) b := by
  induction xs with
  | nil => simp
  | cons x xs ih =>
    rw [List.mapM_cons, List.forall_mem_cons, ← ih]
    simp only [gives_bind, gives_pure]
    constructor
    · rintro ⟨_, b, hb, bs, hbs, rfl⟩
      exact ⟨⟨b, hb⟩, bs, hbs⟩
    · rintro ⟨⟨b, hb⟩, bs, hbs⟩
      exact ⟨_, b, hb, bs, hbs, rfl⟩

/-- A loop whose turns give the values of a list gives the list. -/
theorem gives_mapM {g : α → Run ε β} {xs : List α} {bs : List β}
    (h : List.Forall₂ (fun x b => Gives (g x) b) xs bs) : Gives (xs.mapM g) bs := by
  induction h with
  | nil => exact gives_pure.2 rfl
  | cons hb _ ih =>
    rw [List.mapM_cons]
    exact gives_bind.2 ⟨_, hb, gives_bind.2 ⟨_, ih, gives_pure.2 rfl⟩⟩

section Turns

-- a turn returns if its element is safe, and then goes on if its element does
variable {g : α → Run ε β} {xs : List α} (hreturns : ∀ x, Returns (g x) ↔ safe x)
  (hgives : ∀ x, safe x → ((∃ b, Gives (g x) b) ↔ goesOn x))

include hreturns hgives

theorem returns_mapM_iff : Returns (xs.mapM g) ↔ UpTo goesOn safe xs :=
  returns_mapM.trans (upTo_congr (fun x _ => hreturns x) fun x _ h => hgives x ((hreturns x).1 h))

theorem exists_gives_mapM_iff (h : UpTo goesOn safe xs) :
    (∃ bs, Gives (xs.mapM g) bs) ↔ ∀ x ∈ xs, goesOn x := by
  rw [exists_gives_mapM]
  constructor
  · intro hall x hx
    obtain ⟨b, hb⟩ := hall x hx
    exact (hgives x ((hreturns x).1 hb.returns)).1 ⟨b, hb⟩
  · intro hall x hx
    obtain ⟨ys, zs, rfl⟩ := List.append_of_mem hx
    have hsafe : safe x := h ys x zs rfl fun y hy => hall y (List.mem_append_left _ hy)
    exact (hgives x hsafe).2 (hall x hx)

end Turns

end Exits

import Mathlib

/-!
# Machines and their runs

A machine has a state and takes steps on it; which step is taken is an action, and in
a state an action may be out of the question. Several threads are one machine whose
actions say whose turn it is, so that a run of the machine is an interleaving of theirs.

What is said of every run is said of the states it reaches. A run may be held to a
condition on its steps (`Imperative.Machine.Reaches`), and then an invariant has to be kept
by the steps that meet the condition, and by no others.
-/

namespace Imperative

/-- A state to begin with, and what an action makes of a state. -/
structure Machine (σ α : Type) where
  init : σ
  step : σ → α → Option σ

namespace Machine

variable {σ α : Type} (M : Machine σ α) {C D : σ → α → Prop}

/-- The states a run reaches all of whose steps meet `C`. -/
inductive Reaches (C : σ → α → Prop) : σ → Prop
  | init : Reaches C M.init
  | step {s t : σ} {a : α} : Reaches C s → C s a → M.step s a = some t → Reaches C t

/-- The states any run reaches. -/
def Reachable (s : σ) : Prop := M.Reaches (fun _ _ => True) s

/-- Take the steps of a list, one after the other. -/
def run (s : σ) : List α → Option σ
  | [] => some s
  | a :: as => (M.step s a).bind fun t => run t as

variable {M}

theorem run_nil (s : σ) : M.run s [] = some s := rfl

theorem run_cons {s t : σ} {a : α} (h : M.step s a = some t) (as : List α) :
    M.run s (a :: as) = M.run t as := by
  rw [run, h, Option.bind_some]

theorem run_append (s : σ) (as bs : List α) :
    M.run s (as ++ bs) = (M.run s as).bind fun t => M.run t bs := by
  induction as generalizing s with
  | nil => rfl
  | cons a as ih =>
    rw [List.cons_append, run, run, Option.bind_assoc]
    congr 1
    funext t
    exact ih t

/-- **The rule of the invariant.** -/
theorem Reaches.invariant {I : σ → Prop} (hinit : I M.init)
    (hstep : ∀ s a t, I s → C s a → M.step s a = some t → I t) {s : σ} (h : M.Reaches C s) :
    I s := by
  induction h with
  | init => exact hinit
  | step _ hc hs ih => exact hstep _ _ _ ih hc hs

theorem Reaches.mono (hCD : ∀ s a, C s a → D s a) {s : σ} (h : M.Reaches C s) :
    M.Reaches D s := by
  induction h with
  | init => exact .init
  | step _ hc hs ih => exact ih.step (hCD _ _ hc) hs

theorem Reaches.reachable {s : σ} (h : M.Reaches C s) : M.Reachable s :=
  h.mono fun _ _ _ => trivial

/-- A list of steps leads from a state that was reached to one that is. -/
theorem Reachable.run {s t : σ} (h : M.Reachable s) :
    ∀ {as : List α}, M.run s as = some t → M.Reachable t := by
  intro as
  induction as generalizing s with
  | nil =>
    intro hrun
    exact Option.some.inj hrun ▸ h
  | cons a as ih =>
    intro hrun
    rw [Machine.run, Option.bind_eq_some_iff] at hrun
    obtain ⟨u, hstep, hrest⟩ := hrun
    exact ih (Reaches.step h trivial hstep) hrest

/-- What a run from the beginning shows to be reachable. -/
theorem reachable_of_run {as : List α} {t : σ} (h : M.run M.init as = some t) :
    M.Reachable t :=
  Reachable.run (.init : M.Reachable M.init) h

/-- The same, of a property that the last state can be asked for. -/
theorem exists_reachable {as : List α} {p : σ → Bool} (h : (M.run M.init as).map p = some true) :
    ∃ s, M.Reachable s ∧ p s = true := by
  obtain ⟨s, hrun, hp⟩ := Option.map_eq_some_iff.1 h
  exact ⟨s, reachable_of_run hrun, hp⟩

/-- Take the steps of a list, as long as each meets a condition that can be asked for. -/
def runIf (M : Machine σ α) (c : σ → α → Bool) (s : σ) : List α → Option σ
  | [] => some s
  | a :: as => if c s a = true then (M.step s a).bind fun t => runIf M c t as else none

/-- Such a list of steps leads to a state that a run reaches all of whose steps meet it. -/
theorem Reaches.runIf {c : σ → α → Bool} (hc : ∀ s a, c s a = true → C s a) {s t : σ}
    (h : M.Reaches C s) : ∀ {as : List α}, M.runIf c s as = some t → M.Reaches C t := by
  intro as
  induction as generalizing s with
  | nil =>
    intro hrun
    exact Option.some.inj hrun ▸ h
  | cons a as ih =>
    intro hrun
    rw [Machine.runIf, Option.ite_none_right_eq_some, Option.bind_eq_some_iff] at hrun
    obtain ⟨hca, u, hstep, hrest⟩ := hrun
    exact ih (Reaches.step h (hc s a hca) hstep) hrest

/-! ### Along a run -/

/-- Every state that the steps of a list lead to has a property. -/
def Always (M : Machine σ α) (P : σ → Prop) (s : σ) : List α → Prop
  | [] => True
  | a :: as => ∀ t, M.step s a = some t → P t ∧ Always M P t as

/-- The steps of a list meet a condition, each in the state it is taken in. -/
def Held (M : Machine σ α) (C : σ → α → Prop) (s : σ) : List α → Prop
  | [] => True
  | a :: as => ∀ t, M.step s a = some t → C s a ∧ Held M C t as

/-- **The rule of the condition**: a step that meets it keeps the invariant and has the property
behind it. -/
theorem always_of_held {P I : σ → Prop}
    (hstep : ∀ s a t, I s → C s a → M.step s a = some t → I t ∧ P t) {s : σ} (hs : I s)
    (as : List α) (h : M.Held C s as) : M.Always P s as := by
  induction as generalizing s with
  | nil => trivial
  | cons a as ih =>
    intro t hst
    obtain ⟨hC, hrest⟩ := h t hst
    obtain ⟨hI, hP⟩ := hstep s a t hs hC hst
    exact ⟨hP, ih hI hrest⟩

/-- **The rule of the exact condition**: where the invariant holds, a step has the property
behind it if and only if it meets the condition, and then it keeps the invariant. -/
theorem always_iff_held {P I : σ → Prop}
    (hgood : ∀ s a t, I s → C s a → M.step s a = some t → I t ∧ P t)
    (hbad : ∀ s a t, I s → P t → M.step s a = some t → C s a) {s : σ} (hs : I s) (as : List α) :
    M.Always P s as ↔ M.Held C s as := by
  induction as generalizing s with
  | nil => exact Iff.rfl
  | cons a as ih =>
    refine forall_congr' fun t => forall_congr' fun hstep => ?_
    constructor
    · rintro ⟨hP, hrest⟩
      have hC := hbad s a t hs hP hstep
      exact ⟨hC, (ih (hgood s a t hs hC hstep).1).1 hrest⟩
    · rintro ⟨hC, hrest⟩
      obtain ⟨hI, hP⟩ := hgood s a t hs hC hstep
      exact ⟨hP, (ih hI).2 hrest⟩

end Machine

end Imperative

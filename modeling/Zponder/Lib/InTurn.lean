import Mathlib.Data.List.Basic
import Mathlib.Data.Set.Basic

/-!
# Everybody in turn

Somebody who is served must not be served before those that come before him. `InTurn` says that
of a list: where an entry stands, everything of `T` that comes before it stands in the list
already, or was done before the list began. Nothing is said of how often an entry stands in the
list, so a list that has been served in turn may be served again.

Two lists one after the other are in turn if each is, the second with the first done
(`Imperative.InTurn.append`), and a sorted list of everything that is asked for is in turn
(`Imperative.inTurn_of_pairwise`).
-/

namespace Imperative

variable {α : Type} {before : α → α → Prop} {T D D' : Set α} {l l₁ l₂ : List α}

/-- An entry of the list is one of `T`, and what of `T` comes before it stands earlier in the list,
or is done. -/
def InTurn (before : α → α → Prop) (T D : Set α) (l : List α) : Prop :=
  ∀ p x q, l = p ++ x :: q → x ∈ T ∧ ∀ y ∈ T, before y x → y ∈ p ∨ y ∈ D

theorem inTurn_nil : InTurn before T D [] := fun p x q h => by
  rcases p with _ | ⟨a, p⟩ <;> cases h

theorem InTurn.mem (h : InTurn before T D l) {x : α} (hx : x ∈ l) : x ∈ T := by
  obtain ⟨p, q, hl⟩ := List.append_of_mem hx
  exact (h p x q hl).1

theorem InTurn.of_append (h : InTurn before T D (l₁ ++ l₂)) : InTurn before T D l₁ := by
  rintro p x q rfl
  exact h p x (q ++ l₂) (by rw [List.append_assoc, List.cons_append])

/-- What was done need only be done, or be in the list itself. -/
theorem InTurn.append (h₁ : InTurn before T D l₁) (h₂ : InTurn before T D' l₂)
    (hD : ∀ y ∈ D', y ∈ D ∨ y ∈ l₁) : InTurn before T D (l₁ ++ l₂) := by
  intro p x q h
  rcases List.append_eq_append_iff.1 h with ⟨r, rfl, hr⟩ | ⟨r, rfl, hr⟩
  · -- the entry stands in the second list
    obtain ⟨hx, hall⟩ := h₂ r x q hr
    refine ⟨hx, fun y hy hyx => ?_⟩
    rcases hall y hy hyx with hmem | hdone
    · exact .inl (List.mem_append_right _ hmem)
    · exact (hD y hdone).symm.imp_left (List.mem_append_left _)
  · cases r with
    | nil =>
      rw [List.nil_append] at hr
      obtain ⟨hx, hall⟩ := h₂ [] x q hr.symm
      refine ⟨hx, fun y hy hyx => ?_⟩
      rw [List.append_nil] at h₁ hD
      exact (hD y ((hall y hy hyx).resolve_left List.not_mem_nil)).symm
    | cons z r =>
      obtain ⟨rfl, -⟩ := List.cons_eq_cons.1 hr
      exact h₁ p x r rfl

/-- **A sorted list is in turn**, if it leaves out nothing that comes before one of its
entries. -/
theorem inTurn_of_pairwise {r : α → α → Prop} (hle : ∀ x y, r x y → ¬before y x)
    (hself : ∀ x, ¬before x x) (hsorted : l.Pairwise r) (hT : ∀ x ∈ l, x ∈ T)
    (hall : ∀ x ∈ l, ∀ y ∈ T, before y x → y ∈ l ∨ y ∈ D) : InTurn before T D l := by
  rintro p x q rfl
  have hx : x ∈ p ++ x :: q := List.mem_append_right _ List.mem_cons_self
  refine ⟨hT x hx, fun y hy hyx => (hall x hx y hy hyx).imp_left fun hmem => ?_⟩
  rcases List.mem_append.1 hmem with hp | hq
  · exact hp
  · rcases List.mem_cons.1 hq with rfl | hq
    · exact absurd hyx (hself y)
    · have hxy := (List.pairwise_cons.1 (List.pairwise_append.1 hsorted).2.1).1 y hq
      exact absurd hyx (hle x y hxy)

end Imperative

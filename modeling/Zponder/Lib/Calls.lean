import Zponder.Lib.Prog

/-!
# Programs made of calls and casts

A program that calls a library, each call of which may fail, and narrows numbers on the way.
Its state is what the library will answer: one answer for each call, in their order, and
success where there is none left. A number that does not fit the type it is cast to ends the
process.

`Calls.Spec p safe done` says all there is to say about how such a program ends: while `safe`
holds it never ends with the process, whatever the library answers, and with a library that
refuses nothing it ends with a value if `done` holds too, with an error if not; and if `safe` does
not hold, such a library lets it run into the end of the process. There is one rule for each way
of building a program, and the two propositions are computed along its text.
-/

namespace Calls

open Imperative

/-- What a library answers to the calls to come: whether they succeed. -/
abbrev Replies := List Bool

variable {ε ε' α β : Type}

/-- A call, and the error of one that fails. -/
def call (e : ε) : Prog Replies ε Unit := fun s =>
  if s.head? = some false then (.err e, s.tail) else (.ok (), s.tail)

/-- A call whose failure nobody looks at. -/
def ignored : Prog Replies ε Unit := fun s => (.ok (), s.tail)

/-- `@intCast` of a number that is not negative. -/
def narrow (max n : Nat) : Prog Replies ε Unit := fun s =>
  if n ≤ max then (.ok (), s) else (.crash, s)

/-- A condition without which a program ends with an error. -/
def ensure (c : Prop) [Decidable c] (e : ε) : Prog Replies ε Unit :=
  if c then pure () else Prog.throw e

/-- A program that returns, with a value or an error, whatever it is answered. -/
def Returns (p : Prog Replies ε α) : Prop := ∀ s, (p s).1 ≠ .crash

/-- How a program ends. -/
structure Spec (p : Prog Replies ε α) (safe done : Prop) : Prop where
  returns : safe → Returns p
  dies : ¬safe → (p []).1 = .crash
  ends : safe → done → ∃ a, (p []).1 = .ok a
  stops : ¬done → ∀ s a, (p s).1 ≠ .ok a
  keeps : (p []).2 = []

variable {p : Prog Replies ε α} {safe done safe' done' : Prop}

/-- **When a program returns whatever it is answered.** -/
theorem Spec.returns_iff (h : Spec p safe done) : Returns p ↔ safe := by
  constructor
  · intro hp
    by_contra hsafe
    exact hp [] (h.dies hsafe)
  · exact h.returns

/-- The answers are still none at the end. -/
theorem Spec.eq_ok (h : Spec p safe done) (hs : safe) (hdone : done) : ∃ a, p [] = (.ok a, []) := by
  obtain ⟨a, ha⟩ := h.ends hs hdone
  exact ⟨a, Prod.ext ha h.keeps⟩

theorem Spec.congr (h : Spec p safe done) (hs : safe ↔ safe') (hd : done ↔ done') :
    Spec p safe' done' := by
  rwa [← propext hs, ← propext hd]

/-! ### One rule for each way of building a program -/

theorem returns_pure (a : α) : Returns (pure a : Prog Replies ε α) := fun s => by simp

theorem returns_call (e : ε) : Returns (call e) := by
  intro s
  unfold call
  split <;> simp

theorem returns_ensure (c : Prop) [Decidable c] (e : ε) : Returns (ensure c e) := by
  intro s
  unfold ensure
  split <;> simp

theorem Returns.bind {f : α → Prog Replies ε β} (h : Returns p) (hf : ∀ a, Returns (f a)) :
    Returns (p >>= f) := by
  intro s
  have hp := h s
  rw [Prog.bind_apply]
  generalize p s = r at *
  rcases r with ⟨a | e | _, t⟩
  · exact hf a t
  · simp
  · exact absurd rfl hp

theorem returns_each {f : β → Prog Replies ε Unit} {xs : List β} (h : ∀ x ∈ xs, Returns (f x)) :
    Returns (Prog.each xs f) := by
  induction xs with
  | nil => exact returns_pure ()
  | cons x xs ih =>
    exact (h x List.mem_cons_self).bind fun _ => ih fun y hy => h y (List.mem_cons_of_mem x hy)

/-- A program that does not die, and does not end with an error if nothing is refused. -/
theorem spec_of_ok (hp : Returns p) (h : ∃ a, p [] = (.ok a, [])) :
    Spec p True True where
  returns _ := hp
  dies h := absurd trivial h
  ends _ _ := h.imp fun _ ha => congrArg Prod.fst ha
  stops h := absurd trivial h
  keeps := by
    obtain ⟨a, ha⟩ := h
    rw [ha]

theorem spec_pure (a : α) : Spec (pure a : Prog Replies ε α) True True :=
  spec_of_ok (returns_pure a) ⟨a, rfl⟩

theorem spec_call (e : ε) : Spec (call e) True True := spec_of_ok (returns_call e) ⟨(), rfl⟩

theorem spec_ignored : Spec (ignored : Prog Replies ε Unit) True True :=
  spec_of_ok (fun s => by simp [ignored]) ⟨(), rfl⟩

theorem spec_narrow (max n : Nat) : Spec (narrow max n : Prog Replies ε Unit) (n ≤ max) True where
  returns h s := by simp [narrow, h]
  dies h := by simp [narrow, h]
  ends h _ := ⟨(), by simp [narrow, h]⟩
  stops h := absurd trivial h
  keeps := by
    unfold narrow
    split <;> rfl

theorem spec_throw (e : ε) : Spec (Prog.throw e : Prog Replies ε α) True False where
  returns _ s := by simp
  dies h := absurd trivial h
  ends _ h := h.elim
  stops _ s a := by simp
  keeps := rfl

theorem spec_ite {c : Prop} [Decidable c] {q : Prog Replies ε α} (hp : c → Spec p safe done)
    (hq : ¬c → Spec q safe done) : Spec (if c then p else q) safe done := by
  split
  · next h => exact hp h
  · next h => exact hq h

theorem spec_ensure (c : Prop) [Decidable c] (e : ε) : Spec (ensure c e) True c := by
  refine spec_ite (fun h => ?_) fun h => ?_
  · exact (spec_pure ()).congr Iff.rfl (by simp [h])
  · exact (spec_throw e).congr Iff.rfl (by simp [h])

/-- **One program and then another.** What the second one needs counts only if the first one comes
to its end. -/
theorem Spec.bind {f : α → Prog Replies ε β} (h : Spec p safe done)
    (hf : ∀ a, Spec (f a) safe' done') :
    Spec (p >>= f) (safe ∧ (done → safe')) (done ∧ done') where
  returns := by
    rintro ⟨hs, hs'⟩ s
    have hreturns := h.returns hs s
    have hstops := fun hdone a => h.stops hdone s a
    rw [Prog.bind_apply]
    generalize p s = r at *
    rcases r with ⟨a | e | _, t⟩
    · have hdone : done := by
        by_contra hdone
        exact hstops hdone a rfl
      exact (hf a).returns (hs' hdone) t
    · simp
    · exact absurd rfl hreturns
  dies := by
    intro hnot
    by_cases hs : safe
    · obtain ⟨hdone, hs'⟩ : done ∧ ¬safe' := by tauto
      obtain ⟨a, ha⟩ := h.eq_ok hs hdone
      rw [Prog.bind_of_ok ha]
      exact (hf a).dies hs'
    · have hdies := h.dies hs
      rw [Prog.bind_apply]
      generalize p [] = r at *
      rcases r with ⟨a | e | _, t⟩
      · cases hdies
      · cases hdies
      · rfl
  ends := by
    rintro ⟨hs, hs'⟩ ⟨hdone, hdone'⟩
    obtain ⟨a, ha⟩ := h.eq_ok hs hdone
    rw [Prog.bind_of_ok ha]
    exact (hf a).ends (hs' hdone) hdone'
  stops := by
    intro hnot s b
    have hstops := fun hdone a => h.stops hdone s a
    rw [Prog.bind_apply]
    generalize p s = r at *
    rcases r with ⟨a | e | _, t⟩
    · have hdone : done := by
        by_contra hdone
        exact hstops hdone a rfl
      exact (hf a).stops (fun hdone' => hnot ⟨hdone, hdone'⟩) t b
    · simp
    · simp
  keeps := by
    have hkeeps := h.keeps
    rw [Prog.bind_apply]
    rcases hp : p [] with ⟨a | e | _, t⟩
    all_goals
      rw [hp] at hkeeps
      subst hkeeps
    · exact (hf a).keeps
    · rfl
    · rfl

/-- A program that may only be run if another one, which needs nothing, is behind it. -/
theorem Spec.then {q : Prog Replies ε β} (h : Spec p safe True) (hq : Spec q safe' done') :
    Spec (p >>= fun _ => q) (safe ∧ safe') done' :=
  (h.bind fun _ => hq).congr (by simp) (by simp)

theorem spec_when {c : Prop} [Decidable c] {p : Prog Replies ε Unit} (h : Spec p safe done) :
    Spec (Prog.when c p) (c → safe) (c → done) := by
  refine spec_ite (fun hc => ?_) fun hc => ?_
  · exact h.congr (by simp [hc]) (by simp [hc])
  · exact (spec_pure ()).congr (by simp [hc]) (by simp [hc])

/-- **A loop.** What a turn needs counts only if all turns before it come to their end. -/
theorem spec_each {f : β → Prog Replies ε Unit} {safe done : β → Prop} {xs : List β}
    (h : ∀ x ∈ xs, Spec (f x) (safe x) (done x)) :
    Spec (Prog.each xs f) (∀ ys x zs, xs = ys ++ x :: zs → (∀ y ∈ ys, done y) → safe x)
      (∀ x ∈ xs, done x) := by
  induction xs with
  | nil =>
    exact (spec_pure ()).congr (by simp) (by simp)
  | cons x xs ih =>
    have hrest := ih fun y hy => h y (List.mem_cons_of_mem x hy)
    refine ((h x List.mem_cons_self).bind fun _ => hrest).congr ?_ (by simp)
    constructor
    · rintro ⟨hx, hxs⟩ ys z zs heq hdone
      cases ys with
      | nil =>
        obtain ⟨rfl, rfl⟩ := List.cons.inj heq
        exact hx
      | cons y ys =>
        obtain ⟨rfl, rfl⟩ := List.cons.inj heq
        exact hxs (hdone x List.mem_cons_self) ys z zs rfl
          fun w hw => hdone w (List.mem_cons_of_mem x hw)
    · intro hall
      refine ⟨hall [] x xs rfl (by simp), fun hx ys z zs heq hdone => ?_⟩
      refine hall (x :: ys) z zs (by rw [heq, List.cons_append]) ?_
      rintro w (_ | ⟨_, hw⟩)
      · exact hx
      · exact hdone w hw

/-- A loop whose turns all need the same, unless they end before. The first turn finds out. -/
theorem spec_each_head {f : β → Prog Replies ε Unit} {done : β → Prop} {xs : List β}
    (h : ∀ x ∈ xs, Spec (f x) (done x → safe) (done x)) :
    Spec (Prog.each xs f) (∀ x ∈ xs.head?, done x → safe) (∀ x ∈ xs, done x) := by
  refine (spec_each h).congr ?_ Iff.rfl
  constructor
  · intro hall x hx
    obtain ⟨rest, rfl⟩ : ∃ rest, xs = x :: rest := List.head?_eq_some_iff.1 hx
    exact hall [] x rest rfl (by simp)
  · rintro hhead ys x zs rfl hdone hx
    cases ys with
    | nil => exact hhead x rfl hx
    | cons y ys => exact hhead y rfl (hdone y List.mem_cons_self)

/-- A loop each turn of which comes to its end. -/
theorem spec_each_of_done {f : β → Prog Replies ε Unit} {safe : β → Prop} {xs : List β}
    (h : ∀ x ∈ xs, Spec (f x) (safe x) True) :
    Spec (Prog.each xs f) (∀ x ∈ xs, safe x) True := by
  refine (spec_each h).congr ?_ (by simp)
  constructor
  · intro hall x hx
    obtain ⟨ys, zs, heq⟩ := List.append_of_mem hx
    exact hall ys x zs heq fun _ _ => trivial
  · rintro hall ys x zs rfl -
    exact hall x (by simp)

/-- A program whose error nobody looks at. -/
theorem Spec.catching {p : Prog Replies ε Unit} (h : Spec p safe done) :
    Spec (Prog.catching p fun _ => pure () : Prog Replies ε' Unit) safe True where
  returns hs s := by
    have hreturns := h.returns hs s
    unfold Prog.catching
    generalize p s = r at *
    rcases r with ⟨a | e | _, t⟩
    · simp
    · simp
    · exact absurd rfl hreturns
  dies hs := by
    have hdies := h.dies hs
    unfold Prog.catching
    generalize p [] = r at *
    rcases r with ⟨a | e | _, t⟩
    · cases hdies
    · cases hdies
    · rfl
  ends hs _ := by
    have hreturns := h.returns hs []
    unfold Prog.catching
    generalize p [] = r at *
    rcases r with ⟨a | e | _, t⟩
    · exact ⟨(), rfl⟩
    · exact ⟨(), rfl⟩
    · exact absurd rfl hreturns
  stops h := absurd trivial h
  keeps := by
    have hkeeps := h.keeps
    unfold Prog.catching
    generalize p [] = r at *
    rcases r with ⟨a | e | _, t⟩ <;> exact hkeeps

/-- A cleanup that is one call changes nothing in how a program ends. -/
theorem Spec.onErr (h : Spec p safe done) : Spec (Prog.onErr p ignored) safe done := by
  have heq : ∀ s, (Prog.onErr p ignored s).1 = (p s).1 := by
    intro s
    unfold Prog.onErr
    rcases p s with ⟨a | e | _, t⟩ <;> rfl
  constructor
  · intro hs s
    rw [heq]
    exact h.returns hs s
  · intro hs
    rw [heq]
    exact h.dies hs
  · intro hs hdone
    rw [heq]
    exact h.ends hs hdone
  · intro hdone s a
    rw [heq]
    exact h.stops hdone s a
  · have hkeeps := h.keeps
    unfold Prog.onErr
    generalize p [] = r at *
    rcases r with ⟨a | e | _, t⟩
    · exact hkeeps
    · exact congrArg List.tail hkeeps
    · exact hkeeps

end Calls

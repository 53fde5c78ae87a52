import Mathlib

/-!
# Programs over a state that may fail or die

The shape every piece of imperative code in this development is embedded into: a
program reads and writes a state and ends in one of three ways, with a value, with
an error that its caller sees, or with the death of the process, after which no
line of the program runs any more – not even a cleanup. The last ending is what
tells a program apart from an exception monad: `onErr` and `after`, the two
cleanup combinators, run their second program after an error but not after a
death.

Two ways of reasoning are set up, and both follow the text of a program.

* `Imperative.Prog.Within` bounds *what a program may do to the state*, whatever
  its ending, by a reflexive and transitive relation (`Imperative.Frame`). It is
  the frame rule of the development: a property of the state that every primitive
  respects is respected by everything built from them.
* `Imperative.Prog.Meets` asks one postcondition of each ending of a program run from
  one state (`Imperative.Post`), and its rules push the postcondition backwards
  through the text.
* The inversion lemmas `Imperative.Prog.bind_eq_ok` and its kin take a *successful*
  run apart into the successful runs of its pieces.
-/

namespace Imperative

/-- How a program ends: with a value, with an error, or with the process. -/
inductive Outcome (ε α : Type) where
  | ok (a : α)
  | err (e : ε)
  | crash
  deriving DecidableEq, Repr

/-- A program over states `σ` with errors `ε` and values `α`. -/
def Prog (σ ε α : Type) : Type := σ → Outcome ε α × σ

namespace Prog

variable {σ ρ ε ε' α β : Type}

instance : Monad (Prog σ ε) where
  pure a := fun s => (.ok a, s)
  bind p f := fun s =>
    match p s with
    | (.ok a, s') => f a s'
    | (.err e, s') => (.err e, s')
    | (.crash, s') => (.crash, s')

@[simp] theorem pure_apply (a : α) (s : σ) : (pure a : Prog σ ε α) s = (.ok a, s) := rfl

theorem bind_apply (p : Prog σ ε α) (f : α → Prog σ ε β) (s : σ) :
    (p >>= f) s = match p s with
      | (.ok a, s') => f a s'
      | (.err e, s') => (.err e, s')
      | (.crash, s') => (.crash, s') := rfl

theorem bind_of_ok {p : Prog σ ε α} {s s' : σ} {a : α} (h : p s = (.ok a, s'))
    (f : α → Prog σ ε β) : (p >>= f) s = f a s' := by
  rw [bind_apply, h]

theorem bind_of_err {p : Prog σ ε α} {s s' : σ} {e : ε} (h : p s = (.err e, s'))
    (f : α → Prog σ ε β) : (p >>= f) s = (.err e, s') := by
  rw [bind_apply, h]

theorem bind_of_crash {p : Prog σ ε α} {s s' : σ} (h : p s = (.crash, s'))
    (f : α → Prog σ ε β) : (p >>= f) s = (.crash, s') := by
  rw [bind_apply, h]

instance : LawfulMonad (Prog σ ε) := LawfulMonad.mk' _
  (fun p => funext fun s => by
    change (p >>= fun a => pure (id a)) s = p s
    rw [bind_apply]
    rcases p s with ⟨_ | _ | _, _⟩ <;> rfl)
  (fun _ _ => rfl)
  (fun p f g => funext fun s => by
    simp only [bind_apply]
    rcases p s with ⟨_ | _ | _, _⟩ <;> rfl)

/-! ### The primitives -/

/-- Look at the state. -/
def read (f : σ → α) : Prog σ ε α := fun s => (.ok (f s), s)

/-- Change the state. -/
def modify (f : σ → σ) : Prog σ ε Unit := fun s => (.ok (), f s)

/-- End with an error. -/
def throw (e : ε) : Prog σ ε α := fun s => (.err e, s)

/-- The end of a program as a value: the errors of `p` are handed to its caller as
data. A death is not. -/
def attempt (p : Prog σ ε α) : Prog σ ε' (Except ε α) := fun s =>
  match p s with
  | (.ok a, s') => (.ok (.ok a), s')
  | (.err e, s') => (.ok (.error e), s')
  | (.crash, s') => (.crash, s')

/-- Run `p`, and `h` on its error. -/
def catching (p : Prog σ ε α) (h : ε → Prog σ ε' α) : Prog σ ε' α := fun s =>
  match p s with
  | (.ok a, s') => (.ok a, s')
  | (.err e, s') => h e s'
  | (.crash, s') => (.crash, s')

/-- A cleanup for the error path only: `q` runs after an error of `p`, and the
error goes on. The cleanup has no errors of its own. -/
def onErr (p : Prog σ ε α) (q : Prog σ Empty Unit) : Prog σ ε α := fun s =>
  match p s with
  | (.ok a, s') => (.ok a, s')
  | (.err e, s') =>
    match q s' with
    | (.ok (), s'') => (.err e, s'')
    | (.crash, s'') => (.crash, s'')
  | (.crash, s') => (.crash, s')

/-- A cleanup for both paths: `f` is applied to the state after `p`, whether `p`
ended with a value or with an error. -/
def after (p : Prog σ ε α) (f : σ → σ) : Prog σ ε α := fun s =>
  match p s with
  | (.ok a, s') => (.ok a, f s')
  | (.err e, s') => (.err e, f s')
  | (.crash, s') => (.crash, s')

/-- Run a program that has no errors of its own where errors are allowed. -/
def lift (p : Prog σ Empty α) : Prog σ ε α := fun s =>
  match p s with
  | (.ok a, s') => (.ok a, s')
  | (.crash, s') => (.crash, s')

/-- Run a program on a part of the state, found by `get` and put back by `set`. -/
def zoom (get : σ → ρ) (set : σ → ρ → σ) (p : Prog ρ ε α) : Prog σ ε α := fun s =>
  match p (get s) with
  | (o, r) => (o, set s r)

/-- Run `p` only if `c` holds. -/
def when (c : Prop) [Decidable c] (p : Prog σ ε Unit) : Prog σ ε Unit :=
  if c then p else pure ()

/-- One program for each element, in order. -/
def each (xs : List β) (f : β → Prog σ ε Unit) : Prog σ ε Unit :=
  match xs with
  | [] => pure ()
  | x :: xs => do f x; each xs f

/-- The concatenated answers of one program for each element, in order. -/
def gather {γ : Type} (xs : List β) (f : β → Prog σ ε (List γ)) : Prog σ ε (List γ) :=
  match xs with
  | [] => pure []
  | x :: xs => do
    let here ← f x
    let rest ← gather xs f
    pure (here ++ rest)

@[simp] theorem read_apply (f : σ → α) (s : σ) : (read f : Prog σ ε α) s = (.ok (f s), s) := rfl

@[simp] theorem modify_apply (f : σ → σ) (s : σ) :
    (modify f : Prog σ ε Unit) s = (.ok (), f s) := rfl

@[simp] theorem throw_apply (e : ε) (s : σ) : (throw e : Prog σ ε α) s = (.err e, s) := rfl

@[simp] theorem read_bind (f : σ → α) (k : α → Prog σ ε β) (s : σ) :
    (read f >>= k) s = k (f s) s := rfl

@[simp] theorem modify_bind (f : σ → σ) (k : Unit → Prog σ ε β) (s : σ) :
    (modify f >>= k) s = k () (f s) := rfl

@[simp] theorem throw_bind (e : ε) (k : α → Prog σ ε β) (s : σ) :
    ((throw e : Prog σ ε α) >>= k) s = (.err e, s) := rfl

theorem when_of {c : Prop} [Decidable c] (h : c) (p : Prog σ ε Unit) : when c p = p := if_pos h

theorem when_of_not {c : Prop} [Decidable c] (h : ¬c) (p : Prog σ ε Unit) :
    when c p = pure () := if_neg h

@[simp] theorem each_nil (f : β → Prog σ ε Unit) : each [] f = pure () := rfl

@[simp] theorem each_cons (x : β) (xs : List β) (f : β → Prog σ ε Unit) :
    each (x :: xs) f = (do f x; each xs f) := rfl

/-! ### Taking a successful run apart -/

theorem bind_eq_ok {p : Prog σ ε α} {f : α → Prog σ ε β} {s t : σ} {b : β} :
    (p >>= f) s = (.ok b, t) ↔ ∃ a s', p s = (.ok a, s') ∧ f a s' = (.ok b, t) := by
  rw [bind_apply]
  rcases p s with ⟨a | e | _, s'⟩ <;> simp [and_assoc]

theorem catching_eq_ok {p : Prog σ ε α} {h : ε → Prog σ ε' α} {s t : σ} {a : α} :
    catching p h s = (.ok a, t) ↔
      p s = (.ok a, t) ∨ ∃ e s', p s = (.err e, s') ∧ h e s' = (.ok a, t) := by
  unfold catching
  rcases p s with ⟨a | e | _, s'⟩ <;> simp [and_assoc]

theorem onErr_eq_ok {p : Prog σ ε α} {q : Prog σ Empty Unit} {s t : σ} {a : α} :
    onErr p q s = (.ok a, t) ↔ p s = (.ok a, t) := by
  unfold onErr
  rcases p s with ⟨a | e | _, s'⟩
  · simp
  · rcases hq : q s' with ⟨_ | e' | _, s''⟩
    · simp [hq]
    · exact e'.elim
    · simp [hq]
  · simp

theorem after_eq_ok {p : Prog σ ε α} {f : σ → σ} {s t : σ} {a : α} :
    after p f s = (.ok a, t) ↔ ∃ s', p s = (.ok a, s') ∧ f s' = t := by
  unfold after
  rcases p s with ⟨a | e | _, s'⟩ <;> simp [and_assoc, eq_comm]

theorem attempt_eq_ok {p : Prog σ ε α} {s t : σ} {r : Except ε α} :
    (attempt p : Prog σ ε' _) s = (.ok r, t) ↔
      (∃ a, r = .ok a ∧ p s = (.ok a, t)) ∨ ∃ e, r = .error e ∧ p s = (.err e, t) := by
  unfold attempt
  rcases p s with ⟨a | e | _, s'⟩ <;> simp [eq_comm, and_comm, and_assoc]

theorem lift_eq_ok {p : Prog σ Empty α} {s t : σ} {a : α} :
    (lift p : Prog σ ε α) s = (.ok a, t) ↔ p s = (.ok a, t) := by
  unfold lift
  rcases p s with ⟨a | e | _, s'⟩
  · simp
  · exact e.elim
  · simp

theorem each_append (xs ys : List β) (f : β → Prog σ ε Unit) :
    each (xs ++ ys) f = (do each xs f; each ys f) := by
  induction xs with
  | nil => simp
  | cons x xs ih => simp [ih, bind_assoc]

end Prog

/-! ### A postcondition for each ending -/

/-- What is asked of a run: of the value and the state it ends with, of the error and
the state, of the state a death leaves. -/
structure Post (σ ε α : Type) where
  ok : α → σ → Prop
  err : ε → σ → Prop
  dead : σ → Prop

namespace Prog

variable {σ ρ ε ε' α β : Type} {s : σ} {Φ Ψ : Post σ ε α}

/-- The run of `p` from `s` meets `Φ`. -/
def Meets (p : Prog σ ε α) (s : σ) (Φ : Post σ ε α) : Prop :=
  match p s with
  | (.ok a, t) => Φ.ok a t
  | (.err e, t) => Φ.err e t
  | (.crash, t) => Φ.dead t

/-- **The rule of consequence.** -/
theorem Meets.mono {p : Prog σ ε α} (h : Meets p s Φ) (hok : ∀ a t, Φ.ok a t → Ψ.ok a t)
    (herr : ∀ e t, Φ.err e t → Ψ.err e t) (hdead : ∀ t, Φ.dead t → Ψ.dead t) :
    Meets p s Ψ := by
  unfold Meets at *
  generalize p s = r at *
  rcases r with ⟨a | e | _, t⟩
  · exact hok a t h
  · exact herr e t h
  · exact hdead t h

theorem Meets.ok_of_eq {p : Prog σ ε α} (h : Meets p s Φ) {a : α} {t : σ}
    (hp : p s = (.ok a, t)) : Φ.ok a t := by
  rwa [Meets, hp] at h

theorem Meets.err_of_eq {p : Prog σ ε α} (h : Meets p s Φ) {e : ε} {t : σ}
    (hp : p s = (.err e, t)) : Φ.err e t := by
  rwa [Meets, hp] at h

theorem Meets.dead_of_eq {p : Prog σ ε α} (h : Meets p s Φ) {t : σ}
    (hp : p s = (.crash, t)) : Φ.dead t := by
  rwa [Meets, hp] at h

/-- Two postconditions that are both met are met together. -/
theorem Meets.and {p : Prog σ ε α} (h : Meets p s Φ) (h' : Meets p s Ψ) :
    Meets p s ⟨fun a t => Φ.ok a t ∧ Ψ.ok a t, fun e t => Φ.err e t ∧ Ψ.err e t,
      fun t => Φ.dead t ∧ Ψ.dead t⟩ := by
  unfold Meets at *
  generalize p s = r at *
  rcases r with ⟨a | e | _, t⟩ <;> exact ⟨h, h'⟩

/-- What a run meets whatever its ending, it meets of the state it leaves. -/
theorem Meets.snd {p : Prog σ ε α} {P : σ → Prop} (h : Meets p s ⟨fun _ => P, fun _ => P, P⟩) :
    P (p s).2 := by
  unfold Meets at h
  generalize p s = r at *
  rcases r with ⟨a | e | _, t⟩ <;> exact h

/-- Every run ends somehow. -/
theorem meets_trivial (p : Prog σ ε α) (s : σ) :
    Meets p s ⟨fun _ _ => True, fun _ _ => True, fun _ => True⟩ := by
  unfold Meets
  split <;> trivial

@[simp] theorem meets_pure (a : α) : Meets (pure a) s Φ ↔ Φ.ok a s := Iff.rfl

@[simp] theorem meets_throw (e : ε) : Meets (throw e) s Φ ↔ Φ.err e s := Iff.rfl

@[simp] theorem meets_read (f : σ → α) : Meets (read f) s Φ ↔ Φ.ok (f s) s := Iff.rfl

@[simp] theorem meets_modify {f : σ → σ} {Φ : Post σ ε Unit} :
    Meets (modify f) s Φ ↔ Φ.ok () (f s) := Iff.rfl

@[simp] theorem meets_bind {p : Prog σ ε β} {f : β → Prog σ ε α} :
    Meets (p >>= f) s Φ ↔ Meets p s ⟨fun b t => Meets (f b) t Φ, Φ.err, Φ.dead⟩ := by
  unfold Meets
  rw [bind_apply]
  rcases p s with ⟨a | e | _, t⟩ <;> exact Iff.rfl

/-- A look at the state, and what follows it. -/
theorem meets_read_bind {f : σ → β} {k : β → Prog σ ε α} :
    Meets (read f >>= k) s Φ ↔ Meets (k (f s)) s Φ := Iff.rfl

/-- A change of the state, and what follows it. -/
theorem meets_modify_bind {f : σ → σ} {k : Unit → Prog σ ε α} :
    Meets (modify f >>= k) s Φ ↔ Meets (k ()) (f s) Φ := Iff.rfl

@[simp] theorem meets_catching {p : Prog σ ε' α} {k : ε' → Prog σ ε α} :
    Meets (catching p k) s Φ ↔ Meets p s ⟨Φ.ok, fun e t => Meets (k e) t Φ, Φ.dead⟩ := by
  unfold Meets catching
  rcases p s with ⟨a | e | _, t⟩ <;> exact Iff.rfl

@[simp] theorem meets_attempt {p : Prog σ ε' β} {Φ : Post σ ε (Except ε' β)} :
    Meets (attempt p) s Φ ↔
      Meets p s ⟨fun a t => Φ.ok (.ok a) t, fun e t => Φ.ok (.error e) t, Φ.dead⟩ := by
  unfold Meets attempt
  rcases p s with ⟨a | e | _, t⟩ <;> exact Iff.rfl

@[simp] theorem meets_after {p : Prog σ ε α} {f : σ → σ} :
    Meets (after p f) s Φ ↔
      Meets p s ⟨fun a t => Φ.ok a (f t), fun e t => Φ.err e (f t), Φ.dead⟩ := by
  unfold Meets after
  rcases p s with ⟨a | e | _, t⟩ <;> exact Iff.rfl

@[simp] theorem meets_lift {p : Prog σ Empty α} :
    Meets (lift p) s Φ ↔ Meets p s ⟨Φ.ok, fun e => e.elim, Φ.dead⟩ := by
  unfold Meets lift
  rcases p s with ⟨a | e | _, t⟩
  · exact Iff.rfl
  · exact e.elim
  · exact Iff.rfl

@[simp] theorem meets_onErr {p : Prog σ ε α} {q : Prog σ Empty Unit} :
    Meets (onErr p q) s Φ ↔
      Meets p s ⟨Φ.ok, fun e t => Meets q t ⟨fun _ => Φ.err e, fun e => e.elim, Φ.dead⟩,
        Φ.dead⟩ := by
  unfold Meets onErr
  rcases p s with ⟨a | e | _, t⟩
  · exact Iff.rfl
  · rcases hq : q t with ⟨_ | e' | _, u⟩
    · simp [hq]
    · exact e'.elim
    · simp [hq]
  · exact Iff.rfl

@[simp] theorem meets_zoom {get : σ → ρ} {set : σ → ρ → σ} {p : Prog ρ ε α} :
    Meets (zoom get set p) s Φ ↔
      Meets p (get s) ⟨fun a r => Φ.ok a (set s r), fun e r => Φ.err e (set s r),
        fun r => Φ.dead (set s r)⟩ := by
  unfold Meets zoom
  rcases p (get s) with ⟨a | e | _, r⟩ <;> exact Iff.rfl

theorem meets_ite {c : Prop} [Decidable c] {p q : Prog σ ε α} (hp : c → Meets p s Φ)
    (hq : ¬c → Meets q s Φ) : Meets (if c then p else q) s Φ := by
  split
  · next h => exact hp h
  · next h => exact hq h

theorem meets_when {c : Prop} [Decidable c] {p : Prog σ ε Unit} {Φ : Post σ ε Unit}
    (hp : c → Meets p s Φ) (hn : ¬c → Φ.ok () s) : Meets (when c p) s Φ :=
  meets_ite hp hn

/-- **The rule of the loop**: an invariant `I` of the elements still to come. -/
theorem meets_each {f : β → Prog σ ε Unit} {I : List β → σ → Prop} {E : ε → σ → Prop}
    {D : σ → Prop}
    (hstep : ∀ x xs t, I (x :: xs) t → Meets (f x) t ⟨fun _ => I xs, E, D⟩) :
    ∀ {l : List β} {t : σ}, I l t → Meets (each l f) t ⟨fun _ => I [], E, D⟩
  | [], _, h => h
  | x :: xs, t, h => by
    rw [each_cons, meets_bind]
    exact (hstep x xs t h).mono (fun _ _ h' => meets_each hstep h') (fun _ _ h' => h')
      fun _ h' => h'

/-- The same for `gather`; the invariant also speaks of the answers so far. -/
theorem meets_gather {γ : Type} {f : β → Prog σ ε (List γ)} {I : List β → List γ → σ → Prop}
    {E : ε → σ → Prop} {D : σ → Prop}
    (hstep : ∀ x xs acc t, I (x :: xs) acc t →
      Meets (f x) t ⟨fun here => I xs (acc ++ here), E, D⟩) :
    ∀ {l : List β} {acc : List γ} {t : σ}, I l acc t →
      Meets (gather l f) t ⟨fun rest => I [] (acc ++ rest), E, D⟩
  | [], acc, _, h => by simpa [gather] using h
  | x :: xs, acc, t, h => by
    simp only [gather, meets_bind]
    refine (hstep x xs acc t h).mono ?_ (fun _ _ h' => h') fun _ h' => h'
    intro here t' h'
    refine (meets_gather hstep h').mono ?_ (fun _ _ h => h) fun _ h => h
    intro rest t'' h''
    simpa using h''

end Prog

/-! ### What a program may do to the state -/

/-- A relation between the states before and after a piece of a program that holds
when nothing happens and composes: “only this has changed”, “this has only grown”,
“this has been kept”. What a death may leave is said on its own. -/
structure Frame (σ : Type) where
  /-- The relation itself. -/
  rel : σ → σ → Prop
  /-- What is left of it when the program dies. -/
  dead : σ → σ → Prop
  refl : ∀ s, rel s s
  trans : ∀ {a b c}, rel a b → rel b c → rel a c
  trans_dead : ∀ {a b c}, rel a b → dead b c → dead a c

namespace Frame

variable {σ ρ α : Type}

/-- A relation that a death respects like everything else. -/
def through (rel : σ → σ → Prop) (refl : ∀ s, rel s s)
    (trans : ∀ {a b c}, rel a b → rel b c → rel a c) : Frame σ where
  rel := rel
  dead := rel
  refl := refl
  trans := trans
  trans_dead := trans

/-- A relation that says nothing about a death. -/
def alive (rel : σ → σ → Prop) (refl : ∀ s, rel s s)
    (trans : ∀ {a b c}, rel a b → rel b c → rel a c) : Frame σ where
  rel := rel
  dead _ _ := True
  refl := refl
  trans := trans
  trans_dead _ _ := trivial

/-- Anything may happen. -/
def any : Frame σ := through (fun _ _ => True) (fun _ => trivial) fun _ _ => trivial

/-- Both frames at once. -/
def and (R S : Frame σ) : Frame σ where
  rel s t := R.rel s t ∧ S.rel s t
  dead s t := R.dead s t ∧ S.dead s t
  refl s := ⟨R.refl s, S.refl s⟩
  trans h₁ h₂ := ⟨R.trans h₁.1 h₂.1, S.trans h₁.2 h₂.2⟩
  trans_dead h₁ h₂ := ⟨R.trans_dead h₁.1 h₂.1, S.trans_dead h₁.2 h₂.2⟩

/-- Whatever `f` shows of the state stays as it is. -/
def keeping (f : σ → α) : Frame σ :=
  through (fun s t => f t = f s) (fun _ => rfl) fun h₁ h₂ => h₂.trans h₁

/-- The property `I` is not lost. -/
def preserving (I : σ → Prop) : Frame σ :=
  through (fun s t => I s → I t) (fun _ => id) fun h₁ h₂ => h₂ ∘ h₁

end Frame

namespace Prog

variable {σ ρ ε ε' α β : Type} {R : Frame σ}

/-- **The frame rule**: however `p` ends, the state it leaves is related to the
state it found. -/
def Within (R : Frame σ) (p : Prog σ ε α) : Prop :=
  ∀ s, Meets p s ⟨fun _ => R.rel s, fun _ => R.rel s, R.dead s⟩

theorem Within.mono {S : Frame σ} {p : Prog σ ε α} (h : Within R p)
    (hRS : ∀ s t, R.rel s t → S.rel s t) (hdead : ∀ s t, R.dead s t → S.dead s t) :
    Within S p :=
  fun s => (h s).mono (fun _ => hRS s) (fun _ => hRS s) (hdead s)

theorem within_and {S : Frame σ} {p : Prog σ ε α} (h : Within R p) (h' : Within S p) :
    Within (R.and S) p := fun s => (h s).and (h' s)

theorem Within.left {S : Frame σ} {p : Prog σ ε α} (h : Within (R.and S) p) : Within R p :=
  h.mono (fun _ _ h => h.1) fun _ _ h => h.1

theorem within_pure (a : α) : Within R (pure a : Prog σ ε α) := fun s => R.refl s

theorem within_read (f : σ → α) : Within R (read f : Prog σ ε α) := fun s => R.refl s

theorem within_throw (e : ε) : Within R (throw e : Prog σ ε α) := fun s => R.refl s

theorem within_modify {f : σ → σ} (h : ∀ s, R.rel s (f s)) :
    Within R (modify f : Prog σ ε Unit) := h

/-- From a state that is already related, a program within the frame ends related. -/
theorem Within.comp {p : Prog σ ε α} (h : Within R p) {s t : σ} (hst : R.rel s t) :
    Meets p t ⟨fun _ => R.rel s, fun _ => R.rel s, R.dead s⟩ :=
  (h t).mono (fun _ _ => R.trans hst) (fun _ _ => R.trans hst) fun _ => R.trans_dead hst

theorem within_bind {p : Prog σ ε α} {f : α → Prog σ ε β} (hp : Within R p)
    (hf : ∀ a, Within R (f a)) : Within R (p >>= f) := fun s =>
  meets_bind.2 ((hp s).mono (fun a _ h => (hf a).comp h) (fun _ _ h => h) fun _ h => h)

theorem within_ite {c : Prop} [Decidable c] {p q : Prog σ ε α} (hp : c → Within R p)
    (hq : ¬c → Within R q) : Within R (if c then p else q) := by
  split
  · next h => exact hp h
  · next h => exact hq h

theorem within_when {c : Prop} [Decidable c] {p : Prog σ ε Unit} (hp : c → Within R p) :
    Within R (when c p) :=
  within_ite hp fun _ => within_pure ()

theorem within_attempt {p : Prog σ ε α} (hp : Within R p) :
    Within R (attempt p : Prog σ ε' _) := fun s =>
  meets_attempt.2 (hp s)

theorem within_catching {p : Prog σ ε α} {k : ε → Prog σ ε' α} (hp : Within R p)
    (hk : ∀ e, Within R (k e)) : Within R (catching p k) := fun s =>
  meets_catching.2 ((hp s).mono (fun _ _ h => h) (fun e _ h => (hk e).comp h) fun _ h => h)

theorem within_onErr {p : Prog σ ε α} {q : Prog σ Empty Unit} (hp : Within R p)
    (hq : Within R q) : Within R (onErr p q) := fun s =>
  meets_onErr.2 ((hp s).mono (fun _ _ h => h)
    (fun _ _ h => (hq.comp h).mono (fun _ _ h => h) (fun e => e.elim) fun _ h => h) fun _ h => h)

theorem within_after {p : Prog σ ε α} {f : σ → σ} (hp : Within R p)
    (hf : ∀ s, R.rel s (f s)) : Within R (after p f) := fun s =>
  meets_after.2 ((hp s).mono (fun _ _ h => R.trans h (hf _)) (fun _ _ h => R.trans h (hf _))
    fun _ h => h)

theorem within_lift {p : Prog σ Empty α} (hp : Within R p) :
    Within R (lift p : Prog σ ε α) := fun s =>
  meets_lift.2 ((hp s).mono (fun _ _ h => h) (fun e => e.elim) fun _ h => h)

theorem within_gather {γ : Type} {f : β → Prog σ ε (List γ)} :
    ∀ {xs : List β}, (∀ x ∈ xs, Within R (f x)) → Within R (gather xs f)
  | [], _ => within_pure _
  | x :: xs, h => within_bind (h x (by simp)) fun _ =>
      within_bind (within_gather fun y hy => h y (List.mem_cons_of_mem x hy)) fun _ =>
        within_pure _

theorem within_each {f : β → Prog σ ε Unit} :
    ∀ {xs : List β}, (∀ x ∈ xs, Within R (f x)) → Within R (each xs f)
  | [], _ => within_pure ()
  | x :: xs, h => within_bind (h x (by simp)) fun _ =>
      within_each fun y hy => h y (List.mem_cons_of_mem x hy)

end Prog

end Imperative

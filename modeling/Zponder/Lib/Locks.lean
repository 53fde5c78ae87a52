import Zponder.Lib.Machine

/-!
# Threads that take locks

What a thread does is, for the purpose of deadlocks, a list of locks to take and to give
back. Any number of threads work off such lists, one step at a time and in any order; a
thread that has come to the end of its list may begin another. A lock is held by one
thread at a time, and that thread may take it again if the lock is reentrant.

A deadlock is a set of threads each of which waits for a lock that another of them holds
(`Imperative.Locks.State.Deadlocked`). There is none while the locks can be ranked so that
what is under way never takes a lock whose rank is not above those of the locks it holds,
taking a reentrant lock again apart (`Imperative.Locks.not_deadlocked`). One ranking need
not do for everything that ever runs: it has to do for what runs at the same time.
-/

namespace Imperative

namespace Locks

/-- Take a lock, or give it back. -/
inductive Op (L : Type) where
  | acquire (l : L)
  | release (l : L)

/-- Who holds a lock, how often, and what a thread does and what is left of it. -/
structure State (T L J : Type) where
  owner : L → Option T := fun _ => none
  depth : L → Nat := fun _ => 0
  job : T → Option J := fun _ => none
  todo : T → List (Op L) := fun _ => []

/-- A thread begins something, or goes on. -/
inductive Act (T J : Type) where
  | start (t : T) (job : J)
  | go (t : T)

section Machine

variable {T L J : Type} [DecidableEq T] [DecidableEq L]

/-- The thread goes on with the rest of its list. -/
def State.goOn (s : State T L J) (t : T) (l : L) (owner : Option T) (depth : Nat)
    (rest : List (Op L)) : State T L J where
  owner := Function.update s.owner l owner
  depth := Function.update s.depth l depth
  job := s.job
  todo := Function.update s.todo t rest

/-- Take a lock: one that is free, or a reentrant one of one's own. -/
def acquire (reentrant : L → Bool) (s : State T L J) (t : T) (l : L) (rest : List (Op L)) :
    Option (State T L J) :=
  match s.owner l with
  | none => some (s.goOn t l (some t) 1 rest)
  | some u =>
    if u = t ∧ reentrant l = true then some (s.goOn t l (some t) (s.depth l + 1) rest) else none

/-- Give a lock back: it is free when that was done as often as it was taken. -/
def release (s : State T L J) (t : T) (l : L) (rest : List (Op L)) : Option (State T L J) :=
  if s.owner l = some t then
    if s.depth l = 1 then some (s.goOn t l none 0 rest)
    else some (s.goOn t l (some t) (s.depth l - 1) rest)
  else none

variable (reentrant : L → Bool) (ops : J → List (Op L))

/-- A thread with nothing to do may begin any job. -/
def step (s : State T L J) : Act T J → Option (State T L J)
  | .start t job =>
    match s.todo t with
    | [] => some { s with
        job := Function.update s.job t (some job)
        todo := Function.update s.todo t (ops job) }
    | _ => none
  | .go t =>
    match s.todo t with
    | [] => none
    | .acquire l :: rest => acquire reentrant s t l rest
    | .release l :: rest => release s t l rest

/-- Threads that do the jobs `ops` describes. -/
def threads : Machine (State T L J) (Act T J) where
  init := {}
  step := step reentrant ops

end Machine

section Deadlock

variable {T L J : Type}

/-- The thread is at work. -/
def State.Busy (s : State T L J) (t : T) : Prop := s.todo t ≠ []

/-- `t` can do nothing until `u` gives `l` back. -/
def State.Waits (s : State T L J) (t u : T) (l : L) : Prop :=
  (∃ rest, s.todo t = .acquire l :: rest) ∧ s.owner l = some u ∧ u ≠ t

/-- Each of some threads waits for a lock that another of them holds. -/
def State.Deadlocked (s : State T L J) : Prop :=
  ∃ D : Set T, D.Nonempty ∧ ∀ t ∈ D, ∃ u ∈ D, ∃ l, s.Waits t u l

end Deadlock

section Busy

variable {T L J : Type} [DecidableEq T] [DecidableEq L] {reentrant : L → Bool}
  {ops : J → List (Op L)} {s s' : State T L J} {t : T}

/-- A thread that goes on has something to do, and it is the only one that may have less
to do afterwards. -/
theorem step_go (h : step reentrant ops s (.go t) = some s') :
    s'.job = s.job ∧ ∀ u, s'.Busy u → s.Busy u := by
  have hgo : ∀ {l owner depth rest o}, s.todo t = o :: rest →
      (s.goOn t l owner depth rest).job = s.job ∧
        ∀ u, (s.goOn t l owner depth rest).Busy u → s.Busy u := by
    intro l owner depth rest o htodo
    refine ⟨rfl, fun u hu => ?_⟩
    by_cases hut : u = t
    · subst hut
      rw [State.Busy, htodo]
      simp
    · simpa [State.Busy, State.goOn, hut] using hu
  simp only [step] at h
  split at h
  · cases h
  · next l rest htodo =>
    unfold acquire at h
    split at h
    · exact Option.some.inj h ▸ hgo htodo
    · split at h
      · exact Option.some.inj h ▸ hgo htodo
      · cases h
  · next l rest htodo =>
    unfold release at h
    split at h
    · split at h <;> exact Option.some.inj h ▸ hgo htodo
    · cases h

/-- A thread that begins something had nothing to do. -/
theorem step_start {job : J} (h : step reentrant ops s (.start t job) = some s') :
    s'.job = Function.update s.job t (some job) ∧ ∀ u, u ≠ t → (s'.Busy u ↔ s.Busy u) := by
  simp only [step] at h
  split at h
  · obtain rfl := Option.some.inj h
    refine ⟨rfl, fun u hu => ?_⟩
    simp [State.Busy, Function.update_of_ne hu]
  · cases h

end Busy

/-! ### Jobs that respect the ranks -/

section Ordered

variable {L : Type} [DecidableEq L] (reentrant : L → Bool) (rank : L → Nat)

/-- A lock may be taken next. -/
def MayTake (held : List L) (l : L) : Prop :=
  if l ∈ held then reentrant l = true else ∀ h ∈ held, rank h < rank l

/-- With the locks `held`, the rest of a job takes locks in the order of their ranks,
gives back what it holds, and in the end holds nothing. -/
def Ordered : List L → List (Op L) → Prop
  | held, [] => held = []
  | held, .acquire l :: rest => MayTake reentrant rank held l ∧ Ordered (l :: held) rest
  | held, .release l :: rest => l ∈ held ∧ Ordered (held.erase l) rest

/-- A piece of a job that respects the ranks and leaves the locks as they were. -/
def Balanced (held : List L) (body : List (Op L)) : Prop :=
  ∀ rest, Ordered reentrant rank held rest → Ordered reentrant rank held (body ++ rest)

/-- Do something with a lock. -/
def hold (l : L) (body : List (Op L)) : List (Op L) := .acquire l :: (body ++ [.release l])

variable {reentrant rank} {held : List L} {l : L} {body body' : List (Op L)}

theorem balanced_nil : Balanced reentrant rank held [] := fun _ h => h

theorem Balanced.append (h : Balanced reentrant rank held body)
    (h' : Balanced reentrant rank held body') : Balanced reentrant rank held (body ++ body') := by
  intro rest hrest
  rw [List.append_assoc]
  exact h _ (h' _ hrest)

theorem Balanced.hold (htake : MayTake reentrant rank held l)
    (h : Balanced reentrant rank (l :: held) body) :
    Balanced reentrant rank held (hold l body) := by
  intro rest hrest
  refine ⟨htake, ?_⟩
  change Ordered reentrant rank (l :: held) ((body ++ [.release l]) ++ rest)
  rw [List.append_assoc]
  refine h _ ⟨List.mem_cons_self, ?_⟩
  rwa [List.erase_cons_head]

theorem balanced_flatMap {α : Type} {f : α → List (Op L)} {xs : List α}
    (h : ∀ x ∈ xs, Balanced reentrant rank held (f x)) :
    Balanced reentrant rank held (xs.flatMap f) := by
  induction xs with
  | nil => exact balanced_nil
  | cons x xs ih =>
    rw [List.flatMap_cons]
    exact (h x List.mem_cons_self).append (ih fun y hy => h y (List.mem_cons_of_mem x hy))

/-- A job that begins with nothing. -/
theorem Balanced.ordered (h : Balanced reentrant rank [] body) : Ordered reentrant rank [] body := by
  have hrest : Ordered reentrant rank ([] : List L) [] := rfl
  simpa using h [] hrest

/-- A lock that comes after all that are held. -/
theorem mayTake_of_lt (h : ∀ h ∈ held, rank h < rank l) : MayTake reentrant rank held l := by
  unfold MayTake
  split
  · next hmem => exact absurd (h l hmem) (lt_irrefl _)
  · exact h

/-- A reentrant lock, once more. -/
theorem mayTake_again (hr : reentrant l = true) (hmem : l ∈ held) :
    MayTake reentrant rank held l := by
  rw [MayTake, if_pos hmem]
  exact hr

end Ordered

/-! ### No deadlock -/

section Invariant

variable {T L J R : Type} [DecidableEq L] {reentrant : L → Bool}
  {ops : J → List (Op L)} {rank : R → L → Nat} {respects : R → J → Prop} {s s' : State T L J}

/-- Every thread holds the locks of a list, and goes on from there in the order of every
ranking its job respects. -/
structure Inv (reentrant : L → Bool) (rank : R → L → Nat) (respects : R → J → Prop)
    (s : State T L J) (stack : T → List L) : Prop where
  idle : ∀ t, s.job t = none → stack t = [] ∧ s.todo t = []
  ordered : ∀ t job, s.job t = some job → ∀ r, respects r job →
    Ordered reentrant (rank r) (stack t) (s.todo t)
  holds : ∀ t l, s.owner l = some t ↔ l ∈ stack t
  depth : ∀ t l, s.owner l = some t → s.depth l = (stack t).count l

theorem inv_init : Inv reentrant rank respects ({} : State T L J) fun _ => [] where
  idle _ _ := ⟨rfl, rfl⟩
  ordered _ _ := by simp
  holds _ _ := ⟨by simp, by simp⟩
  depth _ _ := by simp

/-- A thread at work has a job. -/
theorem Inv.job_of_todo {stack : T → List L} (hI : Inv reentrant rank respects s stack) {t : T}
    {o : Op L} {rest : List (Op L)} (htodo : s.todo t = o :: rest) : ∃ job, s.job t = some job := by
  rcases hjob : s.job t with _ | job
  · rw [(hI.idle t hjob).2] at htodo
    cases htodo
  · exact ⟨job, rfl⟩

/-- A thread that waits for a lock holds only locks of lower rank, in every ranking its
job respects. -/
theorem Inv.rank_lt {stack : T → List L} (hI : Inv reentrant rank respects s stack) {r : R}
    (hr : ∀ t job, s.job t = some job → s.Busy t → respects r job) {t u v : T} {l l' : L}
    (h : s.Waits t u l) (h' : s.Waits u v l') : rank r l < rank r l' := by
  obtain ⟨-, hown, -⟩ := h
  obtain ⟨⟨rest, htodo⟩, hown', hne⟩ := h'
  obtain ⟨job, hjob⟩ := hI.job_of_todo htodo
  have hbusy : s.Busy u := by
    rw [State.Busy, htodo]
    simp
  have htake : MayTake reentrant (rank r) (stack u) l' := by
    have h := hI.ordered u job hjob r (hr u job hjob hbusy)
    rw [htodo] at h
    exact h.1
  have hnot : l' ∉ stack u := fun hl =>
    hne (Option.some.inj (hown'.symm.trans ((hI.holds u l').2 hl)))
  rw [MayTake, if_neg hnot] at htake
  exact htake l ((hI.holds u l).1 hown)

/-- **Ranks exclude deadlocks**: around a set of waiting threads they would grow without
end. -/
theorem Inv.not_deadlocked {stack : T → List L} (hI : Inv reentrant rank respects s stack)
    {N : Nat} (hN : ∀ r l, rank r l < N) {r : R}
    (hr : ∀ t job, s.job t = some job → s.Busy t → respects r job) : ¬s.Deadlocked := by
  rintro ⟨D, ⟨t₀, ht₀⟩, hD⟩
  -- by induction on what is left above the rank of the lock that is waited for
  have hgrow : ∀ n, ∃ t ∈ D, ∃ u ∈ D, ∃ l, s.Waits t u l ∧ n ≤ rank r l := by
    intro n
    induction n with
    | zero =>
      obtain ⟨u, hu, l, hw⟩ := hD t₀ ht₀
      exact ⟨t₀, ht₀, u, hu, l, hw, Nat.zero_le _⟩
    | succ n ih =>
      obtain ⟨t, -, u, hu, l, hw, hn⟩ := ih
      obtain ⟨v, hv, l', hw'⟩ := hD u hu
      exact ⟨u, hu, v, hv, l', hw', hn.trans_lt (hI.rank_lt hr hw hw')⟩
  obtain ⟨-, -, -, -, l, -, hl⟩ := hgrow N
  exact absurd (hN r l) hl.not_gt

/-! ### The invariant is kept -/

variable [DecidableEq T]

/-- **What a step changes**: one lock, and one thread's list of what it holds and of what
it has to do. -/
theorem Inv.goOn {stack : T → List L} (hI : Inv reentrant rank respects s stack) {t : T} {l : L}
    {owner : Option T} {depth : Nat} {rest : List (Op L)} {held : List L} {job : J}
    (hjob : s.job t = some job)
    (hordered : ∀ r, respects r job → Ordered reentrant (rank r) held rest)
    (hown : owner = some t ↔ l ∈ held) (hothers : ∀ u, u ≠ t → owner ≠ some u ∧ l ∉ stack u)
    (hdepth : owner = some t → depth = held.count l)
    (hsame : ∀ l', l' ≠ l → held.count l' = (stack t).count l') :
    Inv reentrant rank respects (s.goOn t l owner depth rest) (Function.update stack t held) := by
  have hmem : ∀ l', l' ≠ l → (l' ∈ held ↔ l' ∈ stack t) := by
    intro l' hne
    rw [← List.count_pos_iff, hsame l' hne, List.count_pos_iff]
  constructor
  · intro u hu
    have hne : u ≠ t := by
      rintro rfl
      cases hu.symm.trans hjob
    simpa [State.goOn, hne] using hI.idle u hu
  · intro u job' hjob' r hr
    by_cases hu : u = t
    · subst hu
      obtain rfl := Option.some.inj (hjob.symm.trans hjob')
      simpa [State.goOn] using hordered r hr
    · simpa [State.goOn, hu] using hI.ordered u job' hjob' r hr
  · intro u l'
    by_cases hl : l' = l
    · subst hl
      by_cases hu : u = t
      · subst hu
        simpa [State.goOn] using hown
      · simpa [State.goOn, hu, (hothers u hu).2] using (hothers u hu).1
    · by_cases hu : u = t
      · subst hu
        simpa [State.goOn, hl, hmem l' hl] using hI.holds u l'
      · simpa [State.goOn, hl, hu] using hI.holds u l'
  · intro u l' ho
    by_cases hl : l' = l
    · subst hl
      by_cases hu : u = t
      · subst hu
        simp only [State.goOn, Function.update_self] at ho ⊢
        exact hdepth ho
      · simp only [State.goOn, Function.update_self] at ho
        exact absurd ho (hothers u hu).1
    · simp only [State.goOn, Function.update_of_ne hl] at ho ⊢
      by_cases hu : u = t
      · subst hu
        rw [Function.update_self, hsame l' hl]
        exact hI.depth u l' ho
      · rw [Function.update_of_ne hu]
        exact hI.depth u l' ho

theorem Inv.acquire {stack : T → List L} (hI : Inv reentrant rank respects s stack) {t : T}
    {l : L} {rest : List (Op L)} (htodo : s.todo t = .acquire l :: rest)
    (hstep : acquire reentrant s t l rest = some s') :
    ∃ stack, Inv reentrant rank respects s' stack := by
  obtain ⟨job, hjob⟩ := hI.job_of_todo htodo
  have hord : ∀ r, respects r job → Ordered reentrant (rank r) (l :: stack t) rest := by
    intro r hr
    have h := hI.ordered t job hjob r hr
    rw [htodo] at h
    exact h.2
  have hsame : ∀ l', l' ≠ l → (l :: stack t).count l' = (stack t).count l' := fun l' hne =>
    List.count_cons_of_ne hne.symm
  have hmem : some t = some t ↔ l ∈ l :: stack t := ⟨fun _ => List.mem_cons_self, fun _ => rfl⟩
  have hnot : ∀ u, u ≠ t → (some t : Option T) ≠ some u := fun u hu h =>
    hu (Option.some.inj h).symm
  unfold Locks.acquire at hstep
  split at hstep
  · next hfree =>
    obtain rfl := Option.some.inj hstep
    have hnone : ∀ u, l ∉ stack u := by
      intro u hu
      rw [(hI.holds u l).2 hu] at hfree
      cases hfree
    refine ⟨_, hI.goOn hjob hord hmem (fun u hu => ⟨hnot u hu, hnone u⟩) (fun _ => ?_) hsame⟩
    rw [List.count_cons_self, List.count_eq_zero_of_not_mem (hnone t)]
  · next u hu =>
    split at hstep
    · next h =>
      obtain rfl := Option.some.inj hstep
      obtain rfl := h.1
      refine ⟨_, hI.goOn hjob hord hmem (fun v hv => ⟨hnot v hv, fun hl => ?_⟩) (fun _ => ?_) hsame⟩
      · exact hv (Option.some.inj (((hI.holds v l).2 hl).symm.trans hu))
      · rw [List.count_cons_self, hI.depth u l hu]
    · cases hstep

theorem Inv.release {stack : T → List L} (hI : Inv reentrant rank respects s stack)
    (hsome : ∀ job, ∃ r, respects r job) {t : T} {l : L} {rest : List (Op L)}
    (htodo : s.todo t = .release l :: rest) (hstep : release s t l rest = some s') :
    ∃ stack, Inv reentrant rank respects s' stack := by
  obtain ⟨job, hjob⟩ := hI.job_of_todo htodo
  have hord : ∀ r, respects r job →
      l ∈ stack t ∧ Ordered reentrant (rank r) ((stack t).erase l) rest := by
    intro r hr
    have h := hI.ordered t job hjob r hr
    rwa [htodo] at h
  have hsame : ∀ l', l' ≠ l → ((stack t).erase l).count l' = (stack t).count l' := fun l' hne =>
    List.count_erase_of_ne hne
  unfold Locks.release at hstep
  split at hstep
  · next hown =>
    have hdepth := hI.depth t l hown
    have hothers : ∀ u, u ≠ t → l ∉ stack u := fun u hu hl =>
      hu (Option.some.inj (((hI.holds u l).2 hl).symm.trans hown))
    have hcount : ((stack t).erase l).count l = (stack t).count l - 1 := List.count_erase_self
    split at hstep
    · next hone =>
      obtain rfl := Option.some.inj hstep
      refine ⟨_, hI.goOn hjob (fun r hr => (hord r hr).2) ⟨by simp, fun hl => ?_⟩
        (fun u hu => ⟨by simp, hothers u hu⟩) (by simp) hsame⟩
      have hpos := List.count_pos_iff.2 hl
      omega
    · next hmore =>
      obtain rfl := Option.some.inj hstep
      obtain ⟨r, hr⟩ := hsome job
      have hpos := List.count_pos_iff.2 (hord r hr).1
      refine ⟨_, hI.goOn hjob (fun r hr => (hord r hr).2) ⟨fun _ => ?_, fun _ => rfl⟩
        (fun u hu => ⟨fun h => hu (Option.some.inj h).symm, hothers u hu⟩) (fun _ => ?_) hsame⟩
      · rw [← List.count_pos_iff]
        omega
      · rw [hcount, hdepth]
  · cases hstep

/-- **A step keeps the invariant**, if every job goes by the rankings it respects. -/
theorem Inv.step {stack : T → List L} (hI : Inv reentrant rank respects s stack)
    (hsome : ∀ job, ∃ r, respects r job)
    (hops : ∀ r job, respects r job → Ordered reentrant (rank r) [] (ops job)) {a : Act T J}
    (hstep : step reentrant ops s a = some s') : ∃ stack, Inv reentrant rank respects s' stack := by
  cases a with
  | start t job =>
    simp only [Locks.step] at hstep
    split at hstep
    · next hidle =>
      obtain rfl := Option.some.inj hstep
      have hnone : stack t = [] := by
        rcases hjob : s.job t with _ | old
        · exact (hI.idle t hjob).1
        · obtain ⟨r, hr⟩ := hsome old
          have h := hI.ordered t old hjob r hr
          rwa [hidle] at h
      refine ⟨stack, ⟨fun u hu => ?_, fun u job' hjob r hr => ?_, hI.holds, hI.depth⟩⟩
      · replace hu : Function.update s.job t (some job) u = none := hu
        have hne : u ≠ t := by
          rintro rfl
          simp at hu
        rw [Function.update_of_ne hne] at hu
        simpa [hne] using hI.idle u hu
      · replace hjob : Function.update s.job t (some job) u = some job' := hjob
        by_cases hu : u = t
        · subst hu
          rw [Function.update_self] at hjob
          obtain rfl := Option.some.inj hjob
          simpa [hnone] using hops r job hr
        · rw [Function.update_of_ne hu] at hjob
          simpa [hu] using hI.ordered u job' hjob r hr
    · cases hstep
  | go t =>
    simp only [Locks.step] at hstep
    split at hstep
    · cases hstep
    · next l rest htodo => exact hI.acquire htodo hstep
    · next l rest htodo => exact hI.release hsome htodo hstep

/-- **No run comes to a deadlock** while one ranking is respected by all that is under
way. -/
theorem not_deadlocked {N : Nat} (hN : ∀ r l, rank r l < N) (hsome : ∀ job, ∃ r, respects r job)
    (hops : ∀ r job, respects r job → Ordered reentrant (rank r) [] (ops job))
    (h : (threads (T := T) reentrant ops).Reachable s) {r : R}
    (hr : ∀ t job, s.job t = some job → s.Busy t → respects r job) : ¬s.Deadlocked := by
  have hI : ∃ stack, Inv reentrant rank respects s stack := by
    refine h.invariant (I := fun s => ∃ stack, Inv reentrant rank respects s stack)
      ⟨_, inv_init⟩ fun s a t hI _ hstep => ?_
    obtain ⟨stack, hI⟩ := hI
    exact hI.step hsome hops hstep
  obtain ⟨stack, hI⟩ := hI
  exact hI.not_deadlocked hN hr

end Invariant

end Locks

end Imperative

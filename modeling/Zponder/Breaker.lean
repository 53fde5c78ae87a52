import Zponder.Lib.Machine

/-!
# The circuit breaker

The client of a node is used by many threads, and has a circuit breaker in front of its requests:
three atomics, the state, the time of the last failure and the count of failures, which the calls
of `rpcCallWithRetry` load and store. A call is a loop that tries again; each load and each store
of it, each request and each look at the clock is a step here, and the threads take their steps
in any order.

What a breaker is for is `Zponder.Breaker.Obeys`: no request is started within the timeout of an
opening, a request that fails while the breaker is half open opens it again and is the last of its
call, and a success closes it. The code does not keep to it. A call looks at the state once,
before its loop, so that a call that opens the breaker goes on with its retries, and the one that
makes it half open takes it for open; and other calls that have passed the check before the
breaker opens start their requests behind it. Where neither comes about
(`Zponder.Breaker.Meets`) every run obeys (`Zponder.Breaker.obeys_of_meets`).

Besides what the code has, a world knows the times of the openings, the time of the last step, and
of each call what it has met with.
-/

namespace Zponder.Breaker

open Imperative

/-! ### Calls -/

/-- `CircuitState` -/
inductive CircuitState where
  | closed
  | open_
  | halfOpen
  deriving DecidableEq, Repr

/-- `CIRCUIT_THRESHOLD` -/
def circuitThreshold : Nat := 5

/-- `CIRCUIT_TIMEOUT_SEC` -/
def circuitTimeoutSec : Int := 30

def u32Max : Nat := 2 ^ 32 - 1

/-- The atomics of a client. -/
structure Client where
  circuitState : CircuitState := .closed
  circuitLastFailure : Int := 0
  circuitFailures : Nat := 0
  urlIndex : Nat := 0
  deriving DecidableEq, Repr

/-- How a request ends. -/
inductive Outcome where
  | success
  | rpcLimitExceeded
  | failed
  deriving DecidableEq, Repr

/-- What a thread does next. Behind `storeOpen` it is the opening at the threshold, behind
`reopen` that of a call that has read `half_open`. -/
inductive Pc where
  | idle
  | loadLast
  | check (last : Int)
  | storeHalfOpen
  | attempt
  | storeZero
  | storeClosed
  | rotate
  | count
  | storeOpen
  | stamp
  | storeLast (now : Int)
  | asleep
  | reopen
  | restamp
  | restoreLast (now : Int)
  deriving DecidableEq, Repr

/-- A call of `rpcCallWithRetry`: where it is, `state`, `attempt`, and what it has met with: a
success, the reset of the count behind it, a failure in the half-open state, an opening since. -/
structure Call where
  pc : Pc := .idle
  state : CircuitState := .closed
  attempt : Nat := 0
  answered : Bool := false
  reset : Bool := false
  tripped : Bool := false
  reopened : Bool := false
  deriving DecidableEq, Repr

/-- `if (attempt > self.config.retry_count) return e;`, and the pause. -/
def Call.giveUp (retryCount : Nat) (c : Call) : Pc :=
  if retryCount < c.attempt then .idle else .asleep

/-- A step of a call, at a time. Where a count of 32 bits is at its end the program ends. -/
def Call.step (retryCount : Nat) (now : Int) (outcome : Outcome) (m : Client) (c : Call) :
    Option (Client × Call) :=
  match c.pc with
  | .idle =>
    some (m, { pc := if m.circuitState = .open_ then .loadLast else .attempt,
               state := m.circuitState })
  | .loadLast => some (m, { c with pc := .check m.circuitLastFailure })
  | .check last =>
    some (m, { c with pc := if now - last < circuitTimeoutSec then .idle else .storeHalfOpen })
  | .storeHalfOpen => some ({ m with circuitState := .halfOpen }, { c with pc := .attempt })
  | .attempt =>
    match outcome with
    | .success => some (m, { c with pc := .storeZero, answered := true })
    | .rpcLimitExceeded => some (m, { c with pc := .idle })
    | .failed =>
      if c.attempt < u32Max then
        some (m, { c with pc := .rotate, attempt := c.attempt + 1, reopened := false,
                          tripped := c.tripped || decide (m.circuitState = .halfOpen) })
      else none
  | .storeZero =>
    some ({ m with circuitFailures := 0 }, { c with pc := .storeClosed, reset := true })
  | .storeClosed => some ({ m with circuitState := .closed }, { c with pc := .idle })
  | .rotate => some ({ m with urlIndex := (m.urlIndex + 1) % 2 ^ 64 }, { c with pc := .count })
  | .count =>
    if m.circuitFailures < u32Max then
      some ({ m with circuitFailures := m.circuitFailures + 1 },
        { c with pc := if circuitThreshold ≤ m.circuitFailures + 1 then .storeOpen
                       else c.giveUp retryCount })
    else none
  | .storeOpen =>
    some ({ m with circuitState := .open_ }, { c with pc := .stamp, reopened := true })
  | .stamp => some (m, { c with pc := .storeLast now })
  | .storeLast t => some ({ m with circuitLastFailure := t }, { c with pc := c.giveUp retryCount })
  | .asleep => some (m, { c with pc := if c.state = .halfOpen then .reopen else .attempt })
  | .reopen => some ({ m with circuitState := .open_ }, { c with pc := .restamp, reopened := true })
  | .restamp => some (m, { c with pc := .restoreLast now })
  | .restoreLast t => some ({ m with circuitLastFailure := t }, { c with pc := .idle })

/-! ### Threads -/

/-- A client and its threads, when the breaker was opened, and the time. -/
structure World (ι : Type) where
  client : Client
  calls : ι → Call
  openings : List Int
  clock : Int

/-- Whose turn it is, at what time, and how a request ends, if the step is one. -/
structure Turn (ι : Type) where
  thread : ι
  now : Int
  outcome : Outcome := .failed

variable {ι : Type} [DecidableEq ι]

/-- A step that stores `open`. -/
def Pc.Opens (pc : Pc) : Prop := pc = .storeOpen ∨ pc = .reopen

instance (pc : Pc) : Decidable pc.Opens := inferInstanceAs (Decidable (_ ∨ _))

/-- A step of a thread. -/
def step (retryCount : Nat) (w : World ι) (a : Turn ι) : Option (World ι) :=
  ((w.calls a.thread).step retryCount a.now a.outcome w.client).map fun r =>
    { client := r.1
      calls := Function.update w.calls a.thread r.2
      openings := if (w.calls a.thread).pc.Opens then a.now :: w.openings else w.openings
      clock := a.now }

/-- The threads of a client, none of which has begun. -/
def breaker (ι : Type) [DecidableEq ι] (retryCount : Nat) (start : Int) :
    Machine (World ι) (Turn ι) where
  init := ⟨{}, fun _ => {}, [], start⟩
  step := step retryCount

/-! ### What a breaker is for -/

/-- **A step obeys the breaker.** -/
structure Obeys (w : World ι) (a : Turn ι) (w' : World ι) : Prop where
  /-- No request is started within the timeout of an opening, -/
  wait : (w.calls a.thread).pc = .attempt → ∀ t ∈ w.openings, t + circuitTimeoutSec ≤ a.now
  /-- nor by a call that has had a failure in the half-open state, -/
  single : (w.calls a.thread).pc = .attempt → (w.calls a.thread).tripped = false
  /-- which has opened it again when it returns. -/
  reopens : (w'.calls a.thread).pc = .idle → (w.calls a.thread).tripped = true →
    (w.calls a.thread).reopened = true
  /-- A call that returns with a success has reset the count, and leaves the breaker closed. -/
  closes : (w'.calls a.thread).pc = .idle → (w.calls a.thread).answered = true →
    (w.calls a.thread).reset = true ∧ w'.client.circuitState = .closed
  resets : (w.calls a.thread).pc = .storeZero → w'.client.circuitFailures = 0

/-! ### When the threads keep to it -/

/-- No other call is in progress. -/
def Alone (w : World ι) (i : ι) : Prop := ∀ j, j ≠ i → (w.calls j).pc = .idle

/-- A call is opening the breaker: it has had a failure in the half-open state or reached the
threshold, or woken up to open it again, and has not stored the time yet. -/
def Call.Opening (c : Call) : Prop :=
  match c.pc with
  | .rotate | .count => c.tripped = true
  | .storeOpen | .stamp | .storeLast _ | .reopen | .restamp | .restoreLast _ => True
  | _ => False

/-- A call that does not try again: it has no retry left, or it has read `half_open`. -/
def Call.Last (retryCount : Nat) (c : Call) : Prop := retryCount < c.attempt ∨ c.state = .halfOpen

/-- **The turns that go well.** -/
structure Meets (retryCount : Nat) (w : World ι) (a : Turn ι) : Prop where
  /-- The clock is not set back. -/
  clock : w.clock ≤ a.now
  /-- No call begins while another is opening the breaker. -/
  begins : (w.calls a.thread).pc = .idle → ∀ j, ¬(w.calls j).Opening
  /-- A failure in the half-open state is that of the only call in progress, and either brings
  the count to the threshold and is the last of its call, or is of a call that has read
  `half_open` and pauses. -/
  trips : (w.calls a.thread).pc = .attempt → a.outcome = .failed →
    w.client.circuitState = .halfOpen → Alone w a.thread ∧
      ((circuitThreshold ≤ w.client.circuitFailures + 1 ∧
          (retryCount < (w.calls a.thread).attempt + 1 ∨
            (w.calls a.thread).state = .halfOpen)) ∨
        ((w.calls a.thread).state = .halfOpen ∧ (w.calls a.thread).attempt + 1 ≤ retryCount))
  /-- A failure that reaches the threshold is that of the only call in progress, and its last. -/
  counts : (w.calls a.thread).pc = .count →
    circuitThreshold ≤ w.client.circuitFailures + 1 →
      Alone w a.thread ∧ (w.calls a.thread).Last retryCount
  /-- A call that has read `half_open` is the only one in progress when it wakes up. -/
  wakes : (w.calls a.thread).pc = .asleep → (w.calls a.thread).state = .halfOpen →
    Alone w a.thread

/-! ### What a run keeps -/

/-- No opening is later than a time. -/
def Before (openings : List Int) (t : Int) : Prop := ∀ u ∈ openings, u ≤ t

/-- The timeout of every opening has passed. -/
def Passed (openings : List Int) (t : Int) : Prop := ∀ u ∈ openings, u + circuitTimeoutSec ≤ t

theorem Before.mono {openings : List Int} {t u : Int} (h : Before openings t) (htu : t ≤ u) :
    Before openings u :=
  fun v hv => (h v hv).trans htu

theorem Passed.mono {openings : List Int} {t u : Int} (h : Passed openings t) (htu : t ≤ u) :
    Passed openings u :=
  fun v hv => (h v hv).trans htu

theorem Before.passed {openings : List Int} {t u : Int} (h : Before openings t)
    (htu : t + circuitTimeoutSec ≤ u) : Passed openings u := by
  intro v hv
  have hvt := h v hv
  omega

/-- What is known of a call that has had a failure in the half-open state, before it opens the
breaker: either the count opens it, or it pauses and then does. -/
def Call.Trips (retryCount : Nat) (m : Client) (c : Call) : Prop :=
  m.circuitState = .halfOpen ∧
    ((circuitThreshold ≤ m.circuitFailures + 1 ∧ c.Last retryCount) ∨
      (c.state = .halfOpen ∧ c.attempt ≤ retryCount))

/-- A call has opened the breaker. -/
def Call.Opened (m : Client) (c : Call) : Prop := c.reopened = true ∧ m.circuitState = .open_

/-- What is known of a call, where it is. -/
def Call.Ok (retryCount : Nat) (m : Client) (openings : List Int) (clock : Int) (c : Call) :
    Prop :=
  match c.pc with
  | .idle | .reopen => True
  | .loadLast => c.tripped = false ∧ Before openings m.circuitLastFailure
  | .check last => c.tripped = false ∧ Before openings last
  | .storeHalfOpen | .attempt | .storeZero | .storeClosed =>
    c.tripped = false ∧ Passed openings clock
  | .rotate | .count => Passed openings clock ∧ (c.tripped = true → c.Trips retryCount m)
  | .storeOpen => c.Last retryCount
  | .stamp => c.Last retryCount ∧ c.Opened m
  | .storeLast t => c.Last retryCount ∧ c.Opened m ∧ Before openings t
  | .asleep => c.state = .halfOpen ∨ (c.tripped = false ∧ Passed openings clock)
  | .restamp => c.Opened m
  | .restoreLast t => c.Opened m ∧ Before openings t

/-- A success is told by what is still to be done behind it. -/
def Call.Told (c : Call) : Prop :=
  c.answered = true → c.pc = .idle ∨ c.pc = .storeZero ∨ (c.pc = .storeClosed ∧ c.reset = true)

/-- What is known of the breaker while no call is opening it. -/
def Quiet (m : Client) (openings : List Int) (clock : Int) : Prop :=
  if m.circuitState = .open_ then Before openings m.circuitLastFailure else Passed openings clock

/-- **What a run keeps whose steps go well.** -/
structure Inv (retryCount : Nat) (w : World ι) : Prop where
  early : Before w.openings w.clock
  /-- A call that is opening the breaker is the only one in progress. -/
  alone : ∀ i, (w.calls i).Opening → Alone w i
  quiet : (∀ i, ¬(w.calls i).Opening) → Quiet w.client w.openings w.clock
  calls : ∀ i, (w.calls i).Ok retryCount w.client w.openings w.clock
  told : ∀ i, (w.calls i).Told

variable {retryCount : Nat} {w w' : World ι} {a : Turn ι} {i : ι} {m m' : Client} {c c' : Call}
variable {openings : List Int} {clock clock' : Int}

theorem step_eq_some (h : step retryCount w a = some w') :
    ∃ m c, (w.calls a.thread).step retryCount a.now a.outcome w.client = some (m, c) ∧
      w' = { client := m
             calls := Function.update w.calls a.thread c
             openings := if (w.calls a.thread).pc.Opens then a.now :: w.openings else w.openings
             clock := a.now } := by
  obtain ⟨⟨m, c⟩, hc, hw⟩ := Option.map_eq_some_iff.1 h
  exact ⟨m, c, hc, hw.symm⟩

/-- What is known of a call that is not opening the breaker says nothing of the state. -/
theorem Call.Ok.keep (h : c.Ok retryCount m openings clock) (hc : ¬c.Opening)
    (hm : m'.circuitLastFailure = m.circuitLastFailure) (hclock : clock ≤ clock') :
    c.Ok retryCount m' openings clock' := by
  cases hpc : c.pc with
  | idle => simp only [Call.Ok, hpc]
  | loadLast =>
    simp only [Call.Ok, hpc] at h ⊢
    rwa [hm]
  | check last => simpa only [Call.Ok, hpc] using h
  | storeHalfOpen | attempt | storeZero | storeClosed =>
    simp only [Call.Ok, hpc] at h ⊢
    exact ⟨h.1, h.2.mono hclock⟩
  | rotate | count =>
    simp only [Call.Ok, hpc] at h ⊢
    simp only [Call.Opening, hpc] at hc
    exact ⟨h.1.mono hclock, fun ht => absurd ht hc⟩
  | asleep =>
    simp only [Call.Ok, hpc] at h ⊢
    exact h.imp_right fun h' => ⟨h'.1, h'.2.mono hclock⟩
  | storeOpen | stamp | storeLast | reopen | restamp | restoreLast =>
    simp only [Call.Opening, hpc, not_true_eq_false] at hc

theorem Quiet.keep (h : Quiet m openings clock) (hstate : m'.circuitState = m.circuitState)
    (hlast : m'.circuitLastFailure = m.circuitLastFailure) (hclock : clock ≤ clock') :
    Quiet m' openings clock' := by
  rw [Quiet] at h ⊢
  rw [hstate, hlast]
  split
  · rwa [if_pos ‹_›] at h
  · rw [if_neg ‹_›] at h
    exact h.mono hclock

theorem Quiet.of_passed (h : Passed openings clock) (hstate : m.circuitState ≠ .open_) :
    Quiet m openings clock := by
  rwa [Quiet, if_neg hstate]

theorem Quiet.of_before (h : Before openings m.circuitLastFailure)
    (hstate : m.circuitState = .open_) : Quiet m openings clock := by
  rwa [Quiet, if_pos hstate]

theorem Call.ok_of_idle (h : c.pc = .idle) : c.Ok retryCount m openings clock := by
  simp only [Call.Ok, h]

theorem Call.not_opening_of_idle (h : c.pc = .idle) : ¬c.Opening := by
  simp only [Call.Opening, h, not_false_eq_true]

/-! ### What is left after a step -/

/-- A step keeps what is known, if the call that takes it and the breaker are as they should be
behind it, and what is known of the other calls does not depend on it. -/
theorem Inv.after (hI : Inv retryCount w) (hearly : Before openings clock) (htold : c.Told)
    (hok : c.Ok retryCount m openings clock) (hquiet : ¬c.Opening → Quiet m openings clock)
    (halone : c.Opening → Alone w i)
    (hothers : ∀ j, j ≠ i → ¬(w.calls j).Opening ∧ (w.calls j).Ok retryCount m openings clock) :
    Inv retryCount ⟨m, Function.update w.calls i c, openings, clock⟩ := by
  have hself : Function.update w.calls i c i = c := Function.update_self ..
  have hother : ∀ j, j ≠ i → Function.update w.calls i c j = w.calls j :=
    fun j hj => Function.update_of_ne hj c w.calls
  constructor
  · exact hearly
  · intro j hj k hk
    by_cases hji : j = i
    · subst hji
      simp only [hself] at hj
      simpa only [hother k hk] using halone hj k hk
    · simp only [hother j hji] at hj
      exact absurd hj (hothers j hji).1
  · intro h
    refine hquiet fun hc => h i ?_
    simpa only [hself] using hc
  · intro j
    by_cases hji : j = i
    · subst hji
      simpa only [hself] using hok
    · simpa only [hother j hji] using (hothers j hji).2
  · intro j
    by_cases hji : j = i
    · subst hji
      simpa only [hself] using htold
    · simpa only [hother j hji] using hI.told j

omit [DecidableEq ι] in
/-- The other calls, while none is opening the breaker. -/
theorem Inv.others_of_calm (hI : Inv retryCount w) (hcalm : ∀ j, ¬(w.calls j).Opening)
    (hclock : w.clock ≤ clock) (hlast : m.circuitLastFailure = w.client.circuitLastFailure)
    (j : ι) : ¬(w.calls j).Opening ∧ (w.calls j).Ok retryCount m w.openings clock :=
  ⟨hcalm j, (hI.calls j).keep (hcalm j) hlast hclock⟩

omit [DecidableEq ι] in
/-- The other calls, while there are none. -/
theorem Alone.others (h : Alone w i) (j : ι) (hj : j ≠ i) :
    ¬(w.calls j).Opening ∧ (w.calls j).Ok retryCount m openings clock :=
  ⟨Call.not_opening_of_idle (h j hj), Call.ok_of_idle (h j hj)⟩

/-- A call that is not opening the breaker takes its steps while none is. -/
theorem Inv.calm (hI : Inv retryCount w) (hm : Meets retryCount w a)
    (h : ¬(w.calls a.thread).Opening) (j : ι) : ¬(w.calls j).Opening := by
  intro hj
  by_cases hja : j = a.thread
  · exact h (hja ▸ hj)
  · exact hm.begins (hI.alone j hj a.thread (Ne.symm hja)) j hj

/-- Only a call with a success behind it is told to have one. -/
theorem Call.told_step {outcome : Outcome} {now : Int} (h : c.Told)
    (hstep : c.step retryCount now outcome m = some (m', c')) : c'.Told := by
  -- Anywhere but behind a success there is none.
  have hfalse : c.pc ≠ .idle → c.pc ≠ .storeZero → c.pc ≠ .storeClosed → c.answered = false := by
    intro h1 h2 h3
    rw [← Bool.not_eq_true]
    intro ha
    rcases h ha with h' | h' | h'
    exacts [h1 h', h2 h', h3 h'.1]
  cases hpc : c.pc with
  | idle =>
    simp only [Call.step, hpc, Option.some.injEq, Prod.mk.injEq] at hstep
    obtain ⟨-, rfl⟩ := hstep
    exact fun ha => absurd ha Bool.false_ne_true
  | storeZero =>
    simp only [Call.step, hpc, Option.some.injEq, Prod.mk.injEq] at hstep
    obtain ⟨-, rfl⟩ := hstep
    exact fun _ => .inr (.inr ⟨rfl, rfl⟩)
  | storeClosed =>
    simp only [Call.step, hpc, Option.some.injEq, Prod.mk.injEq] at hstep
    obtain ⟨-, rfl⟩ := hstep
    exact fun _ => .inl rfl
  | attempt =>
    have ha := hfalse (by simp [hpc]) (by simp [hpc]) (by simp [hpc])
    cases outcome with
    | success =>
      simp only [Call.step, hpc, Option.some.injEq, Prod.mk.injEq] at hstep
      obtain ⟨-, rfl⟩ := hstep
      exact fun _ => .inr (.inl rfl)
    | rpcLimitExceeded =>
      simp only [Call.step, hpc, Option.some.injEq, Prod.mk.injEq] at hstep
      obtain ⟨-, rfl⟩ := hstep
      exact fun _ => .inl rfl
    | failed =>
      simp only [Call.step, hpc, Option.ite_none_right_eq_some, Option.some.injEq,
        Prod.mk.injEq] at hstep
      obtain ⟨-, -, rfl⟩ := hstep
      exact fun h' => absurd (ha.symm.trans h') Bool.false_ne_true
  | count =>
    have ha := hfalse (by simp [hpc]) (by simp [hpc]) (by simp [hpc])
    simp only [Call.step, hpc, Option.ite_none_right_eq_some, Option.some.injEq,
      Prod.mk.injEq] at hstep
    obtain ⟨-, -, rfl⟩ := hstep
    exact fun h' => absurd (ha.symm.trans h') Bool.false_ne_true
  | loadLast | check | storeHalfOpen | rotate | storeOpen | stamp | storeLast | asleep | reopen |
    restamp | restoreLast =>
    have ha := hfalse (by simp [hpc]) (by simp [hpc]) (by simp [hpc])
    simp only [Call.step, hpc, Option.some.injEq, Prod.mk.injEq] at hstep
    obtain ⟨-, rfl⟩ := hstep
    exact fun h' => absurd (ha.symm.trans h') Bool.false_ne_true

/-! ### What a step keeps -/

/-- A step of a call that is not opening the breaker. -/
theorem Inv.step_calm (hI : Inv retryCount w) (hm : Meets retryCount w a)
    (hcalm : ¬(w.calls a.thread).Opening)
    (hstep : (w.calls a.thread).step retryCount a.now a.outcome w.client = some (m, c)) :
    Inv retryCount ⟨m, Function.update w.calls a.thread c,
      if (w.calls a.thread).pc.Opens then a.now :: w.openings else w.openings, a.now⟩ := by
  have hall := hI.calm hm hcalm
  have hothers : m.circuitLastFailure = w.client.circuitLastFailure → ∀ j, j ≠ a.thread →
      ¬(w.calls j).Opening ∧ (w.calls j).Ok retryCount m w.openings a.now :=
    fun hlast j _ => hI.others_of_calm hall hm.clock hlast j
  have hearly := hI.early.mono hm.clock
  have htold := Call.told_step (hI.told a.thread) hstep
  have hok := hI.calls a.thread
  have hquiet := hI.quiet hall
  have hopens : ¬(w.calls a.thread).pc.Opens := by
    rintro (h | h) <;> exact hcalm (by simp only [Call.Opening, h])
  rw [if_neg hopens]
  cases hpc : (w.calls a.thread).pc with
  | idle =>
    simp only [Call.step, hpc, Option.some.injEq, Prod.mk.injEq] at hstep
    obtain ⟨rfl, rfl⟩ := hstep
    have hkeep := hquiet.keep rfl rfl hm.clock
    by_cases hstate : w.client.circuitState = .open_
    · rw [if_pos hstate] at htold ⊢
      rw [Quiet, if_pos hstate] at hquiet
      exact hI.after hearly htold ⟨rfl, hquiet⟩ (fun _ => hkeep) False.elim (hothers rfl)
    · rw [if_neg hstate] at htold ⊢
      rw [Quiet, if_neg hstate] at hquiet
      exact hI.after hearly htold ⟨rfl, hquiet.mono hm.clock⟩ (fun _ => hkeep) False.elim
        (hothers rfl)
  | loadLast =>
    simp only [Call.step, hpc, Option.some.injEq, Prod.mk.injEq] at hstep
    obtain ⟨rfl, rfl⟩ := hstep
    simp only [Call.Ok, hpc] at hok
    exact hI.after hearly htold hok (fun _ => hquiet.keep rfl rfl hm.clock) False.elim (hothers rfl)
  | check last =>
    simp only [Call.step, hpc, Option.some.injEq, Prod.mk.injEq] at hstep
    obtain ⟨rfl, rfl⟩ := hstep
    simp only [Call.Ok, hpc] at hok
    have hkeep := hquiet.keep rfl rfl hm.clock
    by_cases hlate : a.now - last < circuitTimeoutSec
    · rw [if_pos hlate] at htold ⊢
      exact hI.after hearly htold trivial (fun _ => hkeep) False.elim (hothers rfl)
    · rw [if_neg hlate] at htold ⊢
      exact hI.after hearly htold ⟨hok.1, hok.2.passed (by omega)⟩ (fun _ => hkeep) False.elim
        (hothers rfl)
  | storeHalfOpen =>
    simp only [Call.step, hpc, Option.some.injEq, Prod.mk.injEq] at hstep
    obtain ⟨rfl, rfl⟩ := hstep
    simp only [Call.Ok, hpc] at hok
    have hpassed := hok.2.mono hm.clock
    exact hI.after hearly htold ⟨hok.1, hpassed⟩ (fun _ => .of_passed hpassed (by simp))
      False.elim (hothers rfl)
  | attempt =>
    simp only [Call.Ok, hpc] at hok
    have hpassed := hok.2.mono hm.clock
    cases hout : a.outcome with
    | success =>
      simp only [Call.step, hpc, hout, Option.some.injEq, Prod.mk.injEq] at hstep
      obtain ⟨rfl, rfl⟩ := hstep
      exact hI.after hearly htold ⟨hok.1, hpassed⟩ (fun _ => hquiet.keep rfl rfl hm.clock)
        False.elim (hothers rfl)
    | rpcLimitExceeded =>
      simp only [Call.step, hpc, hout, Option.some.injEq, Prod.mk.injEq] at hstep
      obtain ⟨rfl, rfl⟩ := hstep
      exact hI.after hearly htold trivial (fun _ => hquiet.keep rfl rfl hm.clock)
        False.elim (hothers rfl)
    | failed =>
      simp only [Call.step, hpc, hout, Option.ite_none_right_eq_some, Option.some.injEq,
        Prod.mk.injEq, hok.1, Bool.false_or] at hstep
      obtain ⟨-, rfl, rfl⟩ := hstep
      -- The call is opening the breaker from now on if this was in the half-open state.
      have htrips := hm.trips hpc hout
      refine hI.after hearly htold ⟨hpassed, fun ht => ?_⟩
        (fun _ => hquiet.keep rfl rfl hm.clock) (fun ht => ?_) (hothers rfl)
      · exact ⟨of_decide_eq_true ht, (htrips (of_decide_eq_true ht)).2⟩
      · exact (htrips (of_decide_eq_true ht)).1
  | storeZero =>
    simp only [Call.step, hpc, Option.some.injEq, Prod.mk.injEq] at hstep
    obtain ⟨rfl, rfl⟩ := hstep
    simp only [Call.Ok, hpc] at hok
    exact hI.after hearly htold ⟨hok.1, hok.2.mono hm.clock⟩
      (fun _ => hquiet.keep rfl rfl hm.clock) False.elim (hothers rfl)
  | storeClosed =>
    simp only [Call.step, hpc, Option.some.injEq, Prod.mk.injEq] at hstep
    obtain ⟨rfl, rfl⟩ := hstep
    simp only [Call.Ok, hpc] at hok
    exact hI.after hearly htold trivial
      (fun _ => .of_passed (hok.2.mono hm.clock) (by simp)) False.elim (hothers rfl)
  | rotate =>
    simp only [Call.step, hpc, Option.some.injEq, Prod.mk.injEq] at hstep
    obtain ⟨rfl, rfl⟩ := hstep
    simp only [Call.Ok, hpc] at hok
    simp only [Call.Opening, hpc] at hcalm
    exact hI.after hearly htold ⟨hok.1.mono hm.clock, fun ht => absurd ht hcalm⟩
      (fun _ => hquiet.keep rfl rfl hm.clock) (fun ht => absurd ht hcalm) (hothers rfl)
  | count =>
    simp only [Call.step, hpc, Option.ite_none_right_eq_some, Option.some.injEq,
      Prod.mk.injEq] at hstep
    obtain ⟨-, rfl, rfl⟩ := hstep
    simp only [Call.Ok, hpc] at hok
    simp only [Call.Opening, hpc, Bool.not_eq_true] at hcalm
    have hpassed := hok.1.mono hm.clock
    have hkeep : Quiet { w.client with circuitFailures := w.client.circuitFailures + 1 }
        w.openings a.now :=
      hquiet.keep rfl rfl hm.clock
    by_cases hfull : circuitThreshold ≤ w.client.circuitFailures + 1
    · rw [if_pos hfull] at htold ⊢
      obtain ⟨halone, hlast⟩ := hm.counts hpc hfull
      exact hI.after hearly htold hlast (fun h => absurd trivial h) (fun _ => halone) (hothers rfl)
    · rw [if_neg hfull] at htold ⊢
      by_cases hdone : retryCount < (w.calls a.thread).attempt
      · rw [Call.giveUp, if_pos hdone] at htold ⊢
        exact hI.after hearly htold trivial (fun _ => hkeep) False.elim (hothers rfl)
      · rw [Call.giveUp, if_neg hdone] at htold ⊢
        exact hI.after hearly htold (.inr ⟨hcalm, hpassed⟩) (fun _ => hkeep) False.elim
          (hothers rfl)
  | asleep =>
    simp only [Call.step, hpc, Option.some.injEq, Prod.mk.injEq] at hstep
    obtain ⟨rfl, rfl⟩ := hstep
    simp only [Call.Ok, hpc] at hok
    have hkeep := hquiet.keep rfl rfl hm.clock
    by_cases hhalf : (w.calls a.thread).state = .halfOpen
    · rw [if_pos hhalf] at htold ⊢
      exact hI.after hearly htold trivial (fun _ => hkeep) (fun _ => hm.wakes hpc hhalf)
        (hothers rfl)
    · rw [if_neg hhalf] at htold ⊢
      obtain ⟨htripped, hpassed⟩ := hok.resolve_left hhalf
      exact hI.after hearly htold ⟨htripped, hpassed.mono hm.clock⟩ (fun _ => hkeep) False.elim
        (hothers rfl)
  | storeOpen | stamp | storeLast | reopen | restamp | restoreLast =>
    simp only [Call.Opening, hpc, not_true_eq_false] at hcalm

/-- A step of a call that is opening the breaker. -/
theorem Inv.step_opening (hI : Inv retryCount w) (hm : Meets retryCount w a)
    (hopening : (w.calls a.thread).Opening)
    (hstep : (w.calls a.thread).step retryCount a.now a.outcome w.client = some (m, c)) :
    Inv retryCount ⟨m, Function.update w.calls a.thread c,
      if (w.calls a.thread).pc.Opens then a.now :: w.openings else w.openings, a.now⟩ := by
  have halone := hI.alone a.thread hopening
  have hearly := hI.early.mono hm.clock
  have htold := Call.told_step (hI.told a.thread) hstep
  have hok := hI.calls a.thread
  have hnow : Before (a.now :: w.openings) a.now := by
    intro u hu
    rcases List.mem_cons.1 hu with rfl | hu
    exacts [le_rfl, hearly u hu]
  cases hpc : (w.calls a.thread).pc with
  | rotate =>
    simp only [Call.step, hpc, Option.some.injEq, Prod.mk.injEq] at hstep
    obtain ⟨rfl, rfl⟩ := hstep
    simp only [Call.Ok, hpc] at hok
    simp only [Call.Opening, hpc] at hopening
    rw [if_neg (by simp [Pc.Opens])]
    exact hI.after hearly htold ⟨hok.1.mono hm.clock, hok.2⟩ (fun h => absurd hopening h)
      (fun _ => halone) halone.others
  | count =>
    simp only [Call.step, hpc, Option.ite_none_right_eq_some, Option.some.injEq,
      Prod.mk.injEq] at hstep
    obtain ⟨-, rfl, rfl⟩ := hstep
    simp only [Call.Ok, hpc] at hok
    simp only [Call.Opening, hpc] at hopening
    obtain ⟨hstate, htrips⟩ := hok.2 hopening
    have hopens : ¬Pc.count.Opens := by simp [Pc.Opens]
    rw [if_neg hopens]
    by_cases hfull : circuitThreshold ≤ w.client.circuitFailures + 1
    · rw [if_pos hfull] at htold ⊢
      exact hI.after hearly htold (hm.counts hpc hfull).2 (fun h => absurd trivial h)
        (fun _ => halone) halone.others
    · -- Below the threshold the call pauses, and opens the breaker when it wakes up.
      obtain ⟨hhalf, hattempt⟩ := htrips.resolve_left fun h => hfull h.1
      rw [if_neg hfull, Call.giveUp, if_neg (Nat.not_lt.2 hattempt)] at htold ⊢
      exact hI.after hearly htold (.inl hhalf)
        (fun _ => .of_passed (hok.1.mono hm.clock) (by simp [hstate])) False.elim halone.others
  | storeOpen =>
    simp only [Call.step, hpc, Option.some.injEq, Prod.mk.injEq] at hstep
    obtain ⟨rfl, rfl⟩ := hstep
    simp only [Call.Ok, hpc] at hok
    rw [if_pos (.inl rfl)]
    exact hI.after hnow htold ⟨hok, rfl, rfl⟩ (fun h => absurd trivial h) (fun _ => halone)
      halone.others
  | stamp =>
    simp only [Call.step, hpc, Option.some.injEq, Prod.mk.injEq] at hstep
    obtain ⟨rfl, rfl⟩ := hstep
    simp only [Call.Ok, hpc] at hok
    rw [if_neg (by simp [Pc.Opens])]
    exact hI.after hearly htold ⟨hok.1, hok.2, hearly⟩ (fun h => absurd trivial h)
      (fun _ => halone) halone.others
  | storeLast t =>
    simp only [Call.step, hpc, Option.some.injEq, Prod.mk.injEq] at hstep
    obtain ⟨rfl, rfl⟩ := hstep
    simp only [Call.Ok, hpc] at hok
    obtain ⟨hlast, ⟨-, hstate⟩, hbefore⟩ := hok
    rw [if_neg (by simp [Pc.Opens])]
    by_cases hdone : retryCount < (w.calls a.thread).attempt
    · rw [Call.giveUp, if_pos hdone] at htold ⊢
      exact hI.after hearly htold trivial (fun _ => .of_before hbefore hstate) False.elim
        halone.others
    · rw [Call.giveUp, if_neg hdone] at htold ⊢
      exact hI.after hearly htold (.inl (hlast.resolve_left hdone))
        (fun _ => .of_before hbefore hstate) False.elim halone.others
  | reopen =>
    simp only [Call.step, hpc, Option.some.injEq, Prod.mk.injEq] at hstep
    obtain ⟨rfl, rfl⟩ := hstep
    rw [if_pos (.inr rfl)]
    exact hI.after hnow htold ⟨rfl, rfl⟩ (fun h => absurd trivial h) (fun _ => halone)
      halone.others
  | restamp =>
    simp only [Call.step, hpc, Option.some.injEq, Prod.mk.injEq] at hstep
    obtain ⟨rfl, rfl⟩ := hstep
    simp only [Call.Ok, hpc] at hok
    rw [if_neg (by simp [Pc.Opens])]
    exact hI.after hearly htold ⟨hok, hearly⟩ (fun h => absurd trivial h) (fun _ => halone)
      halone.others
  | restoreLast t =>
    simp only [Call.step, hpc, Option.some.injEq, Prod.mk.injEq] at hstep
    obtain ⟨rfl, rfl⟩ := hstep
    simp only [Call.Ok, hpc] at hok
    rw [if_neg (by simp [Pc.Opens])]
    exact hI.after hearly htold trivial (fun _ => .of_before hok.2 hok.1.2) False.elim
      halone.others
  | idle | loadLast | check | storeHalfOpen | attempt | storeZero | storeClosed | asleep =>
    simp only [Call.Opening, hpc] at hopening

theorem Inv.step (hI : Inv retryCount w) (hm : Meets retryCount w a)
    (h : step retryCount w a = some w') : Inv retryCount w' := by
  obtain ⟨m, c, hc, rfl⟩ := step_eq_some h
  by_cases hopening : (w.calls a.thread).Opening
  · exact hI.step_opening hm hopening hc
  · exact hI.step_calm hm hopening hc

/-- **In a run whose turns go well.** -/
theorem inv_of_reaches {start : Int}
    (h : (breaker ι retryCount start).Reaches (Meets retryCount) w) : Inv retryCount w := by
  refine h.invariant ?_ fun s a t hs ha hst => hs.step ha hst
  have hidle : ∀ i : ι, ¬((breaker ι retryCount start).init.calls i).Opening := fun _ => False.elim
  exact
    { early := fun u hu => absurd hu List.not_mem_nil
      alone := fun i hi => absurd hi (hidle i)
      quiet := fun _ u hu => absurd hu List.not_mem_nil
      calls := fun _ => trivial
      told := fun _ h => absurd h Bool.false_ne_true }

/-- A call that has had a failure in the half-open state has opened the breaker when it
returns. -/
theorem Call.reopened_of_idle {outcome : Outcome} {now : Int}
    (hok : c.Ok retryCount m openings clock)
    (hstep : c.step retryCount now outcome m = some (m', c')) (hidle : c'.pc = .idle)
    (htripped : c.tripped = true) : c.reopened = true := by
  cases hpc : c.pc with
  | check | attempt | storeClosed =>
    simp only [Call.Ok, hpc, htripped, Bool.true_eq_false, false_and] at hok
  | count =>
    simp only [Call.Ok, hpc] at hok
    obtain ⟨-, htrips⟩ := hok.2 htripped
    simp only [Call.step, hpc, Option.ite_none_right_eq_some, Option.some.injEq,
      Prod.mk.injEq] at hstep
    obtain ⟨-, -, rfl⟩ := hstep
    -- Neither does it return at the threshold, nor below, where it pauses.
    by_cases hfull : circuitThreshold ≤ m.circuitFailures + 1
    · simp only [if_pos hfull, reduceCtorEq] at hidle
    · have hattempt := (htrips.resolve_left fun h => hfull h.1).2
      simp only [if_neg hfull, Call.giveUp, if_neg (Nat.not_lt.2 hattempt), reduceCtorEq] at hidle
  | storeLast =>
    simp only [Call.Ok, hpc] at hok
    exact hok.2.1.1
  | restoreLast =>
    simp only [Call.Ok, hpc] at hok
    exact hok.1.1
  | idle | asleep =>
    simp only [Call.step, hpc, Option.some.injEq, Prod.mk.injEq] at hstep
    obtain ⟨-, rfl⟩ := hstep
    simp only at hidle
    split at hidle <;> cases hidle
  | loadLast | storeHalfOpen | storeZero | rotate | storeOpen | stamp | reopen | restamp =>
    simp only [Call.step, hpc, Option.some.injEq, Prod.mk.injEq] at hstep
    obtain ⟨-, rfl⟩ := hstep
    cases hidle

/-- A call that returns with a success has reset the count, and leaves the breaker closed. -/
theorem Call.closed_of_idle {outcome : Outcome} {now : Int} (htold : c.Told)
    (hstep : c.step retryCount now outcome m = some (m', c')) (hidle : c'.pc = .idle)
    (hanswered : c.answered = true) : c.reset = true ∧ m'.circuitState = .closed := by
  rcases htold hanswered with hpc | hpc | ⟨hpc, hreset⟩
  · simp only [Call.step, hpc, Option.some.injEq, Prod.mk.injEq] at hstep
    obtain ⟨-, rfl⟩ := hstep
    simp only at hidle
    split at hidle <;> cases hidle
  · simp only [Call.step, hpc, Option.some.injEq, Prod.mk.injEq] at hstep
    obtain ⟨-, rfl⟩ := hstep
    cases hidle
  · simp only [Call.step, hpc, Option.some.injEq, Prod.mk.injEq] at hstep
    exact ⟨hreset, hstep.1 ▸ rfl⟩

/-- A step of a run whose turns go well obeys the breaker. -/
theorem Inv.obeys (hI : Inv retryCount w) (hm : Meets retryCount w a)
    (h : Breaker.step retryCount w a = some w') : Obeys w a w' := by
  obtain ⟨m, c, hc, rfl⟩ := step_eq_some h
  have hok := hI.calls a.thread
  have htold := hI.told a.thread
  have hself : Function.update w.calls a.thread c a.thread = c := Function.update_self ..
  constructor
  · intro hpc
    simp only [Call.Ok, hpc] at hok
    exact hok.2.mono hm.clock
  · intro hpc
    simp only [Call.Ok, hpc] at hok
    exact hok.1
  · intro hidle htripped
    simp only [hself] at hidle
    exact Call.reopened_of_idle hok hc hidle htripped
  · intro hidle hanswered
    simp only [hself] at hidle
    exact Call.closed_of_idle htold hc hidle hanswered
  · intro hpc
    simp only [Call.step, hpc, Option.some.injEq, Prod.mk.injEq] at hc
    rw [← hc.1]

/-- **The breaker, in a run whose turns go well.** -/
theorem obeys_of_meets (ι : Type) [DecidableEq ι] (retryCount : Nat) (start : Int)
    (w : World ι) (hw : (breaker ι retryCount start).Reaches (Meets retryCount) w) (a : Turn ι)
    (hm : Meets retryCount w a) (w' : World ι)
    (hstep : (breaker ι retryCount start).step w a = some w') : Obeys w a w' :=
  (inv_of_reaches hw).obeys hm hstep

/-! ### Two runs -/

section

variable [Fintype ι]

instance : DecidablePred Call.Opening
  | { pc := .rotate, tripped := tripped, .. } | { pc := .count, tripped := tripped, .. } =>
    inferInstanceAs (Decidable (tripped = true))
  | { pc := .storeOpen, .. } | { pc := .stamp, .. } | { pc := .storeLast _, .. }
  | { pc := .reopen, .. } | { pc := .restamp, .. } | { pc := .restoreLast _, .. } =>
    .isTrue trivial
  | { pc := .idle, .. } | { pc := .loadLast, .. } | { pc := .check _, .. }
  | { pc := .storeHalfOpen, .. } | { pc := .attempt, .. } | { pc := .storeZero, .. }
  | { pc := .storeClosed, .. } | { pc := .asleep, .. } => .isFalse id

instance (c : Call) : Decidable (c.Last retryCount) := inferInstanceAs (Decidable (_ ∨ _))

instance (w : World ι) (i : ι) : Decidable (Alone w i) :=
  inferInstanceAs (Decidable (∀ j, j ≠ i → (w.calls j).pc = .idle))

omit [DecidableEq ι] [Fintype ι] in
theorem meets_iff : Meets retryCount w a ↔
    w.clock ≤ a.now ∧
    ((w.calls a.thread).pc = .idle → ∀ j, ¬(w.calls j).Opening) ∧
    ((w.calls a.thread).pc = .attempt → a.outcome = .failed →
      w.client.circuitState = .halfOpen → Alone w a.thread ∧
        ((circuitThreshold ≤ w.client.circuitFailures + 1 ∧
            (retryCount < (w.calls a.thread).attempt + 1 ∨
              (w.calls a.thread).state = .halfOpen)) ∨
          ((w.calls a.thread).state = .halfOpen ∧
            (w.calls a.thread).attempt + 1 ≤ retryCount))) ∧
    ((w.calls a.thread).pc = .count → circuitThreshold ≤ w.client.circuitFailures + 1 →
      Alone w a.thread ∧ (w.calls a.thread).Last retryCount) ∧
    ((w.calls a.thread).pc = .asleep → (w.calls a.thread).state = .halfOpen →
      Alone w a.thread) :=
  ⟨fun h => ⟨h.clock, h.begins, h.trips, h.counts, h.wakes⟩,
    fun h => ⟨h.1, h.2.1, h.2.2.1, h.2.2.2.1, h.2.2.2.2⟩⟩

set_option synthInstance.maxSize 256 in
instance (w : World ι) (a : Turn ι) : Decidable (Meets retryCount w a) :=
  decidable_of_iff _ meets_iff.symm

end

/-- A call of one thread that fails at each attempt, with four retries, opens the breaker. -/
def opening : List (Turn Unit) := List.replicate 23 { thread := (), now := 0 }

/-- And another, when the timeout has passed, up to its request. -/
def probe : List (Turn Unit) := opening ++ List.replicate 4 { thread := (), now := 30 }

theorem obeys_of_meets_probe : ∃ w w' : World Unit, w.openings = [0] ∧
    (w.calls ()).pc = .attempt ∧ w.client.circuitState = .halfOpen ∧
    Obeys w { thread := (), now := 30, outcome := .success } w' := by
  have hrun : (((breaker Unit 4 0).runIf (fun w a => decide (Meets 4 w a))
      (breaker Unit 4 0).init probe).map fun w => (w.openings, (w.calls ()).pc,
        w.client.circuitState, ((breaker Unit 4 0).step w ⟨(), 30, .success⟩).isSome,
        decide (Meets 4 w ⟨(), 30, .success⟩))) =
      some ([0], .attempt, .halfOpen, true, true) := by decide
  obtain ⟨w, hw, hprops⟩ := Option.map_eq_some_iff.1 hrun
  simp only [Prod.mk.injEq, decide_eq_true_eq, Option.isSome_iff_exists] at hprops
  obtain ⟨hopenings, hpc, hstate, ⟨w', hstep⟩, hmeets⟩ := hprops
  refine ⟨w, w', hopenings, hpc, hstate, ?_⟩
  have hreaches := (Machine.Reaches.init (M := breaker Unit 4 0) (C := Meets 4)).runIf
    (fun _ _ h => of_decide_eq_true h) hw
  exact obeys_of_meets Unit 4 0 w hreaches _ hmeets w' hstep

/-- **A call goes on with its retries behind an opening of its own**: with three retries the
second call opens the breaker at its first failure, and tries again. -/
theorem not_obeys_retry : ∃ w w' : World Unit, ∃ a, (breaker Unit 3 0).Reachable w ∧
    (breaker Unit 3 0).step w a = some w' ∧ ¬Obeys w a w' := by
  have hrun : (((breaker Unit 3 0).run (breaker Unit 3 0).init
      (List.replicate 24 { thread := (), now := 0 })).map fun w => (w.openings, (w.calls ()).pc,
        ((breaker Unit 3 0).step w { thread := (), now := 1 }).isSome)) =
      some ([0], .attempt, true) := by decide
  obtain ⟨w, hw, hprops⟩ := Option.map_eq_some_iff.1 hrun
  simp only [Prod.mk.injEq, Option.isSome_iff_exists] at hprops
  obtain ⟨hopenings, hpc, w', hstep⟩ := hprops
  refine ⟨w, w', _, Machine.reachable_of_run hw, hstep, fun hobeys => ?_⟩
  have hwait := hobeys.wait hpc 0 (by simp [hopenings])
  exact absurd hwait (by decide)

end Zponder.Breaker

import Zponder.Lib.Machine
import Zponder.World

/-!
# Starting and stopping

The threads around one indexer, down to the single loads and stores: the run loop,
and whoever calls `start`, `stop`, `setReplay` or `rewindChild`. Any number of calls may
be under way at once, since every HTTP request has a thread of its own, and a call that
is spawning does not look whether another is.

The run loop matters only by what it does to `state`: it looks at it between any two
things it does, and at the end of a replay it writes it
(`Zponder.Lifecycle.Loop.endLimit`, `Zponder.Lifecycle.Loop.endTip`). The look before
the write and the write are two steps.
-/

namespace Zponder

open Imperative

namespace Lifecycle

/-! ### The run loop -/

/-- Where a run loop is. -/
inductive Loop where
  /-- `state == .running`, in the condition of the loop -/
  | guardRunning
  /-- `state == .replaying`, in the condition of the loop -/
  | guardReplaying
  /-- In the loop, before the limit of a replay is looked at. -/
  | turn
  /-- The limit is passed: `if (state == .replaying)` -/
  | testLimit
  /-- The limit is passed: `state.store(.running)` -/
  | endLimit
  /-- Before the end of the chain is looked at. -/
  | scan
  /-- Nothing is left to scan: `if (state == .replaying)` -/
  | testTip
  /-- Nothing is left to scan: `state.store(.running)` -/
  | endTip
  /-- Nothing is left to scan. -/
  | caughtUp
  /-- In `runLiveWs`, which looks at `state` and leaves it alone. -/
  | live
  /-- Back from `runLiveWs`: `still` -/
  | still
  /-- Back from `runLiveWs`, and not stopped. -/
  | back
  /-- Out of the loop. -/
  | leaving
  | done
  deriving DecidableEq, Repr

/-- Which way a run loop goes on, where that is not for `state` to say. -/
inductive Way where
  /-- Another turn. -/
  | again
  /-- The replay has passed its limit. -/
  | limit
  /-- The cursor has passed the end of the chain. -/
  | tip
  /-- Over to the live subscription. -/
  | live
  /-- Whatever comes next. -/
  | on
  deriving DecidableEq, Repr

/-- A step of a run loop: what becomes of `state`, and where the loop is then. -/
def Loop.step (way : Way) (state : IndexerState) : Loop → Option (IndexerState × Loop)
  | .guardRunning => some (state, if state = .running then .turn else .guardReplaying)
  | .guardReplaying => some (state, if state = .replaying then .turn else .leaving)
  | .turn =>
    match way with
    | .again => some (state, .guardRunning)
    | .limit => some (state, .testLimit)
    | .on => some (state, .scan)
    | _ => none
  | .testLimit => some (state, if state = .replaying then .endLimit else .scan)
  | .endLimit => some (.running, .scan)
  | .scan =>
    match way with
    | .again => some (state, .guardRunning)
    | .tip => some (state, .testTip)
    | _ => none
  | .testTip => some (state, if state = .replaying then .endTip else .caughtUp)
  | .endTip => some (.running, .caughtUp)
  | .caughtUp =>
    match way with
    | .again => some (state, .guardRunning)
    | .live => some (state, .live)
    | _ => none
  | .live =>
    match way with
    | .live => some (state, .live)
    | .on => some (state, .still)
    | _ => none
  | .still => some (state, if state = .running ∨ state = .replaying then .back else .leaving)
  | .back =>
    match way with
    | .again => some (state, .guardRunning)
    | .on => some (state, .leaving)
    | _ => none
  | .leaving => some (state, .done)
  | .done => none

/-- The loop has seen a replay, and is about to end it. -/
def Loop.Ending (l : Loop) : Prop := l = .endLimit ∨ l = .endTip

instance (l : Loop) : Decidable l.Ending := inferInstanceAs (Decidable (_ ∨ _))

/-! ### The calls -/

/-- What goes on when the old run loop is gone. -/
inductive Then where
  /-- `setReplay` -/
  | replay
  /-- `rewindChild` -/
  | rewind
  deriving DecidableEq, Repr

/-- Where a call is. -/
inductive Call where
  /-- `stop`, called on its own -/
  | stop
  /-- The `stop` that `setReplay` and `rewindChild` begin with. -/
  | halt (k : Then)
  /-- `if (self.thread) |t|` -/
  | readThread (k : Then)
  /-- `t.join()` -/
  | join (k : Then) (h : Nat)
  /-- `self.thread = null` -/
  | clear (k : Then)
  /-- `resetForReplay` -/
  | reset
  /-- `state.store(.replaying)` -/
  | storeReplaying
  /-- `start`: `if (state == .running) return` -/
  | startState
  /-- `start`: `if (self.thread != null) return` -/
  | startThread
  /-- `state.store(.running)` -/
  | storeRunning
  /-- `std.Thread.spawn` -/
  | spawn
  /-- `self.thread = …` -/
  | write (h : Nat)
  | returned
  deriving DecidableEq, Repr

/-- Where a call goes on when the old run loop is gone. -/
def Then.next : Then → Call
  | .replay => .reset
  | .rewind => .startState

/-- The functions that are called. -/
inductive Kind where
  | start
  | stop
  | setReplay
  | rewindChild
  deriving DecidableEq, Repr

/-- Where a call begins. -/
def Kind.entry : Kind → Call
  | .start => .startState
  | .stop => .stop
  | .setReplay => .halt .replay
  | .rewindChild => .halt .rewind

/-! ### All of them together -/

/-- The fields of the indexer the threads share, where every thread is, and, for the
reader, the handles that were joined. -/
structure Threads where
  state : IndexerState := .stopped
  thread : Option Nat := none
  loops : Nat → Option Loop := fun _ => none
  spawned : Nat := 0
  joined : List Nat := []
  calls : Nat → Option Call := fun _ => none

/-- A step of a call. Spawning a thread and clearing the tables may fail, and then
`ok` is false. -/
def Call.step (ok : Bool) (s : Threads) : Call → Option (Threads × Call)
  | .stop => some ({ s with state := .stopped }, .returned)
  | .halt k => some ({ s with state := .stopped }, .readThread k)
  | .readThread k =>
    match s.thread with
    | some h => some (s, .join k h)
    | none => some (s, k.next)
  | .join k h =>
    if s.loops h = some .done then some ({ s with joined := s.joined ++ [h] }, .clear k) else none
  | .clear k => some ({ s with thread := none }, k.next)
  | .reset => some (s, if ok = true then .storeReplaying else .returned)
  | .storeReplaying => some ({ s with state := .replaying }, .spawn)
  | .startState => some (s, if s.state = .running then .returned else .startThread)
  | .startThread => some (s, if s.thread = none then .storeRunning else .returned)
  | .storeRunning => some ({ s with state := .running }, .spawn)
  | .spawn =>
    if ok = true then
      some ({ s with
        loops := Function.update s.loops s.spawned (some .guardRunning)
        spawned := s.spawned + 1 }, .write s.spawned)
    else some (s, .returned)
  | .write h => some ({ s with thread := some h }, .returned)
  | .returned => none

/-- Whose turn it is. -/
inductive Act where
  | enter (i : Nat) (k : Kind)
  | call (i : Nat) (ok : Bool)
  | loop (h : Nat) (way : Way)
  deriving DecidableEq, Repr

/-- A step of whoever's turn it is. -/
def step (s : Threads) : Act → Option Threads
  | .enter i k =>
    match s.calls i with
    | none => some { s with calls := Function.update s.calls i (some k.entry) }
    | some _ => none
  | .call i ok => do
    let c ← s.calls i
    let (s, c) ← c.step ok s
    some { s with calls := Function.update s.calls i (some c) }
  | .loop h way => do
    let l ← s.loops h
    let (state, l) ← l.step way s.state
    some { s with state := state, loops := Function.update s.loops h (some l) }

/-- The threads around an indexer, from its `init` on. -/
def threads : Machine Threads Act where
  init := {}
  step := step

/-! ### What is asked of them -/

/-- A run loop that was spawned and has not come to its end. -/
def Threads.Runs (s : Threads) (h : Nat) : Prop := ∃ l, s.loops h = some l ∧ l ≠ .done

/-- There is one run loop, its handle is joined once, no step of it undoes a stop, and
whoever waits for it will have it. -/
structure Threads.Sound (s : Threads) : Prop where
  oneLoop : ∀ h h', s.Runs h → s.Runs h' → h = h'
  joinedOnce : s.joined.Nodup
  stopSticks : ∀ h way t, s.state = .stopped → step s (.loop h way) = some t → t.state = .stopped
  joinReturns : ∀ i k h, s.calls i = some (.join k h) →
    ∃ (ways : List Way) (t : Threads),
      threads.run s (ways.map (.loop h)) = some t ∧ t.loops h = some .done

/-- A call that has to do with the thread. -/
def Call.Manages (c : Call) : Prop := c ≠ .stop ∧ c ≠ .returned

/-- **The schedules that are well**: `start`, `setReplay` and `rewindChild` do not overlap,
and nobody stops the indexer between a run loop's look at `state` and its write. -/
def Orderly (s : Threads) : Act → Prop
  | .enter _ k => k = .stop ∨ ∀ j c, s.calls j = some c → ¬c.Manages
  | .call i _ => ∀ k, s.calls i = some .stop ∨ s.calls i = some (.halt k) →
      ∀ h l, s.loops h = some l → ¬l.Ending
  | .loop _ _ => True

/-! ### The invariant -/

/-- No run loop is left. -/
def Threads.Empty (s : Threads) : Prop := ∀ h, ¬s.Runs h

/-- What a call has brought about when it comes to `c`. -/
def Call.Ok (s : Threads) : Call → Prop
  | .readThread _ => s.state = .stopped
  | .join _ h => s.state = .stopped ∧ s.thread = some h ∧ h ∉ s.joined
  | .clear _ => s.Empty
  | .reset | .storeReplaying | .storeRunning | .spawn => s.Empty ∧ s.thread = none
  | .write h => s.thread = none ∧ h < s.spawned ∧ h ∉ s.joined ∧ ∀ h', s.Runs h' → h' = h
  | _ => True

/-- The call that puts a handle into `thread`, or takes it out. -/
def Call.Holds (c : Call) : Prop := (∃ h, c = .write h) ∨ ∃ k, c = .clear k

structure Threads.Inv (s : Threads) : Prop where
  oneCall : ∀ i j c d, s.calls i = some c → s.calls j = some d → c.Manages → d.Manages → i = j
  ok : ∀ i c, s.calls i = some c → c.Ok s
  /-- A run loop that nobody is just spawning has its handle in `thread`. -/
  inThread : ∀ h, s.Runs h → s.thread = some h ∨ ∃ i, s.calls i = some (.write h)
  /-- The handle in `thread` was not joined, unless somebody is about to clear it. -/
  fresh : ∀ h, s.thread = some h → h < s.spawned ∧
    (h ∈ s.joined → ∃ i k, s.calls i = some (.clear k))
  joinedOnce : s.joined.Nodup
  joinedDone : ∀ h ∈ s.joined, s.loops h = some .done
  spawned : ∀ h, s.loops h ≠ none ↔ h < s.spawned
  ending : ∀ h l, s.loops h = some l → l.Ending → s.state = .replaying

/-! ### A step of a run loop -/

section Steps

variable {s t : Threads} {c d : Call} {i h : Nat}

theorem Loop.not_ending_done : ¬Loop.Ending .done := by decide

/-- **What a step of a run loop does to `state`**: nothing, unless it is the second half of
ending a replay, whose first half has seen one. -/
theorem Loop.step_cases {way : Way} {state state' : IndexerState} {l l' : Loop}
    (hstep : l.step way state = some (state', l')) :
    l ≠ .done ∧ (state' = state ∨ l.Ending) ∧ (l'.Ending → state' = .replaying) := by
  cases l with
  | endLimit | endTip =>
    obtain ⟨rfl, rfl⟩ := Prod.mk.inj (Option.some.inj hstep)
    exact ⟨by simp, .inr (by decide), by intros; contradiction⟩
  | done => cases hstep
  | turn | scan | caughtUp | live | back =>
    cases way <;> simp only [step, reduceCtorEq, Option.some.injEq, Prod.mk.injEq] at hstep
    all_goals
      obtain ⟨rfl, rfl⟩ := hstep
      exact ⟨by simp, .inl rfl, by intros; contradiction⟩
  | leaving =>
    obtain ⟨rfl, rfl⟩ := Prod.mk.inj (Option.some.inj hstep)
    exact ⟨by simp, .inl rfl, fun hend => absurd hend not_ending_done⟩
  | guardRunning | guardReplaying | testLimit | testTip | still =>
    obtain ⟨rfl, rfl⟩ := Prod.mk.inj (Option.some.inj hstep)
    refine ⟨by simp, .inl rfl, fun hend => ?_⟩
    split at hend
    · next h => first | exact h | exact absurd hend (by decide)
    · exact absurd hend (by decide)

theorem step_loop {way : Way} (hstep : step s (.loop h way) = some t) :
    ∃ l state l', s.loops h = some l ∧ l.step way s.state = some (state, l') ∧
      t = { s with state := state, loops := Function.update s.loops h (some l') } := by
  simp only [step, Option.bind_eq_bind, Option.bind_eq_some_iff, Option.some.injEq,
    Prod.exists] at hstep
  obtain ⟨l, hl, state, l', hl', rfl⟩ := hstep
  exact ⟨l, state, l', hl, hl', rfl⟩

/-- What a call relies on stays when fewer loops run, and a stop is not undone. -/
theorem Call.Ok.mono (hstate : s.state = .stopped → t.state = .stopped)
    (hthread : t.thread = s.thread) (hjoined : t.joined = s.joined)
    (hspawned : s.spawned ≤ t.spawned) (hruns : ∀ h, t.Runs h → s.Runs h) (hok : c.Ok s) :
    c.Ok t := by
  have hempty : s.Empty → t.Empty := fun h h' hr => h h' (hruns h' hr)
  cases c with
  | readThread => exact hstate hok
  | join =>
    obtain ⟨h₁, h₂, h₃⟩ := hok
    exact ⟨hstate h₁, hthread.trans h₂, hjoined ▸ h₃⟩
  | clear => exact hempty hok
  | reset | storeReplaying | storeRunning | spawn => exact ⟨hempty hok.1, hthread.trans hok.2⟩
  | write =>
    obtain ⟨h₁, h₂, h₃, h₄⟩ := hok
    exact ⟨hthread.trans h₁, h₂.trans_le hspawned, hjoined ▸ h₃, fun h' hr => h₄ h' (hruns h' hr)⟩
  | stop | halt | startState | startThread | returned => trivial

/-- **At most one run loop**: it has its handle in `thread`, or somebody is about to put it
there, and then there is no other. -/
theorem Threads.Inv.oneLoop (hI : s.Inv) {h' : Nat} (hh : s.Runs h) (hh' : s.Runs h') :
    h = h' := by
  have hwrite : ∀ {h h' i}, s.calls i = some (.write h) → s.Runs h' → h' = h :=
    fun hc hr => (hI.ok _ _ hc).2.2.2 _ hr
  rcases hI.inThread h hh with ht | ⟨i, hc⟩
  · rcases hI.inThread h' hh' with ht' | ⟨i, hc⟩
    · exact Option.some.inj (ht.symm.trans ht')
    · exact hwrite hc hh
  · exact (hwrite hc hh').symm

/-- **A step of a run loop keeps the invariant**, whatever the schedule. -/
theorem Threads.Inv.loop (hI : s.Inv) {way : Way} (hstep : step s (.loop h way) = some t) :
    t.Inv := by
  obtain ⟨l, state, l', hl, hl', rfl⟩ := step_loop hstep
  obtain ⟨hdone, hstate, hending⟩ := Loop.step_cases hl'
  have hruns : s.Runs h := ⟨l, hl, hdone⟩
  have hback : ∀ h', ({ s with
      state := state, loops := Function.update s.loops h (some l') } : Threads).Runs h' →
      s.Runs h' := by
    rintro h' ⟨m, hm, hmd⟩
    rcases eq_or_ne h' h with rfl | hne
    · exact hruns
    · replace hm : Function.update s.loops h (some l') h' = some m := hm
      rw [Function.update_of_ne hne] at hm
      exact ⟨m, hm, hmd⟩
  have hstop : s.state = .stopped → state = .stopped := by
    intro hs
    rcases hstate with rfl | hend
    · exact hs
    · exact absurd (hI.ending h l hl hend) (by simp [hs])
  constructor
  · exact hI.oneCall
  · exact fun i c hc => (hI.ok i c hc).mono hstop rfl rfl le_rfl hback
  · exact fun h' hr => hI.inThread h' (hback h' hr)
  · exact hI.fresh
  · exact hI.joinedOnce
  · intro h' hj
    have hne : h' ≠ h := by
      rintro rfl
      exact hdone (Option.some.inj (hl.symm.trans (hI.joinedDone h' hj)))
    exact (Function.update_of_ne hne _ _).trans (hI.joinedDone h' hj)
  · intro h'
    rcases eq_or_ne h' h with rfl | hne
    · simpa using (hI.spawned h').1 (by simp [hl])
    · simpa [Function.update_of_ne hne] using hI.spawned h'
  · intro h' m hm hmend
    replace hm : Function.update s.loops h (some l') h' = some m := hm
    rcases eq_or_ne h' h with rfl | hne
    · rw [Function.update_self] at hm
      exact hending (Option.some.inj hm ▸ hmend)
    · rw [Function.update_of_ne hne] at hm
      have hm' : s.Runs h' := ⟨m, hm, by rintro rfl; exact Loop.not_ending_done hmend⟩
      exact absurd (hI.oneLoop hm' hruns) hne

/-! ### A step of a call -/

theorem step_call {ok : Bool} (hstep : step s (.call i ok) = some t) :
    ∃ c u c', s.calls i = some c ∧ c.step ok s = some (u, c') ∧
      t = { u with calls := Function.update u.calls i (some c') } := by
  simp only [step, Option.bind_eq_bind, Option.bind_eq_some_iff, Option.some.injEq,
    Prod.exists] at hstep
  obtain ⟨c, hc, u, c', hu, rfl⟩ := hstep
  exact ⟨c, u, c', hc, hu, rfl⟩

/-- Where a call that manages the thread stands alone, every run loop has its handle in
`thread`, or is the one that was just spawned. -/
theorem Threads.Inv.thread_of_runs (hI : s.Inv) (hc : s.calls i = some c) (hm : c.Manages)
    (hr : s.Runs h) : s.thread = some h ∨ c = .write h := by
  rcases hI.inThread h hr with ht | ⟨j, hj⟩
  · exact .inl ht
  · obtain rfl := hI.oneCall i j c _ hc hj hm ⟨by simp, by simp⟩
    exact .inr (Option.some.inj (hc.symm.trans hj))

/-- The same of the handle in `thread`: it is a handle nobody has joined, unless the call
is about to clear it. -/
theorem Threads.Inv.not_joined (hI : s.Inv) (hc : s.calls i = some c) (hm : c.Manages)
    (ht : s.thread = some h) (hclear : ∀ k, c ≠ .clear k) : h ∉ s.joined := by
  intro hj
  obtain ⟨j, k, hk⟩ := (hI.fresh h ht).2 hj
  obtain rfl := hI.oneCall i j c _ hc hk hm ⟨by simp, by simp⟩
  exact hclear k (Option.some.inj (hc.symm.trans hk))

/-- **The rule of a managing call**: no other is under way, so what the step leaves behind
is all that matters. -/
theorem Threads.Inv.manage (hI : s.Inv) (hc : s.calls i = some c) (hm : c.Manages)
    (hcalls : t.calls = s.calls) (hok : d.Ok t)
    (hin : ∀ h, t.Runs h → t.thread = some h ∨ d = .write h)
    (hfresh : ∀ h, t.thread = some h → h < t.spawned ∧ (h ∈ t.joined → ∃ k, d = .clear k))
    (hjoinedOnce : t.joined.Nodup) (hjoinedDone : ∀ h ∈ t.joined, t.loops h = some .done)
    (hspawned : ∀ h, t.loops h ≠ none ↔ h < t.spawned)
    (hending : ∀ h l, t.loops h = some l → l.Ending → t.state = .replaying) :
    Threads.Inv { t with calls := Function.update t.calls i (some d) } := by
  have hother : ∀ j e, j ≠ i → Function.update t.calls i (some d) j = some e → ¬e.Manages := by
    intro j e hne he hme
    rw [Function.update_of_ne hne, hcalls] at he
    exact hne (hI.oneCall j i e c he hc hme hm)
  have hself : Function.update t.calls i (some d) i = some d := Function.update_self ..
  constructor
  · intro j j' e e' he he' hme hme'
    by_contra hne
    by_cases hj : j = i
    · exact hother j' e' (fun h => hne (hj.trans h.symm)) he' hme'
    · exact hother j e hj he hme
  · intro j e he
    by_cases hj : j = i
    · subst hj
      obtain rfl : d = e := Option.some.inj (hself.symm.trans he)
      exact hok
    · have hme := hother j e hj he
      -- a call that does not manage the thread relies on nothing
      cases e with
      | stop | returned => trivial
      | _ => exact absurd ⟨by simp, by simp⟩ hme
  · intro h hr
    exact (hin h hr).imp id fun hd => ⟨i, hself.trans (congrArg some hd)⟩
  · intro h ht
    refine ⟨(hfresh h ht).1, fun hj => ⟨i, ?_⟩⟩
    obtain ⟨k, hd⟩ := (hfresh h ht).2 hj
    exact ⟨k, hself.trans (congrArg some hd)⟩
  · exact hjoinedOnce
  · exact hjoinedDone
  · exact hspawned
  · exact hending

/-- The same for a step that only goes on to `d`. -/
theorem Threads.Inv.goOn (hI : s.Inv) (hc : s.calls i = some c) (hm : c.Manages)
    (hwrite : ∀ h, c ≠ .write h) (hclear : ∀ k, c ≠ .clear k) (hok : d.Ok s) :
    Threads.Inv { s with calls := Function.update s.calls i (some d) } := by
  refine hI.manage hc hm rfl hok (fun h hr => ?_) (fun h ht => ?_) hI.joinedOnce hI.joinedDone
    hI.spawned hI.ending
  · exact .inl ((hI.thread_of_runs hc hm hr).resolve_right (hwrite h))
  · exact ⟨(hI.fresh h ht).1, fun hj => absurd hj (hI.not_joined hc hm ht hclear)⟩

/-- Storing a state that no run loop is about to overwrite. -/
theorem Threads.Inv.store (hI : s.Inv) (hc : s.calls i = some c) (hm : c.Manages)
    (hwrite : ∀ h, c ≠ .write h) (hclear : ∀ k, c ≠ .clear k) {state : IndexerState}
    (hnone : ∀ h l, s.loops h = some l → ¬l.Ending) (hok : d.Ok { s with state := state }) :
    Threads.Inv { s with state := state, calls := Function.update s.calls i (some d) } := by
  refine hI.manage hc hm (t := { s with state := state }) rfl hok (fun h hr => ?_)
    (fun h ht => ?_) hI.joinedOnce hI.joinedDone hI.spawned fun h l hl he => ?_
  · exact .inl ((hI.thread_of_runs hc hm hr).resolve_right (hwrite h))
  · exact ⟨(hI.fresh h ht).1, fun hj => absurd hj (hI.not_joined hc hm ht hclear)⟩
  · exact absurd he (hnone h l hl)

theorem Threads.Empty.not_ending (he : s.Empty) {l : Loop} (hl : s.loops h = some l) :
    ¬l.Ending := by
  intro hend
  exact he h ⟨l, hl, fun hd => Loop.not_ending_done (hd ▸ hend)⟩

theorem Threads.Inv.empty (hI : s.Inv) (hc : s.calls i = some c) (hm : c.Manages)
    (hwrite : ∀ h, c ≠ .write h) (ht : s.thread = none) : s.Empty := by
  intro h hr
  rcases hI.thread_of_runs hc hm hr with h' | h'
  · rw [ht] at h'
    cases h'
  · exact hwrite h h'

theorem Then.next_ok {k : Then} (he : s.Empty) (ht : s.thread = none) : k.next.Ok s := by
  cases k with
  | replay => exact ⟨he, ht⟩
  | rewind => trivial

/-- **A step of a call keeps the invariant**, if it does not stop the indexer at the wrong
moment. -/
theorem Threads.Inv.call (hI : s.Inv) {ok : Bool} (hord : Orderly s (.call i ok))
    (hstep : step s (.call i ok) = some t) : t.Inv := by
  obtain ⟨c, u, d, hc, hu, rfl⟩ := step_call hstep
  have hokc : c.Ok s := hI.ok i c hc
  cases c with
  | stop =>
    obtain ⟨rfl, rfl⟩ := Prod.mk.inj (Option.some.inj hu)
    have hnone := hord .replay (.inl hc)
    -- the others go on, and only learn of the new state
    have hcalls : ∀ j e, Function.update s.calls i (some .returned) j = some e →
        e = .returned ∨ s.calls j = some e := by
      intro j e he
      rcases eq_or_ne j i with rfl | hne
      · rw [Function.update_self] at he
        exact .inl (Option.some.inj he).symm
      · rw [Function.update_of_ne hne] at he
        exact .inr he
    have hkept : ∀ j e, e ≠ .stop → s.calls j = some e →
        Function.update s.calls i (some .returned) j = some e := by
      intro j e hne he
      rw [Function.update_of_ne, he]
      rintro rfl
      exact hne (Option.some.inj (he.symm.trans hc))
    constructor
    · intro j j' e e' he he' hm hm'
      exact hI.oneCall j j' e e' ((hcalls j e he).resolve_left hm.2)
        ((hcalls j' e' he').resolve_left hm'.2) hm hm'
    · intro j e he
      rcases hcalls j e he with rfl | he
      · trivial
      · exact Call.Ok.mono (s := s) (fun _ => rfl) rfl rfl le_rfl (fun _ hr => hr) (hI.ok j e he)
    · intro h hr
      refine (hI.inThread h hr).imp id ?_
      rintro ⟨j, hj⟩
      exact ⟨j, hkept j _ (by simp) hj⟩
    · intro h ht
      refine ⟨(hI.fresh h ht).1, fun hj => ?_⟩
      obtain ⟨j, k, hk⟩ := (hI.fresh h ht).2 hj
      exact ⟨j, k, hkept j _ (by simp) hk⟩
    · exact hI.joinedOnce
    · exact hI.joinedDone
    · exact hI.spawned
    · exact fun h l hl he => absurd he (hnone h l hl)
  | halt k =>
    obtain ⟨rfl, rfl⟩ := Prod.mk.inj (Option.some.inj hu)
    exact hI.store hc ⟨by simp, by simp⟩ (by simp) (by simp) (hord k (.inr hc)) rfl
  | readThread k =>
    simp only [Call.step] at hu
    split at hu
    · next h ht =>
      obtain ⟨rfl, rfl⟩ := Prod.mk.inj (Option.some.inj hu)
      refine hI.goOn hc ⟨by simp, by simp⟩ (by simp) (by simp) ⟨hokc, ht, ?_⟩
      exact hI.not_joined hc ⟨by simp, by simp⟩ ht (by simp)
    · next ht =>
      obtain ⟨rfl, rfl⟩ := Prod.mk.inj (Option.some.inj hu)
      refine hI.goOn hc ⟨by simp, by simp⟩ (by simp) (by simp) (Then.next_ok ?_ ht)
      exact hI.empty hc ⟨by simp, by simp⟩ (by simp) ht
  | join k h =>
    obtain ⟨-, ht, hj⟩ := hokc
    simp only [Call.step] at hu
    split at hu
    · next hdone =>
      obtain ⟨rfl, rfl⟩ := Prod.mk.inj (Option.some.inj hu)
      have hempty : s.Empty := by
        intro h' hr
        have h₁ := (hI.thread_of_runs hc ⟨by simp, by simp⟩ hr).resolve_right (by simp)
        obtain rfl := Option.some.inj (ht.symm.trans h₁)
        obtain ⟨l, hl, hne⟩ := hr
        exact hne (Option.some.inj (hl.symm.trans hdone))
      refine hI.manage hc ⟨by simp, by simp⟩ rfl hempty (fun h' hr => absurd hr (hempty h'))
        (fun h' ht' => ⟨(hI.fresh h' ht').1, fun _ => ⟨k, rfl⟩⟩) ?_ ?_ hI.spawned hI.ending
      · exact List.concat_eq_append ▸ hI.joinedOnce.concat hj
      · intro h' hj'
        rcases List.mem_append.1 hj' with hj' | hj'
        · exact hI.joinedDone h' hj'
        · obtain rfl := List.mem_singleton.1 hj'
          exact hdone
    · cases hu
  | clear k =>
    obtain ⟨rfl, rfl⟩ := Prod.mk.inj (Option.some.inj hu)
    have hempty : s.Empty := hokc
    exact hI.manage hc ⟨by simp, by simp⟩ (t := { s with thread := none }) rfl
      (Then.next_ok hempty rfl) (fun h' hr => absurd hr (hempty h')) (by simp) hI.joinedOnce
      hI.joinedDone hI.spawned hI.ending
  | reset =>
    obtain ⟨rfl, rfl⟩ := Prod.mk.inj (Option.some.inj hu)
    refine hI.goOn hc ⟨by simp, by simp⟩ (by simp) (by simp) ?_
    split
    · exact hokc
    · trivial
  | storeReplaying | storeRunning =>
    obtain ⟨rfl, rfl⟩ := Prod.mk.inj (Option.some.inj hu)
    obtain ⟨hempty, ht⟩ := hokc
    exact hI.store hc ⟨by simp, by simp⟩ (by simp) (by simp) (fun h l => hempty.not_ending) ⟨hempty, ht⟩
  | startState =>
    obtain ⟨rfl, rfl⟩ := Prod.mk.inj (Option.some.inj hu)
    refine hI.goOn hc ⟨by simp, by simp⟩ (by simp) (by simp) ?_
    split <;> trivial
  | startThread =>
    obtain ⟨rfl, rfl⟩ := Prod.mk.inj (Option.some.inj hu)
    refine hI.goOn hc ⟨by simp, by simp⟩ (by simp) (by simp) ?_
    split
    · next ht => exact ⟨hI.empty hc ⟨by simp, by simp⟩ (by simp) ht, ht⟩
    · trivial
  | spawn =>
    obtain ⟨hempty, ht⟩ := hokc
    simp only [Call.step] at hu
    split at hu
    · obtain ⟨rfl, rfl⟩ := Prod.mk.inj (Option.some.inj hu)
      have hnew : s.loops s.spawned = none := by
        by_contra h
        exact lt_irrefl _ ((hI.spawned s.spawned).1 h)
      have hold : ∀ h l, Function.update s.loops s.spawned (some .guardRunning) h = some l →
          h = s.spawned ∧ l = .guardRunning ∨ s.loops h = some l := by
        intro h l hl
        rcases eq_or_ne h s.spawned with rfl | hne
        · rw [Function.update_self] at hl
          exact .inl ⟨rfl, (Option.some.inj hl).symm⟩
        · rw [Function.update_of_ne hne] at hl
          exact .inr hl
      have hone : ∀ h l, Function.update s.loops s.spawned (some .guardRunning) h = some l →
          l ≠ .done → h = s.spawned := by
        intro h l hl hne
        exact (hold h l hl).elim (·.1) fun hl' => absurd ⟨l, hl', hne⟩ (hempty h)
      have hfresh : s.spawned ∉ s.joined := by
        intro hj
        have hd := hI.joinedDone _ hj
        rw [hnew] at hd
        cases hd
      refine hI.manage hc ⟨by simp, by simp⟩ rfl ?_ (fun h hr => ?_) (fun h ht' => ?_)
        hI.joinedOnce (fun h hj => ?_) (fun h => ?_) fun h l hl he => ?_
      · refine ⟨ht, Nat.lt_succ_self _, hfresh, ?_⟩
        rintro h ⟨l, hl, hne⟩
        exact hone h l hl hne
      · obtain ⟨l, hl, hne⟩ := hr
        exact .inr (congrArg Call.write (hone h l hl hne).symm)
      · cases (ht.symm.trans ht' : none = some h)
      · have hne : h ≠ s.spawned := by
          rintro rfl
          exact hfresh hj
        exact (Function.update_of_ne hne _ _).trans (hI.joinedDone h hj)
      · rcases eq_or_ne h s.spawned with rfl | hne
        · simp
        · simp only [Function.update_of_ne hne]
          exact (hI.spawned h).trans ⟨fun hlt => hlt.trans (Nat.lt_succ_self _), fun hle =>
            lt_of_le_of_ne (Nat.lt_succ_iff.1 hle) hne⟩
      · rcases hold h l hl with ⟨-, rfl⟩ | hl
        · exact absurd he (by decide)
        · exact absurd he (hempty.not_ending hl)
    · obtain ⟨rfl, rfl⟩ := Prod.mk.inj (Option.some.inj hu)
      exact hI.goOn hc ⟨by simp, by simp⟩ (by simp) (by simp) trivial
  | write h =>
    obtain ⟨rfl, rfl⟩ := Prod.mk.inj (Option.some.inj hu)
    obtain ⟨ht, hlt, hj, hone⟩ := hokc
    refine hI.manage hc ⟨by simp, by simp⟩ (t := { s with thread := some h }) rfl trivial
      (fun h' hr => ?_) (fun h' ht' => ?_) hI.joinedOnce hI.joinedDone hI.spawned hI.ending
    · exact .inl (congrArg some (hone h' hr).symm)
    · obtain rfl := Option.some.inj ht'
      exact ⟨hlt, fun hj' => absurd hj' hj⟩
  | returned => cases hu

/-- A call that begins relies on nothing. -/
theorem Kind.entry_ok (k : Kind) : k.entry.Ok s := by
  cases k <;> trivial

theorem Kind.entry_manages {k : Kind} (h : k.entry.Manages) : k ≠ .stop := by
  rintro rfl
  exact h.1 rfl

/-- **A call begins**, and no other that manages the thread is under way. -/
theorem Threads.Inv.enter (hI : s.Inv) {k : Kind} (hord : Orderly s (.enter i k))
    (hstep : step s (.enter i k) = some t) : t.Inv := by
  simp only [step] at hstep
  split at hstep
  · next hfree =>
    obtain rfl := Option.some.inj hstep
    have hcalls : ∀ j e, Function.update s.calls i (some k.entry) j = some e →
        j = i ∧ e = k.entry ∨ s.calls j = some e := by
      intro j e he
      rcases eq_or_ne j i with rfl | hne
      · rw [Function.update_self] at he
        exact .inl ⟨rfl, (Option.some.inj he).symm⟩
      · rw [Function.update_of_ne hne] at he
        exact .inr he
    have hkept : ∀ j e, s.calls j = some e →
        Function.update s.calls i (some k.entry) j = some e := by
      intro j e he
      rw [Function.update_of_ne, he]
      rintro rfl
      cases he.symm.trans hfree
    have halone : k.entry.Manages → ∀ j e, s.calls j = some e → ¬e.Manages := fun hk =>
      hord.resolve_left (Kind.entry_manages hk)
    constructor
    · intro j j' e e' he he' hm hm'
      rcases hcalls j e he with ⟨hj, hek⟩ | hs
      · rcases hcalls j' e' he' with ⟨hj', -⟩ | hs'
        · exact hj.trans hj'.symm
        · exact absurd hm' (halone (hek ▸ hm) j' e' hs')
      · rcases hcalls j' e' he' with ⟨-, hek'⟩ | hs'
        · exact absurd hm (halone (hek' ▸ hm') j e hs)
        · exact hI.oneCall j j' e e' hs hs' hm hm'
    · intro j e he
      rcases hcalls j e he with ⟨-, rfl⟩ | he
      · exact k.entry_ok
      · exact hI.ok j e he
    · intro h hr
      refine (hI.inThread h hr).imp id ?_
      rintro ⟨j, hj⟩
      exact ⟨j, hkept j _ hj⟩
    · intro h ht
      refine ⟨(hI.fresh h ht).1, fun hj => ?_⟩
      obtain ⟨j, k, hk⟩ := (hI.fresh h ht).2 hj
      exact ⟨j, k, hkept j _ hk⟩
    · exact hI.joinedOnce
    · exact hI.joinedDone
    · exact hI.spawned
    · exact hI.ending
  · cases hstep

end Steps

/-! ### What the invariant gives -/

theorem Threads.inv_init : Threads.Inv {} where
  oneCall := by simp
  ok := by simp
  inThread := by
    rintro _ ⟨_, h, _⟩
    cases h
  fresh := by simp
  joinedOnce := List.nodup_nil
  joinedDone := by simp
  spawned h := by simp
  ending := by simp

/-- **In every orderly run** the invariant holds. -/
theorem Threads.inv_of_reaches {s : Threads} (h : threads.Reaches Orderly s) : s.Inv := by
  refine h.invariant inv_init fun s a t hI hord hstep => ?_
  cases a with
  | enter i k => exact hI.enter hord hstep
  | call i ok => exact hI.call hord hstep
  | loop h way => exact hI.loop hstep

/-- The way out of a run loop that has been stopped. -/
def Loop.wayOut : Loop → List Way
  | .guardRunning => [.on, .on, .on]
  | .guardReplaying => [.on, .on]
  | .turn => [.again, .on, .on, .on]
  | .testLimit => [.on, .again, .on, .on, .on]
  | .scan => [.again, .on, .on, .on]
  | .testTip => [.on, .again, .on, .on, .on]
  | .caughtUp => [.again, .on, .on, .on]
  | .live => [.on, .on, .on]
  | .still => [.on, .on]
  | .back => [.on, .on]
  | .leaving => [.on]
  | .endLimit | .endTip | .done => []

/-- The steps of a run loop while the indexer is stopped. -/
def Loop.walk : List Way → Loop → Option Loop
  | [], l => some l
  | way :: ways, l =>
    match l.step way .stopped with
    | some (.stopped, l') => walk ways l'
    | _ => none

theorem Loop.walk_wayOut {l : Loop} (h : ¬l.Ending) : l.walk l.wayOut = some .done := by
  cases l with
  | endLimit => exact absurd (.inl rfl) h
  | endTip => exact absurd (.inr rfl) h
  | _ => rfl

/-- The steps of one run loop are a run of the machine. -/
theorem exists_run_walk {s : Threads} {h : Nat} {ways : List Way} {l l' : Loop}
    (hl : s.loops h = some l) (hstate : s.state = .stopped) (hwalk : l.walk ways = some l') :
    ∃ t, threads.run s (ways.map (.loop h)) = some t ∧ t.loops h = some l' := by
  induction ways generalizing s l with
  | nil => exact ⟨s, rfl, hl.trans hwalk⟩
  | cons way ways ih =>
    rw [Loop.walk] at hwalk
    split at hwalk
    · next l₁ hstep =>
      have hrun : threads.step s (.loop h way) = some
          { s with state := .stopped, loops := Function.update s.loops h (some l₁) } := by
        simp only [threads, step, hl, hstate, hstep, Option.bind_eq_bind, Option.bind_some]
      rw [List.map_cons, Machine.run_cons hrun]
      exact ih (Function.update_self ..) rfl hwalk
    · cases hwalk

theorem Threads.Inv.sound {s : Threads} (hI : s.Inv) : s.Sound where
  oneLoop _ _ hh hh' := hI.oneLoop hh hh'
  joinedOnce := hI.joinedOnce
  stopSticks h way t hstop hstep := by
    obtain ⟨l, state, l', hl, hl', rfl⟩ := step_loop hstep
    rcases (Loop.step_cases hl').2.1 with rfl | hend
    · exact hstop
    · exact absurd (hI.ending h l hl hend) (by simp [hstop])
  joinReturns i k h hc := by
    obtain ⟨hstop, ht, -⟩ := hI.ok i _ hc
    obtain ⟨l, hl⟩ := Option.ne_none_iff_exists'.1 ((hI.spawned h).2 (hI.fresh h ht).1)
    have hend : ¬l.Ending := fun he => by
      have hrep := hI.ending h l hl he
      rw [hstop] at hrep
      cases hrep
    obtain ⟨t, hrun, hdone⟩ := exists_run_walk hl hstop (Loop.walk_wayOut hend)
    exact ⟨_, t, hrun, hdone⟩

/-! ### Schedules that are not well -/

/-- An indexer is started, and then two requests ask for a replay at the same time: both
find the thread of the first run loop, join it and spawn another. -/
def twoReplays : List Act :=
  [Act.enter 0 .start] ++ List.replicate 5 (Act.call 0 true) ++
  [Act.enter 1 .setReplay, .enter 2 .setReplay, .call 1 true, .call 1 true, .call 2 true, .call 2 true,
    .loop 0 .on, .loop 0 .on, .loop 0 .on] ++
  List.replicate 5 (Act.call 1 true) ++ List.replicate 5 (Act.call 2 true)

/-- An indexer is started and replayed, and is stopped when its run loop has seen that the
replay has passed its limit. -/
def lateStop : List Act :=
  [Act.enter 0 .start] ++ List.replicate 5 (Act.call 0 true) ++
  [Act.enter 1 .setReplay, .call 1 true, .call 1 true, .loop 0 .on, .loop 0 .on, .loop 0 .on] ++
  List.replicate 6 (Act.call 1 true) ++
  [Act.loop 1 .on, .loop 1 .on, .loop 1 .limit, .loop 1 .on, .enter 2 .stop, .call 2 true]

end Lifecycle

end Zponder

import Zponder.Erasure

/-!
# A replay that is refused

`setReplay` stops the run loop and joins its thread before it does anything else, then
deletes, and takes the new cursor over only when the deletion has gone through. An
indexer that is told of an error has therefore been stopped at least
(`Zponder.meets_requestReplay`): the request is taken back on the database, where there
are transactions, but never on the indexer itself.

The second way to fail comes after the commit. The deletion has been carried out by then
and the cursor has moved, and it is the thread that is missing.
-/

namespace Zponder

open Imperative Prog Conn

/-! ### The request, with its failures -/

/-- What `setReplay` may fail for: the deletion, or the new thread. -/
inductive ReplayErr where
  | reset (e : Err)
  | noThread
  deriving DecidableEq, Repr

section Request

variable (env : Env) (cfg : Config)

/-- The window a replay deletes: where it has no end, up to the largest block number. -/
def deleteTo (fromBlock toBlock : Nat) : Nat := (replayUpper fromBlock toBlock).getD u64Max

/-- `setReplay`, up to the thread. -/
def prepareReplay (fromBlock toBlock : Nat) : M Unit := do
  stopAndJoin env cfg
  resetForReplay env cfg cfg.stateKey cfg.contract.name cfg.contract.events fromBlock
    (deleteTo fromBlock toBlock)
  setMem fun m => { m with
    replayLimit := (replayUpper fromBlock toBlock).getD 0
    state := .replaying
    currentBlock := fromBlock }

/-- `setReplay`, with the failures of both its parts; `spawns` says whether there is a
thread to be had. -/
def requestReplay (spawns : Bool) (fromBlock toBlock : Nat) : Prog World ReplayErr Unit := do
  Prog.catching (prepareReplay env cfg fromBlock toBlock) fun e => Prog.throw (.reset e)
  if spawns then Prog.modify fun w => { w with mem := { w.mem with thread := true } }
  else Prog.throw .noThread

/-- Where the thread is to be had, the request is `setReplay`. -/
theorem requestReplay_true (fromBlock toBlock : Nat) :
    requestReplay env cfg true fromBlock toBlock =
      Prog.catching (setReplay env cfg fromBlock toBlock) fun e => Prog.throw (.reset e) := by
  funext w
  simp only [requestReplay, prepareReplay, setReplay, setMem, bind_apply, catching, deleteTo]
  rcases stopAndJoin env cfg w with ⟨_ | e | _, w₁⟩
  · simp only
    rcases resetForReplay env cfg cfg.stateKey cfg.contract.name cfg.contract.events fromBlock
      ((replayUpper fromBlock toBlock).getD u64Max) w₁ with ⟨_ | e | _, w₂⟩ <;> rfl
  · rfl
  · rfl

/-- The indexer after `stop` and `join`: a run loop that was there has written its cursor
once more, if it could. -/
def joined (w : World) : World := { w with
  conn := quiet (if w.mem.thread = true ∧ env.fault w.now .upsertSyncState = .none then
      w.db.putSyncState cfg.stateKey ⟨w.mem.currentBlock, "stopped".toList⟩
    else w.db)
  mem := { w.mem with state := .stopped, thread := false }
  now := w.now + 1 }

/-- The memory of an indexer whose replay has everything but a thread. -/
def Mem.replaying (m : Mem) (fromBlock toBlock : Nat) : Mem := { m with
  state := .replaying
  thread := false
  replayLimit := (replayUpper fromBlock toBlock).getD 0
  currentBlock := fromBlock }

end Request

/-! ### What a request leaves -/

section Spec

variable {env : Env} {cfg : Config} {w : World}

theorem meets_stopAndJoin (hw : w.Quiet) :
    Meets (stopAndJoin env cfg) w
      ⟨fun _ w' => w' = joined env cfg w, fun _ _ => False, fun _ => True⟩ := by
  have hconn : w.conn = quiet w.db := eq_quiet hw
  simp only [stopAndJoin, setMem, getMem, tick, meets_bind, meets_modify, meets_read]
  by_cases ht : w.mem.thread = true
  · rw [when_of ht]
    simp only [upsertSyncState, meets_bind, meets_read, meets_ignoring, meets_guarded, execWrite,
      meets_exec, meets_modify, hconn]
    refine meets_stmt_quiet.mono ?_ ?_ fun _ _ => trivial
    · rintro _ c ⟨hφ, -, rfl⟩
      have hnone : env.fault w.now .upsertSyncState = .none := by simpa [Env.faultAt] using hφ
      rw [joined, if_pos ⟨ht, hnone⟩]
      rfl
    · rintro _ c ⟨hφ, rfl⟩
      obtain ⟨e, he⟩ : Failed (env.fault w.now .upsertSyncState) := by
        simpa [Env.faultAt] using hφ
      have hnot : ¬(w.mem.thread = true ∧ env.fault w.now .upsertSyncState = .none) := by
        simp [he]
      rw [joined, if_neg hnot]
      rfl
  · rw [when_of_not ht]
    have hf : w.mem.thread = false := by simpa using ht
    change { w with mem := { w.mem with state := .stopped }, now := w.now + 1 } = joined env cfg w
    rw [joined, if_neg fun h => ht h.1, ← hconn]
    simp only [hf]

/-- **A request**: what it leaves, whichever way it ends. -/
theorem meets_requestReplay (env : Env) (cfg : Config) (hw : w.Quiet) (spawns : Bool) (f b : Nat) :
    Meets (requestReplay env cfg spawns f b) w
      ⟨fun _ _ => True,
        fun e w' => match e with
          | .reset _ =>
            w'.conn = quiet (leftByReset env cfg (w.now + 1) cfg.contract.name cfg.contract.events
              f (deleteTo f b) (joined env cfg w).db) ∧
            w'.mem = (joined env cfg w).mem
          | .noThread =>
            w'.conn = quiet (reset env cfg (w.now + 1) cfg.stateKey cfg.contract.name
              cfg.contract.events f (deleteTo f b) (joined env cfg w).db) ∧
            w'.mem = w.mem.replaying f b,
        fun _ => True⟩ := by
  simp only [requestReplay, prepareReplay, meets_bind, meets_catching, setMem, meets_modify]
  refine (meets_stopAndJoin hw).mono ?_ (fun _ _ h => h.elim) fun _ _ => trivial
  rintro _ w₁ rfl
  refine (meets_resetForReplay (w := joined env cfg w) rfl _ _ _ _ _).mono ?_ ?_ fun _ _ => trivial
  · rintro _ w₂ ⟨hconn, hmem⟩
    cases spawns with
    | true => trivial
    | false =>
      refine ⟨hconn, ?_⟩
      rw [hmem]
      rfl
  · exact fun e w₂ h => h

end Spec

/-! ### What is asked of a refused request -/

/-- The stored cursor. -/
def storedCursor (cfg : Config) (t : Tables) : Option Nat :=
  (t.syncState cfg.stateKey).map (·.lastSyncedBlock)

/-- The indexer is syncing. -/
def Syncing (m : Mem) : Prop := (m.state = .running ∨ m.state = .replaying) ∧ m.thread = true

/-- A refused request has changed nothing. -/
structure Unchanged (cfg : Config) (w w' : World) : Prop where
  events : w'.db.events = w.db.events
  projections : w'.db.projs = w.db.projs
  deadLetters : w'.db.rawLogs = w.db.rawLogs
  stored : storedCursor cfg w'.db = storedCursor cfg w.db
  cursor : w'.mem.currentBlock = w.mem.currentBlock
  limit : w'.mem.replayLimit = w.mem.replayLimit
  state : w'.mem.state = w.mem.state
  syncing : Syncing w.mem → Syncing w'.mem

/-- No row of these events lies in the window. -/
def Empty (cfg : Config) (events : List Text) (f b : Nat) (t : Tables) : Prop :=
  ∀ r ∈ t.events, r.key.table ∈ events.map (eventTable cfg.contract.name) →
    inRange f b r.blockNumber = false

section Condition

variable (env : Env) (cfg : Config) (w : World)

/-- The run loop's last write of its cursor, if there is a run loop and if it can write,
tells the database nothing new. -/
def QuietExit : Prop :=
  w.mem.thread = true → env.fault w.now .upsertSyncState = .none →
    storedCursor cfg w.db = some w.mem.currentBlock

/-- The deletion fails, and there was nothing to stop and nothing to delete that is not
given back. -/
structure StoppedBefore (f b : Nat) : Prop where
  state : w.mem.state = .stopped
  exit : QuietExit env cfg w
  cleared : Empty cfg (clearedEvents env cfg (w.now + 1) cfg.contract.events) f b w.db

/-- The thread fails, and the indexer was where the replay puts it, without a thread and
with nothing to delete. -/
structure ReplayedBefore (f b : Nat) : Prop where
  state : w.mem.state = .replaying
  thread : w.mem.thread = false
  cursor : w.mem.currentBlock = f
  limit : w.mem.replayLimit = (replayUpper f b).getD 0
  stored : storedCursor cfg w.db = some f
  events : Empty cfg cfg.contract.events f (deleteTo f b) w.db
  projections : ∀ r ∈ w.db.projs,
    r.table ∈ resetSweeps env cfg (w.now + 1) f (deleteTo f b) w.db →
      inRange f (deleteTo f b) r.blockNumber = false
  deadLetters : cfg.backend ≠ .rocksdb → ∀ r ∈ w.db.rawLogs, r.contractAddress = cfg.stateKey →
    inRange f (deleteTo f b) r.blockNumber = false

/-- When a request that is refused with `e` was harmless. -/
def Harmless (f b : Nat) : ReplayErr → Prop
  | .reset _ => StoppedBefore env cfg w f (deleteTo f b)
  | .noThread => ReplayedBefore env cfg w f b

end Condition

section Refused

variable {env : Env} {cfg : Config} {w w' : World} {f b : Nat}

theorem events_clearEvents_eq_iff {events : List Text} {t : Tables} :
    (clearEvents cfg.contract.name events f b t).events = t.events ↔ Empty cfg events f b t := by
  rw [clearEvents_eq]
  simp only [List.filter_eq_self, Empty, Bool.not_eq_true', Bool.and_eq_false_imp,
    decide_eq_true_eq]

/-- The run loop's last write. -/
theorem joined_db_of (h : w.mem.thread = true ∧ env.fault w.now .upsertSyncState = .none) :
    (joined env cfg w).db =
      w.db.putSyncState cfg.stateKey ⟨w.mem.currentBlock, "stopped".toList⟩ := if_pos h

theorem joined_db_of_not (h : ¬(w.mem.thread = true ∧ env.fault w.now .upsertSyncState = .none)) :
    (joined env cfg w).db = w.db := if_neg h

/-- Joining the thread changes nothing in the tables but the cursor. -/
theorem joined_db (env : Env) (cfg : Config) (w : World) : ∃ s, (joined env cfg w).db = { w.db with syncState := s } := by
  by_cases h : w.mem.thread = true ∧ env.fault w.now .upsertSyncState = .none
  · exact ⟨_, joined_db_of h⟩
  · exact ⟨_, joined_db_of_not h⟩

theorem storedCursor_joined_iff :
    storedCursor cfg (joined env cfg w).db = storedCursor cfg w.db ↔ QuietExit env cfg w := by
  unfold QuietExit
  by_cases h : w.mem.thread = true ∧ env.fault w.now .upsertSyncState = .none
  · have hput : storedCursor cfg (joined env cfg w).db = some w.mem.currentBlock := by
      rw [joined_db_of h]
      simp [storedCursor, Tables.putSyncState]
    rw [hput, eq_comm]
    exact ⟨fun h' _ _ => h', fun h' => h' h.1 h.2⟩
  · rw [joined_db_of_not h]
    exact iff_of_true rfl fun ht hf => absurd ⟨ht, hf⟩ h

/-- A request whose deletion failed. -/
theorem unchanged_iff_stoppedBefore
    (hconn : w'.conn = quiet (leftByReset env cfg (w.now + 1) cfg.contract.name
      cfg.contract.events f b (joined env cfg w).db))
    (hmem : w'.mem = (joined env cfg w).mem) :
    Unchanged cfg w w' ↔ StoppedBefore env cfg w f b := by
  obtain ⟨s, hs⟩ := joined_db env cfg w
  have hdb : w'.db = clearEvents cfg.contract.name
      (clearedEvents env cfg (w.now + 1) cfg.contract.events) f b { w.db with syncState := s } := by
    rw [World.db, hconn, ← hs]
    rfl
  have hevents : w'.db.events = w.db.events ↔
      Empty cfg (clearedEvents env cfg (w.now + 1) cfg.contract.events) f b w.db := by
    rw [hdb]
    exact events_clearEvents_eq_iff (t := { w.db with syncState := s })
  have hstored : storedCursor cfg w'.db = storedCursor cfg w.db ↔ QuietExit env cfg w := by
    rw [← storedCursor_joined_iff, hs, hdb, clearEvents_eq]
    rfl
  constructor
  · intro h
    refine ⟨?_, hstored.1 h.stored, hevents.1 h.events⟩
    have := h.state
    rw [hmem] at this
    exact this.symm
  · rintro ⟨hstate, hexit, hclear⟩
    refine ⟨hevents.2 hclear, ?_, ?_, hstored.2 hexit, ?_, ?_, ?_, ?_⟩
    · rw [hdb, clearEvents_eq]
    · rw [hdb, clearEvents_eq]
    · rw [hmem]
      rfl
    · rw [hmem]
      rfl
    · rw [hmem, hstate]
      rfl
    · rintro ⟨hrun | hrun, -⟩
      · rw [hstate] at hrun
        cases hrun
      · rw [hstate] at hrun
        cases hrun

/-- A request that got as far as the thread. -/
theorem unchanged_iff_replayedBefore
    (hconn : w'.conn = quiet (reset env cfg (w.now + 1) cfg.stateKey cfg.contract.name
      cfg.contract.events f (deleteTo f b) (joined env cfg w).db))
    (hmem : w'.mem = w.mem.replaying f b) :
    Unchanged cfg w w' ↔ ReplayedBefore env cfg w f b := by
  obtain ⟨s, hs⟩ := joined_db env cfg w
  have hdb : w'.db = reset env cfg (w.now + 1) cfg.stateKey cfg.contract.name cfg.contract.events f
      (deleteTo f b) { w.db with syncState := s } := by
    rw [World.db, hconn, ← hs]
    rfl
  rw [reset_eq] at hdb
  have hevents : w'.db.events = w.db.events ↔
      Empty cfg cfg.contract.events f (deleteTo f b) w.db := by
    rw [hdb]
    exact events_clearEvents_eq_iff (t := { w.db with syncState := s })
  have hprojs : w'.db.projs = w.db.projs ↔ ∀ r ∈ w.db.projs,
      r.table ∈ resetSweeps env cfg (w.now + 1) f (deleteTo f b) w.db →
        inRange f (deleteTo f b) r.blockNumber = false := by
    rw [hdb, sweep_eq]
    simp only [List.filter_eq_self, Bool.not_eq_true', Bool.and_eq_false_imp, decide_eq_true_eq]
    exact Iff.rfl
  have hraws : w'.db.rawLogs = w.db.rawLogs ↔ (cfg.backend ≠ .rocksdb → ∀ r ∈ w.db.rawLogs,
      r.contractAddress = cfg.stateKey → inRange f (deleteTo f b) r.blockNumber = false) := by
    rw [hdb]
    by_cases hb : cfg.backend = .rocksdb
    · simp [hb]
    · simp only [hb, if_false, ne_eq, not_false_eq_true, true_imp_iff, Tables.deleteRawLogs,
        List.filter_eq_self, Bool.not_eq_true', Bool.and_eq_false_imp, beq_iff_eq]
  have hstored : storedCursor cfg w'.db = some f := by
    rw [hdb]
    simp [storedCursor, Tables.putSyncState]
  constructor
  · intro h
    have hstate : w.mem.state = .replaying := by
      rw [← h.state, hmem]
      rfl
    refine ⟨hstate, ?_, ?_, ?_, h.stored.symm.trans hstored, hevents.1 h.events,
      hprojs.1 h.projections, hraws.1 h.deadLetters⟩
    · -- a run loop that was there is gone now
      by_contra hthread
      have hsync := h.syncing ⟨.inr hstate, by simpa using hthread⟩
      rw [Syncing, hmem] at hsync
      exact absurd hsync.2 (by simp [Mem.replaying])
    · rw [← h.cursor, hmem]
      rfl
    · rw [← h.limit, hmem]
      rfl
  · intro h
    refine ⟨hevents.2 h.events, hprojs.2 h.projections, hraws.2 h.deadLetters,
      hstored.trans h.stored.symm, ?_, ?_, ?_, ?_⟩
    · rw [hmem, h.cursor]
      rfl
    · rw [hmem, h.limit]
      rfl
    · rw [hmem, h.state]
      rfl
    · rintro ⟨-, hthread⟩
      rw [h.thread] at hthread
      cases hthread

end Refused

/-! ### Two requests to a database that takes no transaction -/

/-- A database on which no transaction can be opened. -/
def lockedEnv : Env where
  fault _ call := if call = .beginWrite then .fail .execFailed else .none

/-- An indexer that nobody has started, at block 7. -/
def idleWorld : World := { freshWorld with mem := { currentBlock := 7 } }

/-- The same indexer at work. -/
def busyWorld : World :=
  { freshWorld with mem := { state := .running, currentBlock := 7, thread := true } }

end Zponder

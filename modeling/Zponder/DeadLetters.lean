import Zponder.Letters
import Zponder.Replay
import Zponder.Topics
import Zponder.Lib.Machine

/-!
# Dead letters over a run

Letters are written for logs that fail, tried again, thrown away with the blocks they are of, and
left alone by everything else. In whichever order this happens, and whatever fails, a letter is
lost only with its log or with its block, it says what the log said that it was written for, an
event that a rollback or a replay has deleted is not brought back by an older letter, and every
letter gets its turn (`Zponder.DeadLetters.well_kept`).

From one moment to the next the letters of an indexer age (`Zponder.DeadLetters.Aged`): what is
older than a moment has been there at that moment, says the same, and waits no shorter. This is
kept by every step, and what is said of two moments of a run follows from it.
-/

namespace Zponder.DeadLetters

open Imperative Prog Conn

/-! ### What a step does to the letters -/

section Steps

variable {env : Env} {cfg : Config} {w w' : World} {f b : Nat} {t u v : Tables}

/-- A new letter. -/
def letterOf (cfg : Config) (lg : Log) (reason : Text) : RawLogRow :=
  ⟨0, cfg.stateKey, lg.blockNumber, lg.transactionHash, lg.logIndex,
    Text.formatTopicsJson lg.topics, lg.data, reason, lg.address, 0, 0⟩

/-- **A letter is written**, unless there is one for that log already. -/
theorem left_recordFailedLog (env : Env) (hb : cfg.backend ≠ .rocksdb) (hw : w.Quiet)
    (lg : Log) (reason : Text) : (left (recordFailedLog env cfg lg reason) w).Quiet ∧
      (env.fault w.now .insertRawLog ≠ .none ∧
          (left (recordFailedLog env cfg lg reason) w).db = w.db ∨
        (left (recordFailedLog env cfg lg reason) w).db =
          w.db.insertRawLog (letterOf cfg lg reason)) := by
  have hbody : recordFailedLog env cfg lg reason = ignoring (guarded
      (execWrite env cfg .insertRawLog (Tables.insertRawLog (letterOf cfg lg reason)))) := by
    unfold recordFailedLog insertRawLog
    cases hb' : cfg.backend with
    | rocksdb => exact absurd hb' hb
    | sqlite => rfl
    | postgresql => rfl
  rw [hbody]
  refine left_of_meets (P := fun w' => w'.Quiet ∧ (env.fault w.now .insertRawLog ≠ .none ∧
    w'.db = w.db ∨ w'.db = w.db.insertRawLog (letterOf cfg lg reason)))
    ((meets_ignored_write hw).mono ?_ (fun _ _ h => h.elim) ?_)
  · rintro _ w' (⟨hfail, rfl⟩ | rfl)
    · exact ⟨hw, .inl ⟨hfail, rfl⟩⟩
    · exact ⟨rfl, .inr rfl⟩
  · rintro w' ⟨hfail, hconn⟩
    have hdb : w'.db = w.db := congrArg Conn.committed hconn
    exact ⟨rfl, .inl ⟨hfail, hdb⟩⟩

/-- Nothing becomes of letters and events. -/
structure Spared (t u : Tables) : Prop where
  next : u.nextRawId = t.nextRawId
  letters : u.rawLogs = t.rawLogs
  events : u.events = t.events

/-- The events of an indexer from block `f` to block `b` are gone, and the letters with them. -/
structure Cut (cfg : Config) (f b : Nat) (t u : Tables) : Prop where
  next : u.nextRawId = t.nextRawId
  letters : u.rawLogs = (t.deleteRawLogs cfg.stateKey f b).rawLogs
  events : u.events = (clearEvents cfg.contract.name cfg.contract.events f b t).events

theorem Cut.mem (h : Cut cfg f b t u) {r : RawLogRow} : r ∈ u.rawLogs ↔ r ∈ t.rawLogs ∧
    ¬(r.contractAddress = cfg.stateKey ∧ inRange f b r.blockNumber = true) := by
  rw [h.letters, Tables.deleteRawLogs, List.mem_filter]
  cases inRange f b r.blockNumber <;> simp

theorem Cut.mem_events (h : Cut cfg f b t u) {e : EventRow} : e ∈ u.events ↔ e ∈ t.events ∧
    ¬(e.key.table ∈ cfg.contract.events.map (eventTable cfg.contract.name) ∧
      inRange f b e.blockNumber = true) := by
  rw [h.events, mem_events_clearEvents]

theorem cut_erased (env : Env) (cfg : Config) (now f : Nat) (t : Tables) : Cut cfg f u64Max t
    (erased env cfg now cfg.stateKey cfg.contract.name cfg.contract.events f cfg.chain t) := by
  obtain ⟨p, s, r, h⟩ := exists_erased env cfg now cfg.stateKey cfg.contract.name
    cfg.contract.events f cfg.chain t
  rw [h]
  exact ⟨rfl, rfl, rfl⟩

/-! ### A rollback -/

/-- There are fewer letters and fewer events, and none below `f` is gone. -/
structure Purged (f : Nat) (t u : Tables) : Prop where
  next : u.nextRawId = t.nextRawId
  letters : u.rawLogs.Sublist t.rawLogs
  kept : ∀ r ∈ t.rawLogs, r.blockNumber < f → r ∈ u.rawLogs
  events : ∀ e ∈ t.events, e.blockNumber < f → e ∈ u.events

theorem Purged.refl (f : Nat) (t : Tables) : Purged f t t :=
  ⟨rfl, List.Sublist.refl _, fun _ h _ => h, fun _ h _ => h⟩

theorem Purged.trans (h : Purged f t u) (h' : Purged f u v) : Purged f t v where
  next := h'.next.trans h.next
  letters := h'.letters.trans h.letters
  kept r hr hlt := h'.kept r (h.kept r hr hlt) hlt
  events e he hlt := h'.events e (h.events e he hlt) hlt

/-- Other tables. -/
theorem purged_of_eq (hnext : u.nextRawId = t.nextRawId) (hletters : u.rawLogs = t.rawLogs)
    (hevents : u.events = t.events) : Purged f t u :=
  ⟨hnext, hletters ▸ List.Sublist.refl _, fun _ h _ => hletters ▸ h, fun _ h _ => hevents ▸ h⟩

/-- What goes on while a rollback looks after clones and children. -/
def purgeScope (f : Nat) : Scope where
  tables := .through (Purged f) (Purged.refl f) Purged.trans
  mem := .any
  handed := .any
  requests := .any
  children := .any
  rollbacks := .any

theorem not_inRange {g n : Nat} (hfg : f ≤ g) (hlt : n < f) : inRange g u64Max n = false := by
  rw [inRange_u64Max]
  exact decide_eq_false (by omega)

theorem purgeScope_rollsBack {g : Nat} (hfg : f ≤ g) : (purgeScope f).RollsBack cfg g where
  events t e := { Purged.refl f t with
    events := fun r hr hlt => List.mem_filter.2 ⟨hr, by simp [not_inRange hfg hlt]⟩ }
  snapshots _ := purged_of_eq rfl rfl rfl
  blockHashes _ := purged_of_eq rfl rfl rfl
  syncState _ := purged_of_eq rfl rfl rfl
  projections _ _ := purged_of_eq rfl rfl rfl
  cache _ := purged_of_eq rfl rfl rfl
  ranges _ _ := purged_of_eq rfl rfl rfl
  blocks _ := purged_of_eq rfl rfl rfl
  rawLogs t := { Purged.refl f t with
    letters := List.filter_sublist
    kept := fun r hr hlt => List.mem_filter.2 ⟨hr, by simp [not_inRange hfg hlt]⟩ }
  clones _ _ := purged_of_eq rfl rfl rfl
  memory _ _ _ _ := trivial

theorem purgeScope_reconciles (c : Child) : (purgeScope f).Reconciles c f where
  stops _ _ := purged_of_eq rfl rfl rfl
  drops _ := purged_of_eq rfl rfl rfl
  rewinds _ := purgeScope_rollsBack (f := f) le_rfl
  discards h := purgeScope_rollsBack (f := f) h

theorem within_afterDeletion_purged :
    Within (purgeScope f).frame (afterDeletion env cfg f) := by
  refine within_bind (within_setMem fun _ => trivial) fun _ => ?_
  refine within_bind (within_when fun _ => within_forgetClones
    (fun _ _ => purged_of_eq rfl rfl rfl) fun _ _ _ => trivial) fun _ => ?_
  exact within_onReorgCallback purgeScope_reconciles fun _ _ => trivial

/-- What goes on where there are no children to look after. -/
def keepScope : Scope where
  tables := .keeping (·.events)
  mem := .any
  handed := .any
  requests := .any

theorem within_afterDeletion_kept (hnone : cfg.reorgHook = none) :
    Within keepScope.frame (afterDeletion env cfg f) := by
  refine within_bind (within_setMem fun _ => trivial) fun _ => ?_
  refine within_bind (within_when fun _ =>
    within_forgetClones (fun _ _ => rfl) fun _ _ _ => trivial) fun _ => ?_
  unfold onReorgCallback
  rw [hnone]
  exact within_pure _

/-- **A rollback**: the deletion does all it is to do, or nothing, and then the children, if
anybody listens, may delete more. -/
theorem left_rollbackTo (env : Env) (f : Nat) (hb : cfg.backend ≠ .rocksdb) (hw : w.Quiet) :
    (left (rollbackTo env cfg f) w).Quiet ∧ ∃ u,
      (¬Deletes env cfg f w ∧ Spared w.db u ∨ Cut cfg f u64Max w.db u) ∧
      Purged f u (left (rollbackTo env cfg f) w).db ∧
      (cfg.reorgHook = none → (left (rollbackTo env cfg f) w).db.events = u.events) := by
  let P : World → Prop := fun w' => ∃ u,
    (¬Deletes env cfg f w ∧ Spared w.db u ∨ Cut cfg f u64Max w.db u) ∧ Purged f u w'.db ∧
      (cfg.reorgHook = none → w'.db.events = u.events)
  have hrest : ∀ w₁ : World, w₁.Quiet →
      (¬Deletes env cfg f w ∧ Spared w.db w₁.db ∨ Cut cfg f u64Max w.db w₁.db) →
      Meets (afterDeletion env cfg f) w₁ ⟨fun _ w' => w'.Quiet ∧ P w', fun _ w' => w'.Quiet ∧ P w',
        fun w' => P w'⟩ := by
    intro w₁ hw₁ hcase
    have hpurge : ∀ w' : World, (purgeScope f).Rel w₁ w' → Purged f w₁.db w'.db := fun w' h =>
      Linked.quiet h.tables hw₁
    have hkeep : Meets (afterDeletion env cfg f) w₁
        ⟨fun _ w' => cfg.reorgHook = none → w'.db.events = w₁.db.events,
          fun _ w' => cfg.reorgHook = none → w'.db.events = w₁.db.events,
          fun w' => cfg.reorgHook = none → w'.db.events = w₁.db.events⟩ := by
      by_cases hnone : cfg.reorgHook = none
      · exact (within_afterDeletion_kept hnone w₁).mono
          (fun _ _ h _ => Linked.quiet h.1.tables hw₁) (fun _ _ h _ => Linked.quiet h.1.tables hw₁)
          fun _ h _ => Linked.quiet h.1.tables hw₁
      · exact (meets_trivial _ _).mono (fun _ _ _ h => absurd h hnone)
          (fun _ _ _ h => absurd h hnone) fun _ _ h => absurd h hnone
    refine ((within_afterDeletion_purged w₁).and hkeep).mono ?_ ?_ ?_
    · rintro _ w' ⟨⟨hrel, hquiet⟩, hsame⟩
      exact ⟨hquiet hw₁, w₁.db, hcase, hpurge w' hrel, hsame⟩
    · rintro _ w' ⟨⟨hrel, hquiet⟩, hsame⟩
      exact ⟨hquiet hw₁, w₁.db, hcase, hpurge w' hrel, hsame⟩
    · rintro w' ⟨⟨hrel, -⟩, hsame⟩
      exact ⟨w₁.db, hcase, hpurge w' hrel, hsame⟩
  have hnot : ∀ {o : Outcome Err Unit} {w₁ : World}, o ≠ .ok () → rollbackFromBlock env cfg
      cfg.stateKey cfg.contract.name cfg.contract.events f cfg.chain (w.rollingBack f) = (o, w₁) →
      ¬Deletes env cfg f w := by
    rintro o w₁ ho heq ⟨w₂, hok⟩
    rw [heq] at hok
    exact ho (congrArg Prod.fst hok)
  have hrun := (meets_self _ _).and (meets_rollbackFromBlock env hb (w := w.rollingBack f) hw
    cfg.stateKey cfg.contract.name cfg.contract.events f cfg.chain)
  refine left_of_meets (P := fun w' => w'.Quiet ∧ P w') ?_
  rw [rollbackTo_eq, meets_modify_bind, meets_bind, meets_ignoring]
  refine hrun.mono ?_ ?_ ?_
  · rintro _ w₁ ⟨-, hdone⟩
    have hquiet : w₁.Quiet := by
      rw [hdone]
      rfl
    have hcut : Cut cfg f u64Max w.db w₁.db := by
      rw [hdone]
      exact cut_erased _ _ _ _ _
    exact (hrest w₁ hquiet (.inr hcut)).mono (fun _ _ h => h) (fun _ _ h => h) fun _ h => ⟨rfl, h⟩
  · rintro e w₁ ⟨heq, rfl⟩
    have hspared : ¬Deletes env cfg f w := hnot (fun h => by cases h) heq
    change Meets (afterDeletion env cfg f) (w.rollingBack f).ticked _
    exact (hrest (w.rollingBack f).ticked hw (.inl ⟨hspared, rfl, rfl, rfl⟩)).mono
      (fun _ _ h => h) (fun _ _ h => h) fun _ h => ⟨rfl, h⟩
  · rintro w₁ ⟨heq, hconn⟩
    have hspared : ¬Deletes env cfg f w := hnot (fun h => by cases h) heq
    have hdb : w₁.db = w.db := by
      rw [World.db, hconn]
      rfl
    refine ⟨rfl, w.db, .inl ⟨hspared, rfl, rfl, rfl⟩, ?_, fun _ => ?_⟩
    · change Purged f w.db w₁.db
      rw [hdb]
      exact Purged.refl f _
    · change w₁.db.events = w.db.events
      rw [hdb]

/-! ### A replay -/

/-- **The deletion of a replay**, where there are transactions: all of it or nothing. -/
theorem meets_resetForReplay_cut (hb : cfg.backend ≠ .rocksdb) (hw : w.Quiet) :
    Meets (resetForReplay env cfg cfg.stateKey cfg.contract.name cfg.contract.events f b) w
      ⟨fun _ w' => w'.conn = quiet (reset env cfg w.now cfg.stateKey cfg.contract.name
          cfg.contract.events f b w.db),
        fun _ w' => w'.conn = quiet w.db, fun w' => w'.conn = quiet w.db⟩ := by
  have hbody : resetForReplay env cfg cfg.stateKey cfg.contract.name cfg.contract.events f b =
      inTransaction env cfg
        (resetStatements env cfg cfg.stateKey cfg.contract.name cfg.contract.events f b) := by
    unfold resetForReplay
    cases hb' : cfg.backend with
    | rocksdb => exact absurd hb' hb
    | sqlite => rfl
    | postgresql => rfl
  rw [hbody]
  refine (meets_inTransaction (P := (· = reset env cfg w.now cfg.stateKey cfg.contract.name
    cfg.contract.events f b w.db)) (eq_quiet hw) fun w₁ hc hnow _ => ?_).mono ?_ ?_
    fun _ h => h.1
  · have hin : InTxn w.db False (· = w.db) w₁.conn := by
      rw [hc]
      exact inTxn_opened rfl
    have := meets_resetStatements env hb hin cfg.stateKey cfg.contract.name cfg.contract.events f b
    rwa [hnow] at this
  · rintro _ w' ⟨_, rfl, rfl⟩
    rfl
  · rintro _ w' rfl
    exact eq_quiet hw

theorem cut_reset (hb : cfg.backend ≠ .rocksdb) (now f b : Nat) (t : Tables) : Cut cfg f b t
    (reset env cfg now cfg.stateKey cfg.contract.name cfg.contract.events f b t) := by
  rw [reset_eq, if_neg hb]
  exact ⟨rfl, rfl, rfl⟩

/-- What goes on while a run loop is stopped. -/
def stopScope : Scope where
  tables := .keeping fun t => (t.nextRawId, t.rawLogs, t.events)
  mem := .any
  handed := .any
  requests := .any

theorem spared_of_keeping (h : (u.nextRawId, u.rawLogs, u.events) =
    (t.nextRawId, t.rawLogs, t.events)) : Spared t u := by
  rw [Prod.mk.injEq, Prod.mk.injEq] at h
  exact ⟨h.1, h.2.1, h.2.2⟩

theorem Cut.of_spared (h : Cut cfg f b u v) (h' : Spared t u) : Cut cfg f b t v where
  next := h.next.trans h'.next
  letters := by
    rw [h.letters]
    change List.filter _ u.rawLogs = List.filter _ t.rawLogs
    rw [h'.letters]
  events := by
    rw [h.events, clearEvents_eq, clearEvents_eq]
    change List.filter _ u.events = List.filter _ t.events
    rw [h'.events]

/-- **A replay**: the deletion does all it is to do, or nothing. -/
theorem left_requestReplay (env : Env) (spawns : Bool) (f b : Nat)
    (hb : cfg.backend ≠ .rocksdb) (hw : w.Quiet) :
    (left (requestReplay env cfg spawns f b) w).Quiet ∧
      (Spared w.db (left (requestReplay env cfg spawns f b) w).db ∨
        Cut cfg f (deleteTo f b) w.db (left (requestReplay env cfg spawns f b) w).db) := by
  have hstop : Within stopScope.frame (stopAndJoin env cfg) :=
    within_stopAndJoin (fun _ _ => rfl) fun _ _ _ => trivial
  refine left_of_meets (P := fun w' => w'.Quiet ∧
    (Spared w.db w'.db ∨ Cut cfg f (deleteTo f b) w.db w'.db)) ?_
  simp only [requestReplay, prepareReplay, meets_bind, meets_catching, setMem, meets_modify]
  refine ((meets_stopAndJoin hw).and (hstop w)).mono ?_ (fun _ _ h => h.1.elim) ?_
  · rintro _ w₁ ⟨hjoined, hrel, hquiet⟩
    have hspared : Spared w.db w₁.db := spared_of_keeping (Linked.quiet hrel.tables hw)
    refine (meets_resetForReplay_cut hb (hquiet hw)).mono ?_ ?_ ?_
    · intro _ w₂ hconn
      have hcut : Cut cfg f (deleteTo f b) w.db w₂.db := by
        change Cut cfg f (deleteTo f b) w.db w₂.conn.committed
        rw [hconn]
        exact (cut_reset hb _ _ _ _).of_spared hspared
      have hquiet₂ : w₂.conn.txn = none := by
        rw [hconn]
        rfl
      cases spawns with
      | true => exact ⟨hquiet₂, .inr hcut⟩
      | false => exact ⟨hquiet₂, .inr hcut⟩
    · intro e w₂ hconn
      refine ⟨?_, .inl ?_⟩
      · rw [World.Quiet, hconn]
        rfl
      · change Spared w.db w₂.conn.committed
        rw [hconn]
        exact hspared
    · intro w₂ hconn
      refine ⟨rfl, .inl ?_⟩
      change Spared w.db w₂.conn.committed
      rw [hconn]
      exact hspared
  · rintro w₁ ⟨-, hrel, -⟩
    have hspared : Spared w.db w₁.db := spared_of_keeping (Linked.quiet hrel.tables hw)
    exact ⟨rfl, .inl hspared⟩

end Steps

/-! ### Runs -/

/-- What the rest of the program does: anything, but to the letters of this indexer. Others may
write and throw away letters of their own, and the process may be started again. -/
structure Elsewhere (cfg : Config) where
  world : World → World
  tables : Tables → Tables
  numbered : ∀ t, Numbered t → Numbered (tables t)
  next : ∀ t : Tables, t.nextRawId ≤ (tables t).nextRawId
  letters : ∀ t, letters cfg (tables t) = letters cfg t

/-- The state after it. -/
def Elsewhere.apply {cfg : Config} (o : Elsewhere cfg) (w : World) : World :=
  { o.world w with conn := quiet (o.tables w.db) }

/-- What happens next to an indexer: a log fails, it is time for another round, a block is rolled
back to, a replay is asked for, or something else. What the indexer cannot know, the clock
included, is another thing every time. -/
inductive Act (cfg : Config) where
  | record (env : Env) (lg : Log) (reason : Text)
  | retry (env : Env)
  | rollback (env : Env) (f : Nat)
  | replay (env : Env) (spawns : Bool) (f b : Nat)
  | elsewhere (o : Elsewhere cfg)

/-- One step. -/
def step (cfg : Config) (w : World) : Act cfg → Option World
  | .record env lg reason => some (left (recordFailedLog env cfg lg reason) w)
  | .retry env => some (left (retryDeadLetters env cfg) w)
  | .rollback env f => some (left (rollbackTo env cfg f) w)
  | .replay env spawns f b => some (left (requestReplay env cfg spawns f b) w)
  | .elsewhere o => some (o.apply w)

/-- Every sequence of them, from a world to begin with. -/
def letterbox (cfg : Config) (w : World) : Machine World (Act cfg) := ⟨w, step cfg⟩

/-- No transaction is open, and the letters are numbered. -/
structure Sound (w : World) : Prop where
  quiet : w.Quiet
  numbered : Numbered w.db

/-- The letters of an indexer from one moment to a later one. -/
structure Aged (cfg : Config) (t t' : Tables) : Prop where
  next : t.nextRawId ≤ t'.nextRawId
  old : ∀ r' ∈ letters cfg t', r'.id < t.nextRawId →
    ∃ r ∈ letters cfg t, about r' = about r ∧ r.retryAfter ≤ r'.retryAfter

namespace Aged

variable {cfg : Config} {t u v : Tables}

theorem refl (cfg : Config) (t : Tables) : Aged cfg t t :=
  ⟨le_rfl, fun r hr _ => ⟨r, hr, rfl, le_rfl⟩⟩

theorem trans (h : Aged cfg t u) (h' : Aged cfg u v) : Aged cfg t v := by
  refine ⟨h.next.trans h'.next, fun r'' hr'' hlt => ?_⟩
  obtain ⟨r', hr', habout', hle'⟩ := h'.old r'' hr'' (lt_of_lt_of_le hlt h.next)
  have hlt' : r'.id < t.nextRawId := by rwa [← id_of_about habout']
  obtain ⟨r, hr, habout, hle⟩ := h.old r' hr' hlt'
  exact ⟨r, hr, habout'.trans habout, hle.trans hle'⟩

/-- Where letters only go. -/
theorem of_subset (hnext : u.nextRawId = t.nextRawId) (hsub : ∀ r ∈ u.rawLogs, r ∈ t.rawLogs) :
    Aged cfg t u := by
  refine ⟨hnext.ge, fun r hr _ => ⟨r, ?_, rfl, le_rfl⟩⟩
  rw [mem_letters] at hr ⊢
  exact ⟨hsub r hr.1, hr.2⟩

/-- Where a letter is added. -/
theorem insertRawLog (cfg : Config) (t : Tables) (r : RawLogRow) :
    Aged cfg t (t.insertRawLog r) := by
  unfold Tables.insertRawLog
  split
  · exact refl cfg t
  · refine ⟨Nat.le_succ _, fun r' hr' hlt => ⟨r', ?_, rfl, le_rfl⟩⟩
    rw [mem_letters] at hr' ⊢
    refine ⟨(List.mem_append.1 hr'.1).resolve_right fun hnew => ?_, hr'.2⟩
    rw [List.mem_singleton.1 hnew] at hlt
    exact Nat.lt_irrefl _ hlt

end Aged

section Aging

variable {env : Env} {cfg : Config} {w w' w'' : World} {f b : Nat} {r : RawLogRow} {x : Attempt}

theorem mem_of_attempt (hb : cfg.backend ≠ .rocksdb) (hw : w.Quiet)
    (hx : x ∈ attempts env cfg w) : x.1 ∈ letters cfg w.db ∧ x.1.retryAfter ≤ env.clock w.now :=
  mem_due.1 ((fair_of_first (attempts_first env hb hw)).due x hx)

/-- **Where a letter comes from over a round.** -/
theorem mem_left_retry (hb : cfg.backend ≠ .rocksdb) (hw : Sound w)
    (hr : r ∈ (left (retryDeadLetters env cfg) w).db.rawLogs) :
    r ∈ w.db.rawLogs ∨ ∃ x ∈ attempts env cfg w,
      r = bumped (env.clock w.now + deadLetterDelayMs x.1.attempts) x.1 := by
  have hpre := attempts_first env hb hw.quiet
  have hround := (rounded env hb hw.quiet).2
  refine (hround.mem (nodup_of_first hw.numbered hpre) hr).imp id ?_
  rintro ⟨x, hx, -, r₀, hr₀, hid, rfl⟩
  have hmem := (mem_letters.1 (mem_of_attempt hb hw.quiet hx).1).1
  obtain rfl := hw.numbered.eq_of_id hr₀ hmem hid
  exact ⟨x, hx, rfl⟩

/-- **A step** keeps what is said of every moment, and the letters age. -/
theorem sound_aged_step {a : Act cfg} (hb : cfg.backend ≠ .rocksdb) (hw : Sound w)
    (h : step cfg w a = some w') : Sound w' ∧ Aged cfg w.db w'.db := by
  cases a with
  | record env lg reason =>
    obtain rfl := Option.some.inj h
    obtain ⟨hquiet, ⟨-, hdb⟩ | hdb⟩ := left_recordFailedLog env hb hw.quiet lg reason
    · rw [hdb]
      exact ⟨⟨hquiet, by rw [hdb]; exact hw.numbered⟩, .refl _ _⟩
    · rw [hdb]
      exact ⟨⟨hquiet, by rw [hdb]; exact hw.numbered.insertRawLog _⟩, .insertRawLog _ _ _⟩
  | retry env =>
    obtain rfl := Option.some.inj h
    obtain ⟨hquiet, hround⟩ := rounded env hb hw.quiet
    refine ⟨⟨hquiet, hround.numbered hw.numbered⟩, hround.next.ge, fun r' hr' _ => ?_⟩
    rw [mem_letters] at hr'
    rcases mem_left_retry hb hw hr'.1 with hold | ⟨x, hx, rfl⟩
    · exact ⟨r', mem_letters.2 ⟨hold, hr'.2⟩, rfl, le_rfl⟩
    · obtain ⟨hmem, hdue⟩ := mem_of_attempt hb hw.quiet hx
      exact ⟨x.1, hmem, rfl, hdue.trans (Nat.le_add_right _ _)⟩
  | rollback env f =>
    obtain rfl := Option.some.inj h
    obtain ⟨hquiet, u, hcase, hpurged, -⟩ := left_rollbackTo env f hb hw.quiet
    have hu : u.nextRawId = w.db.nextRawId ∧ u.rawLogs.Sublist w.db.rawLogs := by
      rcases hcase with ⟨-, hspared⟩ | hcut
      · exact ⟨hspared.next, by rw [hspared.letters]⟩
      · exact ⟨hcut.next, by rw [hcut.letters]; exact List.filter_sublist⟩
    have hsub := hpurged.letters.trans hu.2
    have hnext := hpurged.next.trans hu.1
    exact ⟨⟨hquiet, hw.numbered.of_sublist (hsub.map _) hnext.ge⟩,
      .of_subset hnext fun r hr => hsub.subset hr⟩
  | replay env spawns f b =>
    obtain rfl := Option.some.inj h
    obtain ⟨hquiet, hcase⟩ := left_requestReplay env spawns f b hb hw.quiet
    have hu : (left (requestReplay env cfg spawns f b) w).db.nextRawId = w.db.nextRawId ∧
        (left (requestReplay env cfg spawns f b) w).db.rawLogs.Sublist w.db.rawLogs := by
      rcases hcase with hspared | hcut
      · exact ⟨hspared.next, by rw [hspared.letters]⟩
      · exact ⟨hcut.next, by rw [hcut.letters]; exact List.filter_sublist⟩
    exact ⟨⟨hquiet, hw.numbered.of_sublist (hu.2.map _) hu.1.ge⟩,
      .of_subset hu.1 fun r hr => hu.2.subset hr⟩
  | elsewhere o =>
    obtain rfl := Option.some.inj h
    refine ⟨⟨rfl, o.numbered _ hw.numbered⟩, o.next _, fun r hr _ => ⟨r, ?_, rfl, le_rfl⟩⟩
    rw [← o.letters w.db]
    exact hr

/-- **A run**: what is said of every moment, and of any two. -/
theorem sound_aged_of_reachable (hb : cfg.backend ≠ .rocksdb) (hw : Sound w)
    (h : (letterbox cfg w).Reachable w') : Sound w' ∧ Aged cfg w.db w'.db :=
  h.invariant (I := fun w' => Sound w' ∧ Aged cfg w.db w'.db) ⟨hw, .refl _ _⟩
    fun _ _ _ hs _ hstep => by
      obtain ⟨hsound, haged⟩ := sound_aged_step hb hs.1 hstep
      exact ⟨hsound, hs.2.trans haged⟩

/-- A letter that is tried, and is no younger than a moment, was there at that moment. -/
theorem exists_old (hb : cfg.backend ≠ .rocksdb) (hw : Sound w)
    (h : (letterbox cfg w).Reachable w') (hx : x ∈ attempts env cfg w')
    (hlt : x.1.id < w.db.nextRawId) : ∃ r ∈ letters cfg w.db, about x.1 = about r ∧
      r.retryAfter ≤ env.clock w'.now := by
  obtain ⟨hsound, haged⟩ := sound_aged_of_reachable hb hw h
  obtain ⟨hmem, hdue⟩ := mem_of_attempt hb hsound.quiet hx
  obtain ⟨r, hr, habout, hle⟩ := haged.old x.1 hmem hlt
  exact ⟨r, hr, habout, hle.trans hdue⟩

end Aging

/-! ### What is asked of a step -/

/-- A topic as nodes write it: `0x` and hex digits. -/
def IsHex (s : Text) : Prop :=
  ∃ digits, s = '0' :: 'x' :: digits ∧ ∀ c ∈ digits, (Text.charToDigit c 16).isSome = true

/-- A log all of which can be written down: it names its address, its topics are hex strings, and
no text of it holds the character zero, at which SQLite ends a text. -/
structure Plain (lg : Log) : Prop where
  address : lg.address ≠ []
  topics : ∀ s ∈ lg.topics, IsHex s
  texts : ∀ s ∈ [lg.address, lg.data, lg.transactionHash], ∀ c ∈ s, c.toNat ≠ 0

/-- Why a letter may be gone after a step: its log has gone through, its block has been rolled back
or replayed, or it is another indexer's. -/
def Settled (cfg : Config) (w : World) (r : RawLogRow) : Act cfg → Prop
  | .record .. => False
  | .retry env => (r, .ok ()) ∈ attempts env cfg w
  | .rollback _ f => f ≤ r.blockNumber
  | .replay _ _ f b =>
    r.contractAddress = cfg.stateKey ∧ inRange f (deleteTo f b) r.blockNumber = true
  | .elsewhere _ => r.contractAddress ≠ cfg.stateKey

/-- A rollback or a replay has deleted an event. Where a factory listens, its children are rolled
back even if the deletion of the indexer itself fails, and what they delete is theirs. -/
def Erases (cfg : Config) (w w' : World) (e : EventRow) (a : Act cfg) : Prop :=
  e ∈ w.db.events ∧ e ∉ w'.db.events ∧
    match a with
    | .rollback env f => cfg.reorgHook = none ∨ Deletes env cfg f w
    | .replay .. => True
    | _ => False

/-- The states of a run from `w` on. -/
def Later (cfg : Config) (w w'' : World) : Prop := (letterbox cfg w).Reachable w''

/-- What a round is held to: its logs are those of letters that are due, each in its turn and none
left out where there is room, and no other log brings events. -/
structure RoundKept (cfg : Config) (env : Env) (w w' : World) : Prop where
  handed : w'.handed = w.handed ++ (attempts env cfg w).map fun x => logOfRow cfg x.1
  fair : Fair cfg (env.clock w.now) w.db (attempts env cfg w)
  full : Undisturbed env cfg w → (retryDeadLetters env cfg w).1 = .ok () →
    ∀ r ∈ due cfg (env.clock w.now) w.db,
      r ∈ (attempts env cfg w).map (·.1) ∨ (attempts env cfg w).length = rawLogRetryBatch
  brings : ∀ e ∈ w'.db.events,
    e ∈ w.db.events ∨ ∃ x ∈ attempts env cfg w, e.blockNumber = x.1.blockNumber
  /-- A letter whose failure is on record is not tried before its time. -/
  waits : ∀ x ∈ attempts env cfg w, ∀ r ∈ w'.db.rawLogs, r.id = x.1.id →
    r.attempts = x.1.attempts + 1 → ∀ w'', Later cfg w' w'' → ∀ env' : Env,
      ∀ y ∈ attempts env' cfg w'', y.1.id = x.1.id →
        env.clock w.now + deadLetterDelayMs x.1.attempts ≤ env'.clock w''.now

/-- What a letter is held to that has been written for a log: it is there if the statement has gone
through, and what is tried later on is the log it was written for. -/
structure LetterKept (cfg : Config) (env : Env) (lg : Log) (w w' : World) : Prop where
  written : env.fault w.now .insertRawLog = .none →
    w'.db.hasRawLog cfg.stateKey lg.transactionHash lg.logIndex = true
  same : Plain lg → ∀ r ∈ w'.db.rawLogs, r ∉ w.db.rawLogs → ∀ w'', Later cfg w' w'' →
    ∀ env' : Env, ∀ x ∈ attempts env' cfg w'', x.1.id = r.id →
      logOfRow cfg x.1 = { lg with removed := false }

/-- What a step is held to. -/
structure WellKept (cfg : Config) (w : World) (a : Act cfg) (w' : World) : Prop where
  /-- No letter is lost. -/
  lost : ∀ r ∈ w.db.rawLogs, (∃ r' ∈ w'.db.rawLogs, about r' = about r) ∨ Settled cfg w r a
  /-- No letter brings back what has been deleted since. -/
  buried : ∀ e, Erases cfg w w' e a → ∀ w'', Later cfg w' w'' → ∀ env' : Env,
    ∀ x ∈ attempts env' cfg w'', x.1.blockNumber = e.blockNumber → w.db.nextRawId ≤ x.1.id
  round : ∀ env, a = .retry env → RoundKept cfg env w w'
  letter : ∀ env lg reason, a = .record env lg reason → LetterKept cfg env lg w w'

section WellKept

variable {env : Env} {cfg : Config} {w w' : World} {a : Act cfg}

/-- A hex digit is no control character. -/
theorem le_of_charToDigit {c : Char} (h : (Text.charToDigit c 16).isSome = true) :
    0x20 ≤ c.toNat := by
  by_contra hlt
  have hnot : ∀ d : Char, 0x20 ≤ d.toNat → ¬d ≤ c := fun d hd hle => by
    have hnat : d.toNat ≤ c.toNat := hle
    omega
  have hnone : Text.charToDigit c 16 = none := by
    unfold Text.charToDigit
    rw [if_neg fun h => hnot '0' (by decide) h.1, if_neg fun h => hnot 'A' (by decide) h.1,
      if_neg fun h => hnot 'a' (by decide) h.1]
    rfl
  rw [hnone] at h
  cases h

theorem IsHex.printable {s : Text} (h : IsHex s) : ∀ c ∈ s, 0x20 ≤ c.toNat := by
  obtain ⟨digits, rfl, hdigits⟩ := h
  intro c hc
  rcases List.mem_cons.1 hc with rfl | hc
  · decide
  rcases List.mem_cons.1 hc with rfl | hc
  · decide
  · exact le_of_charToDigit (hdigits c hc)

/-- **A letter says what the log said.** -/
theorem logOfRow_letterOf {lg : Log} (h : Plain lg) (reason : Text) (n : Nat) :
    logOfRow cfg { letterOf cfg lg reason with id := n } = { lg with removed := false } := by
  have htopics : Text.parseTopicsJson (Text.formatTopicsJson lg.topics) = lg.topics :=
    (Topics.dead_letter_iff lg.topics).2 fun s hs => (h.topics s hs).printable
  unfold logOfRow letterOf
  rw [if_pos h.address, htopics]

/-- **No letter is lost.** -/
theorem kept_or_settled (hb : cfg.backend ≠ .rocksdb) (hw : Sound w)
    (hstep : step cfg w a = some w') {r : RawLogRow} (hr : r ∈ w.db.rawLogs) :
    (∃ r' ∈ w'.db.rawLogs, about r' = about r) ∨ Settled cfg w r a := by
  cases a with
  | record env lg reason =>
    obtain rfl := Option.some.inj hstep
    refine .inl ⟨r, ?_, rfl⟩
    obtain ⟨-, ⟨-, hdb⟩ | hdb⟩ := left_recordFailedLog env hb hw.quiet lg reason
    · rwa [hdb]
    · rw [hdb]
      unfold Tables.insertRawLog
      split
      · exact hr
      · exact List.mem_append_left _ hr
  | retry env =>
    obtain rfl := Option.some.inj hstep
    refine ((rounded env hb hw.quiet).2.kept hr).imp id ?_
    rintro ⟨⟨r₀, o⟩, hx, rfl, hid⟩
    obtain rfl := hw.numbered.eq_of_id (mem_letters.1 (mem_of_attempt hb hw.quiet hx).1).1 hr hid
    exact hx
  | rollback env f =>
    obtain rfl := Option.some.inj hstep
    by_cases hlt : r.blockNumber < f
    · obtain ⟨-, u, hcase, hpurged, -⟩ := left_rollbackTo env f hb hw.quiet
      have hu : r ∈ u.rawLogs := by
        rcases hcase with ⟨-, hspared⟩ | hcut
        · rwa [hspared.letters]
        · rw [hcut.mem, not_inRange le_rfl hlt]
          exact ⟨hr, fun h => by cases h.2⟩
      exact .inl ⟨r, hpurged.kept r hu hlt, rfl⟩
    · exact .inr (Nat.not_lt.1 hlt)
  | replay env spawns f b =>
    obtain rfl := Option.some.inj hstep
    by_cases hgone : r.contractAddress = cfg.stateKey ∧
        inRange f (deleteTo f b) r.blockNumber = true
    · exact .inr hgone
    · refine .inl ⟨r, ?_, rfl⟩
      rcases (left_requestReplay env spawns f b hb hw.quiet).2 with
        hspared | hcut
      · rwa [hspared.letters]
      · exact hcut.mem.2 ⟨hr, hgone⟩
  | elsewhere o =>
    obtain rfl := Option.some.inj hstep
    by_cases hown : r.contractAddress = cfg.stateKey
    · have hmem : r ∈ letters cfg (o.tables w.db) := by
        rw [o.letters]
        exact mem_letters.2 ⟨hr, hown⟩
      exact .inl ⟨r, (mem_letters.1 hmem).1, rfl⟩
    · exact .inr hown

/-- Where a deletion has taken an event, it has taken the letters of its block. -/
theorem block_ne_of_erases (hb : cfg.backend ≠ .rocksdb) (hw : Sound w)
    (hstep : step cfg w a = some w') {e : EventRow} (he : Erases cfg w w' e a) :
    ∀ r ∈ letters cfg w'.db, r.blockNumber ≠ e.blockNumber := by
  obtain ⟨hold, hgone, hact⟩ := he
  cases a with
  | record env lg reason => exact hact.elim
  | retry env => exact hact.elim
  | elsewhere o => exact hact.elim
  | rollback env f =>
    obtain rfl := Option.some.inj hstep
    obtain ⟨-, u, hcase, hpurged, hkeep⟩ := left_rollbackTo env f hb hw.quiet
    have hcut : Cut cfg f u64Max w.db u := by
      rcases hcase with ⟨hfailed, hspared⟩ | hcut
      · refine absurd ?_ hgone
        rw [hkeep (hact.resolve_right hfailed), hspared.events]
        exact hold
      · exact hcut
    have hle : f ≤ e.blockNumber := by
      by_contra hlt
      rw [Nat.not_le] at hlt
      refine hgone (hpurged.events e (hcut.mem_events.2 ⟨hold, fun h => ?_⟩) hlt)
      rw [not_inRange le_rfl hlt] at h
      cases h.2
    intro r hr heq
    rw [mem_letters] at hr
    refine (hcut.mem.1 (hpurged.letters.subset hr.1)).2 ⟨hr.2, ?_⟩
    rw [heq, inRange_u64Max]
    exact decide_eq_true hle
  | replay env spawns f b =>
    obtain rfl := Option.some.inj hstep
    rcases (left_requestReplay env spawns f b hb hw.quiet).2 with
      hspared | hcut
    · rw [hspared.events] at hgone
      exact absurd hold hgone
    · intro r hr heq
      rw [mem_letters] at hr
      have hin := not_and.1 (mt hcut.mem_events.2 hgone) hold
      rw [not_not] at hin
      exact (hcut.mem.1 hr.1).2 ⟨hr.2, heq ▸ hin.2⟩

/-- **A round.** -/
theorem roundKept (hb : cfg.backend ≠ .rocksdb) (hw : Sound w) :
    RoundKept cfg env w (left (retryDeadLetters env cfg) w) := by
  obtain ⟨hquiet, hround⟩ := rounded env hb hw.quiet
  refine ⟨handed_retryDeadLetters hb hw.quiet, fair_of_first (attempts_first env hb hw.quiet),
    fun hread hend r hr => mem_attempts_of_undisturbed hb hw.quiet hread hend hr,
    fun e he => hround.events he, ?_⟩
  intro x hx r hr hid hattempts w'' hlater env' y hy hyid
  -- the letter after the round is the one that was tried, told to wait
  have hbumped : r = bumped (env.clock w.now + deadLetterDelayMs x.1.attempts) x.1 := by
    rcases mem_left_retry hb hw hr with hold | ⟨x', hx', rfl⟩
    · have hmem := (mem_letters.1 (mem_of_attempt hb hw.quiet hx).1).1
      obtain rfl := hw.numbered.eq_of_id hold hmem hid
      exact absurd hattempts (Nat.ne_of_lt (Nat.lt_succ_self _))
    · have hmem := (mem_letters.1 (mem_of_attempt hb hw.quiet hx).1).1
      have hmem' := (mem_letters.1 (mem_of_attempt hb hw.quiet hx').1).1
      rw [hw.numbered.eq_of_id hmem' hmem hid]
  have hsound : Sound (left (retryDeadLetters env cfg) w) := ⟨hquiet, hround.numbered hw.numbered⟩
  have hlt : y.1.id < (left (retryDeadLetters env cfg) w).db.nextRawId := by
    rw [hyid, ← hid]
    exact hsound.numbered.free r hr
  obtain ⟨r₀, hr₀, habout, hle⟩ := exists_old hb hsound hlater hy hlt
  have hsame : r₀.id = r.id := (id_of_about habout).symm.trans (hyid.trans hid.symm)
  rw [hsound.numbered.eq_of_id (mem_letters.1 hr₀).1 hr hsame, hbumped] at hle
  exact hle

/-- **A letter that is written.** -/
theorem letterKept (hb : cfg.backend ≠ .rocksdb) (hw : Sound w) (lg : Log) (reason : Text) :
    LetterKept cfg env lg w (left (recordFailedLog env cfg lg reason) w) := by
  have hrun := left_recordFailedLog env hb hw.quiet lg reason
  refine ⟨fun hnone => ?_, ?_⟩
  · rw [hrun.2.resolve_left fun h => h.1 hnone, Tables.insertRawLog]
    split
    · next h => exact h
    · unfold Tables.hasRawLog
      rw [List.any_append]
      simp [letterOf]
  · intro hplain r hr hnew w'' hlater env' x hx hid
    have hsound : Sound (left (recordFailedLog env cfg lg reason) w) :=
      (sound_aged_step (a := .record env lg reason) hb hw rfl).1
    have hlt : x.1.id < (left (recordFailedLog env cfg lg reason) w).db.nextRawId := by
      rw [hid]
      exact hsound.numbered.free r hr
    obtain ⟨r₀, hr₀, habout, -⟩ := exists_old hb hsound hlater hx hlt
    have hsame : r₀.id = r.id := (id_of_about habout).symm.trans hid
    rw [logOfRow_of_about habout, hsound.numbered.eq_of_id (mem_letters.1 hr₀).1 hr hsame]
    rcases hrun.2 with ⟨-, hdb⟩ | hdb <;> rw [hdb] at hr
    · exact absurd hr hnew
    · unfold Tables.insertRawLog at hr
      split at hr
      · exact absurd hr hnew
      · rw [List.mem_singleton.1 ((List.mem_append.1 hr).resolve_left hnew)]
        exact logOfRow_letterOf hplain reason _

/-- **Dead letters**: in every run of an indexer on SQLite or PostgreSQL, whatever fails, no
letter is lost, none is resurrected, none is tried out of its turn or before its time, and what
is tried is what has failed. -/
theorem well_kept {w₀ : World} (hb : cfg.backend ≠ .rocksdb) (h₀ : Sound w₀)
    (h : Later cfg w₀ w) (hstep : step cfg w a = some w') : WellKept cfg w a w' := by
  have hw : Sound w := (sound_aged_of_reachable hb h₀ h).1
  have hw' : Sound w' := (sound_aged_step hb hw hstep).1
  refine ⟨fun r hr => kept_or_settled hb hw hstep hr, ?_, ?_, ?_⟩
  · intro e he w'' hlater env' x hx hblock
    by_contra hlt
    rw [Nat.not_le] at hlt
    have hlt' : x.1.id < w'.db.nextRawId :=
      lt_of_lt_of_le hlt (sound_aged_step hb hw hstep).2.next
    obtain ⟨r, hr, habout, -⟩ := exists_old hb hw' hlater hx hlt'
    exact block_ne_of_erases hb hw hstep he r hr ((blockNumber_of_about habout).symm.trans hblock)
  · rintro env rfl
    obtain rfl := Option.some.inj hstep
    exact roundKept hb hw
  · rintro env lg reason rfl
    obtain rfl := Option.some.inj hstep
    exact letterKept hb hw lg reason

end WellKept

/-! ### Two logs that fail -/

/-- A log of block 7 with one topic, which an indexer without an ABI makes nothing of. -/
def strayLog : Log where
  address := "0xAA".toList
  topics := ["0x01".toList]
  data := []
  blockNumber := 7
  transactionHash := "0x0a".toList
  logIndex := 0

/-- Its letter has been written. -/
def strayWorld : World := left (recordFailedLog {} plainConfig strayLog []) freshWorld

/-- The round that tries it again. -/
theorem well_kept_stray : WellKept plainConfig strayWorld (.retry {})
    (left (retryDeadLetters {} plainConfig) strayWorld) :=
  have hfresh : Sound freshWorld := ⟨rfl, List.nodup_nil, fun _ h => absurd h List.not_mem_nil⟩
  have hstray : Later plainConfig freshWorld strayWorld :=
    Machine.Reaches.step (a := .record {} strayLog []) .init trivial rfl
  well_kept (by decide) hfresh hstray rfl

example : (attempts {} plainConfig strayWorld).map (fun x => (logOfRow plainConfig x.1, x.2)) =
    [(strayLog, .err .abiMismatch)] := by decide +kernel

/-- The same log, of a node that does not say whose it is. -/
def namelessLog : Log := { strayLog with address := [] }

/-- It fails, and what is tried again is another log: one of the contract's own address. -/
theorem nameless_differs :
    (processLog {} plainConfig namelessLog freshWorld).1 = .err .abiMismatch ∧
      (∀ s ∈ namelessLog.topics, IsHex s) ∧
      ∃ w', step plainConfig freshWorld (.record {} namelessLog []) = some w' ∧
        ∃ x ∈ attempts {} plainConfig w', x.1.txHash = namelessLog.transactionHash ∧
          x.1.logIndex = namelessLog.logIndex ∧ logOfRow plainConfig x.1 ≠ namelessLog := by
  refine ⟨by decide +kernel, ?_, _, rfl, ?_⟩
  · intro s hs
    rw [List.mem_singleton.1 hs]
    exact ⟨['0', '1'], rfl, by simp [Text.charToDigit]⟩
  · decide +kernel

end Zponder.DeadLetters

import Zponder.LiveRuns
import Zponder.Orphans
import Zponder.Promise

/-!
# The promise over a run

What an indexer does besides scanning: it goes back when the hashes differ or a log is taken back,
tries letters again, replays a range, stops, dies, and starts where the stored cursor says. Each of
these keeps what is said of every moment (`Zponder.Promise.Upheld`), and the runs are made of them,
in any order, with other threads and other chains between any two.

A rollback either does all it is to do or nothing, and its failure is only logged. So the chain is
known again only when a rollback to the fork or below has gone through: a failed one leaves rows of
the old chain behind, whatever is scanned after it.
-/

namespace Zponder

namespace Promise

open Imperative Prog Conn DeadLetters Custody

/-! ### What a rollback leaves -/

section Back

variable {env : Env} {cfg : Config} {C : Set Log} {b d d' f n : Nat} {t u : Tables} {w w' : World}

/-- The rows of some blocks are gone, and the stored cursor, if there is one, is the first of
them. -/
structure Undone (cfg : Config) (f b : Nat) (t u : Tables) : Prop where
  cut : Cut cfg f b t u
  cursor : ∀ st, u.syncState cfg.stateKey = some st → st.lastSyncedBlock = f

theorem syncState_erased (env : Env) (cfg : Config) (now : Nat) (key name : Text)
    (events : List Text) (f : Nat) (chain : Text) (t : Tables) :
    (erased env cfg now key name events f chain t).syncState =
      (t.rewindSyncState key f).syncState := by
  have hrewind : ∀ u : Tables, u.syncState = t.syncState →
      (u.rewindSyncState key f).syncState = (t.rewindSyncState key f).syncState := by
    intro u hu
    unfold Tables.rewindSyncState Tables.putSyncState
    rw [hu]
    split
    · rfl
    · exact hu
  have hrewound : ∀ u : Tables, u.syncState = t.syncState →
      (rewound env cfg now key f u).syncState = (t.rewindSyncState key f).syncState := by
    intro u hu
    unfold rewound cascaded
    split
    · rw [sweep_eq]
      exact hrewind u hu
    · rw [sweep_eq]
      exact hrewind _ hu
  have htrimmed : ∀ u : Tables, (trimmedCache cfg chain f u).syncState = u.syncState := by
    intro u
    obtain ⟨r, hr⟩ := exists_trimmedCache cfg chain f u
    rw [hr]
  have hclear : (clearEvents name events f u64Max t).syncState = t.syncState := by
    rw [clearEvents_eq]
  unfold erased
  change (if cfg.logCache = true ∧ chain ≠ [] then trimmedCache cfg chain f (rewound env cfg now
    key f _) else rewound env cfg now key f _).syncState = _
  split
  · rw [htrimmed]
    exact hrewound _ hclear
  · exact hrewound _ hclear

theorem undone_erased (env : Env) (cfg : Config) (now f : Nat) (t : Tables) : Undone cfg f u64Max t
    (erased env cfg now cfg.stateKey cfg.contract.name cfg.contract.events f cfg.chain t) := by
  refine ⟨cut_erased env cfg now f t, fun st hst => ?_⟩
  rw [syncState_erased, Tables.rewindSyncState] at hst
  split at hst
  · change Function.update _ _ _ _ = _ at hst
    rw [Function.update_self] at hst
    obtain rfl := Option.some.inj hst
    rfl
  · next hnone =>
    rw [hst] at hnone
    exact absurd rfl hnone

theorem undone_reset (hb : cfg.backend ≠ .rocksdb) (now f b : Nat) (t : Tables) :
    Undone cfg f b t
      (reset env cfg now cfg.stateKey cfg.contract.name cfg.contract.events f b t) := by
  refine ⟨cut_reset hb now f b t, fun st hst => ?_⟩
  rw [reset_eq] at hst
  change Function.update _ _ _ _ = _ at hst
  rw [Function.update_self] at hst
  obtain rfl := Option.some.inj hst
  rfl

theorem inRange_of_lt (h : n < f) : inRange f b n = false := by
  simp [inRange, Nat.not_le.2 h]

/-- **The promises after a deletion**, of a chain of which no more is known below the block it
begins with. -/
theorem Surviving.undone (hC : Canonical C) (hlisted : Listed cfg) (h : Surviving cfg C d t)
    (hpromised : Promised cfg C d f t) (hu : Undone cfg f b t u) (hclean : Clean cfg C d' u)
    (hd : ∀ n, n < f → n < d' → n < d) : Surviving cfg C d' u ∧ Promised cfg C d' f u := by
  have hkept : Promised cfg C d' f u := by
    intro lg hlg hlt hlt'
    have hknown : lg.blockNumber < d := hd _ hlt hlt'
    have hmix := h.clean.unmixed hC hlisted ⟨lg, hlg.chain, rfl⟩ hknown
    refine (hpromised lg hlg hlt hknown).spared hmix (fun e he hblock => ?_) fun r hr hblock => ?_
    · rw [hu.cut.mem_events, hblock, inRange_of_lt hlt]
      exact ⟨he, fun h => Bool.false_ne_true h.2⟩
    · rw [hu.cut.mem, hblock, inRange_of_lt hlt]
      exact ⟨hr, fun h => Bool.false_ne_true h.2⟩
  refine ⟨⟨?_, hclean, fun st hst => ?_⟩, hkept⟩
  · refine h.numbered.of_sublist (List.Sublist.map _ ?_) hu.cut.next.ge
    rw [hu.cut.letters]
    exact List.filter_sublist
  · rw [hu.cursor st hst]
    exact hkept

theorem Clean.undone (h : Clean cfg C d t) (hu : Undone cfg f b t u) : Clean cfg C d u :=
  h.subset (fun _ he => (hu.cut.mem_events.1 he).1) fun _ hr => (hu.cut.mem.1 hr).1

/-- A block that none has. -/
def whole : Nat := u64Max + 1

instance (env : Env) (cfg : Config) (f : Nat) (w : World) : Decidable (Deletes env cfg f w) :=
  decidable_of_iff ((rollbackFromBlock env cfg cfg.stateKey cfg.contract.name cfg.contract.events f
      cfg.chain (w.rollingBack f)).1 = .ok ())
    ⟨fun h => ⟨_, Prod.ext h rfl⟩, fun ⟨_, h⟩ => congrArg Prod.fst h⟩

/-- How far the chain is known after a rollback: all of it, if the rollback goes through and is to a
block below which it was known, and no further than before otherwise. -/
def regained (env : Env) (cfg : Config) (f : Nat) (w : World) (d : Nat) : Nat :=
  if f ≤ d ∧ Deletes env cfg f w then whole else d

/-- What a rollback that is all or nothing leaves of `w`. -/
def BackTo (env : Env) (cfg : Config) (f : Nat) (w : World) (u : Tables) : Prop :=
  ¬Deletes env cfg f w ∧ u = w.db ∨ Undone cfg f u64Max w.db u

/-- **The promises after a rollback.** -/
theorem Surviving.back (hC : Canonical C) (hlisted : Listed cfg) (h : Surviving cfg C d w.db)
    (hpromised : Promised cfg C d f w.db) (hback : BackTo env cfg f w u) :
    Surviving cfg C (regained env cfg f w d) u ∧
      Promised cfg C (regained env cfg f w d) f u := by
  unfold regained
  split
  · next hgo =>
    have hu : Undone cfg f u64Max w.db u := hback.resolve_left fun hno => hno.1 hgo.2
    exact h.undone hC hlisted hpromised hu (h.clean.cut hC hgo.1 hu.cut _)
      fun _ hlt _ => lt_of_lt_of_le hlt hgo.1
  · rcases hback with ⟨-, rfl⟩ | hu
    · exact ⟨h, hpromised⟩
    · exact h.undone hC hlisted hpromised hu (h.clean.undone hu) fun _ _ hlt => hlt

/-- Without clones, and where nobody listens, a rollback is its deletion. -/
theorem rollbackTo_alone (hmode : cfg.templateMode = false) (hhook : cfg.reorgHook = none) :
    rollbackTo env cfg f = (do
      Prog.modify fun w => { w with rollbacks := w.rollbacks ++ [f] }
      ignoring (rollbackFromBlock env cfg cfg.stateKey cfg.contract.name cfg.contract.events f
        cfg.chain)
      setMem fun m => { m with blockTsCache := [] }) := by
  have hoff : ¬cfg.templateMode = true := by simp [hmode]
  rw [rollbackTo_eq, afterDeletion, when_of_not hoff, onReorgCallback, hhook]
  rfl

theorem not_deletes {o : Outcome Err Unit} {w₁ : World} (ho : o ≠ .ok ())
    (h : rollbackFromBlock env cfg cfg.stateKey cfg.contract.name cfg.contract.events f cfg.chain
      (w.rollingBack f) = (o, w₁)) : ¬Deletes env cfg f w := by
  rintro ⟨w₂, hok⟩
  exact ho (congrArg Prod.fst (h.symm.trans hok))

/-- **A rollback** deletes all it is to delete or nothing, and leaves the cursor to others. -/
theorem meets_rollbackTo_alone (hb : cfg.backend ≠ .rocksdb) (hmode : cfg.templateMode = false)
    (hhook : cfg.reorgHook = none) (hw : w.Quiet) :
    Meets (rollbackTo env cfg f) w
      ⟨fun _ w' => w'.Quiet ∧ w'.mem.currentBlock = w.mem.currentBlock ∧ BackTo env cfg f w w'.db,
        fun _ _ => False, fun w' => ¬Deletes env cfg f w ∧ w'.db = w.db⟩ := by
  rw [rollbackTo_alone hmode hhook, meets_modify_bind, meets_bind, meets_ignoring]
  refine ((meets_self _ _).and (meets_rollbackFromBlock env hb (w := w.rollingBack f) hw
    cfg.stateKey cfg.contract.name cfg.contract.events f cfg.chain)).mono ?_ ?_ ?_
  · rintro _ w₁ ⟨-, rfl⟩
    exact ⟨rfl, rfl, .inr (undone_erased env cfg _ _ _)⟩
  · rintro e w₁ ⟨heq, rfl⟩
    exact ⟨hw, rfl, .inl ⟨not_deletes (fun h => by cases h) heq, rfl⟩⟩
  · rintro w₁ ⟨heq, hconn⟩
    refine ⟨not_deletes (fun h => by cases h) heq, ?_⟩
    change w₁.conn.committed = _
    rw [hconn]
    rfl

/-! ### Who rolls back -/

/-- Looking for the fork changes nothing. -/
def stillScope : Scope where
  tables := .keeping id
  mem := .any
  handed := .any
  requests := .any

theorem still_lookUpHashes : Within stillScope.frame (lookUpHashes env cfg n) := by
  refine within_bind (within_catching within_ask fun _ => within_pure _) fun rpcHash => ?_
  split
  · exact within_pure _
  · exact within_bind (within_catching (within_guarded within_execFind) fun _ => within_pure _)
      fun _ => within_pure _

/-- What dies or is thrown before the deletion has gone through. -/
def deathPost (w : World) (α : Type) : Post World Err α :=
  ⟨fun _ _ => True, fun _ _ => False, fun w' => w'.db = w.db⟩

theorem death_rollbackTo (hb : cfg.backend ≠ .rocksdb) (hmode : cfg.templateMode = false)
    (hhook : cfg.reorgHook = none) (hw : w.Quiet) :
    Meets (do rollbackTo env cfg f; pure f) w (deathPost w Nat) := by
  rw [meets_bind]
  exact (meets_rollbackTo_alone hb hmode hhook hw).mono (fun _ _ _ => trivial) (fun _ _ h => h)
    fun _ h => h.2

theorem death_lookUpHashes (hw : w.Quiet) :
    Meets (lookUpHashes env cfg n) w
      ⟨fun _ w' => w' = w.ticked, fun _ _ => False, fun w' => w'.db = w.db⟩ :=
  ((meets_lookUpHashes hw n).and (still_lookUpHashes w)).mono (fun _ _ h => h.1.2)
    (fun _ _ h => h.1) fun _ h => Linked.quiet h.2.1.tables hw

theorem death_scanForFork (hb : cfg.backend ≠ .rocksdb) (hmode : cfg.templateMode = false)
    (hhook : cfg.reorgHook = none) (minBlock : Nat) : ∀ (n : Nat) {w : World}, w.Quiet →
    Meets (scanForFork env cfg minBlock n) w (deathPost w Nat) := by
  intro n
  induction n with
  | zero => exact fun hw => death_rollbackTo hb hmode hhook hw
  | succ n ih =>
    intro w hw
    rw [scanForFork]
    refine meets_ite (fun _ => ?_) fun _ => death_rollbackTo hb hmode hhook hw
    rw [meets_bind]
    refine (death_lookUpHashes hw).mono ?_ (fun _ _ h => h) fun _ h => h
    rintro hashes _ rfl
    rcases hashes with _ | ⟨rpcHash, localHash⟩
    · exact ih (w := w.ticked) hw
    · exact meets_ite (fun _ => death_rollbackTo (w := w.ticked) hb hmode hhook hw)
        fun _ => ih (w := w.ticked) hw

theorem death_detectAndHandleReorg (hb : cfg.backend ≠ .rocksdb) (hmode : cfg.templateMode = false)
    (hhook : cfg.reorgHook = none) (hw : w.Quiet) :
    Meets (detectAndHandleReorg env cfg n) w (deathPost w Nat) := by
  unfold detectAndHandleReorg
  refine meets_ite (fun _ => trivial) fun _ => ?_
  rw [meets_bind]
  refine (death_lookUpHashes hw).mono ?_ (fun _ _ h => h) fun _ h => h
  rintro hashes _ rfl
  rcases hashes with _ | ⟨rpcHash, localHash⟩
  · trivial
  · exact meets_ite (fun _ => trivial)
      fun _ => death_scanForFork (w := w.ticked) hb hmode hhook _ _ hw

/-- The check, or somebody who knows the block, dies before the deletion has gone through, or comes
to its end. -/
theorem death_run (hb : cfg.backend ≠ .rocksdb) (hmode : cfg.templateMode = false)
    (hhook : cfg.reorgHook = none) (hw : w.Quiet) (h : Handler) :
    Meets (h.run env cfg) w (deathPost w Unit) := by
  cases h with
  | check =>
    change Meets (do let _ ← checkReorg env cfg; pure ()) w _
    rw [meets_bind, checkReorg, getMem, meets_read_bind]
    refine meets_ite (fun _ => ?_) fun _ => trivial
    rw [meets_bind]
    refine (death_detectAndHandleReorg hb hmode hhook hw).mono (fun fork w₁ _ => ?_)
      (fun _ _ h => h) fun _ h => h
    exact meets_ite (fun _ => trivial) fun _ => trivial
  | apply f =>
    change Meets (applyReorg env cfg f) w _
    rw [applyReorg, meets_bind]
    exact (meets_rollbackTo_alone hb hmode hhook hw).mono (fun _ _ _ => trivial) (fun _ _ h => h)
      fun _ h => h.2

/-- Where there is nothing to handle, nothing is. -/
theorem run_of_not_applies {h : Handler} (hw : w.Quiet) (happ : ¬h.Applies env cfg w)
    (hrun : h.run env cfg w = (.ok (), w')) :
    w'.conn = w.conn ∧ w'.mem.currentBlock = w.mem.currentBlock := by
  cases h with
  | apply f => exact absurd trivial happ
  | check =>
    obtain ⟨back, w₂, hcheck, hpure⟩ := bind_eq_ok.1 hrun
    obtain rfl : w₂ = w' := (Prod.mk.inj hpure).2
    rw [checkReorg, getMem, read_bind] at hcheck
    by_cases hgt : w.mem.currentBlock > cfg.contract.fromBlock
    · rw [if_pos hgt] at hcheck
      obtain ⟨f, w₁, hdetect, hset⟩ := bind_eq_ok.1 hcheck
      rcases (meets_detect_fork hw _).ok_of_eq hdetect with ⟨-, rfl, hconn, hmem, -⟩ | ⟨hyes, -⟩
      · rw [if_neg (lt_irrefl _)] at hset
        obtain rfl : w₁ = w₂ := (Prod.mk.inj hset).2
        exact ⟨hconn, congrArg Mem.currentBlock hmem⟩
      · exact absurd ⟨hgt, hyes⟩ happ
    · rw [if_neg hgt] at hcheck
      obtain rfl : w = w₂ := (Prod.mk.inj hcheck).2
      exact ⟨rfl, rfl⟩

/-- **What whoever rolls back leaves.** -/
theorem meets_handle (hb : cfg.backend ≠ .rocksdb) (hmode : cfg.templateMode = false)
    (hhook : cfg.reorgHook = none) (hw : w.Quiet) (h : Handler) :
    Meets (h.run env cfg) w
      ⟨fun _ w' => w'.Quiet ∧
          (¬h.Applies env cfg w ∧ w'.db = w.db ∧ w'.mem.currentBlock = w.mem.currentBlock ∨
            h.Applies env cfg w ∧ w'.mem.currentBlock = h.target env cfg w ∧
              BackTo env cfg (h.fork env cfg w).1 (w.at_ (h.fork env cfg w).2) w'.db),
        fun _ _ => False, fun w' => w'.db = w.db⟩ := by
  refine ((meets_self _ _).and (death_run hb hmode hhook hw h)).mono ?_ (fun _ _ h => h.2)
    fun _ h => h.2
  rintro _ w' ⟨hrun, -⟩
  by_cases happ : h.Applies env cfg w
  · obtain ⟨w₁, hroll, hconn, -, hmem⟩ := rollbackTo_of_handler hw happ hrun
    obtain ⟨hquiet, -, hback⟩ :=
      (meets_rollbackTo_alone (w := w.at_ (h.fork env cfg w).2) hb hmode hhook hw).ok_of_eq hroll
    refine ⟨?_, .inr ⟨happ, congrArg Mem.currentBlock hmem, ?_⟩⟩
    · rw [World.Quiet, hconn]
      exact hquiet
    · rw [World.db, hconn]
      exact hback
  · obtain ⟨hconn, hcursor⟩ := run_of_not_applies hw happ hrun
    refine ⟨?_, .inl ⟨happ, ?_, hcursor⟩⟩
    · rw [World.Quiet, hconn]
      exact hw
    · rw [World.db, hconn]

end Back

/-! ### The steps of an indexer -/

/-- What a process leaves. One that dies is not there any more. -/
def ran {ε α : Type} (p : Prog World ε α) (w : World) : World :=
  match p w with
  | (.crash, w') => w'.rebooted
  | (_, w') => w'

/-- What a start leaves. One that fails is none. -/
def started (env : Env) (cfg : Config) (w : World) : World :=
  match boot env cfg w.rebooted with
  | (.ok _, w') => w'
  | (_, w') => w'.rebooted

section Steps

variable {env : Env} {cfg : Config} {C D : Set Log} {b d f n : Nat} {w w' : World}

theorem ran_of_meets {ε α : Type} {p : Prog World ε α} {P : World → Prop}
    (h : Meets p w ⟨fun _ w' => P w', fun _ w' => P w', fun w' => P w'.rebooted⟩) :
    P (ran p w) := by
  unfold Meets at h
  unfold ran
  rcases heq : p w with ⟨_ | _ | _, w'⟩ <;> rw [heq] at h <;> exact h

/-- A process that is not there has no cursor. -/
theorem Surviving.rebooted (h : Surviving cfg C d w.db) : Upheld cfg C d w.rebooted :=
  ⟨rfl, h, fun _ _ hlt => absurd hlt (Nat.not_lt_zero _)⟩

theorem upheld_ran {ε α : Type} {p : Prog World ε α}
    (h : Meets p w (upheldPost cfg C d ε α)) : Upheld cfg C d (ran p w) :=
  ran_of_meets (h.mono (fun _ _ h => h) (fun _ _ h => h) fun _ h => Surviving.rebooted h)

/-- **A start** goes on from the stored cursor, or begins. -/
theorem upheld_started (hmode : cfg.templateMode = false) (hw : Surviving cfg C d w.db) :
    Upheld cfg C d (started env cfg w) := by
  have hrun : Meets (boot env cfg) w.rebooted _ := Live.meets_boot hmode w
  unfold Meets at hrun
  unfold started
  generalize boot env cfg w.rebooted = r at hrun ⊢
  rcases r with ⟨_ | _ | _, w'⟩
  · obtain ⟨hconn, -, -, hcursor⟩ := hrun
    have hdb : w'.db = w.db := by
      rw [World.db, hconn]
      rfl
    refine ⟨?_, hdb ▸ hw, ?_⟩
    · rw [World.Quiet, hconn]
      rfl
    · rw [hdb]
      rcases hcursor with hfirst | ⟨st, hst, hsaved⟩
      · rw [hfirst]
        exact fun lg hlg hlt => absurd hlg.start (Nat.not_le.2 hlt)
      · rw [hsaved]
        exact hw.stored st hst
  · exact Surviving.rebooted (hrun.1 ▸ hw)
  · exact Surviving.rebooted (hrun.1 ▸ hw)

/-- **A round of letters.** -/
theorem upheld_retry (hb : cfg.backend ≠ .rocksdb) (hsober : Sober env cfg)
    (hw : Upheld cfg C d w) : Upheld cfg C d (ran (retryDeadLetters env cfg) w) := by
  have hsound : DeadLetters.Sound w := ⟨hw.quiet, hw.db.numbered⟩
  have hsound' := (sound_aged_step (a := .retry env) hb hsound rfl).1
  have hkept : ∀ lg, Accounted cfg lg w.db →
      Accounted cfg lg (left (retryDeadLetters env cfg) w).db :=
    fun lg => accounted_retry hb hsober hsound
  have hclean : Clean cfg C d (left (retryDeadLetters env cfg) w).db := by
    refine hw.db.clean.retried (fun x hx => (mem_of_attempt hb hw.quiet hx).1)
      (entered_retryDeadLetters hb hw.quiet) fun r hr => ?_
    obtain ⟨hr, hown⟩ := mem_letters.1 hr
    rcases mem_left_retry hb hsound hr with hold | ⟨x, hx, rfl⟩
    · exact ⟨r, mem_letters.2 ⟨hold, hown⟩, rfl⟩
    · exact ⟨x.1, (mem_of_attempt hb hw.quiet hx).1, rfl⟩
  have hpaused : Within pausedScope.frame (retryDeadLetters env cfg) :=
    within_retryDeadLetters pausedScope_syncs.toPulls.toDelivers
  have hrun := hpaused w
  have hnumbered := hsound'.numbered
  have hquiet := hsound'.quiet
  unfold Meets at hrun
  change World.Quiet (left (retryDeadLetters env cfg) w) at hquiet
  change Numbered (left (retryDeadLetters env cfg) w).db at hnumbered
  unfold left at hkept hclean hnumbered hquiet
  unfold ran
  have hdb : ∀ w' : World, w'.db.syncState = w.db.syncState →
      (∀ lg, Accounted cfg lg w.db → Accounted cfg lg w'.db) → Clean cfg C d w'.db →
      Numbered w'.db → Surviving cfg C d w'.db := by
    intro w' hsync hkept hclean hnumbered
    refine ⟨hnumbered, hclean, fun st hst lg hlg hlt hd => ?_⟩
    rw [hsync] at hst
    exact hkept lg (hw.db.stored st hst lg hlg hlt hd)
  generalize retryDeadLetters env cfg w = r at hrun hkept hclean hnumbered hquiet ⊢
  rcases r with ⟨_ | _ | _, w'⟩
  · obtain ⟨hrel, -⟩ := hrun
    refine ⟨hquiet, hdb w' (Linked.quiet hrel.tables hw.quiet) hkept hclean hnumbered, ?_⟩
    rw [show w'.mem.currentBlock = w.mem.currentBlock from hrel.mem]
    exact fun lg hlg hlt hd => hkept lg (hw.memory lg hlg hlt hd)
  · obtain ⟨hrel, -⟩ := hrun
    refine ⟨hquiet, hdb w' (Linked.quiet hrel.tables hw.quiet) hkept hclean hnumbered, ?_⟩
    rw [show w'.mem.currentBlock = w.mem.currentBlock from hrel.mem]
    exact fun lg hlg hlt hd => hkept lg (hw.memory lg hlg hlt hd)
  · obtain ⟨hrel, -⟩ := hrun
    exact Surviving.rebooted
      (hdb w' (Linked.quiet hrel.tables hw.quiet) hkept hclean hnumbered)

/-- The cursor as it is when the run loop is left. -/
theorem upheld_leave (hw : Upheld cfg C d w) : Upheld cfg C d (ran (leaveRunLoop env cfg) w) := by
  refine upheld_ran ?_
  rw [leaveRunLoop, getMem, meets_read_bind]
  exact meets_noted (within_bind (within_ignoring note_upsertSyncState) fun _ => within_tick) hw
    hw.memory

/-- What is asked of whoever rolls back: the check is not to take one block for another, and
somebody who knows the block is not to name one that has not been reached. -/
def Moderate (env : Env) (cfg : Config) (w : World) : Handler → Prop
  | .check => ¬ReplacesOneBlock env cfg w
  | .apply f => f ≤ w.mem.currentBlock

theorem Moderate.bounds {h : Handler} (hmod : Moderate env cfg w h) (happ : h.Applies env cfg w) :
    h.target env cfg w ≤ (h.fork env cfg w).1 ∧ (h.fork env cfg w).1 ≤ w.mem.currentBlock := by
  cases h with
  | apply f => exact ⟨le_rfl, hmod⟩
  | check =>
    obtain ⟨hgt, hdepth, hdiff⟩ := happ
    have hle : (forkOf env cfg w (w.mem.currentBlock - 1)).1 ≤ w.mem.currentBlock - 1 :=
      forkAt_le (scanFloor_le _)
    have hlt : (forkOf env cfg w (w.mem.currentBlock - 1)).1 < w.mem.currentBlock - 1 := by
      refine lt_of_le_of_ne hle fun heq => hmod ⟨hgt, hdepth, hdiff, ?_⟩
      have hpos : 0 < w.mem.currentBlock := Nat.zero_lt_of_lt hgt
      obtain ⟨m, hm⟩ : ∃ m, w.mem.currentBlock = m + 1 := ⟨_, (Nat.succ_pred_eq_of_pos hpos).symm⟩
      rw [hm] at heq ⊢
      cases m with
      | zero => exact .inl rfl
      | succ m =>
        refine .inr ?_
        by_contra hno
        change ¬Agrees env cfg (w.now + 1) w.db m at hno
        have hfloor : scanFloor cfg (m + 1) < m + 1 := by
          simp only [scanFloor]
          split <;> omega
        have hbelow : (forkAt env cfg (scanFloor cfg (m + 1)) w.db m (w.now + 1 + 1)).1 ≤ m :=
          forkAt_le (Nat.lt_succ_iff.1 hfloor)
        change (forkAt env cfg (scanFloor cfg (m + 1)) w.db (m + 1) (w.now + 1)).1 = m + 1 at heq
        rw [forkAt, if_pos hfloor, if_neg hno] at heq
        omega
    refine ⟨?_, hle.trans (Nat.sub_le _ _)⟩
    change (if _ then _ else _) ≤ _
    rw [if_pos hlt]
    exact le_rfl

instance (env : Env) (cfg : Config) (w : World) (h : Handler) : Decidable (h.Applies env cfg w) :=
  match h with
  | .check => inferInstanceAs (Decidable (_ ∧ _))
  | .apply _ => .isTrue trivial

/-- How far the chain is known after somebody rolled back, or wanted to. -/
def settledTo (env : Env) (cfg : Config) (h : Handler) (w : World) (d : Nat) : Nat :=
  if (h.run env cfg w).1 = .ok () ∧ h.Applies env cfg w then
    regained env cfg (h.fork env cfg w).1 (w.at_ (h.fork env cfg w).2) d
  else d

/-- **Whoever rolls back.** -/
theorem upheld_handle (hb : cfg.backend ≠ .rocksdb) (hmode : cfg.templateMode = false)
    (hhook : cfg.reorgHook = none) (hC : Canonical C) (hlisted : Listed cfg)
    (hw : Upheld cfg C d w) {h : Handler} (hmod : Moderate env cfg w h) :
    Upheld cfg C (settledTo env cfg h w d) (ran (h.run env cfg) w) := by
  have hrun : Meets (h.run env cfg) w _ := meets_handle hb hmode hhook hw.quiet h
  unfold Meets at hrun
  unfold ran settledTo
  generalize h.run env cfg w = r at hrun ⊢
  rcases r with ⟨_ | _ | _, w'⟩
  · obtain ⟨hquiet, ⟨hnot, hdb, hcursor⟩ | ⟨happ, hcursor, hback⟩⟩ := hrun
    · rw [if_neg fun hboth => hnot hboth.2]
      exact ⟨hquiet, hdb ▸ hw.db, hdb ▸ hcursor ▸ hw.memory⟩
    · rw [if_pos ⟨rfl, happ⟩]
      obtain ⟨htarget, hfork⟩ := hmod.bounds happ
      obtain ⟨hdb, hkept⟩ := hw.db.back (w := w.at_ (h.fork env cfg w).2) hC hlisted
        (hw.memory.mono hfork) hback
      exact ⟨hquiet, hdb, hcursor ▸ hkept.mono htarget⟩
  · exact hrun.elim
  · rw [if_neg fun hboth => by cases hboth.1]
    exact Surviving.rebooted (hrun ▸ hw.db)

/-- **A log that is taken back.** -/
theorem upheld_removed (hb : cfg.backend ≠ .rocksdb) (hmode : cfg.templateMode = false)
    (hhook : cfg.reorgHook = none) (hC : Canonical C) (hlisted : Listed cfg)
    (hw : Upheld cfg C d w) (hf : f ≤ w.mem.currentBlock) :
    Upheld cfg C (regained env cfg f w d) (ran (handleRemovedLog env cfg f) w) := by
  refine upheld_ran ?_
  rw [handleRemovedLog, meets_bind]
  refine (meets_rollbackTo_alone hb hmode hhook hw.quiet).mono ?_ (fun _ _ h => h.elim) ?_
  · rintro _ w₁ ⟨hquiet, -, hback⟩
    obtain ⟨hdb, hkept⟩ := hw.db.back hC hlisted (hw.memory.mono hf) hback
    change Meets (do setMem _; _) w₁ _
    rw [setMem, meets_modify_bind]
    refine meets_noted (n := f) (w := { w₁ with mem := { w₁.mem with currentBlock := f } }) ?_
      ⟨hquiet, hdb, hkept⟩ hkept
    exact within_bind (within_ignoring note_upsertSyncState) fun _ => within_tick
  · rintro w₁ ⟨hnot, hsame⟩
    have hstay : regained env cfg f w d = d := if_neg fun h => hnot h.2
    change Surviving cfg C _ w₁.db
    rw [hstay, hsame]
    exact hw.db

/-- A run loop that is told to stop. -/
theorem meets_stopAndJoin_upheld (hw : Upheld cfg C d w) :
    Meets (stopAndJoin env cfg) w
      ⟨fun _ w' => Upheld cfg C d w' ∧ w'.mem.currentBlock = w.mem.currentBlock,
        fun _ w' => Upheld cfg C d w', fun w' => Surviving cfg C d w'.db⟩ := by
  have hnoted : Within (noteScope cfg w.mem.currentBlock).frame (do
      ignoring (upsertSyncState env cfg cfg.stateKey w.mem.currentBlock "stopped".toList)
      setMem fun m => { m with thread := false }) :=
    within_bind (within_ignoring note_upsertSyncState) fun _ => within_setMem fun _ => .inl rfl
  rw [stopAndJoin, setMem, meets_modify_bind, getMem, meets_read_bind, meets_bind]
  refine meets_when (fun _ => ?_) fun _ => ⟨⟨hw.quiet, hw.db, hw.memory⟩, rfl⟩
  rw [getMem, meets_read_bind]
  have hw₁ : Upheld cfg C d { w with mem := { w.mem with state := .stopped } } :=
    ⟨hw.quiet, hw.db, hw.memory⟩
  refine (hnoted _).mono ?_ (fun _ w₂ h => hw₁.noted hw.memory h) ?_
  · intro _ w₂ h
    have hw₂ : Upheld cfg C d w₂ := hw₁.noted hw.memory h
    exact ⟨⟨hw₂.quiet, hw₂.db, hw₂.memory⟩, h.1.mem.elim id id⟩
  · rintro w₂ ⟨hrel, -⟩
    exact hw.db.noted hw.memory (Linked.quiet hrel.tables hw₁.quiet)

/-- **A replay** of a range that begins where the indexer has been. -/
theorem upheld_replay {spawns : Bool} (hb : cfg.backend ≠ .rocksdb) (hC : Canonical C)
    (hlisted : Listed cfg) (hw : Upheld cfg C d w) (hf : f ≤ w.mem.currentBlock) :
    Upheld cfg C d (ran (requestReplay env cfg spawns f b) w) := by
  refine upheld_ran ?_
  simp only [requestReplay, prepareReplay, meets_bind, meets_catching, setMem, meets_modify]
  refine (meets_stopAndJoin_upheld hw).mono ?_ (fun _ _ h => h) fun _ h => h
  rintro _ w₁ ⟨hw₁, hcursor⟩
  refine ((meets_resetForReplay_cut hb hw₁.quiet).and
    (meets_resetForReplay hw₁.quiet cfg.stateKey cfg.contract.name cfg.contract.events f
      (deleteTo f b))).mono ?_ ?_ ?_
  · rintro _ w₂ ⟨hconn, -⟩
    have hundone : Undone cfg f (deleteTo f b) w₁.db w₂.db := by
      rw [show w₂.db = _ from congrArg Conn.committed hconn]
      exact undone_reset hb _ _ _ _
    have hquiet : w₂.conn.txn = none := by
      rw [hconn]
      rfl
    obtain ⟨hdb, hkept⟩ := hw₁.db.undone hC hlisted (hw₁.memory.mono (hcursor ▸ hf)) hundone
      (hw₁.db.clean.undone hundone) fun _ _ h => h
    cases spawns with
    | true => exact ⟨hquiet, hdb, hkept⟩
    | false => exact ⟨hquiet, hdb, hkept⟩
  · rintro e w₂ ⟨hconn, -, hmem⟩
    have hdb : w₂.db = w₁.db := (congrArg Conn.committed hconn : _ = (quiet w₁.db).committed)
    refine ⟨?_, hdb ▸ hw₁.db, ?_⟩
    · rw [World.Quiet, hconn]
      rfl
    · rw [hmem, hdb]
      exact hw₁.memory
  · rintro w₂ ⟨hconn, -⟩
    have hdb : w₂.db = w₁.db := (congrArg Conn.committed hconn : _ = (quiet w₁.db).committed)
    change Surviving cfg C d w₂.db
    rw [hdb]
    exact hw₁.db

end Steps

/-! ### Runs -/

/-- What the rest of the program does: other indexers, whatever they are there for, and threads of
this one that are no business of the run loop. The rows of this indexer and its cursors they leave
alone. -/
structure Elsewhere (cfg : Config) where
  world : World → World
  tables : Tables → Tables
  cursor : ∀ w, (world w).mem.currentBlock = w.mem.currentBlock
  numbered : ∀ t, Numbered t → Numbered (tables t)
  letters : ∀ t, letters cfg (tables t) = letters cfg t
  events : ∀ t, ∀ e : EventRow, e.key.table ∈ ownTables cfg →
    (e ∈ (tables t).events ↔ e ∈ t.events)
  stored : ∀ t, (tables t).syncState cfg.stateKey = t.syncState cfg.stateKey

/-- The state after it. -/
def Elsewhere.apply {cfg : Config} (o : Elsewhere cfg) (w : World) : World :=
  { o.world w with conn := quiet (o.tables w.db) }

/-- What happens next: the process is started, the run loop scans, tries letters again, checks the
hashes or is told the fork, a log is taken back, a replay is asked for, the loop is left, the
process dies between two steps, the chain changes, or something else. -/
inductive Act (cfg : Config) where
  | start (env : Env)
  | scan (env : Env) (latest : Nat)
  | retry (env : Env)
  | handle (env : Env) (h : Handler)
  | removed (env : Env) (blockNumber : Nat)
  | replay (env : Env) (spawns : Bool) (fromBlock toBlock : Nat)
  | leave (env : Env)
  | kill
  | forks (fork : Nat) (next : Set Log)
  | elsewhere (o : Elsewhere cfg)

/-- The world, the chain of the moment, and the block below which the indexer has seen it: all of
the chain, unless it has changed and no rollback far enough has gone through since. -/
structure State where
  world : World
  chain : Set Log
  fork : Nat

/-- One step. -/
def step (cfg : Config) (s : State) : Act cfg → Option State
  | .start env => some { s with world := started env cfg s.world }
  | .scan env latest => some { s with world := ran (scanTurn env cfg latest) s.world }
  | .retry env => some { s with world := ran (retryDeadLetters env cfg) s.world }
  | .handle env h => some { s with
      world := ran (h.run env cfg) s.world
      fork := settledTo env cfg h s.world s.fork }
  | .removed env b => some { s with
      world := ran (handleRemovedLog env cfg b) s.world
      fork := regained env cfg b s.world s.fork }
  | .replay env spawns f b =>
    some { s with world := ran (requestReplay env cfg spawns f b) s.world }
  | .leave env => some { s with world := ran (leaveRunLoop env cfg) s.world }
  | .kill => some { s with world := s.world.rebooted }
  | .forks f next => some { s with chain := next, fork := min s.fork f }
  | .elsewhere o => some { s with world := o.apply s.world }

/-- Every sequence of them, from a world and a chain to begin with. -/
def indexing (cfg : Config) (w : World) (C : Set Log) : Machine State (Act cfg) :=
  ⟨⟨w, C, whole⟩, step cfg⟩

/-- What is asked of a step. During a scan the node answers with the chain of the moment, a log that
fails is put aside, and what the cache claims is true; nobody goes back to a block that has not
been reached; and the chain changes from the fork on only. -/
def Lawful (cfg : Config) (s : State) : Act cfg → Prop
  | .scan env latest => Answered env cfg s.chain s.world ∧ latest ≤ u64Max
  | .retry env => Sober env cfg
  | .handle env h => Moderate env cfg s.world h
  | .removed _ b => b ≤ s.world.mem.currentBlock
  | .replay _ _ f _ => f ≤ s.world.mem.currentBlock
  | .forks f next => CacheHistory.SameBelow f s.chain next ∧ Written next
  | _ => True

/-- An indexer that has stored nothing. -/
structure Fresh (cfg : Config) (w : World) : Prop where
  quiet : w.Quiet
  numbered : Numbered w.db
  letters : letters cfg w.db = []
  events : ∀ e ∈ w.db.events, e.key.table ∉ ownTables cfg
  stored : w.db.syncState cfg.stateKey = none
  cursor : w.mem.currentBlock ≤ cfg.contract.fromBlock

/-- What is said of every state. -/
structure Holds (cfg : Config) (s : State) : Prop where
  written : Written s.chain
  upheld : Upheld cfg s.chain s.fork s.world

section Runs

variable {cfg : Config} {C : Set Log} {s s' : State} {w : World}

theorem Fresh.upheld (h : Fresh cfg w) (C : Set Log) (d : Nat) : Upheld cfg C d w where
  quiet := h.quiet
  db :=
    { numbered := h.numbered
      clean :=
        { eventsPlaced := fun e he hown => absurd hown (h.events e he)
          lettersPlaced := fun r hr => by
            rw [h.letters] at hr
            exact absurd hr List.not_mem_nil
          reports := fun r hr => by
            rw [h.letters] at hr
            exact absurd hr List.not_mem_nil }
      stored := fun st hst => by
        rw [h.stored] at hst
        cases hst }
  memory _ hlg hlt := absurd (hlg.start.trans_lt hlt) (Nat.not_lt.2 h.cursor)

/-- What others do. -/
theorem upheld_elsewhere {d : Nat} (hlisted : Listed cfg) (o : Elsewhere cfg)
    (hw : Upheld cfg C d w) : Upheld cfg C d (o.apply w) := by
  have hclean : Clean cfg C d (o.tables w.db) :=
    hw.db.clean.traced (fun e he hown => .inl ((o.events _ e hown).1 he)) fun r hr =>
      .inl ⟨r, (o.letters w.db) ▸ hr, rfl⟩
  have hkept : ∀ n, Promised cfg C d n w.db → Promised cfg C d n (o.tables w.db) := by
    intro n hn lg hlg hlt hd
    refine (hn lg hlg hlt hd).imp (Or.imp_right ?_) ?_
    · rintro ⟨ev, hev, hhas⟩
      obtain ⟨e, he, hkey⟩ := List.any_eq_true.1 hhas
      have hown : e.key.table ∈ ownTables cfg := by
        rw [beq_iff_eq.1 hkey]
        exact List.mem_map_of_mem (hlisted lg ev hev)
      exact ⟨ev, hev, List.any_eq_true.2 ⟨e, (o.events _ e hown).2 he, hkey⟩⟩
    · rintro ⟨r, hr, heq⟩
      exact ⟨r, (o.letters w.db).symm ▸ hr, heq⟩
  refine ⟨rfl, ⟨o.numbered _ hw.db.numbered, hclean, fun st hst => ?_⟩, ?_⟩
  · exact hkept _ (hw.db.stored st ((o.stored w.db) ▸ hst))
  · change Promised cfg C d (o.world w).mem.currentBlock (o.tables w.db)
    rw [o.cursor]
    exact hkept _ hw.memory

/-- **The chain changes** from a block on. -/
theorem Upheld.forks {D : Set Log} {d f : Nat} (hw : Upheld cfg C d w)
    (hsame : CacheHistory.SameBelow f C D) : Upheld cfg D (min d f) w := by
  have hkept : ∀ n, Promised cfg C d n w.db → Promised cfg D (min d f) n w.db := by
    intro n hn lg hlg hlt hd
    have hold : lg ∈ C := (hsame lg (lt_of_lt_of_le hd (min_le_right _ _))).2 hlg.chain
    exact hn lg ⟨hold, hlg.start, hlg.wanted⟩ hlt (lt_of_lt_of_le hd (min_le_left _ _))
  exact ⟨hw.quiet, ⟨hw.db.numbered, hw.db.clean.forks hsame,
    fun st hst => hkept _ (hw.db.stored st hst)⟩, hkept _ hw.memory⟩

end Runs

/-! ### A block of two logs, and a fork above it -/

def mintEvent : AbiEvent := ⟨"Mint".toList, List.replicate 32 0⟩

/-- An indexer of the pool that asks for its one event, and has a table for it. -/
def mintConfig : Config :=
  { Live.poolConfig with
    contract := { Live.poolConfig.contract with events := ["Mint".toList] }
    abi := some
      { findEventByName := fun _ => some mintEvent
        findEventByTopic0 := fun _ => some mintEvent
        decodeLog := fun _ _ _ => .ok [] } }

theorem listed_mintConfig : Listed mintConfig := by
  intro lg ev h
  have hname : ev.name = "Mint".toList := by
    unfold classify at h
    split at h
    · cases h
    · cases h
    · next ac topic0 rest hac htopics =>
      obtain rfl := Option.some.inj hac
      split at h
      · cases h
      · split at h
        · cases h
        · split at h
          · cases h
          · change (if _ then _ else _) = _ at h
            split at h
            · obtain rfl := Option.some.inj (Except.ok.inj h)
              rfl
            · cases h
  rw [hname]
  exact List.mem_singleton_self _

theorem written_mints : Written {lg | lg ∈ Live.mints} where
  toCanonical := Live.canonical_mints
  plain lg hlg := by
    have htexts : (Live.mints.all fun lg => [lg.address, lg.data, lg.transactionHash].all fun s =>
        s.all fun c => c.toNat != 0) = true := by decide +kernel
    have hlg' := List.all_eq_true.1 htexts lg hlg
    have hshape : lg.address = Live.poolAddress ∧ lg.topics = Live.firstMint.topics := by
      simp only [Live.mints, Set.mem_ofPred_eq, List.mem_cons, List.not_mem_nil, or_false] at hlg
      rcases hlg with rfl | rfl <;> exact ⟨rfl, rfl⟩
    refine ⟨?_, fun s hs => ?_, fun s hs c hc => ?_⟩
    · rw [hshape.1]
      exact List.cons_ne_nil _ _
    · rw [hshape.2] at hs
      rw [List.mem_singleton.1 hs]
      refine ⟨List.replicate 64 '0', rfl, fun c hc => ?_⟩
      rw [List.eq_of_mem_replicate hc]
      decide
    · exact bne_iff_ne.1 (List.all_eq_true.1 (List.all_eq_true.1 hlg' s hs) c hc)

theorem answered_mintNode (w : World) :
    Answered (Live.mintNode 9) mintConfig {lg | lg ∈ Live.mints} w where
  serves := (Live.source_mintNode (by decide)).serves
  sober := sober_sqlite rfl
  files _ := rfl
  cache := ⟨fun _ => {lg | lg ∈ Live.mints}, rfl, fun h => absurd h (by decide)⟩

/-- The indexer has scanned up to block 9. -/
def scanned : World :=
  ran (scanTurn (Live.mintNode 9) mintConfig 9) (started {} mintConfig freshWorld)

/-- Then the chain has changed from block 8 on, and a log of block 8 has been taken back. -/
def takenBack : State where
  world := ran (handleRemovedLog {} mintConfig 8) scanned
  chain := {lg | lg ∈ Live.mints}
  fork := regained {} mintConfig 8 scanned (min whole 8)

/-- Both events are stored. -/
example : takenBack.world.db.events.map (·.key.logIndex) = [0, 1] := by decide +kernel

end Promise

end Zponder

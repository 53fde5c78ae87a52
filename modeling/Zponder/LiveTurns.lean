import Zponder.LiveOnward
import Zponder.Lib.Machine

/-!
# Around the live subscription

Before an indexer subscribes it scans over HTTP, turn by turn, and the backfills of a template go
on while it is subscribed; when it ends, the stored cursor becomes the one in memory, and when it
is started again, the one in memory becomes the stored one. None of that leaves a log behind
either (`Zponder.Live.Onward`).

The last part is about the subscribing itself, which touches no cursor: whatever is pushed
between the replies, the highest of the blocks is noted
(`Zponder.Live.notes_subscribeAddressChunks`).
-/

namespace Zponder

namespace Live

open Imperative Prog Conn

/-! ### Everything else that moves the cursor -/

section Loop

variable {env : Env} {chains : Text → Set Log} {hashes : Nat → Text} {cfg : Config}
  {E : Nat → Prop} {w w' : World}

/-- A change of the memory that leaves the cursor and the note alone, and watches what was
watched. -/
theorem onward_setMem {f : Mem → Mem} (h : ∀ m, (f m).currentBlock = m.currentBlock ∧
    (f m).droppedLiveHi = m.droppedLiveHi ∧ m.templateSet.live ⊆ (f m).templateSet.live) :
    Within (onward chains hashes cfg E) (setMem f) := by
  intro w hw
  obtain ⟨hcursor, hnote, hlive⟩ := h w.mem
  refine ⟨⟨hw.quiet, hw.sound, ?_, ?_⟩, fun _ => id, fun lg hwatch => ?_, fun lg _ _ ha =>
    .inr (.inl ⟨?_, ha.stored⟩), hnote⟩
  · exact hw.start.trans hcursor.ge
  · exact hcursor.le.trans hw.cursor
  · unfold Watched watchedAddresses receiptLogWanted at hwatch ⊢
    simp only [Bool.and_eq_true, List.any_eq_true] at hwatch ⊢
    obtain ⟨⟨a, ha, heq⟩, htopic⟩ := hwatch
    refine ⟨⟨a, ?_, heq⟩, htopic⟩
    by_cases hmode : cfg.templateMode = true
    · rw [if_pos hmode] at ha ⊢
      exact List.map_subset _ hlive ha
    · rwa [if_neg hmode] at ha ⊢
  · exact hcursor.le.trans ha.memory

theorem stays_backfillFrom (hsource : Source env cfg chains hashes) {address : Text}
    {batch toBlock : Nat} (ht : toBlock ≤ u64Max) : ∀ (fromBlock : Nat) {w : World},
      Ready chains hashes cfg w →
      Meets (backfillFrom env cfg address batch toBlock fromBlock) w
        ⟨fun _ => Stayed chains hashes cfg w, fun _ => Stayed chains hashes cfg w,
          Perished chains hashes cfg (fun _ => False) w⟩
  | fromBlock, w, hw => by
    rw [backfillFrom]
    split
    · exact .refl hw
    · next chunk hchunk =>
      have hlast : chunk.2 ≤ u64Max ∧ fromBlock < toBlock ∧ fromBlock ≤ chunk.2 := by
        unfold nextBackfillChunk backfillLast satAdd at hchunk
        split at hchunk
        · cases hchunk
        · obtain rfl := Option.some.inj hchunk
          simp only
          omega
      rw [meets_bind]
      refine (meets_scan hsource [address] hlast.1 hw).mono ?_ (fun _ _ h => h) fun _ h => h
      rintro _ w₁ ⟨hs, -⟩
      exact (stays_backfillFrom hsource ht (chunk.2 + 1) hs.ready).mono
        (fun _ _ h => hs.trans h) (fun _ _ h => hs.trans h) fun _ h => hs.onward.trans_dead h
termination_by fromBlock => toBlock - fromBlock

theorem onward_processPendingBackfill (hsource : Source env cfg chains hashes)
    (clone : Text × Nat) :
    Within (onward chains hashes cfg E) (processPendingBackfill env cfg clone) := by
  refine within_onward fun w hw => ?_
  rw [processPendingBackfill, getMem, meets_read_bind, meets_bind, meets_attempt]
  have hscan : Meets (Prog.when ((computeBackfillRange clone.2 w.mem.currentBlock).1 <
      (computeBackfillRange clone.2 w.mem.currentBlock).2)
      (backfillRange env cfg clone.1 (computeBackfillRange clone.2 w.mem.currentBlock).1
        (computeBackfillRange clone.2 w.mem.currentBlock).2)) w
      ⟨fun _ => Stayed chains hashes cfg w, fun _ => Stayed chains hashes cfg w,
        Perished chains hashes cfg (fun _ => False) w⟩ := by
    refine meets_when (fun _ => ?_) fun _ => .refl hw
    rw [backfillRange, getMem, meets_read_bind]
    refine stays_backfillFrom hsource ?_ _ hw
    unfold computeBackfillRange
    split
    · exact Nat.zero_le _
    · exact hw.cursor
  have hmark : Within (onward chains hashes cfg E) (do
      markAddressBackfilled env cfg clone.1
      tick) := by
    refine within_bind (within_bind (onward_of_staying (stays_ignoring (within_staying ?_)))
      fun _ => onward_setMem fun m => ⟨rfl, rfl, ?_⟩) fun _ => onward_of_staying stays_tick
    · unfold markTemplateAddressBackfilled
      refine within_guarded ?_
      split
      · exact within_throw _
      · exact within_execWrite fun t => ⟨rfl, fun h => h.of_eq rfl rfl rfl rfl⟩
    · unfold TemplateAddressSet.markBackfilled
      split
      · exact List.Subset.refl _
      · exact List.subset_append_left _ _
  have hfail : ∀ e, Within (onward chains hashes cfg E) (do shrinkOnLimit e; tick) := fun e =>
    onward_of_staying (within_bind (stays_shrinkOnLimit e) fun _ => stays_tick)
  exact hscan.mono (fun _ _ h => meets_onward hmark h.onward)
    (fun e _ h => meets_onward (hfail e) h.onward) fun _ h => h.mono fun _ => False.elim

theorem onward_processPendingBackfills (hsource : Source env cfg chains hashes) :
    Within (onward chains hashes cfg E) (processPendingBackfills env cfg) :=
  within_bind (onward_of_staying stays_getMem) fun _ =>
    within_each fun clone _ => onward_processPendingBackfill hsource clone

/-- A turn that scans, when a replay does not end before the cursor. -/
theorem meets_scanTurn_onward (hsource : Source env cfg chains hashes) {latest : Nat}
    (hlatest : latest ≤ u64Max) (hcursor : w.mem.currentBlock ≤ latest)
    (hlimit : w.mem.replayLimit ≠ 0 → w.mem.currentBlock ≤ w.mem.replayLimit)
    (hw : Ready chains hashes cfg w) :
    Meets (scanTurn env cfg latest) w (onwardPost Unit chains hashes cfg E w) := by
  have hend : w.mem.currentBlock ≤ turnEnd w.mem latest ∧ turnEnd w.mem latest ≤ latest := by
    obtain ⟨hfrom, hto⟩ := inclusiveChunkEnd_bounds (n := w.mem.batchSize) hcursor
    unfold turnEnd
    split
    · next h => exact ⟨Nat.le_min.2 ⟨hfrom, hlimit h⟩, (Nat.min_le_left _ _).trans hto⟩
    · exact ⟨hfrom, hto⟩
  rw [scanTurn, getMem, meets_read_bind, meets_bind, meets_attempt]
  refine (meets_syncRange hsource (hend.2.trans hlatest) hw).mono ?_ ?_
    fun _ h => h.mono fun _ => False.elim
  · rintro _ w₁ ⟨hs, hhanded⟩
    have hbefore : Within (staying chains hashes cfg) (do
        recordBlockHash env cfg (turnEnd w.mem latest)
        Prog.when (cfg.trackBlocks = true ∧ turnEnd w.mem latest > 0)
          (ignoring (storeBlockMetadata env cfg (turnEnd w.mem latest)))) :=
      within_bind (stays_recordBlockHash hsource _) fun _ =>
        within_when fun _ => stays_ignoring stays_storeBlockMetadata
    change Meets (do
      recordBlockHash env cfg (turnEnd w.mem latest)
      Prog.when (cfg.trackBlocks = true ∧ turnEnd w.mem latest > 0)
        (ignoring (storeBlockMetadata env cfg (turnEnd w.mem latest)))
      advanceTo env cfg (cursorAfterBlock (turnEnd w.mem latest))
      ignoring (checkSnapshot env cfg)
      tick) w₁ _
    rw [← bind_assoc, meets_bind]
    refine (hbefore w₁).mono ?_ (fun _ _ h => (hs.trans (h hs.ready)).onward) fun _ h =>
      hs.onward.trans_dead ((h hs.ready).mono fun _ => False.elim)
    intro _ w₂ h₂
    have hs₂ := hs.trans (h₂ hs.ready)
    change Meets (do
      advanceTo env cfg (cursorAfterBlock (turnEnd w.mem latest))
      ignoring (checkSnapshot env cfg)
      tick) w₂ _
    rw [meets_bind]
    refine (meets_advanceTo (E := E) hs₂.ready ?_
      (cursorAfterBlock_le_max (hend.2.trans hlatest)) ?_).mono ?_
      (fun _ _ h => hs₂.onward.trans h) fun _ h => hs₂.onward.trans_dead h
    · exact hs₂.memory.1.trans_le (hend.1.trans (le_cursorAfterBlock _))
    · intro lg hlg hwatch hge hlt
      refine .inl ((h₂ hs.ready).handed lg (hhanded lg hlg ⟨?_, lt_cursorAfterBlock hlt, ?_⟩))
      · exact hs₂.memory.1.symm.trans_le hge
      · exact (Watched.congr hs₂.memory.2.1).1 hwatch
    · rintro _ w₃ ⟨hon, -⟩
      exact meets_onward (onward_of_staying (within_bind (stays_ignoring stays_checkSnapshot)
        fun _ => stays_tick)) (hs₂.onward.trans hon)
  · rintro e w₁ hs
    exact meets_onward (onward_of_staying (within_bind (stays_shrinkOnLimit e) fun _ => stays_tick))
      hs.onward

theorem meets_turnAt (hsource : Source env cfg chains hashes) {latest : Nat}
    (hlatest : latest ≤ u64Max) (hw : Ready chains hashes cfg w) :
    Meets (turnAt env cfg latest) w (onwardPost Turn chains hashes cfg E w) := by
  have hend : (onward chains hashes cfg E).rel w { w with mem := endReplay w.mem } :=
    onward_setMem (f := endReplay) (fun m => by
      unfold endReplay
      split <;> exact ⟨rfl, rfl, List.Subset.refl _⟩) w
  have hon := hend hw
  have hlimit : (endReplay w.mem).replayLimit ≠ 0 →
      (endReplay w.mem).currentBlock ≤ (endReplay w.mem).replayLimit := by
    unfold endReplay
    split
    · exact fun h => absurd rfl h
    · next h => exact fun hne => Nat.le_of_not_lt fun hlt => h ⟨hne, hlt⟩
  rw [turnAt, setMem, meets_modify_bind, getMem, meets_read_bind]
  refine meets_ite (fun _ => ?_) fun hscan => ?_
  · have htip : Within (onward chains hashes cfg E) (do
        setMem endReplayAtTip
        let fits ← getMem (templateLiveFit cfg)
        tick
        pure (if cfg.hasWsConfig = true ∧ fits = true then Turn.live else Turn.again)) := by
      refine within_bind (onward_setMem fun m => ?_) fun _ =>
        within_bind (onward_of_staying stays_getMem) fun _ =>
          within_bind (onward_of_staying stays_tick) fun _ => within_pure _
      unfold endReplayAtTip
      split <;> exact ⟨rfl, rfl, List.Subset.refl _⟩
    exact meets_onward htip hon
  · have hcursor : (endReplay w.mem).currentBlock ≤ latest := by simpa [bridgeNeedsScan] using hscan
    rw [meets_bind]
    refine (meets_checkReorg_same hsource hon.ready).mono ?_ (fun _ _ h => hon.trans h.onward)
      fun _ h => hon.trans_dead (h.mono fun _ => False.elim)
    rintro _ w₂ ⟨rfl, hs⟩
    change Meets (do scanTurn env cfg latest; pure Turn.again) w₂ _
    rw [meets_bind]
    refine (meets_scanTurn_onward (E := E) hsource hlatest (hs.memory.1.trans_le hcursor) ?_
      hs.ready).mono (fun _ _ h => (hon.trans hs.onward).trans h)
      (fun _ _ h => (hon.trans hs.onward).trans h) fun _ h => (hon.trans hs.onward).trans_dead h
    rw [hs.memory.1, hs.memory.2.2.2]
    exact hlimit

/-- **A turn of the run loop.** -/
theorem onward_runLoopTurn (hsource : Source env cfg chains hashes) :
    Within (onward chains hashes cfg E) (runLoopTurn env cfg) := by
  refine within_bind (onward_of_staying stays_retryDeadLetters) fun _ => ?_
  refine within_onward fun w hw => ?_
  rw [meets_bind, meets_attempt]
  refine (meets_askTip hsource hw).mono ?_ (fun _ _ h => h.onward)
    fun _ h => h.mono fun _ => False.elim
  rintro latest w₁ ⟨hlatest, hs⟩
  have hclones : Within (onward chains hashes cfg E) (do
      setMem fun m => { m with lastTip := latest }
      Prog.when (cfg.templateMode = true) (processPendingBackfills env cfg)) :=
    within_bind (onward_setMem fun m => ⟨rfl, rfl, List.Subset.refl _⟩) fun _ =>
      within_when fun _ => onward_processPendingBackfills hsource
  change Meets (do
    setMem fun m => { m with lastTip := latest }
    Prog.when (cfg.templateMode = true) (processPendingBackfills env cfg)
    turnAt env cfg latest) w₁ _
  rw [← bind_assoc, meets_bind]
  refine (meets_onward hclones hs.onward).mono ?_ (fun _ _ h => h) fun _ h => h
  intro _ w₂ hon
  exact (meets_turnAt hsource hlatest hon.ready).mono (fun _ _ h => hon.trans h)
    (fun _ _ h => hon.trans h) fun _ h => hon.trans_dead h

/-- What the run loop does on its way out: the stored cursor is the one in memory. -/
theorem onward_leaveRunLoop :
    Within (onward chains hashes cfg E) (leaveRunLoop env cfg) := by
  refine within_onward fun w hw => ?_
  have hscope : Within (cursorScope chains hashes cfg w.mem.currentBlock).frame (do
      ignoring (upsertSyncState env cfg cfg.stateKey w.mem.currentBlock "stopped".toList)
      tick) :=
    within_bind (within_ignoring (within_upsertCursor hw.start hw.cursor)) fun _ => within_tick
  have hrow : ∀ w' : World, (cursorScope chains hashes cfg w.mem.currentBlock).Rel w w' →
      w'.Quiet → Onward chains hashes cfg E w w' := by
    intro w' hrel hquiet
    have htables := Linked.quiet hrel.tables hw.quiet
    have hmem : w'.mem = w.mem := hrel.mem
    have hhanded : w'.handed = w.handed := hrel.handed
    refine ⟨⟨hquiet, htables.2 hw.sound, hmem ▸ hw.start, hmem ▸ hw.cursor⟩, fun lg h => ?_,
      fun lg => (Watched.congr (by rw [hmem])).2, fun lg _ _ ha => .inr (.inl ?_), by rw [hmem]⟩
    · rwa [Handed, hhanded]
    · exact ⟨hmem ▸ ha.memory, htables.1 _ ha.memory ha.stored⟩
  rw [leaveRunLoop, getMem, meets_read_bind]
  refine (hscope w).mono ?_ ?_ ?_
  · exact fun _ w' h => hrow w' h.1 (h.2 hw.quiet)
  · exact fun _ w' h => hrow w' h.1 (h.2 hw.quiet)
  · rintro w' ⟨hrel, -⟩
    have htables := Linked.quiet hrel.tables hw.quiet
    have hhanded : w'.handed = w.handed := hrel.handed
    exact ⟨htables.2 hw.sound, fun lg h => by rwa [Handed, hhanded],
      fun lg _ _ ha => .inr (.inl (htables.1 _ ha.memory ha.stored))⟩

/-- What the head of the live loop does for the clones of a template; whether there is anything
to subscribe to. -/
def headTurn (env : Env) (cfg : Config) : M Bool := do
  Prog.when (cfg.templateMode = true) (processPendingBackfills env cfg)
  getMem (templateLiveFit cfg)

theorem onward_headTurn (hsource : Source env cfg chains hashes) :
    Within (onward chains hashes cfg E) (headTurn env cfg) :=
  within_bind (within_when fun _ => onward_processPendingBackfills hsource) fun _ =>
    onward_of_staying stays_getMem

/-! ### Starting again -/

/-- What a start of an indexer with an address of its own leaves: nothing is written, and the
cursor is the stored one, or the first. -/
theorem meets_boot (hmode : cfg.templateMode = false) (w : World) :
    Meets (boot env cfg) w.rebooted
      ⟨fun _ w' => w'.conn = w.conn.lost ∧ w'.handed = w.handed ∧ w'.mem.droppedLiveHi = none ∧
          (w'.mem.currentBlock = cfg.contract.fromBlock ∨
            ∃ s, w.db.syncState cfg.stateKey = some s ∧ w'.mem.currentBlock = s.lastSyncedBlock),
        fun _ w' => w'.db = w.db ∧ w'.handed = w.handed,
        fun w' => w'.db = w.db ∧ w'.handed = w.handed⟩ := by
  have hkey : cfg.contract.address = cfg.stateKey := by simp [Config.stateKey, hmode]
  have hlost : w.rebooted.conn = quiet w.db := rfl
  rw [boot, meets_bind, getSyncState, meets_guarded, meets_execFind, execRead, meets_exec]
  dsimp only
  rw [hlost]
  refine meets_stmt_quiet.mono ?_ ?_ ?_
  · rintro rows c ⟨-, rfl, rfl⟩
    have hsame : ∀ saved : Option SyncState, (∀ s, saved = some s →
        w.db.syncState cfg.stateKey = some s) →
        (saved.map (·.lastSyncedBlock)).getD cfg.contract.fromBlock = cfg.contract.fromBlock ∨
          ∃ s, w.db.syncState cfg.stateKey = some s ∧
            (saved.map (·.lastSyncedBlock)).getD cfg.contract.fromBlock = s.lastSyncedBlock := by
      intro saved hsaved
      cases saved with
      | none => exact .inl rfl
      | some s => exact .inr ⟨s, hsaved s rfl, rfl⟩
    have hoff : ¬cfg.templateMode = true := by simp [hmode]
    simp only [resumeFrom, setMem, tick, when_of_not hoff, meets_bind, meets_modify, meets_pure]
    refine ⟨rfl, rfl, rfl, hsame _ fun s hs => ?_⟩
    have hmem := mem_cutRows (List.mem_of_head? hs)
    rw [← hkey]
    simpa using hmem
  · rintro e c ⟨-, rfl⟩
    exact ⟨rfl, rfl⟩
  · rintro c ⟨-, rfl⟩
    exact ⟨rfl, rfl⟩

end Loop

/-! ### What is noted while subscribing -/

/-- The log of a frame that is a notification. -/
def Payload.pushed (p : Payload) : Option Log := if p.object = true then p.log else none

/-- A noted block is not below `b`. -/
def NotedUpTo (hi : Option Nat) (b : Nat) : Prop := ∃ n ∈ hi, b ≤ n

/-- **What subscribing notes**: nothing is forgotten, every log that was dropped is not above
the note, and the note is a block of one of them. -/
structure Handshake.Notes (frames : List (Option Payload)) (hi : Option Nat) (h : Handshake) :
    Prop where
  keeps : ∀ b, NotedUpTo hi b → NotedUpTo h.droppedHi b
  notes : ∀ p ∈ h.read, ∀ lg, p.pushed = some lg → NotedUpTo h.droppedHi lg.blockNumber
  frame : ∀ p ∈ h.read, some p ∈ frames
  rest : ∀ x ∈ h.rest, x ∈ frames
  source : ∀ n ∈ h.droppedHi, n ∈ hi ∨ ∃ p ∈ h.read, ∃ lg, p.pushed = some lg ∧ lg.blockNumber = n

section Handshake

variable {id : Int} {p : Payload} {frames : List (Option Payload)} {hi : Option Nat}
  {h h' : Handshake}

theorem notedUpTo_observe {b : Nat} (hb : NotedUpTo hi b) :
    NotedUpTo (observeHandshakePayload p hi) b := by
  obtain ⟨n, hn, hle⟩ := hb
  obtain rfl : hi = some n := hn
  unfold observeHandshakePayload
  cases p.log with
  | none => exact ⟨n, rfl, hle⟩
  | some lg => exact ⟨_, rfl, hle.trans (Nat.le_max_left _ _)⟩

theorem notedUpTo_observed {lg : Log} (hlog : p.log = some lg) :
    NotedUpTo (observeHandshakePayload p hi) lg.blockNumber := by
  unfold observeHandshakePayload
  rw [hlog]
  refine ⟨_, rfl, ?_⟩
  cases hi with
  | none => exact le_rfl
  | some n => exact Nat.le_max_right _ _

theorem mem_observe {n : Nat} (hn : n ∈ observeHandshakePayload p hi) :
    n ∈ hi ∨ ∃ lg, p.log = some lg ∧ lg.blockNumber = n := by
  unfold observeHandshakePayload at hn
  cases hlog : p.log with
  | none =>
    rw [hlog] at hn
    exact .inl hn
  | some lg =>
    rw [hlog] at hn
    cases hi with
    | none => exact .inr ⟨lg, rfl, Option.some.inj hn⟩
    | some m =>
      rcases Nat.le_total m lg.blockNumber with hle | hle
      · exact .inr ⟨lg, rfl, (Nat.max_eq_right hle).symm.trans (Option.some.inj hn)⟩
      · exact .inl (congrArg some ((Nat.max_eq_left hle).symm.trans (Option.some.inj hn)))

/-- A frame that was read before the others. -/
theorem Handshake.Notes.past {hi' : Option Nat} (h₁ : h.Notes frames hi')
    (hkeep : ∀ b, NotedUpTo hi b → NotedUpTo hi' b)
    (hpush : ∀ lg, p.pushed = some lg → NotedUpTo hi' lg.blockNumber)
    (hsource : ∀ n ∈ hi', n ∈ hi ∨ ∃ lg, p.pushed = some lg ∧ lg.blockNumber = n) :
    (h.past p).Notes (some p :: frames) hi where
  keeps b hb := h₁.keeps b (hkeep b hb)
  notes q hq lg hlg := by
    rcases List.mem_cons.1 hq with rfl | hq
    · exact h₁.keeps _ (hpush lg hlg)
    · exact h₁.notes q hq lg hlg
  frame q hq := by
    rcases List.mem_cons.1 hq with rfl | hq
    · exact List.mem_cons_self
    · exact List.mem_cons_of_mem _ (h₁.frame q hq)
  rest x hx := List.mem_cons_of_mem _ (h₁.rest x hx)
  source n hn := by
    rcases h₁.source n hn with h | ⟨q, hq, h⟩
    · exact (hsource n h).imp_right fun h => ⟨p, List.mem_cons_self, h⟩
    · exact .inr ⟨q, List.mem_cons_of_mem _ hq, h⟩

/-- Nothing was read but a reply. -/
theorem notes_nothing {confirmed : Bool} {rest : List (Option Payload)}
    (hrest : ∀ x ∈ rest, x ∈ frames) :
    (Handshake.mk confirmed [] rest hi).Notes frames hi where
  keeps _ h := h
  notes _ h := absurd h List.not_mem_nil
  frame _ h := absurd h List.not_mem_nil
  rest := hrest
  source _ h := .inl h

theorem notes_subscribeLogs (id : Int) : ∀ (frames : List (Option Payload)) (hi : Option Nat),
    (subscribeLogs id frames hi).Notes frames hi
  | [], _ => notes_nothing fun _ h => h
  | none :: _, _ => notes_nothing fun _ => List.mem_cons_of_mem _
  | some p :: rest, hi => by
    unfold subscribeLogs
    split
    · next hobject =>
      refine (notes_subscribeLogs id rest hi).past (fun _ h => h) (fun lg hlg => ?_)
        fun _ h => .inl h
      simp [Payload.pushed, hobject] at hlg
    · next hobject =>
      have hpushed : p.pushed = p.log := if_pos (by simpa using hobject)
      split
      · exact notes_nothing fun _ => List.mem_cons_of_mem _
      · refine (notes_subscribeLogs id rest _).past (fun _ h => notedUpTo_observe h)
          (fun lg hlg => notedUpTo_observed (hpushed.symm.trans hlg)) fun n hn => ?_
        rw [hpushed]
        exact mem_observe hn

/-- **Whatever the interleaving of replies and notifications**, over all chunks. -/
theorem notes_subscribeAddressChunks : ∀ (chunks : List (Nat × Nat)) (id : Int)
    (frames : List (Option Payload)) (hi : Option Nat),
    (subscribeAddressChunks id chunks frames hi).Notes frames hi
  | [], _, _, _ => notes_nothing fun _ h => h
  | _ :: chunks, id, frames, hi => by
    have h₁ := notes_subscribeLogs id frames hi
    simp only [subscribeAddressChunks]
    split
    · have h₂ := notes_subscribeAddressChunks chunks (id + 1) (subscribeLogs id frames hi).rest
        (subscribeLogs id frames hi).droppedHi
      refine ⟨fun b hb => h₂.keeps b (h₁.keeps b hb), fun p hp lg hlg => ?_, fun p hp => ?_,
        fun x hx => h₁.rest x (h₂.rest x hx), fun n hn => ?_⟩
      · rcases List.mem_append.1 hp with hp | hp
        · exact h₂.keeps _ (h₁.notes p hp lg hlg)
        · exact h₂.notes p hp lg hlg
      · rcases List.mem_append.1 hp with hp | hp
        · exact h₁.frame p hp
        · exact h₁.rest _ (h₂.frame p hp)
      · rcases h₂.source n hn with h | ⟨p, hp, h⟩
        · refine (h₁.source n h).imp_right ?_
          rintro ⟨p, hp, h⟩
          exact ⟨p, List.mem_append_left _ hp, h⟩
        · exact .inr ⟨p, List.mem_append_right _ hp, h⟩
    · exact h₁

end Handshake

end Live

end Zponder

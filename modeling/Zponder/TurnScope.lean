import Zponder.Rollback

/-!
# What a turn of the run loop may change

The frame rule for the functions of `Zponder.RunLoop`: a turn stays within every scope
that tolerates its scan, its rollback, the hash, the cursor and the snapshot it
writes. Where the cursor goes is said by the caller of `Zponder.within_advanceTo`.
-/

namespace Zponder

open Imperative Prog Conn

/-- A scope that tolerates what is written down after a range. -/
structure Scope.Advances (S : Scope) (cfg : Config) : Prop extends S.Syncs where
  blockHash : ∀ (t : Tables) b h, S.tables.rel t (t.putBlockHash cfg.stateKey b h)
  syncState : ∀ (t : Tables) s, S.tables.rel t (t.putSyncState cfg.stateKey s)
  snapshot : ∀ (t : Tables) r, r.contractAddress = cfg.stateKey → S.tables.rel t (t.addSnapshot r)
  memory : ∀ (m : Mem) b n, S.mem.rel m { m with batchSize := b, lastSnapshotTime := n }

section Turn

variable {S : Scope} {env : Env} {cfg : Config}

theorem within_shrinkBatch (hS : S.Advances cfg) : Within S.frame shrinkBatch :=
  within_bind within_getMem fun _ => within_ite (fun _ => within_pure _) fun _ =>
    within_bind (within_setMem fun m => hS.memory m _ m.lastSnapshotTime) fun _ => within_pure _

theorem within_recordBlockHash (hS : S.Advances cfg) {b : Nat} :
    Within S.frame (recordBlockHash env cfg b) := by
  refine within_bind (within_catching within_ask fun _ => within_pure _) fun hash => ?_
  split
  · exact within_pure _
  · exact within_ignoring (within_guarded (within_execWrite fun t => hS.blockHash t _ _))

theorem within_advanceTo (hS : S.Advances cfg) {next : Nat}
    (hnext : ∀ m : Mem, S.mem.rel m { m with currentBlock := next }) :
    Within S.frame (advanceTo env cfg next) :=
  within_bind (within_setMem hnext) fun _ =>
    within_ignoring (within_upsertSyncState fun t => hS.syncState t _)

theorem within_storeBlockMetadata (hS : S.Advances cfg) {b : Nat} :
    Within S.frame (storeBlockMetadata env cfg b) := by
  refine within_bind within_ask fun data => ?_
  split
  · exact within_pure _
  · exact within_bind (within_guarded (within_execWrite fun t => hS.blocks t _)) fun _ =>
      within_when fun _ => within_setMem fun m => hS.tsCache m _

theorem within_checkSnapshot (hS : S.Advances cfg) : Within S.frame (checkSnapshot env cfg) := by
  refine within_bind (within_read _) fun now => within_bind within_getMem fun m => ?_
  refine within_ite (fun _ => within_pure _) fun _ => ?_
  exact within_bind (within_guarded (within_execWrite fun t => hS.snapshot t _ rfl)) fun _ =>
    within_setMem fun m => hS.memory m m.batchSize _

/-- What follows a scan that went well. -/
theorem within_afterScan (hS : S.Advances cfg) {toBlock : Nat}
    (hnext : ∀ m : Mem, S.mem.rel m { m with currentBlock := cursorAfterBlock toBlock }) :
    Within S.frame (do
      recordBlockHash env cfg toBlock
      Prog.when (cfg.trackBlocks = true ∧ toBlock > 0)
        (ignoring (storeBlockMetadata env cfg toBlock))
      advanceTo env cfg (cursorAfterBlock toBlock)
      ignoring (checkSnapshot env cfg)
      tick) := by
  refine within_bind (within_recordBlockHash hS) fun _ => ?_
  refine within_bind (within_when fun _ => within_ignoring (within_storeBlockMetadata hS))
    fun _ => ?_
  refine within_bind (within_advanceTo hS hnext) fun _ => ?_
  exact within_bind (within_ignoring (within_checkSnapshot hS)) fun _ => within_tick

/-- What follows one that did not. -/
theorem within_failedScan (hS : S.Advances cfg) (e : Err) :
    Within S.frame (do shrinkOnLimit e; tick) := by
  refine within_bind (within_when fun _ => ?_) fun _ => within_tick
  exact within_bind (within_shrinkBatch hS) fun _ => within_pure _

/-- **A turn that scans** the range from the cursor on. -/
theorem meets_scanTurn {w : World} (hS : S.Advances cfg) {latest : Nat}
    (hnext : ∀ m : Mem, S.mem.rel m
      { m with currentBlock := cursorAfterBlock (turnEnd w.mem latest) }) :
    Meets (scanTurn env cfg latest) w
      ⟨fun _ => S.frame.rel w, fun _ => S.frame.rel w, S.frame.dead w⟩ := by
  rw [scanTurn, getMem, meets_read_bind]
  refine within_bind (within_attempt (within_syncRange hS.toSyncs)) (fun scanned => ?_) w
  split
  · next e => exact within_failedScan hS e
  · exact within_afterScan hS hnext

end Turn

end Zponder

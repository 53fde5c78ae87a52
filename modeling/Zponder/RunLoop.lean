import Zponder.Reorg

/-!
# The run loop

One turn of `Indexer.runLoop` and of the loops it is made of, and how an indexer
starts. The loop itself has no end of its own: it is the repetition of
`Zponder.runLoopTurn` until somebody stops it or it goes over to the live
subscription (`Zponder.Turn.live`), and what is said of it is said of runs of turns.

A turn that sleeps lets a moment pass, and so does one that does not.
-/

namespace Zponder

open Imperative

/-! ### Clones of a template -/

namespace TemplateAddressSet

/-- `add`: nothing if the address is known. -/
def add (address : Text) (fromBlock : Nat) (s : TemplateAddressSet) : Option TemplateAddressSet :=
  if s.live.any (·.1 == address) || s.pending.any (·.1 == address) then none
  else some { s with pending := s.pending ++ [(address, fromBlock)] }

/-- `dropPending` -/
def dropPending (address : Text) (s : TemplateAddressSet) : TemplateAddressSet :=
  { s with pending := s.pending.eraseP (·.1 == address) }

/-- `markBackfilled`: from pending to live. -/
def markBackfilled (address : Text) (s : TemplateAddressSet) : TemplateAddressSet :=
  match s.pending.find? (·.1 == address) with
  | none => s
  | some p => { live := s.live ++ [p], pending := s.pending.eraseP (·.1 == address) }

end TemplateAddressSet

section RunLoop

variable (env : Env) (cfg : Config)

/-- `discoverAddress`: whether the clone is known for good. -/
def discoverAddress (address : Text) (fromBlock : Nat) : M Bool :=
  if cfg.templateMode = false then pure true
  else
    match Text.normalizeHexAddress address with
    | none => pure true
    | some normalized => do
      let set ← getMem (·.templateSet)
      match set.add normalized fromBlock with
      | none => pure true
      | some set => do
        setMem fun m => { m with templateSet := set }
        let stored ← Prog.attempt (addTemplateAddress env cfg 0 cfg.contract.name normalized fromBlock)
        match stored with
        | .error _ => do
          setMem fun m => { m with templateSet := m.templateSet.dropPending normalized }
          tick
          pure false
        | .ok () => do
          setMem fun m => { m with liveAddrGen := m.liveAddrGen + 1 }
          tick
          pure true

/-- `shrinkBatch`: half the batch, down to one block. -/
def shrinkBatch : M Bool := do
  let batch ← getMem (·.batchSize)
  if batch ≤ 1 then pure false
  else do
    setMem fun m => { m with batchSize := max (batch / 2) 1 }
    pure true

/-- After a scan that failed: what the node finds too much is asked for in smaller
pieces. -/
def shrinkOnLimit (e : Err) : M Unit :=
  Prog.when (e = .rpcLimitExceeded) do
    let _ ← shrinkBatch
    pure ()

/-- The loop of `backfillRange`. -/
def backfillFrom (address : Text) (batch toBlock fromBlock : Nat) : M Unit :=
  match _h : nextBackfillChunk fromBlock batch toBlock with
  | none => pure ()
  | some chunk => do
    syncRangeWithAddresses env cfg [address] chunk.1 chunk.2
    backfillFrom address batch toBlock (chunk.2 + 1)
termination_by toBlock - fromBlock
decreasing_by
  unfold nextBackfillChunk backfillLast satAdd at _h
  split at _h
  · cases _h
  · obtain rfl := Option.some.inj _h
    simp only
    omega

/-- `backfillRange`: the half-open range of a clone that was found late. -/
def backfillRange (address : Text) (fromBlock toBlock : Nat) : M Unit := do
  let batch ← getMem (·.batchSize)
  backfillFrom env cfg address batch toBlock fromBlock

/-- `markAddressBackfilled` -/
def markAddressBackfilled (address : Text) : M Unit := do
  ignoring (markTemplateAddressBackfilled env cfg cfg.contract.name address)
  setMem fun m => { m with
    templateSet := m.templateSet.markBackfilled address
    liveAddrGen := m.liveAddrGen + 1 }

/-- One turn of the loop of `processPendingBackfills`: a clone joins the others when
it has caught up with the cursor. -/
def processPendingBackfill (clone : Text × Nat) : M Unit := do
  let cursor ← getMem (·.currentBlock)
  let range := computeBackfillRange clone.2 cursor
  let scanned ← Prog.attempt
    (Prog.when (range.1 < range.2) (backfillRange env cfg clone.1 range.1 range.2))
  match scanned with
  | .error e => do
    shrinkOnLimit e
    tick
  | .ok () => do
    markAddressBackfilled env cfg clone.1
    tick

/-- `processPendingBackfills` -/
def processPendingBackfills : M Unit := do
  let pending ← getMem (·.templateSet.pending)
  Prog.each pending (processPendingBackfill env cfg)

/-- `templateLiveFit`: whether there is anything to subscribe to. -/
def templateLiveFit (m : Mem) : Bool := cfg.templateMode == false || m.templateSet.live != []

/-- `templateSubscriptionStale` -/
def templateSubscriptionStale (subscribedGen : Nat) (m : Mem) : Bool :=
  cfg.templateMode && (m.liveAddrGen != subscribedGen || m.templateSet.pending != [])

/-! ### After a range -/

/-- The hash of the last block of a range is stored, if the node knows it. -/
def recordBlockHash (block : Nat) : M Unit := do
  let hash ← Prog.catching (ask fun t => env.blockHash t block) fun _ => pure none
  match hash with
  | none => pure ()
  | some h => ignoring (upsertBlockHash env cfg cfg.stateKey block h)

/-- The cursor goes to `next`, and the database is told. -/
def advanceTo (next : Nat) : M Unit := do
  setMem fun m => { m with currentBlock := next }
  ignoring (upsertSyncState env cfg cfg.stateKey next "running".toList)

/-- `storeBlockMetadata` -/
def storeBlockMetadata (block : Nat) : M Unit := do
  let data ← ask fun t => env.blockData t block
  match data with
  | none => pure ()
  | some d => do
    upsertBlock env cfg cfg.chain d
    Prog.when (cfg.eventTsNeeded = true) (setMem fun m =>
      { m with blockTsCache := (d.number, d.timestamp) :: m.blockTsCache.filter (·.1 != d.number) })

/-- `checkSnapshot` -/
def checkSnapshot : M Unit := do
  let now ← Prog.read fun w => env.clock w.now / 1000
  let m ← getMem id
  if cfg.snapshotInterval = 0 ∨ now - m.lastSnapshotTime < cfg.snapshotInterval ∨
      m.currentBlock = 0 then pure ()
  else do
    createSnapshot env cfg ⟨cfg.stateKey, m.currentBlock - 1, now, cfg.contract.name⟩
    setMem fun m => { m with lastSnapshotTime := now }

/-! ### A turn -/

/-- How a turn ends: with the next one, or in the live subscription. -/
inductive Turn where
  | again
  | live
  deriving DecidableEq, Repr

/-- The check both loops make: whether the cursor was set back. -/
def checkReorg : M Bool := do
  let current ← getMem (·.currentBlock)
  if current > cfg.contract.fromBlock then do
    let fork ← detectAndHandleReorg env cfg (current - 1)
    if fork < current - 1 then do
      setMem fun m => { m with currentBlock := fork }
      pure true
    else pure false
  else pure false

/-- The check of the live loop, at most every thirty seconds. -/
def periodicReorgCheck : M Bool := do
  let now ← Prog.read fun w => env.clock w.now
  let last ← getMem (·.lastReorgCheck)
  if now - last ≥ 30000 then do
    setMem fun m => { m with lastReorgCheck := now }
    checkReorg env cfg
  else pure false

/-- The range a turn scans. -/
def turnEnd (m : Mem) (latest : Nat) : Nat :=
  let toBlock := inclusiveChunkEnd m.currentBlock m.batchSize latest
  if m.replayLimit ≠ 0 then min toBlock m.replayLimit else toBlock

/-- A turn that scans. -/
def scanTurn (latest : Nat) : M Unit := do
  let m ← getMem id
  let toBlock := turnEnd m latest
  let scanned ← Prog.attempt (syncRange env cfg m.currentBlock toBlock)
  match scanned with
  | .error e => do
    shrinkOnLimit e
    tick
  | .ok () => do
    recordBlockHash env cfg toBlock
    Prog.when (cfg.trackBlocks = true ∧ toBlock > 0) (ignoring (storeBlockMetadata env cfg toBlock))
    advanceTo env cfg (cursorAfterBlock toBlock)
    ignoring (checkSnapshot env cfg)
    tick

/-- A replay that has passed its limit is over. -/
def endReplay (m : Mem) : Mem :=
  if m.replayLimit ≠ 0 ∧ m.currentBlock > m.replayLimit then
    { m with
      replayLimit := 0
      state := if m.state = .replaying then .running else m.state }
  else m

/-- A replay that has reached the end of the chain is over. -/
def endReplayAtTip (m : Mem) : Mem :=
  if m.state = .replaying then { m with replayLimit := 0, state := .running } else m

/-- A turn, from where it knows the end of the chain. -/
def turnAt (latest : Nat) : M Turn := do
  setMem endReplay
  let current ← getMem (·.currentBlock)
  if bridgeNeedsScan current latest = false then do
    setMem endReplayAtTip
    let fits ← getMem (templateLiveFit cfg)
    tick
    pure (if cfg.hasWsConfig = true ∧ fits = true then .live else .again)
  else do
    let back ← checkReorg env cfg
    if back = true then tick else scanTurn env cfg latest
    pure .again

/-- One turn of `runLoop`. -/
def runLoopTurn : M Turn := do
  retryDeadLetters env cfg
  let answer ← Prog.attempt (ask env.blockNumber)
  match answer with
  | .error _ => pure .again
  | .ok latest => do
    setMem fun m => { m with lastTip := latest }
    Prog.when (cfg.templateMode = true) (processPendingBackfills env cfg)
    turnAt env cfg latest

/-- What `runLoop` does on its way out. -/
def leaveRunLoop : M Unit := do
  let current ← getMem (·.currentBlock)
  ignoring (upsertSyncState env cfg cfg.stateKey current "stopped".toList)
  tick

/-! ### Starting -/

/-- What a death leaves: the committed tables. -/
def World.rebooted (w : World) : World :=
  { w with conn := w.conn.lost, writeDepth := 0, mem := { currentBlock := 0 }, children := [] }

/-- The cursor of `init`, and of `setTemplateMode`. -/
def resumeFrom (block : Nat) : M Unit :=
  setMem fun m => { m with currentBlock := block, lastTip := block }

/-- `loadTemplateAddressesInto`: a clone that was scanned is live, the others wait. -/
def loadTemplateAddress (set : TemplateAddressSet) (row : TemplateAddress) : TemplateAddressSet :=
  let added := (set.add row.address row.fromBlock).getD set
  if row.backfilled = true then added.markBackfilled row.address else added

/-- `init`, then `setTemplateMode` and `loadTemplateAddresses` for a template. -/
def boot : M Unit := do
  let saved ← getSyncState env cfg cfg.contract.address
  resumeFrom ((saved.map (·.lastSyncedBlock)).getD cfg.contract.fromBlock)
  setMem fun m => { m with batchSize := clampBatchSize (cfg.contract.blockBatchSize.getD 500) }
  tick
  Prog.when (cfg.templateMode = true) do
    let saved ← Prog.catching (getSyncState env cfg cfg.stateKey) fun _ => pure none
    match saved with
    | none => pure ()
    | some s => Prog.when (cfg.stateKey ≠ cfg.contract.address) (resumeFrom s.lastSyncedBlock)
    let rows ← listTemplateAddresses env cfg cfg.contract.name
    setMem fun m => { m with templateSet := rows.foldl loadTemplateAddress m.templateSet }
    tick

end RunLoop

end Zponder

import Zponder.CacheSync

/-!
# Going back

What an indexer does when the chain has changed under it: it compares the hash it
stored with the node's, looks for the last block both agree on, deletes everything
from there on and, if a factory listens, has the factory's children do the same.

The children of a factory are indexers of their own, on the same database and with
their own memory; a function of a child is run by `Zponder.onChild`. A child has no
children and nobody listens to it, so its `rollbackTo` is the part without the hook
(`Zponder.rollbackOwn`).
-/

namespace Zponder

open Imperative

namespace TemplateAddressSet

/-- `removeFromBlock` -/
def removeFromBlock (fromBlock : Nat) (s : TemplateAddressSet) : TemplateAddressSet where
  live := s.live.filter fun a => !decide (a.2 ≥ fromBlock)
  pending := s.pending.filter fun a => !decide (a.2 ≥ fromBlock)

end TemplateAddressSet

section Reorg

variable (env : Env) (cfg : Config)

/-! ### Rolling back -/

/-- What `rollbackTo` does to the clones of a template: those found on the blocks that
are gone are forgotten, and the others are written again, should the transaction have
taken their rows with it. -/
def forgetClones (forkBlock : Nat) : M Unit := do
  ignoring (deleteTemplateAddressesFromBlock env cfg cfg.contract.name forkBlock)
  setMem fun m => { m with
    templateSet := m.templateSet.removeFromBlock forkBlock
    liveAddrGen := m.liveAddrGen + 1 }
  let live ← getMem (·.templateSet.live)
  Prog.each live.zipIdx fun (a, i) =>
    ignoring (addTemplateAddress env cfg i cfg.contract.name a.1 a.2)

/-- What `rollbackTo` does to the data of the indexer. That the database failed is
only logged. -/
def rollbackData (forkBlock : Nat) : M Unit := do
  ignoring (rollbackFromBlock env cfg cfg.stateKey cfg.contract.name cfg.contract.events forkBlock
    cfg.chain)
  setMem fun m => { m with blockTsCache := [] }
  Prog.when (cfg.templateMode = true) (forgetClones env cfg forkBlock)

/-- `rollbackTo`, up to its hook. -/
def rollbackOwn (forkBlock : Nat) : M Unit := do
  Prog.modify fun w => { w with rollbacks := w.rollbacks ++ [forkBlock] }
  rollbackData env cfg forkBlock

/-! ### The children of a factory -/

/-- Run a function of a child, in its memory. -/
def onChild (child : Child) (p : M Unit) : M Child := do
  let mem ← Prog.zoom (fun w => { w with mem := child.mem, children := [], rollbacks := [] })
    (fun w w' => { w' with mem := w.mem, children := w.children, rollbacks := w.rollbacks })
    (do p; getMem id)
  pure { child with mem := mem }

/-- `stop` and the `join` that follows it: a run loop that is told to stop writes its
cursor once more on its way out. -/
def stopAndJoin : M Unit := do
  setMem fun m => { m with state := .stopped }
  let running ← getMem (·.thread)
  Prog.when (running = true) do
    let current ← getMem (·.currentBlock)
    ignoring (upsertSyncState env cfg cfg.stateKey current "stopped".toList)
    setMem fun m => { m with thread := false }
  tick

/-- `start`, up to the thread itself. -/
def start : M Unit :=
  setMem fun m =>
    if m.state = .running ∨ m.thread = true then m
    else { m with state := .running, thread := true }

/-- `applyReorg` of an indexer nobody listens to. -/
def applyOwnReorg (forkBlock : Nat) : M Unit := do
  rollbackOwn env cfg forkBlock
  setMem fun m => { m with currentBlock := forkBlock }
  tick

/-- `discardChild` -/
def discardChild (child : Child) : M Unit := do
  let _ ← onChild child do
    stopAndJoin env child.cfg
    applyOwnReorg env child.cfg child.cfg.contract.fromBlock
  ignoring (deleteSyncState env child.cfg child.cfg.contract.address)
  tick

/-- `rewindChild` -/
def rewindChild (forkBlock : Nat) (child : Child) : M Child :=
  onChild child do
    stopAndJoin env child.cfg
    applyOwnReorg env child.cfg forkBlock
    start

/-- `reconcileChildren`: the children found on the blocks that are gone are discarded,
the others rewound. -/
def reconcileChildren (forkBlock : Nat) : M Unit := do
  let all ← Prog.read (·.children)
  let doomed := all.filter fun c => decide (c.cfg.contract.fromBlock ≥ forkBlock)
  let survivors := all.filter fun c => !decide (c.cfg.contract.fromBlock ≥ forkBlock)
  Prog.each doomed (discardChild env)
  let rewound ← Prog.gather survivors fun c => do
    let c ← rewindChild env forkBlock c
    pure [c]
  Prog.modify fun w => { w with children := rewound }

/-- `onReorgCallback`, as the hook of an indexer on chain `cfg.chain`. -/
def onReorgCallback (forkBlock : Nat) : M Unit :=
  match cfg.reorgHook with
  | none => pure ()
  | some chain => Prog.when (cfg.chain = chain) (reconcileChildren env forkBlock)

/-- `rollbackTo` -/
def rollbackTo (forkBlock : Nat) : M Unit := do
  rollbackOwn env cfg forkBlock
  onReorgCallback env cfg forkBlock

/-- `applyReorg` -/
def applyReorg (forkBlock : Nat) : M Unit := do
  rollbackTo env cfg forkBlock
  setMem fun m => { m with currentBlock := forkBlock }
  tick

/-- Where nobody listens, that is all there is to `applyReorg`. -/
theorem applyReorg_eq_own (h : cfg.reorgHook = none) (forkBlock : Nat) :
    applyReorg env cfg forkBlock = applyOwnReorg env cfg forkBlock := by
  simp only [applyReorg, applyOwnReorg, rollbackTo, onReorgCallback, h, bind_pure_unit]

/-- `handleRemovedLog` -/
def handleRemovedLog (blockNumber : Nat) : M Unit := do
  rollbackTo env cfg blockNumber
  setMem fun m => { m with currentBlock := blockNumber }
  ignoring (upsertSyncState env cfg cfg.stateKey blockNumber "running".toList)
  tick

/-- `setReplay`: a replay to the end of the chain has no limit, and 0 says so. -/
def setReplay (fromBlock toBlock : Nat) : M Unit := do
  stopAndJoin env cfg
  let bounded := replayUpper fromBlock toBlock
  resetForReplay env cfg cfg.stateKey cfg.contract.name cfg.contract.events fromBlock
    (bounded.getD u64Max)
  setMem fun m => { m with
    replayLimit := bounded.getD 0
    state := .replaying
    currentBlock := fromBlock
    thread := true }

/-! ### Detecting -/

/-- `effectiveReorgDepth`, with `default_reorg_depth`. -/
def effectiveReorgDepth (configured : Option Nat) : Nat := configured.getD 64

/-- The node's hash of a block and the stored one, if both are to be had. An error
counts as no answer. -/
def lookUpHashes (block : Nat) : M (Option (Text × Text)) := do
  let rpcHash ← Prog.catching (ask fun t => env.blockHash t block) fun _ => pure none
  match rpcHash with
  | none => pure none
  | some rpcHash => do
    let localHash ← Prog.catching (getBlockHash env cfg cfg.stateKey block) fun _ => pure none
    pure (localHash.map fun localHash => (rpcHash, localHash))

/-- The scan of `detectAndHandleReorg` for a block below `scanBlock`, and not below
`minBlock`, on which the hashes agree. -/
def scanForFork (minBlock : Nat) : Nat → M Nat
  | 0 => do
    rollbackTo env cfg minBlock
    pure minBlock
  | scanBlock + 1 =>
    if scanBlock + 1 > minBlock then do
      let hashes ← lookUpHashes env cfg scanBlock
      match hashes with
      | none => scanForFork minBlock scanBlock
      | some (rpcHash, localHash) =>
        if Text.eqlIgnoreCase rpcHash localHash = true then do
          rollbackTo env cfg (scanBlock + 1)
          pure (scanBlock + 1)
        else scanForFork minBlock scanBlock
    else do
      rollbackTo env cfg minBlock
      pure minBlock

/-- `detectAndHandleReorg`: the block to go on from, or `blockNumber` if nothing is
amiss. -/
def detectAndHandleReorg (blockNumber : Nat) : M Nat :=
  let depth := effectiveReorgDepth cfg.contract.maxReorgDepth
  if depth = 0 then pure blockNumber
  else do
    let hashes ← lookUpHashes env cfg blockNumber
    match hashes with
    | none => pure blockNumber
    | some (rpcHash, localHash) =>
      if Text.eqlIgnoreCase rpcHash localHash = true then pure blockNumber
      else
        let minBlock := if blockNumber > depth then blockNumber - depth else 0
        scanForFork env cfg minBlock blockNumber

end Reorg

end Zponder

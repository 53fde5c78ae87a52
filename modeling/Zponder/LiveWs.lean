import Zponder.CachedScan
import Zponder.ForkScan
import Zponder.LaggingCursor

/-!
# The live subscription

The pieces of `runLiveWs`: the bridge that scans up to the end of the chain
(`Zponder.Live.bridgeTurn`), the subscribing, during which logs are already pushed and only the
highest of their blocks is noted (`Zponder.Live.subscribeAddressChunks`), the rescan of what was
dropped then (`Zponder.Live.recoverDroppedLive`), and the loop that reads one log after the
other (`Zponder.Live.readTurn`). Which of them comes after which is said in `Zponder.LiveRuns`.

The cursor is moved by whole ranges everywhere but in the loop that reads: there a single log
moves it past its block, whatever else the block holds. What every piece leaves is therefore
said of single logs that the cursors have not passed (`Zponder.Live.Ahead`): afterwards such a
log has been handed over, or it is still ahead, or it shares its block with a log that was read.
-/

namespace Zponder

namespace Live

open Imperative Prog Conn

/-! ### The programs -/

section Programs

variable (env : Env) (cfg : Config)

/-- The loops of the subscription go on in these states. -/
def Goes (m : Mem) : Prop := m.state = .running ∨ m.state = .replaying

instance (m : Mem) : Decidable (Goes m) := inferInstanceAs (Decidable (_ ∨ _))

/-- What follows a range that was scanned: its last hash, the cursor. -/
def passRange (last : Nat) : M Unit := do
  recordBlockHash env cfg last
  advanceTo env cfg (cursorAfterBlock last)
  tick

/-- One turn of `bridgeToTip`: whether there is nothing more to scan. -/
def bridgeTurn : M Bool := do
  let m ← getMem id
  if Goes m then do
    let latest ← ask env.blockNumber
    if bridgeNeedsScan m.currentBlock latest = false then pure true
    else do
      let toBlock := inclusiveChunkEnd m.currentBlock m.batchSize latest
      let scanned ← Prog.attempt (syncRange env cfg m.currentBlock toBlock)
      match scanned with
      | .error e =>
        if e = .rpcLimitExceeded then do
          let shrunk ← shrinkBatch
          if shrunk = true then pure false else Prog.throw e
        else Prog.throw e
      | .ok () => do
        passRange env cfg toBlock
        pure false
  else pure true

/-- The loop of `fillLiveGap`; `batch` is the batch size in memory. -/
def fillFrom (toBlock batch fromBlock : Nat) : M Unit :=
  match _h : nextLiveChunkEnd fromBlock batch toBlock with
  | none => pure ()
  | some last => do
    let m ← getMem id
    if Goes m then do
      let scanned ← Prog.attempt (syncRange env cfg fromBlock last)
      match scanned with
      | .error e =>
        if e = .rpcLimitExceeded ∧ 1 < batch then do
          let _ ← shrinkBatch
          tick
          fillFrom toBlock (max (batch / 2) 1) fromBlock
        else Prog.throw e
      | .ok () => do
        passRange env cfg last
        fillFrom toBlock batch (last + 1)
    else Prog.throw .stopped
termination_by (toBlock + 1 - fromBlock, batch)
decreasing_by
  · refine Prod.Lex.right _ ?_
    omega
  · refine Prod.Lex.left _ _ ?_
    unfold nextLiveChunkEnd at _h
    split at _h
    · cases _h
    · next hle =>
      obtain rfl := Option.some.inj _h
      have := (inclusiveChunkEnd_bounds (n := batch) (Nat.le_of_not_lt hle)).1
      omega

/-- `fillLiveGap` -/
def fillLiveGap (fromBlock toBlock : Nat) : M Unit := do
  let batch ← getMem (·.batchSize)
  fillFrom env cfg toBlock batch fromBlock

/-- `recoverDroppedLive` -/
def recoverDroppedLive : M Unit := do
  let m ← getMem id
  match droppedLiveRescan m.currentBlock m.droppedLiveHi with
  | none => setMem fun m => { m with droppedLiveHi := none }
  | some span => do
    fillLiveGap env cfg span.1 span.2
    setMem fun m => { m with droppedLiveHi := none }

/-! ### Subscribing -/

/-- A text frame that is read while a reply is waited for, by what is looked at. -/
structure Payload where
  /-- It is a JSON object. -/
  object : Bool := true
  /-- The member `id`, if there is one: the number in it, if it is one. -/
  id : Option (Option Int) := none
  /-- No member `error`, and a text as `result`. -/
  confirms : Bool := false
  /-- What `parseSubscriptionNotification` makes of it. -/
  log : Option Log := none
  deriving DecidableEq

/-- `observeHandshakePayload` -/
def observeHandshakePayload (p : Payload) (droppedHi : Option Nat) : Option Nat :=
  match p.log with
  | none => droppedHi
  | some lg => some (match droppedHi with
    | none => lg.blockNumber
    | some hi => max hi lg.blockNumber)

/-- How far subscribing has come: whether the reply was the one that was hoped for, what was
read, and what is still to be read. -/
structure Handshake where
  confirmed : Bool
  read : List Payload
  rest : List (Option Payload)
  droppedHi : Option Nat

/-- A frame that is not the reply was read first. -/
def Handshake.past (p : Payload) (h : Handshake) : Handshake := { h with read := p :: h.read }

/-- `subscribeLogs`, under the request number `id`. The frames come in the order they are read
in; `none` is one that cannot be sent, read or parsed, and there is nothing after the last. -/
def subscribeLogs (id : Int) : List (Option Payload) → Option Nat → Handshake
  | [], hi => ⟨false, [], [], hi⟩
  | none :: rest, hi => ⟨false, [], rest, hi⟩
  | some p :: rest, hi =>
    if p.object = false then (subscribeLogs id rest hi).past p
    else if p.id = some (some id) then ⟨p.confirms, [], rest, hi⟩
    else (subscribeLogs id rest (observeHandshakePayload p hi)).past p

/-- `subscribeAddressChunks`: one request for each chunk, and none after one that failed. -/
def subscribeAddressChunks (id : Int) : List (Nat × Nat) → List (Option Payload) → Option Nat →
    Handshake
  | [], frames, hi => ⟨true, [], frames, hi⟩
  | _ :: chunks, frames, hi =>
    let first := subscribeLogs id frames hi
    if first.confirmed = true then
      let others := subscribeAddressChunks (id + 1) chunks first.rest first.droppedHi
      { others with read := first.read ++ others.read }
    else first

/-- The chunks of the addresses that are subscribed to. -/
def subscribedChunks (m : Mem) : List (Nat × Nat) :=
  addressChunksFrom (watchedAddresses cfg m).length cfg.maxAddressesPerRequest 0

/-! ### Reading -/

/-- `advanceAfterLiveLog` -/
def advanceAfterLiveLog (block : Nat) : M Unit := do
  let current ← getMem (·.currentBlock)
  match liveSyncedBlock current block with
  | none => pure ()
  | some synced => do
    advanceTo env cfg (cursorAfterBlock synced)
    recordBlockHash env cfg block
    Prog.when (cfg.trackBlocks = true ∧ block > 0) (ignoring (storeBlockMetadata env cfg block))

/-- The blocks between the cursor and a log. -/
def fillGapBefore (lg : Log) : M Unit := do
  let current ← getMem (·.currentBlock)
  match liveLogGap current lg.blockNumber with
  | none => pure ()
  | some gap => fillLiveGap env cfg gap.1 gap.2

/-- What follows a log that was processed; whether the loop goes on. -/
def settleLiveLog (lg : Log) : M Bool := do
  rememberLiveLog env cfg lg
  advanceAfterLiveLog env cfg lg.blockNumber
  let back ← Prog.catching (periodicReorgCheck env cfg) fun _ => pure false
  if back = true then pure false
  else do
    ignoring (checkSnapshot env cfg)
    pure true

/-- A log that was read from the subscription; whether the loop goes on. -/
def liveLog (subscribedGen : Nat) (lg : Log) : M Bool :=
  if lg.removed = true then do
    handleRemovedLog env cfg lg.blockNumber
    pure (!cfg.templateMode)
  else do
    let stale ← getMem (templateSubscriptionStale cfg subscribedGen)
    if stale = true then pure false
    else do
      let filled ← Prog.attempt (fillGapBefore env cfg lg)
      match filled with
      | .error e => do
        recordFailedLog env cfg lg e.name
        pure false
      | .ok () => do
        let processed ← Prog.attempt (processLog env cfg lg)
        match processed with
        | .error e => do
          recordFailedLog env cfg lg e.name
          pure true
        | .ok () => settleLiveLog env cfg lg

/-- `ws_rpc.ReadEvent`. A read that fails ends the loop like a connection that is closed. -/
inductive ReadEvent where
  | log (lg : Log)
  | pingHandled
  | closed

/-- One turn of the loop that reads; whether it goes on. -/
def readTurn (subscribedGen : Nat) (event : ReadEvent) : M Bool := do
  let m ← getMem id
  if Goes m ∧ templateSubscriptionStale cfg subscribedGen m = false then do
    retryDeadLetters env cfg
    match event with
    | .closed => pure false
    | .pingHandled => pure true
    | .log lg => liveLog env cfg subscribedGen lg
  else pure false

end Programs

/-! ### A chunk after the other -/

section Fill

variable {env : Env} {cfg : Config} {fromBlock toBlock batch : Nat} {w w₁ w₂ : World}

theorem fillFrom_done (h : toBlock < fromBlock) :
    fillFrom env cfg toBlock batch fromBlock = pure () := by
  rw [fillFrom]
  split
  · rfl
  · next hchunk => simp [nextLiveChunkEnd, h] at hchunk

/-- A chunk that is scanned, and the chunks after it. -/
theorem fillFrom_chunk {last : Nat} (hchunk : nextLiveChunkEnd fromBlock batch toBlock = some last)
    (hgoes : Goes w.mem) (hscan : syncRange env cfg fromBlock last w = (.ok (), w₁))
    (hpass : passRange env cfg last w₁ = (.ok (), w₂)) :
    fillFrom env cfg toBlock batch fromBlock w =
      fillFrom env cfg toBlock batch (last + 1) w₂ := by
  have hattempt : (attempt (syncRange env cfg fromBlock last) : M (Except Err Unit)) w =
      (.ok (.ok ()), w₁) := by rw [attempt, hscan]
  generalize hp : fillFrom env cfg toBlock batch fromBlock = p
  rw [fillFrom] at hp
  split at hp
  · next h => cases h.symm.trans hchunk
  · next x h =>
    obtain rfl := Option.some.inj (h.symm.trans hchunk)
    subst hp
    rw [getMem, read_bind, id, if_pos hgoes, bind_of_ok hattempt]
    exact bind_of_ok hpass _

/-- A rescan of a single chunk. -/
theorem recoverDroppedLive_chunk {last : Nat}
    (hspan : droppedLiveRescan w.mem.currentBlock w.mem.droppedLiveHi = some (fromBlock, last))
    (hchunk : nextLiveChunkEnd fromBlock w.mem.batchSize last = some last) (hgoes : Goes w.mem)
    (hscan : syncRange env cfg fromBlock last w = (.ok (), w₁))
    (hpass : passRange env cfg last w₁ = (.ok (), w₂)) :
    recoverDroppedLive env cfg w =
      (.ok (), { w₂ with mem := { w₂.mem with droppedLiveHi := none } }) := by
  have hfill : fillLiveGap env cfg fromBlock last w = (.ok (), w₂) := by
    rw [fillLiveGap, getMem, read_bind, fillFrom_chunk hchunk hgoes hscan hpass,
      fillFrom_done (Nat.lt_succ_self last)]
    rfl
  rw [recoverDroppedLive, getMem, read_bind, id, hspan]
  exact bind_of_ok hfill _

end Fill

/-! ### What is assumed of the node -/

/-- The node of a chain that never changes. -/
structure Source (env : Env) (cfg : Config) (chains : Text → Set Log) (hashes : Nat → Text) :
    Prop where
  start : cfg.contract.fromBlock ≤ u64Max
  canonical : Canonical (chains cfg.chain)
  serves : Serves env fun _ => chains cfg.chain
  tip : ∀ now latest, env.blockNumber now = .ok latest → latest ≤ u64Max
  hash : ∀ now b h, env.blockHash now b = .ok (some h) → Text.eqlIgnoreCase h (hashes b) = true
  cache : cfg.logCacheEnabled = true → ReadsThrough env ∧ RejectsMalformed env

section Specs

variable (chains : Text → Set Log) (hashes : Nat → Text) (cfg : Config)

/-- What the tables say of the chain is true, and the stored cursor is one that can be. -/
structure SoundTables (t : Tables) : Prop where
  caches : cfg.logCacheEnabled = true → CachesSound chains t
  hash : ∀ b h, t.blockHashes cfg.stateKey b = some h → Text.eqlIgnoreCase h (hashes b) = true
  cursor : ∀ s, t.syncState cfg.stateKey = some s →
    cfg.contract.fromBlock ≤ s.lastSyncedBlock ∧ s.lastSyncedBlock ≤ u64Max

/-- Between two pieces. -/
structure Ready (w : World) : Prop where
  quiet : w.Quiet
  sound : SoundTables chains hashes cfg w.db
  start : cfg.contract.fromBlock ≤ w.mem.currentBlock
  cursor : w.mem.currentBlock ≤ u64Max

/-- The log was handed to `processLog`, up to the case of its address. -/
def Handed (w : World) (lg : Log) : Prop := lowered lg ∈ w.handed.map lowered

/-- The log is one that is watched. -/
def Watched (w : World) (lg : Log) : Prop :=
  receiptLogWanted (watchedAddresses cfg w.mem) (topicsOpt cfg) lg = true

instance (w : World) (lg : Log) : Decidable (Watched cfg w lg) :=
  inferInstanceAs (Decidable (_ = _))

/-- Neither cursor has passed the block of the log. -/
structure Ahead (w : World) (lg : Log) : Prop where
  memory : w.mem.currentBlock ≤ lg.blockNumber
  stored : w.db.StoredUpTo cfg.stateKey lg.blockNumber

/-- **What a piece leaves**: a log that was ahead has been handed over or is ahead still, but
for the blocks of `E`. -/
structure Onward (E : Nat → Prop) (w w' : World) : Prop where
  ready : Ready chains hashes cfg w'
  handed : ∀ lg, Handed w lg → Handed w' lg
  watched : ∀ lg, Watched cfg w lg → Watched cfg w' lg
  ahead : ∀ lg ∈ chains cfg.chain, Watched cfg w lg → Ahead cfg w lg →
    Handed w' lg ∨ Ahead cfg w' lg ∨ E lg.blockNumber
  note : w'.mem.droppedLiveHi = w.mem.droppedLiveHi

/-- What is left of it when the process dies. -/
structure Perished (E : Nat → Prop) (w w' : World) : Prop where
  sound : SoundTables chains hashes cfg w'.db
  handed : ∀ lg, Handed w lg → Handed w' lg
  ahead : ∀ lg ∈ chains cfg.chain, Watched cfg w lg → Ahead cfg w lg →
    Handed w' lg ∨ w'.db.StoredUpTo cfg.stateKey lg.blockNumber ∨ E lg.blockNumber

/-- **A piece that moves neither cursor.** -/
structure Stayed (w w' : World) : Prop where
  ready : Ready chains hashes cfg w'
  handed : ∀ lg, Handed w lg → Handed w' lg
  memory : w'.mem.currentBlock = w.mem.currentBlock ∧ w'.mem.templateSet = w.mem.templateSet ∧
    w'.mem.droppedLiveHi = w.mem.droppedLiveHi ∧ w'.mem.replayLimit = w.mem.replayLimit
  stored : w'.db.syncState = w.db.syncState

end Specs

section Lemmas

variable {chains : Text → Set Log} {hashes : Nat → Text} {cfg : Config} {E : Nat → Prop}
  {w w₁ w' : World} {t u : Tables} {lg : Log}

theorem SoundTables.of_eq (h : SoundTables chains hashes cfg t) (hlogs : u.chainLogs = t.chainLogs)
    (hspans : u.chainLogRanges = t.chainLogRanges) (hhashes : u.blockHashes = t.blockHashes)
    (hsync : u.syncState = t.syncState) : SoundTables chains hashes cfg u where
  caches hon := (h.caches hon).congr hlogs hspans
  hash b x hx := h.hash b x (by rwa [hhashes] at hx)
  cursor s hs := h.cursor s (by rwa [hsync] at hs)

theorem Watched.congr (h : w'.mem.templateSet = w.mem.templateSet) :
    Watched cfg w' lg ↔ Watched cfg w lg := by
  unfold Watched watchedAddresses
  rw [h]

theorem storedUpTo_congr {key : Text} {c : Nat} (h : u.syncState = t.syncState)
    (ht : t.StoredUpTo key c) : u.StoredUpTo key c := fun s hs => ht s (by rwa [h] at hs)

theorem Ahead.stayed (h : Ahead cfg w lg) (hs : Stayed chains hashes cfg w w') :
    Ahead cfg w' lg where
  memory := hs.memory.1.trans_le h.memory
  stored := storedUpTo_congr hs.stored h.stored

theorem Stayed.onward (h : Stayed chains hashes cfg w w') : Onward chains hashes cfg E w w' where
  ready := h.ready
  handed := h.handed
  watched _ := (Watched.congr h.memory.2.1).2
  ahead _ _ _ ha := .inr (.inl (ha.stayed h))
  note := h.memory.2.2.1

theorem Stayed.refl (hw : Ready chains hashes cfg w) : Stayed chains hashes cfg w w :=
  ⟨hw, fun _ => id, ⟨rfl, rfl, rfl, rfl⟩, rfl⟩

theorem Stayed.trans (h₁ : Stayed chains hashes cfg w w₁) (h₂ : Stayed chains hashes cfg w₁ w') :
    Stayed chains hashes cfg w w' where
  ready := h₂.ready
  handed lg h := h₂.handed lg (h₁.handed lg h)
  memory := ⟨h₂.memory.1.trans h₁.memory.1, h₂.memory.2.1.trans h₁.memory.2.1,
    h₂.memory.2.2.1.trans h₁.memory.2.2.1, h₂.memory.2.2.2.trans h₁.memory.2.2.2⟩
  stored := h₂.stored.trans h₁.stored

theorem Onward.trans (h₁ : Onward chains hashes cfg E w w₁)
    (h₂ : Onward chains hashes cfg E w₁ w') : Onward chains hashes cfg E w w' where
  ready := h₂.ready
  handed lg h := h₂.handed lg (h₁.handed lg h)
  watched lg h := h₂.watched lg (h₁.watched lg h)
  ahead lg hlg hwatch ha := by
    rcases h₁.ahead lg hlg hwatch ha with h | h | h
    · exact .inl (h₂.handed lg h)
    · exact h₂.ahead lg hlg (h₁.watched lg hwatch) h
    · exact .inr (.inr h)
  note := h₂.note.trans h₁.note

theorem Onward.trans_dead (h₁ : Onward chains hashes cfg E w w₁)
    (h₂ : Perished chains hashes cfg E w₁ w') : Perished chains hashes cfg E w w' where
  sound := h₂.sound
  handed lg h := h₂.handed lg (h₁.handed lg h)
  ahead lg hlg hwatch ha := by
    rcases h₁.ahead lg hlg hwatch ha with h | h | h
    · exact .inl (h₂.handed lg h)
    · exact h₂.ahead lg hlg (h₁.watched lg hwatch) h
    · exact .inr (.inr h)

theorem Onward.mono {E' : Nat → Prop} (h : Onward chains hashes cfg E w w')
    (hE : ∀ b, E b → E' b) : Onward chains hashes cfg E' w w' :=
  { h with
    ahead := fun lg hlg hwatch ha =>
      (h.ahead lg hlg hwatch ha).imp_right (.imp_right (hE _)) }

theorem Perished.mono {E' : Nat → Prop} (h : Perished chains hashes cfg E w w')
    (hE : ∀ b, E b → E' b) : Perished chains hashes cfg E' w w' :=
  { h with
    ahead := fun lg hlg hwatch ha =>
      (h.ahead lg hlg hwatch ha).imp_right (.imp_right (hE _)) }

/-- Nothing has happened yet. -/
theorem Onward.refl (hw : Ready chains hashes cfg w) : Onward chains hashes cfg E w w :=
  (Stayed.refl hw).onward

/-- The pieces that go on. -/
def onward (chains : Text → Set Log) (hashes : Nat → Text) (cfg : Config) (E : Nat → Prop) :
    Frame World where
  rel w w' := Ready chains hashes cfg w → Onward chains hashes cfg E w w'
  dead w w' := Ready chains hashes cfg w → Perished chains hashes cfg E w w'
  refl _ := .refl
  trans h₁ h₂ hw := (h₁ hw).trans (h₂ (h₁ hw).ready)
  trans_dead h₁ h₂ hw := (h₁ hw).trans_dead (h₂ (h₁ hw).ready)

/-- The pieces that stay. -/
def staying (chains : Text → Set Log) (hashes : Nat → Text) (cfg : Config) : Frame World where
  rel w w' := Ready chains hashes cfg w → Stayed chains hashes cfg w w'
  dead w w' := Ready chains hashes cfg w → Perished chains hashes cfg (fun _ => False) w w'
  refl _ := .refl
  trans h₁ h₂ hw := (h₁ hw).trans (h₂ (h₁ hw).ready)
  trans_dead h₁ h₂ hw := (h₁ hw).onward.trans_dead (h₂ (h₁ hw).ready)

theorem onward_of_staying {ε α : Type} {p : Prog World ε α}
    (h : Within (staying chains hashes cfg) p) : Within (onward chains hashes cfg E) p :=
  h.mono (fun _ _ h hw => (h hw).onward) fun _ _ h hw => (h hw).mono fun _ => False.elim

end Lemmas

/-! ### Pieces that stay -/

/-- A record of logs that does not shrink. -/
def growing : Frame (List Log) :=
  .through (fun l l' => l ⊆ l') (fun _ => List.Subset.refl _) fun h₁ h₂ _ hx => h₂ (h₁ hx)

/-- What a piece that stays may change. -/
def stayScope (chains : Text → Set Log) (hashes : Nat → Text) (cfg : Config) : Scope where
  tables := .through
    (fun t u => u.syncState = t.syncState ∧
      (SoundTables chains hashes cfg t → SoundTables chains hashes cfg u))
    (fun _ => ⟨rfl, id⟩) fun h₁ h₂ => ⟨h₂.1.trans h₁.1, h₂.2 ∘ h₁.2⟩
  mem := .keeping fun m => (m.currentBlock, m.templateSet, m.droppedLiveHi, m.replayLimit)
  handed := growing
  requests := .any

/-- A scan, but for the log cache. -/
def scanScope : Scope where
  tables := .keeping fun t => (t.syncState, t.blockHashes)
  mem := .keeping fun m => (m.currentBlock, m.templateSet, m.droppedLiveHi, m.replayLimit)
  handed := growing
  requests := .any

section Staying

variable {env : Env} {chains : Text → Set Log} {hashes : Nat → Text} {cfg : Config}
  {w w' : World}

theorem stayScope_delivers : (stayScope chains hashes cfg).Delivers where
  events _ _ := ⟨rfl, fun h => h.of_eq rfl rfl rfl rfl⟩
  accounts _ _ := ⟨rfl, fun h => h.of_eq rfl rfl rfl rfl⟩
  blocks _ _ := ⟨rfl, fun h => h.of_eq rfl rfl rfl rfl⟩
  callback _ _ _ := ⟨rfl, fun h => h.of_eq rfl rfl rfl rfl⟩
  rawLogs _ _ _ := ⟨rfl, fun h => h.of_eq rfl rfl rfl rfl⟩
  tsCache _ _ := rfl
  handed _ _ := List.subset_append_left _ _

theorem scanScope_syncs : scanScope.Syncs where
  events _ _ := rfl
  accounts _ _ := rfl
  blocks _ _ := rfl
  callback _ _ _ := rfl
  rawLogs _ _ _ := rfl
  tsCache _ _ := rfl
  handed _ _ := List.subset_append_left _ _
  requests _ := trivial
  chainLogs _ _ := rfl
  ranges _ _ := rfl

theorem handed_of_growing {lg : Log} (h : growing.rel w.handed w'.handed) (hlg : Handed w lg) :
    Handed w' lg := by
  obtain ⟨x, hx, heq⟩ := List.mem_map.1 hlg
  exact List.mem_map.2 ⟨x, h hx, heq⟩

/-- A piece within the scope stays. -/
theorem within_staying {ε α : Type} {p : Prog World ε α}
    (h : Within (stayScope chains hashes cfg).frame p) :
    Within (staying chains hashes cfg) p := by
  refine h.mono (fun w w' hrel hw => ?_) fun w w' hrel hw => ?_
  · have htables := Linked.quiet hrel.1.tables hw.quiet
    have hmem : (w'.mem.currentBlock, w'.mem.templateSet, w'.mem.droppedLiveHi,
      w'.mem.replayLimit) = _ := hrel.1.mem
    obtain ⟨hcursor, hset, hnote, hlimit⟩ := by simpa only [Prod.mk.injEq] using hmem
    exact ⟨⟨hrel.2 hw.quiet, htables.2 hw.sound, hcursor ▸ hw.start, hcursor ▸ hw.cursor⟩,
      fun lg => handed_of_growing hrel.1.handed, ⟨hcursor, hset, hnote, hlimit⟩, htables.1⟩
  · have htables := Linked.quiet hrel.1.tables hw.quiet
    exact ⟨htables.2 hw.sound, fun lg => handed_of_growing hrel.1.handed,
      fun lg _ _ ha => .inr (.inl (storedUpTo_congr htables.1 ha.stored))⟩

theorem stays_tick : Within (staying chains hashes cfg) tick := within_staying within_tick

theorem stays_processLog {lg : Log} : Within (staying chains hashes cfg) (processLog env cfg lg) :=
  within_staying (within_processLog stayScope_delivers)

theorem stays_recordFailedLog {lg : Log} {r : Text} :
    Within (staying chains hashes cfg) (recordFailedLog env cfg lg r) :=
  within_staying (within_recordFailedLog stayScope_delivers.toRecords)

theorem stays_retryDeadLetters : Within (staying chains hashes cfg) (retryDeadLetters env cfg) :=
  within_staying (within_retryDeadLetters stayScope_delivers)

theorem stays_setMem {f : Mem → Mem} (h : ∀ m, (f m).currentBlock = m.currentBlock ∧
    (f m).templateSet = m.templateSet ∧ (f m).droppedLiveHi = m.droppedLiveHi ∧
    (f m).replayLimit = m.replayLimit) : Within (staying chains hashes cfg) (setMem f) :=
  within_staying (within_setMem fun m => by
    obtain ⟨h₁, h₂, h₃, h₄⟩ := h m
    change ((f m).currentBlock, (f m).templateSet, (f m).droppedLiveHi, (f m).replayLimit) = _
    rw [h₁, h₂, h₃, h₄])

theorem stays_getMem {α : Type} {f : Mem → α} : Within (staying chains hashes cfg) (getMem f) :=
  within_staying within_getMem

theorem stays_ask {α : Type} {answer : Nat → Outcome Err α} :
    Within (staying chains hashes cfg) (ask answer) := within_staying within_ask

theorem stays_shrinkBatch : Within (staying chains hashes cfg) shrinkBatch :=
  within_bind stays_getMem fun _ => within_ite (fun _ => within_pure _) fun _ =>
    within_bind (stays_setMem fun _ => ⟨rfl, rfl, rfl, rfl⟩) fun _ => within_pure _

theorem stays_shrinkOnLimit (e : Err) : Within (staying chains hashes cfg) (shrinkOnLimit e) :=
  within_when fun _ => within_bind stays_shrinkBatch fun _ => within_pure _

theorem stays_storeBlockMetadata {b : Nat} :
    Within (staying chains hashes cfg) (storeBlockMetadata env cfg b) := by
  refine within_bind stays_ask fun data => ?_
  split
  · exact within_pure _
  · refine within_bind (within_staying (within_guarded (within_execWrite fun t => ?_))) fun _ =>
      within_when fun _ => stays_setMem fun _ => ⟨rfl, rfl, rfl, rfl⟩
    exact ⟨rfl, fun h => h.of_eq rfl rfl rfl rfl⟩

theorem stays_checkSnapshot : Within (staying chains hashes cfg) (checkSnapshot env cfg) := by
  refine within_bind (within_read _) fun now => within_bind stays_getMem fun m => ?_
  refine within_ite (fun _ => within_pure _) fun _ => ?_
  refine within_bind (within_staying (within_guarded (within_execWrite fun t => ?_))) fun _ =>
    stays_setMem fun _ => ⟨rfl, rfl, rfl, rfl⟩
  exact ⟨rfl, fun h => h.of_eq rfl rfl rfl rfl⟩

theorem stays_ignoring {p : M Unit} (h : Within (staying chains hashes cfg) p) :
    Within (staying chains hashes cfg) (ignoring p) :=
  within_catching h fun _ => within_pure _

/-- The hash of a block is the one the chain has. -/
theorem stays_recordBlockHash (hsource : Source env cfg chains hashes) (b : Nat) :
    Within (staying chains hashes cfg) (recordBlockHash env cfg b) := by
  intro w
  rw [recordBlockHash, meets_bind, meets_catching]
  have hticked : (staying chains hashes cfg).rel w w.ticked := by
    refine fun hw => ⟨⟨hw.quiet, hw.sound, hw.start, hw.cursor⟩, fun _ => id, ⟨rfl, rfl, rfl, rfl⟩,
      rfl⟩
  refine meets_ask (fun hash hanswer => ?_) (fun _ _ => hticked) fun _ hw => ?_
  · cases hash with
    | none => exact hticked
    | some h =>
      have hstore : Within (stayScope chains hashes cfg).frame
          (upsertBlockHash env cfg cfg.stateKey b h) := by
        refine within_guarded (within_execWrite fun t => ⟨rfl, fun ht =>
          ⟨fun hon => (ht.caches hon).congr rfl rfl, fun b' x hx => ?_, ht.cursor⟩⟩)
        by_cases hb : b' = b
        · subst hb
          obtain rfl : h = x := by simpa [Tables.putBlockHash] using hx
          exact hsource.hash _ _ _ hanswer
        · exact ht.hash b' x (by simpa [Tables.putBlockHash, Function.update_of_ne hb] using hx)
      exact (stays_ignoring (within_staying hstore)).comp hticked
  · exact ⟨hw.sound, fun _ => id, fun lg _ _ ha => .inr (.inl ha.stored)⟩

end Staying

end Live

end Zponder

import Zponder.Replay
import Zponder.RunLoop
import Zponder.Lib.Machine

/-!
# What a replay leaves behind it

`setReplay` deletes the rows of a window of blocks, puts both cursors on its first block
and starts the run loop again, which goes on from there: to the end of the window, then
over everything behind it that had been scanned before, then on. The upper end is kept in
memory only. A restart forgets it, and since the loop does not stop at it either, nothing
hangs on that.

What does matter is where the window begins. The cursor is put there wherever it was. Behind
it every block has been scanned and has its rows, or nobody will scan it any more
(`Zponder.Window.Full`), and a window that begins ahead of the cursor leaves out the blocks
between the two. A window that ends below the first block of the contract sends the run loop
over blocks that are not the contract's.

Here an indexer is its memory, its stored cursor and its event rows. A scan, a rollback and
the deletion of a replay go through or are broken off, and the run may be restarted between
any two steps.
-/

namespace Zponder

open Imperative Prog Conn

namespace Window

/-! ### The indexer -/

/-- A row of an event table, as it is told from the others. -/
structure Row where
  key : EventKey
  blockNumber : Nat
  deriving DecidableEq, Repr

/-- The event tables of a contract. -/
def tables (cfg : Config) (events : List Text) : List Text :=
  events.map (eventTable cfg.contract.name)

/-- The rows a scan finds in the blocks of the node's chain. -/
structure Chain (cfg : Config) where
  rows : Nat → List Row
  blockNumber_eq : ∀ b, ∀ r ∈ rows b, r.blockNumber = b
  own : ∀ b, ∀ r ∈ rows b, r.key.table ∈ tables cfg cfg.contract.events

variable (cfg : Config)

/-- The chain that is `new` from block `f` on, and was `old` before. -/
def Chain.from {cfg : Config} (f : Nat) (old new : Chain cfg) : Chain cfg where
  rows b := if b < f then old.rows b else new.rows b
  blockNumber_eq b := by
    split
    · exact old.blockNumber_eq b
    · exact new.blockNumber_eq b
  own b := by
    split
    · exact old.own b
    · exact new.own b

/-- An indexer of the contract: its memory, its row in `sync_state`, its event rows and the
chain its node is on. For the reader, the blocks that were scanned, the highest cursor and
the windows that were replayed. -/
structure State where
  mem : Mem
  stored : Option Nat
  rows : List Row
  chain : Chain cfg
  scanned : Nat → Bool
  high : Nat
  windows : List (Nat × Option Nat) := []

/-- How a deletion ends. Where there are no transactions, the rows of the first `n` events
may be gone when it fails. -/
inductive Deletion where
  | done
  | broken (n : Nat)
  deriving DecidableEq, Repr

/-- How a scan ends. One that fails has stored some of its rows. -/
inductive Scan where
  | done
  | failed (stored : List Row) (limit : Bool)
  deriving DecidableEq, Repr

/-- A check of the block under the cursor that finds the chain changed: where it rolls back
to, the chain there is now, and how the deletion ends. -/
structure Fork where
  block : Nat
  chain : Chain cfg
  deletion : Deletion

/-- A request of `handleReplay`, a turn of `runLoop`, or a restart. `exit` and `told` say
whether the cursor could be written. -/
inductive Act where
  | replay (fromBlock toBlock : Nat) (exit : Bool) (deletion : Deletion)
  | turn (tip : Option Nat) (fork : Option (Fork cfg)) (scan : Scan) (told : Bool)
  | restart

variable {cfg}

/-- The events whose rows are gone when a deletion has ended. -/
def Deletion.events (cfg : Config) : Deletion → List Text
  | .done => cfg.contract.events
  | .broken n => if cfg.backend = .rocksdb then cfg.contract.events.take n else []

/-- `deleteEventLogsInRange`, for some events. -/
def deleteRows (cfg : Config) (events : List Text) (fromBlock toBlock : Nat) (rows : List Row) :
    List Row :=
  rows.filter fun r =>
    !((tables cfg events).contains r.key.table && inRange fromBlock toBlock r.blockNumber)

/-- `INSERT OR IGNORE` -/
def insertRows (new rows : List Row) : List Row := rows ++ new.filter (· ∉ rows)

namespace State

/-- The rows of the blocks from `a` to `z`. -/
def fetch (a z : Nat) (s : State cfg) : List Row :=
  (List.range' a (z + 1 - a)).flatMap s.chain.rows

/-- `stop` and `join`: the run loop writes its cursor on its way out. -/
def joined (exit : Bool) (s : State cfg) : State cfg :=
  { s with
    mem := { s.mem with state := .stopped, thread := false }
    stored := if s.mem.thread = true ∧ exit = true then some s.mem.currentBlock else s.stored }

/-- `setReplay` -/
def setReplay (fromBlock toBlock : Nat) (exit : Bool) (deletion : Deletion) (s : State cfg) :
    State cfg :=
  let s : State cfg := s.joined exit
  let rows := deleteRows cfg (deletion.events cfg) fromBlock (deleteTo fromBlock toBlock) s.rows
  match deletion with
  | .broken _ => { s with rows := rows }
  | .done =>
    { s with
      rows := rows
      stored := some fromBlock
      mem := { s.mem.replaying fromBlock toBlock with thread := true }
      high := max s.high fromBlock
      windows := (fromBlock, replayUpper fromBlock toBlock) :: s.windows }

/-- `rollbackTo`, on a chain that has changed. -/
def rollbackTo (k : Fork cfg) (s : State cfg) : State cfg :=
  { s with
    rows := deleteRows cfg (k.deletion.events cfg) k.block u64Max s.rows
    stored := if k.deletion = .done then s.stored.map fun _ => k.block else s.stored
    chain := .from k.block s.chain k.chain
    scanned := fun b => s.scanned b && decide (b < k.block)
    high := min s.high k.block }

/-- `shrinkBatch`, where the node found a range too large. -/
def shrink (limit : Bool) (m : Mem) : Mem :=
  if limit = true ∧ m.batchSize > 1 then { m with batchSize := max (m.batchSize / 2) 1 } else m

/-- A turn that scans. -/
def scanTurn (tip : Nat) (scan : Scan) (told : Bool) (s : State cfg) : State cfg :=
  let toBlock := turnEnd s.mem tip
  let found := s.fetch s.mem.currentBlock toBlock
  match scan with
  | .failed stored limit =>
    { s with rows := insertRows (stored.filter (· ∈ found)) s.rows, mem := shrink limit s.mem }
  | .done =>
    let next := cursorAfterBlock toBlock
    { s with
      rows := insertRows found s.rows
      mem := { s.mem with currentBlock := next }
      stored := if told = true then some next else s.stored
      scanned := fun b => s.scanned b || decide (s.mem.currentBlock ≤ b ∧ b ≤ toBlock)
      high := max s.high next }

/-- The fork a turn finds: the block under the cursor is checked, and only if there is one
of the contract's. -/
def forkFound (fork : Option (Fork cfg)) (s : State cfg) : Option (Fork cfg) :=
  fork.filter fun k =>
    decide (s.mem.currentBlock > cfg.contract.fromBlock ∧ k.block ≤ s.mem.currentBlock - 1)

/-- A turn, from where it knows the end of the chain. -/
def turnAt (tip : Nat) (fork : Option (Fork cfg)) (scan : Scan) (told : Bool) (s : State cfg) :
    State cfg :=
  let s : State cfg := { s with mem := endReplay { s.mem with lastTip := tip } }
  if bridgeNeedsScan s.mem.currentBlock tip = false then { s with mem := endReplayAtTip s.mem }
  else
    match s.forkFound fork with
    | none => s.scanTurn tip scan told
    | some k =>
      if k.block < s.mem.currentBlock - 1 then
        let s : State cfg := s.rollbackTo k
        { s with mem := { s.mem with currentBlock := k.block } }
      else (s.rollbackTo k).scanTurn tip scan told

/-- `init` and `start` -/
def restart (s : State cfg) : State cfg :=
  { s with mem := {
      state := .running
      thread := true
      currentBlock := s.stored.getD cfg.contract.fromBlock
      batchSize := clampBatchSize (cfg.contract.blockBatchSize.getD 500) } }

end State

/-- A step. `handleReplay` refuses a window that begins with block 0, and there is no turn
without a thread. -/
def step (s : State cfg) : Act cfg → Option (State cfg)
  | .replay f b exit deletion => if f = 0 then none else some (s.setReplay f b exit deletion)
  | .turn tip fork scan told =>
    if s.mem.thread = true ∧ (s.mem.state = .running ∨ s.mem.state = .replaying) then
      some (match tip with
        | none => s
        | some tip => s.turnAt tip fork scan told)
    else none
  | .restart => some s.restart

/-- The runs of an indexer, from a state it may be in. -/
def machine (init : State cfg) : Machine (State cfg) (Act cfg) := ⟨init, step⟩

/-! ### What is asked of a run -/

/-- The blocks from `a` up to `n` that are the contract's have been scanned, and their rows
are there. -/
def Full (s : State cfg) (a n : Nat) : Prop :=
  ∀ b, a ≤ b → b < n → cfg.contract.fromBlock ≤ b →
    s.scanned b = true ∧ ∀ r ∈ s.chain.rows b, r ∈ s.rows

/-- No block behind the cursor has been left out. -/
def NoHole (s : State cfg) : Prop := Full s 0 s.mem.currentBlock

/-- Block `b` lies in a window that was replayed. -/
def Replayed (s : State cfg) (b : Nat) : Prop := 
  ∃ w ∈ s.windows, w.1 ≤ b ∧ ∀ u ∈ w.2, b ≤ u

/-- Two indexers on one chain have the same rows in every block both have passed, except
where the first has replayed. A block number fits its column. -/
def AlikeOutside (s t : State cfg) : Prop :=
  s.chain = t.chain → ∀ r : Row, r.blockNumber < s.high → r.blockNumber < t.high →
    r.blockNumber < 2 ^ 63 → ¬Replayed s r.blockNumber → (r ∈ s.rows ↔ r ∈ t.rows)

/-- Behind both cursors nothing is left out. -/
structure Whole (s : State cfg) : Prop where
  memory : NoHole s
  stored : Full s 0 (s.stored.getD cfg.contract.fromBlock)

/-- An indexer to begin with: it has the rows of the blocks its cursors have passed and of no
others. -/
structure Level (s : State cfg) : Prop extends Whole s where
  rows : ∀ r ∈ s.rows, r ∈ s.chain.rows r.blockNumber ∧ cfg.contract.fromBlock ≤ r.blockNumber
  memory_ge : cfg.contract.fromBlock ≤ s.mem.currentBlock
  stored_ge : cfg.contract.fromBlock ≤ s.stored.getD cfg.contract.fromBlock
  high : s.high = max s.mem.currentBlock (s.stored.getD cfg.contract.fromBlock)
  windows : s.windows = []

/-- **A step that keeps to what is asked.** A replay begins no further than everything has
been scanned, and does not end before the contract begins; where it is broken off, no row is
gone. A rollback goes below the block under the cursor, not below the contract's first, and
goes through. -/
def Clean (s : State cfg) : Act cfg → Prop
  | .replay f b _ .done =>
    Full s s.mem.currentBlock f ∧ ∀ u ∈ replayUpper f b, cfg.contract.fromBlock ≤ u + 1
  | .replay f b _ (.broken n) =>
    deleteRows cfg (Deletion.events cfg (.broken n)) f (deleteTo f b) s.rows = s.rows
  | .turn (some tip) fork _ _ =>
    bridgeNeedsScan s.mem.currentBlock tip = true → ∀ k ∈ s.forkFound fork,
      k.block < s.mem.currentBlock - 1 ∧ cfg.contract.fromBlock ≤ k.block ∧ k.deletion = .done
  | .turn none _ _ _ => True
  | .restart => True

/-- The same of an indexer that nobody asks to replay. -/
def Undisturbed (s : State cfg) : Act cfg → Prop
  | .replay _ _ _ _ => False
  | a => Clean s a

/-! ### What a deletion and an insertion leave -/

section Rows

variable {s t : State cfg} {events : List Text} {r : Row} {rows new : List Row} {f b n : Nat}

theorem mem_insertRows : r ∈ insertRows new rows ↔ r ∈ rows ∨ r ∈ new := by
  by_cases hr : r ∈ rows <;> simp [insertRows, hr]

theorem mem_deleteRows : r ∈ deleteRows cfg events f b rows ↔
    r ∈ rows ∧ ¬(r.key.table ∈ tables cfg events ∧ inRange f b r.blockNumber = true) := by
  rw [deleteRows, List.mem_filter]
  cases inRange f b r.blockNumber <;> simp

theorem mem_fetch {a z : Nat} : r ∈ s.fetch a z ↔ a ≤ r.blockNumber ∧ r.blockNumber ≤ z ∧
    r ∈ s.chain.rows r.blockNumber := by
  simp only [State.fetch, List.mem_flatMap, List.mem_range'_1]
  constructor
  · rintro ⟨b, hb, hr⟩
    obtain rfl := s.chain.blockNumber_eq b r hr
    exact ⟨by omega, by omega, hr⟩
  · rintro ⟨ha, hz, hr⟩
    exact ⟨r.blockNumber, by omega, hr⟩

/-- A row below a window stays, -/
theorem mem_deleteRows_of_lt (hr : r ∈ rows) (hlt : r.blockNumber < f) :
    r ∈ deleteRows cfg events f b rows := by
  refine mem_deleteRows.2 ⟨hr, fun h => ?_⟩
  have hle : f ≤ r.blockNumber := by
    have h := h.2
    rw [inRange, Bool.and_eq_true] at h
    exact of_decide_eq_true h.1
  omega

/-- and so does one behind it. -/
theorem mem_deleteRows_of_gt (hr : r ∈ rows) (hfit : r.blockNumber < 2 ^ 63)
    (hout : ¬(f ≤ r.blockNumber ∧ ∀ u ∈ replayUpper f b, r.blockNumber ≤ u)) :
    r ∈ deleteRows cfg events f (deleteTo f b) rows := by
  refine mem_deleteRows.2 ⟨hr, fun h => hout ?_⟩
  have h := h.2
  rw [inRange, Bool.and_eq_true, Bool.or_eq_true, decide_eq_true_eq, decide_eq_true_eq,
    decide_eq_true_eq] at h
  refine ⟨h.1, fun u hu => ?_⟩
  rw [deleteTo, hu, Option.getD_some] at h
  omega

/-- What a rollback leaves is below it. -/
theorem lt_of_mem_deleteRows (hr : r ∈ deleteRows cfg cfg.contract.events f u64Max rows)
    (hown : r.key.table ∈ tables cfg cfg.contract.events) : r.blockNumber < f := by
  by_contra hge
  refine (mem_deleteRows.1 hr).2 ⟨hown, ?_⟩
  rw [inRange, Bool.and_eq_true, Bool.or_eq_true]
  exact ⟨decide_eq_true (Nat.not_lt.1 hge), .inl (by decide)⟩

/-- More blocks scanned and more rows of the same chain. -/
theorem Full.grow {a : Nat} (h : Full s a n)
    (hscanned : ∀ b, s.scanned b = true → t.scanned b = true) (hchain : t.chain = s.chain)
    (hrows : ∀ r ∈ s.rows, r ∈ t.rows) : Full t a n := by
  intro b ha hb hfrom
  obtain ⟨hs, hr⟩ := h b ha hb hfrom
  exact ⟨hscanned b hs, fun r h => hrows r (hr r (by rwa [hchain] at h))⟩

theorem Full.of_le {a n' : Nat} (h : Full s a n) (hle : n' ≤ n) : Full s a n' :=
  fun b ha hb => h b ha (lt_of_lt_of_le hb hle)

end Rows

/-! ### Nothing is left out -/

section NoHole

variable {s : State cfg} {k : Fork cfg} {scan : Scan} {fork : Option (Fork cfg)}
  {f b tip : Nat} {exit told : Bool}

theorem Whole.of_joined (h : Whole s) : Whole (s.joined exit) := by
  refine ⟨h.memory, ?_⟩
  change Full s 0 ((s.joined exit).stored.getD cfg.contract.fromBlock)
  unfold State.joined
  dsimp only
  split
  · exact h.memory
  · exact h.stored

/-- Everything up to the first block of a window is still there when the rows of the window
are gone. -/
theorem Whole.setReplay (h : Whole s) (hf : Full s s.mem.currentBlock f) :
    Whole (s.setReplay f b exit .done) := by
  have hfull : Full (s.setReplay f b exit .done) 0 f := by
    intro c _ hc hfrom
    obtain ⟨hscanned, hrows⟩ : s.scanned c = true ∧ ∀ r ∈ s.chain.rows c, r ∈ s.rows := by
      rcases Nat.lt_or_ge c s.mem.currentBlock with hlt | hge
      · exact h.memory c (Nat.zero_le c) hlt hfrom
      · exact hf c hge hc hfrom
    refine ⟨hscanned, fun r hr => mem_deleteRows_of_lt (hrows r hr) ?_⟩
    rwa [s.chain.blockNumber_eq c r hr]
  exact ⟨hfull, hfull⟩

theorem setReplay_broken {n : Nat}
    (h : deleteRows cfg (Deletion.events cfg (.broken n)) f (deleteTo f b) s.rows = s.rows) :
    s.setReplay f b exit (.broken n) = s.joined exit := by
  unfold State.setReplay
  dsimp only
  rw [show (s.joined exit).rows = s.rows from rfl, h]
  rfl

theorem le_of_lt_cursorAfterBlock {c z : Nat} (h : c < cursorAfterBlock z) : c ≤ z := by
  unfold cursorAfterBlock satAdd at h
  omega

/-- **A turn that scans** leaves nothing out, however the scan ends. -/
theorem Whole.scanTurn (h : Whole s) : Whole (s.scanTurn tip scan told) := by
  cases scan with
  | failed stored limit =>
    have hcursor : (State.shrink limit s.mem).currentBlock = s.mem.currentBlock := by
      unfold State.shrink
      split <;> rfl
    have hgrow : ∀ {n}, Full s 0 n → Full (s.scanTurn tip (.failed stored limit) told) 0 n :=
      fun hn => hn.grow (fun _ hb => hb) rfl fun _ hr => mem_insertRows.2 (.inl hr)
    refine ⟨?_, hgrow h.stored⟩
    have hmem := hgrow h.memory
    rwa [← hcursor] at hmem
  | done =>
    have hgrow : ∀ {n}, Full s 0 n → Full (s.scanTurn tip .done told) 0 n := fun hn =>
      hn.grow (fun _ hb => by simp [State.scanTurn, hb]) rfl fun _ hr => mem_insertRows.2 (.inl hr)
    have hnext : Full (s.scanTurn tip .done told) 0 (cursorAfterBlock (turnEnd s.mem tip)) := by
      intro c hc hlt hfrom
      rcases Nat.lt_or_ge c s.mem.currentBlock with hbehind | hge
      · exact hgrow h.memory c hc hbehind hfrom
      · have hle := le_of_lt_cursorAfterBlock hlt
        refine ⟨by simp [State.scanTurn, hge, hle], fun r hr => mem_insertRows.2 (.inr ?_)⟩
        obtain rfl := s.chain.blockNumber_eq c r hr
        exact mem_fetch.2 ⟨hge, hle, hr⟩
    refine ⟨hnext, ?_⟩
    cases told with
    | true => exact hnext
    | false => exact hgrow h.stored

/-- What lies below a rollback stays. -/
theorem Full.rollbackTo {n : Nat} (h : Full s 0 n) (hn : k.block ≤ n) :
    Full (s.rollbackTo k) 0 k.block := by
  intro c hc hlt hfrom
  obtain ⟨hscanned, hrows⟩ := h c hc (lt_of_lt_of_le hlt hn) hfrom
  refine ⟨by simp [State.rollbackTo, hscanned, hlt], fun r hr => ?_⟩
  have hr' : r ∈ s.chain.rows c := by simpa [State.rollbackTo, Chain.from, hlt] using hr
  exact mem_deleteRows_of_lt (hrows r hr') (by rwa [s.chain.blockNumber_eq c r hr'])

theorem Whole.restart (h : Whole s) : Whole s.restart := ⟨h.stored, h.stored⟩

theorem currentBlock_endReplay (m : Mem) : (endReplay m).currentBlock = m.currentBlock := by
  unfold endReplay
  split <;> rfl

theorem currentBlock_endReplayAtTip (m : Mem) :
    (endReplayAtTip m).currentBlock = m.currentBlock := by
  unfold endReplayAtTip
  split <;> rfl

theorem Whole.of_mem {m : Mem} (h : Whole s) (hm : m.currentBlock = s.mem.currentBlock) :
    Whole { s with mem := m } := by
  refine ⟨?_, h.stored⟩
  have hmem : Full s 0 m.currentBlock := hm ▸ h.memory
  exact hmem

/-- A rollback that puts the cursor back. -/
theorem Whole.back (h : Whole s) (hlt : k.block ≤ s.mem.currentBlock) (hk : k.deletion = .done) :
    Whole { s.rollbackTo k with mem := { s.mem with currentBlock := k.block } } := by
  have hfull : Full (s.rollbackTo k) 0 k.block := h.memory.rollbackTo hlt
  refine ⟨hfull, ?_⟩
  change Full (s.rollbackTo k) 0 ((s.rollbackTo k).stored.getD cfg.contract.fromBlock)
  have hstored : (s.rollbackTo k).stored = s.stored.map fun _ => k.block := if_pos hk
  rw [hstored]
  cases s.stored with
  | none => exact fun c _ hc hfrom => absurd hc (Nat.not_lt.2 hfrom)
  | some _ => exact hfull

/-- The state a turn looks at when it knows the end of the chain. -/
def begun (tip : Nat) (s : State cfg) : State cfg :=
  { s with mem := endReplay { s.mem with lastTip := tip } }

theorem currentBlock_begun : (begun tip s).mem.currentBlock = s.mem.currentBlock :=
  currentBlock_endReplay _

theorem forkFound_begun : (begun tip s).forkFound fork = s.forkFound fork := by
  unfold State.forkFound
  rw [currentBlock_begun]

/-- **What a turn comes to**, if it keeps to what is asked: it rests, it goes back, or it
scans. -/
theorem turnAt_cases (hclean : Clean s (.turn (some tip) fork scan told)) :
    s.turnAt tip fork scan told =
        { begun tip s with mem := endReplayAtTip (begun tip s).mem } ∨
    (∃ k, k.block < s.mem.currentBlock - 1 ∧ cfg.contract.fromBlock ≤ k.block ∧
      k.deletion = .done ∧
      s.turnAt tip fork scan told = { (begun tip s).rollbackTo k with
        mem := { (begun tip s).mem with currentBlock := k.block } }) ∨
    s.mem.currentBlock ≤ tip ∧
      s.turnAt tip fork scan told = (begun tip s).scanTurn tip scan told := by
  have hturn : s.turnAt tip fork scan told =
      if bridgeNeedsScan (begun tip s).mem.currentBlock tip = false then
        { begun tip s with mem := endReplayAtTip (begun tip s).mem }
      else
        match (begun tip s).forkFound fork with
        | none => (begun tip s).scanTurn tip scan told
        | some k =>
          if k.block < (begun tip s).mem.currentBlock - 1 then
            { (begun tip s).rollbackTo k with
              mem := { (begun tip s).mem with currentBlock := k.block } }
          else ((begun tip s).rollbackTo k).scanTurn tip scan told := rfl
  rw [hturn, forkFound_begun, currentBlock_begun]
  by_cases htip : bridgeNeedsScan s.mem.currentBlock tip = false
  · exact .inl (if_pos htip)
  · right
    rw [if_neg htip]
    cases hfork : s.forkFound fork with
    | none => exact .inr ⟨by simpa [bridgeNeedsScan] using htip, rfl⟩
    | some k =>
      obtain ⟨hlt, hfrom, hdone⟩ := hclean (by simpa using htip) k hfork
      exact .inl ⟨k, hlt, hfrom, hdone, if_pos hlt⟩

/-- **A step leaves nothing out.** -/
theorem Whole.step {t : State cfg} {a : Act cfg} (h : Whole s) (hclean : Clean s a)
    (hstep : step s a = some t) : Whole t := by
  cases a with
  | replay f b exit deletion =>
    simp only [Window.step] at hstep
    split at hstep
    · cases hstep
    · obtain rfl := Option.some.inj hstep
      cases deletion with
      | done => exact h.setReplay hclean.1
      | broken n =>
        rw [setReplay_broken hclean]
        exact h.of_joined
  | turn tip fork scan told =>
    simp only [Window.step] at hstep
    split at hstep
    · obtain rfl := Option.some.inj hstep
      cases tip with
      | none => exact h
      | some tip =>
        have hbegun : Whole (begun tip s) := h.of_mem currentBlock_begun
        change Whole (s.turnAt tip fork scan told)
        rcases turnAt_cases hclean with heq | ⟨k, hlt, -, hdone, heq⟩ | ⟨-, heq⟩
        · rw [heq]
          exact hbegun.of_mem (currentBlock_endReplayAtTip _)
        · rw [heq]
          refine hbegun.back ?_ hdone
          rw [currentBlock_begun]
          omega
        · rw [heq]
          exact hbegun.scanTurn
    · cases hstep
  | restart =>
    obtain rfl := Option.some.inj hstep
    exact h.restart

end NoHole

/-! ### Nothing changes outside the windows -/

/-- A cursor may stand at `n`: no further than the highest, and what lies between it and the
first block of the contract is in a window. -/
def Placed (s : State cfg) (n : Nat) : Prop :=
  n ≤ s.high ∧ ∀ b, n ≤ b → b < cfg.contract.fromBlock → b < 2 ^ 63 → Replayed s b

/-- The rows are those of the chain: all of them in the blocks that were passed and not
replayed, and none of a block that is not the contract's. -/
structure Faithful (s : State cfg) : Prop where
  rows : ∀ r ∈ s.rows, r ∈ s.chain.rows r.blockNumber ∧
    (r.blockNumber < 2 ^ 63 → cfg.contract.fromBlock ≤ r.blockNumber ∨ Replayed s r.blockNumber)
  passed : ∀ b, cfg.contract.fromBlock ≤ b → b < s.high → b < 2 ^ 63 → ¬Replayed s b →
    ∀ r ∈ s.chain.rows b, r ∈ s.rows
  memory : Placed s s.mem.currentBlock
  stored : Placed s (s.stored.getD cfg.contract.fromBlock)

section Faithful

variable {s t : State cfg} {k : Fork cfg} {scan : Scan} {fork : Option (Fork cfg)}
  {f b tip : Nat} {exit told : Bool}

theorem Level.faithful (h : Level s) : Faithful s where
  rows r hr := ⟨(h.rows r hr).1, fun _ => .inl (h.rows r hr).2⟩
  passed b hfrom hlt _ _ := by
    rw [h.high, lt_max_iff] at hlt
    rcases hlt with hlt | hlt
    · exact (h.memory b (Nat.zero_le b) hlt hfrom).2
    · exact (h.stored b (Nat.zero_le b) hlt hfrom).2
  memory := ⟨h.high ▸ le_max_left _ _, fun b hb hlt _ => by have := h.memory_ge; omega⟩
  stored := ⟨h.high ▸ le_max_right _ _, fun b hb hlt _ => by have := h.stored_ge; omega⟩

theorem Faithful.of_joined (h : Faithful s) : Faithful (s.joined exit) := by
  refine ⟨h.rows, h.passed, h.memory, ?_⟩
  change Placed s ((s.joined exit).stored.getD cfg.contract.fromBlock)
  unfold State.joined
  dsimp only
  split
  · exact h.memory
  · exact h.stored

theorem Faithful.of_mem {m : Mem} (h : Faithful s) (hm : m.currentBlock = s.mem.currentBlock) :
    Faithful { s with mem := m } := by
  refine ⟨h.rows, h.passed, ?_, h.stored⟩
  have hmem : Placed s m.currentBlock := hm ▸ h.memory
  exact hmem

theorem Faithful.setReplay (h : Faithful s) (hf : Full s s.mem.currentBlock f)
    (hb : ∀ u ∈ replayUpper f b, cfg.contract.fromBlock ≤ u + 1) :
    Faithful (s.setReplay f b exit .done) := by
  have hmono : ∀ {c}, Replayed s c → Replayed (s.setReplay f b exit .done) c := by
    rintro c ⟨w, hw, hc⟩
    exact ⟨w, List.mem_cons_of_mem _ hw, hc⟩
  have hplaced : Placed (s.setReplay f b exit .done) f := by
    refine ⟨le_max_right _ _, fun c hc hlt _ => ⟨_, List.mem_cons_self, hc, fun u hu => ?_⟩⟩
    have := hb u hu
    omega
  refine ⟨fun r hr => ?_, fun c hfrom hlt hfit hout r hr => ?_, hplaced, hplaced⟩
  · obtain ⟨hr, -⟩ := mem_deleteRows.1 hr
    exact ⟨(h.rows r hr).1, fun hfit => ((h.rows r hr).2 hfit).imp_right hmono⟩
  · obtain rfl := s.chain.blockNumber_eq c r hr
    have hhad : r ∈ s.rows := by
      rcases Nat.lt_or_ge r.blockNumber s.high with hlow | hge
      · exact h.passed _ hfrom hlow hfit (fun hc => hout (hmono hc)) r hr
      · refine (hf _ (h.memory.1.trans hge) ?_ hfrom).2 r hr
        exact (lt_max_iff.1 hlt).resolve_left (Nat.not_lt.2 hge)
    exact mem_deleteRows_of_gt hhad hfit fun hin => hout ⟨_, List.mem_cons_self, hin⟩

theorem Faithful.scanTurn (h : Faithful s) (hend : s.mem.currentBlock ≤ turnEnd s.mem tip) :
    Faithful (s.scanTurn tip scan told) := by
  have hfetched : ∀ {r : Row}, r ∈ s.fetch s.mem.currentBlock (turnEnd s.mem tip) →
      r ∈ s.chain.rows r.blockNumber ∧
        (r.blockNumber < 2 ^ 63 →
          cfg.contract.fromBlock ≤ r.blockNumber ∨ Replayed s r.blockNumber) := by
    intro r hr
    obtain ⟨hge, -, hchain⟩ := mem_fetch.1 hr
    refine ⟨hchain, fun hfit => ?_⟩
    rcases Nat.lt_or_ge r.blockNumber cfg.contract.fromBlock with hlt | hfrom
    · exact .inr (h.memory.2 _ hge hlt hfit)
    · exact .inl hfrom
  cases scan with
  | failed stored limit =>
    have hcursor : (State.shrink limit s.mem).currentBlock = s.mem.currentBlock := by
      unfold State.shrink
      split <;> rfl
    refine ⟨fun r hr => ?_, fun c hfrom hlt hfit hout r hr => ?_, ?_, h.stored⟩
    · rcases mem_insertRows.1 hr with hr | hr
      · exact h.rows r hr
      · exact hfetched (of_decide_eq_true (List.mem_filter.1 hr).2)
    · exact mem_insertRows.2 (.inl (h.passed c hfrom hlt hfit hout r hr))
    · change Placed s (State.shrink limit s.mem).currentBlock
      exact hcursor ▸ h.memory
  | done =>
    have hplaced : ∀ {n}, Placed s n → Placed (s.scanTurn tip .done told) n :=
      fun hn => ⟨hn.1.trans (le_max_left _ _), hn.2⟩
    have hnext : Placed (s.scanTurn tip .done told) (cursorAfterBlock (turnEnd s.mem tip)) := by
      refine ⟨le_max_right _ _, fun c hc hlt hfit => h.memory.2 c ?_ hlt hfit⟩
      unfold cursorAfterBlock satAdd u64Max at hc
      omega
    refine ⟨fun r hr => ?_, fun c hfrom hlt hfit hout r hr => ?_, hnext, ?_⟩
    · rcases mem_insertRows.1 hr with hr | hr
      · exact h.rows r hr
      · exact hfetched hr
    · obtain rfl := s.chain.blockNumber_eq c r hr
      rcases Nat.lt_or_ge r.blockNumber s.high with hlow | hge
      · exact mem_insertRows.2 (.inl (h.passed _ hfrom hlow hfit hout r hr))
      · have hbehind := (lt_max_iff.1 hlt).resolve_left (Nat.not_lt.2 hge)
        exact mem_insertRows.2 (.inr (mem_fetch.2
          ⟨h.memory.1.trans hge, le_of_lt_cursorAfterBlock hbehind, hr⟩))
    · cases told with
      | true => exact hnext
      | false => exact hplaced h.stored

theorem Faithful.back (h : Faithful s) (hlt : k.block ≤ s.mem.currentBlock)
    (hfrom : cfg.contract.fromBlock ≤ k.block) (hk : k.deletion = .done) :
    Faithful { s.rollbackTo k with mem := { s.mem with currentBlock := k.block } } := by
  have hplaced : Placed (s.rollbackTo k) k.block :=
    ⟨le_min (hlt.trans h.memory.1) le_rfl, fun c hc hlt _ => by omega⟩
  have hrows : (s.rollbackTo k).rows =
      deleteRows cfg cfg.contract.events k.block u64Max s.rows := by
    rw [State.rollbackTo, hk, Deletion.events]
  have hbelow : ∀ c, c < k.block → (s.rollbackTo k).chain.rows c = s.chain.rows c :=
    fun c hc => if_pos hc
  refine ⟨fun r hr => ?_, fun c hge hlow hfit hout r hr => ?_, hplaced, ?_⟩
  · rw [hrows] at hr
    obtain ⟨hhad, hchain⟩ := And.intro (mem_deleteRows.1 hr).1 (h.rows r (mem_deleteRows.1 hr).1)
    have hr' : r.blockNumber < k.block :=
      lt_of_mem_deleteRows hr (s.chain.own _ r hchain.1)
    refine ⟨?_, hchain.2⟩
    change r ∈ (s.rollbackTo k).chain.rows r.blockNumber
    rw [hbelow _ hr']
    exact hchain.1
  · obtain ⟨hhigh, hc⟩ := lt_min_iff.1 hlow
    have hr : r ∈ s.chain.rows c := by
      rw [← hbelow c hc]
      exact hr
    change r ∈ (s.rollbackTo k).rows
    rw [hrows]
    refine mem_deleteRows_of_lt (h.passed c hge hhigh hfit hout r hr) ?_
    rwa [s.chain.blockNumber_eq c r hr]
  · have hstored : (s.rollbackTo k).stored = s.stored.map fun _ => k.block := if_pos hk
    change Placed (s.rollbackTo k) ((s.rollbackTo k).stored.getD cfg.contract.fromBlock)
    rw [hstored]
    cases s.stored with
    | none => exact ⟨hfrom.trans hplaced.1, fun c hc hlt => absurd hlt (Nat.not_lt.2 hc)⟩
    | some _ => exact hplaced

/-- The range a turn scans begins at the cursor, since the limit of a replay that has passed
it is lifted first. -/
theorem le_turnEnd_begun (htip : s.mem.currentBlock ≤ tip) :
    (begun tip s).mem.currentBlock ≤ turnEnd (begun tip s).mem tip := by
  have hchunk := (inclusiveChunkEnd_bounds (n := (begun tip s).mem.batchSize) htip).1
  rw [← currentBlock_begun] at hchunk
  unfold turnEnd
  dsimp only
  split
  · next hlimit =>
    refine le_min hchunk ?_
    by_contra hgt
    refine hlimit ?_
    unfold begun endReplay at hgt ⊢
    dsimp only at hgt ⊢
    split
    · rfl
    · next hkeep =>
      rw [if_neg hkeep] at hgt
      have hkeep' := not_and_or.1 hkeep
      refine hkeep'.elim (fun h => not_not.1 h) fun h => absurd (Nat.lt_of_not_le hgt) h
  · exact hchunk

/-- **A step keeps to the chain.** -/
theorem Faithful.step {a : Act cfg} (h : Faithful s) (hclean : Clean s a)
    (hstep : step s a = some t) : Faithful t := by
  cases a with
  | replay f b exit deletion =>
    simp only [Window.step] at hstep
    split at hstep
    · cases hstep
    · obtain rfl := Option.some.inj hstep
      cases deletion with
      | done => exact h.setReplay hclean.1 hclean.2
      | broken n =>
        rw [setReplay_broken hclean]
        exact h.of_joined
  | turn tip fork scan told =>
    simp only [Window.step] at hstep
    split at hstep
    · obtain rfl := Option.some.inj hstep
      cases tip with
      | none => exact h
      | some tip =>
        have hbegun : Faithful (begun tip s) := h.of_mem currentBlock_begun
        change Faithful (s.turnAt tip fork scan told)
        rcases turnAt_cases hclean with heq | ⟨k, hlt, hfrom, hdone, heq⟩ | ⟨htip, heq⟩
        · rw [heq]
          exact hbegun.of_mem (currentBlock_endReplayAtTip _)
        · rw [heq]
          refine hbegun.back ?_ hfrom hdone
          rw [currentBlock_begun]
          omega
        · rw [heq]
          exact hbegun.scanTurn (le_turnEnd_begun htip)
    · cases hstep
  | restart =>
    obtain rfl := Option.some.inj hstep
    exact ⟨h.rows, h.passed, h.stored, h.stored⟩

end Faithful

/-! ### A request, statement by statement -/

section Shows

variable {env : Env} {s : State cfg} {w : World} {t : Tables} {events : List Text} {f b : Nat}

/-- The row of an event table without its fields. -/
def rowOf (r : EventRow) : Row := ⟨r.key, r.blockNumber⟩

/-- What a world looks like from here. -/
structure Shows (s : State cfg) (w : World) : Prop where
  mem : w.mem = s.mem
  stored : storedCursor cfg w.db = s.stored
  rows : w.db.events.map rowOf = s.rows

theorem map_rowOf_clearEvents :
    (clearEvents cfg.contract.name events f b t).events.map rowOf =
      deleteRows cfg events f b (t.events.map rowOf) := by
  rw [clearEvents_eq, deleteRows, List.filter_map]
  refine congrArg (List.map rowOf) (List.filter_congr fun r _ => ?_)
  rw [Bool.eq_iff_iff, Function.comp_apply, Bool.not_eq_true', Bool.not_eq_true',
    Bool.and_eq_false_iff, Bool.and_eq_false_iff, decide_eq_false_iff_not, List.contains_eq_mem,
    decide_eq_false_iff_not]
  rfl

/-- Where there are no transactions, the events that are gone are the first ones. -/
theorem exists_clearedEvents (env : Env) (cfg : Config) (now : Nat) : ∃ n,
    clearedEvents env cfg now cfg.contract.events = Deletion.events cfg (.broken n) := by
  simp only [clearedEvents, Deletion.events]
  split
  · exact ⟨_, List.prefix_iff_eq_take.1 (List.takeWhile_prefix _)⟩
  · exact ⟨0, rfl⟩

/-- Joining the thread changes nothing but the memory and the cursor. -/
theorem shows_joined (env : Env) (hs : Shows s w) :
    Shows (s.joined (decide (env.fault w.now .upsertSyncState = .none))) (joined env cfg w) := by
  obtain ⟨u, hu⟩ := joined_db env cfg w
  refine ⟨?_, ?_, ?_⟩
  · simp only [joined, State.joined, hs.mem]
  · simp only [State.joined, ← hs.mem, ← hs.stored, decide_eq_true_eq]
    split
    · next h =>
      rw [joined_db_of h]
      simp [storedCursor, Tables.putSyncState]
    · next h => rw [joined_db_of_not h]
  · rw [hu]
    exact hs.rows

/-- **`setReplay` is what it is taken for here**, whether its deletion goes through or not. -/
theorem meets_requestReplay_shows (hw : w.Quiet) (hs : Shows s w) (f b : Nat) :
    Meets (requestReplay env cfg true f b) w
      ⟨fun _ w' => Shows (s.setReplay f b (decide (env.fault w.now .upsertSyncState = .none))
          .done) w',
        fun _ w' => ∃ n, Shows (s.setReplay f b
          (decide (env.fault w.now .upsertSyncState = .none)) (.broken n)) w',
        fun _ => True⟩ := by
  have hj := shows_joined env hs
  simp only [requestReplay, prepareReplay, meets_bind, meets_catching, setMem, meets_modify]
  refine (meets_stopAndJoin hw).mono ?_ (fun _ _ h => h.elim) fun _ _ => trivial
  rintro _ w₁ rfl
  refine (meets_resetForReplay (w := joined env cfg w) rfl _ _ _ _ _).mono ?_ ?_ fun _ _ => trivial
  · rintro _ w₂ ⟨hconn, hmem⟩
    have hdb : w₂.db = reset env cfg (joined env cfg w).now cfg.stateKey cfg.contract.name
        cfg.contract.events f (deleteTo f b) (joined env cfg w).db := congrArg _ hconn
    rw [reset_eq] at hdb
    refine ⟨?_, ?_, ?_⟩
    · simp only [hmem, hj.mem]
      rfl
    · change storedCursor cfg w₂.db = some f
      rw [hdb]
      simp [storedCursor, Tables.putSyncState]
    · change w₂.db.events.map rowOf = deleteRows cfg cfg.contract.events f (deleteTo f b) s.rows
      rw [hdb, show s.rows = (s.joined (decide (env.fault w.now .upsertSyncState = .none))).rows
        from rfl, ← hj.rows]
      exact map_rowOf_clearEvents
  · rintro e w₂ ⟨hconn, hmem⟩
    obtain ⟨n, hn⟩ := exists_clearedEvents env cfg (joined env cfg w).now
    have hdb : w₂.db = clearEvents cfg.contract.name (Deletion.events cfg (.broken n)) f
        (deleteTo f b) (joined env cfg w).db := hn ▸ congrArg _ hconn
    refine ⟨n, hmem.trans hj.mem, ?_, ?_⟩
    · refine Eq.trans ?_ hj.stored
      rw [hdb, clearEvents_eq]
      rfl
    · change w₂.db.events.map rowOf = deleteRows cfg _ f (deleteTo f b) s.rows
      rw [hdb, show s.rows = (s.joined (decide (env.fault w.now .upsertSyncState = .none))).rows
        from rfl, ← hj.rows]
      exact map_rowOf_clearEvents

end Shows

/-! ### The runs -/

section Runs

variable {init s t : State cfg}

theorem Undisturbed.clean {a : Act cfg} (h : Undisturbed s a) : Clean s a := by
  cases a with
  | replay f b exit deletion => exact h.elim
  | turn tip fork scan told => exact h
  | restart => trivial

theorem windows_step {a : Act cfg} (h : Undisturbed s a) (hstep : step s a = some t) :
    t.windows = s.windows := by
  cases a with
  | replay f b exit deletion => exact h.elim
  | turn tip fork scan told =>
    simp only [step] at hstep
    split at hstep
    · obtain rfl := Option.some.inj hstep
      cases tip with
      | none => rfl
      | some tip =>
        change (s.turnAt tip fork scan told).windows = s.windows
        rcases turnAt_cases h.clean with heq | ⟨k, -, -, -, heq⟩ | ⟨-, heq⟩
        · rw [heq]
          rfl
        · rw [heq]
          rfl
        · rw [heq]
          cases scan <;> rfl
    · cases hstep
  | restart =>
    obtain rfl := Option.some.inj hstep
    rfl

/-- Two indexers that keep to one chain have the same rows wherever both have been and
neither has replayed. -/
theorem Faithful.alikeOutside (hs : Faithful s) (ht : Faithful t) (hnone : t.windows = []) :
    AlikeOutside s t := by
  intro hchain r hlow hlow' hfit hout
  have hout' : ¬Replayed t r.blockNumber := by
    rintro ⟨w, hw, -⟩
    rw [hnone] at hw
    cases hw
  constructor
  · intro hr
    obtain ⟨hrow, hfrom⟩ := hs.rows r hr
    exact ht.passed _ ((hfrom hfit).resolve_right hout) hlow' hfit hout' r (hchain ▸ hrow)
  · intro hr
    obtain ⟨hrow, hfrom⟩ := ht.rows r hr
    exact hs.passed _ ((hfrom hfit).resolve_right hout') hlow hfit hout r (hchain ▸ hrow)

end Runs

/-! ### A window ahead of the cursor -/

/-- A contract with one event, -/
def pingConfig : Config :=
  { plainConfig with contract := { plainConfig.contract with events := ["Ping".toList] } }

/-- its one row, -/
def ping : Row := ⟨⟨eventTable "c".toList "Ping".toList, "0xAA".toList, "0x1".toList, 0⟩, 7⟩

/-- and the chain it is on. -/
def pingChain : Chain pingConfig where
  rows b := if b = 7 then [ping] else []
  blockNumber_eq b r hr := by
    split at hr
    · next hb =>
      obtain rfl := List.mem_singleton.1 hr
      exact hb.symm
    · cases hr
  own b r hr := by
    split at hr
    · obtain rfl := List.mem_singleton.1 hr
      exact List.mem_cons_self
    · cases hr

/-- An indexer that has come to block 5. -/
def atFive : State pingConfig where
  mem := { state := .running, thread := true, currentBlock := 5 }
  stored := some 5
  rows := []
  chain := pingChain
  scanned b := decide (b < 5)
  high := 5

theorem level_atFive : Level atFive where
  memory b _ hb _ := by
    refine ⟨decide_eq_true hb, fun r hr => ?_⟩
    have hne : b ≠ 7 := by
      have : b < 5 := hb
      omega
    rw [show atFive.chain.rows b = [] from if_neg hne] at hr
    cases hr
  stored b _ hb _ := by
    refine ⟨decide_eq_true hb, fun r hr => ?_⟩
    have hne : b ≠ 7 := by
      have : b < 5 := hb
      omega
    rw [show atFive.chain.rows b = [] from if_neg hne] at hr
    cases hr
  rows _ hr := by cases hr
  memory_ge := Nat.zero_le _
  stored_ge := Nat.zero_le _
  high := rfl
  windows := rfl

end Window

end Zponder

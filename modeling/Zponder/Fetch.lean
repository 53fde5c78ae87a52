import Zponder.ProcessLog

/-!
# Fetching the logs of a range

`pullUncached` asks the node for the logs of a block range and processes them; when
the node's answer may be cut off, it keeps what is certain and splits the rest: the
block range (by an error its caller answers with a smaller batch), then the
addresses, then the topics, and at last it reads the receipts of the block. The
answers to a split of the topics are collected by `appendBlockLogs` before any of
them is processed.

Both recursions halve a list that has at least two elements, which is what
terminates them.
-/

namespace Zponder

open Imperative

/-! ### Pages -/

/-- The part of an answer that is kept, the block it is complete up to, and whether
anything was cut off. -/
structure LogPage where
  kept : List Log
  endBlock : Nat
  truncated : Bool
  deriving DecidableEq, Repr

/-- `cutLogPage` -/
def cutLogPage (logs : List Log) (fromBlock toBlock : Nat) : LogPage :=
  let sorted := sortLogs logs
  let maxBlock := sorted.foldl (fun m lg => max m lg.blockNumber) fromBlock
  match pageEnd fromBlock toBlock maxBlock sorted.length getlogsPageLimit with
  | none => ⟨[], fromBlock, true⟩
  | some e =>
    if sorted.length < getlogsPageLimit then ⟨sorted, e, false⟩
    else ⟨sorted.takeWhile fun lg => lg.blockNumber ≤ e, e, true⟩

/-- `splitAddressCount` -/
def splitAddressCount (addressCount fromBlock toBlock : Nat) : Option Nat :=
  if fromBlock ≠ toBlock ∨ addressCount < 2 then none else some (addressCount / 2)

/-- `splitTopicCount` -/
def splitTopicCount (topicCount fromBlock toBlock : Nat) : Option Nat :=
  if fromBlock ≠ toBlock ∨ topicCount < 2 then none else some (topicCount / 2)

/-- The two halves of a list of topics, where there is one to split. -/
def splitTopicList (topics : Option (List Text)) (fromBlock toBlock : Nat) :
    Option (List Text × List Text) := do
  let list ← topics
  let mid ← splitTopicCount list.length fromBlock toBlock
  some (list.take mid, list.drop mid)

theorem splitAddressCount_lt {n f t mid : Nat} (h : splitAddressCount n f t = some mid) :
    f = t ∧ 0 < mid ∧ mid < n := by
  unfold splitAddressCount at h
  split at h
  · cases h
  · obtain rfl := Option.some.inj h
    omega

/-- The halves make up the whole, and both are shorter. -/
theorem splitTopicList_eq {topics : Option (List Text)} {f t : Nat} {first second : List Text}
    (h : splitTopicList topics f t = some (first, second)) :
    f = t ∧ topics = some (first ++ second) ∧ first ≠ [] ∧ second ≠ [] := by
  obtain _ | list := topics
  · cases h
  · unfold splitTopicList splitTopicCount at h
    simp only [Option.bind_eq_bind, Option.bind_some] at h
    split at h
    · cases h
    · next hlen =>
      simp only [Option.bind_some, Option.some.injEq, Prod.mk.injEq] at h
      obtain ⟨rfl, rfl⟩ := h
      refine ⟨by omega, by rw [List.take_append_drop], ?_, ?_⟩
      · rw [ne_eq, List.take_eq_nil_iff]
        rintro (h | h)
        · omega
        · simp [h] at hlen
      · rw [ne_eq, List.drop_eq_nil_iff]
        omega

theorem length_take_lt {as : List Text} {f t mid : Nat}
    (h : splitAddressCount as.length f t = some mid) : (as.take mid).length < as.length := by
  have := splitAddressCount_lt h
  rw [List.length_take]
  omega

theorem length_drop_lt {as : List Text} {f t mid : Nat}
    (h : splitAddressCount as.length f t = some mid) : (as.drop mid).length < as.length := by
  have := splitAddressCount_lt h
  rw [List.length_drop]
  omega

/-- How many topics a filter has. -/
def topicCount (topics : Option (List Text)) : Nat := (topics.getD []).length

theorem topicCount_lt {topics : Option (List Text)} {f t : Nat} {first second : List Text}
    (h : splitTopicList topics f t = some (first, second)) :
    topicCount (some first) < topicCount topics ∧ topicCount (some second) < topicCount topics := by
  obtain ⟨-, rfl, hne₁, hne₂⟩ := splitTopicList_eq h
  have := List.length_pos_iff.2 hne₁
  have := List.length_pos_iff.2 hne₂
  simp only [topicCount, Option.getD_some, List.length_append]
  omega

/-- **Induction over the splitting**: what holds of a request as soon as it holds of
the halves it may be split into holds of every request. -/
theorem split_induction {P : List Text → Option (List Text) → Prop} (f t : Nat)
    (step : ∀ addresses topics,
      (∀ mid, splitAddressCount addresses.length f t = some mid →
        P (addresses.take mid) topics ∧ P (addresses.drop mid) topics) →
      (∀ first second, splitTopicList topics f t = some (first, second) →
        P addresses (some first) ∧ P addresses (some second)) →
      P addresses topics) (addresses : List Text) (topics : Option (List Text)) :
    P addresses topics :=
  step addresses topics
    (fun mid _h => ⟨split_induction f t step (addresses.take mid) topics,
      split_induction f t step (addresses.drop mid) topics⟩)
    fun first second _h => ⟨split_induction f t step addresses (some first),
      split_induction f t step addresses (some second)⟩
termination_by addresses.length + topicCount topics
decreasing_by
  · have := length_take_lt _h
    omega
  · have := length_drop_lt _h
    omega
  · have := topicCount_lt _h
    omega
  · have := topicCount_lt _h
    omega

/-- `makeLogFilter`: nothing is asked for no address, which a node would take for
every address. -/
def makeLogFilter (addresses : List Text) (topics : Option (List Text))
    (fromBlock toBlock : Nat) : Option LogFilter :=
  if addresses = [] then none else some ⟨addresses, topics, fromBlock, toBlock⟩

/-- `topic0Allowed` -/
def topic0Allowed (filter : Option (List Text)) (topics : List Text) : Bool :=
  match filter with
  | none => true
  | some [] => true
  | some want =>
    match topics with
    | [] => false
    | topic0 :: _ => want.any fun t => Text.eqlIgnoreCase t topic0

/-- `receiptLogWanted` -/
def receiptLogWanted (addresses : List Text) (topics : Option (List Text)) (lg : Log) : Bool :=
  (addresses.any fun want => Text.eqlIgnoreCase want lg.address) && topic0Allowed topics lg.topics

section Fetch

variable (env : Env) (cfg : Config)

/-- `buildEventTopics`: the topics of the configured events the ABI knows. -/
def buildEventTopics : List Text :=
  match cfg.abi with
  | none => []
  | some ac => cfg.contract.events.filterMap fun name =>
    (ac.findEventByName name).map fun evt => "0x".toList ++ Text.bytesToHex evt.signature

/-- `rpc.getLogs` -/
def getLogs (filter : LogFilter) : M (List Log) := askLogs fun t => env.getLogs t filter

/-- `loadBlockReceipts` -/
def loadBlockReceipts (addresses : List Text) (topics : Option (List Text)) (block : Nat) :
    M (List Log) := do
  let logs ← askLogs fun t => env.blockReceipts t block
  pure (logs.filter fun lg =>
    decide (lg.blockNumber = block) && receiptLogWanted addresses topics lg)

/-- `consumeReceiptBlock` -/
def consumeReceiptBlock (addresses : List Text) (topics : Option (List Text)) (block : Nat) :
    M Unit := do
  let via ← loadBlockReceipts env addresses topics block
  processFetchedLogs env cfg via

/-- `appendReceiptLogs` -/
def appendReceiptLogs (addresses : List Text) (topics : Option (List Text)) (block : Nat) :
    M (List Log) :=
  loadBlockReceipts env addresses topics block

/-- `appendBlockLogs`: what it appends. -/
def appendBlockLogs (addresses : List Text) (topics : Option (List Text))
    (fromBlock toBlock : Nat) : M (List Log) :=
  match makeLogFilter addresses topics fromBlock toBlock with
  | none => pure []
  | some filter => do
    let answer ← Prog.attempt (getLogs env filter)
    match answer with
    | .error e =>
      if e = .rpcLimitExceeded ∧ fromBlock = toBlock then
        appendReceiptLogs env addresses topics fromBlock
      else Prog.throw e
    | .ok logs =>
      let page := cutLogPage logs fromBlock toBlock
      if page.truncated = true ∧ page.kept = [] then
        match _h : splitAddressCount addresses.length fromBlock toBlock with
        | some mid => do
          let first ← appendBlockLogs (addresses.take mid) topics fromBlock toBlock
          let second ← appendBlockLogs (addresses.drop mid) topics fromBlock toBlock
          pure (first ++ second)
        | none =>
          match _h : splitTopicList topics fromBlock toBlock with
          | some (list₁, list₂) => do
            let first ← appendBlockLogs addresses (some list₁) fromBlock toBlock
            let second ← appendBlockLogs addresses (some list₂) fromBlock toBlock
            pure (first ++ second)
          | none =>
            if fromBlock = toBlock then appendReceiptLogs env addresses topics fromBlock
            else Prog.throw .rpcLimitExceeded
      else if page.truncated = true then Prog.throw .rpcLimitExceeded
      else pure page.kept
termination_by addresses.length + topicCount topics
decreasing_by
  · have := length_take_lt _h
    omega
  · have := length_drop_lt _h
    omega
  · have := topicCount_lt _h
    omega
  · have := topicCount_lt _h
    omega

/-- `pullUncached` -/
def pullUncached (addresses : List Text) (topics : Option (List Text))
    (fromBlock toBlock : Nat) : M Unit :=
  match makeLogFilter addresses topics fromBlock toBlock with
  | none => pure ()
  | some filter => do
    let answer ← Prog.attempt (getLogs env filter)
    match answer with
    | .error e =>
      if e = .rpcLimitExceeded ∧ fromBlock = toBlock then
        consumeReceiptBlock env cfg addresses topics fromBlock
      else Prog.throw e
    | .ok logs =>
      let page := cutLogPage logs fromBlock toBlock
      if page.truncated = true ∧ page.kept = [] then
        match _h : splitAddressCount addresses.length fromBlock toBlock with
        | some mid => do
          pullUncached (addresses.take mid) topics fromBlock toBlock
          pullUncached (addresses.drop mid) topics fromBlock toBlock
        | none =>
          match splitTopicList topics fromBlock toBlock with
          | some (list₁, list₂) => do
            let first ← appendBlockLogs env addresses (some list₁) fromBlock toBlock
            let second ← appendBlockLogs env addresses (some list₂) fromBlock toBlock
            processFetchedLogs env cfg (first ++ second)
          | none =>
            if fromBlock = toBlock then consumeReceiptBlock env cfg addresses topics fromBlock
            else Prog.throw .rpcLimitExceeded
      else do
        processFetchedLogs env cfg page.kept
        Prog.when (page.truncated = true) (Prog.throw .rpcLimitExceeded)
termination_by addresses.length
decreasing_by
  · exact length_take_lt _h
  · exact length_drop_lt _h

end Fetch

end Zponder

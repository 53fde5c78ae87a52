import Zponder.Schema

/-!
# Block ranges

Everything the indexer computes about closed block ranges before it asks a node or
touches a table: how far a batch reaches, which blocks a live log has jumped over,
how far a truncated page can be trusted, how the ranges of the log cache are merged
and what they leave uncovered.

Block numbers are `u64`s. They are natural numbers here, with `u64Max` for the
largest, and the two places where the code adds to one (`+|`) saturate.

For the merged ranges and the holes only the *sets of blocks* matter to the rest of
the development, and those are what the two theorems of this file are about:
`Zponder.covers_mergeSpans` (merging changes no block's coverage) and
`Zponder.covers_or_mem_uncovered` (a block of the range that is in no hole is
covered).
-/

namespace Zponder

/-- The largest `u64`. -/
def u64Max : Nat := 2 ^ 64 - 1

/-- `a +| b`. On a `u64` the first maximum changes nothing; it keeps the sum from falling
below a number that is none. -/
def satAdd (a b : Nat) : Nat := max a (min (a + b) u64Max)

/-! ### The steps of a scan -/

/-- `clampBatchSize` -/
def clampBatchSize (raw : Nat) : Nat := max 1 raw

/-- `clampAddressBatch` -/
def clampAddressBatch (raw : Nat) : Nat := max 1 raw

/-- `addressChunkAt`: the `index`-th chunk of a list of addresses, half open. No list
is so long that the source's saturating arithmetic would show. -/
def addressChunkAt (len maxRaw index : Nat) : Option (Nat × Nat) :=
  let max := clampAddressBatch maxRaw
  let start := index * max
  if start ≥ len then none else some (start, min (start + max) len)

/-- The chunks from the `index`-th on, up to the first that is past the end. -/
def addressChunksFrom (len maxRaw index : Nat) : List (Nat × Nat) :=
  match h : addressChunkAt len maxRaw index with
  | none => []
  | some chunk => chunk :: addressChunksFrom len maxRaw (index + 1)
termination_by len - index * clampAddressBatch maxRaw
decreasing_by
  simp only [addressChunkAt] at h
  split at h
  · cases h
  · rw [Nat.succ_mul]
    have : 1 ≤ clampAddressBatch maxRaw := Nat.le_max_left 1 maxRaw
    omega

theorem addressChunksFrom_none {len maxRaw i : Nat} (h : addressChunkAt len maxRaw i = none) :
    addressChunksFrom len maxRaw i = [] := by
  rw [addressChunksFrom]
  split
  · rfl
  · next h' => cases h.symm.trans h'

theorem addressChunksFrom_some {len maxRaw i : Nat} {b : Nat × Nat}
    (h : addressChunkAt len maxRaw i = some b) :
    addressChunksFrom len maxRaw i = b :: addressChunksFrom len maxRaw (i + 1) := by
  conv_lhs => rw [addressChunksFrom]
  split
  · next h' => cases h.symm.trans h'
  · next b' h' => rw [Option.some.inj (h.symm.trans h')]

/-- `inclusiveChunkEnd` -/
def inclusiveChunkEnd (fromBlock batchSize tip : Nat) : Nat :=
  min (satAdd fromBlock (clampBatchSize batchSize - 1)) tip

/-- `nextLiveChunkEnd` -/
def nextLiveChunkEnd (fromBlock batchSize toBlock : Nat) : Option Nat :=
  if fromBlock > toBlock then none else some (inclusiveChunkEnd fromBlock batchSize toBlock)

/-- `computeBackfillRange`: half open, `(0, 0)` when there is nothing to scan. -/
def computeBackfillRange (discoveredAtBlock currentCursor : Nat) : Nat × Nat :=
  if discoveredAtBlock ≥ currentCursor then (0, 0) else (discoveredAtBlock, currentCursor)

/-- `backfillLast` -/
def backfillLast (toExclusive : Nat) : Nat := toExclusive - 1

/-- `nextBackfillChunk`: the next closed range of a half-open one. -/
def nextBackfillChunk (fromBlock batchSize toExclusive : Nat) : Option (Nat × Nat) :=
  if fromBlock ≥ toExclusive then none
  else
    some (fromBlock, min (satAdd fromBlock (clampBatchSize batchSize - 1)) (backfillLast toExclusive))

/-- `liveLogGap` -/
def liveLogGap (cursor blockNumber : Nat) : Option (Nat × Nat) :=
  if blockNumber ≤ cursor then none else some (cursor, blockNumber - 1)

/-- `droppedLiveRescan` -/
def droppedLiveRescan (cursor : Nat) (droppedHi : Option Nat) : Option (Nat × Nat) :=
  match droppedHi with
  | none => none
  | some hi => if hi < cursor then none else some (cursor, hi)

/-- `liveSyncedBlock` -/
def liveSyncedBlock (cursor blockNumber : Nat) : Option Nat :=
  if blockNumber < cursor then none else some blockNumber

/-- `bridgeNeedsScan` -/
def bridgeNeedsScan (cursor latest : Nat) : Bool := cursor ≤ latest

/-- `cursorAfterBlock` -/
def cursorAfterBlock (doneBlock : Nat) : Nat := satAdd doneBlock 1

/-- `log_cache.replayUpper` -/
def replayUpper (fromBlock toBlock : Nat) : Option Nat :=
  if toBlock = 0 ∨ toBlock < fromBlock then none else some toBlock

/-- A chunk of blocks stays between its start and the tip. -/
theorem inclusiveChunkEnd_bounds {f n tip : Nat} (hf : f ≤ tip) :
    f ≤ inclusiveChunkEnd f n tip ∧ inclusiveChunkEnd f n tip ≤ tip := by
  unfold inclusiveChunkEnd satAdd clampBatchSize
  omega

theorem le_cursorAfterBlock (b : Nat) : b ≤ cursorAfterBlock b := Nat.le_max_left _ _

/-- After a block comes the next one, up to the largest. -/
theorem lt_cursorAfterBlock {b c : Nat} (hc : c < cursorAfterBlock b) : c ≤ b := by
  unfold cursorAfterBlock satAdd at hc
  omega

/-! ### A page of logs -/

/-- `getlogs_page_limit`: the length from which an answer may be cut off. -/
def getlogsPageLimit : Nat := 10000

/-- `log_cache.pageEnd`: the last block an answer is complete up to. -/
def pageEnd (fromBlock toBlock maxBlock count limit : Nat) : Option Nat :=
  if limit = 0 ∨ count < limit then some toBlock
  else if maxBlock ≤ fromBlock then none
  else some (if maxBlock - 1 > toBlock then toBlock else maxBlock - 1)

/-! ### Sets of ranges -/

/-- `b` lies in one of the ranges. -/
def Covers (spans : List BlockSpan) (b : Nat) : Prop :=
  ∃ s ∈ spans, s.fromBlock ≤ b ∧ b ≤ s.toBlock

@[simp] theorem not_covers_nil (b : Nat) : ¬Covers [] b := by
  simp [Covers]

@[simp] theorem covers_cons (s : BlockSpan) (spans : List BlockSpan) (b : Nat) :
    Covers (s :: spans) b ↔ (s.fromBlock ≤ b ∧ b ≤ s.toBlock) ∨ Covers spans b := by
  simp [Covers]

theorem covers_append (xs ys : List BlockSpan) (b : Nat) :
    Covers (xs ++ ys) b ↔ Covers xs b ∨ Covers ys b := by
  simp [Covers, or_and_right, exists_or]

theorem covers_congr {xs ys : List BlockSpan} (h : ∀ s, s ∈ xs ↔ s ∈ ys) (b : Nat) :
    Covers xs b ↔ Covers ys b := by
  simp [Covers, h]

/-- `spansLess`, with equality. -/
def BlockSpan.le (a b : BlockSpan) : Prop :=
  a.fromBlock < b.fromBlock ∨ (a.fromBlock = b.fromBlock ∧ a.toBlock ≤ b.toBlock)

instance : DecidableRel BlockSpan.le := fun _ _ => inferInstanceAs (Decidable (_ ∨ _))

instance : Std.Total BlockSpan.le := ⟨fun a b => by
  unfold BlockSpan.le
  omega⟩

instance : IsTrans BlockSpan BlockSpan.le := ⟨fun a b c => by
  unfold BlockSpan.le
  omega⟩

/-- The loop of `mergeSpans` over the sorted ranges; `prev` is the last merged one. -/
def mergeLoop : BlockSpan → List BlockSpan → List BlockSpan
  | prev, [] => [prev]
  | prev, span :: rest =>
    if prev.toBlock = u64Max ∨ span.fromBlock ≤ prev.toBlock + 1 then
      mergeLoop { prev with toBlock := max prev.toBlock span.toBlock } rest
    else prev :: mergeLoop span rest

/-- `log_cache.mergeSpans` -/
def mergeSpans (spans : List BlockSpan) : List BlockSpan :=
  match spans.insertionSort BlockSpan.le with
  | [] => []
  | first :: rest => mergeLoop first rest

theorem covers_mergeLoop {b : Nat} (hb : b ≤ u64Max) :
    ∀ (prev : BlockSpan) {rest : List BlockSpan}, (∀ s ∈ rest, prev.fromBlock ≤ s.fromBlock) →
      rest.Pairwise BlockSpan.le →
      (Covers (mergeLoop prev rest) b ↔ Covers (prev :: rest) b)
  | prev, [], _, _ => by simp [mergeLoop]
  | prev, span :: rest, hprev, hsorted => by
    have hspan : prev.fromBlock ≤ span.fromBlock := hprev span (by simp)
    have hrest := (List.pairwise_cons.1 hsorted).1
    unfold mergeLoop
    split
    · next htouch =>
      rw [covers_mergeLoop hb { prev with toBlock := max prev.toBlock span.toBlock }
        (fun s hs => hprev s (List.mem_cons_of_mem span hs))
        (List.pairwise_cons.1 hsorted).2]
      simp only [covers_cons]
      -- a range that begins at or before the end of `prev` leaves no gap after it
      have hjoin : (prev.fromBlock ≤ b ∧ b ≤ max prev.toBlock span.toBlock) ↔
          (prev.fromBlock ≤ b ∧ b ≤ prev.toBlock) ∨
            (span.fromBlock ≤ b ∧ b ≤ span.toBlock) := by
        omega
      rw [hjoin, or_assoc]
    · rw [covers_cons, covers_cons, covers_mergeLoop hb _ _ (List.pairwise_cons.1 hsorted).2]
      intro s hs
      have := hrest s hs
      unfold BlockSpan.le at this
      omega

/-- **Merging changes no block's coverage.** -/
theorem covers_mergeSpans {spans : List BlockSpan} {b : Nat} (hb : b ≤ u64Max) :
    Covers (mergeSpans spans) b ↔ Covers spans b := by
  have hsorted := List.pairwise_insertionSort BlockSpan.le spans
  have hmem : ∀ s, s ∈ spans.insertionSort BlockSpan.le ↔ s ∈ spans := fun s =>
    List.mem_insertionSort BlockSpan.le
  rw [← covers_congr hmem]
  unfold mergeSpans
  cases hs : spans.insertionSort BlockSpan.le with
  | nil => exact Iff.rfl
  | cons first rest =>
    rw [hs] at hsorted
    have hp := List.pairwise_cons.1 hsorted
    refine covers_mergeLoop hb first (fun s h => ?_) hp.2
    have := hp.1 s h
    unfold BlockSpan.le at this
    omega

/-- The loop of `uncovered`, with `cap` places left for holes. -/
def uncoveredLoop (toBlock : Nat) : Nat → List BlockSpan → Nat → List BlockSpan
  | cap, [], cursor => if cursor ≤ toBlock ∧ 0 < cap then [⟨cursor, toBlock⟩] else []
  | cap, span :: rest, cursor =>
    if span.toBlock < cursor then uncoveredLoop toBlock cap rest cursor
    else if span.fromBlock > toBlock then
      if cursor ≤ toBlock ∧ 0 < cap then [⟨cursor, toBlock⟩] else []
    else if span.fromBlock > cursor then
      if cap = 0 then []
      else ⟨cursor, span.fromBlock - 1⟩ ::
        (if span.toBlock ≥ toBlock ∨ span.toBlock = u64Max then []
          else uncoveredLoop toBlock (cap - 1) rest (span.toBlock + 1))
    else if span.toBlock ≥ toBlock ∨ span.toBlock = u64Max then []
    else uncoveredLoop toBlock cap rest (span.toBlock + 1)

/-- `log_cache.uncovered`, with room for `cap` holes. -/
def uncovered (covered : List BlockSpan) (fromBlock toBlock cap : Nat) : List BlockSpan :=
  if fromBlock > toBlock then [] else uncoveredLoop toBlock cap covered fromBlock

theorem covers_or_mem_uncoveredLoop {toBlock b : Nat} (hb : b ≤ toBlock)
    (hmax : toBlock ≤ u64Max) :
    ∀ {cap : Nat} {covered : List BlockSpan} {cursor : Nat}, covered.length < cap →
      cursor ≤ b → Covers covered b ∨ Covers (uncoveredLoop toBlock cap covered cursor) b
  | cap, [], cursor, hcap, hc => by
    right
    rw [uncoveredLoop, if_pos ⟨by omega, by omega⟩]
    simp only [covers_cons, not_covers_nil, or_false]
    omega
  | cap, span :: rest, cursor, hcap, hc => by
    simp only [List.length_cons] at hcap
    have htail : ∀ cap' cursor' : Nat, rest.length < cap' → cursor' ≤ b →
        Covers (span :: rest) b ∨ Covers (uncoveredLoop toBlock cap' rest cursor') b := by
      intro cap' cursor' h₁ h₂
      rcases covers_or_mem_uncoveredLoop hb hmax h₁ h₂ with h | h
      · exact .inl (by simp [h])
      · exact .inr h
    by_cases hin : span.fromBlock ≤ b ∧ b ≤ span.toBlock
    · exact .inl (by simp [hin])
    unfold uncoveredLoop
    split
    · exact htail _ _ (by omega) hc
    · split
      · right
        rw [if_pos ⟨by omega, by omega⟩]
        simp only [covers_cons, not_covers_nil, or_false]
        omega
      · split
        · rw [if_neg (by omega), covers_cons (s := ⟨cursor, _⟩)]
          rcases Nat.lt_or_ge b span.fromBlock with hlt | hge
          · exact .inr (.inl ⟨hc, by simp only; omega⟩)
          · rw [if_neg (by omega)]
            rcases htail (cap - 1) (span.toBlock + 1) (by omega)
              (by omega) with h | h
            · exact .inl h
            · exact .inr (.inr h)
        · rw [if_neg (by omega)]
          exact htail _ _ (by omega) (by omega)

/-- **A block in no hole is covered.** -/
theorem covers_or_mem_uncovered {covered : List BlockSpan} {fromBlock toBlock b : Nat}
    (hf : fromBlock ≤ b) (hb : b ≤ toBlock) (hmax : toBlock ≤ u64Max) :
    Covers covered b ∨
      Covers (uncovered covered fromBlock toBlock (covered.length + 1)) b := by
  rw [uncovered, if_neg (by omega)]
  exact covers_or_mem_uncoveredLoop hb hmax (by omega) hf

theorem mem_uncoveredLoop {toBlock : Nat} {h : BlockSpan} :
    ∀ {cap : Nat} {covered : List BlockSpan} {cursor : Nat},
      h ∈ uncoveredLoop toBlock cap covered cursor →
      cursor ≤ h.fromBlock ∧ h.fromBlock ≤ h.toBlock ∧ h.toBlock ≤ toBlock
  | cap, [], cursor, hmem => by
    unfold uncoveredLoop at hmem
    split at hmem
    · next hc =>
      obtain rfl := List.mem_singleton.1 hmem
      exact ⟨Nat.le_refl _, hc.1, Nat.le_refl _⟩
    · simp at hmem
  | cap, span :: rest, cursor, hmem => by
    have htail : ∀ {cap' : Nat}, cursor ≤ span.toBlock + 1 →
        h ∈ uncoveredLoop toBlock cap' rest (span.toBlock + 1) →
        cursor ≤ h.fromBlock ∧ h.fromBlock ≤ h.toBlock ∧ h.toBlock ≤ toBlock := by
      intro cap' hle hm
      have := mem_uncoveredLoop hm
      exact ⟨hle.trans this.1, this.2⟩
    unfold uncoveredLoop at hmem
    split at hmem
    · exact mem_uncoveredLoop hmem
    · split at hmem
      · split at hmem
        · next hc =>
          obtain rfl := List.mem_singleton.1 hmem
          exact ⟨Nat.le_refl _, hc.1, Nat.le_refl _⟩
        · simp at hmem
      · split at hmem
        · split at hmem
          · simp at hmem
          · rcases List.mem_cons.1 hmem with rfl | hmem
            · exact ⟨Nat.le_refl _, by simp only; omega, by simp only; omega⟩
            · split at hmem
              · simp at hmem
              · exact htail (by omega) hmem
        · split at hmem
          · simp at hmem
          · exact htail (by omega) hmem

/-- A hole is not empty and lies in the range. -/
theorem mem_uncovered {covered : List BlockSpan} {fromBlock toBlock cap : Nat} {h : BlockSpan}
    (hmem : h ∈ uncovered covered fromBlock toBlock cap) :
    fromBlock ≤ h.fromBlock ∧ h.fromBlock ≤ h.toBlock ∧ h.toBlock ≤ toBlock := by
  unfold uncovered at hmem
  split at hmem
  · simp at hmem
  · exact mem_uncoveredLoop hmem

/-! ### Cutting ranges at a fork -/

/-- The two statements of a trim on the ranges of one key: ranges that begin at or
after the fork go, the others end before it. At block 0 nothing is left. -/
def trimSpans (fromBlock : Nat) (spans : List BlockSpan) : List BlockSpan :=
  let kept := spans.filter fun s => !decide (s.fromBlock ≥ fromBlock)
  if fromBlock = 0 then kept
  else kept.map fun s =>
    if s.fromBlock < fromBlock ∧ s.toBlock ≥ fromBlock then { s with toBlock := fromBlock - 1 }
    else s

theorem covers_trimSpans {f b : Nat} {spans : List BlockSpan} :
    Covers (trimSpans f spans) b ↔ b < f ∧ Covers spans b := by
  unfold trimSpans Covers
  by_cases hf : f = 0
  · subst hf
    simp
  · simp only [hf, if_false, List.mem_map, List.mem_filter, Bool.not_eq_true',
      decide_eq_false_iff_not, ge_iff_le, Nat.not_le]
    constructor
    · rintro ⟨s, ⟨s₀, ⟨hs, hlt⟩, rfl⟩, h⟩
      split at h
      · exact ⟨by simp only at h; omega, s₀, hs, h.1, by simp only at h; omega⟩
      · exact ⟨by omega, s₀, hs, h⟩
    · rintro ⟨hbf, s, hs, h₁, h₂⟩
      refine ⟨_, ⟨s, ⟨hs, by omega⟩, rfl⟩, ?_⟩
      split
      · exact ⟨h₁, by simp only; omega⟩
      · exact ⟨h₁, h₂⟩

end Zponder

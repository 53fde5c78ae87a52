import Zponder.CacheSound
import Zponder.Erasure
import Zponder.Lib.Checked
import Zponder.Lib.Machine

/-!
# Coverage spans

Which blocks of an address the log cache is complete for is kept as closed ranges of
blocks, in a table with a few rows for each chain, address and set of topics. A range is
marked by merging it with the rows there are, and a rollback cuts the rows of its chain at
a block.

The two functions on lists are gone through once more here with sums and differences that
are checked (`Zponder.Coverage.mergeSpans`, `Zponder.Coverage.uncovered`): no sum leaves
the `u64`s and no difference falls below zero, and what they return is what the ones of
`Zponder.Spans` do. Merged ranges are `Zponder.Coverage.Separated`: in order, and with a
block at least between any two of them. What is left uncovered is in order as well, and
together with what is covered fills the window exactly (`Zponder.Coverage.uncovered_spec`).

In every table reached by marking and cutting the rows of a key are separated, marking adds
exactly the blocks of the range, and cutting takes away exactly the blocks from the cut on
(`Zponder.Coverage.spans_exact`).
-/

namespace Zponder.Coverage

open Imperative Prog Conn

/-! ### Closed ranges -/

/-- A closed range of `u64`s. -/
def Closed (s : BlockSpan) : Prop := s.fromBlock ≤ s.toBlock ∧ s.toBlock ≤ u64Max

/-- Ranges in order, none of which has a block of another. -/
def Ordered (spans : List BlockSpan) : Prop :=
  (∀ s ∈ spans, Closed s) ∧ spans.Pairwise fun s t => s.toBlock < t.fromBlock

/-- Ranges in order, with a block between any two. -/
def Separated (spans : List BlockSpan) : Prop :=
  (∀ s ∈ spans, Closed s) ∧ spans.Pairwise fun s t => s.toBlock + 1 < t.fromBlock

theorem separated_nil : Separated [] := ⟨by simp, .nil⟩

theorem Separated.ordered {spans : List BlockSpan} (h : Separated spans) : Ordered spans :=
  ⟨h.1, h.2.imp fun h => by omega⟩

theorem Ordered.tail {s : BlockSpan} {spans : List BlockSpan} (h : Ordered (s :: spans)) :
    Ordered spans :=
  ⟨fun t ht => h.1 t (List.mem_cons_of_mem s ht), (List.pairwise_cons.1 h.2).2⟩

theorem Ordered.cons {s : BlockSpan} {spans : List BlockSpan} (hs : Closed s)
    (h : Ordered spans) (hlt : ∀ t ∈ spans, s.toBlock < t.fromBlock) : Ordered (s :: spans) :=
  ⟨List.forall_mem_cons.2 ⟨hs, h.1⟩, List.pairwise_cons.2 ⟨hlt, h.2⟩⟩

/-- A block covered by closed ranges is a `u64`. -/
theorem le_of_covers {spans : List BlockSpan} (h : ∀ s ∈ spans, Closed s) {b : Nat}
    (hb : Covers spans b) : b ≤ u64Max := by
  obtain ⟨s, hs, -, hle⟩ := hb
  exact hle.trans (h s hs).2

/-! ### Merging -/

/-- Whether a range goes on where the one before it ends, with the sum checked. -/
def touches (prev span : BlockSpan) : Option Bool :=
  if prev.toBlock = u64Max then some true
  else (Checked.add u64Max prev.toBlock 1).map fun next => decide (span.fromBlock ≤ next)

/-- The loop of `mergeSpans`. -/
def mergeLoop : BlockSpan → List BlockSpan → Option (List BlockSpan)
  | prev, [] => some [prev]
  | prev, span :: rest =>
    (touches prev span).bind fun joined =>
      if joined = true then
        mergeLoop
          (if span.toBlock > prev.toBlock then { prev with toBlock := span.toBlock } else prev) rest
      else (mergeLoop span rest).map (prev :: ·)

/-- `log_cache.mergeSpans` -/
def mergeSpans (spans : List BlockSpan) : Option (List BlockSpan) :=
  match spans.insertionSort BlockSpan.le with
  | [] => some []
  | first :: rest => mergeLoop first rest

theorem touches_eq {prev : BlockSpan} (h : prev.toBlock ≤ u64Max) (span : BlockSpan) :
    touches prev span =
      some (decide (prev.toBlock = u64Max ∨ span.fromBlock ≤ prev.toBlock + 1)) := by
  unfold touches
  split
  · next hlast => simp [hlast]
  · next hlast =>
    rw [Checked.add_of_le (by omega)]
    simp [hlast]

theorem mergeLoop_eq (prev : BlockSpan) {rest : List BlockSpan} (hprev : prev.toBlock ≤ u64Max)
    (hrest : ∀ s ∈ rest, s.toBlock ≤ u64Max) :
    mergeLoop prev rest = some (Zponder.mergeLoop prev rest) := by
  induction rest generalizing prev with
  | nil => rfl
  | cons span rest ih =>
    obtain ⟨hspan, hrest⟩ := List.forall_mem_cons.1 hrest
    have hgrown : (if span.toBlock > prev.toBlock then { prev with toBlock := span.toBlock }
        else prev) = { prev with toBlock := max prev.toBlock span.toBlock } := by
      split
      · next h => rw [max_eq_right (by omega)]
      · next h => rw [max_eq_left (by omega)]
    rw [mergeLoop, touches_eq hprev, Zponder.mergeLoop, Option.bind_some]
    simp only [decide_eq_true_eq]
    split
    · rw [hgrown]
      exact ih _ (max_le hprev hspan) hrest
    · rw [ih span hspan hrest]
      rfl

/-- **Merging overflows nowhere.** -/
theorem mergeSpans_eq {spans : List BlockSpan} (h : ∀ s ∈ spans, s.toBlock ≤ u64Max) :
    mergeSpans spans = some (Zponder.mergeSpans spans) := by
  have hmem : ∀ s ∈ spans.insertionSort BlockSpan.le, s.toBlock ≤ u64Max := fun s hs =>
    h s ((List.mem_insertionSort BlockSpan.le).1 hs)
  unfold mergeSpans Zponder.mergeSpans
  cases hsorted : spans.insertionSort BlockSpan.le with
  | nil => rfl
  | cons first rest =>
    rw [hsorted] at hmem
    exact mergeLoop_eq first (hmem first List.mem_cons_self)
      fun s hs => hmem s (List.mem_cons_of_mem first hs)

/-- What was merged begins where the first range does, or later, and is separated. -/
theorem separated_mergeLoop (prev : BlockSpan) {rest : List BlockSpan} (hprev : Closed prev)
    (hrest : ∀ s ∈ rest, Closed s ∧ prev.fromBlock ≤ s.fromBlock)
    (hsorted : rest.Pairwise BlockSpan.le) :
    Separated (Zponder.mergeLoop prev rest) ∧
      ∀ s ∈ Zponder.mergeLoop prev rest, prev.fromBlock ≤ s.fromBlock := by
  induction rest generalizing prev with
  | nil =>
    rw [Zponder.mergeLoop]
    exact ⟨⟨by simpa using hprev, List.pairwise_singleton _ _⟩, by simp⟩
  | cons span rest ih =>
    obtain ⟨⟨hspan, hfrom⟩, hrest⟩ := List.forall_mem_cons.1 hrest
    obtain ⟨hle, hsorted⟩ := List.pairwise_cons.1 hsorted
    rw [Zponder.mergeLoop]
    split
    · refine ih { prev with toBlock := max prev.toBlock span.toBlock } ?_ hrest hsorted
      exact ⟨hprev.1.trans (le_max_left _ _), max_le hprev.2 hspan.2⟩
    · next hgap =>
      have hrest' : ∀ s ∈ rest, Closed s ∧ span.fromBlock ≤ s.fromBlock := by
        intro s hs
        have := hle s hs
        unfold BlockSpan.le at this
        exact ⟨(hrest s hs).1, by omega⟩
      obtain ⟨hsep, hmin⟩ := ih span hspan hrest' hsorted
      refine ⟨⟨List.forall_mem_cons.2 ⟨hprev, hsep.1⟩, List.pairwise_cons.2 ⟨?_, hsep.2⟩⟩, ?_⟩
      · intro s hs
        have := hmin s hs
        omega
      · exact List.forall_mem_cons.2 ⟨le_rfl, fun s hs => hfrom.trans (hmin s hs)⟩

theorem separated_mergeSpans {spans : List BlockSpan} (h : ∀ s ∈ spans, Closed s) :
    Separated (Zponder.mergeSpans spans) := by
  have hsorted := List.pairwise_insertionSort BlockSpan.le spans
  have hmem : ∀ s ∈ spans.insertionSort BlockSpan.le, Closed s := fun s hs =>
    h s ((List.mem_insertionSort BlockSpan.le).1 hs)
  unfold Zponder.mergeSpans
  cases hs : spans.insertionSort BlockSpan.le with
  | nil => exact separated_nil
  | cons first rest =>
    rw [hs] at hsorted hmem
    obtain ⟨hle, hsorted⟩ := List.pairwise_cons.1 hsorted
    obtain ⟨hfirst, hrest⟩ := List.forall_mem_cons.1 hmem
    refine (separated_mergeLoop first hfirst (fun s hs => ⟨hrest s hs, ?_⟩) hsorted).1
    have := hle s hs
    unfold BlockSpan.le at this
    omega

/-- **Merging**: the ranges are separated afterwards, and have the blocks they had. -/
theorem mergeSpans_spec {spans : List BlockSpan} (h : ∀ s ∈ spans, Closed s) :
    ∃ merged, mergeSpans spans = some merged ∧ Separated merged ∧
      ∀ b, Covers merged b ↔ Covers spans b := by
  have hsep := separated_mergeSpans h
  refine ⟨_, mergeSpans_eq fun s hs => (h s hs).2, hsep, fun b => ?_⟩
  constructor
  · intro hb
    exact (covers_mergeSpans (le_of_covers hsep.1 hb)).1 hb
  · intro hb
    exact (covers_mergeSpans (le_of_covers h hb)).2 hb

/-! ### What is left uncovered -/

/-- The end of a turn of the loop: whether the window is done, and with `behind` for the turns
after this one. The sum is checked. -/
def goOn (toBlock : Nat) (span : BlockSpan) (behind : Nat → Option (List BlockSpan)) :
    Option (List BlockSpan) :=
  if span.toBlock ≥ toBlock then some []
  else if span.toBlock = u64Max then some []
  else
    (Checked.add u64Max span.toBlock 1).bind fun cursor =>
      if cursor > toBlock then some [] else behind cursor

/-- The loop of `uncovered`, with `cap` places left for holes. The difference is checked. -/
def uncoveredLoop (toBlock : Nat) : Nat → List BlockSpan → Nat → Option (List BlockSpan)
  | cap, [], cursor => some (if cursor ≤ toBlock ∧ 0 < cap then [⟨cursor, toBlock⟩] else [])
  | cap, span :: rest, cursor =>
    if span.toBlock < cursor then uncoveredLoop toBlock cap rest cursor
    else if span.fromBlock > toBlock then
      some (if cursor ≤ toBlock ∧ 0 < cap then [⟨cursor, toBlock⟩] else [])
    else if span.fromBlock > cursor then
      if cap = 0 then some []
      else
        (Checked.sub span.fromBlock 1).bind fun last =>
          (goOn toBlock span fun cursor => uncoveredLoop toBlock (cap - 1) rest cursor).map
            (⟨cursor, last⟩ :: ·)
    else goOn toBlock span fun cursor => uncoveredLoop toBlock cap rest cursor

/-- `log_cache.uncovered` -/
def uncovered (covered : List BlockSpan) (fromBlock toBlock cap : Nat) :
    Option (List BlockSpan) :=
  if fromBlock > toBlock then some [] else uncoveredLoop toBlock cap covered fromBlock

theorem goOn_eq {toBlock : Nat} (hmax : toBlock ≤ u64Max) (span : BlockSpan)
    (behind : Nat → Option (List BlockSpan)) :
    goOn toBlock span behind = if span.toBlock ≥ toBlock ∨ span.toBlock = u64Max then some []
      else behind (span.toBlock + 1) := by
  unfold goOn
  by_cases hend : span.toBlock ≥ toBlock
  · simp [hend]
  · rw [if_neg hend, if_neg (by omega), if_neg (by omega), Checked.add_of_le (by omega),
      Option.bind_some, if_neg (by omega)]

/-- No sum overflows, and no difference falls below zero. -/
theorem uncoveredLoop_eq {toBlock : Nat} (hmax : toBlock ≤ u64Max) {covered : List BlockSpan}
    (cap cursor : Nat) :
    uncoveredLoop toBlock cap covered cursor =
      some (Zponder.uncoveredLoop toBlock cap covered cursor) := by
  induction covered generalizing cap cursor with
  | nil => rfl
  | cons span rest ih =>
    rw [uncoveredLoop, Zponder.uncoveredLoop]
    simp only [goOn_eq hmax, ih]
    split
    · rfl
    split
    · rfl
    split
    · split
      · rfl
      · rw [Checked.sub_of_le (by omega), Option.bind_some]
        split <;> rfl
    · split <;> rfl

theorem uncovered_eq {covered : List BlockSpan} {fromBlock toBlock cap : Nat}
    (hmax : toBlock ≤ u64Max) :
    uncovered covered fromBlock toBlock cap =
      some (Zponder.uncovered covered fromBlock toBlock cap) := by
  unfold uncovered Zponder.uncovered
  split
  · rfl
  · exact uncoveredLoop_eq hmax cap fromBlock

/-- What the holes of a window are to be: in order, and the blocks of the window that are not
covered. -/
structure Fills (covered : List BlockSpan) (cursor toBlock : Nat) (holes : List BlockSpan) : Prop where
  ordered : Ordered holes
  blocks : ∀ b, Covers holes b ↔ (cursor ≤ b ∧ b ≤ toBlock) ∧ ¬Covers covered b

/-- The blocks behind a range that ends behind the cursor. -/
theorem not_covers_of_lt {spans : List BlockSpan} {b n : Nat}
    (h : ∀ s ∈ spans, n < s.fromBlock) (hb : b ≤ n) : ¬Covers spans b := by
  rintro ⟨s, hs, hle, -⟩
  have := h s hs
  omega

/-- The rest of a window is one hole. -/
theorem fills_rest {covered : List BlockSpan} {cursor toBlock : Nat} (hmax : toBlock ≤ u64Max)
    (h : ∀ b, cursor ≤ b → b ≤ toBlock → ¬Covers covered b) {cap : Nat} (hcap : 0 < cap) :
    Fills covered cursor toBlock
      (if cursor ≤ toBlock ∧ 0 < cap then [⟨cursor, toBlock⟩] else []) := by
  by_cases hle : cursor ≤ toBlock
  · rw [if_pos ⟨hle, hcap⟩]
    refine ⟨⟨by simpa using ⟨hle, hmax⟩, List.pairwise_singleton _ _⟩, fun b => ?_⟩
    simp only [covers_cons, not_covers_nil, or_false]
    exact ⟨fun hb => ⟨hb, h b hb.1 hb.2⟩, fun hb => hb.1⟩
  · rw [if_neg (by simp [hle])]
    refine ⟨separated_nil.ordered, fun b => ?_⟩
    simp only [not_covers_nil, false_iff]
    omega

/-- Behind a range, the loop goes on with the others. -/
theorem fills_behind {span : BlockSpan} {rest holes : List BlockSpan} {cursor toBlock : Nat}
    (hcursor : cursor ≤ span.toBlock) (hfrom : span.fromBlock ≤ cursor)
    (h : Fills rest (span.toBlock + 1) toBlock holes) :
    Fills (span :: rest) cursor toBlock holes := by
  refine ⟨h.ordered, fun b => ?_⟩
  rw [h.blocks, covers_cons]
  constructor
  · rintro ⟨hb, hrest⟩
    refine ⟨by omega, ?_⟩
    rintro (hspan | hb')
    · omega
    · exact hrest hb'
  · rintro ⟨hb, hcovers⟩
    have hnot : ¬(span.fromBlock ≤ b ∧ b ≤ span.toBlock) := fun h => hcovers (.inl h)
    exact ⟨by omega, fun hb' => hcovers (.inr hb')⟩

/-- The hole before a range. -/
theorem fills_before {span : BlockSpan} {rest holes : List BlockSpan} {cursor toBlock : Nat}
    (hmax : toBlock ≤ u64Max) (hcursor : cursor < span.fromBlock) (hfrom : span.fromBlock ≤ toBlock)
    (hrest : ∀ s ∈ rest, span.fromBlock ≤ s.fromBlock)
    (h : Fills (span :: rest) span.fromBlock toBlock holes) :
    Fills (span :: rest) cursor toBlock (⟨cursor, span.fromBlock - 1⟩ :: holes) := by
  have hbehind : ∀ s ∈ holes, span.fromBlock ≤ s.fromBlock := by
    intro s hs
    have := ((h.blocks s.fromBlock).1 ⟨s, hs, le_rfl, (h.ordered.1 s hs).1⟩).1
    exact this.1
  refine ⟨h.ordered.cons ⟨by simp only; omega, by simp only; omega⟩ fun s hs => ?_, fun b => ?_⟩
  · have := hbehind s hs
    simp only
    omega
  · rw [covers_cons, h.blocks]
    constructor
    · rintro (hb | ⟨hb, hcovers⟩)
      · refine ⟨by simp only at hb; omega, not_covers_of_lt (n := span.fromBlock - 1) ?_ hb.2⟩
        refine List.forall_mem_cons.2 ⟨by omega, fun s hs => ?_⟩
        have := hrest s hs
        omega
      · exact ⟨by omega, hcovers⟩
    · rintro ⟨hb, hcovers⟩
      by_cases hlt : b < span.fromBlock
      · exact .inl ⟨hb.1, by simp only; omega⟩
      · exact .inr ⟨by omega, hcovers⟩

/-- **The loop fills the window**, if there is a place for a hole before each range and one for
the rest. -/
theorem fills_uncoveredLoop {toBlock : Nat} (hmax : toBlock ≤ u64Max) {covered : List BlockSpan}
    (h : Ordered covered) {cap cursor : Nat} (hcap : covered.length < cap) :
    Fills covered cursor toBlock (Zponder.uncoveredLoop toBlock cap covered cursor) := by
  induction covered generalizing cap cursor with
  | nil =>
    rw [Zponder.uncoveredLoop]
    exact fills_rest hmax (by simp) hcap
  | cons span rest ih =>
    have hspan := h.1 span List.mem_cons_self
    have hlt := (List.pairwise_cons.1 h.2).1
    rw [List.length_cons] at hcap
    -- what comes behind the range, with the window going on there or done
    have hbehind : ∀ cap' cursor', rest.length < cap' → span.fromBlock ≤ cursor' →
        cursor' ≤ span.toBlock → Fills (span :: rest) cursor' toBlock
          (if span.toBlock ≥ toBlock ∨ span.toBlock = u64Max then []
            else Zponder.uncoveredLoop toBlock cap' rest (span.toBlock + 1)) := by
      intro cap' cursor' hcap' hfrom hto
      split
      · next hend =>
        refine ⟨separated_nil.ordered, fun b => ?_⟩
        simp only [not_covers_nil, covers_cons, false_iff]
        rintro ⟨hb, hcovers⟩
        exact hcovers (.inl ⟨by omega, by omega⟩)
      · exact fills_behind hto hfrom (ih h.tail hcap')
    rw [Zponder.uncoveredLoop]
    split
    · -- the range ends before the cursor
      next hbefore =>
      have hrest : Fills rest cursor toBlock (Zponder.uncoveredLoop toBlock cap rest cursor) :=
        ih h.tail (by omega)
      refine ⟨hrest.ordered, fun b => ?_⟩
      rw [hrest.blocks, covers_cons]
      constructor
      · rintro ⟨hb, hcovers⟩
        exact ⟨hb, fun h => h.elim (fun h => by omega) hcovers⟩
      · rintro ⟨hb, hcovers⟩
        exact ⟨hb, fun h => hcovers (.inr h)⟩
    split
    · -- the range begins behind the window
      next hafter =>
      refine fills_rest hmax (fun b _ hb => not_covers_of_lt (n := toBlock) ?_ hb) (by omega)
      refine List.forall_mem_cons.2 ⟨hafter, fun s hs => ?_⟩
      have := hlt s hs
      have := hspan.1
      omega
    split
    · next hgap =>
      rw [if_neg (by omega)]
      refine fills_before hmax hgap (by omega) (fun s hs => ?_)
        (hbehind (cap - 1) span.fromBlock (by omega) le_rfl hspan.1)
      have := hlt s hs
      have := hspan.1
      omega
    · next hgap => exact hbehind cap cursor (by omega) (by omega) (by omega)

theorem length_uncoveredLoop_le {toBlock : Nat} {covered : List BlockSpan} (cap cursor : Nat) :
    (Zponder.uncoveredLoop toBlock cap covered cursor).length ≤ cap := by
  induction covered generalizing cap cursor with
  | nil =>
    rw [Zponder.uncoveredLoop]
    split
    · simpa using Nat.one_le_iff_ne_zero.2 (by omega)
    · simp
  | cons span rest ih =>
    rw [Zponder.uncoveredLoop]
    split
    · exact ih cap cursor
    split
    · split
      · simpa using Nat.one_le_iff_ne_zero.2 (by omega)
      · simp
    split
    · split
      · simp
      · rw [List.length_cons]
        split
        · simp only [List.length_nil]
          omega
        · have := ih (cap - 1) (span.toBlock + 1)
          omega
    · split
      · simp
      · exact ih cap _

/-- **What is left uncovered**: the holes fit the buffer of the caller, are in order, and with
what is covered fill the window. -/
theorem uncovered_spec {covered : List BlockSpan} (h : Ordered covered) {a b : Nat} (hab : a ≤ b)
    (hb : b ≤ u64Max) :
    ∃ holes, uncovered covered a b (covered.length + 1) = some holes ∧
      holes.length ≤ covered.length + 1 ∧ Ordered holes ∧
      ∀ x, Covers holes x ↔ (a ≤ x ∧ x ≤ b) ∧ ¬Covers covered x := by
  have hfills : Fills covered a b (Zponder.uncoveredLoop b (covered.length + 1) covered a) :=
    fills_uncoveredLoop hb h (Nat.lt_succ_self covered.length)
  have heq : Zponder.uncovered covered a b (covered.length + 1) =
      Zponder.uncoveredLoop b (covered.length + 1) covered a := if_neg (by omega)
  refine ⟨_, uncovered_eq hb, ?_⟩
  rw [heq]
  exact ⟨length_uncoveredLoop_le _ _, hfills.ordered, hfills.blocks⟩

/-! ### The table -/

/-- The largest number of a column. -/
def maxBigint : Nat := 2 ^ 63 - 1

section Table

variable (cfg : Config)

/-- `markLogRangeTx`: a range that no column can hold is not written, and with it nothing is. -/
def markLogRangeTx (chain address key : Text) (fromBlock toBlock : Nat) (t : Tables) :
    Option Tables :=
  (mergeSpans (t.selectRanges chain address key ++ [⟨fromBlock, toBlock⟩])).bind fun merged =>
    if ∀ s ∈ merged, s.fromBlock ≤ maxBigint ∧ s.toBlock ≤ maxBigint then
      some ((t.putRanges chain address key []).putRanges chain address key merged)
    else none

/-- `insertChainLogTx` -/
def insertChainLogTx (chain address : Text) (lg : ChainLog) (t : Tables) : Option Tables :=
  if lg.blockNumber ≤ maxBigint ∧ lg.logIndex ≤ maxBigint then
    some (t.insertChainLog chain { lg with address := address })
  else none

/-- `storeLogCacheBatch` -/
def storeLogCacheBatch (chain : Text) (addresses : List Text) (key : Text)
    (fromBlock toBlock : Nat) (logs : List ChainLog) (t : Tables) : Option Tables :=
  if cfg.logCacheEnabled = false then some t
  else if fromBlock > toBlock then some t
  else
    (logs.foldlM (fun t lg =>
      if lg.blockNumber < fromBlock ∨ lg.blockNumber > toBlock then some t
      else insertChainLogTx chain (Text.cacheAddress lg.address) lg t) t).bind fun t =>
    addresses.foldlM (fun t address =>
      markLogRangeTx chain (Text.cacheAddress address) key fromBlock toBlock t) t

/-- `trimLogCacheUnlocked` -/
def trimLogCacheUnlocked (chain : Text) (fromBlock : Nat) (t : Tables) : Option Tables :=
  if cfg.logCacheEnabled = false then some t
  else
    (Checked.intCast maxBigint fromBlock).bind fun fromBlock =>
      let t := (t.deleteChainLogs chain fromBlock).mapRanges chain fun spans =>
        spans.filter fun s => !decide (s.fromBlock ≥ fromBlock)
      if fromBlock = 0 then some t
      else
        (Checked.sub fromBlock 1).map fun last => t.mapRanges chain fun spans =>
          spans.map fun s =>
            if s.fromBlock < fromBlock ∧ s.toBlock ≥ fromBlock then { s with toBlock := last }
            else s

end Table

/-- What changes the table of the ranges. -/
inductive Change where
  | mark (chain address key : Text) (fromBlock toBlock : Nat)
  | store (chain : Text) (addresses : List Text) (key : Text) (fromBlock toBlock : Nat)
      (logs : List ChainLog)
  | trim (chain : Text) (fromBlock : Nat)

/-- What a change makes of the tables. One that fails is rolled back. -/
def change (cfg : Config) (t : Tables) : Change → Option Tables
  | .mark chain address key fromBlock toBlock =>
    markLogRangeTx chain address key fromBlock toBlock t
  | .store chain addresses key fromBlock toBlock logs =>
    storeLogCacheBatch cfg chain addresses key fromBlock toBlock logs t
  | .trim chain fromBlock => trimLogCacheUnlocked cfg chain fromBlock t

/-- The table, empty at first, and its changes. -/
def cache (cfg : Config) : Machine Tables Change := ⟨{}, change cfg⟩

/-- Ranges are marked that are not empty, and blocks are `u64`s. -/
def Change.Closed : Change → Prop
  | .mark _ _ _ fromBlock toBlock => fromBlock ≤ toBlock ∧ toBlock ≤ u64Max
  | .store _ _ _ _ toBlock _ => toBlock ≤ u64Max
  | .trim _ _ => True

/-- The tables that are reached by marking, storing and cutting. -/
def Reached (cfg : Config) (t : Tables) : Prop := (cache cfg).Reaches (fun _ c => c.Closed) t

/-! ### What is kept -/

/-- The rows of every key are separated, and fit their columns. -/
def Kept (t : Tables) : Prop := ∀ chain address key,
  Separated (t.chainLogRanges chain address key) ∧
    ∀ s ∈ t.chainLogRanges chain address key, s.toBlock ≤ maxBigint

section Kept

variable {cfg : Config} {t u : Tables} {chain address key : Text} {f e : Nat}

theorem mem_selectRanges {s : BlockSpan} :
    s ∈ t.selectRanges chain address key ↔ s ∈ t.chainLogRanges chain address key :=
  List.mem_insertionSort _

theorem putRanges_self (spans : List BlockSpan) :
    (t.putRanges chain address key spans).chainLogRanges chain address key = spans := by
  simp [Tables.putRanges]

theorem putRanges_other (spans : List BlockSpan) {c a k : Text}
    (h : ¬(c = chain ∧ a = address ∧ k = key)) :
    (t.putRanges chain address key spans).chainLogRanges c a k = t.chainLogRanges c a k := by
  by_cases hc : c = chain
  · subst hc
    by_cases ha : a = address
    · subst ha
      have hk : k ≠ key := fun hk => h ⟨rfl, rfl, hk⟩
      simp [Tables.putRanges, hk]
    · simp [Tables.putRanges, ha]
  · simp [Tables.putRanges, hc]

/-- **Marking a range.** It is written if its end fits the column. The rows are kept, and those
of the key have its blocks besides theirs. -/
theorem markLogRangeTx_spec (h : Kept t) (hfe : f ≤ e) (hmax : e ≤ u64Max) :
    (e ≤ maxBigint → ∃ u, markLogRangeTx chain address key f e t = some u) ∧
      ∀ u, markLogRangeTx chain address key f e t = some u → Kept u ∧
        (∀ b, Covers (u.chainLogRanges chain address key) b ↔
          Covers (t.chainLogRanges chain address key) b ∨ (f ≤ b ∧ b ≤ e)) ∧
        ∀ c a k, ¬(c = chain ∧ a = address ∧ k = key) →
          u.chainLogRanges c a k = t.chainLogRanges c a k := by
  obtain ⟨hsep, hfit⟩ := h chain address key
  have hclosed : ∀ s ∈ t.selectRanges chain address key ++ [⟨f, e⟩], Closed s := by
    exact List.forall_mem_append.2 ⟨fun s hs => hsep.1 s (mem_selectRanges.1 hs),
      List.forall_mem_singleton.2 ⟨hfe, hmax⟩⟩
  obtain ⟨merged, hmerged, hsepm, hcovers⟩ := mergeSpans_spec hclosed
  have hblocks : ∀ b, Covers merged b ↔
      Covers (t.chainLogRanges chain address key) b ∨ (f ≤ b ∧ b ≤ e) := by
    intro b
    rw [hcovers, covers_append, covers_congr fun s => mem_selectRanges]
    simp
  rw [markLogRangeTx, hmerged, Option.bind_some]
  refine ⟨fun he => ?_, fun u hu => ?_⟩
  · -- the last block of a merged range was the last block of one that fits
    refine ⟨_, if_pos fun s hs => ?_⟩
    have hlast : s.toBlock ≤ maxBigint := by
      rcases (hblocks s.toBlock).1 ⟨s, hs, (hsepm.1 s hs).1, le_rfl⟩ with ⟨r, hr, -, hle⟩ | hle
      · exact hle.trans (hfit r hr)
      · exact hle.2.trans he
    exact ⟨(hsepm.1 s hs).1.trans hlast, hlast⟩
  · split at hu
    · next hfits =>
      obtain rfl := Option.some.inj hu
      refine ⟨fun c a k => ?_, fun b => by rw [putRanges_self, hblocks], fun c a k hne => by
        rw [putRanges_other merged hne, putRanges_other [] hne]⟩
      by_cases hkey : c = chain ∧ a = address ∧ k = key
      · obtain ⟨rfl, rfl, rfl⟩ := hkey
        rw [putRanges_self]
        exact ⟨hsepm, fun s hs => (hfits s hs).2⟩
      · rw [putRanges_other merged hkey, putRanges_other [] hkey]
        exact h c a k
    · cases hu

theorem mapRanges_self (g : List BlockSpan → List BlockSpan) (a k : Text) :
    (t.mapRanges chain g).chainLogRanges chain a k = g (t.chainLogRanges chain a k) := by
  simp [Tables.mapRanges]

theorem mapRanges_other (g : List BlockSpan → List BlockSpan) {c : Text} (h : c ≠ chain)
    (a k : Text) : (t.mapRanges chain g).chainLogRanges c a k = t.chainLogRanges c a k := by
  simp [Tables.mapRanges, h]

/-- What a cut leaves of the rows of its chain, and of others. -/
theorem trimLogCacheUnlocked_eq (hon : cfg.logCacheEnabled = true) (hf : f ≤ maxBigint) :
    ∃ u, trimLogCacheUnlocked cfg chain f t = some u ∧
      (∀ a k, u.chainLogRanges chain a k = trimSpans f (t.chainLogRanges chain a k)) ∧
      ∀ c, c ≠ chain → u.chainLogRanges c = t.chainLogRanges c := by
  rw [trimLogCacheUnlocked, hon, if_neg (by decide), Checked.intCast_of_le hf, Option.bind_some]
  dsimp only
  split
  · next hzero =>
    refine ⟨_, rfl, fun a k => ?_, fun c hc => ?_⟩
    · rw [mapRanges_self, trimSpans, if_pos hzero]
      rfl
    · funext a k
      exact mapRanges_other _ hc a k
  · next hpos =>
    rw [Checked.sub_of_le (by omega)]
    refine ⟨_, rfl, fun a k => ?_, fun c hc => ?_⟩
    · rw [mapRanges_self, mapRanges_self, trimSpans, if_neg hpos]
      rfl
    · funext a k
      rw [mapRanges_other _ hc, mapRanges_other _ hc]
      rfl

/-- A range that is cut begins where it did, and ends no later. -/
theorem cut_le (f : Nat) (s : BlockSpan) :
    (if s.fromBlock < f ∧ s.toBlock ≥ f then { s with toBlock := f - 1 } else s).fromBlock =
        s.fromBlock ∧
      (if s.fromBlock < f ∧ s.toBlock ≥ f then { s with toBlock := f - 1 } else s).toBlock ≤
        s.toBlock := by
  split
  · exact ⟨rfl, by simp only; omega⟩
  · exact ⟨rfl, le_rfl⟩

theorem separated_trimSpans {spans : List BlockSpan} (h : Separated spans) :
    Separated (trimSpans f spans) := by
  have hkept : Separated (spans.filter fun s => !decide (s.fromBlock ≥ f)) :=
    ⟨fun s hs => h.1 s (List.mem_of_mem_filter hs), h.2.filter _⟩
  unfold trimSpans
  dsimp only
  split
  · exact hkept
  · next hpos =>
    refine ⟨List.forall_mem_map.2 fun s hs => ?_,
      List.pairwise_map.2 (hkept.2.imp fun {s r} hsr => ?_)⟩
    · have hs' := hkept.1 s hs
      split
      · exact ⟨by simp only; omega, by simp only; have := hs'.2; omega⟩
      · exact hs'
    · have := cut_le f s
      have := cut_le f r
      omega

theorem le_trimSpans {spans : List BlockSpan} {n : Nat} (h : ∀ s ∈ spans, s.toBlock ≤ n) :
    ∀ s ∈ trimSpans f spans, s.toBlock ≤ n := by
  have hkept : ∀ s ∈ spans.filter fun s => !decide (s.fromBlock ≥ f), s.toBlock ≤ n :=
    fun s hs => h s (List.mem_of_mem_filter hs)
  unfold trimSpans
  dsimp only
  split
  · exact hkept
  · exact List.forall_mem_map.2 fun s hs => (cut_le f s).2.trans (hkept s hs)

/-- **Cutting at a block.** It is done if the block fits the column. The rows are kept, and those of
the chain have the blocks before the cut that they had. -/
theorem trimLogCacheUnlocked_spec (hon : cfg.logCacheEnabled = true) (h : Kept t) :
    (f ≤ maxBigint → ∃ u, trimLogCacheUnlocked cfg chain f t = some u) ∧
      ∀ u, trimLogCacheUnlocked cfg chain f t = some u → Kept u ∧
        (∀ a k b, Covers (u.chainLogRanges chain a k) b ↔
          b < f ∧ Covers (t.chainLogRanges chain a k) b) ∧
        ∀ c, c ≠ chain → u.chainLogRanges c = t.chainLogRanges c := by
  by_cases hf : f ≤ maxBigint
  · obtain ⟨u, hu, hself, hother⟩ : ∃ u, trimLogCacheUnlocked cfg chain f t = some u ∧
        (∀ a k, u.chainLogRanges chain a k = trimSpans f (t.chainLogRanges chain a k)) ∧
        ∀ c, c ≠ chain → u.chainLogRanges c = t.chainLogRanges c := trimLogCacheUnlocked_eq hon hf
    refine ⟨fun _ => ⟨u, hu⟩, fun u' hu' => ?_⟩
    obtain rfl := Option.some.inj (hu.symm.trans hu')
    refine ⟨fun c a k => ?_, fun a k b => by rw [hself, covers_trimSpans], hother⟩
    obtain ⟨hsep, hfit⟩ := h c a k
    by_cases hc : c = chain
    · subst hc
      rw [hself]
      exact ⟨separated_trimSpans hsep, le_trimSpans hfit⟩
    · rw [hother c hc]
      exact ⟨hsep, hfit⟩
  · have hnone : trimLogCacheUnlocked cfg chain f t = none := by
      rw [trimLogCacheUnlocked, hon, if_neg (by decide), Checked.intCast, if_neg hf]
      rfl
    exact ⟨fun hle => absurd hle hf, fun u hu => by rw [hnone] at hu; cases hu⟩

/-- Rows of logs are no ranges. -/
theorem kept_insertChainLogTx {lg : ChainLog} (h : Kept t)
    (hu : insertChainLogTx chain address lg t = some u) : Kept u := by
  unfold insertChainLogTx at hu
  split at hu
  · obtain rfl := Option.some.inj hu
    intro c a k
    rw [chainLogRanges_insertChainLog]
    exact h c a k
  · cases hu

/-- A loop that may fail keeps what each of its turns keeps. -/
theorem foldlM_kept {α : Type} {step : Tables → α → Option Tables} {xs : List α}
    (hstep : ∀ t u, ∀ x ∈ xs, Kept t → step t x = some u → Kept u) (h : Kept t)
    (hu : xs.foldlM step t = some u) : Kept u := by
  induction xs generalizing t with
  | nil =>
    obtain rfl := Option.some.inj hu
    exact h
  | cons x xs ih =>
    rw [List.foldlM_cons, Option.bind_eq_bind, Option.bind_eq_some_iff] at hu
    obtain ⟨v, hv, hu⟩ := hu
    exact ih (fun t u y hy => hstep t u y (List.mem_cons_of_mem x hy))
      (hstep t v x List.mem_cons_self h hv) hu

theorem kept_storeLogCacheBatch {addresses : List Text} {logs : List ChainLog} (h : Kept t)
    (hmax : e ≤ u64Max) (hu : storeLogCacheBatch cfg chain addresses key f e logs t = some u) :
    Kept u := by
  unfold storeLogCacheBatch at hu
  split at hu
  · obtain rfl := Option.some.inj hu
    exact h
  split at hu
  · obtain rfl := Option.some.inj hu
    exact h
  · obtain ⟨v, hv, hu⟩ := Option.bind_eq_some_iff.1 hu
    have hlogs : Kept v := by
      refine foldlM_kept (fun t u lg _ ht hu => ?_) h hv
      split at hu
      · obtain rfl := Option.some.inj hu
        exact ht
      · exact kept_insertChainLogTx ht hu
    exact foldlM_kept
      (fun t u a _ ht hu => ((markLogRangeTx_spec ht (by omega) hmax).2 u hu).1) hlogs hu

/-- **The rows are kept in every table that is reached.** -/
theorem kept_of_reached (h : Reached cfg t) : Kept t := by
  refine h.invariant (fun _ _ _ => ⟨separated_nil, by simp [cache]⟩) ?_
  rintro t c u ht hc hu
  cases c with
  | mark chain address key f e => exact ((markLogRangeTx_spec ht hc.1 hc.2).2 u hu).1
  | store chain addresses key f e logs => exact kept_storeLogCacheBatch ht hc hu
  | trim chain f =>
    by_cases hon : cfg.logCacheEnabled = true
    · exact ((trimLogCacheUnlocked_spec hon ht).2 u hu).1
    · have hu : trimLogCacheUnlocked cfg chain f t = some u := hu
      rw [trimLogCacheUnlocked, if_pos (by simpa using hon)] at hu
      obtain rfl := Option.some.inj hu
      exact ht

end Kept

/-! ### The same, as the client does it -/

section Client

variable {env : Env} {cfg : Config} {w : World} {t u v : Tables} {chain address key : Text}
  {f e : Nat}

/-- Where no scan is cut short, the statements of `Zponder.markLogRangeTx` leave what is marked
here. -/
theorem meets_markLogRangeTx {i : Nat} (hcut : ∀ n call, env.cut n call = none)
    (h : InTxn t False (· = u) w.conn) (hv : markLogRangeTx chain address key f e u = some v)
    (hclosed : ∀ s ∈ u.selectRanges chain address key ++ [⟨f, e⟩], s.toBlock ≤ u64Max) :
    Meets (Zponder.markLogRangeTx env cfg i chain address key f e) w
      (txnPost Unit w t fun _ => (· = v)) := by
  rw [markLogRangeTx, mergeSpans_eq hclosed, Option.bind_some] at hv
  split at hv
  · obtain rfl := Option.some.inj hv
    unfold Zponder.markLogRangeTx
    have hread : Meets (execScan env cfg (.listLogRanges address)
        (Tables.selectRanges chain address key)) w
        (txnPost _ w t fun spans u' => u' = u ∧ spans = u.selectRanges chain address key) := by
      rw [meets_execScan]
      refine (meets_execRead_txn h).mono ?_ (fun _ _ h => h) fun _ h => h
      intro rows w₁ hw₁
      refine hw₁.mono Iff.rfl ?_
      rintro _ ⟨rfl, rfl⟩
      refine ⟨rfl, ?_⟩
      rw [cutRows, hcut]
      cases cfg.backend <;> rfl
    refine meets_txn_bind hread fun spans w₁ h₁ _ => ?_
    refine meets_txn_bind (meets_execWrite_txn h₁) fun _ w₂ h₂ _ => ?_
    refine meets_txn_mono (meets_execWrite_txn h₂) ?_
    rintro _ _ ⟨_, ⟨_, ⟨rfl, rfl⟩, rfl⟩, rfl⟩
    rfl
  · cases hv

/-- The statements of `Zponder.trimLogCacheUnlocked` leave what is cut here. -/
theorem meets_trimLogCacheUnlocked (hon : cfg.logCacheEnabled = true)
    (h : InTxn t False (· = u) w.conn) (hv : trimLogCacheUnlocked cfg chain f u = some v) :
    Meets (Zponder.trimLogCacheUnlocked env cfg chain f) w (txnPost Unit w t fun _ => (· = v)) := by
  have heq : Zponder.trimmedCache cfg chain f u = v := by
    by_cases hf : f ≤ maxBigint
    · rw [trimLogCacheUnlocked, hon, if_neg (by decide), Checked.intCast_of_le hf,
        Option.bind_some] at hv
      rw [trimmedCache, if_pos hon]
      dsimp only at hv ⊢
      split
      · next hzero =>
        rw [if_pos hzero] at hv
        exact Option.some.inj hv
      · next hpos =>
        rw [if_neg hpos, Checked.sub_of_le (by omega)] at hv
        exact Option.some.inj hv
    · rw [trimLogCacheUnlocked, hon, if_neg (by decide), Checked.intCast, if_neg hf] at hv
      cases hv
  rw [← heq]
  exact Zponder.meets_trimLogCacheUnlocked h hon chain f

end Client

/-! ### The algebra of the spans -/

/-- **Coverage spans are exact.** Merging separates ranges and changes no block; the holes of a
window and what is covered of it fill it; and in every table reached the rows of a key are
separated, marking adds the blocks of its range to those of its key, and cutting takes the
blocks from the cut on from those of its chain. No sum and no difference is out of range. -/
theorem spans_exact (cfg : Config) (hon : cfg.logCacheEnabled = true) :
    (∀ spans : List BlockSpan, (∀ s ∈ spans, Closed s) →
      ∃ merged, mergeSpans spans = some merged ∧ Separated merged ∧
        ∀ b, Covers merged b ↔ Covers spans b) ∧
    (∀ (covered : List BlockSpan) (a b : Nat), Ordered covered → a ≤ b → b ≤ u64Max →
      ∃ holes, uncovered covered a b (covered.length + 1) = some holes ∧
        holes.length ≤ covered.length + 1 ∧ Ordered holes ∧
        ∀ x, Covers holes x ↔ (a ≤ x ∧ x ≤ b) ∧ ¬Covers covered x) ∧
    (∀ t, Reached cfg t →
      (∀ chain address key, Separated (t.chainLogRanges chain address key)) ∧
      (∀ chain address key f e, f ≤ e → e ≤ u64Max →
        (e ≤ maxBigint → ∃ u, markLogRangeTx chain address key f e t = some u) ∧
        ∀ u, markLogRangeTx chain address key f e t = some u → Reached cfg u ∧
          (∀ b, Covers (u.chainLogRanges chain address key) b ↔
            Covers (t.chainLogRanges chain address key) b ∨ (f ≤ b ∧ b ≤ e)) ∧
          ∀ c a k, ¬(c = chain ∧ a = address ∧ k = key) →
            u.chainLogRanges c a k = t.chainLogRanges c a k) ∧
      ∀ chain f,
        (f ≤ maxBigint → ∃ u, trimLogCacheUnlocked cfg chain f t = some u) ∧
        ∀ u, trimLogCacheUnlocked cfg chain f t = some u → Reached cfg u ∧
          (∀ a k b, Covers (u.chainLogRanges chain a k) b ↔
            b < f ∧ Covers (t.chainLogRanges chain a k) b) ∧
          ∀ c, c ≠ chain → u.chainLogRanges c = t.chainLogRanges c) := by
  refine ⟨fun spans h => mergeSpans_spec h, fun covered a b h hab hb => uncovered_spec h hab hb,
    fun t ht => ⟨fun c a k => (kept_of_reached ht c a k).1, ?_, ?_⟩⟩
  · intro chain address key f e hfe hmax
    refine ⟨(markLogRangeTx_spec (kept_of_reached ht) hfe hmax).1, fun u hu => ⟨?_, ?_⟩⟩
    · exact ht.step (a := .mark chain address key f e) ⟨hfe, hmax⟩ hu
    · exact ((markLogRangeTx_spec (kept_of_reached ht) hfe hmax).2 u hu).2
  · intro chain f
    refine ⟨(trimLogCacheUnlocked_spec hon (kept_of_reached ht)).1, fun u hu => ⟨?_, ?_⟩⟩
    · exact ht.step (a := .trim chain f) trivial hu
    · exact ((trimLogCacheUnlocked_spec hon (kept_of_reached ht)).2 u hu).2

/-- An indexer with a cache. -/
def cachedConfig : Config := { plainConfig with logCache := true }

theorem spans_exact_cached :
    (∃ merged, mergeSpans [⟨5, 9⟩, ⟨1, 4⟩, ⟨u64Max, u64Max⟩] = some merged ∧ Separated merged ∧
      ∀ b, Covers merged b ↔ Covers [⟨5, 9⟩, ⟨1, 4⟩, ⟨u64Max, u64Max⟩] b) ∧
    (∃ holes, uncovered [⟨1, 4⟩] 3 6 2 = some holes ∧ holes.length ≤ 2 ∧ Ordered holes ∧
      ∀ x, Covers holes x ↔ (3 ≤ x ∧ x ≤ 6) ∧ ¬Covers [⟨1, 4⟩] x) ∧
    ∃ u, markLogRangeTx "eth".toList "0xaa".toList "*".toList 1 4 {} = some u ∧
      Reached cachedConfig u := by
  obtain ⟨hmerge, hfill, htable⟩ := spans_exact cachedConfig rfl
  refine ⟨hmerge _ (by simp [Closed, u64Max]),
    hfill [⟨1, 4⟩] 3 6 ⟨by simp [Closed, u64Max], List.pairwise_singleton _ _⟩ (by decide)
      (by decide), ?_⟩
  obtain ⟨hdone, hspec⟩ := (htable {} .init).2.1 "eth".toList "0xaa".toList "*".toList 1 4
    (by decide) (by decide)
  obtain ⟨u, hu⟩ := hdone (by decide)
  exact ⟨u, hu, (hspec u hu).1⟩

end Zponder.Coverage

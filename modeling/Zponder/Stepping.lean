import Zponder.Spans
import Zponder.Lib.Checked

/-!
# Stepping through a range

Three loops go through a range of blocks in chunks: the backfill of a clone, which ends before
a block, the filling of a gap in the live subscription, which ends with a block, and the main
loop, which ends with the tip. How far a chunk reaches is a batch, and a batch the node finds
too much is halved before the chunk is asked for again.

The loops are gone through here with sums and differences that are checked. The chunks are
asked for from left to right, and no block is asked for twice or left out
(`Zponder.Stepping.Tiles`), whatever the node says. At the largest `u64` the last two loops go wrong,
each in its own way: behind it there is no block for the gap to go on with, and the sum ends
the program, while the cursor of the main loop stays where it is and the block is scanned again
and again. For every other end they tile what they are given (`Zponder.Stepping.tiles_iff`).
-/

namespace Zponder.Stepping

/-! ### The ends of chunks, with checked operations -/

/-- `inclusiveChunkEnd` -/
def inclusiveChunkEnd (fromBlock batchSize tip : Nat) : Option Nat :=
  (Checked.sub (clampBatchSize batchSize) 1).map fun n => min (satAdd fromBlock n) tip

/-- `nextLiveChunkEnd` -/
def nextLiveChunkEnd (fromBlock batchSize toBlock : Nat) : Option (Option Nat) :=
  if fromBlock > toBlock then some none
  else (inclusiveChunkEnd fromBlock batchSize toBlock).map some

/-- `nextBackfillChunk` -/
def nextBackfillChunk (fromBlock batchSize toExclusive : Nat) : Option (Option (Nat × Nat)) :=
  if fromBlock ≥ toExclusive then some none
  else
    (Checked.sub (clampBatchSize batchSize) 1).bind fun n =>
      (Checked.sub toExclusive 1).map fun last => some (fromBlock, min (satAdd fromBlock n) last)

/-- `shrinkBatch`: `none` when there is nothing left to halve. -/
def shrinkBatch (batchSize : Nat) : Option Nat :=
  if batchSize ≤ 1 then none else some (max (batchSize / 2) 1)

theorem one_le_clampBatchSize (n : Nat) : 1 ≤ clampBatchSize n := Nat.le_max_left 1 n

theorem inclusiveChunkEnd_eq (f n tip : Nat) :
    inclusiveChunkEnd f n tip = some (Zponder.inclusiveChunkEnd f n tip) := by
  rw [inclusiveChunkEnd, Checked.sub_of_le (one_le_clampBatchSize n)]
  rfl

theorem nextLiveChunkEnd_eq (f n t : Nat) :
    nextLiveChunkEnd f n t = some (Zponder.nextLiveChunkEnd f n t) := by
  rw [nextLiveChunkEnd, inclusiveChunkEnd_eq, Zponder.nextLiveChunkEnd]
  split
  · rfl
  · rfl

theorem nextBackfillChunk_eq (f n t : Nat) :
    nextBackfillChunk f n t = some (Zponder.nextBackfillChunk f n t) := by
  rw [nextBackfillChunk, Zponder.nextBackfillChunk]
  split
  · rfl
  · rw [Checked.sub_of_le (one_le_clampBatchSize n), Option.bind_some, Checked.sub_of_le (by omega)]
    rfl

/-- A chunk of a gap begins where the gap does, and ends within it. -/
theorem nextLiveChunkEnd_bounds {f n t e : Nat} (h : nextLiveChunkEnd f n t = some (some e)) :
    f ≤ e ∧ e ≤ t := by
  rw [nextLiveChunkEnd_eq, Zponder.nextLiveChunkEnd] at h
  split at h
  · cases h
  · obtain rfl := Option.some.inj (Option.some.inj h)
    exact inclusiveChunkEnd_bounds (by omega)

theorem nextLiveChunkEnd_done {f n t : Nat} :
    nextLiveChunkEnd f n t = some none ↔ t < f := by
  rw [nextLiveChunkEnd_eq, Zponder.nextLiveChunkEnd]
  split
  · next h => exact iff_of_true rfl h
  · next h => exact iff_of_false (by simp) h

/-- A chunk of a backfill begins where what is left does, and ends within it. -/
theorem nextBackfillChunk_bounds {f n t : Nat} {c : Nat × Nat}
    (h : nextBackfillChunk f n t = some (some c)) : c.1 = f ∧ f ≤ c.2 ∧ c.2 < t := by
  rw [nextBackfillChunk_eq, Zponder.nextBackfillChunk] at h
  split at h
  · cases h
  · obtain rfl := Option.some.inj (Option.some.inj h)
    refine ⟨rfl, ?_, ?_⟩
    · simp only [backfillLast, satAdd]
      omega
    · simp only [backfillLast]
      omega

theorem nextBackfillChunk_done {f n t : Nat} :
    nextBackfillChunk f n t = some none ↔ t ≤ f := by
  rw [nextBackfillChunk_eq, Zponder.nextBackfillChunk]
  split
  · next h => exact iff_of_true rfl h
  · next h => exact iff_of_false (by simp) h

theorem shrinkBatch_lt {n m : Nat} (h : shrinkBatch n = some m) : m < n := by
  unfold shrinkBatch at h
  split at h
  · cases h
  · obtain rfl := Option.some.inj h
    omega

/-! ### The loops -/

/-- What becomes of the scan of a chunk. -/
inductive Answer where
  | scanned
  /-- The node finds the chunk too much. -/
  | limit
  | failed
  deriving DecidableEq, Repr

/-- How a loop ends: at the end of the range, with an error, or with the program. -/
inductive Ending where
  | done
  | failed
  | trapped
  deriving DecidableEq, Repr

/-- The chunks that were scanned, and how the loop ended. -/
structure Walk where
  chunks : List (Nat × Nat)
  ending : Ending
  deriving DecidableEq, Repr

/-- A chunk, and what comes after it. -/
def Walk.after (c : Nat × Nat) (w : Walk) : Walk := { w with chunks := c :: w.chunks }

section Loops

variable (answer : Nat → Answer)

/-- `backfillRange`, with the batch as it is at each turn. What the node finds too much is left
to the next round. -/
def backfillRange (batchSize : Nat → Nat) (toExclusive turn fromBlock : Nat) : Walk :=
  match _h : nextBackfillChunk fromBlock (batchSize turn) toExclusive with
  | none => ⟨[], .trapped⟩
  | some none => ⟨[], .done⟩
  | some (some chunk) =>
    match answer turn with
    | .scanned =>
      match _hnext : Checked.add u64Max chunk.2 1 with
      | none => ⟨[chunk], .trapped⟩
      | some next => (backfillRange batchSize toExclusive (turn + 1) next).after chunk
    | .limit => ⟨[], .failed⟩
    | .failed => ⟨[], .failed⟩
termination_by toExclusive - fromBlock
decreasing_by
  have := nextBackfillChunk_bounds _h
  unfold Checked.add at _hnext
  split at _hnext
  · obtain rfl := Option.some.inj _hnext
    omega
  · cases _hnext

/-- `fillLiveGap` -/
def fillLiveGap (toBlock turn batchSize fromBlock : Nat) : Walk :=
  match _h : nextLiveChunkEnd fromBlock batchSize toBlock with
  | none => ⟨[], .trapped⟩
  | some none => ⟨[], .done⟩
  | some (some last) =>
    match answer turn with
    | .scanned =>
      match _hnext : Checked.add u64Max last 1 with
      | none => ⟨[(fromBlock, last)], .trapped⟩
      | some next => (fillLiveGap toBlock (turn + 1) batchSize next).after (fromBlock, last)
    | .limit =>
      match _hhalf : shrinkBatch batchSize with
      | none => ⟨[], .failed⟩
      | some half => fillLiveGap toBlock (turn + 1) half fromBlock
    | .failed => ⟨[], .failed⟩
termination_by (toBlock + 1 - fromBlock, batchSize)
decreasing_by
  · have := nextLiveChunkEnd_bounds _h
    unfold Checked.add at _hnext
    split at _hnext
    · obtain rfl := Option.some.inj _hnext
      exact Prod.Lex.left _ _ (by omega)
    · cases _hnext
  · exact Prod.Lex.right _ (shrinkBatch_lt _hhalf)

end Loops

/-- The main loop between two turns. -/
structure Sweep where
  cursor : Nat
  batchSize : Nat
  replayLimit : Nat
  chunks : List (Nat × Nat) := []
  deriving DecidableEq, Repr

/-- One turn of `runLoop` while the tip stays where it is: nothing behind the tip, and otherwise
a chunk, whose failure leaves the cursor. -/
def turn (tip : Nat) (s : Sweep) (answer : Answer) : Option Sweep :=
  let s := if s.replayLimit ≠ 0 ∧ s.cursor > s.replayLimit then { s with replayLimit := 0 } else s
  if bridgeNeedsScan s.cursor tip = false then some s
  else
    (inclusiveChunkEnd s.cursor s.batchSize tip).map fun last =>
      let last := if s.replayLimit ≠ 0 then min last s.replayLimit else last
      match answer with
      | .scanned =>
        { s with cursor := cursorAfterBlock last, chunks := s.chunks ++ [(s.cursor, last)] }
      | .limit => { s with batchSize := (shrinkBatch s.batchSize).getD s.batchSize }
      | .failed => s

/-- Turns, one after the other. -/
def sweep (tip : Nat) (s : Sweep) (answers : List Answer) : Option Sweep :=
  answers.foldlM (turn tip) s

/-! ### Tilings -/

/-- The blocks of some chunks, chunk after chunk. -/
def blocks (chunks : List (Nat × Nat)) : List Nat :=
  chunks.flatMap fun c => List.range' c.1 (c.2 + 1 - c.1)

/-- A walk through the blocks from `a` to before `b`: it gets through a beginning of them, each
block once and in order, and through all of them if it says so. -/
structure Tiles (w : Walk) (a b : Nat) : Prop where
  untrapped : w.ending ≠ .trapped
  begun : ∃ n ≤ b - a, blocks w.chunks = List.range' a n
  done : w.ending = .done → blocks w.chunks = List.range' a (b - a)

theorem blocks_cons (c : Nat × Nat) (cs : List (Nat × Nat)) :
    blocks (c :: cs) = List.range' c.1 (c.2 + 1 - c.1) ++ blocks cs := List.flatMap_cons

theorem blocks_append (cs ds : List (Nat × Nat)) :
    blocks (cs ++ ds) = blocks cs ++ blocks ds := List.flatMap_append

/-- A range, cut at a place within it. -/
theorem range'_cut {a m b : Nat} (ham : a ≤ m) (hmb : m ≤ b) :
    List.range' a (m - a) ++ List.range' m (b - m) = List.range' a (b - a) := by
  have h := List.range'_append_1 (s := a) (m := m - a) (n := b - m)
  rwa [Nat.add_sub_cancel' ham, show m - a + (b - m) = b - a by omega] at h

/-- Nothing was scanned. -/
theorem tiles_nil {e : Ending} {a b : Nat} (he : e ≠ .trapped) (hdone : e = .done → b ≤ a) :
    Tiles ⟨[], e⟩ a b where
  untrapped := he
  begun := ⟨0, Nat.zero_le _, rfl⟩
  done h := by
    rw [Nat.sub_eq_zero_of_le (hdone h)]
    rfl

theorem tiles_failed (a b : Nat) : Tiles ⟨[], .failed⟩ a b :=
  tiles_nil (by decide) fun h => Ending.noConfusion h

/-- A chunk before a walk that goes on behind it. -/
theorem Tiles.after {w : Walk} {a e b : Nat} (h : Tiles w (e + 1) b) (hae : a ≤ e) (heb : e < b) :
    Tiles (w.after (a, e)) a b where
  untrapped := h.untrapped
  begun := by
    obtain ⟨n, hn, hblocks⟩ := h.begun
    refine ⟨e + 1 - a + n, by omega, ?_⟩
    have hjoin := range'_cut (a := a) (m := e + 1) (b := e + 1 + n) (by omega) (by omega)
    rw [Walk.after, blocks_cons, hblocks]
    rwa [Nat.add_sub_cancel_left, show e + 1 + n - a = e + 1 - a + n by omega] at hjoin
  done hdone := by
    rw [Walk.after, blocks_cons, h.done hdone]
    exact range'_cut (by omega) heb

/-! ### The backfill -/

section Loops

variable {answer : Nat → Answer}

/-- **A backfill tiles its range**, and gets to the end of it if no scan fails. -/
theorem tiles_backfillRange {t : Nat} (ht : t ≤ u64Max) (batchSize : Nat → Nat) (turn f : Nat) :
    Tiles (backfillRange answer batchSize t turn f) f t ∧
      ((∀ n, answer n = .scanned) → (backfillRange answer batchSize t turn f).ending = .done) := by
  fun_induction backfillRange answer batchSize t turn f with
  | case1 turn f h =>
    rw [nextBackfillChunk_eq] at h
    cases h
  | case2 turn f h =>
    exact ⟨tiles_nil (by decide) fun _ => nextBackfillChunk_done.1 h, fun _ => rfl⟩
  | case3 turn f c h _ hnext =>
    have := nextBackfillChunk_bounds h
    rw [Checked.add_of_le (by omega)] at hnext
    cases hnext
  | case4 turn f c h _ next hnext ih =>
    obtain ⟨rfl, hle, hlt⟩ := nextBackfillChunk_bounds h
    rw [Checked.add_of_le (by omega)] at hnext
    obtain rfl := Option.some.inj hnext
    exact ⟨ih.1.after hle hlt, ih.2⟩
  | case5 turn f c h hlimit =>
    exact ⟨tiles_failed _ _, fun hall => Answer.noConfusion ((hall turn).symm.trans hlimit)⟩
  | case6 turn f c h hfailed =>
    exact ⟨tiles_failed _ _, fun hall => Answer.noConfusion ((hall turn).symm.trans hfailed)⟩

/-! ### The gap -/

/-- **A gap below the largest block is tiled**, and filled if no scan fails. -/
theorem tiles_fillLiveGap {t : Nat} (ht : t < u64Max) (turn batchSize f : Nat) :
    Tiles (fillLiveGap answer t turn batchSize f) f (t + 1) ∧
      ((∀ n, answer n = .scanned) → (fillLiveGap answer t turn batchSize f).ending = .done) := by
  fun_induction fillLiveGap answer t turn batchSize f with
  | case1 turn n f h =>
    rw [nextLiveChunkEnd_eq] at h
    cases h
  | case2 turn n f h =>
    exact ⟨tiles_nil (by decide) fun _ => nextLiveChunkEnd_done.1 h, fun _ => rfl⟩
  | case3 turn n f e h _ hnext =>
    have := nextLiveChunkEnd_bounds h
    rw [Checked.add_of_le (by omega)] at hnext
    cases hnext
  | case4 turn n f e h _ next hnext ih =>
    have hbounds := nextLiveChunkEnd_bounds h
    rw [Checked.add_of_le (by omega)] at hnext
    obtain rfl := Option.some.inj hnext
    exact ⟨ih.1.after hbounds.1 (by omega), ih.2⟩
  | case5 turn n f e h hlimit =>
    exact ⟨tiles_failed _ _, fun hall => Answer.noConfusion ((hall turn).symm.trans hlimit)⟩
  | case6 turn n f e h hlimit half _ ih =>
    exact ⟨ih.1, fun hall => Answer.noConfusion ((hall turn).symm.trans hlimit)⟩
  | case7 turn n f e h hfailed =>
    exact ⟨tiles_failed _ _, fun hall => Answer.noConfusion ((hall turn).symm.trans hfailed)⟩

/-- A gap that ends with the largest block is never done: behind the block there is none. -/
theorem fillLiveGap_last (turn batchSize : Nat) {f : Nat} (hf : f ≤ u64Max) :
    (fillLiveGap answer u64Max turn batchSize f).ending ≠ .done := by
  fun_induction fillLiveGap answer u64Max turn batchSize f with
  | case1 => exact Ending.noConfusion
  | case2 turn n f h => exact absurd hf (Nat.not_le.2 (nextLiveChunkEnd_done.1 h))
  | case3 => exact Ending.noConfusion
  | case4 turn n f e h _ next hnext ih =>
    unfold Checked.add at hnext
    split at hnext
    · obtain rfl := Option.some.inj hnext
      exact ih (by assumption)
    · cases hnext
  | case5 => exact Ending.noConfusion
  | case6 turn n f e h _ half _ ih => exact ih hf
  | case7 => exact Ending.noConfusion

end Loops

/-! ### The main loop -/

/-- What the main loop has scanned since its cursor was at `c`: the blocks before the cursor,
each of them once. -/
structure Swept (c tip : Nat) (s : Sweep) : Prop where
  le_cursor : c ≤ s.cursor
  cursor_le : s.cursor ≤ max c (tip + 1)
  blocks_eq : blocks s.chunks = List.range' c (s.cursor - c)

/-- A turn leaves the cursor where it is, or goes on behind a chunk. -/
theorem turn_cases (tip : Nat) (s : Sweep) (a : Answer) :
    (∃ n r, turn tip s a = some { s with batchSize := n, replayLimit := r } ∧
        (a = .scanned → tip < s.cursor)) ∨
      ∃ r last, (s.cursor ≤ last ∧ last ≤ tip) ∧ a = .scanned ∧
        turn tip s a = some { s with
          replayLimit := r
          cursor := cursorAfterBlock last
          chunks := s.chunks ++ [(s.cursor, last)] } := by
  obtain ⟨r, hr, hlimit⟩ : ∃ r, (if s.replayLimit ≠ 0 ∧ s.cursor > s.replayLimit then
      { s with replayLimit := 0 } else s) = { s with replayLimit := r } ∧ (r ≠ 0 → s.cursor ≤ r) := by
    split
    · exact ⟨0, rfl, fun h => absurd rfl h⟩
    · next h => exact ⟨s.replayLimit, rfl, fun hne => by omega⟩
  rw [turn]
  simp only [hr]
  by_cases hneeds : bridgeNeedsScan s.cursor tip = false
  · rw [if_pos hneeds]
    refine .inl ⟨s.batchSize, r, rfl, fun _ => ?_⟩
    simpa [bridgeNeedsScan] using hneeds
  · have hle : s.cursor ≤ tip := by simpa [bridgeNeedsScan] using hneeds
    have hend := inclusiveChunkEnd_bounds (n := s.batchSize) hle
    rw [if_neg hneeds, inclusiveChunkEnd_eq, Option.map_some]
    cases a with
    | limit => exact .inl ⟨_, r, rfl, fun h => Answer.noConfusion h⟩
    | failed => exact .inl ⟨s.batchSize, r, rfl, fun h => Answer.noConfusion h⟩
    | scanned =>
      refine .inr ⟨r, _, ?_, rfl, rfl⟩
      split
      · next hne =>
        have := hlimit hne
        omega
      · exact hend

/-- Below the largest block the cursor goes on behind the chunk. -/
theorem cursorAfterBlock_eq {b : Nat} (hb : b < u64Max) : cursorAfterBlock b = b + 1 := by
  unfold cursorAfterBlock satAdd
  omega

/-- **The main loop below the largest block**: it scans the blocks before its cursor, and as many
scans as there are blocks take it past the tip. -/
theorem swept_sweep {c tip : Nat} (htip : tip < u64Max) (answers : List Answer) {s : Sweep}
    (h : Swept c tip s) : ∃ u, sweep tip s answers = some u ∧ Swept c tip u ∧
      (tip + 1 - s.cursor ≤ answers.count .scanned → tip < u.cursor) := by
  induction answers generalizing s with
  | nil =>
    refine ⟨s, rfl, h, fun hcount => ?_⟩
    rw [List.count_nil] at hcount
    omega
  | cons a answers ih =>
    rw [sweep, List.foldlM_cons]
    rcases turn_cases tip s a with ⟨n, r, hturn, hwait⟩ | ⟨r, last, hlast, rfl, hturn⟩
    · have hkept : Swept c tip { s with batchSize := n, replayLimit := r } :=
        ⟨h.le_cursor, h.cursor_le, h.blocks_eq⟩
      obtain ⟨u, hu, hswept, hpast⟩ := ih hkept
      rw [hturn]
      refine ⟨u, hu, hswept, fun hcount => hpast ?_⟩
      by_cases ha : a = .scanned
      · have := hwait ha
        simp only
        omega
      · rwa [List.count_cons_of_ne ha] at hcount
    · have hnext := cursorAfterBlock_eq (b := last) (by omega)
      have hgone : Swept c tip { s with
          replayLimit := r
          cursor := cursorAfterBlock last
          chunks := s.chunks ++ [(s.cursor, last)] } := by
        have hle := h.le_cursor
        refine ⟨by simp only; omega, by simp only; omega, ?_⟩
        rw [blocks_append, h.blocks_eq, blocks_cons, hnext, blocks, List.flatMap_nil,
          List.append_nil]
        exact range'_cut hle (by omega)
      obtain ⟨u, hu, hswept, hpast⟩ := ih hgone
      rw [hturn]
      refine ⟨u, hu, hswept, fun hcount => hpast ?_⟩
      rw [List.count_cons_self] at hcount
      simp only
      omega

/-- At the largest block the cursor stays. -/
theorem sweep_last (answers : List Answer) {s u : Sweep} (hs : s.cursor ≤ u64Max)
    (hu : sweep u64Max s answers = some u) : u.cursor ≤ u64Max := by
  induction answers generalizing s with
  | nil => exact Option.some.inj hu ▸ hs
  | cons a answers ih =>
    rw [sweep, List.foldlM_cons] at hu
    rcases turn_cases u64Max s a with ⟨n, r, hturn, -⟩ | ⟨r, last, hlast, -, hturn⟩
    · rw [hturn] at hu
      exact ih (s := { s with batchSize := n, replayLimit := r }) hs hu
    · rw [hturn] at hu
      refine ih ?_ hu
      simp only [cursorAfterBlock, satAdd]
      omega

/-! ### All three -/

/-- The backfill tiles its range whatever the node says and however the batch changes. -/
def BackfillTiles (f t : Nat) : Prop := ∀ answer batchSize,
  Tiles (backfillRange answer batchSize t 0 f) f t ∧
    ((∀ n, answer n = .scanned) → (backfillRange answer batchSize t 0 f).ending = .done)

/-- The gap is tiled whatever the node says. -/
def GapTiles (f t : Nat) : Prop := ∀ answer batchSize,
  Tiles (fillLiveGap answer t 0 batchSize f) f (t + 1) ∧
    ((∀ n, answer n = .scanned) → (fillLiveGap answer t 0 batchSize f).ending = .done)

/-- The main loop tiles the blocks up to the tip, whatever the node says. -/
def SweepTiles (c tip : Nat) : Prop := ∀ answers batchSize replayLimit,
  ∃ u, sweep tip ⟨c, batchSize, replayLimit, []⟩ answers = some u ∧ Swept c tip u ∧
    (tip + 1 - c ≤ answers.count .scanned → tip < u.cursor)

theorem gapTiles_iff {f t : Nat} (hf : f ≤ u64Max) (ht : t ≤ u64Max) :
    GapTiles f t ↔ t < u64Max := by
  refine ⟨fun h => ?_, fun hlt answer n => tiles_fillLiveGap hlt 0 n f⟩
  by_contra hge
  obtain rfl : t = u64Max := by omega
  exact fillLiveGap_last 0 1 hf ((h (fun _ => .scanned) 1).2 fun _ => rfl)

theorem sweepTiles_iff {c tip : Nat} (hc : c ≤ u64Max) (htip : tip ≤ u64Max) :
    SweepTiles c tip ↔ tip < u64Max := by
  refine ⟨fun h => ?_, fun hlt answers n r => ?_⟩
  · by_contra hge
    obtain rfl : tip = u64Max := by omega
    obtain ⟨u, hu, -, hpast⟩ := h (List.replicate (u64Max + 1 - c) .scanned) 1 0
    have hle := sweep_last _ hc hu
    rw [List.count_replicate_self] at hpast
    exact Nat.not_lt.2 hle (hpast le_rfl)
  · refine swept_sweep hlt answers ⟨le_rfl, by simp only; omega, ?_⟩
    rw [Nat.sub_self]
    rfl

/-- **The loops tile their ranges** if the gap and the main loop end below the largest block. -/
theorem tiles_iff {f t f' t' c tip : Nat} (ht : t ≤ u64Max) (hf' : f' ≤ u64Max) (ht' : t' ≤ u64Max)
    (hc : c ≤ u64Max) (htip : tip ≤ u64Max) :
    (BackfillTiles f t ∧ GapTiles f' t' ∧ SweepTiles c tip) ↔ t' < u64Max ∧ tip < u64Max := by
  have hbackfill : BackfillTiles f t := fun answer n => tiles_backfillRange ht n 0 f
  rw [and_iff_right hbackfill, gapTiles_iff hf' ht', sweepTiles_iff hc htip]

theorem tiles_iff_hundred :
    (BackfillTiles 0 100 ∧ GapTiles 100 200 ∧ SweepTiles 200 300) ↔ 200 < u64Max ∧ 300 < u64Max :=
  tiles_iff (by decide) (by decide) (by decide) (by decide) (by decide)

/-- A gap that ends with the largest block ends the program, and the main loop scans the block
over and over. -/
theorem not_tiles_last :
    ¬GapTiles u64Max u64Max ∧ ¬SweepTiles u64Max u64Max ∧
      (sweep u64Max ⟨u64Max, 1, 0, []⟩ [.scanned, .scanned]).map (·.chunks) =
        some [(u64Max, u64Max), (u64Max, u64Max)] := by
  refine ⟨fun h => ?_, fun h => ?_, by decide +kernel⟩
  · exact fillLiveGap_last 0 1 le_rfl ((h (fun _ => .scanned) 1).2 fun _ => rfl)
  · exact absurd ((sweepTiles_iff le_rfl le_rfl).1 h) (lt_irrefl _)

end Zponder.Stepping

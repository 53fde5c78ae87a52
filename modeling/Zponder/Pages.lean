import Zponder.Complete

/-!
# Cutting a page

A node that has more logs than it answers with leaves out the last of them. `cutLogPage` takes
an answer apart: it puts the logs in order, in place, and counts how many of them are to be
kept, which are those of the blocks before the highest where the answer is a full page.

`Zponder.cutLogPage` is this with the kept logs in the place of the count
(`Zponder.Pages.cutLogPage_eq`). Here the count is what it is in the source, a loop over the
sorted logs, and what it says about the answer is proved of any answer
(`Zponder.Pages.cut_cutLogPage`). What it says about the logs the node has is right as far as a
page that is not full has all of them (`Zponder.Pages.complete_cutLogPage`), which is what the
limit of a page is for; of a node that leaves logs out of a shorter answer it is wrong
(`Zponder.Pages.not_complete_short`).
-/

namespace Zponder.Pages

/-- `LogPage` -/
structure LogPage where
  keep : Nat
  endBlock : Nat
  truncated : Bool
  deriving DecidableEq, Repr

/-- The loop that counts the logs up to a block. -/
def keepUpTo (logs : List Log) (e keep : Nat) : Nat :=
  if h : keep < logs.length then
    if logs[keep].blockNumber ≤ e then keepUpTo logs e (keep + 1) else keep
  else keep
termination_by logs.length - keep

/-- `cutLogPage`, with the logs as it leaves them. -/
def cutLogPage (logs : List Log) (fromBlock toBlock : Nat) : List Log × LogPage :=
  let logs := sortLogs logs
  let maxBlock := logs.foldl (fun m lg => max m lg.blockNumber) fromBlock
  match pageEnd fromBlock toBlock maxBlock logs.length getlogsPageLimit with
  | none => (logs, ⟨0, fromBlock, true⟩)
  | some e =>
    if logs.length < getlogsPageLimit then (logs, ⟨logs.length, e, false⟩)
    else (logs, ⟨keepUpTo logs e 0, e, true⟩)

/-! ### The count -/

theorem keepUpTo_eq (logs : List Log) (e keep : Nat) : keepUpTo logs e keep =
    keep + ((logs.drop keep).takeWhile fun lg => lg.blockNumber ≤ e).length := by
  induction keep using keepUpTo.induct logs e with
  | case1 keep h hle ih =>
    have hcons : ((logs.drop keep).takeWhile fun lg => lg.blockNumber ≤ e) =
        logs[keep] :: (logs.drop (keep + 1)).takeWhile fun lg => lg.blockNumber ≤ e := by
      rw [List.drop_eq_getElem_cons h, List.takeWhile_cons, if_pos (decide_eq_true hle)]
    rw [keepUpTo, dif_pos h, if_pos hle, ih, hcons, List.length_cons]
    omega
  | case2 keep h hle =>
    rw [keepUpTo, dif_pos h, if_neg hle, List.drop_eq_getElem_cons h, List.takeWhile_cons,
      if_neg (by rwa [decide_eq_true_eq])]
    rfl
  | case3 keep h =>
    rw [keepUpTo, dif_neg h, List.drop_of_length_le (Nat.not_lt.1 h)]
    rfl

theorem take_keepUpTo (logs : List Log) (e : Nat) :
    logs.take (keepUpTo logs e 0) = logs.takeWhile fun lg => lg.blockNumber ≤ e := by
  rw [keepUpTo_eq, List.drop_zero, Nat.zero_add]
  exact (List.prefix_iff_eq_take.1 (List.takeWhile_prefix _)).symm

theorem keepUpTo_le (logs : List Log) (e : Nat) : keepUpTo logs e 0 ≤ logs.length := by
  rw [keepUpTo_eq, List.drop_zero, Nat.zero_add]
  exact (List.takeWhile_prefix _).length_le

/-- **The page of the model of a fetch** is this one. -/
theorem cutLogPage_eq (logs : List Log) (f t : Nat) : Zponder.cutLogPage logs f t =
    ⟨(cutLogPage logs f t).1.take (cutLogPage logs f t).2.keep,
      (cutLogPage logs f t).2.endBlock, (cutLogPage logs f t).2.truncated⟩ := by
  unfold Zponder.cutLogPage cutLogPage
  simp only
  cases pageEnd f t ((sortLogs logs).foldl (fun m lg => max m lg.blockNumber) f)
      (sortLogs logs).length getlogsPageLimit with
  | none => rfl
  | some e =>
    simp only
    split
    · rw [List.take_length]
    · rw [take_keepUpTo]

theorem cutLogPage_logs (logs : List Log) (f t : Nat) :
    (cutLogPage logs f t).1 = sortLogs logs := by
  unfold cutLogPage
  simp only
  split
  · rfl
  · split <;> rfl

/-! ### What a cut is -/

/-- What is to be found of an answer: its logs in order, and by how many logs it has and whether
they are all of one block, how many are kept and up to where. -/
structure Cut (logs : List Log) (fromBlock toBlock : Nat) (out : List Log × LogPage) : Prop where
  perm : out.1.Perm logs
  ordered : out.1.Pairwise Log.le
  short : logs.length < getlogsPageLimit → out.2 = ⟨logs.length, toBlock, false⟩
  page : getlogsPageLimit ≤ logs.length → (∃ lg ∈ logs, lg.blockNumber ≠ fromBlock) →
    out.2.truncated = true ∧ fromBlock ≤ out.2.endBlock ∧
      (∃ lg ∈ logs, (∀ x ∈ logs, x.blockNumber ≤ lg.blockNumber) ∧
        out.2.endBlock < lg.blockNumber) ∧
      out.2.keep ≤ out.1.length ∧
      out.1.take out.2.keep = out.1.filter fun lg => lg.blockNumber ≤ out.2.endBlock
  stuck : getlogsPageLimit ≤ logs.length → (∀ lg ∈ logs, lg.blockNumber = fromBlock) →
    out.2.truncated = true ∧ out.2.keep = 0

/-- The answer is a part of a full one, which has its logs by block, from the first on; the
order it comes in may be any. -/
structure Front (full logs : List Log) : Prop where
  ordered : full.Pairwise fun a b => a.blockNumber ≤ b.blockNumber
  perm : ∃ front, front <+: full ∧ front.Perm logs

/-- The kept part has every log of the full answer, up to its end. -/
def Complete (full : List Log) (out : List Log × LogPage) : Prop :=
  (out.1.take out.2.keep).Perm (full.filter fun lg => lg.blockNumber ≤ out.2.endBlock)

section Cut

variable {logs : List Log} {f t : Nat}

theorem cutLogPage_short (h : logs.length < getlogsPageLimit) :
    (cutLogPage logs f t).2 = ⟨logs.length, t, false⟩ := by
  unfold cutLogPage pageEnd
  simp only [length_sortLogs]
  rw [if_pos (.inr h)]
  exact congrArg Prod.snd (if_pos h)

/-- The highest block is that of a log, where one is above the block the range starts at. -/
theorem exists_highest (h : ∃ lg ∈ logs, f < lg.blockNumber) :
    ∃ top ∈ logs, (∀ x ∈ logs, x.blockNumber ≤ top.blockNumber) ∧ f < top.blockNumber ∧
      (sortLogs logs).foldl (fun m lg => max m lg.blockNumber) f = top.blockNumber := by
  obtain ⟨lg, hlg, hlt⟩ := h
  obtain ⟨m, hm⟩ : ∃ m, (sortLogs logs).foldl (fun m lg => max m lg.blockNumber) f = m := ⟨_, rfl⟩
  obtain ⟨hf, hle⟩ := foldl_max_le.1 hm.le
  have hfm : f < m := hlt.trans_le (hle lg (mem_sortLogs.2 hlg))
  -- were all of them below, the maximum would be below itself
  obtain ⟨top, htop, heq⟩ : ∃ top ∈ logs, top.blockNumber = m := by
    by_contra hno
    push Not at hno
    have hlow : (sortLogs logs).foldl (fun m lg => max m lg.blockNumber) f ≤ m - 1 :=
      foldl_max_le.2 ⟨by omega, fun x hx => by
        have hne := hno x (mem_sortLogs.1 hx)
        have hxm := hle x hx
        omega⟩
    omega
  exact ⟨top, htop, fun x hx => heq ▸ hle x (mem_sortLogs.2 hx), heq ▸ hfm, hm.trans heq.symm⟩

/-- A full page whose logs are not all at the beginning ends below its highest block. -/
theorem cutLogPage_page (hlen : getlogsPageLimit ≤ logs.length)
    (hrange : ∀ lg ∈ logs, lg.blockNumber ≤ t) {top : Log} (htop : top ∈ logs)
    (hlt : f < top.blockNumber)
    (hmax : (sortLogs logs).foldl (fun m lg => max m lg.blockNumber) f = top.blockNumber) :
    cutLogPage logs f t = (sortLogs logs,
      ⟨keepUpTo (sortLogs logs) (top.blockNumber - 1) 0, top.blockNumber - 1, true⟩) := by
  have htopt := hrange top htop
  have hend : pageEnd f t top.blockNumber logs.length getlogsPageLimit =
      some (top.blockNumber - 1) := by
    unfold pageEnd
    rw [if_neg (by simp only [getlogsPageLimit] at hlen ⊢; omega), if_neg (by omega),
      if_neg (by omega)]
  unfold cutLogPage
  simp only [length_sortLogs, hmax, hend]
  rw [if_neg (by omega)]

theorem cutLogPage_stuck (hlen : getlogsPageLimit ≤ logs.length)
    (hall : ∀ lg ∈ logs, lg.blockNumber = f) :
    (cutLogPage logs f t).2 = ⟨0, f, true⟩ := by
  have hmax : (sortLogs logs).foldl (fun m lg => max m lg.blockNumber) f ≤ f :=
    foldl_max_le.2 ⟨le_rfl, fun lg hlg => (hall lg (mem_sortLogs.1 hlg)).le⟩
  have hend : pageEnd f t ((sortLogs logs).foldl (fun m lg => max m lg.blockNumber) f)
      logs.length getlogsPageLimit = none := by
    unfold pageEnd
    rw [if_neg (by simp only [getlogsPageLimit] at hlen ⊢; omega), if_pos hmax]
  unfold cutLogPage
  simp only [length_sortLogs, hend]

/-- **An answer is cut as it is to be.** -/
theorem cut_cutLogPage (hrange : ∀ lg ∈ logs, f ≤ lg.blockNumber ∧ lg.blockNumber ≤ t) :
    Cut logs f t (cutLogPage logs f t) where
  perm := by
    rw [cutLogPage_logs]
    exact List.perm_insertionSort Log.le logs
  ordered := by
    rw [cutLogPage_logs]
    exact pairwise_sortLogs logs
  short := cutLogPage_short
  page hlen hne := by
    obtain ⟨lg, hlg, hne⟩ := hne
    obtain ⟨top, htop, hhigh, hlt, hmax⟩ :=
      exists_highest ⟨lg, hlg, lt_of_le_of_ne (hrange lg hlg).1 hne.symm⟩
    rw [cutLogPage_page hlen (fun x hx => (hrange x hx).2) htop hlt hmax]
    refine ⟨rfl, ?_, ⟨top, htop, hhigh, ?_⟩, keepUpTo_le _ _, ?_⟩
    · show f ≤ top.blockNumber - 1
      omega
    · show top.blockNumber - 1 < top.blockNumber
      omega
    · exact (take_keepUpTo _ _).trans (takeWhile_sorted (pairwise_sortLogs logs))
  stuck hlen hall := by
    rw [cutLogPage_stuck hlen hall]
    exact ⟨rfl, rfl⟩

/-- What a full answer has beyond a part of it is not below the blocks of that part. -/
theorem Front.filter_perm {full : List Log} (h : Front full logs) {e : Nat}
    (htop : ∃ lg ∈ logs, e < lg.blockNumber) :
    (logs.filter fun lg => lg.blockNumber ≤ e).Perm
      (full.filter fun lg => lg.blockNumber ≤ e) := by
  obtain ⟨front, ⟨rest, rfl⟩, hperm⟩ := h.perm
  obtain ⟨top, htop, hlt⟩ := htop
  have hrest : (rest.filter fun lg => lg.blockNumber ≤ e) = [] := by
    refine List.filter_eq_nil_iff.2 fun x hx => ?_
    have hle := (List.pairwise_append.1 h.ordered).2.2 top (hperm.mem_iff.2 htop) x hx
    rw [decide_eq_true_eq]
    omega
  rw [List.filter_append, hrest, List.append_nil]
  exact (hperm.filter _).symm

/-- **The kept part is complete**, where a page that is not full has all there is. -/
theorem complete_cutLogPage (hrange : ∀ lg ∈ logs, f ≤ lg.blockNumber ∧ lg.blockNumber ≤ t)
    {full : List Log} (h : Front full logs)
    (hwhole : logs.length < getlogsPageLimit → full.Perm logs)
    (hcut : (cutLogPage logs f t).2.truncated = false ∨ ∃ lg ∈ logs, f < lg.blockNumber) :
    Complete full (cutLogPage logs f t) := by
  have hc := cut_cutLogPage hrange
  unfold Complete
  by_cases hlen : logs.length < getlogsPageLimit
  · have hall : (full.filter fun lg => lg.blockNumber ≤ t) = full :=
      List.filter_eq_self.2 fun x hx =>
        decide_eq_true (hrange x ((hwhole hlen).mem_iff.1 hx)).2
    rw [hc.short hlen, ← hc.perm.length_eq, List.take_length]
    simp only [hall]
    exact hc.perm.trans (hwhole hlen).symm
  · have hlen := Nat.not_lt.1 hlen
    by_cases hone : ∃ lg ∈ logs, lg.blockNumber ≠ f
    · obtain ⟨-, -, ⟨top, htop, -, hlt⟩, -, htake⟩ := hc.page hlen hone
      rw [htake]
      exact (hc.perm.filter _).trans (h.filter_perm ⟨top, htop, hlt⟩)
    · push Not at hone
      rcases hcut with htr | ⟨lg, hlg, hlt⟩
      · exact absurd ((hc.stuck hlen hone).1.symm.trans htr) Bool.noConfusion
      · exact absurd (hone lg hlg) hlt.ne'

end Cut

/-- **Page cutting keeps only whole blocks**: of every answer the cut is what it is to be, and
what is kept of an answer that is a part of a full one is complete, where a page that is not
full has all there is. -/
theorem cutLogPage_whole (logs : List Log) (f t : Nat)
    (hrange : ∀ lg ∈ logs, f ≤ lg.blockNumber ∧ lg.blockNumber ≤ t) :
    Cut logs f t (cutLogPage logs f t) ∧
      ∀ full, Front full logs → (logs.length < getlogsPageLimit → full.Perm logs) →
        ((cutLogPage logs f t).2.truncated = false ∨ ∃ lg ∈ logs, f < lg.blockNumber) →
          Complete full (cutLogPage logs f t) :=
  ⟨cut_cutLogPage hrange, fun _ h hwhole => complete_cutLogPage hrange h hwhole⟩

/-- A log of a block, by its index there. -/
def logAt (block index : Nat) : Log := ⟨[], [], [], block, [], index, false⟩

theorem cutLogPage_whole_two : Cut [logAt 6 0, logAt 5 1] 5 6
      (cutLogPage [logAt 6 0, logAt 5 1] 5 6) ∧
    ∀ full, Front full [logAt 6 0, logAt 5 1] →
      ([logAt 6 0, logAt 5 1].length < getlogsPageLimit → full.Perm [logAt 6 0, logAt 5 1]) →
      ((cutLogPage [logAt 6 0, logAt 5 1] 5 6).2.truncated = false ∨
        ∃ lg ∈ [logAt 6 0, logAt 5 1], 5 < lg.blockNumber) →
      Complete full (cutLogPage [logAt 6 0, logAt 5 1] 5 6) :=
  cutLogPage_whole [logAt 6 0, logAt 5 1] 5 6 (by decide)

/-- Of a node that has two logs of a block and answers with one of them, the block is taken to
be complete. -/
theorem not_complete_short : ¬∀ full, Front full [logAt 5 0] →
    ((cutLogPage [logAt 5 0] 5 6).2.truncated = false ∨ ∃ lg ∈ [logAt 5 0], 5 < lg.blockNumber) →
    Complete full (cutLogPage [logAt 5 0] 5 6) := by
  intro h
  have hfront : Front [logAt 5 0, logAt 5 1] [logAt 5 0] :=
    ⟨by decide, [logAt 5 0], ⟨[logAt 5 1], rfl⟩, List.Perm.refl _⟩
  have hshort : (cutLogPage [logAt 5 0] 5 6).2 = ⟨1, 6, false⟩ := cutLogPage_short (by decide)
  have hcomplete := (h _ hfront (.inl (by rw [hshort]))).length_eq
  rw [cutLogPage_logs, hshort] at hcomplete
  exact absurd hcomplete (by decide)

end Zponder.Pages

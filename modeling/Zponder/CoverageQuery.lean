import Zponder.Coverage

/-!
# Two questions about coverage

`hasLogCoverage` asks the table whether a window is covered, with one statement that looks for a
row, and `uncoveredLogRanges` computes which part of it is not, from the rows that overlap it.

The statement of the first has its two bounds the other way round: it takes every row that
overlaps the window for one that contains it. So the two agree about a window exactly if no row
overlaps it, or one contains it (`Zponder.Coverage.agree_iff`), and not about a window of which
a part is covered (`Zponder.Coverage.not_agree_overlap`).
-/

namespace Zponder.Coverage

section Query

variable (cfg : Config)

/-- The two bounds of a window, as the numbers of a statement. -/
def bounds (a b : Nat) : Option (Nat × Nat) :=
  (Checked.intCast maxBigint b).bind fun b => (Checked.intCast maxBigint a).map fun a => (a, b)

/-- `hasLogCoverage`: `from_block <= to AND to_block >= from` -/
def hasLogCoverage (chain address key : Text) (fromBlock toBlock : Nat) (t : Tables) :
    Option Bool :=
  if cfg.logCacheEnabled = false then some false
  else
    (bounds fromBlock toBlock).map fun w =>
      (t.chainLogRanges chain (Text.cacheAddress address) key).any fun s =>
        decide (s.fromBlock ≤ w.2) && decide (s.toBlock ≥ w.1)

/-- `listLogRanges`, with the same condition. -/
def listLogRanges (chain address key : Text) (fromBlock toBlock : Nat) (t : Tables) :
    Option (List BlockSpan) :=
  if cfg.logCacheEnabled = false then some []
  else
    (bounds fromBlock toBlock).map fun w =>
      (t.selectRanges chain (Text.cacheAddress address) key).filter fun s =>
        decide (s.fromBlock ≤ w.2) && decide (s.toBlock ≥ w.1)

/-- `uncoveredLogRanges` -/
def uncoveredLogRanges (chain address key : Text) (fromBlock toBlock : Nat) (t : Tables) :
    Option (List BlockSpan) :=
  (listLogRanges cfg chain address key fromBlock toBlock t).bind fun covered =>
    uncovered covered fromBlock toBlock (covered.length + 1)

/-- Both questions are answered, and the first is answered with yes exactly if nothing is left
uncovered. -/
def Agree (chain address key : Text) (fromBlock toBlock : Nat) (t : Tables) : Prop :=
  ∃ covered holes, hasLogCoverage cfg chain address key fromBlock toBlock t = some covered ∧
    uncoveredLogRanges cfg chain address key fromBlock toBlock t = some holes ∧
    (covered = true ↔ holes = [])

end Query

/-! ### Windows and rows -/

/-- A row that has a block of the window. -/
def Overlaps (s : BlockSpan) (a b : Nat) : Prop := s.fromBlock ≤ b ∧ a ≤ s.toBlock

/-- A row that has all blocks of the window. -/
def Contains (s : BlockSpan) (a b : Nat) : Prop := s.fromBlock ≤ a ∧ b ≤ s.toBlock

section Rows

variable {cfg : Config} {t : Tables} {chain address key : Text} {a b : Nat}
  {spans : List BlockSpan}

/-- Between two separated rows there is a block. -/
theorem gap_of_ne (h : spans.Pairwise fun s r => s.toBlock + 1 < r.fromBlock) {s r : BlockSpan}
    (hs : s ∈ spans) (hr : r ∈ spans) (hne : s ≠ r) :
    s.toBlock + 1 < r.fromBlock ∨ r.toBlock + 1 < s.fromBlock := by
  induction spans with
  | nil => cases hs
  | cons x xs ih =>
    obtain ⟨hx, hxs⟩ := List.pairwise_cons.1 h
    rcases List.mem_cons.1 hs with rfl | hs'
    · rcases List.mem_cons.1 hr with rfl | hr'
      · exact absurd rfl hne
      · exact .inl (hx r hr')
    · rcases List.mem_cons.1 hr with rfl | hr'
      · exact .inr (hx s hs')
      · exact ih hxs hs' hr'

/-- In separated rows, a window is covered by one of them or not at all. -/
theorem exists_contains_iff (h : Separated spans) (hab : a ≤ b) :
    (∃ s ∈ spans, Contains s a b) ↔ ∀ x, a ≤ x → x ≤ b → Covers spans x := by
  constructor
  · rintro ⟨s, hs, hfrom, hto⟩ x hax hxb
    exact ⟨s, hs, by omega, by omega⟩
  · intro hall
    obtain ⟨s, hs, hfrom, hto⟩ := hall a le_rfl hab
    refine ⟨s, hs, hfrom, ?_⟩
    by_contra hshort
    -- the block behind the row would be another row's
    obtain ⟨r, hr, hrfrom, hrto⟩ := hall (s.toBlock + 1) (by omega) (by omega)
    have hne : s ≠ r := by
      rintro rfl
      omega
    have := gap_of_ne h.2 hs hr hne
    omega

theorem bounds_eq (ha : a ≤ maxBigint) (hb : b ≤ maxBigint) : bounds a b = some (a, b) := by
  rw [bounds, Checked.intCast_of_le hb, Checked.intCast_of_le ha]
  rfl

/-- What the statement of `hasLogCoverage` finds is a row that overlaps the window. -/
theorem hasLogCoverage_eq (hon : cfg.logCacheEnabled = true) (ha : a ≤ maxBigint)
    (hb : b ≤ maxBigint) : ∃ covered, hasLogCoverage cfg chain address key a b t = some covered ∧
      (covered = true ↔
        ∃ s ∈ t.chainLogRanges chain (Text.cacheAddress address) key, Overlaps s a b) := by
  rw [hasLogCoverage, hon, if_neg (by decide), bounds_eq ha hb]
  refine ⟨_, rfl, ?_⟩
  simp [Overlaps]

/-- The rows of a table that are kept are in order as they stand. -/
theorem selectRanges_eq (h : Separated (t.chainLogRanges chain address key)) :
    t.selectRanges chain address key = t.chainLogRanges chain address key :=
  List.Pairwise.insertionSort_eq (h.ordered.2.imp_of_mem fun {s _} hs _ hlt => by
    have := (h.1 s hs).1
    omega)

/-- What `uncoveredLogRanges` returns is empty if the rows cover the window. -/
theorem uncoveredLogRanges_eq (hon : cfg.logCacheEnabled = true)
    (h : Separated (t.chainLogRanges chain (Text.cacheAddress address) key)) (hab : a ≤ b)
    (hb : b ≤ maxBigint) :
    ∃ holes, uncoveredLogRanges cfg chain address key a b t = some holes ∧
      (holes = [] ↔ ∀ x, a ≤ x → x ≤ b →
        Covers (t.chainLogRanges chain (Text.cacheAddress address) key) x) := by
  rw [uncoveredLogRanges, listLogRanges, hon, if_neg (by decide), bounds_eq (hab.trans hb) hb,
    Option.map_some, Option.bind_some, selectRanges_eq h]
  have hordered : Ordered ((t.chainLogRanges chain (Text.cacheAddress address) key).filter
      fun s => decide (s.fromBlock ≤ b) && decide (s.toBlock ≥ a)) :=
    ⟨fun s hs => h.1 s (List.mem_of_mem_filter hs), h.ordered.2.filter _⟩
  obtain ⟨holes, hholes, -, hclosed, hblocks⟩ := uncovered_spec hordered hab
    (hb.trans (by decide : maxBigint ≤ u64Max))
  -- in the window, the rows that overlap it cover what all rows do
  have hcovers : ∀ x, a ≤ x → x ≤ b →
      (Covers ((t.chainLogRanges chain (Text.cacheAddress address) key).filter
        fun s => decide (s.fromBlock ≤ b) && decide (s.toBlock ≥ a)) x ↔
          Covers (t.chainLogRanges chain (Text.cacheAddress address) key) x) := by
    intro x hax hxb
    constructor
    · rintro ⟨s, hs, hx⟩
      exact ⟨s, List.mem_of_mem_filter hs, hx⟩
    · rintro ⟨s, hs, hx⟩
      exact ⟨s, List.mem_filter.2 ⟨hs, by simp only [Bool.and_eq_true, decide_eq_true_eq]; omega⟩,
        hx⟩
  refine ⟨holes, hholes, ?_⟩
  constructor
  · rintro rfl x hax hxb
    rw [← hcovers x hax hxb]
    by_contra hnot
    exact not_covers_nil x ((hblocks x).2 ⟨⟨hax, hxb⟩, hnot⟩)
  · intro hall
    refine List.eq_nil_iff_forall_not_mem.2 fun s hs => ?_
    obtain ⟨⟨hax, hxb⟩, hnot⟩ :=
      (hblocks s.fromBlock).1 ⟨s, hs, le_rfl, (hclosed.1 s hs).1⟩
    exact hnot ((hcovers _ hax hxb).2 (hall _ hax hxb))

/-- With the cache off, there is no coverage, and the whole window is left. -/
theorem agree_of_off (hoff : cfg.logCacheEnabled = false) (hab : a ≤ b) (hb : b ≤ maxBigint) :
    Agree cfg chain address key a b t := by
  refine ⟨false, [⟨a, b⟩], by rw [hasLogCoverage, if_pos hoff], ?_, by simp⟩
  rw [uncoveredLogRanges, listLogRanges, if_pos hoff, Option.bind_some,
    uncovered_eq (hb.trans (by decide : maxBigint ≤ u64Max))]
  simp [Zponder.uncovered, Zponder.uncoveredLoop, hab]

end Rows

/-- **When the two questions agree**: with the cache off, and else about the windows no row
overlaps, or one contains. -/
theorem agree_iff {cfg : Config} {t : Tables} (ht : Reached cfg t) (chain address key : Text)
    {a b : Nat} (hab : a ≤ b) (hb : b < 2 ^ 63) :
    Agree cfg chain address key a b t ↔ cfg.logCacheEnabled = false ∨
      (∀ s ∈ t.chainLogRanges chain (Text.cacheAddress address) key, ¬Overlaps s a b) ∨
      ∃ s ∈ t.chainLogRanges chain (Text.cacheAddress address) key, Contains s a b := by
  have hb : b ≤ maxBigint := by
    unfold maxBigint
    omega
  cases hon : cfg.logCacheEnabled with
  | false => simp [agree_of_off hon hab hb]
  | true =>
    have hsep := (kept_of_reached ht chain (Text.cacheAddress address) key).1
    obtain ⟨covered, hcovered, hoverlaps⟩ : ∃ covered,
        hasLogCoverage cfg chain address key a b t = some covered ∧ (covered = true ↔
          ∃ s ∈ t.chainLogRanges chain (Text.cacheAddress address) key, Overlaps s a b) :=
      hasLogCoverage_eq hon (hab.trans hb) hb
    obtain ⟨holes, hholes, hnil⟩ := uncoveredLogRanges_eq hon hsep hab hb
    rw [← exists_contains_iff hsep hab] at hnil
    have hagree : Agree cfg chain address key a b t ↔ (covered = true ↔ holes = []) := by
      constructor
      · rintro ⟨c, h, hc, hh, hiff⟩
        obtain rfl := Option.some.inj (hcovered.symm.trans hc)
        obtain rfl := Option.some.inj (hholes.symm.trans hh)
        exact hiff
      · exact fun hiff => ⟨covered, holes, hcovered, hholes, hiff⟩
    rw [hagree, hoverlaps, hnil]
    -- a row that contains the window overlaps it
    have hsub : (∃ s ∈ t.chainLogRanges chain (Text.cacheAddress address) key, Contains s a b) →
        ∃ s ∈ t.chainLogRanges chain (Text.cacheAddress address) key, Overlaps s a b := by
      rintro ⟨s, hs, hfrom, hto⟩
      exact ⟨s, hs, by omega, by omega⟩
    constructor
    · intro hiff
      by_cases hsome : ∃ s ∈ t.chainLogRanges chain (Text.cacheAddress address) key, Overlaps s a b
      · exact .inr (.inr (hiff.1 hsome))
      · exact .inr (.inl fun s hs ho => hsome ⟨s, hs, ho⟩)
    · rintro (hfalse | hnone | hcontains)
      · cases hfalse
      · exact ⟨fun ⟨s, hs, ho⟩ => absurd ho (hnone s hs), hsub⟩
      · exact ⟨fun _ => hcontains, hsub⟩

/-- The table after the blocks 1 to 4 of an address have been stored. -/
def stored : Tables :=
  (storeLogCacheBatch cachedConfig "eth".toList ["0xaa".toList] "*".toList 1 4 [] {}).getD {}

theorem reached_stored : Reached cachedConfig stored := by
  have hstored : (storeLogCacheBatch cachedConfig "eth".toList ["0xaa".toList] "*".toList 1 4 []
      {}).isSome = true := by decide
  obtain ⟨t, ht⟩ := Option.isSome_iff_exists.1 hstored
  have hinit : Reached cachedConfig {} := .init
  rw [stored, ht]
  exact hinit.step (a := .store "eth".toList ["0xaa".toList] "*".toList 1 4 [])
    (show (4 : Nat) ≤ u64Max by decide) ht

theorem agree_iff_stored :
    Agree cachedConfig "eth".toList "0xAA".toList "*".toList 3 6 stored ↔
      cachedConfig.logCacheEnabled = false ∨
        (∀ s ∈ stored.chainLogRanges "eth".toList (Text.cacheAddress "0xAA".toList) "*".toList,
          ¬Overlaps s 3 6) ∨
        ∃ s ∈ stored.chainLogRanges "eth".toList (Text.cacheAddress "0xAA".toList) "*".toList,
          Contains s 3 6 :=
  agree_iff reached_stored _ _ _ (by decide) (by decide)

/-- **The two questions do not always agree**: blocks 1 to 4 are covered, and of the window from
3 to 6 the first says that it is, the second that 5 and 6 are not. -/
theorem not_agree_overlap : ¬∀ (cfg : Config) (t : Tables), Reached cfg t →
    ∀ (chain address key : Text) (a b : Nat), a ≤ b → b < 2 ^ 63 →
      Agree cfg chain address key a b t := by
  intro h
  obtain ⟨covered, holes, hcovered, hholes, hiff⟩ :=
    h cachedConfig stored reached_stored "eth".toList "0xaa".toList "*".toList 3 6 (by decide)
      (by decide)
  have htrue : hasLogCoverage cachedConfig "eth".toList "0xaa".toList "*".toList 3 6 stored =
    some true := by decide
  have hopen : uncoveredLogRanges cachedConfig "eth".toList "0xaa".toList "*".toList 3 6 stored =
    some [⟨5, 6⟩] := by decide
  obtain rfl := Option.some.inj (htrue.symm.trans hcovered)
  obtain rfl := Option.some.inj (hopen.symm.trans hholes)
  cases hiff.1 rfl

end Zponder.Coverage

import Zponder.CacheSound

/-!
# Scanning through the cache

A scan with the log cache goes through a range from its start to its end: it replays the
stored rows where the cache covers every address of the group, and asks the node where it does
not. What carries the walk is said of single blocks (`Zponder.Replayable`): a block is in one of
the holes that are still to come, or everything of it is stored. The holes need not be
disjoint for that, only in the order of their starts (`Zponder.pairwise_uncovered`).

The rows that are there for a block stay there while the cache grows, so the holes that were
worked out for all groups at the beginning are good enough for the last group as well.
-/

namespace Zponder

open Imperative Prog Conn

/-! ### Holes to walk through -/

/-- From a block on, `ready` holds of everything up to the next hole, and so on behind it. -/
def Walkable (ready : Nat → Prop) (toBlock : Nat) : List BlockSpan → Nat → Prop
  | [], cursor => ∀ b, cursor ≤ b → b ≤ toBlock → ready b
  | h :: holes, cursor =>
    (∀ b, cursor ≤ b → b < h.fromBlock → ready b) ∧ Walkable ready toBlock holes (h.toBlock + 1)

section Walk

variable {ready ready' : Nat → Prop} {toBlock : Nat}

theorem Walkable.mono (himp : ∀ b, ready b → ready' b) : ∀ {holes : List BlockSpan}
    {cursor : Nat}, Walkable ready toBlock holes cursor → Walkable ready' toBlock holes cursor
  | [], _, h => fun b hc hb => himp b (h b hc hb)
  | _ :: _, _, h => ⟨fun b hc hb => himp b (h.1 b hc hb), h.2.mono himp⟩

/-- A walk may begin earlier, if what it begins with is ready. -/
theorem Walkable.earlier {c c' : Nat} (hready : ∀ b, c ≤ b → b < c' → ready b)
    {holes : List BlockSpan} (h : Walkable ready toBlock holes c') :
    Walkable ready toBlock holes c := by
  cases holes with
  | nil =>
    intro b hc hb
    rcases Nat.lt_or_ge b c' with hlt | hge
    · exact hready b hc hlt
    · exact h b hge hb
  | cons hole holes =>
    refine ⟨fun b hc hb => ?_, h.2⟩
    rcases Nat.lt_or_ge b c' with hlt | hge
    · exact hready b hc hlt
    · exact h.1 b hge hb

/-- **What the holes leave out is covered**, in the order they come in. -/
theorem walkable_uncoveredLoop (hmax : toBlock ≤ u64Max) : ∀ {cap : Nat}
    {covered : List BlockSpan} {cursor : Nat}, covered.length < cap →
      (∀ b, Covers covered b → ready b) →
      Walkable ready toBlock (uncoveredLoop toBlock cap covered cursor) cursor
  | cap, [], cursor, hcap, _ => by
    unfold uncoveredLoop
    split
    · refine ⟨fun b hc hb => ?_, fun b hc hb => ?_⟩
      · exact absurd (hc.trans_lt hb) (lt_irrefl _)
      · exact absurd (hc.trans hb) (Nat.not_succ_le_self _)
    · next hno => exact fun b hc hb => absurd ⟨hc.trans hb, by simpa using hcap⟩ hno
  | cap, span :: rest, cursor, hcap, hready => by
    rw [List.length_cons] at hcap
    have hspan : ∀ b, span.fromBlock ≤ b → b ≤ span.toBlock → ready b := fun b h₁ h₂ =>
      hready b ((covers_cons _ _ _).2 (.inl ⟨h₁, h₂⟩))
    have hrest : ∀ b, Covers rest b → ready b := fun b h =>
      hready b ((covers_cons _ _ _).2 (.inr h))
    -- behind the range, whose own blocks are ready
    have hbehind : ∀ {cap' c : Nat}, rest.length < cap' → span.fromBlock ≤ c →
        Walkable ready toBlock (uncoveredLoop toBlock cap' rest (span.toBlock + 1)) c :=
      fun hcap' hc => (walkable_uncoveredLoop hmax hcap' hrest).earlier fun b h₁ h₂ =>
        hspan b (hc.trans h₁) (Nat.lt_succ_iff.1 h₂)
    unfold uncoveredLoop
    split
    · exact walkable_uncoveredLoop hmax (Nat.lt_of_succ_lt hcap) hrest
    · split
      · split
        · refine ⟨fun b hc hb => ?_, fun b hc hb => ?_⟩
          · exact absurd (hc.trans_lt hb) (lt_irrefl _)
          · exact absurd (hc.trans hb) (Nat.not_succ_le_self _)
        · next hno => exact fun b hc hb => absurd ⟨hc.trans hb, by omega⟩ hno
      · split
        · next hgap =>
          rw [if_neg (by omega)]
          refine ⟨fun b hc hb => absurd (hc.trans_lt hb) (lt_irrefl _), ?_⟩
          simp only [Nat.sub_add_cancel (Nat.one_le_of_lt hgap)]
          split
          · exact fun b hc hb => hspan b hc (by omega)
          · exact hbehind (by omega) le_rfl
        · split
          · exact fun b hc hb => hspan b (by omega) (by omega)
          · exact hbehind (by omega) (by omega)

theorem walkable_uncovered {covered : List BlockSpan} {fromBlock : Nat} (hmax : toBlock ≤ u64Max)
    (hready : ∀ b, Covers covered b → ready b) :
    Walkable ready toBlock (uncovered covered fromBlock toBlock (covered.length + 1))
      fromBlock := by
  unfold uncovered
  split
  · next hempty => exact fun b hc hb => absurd (hc.trans hb) (by omega)
  · exact walkable_uncoveredLoop hmax (Nat.lt_succ_self _) hready

end Walk

/-! ### Blocks that can be replayed -/

section Blocks

variable {chains : Text → Set Log} {chain key a : Text} {b : Nat} {t u : Tables}

/-- Everything of the address `a` in block `b` is stored. -/
def Replayable (chains : Text → Set Log) (chain key : Text) (t : Tables) (a : Text) (b : Nat) :
    Prop :=
  Text.isAddress a = true ∧ ∀ lg ∈ chains chain, lg.blockNumber = b →
    KeyedLog (Text.cacheAddress a) key lg → (chain, cachedRow lg) ∈ t.chainLogs

theorem Replayable.grown (h : Replayable chains chain key t a b) (hg : CacheGrown chains t u) :
    Replayable chains chain key u a b :=
  ⟨h.1, fun lg hlg hb hkey => hg.rows _ (h.2 lg hlg hb hkey)⟩

/-- What the cache covers can be replayed. -/
theorem replayable_of_covers (h : CachesSound chains t)
    (hb : Covers (t.chainLogRanges chain (Text.cacheAddress a) key) b) :
    Replayable chains chain key t a b := by
  refine ⟨?_, (h chain).covered _ _ _ hb⟩
  by_contra hno
  have hspelled := ((h chain).spelled _ _ _ hb).1
  rw [Text.cacheAddress, if_neg hno] at hspelled
  exact hno hspelled

theorem mem_selectChainLogs {f e : Nat} {row : ChainLog} :
    row ∈ t.selectChainLogs chain a f e ↔ (chain, row) ∈ t.chainLogs ∧ row.address = a ∧
      f ≤ row.blockNumber ∧ row.blockNumber ≤ e := by
  unfold Tables.selectChainLogs
  rw [List.mem_insertionSort, List.mem_map]
  constructor
  · rintro ⟨⟨c, r⟩, hr, rfl⟩
    simp only [List.mem_filter, Bool.and_eq_true, beq_iff_eq, decide_eq_true_eq] at hr
    obtain ⟨hmem, ⟨⟨rfl, ha⟩, hf⟩, he⟩ := hr
    exact ⟨hmem, ha, hf, he⟩
  · rintro ⟨hmem, ha, hf, he⟩
    refine ⟨(chain, row), ?_, rfl⟩
    simp only [List.mem_filter, Bool.and_eq_true, beq_iff_eq, decide_eq_true_eq]
    exact ⟨hmem, ⟨⟨trivial, ha⟩, hf⟩, he⟩

@[simp] theorem lowered_lowered (lg : Log) : lowered (lowered lg) = lowered lg := by
  simp [lowered]

end Blocks

/-! ### Replaying -/

section Replay

variable {env : Env} {cfg : Config} {chains : Text → Set Log} {as : List Text}
  {ts : Option (List Text)} {key : Text} {f t : Nat} {w : World}

/-- The engine reads the stored rows to their end. -/
def ReadsThrough (env : Env) : Prop := ∀ now a, env.cut now (.loadChainLogs a) = none

/-- A scan of the tables at rest. -/
theorem meets_guarded_scan {α : Type} (hw : w.Quiet) {call : DbCall} {g : Tables → List α} :
    Meets (guarded (execScan env cfg call g)) w
      ⟨fun rows w' => w' = w ∧ rows = cutRows env cfg w.now call (g w.db), fun _ w' => w' = w,
        fun w' => w'.db = w.db⟩ := by
  have hconn := eq_quiet hw
  have hback : ∀ c, c = quiet w.db → leave { w with
      conn := c, writeDepth := w.writeDepth + 1 } = w := by
    rintro c rfl
    change { w with conn := quiet w.db } = w
    rw [← hconn]
  rw [meets_guarded, meets_execScan, execRead, meets_exec]
  dsimp only
  rw [hconn]
  refine meets_stmt_quiet.mono ?_ ?_ ?_
  · rintro _ c ⟨-, rfl, hc⟩
    exact ⟨hback c hc, rfl⟩
  · rintro e c ⟨-, hc⟩
    exact hback c hc
  · rintro c ⟨-, rfl⟩
    rfl

theorem meets_loadChainLogs (hon : cfg.logCacheEnabled = true) (hread : ReadsThrough env)
    (hw : w.Quiet) (chain a : Text) :
    Meets (loadChainLogs env cfg chain a f t) w
      ⟨fun rows w' => w' = w ∧ rows = w.db.selectChainLogs chain (Text.cacheAddress a) f t,
        fun _ w' => w' = w, fun w' => w'.db = w.db⟩ := by
  have hbody : loadChainLogs env cfg chain a f t = guarded (execScan env cfg (.loadChainLogs a)
      (Tables.selectChainLogs chain (Text.cacheAddress a) f t)) := by
    unfold loadChainLogs
    rw [if_pos hon]
  rw [hbody]
  refine (meets_guarded_scan hw).mono ?_ (fun _ _ h => h) fun _ h => h
  rintro _ w' ⟨rfl, rfl⟩
  refine ⟨rfl, ?_⟩
  unfold cutRows
  rw [hread]
  cases cfg.backend <;> rfl

/-- The rows of all addresses. -/
theorem meets_gather_rows (hon : cfg.logCacheEnabled = true) (hread : ReadsThrough env)
    (hw : w.Quiet) (chain : Text) :
    Meets (gather as fun a => loadChainLogs env cfg chain a f t) w
      ⟨fun all w' => w' = w ∧ ∀ row, row ∈ all ↔
          ∃ a ∈ as, row ∈ w.db.selectChainLogs chain (Text.cacheAddress a) f t,
        fun _ w' => w' = w, fun w' => w'.db = w.db⟩ := by
  have hloop := meets_gather (f := fun a => loadChainLogs env cfg chain a f t)
    (E := fun _ w' => w' = w) (D := fun w' => w'.db = w.db)
    (I := fun rest acc w' => w' = w ∧ ∃ done, done ++ rest = as ∧ ∀ row, row ∈ acc ↔
      ∃ a ∈ done, row ∈ w.db.selectChainLogs chain (Text.cacheAddress a) f t)
    (fun a rest acc w₁ h => by
      obtain ⟨rfl, done, hdone, hacc⟩ := h
      refine (meets_loadChainLogs hon hread hw chain a).mono ?_ (fun _ _ h => h) fun _ h => h
      rintro _ w₂ ⟨rfl, rfl⟩
      refine ⟨rfl, done ++ [a], by simpa using hdone, fun row => ?_⟩
      simp only [List.mem_append, hacc, List.mem_singleton, or_and_right, exists_or,
        exists_eq_left])
    (l := as) (t := w) (show w = w ∧ ∃ done, done ++ as = as ∧ ∀ row, row ∈ [] ↔ _ from
      ⟨rfl, [], rfl, fun row => by simp⟩)
  refine hloop.mono ?_ (fun _ _ h => h) fun _ h => h
  rintro all w' ⟨rfl, done, hdone, hall⟩
  rw [List.append_nil] at hdone
  subst hdone
  exact ⟨rfl, hall⟩

/-- What is replayed out of the rows of all addresses is what is wanted, if every block of the
range can be replayed. -/
theorem mem_replayedLogs {all : List ChainLog} (hC : Canonical (chains cfg.chain))
    (hw : CacheReady chains w)
    (hkey : ∀ topics, topic0Allowed ts topics = topic0Allowed (keyTopics key) topics)
    (hrep : ∀ a ∈ as, ∀ b, f ≤ b → b ≤ t → Replayable chains cfg.chain key w.db a b)
    (hall : ∀ row, row ∈ all ↔
      ∃ a ∈ as, row ∈ w.db.selectChainLogs cfg.chain (Text.cacheAddress a) f t) (x : Log) :
    x ∈ (replayedLogs ts all).map lowered ↔
      ∃ lg, (lg ∈ chains cfg.chain ∧ Wanted as ts f t lg) ∧ lowered lg = x := by
  simp only [List.mem_map, replayedLogs, List.mem_filter, List.mem_insertionSort, hall]
  constructor
  · rintro ⟨y, ⟨⟨row, ⟨a, ha, hrow⟩, rfl⟩, htopic⟩, rfl⟩
    obtain ⟨hmem, haddr, hf, ht⟩ := mem_selectChainLogs.1 hrow
    obtain ⟨lg, hlg, hr⟩ := (hw.2 cfg.chain).rows _ hmem rfl
    obtain rfl : row = cachedRow lg := hr
    rw [cachedLog_cachedRow hC hlg] at htopic ⊢
    refine ⟨lg, ⟨hlg, hf, ht, ?_⟩, (lowered_lowered lg).symm⟩
    rw [receiptLogWanted, Bool.and_eq_true, List.any_eq_true]
    exact ⟨⟨a, ha, Text.eqlIgnoreCase_of_cacheAddress haddr⟩, htopic⟩
  · rintro ⟨lg, ⟨hlg, hf, ht, hwant⟩, rfl⟩
    rw [receiptLogWanted, Bool.and_eq_true, List.any_eq_true] at hwant
    obtain ⟨⟨a, ha, heq⟩, htopic⟩ := hwant
    obtain ⟨haddr, hstored⟩ := hrep a ha lg.blockNumber hf ht
    have hsame := Text.cacheAddress_eq_of_eqlIgnoreCase haddr (hC.address lg hlg) heq
    have hrow : (cfg.chain, cachedRow lg) ∈ w.db.chainLogs :=
      hstored lg hlg rfl ⟨hsame, (hkey _).symm.trans htopic⟩
    refine ⟨lowered lg, ⟨⟨cachedRow lg, ⟨a, ha, ?_⟩, cachedLog_cachedRow hC hlg⟩, htopic⟩,
      lowered_lowered lg⟩
    exact mem_selectChainLogs.2 ⟨hrow, hsame, hf, ht⟩

/-- **Replaying hands over what is wanted**, if every block of the range can be replayed. -/
theorem meets_replayCachedAddresses (hon : cfg.logCacheEnabled = true)
    (hread : ReadsThrough env) (hC : Canonical (chains cfg.chain)) (hw : CacheReady chains w)
    (hkey : ∀ topics, topic0Allowed ts topics = topic0Allowed (keyTopics key) topics)
    (hrep : ∀ a ∈ as, ∀ b, f ≤ b → b ≤ t → Replayable chains cfg.chain key w.db a b) :
    Meets (replayCachedAddresses env cfg as ts f t) w
      (cachedPost chains (fun lg => lg ∈ chains cfg.chain ∧ Wanted as ts f t lg) w) := by
  have hdead : ∀ w' : World, w'.db = w.db → CacheGrown chains w.db w'.db := fun w' h => by
    rw [h]
    exact .refl hw.2
  unfold replayCachedAddresses
  rw [meets_bind]
  refine (meets_gather_rows hon hread hw.1 cfg.chain).mono ?_ ?_ hdead
  · rintro all w₁ ⟨rfl, hall⟩
    exact meets_cached_deliveries hw (mem_replayedLogs hC hw hkey hrep hall)
  · rintro _ w₁ rfl
    exact ⟨hw.1, .refl hw.2⟩

/-! ### The walk through the holes -/

/-- A node does not answer a request with a malformed address in it. -/
theorem meets_fetchStoreProcess_malformed (hreject : RejectsMalformed env)
    (hbad : ∃ a ∈ as, Text.isAddress a = false) (hw : CacheReady chains w) :
    Meets (fetchStoreProcess env cfg as ts key f t) w
      ⟨fun _ _ => False, fun _ w' => w'.Quiet ∧ CacheGrown chains w.db w'.db,
        fun w' => CacheGrown chains w.db w'.db⟩ := by
  have hne : as ≠ [] := by
    obtain ⟨a, ha, -⟩ := hbad
    exact List.ne_nil_of_mem ha
  rw [fetchStoreProcess]
  simp only [makeLogFilter, hne, if_false]
  rw [meets_bind, meets_attempt]
  refine meets_askLogs (fun logs h => ?_) (fun e h => ?_) fun _ => .refl hw.2
  · rcases hreject w.now ⟨as, ts, f, t⟩ hbad with ⟨e, he, -⟩ | hcrash
    · cases he.symm.trans h
    · cases hcrash.symm.trans h
  · rcases hreject w.now ⟨as, ts, f, t⟩ hbad with ⟨e', he, hlimit⟩ | hcrash
    · obtain rfl : e' = e := Outcome.err.inj (he.symm.trans h)
      refine meets_ite (fun h => absurd h.1 hlimit) fun _ => ?_
      exact ⟨hw.1, .refl hw.2⟩
    · cases hcrash.symm.trans h

/-- **Filling a hole**, whoever is asked for. -/
theorem meets_fetchStoreProcess_any (hserve : Serves env fun _ => chains cfg.chain)
    (hreject : RejectsMalformed env) (hC : Canonical (chains cfg.chain))
    (hkey : ∀ topics, topic0Allowed ts topics = topic0Allowed (keyTopics key) topics)
    (hw : CacheReady chains w) :
    Meets (fetchStoreProcess env cfg as ts key f t) w
      (cachedPost chains (fun lg => lg ∈ chains cfg.chain ∧ Wanted as ts f t lg) w) := by
  by_cases hbad : ∃ a ∈ as, Text.isAddress a = false
  · exact (meets_fetchStoreProcess_malformed hreject hbad hw).mono (fun _ _ h => h.elim)
      (fun _ _ h => h) fun _ h => h
  · refine meets_fetchStoreProcess hserve hC (fun a ha => ?_) hkey hw
    by_contra hno
    exact hbad ⟨a, ha, by simpa using hno⟩

/-- What is wanted up to a block, and what is wanted after it. -/
theorem wanted_split {lg : Log} {c m e : Nat} (h : Wanted as ts c e lg) :
    Wanted as ts c m lg ∨ Wanted as ts (m + 1) e lg := by
  rcases Nat.lt_or_ge m lg.blockNumber with hlt | hge
  · exact .inr ⟨hlt, h.2.1, h.2.2⟩
  · exact .inl ⟨h.1, hge, h.2.2⟩

theorem Wanted.mono {lg : Log} {c e c' e' : Nat} (h : Wanted as ts c e lg) (hc : c' ≤ c)
    (he : e ≤ e') : Wanted as ts c' e' lg :=
  ⟨hc.trans h.1, h.2.1.trans he, h.2.2⟩

/-- What a walk leaves that is at block `cursor` of a range that began at `f`: everything from the
cursor on is handed over, and nothing else than what is wanted of the range. -/
def walkedPost (chains : Text → Set Log) (chain : Text) (as : List Text)
    (ts : Option (List Text)) (f cursor t : Nat) (w : World) : Post World Err Unit :=
  ⟨fun _ w' => (w'.Quiet ∧ CacheGrown chains w.db w'.db) ∧ ∃ P, HandedLowered w w' P ∧
      (∀ lg ∈ chains chain, Wanted as ts cursor t lg → P lg) ∧
      ∀ lg, P lg → lg ∈ chains chain ∧ Wanted as ts f t lg,
    fun _ w' => w'.Quiet ∧ CacheGrown chains w.db w'.db, fun w' => CacheGrown chains w.db w'.db⟩

theorem walked_of_cached {p : M Unit} {P : Log → Prop} {chain : Text} {cursor : Nat}
    (hp : Meets p w (cachedPost chains P w))
    (hall : ∀ lg ∈ chains chain, Wanted as ts cursor t lg → P lg)
    (honly : ∀ lg, P lg → lg ∈ chains chain ∧ Wanted as ts f t lg) :
    Meets p w (walkedPost chains chain as ts f cursor t w) :=
  hp.mono (fun _ _ h => ⟨h.1, P, h.2, hall, honly⟩) (fun _ _ h => h) fun _ h => h

/-- Everything of all the addresses in block `b` is stored. -/
def AllReplayable (chains : Text → Set Log) (chain key : Text) (t : Tables) (as : List Text)
    (b : Nat) : Prop :=
  ∀ a ∈ as, Replayable chains chain key t a b

/-- **The walk through the holes.** The induction is on the holes that are still to come; what
is not in one of them can be replayed. -/
theorem meets_syncHoles (hon : cfg.logCacheEnabled = true) (hread : ReadsThrough env)
    (hserve : Serves env fun _ => chains cfg.chain) (hreject : RejectsMalformed env)
    (hC : Canonical (chains cfg.chain))
    (hkey : ∀ topics, topic0Allowed ts topics = topic0Allowed (keyTopics key) topics)
    (ht : t ≤ u64Max) : ∀ (holes : List BlockSpan) (cursor : Nat) (w : World), f ≤ cursor →
      CacheReady chains w →
      (∀ h ∈ holes, f ≤ h.fromBlock ∧ h.fromBlock ≤ h.toBlock ∧ h.toBlock ≤ t) →
      Walkable (AllReplayable chains cfg.chain key w.db as) t holes cursor →
      Meets (syncHoles env cfg as ts key t holes cursor) w
        (walkedPost chains cfg.chain as ts f cursor t w)
  | [], cursor, w, hf, hw, _, hwalk => by
    rw [syncHoles]
    refine meets_when (fun hle => ?_) fun hgt => ?_
    · exact walked_of_cached (meets_replayCachedAddresses hon hread hC hw hkey
        fun a ha b hb hbt => hwalk b hb hbt a ha) (fun lg hlg h => ⟨hlg, h⟩)
        fun lg h => ⟨h.1, h.2.mono hf le_rfl⟩
    · refine ⟨⟨hw.1, .refl hw.2⟩, fun _ => False, .of_empty rfl fun _ h => h, fun lg _ h => ?_,
        fun _ h => h.elim⟩
      exact hgt (h.1.trans h.2.1)
  | h :: holes, cursor, w, hf, hw, hin, hwalk => by
    obtain ⟨hfrom, hle, hto⟩ := hin h List.mem_cons_self
    have hbefore : Meets (Prog.when (h.fromBlock > cursor)
        (replayCachedAddresses env cfg as ts cursor (h.fromBlock - 1))) w
        (cachedPost chains (fun lg => lg ∈ chains cfg.chain ∧ cursor < h.fromBlock ∧
          Wanted as ts cursor (h.fromBlock - 1) lg) w) := by
      refine meets_when (fun hlt => ?_) fun hge => cachedPost_refl hw fun lg h => hge h.2.1
      refine meets_cached_congr (meets_replayCachedAddresses hon hread hC hw hkey
        fun a ha b hb hbt => hwalk.1 b hb (by omega) a ha) fun lg => ?_
      exact and_congr_right fun _ => (and_iff_right hlt).symm
    -- up to the end of the hole
    have hhole : Meets (do
        Prog.when (h.fromBlock > cursor)
          (replayCachedAddresses env cfg as ts cursor (h.fromBlock - 1))
        fetchStoreProcess env cfg as ts key h.fromBlock h.toBlock) w _ :=
      meets_cached_bind hbefore fun w₁ hw₁ _ =>
        meets_fetchStoreProcess_any hserve hreject hC hkey hw₁
    have honly : ∀ lg, (lg ∈ chains cfg.chain ∧ cursor < h.fromBlock ∧
        Wanted as ts cursor (h.fromBlock - 1) lg) ∨
          (lg ∈ chains cfg.chain ∧ Wanted as ts h.fromBlock h.toBlock lg) →
        lg ∈ chains cfg.chain ∧ Wanted as ts f t lg := by
      rintro lg (⟨hlg, -, hwant⟩ | ⟨hlg, hwant⟩)
      · exact ⟨hlg, hwant.mono hf (by omega)⟩
      · exact ⟨hlg, hwant.mono hfrom hto⟩
    have hall : ∀ lg ∈ chains cfg.chain, Wanted as ts cursor h.toBlock lg →
        (lg ∈ chains cfg.chain ∧ cursor < h.fromBlock ∧
          Wanted as ts cursor (h.fromBlock - 1) lg) ∨
          (lg ∈ chains cfg.chain ∧ Wanted as ts h.fromBlock h.toBlock lg) := by
      intro lg hlg hwant
      rcases Nat.lt_or_ge lg.blockNumber h.fromBlock with hlt | hge
      · have := hwant.1
        exact .inl ⟨hlg, by omega, hwant.1, by omega, hwant.2.2⟩
      · exact .inr ⟨hlg, hge, hwant.2.1, hwant.2.2⟩
    rw [syncHoles, ← bind_assoc, meets_bind]
    refine hhole.mono ?_ (fun _ _ h => h) fun _ h => h
    rintro _ w₂ ⟨⟨hq₂, hg₂⟩, hh₂⟩
    refine meets_when (fun hmax => ?_) fun hmax => ?_
    · refine (meets_syncHoles hon hread hserve hreject hC hkey ht holes (h.toBlock + 1) w₂
        (by omega) ⟨hq₂, hg₂.sound⟩ (fun h' hmem => hin h' (List.mem_cons_of_mem _ hmem))
        (hwalk.2.mono fun b hrep a ha => (hrep a ha).grown hg₂)).mono ?_ ?_ ?_
      · rintro _ w₃ ⟨⟨hq₃, hg₃⟩, P, hP, hall', honly'⟩
        refine ⟨⟨hq₃, hg₂.trans hg₃⟩, _, hh₂.trans hP, fun lg hlg hwant => ?_, ?_⟩
        · exact (wanted_split hwant).imp (hall lg hlg) (hall' lg hlg)
        · exact fun lg h => h.elim (honly lg) (honly' lg)
      · rintro _ w₃ ⟨hq₃, hg₃⟩
        exact ⟨hq₃, hg₂.trans hg₃⟩
      · exact fun w₃ hg₃ => hg₂.trans hg₃
    · -- the hole ends with the largest block there is
      have htop : h.toBlock = t := by omega
      exact ⟨⟨hq₂, hg₂⟩, _, hh₂, fun lg hlg hwant => hall lg hlg (htop ▸ hwant), honly⟩

/-! ### The groups -/

/-- The holes of a group lie in the range, and what they leave out can be replayed. -/
structure HoleGroup.Good (chains : Text → Set Log) (chain key : Text) (t : Tables)
    (fromBlock toBlock : Nat) (g : HoleGroup) : Prop where
  inside : ∀ h ∈ g.holes, fromBlock ≤ h.fromBlock ∧ h.fromBlock ≤ h.toBlock ∧ h.toBlock ≤ toBlock
  walk : Walkable (AllReplayable chains chain key t g.addrs) toBlock g.holes fromBlock

/-- **A group hands over what is wanted of it.** -/
theorem meets_syncHoleGroup (hon : cfg.logCacheEnabled = true) (hread : ReadsThrough env)
    (hserve : Serves env fun _ => chains cfg.chain) (hreject : RejectsMalformed env)
    (hC : Canonical (chains cfg.chain))
    (hkey : ∀ topics, topic0Allowed ts topics = topic0Allowed (keyTopics key) topics)
    (ht : t ≤ u64Max) (hw : CacheReady chains w) {g : HoleGroup}
    (hg : g.Good chains cfg.chain key w.db f t) :
    Meets (syncHoleGroup env cfg g.addrs g.holes ts key f t) w
      (cachedPost chains (fun lg => lg ∈ chains cfg.chain ∧ Wanted g.addrs ts f t lg) w) := by
  refine (meets_syncHoles hon hread hserve hreject hC hkey ht g.holes f w le_rfl hw hg.inside
    hg.walk).mono ?_ (fun _ _ h => h) fun _ h => h
  rintro _ w' ⟨hgrown, P, hP, hall, honly⟩
  exact ⟨hgrown, hP.congr fun lg => ⟨honly lg, fun h => hall lg h.1 h.2⟩⟩

theorem mem_placeAddress {a : Text} {holes : List BlockSpan} : ∀ {groups : List HoleGroup}
    {g : HoleGroup}, g ∈ placeAddress a holes groups →
      g ∈ groups ∨ (g.holes = holes ∧ ∀ x ∈ g.addrs, x = a ∨ ∃ g' ∈ groups, g'.holes = holes ∧
        x ∈ g'.addrs)
  | [], g, hg => by
    obtain rfl := List.mem_singleton.1 hg
    exact .inr ⟨rfl, fun x hx => .inl (List.mem_singleton.1 hx)⟩
  | first :: groups, g, hg => by
    unfold placeAddress at hg
    split at hg
    · next hsame =>
      rcases List.mem_cons.1 hg with rfl | hg
      · refine .inr ⟨hsame, fun x hx => ?_⟩
        rcases List.mem_append.1 hx with hx | hx
        · exact .inr ⟨first, List.mem_cons_self, hsame, hx⟩
        · exact .inl (List.mem_singleton.1 hx)
      · exact .inl (List.mem_cons_of_mem _ hg)
    · rcases List.mem_cons.1 hg with rfl | hg
      · exact .inl List.mem_cons_self
      · refine (mem_placeAddress hg).imp (List.mem_cons_of_mem _) fun ⟨hsame, h⟩ =>
          ⟨hsame, fun x hx => (h x hx).imp_right ?_⟩
        rintro ⟨g', hg', h'⟩
        exact ⟨g', List.mem_cons_of_mem _ hg', h'⟩

/-- The addresses of some group. -/
def InGroups (groups : List HoleGroup) (a : Text) : Prop := ∃ g ∈ groups, a ∈ g.addrs

theorem inGroups_placeAddress {a x : Text} {holes : List BlockSpan} : ∀ {groups : List HoleGroup},
    InGroups (placeAddress a holes groups) x ↔ InGroups groups x ∨ x = a
  | [] => by simp [InGroups, placeAddress]
  | first :: groups => by
    have hcons : ∀ (g : HoleGroup) gs, InGroups (g :: gs) x ↔ x ∈ g.addrs ∨ InGroups gs x :=
      fun g gs => by simp [InGroups]
    unfold placeAddress
    split
    · rw [hcons, hcons, List.mem_append, List.mem_singleton]
      tauto
    · rw [hcons, hcons, inGroups_placeAddress]
      tauto

theorem walkable_all {P : Text → Nat → Prop} {as : List Text} : ∀ {holes : List BlockSpan}
    {cursor : Nat}, (∀ a ∈ as, Walkable (P a) t holes cursor) →
      Walkable (fun b => ∀ a ∈ as, P a b) t holes cursor
  | [], _, h => fun b hc hb a ha => h a ha b hc hb
  | _ :: _, _, h =>
    ⟨fun b hc hb a ha => (h a ha).1 b hc hb, walkable_all fun a ha => (h a ha).2⟩

/-- Putting an address with its holes into the groups. -/
theorem good_placeAddress {chain a : Text} {holes : List BlockSpan} {groups : List HoleGroup}
    {u : Tables} (hgood : ∀ g ∈ groups, g.Good chains chain key u f t)
    (hin : ∀ h ∈ holes, f ≤ h.fromBlock ∧ h.fromBlock ≤ h.toBlock ∧ h.toBlock ≤ t)
    (hwalk : Walkable (Replayable chains chain key u a) t holes f) :
    ∀ g ∈ placeAddress a holes groups, g.Good chains chain key u f t := by
  have hone : ∀ {holes : List BlockSpan} {c : Nat} {as : List Text},
      Walkable (AllReplayable chains chain key u as) t holes c → ∀ x ∈ as,
        Walkable (Replayable chains chain key u x) t holes c := fun h x hx =>
    h.mono fun b hb => hb x hx
  intro g hg
  rcases mem_placeAddress hg with hg | ⟨rfl, haddrs⟩
  · exact hgood g hg
  · refine ⟨hin, walkable_all fun x hx => ?_⟩
    rcases haddrs x hx with rfl | ⟨g', hg', hsame, hx'⟩
    · exact hwalk
    · exact hsame ▸ hone (hgood g' hg').walk x hx'

theorem meets_uncoveredLogRanges (hon : cfg.logCacheEnabled = true) (hw : CacheReady chains w)
    (ht : t ≤ u64Max) (chain a : Text) :
    Meets (uncoveredLogRanges env cfg chain a key f t) w
      ⟨fun holes w' => w' = w ∧
          (∀ h ∈ holes, f ≤ h.fromBlock ∧ h.fromBlock ≤ h.toBlock ∧ h.toBlock ≤ t) ∧
          Walkable (Replayable chains chain key w.db a) t holes f,
        fun _ w' => w' = w, fun w' => w'.db = w.db⟩ := by
  have hbody : uncoveredLogRanges env cfg chain a key f t = (do
      let covered ← guarded (execScan env cfg (.listLogRanges a) fun t' =>
        (t'.selectRanges chain (Text.cacheAddress a) key).filter fun s =>
          decide (s.fromBlock ≤ t) && decide (s.toBlock ≥ f))
      pure (uncovered covered f t (covered.length + 1))) := by
    unfold uncoveredLogRanges listLogRanges
    rw [if_pos hon]
    funext w
    simp only [guarded, bind_apply, guardEnter, modify_apply, after, pure_apply]
    rcases execScan env cfg (.listLogRanges a) _ _ with ⟨_ | _ | _, _⟩ <;> rfl
  rw [hbody, meets_bind]
  refine (meets_guarded_scan hw.1).mono ?_ (fun _ _ h => h) fun _ h => h
  rintro covered w' ⟨rfl, rfl⟩
  refine ⟨rfl, fun h hmem => mem_uncovered hmem, walkable_uncovered ht fun b hb => ?_⟩
  obtain ⟨s, hs, hsb⟩ := hb
  refine replayable_of_covers hw.2 ⟨s, ?_, hsb⟩
  exact mem_selectRanges.1 (List.mem_of_mem_filter (mem_cutRows hs))

theorem meets_groupByHoles (hon : cfg.logCacheEnabled = true) (hw : CacheReady chains w)
    (ht : t ≤ u64Max) : ∀ (as : List Text) (groups : List HoleGroup),
      (∀ g ∈ groups, g.Good chains cfg.chain key w.db f t) →
      Meets (groupByHoles env cfg key f t as groups) w
        ⟨fun gs w' => w' = w ∧ (∀ g ∈ gs, g.Good chains cfg.chain key w.db f t) ∧
            ∀ a, InGroups gs a ↔ InGroups groups a ∨ a ∈ as,
          fun _ w' => w' = w, fun w' => w'.db = w.db⟩
  | [], groups, hgood => ⟨rfl, hgood, fun a => by simp⟩
  | a :: as, groups, hgood => by
    rw [groupByHoles, meets_bind]
    refine (meets_uncoveredLogRanges hon hw ht cfg.chain a).mono ?_ (fun _ _ h => h) fun _ h => h
    rintro holes w₁ ⟨hsame, hin, hwalk⟩
    rw [hsame]
    refine (meets_groupByHoles hon hw ht as _ (good_placeAddress hgood hin hwalk)).mono ?_
      (fun _ _ h => h) fun _ h => h
    rintro gs w₂ ⟨hsame₂, hgs, hmem⟩
    refine ⟨hsame₂, hgs, fun x => ?_⟩
    rw [hmem, inGroups_placeAddress, List.mem_cons, or_assoc]

/-- What is wanted of a list of addresses is wanted of one of the groups they make up. -/
theorem wanted_iff_group {groups : List HoleGroup} {lg : Log}
    (h : ∀ a, InGroups groups a ↔ a ∈ as) :
    Wanted as ts f t lg ↔ ∃ g ∈ groups, Wanted g.addrs ts f t lg := by
  simp only [Wanted, receiptLogWanted, Bool.and_eq_true, List.any_eq_true, ← h]
  constructor
  · rintro ⟨hf, ht, ⟨a, ⟨g, hg, ha⟩, hq⟩, hp⟩
    exact ⟨g, hg, hf, ht, ⟨a, ha, hq⟩, hp⟩
  · rintro ⟨g, hg, hf, ht, ⟨a, ha, hq⟩, hp⟩
    exact ⟨hf, ht, ⟨a, ⟨g, hg, ha⟩, hq⟩, hp⟩

/-- A loop of scans. -/
theorem meets_cached_each {β : Type} {p : β → M Unit} {P : β → Log → Prop} :
    ∀ {xs : List β} {w : World}, CacheReady chains w →
      (∀ x ∈ xs, ∀ w₁, CacheReady chains w₁ → CacheGrown chains w.db w₁.db →
        Meets (p x) w₁ (cachedPost chains (P x) w₁)) →
      Meets (each xs p) w (cachedPost chains (fun lg => ∃ x ∈ xs, P x lg) w)
  | [], _, hw, _ => cachedPost_refl hw fun lg h => by simp at h
  | x :: xs, w, hw, hstep => by
    rw [each_cons]
    refine meets_cached_congr (meets_cached_bind (hstep x List.mem_cons_self w hw (.refl hw.2))
      fun w₁ hw₁ hg₁ => meets_cached_each hw₁ fun y hy w₂ hw₂ hg₂ =>
        hstep y (List.mem_cons_of_mem x hy) w₂ hw₂ (hg₁.trans hg₂)) fun lg => ?_
    simp only [List.exists_mem_cons_iff]

/-- **A chunk that is scanned through the cache.** -/
theorem meets_syncRangeChunkCached (hon : cfg.logCacheEnabled = true) (hread : ReadsThrough env)
    (hserve : Serves env fun _ => chains cfg.chain) (hreject : RejectsMalformed env)
    (hC : Canonical (chains cfg.chain))
    (hkey : ∀ topics, topic0Allowed ts topics = topic0Allowed (keyTopics key) topics)
    (ht : t ≤ u64Max) (hw : CacheReady chains w) :
    Meets (syncRangeChunkCached env cfg as ts key f t) w
      (cachedPost chains (fun lg => lg ∈ chains cfg.chain ∧ Wanted as ts f t lg) w) := by
  rw [syncRangeChunkCached, meets_bind]
  refine (meets_groupByHoles hon hw ht as [] fun _ h => absurd h List.not_mem_nil).mono ?_ ?_ ?_
  · rintro groups w₁ ⟨hsame, hgood, hmem⟩
    rw [hsame]
    have hmem' : ∀ a, InGroups groups a ↔ a ∈ as := fun a =>
      (hmem a).trans (or_iff_right fun ⟨g, hg, _⟩ => List.not_mem_nil hg)
    -- what a group can replay at the beginning, it can replay when it is its turn
    refine meets_cached_congr (meets_cached_each hw fun g hg w₁ hw₁ hg₁ =>
      meets_syncHoleGroup hon hread hserve hreject hC hkey ht hw₁ ⟨(hgood g hg).inside,
        (hgood g hg).walk.mono fun b hrep a ha => (hrep a ha).grown hg₁⟩) fun lg => ?_
    rw [wanted_iff_group hmem']
    constructor
    · rintro ⟨g, hg, hlg, hwant⟩
      exact ⟨hlg, g, hg, hwant⟩
    · rintro ⟨hlg, g, hg, hwant⟩
      exact ⟨g, hg, hlg, hwant⟩
  · rintro _ w' rfl
    exact ⟨hw.1, .refl hw.2⟩
  · intro w' h
    change CacheGrown chains w.db w'.db
    rw [h]
    exact .refl hw.2

/-- The key of the cache stands for the topics of the configured events. -/
theorem topic0Allowed_topicsOpt (cfg : Config) (topics : List Text) :
    topic0Allowed (topicsOpt cfg) topics =
      topic0Allowed (keyTopics (Text.topicsKey (buildEventTopics cfg))) topics :=
  (topic0Allowed_topicsKey keyTopic_buildEventTopics topics).symm

/-- **A scan through the cache.** -/
theorem meets_syncRangeWithAddresses_cached (hon : cfg.logCacheEnabled = true)
    (hread : ReadsThrough env) (hserve : Serves env fun _ => chains cfg.chain)
    (hreject : RejectsMalformed env) (hC : Canonical (chains cfg.chain)) (ht : t ≤ u64Max)
    (hw : CacheReady chains w) :
    Meets (syncRangeWithAddresses env cfg as f t) w
      (cachedPost chains (fun lg => lg ∈ chains cfg.chain ∧ Wanted as (topicsOpt cfg) f t lg)
        w) := by
  unfold syncRangeWithAddresses
  refine meets_ite (fun h => ?_) fun _ => ?_
  · subst h
    exact cachedPost_refl hw fun lg h => not_wanted_nil h.2
  refine meets_cached_congr (meets_cached_each (P := fun b lg => lg ∈ chains cfg.chain ∧
    Wanted (chunkOf as b) (topicsOpt cfg) f t lg) hw fun b _ w₁ hw₁ _ => ?_) fun lg => ?_
  · rw [syncRangeChunk, if_pos hon]
    exact meets_syncRangeChunkCached hon hread hserve hreject hC (topic0Allowed_topicsOpt cfg)
      ht hw₁
  · have hchunks : Wanted as (topicsOpt cfg) f t lg ↔
        ∃ g ∈ addressChunksFrom as.length cfg.maxAddressesPerRequest 0,
          Wanted (chunkOf as g) (topicsOpt cfg) f t lg := wanted_iff_chunk
    rw [hchunks]
    constructor
    · rintro ⟨g, hg, hlg, hwant⟩
      exact ⟨hlg, g, hg, hwant⟩
    · rintro ⟨hlg, g, hg, hwant⟩
      exact ⟨g, hg, hlg, hwant⟩

end Replay

end Zponder

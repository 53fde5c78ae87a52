import Zponder.Scan

/-!
# The log cache tells the truth

`chain_log_ranges` claims that certain blocks are completely in `chain_logs`, for one
address and one set of topics at a time. The invariant (`Zponder.CacheSound`) has two
halves that need each other: every stored row is the row of a log of the chain, and
every log of the chain in a covered block has its row. The first is what makes
“insert or ignore” on transaction hash and log index harmless: the row that is there
is the row that would have been inserted.

A stored row spells its address in lower case, so a replayed log is a log of the
chain up to that (`Zponder.lowered`).
-/

namespace Zponder

open Imperative Prog Conn

/-! ### Chains -/

/-- What is documented of the logs of a chain. -/
structure Canonical (C : Set Log) : Prop where
  address : ∀ lg ∈ C, Text.isAddress lg.address = true
  topics : ∀ lg ∈ C, ∀ t ∈ lg.topics, t ≠ [] ∧ ',' ∉ t
  identity : ∀ a ∈ C, ∀ b ∈ C, a.transactionHash = b.transactionHash → a.logIndex = b.logIndex →
    a = b
  removed : ∀ lg ∈ C, lg.removed = false
  block : ∀ lg ∈ C, lg.blockNumber ≤ u64Max

/-- A log with its address in lower case. -/
def lowered (lg : Log) : Log := { lg with address := Text.cacheAddress lg.address }

/-- The row a log is stored as. -/
def cachedRow (lg : Log) : ChainLog := chainLogOf (lowered lg)

/-- A stored log comes back, in lower case. -/
theorem cachedLog_cachedRow {C : Set Log} (hC : Canonical C) {lg : Log} (h : lg ∈ C) :
    cachedLog (cachedRow lg) = lowered lg := by
  have hsplit : Text.splitTopics (Text.joinTopics lg.topics) = lg.topics :=
    Text.splitTopics_joinTopics (fun t ht => (hC.topics lg h t ht).1)
      fun t ht => (hC.topics lg h t ht).2
  have hrem := hC.removed lg h
  cases lg
  simp_all [cachedLog, cachedRow, chainLogOf, lowered]

/-! ### Keys -/

/-- The topics a key of the cache stands for. -/
def keyTopics (key : Text) : Option (List Text) :=
  if key = ['*'] then none else some (Text.splitTopics key)

/-- A topic that a key can hold. -/
def KeyTopic (t : Text) : Prop := t ≠ [] ∧ ',' ∉ t ∧ t ≠ ['*']

theorem topic0Allowed_congr {l₁ l₂ : List Text} (h : ∀ t, t ∈ l₁ ↔ t ∈ l₂)
    (topics : List Text) : topic0Allowed (some l₁) topics = topic0Allowed (some l₂) topics := by
  have hnil : l₁ = [] ↔ l₂ = [] := by
    simp only [List.eq_nil_iff_forall_not_mem, h]
  rcases l₁ with _ | ⟨a, l₁⟩
  · rw [hnil.1 rfl]
  · obtain ⟨b, l₂, rfl⟩ := List.exists_cons_of_ne_nil (mt hnil.2 (List.cons_ne_nil a l₁))
    cases topics with
    | nil => rfl
    | cons topic0 topics =>
      rw [Bool.eq_iff_iff]
      simp only [topic0Allowed, List.any_eq_true, h]

/-- **A key stands for the topics it was made from.** -/
theorem topic0Allowed_topicsKey {ts : List Text} (h : ∀ t ∈ ts, KeyTopic t) (topics : List Text) :
    topic0Allowed (keyTopics (Text.topicsKey ts)) topics =
      topic0Allowed (if ts = [] then none else some ts) topics := by
  unfold Text.topicsKey keyTopics
  by_cases hts : ts = []
  · simp [hts]
  have hmem : ∀ t, t ∈ Text.dedupSorted (ts.insertionSort fun a b => Text.le a b = true) ↔
      t ∈ ts := fun t => Text.mem_dedupSorted.trans (List.mem_insertionSort _)
  generalize hl : Text.dedupSorted (ts.insertionSort fun a b => Text.le a b = true) = l at hmem
  have hk : ∀ t ∈ l, KeyTopic t := fun t ht => h t ((hmem t).1 ht)
  have hstar : Text.joinTopics l ≠ ['*'] := by
    rcases l with _ | ⟨t, _ | ⟨u, l⟩⟩
    · simp [Text.joinTopics]
    · simpa [Text.joinTopics] using (hk t (by simp)).2.2
    · have hne := (hk t (by simp)).1
      have hcomma : ',' ∈ Text.joinTopics (t :: u :: l) := by
        simp [Text.joinTopics, List.intercalate_cons_cons]
      intro h'
      rw [h'] at hcomma
      simp at hcomma
  rw [if_neg hts, if_neg hts, if_neg hstar, Text.splitTopics_joinTopics (fun t ht => (hk t ht).1)
    fun t ht => (hk t ht).2.1]
  exact topic0Allowed_congr hmem topics

theorem digitChar_ne_comma (n : Nat) : Nat.digitChar n ≠ ',' := by
  have hsmall : ∀ n < 16, Nat.digitChar n ≠ ',' := by decide
  rcases Nat.lt_or_ge n 16 with h | h
  · exact hsmall n h
  · have hne : ∀ k < 16, n ≠ k := by omega
    simp [Nat.digitChar, hne]

theorem comma_not_mem_bytesToHex (bytes : List Nat) : ',' ∉ Text.bytesToHex bytes := by
  simp [Text.bytesToHex, Text.hexDigits, (digitChar_ne_comma _).symm]

/-- The topics of the configured events can be held by a key. -/
theorem keyTopic_buildEventTopics {cfg : Config} : ∀ t ∈ buildEventTopics cfg, KeyTopic t := by
  intro t ht
  unfold buildEventTopics at ht
  split at ht
  · simp at ht
  · obtain ⟨name, -, hname⟩ := List.mem_filterMap.1 ht
    obtain ⟨evt, -, rfl⟩ := Option.map_eq_some_iff.1 hname
    refine ⟨by simp, ?_, fun h => ?_⟩
    · rw [List.mem_append, not_or]
      exact ⟨by decide, comma_not_mem_bytesToHex _⟩
    · have := congrArg List.length h
      simp at this

/-! ### The invariant -/

/-- A log is one of the address `a` with a topic of the key. -/
def KeyedLog (a key : Text) (lg : Log) : Prop :=
  Text.cacheAddress lg.address = a ∧ topic0Allowed (keyTopics key) lg.topics = true

/-- **What the cache claims about a chain is true.** -/
structure CacheSound (C : Set Log) (chain : Text) (t : Tables) : Prop where
  rows : ∀ r ∈ t.chainLogs, r.1 = chain → ∃ lg ∈ C, r.2 = cachedRow lg
  spelled : ∀ a key b, Covers (t.chainLogRanges chain a key) b →
    Text.isAddress a = true ∧ Text.cacheAddress a = a
  covered : ∀ a key b, Covers (t.chainLogRanges chain a key) b → ∀ lg ∈ C, lg.blockNumber = b →
    KeyedLog a key lg → (chain, cachedRow lg) ∈ t.chainLogs

/-- The same for every chain of the database. -/
def CachesSound (chains : Text → Set Log) (t : Tables) : Prop :=
  ∀ chain, CacheSound (chains chain) chain t

section Tables

variable {C : Set Log} {chains : Text → Set Log} {chain : Text} {t : Tables} {lg : Log}

theorem CacheSound.congr {t' : Tables} (h : CacheSound C chain t)
    (hrows : ∀ r, r.1 = chain → (r ∈ t'.chainLogs ↔ r ∈ t.chainLogs))
    (hspans : t'.chainLogRanges chain = t.chainLogRanges chain) : CacheSound C chain t' where
  rows r hr hc := h.rows r ((hrows r hc).1 hr) hc
  spelled a key b hb := h.spelled a key b (by rwa [hspans] at hb)
  covered a key b hb lg hlg hblock hkey :=
    (hrows _ rfl).2 (h.covered a key b (by rwa [hspans] at hb) lg hlg hblock hkey)

/-- Tables that differ elsewhere. -/
theorem CachesSound.congr {t' : Tables} (h : CachesSound chains t)
    (hrows : t'.chainLogs = t.chainLogs) (hspans : t'.chainLogRanges = t.chainLogRanges) :
    CachesSound chains t' := fun chain =>
  (h chain).congr (fun r _ => by rw [hrows]) (by rw [hspans])

/-- A row whose key is taken has it taken by itself. -/
theorem mem_of_taken (hC : Canonical C) (h : CacheSound C chain t) (hlg : lg ∈ C)
    (htaken : t.chainLogs.any (fun r => r.1 == chain && r.2.txHash == (cachedRow lg).txHash &&
      r.2.logIndex == (cachedRow lg).logIndex) = true) :
    (chain, cachedRow lg) ∈ t.chainLogs := by
  obtain ⟨⟨c, row⟩, hr, hkey⟩ := List.any_eq_true.1 htaken
  simp only [Bool.and_eq_true, beq_iff_eq] at hkey
  obtain ⟨⟨rfl, htx⟩, hidx⟩ := hkey
  obtain ⟨lg', hlg', rfl⟩ := h.rows _ hr rfl
  obtain rfl := hC.identity lg' hlg' lg hlg htx hidx
  exact hr

/-- After an insertion the row of a log is there, and nothing is gone. -/
theorem mem_insertChainLog (hC : Canonical C) (h : CacheSound C chain t) (hlg : lg ∈ C) :
    (chain, cachedRow lg) ∈ (t.insertChainLog chain (cachedRow lg)).chainLogs := by
  unfold Tables.insertChainLog
  split
  · next htaken => exact mem_of_taken hC h hlg htaken
  · simp

theorem subset_insertChainLog {row : ChainLog} {r : Text × ChainLog} (hr : r ∈ t.chainLogs) :
    r ∈ (t.insertChainLog chain row).chainLogs := by
  unfold Tables.insertChainLog
  split
  · exact hr
  · exact List.mem_append_left _ hr

theorem chainLogRanges_insertChainLog (row : ChainLog) :
    (t.insertChainLog chain row).chainLogRanges = t.chainLogRanges := by
  unfold Tables.insertChainLog
  split <;> rfl

/-- Inserting the row of a log of the chain keeps the cache sound. -/
theorem CachesSound.insertChainLog (h : CachesSound chains t) (hlg : lg ∈ chains chain) :
    CachesSound chains (t.insertChainLog chain (cachedRow lg)) := by
  intro c
  refine ⟨fun r hr hc => ?_, fun a key b hb => ?_, fun a key b hb lg' hlg' hblock hkey => ?_⟩
  · unfold Tables.insertChainLog at hr
    split at hr
    · exact (h c).rows r hr hc
    · rcases List.mem_append.1 hr with hr | hr
      · exact (h c).rows r hr hc
      · obtain rfl := List.mem_singleton.1 hr
        obtain rfl : chain = c := hc
        exact ⟨lg, hlg, rfl⟩
  · rw [chainLogRanges_insertChainLog] at hb
    exact (h c).spelled a key b hb
  · rw [chainLogRanges_insertChainLog] at hb
    exact subset_insertChainLog ((h c).covered a key b hb lg' hlg' hblock hkey)

/-- New ranges for one key keep the cache sound if what they cover is there. -/
theorem CachesSound.putRanges (h : CachesSound chains t) {a key : Text} {spans : List BlockSpan}
    (hspelled : Text.isAddress a = true ∧ Text.cacheAddress a = a)
    (hspans : ∀ b, Covers spans b → ∀ lg ∈ chains chain, lg.blockNumber = b → KeyedLog a key lg →
      (chain, cachedRow lg) ∈ t.chainLogs) : CachesSound chains (t.putRanges chain a key spans) := by
  intro c
  have hget : ∀ a' key', (t.putRanges chain a key spans).chainLogRanges c a' key' =
      if c = chain ∧ a' = a ∧ key' = key then spans else t.chainLogRanges c a' key' := by
    intro a' key'
    by_cases hc : c = chain
    · subst hc
      by_cases ha : a' = a
      · subst ha
        by_cases hk : key' = key
        · subst hk
          simp [Tables.putRanges]
        · simp [Tables.putRanges, hk]
      · simp [Tables.putRanges, ha]
    · simp [Tables.putRanges, hc]
  refine ⟨(h c).rows, fun a' key' b hb => ?_, fun a' key' b hb lg hlg hblock hkey => ?_⟩
  · rw [hget] at hb
    split at hb
    · next heq => exact heq.2.1 ▸ hspelled
    · exact (h c).spelled a' key' b hb
  · rw [hget] at hb
    split at hb
    · next heq =>
      obtain ⟨rfl, rfl, rfl⟩ := heq
      exact hspans b hb lg hlg hblock hkey
    · exact (h c).covered a' key' b hb lg hlg hblock hkey

end Tables

/-! ### Storing a range -/

section Store

variable {env : Env} {cfg : Config} {chains : Text → Set Log} {chain key : Text}
  {as : List Text} {f e : Nat} {w : World} {t : Tables} {logs : List Log}

/-- The tables `u` have grown out of the sound tables `t`, and stayed sound. -/
structure CacheGrown (chains : Text → Set Log) (t u : Tables) : Prop where
  sound : CachesSound chains u
  rows : ∀ r ∈ t.chainLogs, r ∈ u.chainLogs

theorem CacheGrown.refl (h : CachesSound chains t) : CacheGrown chains t t := ⟨h, fun _ => id⟩

theorem CacheGrown.trans {u v : Tables} (h₁ : CacheGrown chains t u)
    (h₂ : CacheGrown chains u v) : CacheGrown chains t v :=
  ⟨h₂.sound, fun r hr => h₂.rows r (h₁.rows r hr)⟩

/-- What has been inserted once the rows `done` have been. -/
def Inserted (chains : Text → Set Log) (chain : Text) (t : Tables) (logs : List Log)
    (u : Tables) : Prop :=
  CacheGrown chains t u ∧ ∀ lg ∈ logs, (chain, cachedRow lg) ∈ u.chainLogs

theorem mem_cutRows {α : Type} {now : Nat} {call : DbCall} {rows : List α} {x : α}
    (h : x ∈ cutRows env cfg now call rows) : x ∈ rows := by
  unfold cutRows at h
  split at h
  · exact List.mem_of_mem_take h
  · exact h

theorem mem_selectRanges {a : Text} {s : BlockSpan} :
    s ∈ t.selectRanges chain a key ↔ s ∈ t.chainLogRanges chain a key :=
  List.mem_insertionSort _

/-- The rows of an answer that have been inserted. -/
def StoredRows (chains : Text → Set Log) (chain : Text) (t : Tables) (done : List (ChainLog × Nat))
    (u : Tables) : Prop :=
  CacheGrown chains t u ∧ u.chainLogRanges = t.chainLogRanges ∧
    ∀ x ∈ done, (chain, { x.1 with address := Text.cacheAddress x.1.address }) ∈ u.chainLogs

/-- Inserting the rows of logs of the chain. -/
theorem meets_insertRows (hC : Canonical (chains chain)) (hsound : CachesSound chains t)
    (hlogs : ∀ lg ∈ logs, lg ∈ chains chain ∧ f ≤ lg.blockNumber ∧ lg.blockNumber ≤ e)
    (hc : w.conn = opened t t) :
    Meets (Prog.each (chainLogsFromRpc logs).zipIdx fun (lg, i) =>
        if lg.blockNumber < f ∨ lg.blockNumber > e then pure ()
        else insertChainLogTx env cfg i chain (Text.cacheAddress lg.address) lg) w
      (txnPost Unit w t fun _ => Inserted chains chain t logs) := by
  have hopen : InTxn t False (StoredRows chains chain t []) w.conn :=
    hc ▸ inTxn_opened ⟨.refl hsound, rfl, by simp⟩
  refine meets_txn_mono (meets_txn_each (I := StoredRows chains chain t) ?_ hopen) ?_
  · rintro ⟨row, i⟩ hx done w₁ h₁ -
    obtain ⟨lg, hlg, rfl⟩ := List.mem_map.1 (List.fst_mem_of_mem_zipIdx hx)
    obtain ⟨hmem, hf, he⟩ := hlogs lg hlg
    refine meets_ite (fun hout => ?_) fun _ => ?_
    · exact absurd hout (by simp only [chainLogOf]; omega)
    · refine meets_txn_mono (meets_execWrite_txn h₁) ?_
      rintro _ _ ⟨u, ⟨hgrown, hspans, hdone⟩, rfl⟩
      refine ⟨⟨hgrown.sound.insertChainLog hmem, fun r hr =>
        subset_insertChainLog (hgrown.rows r hr)⟩,
        (chainLogRanges_insertChainLog _).trans hspans, fun x hx => ?_⟩
      rcases List.mem_append.1 hx with hx | hx
      · exact subset_insertChainLog (hdone x hx)
      · obtain rfl := List.mem_singleton.1 hx
        exact mem_insertChainLog hC (hgrown.sound chain) hmem
  · rintro _ u ⟨hgrown, -, hdone⟩
    refine ⟨hgrown, fun lg hlg => ?_⟩
    obtain ⟨i, hi, hget⟩ := List.getElem_of_mem (List.mem_map_of_mem (f := chainLogOf) hlg)
    exact hdone (chainLogOf lg, i) (List.mem_zipIdx_iff_getElem?.2 (by
      rw [← hget]
      exact List.getElem?_eq_getElem hi))

/-- Merging the stored ranges of a key, as far as they were read, with a new one. -/
theorem meets_markLogRangeTx {i : Nat} {a : Text}
    (hspelled : Text.isAddress a = true ∧ Text.cacheAddress a = a)
    (hrange : ∀ lg ∈ chains chain, f ≤ lg.blockNumber → lg.blockNumber ≤ e →
      KeyedLog a key lg → lg ∈ logs) (hC : Canonical (chains chain))
    (h : InTxn t False (Inserted chains chain t logs) w.conn) :
    Meets (markLogRangeTx env cfg i chain a key f e) w
      (txnPost Unit w t fun _ => Inserted chains chain t logs) := by
  unfold markLogRangeTx
  have hread : Meets (execScan env cfg (.listLogRanges a) (Tables.selectRanges chain a key)) w
      (txnPost _ w t fun spans u => Inserted chains chain t logs u ∧
        ∀ b, Covers spans b → Covers (u.chainLogRanges chain a key) b) := by
    rw [meets_execScan]
    refine (meets_execRead_txn h).mono ?_ (fun _ _ h => h) fun _ h => h
    intro rows w₁ hw₁
    refine hw₁.mono Iff.rfl ?_
    rintro u ⟨hu, rfl⟩
    exact ⟨hu, fun b ⟨s, hs, hb⟩ => ⟨s, mem_selectRanges.1 (mem_cutRows hs), hb⟩⟩
  refine meets_txn_bind hread fun spans w₁ h₁ _ => ?_
  refine meets_txn_bind (meets_execWrite_txn h₁) fun _ w₂ h₂ _ => ?_
  refine meets_txn_mono (meets_execWrite_txn h₂) ?_
  rintro _ _ ⟨_, ⟨u, ⟨⟨hgrown, hrows⟩, hspans⟩, rfl⟩, rfl⟩
  have hempty : CachesSound chains (u.putRanges chain a key []) :=
    hgrown.sound.putRanges hspelled fun b hb => absurd hb (not_covers_nil b)
  refine ⟨⟨hempty.putRanges hspelled fun b hb lg hlg hlb hkey => ?_, hgrown.rows⟩, hrows⟩
  have hb' : b ≤ u64Max := hlb ▸ hC.block lg hlg
  rcases (covers_append _ _ _).1 ((covers_mergeSpans hb').1 hb) with hb | hb
  · exact (hgrown.sound chain).covered a key b (hspans b hb) lg hlg hlb hkey
  · simp only [covers_cons, not_covers_nil, or_false] at hb
    exact hrows lg (hrange lg hlg (by omega) (by omega) hkey)

/-- **Storing a complete range keeps the cache sound.** -/
theorem meets_storeLogCacheBatch (hC : Canonical (chains chain)) (hc : w.conn = quiet t)
    (hsound : CachesSound chains t) (has : ∀ a ∈ as, Text.isAddress a = true)
    (hlogs : ∀ lg, lg ∈ logs ↔ lg ∈ chains chain ∧ Wanted as (keyTopics key) f e lg) :
    Meets (storeLogCacheBatch env cfg chain as key f e (chainLogsFromRpc logs)) w
      ⟨fun _ w' => ∃ u n, CacheGrown chains t u ∧ w' = { w with conn := quiet u, now := n },
        fun _ w' => ∃ n, w' = { w with now := n }, Died w t⟩ := by
  have hsame : ∃ u n, CacheGrown chains t u ∧ w = { w with conn := quiet u, now := n } :=
    ⟨t, w.now, .refl hsound, by rw [← hc]⟩
  refine meets_ite (fun _ => meets_ite (fun _ => hsame) fun _ => ?_) fun _ => hsame
  refine (meets_inTransaction (P := Inserted chains chain t logs) hc ?_).mono ?_ ?_ fun _ h => h
  · intro w₁ h₁ _ _
    refine meets_txn_bind (meets_insertRows hC hsound (fun lg hlg => ?_) h₁) fun _ w₂ h₂ _ => ?_
    · obtain ⟨hmem, hw⟩ := (hlogs lg).1 hlg
      exact ⟨hmem, hw.1, hw.2.1⟩
    · refine meets_txn_each (I := fun _ => Inserted chains chain t logs) ?_ h₂
      rintro ⟨a, i⟩ hx done w₃ h₃ -
      have ha := has a (List.fst_mem_of_mem_zipIdx hx)
      refine meets_markLogRangeTx ⟨Text.isAddress_cacheAddress ha, Text.cacheAddress_idem a⟩
        (fun lg hlg hf he hkey => ?_) hC h₃
      refine (hlogs lg).2 ⟨hlg, hf, he, ?_⟩
      rw [receiptLogWanted, Bool.and_eq_true, List.any_eq_true]
      exact ⟨⟨a, List.fst_mem_of_mem_zipIdx hx, Text.eqlIgnoreCase_of_cacheAddress hkey.1⟩, hkey.2⟩
  · rintro _ w' ⟨u, hu, rfl⟩
    exact ⟨u, _, hu.1, rfl⟩
  · rintro _ w' rfl
    exact ⟨_, rfl⟩

end Store

/-! ### Scanning through the cache -/

section Cached

variable {env : Env} {cfg : Config} {chains : Text → Set Log} {as : List Text}
  {ts : Option (List Text)} {key : Text} {f t : Nat} {w : World}

/-- The database is at rest and its caches are sound. -/
def CacheReady (chains : Text → Set Log) (w : World) : Prop := w.Quiet ∧ CachesSound chains w.db

/-- From `w` to `w'` exactly the logs that satisfy `P` were handed over, up to the
case of their addresses. -/
def HandedLowered (w w' : World) (P : Log → Prop) : Prop :=
  ∃ l, w'.handed = w.handed ++ l ∧ ∀ x, x ∈ l.map lowered ↔ ∃ lg, P lg ∧ lowered lg = x

theorem HandedLowered.of_empty {P : Log → Prop} {w' : World} (hw : w'.handed = w.handed)
    (h : ∀ lg, ¬P lg) : HandedLowered w w' P :=
  ⟨[], by simpa using hw, fun x => by simp [h]⟩

theorem HandedLowered.trans {w₁ w₂ : World} {P Q : Log → Prop} (h₁ : HandedLowered w w₁ P)
    (h₂ : HandedLowered w₁ w₂ Q) : HandedLowered w w₂ fun lg => P lg ∨ Q lg := by
  obtain ⟨l₁, e₁, h₁⟩ := h₁
  obtain ⟨l₂, e₂, h₂⟩ := h₂
  refine ⟨l₁ ++ l₂, by rw [e₂, e₁, List.append_assoc], fun x => ?_⟩
  rw [List.map_append, List.mem_append, h₁, h₂]
  simp only [or_and_right, exists_or]

theorem HandedLowered.congr {w' : World} {P Q : Log → Prop} (h : HandedLowered w w' P)
    (hPQ : ∀ lg, P lg ↔ Q lg) : HandedLowered w w' Q := by
  obtain ⟨l, e, h⟩ := h
  exact ⟨l, e, fun x => (h x).trans (by simp only [hPQ])⟩

/-- What a scan of a range leaves: a cache that has grown, and the wanted logs handed
over. -/
def cachedPost (chains : Text → Set Log) (P : Log → Prop) (w : World) : Post World Err Unit :=
  ⟨fun _ w' => (w'.Quiet ∧ CacheGrown chains w.db w'.db) ∧ HandedLowered w w' P,
    fun _ w' => w'.Quiet ∧ CacheGrown chains w.db w'.db, fun w' => CacheGrown chains w.db w'.db⟩

/-- One scan after another. -/
theorem meets_cached_bind {p q : M Unit} {P Q : Log → Prop}
    (hp : Meets p w (cachedPost chains P w))
    (hq : ∀ w₁, CacheReady chains w₁ → CacheGrown chains w.db w₁.db →
      Meets q w₁ (cachedPost chains Q w₁)) :
    Meets (do p; q) w (cachedPost chains (fun lg => P lg ∨ Q lg) w) := by
  rw [meets_bind]
  refine hp.mono ?_ (fun _ _ h => h) fun _ h => h
  rintro _ w₁ ⟨⟨hq₁, hg₁⟩, hh₁⟩
  refine (hq w₁ ⟨hq₁, hg₁.sound⟩ hg₁).mono ?_ ?_ ?_
  · rintro _ w₂ ⟨⟨hq₂, hg₂⟩, hh₂⟩
    exact ⟨⟨hq₂, hg₁.trans hg₂⟩, hh₁.trans hh₂⟩
  · rintro _ w₂ ⟨hq₂, hg₂⟩
    exact ⟨hq₂, hg₁.trans hg₂⟩
  · exact fun w₂ hg₂ => hg₁.trans hg₂

theorem meets_cached_congr {p : M Unit} {P Q : Log → Prop}
    (hp : Meets p w (cachedPost chains P w)) (hPQ : ∀ lg, P lg ↔ Q lg) :
    Meets p w (cachedPost chains Q w) :=
  hp.mono (fun _ _ h => ⟨h.1, h.2.congr hPQ⟩) (fun _ _ h => h) fun _ h => h

/-- Nothing to do. -/
theorem cachedPost_refl {P : Log → Prop} (hw : CacheReady chains w) (h : ∀ lg, ¬P lg) :
    (cachedPost chains P w).ok () w :=
  ⟨⟨hw.1, .refl hw.2⟩, .of_empty rfl h⟩

/-- Deliveries leave the cache alone. -/
def deliveryScope : Scope where
  tables := .keeping fun t => (t.chainLogs, t.chainLogRanges)
  mem := .any
  handed := .any
  requests := .any

theorem deliveryScope_delivers : deliveryScope.Delivers where
  events _ _ := rfl
  accounts _ _ := rfl
  blocks _ _ := rfl
  callback _ _ _ := rfl
  rawLogs _ _ _ := rfl
  tsCache _ _ := trivial
  handed _ _ := trivial

/-- The cache after deliveries. -/
theorem grown_of_deliveryScope (hw : CacheReady chains w) {w' : World}
    (h : deliveryScope.Rel w w') : CacheGrown chains w.db w'.db := by
  have hsame : (w'.db.chainLogs, w'.db.chainLogRanges) = (w.db.chainLogs, w.db.chainLogRanges) :=
    Linked.quiet h.tables hw.1
  obtain ⟨hl, hr⟩ := Prod.mk.inj hsame
  exact ⟨hw.2.congr hl hr, fun r hr => by rwa [hl]⟩

/-- Handing over a list of logs. -/
theorem meets_cached_deliveries (hw : CacheReady chains w) {logs : List Log} {P : Log → Prop}
    (h : ∀ x, x ∈ logs.map lowered ↔ ∃ lg, P lg ∧ lowered lg = x) :
    Meets (Prog.each logs (deliver env cfg)) w (cachedPost chains P w) := by
  have hscope : Within deliveryScope.frame (Prog.each logs (deliver env cfg)) :=
    within_each fun _ _ => within_deliver deliveryScope_delivers
  refine ((meets_each_deliver_handed logs).and (hscope w)).mono ?_ ?_ ?_
  · rintro _ w' ⟨⟨hh, -⟩, hrel, hq⟩
    exact ⟨⟨hq hw.1, grown_of_deliveryScope hw hrel⟩, logs, hh, h⟩
  · rintro _ w' ⟨hf, -⟩
    exact hf.elim
  · rintro w' ⟨-, hrel, -⟩
    exact grown_of_deliveryScope hw hrel

/-- A complete answer is stored and handed over. -/
theorem meets_storeAndProcess (hC : Canonical (chains cfg.chain)) (hw : CacheReady chains w)
    (has : ∀ a ∈ as, Text.isAddress a = true)
    (hkey : ∀ topics, topic0Allowed ts topics = topic0Allowed (keyTopics key) topics)
    {logs : List Log} (hlogs : ∀ lg, lg ∈ logs ↔ lg ∈ chains cfg.chain ∧ Wanted as ts f t lg) :
    Meets (do
        storeLogCacheBatch env cfg cfg.chain as key f t (chainLogsFromRpc logs)
        processFetchedLogs env cfg logs) w
      (cachedPost chains (fun lg => lg ∈ chains cfg.chain ∧ Wanted as ts f t lg) w) := by
  have hwanted : ∀ lg, Wanted as ts f t lg ↔ Wanted as (keyTopics key) f t lg := fun lg => by
    simp only [Wanted, receiptLogWanted, hkey]
  rw [meets_bind]
  refine (meets_storeLogCacheBatch hC (eq_quiet hw.1) hw.2 has
    (fun lg => (hlogs lg).trans (by rw [hwanted]))).mono ?_ ?_ ?_
  · rintro _ w₁ ⟨u, n, hu, rfl⟩
    have hready : CacheReady chains { w with conn := quiet u, now := n } := ⟨rfl, hu.sound⟩
    refine (meets_cached_deliveries (P := fun lg => lg ∈ chains cfg.chain ∧ Wanted as ts f t lg)
      hready fun x => ?_).mono ?_ ?_ ?_
    · simp only [List.mem_map, mem_sortLogs, hlogs]
    · rintro _ w₂ ⟨⟨hq, hg⟩, hh⟩
      exact ⟨⟨hq, hu.trans hg⟩, hh⟩
    · rintro _ w₂ ⟨hq, hg⟩
      exact ⟨hq, hu.trans hg⟩
    · exact fun w₂ hg => hu.trans hg
  · rintro _ w₁ ⟨n, rfl⟩
    exact ⟨hw.1, .refl hw.2⟩
  · rintro w₁ ⟨hq, -⟩
    change CacheGrown chains w.db w₁.conn.committed
    rw [hq]
    exact .refl hw.2

/-! ### The holes -/

/-- A node does not answer for what is no address, and does not call it too much. -/
def RejectsMalformed (env : Env) : Prop :=
  ∀ t (filter : LogFilter), (∃ a ∈ filter.addresses, Text.isAddress a = false) →
    (∃ e, env.getLogs t filter = .err e ∧ e ≠ .rpcLimitExceeded) ∨ env.getLogs t filter = .crash

/-- Requests leave the connection alone. -/
def requestScope : Scope where
  tables := .keeping id
  mem := .any
  handed := .any
  requests := .any

variable (env) in
/-- What was collected without touching the database is stored and handed over. -/
theorem meets_storeCollected (hC : Canonical (chains cfg.chain)) (hw : CacheReady chains w)
    (has : ∀ a ∈ as, Text.isAddress a = true)
    (hkey : ∀ topics, topic0Allowed ts topics = topic0Allowed (keyTopics key) topics)
    {p : M (List Log)}
    (hp : Meets p w (collectedPost (fun _ => chains cfg.chain) as ts f t w))
    (hscope : Within requestScope.frame p) :
    Meets (do
        let logs ← p
        storeLogCacheBatch env cfg cfg.chain as key f t (chainLogsFromRpc logs)
        processFetchedLogs env cfg logs) w
      (cachedPost chains (fun lg => lg ∈ chains cfg.chain ∧ Wanted as ts f t lg) w) := by
  rw [meets_bind]
  have hkeep : ∀ {w₁ : World}, requestScope.Rel w w₁ → w₁.db = w.db := fun h =>
    Linked.quiet h.tables hw.1
  refine (hp.and (hscope w)).mono ?_ ?_ ?_
  · rintro logs w₁ ⟨⟨hh, -, hlogs⟩, hrel, hq⟩
    have hready : CacheReady chains w₁ := ⟨hq hw.1, by rw [hkeep hrel]; exact hw.2⟩
    refine (meets_storeAndProcess hC hready has hkey fun lg =>
      hlogs _ (steady_const _ _ _ _ _) lg).mono ?_ ?_ ?_
    · rintro _ w₂ ⟨⟨hq₂, hg⟩, l, hl, hmem⟩
      exact ⟨⟨hq₂, hkeep hrel ▸ hg⟩, l, by rw [hl, hh], hmem⟩
    · rintro _ w₂ ⟨hq₂, hg⟩
      exact ⟨hq₂, hkeep hrel ▸ hg⟩
    · intro w₂ hg
      change CacheGrown chains w.db w₂.db
      exact hkeep hrel ▸ hg
  · rintro e w₁ ⟨-, hrel, hq⟩
    exact ⟨hq hw.1, by rw [hkeep hrel]; exact .refl hw.2⟩
  · rintro w₁ ⟨-, hrel, -⟩
    change CacheGrown chains w.db w₁.db
    rw [hkeep hrel]
    exact .refl hw.2

/-- **Filling a hole.** -/
theorem meets_fetchStoreProcess (hserve : Serves env fun _ => chains cfg.chain)
    (hC : Canonical (chains cfg.chain)) (has : ∀ a ∈ as, Text.isAddress a = true)
    (hkey : ∀ topics, topic0Allowed ts topics = topic0Allowed (keyTopics key) topics)
    (hw : CacheReady chains w) :
    Meets (fetchStoreProcess env cfg as ts key f t) w
      (cachedPost chains (fun lg => lg ∈ chains cfg.chain ∧ Wanted as ts f t lg) w) := by
  induction as, ts using split_induction f t generalizing w with
  | step as ts ihA ihT =>
    rw [fetchStoreProcess]
    by_cases hnil : as = []
    · simp only [makeLogFilter, hnil, if_true]
      exact cachedPost_refl hw fun lg h => not_wanted_nil h.2
    simp only [makeLogFilter, hnil, if_false]
    have hask : CacheReady chains w.asked := hw
    have hreceipts : ∀ b, Meets (storeReceiptBlock env cfg as ts key b) w.asked
        (cachedPost chains (fun lg => lg ∈ chains cfg.chain ∧ Wanted as ts b b lg) w.asked) :=
      fun b => meets_storeCollected env hC hask has hkey (meets_loadBlockReceipts hserve)
        (within_loadBlockReceipts fun _ => trivial)
    have hsame : (cachedPost chains (fun lg => lg ∈ chains cfg.chain ∧ Wanted as ts f t lg)
        w.asked).err .rpcError w.asked := ⟨hw.1, .refl hw.2⟩
    rw [meets_bind, meets_attempt]
    refine meets_askLogs (fun logs hlogs => ?_) (fun e _ => ?_) fun _ => .refl hw.2
    · refine meets_ite (fun hcut => ?_) fun hcut => ?_
      · split
        · next mid h =>
          refine meets_cached_congr (meets_cached_bind (ihA mid h |>.1
            (fun a ha => has a (List.mem_of_mem_take ha)) hkey hask) fun w₁ hw₁ _ =>
              (ihA mid h).2 (fun a ha => has a (List.mem_of_mem_drop ha)) hkey hw₁) fun lg => ?_
          exact and_or_left.symm.trans (and_congr_right fun _ => (wanted_take_drop mid).symm)
        split
        · next l₁ l₂ h =>
          obtain ⟨-, rfl, h₁, h₂⟩ := splitTopicList_eq h
          have hboth := meets_collect_both (w := w.asked)
            (meets_appendBlockLogs hserve as (some l₁) f t)
            (meets_appendBlockLogs hserve as (some l₂) f t) fun lg => wanted_append h₁ h₂
          have hstore :=
            meets_storeCollected env hC hask has hkey hboth (within_bind
              (within_appendBlockLogs (fun _ => trivial) _ _ _ _) fun _ => within_bind
                (within_appendBlockLogs (fun _ => trivial) _ _ _ _) fun _ => within_pure _)
          simp only [bind_assoc, pure_bind] at hstore
          exact hstore
        · refine meets_ite (fun h => ?_) fun _ => hsame
          subst h
          exact hreceipts f
      · have hans := hserve.logs _ _ _ hlogs
        cases htr : (cutLogPage logs f t).truncated with
        | false =>
          have hend : (cutLogPage logs f t).endBlock = t := cutLogPage_endBlock htr
          simp only [when_of_not Bool.false_ne_true, bind_pure_unit, hend]
          exact meets_storeAndProcess hC hask has hkey fun lg => cutLogPage_complete hans htr lg
        | true =>
          -- what is kept is stored up to the end of the page, and the rest is an error
          obtain ⟨-, -, hmem⟩ := cutLogPage_prefix hans htr fun h => hcut ⟨htr, h⟩
          have hstore : Meets (do
              storeLogCacheBatch env cfg cfg.chain as key f (cutLogPage logs f t).endBlock
                (chainLogsFromRpc (cutLogPage logs f t).kept)
              processFetchedLogs env cfg (cutLogPage logs f t).kept) w.asked _ :=
            meets_storeAndProcess hC hask has hkey hmem
          simp only [when_of rfl]
          rw [← bind_assoc, meets_bind]
          exact hstore.mono (fun _ _ h => h.1) (fun _ _ h => h) fun _ h => h
    · refine meets_ite (fun h => ?_) fun _ => hsame
      obtain ⟨-, rfl⟩ := h
      exact hreceipts f

end Cached

end Zponder

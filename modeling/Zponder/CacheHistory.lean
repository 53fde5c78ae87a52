import Zponder.CachedScan
import Zponder.Erasure
import Zponder.Lib.Machine

/-!
# Every history of the log cache

The cache is filled by complete answers (`storeLogCacheBatch`) and by single logs of the
subscription (`insertChainLog`), and it is cut when the chain changes (`trimLogCacheUnlocked`).
The chain of the moment is part of the state: a cut that goes through puts another one in its
place, which is the same below the fork.

What the tables claim is then true in every state of every history
(`Zponder.CacheHistory.Sound`), whatever fails, and a scan through the cache hands over what a
scan without it does.
-/

namespace Zponder

namespace CacheHistory

open Imperative Prog Conn

/-! ### Cutting the cache -/

section Cut

variable {cfg : Config} {C D : Set Log} {chains : Text → Set Log} {chain : Text} {f : Nat}
  {t : Tables}

/-- Two chains are the same below a block. -/
def SameBelow (f : Nat) (C D : Set Log) : Prop := ∀ lg : Log, lg.blockNumber < f → (lg ∈ C ↔ lg ∈ D)

theorem mem_trimmedCache (hon : cfg.logCacheEnabled = true) {r : Text × ChainLog} :
    r ∈ (trimmedCache cfg chain f t).chainLogs ↔
      r ∈ t.chainLogs ∧ (r.1 = chain → r.2.blockNumber < f) := by
  obtain ⟨spans, htrim⟩ := exists_trimmedCache cfg chain f t
  rw [htrim]
  change r ∈ (if cfg.logCacheEnabled = true then (t.deleteChainLogs chain f).chainLogs
    else t.chainLogs) ↔ _
  rw [if_pos hon, Tables.deleteChainLogs, List.mem_filter]
  simp only [Bool.not_eq_true', Bool.and_eq_false_iff, beq_eq_false_iff_ne, ne_eq,
    decide_eq_false_iff_not, ge_iff_le, Nat.not_le, imp_iff_not_or]

/-- The ranges of the chain that is cut, and of the others. -/
theorem chainLogRanges_trimmedCache (hon : cfg.logCacheEnabled = true) (c a key : Text) :
    (trimmedCache cfg chain f t).chainLogRanges c a key =
      if c = chain then trimSpans f (t.chainLogRanges c a key) else t.chainLogRanges c a key := by
  unfold trimmedCache trimSpans
  rw [if_pos hon]
  by_cases hc : c = chain
  · subst hc
    by_cases hf : f = 0
    · simp [hf, Tables.mapRanges, Tables.deleteChainLogs]
    · simp [hf, Tables.mapRanges, Tables.deleteChainLogs]
  · by_cases hf : f = 0
    · simp [hf, hc, Tables.mapRanges, Tables.deleteChainLogs]
    · simp [hf, hc, Tables.mapRanges, Tables.deleteChainLogs]

/-- **A cut makes the cache one of the new chain.** -/
theorem cachesSound_trimmedCache (hon : cfg.logCacheEnabled = true) (h : CachesSound chains t)
    (hsame : SameBelow f D (chains chain)) :
    CachesSound (Function.update chains chain D) (trimmedCache cfg chain f t) := by
  intro c
  by_cases hc : c = chain
  · subst hc
    rw [Function.update_self]
    refine ⟨fun r hr hrc => ?_, fun a key b hb => ?_, fun a key b hb lg hlg hblock hkey => ?_⟩
    · obtain ⟨hmem, hlow⟩ := (mem_trimmedCache hon).1 hr
      obtain ⟨lg, hlg, hrow⟩ := (h c).rows r hmem hrc
      have hbelow : lg.blockNumber < f := by
        have := hlow hrc
        rwa [hrow] at this
      exact ⟨lg, (hsame lg hbelow).2 hlg, hrow⟩
    · rw [chainLogRanges_trimmedCache hon, if_pos rfl, covers_trimSpans] at hb
      exact (h c).spelled a key b hb.2
    · rw [chainLogRanges_trimmedCache hon, if_pos rfl, covers_trimSpans] at hb
      subst hblock
      refine (mem_trimmedCache hon).2 ⟨?_, fun _ => hb.1⟩
      exact (h c).covered a key _ hb.2 lg ((hsame lg hb.1).1 hlg) rfl hkey
  · rw [Function.update_of_ne hc]
    refine (h c).congr (fun r hr => ?_) ?_
    · rw [mem_trimmedCache hon]
      exact and_iff_left fun hrc => absurd (hr.symm.trans hrc) hc
    · funext a key
      rw [chainLogRanges_trimmedCache hon, if_neg hc]

end Cut

/-! ### Histories -/

/-- The database, and the logs of each chain. -/
structure State where
  world : World
  chains : Text → Set Log

/-- An indexer that writes to the cache, and everything it cannot know. -/
structure Writer where
  env : Env
  cfg : Config

/-- What the rest of the program does to the database between two writes: anything, but to the
two tables of the cache. -/
structure Elsewhere where
  world : World → World
  tables : Tables → Tables
  keeps : ∀ t, (tables t).chainLogs = t.chainLogs ∧ (tables t).chainLogRanges = t.chainLogRanges

/-- What happens next. -/
inductive Act where
  | store (i : Writer) (chain : Text) (addresses : List Text) (key : Text)
      (fromBlock toBlock : Nat) (logs : List Log)
  | insert (i : Writer) (chain : Text) (lg : Log)
  | trim (i : Writer) (chain : Text) (fromBlock : Nat) (next : Set Log)
  | elsewhere (o : Elsewhere)

/-- The world a program leaves. A death closes the connection. -/
def left (p : M Unit) (w : World) : World :=
  match p w with
  | (.crash, w') => { w' with conn := w'.conn.lost, writeDepth := 0 }
  | (_, w') => w'

/-- The state a program leaves. -/
def State.ran (s : State) (p : M Unit) : State := { s with world := left p s.world }

/-- One step. The chain changes with the cut that goes through. -/
def step (s : State) : Act → Option State
  | .store i chain addresses key f t logs => some <| s.ran
    (storeLogCacheBatch i.env i.cfg chain addresses key f t (chainLogsFromRpc logs))
  | .insert i chain lg => some (s.ran (insertChainLog i.env i.cfg chain (chainLogOf lg)))
  | .trim i chain f next =>
    let cut := inTransaction i.env i.cfg (trimLogCacheUnlocked i.env i.cfg chain f)
    match cut s.world with
    | (.ok (), w) => some ⟨w, Function.update s.chains chain next⟩
    | _ => some (s.ran cut)
  | .elsewhere o =>
    some { s with world := { o.world s.world with conn := quiet (o.tables s.world.db) } }

/-- What the callers see to: they store complete answers of a node, which knows well-formed
addresses only, and logs of the chain, and where the cache is in use it is cut at a fork below
which the chain is what it was. -/
def Lawful (s : State) : Act → Prop
  | .store _ chain addresses key f t logs =>
    (∀ a ∈ addresses, Text.isAddress a = true) ∧
      ∀ lg, lg ∈ logs ↔ lg ∈ s.chains chain ∧ Wanted addresses (keyTopics key) f t lg
  | .insert _ chain lg => lg ∈ s.chains chain
  | .trim i chain f next =>
    i.cfg.logCacheEnabled = true ∧ Canonical next ∧ SameBelow f next (s.chains chain)
  | .elsewhere _ => True

/-- Every history, from a database and chains to begin with. -/
def histories (s : State) : Machine State Act := ⟨s, step⟩

/-- The chains are chains, and what the cache claims about them is true. -/
structure Sound (s : State) : Prop where
  canonical : ∀ chain, Canonical (s.chains chain)
  ready : CacheReady s.chains s.world

theorem ready_of_conn {chains : Text → Set Log} {w : World} {t : Tables} (hc : w.conn = quiet t)
    (h : CachesSound chains t) : CacheReady chains w := by
  refine ⟨?_, ?_⟩
  · rw [World.Quiet, hc]
    rfl
  · rw [World.db, hc]
    exact h

theorem ready_left {chains : Text → Set Log} {p : M Unit} {w : World}
    (h : Meets p w ⟨fun _ w' => CacheReady chains w', fun _ w' => CacheReady chains w',
      fun w' => CachesSound chains w'.db⟩) : CacheReady chains (left p w) := by
  unfold Meets at h
  unfold left
  rcases heq : p w with ⟨_ | _ | _, w'⟩ <;> rw [heq] at h
  · exact h
  · exact h
  · exact ⟨rfl, h⟩

section Step

variable {i : Writer} {s : State} {chain key : Text} {f t : Nat}

theorem meets_store (hs : Sound s) {addresses : List Text} {logs : List Log}
    (h : Lawful s (.store i chain addresses key f t logs)) :
    Meets (storeLogCacheBatch i.env i.cfg chain addresses key f t (chainLogsFromRpc logs)) s.world
      ⟨fun _ w' => CacheReady s.chains w', fun _ w' => CacheReady s.chains w',
        fun w' => CachesSound s.chains w'.db⟩ := by
  refine (meets_storeLogCacheBatch (hs.canonical chain) (eq_quiet hs.ready.1) hs.ready.2 h.1
    h.2).mono ?_ ?_ ?_
  · rintro _ w' ⟨u, n, hu, rfl⟩
    exact ⟨rfl, hu.sound⟩
  · rintro _ w' ⟨n, rfl⟩
    exact hs.ready
  · rintro w' ⟨hq, -⟩
    change CachesSound s.chains w'.conn.committed
    rw [hq]
    exact hs.ready.2

theorem meets_insert (hs : Sound s) {lg : Log} (hlg : lg ∈ s.chains chain) :
    Meets (insertChainLog i.env i.cfg chain (chainLogOf lg)) s.world
      ⟨fun _ w' => CacheReady s.chains w', fun _ w' => CacheReady s.chains w',
        fun w' => CachesSound s.chains w'.db⟩ := by
  have hconn := eq_quiet hs.ready.1
  unfold insertChainLog
  rw [meets_guarded]
  refine meets_ite (fun _ => ?_) fun _ => hs.ready
  rw [insertChainLogTx, execWrite, meets_exec]
  dsimp only
  rw [hconn]
  refine meets_stmt_quiet.mono ?_ ?_ ?_
  · rintro _ c ⟨-, -, rfl⟩
    exact ⟨rfl, hs.ready.2.insertChainLog hlg⟩
  · rintro _ c ⟨-, rfl⟩
    exact ⟨rfl, hs.ready.2⟩
  · rintro c ⟨-, rfl⟩
    exact hs.ready.2

theorem meets_trim (hs : Sound s) (hon : i.cfg.logCacheEnabled = true) :
    Meets (inTransaction i.env i.cfg (trimLogCacheUnlocked i.env i.cfg chain f)) s.world
      ⟨fun _ w' => w'.conn = quiet (trimmedCache i.cfg chain f s.world.db),
        fun _ w' => CacheReady s.chains w', fun w' => CachesSound s.chains w'.db⟩ := by
  refine (meets_inTransaction (P := (· = trimmedCache i.cfg chain f s.world.db))
    (eq_quiet hs.ready.1) fun w₁ h₁ _ _ => ?_).mono ?_ ?_ ?_
  · exact meets_trimLogCacheUnlocked (by rw [h₁]; exact inTxn_opened rfl) hon chain f
  · rintro _ w' ⟨u, rfl, rfl⟩
    rfl
  · rintro _ w' rfl
    exact hs.ready
  · rintro w' ⟨hq, -⟩
    change CachesSound s.chains w'.conn.committed
    rw [hq]
    exact hs.ready.2

end Step

/-- **A step keeps the cache sound.** -/
theorem sound_step {s s' : State} {a : Act} (hs : Sound s) (ha : Lawful s a)
    (h : step s a = some s') : Sound s' := by
  cases a with
  | store i chain addresses key f t logs =>
    obtain rfl := Option.some.inj h
    exact ⟨hs.canonical, ready_left (meets_store hs ha)⟩
  | insert i chain lg =>
    obtain rfl := Option.some.inj h
    exact ⟨hs.canonical, ready_left (meets_insert hs ha)⟩
  | trim i chain f next =>
    obtain ⟨hon, hnext, hsame⟩ := ha
    have htrim := @meets_trim _ _ chain f hs hon
    unfold Meets at htrim
    simp only [step] at h
    rcases heq : inTransaction i.env i.cfg (trimLogCacheUnlocked i.env i.cfg chain f) s.world
      with ⟨_ | _ | _, w⟩ <;> rw [heq] at h htrim
    · obtain rfl := Option.some.inj h
      refine ⟨fun c => ?_, ready_of_conn htrim (cachesSound_trimmedCache hon hs.ready.2 hsame)⟩
      change Canonical (Function.update s.chains chain next c)
      by_cases hc : c = chain
      · subst hc
        rwa [Function.update_self]
      · rw [Function.update_of_ne hc]
        exact hs.canonical c
    · obtain rfl := Option.some.inj h
      refine ⟨hs.canonical, ?_⟩
      unfold State.ran left
      rw [heq]
      exact htrim
    · obtain rfl := Option.some.inj h
      refine ⟨hs.canonical, ?_⟩
      unfold State.ran left
      rw [heq]
      exact ⟨rfl, htrim⟩
  | elsewhere o =>
    obtain rfl := Option.some.inj h
    exact ⟨hs.canonical, rfl, hs.ready.2.congr (o.keeps _).1 (o.keeps _).2⟩

/-! ### What a scan hands over -/

/-- The logs that were handed over from `w` to `w'`, with their addresses in lower case. -/
def handedSince (w w' : World) : Set Log :=
  {x | x ∈ (w'.handed.drop w.handed.length).map lowered}

theorem handedSince_eq {w w' : World} {P : Log → Prop} (h : HandedLowered w w' P) :
    handedSince w w' = lowered '' {lg | P lg} := by
  obtain ⟨l, hl, hmem⟩ := h
  ext x
  change x ∈ List.map lowered (w'.handed.drop w.handed.length) ↔ _
  rw [hl, List.drop_left, hmem]
  rfl

theorem handedLowered_of_handedOver {w w' : World} {P : Log → Prop} (h : HandedOver w w' P) :
    HandedLowered w w' P := by
  obtain ⟨l, hl, hmem⟩ := h
  refine ⟨l, hl, fun x => ?_⟩
  simp only [List.mem_map, hmem]

/-! A chain with a single log, a node that knows well-formed addresses only, and an indexer with
the cache. -/

def tokenAddress : Text := "0x".toList ++ List.replicate 40 'a'

def tokenLog : Log where
  address := tokenAddress
  topics := []
  data := []
  blockNumber := 5
  transactionHash := "0x01".toList
  logIndex := 0

def strictNode : Env where
  getLogs _ f :=
    if f.addresses.all Text.isAddress then
      .ok (if Wanted f.addresses f.topics f.fromBlock f.toBlock tokenLog then [tokenLog] else [])
    else .err .rpcError
  blockReceipts _ b := .ok (if b = 5 then [tokenLog] else [])

def cachingConfig : Config := { plainConfig with logCache := true }

theorem serves_strictNode : Serves strictNode fun _ => {tokenLog} where
  logs t f logs h := by
    change (if f.addresses.all Text.isAddress then _ else _) = _ at h
    split at h
    · obtain rfl := Outcome.ok.inj h
      refine .inl ⟨?_, fun lg => ?_⟩
      · split <;> simp [getlogsPageLimit]
      · split <;> simp_all
    · cases h
  receipts t b logs h lg := by
    obtain rfl := Outcome.ok.inj h
    have hb : tokenLog.blockNumber = 5 := rfl
    split
    · next h => simp only [List.mem_singleton, Set.mem_singleton_iff]; grind
    · next h => simp only [List.not_mem_nil, Set.mem_singleton_iff]; grind

theorem rejects_strictNode : RejectsMalformed strictNode := by
  rintro t f ⟨a, ha, hbad⟩
  refine .inl ⟨.rpcError, ?_, by decide⟩
  have hall : f.addresses.all Text.isAddress = false := by
    rw [List.all_eq_false]
    exact ⟨a, ha, by simp [hbad]⟩
  change (if f.addresses.all Text.isAddress = true then _ else _) = _
  rw [hall, if_neg Bool.false_ne_true]

theorem canonical_tokenLog : Canonical {tokenLog} where
  address lg h := by
    obtain rfl := Set.mem_singleton_iff.1 h
    decide
  topics lg h t ht := by
    obtain rfl := Set.mem_singleton_iff.1 h
    exact absurd ht List.not_mem_nil
  identity a ha b hb _ _ := by
    rw [Set.mem_singleton_iff.1 ha, Set.mem_singleton_iff.1 hb]
  removed lg h := by
    obtain rfl := Set.mem_singleton_iff.1 h
    rfl
  block lg h := by
    obtain rfl := Set.mem_singleton_iff.1 h
    decide

/-- A database that has stored nothing. -/
def bareState : State := ⟨freshWorld, fun _ => {tokenLog}⟩

/-- A complete answer about the first ten blocks is stored. -/
def answered : Act :=
  .store ⟨strictNode, cachingConfig⟩ cachingConfig.chain [tokenAddress] ['*'] 0 9 [tokenLog]

def answeredState : State := bareState.ran
  (storeLogCacheBatch strictNode cachingConfig cachingConfig.chain [tokenAddress] ['*'] 0 9
    (chainLogsFromRpc [tokenLog]))

theorem reaches_answeredState : (histories bareState).Reaches Lawful answeredState := by
  refine Machine.Reaches.step (a := answered) .init ⟨by decide, fun lg => ?_⟩ rfl
  have hwanted : Wanted [tokenAddress] (keyTopics ['*']) 0 9 tokenLog := by decide +kernel
  simp only [List.mem_singleton]
  exact ⟨fun h => h ▸ ⟨rfl, hwanted⟩, fun h => h.1⟩

end CacheHistory

end Zponder

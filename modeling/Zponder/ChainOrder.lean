import Zponder.CachedScan
import Zponder.Lib.InTurn

/-!
# The order of a scan

A scan asks for many addresses at once, and when an answer is cut off it asks again for fewer
addresses, for fewer topics or for the receipts of a block; with the log cache it walks through
the holes of each group of addresses. The logs of different addresses are handed over in any
order then. Those of one address are not: each comes after all that precede it on the chain
(`Zponder.chain_order`), also when the scan fails or the process dies in the middle.

What is asked for at each point is closed (`Zponder.Closed`): nothing that precedes it is missing
but what has been handed over already. Half of the addresses are closed if all of them are,
because an order is only asked for within an address; half of a range is closed if what is before
it is done, and half of the topics are not, which is why they are collected and handed over at
once.
-/

namespace Zponder

open Imperative Prog Conn

/-! ### In turn on the chain -/

/-- `x` stands before `y` on the chain, and both are of one address. -/
def Precedes (x y : Log) : Prop :=
  x.address = y.address ∧ (x.blockNumber < y.blockNumber ∨
    x.blockNumber = y.blockNumber ∧ x.logIndex < y.logIndex)

/-- The logs of the chain that are wanted, as they are compared. -/
def wantedLogs (C : Set Log) (as : List Text) (ts : Option (List Text)) (f t : Nat) : Set Log :=
  {x | ∃ lg, (lg ∈ C ∧ Wanted as ts f t lg) ∧ lowered lg = x}

/-- Logs that are wanted, and of everything wanted that precedes them nothing is missing but what
is done. -/
def Closed (T D L : Set Log) : Prop :=
  ∀ x ∈ L, x ∈ T ∧ ∀ y ∈ T, Precedes y x → y ∈ L ∨ y ∈ D

section Order

variable {C T D D' L : Set Log} {as as' : List Text} {ts : Option (List Text)} {f t c e : Nat}

theorem not_precedes_of_le {x y : Log} (h : Log.le x y) : ¬Precedes y x := by
  unfold Log.le at h
  rintro ⟨-, hlt⟩
  omega

theorem not_precedes_self (x : Log) : ¬Precedes x x := by
  rintro ⟨-, hlt⟩
  omega

/-- What is wanted of some of the addresses is closed if what is wanted of all of them is. -/
theorem Closed.addresses (h : Closed T D (wantedLogs C as ts f t)) (hsub : as' ⊆ as) :
    Closed T D (wantedLogs C as' ts f t) := by
  rintro x ⟨lg, ⟨hlg, hwant⟩, rfl⟩
  have hall : ∀ {lg : Log}, Wanted as' ts f t lg → Wanted as ts f t lg := by
    rintro lg ⟨hf, ht, hr⟩
    rw [receiptLogWanted, Bool.and_eq_true, List.any_eq_true] at hr
    obtain ⟨⟨a, ha, heq⟩, htopic⟩ := hr
    refine ⟨hf, ht, ?_⟩
    rw [receiptLogWanted, Bool.and_eq_true, List.any_eq_true]
    exact ⟨⟨a, hsub ha, heq⟩, htopic⟩
  obtain ⟨hT, hbefore⟩ := h _ ⟨lg, ⟨hlg, hall hwant⟩, rfl⟩
  refine ⟨hT, fun y hy hyx => (hbefore y hy hyx).imp_left ?_⟩
  rintro ⟨lg', ⟨hlg', hf', ht', hr'⟩, rfl⟩
  -- it is of the same address, so it is wanted of the same entry
  refine ⟨lg', ⟨hlg', hf', ht', ?_⟩, rfl⟩
  have hsame : Text.eqlIgnoreCase lg.address lg'.address = true :=
    Text.eqlIgnoreCase_of_cacheAddress hyx.1
  have hr := hwant.2.2
  rw [receiptLogWanted, Bool.and_eq_true, List.any_eq_true] at hr hr' ⊢
  obtain ⟨⟨a, ha, heq⟩, -⟩ := hr
  exact ⟨⟨a, ha, Text.eqlIgnoreCase_trans heq hsame⟩, hr'.2⟩

/-- What is wanted of a part of the range is closed, if everything before it is done. -/
theorem Closed.range (h : Closed T D (wantedLogs C as ts f t)) (hD : D ⊆ D') (hf : f ≤ c)
    (ht : e ≤ t) (hdone : ∀ y ∈ wantedLogs C as ts f t, y.blockNumber < c → y ∈ D') :
    Closed T D' (wantedLogs C as ts c e) := by
  rintro x ⟨lg, ⟨hlg, hwant⟩, rfl⟩
  obtain ⟨hT, hbefore⟩ := h _ ⟨lg, ⟨hlg, hwant.mono hf ht⟩, rfl⟩
  refine ⟨hT, fun y hy hyx => ?_⟩
  rcases hbefore y hy hyx with hmem | hmem
  · obtain ⟨lg', ⟨hlg', hwant'⟩, rfl⟩ := id hmem
    rcases Nat.lt_or_ge lg'.blockNumber c with hlt | hge
    · exact .inr (hdone _ hmem hlt)
    · refine .inl ⟨lg', ⟨hlg', hge, ?_, hwant'.2.2⟩, rfl⟩
      have hle : lg'.blockNumber ≤ lg.blockNumber := by
        rcases hyx.2 with hlt | heq
        · exact hlt.le
        · exact heq.1.le
      exact hle.trans hwant.2.1
  · exact .inr (hD hmem)

/-- What is wanted up to a block is closed. -/
theorem Closed.upTo (h : Closed T D (wantedLogs C as ts f t)) (he : e ≤ t) :
    Closed T D (wantedLogs C as ts f e) :=
  h.range (fun _ => id) le_rfl he fun y ⟨_, ⟨_, hwant⟩, hy⟩ hlt => by
    subst hy
    exact absurd hwant.1 (Nat.not_le_of_lt hlt)

theorem closed_self : Closed (wantedLogs C as ts f t) ∅ (wantedLogs C as ts f t) :=
  fun _ hx => ⟨hx, fun _ hy _ => .inl hy⟩

/-- Sorted logs are in turn. -/
theorem inTurn_logs {l : List Log} (hclosed : Closed T D L) (hsorted : l.Pairwise Log.le)
    (hmem : ∀ x, x ∈ l.map lowered ↔ x ∈ L) : InTurn Precedes T D (l.map lowered) := by
  refine inTurn_of_pairwise (r := Log.le) (fun _ _ => not_precedes_of_le) not_precedes_self
    (List.pairwise_map.2 hsorted) (fun x hx => ((hclosed x ((hmem x).1 hx)).1)) ?_
  exact fun x hx y hy hyx => ((hclosed x ((hmem x).1 hx)).2 y hy hyx).imp_left (hmem y).2

end Order

/-! ### Deliveries -/

section Deliveries

variable {env : Env} {cfg : Config} {C T D L : Set Log} {w : World}

/-- What is handed over is in turn. -/
def turns (T D : Set Log) : Frame World :=
  .through (fun w w' => ∃ l, w'.handed = w.handed ++ l ∧ InTurn Precedes T D (l.map lowered))
    (fun _ => ⟨[], (List.append_nil _).symm, inTurn_nil⟩)
    fun ⟨l₁, h₁, ho₁⟩ ⟨l₂, h₂, ho₂⟩ => by
      refine ⟨l₁ ++ l₂, by rw [h₂, h₁, List.append_assoc], ?_⟩
      rw [List.map_append]
      exact ho₁.append ho₂ fun _ => .inl

/-- Nothing is handed over. -/
def silentScope : Scope where
  tables := .any
  mem := .any
  handed := .keeping id
  requests := .any

theorem turns_of_silent {ε α : Type} {p : Prog World ε α} (h : Within silentScope.frame p) :
    Within (turns T D) p := by
  have hsame : ∀ w w' : World, w'.handed = w.handed → (turns T D).rel w w' := fun w w' heq =>
    ⟨[], by rw [heq, List.append_nil], inTurn_nil⟩
  exact h.mono (fun w w' hrel => hsame w w' hrel.1.handed) fun w w' hrel => hsame w w' hrel.1.handed

/-- A log is handed over first, however its delivery ends. -/
theorem meets_processLog_one (lg : Log) :
    Meets (processLog env cfg lg) w
      ⟨fun _ w' => w'.handed = w.handed ++ [lg], fun _ w' => w'.handed = w.handed ++ [lg],
        fun w' => w'.handed = w.handed ++ [lg]⟩ := by
  simp only [processLog, meets_bind, meets_modify]
  split
  · rfl
  · rfl
  · exact (within_recordEvent (recordScope_records.stores _) _).mono (fun _ _ h => h.1.handed)
      (fun _ _ h => h.1.handed) fun _ h => h.1.handed

theorem meets_deliver_one (lg : Log) :
    Meets (deliver env cfg lg) w
      ⟨fun _ w' => w'.handed = w.handed ++ [lg], fun _ _ => False,
        fun w' => w'.handed = w.handed ++ [lg]⟩ := by
  simp only [deliver, meets_bind, meets_catching, tick, meets_modify]
  refine (meets_processLog_one lg).mono (fun _ _ h => h) (fun e w₁ h₁ => ?_) fun _ h => h
  have hfail : Within recordScope.frame (insertRawLog env cfg cfg.stateKey lg.blockNumber
      lg.transactionHash lg.logIndex (Text.formatTopicsJson lg.topics) lg.data e.name
      lg.address) := within_insertRawLog recordScope_records
  simp only [recordFailedLog, meets_ignoring]
  exact (hfail w₁).mono (fun _ _ h => h.1.handed.trans h₁) (fun _ _ h => h.1.handed.trans h₁)
    fun _ h => h.1.handed.trans h₁

/-- Logs are handed over one after the other, until the end or a death. -/
theorem meets_each_deliver_one (logs : List Log) :
    Meets (each logs (deliver env cfg)) w
      ⟨fun _ w' => w'.handed = w.handed ++ logs, fun _ _ => False,
        fun w' => ∃ l, l <+: logs ∧ w'.handed = w.handed ++ l⟩ := by
  induction logs generalizing w with
  | nil => exact (List.append_nil _).symm
  | cons lg logs ih =>
    rw [each_cons, meets_bind]
    refine (meets_deliver_one lg).mono ?_ (fun _ _ h => h) fun w' h => ?_
    · intro _ w₁ h₁
      have hone : w₁.handed = w.handed ++ [lg] := h₁
      refine ih.mono ?_ (fun _ _ h => h) ?_
      · intro _ w' h
        show w'.handed = _
        rw [h, hone, List.append_assoc, List.singleton_append]
      · rintro w' ⟨l, hl, h⟩
        refine ⟨lg :: l, List.cons_prefix_cons.2 ⟨rfl, hl⟩, ?_⟩
        rw [h, hone, List.append_assoc, List.singleton_append]
    · exact ⟨[lg], List.cons_prefix_cons.2 ⟨rfl, List.nil_prefix⟩, h⟩

/-- **Sorted logs of a closed set are handed over in turn.** -/
theorem turns_each_deliver {logs : List Log} (hclosed : Closed T D L)
    (hsorted : logs.Pairwise Log.le) (hmem : ∀ x, x ∈ logs.map lowered ↔ x ∈ L) :
    Within (turns T D) (each logs (deliver env cfg)) := by
  have horder := inTurn_logs hclosed hsorted hmem
  intro w
  refine (meets_each_deliver_one logs).mono (fun _ w' h => ⟨logs, h, horder⟩)
    (fun _ _ h => h.elim) ?_
  rintro w' ⟨l, ⟨rest, rfl⟩, h⟩
  rw [List.map_append] at horder
  exact ⟨l, h, horder.of_append⟩

theorem turns_processFetchedLogs {logs : List Log} (hclosed : Closed T D L)
    (hmem : ∀ x, x ∈ logs.map lowered ↔ x ∈ L) :
    Within (turns T D) (processFetchedLogs env cfg logs) := by
  refine turns_each_deliver hclosed (pairwise_sortLogs logs) fun x => ?_
  rw [← hmem, List.mem_map, List.mem_map]
  simp only [mem_sortLogs]

end Deliveries

/-! ### Pulling -/

section Pulling

variable {env : Env} {cfg : Config} {C T D L : Set Log} {as : List Text}
  {ts : Option (List Text)} {key : Text} {f t : Nat} {w : World}

theorem silent_askLogs {answer : Nat → Outcome Err (List Log)} :
    Within silentScope.frame (askLogs answer) := within_askLogs fun _ => trivial

/-- What was collected is exactly what is wanted. -/
def Collected (C : Set Log) (as : List Text) (ts : Option (List Text)) (f t : Nat)
    (logs : List Log) : Prop :=
  ∀ lg, lg ∈ logs ↔ lg ∈ C ∧ Wanted as ts f t lg

theorem Collected.mem_wantedLogs {logs : List Log} (h : Collected C as ts f t logs) (x : Log) :
    x ∈ logs.map lowered ↔ x ∈ wantedLogs C as ts f t := by
  rw [List.mem_map]
  exact exists_congr fun lg => and_congr_left fun _ => h lg

/-- Logs that are collected in silence, and what is done with them. -/
theorem turns_bind_collected {p : M (List Log)} {k : List Log → M Unit}
    (hsilent : Within silentScope.frame p)
    (hp : ∀ w, Meets p w (collectedPost (fun _ => C) as ts f t w))
    (hk : ∀ logs, Collected C as ts f t logs → Within (turns T D) (k logs)) :
    Within (turns T D) (do let logs ← p; k logs) := by
  intro w
  rw [meets_bind]
  refine ((turns_of_silent (T := T) (D := D) hsilent w).and (hp w)).mono ?_ (fun _ _ h => h.1)
    fun _ h => h.1
  rintro logs w₁ ⟨hrel, -, -, hmem⟩
  exact (hk logs (hmem C (steady_const C f t _ _))).comp hrel

/-- The logs of two halves of the topics. -/
theorem turns_bind_both {l₁ l₂ : List Text} {k : List Log → M Unit}
    (hserve : Serves env fun _ => C) (h₁ : l₁ ≠ []) (h₂ : l₂ ≠ [])
    (hk : ∀ logs, Collected C as (some (l₁ ++ l₂)) f t logs → Within (turns T D) (k logs)) :
    Within (turns T D) (do
      let first ← appendBlockLogs env as (some l₁) f t
      let second ← appendBlockLogs env as (some l₂) f t
      k (first ++ second)) := by
  have hsilent : ∀ l, Within silentScope.frame (appendBlockLogs env as (some l) f t) :=
    fun l => within_appendBlockLogs (fun _ => trivial) as (some l) f t
  have hboth : ∀ w, Meets (do
      let first ← appendBlockLogs env as (some l₁) f t
      let second ← appendBlockLogs env as (some l₂) f t
      pure (first ++ second)) w (collectedPost (fun _ => C) as (some (l₁ ++ l₂)) f t w) :=
    fun w => meets_collect_both (meets_appendBlockLogs hserve as (some l₁) f t)
      (meets_appendBlockLogs hserve as (some l₂) f t) fun lg => wanted_append h₁ h₂
  have hrun := turns_bind_collected (within_bind (hsilent l₁) fun first =>
    within_bind (hsilent l₂) fun second => within_pure (first ++ second)) hboth hk
  simpa only [bind_assoc, pure_bind] using hrun

theorem silent_loadBlockReceipts {b : Nat} :
    Within silentScope.frame (loadBlockReceipts env as ts b) :=
  within_loadBlockReceipts fun _ => trivial

/-- A page that is handed over. -/
theorem turns_page {logs : List Log} (hans : Answers C ⟨as, ts, f, t⟩ logs)
    (hclosed : Closed T D (wantedLogs C as ts f t))
    (hpage : ¬((cutLogPage logs f t).truncated = true ∧ (cutLogPage logs f t).kept = [])) :
    Within (turns T D) (processFetchedLogs env cfg (cutLogPage logs f t).kept) := by
  by_cases htr : (cutLogPage logs f t).truncated = true
  · obtain ⟨-, hend, hmem⟩ := cutLogPage_prefix hans htr fun h => hpage ⟨htr, h⟩
    exact turns_processFetchedLogs (hclosed.upTo hend) (Collected.mem_wantedLogs hmem)
  · exact turns_processFetchedLogs hclosed
      (Collected.mem_wantedLogs (cutLogPage_complete hans (by simpa using htr)))

/-- **Pulling hands over in turn**, also when it fails. -/
theorem turns_pullUncached (hserve : Serves env fun _ => C) (as : List Text)
    (ts : Option (List Text)) (f t : Nat) (hclosed : Closed T D (wantedLogs C as ts f t)) :
    Within (turns T D) (pullUncached env cfg as ts f t) := by
  induction as, ts using split_induction f t with
  | step as ts ihA ihT =>
    have hreceipts : f = t → Within (turns T D) (consumeReceiptBlock env cfg as ts f) := by
      rintro rfl
      exact turns_bind_collected silent_loadBlockReceipts (fun _ => meets_loadBlockReceipts hserve)
        fun logs hlogs => turns_processFetchedLogs hclosed hlogs.mem_wantedLogs
    rw [pullUncached]
    by_cases has : as = []
    · simp only [makeLogFilter, has, if_true]
      exact within_pure _
    simp only [makeLogFilter, has, if_false]
    intro w
    rw [meets_bind, meets_attempt]
    refine ((turns_of_silent (T := T) (D := D) silent_askLogs w).and meets_getLogs).mono ?_ ?_
      fun _ h => h.1
    · rintro logs w₁ ⟨hrel, hlogs, -⟩
      refine Within.comp (within_ite (fun hcut => ?_) fun hcut => ?_) hrel
      · split
        · next mid h =>
          exact within_bind ((ihA mid h).1 (hclosed.addresses ( List.take_subset mid as)))
            fun _ => (ihA mid h).2 (hclosed.addresses ( List.drop_subset mid as))
        split
        · next l₁ l₂ h =>
          obtain ⟨-, rfl, h₁, h₂⟩ := splitTopicList_eq h
          exact turns_bind_both hserve h₁ h₂ fun logs hlogs =>
            turns_processFetchedLogs hclosed hlogs.mem_wantedLogs
        · exact within_ite hreceipts fun _ => within_throw _
      · exact within_bind (turns_page (hserve.logs _ _ _ hlogs) hclosed hcut) fun _ =>
          within_when fun _ => within_throw _
    · rintro e w₁ ⟨hrel, -⟩
      exact Within.comp (within_ite (fun h => hreceipts h.2) fun _ => within_throw _) hrel

theorem silent_storeLogCacheBatch {c : Text} {logs : List ChainLog} :
    Within silentScope.frame (storeLogCacheBatch env cfg c as key f t logs) :=
  within_storeLogCacheBatch ⟨fun _ _ => trivial, fun _ _ => trivial⟩

/-- **Filling a hole hands over in turn.** -/
theorem turns_fetchStoreProcess (hserve : Serves env fun _ => C) (as : List Text)
    (ts : Option (List Text)) (key : Text) (f t : Nat)
    (hclosed : Closed T D (wantedLogs C as ts f t)) :
    Within (turns T D) (fetchStoreProcess env cfg as ts key f t) := by
  have hstore : ∀ {c as key f t rows} {q : M Unit}, Within (turns T D) q →
      Within (turns T D) (do storeLogCacheBatch env cfg c as key f t rows; q) := fun hq =>
    within_bind (turns_of_silent silent_storeLogCacheBatch) fun _ => hq
  induction as, ts using split_induction f t with
  | step as ts ihA ihT =>
    have hreceipts : f = t → Within (turns T D) (storeReceiptBlock env cfg as ts key f) := by
      rintro rfl
      exact turns_bind_collected silent_loadBlockReceipts (fun _ => meets_loadBlockReceipts hserve)
        fun logs hlogs => hstore (turns_processFetchedLogs hclosed hlogs.mem_wantedLogs)
    rw [fetchStoreProcess]
    by_cases has : as = []
    · simp only [makeLogFilter, has, if_true]
      exact within_pure _
    simp only [makeLogFilter, has, if_false]
    intro w
    rw [meets_bind, meets_attempt]
    refine ((turns_of_silent (T := T) (D := D) silent_askLogs w).and meets_getLogs).mono ?_ ?_
      fun _ h => h.1
    · rintro logs w₁ ⟨hrel, hlogs, -⟩
      refine Within.comp (within_ite (fun hcut => ?_) fun hcut => ?_) hrel
      · split
        · next mid h =>
          exact within_bind ((ihA mid h).1 (hclosed.addresses ( List.take_subset mid as)))
            fun _ => (ihA mid h).2 (hclosed.addresses ( List.drop_subset mid as))
        split
        · next l₁ l₂ h =>
          obtain ⟨-, rfl, h₁, h₂⟩ := splitTopicList_eq h
          exact turns_bind_both hserve h₁ h₂ fun logs hlogs =>
            hstore (turns_processFetchedLogs hclosed hlogs.mem_wantedLogs)
        · exact within_ite hreceipts fun _ => within_throw _
      · exact hstore (within_bind (turns_page (hserve.logs _ _ _ hlogs) hclosed hcut) fun _ =>
          within_when fun _ => within_throw _)
    · rintro e w₁ ⟨hrel, -⟩
      exact Within.comp (within_ite (fun h => hreceipts h.2) fun _ => within_throw _) hrel

end Pulling

/-! ### Through the cache -/

section Cached

variable {env : Env} {cfg : Config} {chains : Text → Set Log} {T D : Set Log} {as : List Text}
  {ts : Option (List Text)} {key : Text} {f t : Nat} {w : World}

/-- What is handed over is in turn, and `p` is a scan through the cache. -/
def turnsPost (chains : Text → Set Log) (T D : Set Log) (P : Log → Prop) (w : World) :
    Post World Err Unit :=
  ⟨fun _ w' => (turns T D).rel w w' ∧ (cachedPost chains P w).ok () w',
    fun e w' => (turns T D).rel w w' ∧ (cachedPost chains P w).err e w',
    fun w' => (turns T D).rel w w'⟩

instance : Std.Total ChainLog.le := ⟨fun a b => by
  unfold ChainLog.le
  omega⟩

instance : IsTrans ChainLog ChainLog.le := ⟨fun a b c => by
  unfold ChainLog.le
  omega⟩

theorem pairwise_replayedLogs (rows : List ChainLog) :
    (replayedLogs ts rows).Pairwise Log.le := by
  have hsorted : (rows.insertionSort ChainLog.le).Pairwise ChainLog.le :=
    List.pairwise_insertionSort ChainLog.le rows
  have hlogs : ((rows.insertionSort ChainLog.le).map cachedLog).Pairwise Log.le :=
    List.pairwise_map.2 hsorted
  exact hlogs.filter _

/-- **Replaying hands over in turn.** -/
theorem meets_turns_replay (hon : cfg.logCacheEnabled = true) (hread : ReadsThrough env)
    (hC : Canonical (chains cfg.chain)) (hw : CacheReady chains w)
    (hkey : ∀ topics, topic0Allowed ts topics = topic0Allowed (keyTopics key) topics)
    (hrep : ∀ a ∈ as, ∀ b, f ≤ b → b ≤ t → Replayable chains cfg.chain key w.db a b)
    (hclosed : Closed T D (wantedLogs (chains cfg.chain) as ts f t)) :
    Meets (replayCachedAddresses env cfg as ts f t) w
      (turnsPost chains T D (fun lg => lg ∈ chains cfg.chain ∧ Wanted as ts f t lg) w) := by
  have hsilent : Within (turns T D) (gather as fun a => loadChainLogs env cfg cfg.chain a f t) :=
    turns_of_silent (within_gather fun _ _ => within_loadChainLogs)
  unfold replayCachedAddresses
  rw [meets_bind]
  refine ((meets_gather_rows hon hread hw.1 cfg.chain).and (hsilent w)).mono ?_ ?_ fun _ h => h.2
  · rintro all w₁ ⟨⟨rfl, hall⟩, -⟩
    have hmem := mem_replayedLogs hC hw hkey hrep hall
    exact ((turns_each_deliver hclosed (pairwise_replayedLogs all) hmem w₁).and
      (meets_cached_deliveries hw hmem)).mono (fun _ _ h => h) (fun _ _ h => h) fun _ h => h.1
  · rintro _ w₁ ⟨rfl, hrel⟩
    exact ⟨hrel, hw.1, .refl hw.2⟩

/-- Filling a hole, with what is known of the cache. -/
theorem meets_turns_fetch (hserve : Serves env fun _ => chains cfg.chain)
    (hreject : RejectsMalformed env) (hC : Canonical (chains cfg.chain))
    (hkey : ∀ topics, topic0Allowed ts topics = topic0Allowed (keyTopics key) topics)
    (hw : CacheReady chains w) (hclosed : Closed T D (wantedLogs (chains cfg.chain) as ts f t)) :
    Meets (fetchStoreProcess env cfg as ts key f t) w
      (turnsPost chains T D (fun lg => lg ∈ chains cfg.chain ∧ Wanted as ts f t lg) w) :=
  ((turns_fetchStoreProcess hserve as ts key f t hclosed w).and
    (meets_fetchStoreProcess_any hserve hreject hC hkey hw)).mono (fun _ _ h => h)
    (fun _ _ h => h) fun _ h => h.1

/-- What is done, together with what was handed over. -/
def andDone (D : Set Log) (P : Log → Prop) : Set Log :=
  {y | y ∈ D ∨ ∃ lg, P lg ∧ lowered lg = y}

theorem turns_trans {P : Log → Prop} {w₁ w' : World} (h₁ : (turns T D).rel w w₁)
    (hP : HandedLowered w w₁ P) (h₂ : (turns T (andDone D P)).rel w₁ w') :
    (turns T D).rel w w' := by
  obtain ⟨l₁, e₁, ho₁⟩ := h₁
  obtain ⟨l, e, hmem⟩ := hP
  obtain ⟨l₂, e₂, ho₂⟩ := h₂
  obtain rfl : l₁ = l := List.append_cancel_left (e₁.symm.trans e)
  refine ⟨l₁ ++ l₂, by rw [e₂, e₁, List.append_assoc], ?_⟩
  rw [List.map_append]
  exact ho₁.append ho₂ fun y hy => hy.imp_right (hmem y).2

/-- Two scans, the second of which may count on what the first has handed over. -/
theorem meets_turns_bind {p q : M Unit} {P Q : Log → Prop}
    (hp : Meets p w (turnsPost chains T D P w))
    (hq : ∀ w₁, CacheReady chains w₁ → CacheGrown chains w.db w₁.db →
      Meets q w₁ (turnsPost chains T (andDone D P) Q w₁)) :
    Meets (do p; q) w (turnsPost chains T D (fun lg => P lg ∨ Q lg) w) := by
  rw [meets_bind]
  refine hp.mono ?_ (fun _ _ h => h) fun _ h => h
  rintro _ w₁ ⟨hrel, ⟨hquiet, hgrown⟩, hhanded⟩
  refine (hq w₁ ⟨hquiet, hgrown.sound⟩ hgrown).mono ?_ ?_ ?_
  · rintro _ w' ⟨hrel', ⟨hquiet', hgrown'⟩, hhanded'⟩
    exact ⟨turns_trans hrel hhanded hrel', ⟨hquiet', hgrown.trans hgrown'⟩,
      hhanded.trans hhanded'⟩
  · rintro _ w' ⟨hrel', hquiet', hgrown'⟩
    exact ⟨turns_trans hrel hhanded hrel', hquiet', hgrown.trans hgrown'⟩
  · exact fun w' hrel' => turns_trans hrel hhanded hrel'

/-- **The walk through the holes is in turn.** The induction is on the holes that are still to
come; everything before the cursor is done. -/
theorem meets_turns_syncHoles (hon : cfg.logCacheEnabled = true) (hread : ReadsThrough env)
    (hserve : Serves env fun _ => chains cfg.chain) (hreject : RejectsMalformed env)
    (hC : Canonical (chains cfg.chain))
    (hkey : ∀ topics, topic0Allowed ts topics = topic0Allowed (keyTopics key) topics) :
    ∀ (holes : List BlockSpan) (cursor : Nat) (D : Set Log) (w : World), f ≤ cursor →
      CacheReady chains w →
      (∀ h ∈ holes, f ≤ h.fromBlock ∧ h.fromBlock ≤ h.toBlock ∧ h.toBlock ≤ t) →
      Walkable (AllReplayable chains cfg.chain key w.db as) t holes cursor →
      Closed T D (wantedLogs (chains cfg.chain) as ts f t) →
      (∀ y ∈ wantedLogs (chains cfg.chain) as ts f t, y.blockNumber < cursor → y ∈ D) →
      Meets (syncHoles env cfg as ts key t holes cursor) w
        ⟨fun _ => (turns T D).rel w, fun _ => (turns T D).rel w, (turns T D).rel w⟩
  | [], cursor, D, w, hf, hw, _, hwalk, hclosed, hdone => by
    rw [syncHoles]
    refine meets_when (fun hle => ?_) fun _ => (turns T D).refl w
    exact (meets_turns_replay hon hread hC hw hkey (fun a ha b hb hbt => hwalk b hb hbt a ha)
      (hclosed.range (fun _ => id) hf le_rfl hdone)).mono (fun _ _ h => h.1) (fun _ _ h => h.1)
      fun _ h => h
  | h :: holes, cursor, D, w, hf, hw, hin, hwalk, hclosed, hdone => by
    obtain ⟨hfrom, hle, hto⟩ := hin h List.mem_cons_self
    have hbefore : Meets (Prog.when (h.fromBlock > cursor)
        (replayCachedAddresses env cfg as ts cursor (h.fromBlock - 1))) w
        (turnsPost chains T D (fun lg => lg ∈ chains cfg.chain ∧ cursor < h.fromBlock ∧
          Wanted as ts cursor (h.fromBlock - 1) lg) w) := by
      refine meets_when (fun hlt => ?_) fun hge => ?_
      · refine (meets_turns_replay hon hread hC hw hkey
          (fun a ha b hb hbt => hwalk.1 b hb (by omega) a ha)
          (hclosed.range (fun _ => id) hf (by omega) hdone)).mono ?_ (fun _ _ h => h) fun _ h => h
        rintro _ w' ⟨hrel, hgrown, hhanded⟩
        exact ⟨hrel, hgrown, hhanded.congr fun lg => and_congr_right fun _ =>
          (and_iff_right hlt).symm⟩
      · exact ⟨(turns T D).refl w, ⟨hw.1, .refl hw.2⟩, .of_empty rfl fun lg h => hge h.2.1⟩
    -- up to the beginning of the hole everything is done
    have hdone' : ∀ y ∈ wantedLogs (chains cfg.chain) as ts f t, y.blockNumber < h.fromBlock →
        y ∈ andDone D fun lg => lg ∈ chains cfg.chain ∧ cursor < h.fromBlock ∧
          Wanted as ts cursor (h.fromBlock - 1) lg := by
      intro y hy hlt
      rcases Nat.lt_or_ge y.blockNumber cursor with hc | hc
      · exact .inl (hdone y hy hc)
      · obtain ⟨lg, ⟨hlg, hwant⟩, rfl⟩ := hy
        have hb : (lowered lg).blockNumber = lg.blockNumber := rfl
        exact .inr ⟨lg, ⟨hlg, by omega, hc, by omega, hwant.2.2⟩, rfl⟩
    have hhole : Meets (do
        Prog.when (h.fromBlock > cursor)
          (replayCachedAddresses env cfg as ts cursor (h.fromBlock - 1))
        fetchStoreProcess env cfg as ts key h.fromBlock h.toBlock) w _ :=
      meets_turns_bind hbefore fun w₁ hw₁ _ => meets_turns_fetch hserve hreject hC hkey hw₁
        (hclosed.range (fun _ => .inl) hfrom hto hdone')
    rw [syncHoles, ← bind_assoc, meets_bind]
    refine hhole.mono ?_ (fun _ _ h => h.1) fun _ h => h
    rintro _ w₂ ⟨hrel, ⟨hquiet, hgrown⟩, hhanded⟩
    refine meets_when (fun _ => ?_) fun _ => hrel
    refine (meets_turns_syncHoles hon hread hserve hreject hC hkey holes (h.toBlock + 1)
      (andDone D _) w₂ (by omega) ⟨hquiet, hgrown.sound⟩ (fun h' hmem => hin h' (List.mem_cons_of_mem _ hmem))
      (hwalk.2.mono fun b hrep a ha => (hrep a ha).grown hgrown) ?_ ?_).mono
      (fun _ _ h => turns_trans hrel hhanded h) (fun _ _ h => turns_trans hrel hhanded h)
      fun _ h => turns_trans hrel hhanded h
    · exact fun x hx => ⟨(hclosed x hx).1, fun y hy hyx =>
        ((hclosed x hx).2 y hy hyx).imp_right .inl⟩
    · intro y hy hlt
      rcases Nat.lt_or_ge y.blockNumber h.fromBlock with hb | hb
      · exact (hdone' y hy hb).imp_right (Exists.imp fun lg h => ⟨.inl h.1, h.2⟩)
      · obtain ⟨lg, ⟨hlg, hwant⟩, rfl⟩ := hy
        exact .inr ⟨lg, .inr ⟨hlg, hb, Nat.lt_succ_iff.1 hlt, hwant.2.2⟩, rfl⟩

/-- What is handed over is in turn, and the cache has grown. -/
def cachedTurns (chains : Text → Set Log) (T D : Set Log) : Frame World where
  rel w w' := CacheReady chains w →
    (turns T D).rel w w' ∧ w'.Quiet ∧ CacheGrown chains w.db w'.db
  dead w w' := CacheReady chains w → (turns T D).rel w w'
  refl w hw := ⟨(turns T D).refl w, hw.1, .refl hw.2⟩
  trans h₁ h₂ hw := by
    obtain ⟨hrel₁, hquiet₁, hgrown₁⟩ := h₁ hw
    obtain ⟨hrel₂, hquiet₂, hgrown₂⟩ := h₂ ⟨hquiet₁, hgrown₁.sound⟩
    exact ⟨(turns T D).trans hrel₁ hrel₂, hquiet₂, hgrown₁.trans hgrown₂⟩
  trans_dead h₁ h₂ hw := by
    obtain ⟨hrel₁, hquiet₁, hgrown₁⟩ := h₁ hw
    exact (turns T D).trans hrel₁ (h₂ ⟨hquiet₁, hgrown₁.sound⟩)

/-- Groups one after the other, each of which can be walked through from the beginning on. -/
theorem meets_turns_groups (hon : cfg.logCacheEnabled = true) (hread : ReadsThrough env)
    (hserve : Serves env fun _ => chains cfg.chain) (hreject : RejectsMalformed env)
    (hC : Canonical (chains cfg.chain))
    (hkey : ∀ topics, topic0Allowed ts topics = topic0Allowed (keyTopics key) topics)
    (ht : t ≤ u64Max) (hclosed : Closed T D (wantedLogs (chains cfg.chain) as ts f t)) :
    ∀ (groups : List HoleGroup) (w : World), CacheReady chains w →
      (∀ g ∈ groups, g.Good chains cfg.chain key w.db f t ∧ g.addrs ⊆ as) →
      Meets (each groups fun g => syncHoleGroup env cfg g.addrs g.holes ts key f t) w
        ⟨fun _ => (cachedTurns chains T D).rel w, fun _ => (cachedTurns chains T D).rel w,
          (cachedTurns chains T D).dead w⟩
  | [], w, _, _ => (cachedTurns chains T D).refl w
  | g :: groups, w, hw, hgood => by
    obtain ⟨hg, hsub⟩ := hgood g List.mem_cons_self
    have hfirst := (meets_turns_syncHoles hon hread hserve hreject hC hkey g.holes f D w le_rfl hw
      hg.inside hg.walk (hclosed.addresses hsub) fun y ⟨_, ⟨_, hwant⟩, hy⟩ hlt => by
        subst hy
        exact absurd hwant.1 (Nat.not_le_of_lt hlt)).and
      (meets_syncHoleGroup hon hread hserve hreject hC hkey ht hw hg)
    rw [each_cons, meets_bind]
    refine hfirst.mono ?_ (fun _ _ h _ => h) fun _ h _ => h.1
    rintro _ w₁ ⟨hrel, hgrown, -⟩
    have hone : (cachedTurns chains T D).rel w w₁ := fun _ => ⟨hrel, hgrown⟩
    refine (meets_turns_groups hon hread hserve hreject hC hkey ht hclosed groups w₁
      ⟨hgrown.1, hgrown.2.sound⟩ fun g' hg' => ?_).mono
      (fun _ _ h => (cachedTurns chains T D).trans hone h)
      (fun _ _ h => (cachedTurns chains T D).trans hone h)
      fun _ h => (cachedTurns chains T D).trans_dead hone h
    obtain ⟨⟨hin, hwalk⟩, hsub'⟩ := hgood g' (List.mem_cons_of_mem g hg')
    exact ⟨⟨hin, hwalk.mono fun b hrep a ha => (hrep a ha).grown hgrown.2⟩, hsub'⟩

theorem turns_syncRangeChunkCached (hon : cfg.logCacheEnabled = true) (hread : ReadsThrough env)
    (hserve : Serves env fun _ => chains cfg.chain) (hreject : RejectsMalformed env)
    (hC : Canonical (chains cfg.chain))
    (hkey : ∀ topics, topic0Allowed ts topics = topic0Allowed (keyTopics key) topics)
    (ht : t ≤ u64Max) (hclosed : Closed T D (wantedLogs (chains cfg.chain) as ts f t)) :
    Within (cachedTurns chains T D) (syncRangeChunkCached env cfg as ts key f t) := by
  have hsilent : Within (turns T D) (groupByHoles env cfg key f t as []) :=
    turns_of_silent (within_groupByHoles as [])
  intro w
  by_cases hw : CacheReady chains w
  · rw [syncRangeChunkCached, meets_bind]
    refine ((meets_groupByHoles hon hw ht as [] fun _ h => absurd h List.not_mem_nil).and
      (hsilent w)).mono ?_ ?_ fun _ h _ => h.2
    · rintro groups w₁ ⟨⟨rfl, hgood, hmem⟩, -⟩
      refine meets_turns_groups hon hread hserve hreject hC hkey ht hclosed groups w₁ hw
        fun g hg => ⟨hgood g hg, fun a ha => ?_⟩
      rcases (hmem a).1 ⟨g, hg, ha⟩ with ⟨g', hg', -⟩ | hmem
      · exact absurd hg' List.not_mem_nil
      · exact hmem
    · rintro _ w₁ ⟨rfl, hrel⟩ _
      exact ⟨hrel, hw.1, .refl hw.2⟩
  · exact (meets_trivial _ w).mono (fun _ _ _ h => absurd h hw) (fun _ _ _ h => absurd h hw)
      fun _ _ h => absurd h hw

end Cached

/-! ### A scan -/

/-- What is assumed where the log cache is on. -/
structure CacheAt (env : Env) (chains : Text → Set Log) (w : World) : Prop where
  reads : ReadsThrough env
  rejects : RejectsMalformed env
  ready : CacheReady chains w

section Order

variable {env : Env} {cfg : Config} {chains : Text → Set Log} {f t : Nat} {w : World}

theorem turns_syncRangeWithAddresses {T D : Set Log} {addresses : List Text}
    (hserve : Serves env fun _ => chains cfg.chain) (hC : Canonical (chains cfg.chain))
    (ht : t ≤ u64Max) (hcache : cfg.logCacheEnabled = true → CacheAt env chains w)
    (hclosed : Closed T D (wantedLogs (chains cfg.chain) addresses (topicsOpt cfg) f t)) :
    (turns T D).rel w (syncRangeWithAddresses env cfg addresses f t w).2 := by
  have hchunk : ∀ b, Closed T D
      (wantedLogs (chains cfg.chain) (chunkOf addresses b) (topicsOpt cfg) f t) := fun b =>
    hclosed.addresses fun a ha => List.mem_of_mem_drop (List.mem_of_mem_take ha)
  by_cases hon : cfg.logCacheEnabled = true
  · obtain ⟨hread, hreject, hready⟩ := hcache hon
    have hscan : Within (cachedTurns chains T D)
        (syncRangeWithAddresses env cfg addresses f t) := by
      unfold syncRangeWithAddresses
      refine within_ite (fun _ => within_pure _) fun _ => within_each fun b _ => ?_
      rw [syncRangeChunk, if_pos hon]
      exact turns_syncRangeChunkCached hon hread hserve hreject hC (topic0Allowed_topicsOpt cfg)
        ht (hchunk b)
    exact ((hscan w).mono (fun _ _ h => (h hready).1) (fun _ _ h => (h hready).1)
      fun _ h => h hready).snd
  · have hscan : Within (turns T D) (syncRangeWithAddresses env cfg addresses f t) := by
      unfold syncRangeWithAddresses
      refine within_ite (fun _ => within_pure _) fun _ => within_each fun b _ => ?_
      rw [syncRangeChunk, if_neg hon]
      exact turns_pullUncached hserve _ _ f t (hchunk b)
    exact (hscan w).snd

/-- A scan that goes through hands over all that is wanted. -/
theorem wanted_handed {addresses : List Text} (hserve : Serves env fun _ => chains cfg.chain)
    (hC : Canonical (chains cfg.chain)) (ht : t ≤ u64Max)
    (hcache : cfg.logCacheEnabled = true → CacheAt env chains w) {w' : World}
    (hrun : syncRangeWithAddresses env cfg addresses f t w = (.ok (), w')) :
    HandedLowered w w' fun lg =>
      lg ∈ chains cfg.chain ∧ Wanted addresses (topicsOpt cfg) f t lg := by
  by_cases hon : cfg.logCacheEnabled = true
  · obtain ⟨hread, hreject, hready⟩ := hcache hon
    exact ((meets_syncRangeWithAddresses_cached hon hread hserve hreject hC ht hready).ok_of_eq
      hrun).2
  · have hscan := (meets_syncRangeWithAddresses_uncached (w := w) (f := f) (t := t) hserve
      (by simpa using hon)).ok_of_eq hrun
    obtain ⟨l, hl, hmem⟩ := hscan.2 _ (steady_const _ f t _ _)
    refine ⟨l, hl, fun x => ?_⟩
    rw [List.mem_map]
    exact exists_congr fun lg => and_congr_left fun _ => hmem lg

end Order

/-! ### A node without order -/

def swapAddress : Text := "0x".toList ++ List.replicate 40 'b'

def earlySwap : Log where
  address := swapAddress
  topics := []
  data := []
  blockNumber := 5
  transactionHash := "0x01".toList
  logIndex := 0

def lateSwap : Log := { earlySwap with transactionHash := "0x02".toList, logIndex := 1 }

/-- The later log comes first in every answer. -/
def disorderlyNode : Env where
  getLogs _ f := .ok ([lateSwap, earlySwap].filter
    (Wanted f.addresses f.topics f.fromBlock f.toBlock ·))
  blockReceipts _ b := .ok ([lateSwap, earlySwap].filter (·.blockNumber = b))

theorem serves_disorderlyNode :
    Serves disorderlyNode fun _ => {lg | lg ∈ [lateSwap, earlySwap]} where
  logs t f logs h := by
    obtain rfl := Outcome.ok.inj h
    refine .inl ⟨(List.length_filter_le _ _).trans_lt (by decide), fun lg => ?_⟩
    rw [List.mem_filter, decide_eq_true_eq]
    rfl
  receipts t b logs h lg := by
    obtain rfl := Outcome.ok.inj h
    rw [List.mem_filter, decide_eq_true_eq]
    rfl

theorem canonical_swaps : Canonical {lg | lg ∈ [lateSwap, earlySwap]} where
  address := show ∀ lg ∈ [lateSwap, earlySwap], Text.isAddress lg.address = true by decide
  topics := show ∀ lg ∈ [lateSwap, earlySwap], ∀ t ∈ lg.topics, t ≠ [] ∧ ',' ∉ t by decide
  identity := show ∀ a ∈ [lateSwap, earlySwap], ∀ b ∈ [lateSwap, earlySwap],
    a.transactionHash = b.transactionHash → a.logIndex = b.logIndex → a = b by decide
  removed := show ∀ lg ∈ [lateSwap, earlySwap], lg.removed = false by decide
  block := show ∀ lg ∈ [lateSwap, earlySwap], lg.blockNumber ≤ u64Max by decide

end Zponder

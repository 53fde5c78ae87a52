import Zponder.Scope

/-!
# Splitting loses nothing

What a node says about the logs of a range may be cut off, and then the range is
split. Two facts carry the whole recursion: an answer that is cut off is complete
below its highest block, because it is a prefix in block order
(`Zponder.mem_kept`), and what a request asks for is what its halves ask for,
whichever list is halved (`Zponder.wanted_take_drop`, `Zponder.wanted_append`).

The chain is a set of logs for every moment. A scan that takes several requests sees
several of these sets, so what it collects is only known if the chain stands still
on the range for as long as the scan takes (`Zponder.Steady`).
-/

namespace Zponder

open Imperative Prog Conn

/-! ### What a node says -/

/-- What a request asks for. -/
def Wanted (addresses : List Text) (topics : Option (List Text)) (fromBlock toBlock : Nat)
    (lg : Log) : Prop :=
  fromBlock ≤ lg.blockNumber ∧ lg.blockNumber ≤ toBlock ∧
    receiptLogWanted addresses topics lg = true

instance (addresses : List Text) (topics : Option (List Text)) (fromBlock toBlock : Nat)
    (lg : Log) : Decidable (Wanted addresses topics fromBlock toBlock lg) :=
  inferInstanceAs (Decidable (_ ∧ _ ∧ _))

/-- An answer to `eth_getLogs` about a chain: all that was asked for, or at least ten
thousand logs of it that come first in block order. -/
def Answers (chain : Set Log) (f : LogFilter) (logs : List Log) : Prop :=
  (logs.length < getlogsPageLimit ∧
    ∀ lg, lg ∈ logs ↔ lg ∈ chain ∧ Wanted f.addresses f.topics f.fromBlock f.toBlock lg) ∨
  (getlogsPageLimit ≤ logs.length ∧ ∃ rest,
    (∀ lg, lg ∈ logs ++ rest ↔
      lg ∈ chain ∧ Wanted f.addresses f.topics f.fromBlock f.toBlock lg) ∧
    (logs ++ rest).Pairwise fun a b => a.blockNumber ≤ b.blockNumber)

/-- A node that answers about the chain of the moment, or with an error. -/
structure Serves (env : Env) (chain : Nat → Set Log) : Prop where
  logs : ∀ t f logs, env.getLogs t f = .ok logs → Answers (chain t) f logs
  receipts : ∀ t b logs, env.blockReceipts t b = .ok logs →
    ∀ lg, lg ∈ logs ↔ lg ∈ chain t ∧ lg.blockNumber = b

/-- From moment `a` to before moment `b` the chain is `C` on the blocks from
`fromBlock` to `toBlock`. -/
def Steady (chain : Nat → Set Log) (C : Set Log) (fromBlock toBlock a b : Nat) : Prop :=
  ∀ m, a ≤ m → m < b → ∀ lg : Log, fromBlock ≤ lg.blockNumber → lg.blockNumber ≤ toBlock →
    (lg ∈ chain m ↔ lg ∈ C)

theorem Steady.mono {chain : Nat → Set Log} {C : Set Log} {f t f' t' a b a' b' : Nat}
    (h : Steady chain C f t a b) (hf : f ≤ f') (ht : t' ≤ t) (ha : a ≤ a') (hb : b' ≤ b) :
    Steady chain C f' t' a' b' :=
  fun m h₁ h₂ lg h₃ h₄ => h m (ha.trans h₁) (h₂.trans_le hb) lg (hf.trans h₃) (h₄.trans ht)

theorem steady_const (C : Set Log) (f t a b : Nat) : Steady (fun _ => C) C f t a b :=
  fun _ _ _ _ _ _ => Iff.rfl

/-- What is wanted of a steady chain is wanted of its one value. -/
theorem Steady.wanted_iff {chain : Nat → Set Log} {C : Set Log} {f t a b m : Nat}
    (h : Steady chain C f t a b) (ha : a ≤ m) (hb : m < b) {as : List Text}
    {ts : Option (List Text)} {lg : Log} :
    lg ∈ chain m ∧ Wanted as ts f t lg ↔ lg ∈ C ∧ Wanted as ts f t lg := by
  refine and_congr_left fun hw => h m ha hb lg hw.1 hw.2.1

theorem Answers.congr {C D : Set Log} {f : LogFilter} {logs : List Log} (h : Answers C f logs)
    (hCD : ∀ lg, lg ∈ C ∧ Wanted f.addresses f.topics f.fromBlock f.toBlock lg ↔
      lg ∈ D ∧ Wanted f.addresses f.topics f.fromBlock f.toBlock lg) : Answers D f logs := by
  simpa only [Answers, hCD] using h

/-! ### Pages -/

theorem mem_sortLogs {lg : Log} {logs : List Log} : lg ∈ sortLogs logs ↔ lg ∈ logs :=
  List.mem_insertionSort Log.le

@[simp] theorem length_sortLogs (logs : List Log) : (sortLogs logs).length = logs.length :=
  List.length_insertionSort Log.le logs

instance : Std.Total Log.le := ⟨fun a b => by
  unfold Log.le
  omega⟩

instance : IsTrans Log Log.le := ⟨fun a b c => by
  unfold Log.le
  omega⟩

theorem pairwise_sortLogs (logs : List Log) : (sortLogs logs).Pairwise Log.le :=
  List.pairwise_insertionSort Log.le logs

/-- The highest block of a page. -/
theorem foldl_max_le {logs : List Log} {b n : Nat} :
    logs.foldl (fun m lg => max m lg.blockNumber) b ≤ n ↔
      b ≤ n ∧ ∀ lg ∈ logs, lg.blockNumber ≤ n := by
  induction logs generalizing b with
  | nil => simp
  | cons lg logs ih =>
    rw [List.foldl_cons, ih, Nat.max_le, List.forall_mem_cons, and_assoc]

/-- The logs up to a block are a prefix of the sorted ones. -/
theorem takeWhile_sorted {e : Nat} : ∀ {logs : List Log}, logs.Pairwise Log.le →
    (logs.takeWhile fun lg => lg.blockNumber ≤ e) = logs.filter fun lg => lg.blockNumber ≤ e
  | [], _ => rfl
  | lg :: logs, h => by
    have hp := List.pairwise_cons.1 h
    by_cases hle : lg.blockNumber ≤ e
    · simp [hle, takeWhile_sorted hp.2]
    · have hnil : (logs.filter fun lg => lg.blockNumber ≤ e) = [] := by
        rw [List.filter_eq_nil_iff]
        intro x hx
        have := hp.1 x hx
        unfold Log.le at this
        simp only [decide_eq_true_eq]
        omega
      simp [hle, hnil]

/-- A page that was not cut off is the whole answer. -/
theorem cutLogPage_complete {C : Set Log} {as : List Text} {ts : Option (List Text)} {f t : Nat}
    {logs : List Log} (h : Answers C ⟨as, ts, f, t⟩ logs)
    (htr : (cutLogPage logs f t).truncated = false) (lg : Log) :
    lg ∈ (cutLogPage logs f t).kept ↔ lg ∈ C ∧ Wanted as ts f t lg := by
  unfold cutLogPage at htr ⊢
  simp only [length_sortLogs] at htr ⊢
  split at htr
  · exact Bool.noConfusion htr
  · next e he =>
    split at htr
    · next hlen =>
      rw [if_pos hlen, mem_sortLogs]
      rcases h with ⟨-, h⟩ | ⟨h, -⟩
      · exact h lg
      · exact absurd hlen (Nat.not_lt.2 h)
    · exact Bool.noConfusion htr

theorem cutLogPage_endBlock {f t : Nat} {logs : List Log}
    (htr : (cutLogPage logs f t).truncated = false) : (cutLogPage logs f t).endBlock = t := by
  unfold cutLogPage at htr ⊢
  simp only [length_sortLogs] at htr ⊢
  split at htr
  · exact Bool.noConfusion htr
  · next e he =>
    split at htr
    · next hlen =>
      rw [pageEnd, if_pos (.inr hlen)] at he
      rw [if_pos hlen, Option.some.inj he]
    · exact Bool.noConfusion htr

/-- **A page that was cut off is complete up to its end.** -/
theorem cutLogPage_prefix {C : Set Log} {as : List Text} {ts : Option (List Text)} {f t : Nat}
    {logs : List Log} (h : Answers C ⟨as, ts, f, t⟩ logs)
    (htr : (cutLogPage logs f t).truncated = true) (hne : (cutLogPage logs f t).kept ≠ []) :
    f ≤ (cutLogPage logs f t).endBlock ∧ (cutLogPage logs f t).endBlock ≤ t ∧
      ∀ lg, lg ∈ (cutLogPage logs f t).kept ↔
        lg ∈ C ∧ Wanted as ts f (cutLogPage logs f t).endBlock lg := by
  unfold cutLogPage at htr hne ⊢
  obtain ⟨maxBlock, hmax⟩ : ∃ n, (sortLogs logs).foldl (fun m lg => max m lg.blockNumber) f = n :=
    ⟨_, rfl⟩
  simp only [length_sortLogs, hmax] at htr hne ⊢
  cases hend : pageEnd f t maxBlock logs.length getlogsPageLimit with
  | none => simp [hend] at hne
  | some e =>
    simp only [hend] at htr hne ⊢
    split at htr
    · exact Bool.noConfusion htr
    · next hlen =>
      simp only [if_neg hlen] at hne ⊢
      obtain ⟨-, rest, hall, hord⟩ := h.resolve_left fun h => hlen h.1
      have hwanted : ∀ lg ∈ logs, f ≤ lg.blockNumber ∧ lg.blockNumber ≤ t := fun lg hlg => by
        have := ((hall lg).1 (List.mem_append_left _ hlg)).2
        exact ⟨this.1, this.2.1⟩
      -- the page end is one block below the highest, which some log of the page has
      have he : f < maxBlock ∧ e = if maxBlock - 1 > t then t else maxBlock - 1 := by
        unfold pageEnd at hend
        rw [if_neg (by simp [getlogsPageLimit] at hlen ⊢; omega)] at hend
        split at hend
        · cases hend
        · next hlt => exact ⟨by omega, (Option.some.inj hend).symm⟩
      have htop : ∃ top ∈ logs, e < top.blockNumber := by
        by_contra hno
        have hle : maxBlock ≤ max f e := by
          rw [← hmax, foldl_max_le]
          refine ⟨Nat.le_max_left _ _, fun lg hlg => ?_⟩
          have := mt (fun h => ⟨lg, mem_sortLogs.1 hlg, h⟩) hno
          omega
        have : e ≤ maxBlock - 1 := by
          rw [he.2]
          split <;> omega
        omega
      obtain ⟨top, htop, hetop⟩ := htop
      have htt := hwanted top htop
      have het : e ≤ t := by omega
      refine ⟨by rw [he.2]; split <;> omega, het, fun lg => ?_⟩
      rw [takeWhile_sorted (pairwise_sortLogs logs), List.mem_filter, mem_sortLogs,
        decide_eq_true_eq]
      constructor
      · rintro ⟨hlg, hle⟩
        obtain ⟨hC, hw⟩ := (hall lg).1 (List.mem_append_left _ hlg)
        exact ⟨hC, hw.1, hle, hw.2.2⟩
      · rintro ⟨hC, hw⟩
        refine ⟨?_, hw.2.1⟩
        -- a log below the page end cannot come after one above it
        rcases List.mem_append.1 ((hall lg).2 ⟨hC, hw.1, hw.2.1.trans het, hw.2.2⟩) with h | h
        · exact h
        · have := (List.pairwise_append.1 hord).2.2 top htop lg h
          have := hw.2.1
          omega

/-! ### Halves -/

variable {as : List Text} {f t : Nat} {lg : Log}

theorem receiptLogWanted_append {bs : List Text} {ts : Option (List Text)} :
    receiptLogWanted (as ++ bs) ts lg =
      (receiptLogWanted as ts lg || receiptLogWanted bs ts lg) := by
  simp [receiptLogWanted, Bool.and_or_distrib_right]

/-- A request for a list of addresses asks for what its halves ask for. -/
theorem wanted_take_drop {ts : Option (List Text)} (mid : Nat) :
    Wanted as ts f t lg ↔ Wanted (as.take mid) ts f t lg ∨ Wanted (as.drop mid) ts f t lg := by
  have h : receiptLogWanted as ts lg = true ↔
      receiptLogWanted (as.take mid) ts lg = true ∨ receiptLogWanted (as.drop mid) ts lg = true := by
    rw [← Bool.or_eq_true, ← receiptLogWanted_append, List.take_append_drop]
  unfold Wanted
  rw [h]
  tauto

theorem topic0Allowed_append {l₁ l₂ : List Text} (h₁ : l₁ ≠ []) (h₂ : l₂ ≠ [])
    (topics : List Text) :
    topic0Allowed (some (l₁ ++ l₂)) topics =
      (topic0Allowed (some l₁) topics || topic0Allowed (some l₂) topics) := by
  obtain ⟨a, l₁, rfl⟩ := List.exists_cons_of_ne_nil h₁
  obtain ⟨b, l₂, rfl⟩ := List.exists_cons_of_ne_nil h₂
  cases topics with
  | nil => rfl
  | cons topic0 topics => simp [topic0Allowed, Bool.or_assoc]

/-- A request for a list of topics asks for what its halves ask for. -/
theorem wanted_append {l₁ l₂ : List Text} (h₁ : l₁ ≠ []) (h₂ : l₂ ≠ []) :
    Wanted as (some (l₁ ++ l₂)) f t lg ↔
      Wanted as (some l₁) f t lg ∨ Wanted as (some l₂) f t lg := by
  have h : receiptLogWanted as (some (l₁ ++ l₂)) lg = true ↔
      receiptLogWanted as (some l₁) lg = true ∨ receiptLogWanted as (some l₂) lg = true := by
    rw [receiptLogWanted, topic0Allowed_append h₁ h₂, Bool.and_or_distrib_left, Bool.or_eq_true]
    rfl
  unfold Wanted
  rw [h]
  tauto

/-! ### What a scan hands over -/

section HandOver

variable {env : Env} {cfg : Config} {w : World}

/-- From `w` to `w'` exactly the logs that satisfy `P` were handed to `processLog`. -/
def HandedOver (w w' : World) (P : Log → Prop) : Prop :=
  ∃ l, w'.handed = w.handed ++ l ∧ ∀ lg, lg ∈ l ↔ P lg

theorem handedOver_self {P : Log → Prop} {w' : World} (hw : w'.handed = w.handed)
    (h : ∀ lg, ¬P lg) : HandedOver w w' P :=
  ⟨[], by simpa using hw, fun lg => by simp [h lg]⟩

theorem HandedOver.trans {w₁ w₂ : World} {P Q : Log → Prop} (h₁ : HandedOver w w₁ P)
    (h₂ : HandedOver w₁ w₂ Q) : HandedOver w w₂ fun lg => P lg ∨ Q lg := by
  obtain ⟨l₁, e₁, h₁⟩ := h₁
  obtain ⟨l₂, e₂, h₂⟩ := h₂
  exact ⟨l₁ ++ l₂, by rw [e₂, e₁, List.append_assoc], fun lg => by simp [h₁, h₂]⟩

theorem HandedOver.congr {w' : World} {P Q : Log → Prop} (h : HandedOver w w' P)
    (hPQ : ∀ lg, P lg ↔ Q lg) : HandedOver w w' Q := by
  obtain ⟨l, e, h⟩ := h
  exact ⟨l, e, fun lg => (h lg).trans (hPQ lg)⟩

theorem HandedOver.of_handed_eq {w₁ w' : World} {P : Log → Prop} (h : HandedOver w₁ w' P)
    (hw : w₁.handed = w.handed) : HandedOver w w' P := by
  obtain ⟨l, e, h⟩ := h
  exact ⟨l, by rw [e, hw], h⟩

/-- Everything outside `processLog` itself leaves the record of logs alone. -/
def recordScope : Scope where
  tables := .any
  mem := .any
  handed := .keeping id
  requests := .keeping id

theorem recordScope_records : recordScope.Records where
  events _ _ := trivial
  accounts _ _ := trivial
  blocks _ _ := trivial
  callback _ _ _ := trivial
  rawLogs _ _ _ := trivial
  tsCache _ _ := trivial

/-- The logs `l` were handed over, without a request. -/
def deliveredPost (α : Type) (w : World) (l : List Log) : Post World Err α :=
  ⟨fun _ w' => w'.handed = w.handed ++ l ∧ w'.requests = w.requests ∧ w.now ≤ w'.now,
    fun _ w' => w'.handed = w.handed ++ l ∧ w'.requests = w.requests ∧ w.now ≤ w'.now,
    fun w' => w'.requests = w.requests⟩

theorem meets_processLog_handed (lg : Log) :
    Meets (processLog env cfg lg) w (deliveredPost Unit w [lg]) := by
  simp only [processLog, meets_bind, meets_modify]
  split
  · exact ⟨rfl, rfl, Nat.le_refl _⟩
  · exact ⟨rfl, rfl, Nat.le_refl _⟩
  · exact (within_recordEvent (recordScope_records.stores _) _).mono
      (fun _ _ h => ⟨h.1.handed, h.1.requests, h.1.now⟩)
      (fun _ _ h => ⟨h.1.handed, h.1.requests, h.1.now⟩) fun _ h => h.1.requests

theorem meets_deliver_handed (lg : Log) :
    Meets (deliver env cfg lg) w
      ⟨(deliveredPost Unit w [lg]).ok, fun _ _ => False, fun w' => w'.requests = w.requests⟩ := by
  simp only [deliver, meets_bind, meets_catching, tick, meets_modify]
  refine (meets_processLog_handed lg).mono ?_ ?_ fun _ h => h
  · rintro _ w₁ ⟨h, hr, hn⟩
    exact ⟨h, hr, Nat.le_succ_of_le hn⟩
  · rintro e w₁ ⟨h, hr, hn⟩
    have hfail : Within recordScope.frame (insertRawLog env cfg cfg.stateKey lg.blockNumber
        lg.transactionHash lg.logIndex (Text.formatTopicsJson lg.topics) lg.data e.name
        lg.address) := within_insertRawLog recordScope_records
    simp only [recordFailedLog, meets_ignoring]
    have hok : ∀ w₂, recordScope.frame.rel w₁ w₂ →
        (deliveredPost Unit w [lg]).ok () w₂.ticked := fun w₂ h₂ =>
      ⟨h₂.1.handed.trans h, h₂.1.requests.trans hr, Nat.le_succ_of_le (hn.trans h₂.1.now)⟩
    exact (hfail w₁).mono (fun _ => hok) (fun _ => hok) fun _ h₂ => h₂.1.requests.trans hr

theorem meets_each_deliver_handed (logs : List Log) :
    Meets (Prog.each logs (deliver env cfg)) w
      ⟨(deliveredPost Unit w logs).ok, fun _ _ => False, fun w' => w'.requests = w.requests⟩ := by
  have hinv := meets_each (f := deliver env cfg) (E := fun _ _ => False)
    (D := fun w' => w'.requests = w.requests)
    (I := fun rest w' => ∃ done, logs = done ++ rest ∧ w'.handed = w.handed ++ done ∧
      w'.requests = w.requests ∧ w.now ≤ w'.now)
    (fun lg rest w₁ ⟨done, hl, hh, hr, hn⟩ => (meets_deliver_handed lg).mono
      (fun _ w₂ ⟨h, hr', hn'⟩ => ⟨done ++ [lg], by rw [hl, List.append_assoc]; rfl,
        by rw [h, hh, List.append_assoc], hr'.trans hr, hn.trans hn'⟩) (fun _ _ h => h)
      fun _ h => h.trans hr)
    (l := logs) (t := w) ⟨[], rfl, (List.append_nil _).symm, rfl, Nat.le_refl _⟩
  refine hinv.mono ?_ (fun _ _ h => h) fun _ h => h
  rintro _ w' ⟨done, rfl, h⟩
  simpa [deliveredPost] using h

end HandOver

/-! ### The recursion -/

section Recursion

variable {env : Env} {cfg : Config} {chain : Nat → Set Log} {w : World}

/-- What is collected for a request. -/
def collectedPost (chain : Nat → Set Log) (as : List Text) (ts : Option (List Text)) (f t : Nat)
    (w : World) : Post World Err (List Log) :=
  ⟨fun logs w' => w'.handed = w.handed ∧ w.now ≤ w'.now ∧
      ∀ C, Steady chain C f t w.now w'.now → ∀ lg, lg ∈ logs ↔ lg ∈ C ∧ Wanted as ts f t lg,
    fun _ _ => True, fun _ => True⟩

/-- What is handed over for a request. -/
def pulledPost (chain : Nat → Set Log) (as : List Text) (ts : Option (List Text)) (f t : Nat)
    (w : World) : Post World Err Unit :=
  ⟨fun _ w' => w.now ≤ w'.now ∧ ∀ C, Steady chain C f t w.now w'.now →
      HandedOver w w' fun lg => lg ∈ C ∧ Wanted as ts f t lg,
    fun _ _ => True, fun _ => True⟩

/-- Nothing is wanted of no address. -/
theorem not_wanted_nil {ts : Option (List Text)} : ¬Wanted [] ts f t lg := fun h => by
  simpa [receiptLogWanted] using h.2.2

/-- An answer, seen from the chain the whole scan sees. -/
theorem answers_of_steady (hserve : Serves env chain) {C : Set Log} {a m b : Nat}
    {ts : Option (List Text)} {logs : List Log} (h : env.getLogs m ⟨as, ts, f, t⟩ = .ok logs)
    (hC : Steady chain C f t a b) (ha : a ≤ m) (hb : m < b) : Answers C ⟨as, ts, f, t⟩ logs :=
  (hserve.logs m _ _ h).congr fun _ => hC.wanted_iff ha hb

theorem meets_getLogs {filter : LogFilter} :
    Meets (getLogs env filter) w
      ⟨fun logs w' => env.getLogs w.now filter = .ok logs ∧ w' = w.asked,
        fun _ w' => w' = w.asked, fun _ => True⟩ :=
  meets_askLogs (fun _ h => ⟨h, rfl⟩) (fun _ _ => rfl) fun _ => trivial

theorem meets_loadBlockReceipts (hserve : Serves env chain) {ts : Option (List Text)} {b : Nat} :
    Meets (loadBlockReceipts env as ts b) w (collectedPost chain as ts b b w) := by
  simp only [loadBlockReceipts, meets_bind]
  refine meets_askLogs (fun logs h => ?_) (fun _ _ => trivial) fun _ => trivial
  refine ⟨rfl, Nat.le_succ _, fun C hC lg => ?_⟩
  rw [List.mem_filter, hserve.receipts _ _ _ h lg, Bool.and_eq_true, decide_eq_true_eq]
  have hlg : lg.blockNumber = b → (lg ∈ chain w.now ↔ lg ∈ C) := fun hb =>
    hC w.now (Nat.le_refl _) (Nat.lt_succ_self _) lg (by omega) (by omega)
  constructor
  · rintro ⟨⟨h₁, -⟩, hb, h₃⟩
    exact ⟨(hlg hb).1 h₁, by omega, by omega, h₃⟩
  · rintro ⟨hc, h₁, h₂, h₃⟩
    have hb : lg.blockNumber = b := by omega
    exact ⟨⟨(hlg hb).2 hc, hb⟩, hb, h₃⟩

/-- Collecting for two halves, one after the other. -/
theorem meets_collect_both {p q : M (List Log)} {as₁ as₂ : List Text}
    {ts ts₁ ts₂ : Option (List Text)}
    (hp : ∀ w, Meets p w (collectedPost chain as₁ ts₁ f t w))
    (hq : ∀ w, Meets q w (collectedPost chain as₂ ts₂ f t w))
    (hboth : ∀ lg, Wanted as ts f t lg ↔ Wanted as₁ ts₁ f t lg ∨ Wanted as₂ ts₂ f t lg) :
    Meets (do let first ← p; let second ← q; pure (first ++ second)) w
      (collectedPost chain as ts f t w) := by
  simp only [meets_bind, meets_pure]
  refine (hp w).mono ?_ (fun _ _ h => h) fun _ h => h
  rintro first w₁ ⟨hh₁, hn₁, h₁⟩
  refine (hq w₁).mono ?_ (fun _ _ _ => trivial) fun _ _ => trivial
  rintro second w₂ ⟨hh₂, hn₂, h₂⟩
  refine ⟨hh₂.trans hh₁, hn₁.trans hn₂, fun C hC lg => ?_⟩
  rw [List.mem_append, h₁ C (hC.mono le_rfl le_rfl le_rfl hn₂) lg,
    h₂ C (hC.mono le_rfl le_rfl hn₁ le_rfl) lg, hboth lg]
  tauto

/-- What is collected after a request is collected with it. -/
theorem collected_of_asked {p : M (List Log)} {ts : Option (List Text)}
    (h : Meets p w.asked (collectedPost chain as ts f t w.asked)) :
    Meets p w.asked (collectedPost chain as ts f t w) :=
  h.mono (fun _ _ ⟨hh, hn, h⟩ => ⟨hh, (Nat.le_succ _).trans hn, fun C hC =>
    h C (hC.mono le_rfl le_rfl (Nat.le_succ _) le_rfl)⟩) (fun _ _ h => h) fun _ h => h

/-- What is handed over after a request is handed over with it. -/
theorem pulled_of_asked {p : M Unit} {ts : Option (List Text)}
    (h : Meets p w.asked (pulledPost chain as ts f t w.asked)) :
    Meets p w.asked (pulledPost chain as ts f t w) :=
  h.mono (fun _ _ ⟨hn, h⟩ => ⟨(Nat.le_succ _).trans hn, fun C hC =>
    (h C (hC.mono le_rfl le_rfl (Nat.le_succ _) le_rfl)).of_handed_eq rfl⟩) (fun _ _ h => h)
    fun _ h => h

/-- **Collecting is complete.** -/
theorem meets_appendBlockLogs (hserve : Serves env chain) (as : List Text)
    (ts : Option (List Text)) (f t : Nat) (w : World) :
    Meets (appendBlockLogs env as ts f t) w (collectedPost chain as ts f t w) := by
  induction as, ts using split_induction f t generalizing w with
  | step as ts ihA ihT =>
    rw [appendBlockLogs]
    by_cases has : as = []
    · simp only [makeLogFilter, has, if_true]
      refine ⟨rfl, le_rfl, fun C hC lg => ?_⟩
      simp [not_wanted_nil]
    simp only [makeLogFilter, has, if_false, meets_bind, meets_attempt]
    refine meets_getLogs.mono ?_ ?_ fun _ h => h
    · rintro logs _ ⟨hlogs, rfl⟩
      have hpage : ∀ w' : World, w.now < w'.now → ∀ C, Steady chain C f t w.now w'.now →
          Answers C ⟨as, ts, f, t⟩ logs := fun _ hw C hC =>
        answers_of_steady hserve hlogs hC le_rfl hw
      refine meets_ite (fun hcut => ?_) fun hcut => ?_
      · -- everything is in question: the halves are asked for, or the receipts
        apply collected_of_asked
        split
        · next mid h =>
          exact meets_collect_both (ihA mid h).1 (ihA mid h).2 fun lg => wanted_take_drop mid
        split
        · next l₁ l₂ h =>
          obtain ⟨-, rfl, h₁, h₂⟩ := splitTopicList_eq h
          exact meets_collect_both (ihT l₁ l₂ h).1 (ihT l₁ l₂ h).2 fun lg => wanted_append h₁ h₂
        · refine meets_ite (fun h => ?_) fun _ => trivial
          subst h
          exact meets_loadBlockReceipts hserve
      · refine meets_ite (fun _ => trivial) fun htr => ?_
        exact ⟨rfl, Nat.le_succ _, fun C hC lg =>
          cutLogPage_complete (hpage w.asked (Nat.lt_succ_self _) C hC) (by simpa using htr) lg⟩
    · rintro e _ rfl
      refine meets_ite (fun h => ?_) fun _ => trivial
      obtain ⟨-, rfl⟩ := h
      exact collected_of_asked (meets_loadBlockReceipts hserve)

/-- Collected logs are handed over as they are. -/
theorem meets_processCollected {p : M (List Log)} {ts : Option (List Text)}
    (hp : Meets p w (collectedPost chain as ts f t w)) :
    Meets (do let logs ← p; processFetchedLogs env cfg logs) w (pulledPost chain as ts f t w) := by
  rw [meets_bind]
  refine hp.mono ?_ (fun _ _ h => h) fun _ h => h
  rintro logs w₁ ⟨hh, hn, h⟩
  refine (meets_each_deliver_handed (sortLogs logs)).mono ?_ (fun _ _ _ => trivial)
    fun _ _ => trivial
  rintro _ w₂ ⟨hh₂, -, hn₂⟩
  refine ⟨hn.trans hn₂, fun C hC => ⟨sortLogs logs, by rw [hh₂, hh], fun lg => ?_⟩⟩
  rw [mem_sortLogs]
  exact h C (hC.mono le_rfl le_rfl le_rfl hn₂) lg

/-- Handing over two halves, one after the other. -/
theorem meets_pull_both {p q : M Unit} {as₁ as₂ : List Text} {ts ts₁ ts₂ : Option (List Text)}
    (hp : ∀ w, Meets p w (pulledPost chain as₁ ts₁ f t w))
    (hq : ∀ w, Meets q w (pulledPost chain as₂ ts₂ f t w))
    (hboth : ∀ lg, Wanted as ts f t lg ↔ Wanted as₁ ts₁ f t lg ∨ Wanted as₂ ts₂ f t lg) :
    Meets (do p; q) w (pulledPost chain as ts f t w) := by
  rw [meets_bind]
  refine (hp w).mono ?_ (fun _ _ h => h) fun _ h => h
  rintro _ w₁ ⟨hn₁, h₁⟩
  refine (hq w₁).mono ?_ (fun _ _ _ => trivial) fun _ _ => trivial
  rintro _ w₂ ⟨hn₂, h₂⟩
  refine ⟨hn₁.trans hn₂, fun C hC => ?_⟩
  refine ((h₁ C (hC.mono le_rfl le_rfl le_rfl hn₂)).trans
    (h₂ C (hC.mono le_rfl le_rfl hn₁ le_rfl))).congr fun lg => ?_
  rw [hboth lg]
  tauto

theorem meets_consumeReceiptBlock (hserve : Serves env chain) {ts : Option (List Text)} {b : Nat} :
    Meets (consumeReceiptBlock env cfg as ts b) w (pulledPost chain as ts b b w) :=
  meets_processCollected (meets_loadBlockReceipts hserve)

/-- **Pulling is complete.** -/
theorem meets_pullUncached (hserve : Serves env chain) (as : List Text)
    (ts : Option (List Text)) (f t : Nat) (w : World) :
    Meets (pullUncached env cfg as ts f t) w (pulledPost chain as ts f t w) := by
  induction as, ts using split_induction f t generalizing w with
  | step as ts ihA ihT =>
    rw [pullUncached]
    by_cases has : as = []
    · simp only [makeLogFilter, has, if_true]
      exact ⟨le_rfl, fun C hC => handedOver_self rfl fun lg h => not_wanted_nil h.2⟩
    simp only [makeLogFilter, has, if_false]
    rw [meets_bind, meets_attempt]
    refine meets_getLogs.mono ?_ ?_ fun _ h => h
    · rintro logs _ ⟨hlogs, rfl⟩
      refine meets_ite (fun hcut => pulled_of_asked ?_) fun hcut => ?_
      · split
        · next mid h =>
          exact meets_pull_both (ihA mid h).1 (ihA mid h).2 fun lg => wanted_take_drop mid
        split
        · next l₁ l₂ h =>
          obtain ⟨-, rfl, h₁, h₂⟩ := splitTopicList_eq h
          have hboth := meets_collect_both (meets_appendBlockLogs hserve as (some l₁) f t)
            (meets_appendBlockLogs hserve as (some l₂) f t) (w := w.asked)
            fun lg => wanted_append h₁ h₂
          simpa only [bind_assoc, pure_bind] using meets_processCollected hboth
        · refine meets_ite (fun h => ?_) fun _ => trivial
          subst h
          exact meets_consumeReceiptBlock hserve
      · rw [meets_bind]
        refine (meets_each_deliver_handed _).mono ?_ (fun _ _ _ => trivial) fun _ _ => trivial
        rintro _ w₁ ⟨hh, -, hn⟩
        refine meets_when (fun _ => trivial) fun htr => ?_
        refine ⟨(Nat.le_succ _).trans hn, fun C hC => ⟨_, hh, fun lg => ?_⟩⟩
        rw [mem_sortLogs]
        exact cutLogPage_complete (answers_of_steady hserve hlogs hC le_rfl hn) (by simpa using htr) lg
    · rintro e _ rfl
      refine meets_ite (fun h => ?_) fun _ => trivial
      obtain ⟨-, rfl⟩ := h
      exact pulled_of_asked (meets_consumeReceiptBlock hserve)

end Recursion

end Zponder

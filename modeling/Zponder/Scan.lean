import Zponder.Complete

/-!
# A scan of a range

A scan cuts its list of addresses into chunks and pulls each of them. The chunks make
up the list (`Zponder.mem_addressChunks`), so what is true of one pull is true of the
scan; and since a pull never asks for fewer than one address and one topic at a time,
the number of requests of a whole scan is at most three for each pair of an address
and a topic (`Zponder.meets_asked_syncRangeWithAddresses`).
-/

namespace Zponder

open Imperative Prog Conn

/-! ### Chunks -/

theorem addressChunkAt_eq_some {len maxRaw i : Nat} {b : Nat × Nat}
    (h : addressChunkAt len maxRaw i = some b) :
    b.1 = i * clampAddressBatch maxRaw ∧ b.1 < len ∧
      b.2 = min ((i + 1) * clampAddressBatch maxRaw) len := by
  simp only [addressChunkAt] at h
  split at h
  · cases h
  · obtain rfl := Option.some.inj h
    refine ⟨rfl, by omega, ?_⟩
    rw [Nat.succ_mul]

theorem addressChunkAt_eq_none {len maxRaw i : Nat} (h : addressChunkAt len maxRaw i = none) :
    len ≤ i * clampAddressBatch maxRaw := by
  simp only [addressChunkAt] at h
  split at h
  · assumption
  · cases h

/-- **Induction over the chunks**, from the last to the first. -/
theorem chunk_induction {len maxRaw : Nat} {P : Nat → List (Nat × Nat) → Prop}
    (done : ∀ i, len ≤ i * clampAddressBatch maxRaw → P i [])
    (next : ∀ i, i * clampAddressBatch maxRaw < len →
      P (i + 1) (addressChunksFrom len maxRaw (i + 1)) →
      P i ((i * clampAddressBatch maxRaw, min ((i + 1) * clampAddressBatch maxRaw) len) ::
        addressChunksFrom len maxRaw (i + 1))) (i : Nat) :
    P i (addressChunksFrom len maxRaw i) := by
  cases h : addressChunkAt len maxRaw i with
  | none =>
    rw [addressChunksFrom_none h]
    exact done i (addressChunkAt_eq_none h)
  | some b =>
    obtain ⟨h₁, hlt, h₂⟩ := addressChunkAt_eq_some h
    have ih := chunk_induction done next (i + 1)
    rw [addressChunksFrom_some h, ← Prod.mk.eta (p := b), h₁, h₂]
    exact next i (h₁ ▸ hlt) ih
termination_by len - i * clampAddressBatch maxRaw
decreasing_by
  rw [Nat.succ_mul]
  have : 1 ≤ clampAddressBatch maxRaw := Nat.le_max_left 1 maxRaw
  omega

/-- The chunks are no longer, together, than the list. -/
theorem sum_addressChunks {len maxRaw : Nat} (i : Nat) :
    ((addressChunksFrom len maxRaw i).map fun b => b.2 - b.1).sum =
      len - i * clampAddressBatch maxRaw := by
  refine chunk_induction (P := fun i bs => (bs.map fun b => b.2 - b.1).sum =
    len - i * clampAddressBatch maxRaw) (fun i h => ?_) (fun i h ih => ?_) i
  · simp only [List.map_nil, List.sum_nil]
    omega
  · rw [List.map_cons, List.sum_cons, ih]
    have := Nat.succ_mul i (clampAddressBatch maxRaw)
    simp only [Nat.succ_eq_add_one] at this
    omega

/-- Every place of the list is in a chunk. -/
theorem exists_addressChunk {len maxRaw j : Nat} (hj : j < len) (i : Nat)
    (hi : i * clampAddressBatch maxRaw ≤ j) :
    ∃ b ∈ addressChunksFrom len maxRaw i, b.1 ≤ j ∧ j < b.2 := by
  revert hi
  refine chunk_induction (P := fun i bs => i * clampAddressBatch maxRaw ≤ j →
    ∃ b ∈ bs, b.1 ≤ j ∧ j < b.2) (fun i h hi => ?_) (fun i h ih hi => ?_) i
  · omega
  · by_cases hlt : j < (i + 1) * clampAddressBatch maxRaw
    · exact ⟨_, List.mem_cons_self, hi, by simp only; omega⟩
    · obtain ⟨b, hb, h'⟩ := ih (Nat.not_lt.1 hlt)
      exact ⟨b, List.mem_cons_of_mem _ hb, h'⟩

/-- The addresses of a chunk. -/
def chunkOf (addresses : List Text) (b : Nat × Nat) : List Text :=
  (addresses.drop b.1).take (b.2 - b.1)

/-- **The chunks make up the list.** -/
theorem mem_chunks {addresses : List Text} {maxRaw : Nat} {a : Text} :
    a ∈ addresses ↔ ∃ b ∈ addressChunksFrom addresses.length maxRaw 0, a ∈ chunkOf addresses b := by
  constructor
  · intro ha
    obtain ⟨j, hj, rfl⟩ := List.getElem_of_mem ha
    obtain ⟨b, hb, h₁, h₂⟩ := exists_addressChunk hj 0 (by simp)
    refine ⟨b, hb, List.mem_of_getElem? (i := j - b.1) ?_⟩
    rw [chunkOf, List.getElem?_take, if_pos (by omega), List.getElem?_drop,
      Nat.add_sub_cancel' h₁, List.getElem?_eq_getElem hj]
  · rintro ⟨b, -, ha⟩
    exact List.mem_of_mem_drop (List.mem_of_mem_take ha)

/-- What is wanted of a list of addresses is wanted of one of its chunks. -/
theorem wanted_iff_chunk {addresses : List Text} {maxRaw f t : Nat} {ts : Option (List Text)}
    {lg : Log} : Wanted addresses ts f t lg ↔
      ∃ b ∈ addressChunksFrom addresses.length maxRaw 0, Wanted (chunkOf addresses b) ts f t lg := by
  have h : ∀ as : List Text, receiptLogWanted as ts lg = true ↔
      (∃ a ∈ as, Text.eqlIgnoreCase a lg.address = true) ∧ topic0Allowed ts lg.topics = true := by
    simp [receiptLogWanted]
  simp only [Wanted, h]
  constructor
  · rintro ⟨hf, ht, ⟨a, ha, hq⟩, hp⟩
    obtain ⟨b, hb, hab⟩ := mem_chunks.1 ha
    exact ⟨b, hb, hf, ht, ⟨a, hab, hq⟩, hp⟩
  · rintro ⟨b, hb, hf, ht, ⟨a, hab, hq⟩, hp⟩
    exact ⟨hf, ht, ⟨a, mem_chunks.2 ⟨b, hb, hab⟩, hq⟩, hp⟩

/-! ### The whole scan -/

section Scan

variable {env : Env} {cfg : Config} {chain : Nat → Set Log} {w : World} {I : World → Prop}

/-- A chunk that keeps an invariant and hands over what is wanted of it. -/
def chunkPost (chain : Nat → Set Log) (I : World → Prop) (as : List Text)
    (ts : Option (List Text)) (f t : Nat) (w : World) : Post World Err Unit :=
  ⟨fun _ w' => I w' ∧ (pulledPost chain as ts f t w).ok () w', fun _ w' => I w', fun _ => True⟩

/-- **A scan hands over what its chunks hand over.** -/
theorem meets_syncRangeWithAddresses {f t : Nat} {addresses : List Text} (hI : I w)
    (hchunk : ∀ as w, I w → Meets (syncRangeChunk env cfg as (topicsOpt cfg)
      (Text.topicsKey (buildEventTopics cfg)) f t) w (chunkPost chain I as (topicsOpt cfg) f t w)) :
    Meets (syncRangeWithAddresses env cfg addresses f t) w
      (chunkPost chain I addresses (topicsOpt cfg) f t w) := by
  unfold syncRangeWithAddresses
  refine meets_ite (fun h => ?_) fun _ => ?_
  · subst h
    exact ⟨hI, le_rfl, fun C hC => handedOver_self rfl fun lg h => not_wanted_nil h.2⟩
  have hloop := meets_each (E := fun _ => I) (D := fun _ => True)
    (I := fun rest w' => I w' ∧ w.now ≤ w'.now ∧
      ∃ done, done ++ rest = addressChunksFrom addresses.length cfg.maxAddressesPerRequest 0 ∧
        ∀ C, Steady chain C f t w.now w'.now → HandedOver w w' fun lg =>
          lg ∈ C ∧ ∃ b ∈ done, Wanted (chunkOf addresses b) (topicsOpt cfg) f t lg)
    (fun b rest w₁ ⟨hI₁, hn₁, done, hdone, h₁⟩ => (hchunk (chunkOf addresses b) w₁ hI₁).mono
      (fun _ w₂ ⟨hI₂, hn₂, h₂⟩ => ⟨hI₂, hn₁.trans hn₂, done ++ [b], by simpa using hdone,
        fun C hC => ((h₁ C (hC.mono le_rfl le_rfl le_rfl hn₂)).trans
          (h₂ C (hC.mono le_rfl le_rfl hn₁ le_rfl))).congr fun lg => by
            simp only [List.mem_append, List.mem_singleton, or_and_right, exists_or,
              exists_eq_left]
            exact and_or_left.symm⟩)
      (fun _ _ h => h) fun _ h => h)
    (t := w) ⟨hI, le_rfl, [], rfl, fun C _ => handedOver_self rfl fun lg h => by simpa using h.2⟩
  refine hloop.mono ?_ (fun _ _ h => h) fun _ h => h
  rintro _ w' ⟨hI', hn, done, hdone, h⟩
  rw [List.append_nil] at hdone
  refine ⟨hI', hn, fun C hC => (h C hC).congr fun lg => ?_⟩
  rw [hdone, ← wanted_iff_chunk]

/-- A scan without the log cache. -/
theorem meets_syncRangeWithAddresses_uncached (hserve : Serves env chain)
    (hoff : cfg.logCacheEnabled = false) {f t : Nat} {addresses : List Text} :
    Meets (syncRangeWithAddresses env cfg addresses f t) w
      (pulledPost chain addresses (topicsOpt cfg) f t w) := by
  refine (meets_syncRangeWithAddresses (I := fun _ => True) trivial fun as w _ => ?_).mono
    (fun _ _ h => h.2) (fun _ _ h => h) fun _ h => h
  simp only [syncRangeChunk, hoff, Bool.false_eq_true, if_false]
  exact (meets_pullUncached hserve as (topicsOpt cfg) f t w).mono (fun _ _ h => ⟨trivial, h⟩)
    (fun _ _ h => h) fun _ h => h

end Scan

/-! ### The number of requests -/

section Requests

variable {env : Env} {cfg : Config} {w : World}

/-- At most `n` requests for logs, however the program ends. -/
def askedPost (α : Type) (n : Nat) (w : World) : Post World Err α :=
  ⟨fun _ w' => w'.requests ≤ w.requests + n, fun _ w' => w'.requests ≤ w.requests + n,
    fun w' => w'.requests ≤ w.requests + n⟩

/-- What a request and its halves cost: three for each pair of an address and a
topic, less one. -/
def cost (addresses : List Text) (topics : Option (List Text)) : Nat :=
  3 * (addresses.length * max 1 (topicCount topics)) - 1

theorem two_le_cost {l : List Text} (ts : Option (List Text)) (hl : l ≠ []) :
    2 ≤ cost l ts := by
  have h := Nat.mul_pos (List.length_pos_iff.2 hl)
    (Nat.lt_of_lt_of_le Nat.one_pos (Nat.le_max_left 1 (topicCount ts)))
  unfold cost
  omega

theorem cost_take_drop {as : List Text} {ts : Option (List Text)} {f t mid : Nat}
    (h : splitAddressCount as.length f t = some mid) :
    1 + (cost (as.take mid) ts + cost (as.drop mid) ts) = cost as ts := by
  obtain ⟨-, hpos, hlt⟩ := splitAddressCount_lt h
  have h₁ := two_le_cost (l := as.take mid) ts (List.length_pos_iff.1 (by simp; omega))
  have h₂ := two_le_cost (l := as.drop mid) ts (List.length_pos_iff.1 (by simp; omega))
  have hsum : as.length = (as.take mid).length + (as.drop mid).length := by
    rw [← List.length_append, List.take_append_drop]
  unfold cost at *
  rw [hsum, Nat.add_mul]
  omega

theorem cost_append {as l₁ l₂ : List Text} (has : as ≠ []) (h₁ : l₁ ≠ []) (h₂ : l₂ ≠ []) :
    1 + (cost as (some l₁) + cost as (some l₂)) = cost as (some (l₁ ++ l₂)) := by
  have hc₁ := two_le_cost (some l₁) has
  have hc₂ := two_le_cost (some l₂) has
  have hp₁ := List.length_pos_iff.2 h₁
  have hp₂ := List.length_pos_iff.2 h₂
  have hmax : max 1 (l₁ ++ l₂).length = max 1 l₁.length + max 1 l₂.length := by
    rw [List.length_append]
    omega
  unfold cost topicCount at *
  simp only [Option.getD_some] at *
  rw [hmax, Nat.mul_add]
  omega

theorem meets_asked_bind {α β : Type} {p : M α} {k : α → M β} {n m : Nat}
    (hp : ∀ w, Meets p w (askedPost α n w)) (hk : ∀ a w, Meets (k a) w (askedPost β m w)) :
    ∀ w, Meets (p >>= k) w (askedPost β (n + m) w) := fun w => by
  rw [meets_bind]
  refine (hp w).mono (fun a w₁ h₁ => ?_) (fun _ w₁ h₁ => ?_) fun w₁ h₁ => ?_
  · have hle : ∀ w₂ : World, w₂.requests ≤ w₁.requests + m →
        w₂.requests ≤ w.requests + (n + m) := fun w₂ h₂ => by
      simp only [askedPost] at h₁
      omega
    exact (hk a w₁).mono (fun _ => hle) (fun _ => hle) hle
  · exact Nat.le_trans h₁ (by omega)
  · exact Nat.le_trans h₁ (by omega)

theorem meets_asked_mono {α : Type} {p : M α} {n m : Nat} (h : Meets p w (askedPost α n w))
    (hnm : n ≤ m) : Meets p w (askedPost α m w) :=
  h.mono (fun _ _ h => Nat.le_trans h (by omega)) (fun _ _ h => Nat.le_trans h (by omega))
    fun _ h => Nat.le_trans h (by omega)

theorem meets_asked_attempt {α : Type} {p : M α} {n : Nat}
    (h : ∀ w, Meets p w (askedPost α n w)) :
    ∀ w, Meets (Prog.attempt p : M (Except Err α)) w (askedPost _ n w) := fun w => by
  rw [meets_attempt]
  exact h w

theorem meets_asked_askLogs {α : Type} {answer : Nat → Outcome Err α} :
    ∀ w, Meets (askLogs answer) w (askedPost α 1 w) := fun _ =>
  meets_askLogs (fun _ _ => Nat.le_refl _) (fun _ _ => Nat.le_refl _) fun _ => Nat.le_refl _

theorem meets_asked_deliveries {logs : List Log} :
    ∀ w, Meets (processFetchedLogs env cfg logs) w (askedPost Unit 0 w) := fun _ =>
  (meets_each_deliver_handed (sortLogs logs)).mono (fun _ _ h => h.2.1.le) (fun _ _ h => h.elim)
    fun _ h => h.le

theorem meets_asked_receipts {as : List Text} {ts : Option (List Text)} {b : Nat} :
    ∀ w, Meets (loadBlockReceipts env as ts b) w (askedPost _ 1 w) :=
  meets_asked_bind (m := 0) meets_asked_askLogs fun _ _ => Nat.le_refl _

theorem meets_asked_appendBlockLogs (as : List Text) (ts : Option (List Text)) (f t : Nat) :
    ∀ w, Meets (appendBlockLogs env as ts f t) w (askedPost _ (cost as ts) w) := by
  induction as, ts using split_induction f t with
  | step as ts ihA ihT =>
    intro w
    rw [appendBlockLogs]
    by_cases has : as = []
    · simp only [makeLogFilter, has, if_true]
      exact Nat.le_add_right _ _
    have hcost := two_le_cost ts has
    simp only [makeLogFilter, has, if_false]
    refine meets_asked_mono (meets_asked_bind (m := cost as ts - 1)
      (meets_asked_attempt meets_asked_askLogs) (fun answer w => ?_) w) (by omega)
    have hreceipts : ∀ w, Meets (appendReceiptLogs env as ts f) w
        (askedPost _ (cost as ts - 1) w) := fun w =>
      meets_asked_mono (meets_asked_receipts w) (by omega)
    split
    · exact meets_ite (fun _ => hreceipts w) fun _ => Nat.le_add_right _ _
    refine meets_ite (fun _ => ?_) fun _ =>
      meets_ite (fun _ => Nat.le_add_right _ _) fun _ => Nat.le_add_right _ _
    split
    · next mid h =>
      rw [← cost_take_drop h, Nat.add_sub_cancel_left]
      exact meets_asked_bind (ihA mid h).1 (fun _ => meets_asked_bind (m := 0) (ihA mid h).2
        fun _ _ => Nat.le_refl _) w
    split
    · next l₁ l₂ h =>
      obtain ⟨-, rfl, h₁, h₂⟩ := splitTopicList_eq h
      rw [← cost_append has h₁ h₂, Nat.add_sub_cancel_left]
      exact meets_asked_bind (ihT l₁ l₂ h).1 (fun _ => meets_asked_bind (m := 0) (ihT l₁ l₂ h).2
        fun _ _ => Nat.le_refl _) w
    · exact meets_ite (fun _ => hreceipts w) fun _ => Nat.le_add_right _ _

theorem meets_asked_consumeReceiptBlock {as : List Text} {ts : Option (List Text)} {b : Nat} :
    ∀ w, Meets (consumeReceiptBlock env cfg as ts b) w (askedPost _ 1 w) :=
  meets_asked_bind (m := 0) meets_asked_receipts fun _ => meets_asked_deliveries

theorem meets_asked_pullUncached (as : List Text) (ts : Option (List Text)) (f t : Nat) :
    ∀ w, Meets (pullUncached env cfg as ts f t) w (askedPost _ (cost as ts) w) := by
  induction as, ts using split_induction f t with
  | step as ts ihA ihT =>
    intro w
    rw [pullUncached]
    by_cases has : as = []
    · simp only [makeLogFilter, has, if_true]
      exact Nat.le_add_right _ _
    have hcost := two_le_cost ts has
    simp only [makeLogFilter, has, if_false]
    refine meets_asked_mono (meets_asked_bind (m := cost as ts - 1)
      (meets_asked_attempt meets_asked_askLogs) (fun answer w => ?_) w) (by omega)
    have hreceipts : ∀ w, Meets (consumeReceiptBlock env cfg as ts f) w
        (askedPost _ (cost as ts - 1) w) := fun w =>
      meets_asked_mono (meets_asked_consumeReceiptBlock w) (by omega)
    split
    · exact meets_ite (fun _ => hreceipts w) fun _ => Nat.le_add_right _ _
    refine meets_ite (fun _ => ?_) fun _ => ?_
    · split
      · next mid h =>
        rw [← cost_take_drop h, Nat.add_sub_cancel_left]
        exact meets_asked_bind (ihA mid h).1 (fun _ => (ihA mid h).2) w
      split
      · next l₁ l₂ h =>
        obtain ⟨-, rfl, h₁, h₂⟩ := splitTopicList_eq h
        rw [← cost_append has h₁ h₂, Nat.add_sub_cancel_left]
        exact meets_asked_bind (meets_asked_appendBlockLogs as _ f t) (fun _ =>
          meets_asked_bind (m := 0) (meets_asked_appendBlockLogs as _ f t) fun _ =>
            meets_asked_deliveries) w
      · exact meets_ite (fun _ => hreceipts w) fun _ => Nat.le_add_right _ _
    · refine meets_asked_mono (meets_asked_bind (n := 0) (m := 0) meets_asked_deliveries
        (fun _ w => ?_) w) (Nat.zero_le _)
      exact meets_when (fun _ => Nat.le_refl _) fun _ => Nat.le_refl _

/-- **A scan without the log cache makes few requests.** -/
theorem meets_asked_syncRangeWithAddresses (hoff : cfg.logCacheEnabled = false)
    (addresses : List Text) (f t : Nat) (w : World) :
    Meets (syncRangeWithAddresses env cfg addresses f t) w
      (askedPost _ (3 * (addresses.length * max 1 (topicCount (topicsOpt cfg)))) w) := by
  unfold syncRangeWithAddresses
  refine meets_ite (fun _ => Nat.le_add_right _ _) fun _ => ?_
  generalize hK : max 1 (topicCount (topicsOpt cfg)) = K
  -- the invariant counts what the chunks still to come may cost
  have hloop := meets_each (f := fun b => syncRangeChunk env cfg (chunkOf addresses b)
      (topicsOpt cfg) (Text.topicsKey (buildEventTopics cfg)) f t)
    (E := fun _ w' => w'.requests ≤ w.requests + 3 * (addresses.length * K))
    (D := fun w' => w'.requests ≤ w.requests + 3 * (addresses.length * K))
    (I := fun rest w' => w'.requests + 3 * ((rest.map fun b => b.2 - b.1).sum * K) ≤
      w.requests + 3 * (addresses.length * K))
    (fun b rest w₁ h₁ => by
      rw [List.map_cons, List.sum_cons, Nat.add_mul] at h₁
      have hpull : Meets (syncRangeChunk env cfg (chunkOf addresses b) (topicsOpt cfg)
          (Text.topicsKey (buildEventTopics cfg)) f t) w₁
          (askedPost _ (3 * ((b.2 - b.1) * K)) w₁) := by
        simp only [syncRangeChunk, hoff, Bool.false_eq_true, if_false]
        refine meets_asked_mono (meets_asked_pullUncached _ _ f t w₁) ?_
        have hle : (chunkOf addresses b).length * K ≤ (b.2 - b.1) * K :=
          Nat.mul_le_mul_right K (by rw [chunkOf, List.length_take]; exact Nat.min_le_left _ _)
        rw [cost, hK]
        omega
      exact hpull.mono (fun _ w₂ h₂ => by simp only [askedPost] at h₂; omega)
        (fun _ w₂ h₂ => by simp only [askedPost] at h₂; omega)
        fun w₂ h₂ => by simp only [askedPost] at h₂; omega)
    (l := addressChunksFrom addresses.length cfg.maxAddressesPerRequest 0) (t := w)
    (by rw [sum_addressChunks]; simp)
  refine hloop.mono (fun _ w' h => ?_) (fun _ _ h => h) fun _ h => h
  simpa [askedPost] using h

end Requests

/-! ### Termination and completeness -/

/-! A chain with a single log on it, and an indexer that watches its address. -/

/-- The log. -/
def soleLog : Log where
  address := "0xaa".toList
  topics := []
  data := []
  blockNumber := 5
  transactionHash := "0x01".toList
  logIndex := 0

/-- A node of that chain. -/
def soleNode : Env where
  getLogs _ f :=
    .ok (if Wanted f.addresses f.topics f.fromBlock f.toBlock soleLog then [soleLog] else [])
  blockReceipts _ b := .ok (if b = 5 then [soleLog] else [])

theorem serves_soleNode : Serves soleNode fun _ => {soleLog} where
  logs t f logs h := by
    obtain rfl := Outcome.ok.inj h
    refine .inl ⟨?_, fun lg => ?_⟩
    · split <;> simp [getlogsPageLimit]
    · split <;> simp_all
  receipts t b logs h lg := by
    obtain rfl := Outcome.ok.inj h
    have hb : soleLog.blockNumber = 5 := rfl
    split
    · next h => simp only [List.mem_singleton, Set.mem_singleton_iff]; grind
    · next h => simp only [List.not_mem_nil, Set.mem_singleton_iff]; grind

end Zponder

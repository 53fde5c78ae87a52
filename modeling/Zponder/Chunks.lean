import Zponder.Lib.Checked
import Zponder.Scan

/-!
# Chunks of a list of addresses

A scan asks for some of its addresses at a time, and the subscriptions are made for as many.
`addressChunkAt` is the chunk of an index, computed with sums and products that stop at the
largest `usize`; `subscriptionChunkCount` and the loop of `syncRangeWithAddresses` go through the
indices until there is none; `chunkAddresses` divides. Here all four are what they are on words
of 64 bits: an index or a count that becomes too large ends the program.

No list is too long for the first three (`Zponder.Chunks.addressChunkAt_eq`: the arithmetic that
stops is that of natural numbers, which `Zponder.addressChunkAt` has), and the chunks make up the
list. The division adds the bound to the length before it divides, and this sum need not be a
`usize` (`Zponder.Chunks.right_iff_sum`).
-/

namespace Zponder.Chunks

/-- The largest `usize`. -/
def usizeMax : Nat := 2 ^ 64 - 1

/-- `a *| b` -/
def mulSat (a b : Nat) : Nat := min (a * b) usizeMax

/-- `a +| b` -/
def addSat (a b : Nat) : Nat := min (a + b) usizeMax

/-- `addressChunkAt` -/
def addressChunkAt (len maxRaw index : Nat) : Option (Nat × Nat) :=
  let max := clampAddressBatch maxRaw
  let start := mulSat index max
  if start ≥ len then none else some (start, min (addSat start max) len)

/-- A loop over the chunks, from an index on. -/
def eachChunk {σ : Type} (body : σ → Nat × Nat → Option σ) (len maxRaw index : Nat) (s : σ) :
    Option σ :=
  match addressChunkAt len maxRaw index with
  | none => some s
  | some b =>
    match body s b with
    | none => none
    | some s =>
      -- `index += 1` ends the program where there is no next `usize`
      if h : index < usizeMax then eachChunk body len maxRaw (index + 1) s else none
termination_by usizeMax - index

/-- `subscriptionChunkCount` -/
def subscriptionChunkCount (liveCount maxAddresses : Nat) : Option Nat :=
  eachChunk (fun n _ => Checked.add usizeMax n 1) liveCount maxAddresses 0 0

/-- The loop of `syncRangeWithAddresses`, with what it asks for in each of its turns. -/
def syncChunks (addresses : List Text) (maxAddressesPerRequest : Nat) : Option (List (List Text)) :=
  eachChunk (fun asked b => (Checked.slice addresses b.1 b.2).map fun chunk => asked ++ [chunk])
    addresses.length maxAddressesPerRequest 0 []

/-- `chunkAddresses` -/
def chunkAddresses (addresses : List Text) (maxPerRequest : Nat) : Option Nat :=
  if addresses.length = 0 then some 0
  else
    let max := if maxPerRequest = 0 then 1 else maxPerRequest
    (Checked.add usizeMax addresses.length max).map fun n => (n - 1) / max

/-! ### The arithmetic -/

theorem one_le_clampAddressBatch (maxRaw : Nat) : 1 ≤ clampAddressBatch maxRaw :=
  Nat.le_max_left 1 maxRaw

/-- **What stops at the largest word is never seen to stop there.** -/
theorem addressChunkAt_eq {len : Nat} (hlen : len ≤ usizeMax) (maxRaw index : Nat) :
    addressChunkAt len maxRaw index = Zponder.addressChunkAt len maxRaw index := by
  unfold addressChunkAt Zponder.addressChunkAt mulSat addSat
  simp only
  by_cases h : index * clampAddressBatch maxRaw ≥ len
  · rw [if_pos h, if_pos (le_min h hlen)]
  · have hmul : min (index * clampAddressBatch maxRaw) usizeMax =
        index * clampAddressBatch maxRaw := min_eq_left (by omega)
    rw [if_neg h, hmul, if_neg h, min_assoc, min_eq_right hlen]

/-- An index that has a chunk is below the length. -/
theorem index_lt_of_chunk {len maxRaw i : Nat}
    (h : i * clampAddressBatch maxRaw < len) : i < len :=
  (Nat.le_mul_of_pos_right i (one_le_clampAddressBatch maxRaw)).trans_lt h

/-- **A loop over the chunks** is a fold over the list of them. -/
theorem eachChunk_eq {σ : Type} {body : σ → Nat × Nat → Option σ} {len maxRaw : Nat}
    (hlen : len ≤ usizeMax) (i : Nat) (s : σ) :
    eachChunk body len maxRaw i s = (addressChunksFrom len maxRaw i).foldlM body s := by
  induction i using addressChunksFrom.induct len maxRaw generalizing s with
  | case1 i h =>
    rw [eachChunk, addressChunkAt_eq hlen, h, addressChunksFrom_none h]
    rfl
  | case2 i b h ih =>
    obtain ⟨hstart, hlt, -⟩ := addressChunkAt_eq_some h
    have hi : i < len := index_lt_of_chunk (hstart ▸ hlt)
    rw [eachChunk, addressChunkAt_eq hlen, h, addressChunksFrom_some h, List.foldlM_cons]
    show (match body s b with | none => none | some s => _) = _
    cases body s b with
    | none => rfl
    | some s => exact (dif_pos (hi.trans_le hlen)).trans (ih s)

/-! ### The chunks -/

/-- Chunks make up a list of a length, none longer than the bound. -/
structure Tiles (len bound : Nat) (chunks : List (Nat × Nat)) : Prop where
  nonempty : ∀ b ∈ chunks, b.1 < b.2
  short : ∀ b ∈ chunks, b.2 - b.1 ≤ bound
  adjacent : chunks.IsChain fun a b => a.2 = b.1
  disjoint : chunks.Pairwise fun a b => a.2 ≤ b.1
  cover : ∀ j, (∃ b ∈ chunks, b.1 ≤ j ∧ j < b.2) ↔ j < len

variable {len maxRaw : Nat}

/-- What is true of each chunk by its index is true of the chunks. -/
theorem mem_addressChunksFrom {i : Nat} {b : Nat × Nat} (hb : b ∈ addressChunksFrom len maxRaw i) :
    ∃ k, i ≤ k ∧ k * clampAddressBatch maxRaw < len ∧
      b = (k * clampAddressBatch maxRaw, min ((k + 1) * clampAddressBatch maxRaw) len) := by
  revert hb
  refine chunk_induction (P := fun i bs => b ∈ bs → ∃ k, i ≤ k ∧
    k * clampAddressBatch maxRaw < len ∧
      b = (k * clampAddressBatch maxRaw, min ((k + 1) * clampAddressBatch maxRaw) len))
    (fun i _ hb => ?_) (fun i hlt ih hb => ?_) i
  · cases hb
  · rcases List.mem_cons.1 hb with rfl | hb
    · exact ⟨i, le_rfl, hlt, rfl⟩
    · obtain ⟨k, hik, h⟩ := ih hb
      exact ⟨k, by omega, h⟩

/-- The chunks from an index on are those of the indices, until there is none. -/
theorem getElem?_addressChunksFrom (i n : Nat) :
    n ≤ (addressChunksFrom len maxRaw i).length →
      (addressChunksFrom len maxRaw i)[n]? = Zponder.addressChunkAt len maxRaw (i + n) := by
  induction n generalizing i with
  | zero =>
    intro _
    cases h : Zponder.addressChunkAt len maxRaw i with
    | none => rw [addressChunksFrom_none h]; rfl
    | some b => rw [addressChunksFrom_some h]; rfl
  | succ n ih =>
    intro hn
    cases h : Zponder.addressChunkAt len maxRaw i with
    | none =>
      rw [addressChunksFrom_none h] at hn
      exact absurd hn (Nat.not_succ_le_zero n)
    | some b =>
      rw [addressChunksFrom_some h, List.length_cons] at hn
      rw [addressChunksFrom_some h, List.getElem?_cons_succ, ih (i + 1) (by omega)]
      congr 1
      omega

theorem isChain_addressChunksFrom (i : Nat) :
    (addressChunksFrom len maxRaw i).IsChain fun a b => a.2 = b.1 := by
  refine chunk_induction (P := fun _ bs => bs.IsChain fun a b => a.2 = b.1)
    (fun i _ => .nil) (fun i hlt ih => ?_) i
  cases h : Zponder.addressChunkAt len maxRaw (i + 1) with
  | none =>
    rw [addressChunksFrom_none h]
    exact .singleton _
  | some b =>
    obtain ⟨hstart, hb, -⟩ := addressChunkAt_eq_some h
    rw [addressChunksFrom_some h] at ih ⊢
    -- there is a next chunk, so this one is not cut short
    exact .cons_cons ((min_eq_left (hstart ▸ hb.le)).trans hstart.symm) ih

theorem pairwise_addressChunksFrom (i : Nat) :
    (addressChunksFrom len maxRaw i).Pairwise fun a b => a.2 ≤ b.1 := by
  refine chunk_induction (P := fun _ bs => bs.Pairwise fun a b => a.2 ≤ b.1)
    (fun i _ => .nil) (fun i hlt ih => .cons (fun b hb => ?_) ih) i
  obtain ⟨k, hik, -, rfl⟩ := mem_addressChunksFrom hb
  exact (min_le_left _ _).trans (Nat.mul_le_mul_right _ hik)

/-- **The chunks make up the list.** -/
theorem tiles_addressChunksFrom (len maxRaw : Nat) :
    Tiles len (max 1 maxRaw) (addressChunksFrom len maxRaw 0) where
  nonempty b hb := by
    obtain ⟨k, -, hlt, rfl⟩ := mem_addressChunksFrom hb
    have hone := one_le_clampAddressBatch maxRaw
    have hsucc := Nat.add_one_mul k (clampAddressBatch maxRaw)
    show k * clampAddressBatch maxRaw < min ((k + 1) * clampAddressBatch maxRaw) len
    rw [lt_min_iff]
    exact ⟨by omega, hlt⟩
  short b hb := by
    obtain ⟨k, -, -, rfl⟩ := mem_addressChunksFrom hb
    have hsucc := Nat.add_one_mul k (clampAddressBatch maxRaw)
    show min ((k + 1) * clampAddressBatch maxRaw) len - k * clampAddressBatch maxRaw ≤
      clampAddressBatch maxRaw
    omega
  adjacent := isChain_addressChunksFrom 0
  disjoint := pairwise_addressChunksFrom 0
  cover j := by
    constructor
    · rintro ⟨b, hb, -, hj⟩
      obtain ⟨k, -, -, rfl⟩ := mem_addressChunksFrom hb
      exact hj.trans_le (min_le_right _ _)
    · exact fun hj => exists_addressChunk hj 0 (by rw [Nat.zero_mul]; exact Nat.zero_le j)

/-- How many they are. -/
theorem length_addressChunksFrom (i : Nat) : (addressChunksFrom len maxRaw i).length =
    (len - i * clampAddressBatch maxRaw + clampAddressBatch maxRaw - 1) /
      clampAddressBatch maxRaw := by
  have hone := one_le_clampAddressBatch maxRaw
  refine chunk_induction (P := fun i bs => bs.length =
    (len - i * clampAddressBatch maxRaw + clampAddressBatch maxRaw - 1) /
      clampAddressBatch maxRaw) (fun i h => ?_) (fun i hlt ih => ?_) i
  · rw [Nat.sub_eq_zero_of_le h, Nat.zero_add, Nat.div_eq_of_lt (by omega)]
    rfl
  · have hsucc := Nat.add_one_mul i (clampAddressBatch maxRaw)
    obtain ⟨m, hm⟩ : ∃ m, clampAddressBatch maxRaw = m := ⟨_, rfl⟩
    rw [hm] at hone hsucc hlt
    rw [List.length_cons, ih, hm]
    by_cases hle : (i + 1) * m ≤ len
    · have hsum : len - i * m + m - 1 = len - (i + 1) * m + m - 1 + m := by omega
      rw [hsum, Nat.add_div_right _ hone]
    · have hzero : len - (i + 1) * m + m - 1 < m := by omega
      have hdiv : (len - i * m + m - 1) / m = 1 :=
        Nat.div_eq_of_lt_le (by omega) (by omega)
      rw [Nat.div_eq_of_lt hzero, hdiv]

/-! ### The three counts -/

theorem foldlM_count {chunks : List (Nat × Nat)} {n : Nat} (h : n + chunks.length ≤ usizeMax) :
    chunks.foldlM (fun n _ => Checked.add usizeMax n 1) n = some (n + chunks.length) := by
  induction chunks generalizing n with
  | nil => rfl
  | cons b chunks ih =>
    rw [List.length_cons] at h
    rw [List.foldlM_cons, Checked.add_of_le (by omega), List.length_cons]
    exact (ih (by omega)).trans (congrArg some (by omega))

theorem length_addressChunks_le (len maxRaw : Nat) :
    (addressChunksFrom len maxRaw 0).length ≤ len := by
  have hone := one_le_clampAddressBatch maxRaw
  rw [length_addressChunksFrom, Nat.zero_mul, Nat.sub_zero, ← Nat.lt_succ_iff,
    Nat.div_lt_iff_lt_mul hone]
  have hmul : len * 1 ≤ len * clampAddressBatch maxRaw := Nat.mul_le_mul_left len hone
  have hsucc : len.succ * clampAddressBatch maxRaw = _ := Nat.succ_mul len _
  omega

/-- **The count of the subscriptions.** -/
theorem subscriptionChunkCount_eq (hlen : len ≤ usizeMax) :
    subscriptionChunkCount len maxRaw = some (addressChunksFrom len maxRaw 0).length := by
  have hle := length_addressChunks_le len maxRaw
  exact (eachChunk_eq hlen 0 0).trans ((foldlM_count (by omega)).trans
    (congrArg some (Nat.zero_add _)))

theorem foldlM_slices {addresses : List Text} {chunks : List (Nat × Nat)}
    (h : ∀ b ∈ chunks, b.1 ≤ b.2 ∧ b.2 ≤ addresses.length) (asked : List (List Text)) :
    chunks.foldlM (fun asked b =>
      (Checked.slice addresses b.1 b.2).map fun chunk => asked ++ [chunk]) asked =
        some (asked ++ chunks.map (chunkOf addresses)) := by
  induction chunks generalizing asked with
  | nil => exact congrArg some (List.append_nil asked).symm
  | cons b chunks ih =>
    obtain ⟨hle, hlen⟩ := h b List.mem_cons_self
    rw [List.foldlM_cons, Checked.slice_of_le hle hlen]
    refine (ih (fun c hc => h c (List.mem_cons_of_mem b hc)) _).trans ?_
    rw [List.map_cons, List.append_assoc]
    rfl

/-- **The loop of a scan.** -/
theorem syncChunks_eq {addresses : List Text} (hlen : addresses.length ≤ usizeMax) :
    syncChunks addresses maxRaw =
      some ((addressChunksFrom addresses.length maxRaw 0).map (chunkOf addresses)) := by
  have htiles := tiles_addressChunksFrom addresses.length maxRaw
  refine (eachChunk_eq hlen 0 []).trans (foldlM_slices (fun b hb => ?_) [])
  obtain ⟨k, -, -, rfl⟩ := mem_addressChunksFrom hb
  exact ⟨(htiles.nonempty _ hb).le, min_le_right _ _⟩

theorem clampAddressBatch_eq (maxRaw : Nat) :
    clampAddressBatch maxRaw = if maxRaw = 0 then 1 else maxRaw := by
  unfold clampAddressBatch
  split <;> omega

/-- **The division** is the count, where its sum is a word. -/
theorem chunkAddresses_eq {addresses : List Text}
    (h : addresses = [] ∨ addresses.length + clampAddressBatch maxRaw ≤ usizeMax) :
    chunkAddresses addresses maxRaw =
      some (addressChunksFrom addresses.length maxRaw 0).length := by
  have hone := one_le_clampAddressBatch maxRaw
  rw [length_addressChunksFrom, Nat.zero_mul, Nat.sub_zero]
  unfold chunkAddresses
  split
  · next hnil =>
    rw [hnil, Nat.zero_add, Nat.div_eq_of_lt (by omega)]
  · next hne =>
    rcases h with rfl | h
    · exact absurd rfl hne
    · simp only [← clampAddressBatch_eq, Checked.add_of_le h, Option.map_some]

theorem chunkAddresses_trap {addresses : List Text} (hne : addresses ≠ [])
    (h : usizeMax < addresses.length + clampAddressBatch maxRaw) :
    chunkAddresses addresses maxRaw = none := by
  unfold chunkAddresses
  rw [if_neg fun hnil => hne (List.length_eq_zero_iff.1 hnil)]
  simp only [← clampAddressBatch_eq]
  rw [Checked.add, if_neg (Nat.not_le.2 h)]
  rfl

/-! ### What the chunks are to be -/

/-- The chunks of the indices, up to the first that has none, make up the list; the loop of a scan
goes through them, and they are as many as each of the counts says. -/
def Right (addresses : List Text) (maxRaw : Nat) : Prop :=
  ∃ chunks : List (Nat × Nat),
    (∀ i ≤ chunks.length, addressChunkAt addresses.length maxRaw i = chunks[i]?) ∧
    Tiles addresses.length (max 1 maxRaw) chunks ∧
    syncChunks addresses maxRaw = some (chunks.map (chunkOf addresses)) ∧
    subscriptionChunkCount addresses.length maxRaw = some chunks.length ∧
    chunkAddresses addresses maxRaw = some chunks.length

/-- **Address chunking tiles the list**, and the counts agree, exactly where the sum that is
divided is a word. -/
theorem right_iff_sum (addresses : List Text) (maxRaw : Nat)
    (hlen : addresses.length ≤ usizeMax) :
    Right addresses maxRaw ↔
      addresses = [] ∨ addresses.length + max 1 maxRaw ≤ usizeMax := by
  constructor
  · rintro ⟨chunks, -, -, -, -, hcount⟩
    by_contra hno
    push Not at hno
    rw [chunkAddresses_trap hno.1 hno.2] at hcount
    cases hcount
  · intro h
    refine ⟨addressChunksFrom addresses.length maxRaw 0, fun i hi => ?_,
      tiles_addressChunksFrom _ _, syncChunks_eq hlen, subscriptionChunkCount_eq hlen,
      chunkAddresses_eq h⟩
    rw [addressChunkAt_eq hlen, getElem?_addressChunksFrom 0 i hi, Nat.zero_add]

theorem right_iff_sum_two : Right [[], []] 1 ↔
    ([[], []] : List Text) = [] ∨ ([[], []] : List Text).length + max 1 1 ≤ usizeMax :=
  right_iff_sum [[], []] 1 (by decide)

/-- Two addresses with the largest bound, and the longest list with a small one. -/
theorem not_right_overflow :
    ¬Right [[], []] usizeMax ∧ ¬Right (List.replicate usizeMax []) 2 := by
  have htrap : ∀ (addresses : List Text) (maxRaw : Nat), addresses ≠ [] →
      usizeMax < addresses.length + clampAddressBatch maxRaw → ¬Right addresses maxRaw := by
    rintro addresses maxRaw hne hsum ⟨chunks, -, -, -, -, hcount⟩
    rw [chunkAddresses_trap hne hsum] at hcount
    cases hcount
  refine ⟨htrap _ _ (List.cons_ne_nil _ _) (by decide), htrap _ _ (fun h => ?_) ?_⟩
  · have hzero := congrArg List.length h
    rw [List.length_replicate] at hzero
    exact absurd hzero (by decide)
  · rw [List.length_replicate]
    decide

end Zponder.Chunks

import Zponder.QueryCache

/-!
# The nodes of the cache

`Zponder.Cache` is what the cache of the API is for: a list of entries, the least recently
used first. `Cache.put` and its siblings work on something else, a map from keys to nodes, a
linked list of the nodes and a count of the bytes, and any of their allocations may fail.
Here are these three (`Zponder.Lru.Store`); as long as they fit together
(`Zponder.Lru.Linked`), what is done to them is what is done to the list of entries.

So the bounds hold, and what is evicted is what was used least recently. What does not hold is
that an answer is that of the last `put`: one that is too large for the cache returns
before it has looked for the entry that is there (`Zponder.Lru.Clean`).
-/

namespace Zponder

open Imperative

namespace Lru

/-- The map, the linked list, what the nodes hold, and the bytes of it. -/
structure Store where
  map : List (Text × Nat) := []
  lru : List Nat := []
  node : Nat → CacheEntry
  totalBytes : Nat := 0

namespace Store

/-- The entries, the least recently used first. -/
def entries (s : Store) : Cache := s.lru.map s.node

/-- `map.get` -/
def find (key : Text) (s : Store) : Option Nat := (s.map.find? (·.1 == key)).map (·.2)

/-- `fetchRemove` and `removeEntry` -/
def remove (key : Text) (s : Store) : Store :=
  match s.find key with
  | none => s
  | some p => { s with
      map := s.map.filter (·.1 != key)
      lru := s.lru.erase p
      totalBytes := s.totalBytes - (s.node p).data.length }

/-- `get` -/
def get (key : Text) (currentSyncBlock : Nat) (s : Store) : Option Text × Store :=
  match s.find key with
  | none => (none, s)
  | some p =>
    if currentSyncBlock > (s.node p).validUpTo then (none, s)
    else (some (s.node p).data, { s with lru := s.lru.erase p ++ [p] })

/-- The loop of `put`, for so many turns. A node is removed by its key, and if the map did not
have it, it would stay first. -/
def evict (maxEntries maxBytes size : Nat) : Nat → Store → Option Store
  | 0, _ => none
  | fuel + 1, s =>
    if s.map.length ≥ maxEntries ∨ s.totalBytes + size > maxBytes then
      match s.lru with
      | [] => some s
      | p :: _ => evict maxEntries maxBytes size fuel (s.remove (s.node p).key)
    else some s

/-- The end of `put`: the node is where there was room. -/
def insert (new : CacheEntry) (p : Nat) (s : Store) : Store where
  map := s.map ++ [(new.key, p)]
  lru := s.lru ++ [p]
  node := Function.update s.node p new
  totalBytes := s.totalBytes + new.data.length

/-- `put`. An allocation that fails leaves the cache without an entry for the key. -/
def put (maxEntries maxBytes : Nat) (new : CacheEntry) (room : Option Nat) (s : Store) :
    Option Store :=
  if new.data.length > maxBytes / 4 then some s
  else
    (evict maxEntries maxBytes new.data.length (s.lru.length + 1) (s.remove new.key)).map
      fun t => room.elim t fun p => t.insert new p

/-- What becomes of a key that is to be removed: it is noted, there is no memory for a copy, or
none for the note. -/
inductive Alloc where
  | ok
  | noCopy
  | noRoom
  deriving DecidableEq, Repr

/-- The keys with a prefix, as far as they can be noted. -/
def collect (pre : Text) (alloc : Text → Alloc) : List Text → List Text
  | [] => []
  | k :: ks =>
    if pre.isPrefixOf k then
      match alloc k with
      | .ok => k :: collect pre alloc ks
      | .noCopy => collect pre alloc ks
      | .noRoom => []
    else collect pre alloc ks

/-- `invalidate` and `invalidateContract`, by their prefix, for which there may be no memory. The
keys come in the order of the map. -/
def invalidate (pre : Text) (alloc : Option (Text → Alloc)) (order : List Text) (s : Store) :
    Store :=
  alloc.elim s fun alloc => (collect pre alloc order).foldl (fun s k => s.remove k) s

end Store

/-! ### The nodes and the list of entries -/

/-- **The nodes fit together**: the map and the list hold the same of them, with different keys,
and the bytes are those of their data. -/
structure Linked (s : Store) : Prop where
  perm : s.map.Perm (s.lru.map fun p => ((s.node p).key, p))
  nodup : (s.entries.map (·.key)).Nodup
  bytes : s.totalBytes = Cache.totalBytes s.entries

section Refines

variable {s t : Store} {key : Text} {p q maxBytes : Nat}

theorem Linked.length_eq (h : Linked s) : s.map.length = s.lru.length := by
  rw [h.perm.length_eq, List.length_map]

theorem Linked.lru_nodup (h : Linked s) : s.lru.Nodup := h.nodup.of_map.of_map

/-- A node is known by its key. -/
theorem Linked.eq_of_key_eq (h : Linked s) (hp : p ∈ s.lru) (hq : q ∈ s.lru)
    (hkey : (s.node p).key = (s.node q).key) : p = q := by
  have hnodup := h.nodup
  rw [Store.entries, List.map_map] at hnodup
  exact List.inj_on_of_nodup_map hnodup hp hq hkey

theorem Linked.find_eq_some (h : Linked s) :
    s.find key = some p ↔ p ∈ s.lru ∧ (s.node p).key = key := by
  have hmem : ∀ k q, (k, q) ∈ s.map ↔ q ∈ s.lru ∧ (s.node q).key = k := by
    intro k q
    rw [h.perm.mem_iff, List.mem_map]
    constructor
    · rintro ⟨r, hr, heq⟩
      obtain ⟨rfl, rfl⟩ := Prod.mk.inj heq
      exact ⟨hr, rfl⟩
    · rintro ⟨hq, rfl⟩
      exact ⟨q, hq, rfl⟩
  rw [Store.find, Option.map_eq_some_iff]
  constructor
  · rintro ⟨⟨k, q⟩, hfind, rfl⟩
    obtain rfl : k = key := by simpa using List.find?_some hfind
    exact (hmem k q).1 (List.mem_of_find?_eq_some hfind)
  · rintro ⟨hp, hkey⟩
    have hsome : (s.map.find? (·.1 == key)).isSome := by
      rw [List.find?_isSome]
      exact ⟨(key, p), (hmem key p).2 ⟨hp, hkey⟩, by simp⟩
    obtain ⟨⟨k, q⟩, hfind⟩ := Option.isSome_iff_exists.1 hsome
    obtain rfl : k = key := by simpa using List.find?_some hfind
    obtain ⟨hq, hkey'⟩ := (hmem k q).1 (List.mem_of_find?_eq_some hfind)
    exact ⟨(k, q), hfind, h.eq_of_key_eq hq hp (hkey'.trans hkey.symm)⟩

theorem Linked.find_eq_none (h : Linked s) :
    s.find key = none ↔ ∀ e ∈ s.entries, e.key ≠ key := by
  rw [Option.eq_none_iff_forall_ne_some]
  simp only [Store.entries, List.mem_map]
  constructor
  · rintro hnone e ⟨p, hp, rfl⟩ hkey
    exact hnone p (h.find_eq_some.2 ⟨hp, hkey⟩)
  · intro hnone p hfind
    obtain ⟨hp, hkey⟩ := h.find_eq_some.1 hfind
    exact hnone _ ⟨p, hp, rfl⟩ hkey

/-- The list without a node is the list without its key. -/
theorem Linked.erase_eq (h : Linked s) (hp : p ∈ s.lru) :
    s.lru.erase p = s.lru.filter fun q => (s.node q).key != (s.node p).key := by
  rw [h.lru_nodup.erase_eq_filter]
  refine List.filter_congr fun q hq => ?_
  by_cases heq : q = p
  · simp [heq]
  · have hkey : (s.node q).key ≠ (s.node p).key := fun hkey => heq (h.eq_of_key_eq hq hp hkey)
    rw [bne_iff_ne.2 heq, bne_iff_ne.2 hkey]

/-- **Removing a node**: the entry with the key is gone, and nothing else. -/
theorem Linked.remove (h : Linked s) (key : Text) :
    Linked (s.remove key) ∧ (s.remove key).entries = s.entries.filter (·.key != key) ∧
      (s.remove key).lru.Sublist s.lru := by
  unfold Store.remove
  split
  · next hfind =>
    refine ⟨h, (List.filter_eq_self.2 fun e he => ?_).symm, List.Sublist.refl _⟩
    exact bne_iff_ne.2 (h.find_eq_none.1 hfind e he)
  · next p hfind =>
    obtain ⟨hp, rfl⟩ := h.find_eq_some.1 hfind
    have hentries : (s.lru.erase p).map s.node =
        s.entries.filter (·.key != (s.node p).key) := by
      rw [h.erase_eq hp, Store.entries, List.filter_map]
      rfl
    refine ⟨⟨?_, ?_, ?_⟩, hentries, List.erase_sublist⟩
    · refine (h.perm.filter _).trans (List.Perm.of_eq ?_)
      rw [List.filter_map, h.erase_eq hp]
      rfl
    · change (((s.lru.erase p).map s.node).map (·.key)).Nodup
      rw [hentries]
      exact h.nodup.sublist (List.filter_sublist.map _)
    · change s.totalBytes - (s.node p).data.length = Cache.totalBytes ((s.lru.erase p).map s.node)
      have hsum := List.sum_map_erase (fun q => (s.node q).data.length) hp
      rw [h.bytes, Cache.totalBytes, Cache.totalBytes, Store.entries, List.map_map, List.map_map]
      change (s.lru.map fun q => (s.node q).data.length).sum - _ =
        ((s.lru.erase p).map fun q => (s.node q).data.length).sum
      omega

/-- **The loop ends**, and it has evicted what is evicted from the entries. -/
theorem Linked.evict (h : Linked s) (maxEntries maxBytes size : Nat) {fuel : Nat}
    (hfuel : s.lru.length < fuel) :
    ∃ t, s.evict maxEntries maxBytes size fuel = some t ∧ Linked t ∧
      t.entries = Cache.evict maxEntries maxBytes size s.entries ∧
      t.lru.Sublist s.lru := by
  induction fuel generalizing s with
  | zero => cases hfuel
  | succ fuel ih =>
    rw [Store.evict]
    cases hlru : s.lru with
    | nil =>
      have hentries : s.entries = [] := by rw [Store.entries, hlru, List.map_nil]
      refine ⟨s, ?_, h, ?_, (hlru ▸ List.Sublist.refl _)⟩
      · split <;> rfl
      · rw [hentries, Cache.evict]
    | cons p rest =>
      have hentries : s.entries = s.node p :: rest.map s.node := by
        rw [Store.entries, hlru, List.map_cons]
      have hlen : s.map.length = (s.node p :: rest.map s.node).length := by
        rw [h.length_eq, hlru, List.length_cons, List.length_cons, List.length_map]
      rw [hentries, Cache.evict, ← hentries, ← h.bytes, hentries, ← hlen]
      split
      · obtain ⟨hlinked, hremoved, hsub⟩ := h.remove (s.node p).key
        have hrest : (s.remove (s.node p).key).entries = rest.map s.node := by
          have hnodup := h.nodup
          rw [hentries, List.map_cons, List.nodup_cons] at hnodup
          rw [hremoved, hentries, List.filter_cons_of_neg (by simp), List.filter_eq_self]
          intro e he
          refine bne_iff_ne.2 fun hkey => hnodup.1 ?_
          exact hkey ▸ List.mem_map_of_mem he
        have hshort : (s.remove (s.node p).key).lru.length < fuel := by
          have hcount := congrArg List.length hrest
          rw [Store.entries, List.length_map, List.length_map] at hcount
          rw [hlru, List.length_cons] at hfuel
          omega
        obtain ⟨t, ht, hlinked', hevicted, hsub'⟩ := ih hlinked hshort
        exact ⟨t, ht, hlinked', hrest ▸ hevicted, hlru ▸ hsub'.trans hsub⟩
      · exact ⟨s, rfl, h, hentries, (hlru ▸ List.Sublist.refl _)⟩

/-- **A node that is new**: the entry is the last. -/
theorem Linked.insert (h : Linked s) {new : CacheEntry} (hp : p ∉ s.lru)
    (hkey : ∀ e ∈ s.entries, e.key ≠ new.key) :
    Linked (s.insert new p) ∧ (s.insert new p).entries = s.entries ++ [new] := by
  have hold : ∀ q ∈ s.lru, Function.update s.node p new q = s.node q := by
    intro q hq
    exact Function.update_of_ne (ne_of_mem_of_not_mem hq hp) _ _
  have hentries : (s.insert new p).entries = s.entries ++ [new] := by
    change (s.lru ++ [p]).map (Function.update s.node p new) = _
    rw [List.map_append, List.map_congr_left hold, List.map_singleton, Function.update_self]
    rfl
  refine ⟨⟨?_, ?_, ?_⟩, hentries⟩
  · change (s.map ++ [(new.key, p)]).Perm ((s.lru ++ [p]).map fun q =>
      ((Function.update s.node p new q).key, q))
    rw [List.map_append, List.map_congr_left fun q hq => by rw [hold q hq], List.map_singleton,
      Function.update_self]
    exact h.perm.append_right _
  · rw [hentries, List.map_append, List.nodup_append]
    refine ⟨h.nodup, List.nodup_singleton _, ?_⟩
    intro k hk k' hk'
    obtain ⟨e, he, rfl⟩ := List.mem_map.1 hk
    obtain rfl := List.mem_singleton.1 hk'
    exact hkey e he
  · change s.totalBytes + new.data.length = _
    rw [hentries, h.bytes, Cache.totalBytes, Cache.totalBytes, List.map_append, List.sum_append,
      List.map_singleton, List.sum_singleton]

/-- A `get` changes the order of the nodes at most. -/
theorem Linked.perm_get (h : Linked s) (key : Text) (cur : Nat) :
    (s.get key cur).2.lru.Perm s.lru ∧ (s.get key cur).2.node = s.node := by
  unfold Store.get
  split
  · exact ⟨List.Perm.refl _, rfl⟩
  · next p hfind =>
    split
    · exact ⟨List.Perm.refl _, rfl⟩
    · have hp : p ∈ s.lru := (h.find_eq_some.1 hfind).1
      exact ⟨List.perm_append_comm.trans (List.perm_cons_erase hp).symm, rfl⟩

/-- **`get` is what it is on the entries.** -/
theorem Linked.get (h : Linked s) (key : Text) (cur : Nat) :
    Linked (s.get key cur).2 ∧
      (s.get key cur).1 = (Cache.get key cur s.entries).1.map (·.data) ∧
      (s.get key cur).2.entries = (Cache.get key cur s.entries).2 := by
  have hperm := (h.perm_get key cur).1
  revert hperm
  unfold Store.get Cache.get
  cases hfind : s.find key with
  | none =>
    have hnone : s.entries.find? (fun e => e.key == key) = none := by
      rw [List.find?_eq_none]
      intro e he
      simpa using h.find_eq_none.1 hfind e he
    rw [hnone]
    exact fun _ => ⟨h, rfl, rfl⟩
  | some p =>
    obtain ⟨hp, rfl⟩ := h.find_eq_some.1 hfind
    have hsome : s.entries.find? (fun e => e.key == (s.node p).key) = some (s.node p) := by
      rw [Store.entries, List.find?_map, Option.map_eq_some_iff]
      have hfound : (s.lru.find? fun q => (s.node q).key == (s.node p).key).isSome := by
        rw [List.find?_isSome]
        exact ⟨p, hp, by simp⟩
      obtain ⟨q, hq⟩ := Option.isSome_iff_exists.1 hfound
      have hkey : (s.node q).key = (s.node p).key := by simpa using List.find?_some hq
      obtain rfl := h.eq_of_key_eq (List.mem_of_find?_eq_some hq) hp hkey
      exact ⟨q, hq, rfl⟩
    rw [hsome]
    dsimp only
    split
    · exact fun _ => ⟨h, rfl, rfl⟩
    · intro (hperm : (s.lru.erase p ++ [p]).Perm s.lru)
      have hlast : (s.lru.erase p ++ [p]).map s.node =
          s.entries.filter (fun e => e.key != (s.node p).key) ++ [s.node p] := by
        rw [List.map_append, h.erase_eq hp, Store.entries, List.filter_map]
        rfl
      refine ⟨⟨h.perm.trans (hperm.map _).symm, ?_, ?_⟩, rfl, hlast⟩
      · exact ((hperm.map s.node).map (·.key)).nodup_iff.2 h.nodup
      · rw [h.bytes]
        exact ((hperm.map s.node).map fun e : CacheEntry => e.data.length).sum_eq.symm

/-- **`put` is what it is on the entries**, as far as there is room for a node. -/
theorem Linked.put (h : Linked s) (maxEntries : Nat) {new : CacheEntry}
    (hfit : new.data.length ≤ maxBytes / 4)
    {room : Option Nat} (hroom : ∀ p ∈ room, p ∉ s.lru) :
    ∃ t, s.put maxEntries maxBytes new room = some t ∧ Linked t ∧
      t.entries = Cache.evict maxEntries maxBytes new.data.length
        (s.entries.filter (·.key != new.key)) ++ (room.map fun _ => new).toList := by
  obtain ⟨hremoved, hothers, hsub⟩ := h.remove new.key
  obtain ⟨t, ht, hlinked, hkept, hlru⟩ :=
    hremoved.evict maxEntries maxBytes new.data.length (Nat.lt_succ_of_le hsub.length_le)
  rw [hothers] at hkept
  refine ⟨room.elim t fun p => t.insert new p, ?_, ?_⟩
  · rw [Store.put, if_neg (Nat.not_lt.2 hfit), ht, Option.map_some]
  · cases room with
    | none => exact ⟨hlinked, hkept.trans (List.append_nil _).symm⟩
    | some p =>
      have hp : p ∉ t.lru := fun hmem => hroom p rfl (hsub.subset (hlru.subset hmem))
      have hkey : ∀ e ∈ t.entries, e.key ≠ new.key := by
        intro e he
        rw [hkept] at he
        exact bne_iff_ne.1 (List.mem_filter.1 (Cache.mem_of_mem_evict he)).2
      obtain ⟨hlinked', hentries⟩ := hlinked.insert hp hkey
      exact ⟨hlinked', hentries.trans (hkept ▸ rfl)⟩

/-- What is removed has the prefix. -/
theorem isPrefixOf_of_mem_collect {pre k : Text} {alloc : Text → Store.Alloc} {order : List Text}
    (h : k ∈ Store.collect pre alloc order) : pre.isPrefixOf k = true := by
  induction order with
  | nil => cases h
  | cons k' order ih =>
    rw [Store.collect] at h
    split at h
    · next hpre =>
      split at h
      · rcases List.mem_cons.1 h with rfl | h
        · exact hpre
        · exact ih h
      · exact ih h
      · cases h
    · exact ih h

/-- **The entries of some keys are dropped.** -/
theorem Linked.invalidate (h : Linked s) (pre : Text) (alloc : Option (Text → Store.Alloc))
    (order : List Text) : Linked (s.invalidate pre alloc order) ∧
      ∃ keys : List Text, (∀ k ∈ keys, pre.isPrefixOf k = true) ∧
        (s.invalidate pre alloc order).entries =
          s.entries.filter fun e => !keys.contains e.key := by
  have hall : ∀ keys : List Text, ∀ s : Store, Linked s →
      Linked (keys.foldl (fun s k => s.remove k) s) ∧
        (keys.foldl (fun s k => s.remove k) s).entries =
          s.entries.filter fun e => !keys.contains e.key := by
    intro keys
    induction keys with
    | nil => exact fun s h => ⟨h, by simp⟩
    | cons k keys ih =>
      intro s h
      obtain ⟨hlinked, hentries, -⟩ := h.remove k
      obtain ⟨hlinked', hrest⟩ := ih _ hlinked
      refine ⟨hlinked', ?_⟩
      rw [List.foldl_cons, hrest, hentries, List.filter_filter]
      refine List.filter_congr fun e _ => ?_
      rw [List.contains_cons, Bool.not_or, Bool.and_comm]
      rfl
  cases alloc with
  | none => exact ⟨h, [], by simp, by simp [Store.invalidate]⟩
  | some alloc =>
    obtain ⟨hlinked, hentries⟩ := hall (Store.collect pre alloc order) s h
    exact ⟨hlinked, _, fun k hk => isPrefixOf_of_mem_collect hk, hentries⟩

end Refines

/-! ### What the loop evicts -/

/-- **What is evicted is what was used least recently, and no more than is needed**: the entries
begin with it, and before each that goes there was no room. -/
structure Evicted (maxEntries maxBytes size : Nat) (c gone kept : Cache) : Prop where
  eq_append : c = gone ++ kept
  needed : ∀ a e b, gone = a ++ e :: b → (e :: (b ++ kept)).length ≥ maxEntries ∨
    Cache.totalBytes (e :: (b ++ kept)) + size > maxBytes
  room : kept = [] ∨ kept.length < maxEntries ∧ Cache.totalBytes kept + size ≤ maxBytes

theorem exists_evicted (maxEntries maxBytes size : Nat) (c : Cache) :
    ∃ gone, Evicted maxEntries maxBytes size c gone (c.evict maxEntries maxBytes size) := by
  induction c with
  | nil => exact ⟨[], rfl, by simp, .inl rfl⟩
  | cons e c ih =>
    rw [Cache.evict]
    split
    · next hfull =>
      obtain ⟨gone, happend, hneeded, hroom⟩ := ih
      refine ⟨e :: gone, by rw [List.cons_append, ← happend], ?_, hroom⟩
      intro a e' b heq
      cases a with
      | nil =>
        obtain ⟨rfl, rfl⟩ := List.cons.inj heq
        rwa [← happend]
      | cons _ a => exact hneeded a e' b (List.cons.inj heq).2
    · next hroom =>
      rw [not_or, Nat.not_le, Nat.not_lt] at hroom
      exact ⟨[], rfl, by simp, .inr hroom⟩

/-! ### The runs -/

/-- The cache, and for the reader when a key was used last, and what was put there last. -/
structure State where
  store : Store
  clock : Nat := 0
  lastUse : Text → Nat := fun _ => 0
  lastPut : Text → Option Text := fun _ => none

/-- The calls, with what the allocations come to. -/
inductive Act where
  | get (key : Text) (currentSyncBlock : Nat)
  | put (new : CacheEntry) (room : Option Nat)
  | invalidate (contract event : Text) (alloc : Option (Text → Store.Alloc)) (order : List Text)
  | invalidateContract (contract : Text) (alloc : Option (Text → Store.Alloc)) (order : List Text)

/-- The key has been used. -/
def State.use (key : Text) (s : State) : State :=
  { s with clock := s.clock + 1, lastUse := Function.update s.lastUse key s.clock }

section Step

variable (maxEntries maxBytes : Nat)

/-- A call. A node that is new is where there is none, and a walk through the map comes by each
of its keys once. -/
def step (s : State) : Act → Option State
  | .get key cur =>
    let r := s.store.get key cur
    let s : State := { s with store := r.2 }
    some (if r.1.isSome = true then s.use key else s)
  | .put new room =>
    if room.all (fun p => !s.store.lru.contains p) = true then
      (s.store.put maxEntries maxBytes new room).map fun t =>
        let s : State :=
          { s with store := t, lastPut := Function.update s.lastPut new.key (some new.data) }
        if new.data.length ≤ maxBytes / 4 ∧ room.isSome = true then s.use new.key else s
    else none
  | .invalidate contract event alloc order =>
    if order.isPerm (s.store.map.map (·.1)) = true then
      some { s with store := s.store.invalidate (Cache.prefixOf contract event) alloc order }
    else none
  | .invalidateContract contract alloc order =>
    if order.isPerm (s.store.map.map (·.1)) = true then
      some { s with store := s.store.invalidate (contract ++ [':']) alloc order }
    else none

/-- The cache, from the memory as it is found. -/
def machine (junk : Nat → CacheEntry) : Machine State Act where
  init := { store := { node := junk } }
  step := step maxEntries maxBytes

/-- **The cache is bounded, and ordered by use.** -/
structure Sound (s : State) : Prop where
  linked : Linked s.store
  bytes_le : s.store.totalBytes ≤ maxBytes
  count_le : s.store.map.length ≤ max maxEntries 1
  recent : s.store.entries.Pairwise fun e e' => s.lastUse e.key < s.lastUse e'.key

/-- **What a `put` evicts**, of the entries that have other keys. The call comes to an end. -/
def Evicts (s : State) : Prop :=
  ∀ new room, new.data.length ≤ maxBytes / 4 → (∀ p ∈ room, p ∉ s.store.lru) →
    ∃ t gone kept, step maxEntries maxBytes s (.put new room) = some t ∧
      Evicted maxEntries maxBytes new.data.length (s.store.entries.filter (·.key != new.key))
        gone kept ∧ t.store.entries = kept ++ (room.map fun _ => new).toList

/-- **What is served was put there last.** -/
def Latest (s : State) : Prop :=
  ∀ key cur data, (s.store.get key cur).1 = some data → s.lastPut key = some data

/-- What is too large for the cache has no entry there from before. -/
def Clean (s : State) : Act → Prop
  | .put new _ => new.data.length > maxBytes / 4 → ∀ e ∈ s.store.entries, e.key ≠ new.key
  | _ => True

end Step

/-! ### What a call keeps -/

section Keeps

variable {maxEntries maxBytes clock : Nat} {s t : State} {lastUse : Text → Nat} {c c' : Cache}
  {e : CacheEntry} {key pre : Text} {a : Act} {junk : Nat → CacheEntry}

/-- The entries are in the order of their use, and all of it has been. -/
structure Ordered (lastUse : Text → Nat) (clock : Nat) (c : Cache) : Prop where
  recent : c.Pairwise fun e e' => lastUse e.key < lastUse e'.key
  used : ∀ e ∈ c, lastUse e.key < clock

theorem Ordered.sublist (h : Ordered lastUse clock c) (hsub : c'.Sublist c) :
    Ordered lastUse clock c' :=
  ⟨h.recent.sublist hsub, fun e he => h.used e (hsub.subset he)⟩

/-- What is used goes to the end. -/
theorem Ordered.append (h : Ordered lastUse clock c) (hother : ∀ e' ∈ c, e'.key ≠ e.key) :
    Ordered (Function.update lastUse e.key clock) (clock + 1) (c ++ [e]) := by
  have hold : ∀ e' ∈ c, Function.update lastUse e.key clock e'.key = lastUse e'.key :=
    fun e' he' => Function.update_of_ne (hother e' he') _ _
  constructor
  · rw [List.pairwise_append]
    refine ⟨?_, List.pairwise_singleton _ _, ?_⟩
    · refine h.recent.imp_of_mem ?_
      intro e₁ e₂ h₁ h₂ hlt
      rwa [hold e₁ h₁, hold e₂ h₂]
    · intro e' he' e'' he''
      rw [List.mem_singleton.1 he'', hold e' he', Function.update_self]
      exact h.used e' he'
  · intro e' he'
    rcases List.mem_append.1 he' with he' | he'
    · rw [hold e' he']
      exact Nat.lt_succ_of_lt (h.used e' he')
    · rw [List.mem_singleton.1 he', Function.update_self]
      exact Nat.lt_succ_self clock

/-- **The invariant.** -/
structure Inv (maxEntries maxBytes : Nat) (s : State) : Prop where
  linked : Linked s.store
  bytes_le : Cache.totalBytes s.store.entries ≤ maxBytes
  count_le : s.store.entries.length ≤ max maxEntries 1
  small : ∀ e ∈ s.store.entries, e.data.length ≤ maxBytes / 4
  ordered : Ordered s.lastUse s.clock s.store.entries

theorem Inv.sound (h : Inv maxEntries maxBytes s) : Sound maxEntries maxBytes s where
  linked := h.linked
  bytes_le := h.linked.bytes ▸ h.bytes_le
  count_le := by
    rw [h.linked.length_eq]
    exact (List.length_map _).symm.trans_le h.count_le
  recent := h.ordered.recent

theorem inv_init : Inv maxEntries maxBytes (machine maxEntries maxBytes junk).init where
  linked := ⟨List.Perm.refl _, List.nodup_nil, rfl⟩
  bytes_le := Nat.zero_le _
  count_le := Nat.zero_le _
  small := fun _ h => by cases h
  ordered := ⟨List.Pairwise.nil, fun _ h => by cases h⟩

/-- Fewer entries take less. -/
theorem totalBytes_le_of_sublist (h : c'.Sublist c) : Cache.totalBytes c' ≤ Cache.totalBytes c :=
  (h.map _).sum_le_sum fun _ _ => Nat.zero_le _

/-- Some entries go. -/
theorem Inv.sublist (h : Inv maxEntries maxBytes s) (hlinked : Linked t.store)
    (hsub : t.store.entries.Sublist s.store.entries) (huse : t.lastUse = s.lastUse)
    (hclock : t.clock = s.clock) : Inv maxEntries maxBytes t where
  linked := hlinked
  bytes_le := (totalBytes_le_of_sublist hsub).trans h.bytes_le
  count_le := hsub.length_le.trans h.count_le
  small := fun e he => h.small e (hsub.subset he)
  ordered := by
    rw [huse, hclock]
    exact h.ordered.sublist hsub

/-- A `get` is a use of what it serves, and of nothing else. -/
theorem Inv.get (h : Inv maxEntries maxBytes s) {cur : Nat}
    (hstep : step maxEntries maxBytes s (.get key cur) = some t) : Inv maxEntries maxBytes t := by
  obtain ⟨hlinked, hdata, hentries⟩ := h.linked.get key cur
  obtain rfl := Option.some.inj hstep
  rw [hdata]
  revert hentries
  unfold Cache.get
  split
  · intro hentries
    exact h.sublist hlinked (hentries ▸ List.Sublist.refl _) rfl rfl
  · next e hfind =>
    have hmem : e ∈ s.store.entries := List.mem_of_find?_eq_some hfind
    obtain rfl : e.key = key := by simpa using List.find?_some hfind
    split
    · intro hentries
      exact h.sublist hlinked (hentries ▸ List.Sublist.refl _) rfl rfl
    · intro hentries
      have hperm : (s.store.get e.key cur).2.entries.Perm s.store.entries := by
        obtain ⟨hlru, hnode⟩ := h.linked.perm_get e.key cur
        rw [Store.entries, Store.entries, hnode]
        exact hlru.map _
      refine ⟨hlinked, ?_, ?_, ?_, ?_⟩
      · exact (hperm.map _).sum_eq.trans_le h.bytes_le
      · exact hperm.length_eq.trans_le h.count_le
      · exact fun e' he' => h.small e' (hperm.mem_iff.1 he')
      · change Ordered _ _ (s.store.get e.key cur).2.entries
        rw [hentries]
        exact (h.ordered.sublist List.filter_sublist).append fun e' he' =>
          bne_iff_ne.1 (List.mem_filter.1 he').2

/-- What does not fit is not stored. -/
theorem step_put_of_lt {new : CacheEntry} {room : Option Nat}
    (hlarge : maxBytes / 4 < new.data.length)
    (hstep : step maxEntries maxBytes s (.put new room) = some t) :
    t = { s with lastPut := Function.update s.lastPut new.key (some new.data) } := by
  simp only [step, Store.put, if_pos hlarge, Option.map_some, Nat.not_le.2 hlarge, false_and,
    if_false] at hstep
  split at hstep
  · exact (Option.some.inj hstep).symm
  · cases hstep

/-- The entries after a `put`. -/
theorem Inv.step_put (h : Inv maxEntries maxBytes s) {new : CacheEntry} {room : Option Nat}
    (hfit : new.data.length ≤ maxBytes / 4) (hroom : ∀ p ∈ room, p ∉ s.store.lru) :
    ∃ t, step maxEntries maxBytes s (.put new room) = some t ∧ Linked t.store ∧
      t.store.entries = Cache.evict maxEntries maxBytes new.data.length
        (s.store.entries.filter (·.key != new.key)) ++ (room.map fun _ => new).toList ∧
      t.lastPut = Function.update s.lastPut new.key (some new.data) ∧
      (room = none → t.clock = s.clock ∧ t.lastUse = s.lastUse) ∧
      (room.isSome = true → t.clock = s.clock + 1 ∧
        t.lastUse = Function.update s.lastUse new.key s.clock) := by
  obtain ⟨u, hu, hlinked, hentries⟩ := h.linked.put maxEntries hfit hroom
  have hfree : room.all (fun p => !s.store.lru.contains p) = true := by
    cases room with
    | none => rfl
    | some p => simpa using hroom p rfl
  simp only [step, hfree, hu, Option.map_some, if_true, hfit, true_and]
  cases room with
  | none => exact ⟨_, rfl, hlinked, hentries, rfl, fun _ => ⟨rfl, rfl⟩, by simp⟩
  | some p => exact ⟨_, rfl, hlinked, hentries, rfl, by simp, fun _ => ⟨rfl, rfl⟩⟩

theorem Inv.put (h : Inv maxEntries maxBytes s) {new : CacheEntry} {room : Option Nat}
    (hstep : step maxEntries maxBytes s (.put new room) = some t) : Inv maxEntries maxBytes t := by
  by_cases hfit : new.data.length ≤ maxBytes / 4
  · have hroom : ∀ p ∈ room, p ∉ s.store.lru := by
      rintro p rfl hp
      simp [step, hp] at hstep
    obtain ⟨t', ht', hlinked, hentries, -, hnone, hsome⟩ := h.step_put hfit hroom
    obtain rfl : t' = t := Option.some.inj (ht'.symm.trans hstep)
    obtain ⟨gone, hevicted⟩ := exists_evicted maxEntries maxBytes new.data.length
      (s.store.entries.filter (·.key != new.key))
    -- what is kept is some of the entries, none of them with the key
    have hkept : (Cache.evict maxEntries maxBytes new.data.length
        (s.store.entries.filter (·.key != new.key))).Sublist
          (s.store.entries.filter (·.key != new.key)) := by
      conv_rhs => rw [hevicted.eq_append]
      exact List.sublist_append_right _ _
    have hsub := hkept.trans List.filter_sublist
    cases room with
    | none =>
      rw [Option.map_none, Option.toList_none, List.append_nil] at hentries
      exact h.sublist hlinked (hentries ▸ hsub) (hnone rfl).2 (hnone rfl).1
    | some p =>
      obtain ⟨hclock, huse⟩ := hsome rfl
      rw [Option.map_some, Option.toList_some] at hentries
      refine ⟨hlinked, ?_, ?_, ?_, ?_⟩
      · rw [hentries, Cache.totalBytes, List.map_append, List.sum_append, List.map_singleton,
          List.sum_singleton]
        rcases hevicted.room with hempty | ⟨-, hbytes⟩
        · rw [hempty, List.map_nil, List.sum_nil]
          omega
        · exact hbytes
      · rw [hentries, List.length_append, List.length_singleton]
        rcases hevicted.room with hempty | ⟨hcount, -⟩
        · rw [hempty, List.length_nil]
          omega
        · omega
      · intro e he
        rcases List.mem_append.1 (hentries ▸ he) with he | he
        · exact h.small e (hsub.subset he)
        · exact List.mem_singleton.1 he ▸ hfit
      · rw [hentries, hclock, huse]
        exact (h.ordered.sublist hsub).append fun e he =>
          bne_iff_ne.1 (List.mem_filter.1 (hkept.subset he)).2
  · rw [step_put_of_lt (Nat.not_le.1 hfit) hstep]
    exact ⟨h.linked, h.bytes_le, h.count_le, h.small, h.ordered⟩

/-- A call that drops entries. -/
theorem eq_of_step_invalidate {alloc : Option (Text → Store.Alloc)} {order : List Text}
    {contract : Text} (ha : (∃ event, a = .invalidate contract event alloc order) ∨
      a = .invalidateContract contract alloc order)
    (hstep : step maxEntries maxBytes s a = some t) :
    ∃ pre, t = { s with store := s.store.invalidate pre alloc order } := by
  rcases ha with ⟨event, rfl⟩ | rfl
  all_goals
    simp only [step] at hstep
    split at hstep
    · exact ⟨_, (Option.some.inj hstep).symm⟩
    · cases hstep

/-- Dropping entries keeps the invariant, and the rest of the entries. -/
theorem Inv.drop (h : Inv maxEntries maxBytes s) (pre : Text)
    (alloc : Option (Text → Store.Alloc)) (order : List Text) :
    Inv maxEntries maxBytes { s with store := s.store.invalidate pre alloc order } ∧
      ∀ e ∈ (s.store.invalidate pre alloc order).entries, e ∈ s.store.entries := by
  obtain ⟨hlinked, keys, -, hentries⟩ := h.linked.invalidate pre alloc order
  have hsub : (s.store.invalidate pre alloc order).entries.Sublist s.store.entries :=
    hentries ▸ List.filter_sublist
  exact ⟨h.sublist hlinked hsub rfl rfl, fun e he => hsub.subset he⟩

/-- **A call keeps the invariant.** -/
theorem Inv.step (h : Inv maxEntries maxBytes s) (hstep : step maxEntries maxBytes s a = some t) :
    Inv maxEntries maxBytes t := by
  cases a with
  | get key cur => exact h.get hstep
  | put new room => exact h.put hstep
  | invalidate contract event alloc order =>
    obtain ⟨pre, rfl⟩ := eq_of_step_invalidate (.inl ⟨event, rfl⟩) hstep
    exact (h.drop pre alloc order).1
  | invalidateContract contract alloc order =>
    obtain ⟨pre, rfl⟩ := eq_of_step_invalidate (.inr rfl) hstep
    exact (h.drop pre alloc order).1

theorem Inv.evicts (h : Inv maxEntries maxBytes s) : Evicts maxEntries maxBytes s := by
  intro new room hfit hroom
  obtain ⟨t, ht, -, hentries, -⟩ := h.step_put hfit hroom
  obtain ⟨gone, hevicted⟩ := exists_evicted maxEntries maxBytes new.data.length
    (s.store.entries.filter (·.key != new.key))
  exact ⟨t, gone, _, ht, hevicted, hentries⟩

/-! ### What is served -/

/-- What is served is what is stored. -/
theorem Inv.latest_iff (h : Inv maxEntries maxBytes s) :
    Latest s ↔ ∀ e ∈ s.store.entries, s.lastPut e.key = some e.data := by
  constructor
  · rintro hlatest e he
    obtain ⟨p, hp, rfl⟩ := List.mem_map.1 he
    refine hlatest _ 0 _ ?_
    rw [Store.get, h.linked.find_eq_some.2 ⟨hp, rfl⟩]
    rfl
  · intro hall key cur data hget
    rw [(h.linked.get key cur).2.1, Option.map_eq_some_iff] at hget
    obtain ⟨e, he, rfl⟩ := hget
    obtain ⟨hmem, rfl, -⟩ := (Cache.get_spec key cur s.store.entries).1 e he
    exact hall e hmem

/-- **A call keeps what is served in order if and only if it is clean.** -/
theorem Inv.latest_step_iff (h : Inv maxEntries maxBytes s) (hlatest : Latest s)
    (hstep : Lru.step maxEntries maxBytes s a = some t) : Latest t ↔ Clean maxBytes s a := by
  have hall := h.latest_iff.1 hlatest
  rw [(h.step hstep).latest_iff]
  cases a with
  | get key cur =>
    refine iff_of_true ?_ trivial
    obtain ⟨hlru, hnode⟩ := h.linked.perm_get key cur
    obtain rfl := Option.some.inj hstep
    intro e he
    have hmem : e ∈ (s.store.get key cur).2.entries := by
      split at he <;> exact he
    rw [Store.entries, hnode, List.mem_map] at hmem
    obtain ⟨p, hp, rfl⟩ := hmem
    have hput := hall _ (List.mem_map_of_mem (hlru.mem_iff.1 hp))
    split <;> exact hput
  | put new room =>
    by_cases hfit : new.data.length ≤ maxBytes / 4
    · refine iff_of_true ?_ fun hlarge => absurd hfit (Nat.not_le.2 hlarge)
      have hroom : ∀ p ∈ room, p ∉ s.store.lru := by
        rintro p rfl hp
        simp [Lru.step, hp] at hstep
      obtain ⟨t', ht', -, hentries, hput, -⟩ := h.step_put hfit hroom
      obtain rfl : t' = t := Option.some.inj (ht'.symm.trans hstep)
      intro e he
      rw [hentries, List.mem_append] at he
      rw [hput]
      rcases he with he | he
      · obtain ⟨hmem, hne⟩ := List.mem_filter.1 (Cache.mem_of_mem_evict he)
        rw [Function.update_of_ne (bne_iff_ne.1 hne)]
        exact hall e hmem
      · cases room with
        | none => cases he
        | some p =>
          rw [List.mem_singleton.1 he, Function.update_self]
    · have hlarge := Nat.not_le.1 hfit
      rw [step_put_of_lt hlarge hstep]
      constructor
      · -- an entry with the key is the old one, and it is smaller
        intro hnew _ e he hkey
        have hdata := hnew e he
        dsimp only at hdata
        rw [hkey, Function.update_self] at hdata
        have hsmall := h.small e he
        rw [← Option.some.inj hdata] at hsmall
        exact hfit hsmall
      · intro hclean e he
        dsimp only
        rw [Function.update_of_ne (hclean hlarge e he)]
        exact hall e he
  | invalidate contract event alloc order =>
    obtain ⟨pre, rfl⟩ := eq_of_step_invalidate (.inl ⟨event, rfl⟩) hstep
    exact iff_of_true (fun e he => hall e ((h.drop pre alloc order).2 e he)) trivial
  | invalidateContract contract alloc order =>
    obtain ⟨pre, rfl⟩ := eq_of_step_invalidate (.inr rfl) hstep
    exact iff_of_true (fun e he => hall e ((h.drop pre alloc order).2 e he)) trivial

/-- The invariant holds in every state, whatever is put. -/
theorem inv_of_reachable (h : (machine maxEntries maxBytes junk).Reachable s) :
    Inv maxEntries maxBytes s :=
  h.invariant inv_init fun _ _ _ hinv _ hstep => hinv.step hstep

/-- **The cache is bounded, evicts what was used least recently, and serves what was put
there last**, in every state of a run whose calls are clean; the first two hold in every run, and
a call that is not clean leaves an earlier answer to be served. -/
theorem latest_of_clean (maxEntries maxBytes : Nat) (junk : Nat → CacheEntry) :
    (∀ s, (machine maxEntries maxBytes junk).Reachable s →
      Sound maxEntries maxBytes s ∧ Evicts maxEntries maxBytes s) ∧
    (∀ s, (machine maxEntries maxBytes junk).Reaches (Clean maxBytes) s →
      Sound maxEntries maxBytes s ∧ Evicts maxEntries maxBytes s ∧ Latest s) ∧
    ∀ s a t, (machine maxEntries maxBytes junk).Reaches (Clean maxBytes) s →
      step maxEntries maxBytes s a = some t → (Latest t ↔ Clean maxBytes s a) := by
  have hboth : ∀ s, (machine maxEntries maxBytes junk).Reaches (Clean maxBytes) s →
      Inv maxEntries maxBytes s ∧ Latest s := by
    intro s hs
    refine hs.invariant (I := fun s => Inv maxEntries maxBytes s ∧ Latest s) ?_ ?_
    · exact ⟨inv_init, inv_init.latest_iff.2 fun e he => by cases he⟩
    · rintro s a t ⟨hinv, hlatest⟩ hclean hstep
      exact ⟨hinv.step hstep, (hinv.latest_step_iff hlatest hstep).2 hclean⟩
  refine ⟨fun s hs => ?_, fun s hs => ?_, fun s a t hs hstep => ?_⟩
  · exact ⟨(inv_of_reachable hs).sound, (inv_of_reachable hs).evicts⟩
  · obtain ⟨hinv, hlatest⟩ := hboth s hs
    exact ⟨hinv.sound, hinv.evicts, hlatest⟩
  · obtain ⟨hinv, hlatest⟩ := hboth s hs
    exact hinv.latest_step_iff hlatest hstep

end Keeps

/-- An entry with some data. -/
def entryOf (key data : Text) : CacheEntry := ⟨key, data, 9, .named ⟨key, []⟩, 0⟩

/-- **An earlier answer is served.** The cache has forty bytes, and the second answer, of
eleven, is more than a quarter of it. -/
theorem not_latest_of_large : ∃ s,
    (machine 100 40 fun _ => entryOf [] []).Reachable s ∧
      (s.store.get "k".toList 9).1 = some "old".toList ∧
      s.lastPut "k".toList = some "new, longer".toList ∧ ¬Latest s := by
  have hrun : ((machine 100 40 fun _ => entryOf [] []).run
      (machine 100 40 fun _ => entryOf [] []).init
      [.put (entryOf "k".toList "old".toList) (some 0),
        .put (entryOf "k".toList "new, longer".toList) (some 1)]).map (fun s =>
          (s.store.get "k".toList 9).1 == some "old".toList &&
            s.lastPut "k".toList == some "new, longer".toList) = some true := by
    decide +kernel
  obtain ⟨s, hs, hserved⟩ := Machine.exists_reachable hrun
  rw [Bool.and_eq_true, beq_iff_eq, beq_iff_eq] at hserved
  refine ⟨s, hs, hserved.1, hserved.2, fun hlatest => ?_⟩
  have hold := hlatest _ _ _ hserved.1
  rw [hserved.2] at hold
  exact absurd (Option.some.inj hold) (by decide)

end Lru

end Zponder

import Zponder.Lib.Machine
import Zponder.Schema

/-!
# Children that are still in use

The list of a factory's children is behind a lock, and the children are not: what
`reconcileChildren` copies out of the list it uses after the lock is gone, to discard the
children found on the blocks that were replaced and to rewind the others. Discarding a
child destroys it. Several parents may call at once, each from its own thread, and
`getCurrentChildren` hands the same pointers to whoever asks.

A section under the lock is one step here, and so is each `discardChild` and each
`rewindChild` that follows it. Two calls do not discard the same child, since only one of
them has taken it off the list (`Zponder.Factory.nodup_discarded`). But a call with a
higher fork may hold the child as one that stays, and rewind it after it was destroyed. It
comes to that only if a child is discarded while somebody holds it
(`Zponder.Factory.Unheld`).
-/

namespace Zponder

open Imperative

namespace Factory

/-! ### The manager and its callers -/

/-- An element of `FactoryManager.children`: the address of a `ChildIndexer` in memory, and
what is read of it under the lock. -/
structure Entry where
  ptr : Nat
  address : Text
  fromBlock : Nat
  deriving DecidableEq, Repr

/-- The list of the children, what every call and every reader still holds, the threads of
the children, and, for the reader, the children that were discarded, the threads that were
joined, and the children that were used when they were gone. -/
structure Manager where
  children : List Entry := []
  allocated : Nat := 0
  doomed : Nat → List Nat := fun _ => []
  survivors : Nat → List Nat := fun _ => []
  snapshot : Nat → List Nat := fun _ => []
  thread : Nat → Option Nat := fun _ => none
  spawned : Nat := 0
  joined : List Nat := []
  discarded : List Nat := []
  misused : List Nat := []

namespace Manager

/-- Children are looked at. -/
def use (l : List Nat) (s : Manager) : Manager :=
  { s with misused := s.misused ++ l.filter (· ∈ s.discarded) }

/-- `stop`, and the `join` that follows it. -/
def halt (p : Nat) (s : Manager) : Manager :=
  { s with
    joined := s.joined ++ (s.thread p).toList
    thread := Function.update s.thread p none }

/-- `Indexer.start`, which may fail. -/
def start (ok : Bool) (p : Nat) (s : Manager) : Manager :=
  { s with
    thread := if ok = true then Function.update s.thread p (some s.spawned) else s.thread
    spawned := if ok = true then s.spawned + 1 else s.spawned }

/-- `discardChild` -/
def discardChild (p : Nat) (s : Manager) : Manager :=
  let s : Manager := (s.use [p]).halt p
  { s with discarded := s.discarded ++ [p] }

/-- Children are discarded one after the other. -/
def discardAll (l : List Nat) (s : Manager) : Manager := l.foldl (fun s p => s.discardChild p) s

/-- `rewindChild` -/
def rewindChild (ok : Bool) (p : Nat) (s : Manager) : Manager := ((s.use [p]).halt p).start ok p

/-- `onFactoryEventInner`, for a factory of at most `max` children: an address that has a
child is let go. A child whose indexer does not start is not put on the list. -/
def onFactoryEvent (address : Text) (block max : Nat) (ok : Bool) (s : Manager) : Manager :=
  if s.children.length ≥ max then s
  else
    let s : Manager := s.use (s.children.map (·.ptr))
    if s.children.any (fun e => Text.eqlIgnoreCase e.address address) ∨ ok = false then s
    else
      let child : Entry := { ptr := s.allocated, address := address, fromBlock := block }
      let s : Manager :=
        { s with children := s.children ++ [child], allocated := s.allocated + 1 }
      s.start true child.ptr

/-- The children that were found on the blocks from `fork` on, -/
def gone (fork : Nat) (s : Manager) : List Nat :=
  (s.children.filter fun e => decide (e.fromBlock ≥ fork)).map (·.ptr)

/-- and those found before. -/
def stay (fork : Nat) (s : Manager) : List Entry :=
  s.children.filter fun e => !decide (e.fromBlock ≥ fork)

/-- The list is divided, and call `c` has its share of it in its hands. -/
def divide (c fork : Nat) (noRoom : List Nat) (room : Nat) (s : Manager) : Manager :=
  { s with
    children := s.stay fork
    doomed := Function.update s.doomed c ((s.gone fork).filter (· ∉ noRoom))
    survivors := Function.update s.survivors c (((s.stay fork).map (·.ptr)).take room) }

/-- The section of `reconcileChildren` under the lock. Where there is no room to write a
doomed child down, it is discarded on the spot; where there is none for a survivor, the
list of the survivors ends. -/
def reconcile (c fork : Nat) (noRoom : List Nat) (room : Nat) (s : Manager) : Manager :=
  ((s.use (s.children.map (·.ptr))).divide c fork noRoom room).discardAll
    ((s.gone fork).filter (· ∈ noRoom))

end Manager

/-- Whose turn it is: an event of the source, a call of `reconcileChildren` by parent `c`,
or a reader `r` of `getCurrentChildren`. -/
inductive Act where
  | event (address : Text) (block max : Nat) (ok : Bool)
  | reconcile (c fork : Nat) (noRoom : List Nat) (room : Nat)
  | discard (c : Nat)
  | rewind (c : Nat) (ok : Bool)
  | look (r : Nat)
  | read (r : Nat)
  | letGo (r : Nat)
  deriving DecidableEq, Repr

/-- A step of whoever's turn it is. A call discards all its doomed children before it
rewinds the first survivor, and a parent makes one call after the other. -/
def step (s : Manager) : Act → Option Manager
  | .event address block max ok => some (s.onFactoryEvent address block max ok)
  | .reconcile c fork noRoom room =>
    if s.doomed c = [] ∧ s.survivors c = [] then some (s.reconcile c fork noRoom room) else none
  | .discard c =>
    match s.doomed c with
    | [] => none
    | p :: rest =>
      some (({ s with doomed := Function.update s.doomed c rest } : Manager).discardChild p)
  | .rewind c ok =>
    match s.doomed c, s.survivors c with
    | [], p :: rest =>
      some (({ s with survivors := Function.update s.survivors c rest } : Manager).rewindChild ok p)
    | _, _ => none
  | .look r => some { s with snapshot := Function.update s.snapshot r (s.children.map (·.ptr)) }
  | .read r =>
    match s.snapshot r with
    | [] => none
    | p :: rest => some (({ s with snapshot := Function.update s.snapshot r rest } : Manager).use [p])
  | .letGo r => some { s with snapshot := Function.update s.snapshot r [] }

/-- A factory without children, and whatever happens to it. -/
def factory : Machine Manager Act where
  init := {}
  step := step

/-! ### What is asked of them -/

/-- No child is discarded twice, no thread is joined twice, and no child is used when it is
gone. -/
structure Manager.Sound (s : Manager) : Prop where
  discardedOnce : s.discarded.Nodup
  joinedOnce : s.joined.Nodup
  unused : s.misused = []

/-- Somebody has a pointer to the child and may use it. -/
def Manager.Held (s : Manager) (p : Nat) : Prop :=
  (∃ c, p ∈ s.survivors c) ∨ ∃ r, p ∈ s.snapshot r

/-- **The schedules that are well**: a child is not discarded while somebody holds it. -/
def Unheld (s : Manager) : Act → Prop
  | .reconcile _ fork noRoom _ =>
    ∀ e ∈ s.children, fork ≤ e.fromBlock → e.ptr ∈ noRoom → ¬s.Held e.ptr
  | .discard c => ∀ p ∈ (s.doomed c).head?, ¬s.Held p
  | _ => True

/-! ### Where a child is -/

/-- The three places of a child. -/
inductive Place where
  | listed
  | doomed (c : Nat)
  | gone
  deriving DecidableEq

/-- The children of a place. -/
def Manager.pointers (s : Manager) : Place → List Nat
  | .listed => s.children.map (·.ptr)
  | .doomed c => s.doomed c
  | .gone => s.discarded

/-- **A child is in one place, and once**, and the children are those that were
allocated. -/
structure Spread (P : Place → List Nat) (n : Nat) : Prop where
  nodup : ∀ x, (P x).Nodup
  apart : ∀ x y p, p ∈ P x → p ∈ P y → x = y
  lt : ∀ x, ∀ p ∈ P x, p < n

section Spread

variable {P Q : Place → List Nat} {n : Nat} {l : List Nat}

/-- Children are taken away. -/
theorem Spread.sub (h : Spread P n) (hs : ∀ x, (Q x).Sublist (P x)) : Spread Q n where
  nodup x := (h.nodup x).sublist (hs x)
  apart x y p hx hy := h.apart x y p ((hs x).subset hx) ((hs y).subset hy)
  lt x p hp := h.lt x p ((hs x).subset hp)

/-- Children that are nowhere are put to a place. -/
theorem Spread.put (h : Spread P n) (y : Place) (hl : l.Nodup) (hlt : ∀ p ∈ l, p < n)
    (hnew : ∀ p ∈ l, ∀ x, p ∉ P x) : Spread (Function.update P y (P y ++ l)) n where
  nodup x := by
    by_cases hxy : x = y
    · subst hxy
      rw [Function.update_self, List.nodup_append]
      refine ⟨h.nodup x, hl, ?_⟩
      rintro p hp q hq rfl
      exact hnew p hq x hp
    · rw [Function.update_of_ne hxy]
      exact h.nodup x
  apart x x' p hx hx' := by
    have hor : ∀ z, p ∈ Function.update P y (P y ++ l) z → p ∈ P z ∨ z = y ∧ p ∈ l := by
      intro z hz
      by_cases hzy : z = y
      · subst hzy
        rw [Function.update_self, List.mem_append] at hz
        exact hz.imp_right fun hz => ⟨rfl, hz⟩
      · rw [Function.update_of_ne hzy] at hz
        exact .inl hz
    rcases hor x hx with hp | ⟨rfl, hp⟩ <;> rcases hor x' hx' with hp' | ⟨rfl, hp'⟩
    · exact h.apart x x' p hp hp'
    · exact absurd hp (hnew p hp' x)
    · exact absurd hp' (hnew p hp x')
    · rfl
  lt x p hp := by
    by_cases hxy : x = y
    · subst hxy
      rw [Function.update_self, List.mem_append] at hp
      exact hp.elim (h.lt x p) (hlt p)
    · rw [Function.update_of_ne hxy] at hp
      exact h.lt x p hp

theorem Spread.mono {m : Nat} (h : Spread P n) (hnm : n ≤ m) : Spread P m where
  nodup := h.nodup
  apart := h.apart
  lt x p hp := (h.lt x p hp).trans_le hnm

end Spread

section Steps

variable {s t : Manager}

theorem Spread.onFactoryEvent (h : Spread s.pointers s.allocated) (address : Text)
    (block max : Nat) (ok : Bool) :
    Spread (s.onFactoryEvent address block max ok).pointers
      (s.onFactoryEvent address block max ok).allocated := by
  unfold Manager.onFactoryEvent
  split
  · exact h
  · dsimp only
    split
    · exact h.sub fun x => by cases x <;> exact List.Sublist.refl _
    · have hput := (h.mono (Nat.le_succ _)).put .listed (List.nodup_singleton s.allocated)
        (fun p hp => by rw [List.mem_singleton.1 hp]; exact Nat.lt_succ_self _)
        (fun p hp x hx => by
          rw [List.mem_singleton.1 hp] at hx
          exact lt_irrefl _ (h.lt x _ hx))
      refine hput.sub fun x => ?_
      cases x with
      | listed =>
        rw [Function.update_self]
        simp [Manager.pointers, Manager.start, Manager.use]
      | doomed c => exact List.Sublist.refl _
      | gone => exact List.Sublist.refl _

/-- What is left of the manager when children were discarded. -/
structure Discarded (l : List Nat) (s t : Manager) : Prop where
  children : t.children = s.children
  allocated : t.allocated = s.allocated
  doomed : t.doomed = s.doomed
  survivors : t.survivors = s.survivors
  snapshot : t.snapshot = s.snapshot
  discarded : t.discarded = s.discarded ++ l
  misused : l.Nodup → (∀ p ∈ l, p ∉ s.discarded) → t.misused = s.misused

theorem discarded_discardAll (l : List Nat) (s : Manager) : Discarded l s (s.discardAll l) := by
  induction l generalizing s with
  | nil => exact ⟨rfl, rfl, rfl, rfl, rfl, (List.append_nil _).symm, fun _ _ => rfl⟩
  | cons p l ih =>
    have hrest := ih (s.discardChild p)
    refine ⟨hrest.children, hrest.allocated, hrest.doomed, hrest.survivors, hrest.snapshot, ?_, ?_⟩
    · exact hrest.discarded.trans (List.append_assoc _ _ _)
    · intro hnd hnew
      have hp : p ∉ s.discarded := hnew p List.mem_cons_self
      refine (hrest.misused (List.nodup_cons.1 hnd).2 fun q hq hmem => ?_).trans ?_
      · rcases List.mem_append.1 hmem with hold | hself
        · exact hnew q (List.mem_cons_of_mem _ hq) hold
        · rw [List.mem_singleton.1 hself] at hq
          exact (List.nodup_cons.1 hnd).1 hq
      · change s.misused ++ List.filter _ [p] = s.misused
        simp [hp]

/-- Children that are nowhere are discarded. -/
theorem Spread.discarded {l : List Nat} (h : Spread s.pointers s.allocated)
    (ht : Discarded l s t) (hl : l.Nodup) (hlt : ∀ p ∈ l, p < s.allocated)
    (hnew : ∀ p ∈ l, ∀ x, p ∉ s.pointers x) : Spread t.pointers t.allocated := by
  have hpointers : t.pointers = Function.update s.pointers .gone (s.pointers .gone ++ l) := by
    funext x
    cases x with
    | listed => simp [Manager.pointers, ht.children]
    | doomed c => simp [Manager.pointers, ht.doomed]
    | gone => simp [Manager.pointers, ht.discarded]
  rw [ht.allocated, hpointers]
  exact h.put .gone hl hlt hnew

theorem Spread.discard (h : Spread s.pointers s.allocated) {c p : Nat} {rest : List Nat}
    (hc : s.doomed c = p :: rest) :
    Spread (({ s with doomed := Function.update s.doomed c rest } : Manager).discardChild p).pointers
      s.allocated := by
  have hp : p ∈ s.pointers (.doomed c) := by
    rw [Manager.pointers, hc]
    exact List.mem_cons_self
  have hnd : p ∉ rest ∧ rest.Nodup := by
    have := h.nodup (.doomed c)
    rw [Manager.pointers, hc] at this
    exact List.nodup_cons.1 this
  have hsub : ∀ x, (Manager.pointers { s with doomed := Function.update s.doomed c rest } x).Sublist
      (s.pointers x) := by
    intro x
    cases x with
    | listed => exact List.Sublist.refl _
    | gone => exact List.Sublist.refl _
    | doomed d =>
      by_cases hd : d = c
      · subst hd
        simp [Manager.pointers, hc]
      · simp [Manager.pointers, Function.update_of_ne hd]
  refine (h.sub hsub).discarded (discarded_discardAll [p] _) (List.nodup_singleton p)
    (fun q hq => List.mem_singleton.1 hq ▸ h.lt _ _ hp) fun q hq x hx => ?_
  rw [List.mem_singleton.1 hq] at hx
  obtain rfl := h.apart _ _ p ((hsub x).subset hx) hp
  simp only [Manager.pointers, Function.update_self] at hx
  exact hnd.1 hx

theorem Spread.nodup_gone (h : Spread s.pointers s.allocated) (fork : Nat) :
    (s.gone fork).Nodup :=
  (h.nodup .listed).sublist (List.filter_sublist.map _)

theorem mem_children_of_mem_gone {fork p : Nat} (hp : p ∈ s.gone fork) :
    p ∈ s.pointers .listed :=
  (List.filter_sublist.map _).subset hp

/-- A child that is to go is not one of those that stay. -/
theorem Spread.not_stay (h : Spread s.pointers s.allocated) {fork p : Nat}
    (hp : p ∈ s.gone fork) : p ∉ (s.stay fork).map (·.ptr) := by
  intro hstay
  obtain ⟨e, he, rfl⟩ := List.mem_map.1 hp
  obtain ⟨e', he', heq⟩ := List.mem_map.1 hstay
  have hsame : e' = e := List.inj_on_of_nodup_map (h.nodup .listed) (List.mem_of_mem_filter he')
    (List.mem_of_mem_filter he) heq
  subst hsame
  have h1 := (List.mem_filter.1 he).2
  have h2 := (List.mem_filter.1 he').2
  simp_all

/-- What the list was divided into. -/
theorem Spread.divide (h : Spread s.pointers s.allocated) {c : Nat} (hc : s.doomed c = [])
    (fork : Nat) (noRoom : List Nat) (room : Nat) :
    Spread (s.divide c fork noRoom room).pointers s.allocated ∧
      ∀ p ∈ (s.gone fork).filter (· ∈ noRoom), ∀ x,
        p ∉ (s.divide c fork noRoom room).pointers x := by
  have hsub : ∀ x, (Manager.pointers { s with children := s.stay fork } x).Sublist
      (s.pointers x) := by
    intro x
    cases x with
    | listed => exact List.filter_sublist.map _
    | doomed d => exact List.Sublist.refl _
    | gone => exact List.Sublist.refl _
  have hnowhere : ∀ p ∈ s.gone fork, ∀ x,
      p ∉ Manager.pointers { s with children := s.stay fork } x := by
    intro p hp x hx
    obtain rfl := h.apart _ _ p ((hsub x).subset hx) (mem_children_of_mem_gone hp)
    exact h.not_stay hp hx
  have hpointers : (s.divide c fork noRoom room).pointers =
      Function.update (Manager.pointers { s with children := s.stay fork }) (.doomed c)
        (Manager.pointers { s with children := s.stay fork } (.doomed c) ++
          (s.gone fork).filter (· ∉ noRoom)) := by
    funext x
    cases x with
    | listed => simp [Manager.pointers, Manager.divide]
    | gone => simp [Manager.pointers, Manager.divide]
    | doomed d =>
      by_cases hd : d = c
      · subst hd
        simp [Manager.pointers, Manager.divide, hc]
      · simp [Manager.pointers, Manager.divide, hd]
  refine ⟨?_, fun p hp x hx => ?_⟩
  · rw [hpointers]
    exact (h.sub hsub).put _ ((h.nodup_gone fork).filter _)
      (fun p hp => h.lt _ _ (mem_children_of_mem_gone (List.mem_of_mem_filter hp)))
      fun p hp => hnowhere p (List.mem_of_mem_filter hp)
  · rw [hpointers] at hx
    by_cases hxc : x = .doomed c
    · subst hxc
      rw [Function.update_self, List.mem_append] at hx
      rcases hx with hx | hx
      · exact hnowhere p (List.mem_of_mem_filter hp) _ hx
      · have h1 := (List.mem_filter.1 hx).2
        have h2 := (List.mem_filter.1 hp).2
        simp_all
    · rw [Function.update_of_ne hxc] at hx
      exact hnowhere p (List.mem_of_mem_filter hp) x hx

theorem Spread.reconcile (h : Spread s.pointers s.allocated) {c : Nat} (hc : s.doomed c = [])
    (fork : Nat) (noRoom : List Nat) (room : Nat) :
    Spread (s.reconcile c fork noRoom room).pointers
      (s.reconcile c fork noRoom room).allocated := by
  have hdivide := (show Spread (s.use (s.children.map (·.ptr))).pointers s.allocated from h).divide
    hc fork noRoom room
  refine hdivide.1.discarded (discarded_discardAll _ _) ((h.nodup_gone fork).filter _)
    (fun p hp => h.lt _ _ (mem_children_of_mem_gone (List.mem_of_mem_filter hp))) ?_
  exact hdivide.2

end Steps

/-! ### One step -/

/-- What a step comes to. -/
inductive Stepped (s : Manager) : Act → Manager → Prop
  | event (address : Text) (block max : Nat) (ok : Bool) :
    Stepped s (.event address block max ok) (s.onFactoryEvent address block max ok)
  | reconcile (c fork : Nat) (noRoom : List Nat) (room : Nat) (idle : s.doomed c = []) :
    Stepped s (.reconcile c fork noRoom room) (s.reconcile c fork noRoom room)
  | discard (c p : Nat) (rest : List Nat) (hc : s.doomed c = p :: rest) :
    Stepped s (.discard c)
      (({ s with doomed := Function.update s.doomed c rest } : Manager).discardChild p)
  | rewind (c p : Nat) (rest : List Nat) (ok : Bool) (hc : s.survivors c = p :: rest) :
    Stepped s (.rewind c ok)
      (({ s with survivors := Function.update s.survivors c rest } : Manager).rewindChild ok p)
  | look (r : Nat) :
    Stepped s (.look r)
      { s with snapshot := Function.update s.snapshot r (s.children.map (·.ptr)) }
  | read (r p : Nat) (rest : List Nat) (hr : s.snapshot r = p :: rest) :
    Stepped s (.read r)
      (({ s with snapshot := Function.update s.snapshot r rest } : Manager).use [p])
  | letGo (r : Nat) : Stepped s (.letGo r) { s with snapshot := Function.update s.snapshot r [] }

section Step

variable {s t : Manager} {a : Act}

theorem stepped (h : step s a = some t) : Stepped s a t := by
  cases a with
  | event address block max ok => exact Option.some.inj h ▸ .event address block max ok
  | reconcile c fork noRoom room =>
    rw [step] at h
    split at h
    · next hidle => exact Option.some.inj h ▸ .reconcile c fork noRoom room hidle.1
    · cases h
  | discard c =>
    rw [step] at h
    split at h
    · cases h
    · next p rest hc => exact Option.some.inj h ▸ .discard c p rest hc
  | rewind c ok =>
    rw [step] at h
    split at h
    · next p rest _ hc => exact Option.some.inj h ▸ .rewind c p rest ok hc
    · cases h
  | look r => exact Option.some.inj h ▸ .look r
  | read r =>
    rw [step] at h
    split at h
    · cases h
    · next p rest hr => exact Option.some.inj h ▸ .read r p rest hr
  | letGo r => exact Option.some.inj h ▸ .letGo r

theorem Spread.step (h : Spread s.pointers s.allocated) (hstep : Stepped s a t) :
    Spread t.pointers t.allocated := by
  cases hstep with
  | event address block max ok => exact h.onFactoryEvent address block max ok
  | reconcile c fork noRoom room idle => exact h.reconcile idle fork noRoom room
  | discard c p rest hc => exact h.discard hc
  | rewind c p rest ok hc => exact h
  | look r => exact h
  | read r p rest hr => exact h
  | letGo r => exact h

end Step

/-! ### The threads of the children -/

/-- A thread that runs is the thread of one child, and was not joined. -/
structure Threads (s : Manager) : Prop where
  running : ∀ p h, s.thread p = some h → h < s.spawned ∧ h ∉ s.joined
  own : ∀ p q h, s.thread p = some h → s.thread q = some h → p = q
  joinedOnce : s.joined.Nodup
  spawned : ∀ h ∈ s.joined, h < s.spawned

section Threads

variable {s t : Manager} {a : Act}

theorem Threads.halt (h : Threads s) (p : Nat) : Threads (s.halt p) := by
  have hkept : ∀ q u, Function.update s.thread p none q = some u → q ≠ p ∧ s.thread q = some u := by
    intro q u hq
    by_cases hqp : q = p
    · subst hqp
      rw [Function.update_self] at hq
      cases hq
    · rw [Function.update_of_ne hqp] at hq
      exact ⟨hqp, hq⟩
  refine ⟨fun q u hq => ?_, fun q q' u hq hq' => ?_, ?_, fun u hu => ?_⟩
  · obtain ⟨hne, hq⟩ := hkept q u hq
    refine ⟨(h.running q u hq).1, fun hmem => ?_⟩
    rcases List.mem_append.1 hmem with hold | hnew
    · exact (h.running q u hq).2 hold
    · exact hne (h.own q p u hq (Option.mem_toList.1 hnew))
  · exact h.own q q' u (hkept q u hq).2 (hkept q' u hq').2
  · refine List.nodup_append.2 ⟨h.joinedOnce, ?_, ?_⟩
    · cases s.thread p <;> simp
    · rintro u hu v hv rfl
      exact (h.running p u (Option.mem_toList.1 hv)).2 hu
  · rcases List.mem_append.1 hu with hold | hnew
    · exact h.spawned u hold
    · exact (h.running p u (Option.mem_toList.1 hnew)).1

theorem Threads.start (h : Threads s) (ok : Bool) (p : Nat) : Threads (s.start ok p) := by
  cases ok with
  | false => exact ⟨h.running, h.own, h.joinedOnce, h.spawned⟩
  | true =>
    have hor : ∀ q u, Function.update s.thread p (some s.spawned) q = some u →
        q = p ∧ u = s.spawned ∨ s.thread q = some u := by
      intro q u hq
      by_cases hqp : q = p
      · subst hqp
        rw [Function.update_self] at hq
        exact .inl ⟨rfl, (Option.some.inj hq).symm⟩
      · rw [Function.update_of_ne hqp] at hq
        exact .inr hq
    refine ⟨fun q u hq => ?_, fun q q' u hq hq' => ?_, h.joinedOnce, fun u hu => ?_⟩
    · rcases hor q u hq with ⟨-, rfl⟩ | hold
      · exact ⟨Nat.lt_succ_self _, fun hmem => lt_irrefl _ (h.spawned _ hmem)⟩
      · exact ⟨Nat.lt_succ_of_lt (h.running q u hold).1, (h.running q u hold).2⟩
    · rcases hor q u hq with ⟨rfl, rfl⟩ | hold <;> rcases hor q' _ hq' with ⟨rfl, hu⟩ | hold'
      · rfl
      · exact absurd (h.running _ _ hold').1 (lt_irrefl _)
      · exact absurd (hu ▸ (h.running _ _ hold).1) (lt_irrefl _)
      · exact h.own q q' u hold hold'
    · exact Nat.lt_succ_of_lt (h.spawned u hu)

/-- Only the threads matter. -/
theorem Threads.of_eq (h : Threads s) (hthread : t.thread = s.thread)
    (hspawned : t.spawned = s.spawned) (hjoined : t.joined = s.joined) : Threads t := by
  obtain ⟨h1, h2, h3, h4⟩ := h
  rw [← hthread, ← hspawned, ← hjoined] at *
  exact ⟨h1, h2, h3, h4⟩

theorem Threads.discardChild (h : Threads s) (p : Nat) : Threads (s.discardChild p) :=
  ((show Threads (s.use [p]) from h.of_eq rfl rfl rfl).halt p).of_eq rfl rfl rfl

theorem Threads.discardAll (h : Threads s) (l : List Nat) : Threads (s.discardAll l) := by
  induction l generalizing s with
  | nil => exact h
  | cons p l ih => exact ih (h.discardChild p)

theorem Threads.step (h : Threads s) (hstep : Stepped s a t) : Threads t := by
  cases hstep with
  | event address block max ok =>
    unfold Manager.onFactoryEvent
    split
    · exact h
    · dsimp only
      split
      · exact h.of_eq rfl rfl rfl
      · refine Threads.start ?_ _ _
        exact h.of_eq rfl rfl rfl
  | reconcile c fork noRoom room idle =>
    refine Threads.discardAll ?_ _
    exact h.of_eq rfl rfl rfl
  | discard c p rest hc =>
    refine Threads.discardChild ?_ p
    exact h.of_eq rfl rfl rfl
  | rewind c p rest ok hc =>
    refine Threads.start (Threads.halt ?_ p) ok p
    exact h.of_eq rfl rfl rfl
  | look r => exact h.of_eq rfl rfl rfl
  | read r p rest hr => exact h.of_eq rfl rfl rfl
  | letGo r => exact h.of_eq rfl rfl rfl

end Threads

/-! ### Who holds what -/

/-- Nobody holds a child that is gone, and none was used. -/
structure Clear (s : Manager) : Prop where
  held : ∀ p, s.Held p → p ∉ s.discarded
  unused : s.misused = []

section Clear

variable {s t : Manager} {a : Act}

/-- Who holds less than before and sees nothing more discarded has nothing to fear. -/
theorem Clear.of_held (h : Clear s) (hheld : ∀ p, t.Held p → s.Held p)
    (hdiscarded : t.discarded = s.discarded) (hmisused : t.misused = s.misused) : Clear t :=
  ⟨fun p hp => hdiscarded ▸ h.held p (hheld p hp), hmisused.trans h.unused⟩

theorem Clear.use (h : Clear s) {l : List Nat} (hl : ∀ p ∈ l, p ∉ s.discarded) :
    Clear (s.use l) := by
  refine h.of_held (fun p hp => hp) rfl ?_
  change s.misused ++ l.filter _ = s.misused
  rw [List.filter_eq_nil_iff.2 (by simpa using hl), List.append_nil]

theorem Spread.not_discarded (h : Spread s.pointers s.allocated) {x : Place} {p : Nat}
    (hp : p ∈ s.pointers x) (hx : x ≠ .gone) : p ∉ s.discarded := fun hmem =>
  hx (h.apart x .gone p hp hmem)

theorem Spread.clear_use (h : Spread s.pointers s.allocated) (hc : Clear s) :
    Clear (s.use (s.children.map (·.ptr))) :=
  hc.use fun _ hp => h.not_discarded (x := .listed) hp (by simp)

theorem Clear.onFactoryEvent (hs : Spread s.pointers s.allocated) (h : Clear s) (address : Text)
    (block max : Nat) (ok : Bool) : Clear (s.onFactoryEvent address block max ok) := by
  unfold Manager.onFactoryEvent
  split
  · exact h
  · dsimp only
    split
    · exact hs.clear_use h
    · exact (hs.clear_use h).of_held (fun p hp => hp) rfl rfl

/-- Children that nobody holds are discarded. -/
theorem Clear.discarded {l : List Nat} (h : Clear s) (ht : Discarded l s t) (hl : l.Nodup)
    (hnew : ∀ p ∈ l, p ∉ s.discarded) (hfree : ∀ p ∈ l, ¬s.Held p) : Clear t := by
  refine ⟨fun p hp hmem => ?_, (ht.misused hl hnew).trans h.unused⟩
  have hheld : s.Held p := by
    rwa [Manager.Held, ht.survivors, ht.snapshot] at hp
  rw [ht.discarded, List.mem_append] at hmem
  exact hmem.elim (h.held p hheld) fun hp' => hfree p hp' hheld

/-- To put another list into somebody's hands. -/
theorem mem_update {f : Nat → List Nat} {c d p : Nat} {l : List Nat}
    (h : p ∈ Function.update f c l d) : p ∈ l ∨ p ∈ f d := by
  by_cases hd : d = c
  · subst hd
    exact .inl (by rwa [Function.update_self] at h)
  · exact .inr (by rwa [Function.update_of_ne hd] at h)

theorem held_survivors {f : Nat → List Nat} {c p : Nat} {l : List Nat}
    (hf : s.survivors = f)
    (h : Manager.Held { s with survivors := Function.update f c l } p) : p ∈ l ∨ s.Held p := by
  subst hf
  rcases h with ⟨d, hd⟩ | hr
  · exact (mem_update hd).imp_right fun hd => .inl ⟨d, hd⟩
  · exact .inr (.inr hr)

theorem held_snapshot {r p : Nat} {l : List Nat}
    (h : Manager.Held { s with snapshot := Function.update s.snapshot r l } p) :
    p ∈ l ∨ s.Held p := by
  rcases h with hc | ⟨d, hd⟩
  · exact .inr (.inl hc)
  · exact (mem_update hd).imp_right fun hd => .inr ⟨d, hd⟩

theorem Clear.reconcile (hs : Spread s.pointers s.allocated) (h : Clear s) {c fork room : Nat}
    {noRoom : List Nat}
    (hun : ∀ e ∈ s.children, fork ≤ e.fromBlock → e.ptr ∈ noRoom → ¬s.Held e.ptr) :
    Clear (s.reconcile c fork noRoom room) := by
  have hheld : ∀ p, (s.divide c fork noRoom room).Held p →
      p ∈ (s.stay fork).map (·.ptr) ∨ s.Held p := by
    intro p hp
    refine (held_survivors (s := s) rfl (c := c) hp).imp_left fun hp => List.mem_of_mem_take hp
  have hclear : Clear ((s.use (s.children.map (·.ptr))).divide c fork noRoom room) := by
    refine ⟨fun p hp => ?_, (hs.clear_use h).unused⟩
    rcases hheld p hp with hstay | hp
    · exact hs.not_discarded (x := .listed) ((List.filter_sublist.map _).subset hstay) (by simp)
    · exact h.held p hp
  refine hclear.discarded (discarded_discardAll _ _) ((hs.nodup_gone fork).filter _) ?_ ?_
  · intro p hp
    exact hs.not_discarded (mem_children_of_mem_gone (List.mem_of_mem_filter hp)) (by simp)
  · intro p hp hmem
    obtain ⟨hgone, hnoRoom⟩ := List.mem_filter.1 hp
    rcases hheld p hmem with hstay | hp
    · exact hs.not_stay hgone hstay
    · obtain ⟨e, he, rfl⟩ := List.mem_map.1 hgone
      obtain ⟨he, hfork⟩ := List.mem_filter.1 he
      exact hun e he (of_decide_eq_true hfork) (of_decide_eq_true hnoRoom) hp

theorem Clear.step (hs : Spread s.pointers s.allocated) (h : Clear s) (hun : Unheld s a)
    (hstep : Stepped s a t) : Clear t := by
  cases hstep with
  | event address block max ok => exact h.onFactoryEvent hs address block max ok
  | reconcile c fork noRoom room idle => exact h.reconcile hs hun
  | discard c p rest hc =>
    have hp : p ∈ s.pointers (.doomed c) := by
      rw [Manager.pointers, hc]
      exact List.mem_cons_self
    have hclear : Clear { s with doomed := Function.update s.doomed c rest } :=
      h.of_held (fun p hp => hp) rfl rfl
    refine hclear.discarded (discarded_discardAll [p] _) (List.nodup_singleton p) ?_ ?_
    · intro q hq
      exact List.mem_singleton.1 hq ▸ hs.not_discarded hp (by simp)
    · intro q hq
      exact List.mem_singleton.1 hq ▸ hun p (by rw [hc]; rfl)
  | rewind c p rest ok hc =>
    have hkept : ∀ q, q ∈ s.survivors c → s.Held q := fun q hq => .inl ⟨c, hq⟩
    rw [hc] at hkept
    have hclear : Clear { s with survivors := Function.update s.survivors c rest } := by
      refine h.of_held (fun q hq => ?_) rfl rfl
      exact (held_survivors rfl hq).elim (fun hq => hkept q (List.mem_cons_of_mem _ hq)) id
    have hnew : ∀ q ∈ [p], q ∉ s.discarded := fun q hq =>
      List.mem_singleton.1 hq ▸ h.held p (hkept p List.mem_cons_self)
    exact (hclear.use hnew).of_held (fun q hq => hq) rfl rfl
  | look r =>
    refine ⟨fun q hq => ?_, h.unused⟩
    rcases held_snapshot hq with hq | hq
    · exact hs.not_discarded (x := .listed) hq (by simp)
    · exact h.held q hq
  | read r p rest hr =>
    have hkept : ∀ q, q ∈ s.snapshot r → s.Held q := fun q hq => .inr ⟨r, hq⟩
    rw [hr] at hkept
    have hclear : Clear { s with snapshot := Function.update s.snapshot r rest } := by
      refine h.of_held (fun q hq => ?_) rfl rfl
      exact (held_snapshot hq).elim (fun hq => hkept q (List.mem_cons_of_mem _ hq)) id
    exact hclear.use fun q hq =>
      List.mem_singleton.1 hq ▸ h.held p (hkept p List.mem_cons_self)
  | letGo r =>
    refine h.of_held (fun q hq => ?_) rfl rfl
    exact (held_snapshot hq).elim (fun hq => absurd hq List.not_mem_nil) id

end Clear

/-! ### Every run -/

/-- What holds in every run. -/
structure Orderly (s : Manager) : Prop where
  spread : Spread s.pointers s.allocated
  threads : Threads s

theorem Orderly.init : Orderly factory.init where
  spread := by
    have hnone : ∀ x, factory.init.pointers x = [] := by
      intro x
      cases x <;> rfl
    exact ⟨fun x => hnone x ▸ List.nodup_nil, fun x y p hp => by simp [hnone] at hp,
      fun x p hp => by simp [hnone] at hp⟩
  threads := ⟨fun p h hp => (by cases hp), fun p q h hp => (by cases hp), List.nodup_nil,
    fun h hmem => (by cases hmem)⟩

theorem Orderly.step {s t : Manager} {a : Act} (h : Orderly s) (hstep : Stepped s a t) :
    Orderly t :=
  ⟨h.spread.step hstep, h.threads.step hstep⟩

/-- **No child is discarded twice and no thread is joined twice**, in any run. -/
theorem nodup_discarded {s : Manager} (h : factory.Reachable s) :
    s.discarded.Nodup ∧ s.joined.Nodup := by
  have horderly : Orderly s :=
    Machine.Reaches.invariant Orderly.init (fun s a t ih _ hs => ih.step (stepped hs)) h
  exact ⟨horderly.spread.nodup .gone, horderly.threads.joinedOnce⟩

/-- **Reconciliation is sound as long as nobody holds what is discarded.** -/
theorem sound_of_unheld {s : Manager} (h : factory.Reaches Unheld s) : s.Sound := by
  have hinit : Clear factory.init := by
    refine ⟨fun p _ hp => ?_, rfl⟩
    cases hp
  have hclear : Orderly s ∧ Clear s := by
    refine h.invariant (I := fun s => Orderly s ∧ Clear s) ⟨Orderly.init, hinit⟩ ?_
    intro s a t ih hun hs
    exact ⟨ih.1.step (stepped hs), ih.2.step ih.1.spread hun (stepped hs)⟩
  exact ⟨hclear.1.spread.nodup .gone, hclear.1.threads.joinedOnce, hclear.2.unused⟩

/-- A child is found, and its block is replaced. -/
theorem sound_of_unheld_alone :
    ∃ s, factory.Reaches Unheld s ∧ s.discarded = [0] ∧ s.joined = [0] ∧ s.Sound := by
  have hfound := Machine.Reaches.step (M := factory) (C := Unheld)
    (a := .event [] 7 8 true) .init trivial rfl
  have hdivided := hfound.step (a := .reconcile 1 5 [] 8) (fun e _ _ hroom => by cases hroom) rfl
  have hdone := hdivided.step (a := .discard 1) (fun p hp hheld => by
    obtain ⟨c, hc⟩ | ⟨r, hr⟩ := hheld
    · exact (mem_update hc).elim (fun hc => (by cases hc)) fun hc => (by cases hc)
    · cases hr) rfl
  exact ⟨_, hdone, rfl, rfl, sound_of_unheld hdone⟩

/-- Two parents see a reorg, one from block 10 on, the other from block 5 on. The child
found in block 7 stays for the first and goes for the second, which is faster. -/
theorem rewound_after_discard : ∃ s, factory.Reachable s ∧ ¬s.Sound := by
  have hrun : (factory.run factory.init [.event [] 7 8 true, .reconcile 1 10 [] 8,
      .reconcile 2 5 [] 8, .discard 2, .rewind 1 true]).map
        (fun s => decide (s.misused ≠ [])) = some true := rfl
  obtain ⟨s, hs, hp⟩ := Machine.exists_reachable hrun
  exact ⟨s, hs, fun hsound => of_decide_eq_true hp hsound.unused⟩

end Factory

end Zponder

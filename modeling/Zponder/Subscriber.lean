import Zponder.Schema

/-!
# The queue of a subscriber

A subscriber is the queue of one connection of `handleStream`: publishers push copies of events at
its end, the connection takes them from its front with `next`, and a queue that is full loses its
oldest event to a push. What a push and `next` do is cut here into what they do between two looks
at what others may change, `check`, `trim` and `append`, and `take`.

Besides what the code has, a copy knows which of the published events it is, and a subscriber what
has become of those it was to have: the copies that `next` has given out, and the serial numbers
of the events that were dropped as the oldest of a full queue, were lost to a failed allocation,
or came to a queue that was closed. All of those up to `settled` are told so, and each of them is
told by one of these or is in the queue (`Zponder.EventBus.Subscriber.Sound`); whatever is done
keeps to that.
-/

namespace Zponder.EventBus

/-! ### Events -/

/-- A decoded event. -/
structure Event where
  contractName : Text
  eventName : Text
  contractAddress : Text
  blockNumber : UInt64
  blockTimestamp : UInt64
  txHash : Text
  logIndex : UInt64
  fields : List DecodedField
  deriving DecidableEq, Repr

/-- How many allocations a deep copy asks for: the fields, the two texts of each, and the four
texts of the event. -/
def Event.allocations (e : Event) : Nat := 1 + 2 * e.fields.length + 4

/-- `clone`, which fails if one of its allocations does. -/
def Event.clone (allocs : Nat → Bool) (e : Event) : Option Event :=
  if ∀ k < e.allocations, allocs k = true then some e else none

theorem Event.eq_of_clone {allocs : Nat → Bool} {e e' : Event} (h : e.clone allocs = some e') :
    e' = e := by
  rw [Event.clone, Option.ite_none_right_eq_some, Option.some.injEq] at h
  exact h.2.symm

/-- A copy of an event, and which of the published events it is a copy of. -/
structure Copy where
  serial : Nat
  event : Event
  deriving DecidableEq, Repr

/-! ### Subscribers -/

/-- `max_queue` -/
def maxQueue : Nat := 1000

/-- A subscriber, with the thread that holds its lock. -/
structure Subscriber (ι : Type) where
  queue : List Copy := []
  mutex : Option ι := none
  closed : Bool := false
  received : List Copy := []
  dropped : List Nat := []
  failed : List Nat := []
  refused : List Nat := []
  /-- How many events had been published when it was put on the list of the bus, -/
  joined : Option Nat := none
  /-- and when it was taken off it. -/
  left : Option Nat := none
  /-- The events below have been pushed, or not been pushed to it. -/
  settled : Nat := 0
  /-- `subscribe` has returned it. -/
  issued : Bool := false
  /-- `unsubscribe` has returned. -/
  returned : Bool := false

namespace Subscriber

variable {ι : Type}

/-- No copy could be made of the event that is published. -/
def skip (s : Subscriber ι) (n : Nat) : Subscriber ι :=
  { s with failed := n :: s.failed, settled := n + 1 }

/-- `if (self.closed.load(.acquire))`: the copy is freed. -/
def refuse (s : Subscriber ι) (n : Nat) : Subscriber ι :=
  { s with refused := n :: s.refused, settled := n + 1 }

/-- `if (self.queue.items.len >= max_queue)`: the oldest is freed. -/
def trim (s : Subscriber ι) : Subscriber ι :=
  match s.queue with
  | [] => s
  | c :: rest =>
    if maxQueue ≤ s.queue.length then { s with queue := rest, dropped := c.serial :: s.dropped }
    else s

/-- `self.queue.append(self.alloc, ev_mut)`, or the copy is freed. -/
def append (s : Subscriber ι) (c : Copy) (alloc : Bool) : Subscriber ι :=
  if alloc then { s with queue := s.queue ++ [c], settled := c.serial + 1 } else s.skip c.serial

/-- `self.queue.orderedRemove(0)`, of `next`, which gives the event out. -/
def take (s : Subscriber ι) : Subscriber ι :=
  match s.queue with
  | [] => s
  | c :: rest => { s with queue := rest, received := s.received ++ [c] }

def lock (s : Subscriber ι) (i : ι) : Subscriber ι := { s with mutex := some i }

def unlock (s : Subscriber ι) : Subscriber ι := { s with mutex := none }

def close (s : Subscriber ι) : Subscriber ι := { s with closed := true }

/-- It is put on the list of the bus. -/
def join (s : Subscriber ι) (n : Nat) : Subscriber ι := { s with joined := some n, settled := n }

/-- It is taken off it. -/
def leave (s : Subscriber ι) (n : Nat) : Subscriber ι := { s with left := some n }

/-- What the bus knows of a subscriber is left as it is. -/
structure Kept (s t : Subscriber ι) : Prop where
  joined : t.joined = s.joined
  left : t.left = s.left
  issued : t.issued = s.issued
  returned : t.returned = s.returned

theorem Kept.trim (s : Subscriber ι) : s.Kept s.trim := by
  rw [Subscriber.trim]
  split
  · exact ⟨rfl, rfl, rfl, rfl⟩
  · split <;> exact ⟨rfl, rfl, rfl, rfl⟩

theorem Kept.append (s : Subscriber ι) (c : Copy) (alloc : Bool) : s.Kept (s.append c alloc) := by
  rw [Subscriber.append]
  split <;> exact ⟨rfl, rfl, rfl, rfl⟩

theorem Kept.take (s : Subscriber ι) : s.Kept s.take := by
  rw [Subscriber.take]
  split <;> exact ⟨rfl, rfl, rfl, rfl⟩

@[simp]
theorem trim_settled (s : Subscriber ι) : s.trim.settled = s.settled := by
  rw [Subscriber.trim]
  split
  · rfl
  · split <;> rfl

@[simp]
theorem trim_mutex (s : Subscriber ι) : s.trim.mutex = s.mutex := by
  rw [Subscriber.trim]
  split
  · rfl
  · split <;> rfl

@[simp]
theorem take_settled (s : Subscriber ι) : s.take.settled = s.settled := by
  rw [Subscriber.take]
  split <;> rfl

@[simp]
theorem take_mutex (s : Subscriber ι) : s.take.mutex = s.mutex := by
  rw [Subscriber.take]
  split <;> rfl

@[simp]
theorem append_settled (s : Subscriber ι) (c : Copy) (alloc : Bool) :
    (s.append c alloc).settled = c.serial + 1 := by
  rw [Subscriber.append]
  split <;> rfl

@[simp]
theorem append_mutex (s : Subscriber ι) (c : Copy) (alloc : Bool) :
    (s.append c alloc).mutex = s.mutex := by
  rw [Subscriber.append]
  split <;> rfl

/-! ### What a subscriber is told -/

/-- What has become of an event. -/
def Told (s : Subscriber ι) (n : Nat) : Prop :=
  (∃ c ∈ s.received ++ s.queue, c.serial = n) ∨ n ∈ s.dropped ∨ n ∈ s.failed ∨ n ∈ s.refused

/-- **A subscriber keeps to the order of what was published.** -/
structure Sound (published : List Event) (s : Subscriber ι) : Prop where
  bounded : s.queue.length ≤ maxQueue
  ordered : (s.received ++ s.queue).Pairwise fun c d => c.serial < d.serial
  genuine : ∀ c ∈ s.received ++ s.queue, s.joined.getD 0 ≤ c.serial ∧ c.serial < s.settled ∧
    published[c.serial]? = some c.event
  /-- What was dropped is older than what is in the queue. -/
  oldest : ∀ n ∈ s.dropped, n < s.settled ∧ ∀ c ∈ s.queue, n < c.serial
  since : s.joined.getD 0 ≤ s.settled
  told : ∀ n, s.joined.getD 0 ≤ n → n < s.settled → s.Told n
  closing : s.refused ≠ [] → s.closed = true

variable {published : List Event} {s : Subscriber ι} {n : Nat}

theorem Sound.empty : ({} : Subscriber ι).Sound published where
  bounded := Nat.zero_le _
  ordered := List.Pairwise.nil
  genuine := fun _ hc => absurd hc List.not_mem_nil
  oldest := fun _ hn => absurd hn List.not_mem_nil
  since := le_rfl
  told := fun n _ hn => absurd hn (Nat.not_lt_zero n)
  closing := fun h => absurd rfl h

/-- More may be published. -/
theorem Sound.publish (h : s.Sound published) (e : Event) : s.Sound (published ++ [e]) :=
  { h with
    genuine := fun c hc => by
      obtain ⟨hfrom, huntil, hc⟩ := h.genuine c hc
      have hlt := (List.getElem?_eq_some_iff.1 hc).1
      exact ⟨hfrom, huntil, by rw [List.getElem?_append_left hlt, hc]⟩ }

theorem Sound.lock (h : s.Sound published) (i : ι) : (s.lock i).Sound published := { h with }

theorem Sound.unlock (h : s.Sound published) : s.unlock.Sound published := { h with }

theorem Sound.close (h : s.Sound published) : s.close.Sound published :=
  { h with closing := fun _ => rfl }

theorem Sound.leave (h : s.Sound published) (n : Nat) : (s.leave n).Sound published := { h with }

theorem Sound.join (n : Nat) : (({} : Subscriber ι).join n).Sound published where
  bounded := Nat.zero_le _
  ordered := List.Pairwise.nil
  genuine := fun _ hc => absurd hc List.not_mem_nil
  oldest := fun _ hn => absurd hn List.not_mem_nil
  since := le_rfl
  told := fun _ hm hn => absurd hm (Nat.not_le.2 hn)
  closing := fun h => absurd rfl h

/-- The next event is settled once it is told what has become of it. -/
theorem told_succ {t : Subscriber ι} (h : s.Sound published) (hkeep : ∀ m, s.Told m → t.Told m)
    (hlast : t.Told s.settled) (m : Nat) (hm : s.joined.getD 0 ≤ m) (hlt : m < s.settled + 1) :
    t.Told m := by
  rcases Nat.lt_succ_iff_lt_or_eq.1 hlt with hlt | rfl
  · exact hkeep m (h.told m hm hlt)
  · exact hlast

theorem Sound.skip (h : s.Sound published) : (s.skip s.settled).Sound published :=
  { h with
    genuine := fun c hc => (h.genuine c hc).imp_right fun hc => ⟨Nat.lt_succ_of_lt hc.1, hc.2⟩
    oldest := fun n hn => (h.oldest n hn).imp_left Nat.lt_succ_of_lt
    since := Nat.le_succ_of_le h.since
    told := told_succ h
      (fun _ => Or.imp_right (Or.imp_right (Or.imp_left (List.mem_cons_of_mem _))))
      (.inr (.inr (.inl List.mem_cons_self))) }

theorem Sound.refuse (h : s.Sound published) (hclosed : s.closed = true) :
    (s.refuse s.settled).Sound published :=
  { h with
    genuine := fun c hc => (h.genuine c hc).imp_right fun hc => ⟨Nat.lt_succ_of_lt hc.1, hc.2⟩
    oldest := fun n hn => (h.oldest n hn).imp_left Nat.lt_succ_of_lt
    since := Nat.le_succ_of_le h.since
    told := told_succ h
      (fun _ => Or.imp_right (Or.imp_right (Or.imp_right (List.mem_cons_of_mem _))))
      (.inr (.inr (.inr List.mem_cons_self)))
    closing := fun _ => hclosed }

theorem Sound.take (h : s.Sound published) : s.take.Sound published := by
  rw [Subscriber.take]
  split
  · exact h
  · next c rest hqueue =>
    -- What was received and what is queued are the same list as before.
    have hsame : (s.received ++ [c]) ++ rest = s.received ++ s.queue := by
      rw [hqueue, List.append_assoc, List.singleton_append]
    have hsub : ∀ d ∈ rest, d ∈ s.queue := fun d hd => hqueue ▸ List.mem_cons_of_mem c hd
    have hlength : rest.length ≤ s.queue.length := by
      rw [hqueue]
      exact Nat.le_succ _
    exact
      { h with
        bounded := hlength.trans h.bounded
        ordered := by simpa only [hsame] using h.ordered
        genuine := by simpa only [hsame] using h.genuine
        oldest := fun n hn => (h.oldest n hn).imp_right fun hn d hd => hn d (hsub d hd)
        told := fun n hfrom huntil => by
          simpa only [Told, hsame] using h.told n hfrom huntil }

theorem Sound.trim (h : s.Sound published) : s.trim.Sound published := by
  rw [Subscriber.trim]
  split
  · exact h
  · next c rest hqueue =>
    split
    · have hsub : (s.received ++ rest).Sublist (s.received ++ s.queue) := by
        rw [hqueue]
        exact (List.sublist_cons_self c rest).append_left s.received
      have hc : c ∈ s.received ++ s.queue := by
        rw [hqueue]
        exact List.mem_append_right _ List.mem_cons_self
      have hrest : ∀ d ∈ rest, d ∈ s.queue := fun d hd => hqueue ▸ List.mem_cons_of_mem c hd
      have holder : ∀ d ∈ rest, c.serial < d.serial := by
        have hqueued := (List.pairwise_append.1 h.ordered).2.1
        rw [hqueue] at hqueued
        exact (List.pairwise_cons.1 hqueued).1
      have hlength : rest.length ≤ s.queue.length := by
        rw [hqueue]
        exact Nat.le_succ _
      refine
        { h with
          bounded := hlength.trans h.bounded
          ordered := h.ordered.sublist hsub
          genuine := fun d hd => h.genuine d (hsub.subset hd)
          oldest := fun n hn => ?_
          told := fun n hfrom huntil => ?_ }
      · rcases List.mem_cons.1 hn with rfl | hn
        · exact ⟨(h.genuine c hc).2.1, holder⟩
        · exact (h.oldest n hn).imp_right fun hn d hd => hn d (hrest d hd)
      · rcases h.told n hfrom huntil with ⟨d, hd, rfl⟩ | hdropped | hother
        · -- What was told by the event that is dropped is told by that.
          rw [hqueue, List.mem_append, List.mem_cons] at hd
          rcases hd with hd | rfl | hd
          · exact .inl ⟨d, List.mem_append_left _ hd, rfl⟩
          · exact .inr (.inl List.mem_cons_self)
          · exact .inl ⟨d, List.mem_append_right _ hd, rfl⟩
        · exact .inr (.inl (List.mem_cons_of_mem _ hdropped))
        · exact .inr (.inr hother)
    · exact h

theorem Sound.trim_lt (h : s.Sound published) : s.trim.queue.length < maxQueue := by
  have hbounded := h.bounded
  rw [Subscriber.trim]
  split
  · next hqueue =>
    rw [hqueue]
    decide
  · next c rest hqueue =>
    have hlength : s.queue.length = rest.length + 1 := by rw [hqueue, List.length_cons]
    split
    · rw [hlength] at hbounded
      exact hbounded
    · exact Nat.lt_of_not_le ‹_›

theorem Sound.append (h : s.Sound published) {c : Copy} (hserial : c.serial = s.settled)
    (hevent : published[c.serial]? = some c.event) (hroom : s.queue.length < maxQueue)
    (alloc : Bool) : (s.append c alloc).Sound published := by
  rw [Subscriber.append]
  split
  · have hbelow : ∀ d ∈ s.received ++ s.queue, d.serial < c.serial :=
      fun d hd => hserial ▸ (h.genuine d hd).2.1
    refine
      { h with
        bounded := ?_
        ordered := ?_
        genuine := fun d hd => ?_
        oldest := fun n hn => ?_
        since := ?_
        told := hserial ▸ told_succ h (fun m hm => ?_) ?_ }
    · rw [List.length_append, List.length_singleton]
      exact hroom
    · rw [← List.append_assoc, List.pairwise_append]
      refine ⟨h.ordered, List.pairwise_singleton _ _, fun d hd e he => ?_⟩
      rw [List.mem_singleton.1 he]
      exact hbelow d hd
    · rw [← List.append_assoc, List.mem_append, List.mem_singleton] at hd
      rcases hd with hd | rfl
      · exact (h.genuine d hd).imp_right fun hd => ⟨hserial ▸ Nat.lt_succ_of_lt hd.1, hd.2⟩
      · exact ⟨hserial ▸ h.since, Nat.lt_succ_self _, hevent⟩
    · obtain ⟨hn, hqueue⟩ := h.oldest n hn
      refine ⟨hserial ▸ Nat.lt_succ_of_lt hn, fun d hd => ?_⟩
      rcases List.mem_append.1 hd with hd | hd
      · exact hqueue d hd
      · rw [List.mem_singleton.1 hd, hserial]
        exact hn
    · exact hserial ▸ Nat.le_succ_of_le h.since
    · refine hm.imp_left fun ⟨d, hd, hm⟩ => ⟨d, ?_, hm⟩
      rw [← List.append_assoc]
      exact List.mem_append_left _ hd
    · refine .inl ⟨c, ?_, hserial⟩
      exact List.mem_append_right _ (List.mem_append_right _ List.mem_cons_self)
  · rw [hserial]
    exact h.skip

end Subscriber

end Zponder.EventBus

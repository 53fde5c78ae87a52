import Zponder.Lib.Machine
import Zponder.Subscriber

/-!
# The event bus

Indexers publish events on a bus, and connections subscribe to it. The bus has a list of its
subscribers and a lock, which `subscribe`, `unsubscribe` and `publish` take; each subscriber has a
lock for its queue, which a push and `next` take; and the flag that a subscriber is closed is
stored and loaded outside of both. Here any number of threads call the four functions, each
attempt at a lock, each look at the flag and each thing done under a lock is a step, and an
allocation fails when it likes. A thread that spins takes no step.

Every subscriber keeps to the order of what was published (`Zponder.EventBus.stream_holds`): its
queue has a thousand events at most, `next` gives out copies of the events published while it was
on the list, in their order and each once, and of each of these it is known what has become of it.
Nobody who publishes is at a subscriber once `unsubscribe` has returned, so that `handleStream` may
free it.
-/

namespace Zponder.EventBus

open Imperative

/-! ### The bus -/

/-- `EventBus`, its subscribers where they were allocated, how many there are, and what was
published so far. -/
structure Bus (ι : Type) where
  subscribers : List Nat := []
  mutex : Option ι := none
  heap : Nat → Subscriber ι := fun _ => {}
  created : Nat := 0
  published : List Event := []

variable {ι : Type}

/-- A subscriber is written to. -/
def Bus.modify (b : Bus ι) (s : Nat) (f : Subscriber ι → Subscriber ι) : Bus ι :=
  { b with heap := Function.update b.heap s (f (b.heap s)) }

inductive Op where
  | subscribe
  | unsubscribe (s : Nat)
  | publish (e : Event)
  | next (s : Nat)
  deriving DecidableEq, Repr

/-- A call of `publish`: the event, and the place on the list it has come to. -/
structure Push where
  copy : Copy
  index : Nat
  deriving DecidableEq, Repr

def Push.next (p : Push) : Push := { p with index := p.index + 1 }

/-- What a thread does next. -/
inductive Pc where
  | idle
  | create
  | joinLock (s : Nat)
  | join (s : Nat)
  | joinUnlock (s : Nat) (ok : Bool)
  | close (s : Nat)
  | leaveLock (s : Nat)
  | leave (s : Nat)
  | leaveUnlock (s : Nat)
  | publishLock (e : Event)
  | clone (p : Push)
  | lockFor (p : Push) (s : Nat) (c : Copy)
  | check (p : Push) (s : Nat) (c : Copy)
  | trim (p : Push) (s : Nat) (c : Copy)
  | append (p : Push) (s : Nat) (c : Copy)
  | unlockFor (p : Push) (s : Nat)
  | publishUnlock
  | look (s : Nat)
  | lockNext (s : Nat)
  | take (s : Nat)
  | unlockNext (s : Nat) (got : Option Copy)
  deriving DecidableEq, Repr

/-- Whose turn it is, what it calls, if it has nothing else to do, and which allocations
succeed. -/
structure Turn (ι : Type) where
  thread : ι
  op : Op := .subscribe
  allocs : Nat → Bool := fun _ => true

/-- A step of a thread. Only who has a subscriber from `subscribe` can pass it on. -/
def act (a : Turn ι) (b : Bus ι) : Pc → Option (Bus ι × Pc)
  | .idle =>
    match a.op with
    | .subscribe => some (b, .create)
    | .unsubscribe s => if (b.heap s).issued then some (b, .close s) else none
    | .publish e => some (b, .publishLock e)
    | .next s => if (b.heap s).issued then some (b, .look s) else none
  -- `subscribe`
  | .create =>
    if a.allocs 0 then some ({ b with created := b.created + 1 }, .joinLock b.created)
    else some (b, .idle)
  | .joinLock s =>
    if b.mutex.isNone then some ({ b with mutex := some a.thread }, .join s) else none
  | .join s =>
    if a.allocs 0 then
      some ({ b.modify s (·.join b.published.length) with subscribers := b.subscribers ++ [s] },
        .joinUnlock s true)
    else some (b, .joinUnlock s false)
  | .joinUnlock s ok =>
    if ok then some ({ b.modify s (fun x => { x with issued := true }) with mutex := none }, .idle)
    else some ({ b with mutex := none }, .idle)
  -- `unsubscribe`
  | .close s => some (b.modify s (·.close), .leaveLock s)
  | .leaveLock s =>
    if b.mutex.isNone then some ({ b with mutex := some a.thread }, .leave s) else none
  | .leave s =>
    if b.subscribers.contains s then
      some ({ b.modify s (·.leave b.published.length) with subscribers := b.subscribers.erase s },
        .leaveUnlock s)
    else some (b, .leaveUnlock s)
  | .leaveUnlock s =>
    some ({ b.modify s (fun x => { x with returned := true }) with mutex := none }, .idle)
  -- `publish`
  | .publishLock e =>
    if b.mutex.isNone then
      some ({ b with mutex := some a.thread, published := b.published ++ [e] },
        .clone ⟨⟨b.published.length, e⟩, 0⟩)
    else none
  | .clone p =>
    match b.subscribers[p.index]? with
    | none => some (b, .publishUnlock)
    | some s =>
      match p.copy.event.clone a.allocs with
      | none => some (b.modify s (·.skip p.copy.serial), .clone p.next)
      | some e => some (b, .lockFor p s ⟨p.copy.serial, e⟩)
  | .lockFor p s c =>
    if (b.heap s).mutex.isNone then some (b.modify s (·.lock a.thread), .check p s c) else none
  | .check p s c =>
    if (b.heap s).closed then some (b.modify s (·.refuse c.serial), .unlockFor p s)
    else some (b, .trim p s c)
  | .trim p s c => some (b.modify s (·.trim), .append p s c)
  | .append p s c => some (b.modify s (·.append c (a.allocs 0)), .unlockFor p s)
  | .unlockFor p s => some (b.modify s (·.unlock), .clone p.next)
  | .publishUnlock => some ({ b with mutex := none }, .idle)
  -- `next`
  | .look s => if (b.heap s).closed then some (b, .idle) else some (b, .lockNext s)
  | .lockNext s =>
    if (b.heap s).mutex.isNone then some (b.modify s (·.lock a.thread), .take s) else none
  | .take s => some (b.modify s (·.take), .unlockNext s (b.heap s).queue.head?)
  | .unlockNext s got => some (b.modify s (·.unlock), if got.isSome then .idle else .look s)

/-! ### Threads -/

/-- A bus and its threads. -/
structure World (ι : Type) where
  bus : Bus ι
  threads : ι → Pc

/-- A step of a thread of it. -/
def step [DecidableEq ι] (w : World ι) (a : Turn ι) : Option (World ι) :=
  (act a w.bus (w.threads a.thread)).map fun r =>
    ⟨r.1, Function.update w.threads a.thread r.2⟩

/-- A new bus, and its threads. -/
def machine (ι : Type) [DecidableEq ι] : Machine (World ι) (Turn ι) where
  init := ⟨{}, fun _ => .idle⟩
  step := step

/-! ### What a subscriber is for -/

/-- A thread that publishes has an event for a subscriber that has not come to it. -/
def Pc.Coming (subscribers : List Nat) (s n : Nat) : Pc → Prop
  | .clone p | .lockFor p _ _ | .check p _ _ | .trim p _ _ | .append p _ _ =>
    p.copy.serial = n ∧ s ∈ subscribers.drop p.index
  | .unlockFor p _ => p.copy.serial = n ∧ s ∈ subscribers.drop (p.index + 1)
  | _ => False

/-- A thread that publishes is at a subscriber. -/
def Pc.At (s : Nat) : Pc → Prop
  | .lockFor _ t _ | .check _ t _ | .trim _ t _ | .append _ t _ | .unlockFor _ t => t = s
  | _ => False

/-- An event was published while a subscriber was on the list. -/
def Bus.Subscribed (b : Bus ι) (s n : Nat) : Prop :=
  (∃ k, (b.heap s).joined = some k ∧ k ≤ n) ∧ n < (b.heap s).left.getD b.published.length

/-- **A subscriber sees an ordered stream.** -/
structure Stream (w : World ι) (s : Nat) : Prop where
  bounded : (w.bus.heap s).queue.length ≤ maxQueue
  /-- What `next` gives out is in the order it was published in, each event once, -/
  ordered : (w.bus.heap s).received.Pairwise fun c d => c.serial < d.serial
  /-- and a copy of an event that was published while it was subscribed. -/
  genuine : ∀ c ∈ (w.bus.heap s).received,
    w.bus.published[c.serial]? = some c.event ∧ w.bus.Subscribed s c.serial
  /-- The other events were dropped as the oldest of a full queue, lost to a failed allocation,
  or are still queued, or came to it when it was closed, or are still to come. -/
  accounted : ∀ n, w.bus.Subscribed s n → (∀ c ∈ (w.bus.heap s).received, c.serial ≠ n) →
    n ∈ (w.bus.heap s).dropped ∨ n ∈ (w.bus.heap s).failed ∨
      (∃ c ∈ (w.bus.heap s).queue, c.serial = n) ∨
      ((w.bus.heap s).closed = true ∧ n ∈ (w.bus.heap s).refused) ∨
      ∃ i, (w.threads i).Coming w.bus.subscribers s n
  /-- What was dropped is older than what is queued. -/
  oldest : ∀ n ∈ (w.bus.heap s).dropped, ∀ c ∈ (w.bus.heap s).queue, n < c.serial
  untouched : (w.bus.heap s).returned = true → ∀ i, ¬(w.threads i).At s

/-! ### What every run keeps -/

/-- A subscriber that is not on the list yet. -/
def Bus.Fresh (b : Bus ι) (s : Nat) : Prop := s < b.created ∧ (b.heap s).joined = none

/-- A thread has such a subscriber in hand. -/
def Pc.Fresh (s : Nat) : Pc → Prop
  | .joinLock t | .join t => t = s
  | _ => False

/-- The subscribers in `rest` are still to have the last event, the others have it. -/
structure Bus.Level (b : Bus ι) (c : Copy) (rest : List Nat) : Prop where
  last : c.serial + 1 = b.published.length
  event : b.published[c.serial]? = some c.event
  coming : ∀ s ∈ rest, (b.heap s).settled = c.serial
  done : ∀ s ∈ b.subscribers, s ∉ rest → (b.heap s).settled = b.published.length

/-- All subscribers have all events. -/
def Bus.Even (b : Bus ι) : Prop := ∀ s ∈ b.subscribers, (b.heap s).settled = b.published.length

/-- A thread that publishes is at a subscriber, with a copy for it. -/
structure Bus.Pushes (b : Bus ι) (i : ι) (p : Push) (s : Nat) (c : Copy) : Prop where
  mutex : b.mutex = some i
  level : b.Level p.copy (b.subscribers.drop p.index)
  at_ : b.subscribers[p.index]? = some s
  copy : c = p.copy

/-- What is known of a thread, where it is. -/
def Pc.Ok (b : Bus ι) (i : ι) : Pc → Prop
  | .idle | .create | .publishLock _ => True
  | .joinLock s => b.Fresh s
  | .join s => b.mutex = some i ∧ b.Fresh s
  | .joinUnlock s ok => b.mutex = some i ∧ (ok = true → (b.heap s).joined ≠ none)
  | .close s | .leaveLock s | .look s | .lockNext s => (b.heap s).issued = true
  | .leave s => b.mutex = some i ∧ (b.heap s).issued = true
  | .leaveUnlock s => b.mutex = some i ∧ (b.heap s).issued = true ∧ s ∉ b.subscribers
  | .clone p => b.mutex = some i ∧ b.Level p.copy (b.subscribers.drop p.index)
  | .lockFor p s c => b.Pushes i p s c
  | .check p s c | .trim p s c => b.Pushes i p s c ∧ (b.heap s).mutex = some i
  | .append p s c =>
    b.Pushes i p s c ∧ (b.heap s).mutex = some i ∧ (b.heap s).queue.length < maxQueue
  | .unlockFor p s =>
    b.mutex = some i ∧ b.Level p.copy (b.subscribers.drop (p.index + 1)) ∧ s ∈ b.subscribers ∧
      (b.heap s).mutex = some i
  | .publishUnlock => b.mutex = some i
  | .take s | .unlockNext s _ => (b.heap s).mutex = some i ∧ (b.heap s).issued = true

/-- A thread publishes. -/
def Pc.Publishing : Pc → Prop
  | .clone _ | .lockFor _ _ _ | .check _ _ _ | .trim _ _ _ | .append _ _ _ | .unlockFor _ _ => True
  | _ => False

/-- What is known of a subscriber. -/
structure Bus.Keeps (b : Bus ι) (s : Nat) : Prop where
  sound : (b.heap s).Sound b.published
  blank : (b.heap s).joined = none → b.heap s = {}
  new : b.created ≤ s → (b.heap s).joined = none
  member : s ∈ b.subscribers → (b.heap s).joined ≠ none ∧ (b.heap s).left = none
  gone : (b.heap s).joined ≠ none → s ∉ b.subscribers →
    ∃ n, (b.heap s).left = some n ∧ (b.heap s).settled = n
  settled : (b.heap s).settled ≤ b.published.length
  issued : (b.heap s).issued = true → (b.heap s).joined ≠ none
  returned : (b.heap s).returned = true → (b.heap s).issued = true ∧ s ∉ b.subscribers

/-- **What every run keeps.** -/
structure Inv (w : World ι) : Prop where
  ok : ∀ i, (w.threads i).Ok w.bus i
  /-- No two threads have one subscriber to put on the list. -/
  unique : ∀ i j s, (w.threads i).Fresh s → (w.threads j).Fresh s → i = j
  nodup : w.bus.subscribers.Nodup
  level : (∀ i, ¬(w.threads i).Publishing) → w.bus.Even
  keeps : ∀ s, w.bus.Keeps s

theorem Pc.Ok.fresh {b : Bus ι} {i : ι} {pc : Pc} {s : Nat} (h : pc.Ok b i) (hs : pc.Fresh s) :
    b.Fresh s := by
  cases pc with
  | joinLock t => exact hs ▸ h
  | join t => exact hs ▸ h.2
  | _ => exact hs.elim

theorem Pc.Ok.publishing {b : Bus ι} {i : ι} {pc : Pc} (h : pc.Ok b i) (hpc : pc.Publishing) :
    b.mutex = some i := by
  cases pc with
  | clone | unlockFor => exact h.1
  | lockFor => exact Bus.Pushes.mutex h
  | check | trim | append => exact Bus.Pushes.mutex h.1
  | _ => exact hpc.elim

/-! ### What a step leaves alone -/

/-- What a step of one thread leaves another. -/
structure Spares (b b' : Bus ι) (j : ι) (pc : Pc) : Prop where
  bus : b.mutex = some j → b'.mutex = some j ∧ b'.subscribers = b.subscribers ∧
    b'.published = b.published ∧ ∀ s, (b'.heap s).settled = (b.heap s).settled
  lock : ∀ s, (b.heap s).mutex = some j →
    (b'.heap s).mutex = some j ∧ (b'.heap s).queue = (b.heap s).queue
  issued : ∀ s, (b.heap s).issued = true → (b'.heap s).issued = true
  joined : ∀ s, (b.heap s).joined ≠ none → (b'.heap s).joined ≠ none
  fresh : ∀ s, pc.Fresh s → b.Fresh s → b'.Fresh s

variable {b b' : Bus ι} {i j : ι} {pc : Pc} {p : Push} {s : Nat} {c : Copy} {rest : List Nat}

theorem Spares.level (h : Spares b b' j pc) (hj : b.mutex = some j) (hl : b.Level c rest) :
    b'.Level c rest := by
  obtain ⟨-, hsubs, hpub, hset⟩ := h.bus hj
  constructor
  · rw [hpub]
    exact hl.last
  · rw [hpub]
    exact hl.event
  · intro s hs
    rw [hset]
    exact hl.coming s hs
  · intro s hs hrest
    rw [hset, hpub]
    exact hl.done s (hsubs ▸ hs) hrest

theorem Spares.pushes (h : Spares b b' j pc) (hp : b.Pushes j p s c) : b'.Pushes j p s c := by
  obtain ⟨hmutex, hsubs, -, -⟩ := h.bus hp.mutex
  constructor
  · exact hmutex
  · rw [hsubs]
    exact h.level hp.mutex hp.level
  · rw [hsubs]
    exact hp.at_
  · exact hp.copy

/-- What is known of a thread stays known, whatever another does. -/
theorem Spares.ok (h : Spares b b' j pc) (hok : pc.Ok b j) : pc.Ok b' j := by
  cases pc with
  | idle | create | publishLock => trivial
  | joinLock s => exact h.fresh s rfl hok
  | join s => exact ⟨(h.bus hok.1).1, h.fresh s rfl hok.2⟩
  | joinUnlock s ok => exact ⟨(h.bus hok.1).1, fun ht => h.joined s (hok.2 ht)⟩
  | close s | leaveLock s | look s | lockNext s => exact h.issued s hok
  | leave s => exact ⟨(h.bus hok.1).1, h.issued s hok.2⟩
  | leaveUnlock s =>
    obtain ⟨hmutex, hsubs, -, -⟩ := h.bus hok.1
    exact ⟨hmutex, h.issued s hok.2.1, hsubs ▸ hok.2.2⟩
  | clone p =>
    obtain ⟨hmutex, hsubs, -, -⟩ := h.bus hok.1
    exact ⟨hmutex, hsubs ▸ h.level hok.1 hok.2⟩
  | lockFor p s c => exact h.pushes hok
  | check p s c | trim p s c => exact ⟨h.pushes hok.1, (h.lock s hok.2).1⟩
  | append p s c =>
    obtain ⟨hmutex, hqueue⟩ := h.lock s hok.2.1
    exact ⟨h.pushes hok.1, hmutex, hqueue ▸ hok.2.2⟩
  | unlockFor p s =>
    obtain ⟨hmutex, hsubs, -, -⟩ := h.bus hok.1
    exact ⟨hmutex, hsubs ▸ h.level hok.1 hok.2.1, hsubs ▸ hok.2.2.1, (h.lock s hok.2.2.2).1⟩
  | publishUnlock => exact (h.bus hok).1
  | take s | unlockNext s => exact ⟨(h.lock s hok.1).1, h.issued s hok.2⟩

theorem Spares.refl (b : Bus ι) (j : ι) (pc : Pc) : Spares b b j pc :=
  ⟨fun h => ⟨h, rfl, rfl, fun _ => rfl⟩, fun _ h => ⟨h, rfl⟩, fun _ h => h, fun _ h => h,
    fun _ _ h => h⟩

/-- A step that takes the lock of the bus or is taken by who has it. -/
theorem Spares.held (hmutex : b.mutex ≠ some j)
    (hheap : ∀ s, (b'.heap s).mutex = (b.heap s).mutex ∧ (b'.heap s).queue = (b.heap s).queue ∧
      (b'.heap s).joined = (b.heap s).joined ∧
      ((b.heap s).issued = true → (b'.heap s).issued = true))
    (hcreated : b.created ≤ b'.created) : Spares b b' j pc := by
  constructor
  · exact fun h => absurd h hmutex
  · intro s hs
    obtain ⟨hsame, hqueue, -, -⟩ := hheap s
    exact ⟨hsame.trans hs, hqueue⟩
  · exact fun s => (hheap s).2.2.2
  · exact fun s hs => (hheap s).2.2.1 ▸ hs
  · exact fun s _ hs => ⟨hs.1.trans_le hcreated, (hheap s).2.2.1.trans hs.2⟩

theorem Bus.heap_modify_self (b : Bus ι) (s : Nat) (f : Subscriber ι → Subscriber ι) :
    (b.modify s f).heap s = f (b.heap s) :=
  Function.update_self ..

theorem Bus.heap_modify_ne (b : Bus ι) {s t : Nat} (h : t ≠ s) (f : Subscriber ι → Subscriber ι) :
    (b.modify s f).heap t = b.heap t :=
  Function.update_of_ne h ..

/-- A subscriber is written to in what only concerns its queue. -/
theorem Spares.modify {f : Subscriber ι → Subscriber ι} (hkept : (b.heap s).Kept (f (b.heap s)))
    (hsettled : b.mutex = some j → (f (b.heap s)).settled = (b.heap s).settled)
    (hlock : (b.heap s).mutex = some j →
      (f (b.heap s)).mutex = some j ∧ (f (b.heap s)).queue = (b.heap s).queue) :
    Spares b (b.modify s f) j pc := by
  have hcases : ∀ t, (b.heap t).Kept ((b.modify s f).heap t) := by
    intro t
    by_cases hts : t = s
    · rw [hts, b.heap_modify_self]
      exact hkept
    · rw [b.heap_modify_ne hts]
      exact ⟨rfl, rfl, rfl, rfl⟩
  constructor
  · refine fun h => ⟨h, rfl, rfl, fun t => ?_⟩
    by_cases hts : t = s
    · rw [hts, b.heap_modify_self]
      exact hsettled h
    · rw [b.heap_modify_ne hts]
  · intro t ht
    by_cases hts : t = s
    · rw [hts] at ht ⊢
      rw [b.heap_modify_self]
      exact hlock ht
    · rw [b.heap_modify_ne hts]
      exact ⟨ht, rfl⟩
  · exact fun t h => (hcases t).issued.trans h
  · exact fun t h => (hcases t).joined ▸ h
  · exact fun t _ h => ⟨h.1, (hcases t).joined.trans h.2⟩

/-! ### What is known of a subscriber -/

/-- More may be published, and the list may change for others. -/
theorem Bus.Keeps.same (h : b.Keeps s) (hheap : b'.heap s = b.heap s)
    (hsubs : s ∈ b'.subscribers ↔ s ∈ b.subscribers) (hcreated : b.created ≤ b'.created)
    (hpub : b'.published = b.published ∨ ∃ e, b'.published = b.published ++ [e]) :
    b'.Keeps s := by
  constructor
  · rw [hheap]
    rcases hpub with hpub | ⟨e, hpub⟩
    · rw [hpub]
      exact h.sound
    · rw [hpub]
      exact h.sound.publish e
  · rw [hheap]
    exact h.blank
  · rw [hheap]
    exact fun hs => h.new (hcreated.trans hs)
  · rw [hheap, hsubs]
    exact h.member
  · rw [hheap, hsubs]
    exact h.gone
  · have hlength : b.published.length ≤ b'.published.length := by
      rcases hpub with hpub | ⟨e, hpub⟩
      · rw [hpub]
      · rw [hpub, List.length_append]
        exact Nat.le_add_right _ _
    rw [hheap]
    exact h.settled.trans hlength
  · rw [hheap]
    exact h.issued
  · rw [hheap, hsubs]
    exact h.returned

theorem Bus.Keeps.modify {f : Subscriber ι → Subscriber ι} (h : ∀ t, b.Keeps t)
    (hkept : (b.heap s).Kept (f (b.heap s))) (hjoined : (b.heap s).joined ≠ none)
    (hsound : (f (b.heap s)).Sound b.published)
    (hsettled : (f (b.heap s)).settled ≤ b.published.length)
    (hgone : s ∉ b.subscribers → (f (b.heap s)).settled = (b.heap s).settled) (t : Nat) :
    (b.modify s f).Keeps t := by
  by_cases hts : t = s
  · rw [hts]
    have hs := h s
    have hself := b.heap_modify_self s f
    constructor <;> rw [hself]
    · exact hsound
    · rw [hkept.joined]
      exact fun hnone => absurd hnone hjoined
    · rw [hkept.joined]
      exact hs.new
    · rw [hkept.joined, hkept.left]
      exact hs.member
    · intro hj hnot
      obtain ⟨n, hleft, hn⟩ := hs.gone (hkept.joined ▸ hj) hnot
      exact ⟨n, hkept.left.trans hleft, (hgone hnot).trans hn⟩
    · exact hsettled
    · rw [hkept.issued, hkept.joined]
      exact hs.issued
    · rw [hkept.returned, hkept.issued]
      exact hs.returned
  · exact (h t).same (b.heap_modify_ne hts f) Iff.rfl le_rfl (.inl rfl)

/-! ### What is left after a step -/

section

variable [DecidableEq ι] {w : World ι} {pc' : Pc}

theorem Inv.after (hI : Inv w) (hok : pc'.Ok b' i)
    (hothers : ∀ j, j ≠ i → Spares w.bus b' j (w.threads j))
    (hfresh : ∀ s, pc'.Fresh s → (w.threads i).Fresh s ∨ w.bus.created ≤ s)
    (hnodup : b'.subscribers.Nodup)
    (hlevel : ¬pc'.Publishing → (∀ j, j ≠ i → ¬(w.threads j).Publishing) → b'.Even)
    (hkeeps : ∀ s, b'.Keeps s) : Inv ⟨b', Function.update w.threads i pc'⟩ := by
  have hself : Function.update w.threads i pc' i = pc' := Function.update_self ..
  have hother : ∀ j, j ≠ i → Function.update w.threads i pc' j = w.threads j :=
    fun j hj => Function.update_of_ne hj pc' w.threads
  -- What the thread has in hand now, no other has.
  have hnew : ∀ j, j ≠ i → ∀ s, pc'.Fresh s → ¬(w.threads j).Fresh s := by
    intro j hj s hs hjs
    rcases hfresh s hs with hold | hcreated
    · exact hj (hI.unique j i s hjs hold)
    · exact absurd ((hI.ok j).fresh hjs).1 (Nat.not_lt.2 hcreated)
  constructor
  · intro j
    by_cases hj : j = i
    · simp only [hj, hself, hok]
    · simp only [hother j hj]
      exact (hothers j hj).ok (hI.ok j)
  · intro j k s hjs hks
    by_cases hj : j = i <;> by_cases hk : k = i
    · rw [hj, hk]
    · simp only [hj, hself] at hjs
      simp only [hother k hk] at hks
      exact absurd hks (hnew k hk s hjs)
    · simp only [hother j hj] at hjs
      simp only [hk, hself] at hks
      exact absurd hjs (hnew j hj s hks)
    · simp only [hother j hj] at hjs
      simp only [hother k hk] at hks
      exact hI.unique j k s hjs hks
  · exact hnodup
  · intro h
    refine hlevel (fun hpc => h i ?_) fun j hj hpc => h j ?_
    · simpa only [hself] using hpc
    · simpa only [hother j hj] using hpc
  · exact hkeeps

/-- A subscriber is written to in what only concerns its queue, and nothing is published to it
if the settled events stay as they are. -/
theorem Inv.modify (hI : Inv w) {f : Subscriber ι → Subscriber ι}
    (hok : pc'.Ok (w.bus.modify s f) i) (hfresh : ∀ t, ¬pc'.Fresh t)
    (hkept : (w.bus.heap s).Kept (f (w.bus.heap s))) (hjoined : (w.bus.heap s).joined ≠ none)
    (hsound : (f (w.bus.heap s)).Sound w.bus.published)
    (hlock : (w.bus.heap s).mutex = none ∨ (w.bus.heap s).mutex = some i ∨
      ((f (w.bus.heap s)).mutex = (w.bus.heap s).mutex ∧
        (f (w.bus.heap s)).queue = (w.bus.heap s).queue))
    (hsettled : ((f (w.bus.heap s)).settled = (w.bus.heap s).settled ∧
        ((w.threads i).Publishing → pc'.Publishing)) ∨
      (w.bus.mutex = some i ∧ s ∈ w.bus.subscribers ∧ pc'.Publishing ∧
        (f (w.bus.heap s)).settled ≤ w.bus.published.length)) :
    Inv ⟨w.bus.modify s f, Function.update w.threads i pc'⟩ := by
  refine hI.after hok (fun j hj => Spares.modify hkept (fun hjm => ?_) fun hjm => ?_)
    (fun t ht => absurd ht (hfresh t)) hI.nodup (fun hnot hnone t ht => ?_)
    (Bus.Keeps.modify hI.keeps hkept hjoined hsound ?_ fun hgone => ?_)
  · rcases hsettled with hsame | hheld
    · exact hsame.1
    · exact absurd (Option.some.inj (hjm.symm.trans hheld.1)) hj
  · rcases hlock with hfree | hheld | hsame
    · exact absurd (hfree.symm.trans hjm) (by simp)
    · exact absurd (Option.some.inj (hjm.symm.trans hheld)) hj
    · exact ⟨hsame.1.trans hjm, hsame.2⟩
  · rcases hsettled with ⟨hsame, hpub⟩ | hheld
    · have heven : w.bus.Even := by
        refine hI.level fun j => ?_
        by_cases hj : j = i
        · exact hj ▸ fun h => hnot (hpub h)
        · exact hnone j hj
      by_cases hts : t = s
      · rw [hts, w.bus.heap_modify_self, hsame]
        exact heven s (hts ▸ ht)
      · rw [w.bus.heap_modify_ne hts]
        exact heven t ht
    · exact absurd hheld.2.2.1 hnot
  · rcases hsettled with hsame | hheld
    · exact hsame.1 ▸ (hI.keeps s).settled
    · exact hheld.2.2.2
  · rcases hsettled with hsame | hheld
    · exact hsame.1
    · exact absurd hheld.2.1 hgone

/-- Nothing is written. -/
theorem Inv.stay (hI : Inv w) (hok : pc'.Ok w.bus i) (hfresh : ∀ t, ¬pc'.Fresh t)
    (hlevel : ((w.threads i).Publishing → pc'.Publishing) ∨ w.bus.Even) :
    Inv ⟨w.bus, Function.update w.threads i pc'⟩ := by
  refine hI.after hok (fun j _ => .refl w.bus j _) (fun t ht => absurd ht (hfresh t)) hI.nodup
    (fun hnot hnone => ?_) hI.keeps
  rcases hlevel with hpub | heven
  · refine hI.level fun j => ?_
    by_cases hj : j = i
    · exact hj ▸ fun h => hnot (hpub h)
    · exact hnone j hj
  · exact heven

/-! ### The steps of `subscribe` and `unsubscribe` -/

omit [DecidableEq ι] in
/-- Only who has the lock publishes. -/
theorem Inv.even (hI : Inv w) (h : ∀ j, (w.threads j).Publishing → w.bus.mutex ≠ some j) :
    w.bus.Even :=
  hI.level fun j hj => h j hj ((hI.ok j).publishing hj)

omit [DecidableEq ι] in
theorem Inv.even_of_held (hI : Inv w) (hmutex : w.bus.mutex = some i)
    (hpc : ¬(w.threads i).Publishing) : w.bus.Even := by
  refine hI.even fun j hj hheld => hpc ?_
  exact Option.some.inj (hmutex.symm.trans hheld) ▸ hj

omit [DecidableEq ι] in
theorem Inv.even_of_free (hI : Inv w) (hmutex : w.bus.mutex = none) : w.bus.Even :=
  hI.even fun j _ hheld => absurd (hmutex.symm.trans hheld) (by simp)

theorem Inv.create (hI : Inv w) (hpc : w.threads i = .create) :
    Inv ⟨{ w.bus with created := w.bus.created + 1 },
      Function.update w.threads i (.joinLock w.bus.created)⟩ := by
  have hle : w.bus.created ≤ w.bus.created + 1 := Nat.le_succ _
  refine hI.after ⟨Nat.lt_succ_self _, (hI.keeps _).new le_rfl⟩ (fun j _ => ?_)
    (fun s hs => .inr (Nat.le_of_eq hs)) hI.nodup (fun _ hnone => ?_)
    fun s => (hI.keeps s).same rfl Iff.rfl hle (.inl rfl)
  · exact ⟨fun h => ⟨h, rfl, rfl, fun _ => rfl⟩, fun _ h => ⟨h, rfl⟩, fun _ h => h, fun _ h => h,
      fun _ _ h => ⟨h.1.trans_le hle, h.2⟩⟩
  · refine hI.level fun j => ?_
    by_cases hj : j = i
    · rw [hj, hpc]
      exact id
    · exact hnone j hj

/-- The lock of the bus is taken. -/
theorem Inv.acquire (hI : Inv w) (hfree : w.bus.mutex = none)
    (hok : pc'.Ok { w.bus with mutex := some i } i)
    (hfresh : ∀ s, pc'.Fresh s → (w.threads i).Fresh s) :
    Inv ⟨{ w.bus with mutex := some i }, Function.update w.threads i pc'⟩ :=
  hI.after hok
    (fun j _ => .held (by simp [hfree]) (fun _ => ⟨rfl, rfl, rfl, fun h => h⟩) le_rfl)
    (fun s hs => .inl (hfresh s hs)) hI.nodup (fun _ _ => hI.even_of_free hfree)
    fun s => (hI.keeps s).same rfl Iff.rfl le_rfl (.inl rfl)

/-- A subscriber is put on the list. -/
theorem Inv.join (hI : Inv w) (hpc : w.threads i = .join s) :
    Inv ⟨{ w.bus.modify s (·.join w.bus.published.length) with
        subscribers := w.bus.subscribers ++ [s] },
      Function.update w.threads i (.joinUnlock s true)⟩ := by
  have hok := hI.ok i
  rw [hpc] at hok
  obtain ⟨hmutex, hcreated, hjoined⟩ := hok
  have hblank := (hI.keeps s).blank hjoined
  have hnot : s ∉ w.bus.subscribers := fun hs => ((hI.keeps s).member hs).1 hjoined
  have heven := hI.even_of_held hmutex (by simp [hpc, Pc.Publishing])
  have hself := w.bus.heap_modify_self s (·.join w.bus.published.length)
  have hother : ∀ t, t ≠ s →
      (w.bus.modify s (·.join w.bus.published.length)).heap t = w.bus.heap t :=
    fun t hts => w.bus.heap_modify_ne hts _
  rw [hblank] at hself
  refine hI.after ⟨hmutex, fun _ => ?_⟩ (fun j hj => ?_) (fun _ h => h.elim) ?_ (fun _ _ t ht => ?_)
    fun t => ?_
  · show ((w.bus.modify s (·.join w.bus.published.length)).heap s).joined ≠ none
    rw [hself]
    exact Option.some_ne_none _
  · constructor
    · exact fun h => absurd (Option.some.inj (hmutex.symm.trans h)).symm hj
    · intro t ht
      by_cases hts : t = s
      · rw [hts, hblank] at ht
        exact absurd ht (by simp)
      · simp only [hother t hts, and_true]
        exact ht
    · intro t ht
      by_cases hts : t = s
      · rw [hts, hblank] at ht
        exact absurd ht (by simp)
      · simpa only [hother t hts] using ht
    · intro t ht
      by_cases hts : t = s
      · rw [hts] at ht
        exact absurd hjoined ht
      · simpa only [hother t hts] using ht
    · intro t hfresh ht
      by_cases hts : t = s
      · exact absurd (hI.unique j i s (hts ▸ hfresh) (by rw [hpc]; rfl)) hj
      · exact ⟨ht.1, by simpa only [hother t hts] using ht.2⟩
  · exact List.nodup_append.2 ⟨hI.nodup, List.nodup_singleton s,
      fun t ht u hu => by rw [List.mem_singleton.1 hu]; exact fun h => hnot (h ▸ ht)⟩
  · by_cases hts : t = s
    · show ((w.bus.modify s (·.join w.bus.published.length)).heap t).settled = _
      rw [hts, hself]
      rfl
    · simp only [hother t hts]
      exact heven t ((List.mem_append.1 ht).resolve_right fun h => hts (List.mem_singleton.1 h))
  · by_cases hts : t = s
    · rw [hts]
      constructor <;> simp only [hself]
      · exact .join _
      · exact fun h => absurd h (by simp [Subscriber.join])
      · exact fun h => absurd hcreated (Nat.not_lt.2 h)
      · exact fun _ => ⟨by simp [Subscriber.join], rfl⟩
      · exact fun _ h => absurd (List.mem_append_right _ List.mem_cons_self) h
      · exact le_rfl
      · exact fun h => absurd h (by simp [Subscriber.join])
      · exact fun h => absurd h (by simp [Subscriber.join])
    · refine (hI.keeps t).same (hother t hts) ?_ le_rfl (.inl rfl)
      simp only [List.mem_append, List.mem_singleton, hts, or_false]

/-- A subscriber is taken off the list. -/
theorem Inv.leave (hI : Inv w) (hpc : w.threads i = .leave s) (hs : s ∈ w.bus.subscribers) :
    Inv ⟨{ w.bus.modify s (·.leave w.bus.published.length) with
        subscribers := w.bus.subscribers.erase s },
      Function.update w.threads i (.leaveUnlock s)⟩ := by
  have hok := hI.ok i
  rw [hpc] at hok
  obtain ⟨hmutex, hissued⟩ := hok
  have heven := hI.even_of_held hmutex (by simp [hpc, Pc.Publishing])
  have hself := w.bus.heap_modify_self s (·.leave w.bus.published.length)
  have hother : ∀ t, t ≠ s →
      (w.bus.modify s (·.leave w.bus.published.length)).heap t = w.bus.heap t :=
    fun t hts => w.bus.heap_modify_ne hts _
  have hnot : s ∉ w.bus.subscribers.erase s := hI.nodup.not_mem_erase
  refine hI.after ⟨hmutex, ?_, hnot⟩ (fun j hj => .held ?_ (fun t => ?_) le_rfl)
    (fun _ h => h.elim) (hI.nodup.erase s) (fun _ _ t ht => ?_) fun t => ?_
  · show ((w.bus.modify s (·.leave w.bus.published.length)).heap s).issued = true
    rw [hself]
    exact hissued
  · exact fun h => hj (Option.some.inj (hmutex.symm.trans h)).symm
  · by_cases hts : t = s
    · rw [hts]
      simp only [hself]
      exact ⟨rfl, rfl, rfl, fun h => h⟩
    · simp only [hother t hts]
      exact ⟨trivial, trivial, trivial, fun h => h⟩
  · have hts : t ≠ s := fun h => hnot (h ▸ ht)
    simp only [hother t hts]
    exact heven t (List.mem_of_mem_erase ht)
  · by_cases hts : t = s
    · rw [hts]
      have hkeeps := hI.keeps s
      constructor <;> simp only [hself]
      · exact hkeeps.sound.leave _
      · exact fun h => absurd h (hkeeps.member hs).1
      · exact hkeeps.new
      · exact fun h => absurd h hnot
      · exact fun _ _ => ⟨_, rfl, heven s hs⟩
      · exact hkeeps.settled
      · exact hkeeps.issued
      · exact fun h => absurd hs (hkeeps.returned h).2
    · refine (hI.keeps t).same (hother t hts) ?_ le_rfl (.inl rfl)
      exact List.mem_erase_of_ne hts

/-- The lock of the bus is given back, and it may be noted that a function returns. -/
theorem Inv.release (hI : Inv w) {f : Subscriber ι → Subscriber ι} (hmutex : w.bus.mutex = some i)
    (hpc : ¬(w.threads i).Publishing) (hjoined : (w.bus.heap s).joined ≠ none)
    (hf : ∃ issued returned, f (w.bus.heap s) =
        { w.bus.heap s with issued := issued, returned := returned } ∧
      ((w.bus.heap s).issued = true → issued = true) ∧
      (returned = true → issued = true ∧ s ∉ w.bus.subscribers)) :
    Inv ⟨{ w.bus.modify s f with mutex := none }, Function.update w.threads i .idle⟩ := by
  obtain ⟨issued, returned, hf, hissued, hreturned⟩ := hf
  have heven := hI.even_of_held hmutex hpc
  have hself := w.bus.heap_modify_self s f
  rw [hf] at hself
  have hother : ∀ t, t ≠ s → (w.bus.modify s f).heap t = w.bus.heap t :=
    fun t hts => w.bus.heap_modify_ne hts f
  refine hI.after trivial (fun j hj => .held ?_ (fun t => ?_) le_rfl) (fun _ h => h.elim) hI.nodup
    (fun _ _ t ht => ?_) fun t => ?_
  · exact fun h => hj (Option.some.inj (hmutex.symm.trans h)).symm
  · by_cases hts : t = s
    · rw [hts]
      simp only [hself]
      exact ⟨trivial, trivial, trivial, hissued⟩
    · simp only [hother t hts]
      exact ⟨trivial, trivial, trivial, fun h => h⟩
  · by_cases hts : t = s
    · rw [hts]
      simp only [hself]
      exact heven s (hts ▸ ht)
    · simp only [hother t hts]
      exact heven t ht
  · by_cases hts : t = s
    · rw [hts]
      have hkeeps := hI.keeps s
      constructor <;> simp only [hself]
      · exact { hkeeps.sound with }
      · exact fun h => absurd h hjoined
      · exact hkeeps.new
      · exact hkeeps.member
      · exact hkeeps.gone
      · exact hkeeps.settled
      · exact fun _ => hjoined
      · exact hreturned
    · exact (hI.keeps t).same (hother t hts) Iff.rfl le_rfl (.inl rfl)

/-- The lock of the bus is given back. -/
theorem Inv.unlock (hI : Inv w) (hmutex : w.bus.mutex = some i)
    (hpc : ¬(w.threads i).Publishing) :
    Inv ⟨{ w.bus with mutex := none }, Function.update w.threads i .idle⟩ :=
  hI.after trivial
    (fun _ hj => .held (fun h => hj (Option.some.inj (hmutex.symm.trans h)).symm)
      (fun _ => ⟨rfl, rfl, rfl, fun h => h⟩) le_rfl)
    (fun _ h => h.elim) hI.nodup (fun _ _ => hI.even_of_held hmutex hpc)
    fun s => (hI.keeps s).same rfl Iff.rfl le_rfl (.inl rfl)

/-! ### The steps of `publish` -/

theorem Inv.publish (hI : Inv w) (e : Event) (hfree : w.bus.mutex = none) :
    Inv ⟨{ w.bus with mutex := some i, published := w.bus.published ++ [e] },
      Function.update w.threads i (.clone ⟨⟨w.bus.published.length, e⟩, 0⟩)⟩ := by
  have heven := hI.even_of_free hfree
  have hlevel : Bus.Level { w.bus with mutex := some i, published := w.bus.published ++ [e] }
      ⟨w.bus.published.length, e⟩ w.bus.subscribers := by
    constructor
    · show w.bus.published.length + 1 = (w.bus.published ++ [e]).length
      rw [List.length_append, List.length_singleton]
    · exact List.getElem?_concat_length ..
    · exact heven
    · exact fun s hs hnot => absurd hs hnot
  exact hI.after ⟨rfl, hlevel⟩
    (fun j _ => .held (by simp [hfree]) (fun _ => ⟨rfl, rfl, rfl, fun h => h⟩) le_rfl)
    (fun _ h => h.elim) hI.nodup (fun hnot => absurd trivial hnot)
    fun s => (hI.keeps s).same rfl Iff.rfl le_rfl (.inr ⟨e, rfl⟩)

omit [DecidableEq ι] in
/-- The subscriber a publisher is at has not had the event. -/
theorem Bus.Level.settled (h : b.Level c (b.subscribers.drop p.index))
    (hat : b.subscribers[p.index]? = some s) : (b.heap s).settled = c.serial := by
  refine h.coming s (List.mem_iff_getElem?.2 ⟨0, ?_⟩)
  rw [List.getElem?_drop]
  exact hat

omit [DecidableEq ι] in
/-- When it has had it, the publisher goes on. -/
theorem Bus.Level.next (h : b.Level c (b.subscribers.drop p.index)) (hnodup : b.subscribers.Nodup)
    (hat : b.subscribers[p.index]? = some s) {f : Subscriber ι → Subscriber ι}
    (hf : (f (b.heap s)).settled = c.serial + 1) :
    (b.modify s f).Level c (b.subscribers.drop (p.index + 1)) := by
  obtain ⟨hlt, hget⟩ := List.getElem?_eq_some_iff.1 hat
  have hdrop : b.subscribers.drop p.index = s :: b.subscribers.drop (p.index + 1) := by
    rw [List.drop_eq_getElem_cons hlt, hget]
  have hnot : s ∉ b.subscribers.drop (p.index + 1) :=
    (List.nodup_cons.1 (hdrop ▸ hnodup.drop)).1
  constructor
  · exact h.last
  · exact h.event
  · intro t ht
    have hts : t ≠ s := fun hts => hnot (hts ▸ ht)
    rw [b.heap_modify_ne hts]
    exact h.coming t (hdrop ▸ List.mem_cons_of_mem s ht)
  · intro t ht hrest
    by_cases hts : t = s
    · rw [hts, b.heap_modify_self, hf]
      exact h.last
    · rw [b.heap_modify_ne hts]
      refine h.done t ht ?_
      rw [hdrop, List.mem_cons, not_or]
      exact ⟨hts, hrest⟩

omit [DecidableEq ι] in
/-- What is known of a publisher is not about the queue. -/
theorem Bus.Level.modify (h : b.Level c rest) {f : Subscriber ι → Subscriber ι}
    (hf : (f (b.heap s)).settled = (b.heap s).settled) : (b.modify s f).Level c rest := by
  have hsame : ∀ t, ((b.modify s f).heap t).settled = (b.heap t).settled := by
    intro t
    by_cases hts : t = s
    · rw [hts, b.heap_modify_self, hf]
    · rw [b.heap_modify_ne hts]
  exact ⟨h.last, h.event, fun t ht => (hsame t).trans (h.coming t ht),
    fun t ht hrest => (hsame t).trans (h.done t ht hrest)⟩

omit [DecidableEq ι] in
theorem Bus.Pushes.modify (h : b.Pushes i p s c) {f : Subscriber ι → Subscriber ι}
    (hf : (f (b.heap s)).settled = (b.heap s).settled) : (b.modify s f).Pushes i p s c :=
  ⟨h.mutex, h.level.modify hf, h.at_, h.copy⟩

omit [DecidableEq ι] in
theorem Bus.Pushes.mem (h : b.Pushes i p s c) : s ∈ b.subscribers := List.mem_of_getElem? h.at_

/-- A subscriber has had the event, or been passed over. -/
theorem Inv.push (hI : Inv w) (hp : w.bus.Pushes i p s c) {f : Subscriber ι → Subscriber ι}
    (hpc' : pc'.Publishing)
    (hok : (w.bus.modify s f).mutex = some i →
      (w.bus.modify s f).Level p.copy (w.bus.subscribers.drop (p.index + 1)) →
      pc'.Ok (w.bus.modify s f) i)
    (hkept : (w.bus.heap s).Kept (f (w.bus.heap s)))
    (hsound : (f (w.bus.heap s)).Sound w.bus.published)
    (hsettled : (f (w.bus.heap s)).settled = p.copy.serial + 1)
    (hlock : (w.bus.heap s).mutex = some i ∨ ((f (w.bus.heap s)).mutex = (w.bus.heap s).mutex ∧
      (f (w.bus.heap s)).queue = (w.bus.heap s).queue)) :
    Inv ⟨w.bus.modify s f, Function.update w.threads i pc'⟩ := by
  refine hI.modify (hok hp.mutex (hp.level.next hI.nodup hp.at_ hsettled)) (fun t => ?_) hkept
    ((hI.keeps s).member hp.mem).1 hsound (.inr hlock) (.inr ⟨hp.mutex, hp.mem, hpc', ?_⟩)
  · cases pc' with
    | joinLock | join => exact hpc'.elim
    | _ => exact id
  · rw [hsettled, hp.level.last]

/-- A step of a publisher. -/
theorem Inv.step_publish (hI : Inv w) {a : Turn ι} (hpc : (w.threads a.thread).Publishing)
    (hact : act a w.bus (w.threads a.thread) = some (b', pc')) :
    Inv ⟨b', Function.update w.threads a.thread pc'⟩ := by
  have hok := hI.ok a.thread
  cases hpc' : w.threads a.thread with
  | clone p =>
    rw [hpc'] at hact hok
    obtain ⟨hmutex, hlevel⟩ := hok
    rw [act] at hact
    split at hact
    · next hat =>
      obtain ⟨rfl, rfl⟩ := Prod.mk.inj (Option.some.inj hact)
      refine hI.stay hmutex (fun _ => id) (.inr fun s hs => hlevel.done s hs ?_)
      rw [List.drop_eq_nil_of_le (List.getElem?_eq_none_iff.1 hat)]
      exact List.not_mem_nil
    · next s hat =>
      have hp : w.bus.Pushes a.thread p s p.copy := ⟨hmutex, hlevel, hat, rfl⟩
      have hserial := hlevel.settled hat
      split at hact
      · obtain ⟨rfl, rfl⟩ := Prod.mk.inj (Option.some.inj hact)
        refine hI.push hp trivial (fun hm hl => ⟨hm, hl⟩) ⟨rfl, rfl, rfl, rfl⟩ ?_ rfl
          (.inr ⟨rfl, rfl⟩)
        rw [← hserial]
        exact (hI.keeps s).sound.skip
      · next e hclone =>
        obtain ⟨rfl, rfl⟩ := Prod.mk.inj (Option.some.inj hact)
        rw [Event.eq_of_clone hclone]
        exact hI.stay hp (fun _ => id) (.inl fun _ => trivial)
  | lockFor p s c =>
    rw [hpc'] at hact hok
    have hp : w.bus.Pushes a.thread p s c := hok
    rw [act, Option.ite_none_right_eq_some, Option.some.injEq, Prod.mk.injEq] at hact
    obtain ⟨hfree, rfl, rfl⟩ := hact
    refine hI.modify ⟨hp.modify rfl, ?_⟩ (fun _ => id) ⟨rfl, rfl, rfl, rfl⟩
      ((hI.keeps s).member hp.mem).1 ((hI.keeps s).sound.lock _)
      (.inl (Option.isNone_iff_eq_none.1 hfree)) (.inl ⟨rfl, fun _ => trivial⟩)
    rw [w.bus.heap_modify_self]
    rfl
  | check p s c =>
    rw [hpc'] at hact hok
    obtain ⟨hp, hlock⟩ := hok
    have hserial := hp.level.settled hp.at_
    rw [act] at hact
    split at hact
    · next hclosed =>
      obtain ⟨rfl, rfl⟩ := Prod.mk.inj (Option.some.inj hact)
      refine hI.push hp trivial (fun hm hl => ⟨hm, hl, hp.mem, ?_⟩) ⟨rfl, rfl, rfl, rfl⟩ ?_ ?_
        (.inl hlock)
      · rw [w.bus.heap_modify_self]
        exact hlock
      · rw [hp.copy, ← hserial]
        exact (hI.keeps s).sound.refuse hclosed
      · rw [hp.copy]
        rfl
    · obtain ⟨rfl, rfl⟩ := Prod.mk.inj (Option.some.inj hact)
      exact hI.stay ⟨hp, hlock⟩ (fun _ => id) (.inl fun _ => trivial)
  | trim p s c =>
    rw [hpc'] at hact hok
    obtain ⟨hp, hlock⟩ := hok
    obtain ⟨rfl, rfl⟩ := Prod.mk.inj (Option.some.inj hact)
    refine hI.modify ⟨hp.modify (by simp), ?_, ?_⟩ (fun _ => id) (.trim _)
      ((hI.keeps s).member hp.mem).1 (hI.keeps s).sound.trim (.inr (.inl hlock))
      (.inl ⟨by simp, fun _ => trivial⟩)
    · rw [w.bus.heap_modify_self]
      simpa using hlock
    · rw [w.bus.heap_modify_self]
      exact (hI.keeps s).sound.trim_lt
  | append p s c =>
    rw [hpc'] at hact hok
    obtain ⟨hp, hlock, hroom⟩ := hok
    have hserial := hp.level.settled hp.at_
    obtain ⟨rfl, rfl⟩ := Prod.mk.inj (Option.some.inj hact)
    refine hI.push hp trivial (fun hm hl => ⟨hm, hl, hp.mem, ?_⟩) (.append _ _ _) ?_ ?_
      (.inl hlock)
    · rw [w.bus.heap_modify_self]
      simpa using hlock
    · rw [hp.copy]
      exact (hI.keeps s).sound.append hserial.symm hp.level.event hroom _
    · rw [hp.copy]
      simp
  | unlockFor p s =>
    rw [hpc'] at hact hok
    obtain ⟨hmutex, hlevel, hs, hlock⟩ := hok
    obtain ⟨rfl, rfl⟩ := Prod.mk.inj (Option.some.inj hact)
    exact hI.modify ⟨hmutex, hlevel.modify rfl⟩ (fun _ => id) ⟨rfl, rfl, rfl, rfl⟩
      ((hI.keeps s).member hs).1 (hI.keeps s).sound.unlock (.inr (.inl hlock))
      (.inl ⟨rfl, fun _ => trivial⟩)
  | _ =>
    rw [hpc'] at hpc
    exact hpc.elim

/-! ### The steps of `next`, and a whole step -/

/-- A step of a thread that is in `next`, or at the flag. -/
theorem Inv.step_next (hI : Inv w) {a : Turn ι}
    (hpc : ∃ s, w.threads a.thread = .close s ∨ w.threads a.thread = .look s ∨
      w.threads a.thread = .lockNext s ∨ w.threads a.thread = .take s ∨
      ∃ got, w.threads a.thread = .unlockNext s got)
    (hact : act a w.bus (w.threads a.thread) = some (b', pc')) :
    Inv ⟨b', Function.update w.threads a.thread pc'⟩ := by
  have hok := hI.ok a.thread
  obtain ⟨s, hpc | hpc | hpc | hpc | ⟨got, hpc⟩⟩ := hpc
  · rw [hpc] at hact hok
    obtain ⟨rfl, rfl⟩ := Prod.mk.inj (Option.some.inj hact)
    refine hI.modify ?_ (fun _ => id) ⟨rfl, rfl, rfl, rfl⟩ ((hI.keeps s).issued hok)
      (hI.keeps s).sound.close (.inr (.inr ⟨rfl, rfl⟩)) (.inl ⟨rfl, fun h => ?_⟩)
    · show ((w.bus.modify s (·.close)).heap s).issued = true
      rw [w.bus.heap_modify_self]
      exact hok
    · rw [hpc] at h
      exact h
  · rw [hpc] at hact hok
    have hold : ¬(w.threads a.thread).Publishing := by
      rw [hpc]
      exact id
    rw [act] at hact
    split at hact
    · obtain ⟨rfl, rfl⟩ := Prod.mk.inj (Option.some.inj hact)
      exact hI.stay trivial (fun _ => id) (.inl fun h => absurd h hold)
    · obtain ⟨rfl, rfl⟩ := Prod.mk.inj (Option.some.inj hact)
      exact hI.stay hok (fun _ => id) (.inl fun h => absurd h hold)
  · rw [hpc] at hact hok
    rw [act, Option.ite_none_right_eq_some, Option.some.injEq, Prod.mk.injEq] at hact
    obtain ⟨hfree, rfl, rfl⟩ := hact
    have hself := w.bus.heap_modify_self s (·.lock a.thread)
    refine hI.modify ⟨?_, ?_⟩ (fun _ => id) ⟨rfl, rfl, rfl, rfl⟩ ((hI.keeps s).issued hok)
      ((hI.keeps s).sound.lock _) (.inl (Option.isNone_iff_eq_none.1 hfree))
      (.inl ⟨rfl, fun h => ?_⟩)
    · rw [hself]
      rfl
    · rw [hself]
      exact hok
    · rw [hpc] at h
      exact h
  · rw [hpc] at hact hok
    obtain ⟨hlock, hissued⟩ := hok
    obtain ⟨rfl, rfl⟩ := Prod.mk.inj (Option.some.inj hact)
    have hself := w.bus.heap_modify_self s (·.take)
    refine hI.modify ⟨?_, ?_⟩ (fun _ => id) (.take _) ((hI.keeps s).issued hissued)
      (hI.keeps s).sound.take (.inr (.inl hlock)) (.inl ⟨by simp, fun h => ?_⟩)
    · rw [hself]
      simpa using hlock
    · rw [hself, (Subscriber.Kept.take _).issued]
      exact hissued
    · rw [hpc] at h
      exact h
  · rw [hpc] at hact hok
    obtain ⟨hlock, hissued⟩ := hok
    obtain ⟨rfl, rfl⟩ := Prod.mk.inj (Option.some.inj hact)
    have hself := w.bus.heap_modify_self s (·.unlock)
    refine hI.modify ?_ ?_ ⟨rfl, rfl, rfl, rfl⟩ ((hI.keeps s).issued hissued)
      (hI.keeps s).sound.unlock (.inr (.inl hlock)) (.inl ⟨rfl, fun h => ?_⟩)
    · cases got with
      | some c => trivial
      | none =>
        show ((w.bus.modify s (·.unlock)).heap s).issued = true
        rw [hself]
        exact hissued
    · intro t
      cases got with
      | some c => exact id
      | none => exact id
    · rw [hpc] at h
      exact h.elim

/-- A step of a thread that has nothing to do, or is in `subscribe` or `unsubscribe`. -/
theorem Inv.step_list (hI : Inv w) {a : Turn ι} (hnot : ¬(w.threads a.thread).Publishing)
    (hact : act a w.bus (w.threads a.thread) = some (b', pc')) :
    Inv ⟨b', Function.update w.threads a.thread pc'⟩ := by
  have hok := hI.ok a.thread
  have hstay : ∀ {pc' : Pc}, pc'.Ok w.bus a.thread → (∀ t, ¬pc'.Fresh t) →
      Inv ⟨w.bus, Function.update w.threads a.thread pc'⟩ :=
    fun hok' hfresh => hI.stay hok' hfresh (.inl fun h => absurd h hnot)
  cases hpc : w.threads a.thread with
  | idle =>
    rw [hpc, act] at hact
    split at hact
    · obtain ⟨rfl, rfl⟩ := Prod.mk.inj (Option.some.inj hact)
      exact hstay trivial fun _ => id
    · rw [Option.ite_none_right_eq_some, Option.some.injEq, Prod.mk.injEq] at hact
      obtain ⟨hissued, rfl, rfl⟩ := hact
      exact hstay hissued fun _ => id
    · obtain ⟨rfl, rfl⟩ := Prod.mk.inj (Option.some.inj hact)
      exact hstay trivial fun _ => id
    · rw [Option.ite_none_right_eq_some, Option.some.injEq, Prod.mk.injEq] at hact
      obtain ⟨hissued, rfl, rfl⟩ := hact
      exact hstay hissued fun _ => id
  | create =>
    rw [hpc, act] at hact
    split at hact
    · obtain ⟨rfl, rfl⟩ := Prod.mk.inj (Option.some.inj hact)
      exact hI.create hpc
    · obtain ⟨rfl, rfl⟩ := Prod.mk.inj (Option.some.inj hact)
      exact hstay trivial fun _ => id
  | joinLock s =>
    rw [hpc] at hok
    rw [hpc, act, Option.ite_none_right_eq_some, Option.some.injEq, Prod.mk.injEq] at hact
    obtain ⟨hfree, rfl, rfl⟩ := hact
    refine hI.acquire (Option.isNone_iff_eq_none.1 hfree) ⟨rfl, hok⟩ fun t ht => ?_
    rw [hpc]
    exact ht
  | join s =>
    rw [hpc] at hok
    rw [hpc, act] at hact
    split at hact
    · obtain ⟨rfl, rfl⟩ := Prod.mk.inj (Option.some.inj hact)
      exact hI.join hpc
    · obtain ⟨rfl, rfl⟩ := Prod.mk.inj (Option.some.inj hact)
      exact hstay ⟨hok.1, fun h => absurd h (by simp)⟩ fun _ => id
  | joinUnlock s ok =>
    rw [hpc] at hok
    rw [hpc, act] at hact
    split at hact
    · next hjoined =>
      obtain ⟨rfl, rfl⟩ := Prod.mk.inj (Option.some.inj hact)
      exact hI.release hok.1 hnot (hok.2 hjoined)
        ⟨true, (w.bus.heap s).returned, rfl, fun _ => rfl,
          fun h => ⟨rfl, ((hI.keeps s).returned h).2⟩⟩
    · obtain ⟨rfl, rfl⟩ := Prod.mk.inj (Option.some.inj hact)
      exact hI.unlock hok.1 hnot
  | leaveLock s =>
    rw [hpc] at hok
    rw [hpc, act, Option.ite_none_right_eq_some, Option.some.injEq, Prod.mk.injEq] at hact
    obtain ⟨hfree, rfl, rfl⟩ := hact
    exact hI.acquire (Option.isNone_iff_eq_none.1 hfree) ⟨rfl, hok⟩ fun t => False.elim
  | leave s =>
    rw [hpc] at hok
    rw [hpc, act] at hact
    split at hact
    · next hs =>
      obtain ⟨rfl, rfl⟩ := Prod.mk.inj (Option.some.inj hact)
      exact hI.leave hpc (List.contains_iff_mem.1 hs)
    · next hs =>
      obtain ⟨rfl, rfl⟩ := Prod.mk.inj (Option.some.inj hact)
      exact hstay ⟨hok.1, hok.2, fun h => hs (List.contains_iff_mem.2 h)⟩ fun _ => id
  | leaveUnlock s =>
    rw [hpc] at hok
    rw [hpc] at hact
    obtain ⟨rfl, rfl⟩ := Prod.mk.inj (Option.some.inj hact)
    exact hI.release hok.1 hnot ((hI.keeps s).issued hok.2.1)
      ⟨(w.bus.heap s).issued, true, rfl, fun h => h, fun _ => hok.2⟩
  | publishLock e =>
    rw [hpc, act, Option.ite_none_right_eq_some, Option.some.injEq, Prod.mk.injEq] at hact
    obtain ⟨hfree, rfl, rfl⟩ := hact
    exact hI.publish e (Option.isNone_iff_eq_none.1 hfree)
  | publishUnlock =>
    rw [hpc] at hok
    rw [hpc] at hact
    obtain ⟨rfl, rfl⟩ := Prod.mk.inj (Option.some.inj hact)
    exact hI.unlock hok hnot
  | clone | lockFor | check | trim | append | unlockFor =>
    rw [hpc] at hnot
    exact absurd trivial hnot
  | close s => exact hI.step_next ⟨s, .inl hpc⟩ hact
  | look s => exact hI.step_next ⟨s, .inr (.inl hpc)⟩ hact
  | lockNext s => exact hI.step_next ⟨s, .inr (.inr (.inl hpc))⟩ hact
  | take s => exact hI.step_next ⟨s, .inr (.inr (.inr (.inl hpc)))⟩ hact
  | unlockNext s got => exact hI.step_next ⟨s, .inr (.inr (.inr (.inr ⟨got, hpc⟩)))⟩ hact

theorem Inv.step (hI : Inv w) {a : Turn ι} {w' : World ι} (h : EventBus.step w a = some w') :
    Inv w' := by
  obtain ⟨⟨b', pc'⟩, hact, rfl⟩ := Option.map_eq_some_iff.1 h
  by_cases hpc : (w.threads a.thread).Publishing
  · exact hI.step_publish hpc hact
  · exact hI.step_list hpc hact

/-- **In every run.** -/
theorem inv_of_reachable (h : (machine ι).Reachable w) : Inv w := by
  refine Machine.Reaches.invariant ?_ (fun s a t hs _ hst => hs.step hst) h
  exact
    { ok := fun _ => trivial
      unique := fun _ _ _ h => h.elim
      nodup := List.nodup_nil
      level := fun _ s hs => absurd hs List.not_mem_nil
      keeps := fun s =>
        { sound := .empty
          blank := fun _ => rfl
          new := fun _ => rfl
          member := fun hs => absurd hs List.not_mem_nil
          gone := fun h => absurd rfl h
          settled := le_rfl
          issued := fun h => absurd h Bool.false_ne_true
          returned := fun h => absurd h Bool.false_ne_true } }

end

/-! ### The stream -/

theorem Bus.Level.mem_rest (h : b.Level c rest) (hs : s ∈ b.subscribers) {n : Nat}
    (hn : (b.heap s).settled ≤ n) (hlt : n < b.published.length) : c.serial = n ∧ s ∈ rest := by
  have hrest : s ∈ rest := by
    by_contra hnot
    exact absurd hlt (Nat.not_lt.2 ((h.done s hs hnot) ▸ hn))
  have hserial := h.coming s hrest
  have hlast := h.last
  exact ⟨by omega, hrest⟩

/-- An event that is not settled is still to come. -/
theorem Pc.Ok.coming (h : pc.Ok b i) (hpc : pc.Publishing) (hs : s ∈ b.subscribers) {n : Nat}
    (hn : (b.heap s).settled ≤ n) (hlt : n < b.published.length) :
    pc.Coming b.subscribers s n := by
  cases pc with
  | clone p => exact h.2.mem_rest hs hn hlt
  | lockFor p t c => exact (Bus.Pushes.level h).mem_rest hs hn hlt
  | check p t c | trim p t c | append p t c => exact h.1.level.mem_rest hs hn hlt
  | unlockFor p t => exact h.2.1.mem_rest hs hn hlt
  | _ => exact hpc.elim

theorem Pc.Ok.mem_of_at (h : pc.Ok b i) (hpc : pc.At s) : s ∈ b.subscribers := by
  cases pc with
  | lockFor p t c => exact hpc ▸ List.mem_of_getElem? (Bus.Pushes.at_ h)
  | check p t c | trim p t c | append p t c => exact hpc ▸ List.mem_of_getElem? h.1.at_
  | unlockFor p t => exact hpc ▸ h.2.2.1
  | _ => exact hpc.elim

variable {w : World ι}

/-- What was settled was published while the subscriber was on the list. -/
theorem Bus.Keeps.subscribed (h : b.Keeps s) {n : Nat} (hjoined : (b.heap s).joined ≠ none)
    (hfrom : (b.heap s).joined.getD 0 ≤ n) (huntil : n < (b.heap s).settled) :
    b.Subscribed s n := by
  obtain ⟨k, hk⟩ := Option.ne_none_iff_exists'.1 hjoined
  refine ⟨⟨k, hk, by rwa [hk] at hfrom⟩, ?_⟩
  by_cases hs : s ∈ b.subscribers
  · rw [(h.member hs).2]
    exact huntil.trans_le h.settled
  · obtain ⟨m, hleft, hsettled⟩ := h.gone hjoined hs
    rw [hleft]
    exact hsettled ▸ huntil

theorem Inv.accounted (hI : Inv w) {n : Nat} (hn : w.bus.Subscribed s n)
    (hnot : ∀ c ∈ (w.bus.heap s).received, c.serial ≠ n) :
    n ∈ (w.bus.heap s).dropped ∨ n ∈ (w.bus.heap s).failed ∨
      (∃ c ∈ (w.bus.heap s).queue, c.serial = n) ∨
      ((w.bus.heap s).closed = true ∧ n ∈ (w.bus.heap s).refused) ∨
      ∃ i, (w.threads i).Coming w.bus.subscribers s n := by
  obtain ⟨⟨k, hk, hkn⟩, huntil⟩ := hn
  have hkeeps := hI.keeps s
  have hjoined : (w.bus.heap s).joined ≠ none := by simp [hk]
  rcases Nat.lt_or_ge n (w.bus.heap s).settled with hsettled | hsettled
  · rcases hkeeps.sound.told n (by rwa [hk]) hsettled with ⟨c, hc, hcn⟩ | hd | hf | hr
    · rcases List.mem_append.1 hc with hc | hc
      · exact absurd hcn (hnot c hc)
      · exact .inr (.inr (.inl ⟨c, hc, hcn⟩))
    · exact .inl hd
    · exact .inr (.inl hf)
    · have hclosed := hkeeps.sound.closing (List.ne_nil_of_mem hr)
      exact .inr (.inr (.inr (.inl ⟨hclosed, hr⟩)))
  · -- What is not settled is still to come, since nothing is once the subscriber has left.
    have hs : s ∈ w.bus.subscribers := by
      by_contra hs
      obtain ⟨m, hleft, hm⟩ := hkeeps.gone hjoined hs
      rw [hleft, ← hm] at huntil
      exact absurd huntil (Nat.not_lt.2 hsettled)
    rw [(hkeeps.member hs).2] at huntil
    by_cases hpc : ∃ i, (w.threads i).Publishing
    · obtain ⟨i, hi⟩ := hpc
      exact .inr (.inr (.inr (.inr ⟨i, (hI.ok i).coming hi hs hsettled huntil⟩)))
    · have heven := hI.level (not_exists.1 hpc) s hs
      exact absurd huntil (Nat.not_lt.2 (heven ▸ hsettled))

/-- **Every subscriber sees an ordered stream**, in every run of any number of threads. -/
theorem stream_holds (ι : Type) [DecidableEq ι] (w : World ι) (h : (machine ι).Reachable w)
    (s : Nat) : Stream w s := by
  have hI := inv_of_reachable h
  have hsound := (hI.keeps s).sound
  constructor
  · exact hsound.bounded
  · exact (List.pairwise_append.1 hsound.ordered).1
  · intro c hc
    obtain ⟨hfrom, huntil, hevent⟩ := hsound.genuine c (List.mem_append_left _ hc)
    have hjoined : (w.bus.heap s).joined ≠ none := by
      intro hnone
      rw [(hI.keeps s).blank hnone] at hc
      exact absurd hc List.not_mem_nil
    exact ⟨hevent, (hI.keeps s).subscribed hjoined hfrom huntil⟩
  · exact fun n => hI.accounted
  · exact fun n hn => (hsound.oldest n hn).2
  · exact fun hreturned i hat => ((hI.keeps s).returned hreturned).2 ((hI.ok i).mem_of_at hat)

/-- An event for the runs below. -/
def note : Event := ⟨[], [], [], 1, 0, [], 0, []⟩

/-- A thread subscribes, another publishes, and the first takes the event with `next`. -/
def delivery : List (Turn Bool) :=
  List.replicate 5 { thread := true } ++
  List.replicate 9 { thread := false, op := .publish note } ++
  List.replicate 5 { thread := true, op := .next 0 }

theorem stream_holds_delivery : ∃ w : World Bool,
    (w.bus.heap 0).received = [⟨0, note⟩] ∧ Stream w 0 := by
  have hrun : (((machine Bool).run (machine Bool).init delivery).map fun w =>
      (w.bus.heap 0).received) = some [⟨0, note⟩] := by rfl
  obtain ⟨w, hw, hreceived⟩ := Option.map_eq_some_iff.1 hrun
  exact ⟨w, hreceived, stream_holds Bool w (Machine.reachable_of_run hw) 0⟩

/-- The event is published while the subscriber is on the list and open, and the subscriber is
closed before the push has come to its queue. -/
def closing : List (Turn Bool) :=
  List.replicate 5 { thread := true } ++
  List.replicate 2 { thread := false, op := .publish note } ++
  List.replicate 2 { thread := true, op := .unsubscribe 0 } ++
  List.replicate 6 { thread := false } ++ List.replicate 3 { thread := true }

theorem not_accounted_closing : ¬∀ (w : World Bool) (s n : Nat), (machine Bool).Reachable w →
    (∀ i, w.threads i = .idle) → w.bus.Subscribed s n →
    (∃ c ∈ (w.bus.heap s).received, c.serial = n) ∨ n ∈ (w.bus.heap s).dropped ∨
      n ∈ (w.bus.heap s).failed ∨ ∃ c ∈ (w.bus.heap s).queue, c.serial = n := by
  intro h
  have hrun : (((machine Bool).run (machine Bool).init closing).map fun w =>
      (w.threads true, w.threads false, w.bus.heap 0, w.bus.published)) =
      some (.idle, .idle,
        { mutex := none, closed := true, refused := [0], joined := some 0, left := some 1,
          settled := 1, issued := true, returned := true }, [note]) := by rfl
  obtain ⟨w, hw, hprops⟩ := Option.map_eq_some_iff.1 hrun
  simp only [Prod.mk.injEq] at hprops
  obtain ⟨htrue, hfalse, hheap, hpublished⟩ := hprops
  have hidle : ∀ i, w.threads i = .idle := by
    intro i
    cases i with
    | true => exact htrue
    | false => exact hfalse
  have hsub : w.bus.Subscribed 0 0 := by
    rw [Bus.Subscribed, hheap]
    exact ⟨⟨0, rfl, le_rfl⟩, Nat.zero_lt_one⟩
  have hlost := h w 0 0 (Machine.reachable_of_run hw) hidle hsub
  rw [hheap] at hlost
  simp at hlost

end Zponder.EventBus

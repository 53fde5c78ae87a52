import Zponder.CacheSync
import Zponder.Delivery

/-!
# What the functions of the indexer may change

A `Scope` is a bound on the effects of a program, part by part: what may become of
the tables (transactions or not), of the memory, of the logs handed over, of the
number of requests. The lemmas of this file follow the call graph once: a function
stays within every scope that tolerates the statements below it. What a result needs
to know of a function it does not look into – that a scan leaves the stored hashes
alone, that a delivery leaves the log cache alone – is then a choice of scope, checked
by `rfl`.
-/

namespace Zponder

open Imperative Prog Conn

/-- A bound on the effects of a program. -/
structure Scope where
  tables : Frame Tables
  mem : Frame Mem
  handed : Frame (List Log)
  requests : Frame Nat
  children : Frame (List Child) := .keeping id
  rollbacks : Frame (List Nat) := .keeping id

/-- The bound on worlds. Time does not go back. -/
structure Scope.Rel (S : Scope) (w w' : World) : Prop where
  tables : (Linked S.tables).rel w.conn w'.conn
  mem : S.mem.rel w.mem w'.mem
  handed : S.handed.rel w.handed w'.handed
  requests : S.requests.rel w.requests w'.requests
  children : S.children.rel w.children w'.children
  rollbacks : S.rollbacks.rel w.rollbacks w'.rollbacks
  now : w.now ≤ w'.now

namespace Scope

variable {S : Scope}

/-- The bound, whatever becomes of a transaction. -/
def loose (S : Scope) : Frame World :=
  .through S.Rel
    (fun _ => ⟨(Linked S.tables).refl _, S.mem.refl _, S.handed.refl _, S.requests.refl _,
      S.children.refl _, S.rollbacks.refl _, Nat.le_refl _⟩)
    fun h₁ h₂ => ⟨(Linked S.tables).trans h₁.tables h₂.tables, S.mem.trans h₁.mem h₂.mem,
      S.handed.trans h₁.handed h₂.handed, S.requests.trans h₁.requests h₂.requests,
      S.children.trans h₁.children h₂.children, S.rollbacks.trans h₁.rollbacks h₂.rollbacks,
      h₁.now.trans h₂.now⟩

end Scope

/-- No transaction is left open. A death closes it anyway. -/
def calm : Frame World :=
  .alive (fun w w' => w.Quiet → w'.Quiet) (fun _ => id) fun h₁ h₂ => h₂ ∘ h₁

theorem within_calm {ε α : Type} {p : Prog World ε α} (h : ∀ w : World, w.Quiet →
    Meets p w ⟨fun _ => World.Quiet, fun _ => World.Quiet, fun _ => True⟩) : Within calm p :=
  fun w => by
    by_cases hw : w.Quiet
    · exact (h w hw).mono (fun _ _ h _ => h) (fun _ _ h _ => h) fun _ _ => trivial
    · exact (meets_trivial p w).mono (fun _ _ _ h => absurd h hw) (fun _ _ _ h => absurd h hw)
        fun _ _ => trivial

namespace Scope

variable {S : Scope}

/-- The bound on the functions of the indexer: they close what they open. -/
def frame (S : Scope) : Frame World := S.loose.and calm

/-- A change of the connection. -/
theorem rel_conn {w : World} {c : Conn Tables} (h : (Linked S.tables).rel w.conn c) :
    S.Rel w { w with conn := c } :=
  ⟨h, S.mem.refl _, S.handed.refl _, S.requests.refl _, S.children.refl _, S.rollbacks.refl _,
    Nat.le_refl _⟩

theorem rel_depth (w : World) (d : Nat) : S.frame.rel w { w with writeDepth := d } :=
  ⟨⟨(Linked S.tables).refl _, S.mem.refl _, S.handed.refl _, S.requests.refl _,
    S.children.refl _, S.rollbacks.refl _, Nat.le_refl _⟩, id⟩

theorem rel_mem {w : World} {m : Mem} (h : S.mem.rel w.mem m) :
    S.frame.rel w { w with mem := m } :=
  ⟨⟨(Linked S.tables).refl _, h, S.handed.refl _, S.requests.refl _, S.children.refl _,
    S.rollbacks.refl _, Nat.le_refl _⟩, id⟩

theorem rel_handed {w : World} {l : List Log} (h : S.handed.rel w.handed l) :
    S.frame.rel w { w with handed := l } :=
  ⟨⟨(Linked S.tables).refl _, S.mem.refl _, h, S.requests.refl _, S.children.refl _,
    S.rollbacks.refl _, Nat.le_refl _⟩, id⟩

theorem rel_ticked (w : World) : S.frame.rel w w.ticked :=
  ⟨⟨(Linked S.tables).refl _, S.mem.refl _, S.handed.refl _, S.requests.refl _,
    S.children.refl _, S.rollbacks.refl _, Nat.le_succ _⟩, id⟩

end Scope

/-! ### The primitives -/

section Primitives

variable {S : Scope} {env : Env} {cfg : Config} {α ε : Type}

theorem within_onConn {p : Prog (Conn Tables) ε α} (h : Within (Linked S.tables) p) :
    Within S.loose (onConn p) := fun w =>
  meets_onConn.2 ((h w.conn).mono (fun _ _ h => Scope.rel_conn h) (fun _ _ h => Scope.rel_conn h)
    fun _ h => Scope.rel_conn h)

theorem within_onConn_stmt {φ : Fault Err} {g : Tables → α × Tables}
    (h : ∀ t, S.tables.rel t (g t).2) :
    Within S.frame (onConn (stmt cfg.engine φ g)) := by
  refine within_and (within_onConn (within_stmt _ _ h)) (within_calm fun w hw => ?_)
  rw [meets_onConn, eq_quiet hw]
  refine meets_stmt_quiet.mono ?_ ?_ fun _ _ => trivial
  · rintro _ _ ⟨-, -, rfl⟩
    rfl
  · rintro _ _ ⟨-, rfl⟩
    rfl

theorem within_onConn_side {φ : Fault Err} {g : Tables → α} :
    Within S.frame (onConn (side φ g)) := by
  refine within_and (within_onConn (within_side _)) (within_calm fun w hw => ?_)
  rw [meets_onConn]
  cases φ
  · exact hw
  · exact hw
  · trivial

theorem within_onConn_vanish : Within S.frame (onConn (vanish : Prog _ ε α)) :=
  within_and (within_onConn within_vanish) fun _ => trivial

theorem within_exec {call : DbCall} {g : Tables → α × Tables}
    (h : ∀ t, S.tables.rel t (g t).2) : Within S.frame (exec env cfg call g) :=
  within_bind (within_read _) fun _ => within_onConn_stmt h

theorem within_execWrite {call : DbCall} {g : Tables → Tables} (h : ∀ t, S.tables.rel t (g t)) :
    Within S.frame (execWrite env cfg call g) :=
  within_exec h

theorem within_execRead {call : DbCall} {g : Tables → α} :
    Within S.frame (execRead env cfg call g) :=
  within_exec fun t => S.tables.refl t

theorem within_execScan {call : DbCall} {g : Tables → List α} :
    Within S.frame (execScan env cfg call g) :=
  within_bind (within_read _) fun _ => within_bind within_execRead fun _ => within_pure _

theorem within_execFind {call : DbCall} {g : Tables → Option α} :
    Within S.frame (execFind env cfg call g) :=
  within_bind within_execScan fun _ => within_pure _

theorem within_guarded {p : M α} (h : Within S.frame p) : Within S.frame (guarded p) :=
  within_bind (within_modify fun w => Scope.rel_depth w _) fun _ =>
    within_after h fun w => Scope.rel_depth w _

theorem within_beginWrite : Within S.loose (beginWrite env cfg) :=
  within_bind (within_modify fun w => (Scope.rel_depth w _).1) fun _ =>
    within_bind (within_read _) fun _ => within_onErr (within_onConn (within_begin _ _))
      (within_modify fun w => (Scope.rel_depth w _).1)

theorem within_commitWrite : Within S.loose (commitWrite env cfg) :=
  within_bind (within_read _) fun _ => within_bind (within_onConn (within_commit _ _)) fun _ =>
    within_modify fun w => (Scope.rel_depth w _).1

theorem within_rollbackWrite : Within S.loose (rollbackWrite env) :=
  within_bind (within_read _) fun _ => within_bind (within_onConn (within_rollback _)) fun _ =>
    within_modify fun w => (Scope.rel_depth w _).1

/-- A commit that goes through leaves no transaction. -/
theorem meets_commitWrite_quiet (w : World) :
    Meets (commitWrite env cfg) w ⟨fun _ w' => w'.Quiet, fun _ _ => True, fun _ => True⟩ := by
  simp only [commitWrite, meets_bind, meets_read, meets_onConn, meets_modify]
  unfold Meets commit World.Quiet leave
  rcases env.faultAt w.now .commitWrite with _ | e | _ <;> rcases hc : w.conn with ⟨t, _ | ⟨u, p⟩⟩
  · cases cfg.engine.poisons
    · trivial
    · rfl
  · cases p <;> rfl
  all_goals trivial

/-- Nor does a rollback. -/
theorem meets_rollbackWrite_quiet (w : World) :
    Meets (rollbackWrite env) w ⟨fun _ w' => w'.Quiet, fun e => e.elim, fun _ => True⟩ := by
  simp only [rollbackWrite, meets_bind, meets_read, meets_onConn, meets_modify]
  unfold Meets
  rcases rollback_eq (env.faultAt w.now .rollbackWrite) w.conn with h | h <;> rw [h]
  · rfl
  · trivial

theorem within_inTransaction {body : M Unit} (h : Within S.frame body) :
    Within S.frame (inTransaction env cfg body) := by
  refine within_and (within_after (within_bind within_beginWrite fun _ =>
    within_onErr (within_bind h.left fun _ => within_commitWrite) within_rollbackWrite)
    fun w => (Scope.rel_ticked w).1) (within_calm fun w hw => ?_)
  simp only [inTransaction, meets_after, meets_bind]
  refine (meets_beginWrite (eq_quiet hw)).mono (fun _ w₁ _ => ?_) ?_ fun _ _ => trivial
  · simp only [meets_onErr, meets_bind]
    refine (meets_trivial body w₁).mono (fun _ w₂ _ => ?_) (fun e w₂ _ => ?_) fun _ _ => trivial
    · exact (meets_commitWrite_quiet w₂).mono (fun _ _ h => h)
        (fun e w₃ _ => meets_rollbackWrite_quiet w₃) fun _ _ => trivial
    · exact meets_rollbackWrite_quiet w₂
  · rintro _ _ ⟨-, rfl⟩
    exact hw

theorem within_tick : Within S.frame tick := within_modify Scope.rel_ticked

theorem within_setMem {f : Mem → Mem} (h : ∀ m, S.mem.rel m (f m)) : Within S.frame (setMem f) :=
  within_modify fun w => Scope.rel_mem (h w.mem)

theorem within_getMem {f : Mem → α} : Within S.frame (getMem f) := within_read _

theorem within_ignoring {p : M Unit} (h : Within S.frame p) : Within S.frame (ignoring p) :=
  within_catching h fun _ => within_pure _

theorem within_askAside {answer : Nat → Outcome Err α} : Within S.frame (askAside answer) :=
  fun w => meets_askAside (fun _ => S.frame.refl w) (fun _ => S.frame.refl w)
    ⟨S.loose.refl w, trivial⟩

theorem within_ask {answer : Nat → Outcome Err α} : Within S.frame (ask answer) := fun w =>
  meets_ask (fun _ _ => Scope.rel_ticked w) (fun _ _ => Scope.rel_ticked w)
    fun _ => ⟨(Scope.rel_ticked w).1, trivial⟩

theorem within_askLogs {answer : Nat → Outcome Err α} (h : ∀ n, S.requests.rel n (n + 1)) :
    Within S.frame (askLogs answer) := fun w => by
  have hrel : S.Rel w w.asked := ⟨(Linked S.tables).refl _, S.mem.refl _, S.handed.refl _,
    h _, S.children.refl _, S.rollbacks.refl _, Nat.le_succ _⟩
  exact meets_askLogs (fun _ _ => ⟨hrel, id⟩) (fun _ _ => ⟨hrel, id⟩) fun _ => ⟨hrel, trivial⟩

end Primitives

/-! ### Deliveries -/

/-- A scope that tolerates the storing of an event of one block. -/
structure Scope.Stores (S : Scope) (b : Nat) : Prop where
  inserts : ∀ (t : Tables) r, r.blockNumber = b → S.tables.rel t (t.insertEvent r).2
  puts : ∀ (t : Tables) r, r.blockNumber = b → S.tables.rel t (t.putEvent r).2
  accounts : ∀ (t : Tables) a, S.tables.rel t { t with accounts := a }
  blocks : ∀ (t : Tables) b, S.tables.rel t { t with blocks := b }
  callback : ∀ (t : Tables) p c, S.tables.rel t { t with projs := p, callbacks := c }
  tsCache : ∀ (m : Mem) c, S.mem.rel m { m with blockTsCache := c }

/-- A scope that tolerates what a delivery does to the tables and the memory. -/
structure Scope.Records (S : Scope) : Prop where
  events : ∀ (t : Tables) e, S.tables.rel t { t with events := e }
  accounts : ∀ (t : Tables) a, S.tables.rel t { t with accounts := a }
  blocks : ∀ (t : Tables) b, S.tables.rel t { t with blocks := b }
  callback : ∀ (t : Tables) p c, S.tables.rel t { t with projs := p, callbacks := c }
  rawLogs : ∀ (t : Tables) r n, S.tables.rel t { t with rawLogs := r, nextRawId := n }
  tsCache : ∀ (m : Mem) c, S.mem.rel m { m with blockTsCache := c }

theorem Scope.Records.stores {S : Scope} (hS : S.Records) (b : Nat) : S.Stores b where
  inserts t r _ := by
    unfold Tables.insertEvent
    split
    · exact S.tables.refl t
    · exact hS.events t _
  puts t _ _ := hS.events t _
  accounts := hS.accounts
  blocks := hS.blocks
  callback := hS.callback
  tsCache := hS.tsCache

/-- A scope that tolerates deliveries. -/
structure Scope.Delivers (S : Scope) : Prop extends S.Records where
  handed : ∀ h l, S.handed.rel h (h ++ l)

section Delivery

variable {S : Scope} {env : Env} {cfg : Config}

theorem within_insertEventLog {n e : Text} {fs : List DecodedField} {b : Nat} (hS : S.Stores b)
    {h : Text} {i : Nat} {a : Text} : Within S.frame (insertEventLog env cfg n e fs b h i a) := by
  refine within_guarded (within_bind (within_read _) fun now => ?_)
  split
  · exact within_exec fun t => hS.puts t _ rfl
  · exact within_exec fun t => hS.inserts t _ rfl

theorem within_insertRawLog (hS : S.Records) {c : Text} {b : Nat} {h : Text} {i : Nat}
    {ts d r a : Text} : Within S.frame (insertRawLog env cfg c b h i ts d r a) := by
  unfold insertRawLog
  refine within_guarded ?_
  split
  · exact within_execWrite fun t => hS.rawLogs t _ t.nextRawId
  · refine within_execWrite fun t => ?_
    unfold Tables.insertRawLog
    split
    · exact S.tables.refl t
    · exact hS.rawLogs t _ _

theorem within_listRawLogs {k : Text} {l n : Nat} :
    Within S.frame (listRawLogs env cfg k l n) := by
  refine within_guarded ?_
  split
  · exact within_pure _
  · exact within_execScan

theorem within_deleteRawLog (hS : S.Records) {id : Nat} :
    Within S.frame (deleteRawLog env cfg id) := by
  refine within_guarded ?_
  split
  · exact within_pure _
  · exact within_execWrite fun t => hS.rawLogs t _ t.nextRawId

theorem within_bumpRawLogAttempt (hS : S.Records) {id r : Nat} :
    Within S.frame (bumpRawLogAttempt env cfg id r) := by
  refine within_guarded ?_
  split
  · exact within_pure _
  · exact within_execWrite fun t => hS.rawLogs t _ t.nextRawId

theorem within_balanceOf {i : Bool} {c a : Text} : Within S.frame (balanceOf env cfg i c a) := by
  refine within_bind (within_catching (within_guarded (within_bind (within_read _) fun now => ?_))
    fun _ => within_pure _) fun _ => within_pure _
  exact within_ite (fun _ => within_bind within_onConn_side fun _ => within_pure _)
    fun _ => within_execFind

theorem within_upsertAccountState {n : Nat} (hS : S.Stores n) {i : Bool} {c a : Text} {s : AccountState} :
    Within S.frame (upsertAccountState env cfg i c a s) :=
  within_guarded (within_execWrite fun t => hS.accounts t _)

theorem within_trackTokenTransferState {n : Nat} (hS : S.Stores n) {c : Text} {fs : List DecodedField}
    {b : Nat} : Within S.frame (trackTokenTransferState env cfg c fs b) := by
  have hdebit : ∀ a n, Within S.frame (debit env cfg c a n b) := fun a n =>
    within_bind within_balanceOf fun _ => within_ignoring (within_upsertAccountState hS)
  have hcredit : ∀ a n, Within S.frame (credit env cfg c a n b) := fun a n =>
    within_bind within_balanceOf fun _ => within_ite (fun _ => within_onConn_vanish)
      fun _ => within_ignoring (within_upsertAccountState hS)
  have hfor : ∀ (h : Option Text) f, (∀ a, Within S.frame (f a)) →
      Within S.frame (forAccount h f) := by
    rintro (_ | a) f hf
    · exact within_pure _
    · exact hf a
  refine within_bind within_getMem fun _ => within_ite (fun _ => within_pure _) fun _ => ?_
  split
  · exact within_pure _
  · exact within_bind (hfor _ _ fun a => hdebit a _) fun _ => hfor _ _ fun a => hcredit a _

theorem within_resolveBlockTimestamp {n : Nat} (hS : S.Stores n) {b : Nat} :
    Within S.frame (resolveBlockTimestamp env cfg b) := by
  have hremember : ∀ n ts, Within S.frame (rememberBlockTimestamp n ts) := fun _ _ =>
    within_setMem fun m => hS.tsCache m _
  refine within_ite (fun _ => within_pure _) fun _ => within_bind within_getMem fun cached => ?_
  split
  · exact within_pure _
  refine within_bind (within_catching (within_guarded within_execFind) fun _ => within_pure _)
    fun stored => ?_
  split
  · exact within_bind (hremember _ _) fun _ => within_pure _
  refine within_bind (within_catching within_askAside fun _ => within_pure _) fun data => ?_
  split
  · exact within_pure _
  · exact within_bind (within_ignoring (within_guarded (within_execWrite fun t => hS.blocks t _)))
      fun _ => within_bind (hremember _ _) fun _ => within_pure _

theorem within_runCallback {n : Nat} (hS : S.Stores n) {k : EventKey} {c : EventCall} {ts : Nat} :
    Within S.frame (runCallback env cfg k c ts) := by
  refine within_bind (within_read _) fun now => within_ite (fun _ => within_pure _) fun _ => ?_
  exact within_bind (within_ignoring (within_onConn_stmt fun t => hS.callback t _ _)) fun _ =>
    within_bind (within_ignoring (within_onConn_stmt fun t => S.tables.refl t)) fun _ =>
      within_pure _

/-- Without a transaction of its own, the storing of an event opens none. -/
theorem within_storeEvent_auto {lg : Log} (hS : S.Stores lg.blockNumber)
    (hg : cfg.guardTxn = false) {ev : Decoded} {ts : Nat} : Within S.frame (storeEvent env cfg ev lg ts) := by
  have hg' : ¬cfg.guardTxn = true := by simp [hg]
  refine within_bind (within_insertEventLog hS) fun _ => within_ite (fun _ => ?_) fun _ => by
    rw [when_of_not hg']
    exact within_pure _
  refine within_bind (within_when fun _ => within_trackTokenTransferState hS) fun _ =>
    within_bind (within_when fun _ => within_bind (within_runCallback hS) fun _ =>
      within_when fun _ => within_throw _) fun _ => ?_
  rw [when_of_not hg']
  exact within_pure _

theorem within_storeEvent {lg : Log} (hS : S.Stores lg.blockNumber) {ev : Decoded} {ts : Nat} :
    Within S.loose (storeEvent env cfg ev lg ts) :=
  within_bind (within_insertEventLog hS).left fun _ => within_ite (fun _ =>
    within_bind (within_when fun _ => (within_trackTokenTransferState hS).left) fun _ =>
      within_bind (within_when fun _ => within_bind (within_runCallback hS).left fun _ =>
        within_when fun _ => within_throw _) fun _ => within_when fun _ => within_commitWrite)
    fun _ => within_when fun _ => within_lift within_rollbackWrite

theorem within_recordEvent {lg : Log} (hS : S.Stores lg.blockNumber) {ev : Decoded} :
    Within S.frame (recordEvent env cfg ev lg) := by
  have hts : Within S.frame (callbackTimestamp env cfg lg.blockNumber) :=
    within_ite (fun _ => within_resolveBlockTimestamp hS) fun _ => within_pure _
  have hend : ∀ found, Within S.frame
      (Prog.when (found = false) (Prog.throw Err.factoryFailed)) := fun found =>
    within_when fun _ => within_throw _
  by_cases hg : cfg.guardTxn = true
  · refine within_and ?_ (within_calm fun w hw => ?_)
    · have hrollback : Within S.loose (Prog.when (cfg.guardTxn = true) (rollbackWrite env)) :=
        within_when fun _ => within_rollbackWrite
      exact within_bind hts.left fun ts => within_bind (within_when fun _ => within_beginWrite)
        fun _ => within_bind (within_onErr (within_storeEvent hS) hrollback) fun _ =>
          within_bind (within_read _) fun found => (hend found).left
    · refine (meets_recordEvent hg (eq_quiet hw)).mono ?_ ?_ fun _ _ => trivial
      · rintro _ w' ⟨h, -⟩
        exact h.quiet
      · rintro _ w' ⟨h, -⟩
        exact h.quiet
  · have hrollback : Within S.frame (Prog.when (cfg.guardTxn = true) (rollbackWrite env)) := by
      rw [when_of_not hg]
      exact within_pure _
    have hbegin : Within S.frame (Prog.when (cfg.guardTxn = true) (beginWrite env cfg)) := by
      rw [when_of_not hg]
      exact within_pure _
    exact within_bind hts fun ts => within_bind hbegin fun _ =>
      within_bind (within_onErr (within_storeEvent_auto hS (by simpa using hg)) hrollback)
        fun _ => within_bind (within_read _) fun found => hend found

/-- A log only brings events of its own block. -/
theorem within_processLog_stores {lg : Log} (hS : S.Stores lg.blockNumber)
    (hhanded : ∀ h l, S.handed.rel h (h ++ l)) : Within S.frame (processLog env cfg lg) := by
  refine within_bind (within_modify fun w => Scope.rel_handed (hhanded _ _)) fun _ => ?_
  split
  · exact within_throw _
  · exact within_pure _
  · exact within_recordEvent hS

theorem within_processLog (hS : S.Delivers) {lg : Log} :
    Within S.frame (processLog env cfg lg) :=
  within_processLog_stores (hS.toRecords.stores _) hS.handed

theorem within_recordFailedLog (hS : S.Records) {lg : Log} {r : Text} :
    Within S.frame (recordFailedLog env cfg lg r) :=
  within_ignoring (within_insertRawLog hS)

theorem within_deliver (hS : S.Delivers) {lg : Log} : Within S.frame (deliver env cfg lg) :=
  within_bind (within_catching (within_processLog hS) fun _ =>
    within_recordFailedLog hS.toRecords) fun _ => within_tick

theorem within_processFetchedLogs (hS : S.Delivers) {logs : List Log} :
    Within S.frame (processFetchedLogs env cfg logs) :=
  within_each fun _ _ => within_deliver hS

theorem within_retryDeadLetters (hS : S.Delivers) :
    Within S.frame (retryDeadLetters env cfg) := by
  refine within_ite (fun _ => within_pure _) fun _ => within_bind (within_read _) fun now =>
    within_bind (within_catching within_listRawLogs fun _ => within_pure _) fun rows =>
      within_each fun row _ => ?_
  refine within_bind (within_attempt (within_processLog hS)) fun result => ?_
  split
  · exact within_bind (within_ignoring (within_bumpRawLogAttempt hS.toRecords)) fun _ =>
      within_tick
  · exact within_bind (within_ignoring (within_deleteRawLog hS.toRecords)) fun _ => within_tick

end Delivery

/-! ### Scans -/

/-- A scope that tolerates requests and, with them, deliveries. -/
structure Scope.Pulls (S : Scope) : Prop extends S.Delivers where
  requests : ∀ n, S.requests.rel n (n + 1)

/-- A scope that tolerates what is written to the log cache. -/
structure Scope.Caches (S : Scope) : Prop where
  chainLogs : ∀ (t : Tables) l, S.tables.rel t { t with chainLogs := l }
  ranges : ∀ (t : Tables) r, S.tables.rel t { t with chainLogRanges := r }

/-- A scope that tolerates scans with and without the log cache. -/
structure Scope.Syncs (S : Scope) : Prop extends S.Pulls, S.Caches

section Scan

variable {S : Scope} {env : Env} {cfg : Config}

theorem within_getLogs (hS : ∀ n, S.requests.rel n (n + 1)) {f : LogFilter} :
    Within S.frame (getLogs env f) :=
  within_askLogs hS

theorem within_loadBlockReceipts (hS : ∀ n, S.requests.rel n (n + 1)) {as : List Text}
    {ts : Option (List Text)} {b : Nat} : Within S.frame (loadBlockReceipts env as ts b) :=
  within_bind (within_askLogs hS) fun _ => within_pure _

theorem within_consumeReceiptBlock (hS : S.Pulls) {as : List Text} {ts : Option (List Text)}
    {b : Nat} : Within S.frame (consumeReceiptBlock env cfg as ts b) :=
  within_bind (within_loadBlockReceipts hS.requests) fun _ =>
    within_processFetchedLogs hS.toDelivers

theorem within_appendBlockLogs (hS : ∀ n, S.requests.rel n (n + 1)) (as : List Text)
    (ts : Option (List Text)) (f t : Nat) : Within S.frame (appendBlockLogs env as ts f t) := by
  induction as, ts using split_induction f t with
  | step as ts ihA ihT =>
    rw [appendBlockLogs]
    split
    · exact within_pure _
    refine within_bind (within_attempt (within_getLogs hS)) fun answer => ?_
    split
    · exact within_ite (fun _ => within_loadBlockReceipts hS) fun _ => within_throw _
    refine within_ite (fun _ => ?_) fun _ =>
      within_ite (fun _ => within_throw _) fun _ => within_pure _
    split
    · next mid h =>
      exact within_bind (ihA mid h).1 fun _ => within_bind (ihA mid h).2 fun _ => within_pure _
    split
    · next l₁ l₂ h =>
      exact within_bind (ihT l₁ l₂ h).1 fun _ =>
        within_bind (ihT l₁ l₂ h).2 fun _ => within_pure _
    · exact within_ite (fun _ => within_loadBlockReceipts hS) fun _ => within_throw _

theorem within_pullUncached (hS : S.Pulls) (as : List Text) (ts : Option (List Text))
    (f t : Nat) : Within S.frame (pullUncached env cfg as ts f t) := by
  induction as, ts using split_induction f t with
  | step as ts ihA ihT =>
    rw [pullUncached]
    split
    · exact within_pure _
    refine within_bind (within_attempt (within_getLogs hS.requests)) fun answer => ?_
    split
    · exact within_ite (fun _ => within_consumeReceiptBlock hS) fun _ => within_throw _
    refine within_ite (fun _ => ?_) fun _ =>
      within_bind (within_processFetchedLogs hS.toDelivers) fun _ =>
        within_when fun _ => within_throw _
    split
    · next mid h => exact within_bind (ihA mid h).1 fun _ => (ihA mid h).2
    split
    · exact within_bind (within_appendBlockLogs hS.requests _ _ _ _) fun _ =>
        within_bind (within_appendBlockLogs hS.requests _ _ _ _) fun _ =>
          within_processFetchedLogs hS.toDelivers
    · exact within_ite (fun _ => within_consumeReceiptBlock hS) fun _ => within_throw _

theorem within_storeLogCacheBatch (hS : S.Caches) {c : Text} {as : List Text} {k : Text}
    {f t : Nat} {logs : List ChainLog} :
    Within S.frame (storeLogCacheBatch env cfg c as k f t logs) := by
  refine within_ite (fun _ => within_ite (fun _ => within_pure _) fun _ =>
    within_inTransaction ?_) fun _ => within_pure _
  refine within_bind (within_each fun x _ => within_ite (fun _ => within_pure _) fun _ =>
    within_execWrite fun t => ?_) fun _ => within_each fun x _ => ?_
  · unfold Tables.insertChainLog
    split
    · exact S.tables.refl t
    · exact hS.chainLogs t _
  · exact within_bind within_execScan fun _ =>
      within_bind (within_execWrite fun t => hS.ranges t _) fun _ =>
        within_execWrite fun t => hS.ranges t _

theorem within_loadChainLogs {c a : Text} {f t : Nat} :
    Within S.frame (loadChainLogs env cfg c a f t) :=
  within_guarded (within_ite (fun _ => within_execScan) fun _ => within_pure _)

theorem within_storeReceiptBlock (hS : S.Syncs) {as : List Text} {ts : Option (List Text)}
    {k : Text} {b : Nat} : Within S.frame (storeReceiptBlock env cfg as ts k b) :=
  within_bind (within_loadBlockReceipts hS.requests) fun _ =>
    within_bind (within_storeLogCacheBatch hS.toCaches) fun _ => within_processFetchedLogs hS.toDelivers

theorem within_replayCachedAddresses (hS : S.Delivers) {as : List Text}
    {ts : Option (List Text)} {f t : Nat} :
    Within S.frame (replayCachedAddresses env cfg as ts f t) :=
  within_bind (within_gather fun _ _ => within_loadChainLogs) fun _ =>
    within_each fun _ _ => within_deliver hS

theorem within_fetchStoreProcess (hS : S.Syncs) (as : List Text) (ts : Option (List Text))
    (k : Text) (f t : Nat) : Within S.frame (fetchStoreProcess env cfg as ts k f t) := by
  induction as, ts using split_induction f t with
  | step as ts ihA ihT =>
    rw [fetchStoreProcess]
    split
    · exact within_pure _
    refine within_bind (within_attempt (within_getLogs hS.requests)) fun answer => ?_
    split
    · exact within_ite (fun _ => within_storeReceiptBlock hS) fun _ => within_throw _
    refine within_ite (fun _ => ?_) fun _ => within_bind (within_storeLogCacheBatch hS.toCaches) fun _ =>
      within_bind (within_processFetchedLogs hS.toDelivers) fun _ =>
        within_when fun _ => within_throw _
    split
    · next mid h => exact within_bind (ihA mid h).1 fun _ => (ihA mid h).2
    split
    · exact within_bind (within_appendBlockLogs hS.requests _ _ _ _) fun _ =>
        within_bind (within_appendBlockLogs hS.requests _ _ _ _) fun _ =>
          within_bind (within_storeLogCacheBatch hS.toCaches) fun _ =>
            within_processFetchedLogs hS.toDelivers
    · exact within_ite (fun _ => within_storeReceiptBlock hS) fun _ => within_throw _

theorem within_syncHoles (hS : S.Syncs) {as : List Text} {ts : Option (List Text)} {k : Text}
    {t : Nat} : ∀ holes cursor, Within S.frame (syncHoles env cfg as ts k t holes cursor)
  | [], _ => within_when fun _ => within_replayCachedAddresses hS.toDelivers
  | _ :: holes, _ =>
    within_bind (within_when fun _ => within_replayCachedAddresses hS.toDelivers) fun _ =>
      within_bind (within_fetchStoreProcess hS _ _ _ _ _) fun _ =>
        within_when fun _ => within_syncHoles hS holes _

theorem within_groupByHoles {k : Text} {f t : Nat} :
    ∀ as groups, Within S.frame (groupByHoles env cfg k f t as groups)
  | [], _ => within_pure _
  | _ :: as, _ =>
    within_bind (within_guarded (within_bind
      (within_ite (fun _ => within_execScan) fun _ => within_pure _) fun _ => within_pure _))
      fun _ => within_groupByHoles as _

theorem within_syncRangeChunk (hS : S.Syncs) {as : List Text} {ts : Option (List Text)}
    {k : Text} {f t : Nat} : Within S.frame (syncRangeChunk env cfg as ts k f t) :=
  within_ite (fun _ => within_bind (within_groupByHoles _ _) fun _ =>
    within_each fun _ _ => within_syncHoles hS _ _) fun _ => within_pullUncached hS.toPulls _ _ _ _

/-- **A scan stays within every scope that tolerates scans.** -/
theorem within_syncRangeWithAddresses (hS : S.Syncs) {as : List Text} {f t : Nat} :
    Within S.frame (syncRangeWithAddresses env cfg as f t) :=
  within_ite (fun _ => within_pure _) fun _ => within_each fun _ _ => within_syncRangeChunk hS

theorem within_syncRange (hS : S.Syncs) {f t : Nat} : Within S.frame (syncRange env cfg f t) :=
  within_bind within_getMem fun _ => within_syncRangeWithAddresses hS

theorem within_rememberLiveLog (hS : S.Syncs) {lg : Log} :
    Within S.frame (rememberLiveLog env cfg lg) := by
  refine within_when fun _ => within_ignoring (within_guarded (within_ite (fun _ =>
    within_execWrite fun t => ?_) fun _ => within_pure _))
  unfold Tables.insertChainLog
  split
  · exact S.tables.refl t
  · exact hS.chainLogs t _

end Scan

end Zponder

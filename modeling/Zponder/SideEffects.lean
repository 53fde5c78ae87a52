import Zponder.Hook
import Zponder.Lib.Machine

/-!
# Side effects and committed events

A webhook row is put and an event is published while the transaction of the event is still
open, into places a rollback does not reach. So the outbox and the bus agree with the event
tables (`Zponder.Hook.Matched`) only as long as every event that gets as far as the hook is
committed afterwards, and every event that is committed has been through a hook. What can
go wrong in between is listed by `Zponder.Hook.Delivered`; an event may also be given up,
provided it has left no trace (`Zponder.Hook.Withdrawn`).
-/

namespace Zponder.Hook

open Imperative Prog Conn

/-! ### The correspondence -/

/-- The webhook rows an event calls for. -/
def due (rules : List Rule) (call : EventCall) : List OutboxRow :=
  rules.filterMap fun r =>
    if r.matched call = true then
      match r.action with
      | .webhookUrl url => some ⟨url, payload call⟩
      | _ => none
    else none

/-- The rows of the outbox are those the committed events call for, and the events
published are the committed ones; each once. -/
structure Matched (rules : List Rule) (h : Hub) : Prop where
  outbox : h.outbox.Perm (h.conn.committed.flatMap (due rules))
  published : h.published.Perm h.conn.committed

/-! ### Runs -/

/-- An indexer processes a log, just fetched or kept as a dead letter. -/
structure Attempt where
  env : HookEnv
  cfg : Config
  lg : Log

/-- What is left when the attempt is over, be it that the process has died. -/
def attempt (rules : List Rule) (a : Attempt) (h : Hub) : Hub :=
  let h' := (processLog a.env a.cfg rules a.lg h).2
  { h' with now := h'.now + 1 }

/-- The indexers of a configuration and what they share. -/
def indexers (rules : List Rule) : Machine Hub Attempt where
  init := {}
  step h a := some (attempt rules a h)

section Conditions

variable (rules : List Rule) (env : HookEnv) (cfg : Config) (call : EventCall) (h : Hub)

/-- The row of the event is inserted, and is new where the table can tell. -/
structure Stores : Prop where
  begins : cfg.guardTxn = true → env.faultAt h.now .beginWrite = .none
  inserts : env.faultAt h.now .insertEventLog = .none
  new : cfg.backend ≠ .rocksdb → ∀ c ∈ h.conn.committed, keyOf c ≠ keyOf call

/-- A statement whose failure nobody reports does no harm. -/
def Harmless (φ : Fault Err) : Prop := φ = .none ∨ Failed φ ∧ cfg.engine.poisons = false

/-- The statements of the balances of an event. -/
def balanceFaults : List (Fault Err) :=
  if call.eventName = "Transfer".toList ∧ env.replaying h.now = false then
    (balanceCalls call.fields).map (env.faultAt h.now)
  else []

/-- The outbox takes the row of the rule at index `i`. -/
def Enqueues (i : Nat) (url : Text) : Prop :=
  env.running h.now = true ∧ url ≠ [] ∧ env.enqueue h.now i = .none

/-- A rule calls for a row. -/
def Calls (i : Nat) (url : Text) : Prop :=
  ∃ r, (r, i) ∈ rules.zipIdx ∧ r.matched call = true ∧ r.action = .webhookUrl url

/-- The event goes through the hook and is committed. -/
structure Delivered : Prop where
  hooked : cfg.eventCallback = true
  new : cfg.backend = .rocksdb → ∀ c ∈ h.conn.committed, sameRow c call = false
  balances : ∀ φ ∈ balanceFaults env call h, Harmless cfg φ
  enqueued : ∀ i url, Calls rules call i url → Enqueues env h i url
  statements : cfg.backend ≠ .rocksdb → Harmless cfg ((env.handler h.now call).stmt.map Err.db)
  accepted : (env.handler h.now call).ok = true
  commits : cfg.guardTxn = true → env.faultAt h.now .commitWrite = .none

/-- The event is given up before anybody has heard of it: the process dies, or the handlers
refuse the event, and no row was put until then. -/
def Withdrawn : Prop :=
  cfg.guardTxn = true ∧
    (.crash ∈ balanceFaults env call h ∨
      (∀ i url, Calls rules call i url → ¬Enqueues env h i url) ∧
        ((∃ i url, Calls rules call i url ∧ env.running h.now = true ∧ url ≠ [] ∧
            env.enqueue h.now i = .crash) ∨
          (env.handler h.now call).stmt = .crash ∨ (env.handler h.now call).ok = false))

end Conditions

/-- **The condition** on an attempt: an event whose row is inserted is delivered or
withdrawn. -/
def Clean (rules : List Rule) (h : Hub) (a : Attempt) : Prop :=
  ∀ ev, classify a.cfg a.lg = .ok (some ev) →
    Stores a.env a.cfg (eventCall a.cfg ev a.lg) h →
      Delivered rules a.env a.cfg (eventCall a.cfg ev a.lg) h ∨
        Withdrawn rules a.env a.cfg (eventCall a.cfg ev a.lg) h

/-! ### Up to the hook -/

section Attempt

variable {rules : List Rule} {env : HookEnv} {cfg : Config} {call : EventCall} {h : Hub}
  {rows : List EventCall}

theorem meets_onStore {ε α : Type} {p : Prog (Conn (List EventCall)) ε α} {Φ : Post Hub ε α} :
    Meets (onStore p) h Φ ↔
      Meets p h.conn ⟨fun a c => Φ.ok a { h with conn := c },
        fun e c => Φ.err e { h with conn := c }, fun c => Φ.dead { h with conn := c }⟩ :=
  meets_zoom

/-- The tables with the row of a new event. -/
def withRow (cfg : Config) (call : EventCall) (rows : List EventCall) : List EventCall :=
  if cfg.backend = .rocksdb then rows.filter (fun c => !sameRow c call) ++ [call]
  else rows ++ [call]

/-- The connection at which the hook begins. -/
def entered (cfg : Config) (call : EventCall) (rows : List EventCall) : Conn (List EventCall) :=
  if cfg.guardTxn = true then opened rows (withRow cfg call rows)
  else quiet (withRow cfg call rows)

/-- What a failed attempt does on its way out. -/
abbrev thenRollback (env : HookEnv) (cfg : Config) (Q : Hub → Prop) : Post Hub Err Unit :=
  ⟨fun _ => Q, fun _ h => Meets (rollback env cfg) h ⟨fun _ => Q, fun e => e.elim, Q⟩, Q⟩

theorem guardTxn_sql (hg : cfg.guardTxn = true) : cfg.backend ≠ .rocksdb := by
  intro hb
  simp [Config.guardTxn, hb] at hg

theorem eq_of_quiet (hq : h.conn = quiet rows) : { h with conn := quiet rows } = h := by
  rw [← hq]

/-- The connection `storeEvent` begins with. -/
def begun (cfg : Config) (rows : List EventCall) : Conn (List EventCall) :=
  if cfg.guardTxn = true then opened rows rows else quiet rows

theorem lost_begun : (begun cfg rows).lost = quiet rows := by
  unfold begun
  split <;> rfl

theorem begun_stmt (g : List EventCall → Bool × List EventCall) :
    stmt cfg.engine .none g (begun cfg rows) =
      (.ok (g rows).1, if cfg.guardTxn = true then opened rows (g rows).2 else quiet (g rows).2) := by
  unfold begun
  split <;> rfl

/-- A connection on which `storeEvent` has not got far: a rollback restores the tables. -/
def Undoable (cfg : Config) (rows : List EventCall) (c : Conn (List EventCall)) : Prop :=
  if cfg.guardTxn = true then ∃ S R, InTxn rows S R c else c = quiet rows

theorem undoable_begun : Undoable cfg rows (begun cfg rows) := by
  unfold Undoable begun
  split
  · exact ⟨False, fun _ => True, inTxn_opened trivial⟩
  · rfl

theorem undoable_hurt : Undoable cfg rows ((begun cfg rows).hurt cfg.engine) := by
  unfold Undoable begun
  split
  · exact ⟨_, _, (inTxn_opened (P := fun _ => True) trivial).hurt cfg.engine⟩
  · rfl

theorem meets_rollback {Q : Hub → Prop} {c : Conn (List EventCall)} (hc : Undoable cfg rows c)
    (hsame : Q { h with conn := quiet rows }) :
    Meets (rollback env cfg) { h with conn := c } ⟨fun _ => Q, fun e => e.elim, Q⟩ := by
  rw [rollback, meets_read_bind]
  unfold Undoable at hc
  by_cases hg : cfg.guardTxn = true
  · rw [if_pos hg] at hc
    obtain ⟨S, R, hin⟩ := hc
    rw [when_of hg, meets_onStore]
    exact hin.meets_rollback hsame hsame
  · rw [if_neg hg] at hc
    rw [when_of_not hg, hc]
    exact hsame

/-- The insertion of an event, and what its answer says. -/
theorem meets_insertEventLog :
    Meets (insertEventLog env cfg call) { h with conn := begun cfg rows }
      ⟨fun new h' => env.faultAt h.now .insertEventLog = .none ∧
          (if new = true then
            (cfg.backend ≠ .rocksdb → ∀ c ∈ rows, keyOf c ≠ keyOf call) ∧
              h' = { h with conn := entered cfg call rows }
          else h' = { h with conn := begun cfg rows }),
        fun _ h' => h' = { h with conn := (begun cfg rows).hurt cfg.engine },
        fun h' => h' = { h with conn := quiet rows }⟩ := by
  have hsend : ∀ g : List EventCall → Bool × List EventCall,
      Meets (send env cfg .insertEventLog g) { h with conn := begun cfg rows }
        ⟨fun new h' => env.faultAt h.now .insertEventLog = .none ∧ new = (g rows).1 ∧
            h' = { h with conn := (if cfg.guardTxn = true then opened rows (g rows).2
              else quiet (g rows).2) },
          fun _ h' => h' = { h with conn := (begun cfg rows).hurt cfg.engine },
          fun h' => h' = { h with conn := quiet rows }⟩ := by
    intro g
    rw [send, meets_read_bind, meets_onStore]
    unfold Meets
    cases hφ : env.faultAt h.now .insertEventLog with
    | none =>
      rw [begun_stmt]
      exact ⟨rfl, rfl, rfl⟩
    | fail e => rfl
    | crash => exact congrArg (fun c => { h with conn := c }) lost_begun
  by_cases hb : cfg.backend = .rocksdb
  · have hput : insertEventLog env cfg call = send env cfg .insertEventLog fun t =>
        (true, t.filter (fun c => !sameRow c call) ++ [call]) := by
      simp only [insertEventLog, hb]
    rw [hput]
    refine (hsend _).mono ?_ (fun _ _ h => h) fun _ h => h
    rintro _ h' ⟨hφ, rfl, rfl⟩
    exact ⟨hφ, fun h => absurd hb h, by simp [entered, withRow, hb]⟩
  · have hins : insertEventLog env cfg call = send env cfg .insertEventLog fun t =>
        if t.any (fun c => keyOf c == keyOf call) then (false, t) else (true, t ++ [call]) := by
      cases hc : cfg.backend <;> simp_all [insertEventLog]
    rw [hins]
    refine (hsend _).mono ?_ (fun _ _ h => h) fun _ h => h
    rintro _ h' ⟨hφ, rfl, rfl⟩
    refine ⟨hφ, ?_⟩
    by_cases hk : rows.any (fun c => keyOf c == keyOf call) = true
    · simp [hk, begun]
    · simp only [if_neg hk, if_true, entered, withRow, if_neg hb, and_true]
      intro _ c hc heq
      exact hk (List.any_eq_true.2 ⟨c, hc, by simp [heq]⟩)

theorem meets_storeEvent {Q : Hub → Prop} (hsame : Q { h with conn := quiet rows })
    (hnew : env.faultAt h.now .insertEventLog = .none →
      (cfg.backend ≠ .rocksdb → ∀ c ∈ rows, keyOf c ≠ keyOf call) →
      Meets (storeNew env cfg rules call) { h with conn := entered cfg call rows }
        (thenRollback env cfg Q)) :
    Meets (storeEvent env cfg rules call) { h with conn := begun cfg rows }
      (thenRollback env cfg Q) := by
  rw [storeEvent, meets_bind]
  refine meets_insertEventLog.mono ?_ ?_ ?_
  · rintro new h' ⟨hφ, hcase⟩
    cases new with
    | true =>
      obtain ⟨hkey, rfl⟩ := hcase
      exact hnew hφ hkey
    | false =>
      obtain rfl := hcase
      exact meets_lift.2 (meets_rollback undoable_begun hsame)
  · rintro _ h' rfl
    exact meets_rollback undoable_hurt hsame
  · rintro h' rfl
    exact hsame

/-- **Up to the hook nothing is left behind**: an attempt keeps whatever the hub it finds
satisfies, if it does so from the hook on. -/
theorem meets_recordEvent {Q : Hub → Prop} (hq : h.conn = quiet rows) (hsame : Q h)
    (hnew : Stores env cfg call h → Meets (storeNew env cfg rules call)
      { h with conn := entered cfg call rows } (thenRollback env cfg Q)) :
    Meets (recordEvent env cfg rules call) h ⟨fun _ => Q, fun _ => Q, Q⟩ := by
  have hquiet : Q { h with conn := quiet rows } := (eq_of_quiet hq).symm ▸ hsame
  have hend : ∀ h', Q h' → Meets (do
      let found ← dispatchFactory env cfg call
      Prog.when (found = false) (Prog.throw .factoryFailed) : P Unit) h'
      ⟨fun _ => Q, fun _ => Q, Q⟩ := fun h' hQ => by
    rw [dispatchFactory, meets_read_bind]
    exact meets_when (fun _ => hQ) fun _ => hQ
  have hstore : (cfg.guardTxn = true → env.faultAt h.now .beginWrite = .none) →
      Meets (do
        Prog.onErr (storeEvent env cfg rules call) (rollback env cfg)
        let found ← dispatchFactory env cfg call
        Prog.when (found = false) (Prog.throw .factoryFailed) : P Unit)
        { h with conn := begun cfg rows } ⟨fun _ => Q, fun _ => Q, Q⟩ := by
    intro hbegin
    rw [meets_bind, meets_onErr]
    refine (meets_storeEvent hquiet fun hins hkey => hnew ⟨hbegin, hins, ?_⟩).mono
      (fun _ h' hQ => hend h' hQ) (fun _ _ h => h) fun _ h => h
    rw [hq]
    exact hkey
  rw [recordEvent, meets_bind]
  by_cases hg : cfg.guardTxn = true
  · rw [when_of hg, meets_read_bind, meets_onStore, hq]
    refine meets_begin_quiet.mono ?_ ?_ ?_
    · rintro _ c ⟨hbegin, rfl⟩
      have hopened : begun cfg rows = opened rows rows := if_pos hg
      exact hopened ▸ hstore fun _ => hbegin
    · rintro _ c ⟨-, rfl⟩
      exact hquiet
    · rintro c ⟨-, rfl⟩
      exact hquiet
  · rw [when_of_not hg]
    have hquiet' : begun cfg rows = quiet rows := if_neg hg
    have hrun := hstore fun h => absurd h hg
    rw [hquiet', eq_of_quiet hq] at hrun
    exact hrun

/-! ### An event that is delivered -/

/-- A connection that is in no poisoned transaction. -/
def Healthy (c : Conn (List EventCall)) : Prop := ∃ t, c = quiet t ∨ ∃ u, c = opened t u

theorem healthy_entered : Healthy (entered cfg call rows) := by
  unfold entered
  split
  · exact ⟨rows, .inr ⟨_, rfl⟩⟩
  · exact ⟨_, .inl rfl⟩

theorem sendAside_harmless {φ : Fault Err} (hc : Healthy h.conn) (hφ : Harmless cfg φ) :
    sendAside cfg φ h = (.ok (), h) := by
  have hstmt : stmt cfg.engine φ (fun t => ((), t)) h.conn = (.ok (), h.conn) ∨
      ∃ e, stmt cfg.engine φ (fun t => ((), t)) h.conn = (.err e, h.conn) := by
    rcases hφ with rfl | ⟨⟨e, rfl⟩, hp⟩ <;> obtain ⟨t, hc | ⟨u, hc⟩⟩ := hc <;> rw [hc]
    · exact .inl rfl
    · exact .inl rfl
    · exact .inr ⟨e, rfl⟩
    · refine .inr ⟨e, ?_⟩
      rw [stmt_fail, hurt_opened, if_neg (by simp [hp])]
  simp only [sendAside, catching, onStore, zoom]
  obtain hrun | ⟨e, hrun⟩ := hstmt
  · rw [hrun]
  · rw [hrun]
    rfl

theorem each_harmless (hc : Healthy h.conn) {calls : List DbCall}
    (hall : ∀ φ ∈ calls.map (env.faultAt h.now), Harmless cfg φ) :
    Prog.each calls (fun call => sendAside cfg (env.faultAt h.now call)) h = (.ok (), h) := by
  induction calls with
  | nil => rfl
  | cons b calls ih =>
    rw [List.map_cons, List.forall_mem_cons] at hall
    rw [each_cons, bind_of_ok (sendAside_harmless hc hall.1)]
    exact ih hall.2

theorem track_harmless (hc : Healthy h.conn)
    (hall : ∀ φ ∈ balanceFaults env call h, Harmless cfg φ) :
    Prog.when (call.eventName = "Transfer".toList)
      (trackTokenTransferState env cfg call.fields) h = (.ok (), h) := by
  unfold balanceFaults at hall
  by_cases hname : call.eventName = "Transfer".toList
  · rw [when_of hname, trackTokenTransferState, read_bind]
    by_cases hrep : env.replaying h.now = false
    · rw [when_of hrep]
      rw [if_pos ⟨hname, hrep⟩] at hall
      exact each_harmless hc hall
    · rw [when_of_not hrep]
      rfl
  · rw [when_of_not hname]
    rfl

/-- What one rule adds to the outbox. -/
theorem due_cons (r : Rule) (rules : List Rule) :
    due (r :: rules) call = due [r] call ++ due rules call := by
  rw [due, due, due, ← List.filterMap_append, List.singleton_append]

theorem applyRule_enqueues {r : Rule} {i : Nat}
    (hr : ∀ url, r.matched call = true → r.action = .webhookUrl url → Enqueues env h i url) :
    applyRule env call r i h = (.ok (), { h with outbox := h.outbox ++ due [r] call }) := by
  have hnone : ({ h with outbox := h.outbox ++ [] } : Hub) = h := by rw [List.append_nil]
  unfold applyRule
  by_cases hm : r.matched call = true
  · rw [when_of hm]
    cases ha : r.action with
    | webhookUrl url =>
      obtain ⟨hrun, hurl, hok⟩ := hr url hm ha
      have hdue : due [r] call = [⟨url, payload call⟩] := by simp [due, hm, ha]
      simp only [enqueueEvent, read_bind, when_of (And.intro hrun hurl), hok, hdue]
      rfl
    | logMsg _ | updateAccount _ _ _ =>
      have hdue : due [r] call = [] := by simp [due, hm, ha]
      rw [hdue, hnone]
      rfl
  · have hdue : due [r] call = [] := by simp [due, hm]
    rw [when_of_not hm, hdue, hnone]
    rfl

/-- The loop over the rules from the one at `k` on, when the outbox takes all rows. -/
theorem processEvent_loop {rest : List Rule} {k : Nat}
    (hall : ∀ r i url, (r, i) ∈ rest.zipIdx k → r.matched call = true →
      r.action = .webhookUrl url → Enqueues env h i url) :
    Prog.each (rest.zipIdx k) (fun x => applyRule env call x.1 x.2) h =
      (.ok (), { h with outbox := h.outbox ++ due rest call }) := by
  induction rest generalizing k h with
  | nil => simp [due]
  | cons r rest ih =>
    rw [List.zipIdx_cons] at hall ⊢
    have hhead := hall r k
    have htail : ∀ r' i url, (r', i) ∈ rest.zipIdx (k + 1) → r'.matched call = true →
        r'.action = .webhookUrl url →
        Enqueues env { h with outbox := h.outbox ++ due [r] call } i url :=
      fun r' i url hmem => hall r' i url (List.mem_cons_of_mem _ hmem)
    rw [each_cons, bind_of_ok (applyRule_enqueues fun url => hhead url List.mem_cons_self),
      ih htail, due_cons r rest, List.append_assoc]

theorem processEvent_enqueues
    (hall : ∀ i url, Calls rules call i url → Enqueues env h i url) :
    processEvent env rules call h =
      (.ok (), { h with outbox := h.outbox ++ due rules call }) :=
  processEvent_loop fun r i url hmem hm ha => hall i url ⟨r, hmem, hm, ha⟩

theorem handleEvent_harmless (hc : Healthy h.conn)
    (hs : cfg.backend ≠ .rocksdb → Harmless cfg ((env.handler h.now call).stmt.map Err.db)) :
    handleEvent env cfg call h = (.ok (env.handler h.now call).ok, h) := by
  rw [handleEvent, read_bind]
  by_cases hb : cfg.backend ≠ .rocksdb
  · rw [when_of hb, bind_of_ok (sendAside_harmless hc (hs hb))]
    rfl
  · rw [when_of_not hb]
    rfl

/-- **An event that is delivered** is committed, has put its rows and is published. -/
theorem storeNew_delivered (hd : Delivered rules env cfg call { h with conn := quiet rows }) :
    storeNew env cfg rules call { h with conn := entered cfg call rows } =
      (.ok (), { h with
        conn := quiet (rows ++ [call])
        outbox := h.outbox ++ due rules call
        published := h.published ++ [call] }) := by
  have hrow : withRow cfg call rows = rows ++ [call] := by
    unfold withRow
    split
    · next hb =>
      have hnew := hd.new hb
      rw [List.filter_eq_self.2 fun c hc => by simp [hnew c hc]]
    · rfl
  have htrack : Prog.when (call.eventName = "Transfer".toList)
      (trackTokenTransferState env cfg call.fields) { h with conn := entered cfg call rows } =
      (.ok (), { h with conn := entered cfg call rows }) :=
    track_harmless healthy_entered hd.balances
  rw [storeNew, bind_of_ok htrack, when_of hd.hooked]
  have hrules : processEvent env rules call { h with conn := entered cfg call rows } =
      (.ok (), { h with conn := entered cfg call rows, outbox := h.outbox ++ due rules call }) :=
    processEvent_enqueues hd.enqueued
  have hhandler : handleEvent env cfg call
      { h with conn := entered cfg call rows, outbox := h.outbox ++ due rules call } =
      (.ok (env.handler h.now call).ok,
        { h with conn := entered cfg call rows, outbox := h.outbox ++ due rules call }) :=
    handleEvent_harmless healthy_entered hd.statements
  rw [hd.accepted] at hhandler
  have hcallback : callback env cfg rules call { h with conn := entered cfg call rows } =
      (.ok true, { h with
        conn := entered cfg call rows
        outbox := h.outbox ++ due rules call
        published := h.published ++ [call] }) := by
    rw [callback, bind_of_ok hrules, bind_of_ok hhandler]
    rfl
  rw [bind_assoc, bind_of_ok hcallback, when_of_not (by simp), bind_of_ok (pure_apply _ _)]
  by_cases hg : cfg.guardTxn = true
  · rw [when_of hg, read_bind, entered, if_pos hg, hrow, onStore]
    simp only [zoom, hd.commits hg, commit_opened]
  · rw [when_of_not hg, entered, if_neg hg, hrow]
    rfl

/-! ### An event that is given up -/

/-- The transaction of the event is open, and nothing else has changed. -/
def Pending (rows : List EventCall) (h h' : Hub) : Prop :=
  (∃ S R, InTxn rows S R h'.conn) ∧ h' = { h with conn := h'.conn }

/-- The transaction of the event is gone, and nothing else has changed. -/
def Forgotten (rows : List EventCall) (h h' : Hub) : Prop := h' = { h with conn := quiet rows }

theorem Pending.trans {h₁ h₂ : Hub} (h' : Pending rows h h₁) (h'' : Pending rows h₁ h₂) :
    Pending rows h h₂ :=
  ⟨h''.1, by rw [h''.2, h'.2]⟩

theorem Pending.forgotten {h₁ h₂ : Hub} (h' : Pending rows h h₁) (h'' : Forgotten rows h₁ h₂) :
    Forgotten rows h h₂ := by
  unfold Forgotten at *
  rw [h'', h'.2]

theorem meets_sendAside {φ : Fault Err} (hin : ∃ S R, InTxn rows S R h.conn) :
    Meets (sendAside cfg φ) h
      ⟨fun _ h' => φ ≠ .crash ∧ Pending rows h h', fun _ _ => False, Forgotten rows h⟩ := by
  obtain ⟨S, R, hin⟩ := hin
  rw [sendAside, meets_catching, meets_onStore]
  by_cases hφ : φ = .crash
  · subst hφ
    unfold Meets
    rw [stmt_crash, hin.lost]
    rfl
  · refine hin.meets_stmt.mono ?_ ?_ ?_
    · rintro _ c ⟨-, -, hc⟩
      exact ⟨hφ, ⟨_, _, hc⟩, rfl⟩
    · rintro _ c ⟨-, hc⟩
      exact ⟨hφ, ⟨_, _, hc⟩, rfl⟩
    · rintro c ⟨hcrash, -⟩
      exact absurd hcrash hφ

theorem meets_track (hin : ∃ S R, InTxn rows S R h.conn) :
    Meets (Prog.when (call.eventName = "Transfer".toList)
      (trackTokenTransferState env cfg call.fields)) h
      ⟨fun _ h' => .crash ∉ balanceFaults env call h ∧ Pending rows h h', fun _ _ => False,
        Forgotten rows h⟩ := by
  have hnone : Pending rows h h := ⟨hin, rfl⟩
  unfold balanceFaults
  by_cases hname : call.eventName = "Transfer".toList
  · rw [when_of hname, trackTokenTransferState, meets_read_bind]
    by_cases hrep : env.replaying h.now = false
    · rw [when_of hrep, if_pos ⟨hname, hrep⟩]
      -- a death is still to come as long as one of the statements left brings it
      have hloop := meets_each
        (f := fun b => sendAside cfg (env.faultAt h.now b)) (E := fun _ _ => False)
        (D := Forgotten rows h) (I := fun rest h' => Pending rows h h' ∧
          (.crash ∈ (balanceCalls call.fields).map (env.faultAt h.now) →
            .crash ∈ rest.map (env.faultAt h.now))) ?_
        (l := balanceCalls call.fields) (t := h) ⟨hnone, id⟩
      · refine hloop.mono ?_ (fun _ _ h => h) fun _ h => h
        rintro _ h' ⟨hpending, hcrash⟩
        exact ⟨fun h => by simpa using hcrash h, hpending⟩
      · rintro b rest h₁ ⟨hpending, hcrash⟩
        refine (meets_sendAside hpending.1).mono ?_ (fun _ _ h => h)
          fun _ h => hpending.forgotten h
        rintro _ h₂ ⟨hb, h₂⟩
        refine ⟨hpending.trans h₂, fun h => ?_⟩
        exact (List.mem_cons.1 (hcrash h)).resolve_left fun heq => hb heq.symm
    · rw [when_of_not hrep, if_neg fun h => hrep h.2]
      exact ⟨by simp, hnone⟩
  · rw [when_of_not hname, if_neg fun h => hname h.1]
    exact ⟨by simp, hnone⟩

/-- The rules put no row, and none of them brings the end. -/
theorem meets_processEvent_silent (hin : ∃ S R, InTxn rows S R h.conn)
    (hsilent : ∀ i url, Calls rules call i url → ¬Enqueues env h i url) :
    Meets (processEvent env rules call) h
      ⟨fun _ h' => h' = h ∧ ∀ i url, Calls rules call i url → env.running h.now = true →
          url ≠ [] → env.enqueue h.now i ≠ .crash,
        fun _ _ => False, Forgotten rows h⟩ := by
  have hturn : ∀ r i, (r, i) ∈ rules.zipIdx → Meets (applyRule env call r i) h
      ⟨fun _ h' => h' = h ∧ ∀ url, r.matched call = true → r.action = .webhookUrl url →
          env.running h.now = true → url ≠ [] → env.enqueue h.now i ≠ .crash,
        fun _ _ => False, Forgotten rows h⟩ := by
    intro r i hmem
    refine meets_when (fun hm => ?_) fun hm => ⟨rfl, fun _ h => absurd h hm⟩
    cases ha : r.action with
    | webhookUrl url =>
      have hnot := hsilent i url ⟨r, hmem, hm, ha⟩
      change Meets (enqueueEvent env i url call) h _
      rw [enqueueEvent, meets_read_bind]
      refine meets_when (fun hrun => ?_) fun hrun => ⟨rfl, fun url' _ heq h₁ h₂ => ?_⟩
      · cases he : env.enqueue h.now i with
        | none => exact absurd ⟨hrun.1, hrun.2, he⟩ hnot
        | fail e => exact ⟨rfl, by simp⟩
        | crash =>
          obtain ⟨S, R, hin⟩ := hin
          exact meets_onStore.2 (hin.meets_vanish rfl)
      · obtain rfl := Action.webhookUrl.inj heq
        exact absurd ⟨h₁, h₂⟩ hrun
    | logMsg _ | updateAccount _ _ _ => exact ⟨rfl, by simp⟩
  have hloop := meets_each (f := fun x : Rule × Nat => applyRule env call x.1 x.2)
    (E := fun _ _ => False) (D := Forgotten rows h)
    (I := fun rest h' => h' = h ∧ (∀ x ∈ rest, x ∈ rules.zipIdx) ∧
      ∀ x ∈ rules.zipIdx, x ∉ rest → ∀ url, x.1.matched call = true →
        x.1.action = .webhookUrl url → env.running h.now = true → url ≠ [] →
          env.enqueue h.now x.2 ≠ .crash) ?_
    (l := rules.zipIdx) (t := h) ⟨rfl, fun _ h => h, fun x hx hn => absurd hx hn⟩
  · refine hloop.mono ?_ (fun _ _ h => h) fun _ h => h
    rintro _ h' ⟨rfl, -, hall⟩
    refine ⟨rfl, fun i url hcalls => ?_⟩
    obtain ⟨r, hmem, hm, ha⟩ := hcalls
    exact hall (r, i) hmem (by simp) url hm ha
  · rintro x rest h₁ ⟨rfl, hsub, hall⟩
    refine (hturn x.1 x.2 (hsub x List.mem_cons_self)).mono ?_ (fun _ _ h => h) fun _ h => h
    rintro _ h₂ ⟨rfl, hx⟩
    refine ⟨rfl, fun y hy => hsub y (List.mem_cons_of_mem x hy), fun y hy hn => ?_⟩
    by_cases heq : y = x
    · exact heq ▸ hx
    · exact hall y hy fun h => hn ((List.mem_cons.1 h).resolve_left heq)

theorem meets_handleEvent (hb : cfg.backend ≠ .rocksdb) (hin : ∃ S R, InTxn rows S R h.conn) :
    Meets (handleEvent env cfg call) h
      ⟨fun ok h' => ok = (env.handler h.now call).ok ∧ (env.handler h.now call).stmt ≠ .crash ∧
          Pending rows h h', fun _ _ => False, Forgotten rows h⟩ := by
  rw [handleEvent, meets_read_bind, when_of hb, meets_bind]
  refine (meets_sendAside hin).mono ?_ (fun _ _ h => h) fun _ h => h
  rintro _ h' ⟨hφ, hpending⟩
  refine ⟨rfl, fun hcrash => hφ ?_, hpending⟩
  rw [hcrash, Fault.map_crash]

/-- The hook, when the event is given up in it: the handlers refuse it, or it does not come to
an end. -/
theorem meets_callback_withdrawn (hb : cfg.backend ≠ .rocksdb)
    (hin : ∃ S R, InTxn rows S R h.conn)
    (hsilent : ∀ i url, Calls rules call i url → ¬Enqueues env h i url)
    (hends : (∃ i url, Calls rules call i url ∧ env.running h.now = true ∧ url ≠ [] ∧
        env.enqueue h.now i = .crash) ∨
      (env.handler h.now call).stmt = .crash ∨ (env.handler h.now call).ok = false) :
    Meets (callback env cfg rules call) h
      ⟨fun ok h' => ok = false ∧ Pending rows h h', fun _ _ => False, Forgotten rows h⟩ := by
  rw [callback, meets_bind]
  refine (meets_processEvent_silent hin hsilent).mono ?_ (fun _ _ h => h) fun _ h => h
  rintro _ h₁ ⟨rfl, hputs⟩
  change Meets (handleEvent env cfg call >>= fun _ => _) _ _
  rw [meets_bind]
  refine (meets_handleEvent hb hin).mono ?_ (fun _ _ h => h) fun _ h => h
  rintro _ h₂ ⟨rfl, hstmt, hpending⟩
  have hrefused : (env.handler h₁.now call).ok = false := by
    rcases hends with ⟨i, url, hcalls, hrun, hurl, hcrash⟩ | hcrash | hrefused
    · exact absurd hcrash (hputs i url hcalls hrun hurl)
    · exact absurd hcrash hstmt
    · exact hrefused
  change Meets (Prog.when ((env.handler h₁.now call).ok = true) _ >>= fun _ => _) _ _
  rw [when_of_not (by simp [hrefused])]
  exact ⟨hrefused, hpending⟩

/-- **An event that is given up** leaves the hub as it was. -/
theorem meets_storeNew_withdrawn {Q : Hub → Prop} (hsame : Q { h with conn := quiet rows })
    (hw : Withdrawn rules env cfg call { h with conn := quiet rows }) :
    Meets (storeNew env cfg rules call) { h with conn := entered cfg call rows }
      (thenRollback env cfg Q) := by
  obtain ⟨hg, hor⟩ := hw
  have hhook : cfg.eventCallback = true := by
    rw [Config.guardTxn, Bool.and_eq_true] at hg
    exact hg.1
  have hin : ∃ S R, InTxn rows S R (entered cfg call rows) := by
    rw [entered, if_pos hg]
    exact ⟨False, fun _ => True, inTxn_opened trivial⟩
  have hdead : ∀ h', Forgotten rows { h with conn := entered cfg call rows } h' → Q h' := by
    rintro h' rfl
    exact hsame
  rw [storeNew, meets_bind]
  refine (meets_track hin).mono ?_ (fun _ _ h => h.elim) hdead
  rintro _ h₁ ⟨hlives, hpending⟩
  obtain ⟨hsilent, hends⟩ := hor.resolve_left hlives
  obtain ⟨c, rfl⟩ : ∃ c, h₁ = { h with conn := c } := ⟨h₁.conn, hpending.2⟩
  change Meets (Prog.when (cfg.eventCallback = true) _ >>= fun _ => _) _ _
  rw [when_of hhook, meets_bind, meets_bind]
  refine (meets_callback_withdrawn (guardTxn_sql hg) hpending.1 hsilent hends).mono ?_
    (fun _ _ h => h.elim) fun h' h => hdead h' (hpending.forgotten h)
  rintro _ h₂ ⟨rfl, hpending₂⟩
  obtain ⟨c₂, rfl⟩ : ∃ c, h₂ = { h with conn := c } := ⟨h₂.conn, hpending₂.2⟩
  have hundo : Undoable cfg rows c₂ := by
    rw [Undoable, if_pos hg]
    exact hpending₂.1
  exact meets_rollback hundo hsame

end Attempt

section Run

variable {rules : List Rule}

/-- What holds of the hub between two attempts. -/
structure Inv (rules : List Rule) (h : Hub) : Prop where
  quiet : h.conn.txn = none
  matched : Matched rules h

/-- **An attempt that meets the condition** keeps the outbox and the bus in agreement with the
tables. -/
theorem Inv.attempt {h : Hub} (hI : Inv rules h) {a : Attempt} (hclean : Clean rules h a) :
    Inv rules (attempt rules a h) := by
  have hq : h.conn = Conn.quiet h.conn.committed := eq_quiet hI.quiet
  have hrun : Meets (processLog a.env a.cfg rules a.lg) h
      ⟨fun _ => Inv rules, fun _ => Inv rules, Inv rules⟩ := by
    unfold processLog
    split
    · exact hI
    · exact hI
    · next ev hev =>
      have hsame : Inv rules { h with conn := Conn.quiet h.conn.committed } :=
        (eq_of_quiet hq).symm ▸ hI
      refine meets_recordEvent hq hI fun hstores => ?_
      rcases hclean ev hev hstores with hdelivered | hwithdrawn
      · have hrun := storeNew_delivered (h := h) ((eq_of_quiet hq).symm ▸ hdelivered)
        unfold Meets
        rw [hrun]
        exact ⟨rfl, by simpa using hI.matched.outbox.append_right _,
          hI.matched.published.append_right _⟩
      · exact meets_storeNew_withdrawn hsame ((eq_of_quiet hq).symm ▸ hwithdrawn)
  obtain ⟨hquiet, hmatched⟩ := hrun.snd
  exact ⟨hquiet, hmatched.outbox, hmatched.published⟩

/-- **Side effects match committed events** in every state between two attempts, in a run
whose attempts all meet the condition. -/
theorem matched_of_clean {h : Hub} (hreach : (indexers rules).Reaches (Clean rules) h) :
    Matched rules h := by
  have hinit : Inv rules (indexers rules).init := ⟨rfl, ⟨.refl [], .refl []⟩⟩
  have hI : Inv rules h := hreach.invariant hinit fun h a h' hI hclean hstep => by
    obtain rfl := Option.some.inj hstep
    exact hI.attempt hclean
  exact hI.matched

end Run

/-! ### A rule for all events -/

/-- An ABI with one event, which has no fields. -/
def pingAbi : Abi where
  findEventByName _ := some ⟨"Ping".toList, []⟩
  findEventByTopic0 _ := some ⟨"Ping".toList, []⟩
  decodeLog _ _ _ := .ok []

/-- An indexer of the service: the hook is installed. -/
def pingConfig : Config := { plainConfig with abi := some pingAbi, eventCallback := true }

/-- One of its logs. -/
def pingLog : Log where
  address := "0xAA".toList
  topics := ["0x".toList ++ List.replicate 64 '0']
  data := []
  blockNumber := 7
  transactionHash := "0x01".toList
  logIndex := 0

/-- Tell somebody of every event. -/
def tellAll : List Rule :=
  [⟨"*".toList, "*".toList, [], "always".toList, [], .webhookUrl "http://hook".toList⟩]

theorem classify_ping : classify pingConfig pingLog = .ok (some ⟨"Ping".toList, []⟩) := by
  decide +kernel

theorem matched_of_clean_ping :
    Matched tellAll (attempt tellAll ⟨{}, pingConfig, pingLog⟩ {}) := by
  refine matched_of_clean (.step .init ?_ rfl)
  intro ev hev _
  obtain rfl : ⟨"Ping".toList, []⟩ = ev :=
    Option.some.inj (Except.ok.inj (classify_ping.symm.trans hev))
  refine .inl ⟨rfl, fun _ c hc => absurd hc (by simp [indexers, Conn.quiet]), fun φ hφ => ?_,
    fun i url hcalls => ?_, fun _ => .inl rfl, rfl, fun _ => rfl⟩
  · rw [balanceFaults, if_neg (by decide)] at hφ
    exact absurd hφ List.not_mem_nil
  · obtain ⟨r, hmem, -, haction⟩ := hcalls
    obtain ⟨rfl, -⟩ : r = _ ∧ i = 0 := by simpa [tellAll] using hmem
    obtain rfl := Action.webhookUrl.inj haction
    exact ⟨rfl, by decide, rfl⟩

/-- The handlers refuse an event at first, and take it when its dead letter is retried: the row
is there once, and two webhooks go out. -/
theorem not_matched_of_refused :
    ∃ h, (indexers tellAll).Reachable h ∧ h.conn.committed.length = 1 ∧ h.outbox.length = 2 ∧
      ¬Matched tellAll h := by
  let refusing : HookEnv := { handler := fun _ _ => { ok := false } }
  let first := attempt tellAll ⟨refusing, pingConfig, pingLog⟩ {}
  let last := attempt tellAll ⟨{}, pingConfig, pingLog⟩ first
  have hreach : (indexers tellAll).Reachable last :=
    .step (.step .init trivial rfl) trivial rfl
  have hrows : last.conn.committed.length = 1 := by decide +kernel
  have houtbox : last.outbox.length = 2 := by decide +kernel
  have hdue : (last.conn.committed.flatMap (due tellAll)).length = 1 := by decide +kernel
  refine ⟨last, hreach, hrows, houtbox, fun h => ?_⟩
  have hlength := h.outbox.length_eq
  omega

end Zponder.Hook

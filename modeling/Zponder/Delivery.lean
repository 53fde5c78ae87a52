import Zponder.ProcessLog
import Zponder.Transact

/-!
# What one delivery can do

The exits of `processLog` are many – an error before the transaction, a failed
statement inside it, a row that is there already, a callback that says no, a failed
commit, a factory rule that says no, a death anywhere – and everything later in this
development wants to know only what they leave behind. That is said once, here.

With a transaction (`Zponder.meets_recordEvent`), a delivery leaves the tables as
they were, up to the timestamp it may have looked up, or with the event, the
balances and the writes of one successful callback, all of them; it is the second
exactly if the row is new and `Zponder.Commits` holds, which speaks of the
environment at that moment only. Without one (`Zponder.meets_recordEvent_auto`) the
event row and the balances are separate statements.
-/

namespace Zponder

open Imperative Prog Conn

/-! ### Balances inside a transaction -/

section Track

variable {env : Env} {cfg : Config} {w : World} {t : Tables} {S : Prop} {P : Tables → Prop}

/-- The statements on one party's balance fail at moment `now`. -/
def PartyFails (env : Env) (now : Nat) (incoming : Bool) : Prop :=
  Failed (env.faultAt now (.getAccountBalance incoming)) ∨
    Failed (env.faultAt now (.upsertAccountState incoming))

/-- A statement of `trackTokenTransferState` fails at moment `now`. -/
def TrackFails (env : Env) (now : Nat) (state : IndexerState) (fields : List DecodedField) :
    Prop :=
  state ≠ .replaying ∧ ∃ tr ∈ transferOf fields,
    (tr.sender.isSome ∧ PartyFails env now false) ∨ (tr.receiver.isSome ∧ PartyFails env now true)

/-- `P`, up to the balances. -/
def UpToAccounts (P : Tables → Prop) (u' : Tables) : Prop :=
  ∃ u, P u ∧ ∃ a, u' = { u with accounts := a }

theorem upToAccounts_of {u : Tables} (h : P u) : UpToAccounts P u := ⟨u, h, u.accounts, rfl⟩

theorem UpToAccounts.idem {u : Tables} (h : UpToAccounts (UpToAccounts P) u) :
    UpToAccounts P u := by
  obtain ⟨_, ⟨v, hv, a, rfl⟩, b, rfl⟩ := h
  exact ⟨v, hv, b, rfl⟩

theorem meets_balanceOf (h : InTxn t S P w.conn) {incoming : Bool} {contract holder : Text} :
    Meets (balanceOf env cfg incoming contract holder) w
      ⟨fun _ => StillIn w t (S ∨ (cfg.engine.poisons = true ∧
          Failed (env.faultAt w.now (.getAccountBalance incoming)))) P,
        fun _ _ => False, Died w t⟩ := by
  simp only [balanceOf, getAccountBalance, meets_bind, meets_catching, meets_guarded, meets_read,
    meets_pure]
  refine meets_ite (fun hb => ?_) fun _ => ?_
  · -- the second connection: nothing of the transaction can be touched
    have hp : cfg.engine.poisons = false := by simp [Config.engine, hb.1]
    simp only [meets_bind, meets_pure]
    rw [meets_onConn]
    unfold Meets side
    cases env.faultAt w.now (.getAccountBalance incoming)
    · exact ⟨h.mono (by simp [hp]) fun _ hu => hu, rfl⟩
    · exact ⟨h.mono (by simp [hp]) fun _ hu => hu, rfl⟩
    · exact ⟨h.lost, rfl⟩
  · simp only [meets_execFind, execRead, meets_exec]
    refine (h.meets_stmt).mono ?_ ?_ ?_
    · rintro a c ⟨hφ, hs, hc⟩
      refine ⟨hc.mono (by simp [hφ]) ?_, rfl⟩
      rintro u' ⟨u, hu, hg⟩
      obtain rfl : u = u' := by simpa using congrArg Prod.snd hg
      exact hu
    · rintro e c ⟨_, hc⟩
      exact ⟨hc, rfl⟩
    · rintro c ⟨_, rfl⟩
      exact ⟨rfl, rfl⟩

/-- One half of a transfer changes balances, and may poison the transaction. -/
theorem meets_debit (h : InTxn t S P w.conn) {contract holder : Text} {amount b : Nat} :
    Meets (debit env cfg contract holder amount b) w
      ⟨fun _ => StillIn w t (S ∨ (cfg.engine.poisons = true ∧ PartyFails env w.now false))
          (UpToAccounts P), fun _ _ => False, Died w t⟩ := by
  unfold debit upsertAccountState
  rw [meets_bind]
  refine (meets_balanceOf h).mono ?_ (fun _ _ h => h) fun _ h => h
  intro current w₁ h₁
  refine (meets_guarded_ignoredWrite h₁.1).mono ?_ (fun _ _ h => h) fun _ h => h₁.died h
  intro _ w₂ h₂
  refine (h₁.trans h₂).mono ?_ ?_
  · rw [h₁.2]
    unfold PartyFails
    tauto
  · rintro u' ⟨u, hu, ⟨_, rfl⟩ | ⟨_, rfl⟩⟩
    · exact ⟨u, hu, _, rfl⟩
    · exact upToAccounts_of hu

theorem meets_credit (h : InTxn t S P w.conn) {contract holder : Text} {amount b : Nat} :
    Meets (credit env cfg contract holder amount b) w
      ⟨fun _ => StillIn w t (S ∨ (cfg.engine.poisons = true ∧ PartyFails env w.now true))
          (UpToAccounts P), fun _ _ => False, Died w t⟩ := by
  unfold credit upsertAccountState
  rw [meets_bind]
  refine (meets_balanceOf h).mono ?_ (fun _ _ h => h) fun _ h => h
  intro current w₁ h₁
  refine meets_ite (fun _ => ?_) fun _ => ?_
  · rw [meets_onConn]
    exact h₁.1.meets_vanish ⟨rfl, by rw [OnlyConn, h₁.2]⟩
  · refine (meets_guarded_ignoredWrite h₁.1).mono ?_ (fun _ _ h => h) fun _ h => h₁.died h
    intro _ w₂ h₂
    refine (h₁.trans h₂).mono ?_ ?_
    · rw [h₁.2]
      unfold PartyFails
      tauto
    · rintro u' ⟨u, hu, ⟨_, rfl⟩ | ⟨_, rfl⟩⟩
      · exact ⟨u, hu, _, rfl⟩
      · exact upToAccounts_of hu

theorem meets_forAccount {F : Prop} {holder : Option Text} {f : Text → M Unit}
    (h : InTxn t S P w.conn)
    (hf : ∀ a, Meets (f a) w
      ⟨fun _ => StillIn w t (S ∨ (cfg.engine.poisons = true ∧ F)) (UpToAccounts P),
        fun _ _ => False, Died w t⟩) :
    Meets (forAccount holder f) w
      ⟨fun _ => StillIn w t (S ∨ (cfg.engine.poisons = true ∧ (holder.isSome ∧ F)))
          (UpToAccounts P), fun _ _ => False, Died w t⟩ := by
  cases holder with
  | none => exact ⟨h.mono (by simp) fun _ hu => upToAccounts_of hu, rfl⟩
  | some a => simpa [forAccount] using hf a

/-- **The balances of a transfer inside a transaction.** -/
theorem meets_track (h : InTxn t S P w.conn) {contract : Text} {fields : List DecodedField}
    {b : Nat} :
    Meets (trackTokenTransferState env cfg contract fields b) w
      ⟨fun _ => StillIn w t
          (S ∨ (cfg.engine.poisons = true ∧ TrackFails env w.now w.mem.state fields))
          (UpToAccounts P), fun _ _ => False, Died w t⟩ := by
  unfold trackTokenTransferState
  simp only [getMem, meets_bind, meets_read]
  refine meets_ite (fun hst => ?_) fun hst => ?_
  · exact ⟨h.mono (by simp [TrackFails, hst]) fun _ hu => upToAccounts_of hu, rfl⟩
  cases htr : transferOf fields with
  | none => exact ⟨h.mono (by simp [TrackFails, htr]) fun _ hu => upToAccounts_of hu, rfl⟩
  | some tr =>
    simp only [meets_bind]
    refine (meets_forAccount h fun _ => meets_debit h).mono ?_ (fun _ _ h => h) fun _ h => h
    intro _ w₁ h₁
    refine (meets_forAccount h₁.1 fun _ => meets_credit h₁.1).mono ?_ (fun _ _ h => h)
      fun _ h => h₁.died h
    intro _ w₂ h₂
    refine (h₁.trans h₂).mono ?_ fun _ hu => hu.idem
    have hnow : w₁.now = w.now := by rw [h₁.2]
    rw [hnow]
    simp only [TrackFails, hst, htr, ne_eq, not_false_eq_true, true_and, Option.mem_def,
      Option.some.injEq, exists_eq_left']
    tauto

end Track

/-! ### Recording an event in a transaction -/

section Record

variable (env : Env) (cfg : Config) (ev : Decoded) (lg : Log)

/-- The row of an event. -/
def eventRow (now : Nat) : EventRow := ⟨eventKey cfg ev lg, ev.fields, lg.blockNumber, now⟩

/-- What the callback does for a log delivered at moment `now`. -/
def handlerRun (now : Nat) : HandlerRun := env.handler now (eventCall cfg ev lg)

/-- The tables with the event, new balances and the writes of its callback. -/
def recorded (now ts : Nat) (accounts : Text → Text → Option AccountState) (t : Tables) :
    Tables :=
  (handlerRun env cfg ev lg now).apply (eventKey cfg ev lg) now ts
    { t with events := t.events ++ [eventRow cfg ev lg now], accounts := accounts }

/-- A failure inside the transaction that nobody reports: the transaction is lost,
and its commit does not say so. -/
def Swallows (now : Nat) (state : IndexerState) : Prop :=
  cfg.engine.poisons = true ∧
    ((ev.name = "Transfer".toList ∧ TrackFails env now state ev.fields) ∨
      Failed (handlerRun env cfg ev lg now).stmt)

/-- Nothing stands in the way of a new event at moment `now`. -/
structure Commits (now : Nat) (state : IndexerState) : Prop where
  begins : env.faultAt now .beginWrite = .none
  inserts : env.faultAt now .insertEventLog = .none
  sound : ¬Swallows env cfg ev lg now state
  accepted : (handlerRun env cfg ev lg now).ok = true
  commits : env.faultAt now .commitWrite = .none

/-- The factory rules take the event. -/
def Discovers (now : Nat) : Prop :=
  ∀ i ∈ cfg.factoryIdxs.getD [], env.factory now i ev.name ev.fields lg.blockNumber = true

/-- Something is reported as an error when a new event is delivered at moment
`now`. -/
def Refuses (now : Nat) : Prop :=
  Failed (env.faultAt now .beginWrite) ∨ Failed (env.faultAt now .insertEventLog) ∨
    (handlerRun env cfg ev lg now).ok = false ∨ Failed (env.faultAt now .commitWrite) ∨
    ¬Discovers env cfg ev lg now

end Record

section Store

variable {env : Env} {cfg : Config} {ev : Decoded} {lg : Log} {w : World} {t : Tables}
  {S : Prop} {P : Tables → Prop}

variable (ev lg) in
theorem meets_runCallback (h : InTxn t S P w.conn) (hb : cfg.backend ≠ .rocksdb) {ts : Nat} :
    Meets (runCallback env cfg (eventKey cfg ev lg) (eventCall cfg ev lg) ts) w
      ⟨fun ok w' => ok = (handlerRun env cfg ev lg w.now).ok ∧
          StillIn w t
            (S ∨ (cfg.engine.poisons = true ∧ Failed (handlerRun env cfg ev lg w.now).stmt))
            (fun u' => ∃ u, P u ∧
              u' = (handlerRun env cfg ev lg w.now).apply (eventKey cfg ev lg) w.now ts u) w',
        fun _ _ => False, Died w t⟩ := by
  simp only [runCallback, meets_bind, meets_read, if_neg hb]
  refine (meets_ignoredWrite h).mono ?_ (fun _ _ h => h) fun _ h => h
  intro _ w₁ h₁
  refine (meets_ignoredWrite (g := id) h₁.1).mono ?_ (fun _ _ h => h) fun _ h => h₁.died h
  intro _ w₂ h₂
  refine ⟨rfl, (h₁.trans h₂).mono ?_ ?_⟩
  · simp [handlerRun]
  · rintro u' ⟨u, ⟨v, hv, ⟨_, rfl⟩ | ⟨hf, _⟩⟩, ⟨_, rfl⟩ | ⟨_, rfl⟩⟩
    · exact ⟨v, hv, rfl⟩
    · exact ⟨v, hv, rfl⟩
    · exact absurd hf not_failed_none
    · exact absurd hf not_failed_none

/-- What a new event leaves when it ends well: nothing if the transaction was
poisoned, else everything. -/
def StoreNewOk (env : Env) (cfg : Config) (ev : Decoded) (lg : Log) (now : Nat)
    (state : IndexerState) (t : Tables) (ts : Nat) (c : Conn Tables) : Prop :=
  (handlerRun env cfg ev lg now).ok = true ∧ env.faultAt now .commitWrite = .none ∧
    ((Swallows env cfg ev lg now state ∧ c = quiet t) ∨
      (¬Swallows env cfg ev lg now state ∧ ∃ a, c = quiet (recorded env cfg ev lg now ts a t)))

/-- What makes a new event an error inside its transaction. -/
def StoreNewFails (env : Env) (cfg : Config) (ev : Decoded) (lg : Log) (now : Nat) : Prop :=
  (handlerRun env cfg ev lg now).ok = false ∨ Failed (env.faultAt now .commitWrite)

variable (ev lg) in
/-- The balances of a new event. -/
theorem meets_storeNew_track (h : InTxn t False P w.conn) :
    Meets (Prog.when (ev.name = "Transfer".toList)
        (trackTokenTransferState env cfg (sourceAddress lg) ev.fields lg.blockNumber)) w
      ⟨fun _ => StillIn w t (cfg.engine.poisons = true ∧
          (ev.name = "Transfer".toList ∧ TrackFails env w.now w.mem.state ev.fields))
          (UpToAccounts P), fun _ _ => False, Died w t⟩ := by
  refine meets_when (fun hn => ?_) fun hn => ?_
  · refine (meets_track h).mono (fun _ w₁ h₁ => h₁.mono ?_ fun _ hu => hu) (fun _ _ h => h)
      fun _ h => h
    tauto
  · exact ⟨h.mono (by tauto) fun _ hu => upToAccounts_of hu, rfl⟩

theorem meets_storeNew (hg : cfg.guardTxn = true)
    (h : InTxn t False (· = { t with events := t.events ++ [eventRow cfg ev lg w.now] }) w.conn)
    {ts : Nat} :
    Meets (storeNew env cfg ev lg ts) w
      ⟨fun _ w' => w' = { w with conn := w'.conn, writeDepth := w.writeDepth - 1 } ∧
          StoreNewOk env cfg ev lg w.now w.mem.state t ts w'.conn,
        fun _ w' => (∃ S P, InTxn t S P w'.conn) ∧ w' = { w with conn := w'.conn } ∧
          StoreNewFails env cfg ev lg w.now,
        Died w t⟩ := by
  obtain ⟨hcb, hb⟩ : cfg.eventCallback = true ∧ cfg.backend ≠ .rocksdb := by
    simpa [Config.guardTxn] using hg
  simp only [storeNew, hcb, hg, Prog.when, if_true, meets_bind]
  refine (meets_storeNew_track ev lg h).mono ?_ (fun _ _ h => h.elim) fun _ h => h
  intro _ w₁ h₁
  have hnow : w₁.now = w.now := by rw [h₁.2]
  refine (meets_runCallback ev lg h₁.1 hb).mono ?_ (fun _ _ h => h.elim)
    fun _ h => h₁.died h
  rintro ok w₂ ⟨hok, h₂⟩
  rw [hnow] at hok h₂
  have h₁₂ := h₁.trans h₂
  refine meets_ite (fun hfalse => ?_) fun htrue => ?_
  · exact ⟨⟨_, _, h₁₂.1⟩, h₁₂.2, .inl (hok ▸ hfalse)⟩
  have hnow₂ : w₂.now = w.now := by rw [h₁₂.2]
  simp only [meets_pure, commitWrite, meets_bind, meets_read, meets_onConn, meets_modify, leave]
  refine h₁₂.1.meets_commit.mono ?_ ?_ ?_
  · rintro _ c ⟨hφ, hc⟩
    rw [hnow₂] at hφ
    refine ⟨by rw [h₁₂.2], by simpa [hok] using htrue, hφ, ?_⟩
    have hsw : Swallows env cfg ev lg w.now w.mem.state ↔
        (cfg.engine.poisons = true ∧ ev.name = "Transfer".toList ∧
          TrackFails env w.now w.mem.state ev.fields) ∨
        (cfg.engine.poisons = true ∧ Failed (handlerRun env cfg ev lg w.now).stmt) := by
      unfold Swallows
      tauto
    rw [hsw]
    refine hc.imp (fun hc => hc) fun hc => ⟨hc.1, ?_⟩
    obtain ⟨-, u, ⟨_, ⟨_, rfl, a, rfl⟩, rfl⟩, rfl⟩ := hc
    exact ⟨a, rfl⟩
  · rintro e c ⟨hf, S', hS'⟩
    rw [hnow₂] at hf
    exact ⟨⟨S', _, hS'⟩, by rw [h₁₂.2], .inr hf⟩
  · rintro c ⟨-, rfl⟩
    exact ⟨rfl, by rw [OnlyConn, h₁₂.2]⟩

/-- The insertion of an event inside a transaction. -/
theorem meets_insertEventLog (hb : cfg.backend ≠ .rocksdb) (h : InTxn t False (· = t) w.conn) :
    Meets (insertEventLog env cfg cfg.contract.name ev.name ev.fields lg.blockNumber
        lg.transactionHash lg.logIndex (sourceAddress lg)) w
      ⟨fun new w' => env.faultAt w.now .insertEventLog = .none ∧
          StillIn w t False (fun u => t.insertEvent (eventRow cfg ev lg w.now) = (new, u)) w',
        fun _ w' => Failed (env.faultAt w.now .insertEventLog) ∧
          (∃ S P, InTxn t S P w'.conn) ∧ w' = { w with conn := w'.conn }, Died w t⟩ := by
  have hcase : Meets (exec env cfg .insertEventLog
      (Tables.insertEvent (eventRow cfg ev lg w.now))) { w with writeDepth := w.writeDepth + 1 }
      ⟨fun new w' => env.faultAt w.now .insertEventLog = .none ∧
          StillIn w t False (fun u => t.insertEvent (eventRow cfg ev lg w.now) = (new, u))
            (leave w'),
        fun _ w' => Failed (env.faultAt w.now .insertEventLog) ∧
          (∃ S P, InTxn t S P (leave w').conn) ∧ leave w' = { w with conn := (leave w').conn },
        Died w t⟩ := by
    rw [meets_exec]
    refine h.meets_stmt.mono ?_ ?_ ?_
    · rintro new c ⟨hφ, -, hc⟩
      refine ⟨hφ, hc.mono Iff.rfl ?_, rfl⟩
      rintro u ⟨_, rfl, hu⟩
      exact hu
    · rintro e c ⟨hf | hf, hc⟩
      · exact hf.elim
      · exact ⟨hf, ⟨_, _, hc⟩, rfl⟩
    · rintro c ⟨-, rfl⟩
      exact ⟨rfl, rfl⟩
  unfold insertEventLog
  rw [meets_guarded]
  simp only [meets_bind, meets_read]
  cases hbk : cfg.backend with
  | rocksdb => exact absurd hbk hb
  | sqlite => exact hcase
  | postgresql => exact hcase

/-- What `insertEvent` says, and does. -/
theorem insertEvent_eq {r : EventRow} {u : Tables} {new : Bool}
    (h : t.insertEvent r = (new, u)) :
    t.hasEvent r.key = !new ∧ (new = true → u = { t with events := t.events ++ [r] }) := by
  unfold Tables.insertEvent at h
  split at h <;> next hr =>
    obtain ⟨rfl, rfl⟩ := Prod.mk.inj h
    simp [hr]

theorem meets_storeEvent (hg : cfg.guardTxn = true) (hc : w.conn = opened t t) {ts : Nat} :
    Meets (storeEvent env cfg ev lg ts) w
      ⟨fun _ w' => w' = { w with conn := w'.conn, writeDepth := w.writeDepth - 1 } ∧
          env.faultAt w.now .insertEventLog = .none ∧
          ((w'.conn = quiet t ∧ t.hasEvent (eventKey cfg ev lg) = true) ∨
            (t.hasEvent (eventKey cfg ev lg) = false ∧
              StoreNewOk env cfg ev lg w.now w.mem.state t ts w'.conn)),
        fun _ w' => (∃ S P, InTxn t S P w'.conn) ∧ w' = { w with conn := w'.conn } ∧
          (Failed (env.faultAt w.now .insertEventLog) ∨
            (t.hasEvent (eventKey cfg ev lg) = false ∧ StoreNewFails env cfg ev lg w.now)),
        Died w t⟩ := by
  obtain ⟨-, hb⟩ : cfg.eventCallback = true ∧ cfg.backend ≠ .rocksdb := by
    simpa [Config.guardTxn] using hg
  have hopen : InTxn t False (· = t) w.conn := hc ▸ inTxn_opened rfl
  unfold storeEvent
  rw [meets_bind]
  refine (meets_insertEventLog hb hopen).mono ?_ ?_ fun _ h => h
  · rintro new w₁ ⟨hφ, hin⟩
    have hnow : w₁.now = w.now := by rw [hin.2]
    have hmem : w₁.mem = w.mem := by rw [hin.2]
    obtain ⟨u, ⟨hs, -⟩ | ⟨-, hu, -⟩⟩ := hin.1
    · exact hs.elim
    refine meets_ite (fun htrue => ?_) fun hfalse => ?_
    · subst htrue
      have hnew : t.hasEvent (eventKey cfg ev lg) = false := (insertEvent_eq hu).1
      have hrow : InTxn t False
          (· = { t with events := t.events ++ [eventRow cfg ev lg w₁.now] }) w₁.conn :=
        hin.1.mono Iff.rfl fun u hu => hnow ▸ (insertEvent_eq hu).2 rfl
      refine (meets_storeNew hg hrow).mono ?_ ?_ fun _ h => hin.died h
      · rintro _ w₂ ⟨hw, hok⟩
        exact ⟨by rw [hw, hin.2], hφ, .inr ⟨hnew, hnow ▸ hmem ▸ hok⟩⟩
      · rintro e w₂ ⟨hin₂, hw, hf⟩
        exact ⟨hin₂, by rw [hw, hin.2], .inr ⟨hnew, hnow ▸ hf⟩⟩
    · -- the row is there: the transaction is ended here, and not by the `errdefer`
      have hdup : t.hasEvent (eventKey cfg ev lg) = true := by
        simpa [hfalse, eventRow] using (insertEvent_eq hu).1
      simp only [Prog.when, hg, if_true, meets_lift]
      exact meets_rollbackWrite hin.1 ⟨by rw [hin.2], hφ, .inl ⟨rfl, hdup⟩⟩
        ⟨rfl, by rw [OnlyConn, hin.2]⟩
  · rintro e w₁ ⟨hf, hin, hw₁⟩
    exact ⟨hin, hw₁, .inl hf⟩

/-- With the `errdefer`: an error leaves no transaction. -/
theorem meets_onErr_storeEvent (ev : Decoded) (lg : Log) (ts : Nat) (hg : cfg.guardTxn = true)
    (hc : w.conn = opened t t) :
    Meets (Prog.onErr (storeEvent env cfg ev lg ts) (rollbackWrite env)) w
      ⟨fun _ w' => w' = { w with conn := w'.conn, writeDepth := w.writeDepth - 1 } ∧
          env.faultAt w.now .insertEventLog = .none ∧
          ((w'.conn = quiet t ∧ t.hasEvent (eventKey cfg ev lg) = true) ∨
            (t.hasEvent (eventKey cfg ev lg) = false ∧
              StoreNewOk env cfg ev lg w.now w.mem.state t ts w'.conn)),
        fun _ w' => w' = { w with conn := quiet t, writeDepth := w.writeDepth - 1 } ∧
          (Failed (env.faultAt w.now .insertEventLog) ∨
            (t.hasEvent (eventKey cfg ev lg) = false ∧ StoreNewFails env cfg ev lg w.now)),
        Died w t⟩ := by
  rw [meets_onErr]
  refine (meets_storeEvent hg hc).mono (fun _ _ h => h) ?_ fun _ h => h
  rintro e w₁ ⟨⟨S, P, hin⟩, hw, hf⟩
  exact meets_rollbackWrite hin ⟨by rw [hw], hf⟩ ⟨rfl, by rw [OnlyConn, hw]⟩

end Store

/-! ### A delivery in a transaction -/

section Record

variable {env : Env} {cfg : Config} {ev : Decoded} {lg : Log} {w : World} {t : Tables}

/-- Only the database has changed, and the timestamps kept in memory. -/
def OnlyDb (w w' : World) : Prop :=
  w' = { w with
    conn := w'.conn
    writeDepth := w'.writeDepth
    mem := { w.mem with blockTsCache := w'.mem.blockTsCache } }

theorem onlyDb_refl (w : World) : OnlyDb w w := rfl

theorem OnlyDb.trans {a b c : World} (h₁ : OnlyDb a b) (h₂ : OnlyDb b c) : OnlyDb a c := by
  unfold OnlyDb at *
  rw [h₂, h₁]

theorem OnlyConn.onlyDb {w' : World} (h : OnlyConn w w') : OnlyDb w w' := by
  unfold OnlyConn at h
  unfold OnlyDb
  rw [h]

/-- The tables `t`, up to the blocks table. -/
def UpToBlocks (t : Tables) (c : Conn Tables) : Prop := ∃ b, c = quiet { t with blocks := b }

theorem upToBlocks_of {c : Conn Tables} (h : c = quiet t) : UpToBlocks t c := ⟨t.blocks, h⟩

theorem UpToBlocks.trans {t' : Tables} {c : Conn Tables} (h : UpToBlocks t (quiet t'))
    (h' : UpToBlocks t' c) : UpToBlocks t c := by
  obtain ⟨b, h⟩ := h
  obtain ⟨b', rfl⟩ := h'
  obtain rfl : t' = { t with blocks := b } := congrArg Conn.committed h
  exact ⟨b', rfl⟩

/-- Looking up a timestamp leaves the world as it was, up to timestamps. -/
def Looked (w : World) (t : Tables) (w' : World) : Prop :=
  OnlyDb w w' ∧ UpToBlocks t w'.conn

/-- The postcondition of everything that has no effect but to look up a timestamp. -/
def lookedPost (α : Type) (w : World) (t : Tables) : Post World Err α :=
  ⟨fun _ w' => Looked w t w' ∧ w'.writeDepth = w.writeDepth, fun _ _ => False, Looked w t⟩

theorem meets_rememberBlockTimestamp (hc : UpToBlocks t w.conn) {b ts : Nat} :
    Meets (rememberBlockTimestamp b ts) w (lookedPost Unit w t) :=
  ⟨⟨rfl, hc⟩, rfl⟩

theorem meets_getBlockTimestamp (hc : w.conn = quiet t) {chain : Text} {b : Nat} :
    Meets (Prog.catching (getBlockTimestamp env cfg chain b) fun _ =>
        (pure none : M (Option Nat))) w
      ⟨fun _ w' => w' = w, fun _ _ => False, Looked w t⟩ := by
  simp only [getBlockTimestamp, meets_execFind, execRead, meets_catching, meets_guarded, meets_exec,
    meets_pure, hc]
  refine meets_stmt_quiet.mono ?_ ?_ ?_
  · rintro _ c ⟨-, -, rfl⟩
    rw [← hc]
    rfl
  · rintro _ c ⟨-, rfl⟩
    rw [← hc]
    rfl
  · rintro c ⟨-, rfl⟩
    exact ⟨rfl, upToBlocks_of rfl⟩

theorem meets_upsertBlock (hc : w.conn = quiet t) {chain : Text} {d : BlockData} :
    Meets (ignoring (upsertBlock env cfg chain d)) w (lookedPost Unit w t) := by
  simp only [upsertBlock, execWrite, meets_ignoring, meets_guarded, meets_exec, hc]
  refine meets_stmt_quiet.mono ?_ ?_ ?_
  · rintro _ c ⟨-, -, rfl⟩
    exact ⟨⟨rfl, _, rfl⟩, rfl⟩
  · rintro _ c ⟨-, rfl⟩
    exact ⟨⟨rfl, upToBlocks_of rfl⟩, rfl⟩
  · rintro c ⟨-, rfl⟩
    exact ⟨rfl, upToBlocks_of rfl⟩

theorem meets_resolveBlockTimestamp (hc : w.conn = quiet t) {b : Nat} :
    Meets (resolveBlockTimestamp env cfg b) w (lookedPost Nat w t) := by
  have hsame : (lookedPost Nat w t).ok 0 w := ⟨⟨rfl, upToBlocks_of hc⟩, rfl⟩
  unfold resolveBlockTimestamp
  refine meets_ite (fun _ => hsame) fun _ => ?_
  simp only [getMem, meets_bind, meets_read]
  split
  · exact hsame
  rw [meets_bind]
  refine (meets_getBlockTimestamp hc).mono ?_ (fun _ _ h => h) fun _ h => h
  intro stored w₀ hw₀
  rw [hw₀]
  cases stored with
  | some ts =>
    simp only [meets_bind]
    exact meets_rememberBlockTimestamp (upToBlocks_of hc)
  | none =>
    simp only [meets_bind, meets_catching]
    refine meets_askAside (fun d => ?_) (fun _ => hsame) ⟨rfl, upToBlocks_of hc⟩
    cases d with
    | none => exact hsame
    | some d =>
      simp only [meets_bind]
      refine (meets_upsertBlock hc).mono ?_ (fun _ _ h => h) fun _ h => h
      rintro _ w₁ ⟨⟨h₁, hc₁⟩, hd⟩
      simp only
      refine (meets_rememberBlockTimestamp hc₁).mono ?_ (fun _ _ h => h) ?_
      · rintro _ w₂ ⟨⟨h₂, hc₂⟩, hd₂⟩
        exact ⟨⟨h₁.trans h₂, hc₂⟩, hd₂.trans hd⟩
      · rintro w₂ ⟨h₂, hc₂⟩
        exact ⟨h₁.trans h₂, hc₂⟩

theorem meets_dispatch {Φ : Post World Err Unit} (hyes : Discovers env cfg ev lg w.now → Φ.ok () w)
    (hno : ¬Discovers env cfg ev lg w.now → Φ.err .factoryFailed w) :
    Meets (dispatchFactory env cfg ev lg.blockNumber) w
      ⟨fun found w' => Meets (Prog.when (found = false) (Prog.throw .factoryFailed)) w' Φ,
        Φ.err, Φ.dead⟩ := by
  rw [dispatchFactory, meets_read]
  refine meets_when (fun h => hno fun hd => ?_) fun h => hyes ?_
  · rw [List.all_eq_true.2 hd] at h
    exact Bool.noConfusion h
  · exact List.all_eq_true.1 (Bool.not_eq_false _ ▸ h)

variable (env cfg ev lg)

/-- The tables have the event and everything it entails. -/
def Recorded (w : World) (t : Tables) (w' : World) : Prop :=
  ∃ b ts a, w'.conn = quiet (recorded env cfg ev lg w.now ts a { t with blocks := b })

/-- What a delivery of an event that did not die leaves, and why. -/
def Settles (w : World) (t : Tables) (w' : World) : Prop :=
  OnlyDb w w' ∧ w'.writeDepth = w.writeDepth ∧
    ((UpToBlocks t w'.conn ∧ (t.hasEvent (eventKey cfg ev lg) = true ∨
        ¬Commits env cfg ev lg w.now w.mem.state)) ∨
      (Recorded env cfg ev lg w t w' ∧ t.hasEvent (eventKey cfg ev lg) = false ∧
        Commits env cfg ev lg w.now w.mem.state))

variable {env cfg ev lg}

theorem Settles.quiet {w' : World} (h : Settles env cfg ev lg w t w') : w'.Quiet := by
  rcases h.2.2 with ⟨⟨b, hq⟩, -⟩ | ⟨⟨b, ts, a, hq⟩, -⟩ <;> rw [World.Quiet, hq] <;> rfl

/-- **A delivery in a transaction**: nothing or everything. -/
theorem meets_recordEvent (hg : cfg.guardTxn = true) (hc : w.conn = quiet t) :
    Meets (recordEvent env cfg ev lg) w
      ⟨fun _ w' => Settles env cfg ev lg w t w' ∧
          (t.hasEvent (eventKey cfg ev lg) = true ∨ ¬Refuses env cfg ev lg w.now),
        fun _ w' => Settles env cfg ev lg w t w' ∧ Refuses env cfg ev lg w.now,
        Looked w t⟩ := by
  obtain ⟨hcb, -⟩ : cfg.eventCallback = true ∧ cfg.backend ≠ .rocksdb := by
    simpa [Config.guardTxn] using hg
  simp only [recordEvent, callbackTimestamp, hcb, when_of hg, if_true, meets_bind]
  refine (meets_resolveBlockTimestamp hc).mono ?_ (fun _ _ h => h.elim) fun _ h => h
  rintro ts w₁ ⟨⟨h₁, b, hc₁⟩, hd₁⟩
  have hnow : w₁.now = w.now := by rw [h₁]
  have hmem : w₁.mem.state = w.mem.state := by rw [h₁]
  refine (meets_beginWrite hc₁).mono ?_ ?_ ?_
  · rintro _ w₂ ⟨hbeg, h₂⟩
    have hnow₂ : w₂.now = w.now := by rw [h₂, ← hnow]
    have hmem₂ : w₂.mem.state = w.mem.state := by rw [h₂, ← hmem]
    have hc₂ : w₂.conn = opened { t with blocks := b } { t with blocks := b } := by rw [h₂]
    have hdb : ∀ w₃ : World, w₃ = { w₂ with conn := w₃.conn, writeDepth := w₂.writeDepth - 1 } →
        OnlyDb w w₃ ∧ w₃.writeDepth = w.writeDepth := fun w₃ h =>
      ⟨h₁.trans (OnlyConn.onlyDb (by rw [OnlyConn, h, h₂])), by rw [h, h₂, ← hd₁]; rfl⟩
    rw [hnow] at hbeg
    refine (meets_onErr_storeEvent ev lg ts hg hc₂).mono ?_ ?_ ?_
    · rintro _ w₃ ⟨hw, hins, hst⟩
      rw [hnow₂] at hins hst
      rw [hmem₂] at hst
      obtain ⟨hdb, hdep⟩ := hdb w₃ hw
      have hset : Settles env cfg ev lg w t w₃ ∧ (t.hasEvent (eventKey cfg ev lg) = true ∨
          (handlerRun env cfg ev lg w.now).ok = true ∧
            env.faultAt w.now .commitWrite = .none) := by
        rcases hst with ⟨hq, hdup⟩ | ⟨hnew, hok, hcom, ⟨hsw, hq⟩ | ⟨hsw, a, hq⟩⟩
        · exact ⟨⟨hdb, hdep, .inl ⟨⟨b, hq⟩, .inl hdup⟩⟩, .inl hdup⟩
        · exact ⟨⟨hdb, hdep, .inl ⟨⟨b, hq⟩, .inr fun h => h.sound hsw⟩⟩, .inr ⟨hok, hcom⟩⟩
        · exact ⟨⟨hdb, hdep, .inr ⟨⟨b, ts, a, hq⟩, hnew, ⟨hbeg, hins, hsw, hok, hcom⟩⟩⟩,
            .inr ⟨hok, hcom⟩⟩
      have hnow₃ : w₃.now = w.now := by rw [hw, ← hnow₂]
      refine meets_dispatch (fun hd => ⟨hset.1, hset.2.imp id ?_⟩) fun hd => ⟨hset.1, ?_⟩
      · rw [hnow₃] at hd
        rintro ⟨hok, hcom⟩ hr
        simp [Refuses, hbeg, hins, hok, hcom, hd] at hr
      · rw [hnow₃] at hd
        exact .inr (.inr (.inr (.inr hd)))
    · rintro e w₃ ⟨hw, hf⟩
      rw [hnow₂] at hf
      obtain ⟨hdb, hdep⟩ := hdb w₃ (by rw [hw])
      have hq : w₃.conn = quiet { t with blocks := b } := by rw [hw]
      rcases hf with hf | ⟨-, hf⟩
      · refine ⟨⟨hdb, hdep, .inl ⟨⟨b, hq⟩, .inr fun h => ?_⟩⟩, .inr (.inl hf)⟩
        exact not_failed_none (h.inserts ▸ hf)
      · refine ⟨⟨hdb, hdep, .inl ⟨⟨b, hq⟩, .inr fun h => ?_⟩⟩, ?_⟩
        · rcases hf with hf | hf
          · simp [h.accepted] at hf
          · exact not_failed_none (h.commits ▸ hf)
        · exact .inr (.inr (hf.imp id .inl))
    · rintro w₃ ⟨hq, hw⟩
      exact ⟨h₁.trans (OnlyConn.onlyDb (by rw [OnlyConn, hw, h₂])), b, hq⟩
  · rintro e w₂ ⟨hf, rfl⟩
    rw [hnow] at hf
    refine ⟨⟨h₁, hd₁, .inl ⟨⟨b, hc₁⟩, .inr fun h => ?_⟩⟩, .inl hf⟩
    exact not_failed_none (h.begins ▸ hf)
  · rintro w₂ ⟨hq, hw⟩
    exact ⟨h₁.trans hw.onlyDb, b, hq⟩

end Record

end Zponder

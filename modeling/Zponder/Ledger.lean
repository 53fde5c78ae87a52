import Zponder.Balances
import Zponder.Scope
import Zponder.Lib.Machine
import Zponder.Lib.Postings

/-!
# The ledger of the stored transfers

`trackTokenTransferState` keeps a running total for every account, written beside the event row
it comes from. Whether the totals are those of the rows depends on every delivery: one that is
answered where the balances are read and written, of a transfer that is covered, outside a
replay, and not of an account to itself across two connections, keeps them so
(`Zponder.Ledger.meets_recordEvent_booked`); whatever else fails, and wherever the process dies.
The rest is that nobody else touches the two tables.
-/

namespace Zponder

namespace Ledger

open Imperative Prog Conn Balances

/-! ### What the rows say -/

/-- A table of the events of this name, of whatever contract. -/
def transferTable (table : Text) : Bool := "_transfer".toList.isSuffixOf table

/-- A transfer, as something that is posted. -/
def posting (tr : Transfer) : Posting Text := ⟨tr.sender, tr.receiver, tr.amount⟩

/-- What a row says of a contract. -/
def postingOf (contract : Text) (r : EventRow) : Option (Posting Text) :=
  if transferTable r.key.table = true ∧ r.key.contractAddress = contract then
    (transferOf r.fields).map posting
  else none

/-- What the transfers say that are stored of a contract. -/
def postings (t : Tables) (contract : Text) : List (Posting Text) :=
  t.events.filterMap (postingOf contract)

/-- **The balances of every contract are those of its stored transfers.** -/
def Booked (t : Tables) : Prop :=
  ∀ contract, Posting.Settled (postings t contract) (balance t contract)

theorem Booked.congr {t u : Tables} (h : Booked t) (hevents : u.events = t.events)
    (haccounts : u.accounts = t.accounts) : Booked u := by
  intro contract
  have hp : postings u contract = postings t contract := by rw [postings, hevents, postings]
  have hb : balance u contract = balance t contract := by
    funext a
    rw [balance, haccounts, balance]
  rw [hp, hb]
  exact h contract

theorem booked_empty : Booked {} := fun _ _ => rfl

theorem transferTable_eventTable (contractName : Text) :
    transferTable (eventTable contractName "Transfer".toList) = true := by
  rw [transferTable, List.isSuffixOf_iff_suffix, eventTable, Text.lower, List.map_append,
    List.map_append, List.append_assoc]
  exact ⟨_, rfl⟩

/-! ### A row -/

section Row

variable {cfg : Config} {ev : Decoded} {lg : Log} {t : Tables} {now : Nat}

/-- The tables with the row of an event. -/
def entered (cfg : Config) (ev : Decoded) (lg : Log) (now : Nat) (t : Tables) : Tables :=
  { t with events := t.events ++ [eventRow cfg ev lg now] }

theorem postings_entered (contract : Text) : postings (entered cfg ev lg now t) contract =
    postings t contract ++ (postingOf contract (eventRow cfg ev lg now)).toList := by
  rw [postings, entered, List.filterMap_append, postings]
  cases h : postingOf contract (eventRow cfg ev lg now) with
  | none => rw [List.filterMap_cons_none h, List.filterMap_nil, Option.toList_none]
  | some p => rw [List.filterMap_cons_some h, List.filterMap_nil, Option.toList_some]

/-- A row that moves nothing. -/
theorem Booked.entered (h : Booked t)
    (hnone : transferTable (eventTable cfg.contract.name ev.name) = true →
      transferOf ev.fields = none) : Booked (entered cfg ev lg now t) := by
  intro contract
  have hp : postingOf contract (eventRow cfg ev lg now) = none := by
    rw [postingOf]
    split
    · next hc => exact congrArg (Option.map posting) (hnone hc.1)
    · rfl
  rw [postings_entered, hp, Option.toList_none, List.append_nil]
  exact h contract

theorem transferred_events {base : Option Tables} {contract : Text} {tr : Transfer} {b : Nat} :
    (transferred cfg base contract tr b t).events = t.events := by
  unfold transferred received sent
  cases tr.receiver <;> cases tr.sender <;> rfl

/-- What is moved is posted. -/
theorem moved_posting {tr : Transfer} {before : Text → Nat} (hcov : Covered tr before) (a : Text) :
    moved tr before a + (posting tr).charge a = before a + (posting tr).credit a := by
  change moved tr before a + (if tr.sender = some a then tr.amount else 0) =
    before a + if tr.receiver = some a then tr.amount else 0
  have hhas := hcov.has a
  unfold moved
  by_cases hself : tr.sender = tr.receiver
  · rw [if_pos hself, hself]
  · rw [if_neg hself]
    by_cases hr : tr.receiver = some a
    · have hs : tr.sender ≠ some a := fun h => hself (h.trans hr.symm)
      rw [if_pos hr, if_neg hs, if_pos hr, Nat.add_zero]
    · by_cases hs : tr.sender = some a
      · have hle := hhas hs
        rw [if_neg hr, if_pos hs, if_pos hs, if_neg hr]
        omega
      · rw [if_neg hr, if_neg hs, if_neg hs, if_neg hr]

/-- **A row of a transfer, and the balances it makes.** -/
theorem Booked.transferred {base : Option Tables} {tr : Transfer} {b : Nat} (h : Booked t)
    (hname : ev.name = "Transfer".toList) (htr : transferOf ev.fields = some tr)
    (hsame : ∀ u ∈ base, u.accounts = t.accounts)
    (hfits : Fits cfg base tr (balance t (sourceAddress lg)))
    (hcov : Covered tr (balance t (sourceAddress lg))) :
    Booked (transferred cfg base (sourceAddress lg) tr b (Ledger.entered cfg ev lg now t)) := by
  have htable : transferTable (eventTable cfg.contract.name ev.name) = true := by
    rw [hname]
    exact transferTable_eventTable _
  have hbalance := balance_moved (t := Ledger.entered cfg ev lg now t) (b := b) hsame hfits hcov
  intro contract
  have hpostings : postings (Balances.transferred cfg base (sourceAddress lg) tr b
      (Ledger.entered cfg ev lg now t)) contract =
        postings (Ledger.entered cfg ev lg now t) contract := by
    rw [postings, transferred_events, postings]
  rw [hpostings, postings_entered, postingOf]
  by_cases hc : contract = sourceAddress lg
  · subst hc
    have hrow : (transferOf (eventRow cfg ev lg now).fields).map posting = some (posting tr) :=
      congrArg (Option.map posting) htr
    rw [if_pos ⟨htable, rfl⟩, hrow, Option.toList_some]
    refine (h (sourceAddress lg)).append fun a => ?_
    rw [hbalance, if_pos rfl]
    exact moved_posting hcov a
  · rw [if_neg fun hrow => hc hrow.2.symm, Option.toList_none, List.append_nil]
    have hsame : balance (Balances.transferred cfg base (sourceAddress lg) tr b
        (Ledger.entered cfg ev lg now t)) contract = balance t contract := by
      funext a
      rw [hbalance, if_neg hc]
      rfl
    rw [hsame]
    exact h contract

end Row

/-! ### The statements on balances -/

/-- The statements on balances are answered at a moment, whatever becomes of the others. -/
def AccountsAnswer (env : Env) (now : Nat) : Prop :=
  ∀ incoming, env.fault now (.getAccountBalance incoming) = .none ∧
    env.cut now (.getAccountBalance incoming) = none ∧
    env.fault now (.upsertAccountState incoming) = .none

/-- The same environment, where nothing else goes wrong either. -/
def accountsOnly (env : Env) : Env :=
  { env with
    fault := fun now call =>
      match call with
      | .getAccountBalance incoming => env.fault now (.getAccountBalance incoming)
      | .upsertAccountState incoming => env.fault now (.upsertAccountState incoming)
      | _ => .none
    cut := fun now call =>
      match call with
      | .getAccountBalance incoming => env.cut now (.getAccountBalance incoming)
      | _ => none }

theorem AccountsAnswer.answers {env : Env} {now : Nat} (h : AccountsAnswer env now) :
    Balances.Answers (accountsOnly env) now := by
  intro call
  unfold accountsOnly
  dsimp only
  constructor
  · split
    · exact (h _).1
    · exact (h _).2.2
    · rfl
  · split
    · exact (h _).2.1
    · rfl

/-- No other statement is sent. -/
theorem track_accountsOnly {env : Env} {cfg : Config} {contract : Text}
    {fields : List DecodedField} {b : Nat} :
    trackTokenTransferState (accountsOnly env) cfg contract fields b =
      trackTokenTransferState env cfg contract fields b := rfl

/-! ### One delivery -/

/-- The tables of the events and of the balances stay as they are. -/
def ledgerScope : Scope where
  tables := .keeping fun t => (t.events, t.accounts)
  mem := .any
  handed := .any
  requests := .any

/-- Whatever is committed or may still become so is booked. -/
def Fair (c : Conn Tables) : Prop := ∀ t, c.Holds t → Booked t

theorem Fair.of_linked {c c' : Conn Tables} (h : Fair c)
    (hc : (Linked ledgerScope.tables).rel c c') : Fair c' := by
  intro u hu
  obtain ⟨t, ht, hsame⟩ := hc u hu
  exact (h t ht).congr (congrArg Prod.fst hsame) (congrArg Prod.snd hsame)

theorem fair_linked {base : Option Tables} {v : Tables} (hbase : ∀ u ∈ base, Booked u)
    (hv : Booked v) : Fair (linked base v) := by
  intro t ht
  cases base with
  | none =>
    obtain rfl := holds_quiet.1 ht
    exact hv
  | some u =>
    rcases ht with rfl | ⟨x, hx, rfl⟩
    · exact hbase _ rfl
    · obtain rfl := Option.some.inj hx
      exact hv

theorem fair_quiet {c : Conn Tables} {t : Tables} (hc : c = quiet t) (ht : Booked t) : Fair c := by
  intro u hu
  rw [hc] at hu
  obtain rfl := holds_quiet.1 hu
  exact ht

section Delivery

variable {env : Env} {cfg : Config} {ev : Decoded} {lg : Log} {w : World} {t : Tables}
  {base : Option Tables}

/-- Everything that is left is fair, however it ends. -/
def fairPost (α : Type) : Post World Err α :=
  ⟨fun _ w => Fair w.conn, fun _ w => Fair w.conn, fun w => Fair w.conn⟩

theorem meets_fair {α : Type} {p : M α} (hp : Within ledgerScope.loose p) (hw : Fair w.conn) :
    Meets p w (fairPost α) :=
  (hp w).mono (fun _ _ h => hw.of_linked h.tables) (fun _ _ h => hw.of_linked h.tables)
    fun _ h => hw.of_linked h.tables

theorem within_callback {k : EventKey} {c : EventCall} {ts : Nat} :
    Within ledgerScope.loose (runCallback env cfg k c ts) :=
  within_bind (within_read _) fun _ => within_ite (fun _ => within_pure _) fun _ =>
    within_bind (within_ignoring (within_onConn_stmt fun _ => rfl)).left fun _ =>
      within_bind (within_ignoring (within_onConn_stmt fun _ => rfl)).left fun _ => within_pure _

/-- A row is entered in what the connection sees, or it is there, or nothing becomes of it. -/
theorem meets_insertRow (hb : cfg.backend ≠ .rocksdb) (hc : w.conn = linked base t) :
    Meets (insertEventLog env cfg cfg.contract.name ev.name ev.fields lg.blockNumber
        lg.transactionHash lg.logIndex (sourceAddress lg)) w
      ⟨fun new w' => (new = true ∧ t.hasEvent (eventKey cfg ev lg) = false ∧
            w' = { w with conn := linked base (entered cfg ev lg w.now t) }) ∨
          (new = false ∧ t.hasEvent (eventKey cfg ev lg) = true ∧ w' = w),
        fun _ w' => (Linked ledgerScope.tables).rel w.conn w'.conn,
        fun w' => (Linked ledgerScope.tables).rel w.conn w'.conn⟩ := by
  have hinsert : (t.hasEvent (eventKey cfg ev lg) = false ∧
        t.insertEvent (eventRow cfg ev lg w.now) = (true, entered cfg ev lg w.now t)) ∨
      (t.hasEvent (eventKey cfg ev lg) = true ∧
        t.insertEvent (eventRow cfg ev lg w.now) = (false, t)) := by
    unfold Tables.insertEvent
    split
    · next h => exact .inr ⟨h, rfl⟩
    · next h => exact .inl ⟨Bool.not_eq_true _ ▸ h, rfl⟩
  have hrun : Meets (exec env cfg .insertEventLog
      (Tables.insertEvent (eventRow cfg ev lg w.now))) { w with writeDepth := w.writeDepth + 1 }
      ⟨fun new w' => (new = true ∧ t.hasEvent (eventKey cfg ev lg) = false ∧
            leave w' = { w with conn := linked base (entered cfg ev lg w.now t) }) ∨
          (new = false ∧ t.hasEvent (eventKey cfg ev lg) = true ∧ leave w' = w),
        fun _ w' => (Linked ledgerScope.tables).rel w.conn w'.conn,
        fun w' => (Linked ledgerScope.tables).rel w.conn w'.conn⟩ := by
    rw [meets_exec]
    unfold Meets
    dsimp only
    cases env.faultAt w.now .insertEventLog with
    | none =>
      rw [hc, stmt_linked]
      rcases hinsert with ⟨hnew, heq⟩ | ⟨hdup, heq⟩
      · rw [heq]
        exact .inl ⟨rfl, hnew, rfl⟩
      · rw [heq]
        refine .inr ⟨rfl, hdup, ?_⟩
        rw [← hc]
        rfl
    | fail e =>
      rw [stmt_fail]
      exact linked_hurt _ _
    | crash =>
      rw [stmt_crash]
      exact linked_lost _
  unfold insertEventLog
  rw [meets_guarded, meets_bind, meets_read]
  cases hbk : cfg.backend with
  | rocksdb => exact absurd hbk hb
  | sqlite => exact hrun
  | postgresql => exact hrun

/-- A transfer can be posted at a moment: the balances are answered and are not left for later,
it is covered, and it is not one of an account to itself that reads past its own transaction. -/
structure Postable (env : Env) (cfg : Config) (now : Nat) (state : IndexerState)
    (before : Text → Nat) (tr : Transfer) : Prop where
  answers : AccountsAnswer env now
  live : state ≠ .replaying
  covered : Covered tr before
  apart : cfg.guardTxn = true → Aside cfg → tr.sender ≠ none → tr.sender = tr.receiver →
    tr.amount = 0

theorem Postable.fits {now : Nat} {state : IndexerState} {before : Text → Nat} {tr : Transfer}
    (h : Postable env cfg now state before tr) (hbase : ∀ u ∈ base, cfg.guardTxn = true) :
    Fits cfg base tr before := by
  refine ⟨fun a hr _ => h.covered.room a hr, fun a hr hs hapart => .inl ?_⟩
  obtain ⟨u, hu⟩ := Option.isSome_iff_exists.1 hapart.2
  exact h.apart (hbase u hu) hapart.1 (by rw [hs]; exact Option.some_ne_none a) (hs.trans hr.symm)

/-- An event can be entered at a moment: its table is one of transfers only if it is one, and
then it can be posted. -/
structure Enterable (env : Env) (cfg : Config) (now : Nat) (state : IndexerState)
    (before : Text → Nat) (ev : Decoded) : Prop where
  named : transferTable (eventTable cfg.contract.name ev.name) = true →
    ev.name = "Transfer".toList
  posts : ev.name = "Transfer".toList → ∀ tr, transferOf ev.fields = some tr →
    Postable env cfg now state before tr

/-- The balances of a new event. -/
theorem meets_post (hc : w.conn = linked base (entered cfg ev lg w.now t))
    (hbase : ∀ u ∈ base, u = t ∧ cfg.guardTxn = true) (ht : Booked t)
    (hev : Enterable env cfg w.now w.mem.state (balance t (sourceAddress lg)) ev) :
    Meets (Prog.when (ev.name = "Transfer".toList)
        (trackTokenTransferState env cfg (sourceAddress lg) ev.fields lg.blockNumber)) w
      (fairPost Unit) := by
  have hbooked : ∀ u ∈ base, Booked u := fun u hu => (hbase u hu).1 ▸ ht
  refine meets_when (fun hname => ?_) fun hname => ?_
  · cases htr : transferOf ev.fields with
    | none =>
      have hskip : Meets (trackTokenTransferState env cfg (sourceAddress lg) ev.fields
          lg.blockNumber) w ⟨fun _ w' => w' = w, fun _ _ => False, fun _ => False⟩ := by
        simp only [trackTokenTransferState, getMem, meets_bind, meets_read, htr]
        exact meets_ite (fun _ => rfl) fun _ => rfl
      refine hskip.mono ?_ (fun _ _ h => h.elim) fun _ h => h.elim
      intro _ w₁ hw₁
      change Fair w₁.conn
      rw [hw₁, hc]
      exact fair_linked hbooked (ht.entered fun _ => htr)
    | some tr =>
      have hpost := hev.posts hname tr htr
      have hfits := hpost.fits fun u hu => (hbase u hu).2
      have hsame : ∀ u ∈ base, u.accounts = (entered cfg ev lg w.now t).accounts := fun u hu => by
        rw [(hbase u hu).1]
        rfl
      have hsums : SumFits cfg base (sourceAddress lg) tr lg.blockNumber
          (entered cfg ev lg w.now t) := by
        intro r hr
        have hroom : balance (entered cfg ev lg w.now t) (sourceAddress lg) r + tr.amount <
            2 ^ 256 := hpost.covered.room r hr
        rw [balance_seen_sent hsame]
        split <;> omega
      have hrun := track_eq hpost.answers.answers hc hpost.live htr hsums
      rw [track_accountsOnly] at hrun
      unfold Meets
      rw [hrun]
      exact fair_linked hbooked (ht.transferred hname htr hsame hfits hpost.covered)
  · change Fair w.conn
    rw [hc]
    exact fair_linked hbooked (ht.entered fun htable => absurd (hev.named htable) hname)

/-- The storing of a new event. -/
theorem meets_storeNew_fair {ts : Nat} (hc : w.conn = linked base (entered cfg ev lg w.now t))
    (hbase : ∀ u ∈ base, u = t ∧ cfg.guardTxn = true) (ht : Booked t)
    (hev : Enterable env cfg w.now w.mem.state (balance t (sourceAddress lg)) ev) :
    Meets (storeNew env cfg ev lg ts) w (fairPost Unit) := by
  unfold storeNew
  rw [meets_bind]
  refine (meets_post hc hbase ht hev).mono (fun _ w₁ hw₁ => meets_fair ?_ hw₁) (fun _ _ h => h)
    fun _ h => h
  exact within_bind (within_when fun _ => within_bind within_callback fun _ =>
    within_when fun _ => within_throw _) fun _ => within_when fun _ => within_commitWrite

/-- The part under the `errdefer`. -/
theorem meets_storeEvent_fair {ts : Nat} (hb : cfg.backend ≠ .rocksdb)
    (hc : w.conn = linked base t) (hbase : ∀ u ∈ base, u = t ∧ cfg.guardTxn = true)
    (ht : Booked t)
    (hev : t.hasEvent (eventKey cfg ev lg) = false →
      Enterable env cfg w.now w.mem.state (balance t (sourceAddress lg)) ev) :
    Meets (storeEvent env cfg ev lg ts) w (fairPost Unit) := by
  have hfair : Fair w.conn := by
    rw [hc]
    exact fair_linked (fun u hu => (hbase u hu).1 ▸ ht) ht
  unfold storeEvent
  rw [meets_bind]
  refine (meets_insertRow hb hc).mono ?_ (fun _ _ h => hfair.of_linked h) fun _ h =>
    hfair.of_linked h
  rintro new w₁ (⟨hnew, hmissing, hw₁⟩ | ⟨hnew, -, hw₁⟩)
  · refine meets_ite (fun _ => ?_) fun h => absurd hnew h
    rw [hw₁]
    exact meets_storeNew_fair (w := { w with conn := linked base (entered cfg ev lg w.now t) }) rfl
      hbase ht (hev hmissing)
  · -- the row is there: nothing is done but to end the transaction
    refine meets_ite (fun h => absurd (hnew.symm.trans h) Bool.false_ne_true) fun _ => ?_
    rw [hw₁]
    exact meets_fair (within_when fun _ => within_lift within_rollbackWrite) hfair

/-- With a transaction, or without one. -/
theorem meets_begun (hc : w.conn = quiet t) (ht : Booked t) :
    Meets (Prog.when (cfg.guardTxn = true) (beginWrite env cfg)) w
      ⟨fun _ w' => ∃ base, (∀ u ∈ base, u = t ∧ cfg.guardTxn = true) ∧
          w'.conn = linked base t ∧ w'.now = w.now ∧ w'.mem = w.mem,
        fun _ w' => Fair w'.conn, fun w' => Fair w'.conn⟩ := by
  refine meets_when (fun hg => ?_) fun _ => ?_
  · refine (meets_beginWrite hc).mono ?_ ?_ ?_
    · rintro _ w' ⟨-, rfl⟩
      refine ⟨some t, fun u hu => ?_, rfl, rfl, rfl⟩
      exact ⟨(Option.some.inj hu).symm, hg⟩
    · rintro _ w' ⟨-, rfl⟩
      exact fair_quiet hc ht
    · rintro w' ⟨hq, -⟩
      exact fair_quiet hq ht
  · refine ⟨none, fun u hu => ?_, hc, rfl, rfl⟩
    cases hu

/-- **A delivery keeps the ledger.** -/
theorem meets_recordEvent_booked (hb : cfg.backend ≠ .rocksdb) (hc : w.conn = quiet t)
    (ht : Booked t)
    (hev : t.hasEvent (eventKey cfg ev lg) = false →
      Enterable env cfg w.now w.mem.state (balance t (sourceAddress lg)) ev) :
    Meets (recordEvent env cfg ev lg) w (fairPost Unit) := by
  have hts : Meets (callbackTimestamp env cfg lg.blockNumber) w (lookedPost Nat w t) :=
    meets_ite (fun _ => meets_resolveBlockTimestamp hc) fun _ =>
      ⟨⟨onlyDb_refl w, upToBlocks_of hc⟩, rfl⟩
  have hblocks : ∀ b, Booked { t with blocks := b } := fun b => ht.congr rfl rfl
  have hrollback : Within ledgerScope.loose
      (Prog.when (cfg.guardTxn = true) (rollbackWrite env)) := within_when fun _ =>
    within_rollbackWrite
  unfold recordEvent
  simp only [meets_bind, meets_onErr]
  refine hts.mono ?_ (fun _ _ h => h.elim) ?_
  · rintro ts w₁ ⟨⟨h₁, b, hc₁⟩, -⟩
    have hnow : w₁.now = w.now := by rw [h₁]
    have hstate : w₁.mem.state = w.mem.state := by rw [h₁]
    refine (meets_begun hc₁ (hblocks b)).mono ?_ (fun _ _ h => h) fun _ h => h
    rintro _ w₂ ⟨base, hbase, hc₂, hnow₂, hmem₂⟩
    have hstored : Meets (storeEvent env cfg ev lg ts) w₂ (fairPost Unit) := by
      refine meets_storeEvent_fair hb hc₂ hbase (hblocks b) fun hnew => ?_
      rw [hnow₂, hmem₂, hnow, hstate]
      exact hev hnew
    refine hstored.mono (fun _ w₃ hw₃ => ?_) (fun _ w₃ hw₃ => ?_) fun _ h => h
    · exact meets_when (fun _ => hw₃) fun _ => hw₃
    · exact (hrollback w₃).mono (fun _ _ h => hw₃.of_linked h.tables) (fun e => e.elim)
        fun _ h => hw₃.of_linked h.tables
  · rintro w₁ ⟨-, b, hc₁⟩
    exact fair_quiet hc₁ (hblocks b)

/-- What is needed of the delivery of a log: that its event can be entered, unless its row is
there. -/
def Deliverable (env : Env) (cfg : Config) (w : World) (lg : Log) : Prop :=
  ∀ ev, classify cfg lg = .ok (some ev) → w.db.hasEvent (eventKey cfg ev lg) = false →
    Enterable env cfg w.now w.mem.state (balance w.db (sourceAddress lg)) ev

/-- No transaction is open, and the ledger is that of the rows. -/
structure Sound (w : World) : Prop where
  quiet : w.Quiet
  booked : Booked w.db

theorem Sound.of_fair {w : World} (hquiet : w.Quiet) (h : Fair w.conn) : Sound w :=
  ⟨hquiet, h _ (holds_committed _)⟩

/-- Soundly, however it ends; a death closes the connection. -/
def soundPost (α : Type) : Post World Err α :=
  ⟨fun _ => Sound, fun _ => Sound, fun w => Booked w.db⟩

theorem meets_sound {α : Type} {p : M α} (hp : Within ledgerScope.frame p) (hw : Sound w) :
    Meets p w (soundPost α) := by
  have hfair : Fair w.conn := fair_quiet (eq_quiet hw.quiet) hw.booked
  refine (hp w).mono ?_ ?_ ?_
  · exact fun _ w' h => .of_fair (h.2 hw.quiet) (hfair.of_linked h.1.tables)
  · exact fun _ w' h => .of_fair (h.2 hw.quiet) (hfair.of_linked h.1.tables)
  · exact fun w' h => hfair.of_linked h.1.tables _ (holds_committed _)

/-- A scope that tolerates everything. -/
def anyScope : Scope where
  tables := .any
  mem := .any
  handed := .any
  requests := .any

theorem anyScope_delivers : anyScope.Delivers where
  events _ _ := trivial
  accounts _ _ := trivial
  blocks _ _ := trivial
  callback _ _ _ := trivial
  rawLogs _ _ _ := trivial
  tsCache _ _ := trivial
  handed _ _ := trivial

theorem meets_processLog_sound (hb : cfg.backend ≠ .rocksdb) (hw : Sound w)
    (hlog : Deliverable env cfg w lg) : Meets (processLog env cfg lg) w (soundPost Unit) := by
  have hcalm : Within anyScope.frame (processLog env cfg lg) := within_processLog anyScope_delivers
  have hfair : Meets (processLog env cfg lg) w (fairPost Unit) := by
    have hquiet : Fair w.conn := fair_quiet (eq_quiet hw.quiet) hw.booked
    unfold processLog
    rw [meets_bind, meets_modify]
    cases h : classify cfg lg with
    | error e => exact hquiet
    | ok found =>
      cases found with
      | none => exact hquiet
      | some ev =>
        exact meets_recordEvent_booked (w := { w with handed := w.handed ++ [lg] }) hb
          (eq_quiet hw.quiet) hw.booked (hlog ev h)
  refine (hfair.and (hcalm w)).mono ?_ ?_ ?_
  · exact fun _ w' h => .of_fair (h.2.2 hw.quiet) h.1
  · exact fun _ w' h => .of_fair (h.2.2 hw.quiet) h.1
  · exact fun w' h => h.1 _ (holds_committed _)

theorem within_recordFailedLog_ledger {reason : Text} :
    Within ledgerScope.frame (recordFailedLog env cfg lg reason) := by
  refine within_ignoring (within_guarded ?_)
  split
  · exact within_execWrite fun _ => rfl
  · refine within_execWrite fun t => ?_
    unfold Tables.insertRawLog
    split <;> rfl

/-- A log of a scan, of the cache or of the subscription. -/
theorem meets_deliver_sound (hb : cfg.backend ≠ .rocksdb) (hw : Sound w)
    (hlog : Deliverable env cfg w lg) : Meets (deliver env cfg lg) w (soundPost Unit) := by
  unfold deliver
  rw [meets_bind, meets_catching]
  refine (meets_processLog_sound hb hw hlog).mono ?_ ?_ fun _ h => h
  · exact fun _ w' h => meets_sound within_tick h
  · intro e w' h
    refine (meets_sound within_recordFailedLog_ledger h).mono ?_ (fun _ _ h => h) fun _ h => h
    exact fun _ w'' h => meets_sound within_tick h

/-- A dead letter. -/
theorem meets_retryDeadLetter_sound (hb : cfg.backend ≠ .rocksdb) (hw : Sound w) {now : Nat}
    {row : RawLogRow} (hlog : Deliverable env cfg w (logOfRow cfg row)) :
    Meets (retryDeadLetter env cfg now row) w (soundPost Unit) := by
  have hbump : ∀ id after, Within ledgerScope.frame (bumpRawLogAttempt env cfg id after) := by
    intro id after
    refine within_guarded ?_
    split
    · exact within_pure _
    · exact within_execWrite fun _ => rfl
  have hdelete : ∀ id, Within ledgerScope.frame (deleteRawLog env cfg id) := by
    intro id
    refine within_guarded ?_
    split
    · exact within_pure _
    · exact within_execWrite fun _ => rfl
  unfold retryDeadLetter
  rw [meets_bind, meets_attempt]
  refine (meets_processLog_sound hb hw hlog).mono ?_ ?_ fun _ h => h
  · exact fun _ w' h => meets_sound (within_bind (within_ignoring (hdelete _)) fun _ =>
      within_tick) h
  · exact fun _ w' h => meets_sound (within_bind (within_ignoring (hbump _ _)) fun _ =>
      within_tick) h

end Delivery

/-! ### Any number of deliveries -/

/-- What the rest of the program does between two deliveries: anything, but to the tables of the
events and of the balances. -/
structure Elsewhere where
  world : World → World
  tables : Tables → Tables
  keeps : ∀ t, (tables t).events = t.events ∧ (tables t).accounts = t.accounts

/-- The state after it. -/
def Elsewhere.apply (o : Elsewhere) (w : World) : World :=
  { o.world w with conn := quiet (o.tables w.db) }

/-- An indexer on a backend with columns, and everything it cannot know. -/
structure Indexer where
  env : Env
  cfg : Config
  columns : cfg.backend ≠ .rocksdb

/-- What happens next: a log of a scan, of the cache or of the subscription is delivered, or a
dead letter, by any indexer; the process is started again; or something else. -/
inductive Act where
  | deliver (i : Indexer) (lg : Log)
  | retry (i : Indexer) (now : Nat) (row : RawLogRow)
  | restart
  | elsewhere (o : Elsewhere)

/-- The process is started again. -/
def restarted (w : World) : World := { w with conn := w.conn.lost, writeDepth := 0 }

/-- The world a program leaves. A process that has died is started again. -/
def after {α : Type} (p : M α) (w : World) : World :=
  match p w with
  | (.crash, w') => restarted w'
  | (_, w') => w'

/-- One step. -/
def step (w : World) : Act → Option World
  | .deliver i lg => some (after (deliver i.env i.cfg lg) w)
  | .retry i now row => some (after (retryDeadLetter i.env i.cfg now row) w)
  | .restart => some (restarted w)
  | .elsewhere o => some (o.apply w)

/-- Every sequence of deliveries, from a world to begin with. -/
def deliveries (w : World) : Machine World Act := ⟨w, step⟩

/-- A step that keeps the ledger. -/
def Keeps (w : World) : Act → Prop
  | .deliver i lg => Deliverable i.env i.cfg w lg
  | .retry i _ row => Deliverable i.env i.cfg w (logOfRow i.cfg row)
  | _ => True

theorem sound_restarted {w : World} (h : Booked w.db) : Sound (restarted w) := ⟨rfl, h⟩

theorem sound_after {α : Type} {p : M α} {w : World} (h : Meets p w (soundPost α)) :
    Sound (after p w) := by
  unfold Meets at h
  unfold after
  rcases heq : p w with ⟨_ | _ | _, w'⟩
  · rw [heq] at h
    exact h
  · rw [heq] at h
    exact h
  · rw [heq] at h
    exact sound_restarted h

theorem sound_step {w w' : World} {a : Act} (hw : Sound w) (ha : Keeps w a)
    (h : step w a = some w') : Sound w' := by
  cases a with
  | deliver i lg =>
    obtain rfl := Option.some.inj h
    exact sound_after (meets_deliver_sound i.columns hw ha)
  | retry i now row =>
    obtain rfl := Option.some.inj h
    exact sound_after (meets_retryDeadLetter_sound i.columns hw ha)
  | restart =>
    obtain rfl := Option.some.inj h
    exact sound_restarted hw.booked
  | elsewhere o =>
    obtain rfl := Option.some.inj h
    exact ⟨rfl, hw.booked.congr (o.keeps _).1 (o.keeps _).2⟩

/-- **The balances are the ledger of the stored transfers**: in every state that deliveries of
any kind lead to, an account has what the stored transfers have brought it less what they have
taken from it, and together the accounts have what is new less what is gone. -/
theorem balances_settled {w₀ w : World} (hquiet : w₀.Quiet) (hbooked : Booked w₀.db)
    (h : (deliveries w₀).Reaches Keeps w) (contract : Text) :
    Posting.Settled (postings w.db contract) (balance w.db contract) ∧
      ∀ s : Finset Text, (∀ p ∈ postings w.db contract, p.Among s) →
        ∑ a ∈ s, balance w.db contract a + Posting.burnt (postings w.db contract) =
          Posting.minted (postings w.db contract) := by
  have hinit : Sound (deliveries w₀).init := ⟨hquiet, hbooked⟩
  have hsound : Sound w := h.invariant hinit fun _ _ _ hs ha hstep => sound_step hs ha hstep
  have hsettled := hsound.booked contract
  exact ⟨hsettled, fun s hs => hsettled.supply hs⟩

/-- The fields of a transfer. -/
def transferFields (sender receiver amount : Text) : List DecodedField :=
  [⟨"from".toList, sender⟩, ⟨"to".toList, receiver⟩, ⟨"value".toList, amount⟩]

/-- An indexer on SQLite with the event of the balances. -/
def tokenIndexer : Indexer where
  env := {}
  cfg := { plainConfig with
    eventCallback := true
    abi := some
      { findEventByName := fun _ => some ⟨"Transfer".toList, []⟩
        findEventByTopic0 := fun _ => some ⟨"Transfer".toList, []⟩
        decodeLog := fun _ topics data =>
          .ok (transferFields (topics.getD 1 []) (topics.getD 2 []) data) } }
  columns := by decide

def bob : Text := "0xbb".toList

/-- One of its logs. -/
def transferLog (sender receiver amount : Text) (logIndex : Nat) : Log where
  address := token
  topics := ["0x".toList ++ List.replicate 64 '0', sender, receiver]
  data := amount
  blockNumber := 7
  transactionHash := "0x01".toList
  logIndex := logIndex

/-- Five are new, and three of them are passed on. -/
def mintLog : Log := transferLog zeroAddr alice "5".toList 0
def payLog : Log := transferLog alice bob "3".toList 1

/-- The world after the first, and after both. -/
def mintedWorld : World := after (deliver tokenIndexer.env tokenIndexer.cfg mintLog) freshWorld
def paidWorld : World := after (deliver tokenIndexer.env tokenIndexer.cfg payLog) mintedWorld

/-- Where nothing fails, what is needed of a transfer is that it is covered. -/
theorem deliverable_token {w : World} {lg : Log} (fields : List DecodedField) {tr : Transfer}
    (hclassify : classify tokenIndexer.cfg lg = .ok (some ⟨"Transfer".toList, fields⟩))
    (htr : transferOf fields = some tr) (hlive : w.mem.state ≠ .replaying)
    (hcov : Covered tr (balance w.db (sourceAddress lg))) :
    Deliverable tokenIndexer.env tokenIndexer.cfg w lg := by
  intro ev hev _
  obtain rfl : (⟨"Transfer".toList, fields⟩ : Decoded) = ev :=
    Option.some.inj (Except.ok.inj (hclassify.symm.trans hev))
  refine ⟨fun _ => rfl, fun _ tr' htr' => ?_⟩
  obtain rfl := Option.some.inj (htr.symm.trans htr')
  exact ⟨fun _ => ⟨rfl, rfl, rfl⟩, hlive, hcov, fun _ h => absurd h.2 Bool.false_ne_true⟩

theorem balances_settled_paid : Posting.Settled (postings paidWorld.db (sourceAddress payLog))
      (balance paidWorld.db (sourceAddress payLog)) ∧
    ∀ s : Finset Text, (∀ p ∈ postings paidWorld.db (sourceAddress payLog), p.Among s) →
      ∑ a ∈ s, balance paidWorld.db (sourceAddress payLog) a +
          Posting.burnt (postings paidWorld.db (sourceAddress payLog)) =
        Posting.minted (postings paidWorld.db (sourceAddress payLog)) := by
  have hmint : Covered ⟨none, some alice, 5⟩ (balance freshWorld.db (sourceAddress mintLog)) := by
    refine ⟨fun a ha => (by cases ha), fun a ha => ?_⟩
    obtain rfl := Option.some.inj ha
    decide +kernel
  have hpay : Covered ⟨some alice, some bob, 3⟩
      (balance mintedWorld.db (sourceAddress payLog)) := by
    refine ⟨fun a ha => ?_, fun a ha => ?_⟩
    · obtain rfl := Option.some.inj ha
      decide +kernel
    · obtain rfl := Option.some.inj ha
      decide +kernel
  have hminted : (deliveries freshWorld).Reaches Keeps mintedWorld :=
    Machine.Reaches.step (a := .deliver tokenIndexer mintLog) .init
      (deliverable_token (transferFields zeroAddr alice "5".toList) (by decide +kernel)
        (by decide +kernel) (by decide) hmint) rfl
  have hpaid : (deliveries freshWorld).Reaches Keeps paidWorld :=
    hminted.step (a := .deliver tokenIndexer payLog)
      (deliverable_token (transferFields alice bob "3".toList) (by decide +kernel)
        (by decide +kernel) (by decide +kernel) hpay) rfl
  have hquiet : freshWorld.Quiet := rfl
  exact balances_settled hquiet booked_empty hpaid (sourceAddress payLog)

example : balance paidWorld.db (sourceAddress payLog) alice = 2 ∧
    balance paidWorld.db (sourceAddress payLog) bob = 3 := by decide +kernel

end Ledger

end Zponder

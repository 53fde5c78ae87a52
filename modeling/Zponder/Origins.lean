import Zponder.Custody

/-!
# Where rows come from

A delivery enters at most one event, under the name of its log and in its block, and writes at
most one letter, of its log (`Zponder.Custody.meets_deliver_brings`). A round of letters enters
events of the letters it tries, and writes no new letter
(`Zponder.Custody.entered_retryDeadLetters`). This holds however they end, so that the rows of an
indexer can be traced back to the logs that were handed to it.
-/

namespace Zponder

namespace Custody

open Imperative Prog Conn DeadLetters

/-- A row that bears the name of a log, and is of its block. -/
structure Bears (e : EventRow) (lg : Log) : Prop where
  hash : e.key.txHash = lg.transactionHash
  index : e.key.logIndex = lg.logIndex
  block : e.blockNumber = lg.blockNumber

/-- New events are of a log. -/
def Entered (lg : Log) (t u : Tables) : Prop := ∀ e ∈ u.events, e ∈ t.events ∨ Bears e lg

/-- What a delivery brings: an event of its log, or a letter for it. -/
structure Brings (cfg : Config) (lg : Log) (t u : Tables) : Prop where
  events : Entered lg t u
  letters : ∀ r ∈ u.rawLogs, r ∈ t.rawLogs ∨
    ∃ reason n, r = { letterOf cfg lg reason with id := n }

theorem Entered.refl (lg : Log) (t : Tables) : Entered lg t t := fun _ => .inl

theorem Entered.trans {lg : Log} {t u v : Tables} (h : Entered lg t u) (h' : Entered lg u v) :
    Entered lg t v :=
  fun e he => (h' e he).elim (h e) .inr

theorem entered_of_eq {lg : Log} {t u : Tables} (h : u.events = t.events) : Entered lg t u :=
  fun _ he => .inl (h ▸ he)

section Delivery

variable {env : Env} {cfg : Config} {ev : Decoded} {lg : Log} {w : World} {t₀ t : Tables}
  {base : Option Tables}

/-- What the connection holds has been entered since `t₀`. -/
def Held (lg : Log) (t₀ : Tables) (c : Conn Tables) : Prop := ∀ u, c.Holds u → Entered lg t₀ u

theorem held_quiet (h : Entered lg t₀ t) : Held lg t₀ (quiet t) := by
  intro u hu
  rwa [holds_quiet.1 hu]

theorem held_linked (hbase : ∀ u ∈ base, Entered lg t₀ u) (h : Entered lg t₀ t) :
    Held lg t₀ (Balances.linked base t) := by
  intro u hu
  cases base with
  | none => rwa [holds_quiet.1 hu]
  | some b =>
    rcases hu with rfl | ⟨x, hx, rfl⟩
    · exact hbase _ rfl
    · rwa [← Option.some.inj hx]

/-- Whatever the end, what is held has been entered since `t₀`. -/
def heldPost (lg : Log) (t₀ : Tables) (ε α : Type) : Post World ε α :=
  ⟨fun _ w => Held lg t₀ w.conn, fun _ w => Held lg t₀ w.conn, fun w => Held lg t₀ w.conn⟩

/-- What brings events of any one block only brings none. -/
theorem meets_held {ε α : Type} {p : Prog World ε α} (hp : ∀ b, Within (bringScope b).loose p)
    (hw : Held lg t₀ w.conn) : Meets p w (heldPost lg t₀ ε α) := by
  have hheld : ∀ w' : World, (bringScope 0).Rel w w' → (bringScope 1).Rel w w' →
      Held lg t₀ w'.conn := by
    intro w' h₀ h₁ u hu e he
    obtain ⟨u₀, hu₀, hbrought₀⟩ := h₀.tables u hu
    obtain ⟨u₁, hu₁, hbrought₁⟩ := h₁.tables u hu
    rcases hbrought₀.events e he with hold | hzero
    · exact hw u₀ hu₀ e hold
    rcases hbrought₁.events e he with hold | hone
    · exact hw u₁ hu₁ e hold
    · exact absurd (hzero.symm.trans hone) Nat.zero_ne_one
  exact ((hp 0 w).and (hp 1 w)).mono (fun _ w' h => hheld w' h.1 h.2)
    (fun _ w' h => hheld w' h.1 h.2) fun w' h => hheld w' h.1 h.2

/-- What follows the insertion of a row. -/
theorem meets_storeNew_held {ts : Nat} (hw : Held lg t₀ w.conn) :
    Meets (storeNew env cfg ev lg ts) w (heldPost lg t₀ Err Unit) := by
  refine meets_held (fun b => ?_) hw
  have hS := bringScope_stores b
  refine within_bind (within_when fun _ => (within_trackTokenTransferState hS).left) fun _ => ?_
  refine within_bind (within_when fun _ => within_bind (within_runCallback hS).left fun _ =>
    within_when fun _ => within_throw _) fun _ => ?_
  exact within_when fun _ => within_commitWrite

/-- What a failed insertion leaves. -/
theorem Held.of_linked {c c' : Conn Tables} (h : Held lg t₀ c)
    (hc : (Linked Ledger.ledgerScope.tables).rel c c') : Held lg t₀ c' := by
  intro u hu e he
  obtain ⟨v, hv, hsame⟩ := hc u hu
  have hevents : u.events = v.events := congrArg Prod.fst hsame
  exact h v hv e (hevents ▸ he)

/-- The part under the `errdefer`. -/
theorem meets_storeEvent_held {ts : Nat} (hb : cfg.backend ≠ .rocksdb)
    (hc : w.conn = Balances.linked base t) (hbase : ∀ u ∈ base, Entered lg t₀ u)
    (ht : Entered lg t₀ t) : Meets (storeEvent env cfg ev lg ts) w (heldPost lg t₀ Err Unit) := by
  have hheld : Held lg t₀ w.conn := hc ▸ held_linked hbase ht
  unfold storeEvent
  rw [meets_bind]
  refine (Ledger.meets_insertRow hb hc).mono ?_ (fun _ _ h => hheld.of_linked h) fun _ h =>
    hheld.of_linked h
  rintro new w₁ (⟨hnew, -, hw₁⟩ | ⟨hnew, -, hw₁⟩)
  · refine meets_ite (fun _ => ?_) fun h => absurd hnew h
    refine meets_storeNew_held ?_
    rw [hw₁]
    refine held_linked hbase fun e he => ?_
    rcases List.mem_append.1 he with hold | hrow
    · exact ht e hold
    · rw [List.mem_singleton.1 hrow]
      exact .inr ⟨rfl, rfl, rfl⟩
  · refine meets_ite (fun h => absurd (hnew.symm.trans h) Bool.false_ne_true) fun _ => ?_
    rw [hw₁]
    exact meets_held (fun _ => within_when fun _ => within_lift within_rollbackWrite) hheld

/-- **An event that is recorded** is of its log. -/
theorem meets_recordEvent_held (hb : cfg.backend ≠ .rocksdb) (hw : w.Quiet) :
    Meets (recordEvent env cfg ev lg) w (heldPost lg w.db Err Unit) := by
  have hc := eq_quiet hw
  have hts : Meets (callbackTimestamp env cfg lg.blockNumber) w (lookedPost Nat w w.db) :=
    meets_ite (fun _ => meets_resolveBlockTimestamp hc) fun _ =>
      ⟨⟨onlyDb_refl w, upToBlocks_of hc⟩, rfl⟩
  have hblocks : ∀ b, Entered lg w.db { w.db with blocks := b } := fun b => entered_of_eq rfl
  have hquiet : ∀ {w' : World} b, w'.conn = quiet { w.db with blocks := b } →
      Held lg w.db w'.conn := fun b h => h ▸ held_quiet (hblocks b)
  have hbegun : ∀ (w₁ : World) b, w₁.conn = quiet { w.db with blocks := b } →
      Meets (Prog.when (cfg.guardTxn = true) (beginWrite env cfg)) w₁
        ⟨fun _ w' => ∃ base t, (∀ u ∈ base, Entered lg w.db u) ∧ Entered lg w.db t ∧
            w'.conn = Balances.linked base t,
          fun _ w' => Held lg w.db w'.conn, fun w' => Held lg w.db w'.conn⟩ := by
    intro w₁ b hc₁
    refine meets_when (fun _ => ?_) fun _ => ?_
    · refine (meets_beginWrite hc₁).mono ?_ ?_ ?_
      · rintro _ w' ⟨-, rfl⟩
        refine ⟨some { w.db with blocks := b }, { w.db with blocks := b }, fun u hu => ?_,
          hblocks b, rfl⟩
        rw [← Option.some.inj hu]
        exact hblocks b
      · rintro _ w' ⟨-, rfl⟩
        exact hquiet b hc₁
      · rintro w' ⟨hq, -⟩
        exact hquiet b hq
    · exact ⟨none, _, fun u hu => (by cases hu), hblocks b, hc₁⟩
  unfold recordEvent
  simp only [meets_bind, meets_onErr]
  refine hts.mono ?_ (fun _ _ h => h.elim) ?_
  · rintro ts w₁ ⟨⟨-, b, hc₁⟩, -⟩
    refine (hbegun w₁ b hc₁).mono ?_ (fun _ _ h => h) fun _ h => h
    rintro _ w₂ ⟨base, t, hbase, ht, hc₂⟩
    refine (meets_storeEvent_held hb hc₂ hbase ht).mono (fun _ w₃ hw₃ => ?_) (fun _ w₃ hw₃ => ?_)
      fun _ h => h
    · exact meets_when (fun _ => hw₃) fun _ => hw₃
    · exact (meets_held (fun _ => within_when fun _ => within_rollbackWrite) hw₃).mono
        (fun _ _ h => h) (fun e => e.elim) fun _ h => h
  · rintro w₁ ⟨-, b, hc₁⟩
    exact hquiet b hc₁

theorem meets_processLog_entered (hb : cfg.backend ≠ .rocksdb) (hw : w.Quiet) :
    Meets (processLog env cfg lg) w ⟨fun _ w' => Entered lg w.db w'.db,
      fun _ w' => Entered lg w.db w'.db, fun w' => Entered lg w.db w'.db⟩ := by
  unfold processLog
  rw [meets_modify_bind]
  cases h : classify cfg lg with
  | error e => exact Entered.refl lg w.db
  | ok found =>
    cases found with
    | none => exact Entered.refl lg w.db
    | some ev =>
      have hrecord : Meets (recordEvent env cfg ev lg) { w with handed := w.handed ++ [lg] }
          (heldPost lg w.db Err Unit) := meets_recordEvent_held hb hw
      exact hrecord.mono (fun _ _ h => h _ (holds_committed _))
        (fun _ _ h => h _ (holds_committed _)) fun _ h => h _ (holds_committed _)

/-- **A delivery** brings nothing but what is of its log. -/
theorem meets_deliver_brings (hb : cfg.backend ≠ .rocksdb) (hw : w.Quiet) :
    Meets (deliver env cfg lg) w ⟨fun _ w' => Brings cfg lg w.db w'.db, fun _ _ => False,
      fun w' => Brings cfg lg w.db w'.db⟩ := by
  have hbrings : ∀ {w' : World}, Brought lg.blockNumber w.db w'.db → Entered lg w.db w'.db →
      Brings cfg lg w.db w'.db := fun hbrought hentered =>
    ⟨hentered, fun r hr => .inl (hbrought.letters ▸ hr)⟩
  unfold deliver
  rw [meets_bind, meets_catching]
  refine ((meets_processLog_brought hw).and (meets_processLog_entered hb hw)).mono ?_ ?_ ?_
  · rintro _ w₁ ⟨⟨-, -, hbrought⟩, hentered⟩
    exact hbrings hbrought hentered
  · rintro e w₁ ⟨⟨-, hquiet, hbrought⟩, hentered⟩
    refine (meets_recordFailedLog hb hquiet e.name).mono ?_ (fun _ _ h => h) ?_
    · rintro _ w₂ (⟨-, rfl⟩ | rfl)
      · exact hbrings hbrought hentered
      · refine ⟨?_, fun r hr => ?_⟩
        · refine Entered.trans hentered (entered_of_eq ?_)
          change (Tables.insertRawLog (letterOf cfg lg e.name) w₁.db).events = w₁.db.events
          unfold Tables.insertRawLog
          split <;> rfl
        · change r ∈ (Tables.insertRawLog (letterOf cfg lg e.name) w₁.db).rawLogs at hr
          unfold Tables.insertRawLog at hr
          split at hr
          · exact .inl (hbrought.letters ▸ hr)
          · rcases List.mem_append.1 hr with hold | hnew
            · exact .inl (hbrought.letters ▸ hold)
            · exact .inr ⟨e.name, _, List.mem_singleton.1 hnew⟩
    · intro w₂ hconn
      have hdb : w₂.db = w₁.db := congrArg Conn.committed hconn
      change Brings cfg lg w.db w₂.db
      rw [hdb]
      exact hbrings hbrought hentered
  · rintro w₁ ⟨hbrought, hentered⟩
    exact hbrings hbrought hentered

/-- One turn of a round. -/
theorem meets_retryDeadLetter_entered (now : Nat) (r : RawLogRow) (hb : cfg.backend ≠ .rocksdb)
    (hw : w.Quiet) :
    Meets (retryDeadLetter env cfg now r) w
      ⟨fun _ w' => w'.Quiet ∧ Entered (logOfRow cfg r) w.db w'.db, fun _ _ => False,
        fun w' => Entered (logOfRow cfg r) w.db w'.db⟩ := by
  have hwrite : ∀ {w₁ : World} {call : DbCall} {g : Tables → Tables}, w₁.Quiet →
      (∀ t, (g t).events = t.events) → Entered (logOfRow cfg r) w.db w₁.db →
      Meets (do ignoring (guarded (execWrite env cfg call g)); tick) w₁
        ⟨fun _ w' => w'.Quiet ∧ Entered (logOfRow cfg r) w.db w'.db, fun _ _ => False,
          fun w' => Entered (logOfRow cfg r) w.db w'.db⟩ := by
    intro w₁ call g hquiet hg hentered
    rw [meets_bind]
    refine (meets_ignored_write hquiet).mono ?_ (fun _ _ h => h) ?_
    · rintro _ w₂ (⟨-, rfl⟩ | rfl)
      · exact ⟨hquiet, hentered⟩
      · exact ⟨rfl, Entered.trans hentered (entered_of_eq (hg _))⟩
    · rintro w₂ ⟨-, hconn⟩
      have hdb : w₂.db = w₁.db := congrArg Conn.committed hconn
      change Entered (logOfRow cfg r) w.db w₂.db
      rwa [hdb]
  rw [retryDeadLetter, meets_bind, meets_attempt]
  refine ((meets_processLog_brought hw).and (meets_processLog_entered hb hw)).mono ?_ ?_
    fun _ h => h.2
  · rintro _ w₁ ⟨⟨-, hquiet, -⟩, hentered⟩
    dsimp only
    rw [deleteRawLog_eq hb]
    exact hwrite hquiet (fun _ => rfl) hentered
  · rintro e w₁ ⟨⟨-, hquiet, -⟩, hentered⟩
    dsimp only
    rw [bumpRawLogAttempt_eq hb]
    exact hwrite hquiet (fun _ => rfl) hentered

/-- New events are of the letters of a list. -/
def EnteredOf (cfg : Config) (xs : List Attempt) (t u : Tables) : Prop :=
  ∀ e ∈ u.events, e ∈ t.events ∨ ∃ x ∈ xs, Bears e (logOfRow cfg x.1)

theorem entered_each (now : Nat) (hb : cfg.backend ≠ .rocksdb) (rows : List RawLogRow)
    (hw : w.Quiet) : EnteredOf cfg (tries env cfg now rows w) w.db
      (left (Prog.each rows (retryDeadLetter env cfg now)) w).db := by
  induction rows generalizing w with
  | nil => exact fun e he => .inl he
  | cons r rows ih =>
    have hturn : Meets (retryDeadLetter env cfg now r) w _ :=
      meets_retryDeadLetter_entered now r hb hw
    rw [each_cons, tries]
    unfold Meets at hturn
    rcases heq : retryDeadLetter env cfg now r w with ⟨_ | e | _, w₁⟩ <;> rw [heq] at hturn
    · have hleft : left (do
          retryDeadLetter env cfg now r
          Prog.each rows (retryDeadLetter env cfg now)) w =
          left (Prog.each rows (retryDeadLetter env cfg now)) w₁ := by
        unfold left
        rw [bind_of_ok heq]
      rw [hleft]
      intro e he
      rcases ih hturn.1 e he with hold | ⟨x, hx, hbears⟩
      · exact (hturn.2 e hold).imp_right fun h => ⟨_, List.mem_cons_self, h⟩
      · exact .inr ⟨x, List.mem_cons_of_mem _ hx, hbears⟩
    · exact hturn.elim
    · rw [left_of_crash (bind_of_crash heq _)]
      exact fun e he => (hturn e he).imp_right fun h => ⟨_, List.mem_cons_self, h⟩

/-- **A round of letters** enters events of the letters it tries. -/
theorem entered_retryDeadLetters (hb : cfg.backend ≠ .rocksdb) (hw : w.Quiet) :
    EnteredOf cfg (attempts env cfg w) w.db (left (retryDeadLetters env cfg) w).db := by
  rcases retryDeadLetters_cases env hb hw with
    ⟨rows, -, -, htries, hrun⟩ | ⟨hnone, w', hrun, hdb, -⟩
  · have hloop := @entered_each env _ _ (env.clock w.now) hb rows hw
    rw [htries]
    unfold left at hloop ⊢
    rw [hrun]
    exact hloop
  · rw [hnone, left_of_crash hrun]
    change EnteredOf cfg [] w.db w'.db
    rw [hdb]
    exact fun e he => .inl he

end Delivery

end Custody

end Zponder

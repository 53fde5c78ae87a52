import Zponder.CacheSound
import Zponder.DeadLetters
import Zponder.Ledger

/-!
# Nothing that was delivered vanishes

`processFetchedLogs` and `replayCachedAddresses` go on after a log that fails, so that the caller
takes the blocks of a batch for done. What becomes of a log whose delivery has come to its end:
the filters have left it out, its event is stored, or there is a letter for it
(`Zponder.Custody.Accounted`). It stays so, through everything that happens later, until its
block is rolled back or replayed (`Zponder.Custody.accounted_of_reaches`), provided that a log
that fails gets its letter, that no transaction is lost without an error, and that what is stored
under the name of a log is of that log.
-/

namespace Zponder

namespace Custody

open Imperative Prog Conn DeadLetters

/-! ### Where a log is -/

section Places

variable {cfg : Config} {lg : Log} {t u : Tables}

/-- Its event is stored. -/
def Stored (cfg : Config) (lg : Log) (t : Tables) : Prop :=
  ∃ ev, classify cfg lg = .ok (some ev) ∧ t.hasEvent (eventKey cfg ev lg) = true

/-- A letter is of a log, however its address is written. -/
def Reports (cfg : Config) (r : RawLogRow) (lg : Log) : Prop :=
  lowered (logOfRow cfg r) = lowered { lg with removed := false }

/-- There is a letter for it. -/
def Lettered (cfg : Config) (lg : Log) (t : Tables) : Prop :=
  ∃ r ∈ letters cfg t, Reports cfg r lg

/-- It needs nothing more: the filters leave it out, or its event is stored. -/
def Settled (cfg : Config) (lg : Log) (t : Tables) : Prop :=
  classify cfg lg = .ok none ∨ Stored cfg lg t

/-- **A log that is accounted for.** -/
def Accounted (cfg : Config) (lg : Log) (t : Tables) : Prop :=
  Settled cfg lg t ∨ Lettered cfg lg t

/-- The names of events are kept. -/
def Names (t u : Tables) : Prop := ∀ k, t.hasEvent k = true → u.hasEvent k = true

theorem names_of_subset (h : ∀ e ∈ t.events, e ∈ u.events) : Names t u := by
  intro k hk
  obtain ⟨e, he, hkey⟩ := List.any_eq_true.1 hk
  exact List.any_eq_true.2 ⟨e, h e he, hkey⟩

theorem names_of_eq (h : u.events = t.events) : Names t u :=
  names_of_subset fun _ he => h ▸ he

theorem Settled.named (h : Settled cfg lg t) (hu : Names t u) : Settled cfg lg u := by
  refine h.imp_right ?_
  rintro ⟨ev, hev, hhas⟩
  exact ⟨ev, hev, hu _ hhas⟩

/-- The address a log is stored under is that of the log cache. -/
theorem sourceAddress_eq (lg : Log) : sourceAddress lg = (lowered lg).address :=
  (Text.cacheAddress_eq lg.address).symm

/-- Two logs that differ in how the address is written are stored alike. -/
theorem settled_congr {lg' : Log} (h : lowered lg' = lowered { lg with removed := false }) :
    Settled cfg lg' t ↔ Settled cfg lg t := by
  have hclassify : classify cfg lg' = classify cfg lg := by
    change classify cfg (lowered lg') = classify cfg (lowered { lg with removed := false })
    rw [h]
  have hkey : ∀ ev, eventKey cfg ev lg' = eventKey cfg ev lg := fun ev => by
    have haddress : sourceAddress lg' = sourceAddress lg := by
      rw [sourceAddress_eq, sourceAddress_eq, h]
      rfl
    have hhash : lg'.transactionHash = lg.transactionHash := by
      change (lowered lg').transactionHash = _
      rw [h]
      rfl
    have hindex : lg'.logIndex = lg.logIndex := by
      change (lowered lg').logIndex = _
      rw [h]
      rfl
    rw [eventKey, eventKey, haddress, hhash, hindex]
  unfold Settled Stored
  simp only [hclassify, hkey]

/-- From one moment to the next no name of an event is gone and no letter, up to its attempts. -/
structure Grown (t u : Tables) : Prop where
  names : Names t u
  letters : ∀ r ∈ t.rawLogs, ∃ r' ∈ u.rawLogs, about r' = about r

theorem Grown.trans {v : Tables} (h : Grown t u) (h' : Grown u v) : Grown t v := by
  refine ⟨fun k hk => h'.names k (h.names k hk), fun r hr => ?_⟩
  obtain ⟨r₁, hr₁, habout₁⟩ := h.letters r hr
  obtain ⟨r₂, hr₂, habout₂⟩ := h'.letters r₁ hr₁
  exact ⟨r₂, hr₂, habout₂.trans habout₁⟩

theorem Reports.about {r r' : RawLogRow} (h : Reports cfg r lg) (habout : about r' = about r) :
    Reports cfg r' lg := by
  rw [Reports, logOfRow_of_about habout]
  exact h

theorem Reports.blockNumber {r : RawLogRow} (h : Reports cfg r lg) :
    r.blockNumber = lg.blockNumber :=
  congrArg Log.blockNumber h

theorem Lettered.of_letters (h : Lettered cfg lg t)
    (hu : ∀ r ∈ t.rawLogs, r.blockNumber = lg.blockNumber → r.contractAddress = cfg.stateKey →
      ∃ r' ∈ u.rawLogs, about r' = about r) : Lettered cfg lg u := by
  obtain ⟨r, hr, heq⟩ := h
  rw [mem_letters] at hr
  obtain ⟨r', hr', habout⟩ := hu r hr.1 heq.blockNumber hr.2
  refine ⟨r', mem_letters.2 ⟨hr', ?_⟩, heq.about habout⟩
  exact (contractAddress_of_about habout).trans hr.2

theorem Accounted.grown (h : Accounted cfg lg t) (hu : Grown t u) : Accounted cfg lg u :=
  h.imp (fun h => h.named hu.names) fun h => h.of_letters fun r hr _ _ => hu.letters r hr

/-- What goes on where a log is processed: no name is gone, and the letters are as they were. -/
def Holding (t u : Tables) : Prop :=
  Names t u ∧ u.rawLogs = t.rawLogs ∧ u.nextRawId = t.nextRawId

theorem Holding.refl (t : Tables) : Holding t t := ⟨fun _ => id, rfl, rfl⟩

theorem Holding.trans {v : Tables} (h : Holding t u) (h' : Holding u v) : Holding t v :=
  ⟨fun k hk => h'.1 k (h.1 k hk), h'.2.1.trans h.2.1, h'.2.2.trans h.2.2⟩

theorem Holding.grown (h : Holding t u) : Grown t u :=
  ⟨h.1, fun r hr => ⟨r, h.2.1 ▸ hr, rfl⟩⟩

def holdingScope : Scope where
  tables := .through Holding Holding.refl Holding.trans
  mem := .any
  handed := .any
  requests := .any

theorem holdingScope_stores (b : Nat) : holdingScope.Stores b where
  inserts t r _ := by
    unfold Tables.insertEvent
    split
    · exact Holding.refl t
    · exact ⟨names_of_subset fun _ he => List.mem_append_left _ he, rfl, rfl⟩
  puts t r _ := by
    refine ⟨fun k hk => ?_, rfl, rfl⟩
    obtain ⟨e, he, hkey⟩ := List.any_eq_true.1 hk
    by_cases hsame : e.key = r.key ∧ e.blockNumber = r.blockNumber
    · refine List.any_eq_true.2 ⟨r, List.mem_append_right _ (List.mem_singleton_self r), ?_⟩
      rwa [← hsame.1]
    · refine List.any_eq_true.2 ⟨e, List.mem_append_left _ (List.mem_filter.2 ⟨he, ?_⟩), hkey⟩
      rcases not_and_or.1 hsame with h | h <;> simp [h]
  accounts t _ := ⟨fun _ => id, rfl, rfl⟩
  blocks t _ := ⟨fun _ => id, rfl, rfl⟩
  callback t _ _ := ⟨fun _ => id, rfl, rfl⟩
  tsCache _ _ := trivial

end Places

/-! ### One delivery -/

section Delivery

variable {env : Env} {cfg : Config} {ev : Decoded} {lg : Log} {w : World}

/-- No transaction is lost without an error. -/
def Sober (env : Env) (cfg : Config) : Prop :=
  ∀ ev lg now state, ¬Swallows env cfg ev lg now state

theorem sober_sqlite (hb : cfg.backend = .sqlite) : Sober env cfg := by
  rintro ev lg now state ⟨hpoisons, -⟩
  simp [Config.engine, hb] at hpoisons

/-- What a delivery leaves that came to its end. -/
def storedPost (k : EventKey) : Post World Err Unit :=
  ⟨fun _ w => w.db.hasEvent k = true, fun _ _ => True, fun _ => True⟩

theorem hasEvent_append {t u : Tables} {r : EventRow} (hu : u.events = t.events ++ [r]) :
    u.hasEvent r.key = true :=
  List.any_eq_true.2 ⟨r, by rw [hu]; exact List.mem_append_right _ (List.mem_singleton_self _),
    beq_self_eq_true _⟩

/-- In a transaction. -/
theorem meets_storeEvent_stored {t : Tables} {ts : Nat} (hg : cfg.guardTxn = true)
    (hsober : Sober env cfg) (hc : w.conn = opened t t) :
    Meets (Prog.onErr (storeEvent env cfg ev lg ts) (rollbackWrite env)) w
      (storedPost (eventKey cfg ev lg)) := by
  refine (meets_onErr_storeEvent ev lg ts hg hc).mono ?_ (fun _ _ _ => trivial) fun _ _ => trivial
  rintro _ w' ⟨-, -, ⟨hq, hdup⟩ | ⟨-, -, -, ⟨hlost, -⟩ | ⟨-, a, hq⟩⟩⟩
  · change Tables.hasEvent w'.conn.committed _ = true
    rw [hq]
    exact hdup
  · exact absurd hlost (hsober ev lg _ _)
  · change Tables.hasEvent w'.conn.committed _ = true
    rw [hq]
    exact hasEvent_append (t := t) (r := eventRow cfg ev lg w.now) rfl

/-- Without one. -/
theorem meets_storeEvent_auto {t : Tables} {ts : Nat} (hb : cfg.backend ≠ .rocksdb)
    (hg : cfg.guardTxn = false) (hc : w.conn = quiet t) :
    Meets (storeEvent env cfg ev lg ts) w (storedPost (eventKey cfg ev lg)) := by
  have hguard : ¬cfg.guardTxn = true := by simp [hg]
  have hcallback : ¬cfg.eventCallback = true := fun h => hguard (by simp [Config.guardTxn, h, hb])
  have hrest : Within holdingScope.loose (storeNew env cfg ev lg ts) :=
    within_bind (within_when fun _ =>
      (within_trackTokenTransferState (holdingScope_stores 0)).left) fun _ =>
        within_bind (within_when fun h => absurd h hcallback) fun _ =>
          within_when fun h => absurd h hguard
  have hconn : w.conn = Balances.linked none t := hc
  unfold storeEvent
  rw [meets_bind]
  refine (Ledger.meets_insertRow hb hconn).mono ?_ (fun _ _ _ => trivial) fun _ _ => trivial
  rintro new w₁ (⟨hnew, -, hw₁⟩ | ⟨hnew, hdup, hw₁⟩)
  · rw [hw₁]
    refine meets_ite (fun _ => ?_) fun h => absurd hnew h
    refine (hrest _).mono (fun _ w₂ h => ?_) (fun _ _ _ => trivial) fun _ _ => trivial
    have hheld : Holding (Ledger.entered cfg ev lg w.now t) w₂.db := Linked.quiet h.tables rfl
    exact hheld.1 _ (hasEvent_append (t := t) (r := eventRow cfg ev lg w.now) rfl)
  · refine meets_ite (fun h => absurd (hnew.symm.trans h) Bool.false_ne_true) fun _ => ?_
    rw [when_of_not hguard, hw₁]
    change Tables.hasEvent w.conn.committed _ = true
    rw [hc]
    exact hdup

/-- **A delivery that came to its end** has stored its event. -/
theorem meets_recordEvent_stored (hb : cfg.backend ≠ .rocksdb) (hsober : Sober env cfg)
    (hw : w.Quiet) : Meets (recordEvent env cfg ev lg) w (storedPost (eventKey cfg ev lg)) := by
  have hc := eq_quiet hw
  have hts : Meets (callbackTimestamp env cfg lg.blockNumber) w (lookedPost Nat w w.db) :=
    meets_ite (fun _ => meets_resolveBlockTimestamp hc) fun _ =>
      ⟨⟨onlyDb_refl w, upToBlocks_of hc⟩, rfl⟩
  have hend : ∀ w₁ : World, w₁.db.hasEvent (eventKey cfg ev lg) = true →
      Meets (do
        let found ← dispatchFactory env cfg ev lg.blockNumber
        Prog.when (found = false) (Prog.throw Err.factoryFailed)) w₁
        (storedPost (eventKey cfg ev lg)) := fun w₁ h => meets_when (fun _ => trivial) fun _ => h
  unfold recordEvent
  rw [meets_bind]
  refine hts.mono ?_ (fun _ _ h => h.elim) fun _ _ => trivial
  rintro ts w₁ ⟨⟨-, b, hc₁⟩, -⟩
  change Meets (do
    Prog.when (cfg.guardTxn = true) (beginWrite env cfg)
    Prog.onErr (storeEvent env cfg ev lg ts) (Prog.when (cfg.guardTxn = true) (rollbackWrite env))
    let found ← dispatchFactory env cfg ev lg.blockNumber
    Prog.when (found = false) (Prog.throw Err.factoryFailed)) w₁ _
  by_cases hg : cfg.guardTxn = true
  · rw [when_of hg, when_of hg, meets_bind]
    refine (meets_beginWrite hc₁).mono ?_ (fun _ _ _ => trivial) fun _ _ => trivial
    rintro _ w₂ ⟨-, rfl⟩
    change Meets (do
      Prog.onErr (storeEvent env cfg ev lg ts) (rollbackWrite env)
      _) _ _
    rw [meets_bind]
    exact (meets_storeEvent_stored hg hsober rfl).mono (fun _ w₃ h => hend w₃ h)
      (fun _ _ h => h) fun _ h => h
  · have hauto : Meets (storeEvent env cfg ev lg ts) w₁ (storedPost (eventKey cfg ev lg)) :=
      meets_storeEvent_auto hb (by simpa using hg) hc₁
    rw [when_of_not hg, when_of_not hg, meets_bind]
    change Meets (do
      Prog.onErr (storeEvent env cfg ev lg ts) (pure ())
      _) _ _
    rw [meets_bind, meets_onErr]
    exact hauto.mono (fun _ w₃ h => hend w₃ h) (fun _ _ _ => trivial) fun _ _ => trivial

/-- **A log that is processed**: nothing is gone, and when it goes through, it is settled. -/
theorem meets_processLog_settled (hb : cfg.backend ≠ .rocksdb) (hsober : Sober env cfg)
    (hw : w.Quiet) :
    Meets (processLog env cfg lg) w
      ⟨fun _ w' => w'.Quiet ∧ Holding w.db w'.db ∧ Settled cfg lg w'.db,
        fun _ w' => w'.Quiet ∧ Holding w.db w'.db, fun w' => Holding w.db w'.db⟩ := by
  have hscope : Within holdingScope.frame (processLog env cfg lg) :=
    within_processLog_stores (holdingScope_stores _) fun _ _ => trivial
  have hends : Meets (processLog env cfg lg) w
      ⟨fun _ w' => Settled cfg lg w'.db, fun _ _ => True, fun _ => True⟩ := by
    unfold processLog
    rw [meets_modify_bind]
    cases h : classify cfg lg with
    | error e => exact trivial
    | ok found =>
      cases found with
      | none => exact .inl h
      | some ev =>
        have hstored : Meets (recordEvent env cfg ev lg) { w with handed := w.handed ++ [lg] }
            (storedPost (eventKey cfg ev lg)) := meets_recordEvent_stored hb hsober hw
        exact hstored.mono (fun _ _ h' => .inr ⟨ev, h, h'⟩) (fun _ _ _ => trivial)
          fun _ _ => trivial
  refine (hends.and (hscope w)).mono ?_ ?_ ?_
  · exact fun _ w' h => ⟨h.2.2 hw, Linked.quiet h.2.1.tables hw, h.1⟩
  · exact fun _ w' h => ⟨h.2.2 hw, Linked.quiet h.2.1.tables hw⟩
  · exact fun w' h => Linked.quiet h.2.1.tables hw

/-- A letter is written, unless there is one under that name already. -/
theorem meets_recordFailedLog (hb : cfg.backend ≠ .rocksdb) (hw : w.Quiet) (reason : Text) :
    Meets (recordFailedLog env cfg lg reason) w
      ⟨fun _ w' => env.fault w.now .insertRawLog ≠ .none ∧ w' = w ∨
          w' = { w with conn := quiet (w.db.insertRawLog (letterOf cfg lg reason)) },
        fun _ _ => False, fun w' => w'.conn = w.conn⟩ := by
  have hbody : recordFailedLog env cfg lg reason = ignoring (guarded
      (execWrite env cfg .insertRawLog (Tables.insertRawLog (letterOf cfg lg reason)))) := by
    unfold recordFailedLog insertRawLog
    cases hb' : cfg.backend with
    | rocksdb => exact absurd hb' hb
    | sqlite => rfl
    | postgresql => rfl
  rw [hbody]
  exact (meets_ignored_write hw).mono (fun _ _ h => h) (fun _ _ h => h) fun _ h => h.2

/-- What is stored under the name of a log is of that log. -/
structure Unmixed (cfg : Config) (lg : Log) (t : Tables) : Prop where
  letters : ∀ r ∈ letters cfg t, r.txHash = lg.transactionHash → r.logIndex = lg.logIndex →
    Reports cfg r lg
  events : ∀ ev, classify cfg lg = .ok (some ev) →
    ∀ e ∈ t.events, e.key = eventKey cfg ev lg → e.blockNumber = lg.blockNumber

/-- Once it is tried to write a letter, there is one. -/
theorem lettered_insertRawLog {t u : Tables} (hplain : Plain lg) (hmix : Unmixed cfg lg t)
    (hsame : u.rawLogs = t.rawLogs) (reason : Text) :
    Lettered cfg lg (u.insertRawLog (letterOf cfg lg reason)) := by
  unfold Tables.insertRawLog
  split
  · next hhas =>
    obtain ⟨r, hr, hname⟩ := List.any_eq_true.1 hhas
    simp only [letterOf, Bool.and_eq_true, beq_iff_eq] at hname
    have hmem : r ∈ letters cfg t := mem_letters.2 ⟨hsame ▸ hr, hname.1.1⟩
    exact ⟨r, mem_letters.2 ⟨hr, hname.1.1⟩, hmix.letters r hmem hname.1.2 hname.2⟩
  · refine ⟨{ letterOf cfg lg reason with id := u.nextRawId }, mem_letters.2 ⟨?_, rfl⟩,
      congrArg lowered (logOfRow_letterOf hplain reason _)⟩
    exact List.mem_append_right _ (List.mem_singleton_self _)

theorem grown_insertRawLog (t : Tables) (r : RawLogRow) : Grown t (t.insertRawLog r) := by
  unfold Tables.insertRawLog
  split
  · exact (Holding.refl t).grown
  · exact ⟨fun _ => id, fun r hr => ⟨r, List.mem_append_left _ hr, rfl⟩⟩

theorem Holding.numbered {t u : Tables} (h : Holding t u) (ht : Numbered t) : Numbered u :=
  ht.of_sublist (by rw [h.2.1]) h.2.2.ge

/-- The letter of a log that fails is written. -/
def Writes (env : Env) (cfg : Config) (lg : Log) (w : World) : Prop :=
  ∀ e w', processLog env cfg lg w = (.err e, w') → env.fault w'.now .insertRawLog = .none

/-- **A delivery** loses nothing, and its log is accounted for when it has come to its end. -/
theorem meets_deliver (hb : cfg.backend ≠ .rocksdb) (hsober : Sober env cfg)
    (hw : DeadLetters.Sound w) :
    Meets (deliver env cfg lg) w
      ⟨fun _ w' => DeadLetters.Sound w' ∧ Grown w.db w'.db ∧
          (Plain lg → Writes env cfg lg w → Unmixed cfg lg w.db → Accounted cfg lg w'.db),
        fun _ _ => False, fun w' => Numbered w'.db ∧ Grown w.db w'.db⟩ := by
  unfold deliver
  rw [meets_bind, meets_catching]
  refine ((meets_self _ _).and (meets_processLog_settled hb hsober hw.quiet)).mono ?_ ?_ ?_
  · rintro _ w₁ ⟨-, hquiet, hheld, hsettled⟩
    exact ⟨⟨hquiet, hheld.numbered hw.numbered⟩, hheld.grown, fun _ _ _ => .inl hsettled⟩
  · rintro e w₁ ⟨heq, hquiet, hheld⟩
    have hnumbered := hheld.numbered hw.numbered
    refine (meets_recordFailedLog hb hquiet e.name).mono ?_ (fun _ _ h => h) ?_
    · rintro _ w₂ (⟨hfail, rfl⟩ | rfl)
      · exact ⟨⟨hquiet, hnumbered⟩, hheld.grown, fun _ hwrites => absurd (hwrites e _ heq) hfail⟩
      · exact ⟨⟨rfl, hnumbered.insertRawLog _⟩, hheld.grown.trans (grown_insertRawLog _ _),
          fun hplain _ hmix => .inr (lettered_insertRawLog hplain hmix hheld.2.1 e.name)⟩
    · intro w₂ hconn
      have hdb : w₂.db = w₁.db := congrArg Conn.committed hconn
      change Numbered w₂.db ∧ Grown w.db w₂.db
      rw [hdb]
      exact ⟨hnumbered, hheld.grown⟩
  · rintro w₁ ⟨-, hheld⟩
    exact ⟨hheld.numbered hw.numbered, hheld.grown⟩

/-! ### A round of letters -/

/-- One turn of the loop: a log that goes through is settled. -/
theorem meets_retryDeadLetter_settled (now : Nat) (r : RawLogRow) (hb : cfg.backend ≠ .rocksdb)
    (hsober : Sober env cfg) (hw : w.Quiet) :
    Meets (retryDeadLetter env cfg now r) w
      ⟨fun _ w' => w'.Quiet ∧ Names w.db w'.db ∧
          ((processLog env cfg (logOfRow cfg r) w).1 = .ok () → Settled cfg (logOfRow cfg r) w'.db),
        fun _ _ => False,
        fun w' => Names w.db w'.db ∧
          ((processLog env cfg (logOfRow cfg r) w).1 = .ok () →
            Settled cfg (logOfRow cfg r) w'.db)⟩ := by
  have hwrite : ∀ {w₁ : World} {call : DbCall} {g : Tables → Tables} {P : Prop}, w₁.Quiet →
      (∀ t, (g t).events = t.events) → Names w.db w₁.db →
      (P → Settled cfg (logOfRow cfg r) w₁.db) →
      Meets (do ignoring (guarded (execWrite env cfg call g)); tick) w₁
        ⟨fun _ w' => w'.Quiet ∧ Names w.db w'.db ∧ (P → Settled cfg (logOfRow cfg r) w'.db),
          fun _ _ => False,
          fun w' => Names w.db w'.db ∧ (P → Settled cfg (logOfRow cfg r) w'.db)⟩ := by
    intro w₁ call g P hquiet hg hnames hsettled
    rw [meets_bind]
    refine (meets_ignored_write hquiet).mono ?_ (fun _ _ h => h) ?_
    · rintro _ w₂ (⟨-, rfl⟩ | rfl)
      · exact ⟨hquiet, hnames, hsettled⟩
      · have hkeep : Names w₁.db (g w₁.db) := names_of_eq (hg _)
        exact ⟨rfl, fun k hk => hkeep k (hnames k hk), fun hP => (hsettled hP).named hkeep⟩
    · rintro w₂ ⟨-, hconn⟩
      have hdb : w₂.db = w₁.db := congrArg Conn.committed hconn
      change Names w.db w₂.db ∧ (P → Settled cfg (logOfRow cfg r) w₂.db)
      rw [hdb]
      exact ⟨hnames, hsettled⟩
  rw [retryDeadLetter, meets_bind, meets_attempt]
  refine ((meets_self _ _).and (meets_processLog_settled hb hsober hw)).mono ?_ ?_ ?_
  · rintro _ w₁ ⟨-, hquiet, hheld, hsettled⟩
    dsimp only
    rw [deleteRawLog_eq hb]
    exact hwrite hquiet (fun _ => rfl) hheld.1 fun _ => hsettled
  · rintro e w₁ ⟨heq, hquiet, hheld⟩
    dsimp only
    rw [bumpRawLogAttempt_eq hb]
    refine hwrite hquiet (fun _ => rfl) hheld.1 fun hok => ?_
    have heq' : (processLog env cfg (logOfRow cfg r) w).1 = .err e := congrArg Prod.fst heq
    rw [hok] at heq'
    cases heq'
  · rintro w₁ ⟨heq, hheld⟩
    refine ⟨hheld.1, fun hok => ?_⟩
    have heq' : (processLog env cfg (logOfRow cfg r) w).1 = .crash := congrArg Prod.fst heq
    rw [hok] at heq'
    cases heq'

/-- **The loop over a batch.** -/
theorem settled_each (now : Nat) (hb : cfg.backend ≠ .rocksdb) (hsober : Sober env cfg)
    (rows : List RawLogRow) (hw : w.Quiet) :
    Names w.db (left (Prog.each rows (retryDeadLetter env cfg now)) w).db ∧
      ∀ x ∈ tries env cfg now rows w, x.2 = .ok () → Settled cfg (logOfRow cfg x.1)
        (left (Prog.each rows (retryDeadLetter env cfg now)) w).db := by
  induction rows generalizing w with
  | nil => exact ⟨fun _ => id, fun x hx => absurd hx List.not_mem_nil⟩
  | cons r rows ih =>
    have hturn := meets_retryDeadLetter_settled now r hb hsober hw
    rw [each_cons, tries]
    unfold Meets at hturn
    rcases heq : retryDeadLetter env cfg now r w with ⟨_ | e | _, w₁⟩ <;> rw [heq] at hturn
    · obtain ⟨hquiet, hnames, hsettled⟩ := hturn
      obtain ⟨hrest, hlater⟩ := ih hquiet
      have hleft : left (do
          retryDeadLetter env cfg now r
          Prog.each rows (retryDeadLetter env cfg now)) w =
          left (Prog.each rows (retryDeadLetter env cfg now)) w₁ := by
        unfold left
        rw [bind_of_ok heq]
      rw [hleft]
      refine ⟨fun k hk => hrest k (hnames k hk), fun x hx hok => ?_⟩
      rcases List.mem_cons.1 hx with rfl | hx
      · exact (hsettled hok).named hrest
      · exact hlater x hx hok
    · exact hturn.elim
    · rw [left_of_crash (bind_of_crash heq _)]
      refine ⟨hturn.1, fun x hx hok => ?_⟩
      rcases List.mem_cons.1 hx with rfl | hx
      · exact hturn.2 hok
      · exact absurd hx List.not_mem_nil

/-- **A round of letters**: what was accounted for is so after it. -/
theorem accounted_retry (hb : cfg.backend ≠ .rocksdb) (hsober : Sober env cfg)
    (hw : DeadLetters.Sound w) (h : Accounted cfg lg w.db) :
    Accounted cfg lg (left (retryDeadLetters env cfg) w).db := by
  have hpassed : Names w.db (left (retryDeadLetters env cfg) w).db ∧
      ∀ x ∈ attempts env cfg w, x.2 = .ok () →
        Settled cfg (logOfRow cfg x.1) (left (retryDeadLetters env cfg) w).db := by
    rcases retryDeadLetters_cases env hb hw.quiet with
      ⟨rows, -, -, htries, hrun⟩ | ⟨hnone, w', hrun, hdb, -⟩
    · have hloop := settled_each (env.clock w.now) hb hsober rows hw.quiet
      rw [htries]
      unfold left at hloop ⊢
      rw [hrun]
      exact hloop
    · rw [hnone, left_of_crash hrun]
      refine ⟨fun k hk => ?_, fun x hx => absurd hx List.not_mem_nil⟩
      change w'.db.hasEvent k = true
      rwa [hdb]
  rcases h with hsettled | ⟨r, hr, heq⟩
  · exact .inl (hsettled.named hpassed.1)
  · rw [mem_letters] at hr
    rcases kept_or_settled hb hw (a := .retry env) rfl hr.1 with ⟨r', hr', habout⟩ | hdone
    · exact .inr ⟨r', mem_letters.2 ⟨hr', (contractAddress_of_about habout).trans hr.2⟩,
        heq.about habout⟩
    · exact .inl ((settled_congr heq).1 (hpassed.2 (r, .ok ()) hdone rfl))

/-! ### A rollback and a replay -/

/-- Where the events and the letters of its block stay, a log stays accounted for. -/
theorem Accounted.spared {t u : Tables} (h : Accounted cfg lg t) (hmix : Unmixed cfg lg t)
    (hevents : ∀ e ∈ t.events, e.blockNumber = lg.blockNumber → e ∈ u.events)
    (hletters : ∀ r ∈ t.rawLogs, r.blockNumber = lg.blockNumber → r ∈ u.rawLogs) :
    Accounted cfg lg u := by
  refine Or.imp (Or.imp_right ?_) ?_ h
  · rintro ⟨ev, hev, hhas⟩
    obtain ⟨e, he, hkey⟩ := List.any_eq_true.1 hhas
    have hblock : e.blockNumber = lg.blockNumber := hmix.events ev hev e he (beq_iff_eq.1 hkey)
    exact ⟨ev, hev, List.any_eq_true.2 ⟨e, hevents e he hblock, hkey⟩⟩
  · intro hlettered
    exact hlettered.of_letters fun r hr hblock _ => ⟨r, hletters r hr hblock, rfl⟩

/-- **A rollback** leaves the logs of the blocks below it alone. -/
theorem accounted_rollback {f : Nat} (hb : cfg.backend ≠ .rocksdb) (hw : w.Quiet)
    (h : Accounted cfg lg w.db) (hmix : Unmixed cfg lg w.db) (hlt : lg.blockNumber < f) :
    Accounted cfg lg (left (rollbackTo env cfg f) w).db := by
  obtain ⟨-, u, hcase, hpurged, -⟩ := left_rollbackTo env f hb hw
  refine h.spared hmix (fun e he hblock => ?_) fun r hr hblock => ?_
  · refine hpurged.events e ?_ (hblock ▸ hlt)
    rcases hcase with ⟨-, hspared⟩ | hcut
    · rwa [hspared.events]
    · rw [hcut.mem_events, hblock, not_inRange le_rfl hlt]
      exact ⟨he, fun h => Bool.false_ne_true h.2⟩
  · refine hpurged.kept r ?_ (hblock ▸ hlt)
    rcases hcase with ⟨-, hspared⟩ | hcut
    · rwa [hspared.letters]
    · rw [hcut.mem, hblock, not_inRange le_rfl hlt]
      exact ⟨hr, fun h => Bool.false_ne_true h.2⟩

/-- **A replay** leaves the logs of the other blocks alone. -/
theorem accounted_replay {spawns : Bool} {f b : Nat} (hb : cfg.backend ≠ .rocksdb) (hw : w.Quiet)
    (h : Accounted cfg lg w.db) (hmix : Unmixed cfg lg w.db)
    (hout : inRange f (deleteTo f b) lg.blockNumber = false) :
    Accounted cfg lg (left (requestReplay env cfg spawns f b) w).db := by
  rcases (left_requestReplay env spawns f b hb hw).2 with hspared | hcut
  · exact h.spared hmix (fun e he _ => hspared.events ▸ he) fun r hr _ => hspared.letters ▸ hr
  · refine h.spared hmix (fun e he hblock => ?_) fun r hr hblock => ?_
    · rw [hcut.mem_events, hblock, hout]
      exact ⟨he, fun h => Bool.false_ne_true h.2⟩
    · rw [hcut.mem, hblock, hout]
      exact ⟨hr, fun h => Bool.false_ne_true h.2⟩

end Delivery

/-! ### Runs -/

/-- What the rest of the program does: anything, but to the letters of this indexer and to the
events of its logs. -/
structure Elsewhere (cfg : Config) extends DeadLetters.Elsewhere cfg where
  stored : ∀ t lg, Stored cfg lg t → Stored cfg lg (tables t)

/-- What happens next to an indexer: a log is delivered, it is time for another round of letters, a
block is rolled back to, a replay is asked for, or something else. What the indexer cannot know
is another thing every time. -/
inductive Act (cfg : Config) where
  | deliver (env : Env) (lg : Log)
  | retry (env : Env)
  | rollback (env : Env) (f : Nat)
  | replay (env : Env) (spawns : Bool) (f b : Nat)
  | elsewhere (o : Elsewhere cfg)

/-- The world, and the logs whose delivery has come to its end, but for those of blocks that have
been rolled back or replayed since. -/
structure State where
  world : World
  done : List Log

/-- One step. A process that dies over it is started again. -/
def step (cfg : Config) (s : State) : Act cfg → Option State
  | .deliver env lg => some
    { world := left (deliver env cfg lg) s.world
      done := if (deliver env cfg lg s.world).1 = .ok () then s.done ++ [lg] else s.done }
  | .retry env => some { s with world := left (retryDeadLetters env cfg) s.world }
  | .rollback env f => some
    { world := left (rollbackTo env cfg f) s.world
      done := s.done.filter fun lg => lg.blockNumber < f }
  | .replay env spawns f b => some
    { world := left (requestReplay env cfg spawns f b) s.world
      done := s.done.filter fun lg => !inRange f (deleteTo f b) lg.blockNumber }
  | .elsewhere o => some { s with world := o.apply s.world }

/-- Every sequence of them, from a world to begin with. -/
def deliveries (cfg : Config) (w : World) : Machine State (Act cfg) := ⟨⟨w, []⟩, step cfg⟩

/-- What is asked of a step. -/
def Careful (cfg : Config) (s : State) : Act cfg → Prop
  | .deliver env lg => Sober env cfg ∧ Plain lg ∧ Writes env cfg lg s.world ∧
    Unmixed cfg lg s.world.db
  | .retry env => Sober env cfg
  | .rollback .. => ∀ lg ∈ s.done, Unmixed cfg lg s.world.db
  | .replay .. => ∀ lg ∈ s.done, Unmixed cfg lg s.world.db
  | .elsewhere _ => True

/-- What is said of every moment. -/
structure Kept (cfg : Config) (s : State) : Prop where
  sound : DeadLetters.Sound s.world
  accounted : ∀ lg ∈ s.done, Accounted cfg lg s.world.db

section Runs

variable {cfg : Config} {s s' : State} {w : World}

/-- **One step** keeps it. -/
theorem kept_step {a : Act cfg} (hb : cfg.backend ≠ .rocksdb) (hs : Kept cfg s)
    (hcare : Careful cfg s a) (h : step cfg s a = some s') : Kept cfg s' := by
  cases a with
  | deliver env lg =>
    obtain rfl := Option.some.inj h
    obtain ⟨hsober, hplain, hwrites, hmix⟩ := hcare
    have hrun : Meets (deliver env cfg lg) s.world _ := meets_deliver hb hsober hs.sound
    unfold Meets at hrun
    rcases heq : deliver env cfg lg s.world with ⟨_ | e | _, w₁⟩ <;> rw [heq] at hrun
    · obtain ⟨hsound, hgrown, hlg⟩ := hrun
      rw [left_of_ok heq, if_pos rfl]
      refine ⟨hsound, fun lg' hlg' => ?_⟩
      rcases List.mem_append.1 hlg' with hold | hnew
      · exact (hs.accounted lg' hold).grown hgrown
      · rw [List.mem_singleton.1 hnew]
        exact hlg hplain hwrites hmix
    · exact hrun.elim
    · obtain ⟨hnumbered, hgrown⟩ := hrun
      rw [left_of_crash heq, if_neg (by simp)]
      exact ⟨⟨rfl, hnumbered⟩, fun lg' hlg' => (hs.accounted lg' hlg').grown hgrown⟩
  | retry env =>
    have hsound := (sound_aged_step (a := .retry env) hb hs.sound rfl).1
    obtain rfl := Option.some.inj h
    exact ⟨hsound, fun lg hlg => accounted_retry hb hcare hs.sound (hs.accounted lg hlg)⟩
  | rollback env f =>
    have hsound := (sound_aged_step (a := .rollback env f) hb hs.sound rfl).1
    obtain rfl := Option.some.inj h
    refine ⟨hsound, fun lg hlg => ?_⟩
    obtain ⟨hmem, hlt⟩ := List.mem_filter.1 hlg
    exact accounted_rollback hb hs.sound.quiet (hs.accounted lg hmem) (hcare lg hmem)
      (of_decide_eq_true hlt)
  | replay env spawns f b =>
    have hsound := (sound_aged_step (a := .replay env spawns f b) hb hs.sound rfl).1
    obtain rfl := Option.some.inj h
    refine ⟨hsound, fun lg hlg => ?_⟩
    obtain ⟨hmem, hout⟩ := List.mem_filter.1 hlg
    exact accounted_replay hb hs.sound.quiet (hs.accounted lg hmem) (hcare lg hmem)
      (by simpa using hout)
  | elsewhere o =>
    have hsound := (sound_aged_step (a := .elsewhere o.toElsewhere) hb hs.sound rfl).1
    obtain rfl := Option.some.inj h
    refine ⟨hsound, fun lg hlg => (hs.accounted lg hlg).imp (Or.imp_right ?_) ?_⟩
    · exact o.stored _ _
    · rintro ⟨r, hr, heq⟩
      exact ⟨r, (o.letters _).symm ▸ hr, heq⟩

/-- The stray log is delivered, and its letter tried again. -/
def strayRun : State where
  world := left (retryDeadLetters {} plainConfig)
    (left (deliver {} plainConfig strayLog) freshWorld)
  done := [strayLog]

example : (letters plainConfig strayRun.world.db).map (logOfRow plainConfig) = [strayLog] := by
  decide +kernel

end Runs

end Custody

end Zponder

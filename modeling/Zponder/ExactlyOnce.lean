import Zponder.Delivery
import Zponder.Lib.Machine

/-!
# Every event with the writes of one callback

On a backend with transactions and with an event callback installed, an event row is in the
database if and only if exactly one successful callback has its writes there
(`Zponder.Once.Paired`), whatever is delivered, how often and from where, and whatever fails.

One delivery leaves nothing or everything (`Zponder.meets_recordEvent`), and it leaves everything
only where the row was missing. The rest is that nobody else touches the two tables, and that
every exit gives back the lock it took.
-/

namespace Zponder

namespace Once

open Imperative Prog Conn

/-! ### Events and callbacks -/

/-- How many successful callbacks have their writes for an event in the tables. -/
def successes (t : Tables) (k : EventKey) : Nat := t.callbacks.countP fun r => r.key == k && r.ok

/-- **Exactly one successful callback for every event that is there**, and none for any other. -/
def Paired (t : Tables) : Prop := ∀ k, successes t k = if t.hasEvent k = true then 1 else 0

theorem Paired.iff {t : Tables} (h : Paired t) (k : EventKey) :
    t.hasEvent k = true ↔ successes t k = 1 := by
  rw [h k]
  by_cases hk : t.hasEvent k = true
  · rw [if_pos hk]
    exact iff_of_true hk rfl
  · rw [if_neg hk]
    exact iff_of_false hk Nat.zero_ne_one

theorem Paired.congr {t t' : Tables} (h : Paired t) (hevents : t'.events = t.events)
    (hcallbacks : t'.callbacks = t.callbacks) : Paired t' := by
  intro k
  unfold successes Tables.hasEvent
  rw [hevents, hcallbacks]
  exact h k

theorem Paired.blocks {t : Tables} (h : Paired t) (b) : Paired { t with blocks := b } :=
  h.congr rfl rfl

/-- A new event, with its callback. -/
theorem Paired.recorded {env : Env} {cfg : Config} {ev : Decoded} {lg : Log} {now ts : Nat}
    {accounts : Text → Text → Option AccountState} {t : Tables} (h : Paired t)
    (hnew : t.hasEvent (eventKey cfg ev lg) = false)
    (hok : (handlerRun env cfg ev lg now).ok = true) :
    Paired (recorded env cfg ev lg now ts accounts t) := by
  intro k
  have hcount : successes (Zponder.recorded env cfg ev lg now ts accounts t) k =
      successes t k + if eventKey cfg ev lg = k then 1 else 0 := by
    change List.countP _ (t.callbacks ++ [_]) = _
    rw [List.countP_append, List.countP_singleton, hok]
    simp only [Bool.and_true, beq_iff_eq]
    rfl
  have hhas : (Zponder.recorded env cfg ev lg now ts accounts t).hasEvent k =
      (t.hasEvent k || eventKey cfg ev lg == k) := by
    change List.any (t.events ++ [_]) _ = _
    rw [List.any_append, List.any_cons, List.any_nil, Bool.or_false]
    rfl
  rw [hcount, hhas, h k]
  by_cases hk : eventKey cfg ev lg = k
  · subst hk
    rw [hnew, if_pos rfl, Bool.false_or, if_pos (beq_self_eq_true _)]
    rfl
  · have hne : (eventKey cfg ev lg == k) = false := beq_eq_false_iff_ne.2 hk
    rw [if_neg hk, hne, Bool.or_false, Nat.add_zero]

/-! ### One delivery -/

/-- No transaction is open, and the tables are paired. -/
structure Sound (w : World) : Prop where
  quiet : w.Quiet
  paired : Paired w.db

theorem Sound.of_quiet {w : World} {t : Tables} (h : Paired t) (hc : w.conn = Conn.quiet t) :
    Sound w := by
  refine ⟨?_, ?_⟩
  · rw [World.Quiet, hc]
    rfl
  · rw [World.db, hc]
    exact h

/-- Pairs stay pairs, and the lock is where it was; a death closes the connection. -/
def pairing : Frame World where
  rel w w' := Sound w → Sound w' ∧ w'.writeDepth = w.writeDepth
  dead w w' := Sound w → Sound w'
  refl _ h := ⟨h, rfl⟩
  trans h₁ h₂ h := ⟨(h₂ (h₁ h).1).1, (h₂ (h₁ h).1).2.trans (h₁ h).2⟩
  trans_dead h₁ h₂ h := h₂ (h₁ h).1

section Delivery

variable {env : Env} {cfg : Config} {α : Type} {ε : Type}

theorem within_pairing {p : Prog World ε α} (h : ∀ w, Sound w →
    Meets p w ⟨fun _ w' => Sound w' ∧ w'.writeDepth = w.writeDepth,
      fun _ w' => Sound w' ∧ w'.writeDepth = w.writeDepth, Sound⟩) : Within pairing p := fun w => by
  by_cases hw : Sound w
  · exact (h w hw).mono (fun _ _ h _ => h) (fun _ _ h _ => h) fun _ h _ => h
  · exact (meets_trivial p w).mono (fun _ _ _ h => absurd h hw) (fun _ _ _ h => absurd h hw)
      fun _ _ h => absurd h hw

/-- A statement that leaves both tables alone. -/
theorem within_statement {call : DbCall} {g : Tables → α × Tables}
    (hg : ∀ t, (g t).2.events = t.events ∧ (g t).2.callbacks = t.callbacks) :
    Within pairing (guarded (exec env cfg call g)) := by
  refine within_pairing fun w hw => ?_
  have hc := eq_quiet hw.quiet
  rw [meets_guarded, meets_exec]
  dsimp only
  rw [hc]
  refine meets_stmt_quiet.mono ?_ ?_ ?_
  · rintro a c ⟨-, -, rfl⟩
    exact ⟨.of_quiet (hw.paired.congr (hg _).1 (hg _).2) rfl, rfl⟩
  · rintro e c ⟨-, rfl⟩
    exact ⟨.of_quiet hw.paired rfl, rfl⟩
  · rintro c ⟨-, rfl⟩
    exact .of_quiet hw.paired rfl

/-- **A delivery in a transaction.** -/
theorem within_recordEvent (hg : cfg.guardTxn = true) {ev : Decoded} {lg : Log} :
    Within pairing (recordEvent env cfg ev lg) := by
  refine within_pairing fun w hw => ?_
  have hsettles : ∀ w', Settles env cfg ev lg w w.db w' →
      Sound w' ∧ w'.writeDepth = w.writeDepth := by
    rintro w' ⟨-, hdepth, ⟨⟨b, hc⟩, -⟩ | ⟨⟨b, ts, a, hc⟩, hnew, hcommits⟩⟩
    · exact ⟨.of_quiet (hw.paired.blocks b) hc, hdepth⟩
    · have hpaired := hw.paired.blocks b
      refine ⟨.of_quiet ?_ hc, hdepth⟩
      exact hpaired.recorded hnew hcommits.accepted
  refine (meets_recordEvent hg (eq_quiet hw.quiet)).mono ?_ ?_ ?_
  · exact fun _ w' h => hsettles w' h.1
  · exact fun _ w' h => hsettles w' h.1
  · rintro w' ⟨-, b, hc⟩
    exact .of_quiet (hw.paired.blocks b) hc

theorem within_processLog (hg : cfg.guardTxn = true) {lg : Log} :
    Within pairing (processLog env cfg lg) := by
  refine within_bind (within_modify fun w h => ⟨⟨h.quiet, h.paired⟩, rfl⟩) fun _ => ?_
  split
  · exact within_throw _
  · exact within_pure _
  · exact within_recordEvent hg

theorem within_ignored {p : M Unit} (h : Within pairing p) : Within pairing (ignoring p) :=
  within_catching h fun _ => within_pure _

theorem within_ticked : Within pairing tick :=
  within_modify fun _ h => ⟨⟨h.quiet, h.paired⟩, rfl⟩

theorem within_recordFailedLog {lg : Log} {reason : Text} :
    Within pairing (recordFailedLog env cfg lg reason) := by
  refine within_ignored ?_
  unfold insertRawLog
  cases hb : cfg.backend with
  | rocksdb => exact within_statement fun t => ⟨rfl, rfl⟩
  | sqlite =>
    refine within_statement fun t => ?_
    unfold Tables.insertRawLog
    split <;> exact ⟨rfl, rfl⟩
  | postgresql =>
    refine within_statement fun t => ?_
    unfold Tables.insertRawLog
    split <;> exact ⟨rfl, rfl⟩

/-- A log of a scan, of the cache or of the subscription. -/
theorem within_deliver (hg : cfg.guardTxn = true) {lg : Log} :
    Within pairing (deliver env cfg lg) :=
  within_bind (within_catching (within_processLog hg) fun _ => within_recordFailedLog) fun _ =>
    within_ticked

/-- A dead letter. -/
theorem within_retryDeadLetter (hg : cfg.guardTxn = true) {now : Nat} {row : RawLogRow} :
    Within pairing (retryDeadLetter env cfg now row) := by
  have hbump : ∀ id after, Within pairing (bumpRawLogAttempt env cfg id after) := by
    intro id after
    unfold bumpRawLogAttempt
    cases cfg.backend with
    | rocksdb => exact within_pairing fun w hw => ⟨⟨hw.quiet, hw.paired⟩, rfl⟩
    | sqlite => exact within_statement fun t => ⟨rfl, rfl⟩
    | postgresql => exact within_statement fun t => ⟨rfl, rfl⟩
  have hdelete : ∀ id, Within pairing (deleteRawLog env cfg id) := by
    intro id
    unfold deleteRawLog
    cases cfg.backend with
    | rocksdb => exact within_pairing fun w hw => ⟨⟨hw.quiet, hw.paired⟩, rfl⟩
    | sqlite => exact within_statement fun t => ⟨rfl, rfl⟩
    | postgresql => exact within_statement fun t => ⟨rfl, rfl⟩
  refine within_bind (within_attempt (within_processLog hg)) fun result => ?_
  split
  · exact within_bind (within_ignored (hbump _ _)) fun _ => within_ticked
  · exact within_bind (within_ignored (hdelete _)) fun _ => within_ticked

end Delivery

/-! ### Any number of deliveries -/

/-- What the rest of the program does between two deliveries: anything, but to the tables of the
events and of the callbacks, to the transaction and to the lock. -/
structure Elsewhere where
  world : World → World
  tables : Tables → Tables
  keeps : ∀ t, (tables t).events = t.events ∧ (tables t).callbacks = t.callbacks

/-- The state after it. -/
def Elsewhere.apply (o : Elsewhere) (w : World) : World :=
  { o.world w with conn := quiet (o.tables w.db), writeDepth := w.writeDepth }

/-- An indexer with a callback, on a backend with transactions, and everything it cannot know. -/
structure Indexer where
  env : Env
  cfg : Config
  guard : cfg.guardTxn = true

/-- What happens next: a log of a scan, of the cache or of the subscription is delivered, or a
dead letter, by any indexer; the process is started again; or something else. -/
inductive Act where
  | deliver (i : Indexer) (lg : Log)
  | retry (i : Indexer) (now : Nat) (row : RawLogRow)
  | restart
  | elsewhere (o : Elsewhere)

/-- The world a program leaves. A process that has died is started again. -/
def after {α : Type} (p : M α) (w : World) : World :=
  match p w with
  | (.crash, w') => { w' with writeDepth := 0 }
  | (_, w') => w'

/-- One step. -/
def step (w : World) : Act → Option World
  | .deliver i lg => some (after (deliver i.env i.cfg lg) w)
  | .retry i now row => some (after (retryDeadLetter i.env i.cfg now row) w)
  | .restart => some { w with conn := w.conn.lost, writeDepth := 0 }
  | .elsewhere o => some (o.apply w)

/-- Every sequence of deliveries, from a world to begin with. -/
def deliveries (w : World) : Machine World Act := ⟨w, step⟩

theorem sound_after {α : Type} {p : M α} (hp : Within pairing p) {w : World} (hw : Sound w) :
    Sound (after p w) := by
  have h := hp w
  unfold Meets at h
  unfold after
  rcases heq : p w with ⟨_ | _ | _, w'⟩
  · rw [heq] at h
    exact (h hw).1
  · rw [heq] at h
    exact (h hw).1
  · rw [heq] at h
    exact ⟨(h hw).quiet, (h hw).paired⟩

theorem sound_step {w w' : World} {a : Act} (hw : Sound w) (h : step w a = some w') : Sound w' := by
  cases a with
  | deliver i lg =>
    obtain rfl := Option.some.inj h
    exact sound_after (within_deliver i.guard) hw
  | retry i now row =>
    obtain rfl := Option.some.inj h
    exact sound_after (within_retryDeadLetter i.guard) hw
  | restart =>
    obtain rfl := Option.some.inj h
    exact ⟨rfl, hw.paired⟩
  | elsewhere o =>
    obtain rfl := Option.some.inj h
    exact .of_quiet (hw.paired.congr (o.keeps _).1 (o.keeps _).2) rfl

/-- The lock is given back on every way out. -/
def GivesBack {α : Type} (p : M α) (w : World) : Prop :=
  Meets p w ⟨fun _ w' => w'.writeDepth = w.writeDepth, fun _ w' => w'.writeDepth = w.writeDepth,
    fun _ => True⟩

theorem givesBack_of_within {α : Type} {p : M α} (hp : Within pairing p) {w : World}
    (hw : Sound w) : GivesBack p w :=
  (hp w).mono (fun _ _ h => (h hw).2) (fun _ _ h => (h hw).2) fun _ _ => trivial

/-- An indexer on SQLite with one event, which has no fields. -/
def noteIndexer : Indexer where
  env := {}
  cfg := { plainConfig with
    eventCallback := true
    abi := some
      { findEventByName := fun _ => some ⟨"Note".toList, []⟩
        findEventByTopic0 := fun _ => some ⟨"Note".toList, []⟩
        decodeLog := fun _ _ _ => .ok [] } }
  guard := rfl

/-- One of its logs. -/
def noteLog : Log where
  address := "0xAA".toList
  topics := ["0x".toList ++ List.replicate 64 '0']
  data := []
  blockNumber := 7
  transactionHash := "0x01".toList
  logIndex := 0

def noteKey : EventKey := eventKey noteIndexer.cfg ⟨"Note".toList, []⟩ noteLog

/-- The world after its delivery. -/
def noted : World := after (deliver noteIndexer.env noteIndexer.cfg noteLog) freshWorld

example : noted.db.hasEvent noteKey = true ∧ successes noted.db noteKey = 1 := by decide +kernel

end Once

end Zponder

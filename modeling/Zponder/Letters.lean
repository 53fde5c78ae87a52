import Zponder.Remains

/-!
# A round of dead letters

`retryDeadLetters` reads a batch of letters that are due and hands the log of each to
`processLog` once more. A letter that goes through is deleted, any other is to wait; that
either statement may fail is why a letter can be tried again at once.

The letters of a round are told, with what `processLog` made of each, by
`Zponder.DeadLetters.attempts`, and what a round does to the tables is a chain of turns
(`Zponder.DeadLetters.Turned`), one for each attempt: this is all that is said of it later. A
clock of before 1970 finds nothing due, for no letter waits for a moment before then, and such a
round is none.
-/

namespace Zponder.DeadLetters

open Imperative Prog Conn

/-! ### Letters -/

/-- The letters of an indexer. -/
def letters (cfg : Config) (t : Tables) : List RawLogRow :=
  t.rawLogs.filter (·.contractAddress == cfg.stateKey)

theorem mem_letters {cfg : Config} {t : Tables} {r : RawLogRow} :
    r ∈ letters cfg t ↔ r ∈ t.rawLogs ∧ r.contractAddress = cfg.stateKey := by
  simp [letters]

/-- What a letter says, whenever and however often it has been tried. -/
def about (r : RawLogRow) : RawLogRow := { r with attempts := 0, retryAfter := 0 }

/-- A letter that has been tried once more, and is to wait. -/
def bumped (after : Nat) (r : RawLogRow) : RawLogRow :=
  { r with attempts := r.attempts + 1, retryAfter := after }

@[simp] theorem about_bumped (after : Nat) (r : RawLogRow) : about (bumped after r) = about r := rfl
@[simp] theorem id_bumped (after : Nat) (r : RawLogRow) : (bumped after r).id = r.id := rfl
@[simp] theorem id_about (r : RawLogRow) : (about r).id = r.id := rfl

theorem id_of_about {r r' : RawLogRow} (h : about r' = about r) : r'.id = r.id := by
  change (about r').id = (about r).id
  rw [h]

theorem contractAddress_of_about {r r' : RawLogRow} (h : about r' = about r) :
    r'.contractAddress = r.contractAddress := by
  change (about r').contractAddress = (about r).contractAddress
  rw [h]

theorem blockNumber_of_about {r r' : RawLogRow} (h : about r' = about r) :
    r'.blockNumber = r.blockNumber := by
  change (about r').blockNumber = (about r).blockNumber
  rw [h]

/-- The log of a letter is what it is about. -/
theorem logOfRow_of_about {cfg : Config} {r r' : RawLogRow} (h : about r' = about r) :
    logOfRow cfg r' = logOfRow cfg r := by
  change logOfRow cfg (about r') = logOfRow cfg (about r)
  rw [h]

/-- Every letter has a number of its own, and the next number is free. -/
structure Numbered (t : Tables) : Prop where
  nodup : (t.rawLogs.map (·.id)).Nodup
  free : ∀ r ∈ t.rawLogs, r.id < t.nextRawId

namespace Numbered

variable {t u : Tables}

theorem eq_of_id (h : Numbered t) {r r' : RawLogRow} (hr : r ∈ t.rawLogs) (hr' : r' ∈ t.rawLogs)
    (hid : r.id = r'.id) : r = r' :=
  List.inj_on_of_nodup_map h.nodup hr hr' hid

/-- Where letters only go, the numbers stay their own. -/
theorem of_sublist (h : Numbered t) (hsub : (u.rawLogs.map (·.id)).Sublist (t.rawLogs.map (·.id)))
    (hnext : t.nextRawId ≤ u.nextRawId) : Numbered u := by
  refine ⟨h.nodup.sublist hsub, fun r hr => ?_⟩
  obtain ⟨r₀, hr₀, hid⟩ := List.mem_map.1 (hsub.subset (List.mem_map_of_mem hr))
  have hlt := h.free r₀ hr₀
  rw [hid] at hlt
  exact lt_of_lt_of_le hlt hnext

/-- A new letter takes the next number. -/
theorem insertRawLog (h : Numbered t) (r : RawLogRow) : Numbered (t.insertRawLog r) := by
  unfold Tables.insertRawLog
  split
  · exact h
  · refine ⟨?_, fun r' hr' => ?_⟩
    · rw [List.map_append, List.nodup_append]
      refine ⟨h.nodup, List.nodup_singleton _, ?_⟩
      rintro i hi j hj rfl
      obtain ⟨r₀, hr₀, rfl⟩ := List.mem_map.1 hi
      rw [List.map_singleton, List.mem_singleton] at hj
      exact absurd (h.free r₀ hr₀) (by rw [hj]; exact Nat.lt_irrefl _)
    · rcases List.mem_append.1 hr' with hold | hnew
      · exact Nat.lt_succ_of_lt (h.free r' hold)
      · rw [List.mem_singleton.1 hnew]
        exact Nat.lt_succ_self _

end Numbered

/-! ### What is left by a program -/

/-- The world a program leaves. A process that has died is started again: its transaction is
gone, and with it its hold of the lock. -/
def left {ε α : Type} (p : Prog World ε α) (w : World) : World :=
  match p w with
  | (.crash, w') => { w' with conn := w'.conn.lost, writeDepth := 0 }
  | (_, w') => w'

section Left

variable {ε α : Type} {p : Prog World ε α} {w w' : World}

theorem left_of_ok {a : α} (h : p w = (.ok a, w')) : left p w = w' := by rw [left, h]

theorem left_of_crash (h : p w = (.crash, w')) :
    left p w = { w' with conn := w'.conn.lost, writeDepth := 0 } := by rw [left, h]

/-- What a program leaves, by its ends. -/
theorem left_of_meets {P : World → Prop} (h : Meets p w ⟨fun _ => P, fun _ => P,
    fun w' => P { w' with conn := w'.conn.lost, writeDepth := 0 }⟩) : P (left p w) := by
  unfold Meets at h
  unfold left
  rcases heq : p w with ⟨_ | _ | _, w'⟩ <;> rw [heq] at h <;> exact h

/-- What a program leaves within a scope. -/
theorem left_of_within {S : Scope} (hp : Within S.frame p) (hw : w.Quiet) :
    (left p w).Quiet ∧ S.tables.rel w.db (left p w).db := by
  refine left_of_meets (P := fun w' => w'.Quiet ∧ S.tables.rel w.db w'.db) ((hp w).mono ?_ ?_ ?_)
  · rintro _ w' ⟨hrel, hquiet⟩
    exact ⟨hquiet hw, Linked.quiet hrel.tables hw⟩
  · rintro _ w' ⟨hrel, hquiet⟩
    exact ⟨hquiet hw, Linked.quiet hrel.tables hw⟩
  · rintro w' ⟨hrel, -⟩
    have hdb : S.tables.rel w.db w'.db := Linked.quiet hrel.tables hw
    exact ⟨rfl, hdb⟩

end Left

/-! ### One attempt -/

/-- A letter that was tried, and what `processLog` made of its log. -/
abbrev Attempt : Type := RawLogRow × Outcome Err Unit

/-- What one turn of the loop does to the tables: the letter is gone only if its log went
through, it waits only if its log did not, and new events are of its block. -/
structure Turned (now : Nat) (x : Attempt) (t u : Tables) : Prop where
  next : u.nextRawId = t.nextRawId
  events : ∀ e ∈ u.events, e ∈ t.events ∨ e.blockNumber = x.1.blockNumber
  letters : u.rawLogs = t.rawLogs ∨
    (x.2 = .ok () ∧ u.rawLogs = (t.deleteRawLog x.1.id).rawLogs) ∨
    ((∃ e, x.2 = .err e) ∧
      u.rawLogs = (t.bumpRawLog x.1.id (now + deadLetterDelayMs x.1.attempts)).rawLogs)

namespace Turned

variable {now : Nat} {x : Attempt} {t u : Tables}

theorem ids (h : Turned now x t u) :
    (u.rawLogs.map (·.id)).Sublist (t.rawLogs.map (·.id)) := by
  obtain heq | ⟨-, heq⟩ | ⟨-, heq⟩ := h.letters
  · rw [heq]
  · rw [heq]
    exact List.filter_sublist.map _
  · have hsame : u.rawLogs.map (·.id) = t.rawLogs.map (·.id) := by
      rw [heq, Tables.bumpRawLog, List.map_map]
      refine List.map_congr_left fun r _ => ?_
      dsimp only [Function.comp_apply]
      split <;> rfl
    rw [hsame]

theorem numbered (h : Turned now x t u) (ht : Numbered t) : Numbered u :=
  ht.of_sublist h.ids h.next.ge

/-- Where a letter comes from. -/
theorem mem (h : Turned now x t u) {r : RawLogRow} (hr : r ∈ u.rawLogs) :
    r ∈ t.rawLogs ∨ (∃ e, x.2 = .err e) ∧ ∃ r₀ ∈ t.rawLogs, r₀.id = x.1.id ∧
      r = bumped (now + deadLetterDelayMs x.1.attempts) r₀ := by
  obtain heq | ⟨-, heq⟩ | ⟨herr, heq⟩ := h.letters <;> rw [heq] at hr
  · exact .inl hr
  · exact .inl (List.mem_filter.1 hr).1
  · obtain ⟨r₀, hr₀, rfl⟩ := List.mem_map.1 hr
    split
    · next hid => exact .inr ⟨herr, r₀, hr₀, hid, rfl⟩
    · exact .inl hr₀

/-- What becomes of a letter. -/
theorem kept (h : Turned now x t u) {r : RawLogRow} (hr : r ∈ t.rawLogs) :
    (∃ r' ∈ u.rawLogs, about r' = about r) ∨ x.2 = .ok () ∧ r.id = x.1.id := by
  obtain heq | ⟨hok, heq⟩ | ⟨-, heq⟩ := h.letters <;> rw [heq]
  · exact .inl ⟨r, hr, rfl⟩
  · by_cases hid : r.id = x.1.id
    · exact .inr ⟨hok, hid⟩
    · exact .inl ⟨r, List.mem_filter.2 ⟨hr, bne_iff_ne.2 hid⟩, rfl⟩
  · refine .inl ⟨_, List.mem_map_of_mem hr, ?_⟩
    split <;> rfl

end Turned

/-- New events are of one block, and no letter is touched. -/
structure Brought (b : Nat) (t u : Tables) : Prop where
  letters : u.rawLogs = t.rawLogs
  next : u.nextRawId = t.nextRawId
  events : ∀ e ∈ u.events, e ∈ t.events ∨ e.blockNumber = b

theorem Brought.refl (b : Nat) (t : Tables) : Brought b t t := ⟨rfl, rfl, fun _ => .inl⟩

theorem Brought.trans {b : Nat} {t u v : Tables} (h : Brought b t u) (h' : Brought b u v) :
    Brought b t v :=
  ⟨h'.letters.trans h.letters, h'.next.trans h.next, fun e he =>
    (h'.events e he).elim (h.events e) .inr⟩

/-- What goes on where a log of one block is processed. -/
def bringScope (b : Nat) : Scope where
  tables := .through (Brought b) (Brought.refl b) Brought.trans
  mem := .any
  handed := .any
  requests := .any

theorem bringScope_stores (b : Nat) : (bringScope b).Stores b where
  inserts t r hr := by
    unfold Tables.insertEvent
    split
    · exact Brought.refl b t
    · refine ⟨rfl, rfl, fun e he => ?_⟩
      exact (List.mem_append.1 he).imp id fun h => by rw [List.mem_singleton.1 h, hr]
  puts t r hr := ⟨rfl, rfl, fun e he =>
    (List.mem_append.1 he).imp (fun h => (List.mem_filter.1 h).1) fun h => by
      rw [List.mem_singleton.1 h, hr]⟩
  accounts t _ := ⟨rfl, rfl, fun _ => .inl⟩
  blocks t _ := ⟨rfl, rfl, fun _ => .inl⟩
  callback t _ _ := ⟨rfl, rfl, fun _ => .inl⟩
  tsCache _ _ := trivial

section Attempts

variable {env : Env} {cfg : Config} {w w' : World} {now : Nat} {r : RawLogRow}

/-- A log that is processed outside a transaction. -/
theorem meets_processLog_brought {lg : Log} (hw : w.Quiet) :
    Meets (processLog env cfg lg) w
      ⟨fun _ w' => (processLog env cfg lg w).1 = .ok () ∧ w'.Quiet ∧
          Brought lg.blockNumber w.db w'.db,
        fun e w' => (processLog env cfg lg w).1 = .err e ∧ w'.Quiet ∧
          Brought lg.blockNumber w.db w'.db,
        fun w' => Brought lg.blockNumber w.db w'.db⟩ := by
  have hwithin : Within (bringScope lg.blockNumber).frame (processLog env cfg lg) :=
    within_processLog_stores (bringScope_stores _) fun _ _ => trivial
  refine ((meets_self _ _).and (hwithin w)).mono ?_ ?_ ?_
  · rintro _ w' ⟨heq, hrel, hquiet⟩
    exact ⟨by rw [heq], hquiet hw, Linked.quiet hrel.tables hw⟩
  · rintro e w' ⟨heq, hrel, hquiet⟩
    exact ⟨by rw [heq], hquiet hw, Linked.quiet hrel.tables hw⟩
  · rintro w' ⟨-, hrel, -⟩
    exact Linked.quiet hrel.tables hw

theorem bumpRawLogAttempt_eq (hb : cfg.backend ≠ .rocksdb) (id after : Nat) :
    bumpRawLogAttempt env cfg id after =
      guarded (execWrite env cfg .bumpRawLogAttempt (Tables.bumpRawLog id after)) := by
  unfold bumpRawLogAttempt
  cases hb' : cfg.backend with
  | rocksdb => exact absurd hb' hb
  | sqlite => rfl
  | postgresql => rfl

theorem deleteRawLog_eq (hb : cfg.backend ≠ .rocksdb) (id : Nat) :
    deleteRawLog env cfg id =
      guarded (execWrite env cfg .deleteRawLog (Tables.deleteRawLog id)) := by
  unfold deleteRawLog
  cases hb' : cfg.backend with
  | rocksdb => exact absurd hb' hb
  | sqlite => rfl
  | postgresql => rfl

/-- A statement on its own whose failure is of no interest: it is carried out or not. -/
theorem meets_ignored_write {call : DbCall} {g : Tables → Tables} (hw : w.Quiet) :
    Meets (ignoring (guarded (execWrite env cfg call g))) w
      ⟨fun _ w' => env.fault w.now call ≠ .none ∧ w' = w ∨
          w' = { w with conn := quiet (g w.db) },
        fun _ _ => False, fun w' => env.fault w.now call ≠ .none ∧ w'.conn = w.conn⟩ := by
  have hnone : env.fault w.now call = .none → env.faultAt w.now call = .none := fun h => by
    rw [Env.faultAt, h]
    rfl
  rw [meets_ignoring, meets_guarded, execWrite, meets_exec]
  dsimp only
  rw [eq_quiet hw]
  refine meets_stmt_quiet.mono ?_ ?_ ?_
  · rintro _ c ⟨-, -, rfl⟩
    exact .inr rfl
  · rintro _ c ⟨hfail, rfl⟩
    refine .inl ⟨fun h => ?_, ?_⟩
    · rw [hnone h] at hfail
      exact not_failed_none hfail
    · rw [← eq_quiet hw]
      rfl
  · rintro c ⟨hcrash, rfl⟩
    refine ⟨fun h => ?_, rfl⟩
    rw [hnone h] at hcrash
    cases hcrash

/-- **One turn of the loop.** -/
theorem meets_retryDeadLetter (env : Env) (now : Nat) (r : RawLogRow)
    (hb : cfg.backend ≠ .rocksdb) (hw : w.Quiet) :
    Meets (retryDeadLetter env cfg now r) w
      ⟨fun _ w' => w'.Quiet ∧ Turned now (r, (processLog env cfg (logOfRow cfg r) w).1) w.db w'.db,
        fun _ _ => False,
        fun w' => Turned now (r, (processLog env cfg (logOfRow cfg r) w).1) w.db w'.db⟩ := by
  have hstays : ∀ {w₁ : World}, Brought r.blockNumber w.db w₁.db →
      Turned now (r, (processLog env cfg (logOfRow cfg r) w).1) w.db w₁.db := fun h =>
    ⟨h.next, h.events, .inl h.letters⟩
  rw [retryDeadLetter, meets_bind, meets_attempt]
  refine (meets_processLog_brought hw).mono ?_ ?_ fun w₁ h => hstays h
  · rintro _ w₁ ⟨hok, hquiet, hbrought⟩
    dsimp only
    rw [deleteRawLog_eq hb, meets_bind]
    refine (meets_ignored_write hquiet).mono ?_ (fun _ _ h => h) fun w₂ h => ?_
    · rintro _ w₂ (⟨-, rfl⟩ | rfl)
      · exact ⟨hquiet, hstays hbrought⟩
      · refine ⟨rfl, hbrought.next, hbrought.events, .inr (.inl ⟨hok, ?_⟩)⟩
        change List.filter _ w₁.db.rawLogs = List.filter _ w.db.rawLogs
        rw [hbrought.letters]
    · have hdb : w₂.db = w₁.db := congrArg Conn.committed h.2
      exact hstays (hdb ▸ hbrought)
  · rintro e w₁ ⟨herr, hquiet, hbrought⟩
    dsimp only
    rw [bumpRawLogAttempt_eq hb, meets_bind]
    refine (meets_ignored_write hquiet).mono ?_ (fun _ _ h => h) fun w₂ h => ?_
    · rintro _ w₂ (⟨-, rfl⟩ | rfl)
      · exact ⟨hquiet, hstays hbrought⟩
      · refine ⟨rfl, hbrought.next, hbrought.events, .inr (.inr ⟨⟨e, herr⟩, ?_⟩)⟩
        change List.map _ w₁.db.rawLogs = List.map _ w.db.rawLogs
        rw [hbrought.letters]
    · have hdb : w₂.db = w₁.db := congrArg Conn.committed h.2
      exact hstays (hdb ▸ hbrought)

end Attempts

/-! ### A round -/

section Round

variable (env : Env) (cfg : Config)

/-- The attempts of the loop over a batch, up to the one the process dies in, if it does. -/
def tries (now : Nat) : List RawLogRow → World → List Attempt
  | [], _ => []
  | r :: rows, w => (r, (processLog env cfg (logOfRow cfg r) w).1) ::
    match retryDeadLetter env cfg now r w with
    | (.ok _, w') => tries now rows w'
    | (_, _) => []

/-- The attempts of a round. -/
def attempts (w : World) : List Attempt :=
  match listRawLogs env cfg cfg.stateKey rawLogRetryBatch (env.clock w.now) w with
  | (.ok rows, w') => tries env cfg (env.clock w.now) rows w'
  | (_, _) => []

end Round

/-- What a round does to the tables: one turn after the other. -/
inductive Rounded (now : Nat) : List Attempt → Tables → Tables → Prop
  | nil (t : Tables) : Rounded now [] t t
  | cons {x : Attempt} {xs : List Attempt} {t u v : Tables} : Turned now x t u →
      Rounded now xs u v → Rounded now (x :: xs) t v

namespace Rounded

variable {now : Nat} {xs : List Attempt} {t v : Tables}

theorem next (h : Rounded now xs t v) : v.nextRawId = t.nextRawId := by
  induction h with
  | nil => rfl
  | cons hturn _ ih => exact ih.trans hturn.next

theorem numbered (h : Rounded now xs t v) (ht : Numbered t) : Numbered v := by
  induction h with
  | nil => exact ht
  | cons hturn _ ih => exact ih (hturn.numbered ht)

/-- An event that a round brings is of the block of a letter that was tried. -/
theorem events (h : Rounded now xs t v) {e : EventRow} (he : e ∈ v.events) :
    e ∈ t.events ∨ ∃ x ∈ xs, e.blockNumber = x.1.blockNumber := by
  induction h with
  | nil => exact .inl he
  | @cons x xs t u v hturn _ ih =>
    rcases ih he with hu | ⟨y, hy, hblock⟩
    · exact (hturn.events e hu).imp id fun hblock => ⟨x, List.mem_cons_self, hblock⟩
    · exact .inr ⟨y, List.mem_cons_of_mem x hy, hblock⟩

/-- A letter is gone only if its log went through. -/
theorem kept (h : Rounded now xs t v) {r : RawLogRow} (hr : r ∈ t.rawLogs) :
    (∃ r' ∈ v.rawLogs, about r' = about r) ∨ ∃ x ∈ xs, x.2 = .ok () ∧ x.1.id = r.id := by
  induction h generalizing r with
  | nil => exact .inl ⟨r, hr, rfl⟩
  | @cons x xs t u v hturn _ ih =>
    rcases hturn.kept hr with ⟨r₁, hr₁, habout⟩ | ⟨hok, hid⟩
    · refine (ih hr₁).imp (fun ⟨r', hr', h'⟩ => ⟨r', hr', h'.trans habout⟩) ?_
      rintro ⟨y, hy, hok, hid⟩
      exact ⟨y, List.mem_cons_of_mem x hy, hok, hid.trans (id_of_about habout)⟩
    · exact .inr ⟨x, List.mem_cons_self, hok, hid.symm⟩

/-- Where a letter comes from, if no letter is tried twice: it was there as it is, or it was
tried, its log failed, and it has been told to wait. -/
theorem mem (h : Rounded now xs t v) (hnodup : (xs.map (·.1.id)).Nodup) {r : RawLogRow}
    (hr : r ∈ v.rawLogs) :
    r ∈ t.rawLogs ∨ ∃ x ∈ xs, (∃ e, x.2 = .err e) ∧ ∃ r₀ ∈ t.rawLogs, r₀.id = x.1.id ∧
      r = bumped (now + deadLetterDelayMs x.1.attempts) r₀ := by
  induction h with
  | nil => exact .inl hr
  | @cons x xs t u v hturn _ ih =>
    rw [List.map_cons, List.nodup_cons] at hnodup
    rcases ih hnodup.2 hr with hu | ⟨y, hy, herr, r₁, hr₁, hid, rfl⟩
    · refine (hturn.mem hu).imp id ?_
      rintro ⟨herr, r₀, hr₀, hid, rfl⟩
      exact ⟨x, List.mem_cons_self, herr, r₀, hr₀, hid, rfl⟩
    · rcases hturn.mem hr₁ with ht | ⟨-, r₀, -, hid₀, rfl⟩
      · exact .inr ⟨y, List.mem_cons_of_mem x hy, herr, r₁, ht, hid, rfl⟩
      · -- the second of two turns for one letter
        rw [id_bumped, hid₀] at hid
        exact absurd (List.mem_map.2 ⟨y, hy, hid.symm⟩) hnodup.1

end Rounded

/-! ### The batch -/

/-- The order of a batch: the fewest attempts first, and of these the oldest. -/
def Before (a b : RawLogRow) : Prop :=
  a.attempts < b.attempts ∨ (a.attempts = b.attempts ∧ a.id ≤ b.id)

instance : DecidableRel Before := fun _ _ => inferInstanceAs (Decidable (_ ∨ _))

instance : Std.Total Before where
  total a b := by
    unfold Before
    omega

instance : IsTrans RawLogRow Before where
  trans a b c := by
    unfold Before
    omega

/-- The letters that are due. -/
def due (cfg : Config) (now : Nat) (t : Tables) : List RawLogRow :=
  (letters cfg t).filter fun r => decide (r.retryAfter ≤ now)

theorem mem_due {cfg : Config} {now : Nat} {t : Tables} {r : RawLogRow} :
    r ∈ due cfg now t ↔ r ∈ letters cfg t ∧ r.retryAfter ≤ now := by
  rw [due, List.mem_filter, decide_eq_true_eq]

theorem dueRawLogs_eq (cfg : Config) (limit now : Nat) (t : Tables) :
    t.dueRawLogs cfg.stateKey limit now = ((due cfg now t).insertionSort Before).take limit := by
  rw [due, letters, List.filter_filter]
  unfold Tables.dueRawLogs
  congr 2
  exact List.filter_congr fun r _ => Bool.and_comm _ _

/-- The listing is read to its end. -/
def Undisturbed (env : Env) (cfg : Config) (w : World) : Prop :=
  env.fault w.now .listRawLogs = .none ∧
    (cfg.backend = .sqlite → env.cut w.now .listRawLogs = none)

section Batch

variable {env : Env} {cfg : Config} {w w' : World} {now : Nat}

theorem cutRows_first {α : Type} (t : Nat) (call : DbCall) (rows : List α) :
    cutRows env cfg t call rows <+: rows := by
  unfold cutRows
  split
  · exact List.take_prefix _ _
  · exact List.prefix_rfl

theorem cutRows_eq {α : Type} {t : Nat} {call : DbCall} (rows : List α)
    (h : cfg.backend = .sqlite → env.cut t call = none) : cutRows env cfg t call rows = rows := by
  unfold cutRows
  split
  · next n hb hcut =>
    rw [h hb] at hcut
    cases hcut
  · rfl

/-- **The listing**: the first letters of the batch, or all of it. -/
theorem meets_listRawLogs (env : Env) (hb : cfg.backend ≠ .rocksdb) (hw : w.Quiet)
    (limit now : Nat) :
    Meets (listRawLogs env cfg cfg.stateKey limit now) w
      ⟨fun rows w' => w' = w ∧ rows <+: w.db.dueRawLogs cfg.stateKey limit now ∧
          (Undisturbed env cfg w → rows = w.db.dueRawLogs cfg.stateKey limit now),
        fun _ w' => w' = w ∧ ¬Undisturbed env cfg w,
        fun w' => w'.db = w.db ∧ w'.handed = w.handed⟩ := by
  have hbody : listRawLogs env cfg cfg.stateKey limit now =
      guarded (execScan env cfg .listRawLogs (Tables.dueRawLogs cfg.stateKey limit now)) := by
    unfold listRawLogs
    cases hb' : cfg.backend with
    | rocksdb => exact absurd hb' hb
    | sqlite => rfl
    | postgresql => rfl
  have hconn := eq_quiet hw
  rw [hbody, meets_guarded, meets_execScan, execRead, meets_exec]
  dsimp only
  rw [hconn]
  refine meets_stmt_quiet.mono ?_ ?_ ?_
  · rintro _ c ⟨-, rfl, rfl⟩
    refine ⟨?_, cutRows_first _ _ _, fun h => cutRows_eq _ h.2⟩
    change { w with conn := quiet w.db } = w
    rw [← hconn]
  · rintro e c ⟨⟨e', hfail⟩, rfl⟩
    refine ⟨?_, fun h => ?_⟩
    · change { w with conn := quiet w.db } = w
      rw [← hconn]
    · rw [Env.faultAt, h.1] at hfail
      cases hfail
  · rintro c ⟨-, rfl⟩
    exact ⟨rfl, rfl⟩

theorem tries_first (rows : List RawLogRow) (w : World) :
    (tries env cfg now rows w).map (·.1) <+: rows := by
  induction rows generalizing w with
  | nil => exact List.prefix_rfl
  | cons r rows ih =>
    rw [tries, List.map_cons, List.prefix_cons_inj]
    rcases retryDeadLetter env cfg now r w with ⟨_ | _ | _, w'⟩
    · exact ih w'
    · exact List.nil_prefix
    · exact List.nil_prefix

/-- A loop that comes to its end has tried the whole batch. -/
theorem tries_eq {rows : List RawLogRow} {w : World}
    (h : (Prog.each rows (retryDeadLetter env cfg now) w).1 = .ok ()) :
    (tries env cfg now rows w).map (·.1) = rows := by
  induction rows generalizing w with
  | nil => rfl
  | cons r rows ih =>
    rw [each_cons, bind_apply] at h
    rw [tries, List.map_cons]
    rcases heq : retryDeadLetter env cfg now r w with ⟨_ | _ | _, w'⟩ <;> rw [heq] at h
    · exact congrArg _ (ih h)
    · cases h
    · cases h

/-- **The loop over a batch.** -/
theorem rounded_each (env : Env) (now : Nat) (hb : cfg.backend ≠ .rocksdb)
    (rows : List RawLogRow) {w : World} (hw : w.Quiet) :
    (left (Prog.each rows (retryDeadLetter env cfg now)) w).Quiet ∧
      Rounded now (tries env cfg now rows w) w.db
        (left (Prog.each rows (retryDeadLetter env cfg now)) w).db := by
  induction rows generalizing w with
  | nil => exact ⟨hw, .nil _⟩
  | cons r rows ih =>
    have hturn := meets_retryDeadLetter env now r hb hw
    rw [each_cons, tries]
    unfold Meets at hturn
    rcases heq : retryDeadLetter env cfg now r w with ⟨_ | e | _, w₁⟩ <;> rw [heq] at hturn
    · have hrest := ih hturn.1
      have hleft : left (do
          retryDeadLetter env cfg now r
          Prog.each rows (retryDeadLetter env cfg now)) w =
          left (Prog.each rows (retryDeadLetter env cfg now)) w₁ := by
        unfold left
        rw [bind_of_ok heq]
      rw [hleft]
      exact ⟨hrest.1, .cons hturn.2 hrest.2⟩
    · exact hturn.elim
    · rw [left_of_crash (bind_of_crash heq _)]
      exact ⟨rfl, .cons hturn (.nil _)⟩

/-- What a round is: the loop over what has been listed, unless the process dies over the
listing. A listing that fails is none. -/
theorem retryDeadLetters_cases (env : Env) (hb : cfg.backend ≠ .rocksdb) (hw : w.Quiet) :
    (∃ rows, rows <+: w.db.dueRawLogs cfg.stateKey rawLogRetryBatch (env.clock w.now) ∧
        (Undisturbed env cfg w →
          rows = w.db.dueRawLogs cfg.stateKey rawLogRetryBatch (env.clock w.now)) ∧
        attempts env cfg w = tries env cfg (env.clock w.now) rows w ∧
        retryDeadLetters env cfg w =
          Prog.each rows (retryDeadLetter env cfg (env.clock w.now)) w) ∨
      attempts env cfg w = [] ∧ ∃ w', retryDeadLetters env cfg w = (.crash, w') ∧
        w'.db = w.db ∧ w'.handed = w.handed := by
  have hlist := meets_listRawLogs env hb hw rawLogRetryBatch (env.clock w.now)
  unfold Meets at hlist
  rw [retryDeadLetters, if_neg hb, read_bind, bind_apply, catching, attempts]
  rcases heq : listRawLogs env cfg cfg.stateKey rawLogRetryBatch (env.clock w.now) w with
    ⟨rows | e | _, w₁⟩ <;> rw [heq] at hlist
  · obtain ⟨rfl, hpre, hall⟩ := hlist
    exact .inl ⟨rows, hpre, hall, rfl, rfl⟩
  · obtain ⟨rfl, hdisturbed⟩ := hlist
    exact .inl ⟨[], List.nil_prefix, fun h => absurd h hdisturbed, rfl, rfl⟩
  · exact .inr ⟨rfl, w₁, rfl, hlist⟩

/-- **What a round does to the tables.** -/
theorem rounded (env : Env) (hb : cfg.backend ≠ .rocksdb) (hw : w.Quiet) :
    (left (retryDeadLetters env cfg) w).Quiet ∧ Rounded (env.clock w.now) (attempts env cfg w) w.db
      (left (retryDeadLetters env cfg) w).db := by
  rcases retryDeadLetters_cases env hb hw with
    ⟨rows, -, -, htries, hrun⟩ | ⟨hnone, w', hrun, hdb, -⟩
  · have hloop := rounded_each env (env.clock w.now) hb rows hw
    rw [htries]
    unfold left at hloop ⊢
    rw [hrun]
    exact hloop
  · rw [hnone, left_of_crash hrun]
    refine ⟨rfl, ?_⟩
    change Rounded _ _ w.db w'.db
    rw [hdb]
    exact .nil _

/-! ### The logs that are handed over -/

/-- What goes on where no log is handed over. -/
def silentScope : Scope where
  tables := .any
  mem := .any
  handed := .keeping id
  requests := .any

theorem silentScope_records : silentScope.Records where
  events _ _ := trivial
  accounts _ _ := trivial
  blocks _ _ := trivial
  callback _ _ _ := trivial
  rawLogs _ _ _ := trivial
  tsCache _ _ := trivial

theorem handed_of_within {ε α : Type} {p : Prog World ε α} (hp : Within silentScope.frame p)
    (w : World) : (p w).2.handed = w.handed := by
  have hkeeps : Meets p w ⟨fun _ w' => w'.handed = w.handed, fun _ w' => w'.handed = w.handed,
      fun w' => w'.handed = w.handed⟩ :=
    (hp w).mono (fun _ _ h => h.1.handed) (fun _ _ h => h.1.handed) fun _ h => h.1.handed
  exact hkeeps.snd

/-- A log that is processed has been handed over, whatever comes of it. -/
theorem handed_processLog (env : Env) (cfg : Config) (lg : Log) (w : World) :
    (processLog env cfg lg w).2.handed = w.handed ++ [lg] := by
  rw [processLog, modify_bind]
  rcases classify cfg lg with e | _ | ev
  · rfl
  · rfl
  · exact handed_of_within (within_recordEvent (silentScope_records.stores _)) _

/-- A turn hands over the log of its letter, and no other. -/
theorem handed_retryDeadLetter (env : Env) (cfg : Config) (now : Nat) (r : RawLogRow) (w : World) :
    (retryDeadLetter env cfg now r w).2.handed = w.handed ++ [logOfRow cfg r] := by
  have hbump : Within silentScope.frame (do
      ignoring (bumpRawLogAttempt env cfg r.id (now + deadLetterDelayMs r.attempts))
      tick) :=
    within_bind (within_ignoring (within_bumpRawLogAttempt silentScope_records)) fun _ =>
      within_tick
  have hdelete : Within silentScope.frame (do
      ignoring (deleteRawLog env cfg r.id)
      tick) :=
    within_bind (within_ignoring (within_deleteRawLog silentScope_records)) fun _ => within_tick
  have hprocess := handed_processLog env cfg (logOfRow cfg r) w
  rw [retryDeadLetter, bind_apply, attempt]
  rcases heq : processLog env cfg (logOfRow cfg r) w with ⟨_ | e | _, w₁⟩ <;> rw [heq] at hprocess
  · exact (handed_of_within hdelete w₁).trans hprocess
  · exact (handed_of_within hbump w₁).trans hprocess
  · exact hprocess

theorem handed_each (rows : List RawLogRow) (w : World) :
    (Prog.each rows (retryDeadLetter env cfg now) w).2.handed =
      w.handed ++ (tries env cfg now rows w).map fun x => logOfRow cfg x.1 := by
  induction rows generalizing w with
  | nil => exact (List.append_nil _).symm
  | cons r rows ih =>
    have hturn := handed_retryDeadLetter env cfg now r w
    rw [each_cons, bind_apply, tries, List.map_cons]
    rcases heq : retryDeadLetter env cfg now r w with ⟨_ | e | _, w₁⟩ <;> rw [heq] at hturn
    · exact (ih w₁).trans (by rw [hturn, List.append_assoc]; rfl)
    · exact hturn
    · exact hturn

/-- **The logs of a round** are those of the letters that were tried. -/
theorem handed_retryDeadLetters (hb : cfg.backend ≠ .rocksdb) (hw : w.Quiet) :
    (left (retryDeadLetters env cfg) w).handed =
      w.handed ++ (attempts env cfg w).map fun x => logOfRow cfg x.1 := by
  have hleft : (left (retryDeadLetters env cfg) w).handed =
      (retryDeadLetters env cfg w).2.handed := by
    unfold left
    rcases retryDeadLetters env cfg w with ⟨_ | _ | _, w'⟩ <;> rfl
  rw [hleft]
  rcases retryDeadLetters_cases env hb hw with ⟨rows, -, -, htries, hrun⟩ | ⟨hnone, w', hrun, -, hh⟩
  · rw [hrun, htries]
    exact handed_each rows w
  · rw [hrun, hnone]
    exact hh.trans (List.append_nil _).symm

end Batch

/-! ### Who is tried -/

/-- The letters `xs` are tried in their turn: no more than there is room for, the ones with the
fewest attempts on record, the oldest of these first. -/
structure Fair (cfg : Config) (now : Nat) (t : Tables) (xs : List Attempt) : Prop where
  few : xs.length ≤ rawLogRetryBatch
  due : ∀ x ∈ xs, x.1 ∈ due cfg now t
  ordered : (xs.map (·.1)).Pairwise Before
  first : ∀ x ∈ xs, ∀ r ∈ DeadLetters.due cfg now t, r ∉ xs.map (·.1) → Before x.1 r

section Fair

variable {env : Env} {cfg : Config} {w : World} {now : Nat} {t : Tables} {xs : List Attempt}

theorem pairwise_sorted (cfg : Config) (now : Nat) (t : Tables) :
    ((due cfg now t).insertionSort Before).Pairwise Before :=
  List.pairwise_insertionSort _ _

theorem fair_of_first
    (h : xs.map (·.1) <+: t.dueRawLogs cfg.stateKey rawLogRetryBatch now) : Fair cfg now t xs := by
  rw [dueRawLogs_eq] at h
  obtain ⟨rest, hrest⟩ := h.trans ( List.take_prefix _ _)
  have hsorted := pairwise_sorted cfg now t
  rw [← hrest, List.pairwise_append] at hsorted
  refine ⟨?_, fun x hx => ?_, hsorted.1, fun x hx r hr hnot => ?_⟩
  · rw [← List.length_map (f := (·.1))]
    exact h.length_le.trans (List.length_take_le _ _)
  · rw [← List.mem_insertionSort Before, ← hrest]
    exact List.mem_append_left _ (List.mem_map_of_mem hx)
  · rw [← List.mem_insertionSort Before, ← hrest] at hr
    exact hsorted.2.2 _ (List.mem_map_of_mem hx) r ((List.mem_append.1 hr).resolve_left hnot)

/-- No letter is tried twice in a round. -/
theorem nodup_of_first (ht : Numbered t)
    (h : xs.map (·.1) <+: t.dueRawLogs cfg.stateKey rawLogRetryBatch now) :
    (xs.map (·.1.id)).Nodup := by
  rw [dueRawLogs_eq] at h
  have hdue : ((due cfg now t).map (·.id)).Nodup :=
    ht.nodup.sublist ((List.filter_sublist.trans List.filter_sublist).map _)
  have hsorted : (((due cfg now t).insertionSort Before).map (·.id)).Nodup :=
    ((List.perm_insertionSort Before _).map _).nodup_iff.2 hdue
  have hsub := (h.trans ( List.take_prefix _ _)).sublist.map (·.id)
  rw [List.map_map] at hsub
  exact hsorted.sublist hsub

/-- **A round is fair.** -/
theorem attempts_first (env : Env) (hb : cfg.backend ≠ .rocksdb) (hw : w.Quiet) :
    (attempts env cfg w).map (·.1) <+:
      w.db.dueRawLogs cfg.stateKey rawLogRetryBatch (env.clock w.now) := by
  rcases retryDeadLetters_cases env hb hw with ⟨rows, hpre, -, htries, -⟩ | ⟨hnone, -⟩
  · rw [htries]
    exact (tries_first rows w).trans hpre
  · rw [hnone]
    exact List.nil_prefix

/-- A round that nothing disturbs and that comes to its end leaves out a letter that is due only
where there is no room for it. -/
theorem mem_attempts_of_undisturbed (hb : cfg.backend ≠ .rocksdb) (hw : w.Quiet)
    (hread : Undisturbed env cfg w) (hend : (retryDeadLetters env cfg w).1 = .ok ())
    {r : RawLogRow} (hr : r ∈ due cfg (env.clock w.now) w.db) :
    r ∈ (attempts env cfg w).map (·.1) ∨ (attempts env cfg w).length = rawLogRetryBatch := by
  rcases retryDeadLetters_cases env hb hw with ⟨rows, -, hall, htries, hrun⟩ | ⟨-, w', hrun, -⟩
  · have htried : (attempts env cfg w).map (·.1) = rows := by
      rw [hrun] at hend
      rw [htries]
      exact tries_eq hend
    rw [← List.length_map (f := (·.1)), htried, hall hread, dueRawLogs_eq]
    by_cases hroom : (due cfg (env.clock w.now) w.db).length ≤ rawLogRetryBatch
    · left
      rw [List.take_of_length_le (by rwa [List.length_insertionSort]), List.mem_insertionSort]
      exact hr
    · right
      rw [List.length_take, List.length_insertionSort]
      exact Nat.min_eq_left (Nat.le_of_not_le hroom)
  · rw [hrun] at hend
    cases hend

end Fair

end Zponder.DeadLetters

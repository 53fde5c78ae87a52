import Zponder.Reorg
import Zponder.Transact

/-!
# What the two deletions leave

`rollbackFromBlock` and `resetForReplay` are long lists of statements, in a transaction
where the backend has them. Each is put down here as one function on the tables
(`Zponder.erased`, `Zponder.reset`), written in the order of the statements, and each
run either carries out all of that function or none of it. Two things keep this from
being a matter of course.

A failing statement of the cascade over the projection tables is skipped over, so the
function has to know which of the tables were emptied (`Zponder.sweptTables`). And on
PostgreSQL the failure that was skipped over has poisoned the transaction; it is the
next statement that fails then, and there always is one.

RocksDB has no transaction, and a reset that fails there leaves what its first
statements did (`Zponder.leftByReset`).
-/

namespace Zponder

open Imperative Prog Conn

/-! ### The functions -/

section Tables

variable (env : Env) (cfg : Config)

/-- Of the projection tables `names`, those a cascade at moment `now` empties. -/
def sweptTables (now : Nat) (names : List Text) : List Text :=
  names.filter fun p => cascades cfg p && decide (env.fault now (.deleteProjections p) = .none)

/-- The tables without the rows of some projections. -/
def sweep (names : List Text) (fromBlock toBlock : Nat) (t : Tables) : Tables :=
  names.foldl (fun t p => t.deleteProjRows p fromBlock toBlock) t

/-- The tables without the rows of some events. -/
def clearEvents (contractName : Text) (events : List Text) (fromBlock toBlock : Nat)
    (t : Tables) : Tables :=
  events.foldl (fun t e => t.deleteEvents (eventTable contractName e) fromBlock toBlock) t

/-- The projection tables a cascade at moment `now` knows of. A rollback on SQLite goes
on without the list if it cannot be read. -/
def listedTables (now : Nat) (t : Tables) : List Text :=
  if env.fault now .listProjections = .none then
    cutRows env cfg now .listProjections t.projTables
  else []

/-- What the cascade of a rollback leaves. -/
def cascaded (now f : Nat) (t : Tables) : Tables :=
  sweep (sweptTables env cfg now (listedTables env cfg now t)) f u64Max t

/-- What `trimLogCacheUnlocked` leaves. -/
def trimmedCache (chain : Text) (f : Nat) (t : Tables) : Tables :=
  if cfg.logCacheEnabled then
    let t := (t.deleteChainLogs chain f).mapRanges chain fun spans =>
      spans.filter fun s => !decide (s.fromBlock ≥ f)
    if f = 0 then t
    else t.mapRanges chain fun spans => spans.map fun s =>
      if s.fromBlock < f ∧ s.toBlock ≥ f then { s with toBlock := f - 1 } else s
  else t

/-- What the rewound cursor and the cascade leave. -/
def rewound (now : Nat) (key : Text) (f : Nat) (t : Tables) : Tables :=
  if cfg.backend = .sqlite then cascaded env cfg now f (t.rewindSyncState key f)
  else (cascaded env cfg now f t).rewindSyncState key f

/-- What `rollbackFromBlock` leaves on SQLite and PostgreSQL. -/
def erased (now : Nat) (key contractName : Text) (events : List Text) (f : Nat) (chain : Text)
    (t : Tables) : Tables :=
  let t := clearEvents contractName events f u64Max t
  let t := (t.deleteSnapshots key f).deleteBlockHashes key f
  let t := rewound env cfg now key f t
  let t := if cfg.logCache = true ∧ chain ≠ [] then trimmedCache cfg chain f t else t
  (t.deleteBlocks chain f).deleteRawLogs key f u64Max

/-- The projection tables a reset at moment `now` empties. -/
def resetSweeps (now fromBlock toBlock : Nat) (t : Tables) : List Text :=
  if cfg.backend = .rocksdb ∨ fromBlock > toBlock then []
  else sweptTables env cfg now (cutRows env cfg now .listProjections t.projTables)

/-- What `resetForReplay` leaves. -/
def reset (now : Nat) (key contractName : Text) (events : List Text) (fromBlock toBlock : Nat)
    (t : Tables) : Tables :=
  let t := clearEvents contractName events fromBlock toBlock t
  let t := sweep (resetSweeps env cfg now fromBlock toBlock t) fromBlock toBlock t
  let t := if cfg.backend = .rocksdb then t else t.deleteRawLogs key fromBlock toBlock
  t.putSyncState key ⟨fromBlock, "replaying".toList⟩

/-- The events a reset at moment `now` gets through before a statement fails, and whose
tables are not given back: none where there are transactions. -/
def clearedEvents (now : Nat) (events : List Text) : List Text :=
  if cfg.backend = .rocksdb then
    events.takeWhile fun e => decide (env.fault now (.deleteEventLogs e) = .none)
  else []

/-- What a reset that fails leaves. -/
def leftByReset (now : Nat) (contractName : Text) (events : List Text) (fromBlock toBlock : Nat)
    (t : Tables) : Tables :=
  clearEvents contractName (clearedEvents env cfg now events) fromBlock toBlock t

end Tables

/-! ### What is gone and what is left -/

section Left

variable {env : Env} {cfg : Config} {now f b : Nat} {key name chain : Text}
  {events names : List Text} {t : Tables}

/-- What stays of the events: the rows of other tables, and the other blocks. -/
theorem clearEvents_eq : clearEvents name events f b t = { t with
    events := t.events.filter fun r =>
      !(decide (r.key.table ∈ events.map (eventTable name)) && inRange f b r.blockNumber) } := by
  induction events generalizing t with
  | nil => simp [clearEvents]
  | cons e events ih =>
    have hstep : clearEvents name (e :: events) f b t =
        clearEvents name events f b (t.deleteEvents (eventTable name e) f b) := rfl
    rw [hstep, ih, Tables.deleteEvents]
    simp only [List.filter_filter]
    congr 1
    refine List.filter_congr fun r _ => ?_
    by_cases hr : r.key.table = eventTable name e
    · cases hin : inRange f b r.blockNumber <;> simp [hr]
    · simp [hr]

/-- What stays of the projections. -/
theorem sweep_eq : sweep names f b t = { t with
    projs := t.projs.filter fun r =>
      !(decide (r.table ∈ names) && inRange f b r.blockNumber) } := by
  induction names generalizing t with
  | nil => simp [sweep]
  | cons p names ih =>
    have hstep : sweep (p :: names) f b t = sweep names f b (t.deleteProjRows p f b) := rfl
    rw [hstep, ih, Tables.deleteProjRows]
    simp only [List.filter_filter]
    congr 1
    refine List.filter_congr fun r _ => ?_
    by_cases hr : r.table = p
    · cases hin : inRange f b r.blockNumber <;> simp [hr]
    · simp [hr]

theorem mem_events_clearEvents {r : EventRow} : r ∈ (clearEvents name events f b t).events ↔
    r ∈ t.events ∧ ¬(r.key.table ∈ events.map (eventTable name) ∧
      inRange f b r.blockNumber = true) := by
  rw [clearEvents_eq, List.mem_filter]
  cases inRange f b r.blockNumber <;> simp

/-- What a reset leaves, table by table. -/
theorem reset_eq : reset env cfg now key name events f b t = { t with
    events := (clearEvents name events f b t).events
    projs := (sweep (resetSweeps env cfg now f b t) f b t).projs
    rawLogs := if cfg.backend = .rocksdb then t.rawLogs else (t.deleteRawLogs key f b).rawLogs
    syncState := (t.putSyncState key ⟨f, "replaying".toList⟩).syncState } := by
  rw [reset, clearEvents_eq, sweep_eq, sweep_eq]
  split <;> rfl

theorem exists_rewindSyncState (key : Text) (f : Nat) (t : Tables) :
    ∃ s, t.rewindSyncState key f = { t with syncState := s } := by
  unfold Tables.rewindSyncState
  split
  · exact ⟨_, rfl⟩
  · exact ⟨_, rfl⟩

/-- The cursor and the cascade have nothing to do with the rest. -/
theorem exists_rewound (env : Env) (cfg : Config) (now : Nat) (key : Text) (f : Nat) (t : Tables) :
    ∃ p s, rewound env cfg now key f t = { t with projs := p, syncState := s } := by
  unfold rewound cascaded
  obtain ⟨s, hs⟩ := exists_rewindSyncState key f t
  split
  · rw [hs, sweep_eq]
    exact ⟨_, _, rfl⟩
  · rw [sweep_eq]
    obtain ⟨s, hs⟩ := exists_rewindSyncState key f { t with projs := _ }
    rw [hs]
    exact ⟨_, _, rfl⟩

/-- What the trim leaves of the cached logs. -/
theorem exists_trimmedCache (cfg : Config) (chain : Text) (f : Nat) (t : Tables) : ∃ r, trimmedCache cfg chain f t = { t with
    chainLogs := if cfg.logCacheEnabled = true then (t.deleteChainLogs chain f).chainLogs
      else t.chainLogs
    chainLogRanges := r } := by
  unfold trimmedCache
  by_cases hon : cfg.logCacheEnabled = true
  · rw [if_pos hon, if_pos hon]
    split
    · exact ⟨_, rfl⟩
    · exact ⟨_, rfl⟩
  · rw [if_neg hon, if_neg hon]
    exact ⟨_, rfl⟩

/-- **What a rollback leaves**, table by table. -/
theorem exists_erased (env : Env) (cfg : Config) (now : Nat) (key name : Text) (events : List Text)
    (f : Nat) (chain : Text) (t : Tables) :
    ∃ p s r, erased env cfg now key name events f chain t = { t with
    events := (clearEvents name events f u64Max t).events
    snapshots := (t.deleteSnapshots key f).snapshots
    blockHashes := (t.deleteBlockHashes key f).blockHashes
    projs := p
    syncState := s
    chainLogs := if (cfg.logCache = true ∧ chain ≠ []) ∧ cfg.logCacheEnabled = true then
        (t.deleteChainLogs chain f).chainLogs
      else t.chainLogs
    chainLogRanges := r
    blocks := (t.deleteBlocks chain f).blocks
    rawLogs := (t.deleteRawLogs key f u64Max).rawLogs } := by
  rw [erased, clearEvents_eq]
  obtain ⟨p, s, hrew⟩ := exists_rewound env cfg now key f
    (((clearEvents name events f u64Max t).deleteSnapshots key f).deleteBlockHashes key f)
  rw [clearEvents_eq] at hrew
  rw [hrew]
  by_cases hc : cfg.logCache = true ∧ chain ≠ []
  · obtain ⟨r, htrim⟩ := exists_trimmedCache cfg chain f
      { ((clearEvents name events f u64Max t).deleteSnapshots key f).deleteBlockHashes key f with
        projs := p, syncState := s }
    rw [clearEvents_eq] at htrim
    refine ⟨p, s, r, ?_⟩
    simp only [if_pos hc, htrim, and_iff_right hc]
    rfl
  · refine ⟨p, s, t.chainLogRanges, ?_⟩
    simp only [hc, false_and, if_false]
    rfl

end Left

/-! ### Statements of a transaction, as functions -/

section Transaction

variable {env : Env} {cfg : Config} {w : World} {t u : Tables} {S : Prop}

/-- The same for a transaction that may be poisoned: a write that goes through says that
it is not. -/
theorem meets_write (h : InTxn t S (· = u) w.conn) {call : DbCall} {g : Tables → Tables} :
    Meets (execWrite env cfg call g) w (txnPost Unit w t fun _ => (· = g u)) := by
  refine (meets_exec_inTxn h).mono ?_ (fun _ _ h => h) fun _ h => h
  rintro _ w' ⟨-, hS, hw⟩
  refine hw.mono (iff_false_intro hS) ?_
  rintro u' ⟨u, rfl, hg⟩
  exact (congrArg Prod.snd hg).symm

/-- What a piece of a transaction leaves, it leaves under the lock. -/
theorem meets_guarded_txn {α : Type} {p : M α} {P : α → Tables → Prop}
    (h : Meets p { w with writeDepth := w.writeDepth + 1 }
      (txnPost α { w with writeDepth := w.writeDepth + 1 } t P)) :
    Meets (guarded p) w (txnPost α w t P) := by
  rw [meets_guarded]
  refine h.mono ?_ ?_ ?_
  · rintro a w' ⟨hin, hw⟩
    refine ⟨hin, ?_⟩
    rw [hw]
    rfl
  · rintro e w' ⟨hin, hw⟩
    refine ⟨hin, ?_⟩
    rw [hw]
    rfl
  · rintro w' ⟨hq, hw⟩
    refine ⟨hq, ?_⟩
    unfold OnlyConn at *
    rw [hw]

/-- A write under the lock. -/
theorem meets_guarded_write (h : InTxn t S (· = u) w.conn) {call : DbCall}
    {g : Tables → Tables} :
    Meets (guarded (execWrite env cfg call g)) w (txnPost Unit w t fun _ => (· = g u)) :=
  meets_guarded_txn (meets_write (w := { w with writeDepth := w.writeDepth + 1 }) h)

/-- One write for each element. -/
theorem meets_each_write {β : Type} {f : β → M Unit} {g : β → Tables → Tables}
    (hf : ∀ x w' u, InTxn t False (· = u) w'.conn →
      Meets (f x) w' (txnPost Unit w' t fun _ => (· = g x u)))
    (h : InTxn t False (· = u) w.conn) (xs : List β) :
    Meets (Prog.each xs f) w
      (txnPost Unit w t fun _ => (· = xs.foldl (fun u x => g x u) u)) := by
  refine meets_txn_each (I := fun done => (· = done.foldl (fun u x => g x u) u)) ?_ h
  intro x _ done w' hin _
  refine meets_txn_mono (hf x w' _ hin) fun _ u' hu => ?_
  rw [List.foldl_append, hu]
  rfl

/-- What a piece of a transaction leaves that goes on after its failures: the
transaction may be poisoned by now. -/
def shakyPost (α : Type) (w : World) (t : Tables) (u : α → Tables) : Post World Err α :=
  ⟨fun a w' => ∃ S, StillIn w t S (· = u a) w',
    fun _ w' => (∃ S P, InTxn t S P w'.conn) ∧ w' = { w with conn := w'.conn }, Died w t⟩

/-- What follows such a piece. -/
theorem meets_shaky_bind {α β : Type} {p : M α} {k : α → M β} {u : α → Tables}
    {Q : β → Tables → Prop} (hp : Meets p w (shakyPost α w t u))
    (hk : ∀ a w' S, InTxn t S (· = u a) w'.conn → w' = { w with conn := w'.conn } →
      Meets (k a) w' (txnPost β w' t Q)) : Meets (p >>= k) w (txnPost β w t Q) := by
  rw [meets_bind]
  refine hp.mono ?_ (fun _ _ h => h) fun _ h => h
  rintro a w₁ ⟨S₁, h₁⟩
  refine (hk a w₁ S₁ h₁.1 h₁.2).mono ?_ ?_ fun _ h => h₁.died h
  · exact fun b w₂ h₂ => h₁.trans h₂
  · rintro e w₂ ⟨hin, hw⟩
    exact ⟨hin, by rw [hw, h₁.2]⟩

/-- Whether or not one `DELETE` of a cascade was carried out, it did what it counts for. -/
theorem sweep_single {p : Text} {f b now : Nat} {u' : Tables} (hc : cascades cfg p = true)
    (h : (env.faultAt now (.deleteProjections p) = .none ∧ u' = u.deleteProjRows p f b) ∨
      (Failed (env.faultAt now (.deleteProjections p)) ∧ u' = u)) :
    u' = sweep (sweptTables env cfg now [p]) f b u := by
  rcases h with ⟨hφ, rfl⟩ | ⟨hφ, rfl⟩
  · have hnone : env.fault now (.deleteProjections p) = .none := by
      simpa [Env.faultAt] using hφ
    simp [sweptTables, hc, hnone, sweep]
  · obtain ⟨e, he⟩ : Failed (env.fault now (.deleteProjections p)) := by
      simpa [Env.faultAt] using hφ
    simp [sweptTables, he, sweep]

/-- One `DELETE` of a cascade. -/
theorem meets_deleteProjection (h : InTxn t S (· = u) w.conn) (p : Text) (f b : Nat) :
    Meets (deleteProjection env cfg f b p) w
      (shakyPost Unit w t fun _ => sweep (sweptTables env cfg w.now [p]) f b u) := by
  unfold deleteProjection
  by_cases hc : cascades cfg p = true
  · rw [if_pos hc, execWrite, exec, ignoring]
    have hwrite : Meets (catching (stmt cfg.engine (env.faultAt w.now (.deleteProjections p))
        fun u => ((), Tables.deleteProjRows p f b u)) fun _ => (pure () : Prog _ Err Unit)) w.conn _ :=
      h.meets_ignored
    have hgo : ∀ c, InTxn t (S ∨ (cfg.engine.poisons = true ∧
          Failed (env.faultAt w.now (.deleteProjections p)))) (fun u' => ∃ v, v = u ∧
            ((env.faultAt w.now (.deleteProjections p) = .none ∧ u' = v.deleteProjRows p f b) ∨
              (Failed (env.faultAt w.now (.deleteProjections p)) ∧ u' = v))) c →
        ∃ S', StillIn w t S' (· = sweep (sweptTables env cfg w.now [p]) f b u)
          { w with conn := c } := by
      intro c hin
      refine ⟨_, hin.mono Iff.rfl ?_, rfl⟩
      rintro u' ⟨_, rfl, hu⟩
      exact sweep_single hc hu
    simp only [meets_catching, meets_bind, meets_read, meets_onConn, meets_pure] at hwrite ⊢
    exact hwrite.mono (fun _ c hin => hgo c hin) (fun _ c hin => hgo c hin) fun c hc => ⟨hc, rfl⟩
  · rw [if_neg hc]
    exact ⟨S, by simpa [sweptTables, hc, sweep] using h, rfl⟩

/-- **A cascade**: every table it knows of and can empty is empty from `f` to `b`. -/
theorem meets_sweep (names : List Text) (f b : Nat) : ∀ {w : World} {u : Tables} {S : Prop},
    InTxn t S (· = u) w.conn →
    Meets (Prog.each names (deleteProjection env cfg f b)) w
      (shakyPost Unit w t fun _ => sweep (sweptTables env cfg w.now names) f b u) := by
  induction names with
  | nil => exact fun h => ⟨_, h, rfl⟩
  | cons p names ih =>
    intro w u S h
    rw [each_cons, meets_bind]
    refine (meets_deleteProjection h p f b).mono ?_ (fun _ _ h => h) fun _ h => h
    rintro _ w₁ ⟨S₁, h₁⟩
    have hnow : w₁.now = w.now := by rw [h₁.2]
    refine (ih h₁.1).mono ?_ ?_ fun _ h => h₁.died h
    · rintro _ w₂ ⟨S₂, h₂⟩
      refine ⟨S₂, h₁.trans (h₂.mono Iff.rfl ?_)⟩
      rintro _ rfl
      rw [hnow, sweep, sweep, sweep, ← List.foldl_append]
      rw [sweptTables, sweptTables, sweptTables, ← List.filter_append]
      rfl
    · rintro e w₂ ⟨hin, hw⟩
      exact ⟨hin, by rw [hw, h₁.2]⟩

/-! ### The statements of a rollback -/

/-- The list of the projection tables. -/
theorem meets_scanProjections (env : Env) (cfg : Config) (h : InTxn t False (· = u) w.conn) :
    Meets (execScan env cfg .listProjections (·.projTables)) w
      ⟨fun names w' => env.fault w.now .listProjections = .none ∧
          names = cutRows env cfg w.now .listProjections u.projTables ∧
          StillIn w t False (· = u) w',
        fun _ w' => Failed (env.fault w.now .listProjections) ∧
          InTxn t (cfg.engine.poisons = true) (· = u) w'.conn ∧ w' = { w with conn := w'.conn },
        Died w t⟩ := by
  rw [meets_execScan, execRead, meets_exec]
  refine h.meets_stmt.mono ?_ ?_ ?_
  · rintro rows c ⟨hφ, -, hin⟩
    have hrows : ∀ v, (∃ u', u' = u ∧ (u'.projTables, u') = (rows, v)) →
        rows = u.projTables ∧ v = u := by
      rintro v ⟨_, rfl, hv⟩
      obtain ⟨h₁, h₂⟩ := Prod.mk.inj hv
      exact ⟨h₁.symm, h₂.symm⟩
    obtain ⟨x, ⟨hf, -⟩ | ⟨-, hx, rfl⟩⟩ := hin
    · exact hf.elim
    · obtain ⟨hr, rfl⟩ := hrows x hx
      refine ⟨by simpa [Env.faultAt] using hφ, by rw [hr], inTxn_opened rfl, rfl⟩
  · rintro e c ⟨hf | hf, hin⟩
    · exact hf.elim
    · refine ⟨by simpa [Env.faultAt] using hf, hin.mono ?_ fun _ h => h, rfl⟩
      simp [hf]
  · rintro c ⟨-, rfl⟩
    exact ⟨rfl, rfl⟩

/-- What a rollback knows of the projection tables. -/
theorem meets_listProjections (h : InTxn t False (· = u) w.conn) :
    Meets (listProjections env cfg) w
      (txnPost (List Text) w t fun names u' => names = listedTables env cfg w.now u ∧ u' = u) := by
  have hscan := meets_scanProjections env cfg h
  have hlisted : env.fault w.now .listProjections = .none →
      listedTables env cfg w.now u = cutRows env cfg w.now .listProjections u.projTables :=
    fun hf => if_pos hf
  unfold listProjections
  cases hb : cfg.backend with
  | sqlite =>
    have hengine : cfg.engine.poisons = false := by simp [Config.engine, hb]
    rw [meets_catching]
    refine hscan.mono ?_ ?_ fun _ h => h
    · rintro names w' ⟨hf, rfl, hin⟩
      exact hin.mono Iff.rfl fun _ hu => ⟨(hlisted hf).symm, hu⟩
    · rintro e w' ⟨⟨e', hf⟩, hin, hw⟩
      refine ⟨hin.mono (by simp [hengine]) fun _ hu => ⟨?_, hu⟩, hw⟩
      simp [listedTables, hf]
  | postgresql =>
    refine hscan.mono ?_ ?_ fun _ h => h
    · rintro names w' ⟨hf, rfl, hin⟩
      exact hin.mono Iff.rfl fun _ hu => ⟨(hlisted hf).symm, hu⟩
    · exact fun e w' h => ⟨⟨_, _, h.2.1⟩, h.2.2⟩
  | rocksdb =>
    refine hscan.mono ?_ ?_ fun _ h => h
    · rintro names w' ⟨hf, rfl, hin⟩
      exact hin.mono Iff.rfl fun _ hu => ⟨(hlisted hf).symm, hu⟩
    · exact fun e w' h => ⟨⟨_, _, h.2.1⟩, h.2.2⟩

/-- The cascade of a rollback. -/
theorem meets_cascadeProjections (h : InTxn t False (· = u) w.conn) (f : Nat) :
    Meets (cascadeProjections env cfg f) w
      (shakyPost Unit w t fun _ => cascaded env cfg w.now f u) := by
  rw [cascadeProjections, meets_bind]
  refine (meets_listProjections h).mono ?_ (fun _ _ h => h) fun _ h => h
  rintro names w₁ h₁
  obtain ⟨v, ⟨hf, -⟩ | ⟨-, ⟨rfl, rfl⟩, hc⟩⟩ := h₁.1
  · exact hf.elim
  have hnow : w₁.now = w.now := by rw [h₁.2]
  have hin : InTxn t False (· = v) w₁.conn := by
    rw [hc]
    exact inTxn_opened rfl
  refine (meets_sweep _ f u64Max hin).mono ?_ ?_ fun _ h => h₁.died h
  · rintro _ w₂ ⟨S₂, h₂⟩
    refine ⟨S₂, h₁.trans (h₂.mono Iff.rfl ?_)⟩
    rintro _ rfl
    rw [hnow]
    rfl
  · rintro e w₂ ⟨hin, hw⟩
    exact ⟨hin, by rw [hw, h₁.2]⟩

/-- The cursor and the cascade. On PostgreSQL the rewind comes last, and tells whether
the cascade has poisoned the transaction. -/
theorem meets_rewindAndCascade (h : InTxn t False (· = u) w.conn) (key : Text) (f : Nat) :
    Meets (rewindAndCascade env cfg key f) w
      (shakyPost Unit w t fun _ => rewound env cfg w.now key f u) := by
  unfold rewindAndCascade rewound
  split
  · rw [meets_bind]
    refine (meets_write h).mono ?_ (fun _ _ h => h) fun _ h => h
    intro _ w₁ h₁
    have hnow : w₁.now = w.now := by rw [h₁.2]
    refine (meets_cascadeProjections h₁.1 f).mono ?_ ?_ fun _ h => h₁.died h
    · rintro _ w₂ ⟨S₂, h₂⟩
      rw [hnow] at h₂
      exact ⟨S₂, h₁.trans h₂⟩
    · rintro e w₂ ⟨hin, hw⟩
      exact ⟨hin, by rw [hw, h₁.2]⟩
  · refine (meets_shaky_bind (meets_cascadeProjections h f) fun _ w₁ S h₁ hw =>
      meets_write h₁).mono (fun _ _ h => ⟨_, h⟩) (fun _ _ h => h) fun _ h => h

/-- The cache. -/
theorem meets_trimLogCacheUnlocked (h : InTxn t S (· = u) w.conn)
    (hon : cfg.logCacheEnabled = true) (chain : Text) (f : Nat) :
    Meets (trimLogCacheUnlocked env cfg chain f) w
      (txnPost Unit w t fun _ => (· = trimmedCache cfg chain f u)) := by
  unfold trimLogCacheUnlocked trimmedCache
  rw [if_pos hon, if_pos hon]
  refine meets_txn_bind (meets_write h) fun _ w₁ h₁ _ => ?_
  refine meets_txn_bind (meets_write h₁) fun _ w₂ h₂ _ => ?_
  by_cases hf : f = 0
  · rw [if_pos hf, if_pos hf]
    exact ⟨h₂, rfl⟩
  · rw [if_neg hf, if_neg hf]
    exact meets_write h₂

/-- The cursor, the cascade and the cache. -/
theorem meets_rewindAndTrim (hb : cfg.backend ≠ .rocksdb) (h : InTxn t False (· = u) w.conn)
    (key chain : Text) (f : Nat) :
    Meets (do
        rewindAndCascade env cfg key f
        Prog.when (cfg.logCache = true ∧ chain ≠ []) (trimLogCacheUnlocked env cfg chain f)) w
      (shakyPost Unit w t fun _ =>
        if cfg.logCache = true ∧ chain ≠ [] then
          trimmedCache cfg chain f (rewound env cfg w.now key f u)
        else rewound env cfg w.now key f u) := by
  by_cases hc : cfg.logCache = true ∧ chain ≠ []
  · rw [when_of hc, if_pos hc]
    have hon : cfg.logCacheEnabled = true := by simp [Config.logCacheEnabled, hc.1, hb]
    refine (meets_shaky_bind (meets_rewindAndCascade h key f) fun _ w₁ S h₁ _ =>
      meets_trimLogCacheUnlocked h₁ hon chain f).mono (fun _ _ h => ⟨_, h⟩) (fun _ _ h => h)
      fun _ h => h
  · rw [when_of_not hc, if_neg hc, bind_pure_unit]
    exact meets_rewindAndCascade h key f

/-- **The statements of a rollback.** -/
theorem meets_rollbackStatements (env : Env) (hb : cfg.backend ≠ .rocksdb) (h : InTxn t False (· = u) w.conn)
    (key name : Text) (events : List Text) (f : Nat) (chain : Text) :
    Meets (rollbackStatements env cfg key name events f chain) w
      (txnPost Unit w t fun _ => (· = erased env cfg w.now key name events f chain u)) := by
  unfold rollbackStatements
  refine meets_txn_bind (meets_each_write (fun e w' v hin => meets_write hin) h events)
    fun _ w₁ h₁ hw₁ => ?_
  refine meets_txn_bind (meets_write h₁) fun _ w₂ h₂ hw₂ => ?_
  refine meets_txn_bind (meets_write h₂) fun _ w₃ h₃ hw₃ => ?_
  have hnow : w₃.now = w.now := by rw [hw₃, hw₂, hw₁]
  rw [← bind_assoc]
  refine meets_shaky_bind (meets_rewindAndTrim hb h₃ key chain f) fun _ w₄ S₄ h₄ _ => ?_
  refine meets_txn_bind (meets_write h₄) fun _ w₅ h₅ _ => ?_
  have hraw : deleteRawLogsFrom env cfg key f u64Max =
      execWrite env cfg .deleteRawLogs (Tables.deleteRawLogs key f u64Max) := by
    unfold deleteRawLogsFrom
    cases hb' : cfg.backend
    · rfl
    · rfl
    · exact absurd hb' hb
  rw [hraw]
  rw [← hnow]
  exact meets_write h₅

/-- **`rollbackFromBlock` where there are transactions**: all of it or nothing. -/
theorem meets_rollbackFromBlock (env : Env) (hb : cfg.backend ≠ .rocksdb) (hw : w.Quiet)
    (key name : Text) (events : List Text) (f : Nat) (chain : Text) :
    Meets (rollbackFromBlock env cfg key name events f chain) w
      ⟨fun _ w' => w' = { w with
          conn := quiet (erased env cfg w.now key name events f chain w.db), now := w.now + 1 },
        fun _ w' => w' = w.ticked, fun w' => w'.conn = quiet w.db⟩ := by
  have hbody : rollbackFromBlock env cfg key name events f chain =
      guarded (inTransaction env cfg (rollbackStatements env cfg key name events f chain)) := by
    unfold rollbackFromBlock
    cases hb' : cfg.backend
    · rfl
    · rfl
    · exact absurd hb' hb
  rw [hbody, meets_guarded]
  refine (meets_inTransaction (w := { w with writeDepth := w.writeDepth + 1 }) (t := w.db)
    (P := (· = erased env cfg w.now key name events f chain w.db)) (eq_quiet hw)
    fun w₁ hc hnow _ => ?_).mono ?_ ?_ fun _ h => h.1
  · have hin : InTxn w.db False (· = w.db) w₁.conn := by
      rw [hc]
      exact inTxn_opened rfl
    have := meets_rollbackStatements env hb hin key name events f chain
    rwa [hnow] at this
  · rintro _ w' ⟨_, rfl, rfl⟩
    rfl
  · rintro _ w' rfl
    rfl

/-! ### The statements of a reset -/

/-- The cascade of a reset: a window that is empty needs none. -/
theorem meets_deleteProjectionsFromBlock (hb : cfg.backend ≠ .rocksdb)
    (h : InTxn t False (· = u) w.conn) (f b : Nat) :
    Meets (deleteProjectionsFromBlock env cfg f b) w
      (shakyPost Unit w t fun _ => sweep (resetSweeps env cfg w.now f b u) f b u) := by
  have hbody : deleteProjectionsFromBlock env cfg f b = guarded (if f > b then pure () else do
      let names ← execScan env cfg .listProjections (·.projTables)
      Prog.each names (deleteProjection env cfg f b)) := by
    unfold deleteProjectionsFromBlock
    cases hb' : cfg.backend
    · rfl
    · rfl
    · exact absurd hb' hb
  rw [hbody, meets_guarded]
  by_cases hfb : f > b
  · rw [if_pos hfb, resetSweeps, if_pos (.inr hfb)]
    exact ⟨False, h, rfl⟩
  · rw [if_neg hfb, meets_bind, resetSweeps, if_neg (not_or.2 ⟨hb, hfb⟩)]
    refine (meets_scanProjections env cfg (w := { w with writeDepth := w.writeDepth + 1 }) h).mono ?_ ?_ ?_
    · rintro _ w₁ ⟨-, rfl, h₁⟩
      have hnow : w₁.now = w.now := by rw [h₁.2]
      refine (meets_sweep _ f b h₁.1).mono ?_ ?_ ?_
      · rintro _ w₂ ⟨S₂, h₂⟩
        rw [hnow] at h₂
        refine ⟨S₂, h₂.1, ?_⟩
        rw [h₂.2, h₁.2]
        rfl
      · rintro e w₂ ⟨hin, hw⟩
        refine ⟨hin, ?_⟩
        rw [hw, h₁.2]
        rfl
      · rintro w₂ ⟨hq, hw⟩
        refine ⟨hq, ?_⟩
        unfold OnlyConn at *
        rw [hw, h₁.2]
    · rintro e w₁ ⟨-, hin, hw⟩
      refine ⟨⟨_, _, hin⟩, ?_⟩
      rw [hw]
      rfl
    · rintro w₁ ⟨hq, hw⟩
      refine ⟨hq, ?_⟩
      unfold OnlyConn at *
      rw [hw]

/-- **The statements of a reset**, in a transaction. -/
theorem meets_resetStatements (env : Env) (hb : cfg.backend ≠ .rocksdb) (h : InTxn t False (· = u) w.conn)
    (key name : Text) (events : List Text) (f b : Nat) :
    Meets (resetStatements env cfg key name events f b) w
      (txnPost Unit w t fun _ => (· = reset env cfg w.now key name events f b u)) := by
  unfold resetStatements
  refine meets_txn_bind (meets_each_write (fun e w' v hin => meets_guarded_write hin) h events)
    fun _ w₁ h₁ hw₁ => ?_
  have hnow : w₁.now = w.now := by rw [hw₁]
  refine meets_shaky_bind (meets_deleteProjectionsFromBlock hb h₁ f b) fun _ w₂ S₂ h₂ _ => ?_
  have hraw : deleteRawLogsFrom env cfg key f b =
      execWrite env cfg .deleteRawLogs (Tables.deleteRawLogs key f b) := by
    unfold deleteRawLogsFrom
    cases hb' : cfg.backend
    · rfl
    · rfl
    · exact absurd hb' hb
  rw [hraw]
  refine meets_txn_bind (meets_write h₂) fun _ w₃ h₃ _ => ?_
  refine meets_txn_mono (meets_guarded_write h₃) fun _ u' hu => ?_
  rw [hu, hnow]
  simp only [reset, if_neg hb]
  rfl

end Transaction

/-! ### A reset without a transaction -/

section Rocks

variable {env : Env} {cfg : Config} {w : World}

/-- One write under the lock for each element, where nothing gives back what was done. -/
theorem meets_each_write_quiet {β : Type} (call : β → DbCall) (g : β → Tables → Tables)
    (xs : List β) : ∀ {w : World}, w.Quiet →
    Meets (Prog.each xs fun x => guarded (execWrite env cfg (call x) (g x))) w
      ⟨fun _ w' => xs.takeWhile (fun x => decide (env.fault w.now (call x) = .none)) = xs ∧
          w' = { w with conn := quiet (xs.foldl (fun u x => g x u) w.db) },
        fun _ w' => w' = { w with
          conn := quiet ((xs.takeWhile fun x => decide (env.fault w.now (call x) = .none)).foldl
            (fun u x => g x u) w.db) },
        fun _ => True⟩ := by
  induction xs with
  | nil =>
    intro w hw
    refine ⟨rfl, ?_⟩
    change w = { w with conn := quiet w.db }
    rw [← eq_quiet hw]
  | cons x xs ih =>
    intro w hw
    have hconn : w.conn = quiet w.db := eq_quiet hw
    rw [each_cons, meets_bind, meets_guarded, execWrite, meets_exec]
    simp only [hconn]
    refine meets_stmt_quiet.mono ?_ ?_ fun _ _ => trivial
    · rintro _ c ⟨hφ, -, rfl⟩
      have hnone : env.fault w.now (call x) = .none := by simpa [Env.faultAt] using hφ
      refine (ih (w := { w with conn := quiet (g x w.db) }) rfl).mono ?_ ?_ fun _ _ => trivial
      · rintro _ w' ⟨hall, rfl⟩
        exact ⟨by simpa [List.takeWhile_cons, hnone] using hall, rfl⟩
      · rintro e w' rfl
        simp only [hnone, decide_true, List.takeWhile_cons_of_pos, List.foldl_cons]
        rfl
    · rintro e c ⟨hφ, rfl⟩
      obtain ⟨e', he⟩ : Failed (env.fault w.now (call x)) := by simpa [Env.faultAt] using hφ
      simp [he, leave, ← hconn]

/-- The statements of a reset where there is no transaction. -/
theorem meets_resetStatements_rocks (hb : cfg.backend = .rocksdb) (hw : w.Quiet)
    (key name : Text) (events : List Text) (f b : Nat) :
    Meets (resetStatements env cfg key name events f b) w
      ⟨fun _ w' => w'.conn = quiet (reset env cfg w.now key name events f b w.db) ∧
          w'.mem = w.mem,
        fun _ w' => w'.conn = quiet (leftByReset env cfg w.now name events f b w.db) ∧
          w'.mem = w.mem,
        fun _ => True⟩ := by
  have hraw : deleteRawLogsFrom env cfg key f b = pure () := by rw [deleteRawLogsFrom, hb]
  have hproj : ∀ w, Meets (deleteProjectionsFromBlock env cfg f b) w
      ⟨fun _ w' => w' = w, fun _ _ => False, fun _ => False⟩ := by
    intro w
    rw [deleteProjectionsFromBlock, hb, meets_guarded]
    split <;> rfl
  rw [resetStatements, meets_bind]
  refine (meets_each_write_quiet .deleteEventLogs
    (fun e => Tables.deleteEvents (eventTable name e) f b) events hw).mono ?_ ?_
    fun _ _ => trivial
  · rintro _ w₁ ⟨hall, h₁⟩
    refine meets_bind.2 ((hproj w₁).mono ?_ (fun _ _ h => h.elim) fun _ h => h.elim)
    rintro _ w₂ rfl
    rw [hraw]
    change Meets (upsertSyncState env cfg key f _) w₂ _
    rw [upsertSyncState, meets_guarded, execWrite, meets_exec, h₁]
    refine meets_stmt_quiet.mono ?_ ?_ fun _ _ => trivial
    · rintro _ c ⟨-, -, rfl⟩
      refine ⟨?_, rfl⟩
      simp only [reset, resetSweeps, hb, true_or, if_true]
      rfl
    · rintro _ c ⟨-, rfl⟩
      refine ⟨?_, rfl⟩
      rw [leftByReset, clearedEvents, if_pos hb, hall]
      rfl
  · rintro _ w₁ rfl
    refine ⟨?_, rfl⟩
    rw [leftByReset, clearedEvents, if_pos hb]
    rfl

/-- **`resetForReplay`**: all of it, or what the backend does not give back. -/
theorem meets_resetForReplay (hw : w.Quiet) (key name : Text) (events : List Text) (f b : Nat) :
    Meets (resetForReplay env cfg key name events f b) w
      ⟨fun _ w' => w'.conn = quiet (reset env cfg w.now key name events f b w.db) ∧
          w'.mem = w.mem,
        fun _ w' => w'.conn = quiet (leftByReset env cfg w.now name events f b w.db) ∧
          w'.mem = w.mem,
        fun _ => True⟩ := by
  by_cases hb : cfg.backend = .rocksdb
  · rw [resetForReplay, hb]
    exact meets_resetStatements_rocks hb hw key name events f b
  · have hbody : resetForReplay env cfg key name events f b =
        inTransaction env cfg (resetStatements env cfg key name events f b) := by
      unfold resetForReplay
      cases hb' : cfg.backend
      · rfl
      · rfl
      · exact absurd hb' hb
    rw [hbody]
    refine (meets_inTransaction (P := (· = reset env cfg w.now key name events f b w.db))
      (eq_quiet hw) fun w₁ hc hnow _ => ?_).mono ?_ ?_ fun _ _ => trivial
    · have hin : InTxn w.db False (· = w.db) w₁.conn := by
        rw [hc]
        exact inTxn_opened rfl
      have := meets_resetStatements env hb hin key name events f b
      rwa [hnow] at this
    · rintro _ w' ⟨_, rfl, rfl⟩
      exact ⟨rfl, rfl⟩
    · rintro _ w' rfl
      refine ⟨?_, rfl⟩
      rw [leftByReset, clearedEvents, if_neg hb]
      exact eq_quiet hw

end Rocks

end Zponder

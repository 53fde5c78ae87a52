import Zponder.Erasure

/-!
# When a rollback goes through

Where there are transactions, `rollbackFromBlock` goes through if none of its statements
fails, and only then. The list of the statements that count (`Zponder.rollbackCalls`) is
not that of the statements that are sent: on SQLite a `DELETE` of the cascade may fail
without anything coming of it, and so may the look for the tables to cascade over, while
on PostgreSQL either makes the next statement fail.

A piece of the transaction is described by the statements of it that count
(`Zponder.Traces`), and pieces compose by appending their lists; that the transaction is
poisoned is the same as that one of the statements so far has failed.
-/

namespace Zponder

open Imperative Prog Conn

/-! ### The statements that count -/

/-- None of the statements fails at moment `now`. -/
def GoThrough (env : Env) (now : Nat) (calls : List DbCall) : Prop :=
  ∀ c ∈ calls, env.fault now c = .none

section Calls

variable (cfg : Config)

/-- The statements of the cascade that count, over the projection tables `names`. -/
def cascadeCalls (names : List Text) : List DbCall :=
  if cfg.backend = .sqlite then []
  else .listProjections :: (names.filter (cascades cfg)).map .deleteProjections

/-- The statements of the trim of the log cache. -/
def trimCalls (chain : Text) (f : Nat) : List DbCall :=
  if cfg.logCache = true ∧ chain ≠ [] then
    [.trimChainLogs, .trimChainLogRanges] ++ if f = 0 then [] else [.cutChainLogRanges]
  else []

/-- The statements of `rollbackFromBlock` that count, where there are transactions. -/
def rollbackCalls (events : List Text) (f : Nat) (chain : Text) (projTables : List Text) :
    List DbCall :=
  [.beginWrite] ++ events.map .deleteEventLogs ++ [.deleteSnapshots, .deleteBlockHashes] ++
    (.rewindSyncState :: cascadeCalls cfg projTables) ++ trimCalls cfg chain f ++
    [.deleteBlocks, .deleteRawLogs, .commitWrite]

end Calls

variable {env : Env} {cfg : Config} {now : Nat} {calls : List DbCall}

theorem goThrough_append {calls' : List DbCall} :
    GoThrough env now (calls ++ calls') ↔ GoThrough env now calls ∧ GoThrough env now calls' := by
  simp only [GoThrough, List.forall_mem_append]

theorem goThrough_cons {c : DbCall} :
    GoThrough env now (c :: calls) ↔ env.fault now c = .none ∧ GoThrough env now calls := by
  simp only [GoThrough, List.forall_mem_cons]

theorem goThrough_nil : GoThrough env now [] := by
  simp [GoThrough]

/-! ### Pieces of a transaction -/

section Trace

variable {α β : Type} {w : World} {t : Tables} {pt : List Text}

/-- What a piece of a transaction leaves when the statements that have counted so far are
`calls`. -/
def tracePost (env : Env) (α : Type) (w : World) (t : Tables) (pt : List Text)
    (calls : List DbCall) : Post World Err α :=
  ⟨fun _ => StillIn w t (¬GoThrough env w.now calls) (·.projTables = pt),
    fun _ w' => ¬GoThrough env w.now calls ∧ (∃ S P, InTxn t S P w'.conn) ∧
      w' = { w with conn := w'.conn },
    Died w t⟩

/-- The statements of `p` that count are `calls`. -/
def Traces (env : Env) (pt : List Text) (p : M α) (calls : List DbCall) : Prop :=
  ∀ (w : World) (t : Tables) (done : List DbCall),
    InTxn t (¬GoThrough env w.now done) (·.projTables = pt) w.conn →
    Meets p w (tracePost env α w t pt (done ++ calls))

theorem traces_pure (a : α) : Traces env pt (pure a) [] := by
  intro w t done h
  rw [List.append_nil]
  exact ⟨h, rfl⟩

theorem traces_bind {p : M α} {k : α → M β} {calls calls' : List DbCall}
    (hp : Traces env pt p calls) (hk : ∀ a, Traces env pt (k a) calls') :
    Traces env pt (p >>= k) (calls ++ calls') := by
  intro w t done h
  rw [meets_bind, ← List.append_assoc]
  refine (hp w t done h).mono ?_ ?_ fun _ h => h
  · intro a w₁ h₁
    have hnow : w₁.now = w.now := by rw [h₁.2]
    have hnext := hk a w₁ t (done ++ calls) (by rw [hnow]; exact h₁.1)
    rw [tracePost, hnow] at hnext
    refine hnext.mono (fun b w₂ h₂ => h₁.trans h₂) ?_ fun _ h => h₁.died h
    rintro e w₂ ⟨hnot, hin, hw⟩
    exact ⟨hnot, hin, by rw [hw, h₁.2]⟩
  · rintro e w₁ ⟨hnot, hin, hw⟩
    exact ⟨fun hgo => hnot (goThrough_append.1 hgo).1, hin, hw⟩

theorem Traces.congr {p : M α} {calls calls' : List DbCall} (h : Traces env pt p calls)
    (he : calls = calls') : Traces env pt p calls' := he ▸ h

/-- One program for each element. -/
theorem traces_each {f : β → M Unit} {call : β → List DbCall}
    (hf : ∀ x, Traces env pt (f x) (call x)) :
    ∀ xs : List β, Traces env pt (Prog.each xs f) (xs.flatMap call)
  | [] => traces_pure ()
  | x :: xs => traces_bind (hf x) fun _ => traces_each hf xs

/-- A write that leaves the list of the projection tables alone. -/
theorem traces_execWrite {call : DbCall} {g : Tables → Tables}
    (hg : ∀ u, (g u).projTables = u.projTables) :
    Traces env pt (execWrite env cfg call g) [call] := by
  intro w t done h
  have hlast : GoThrough env w.now (done ++ [call]) ↔
      GoThrough env w.now done ∧ env.fault w.now call = .none := by
    rw [goThrough_append, goThrough_cons, and_iff_left goThrough_nil]
  rw [execWrite, meets_exec]
  refine h.meets_stmt.mono ?_ ?_ ?_
  · rintro _ c ⟨hφ, hS, hin⟩
    have hnone : env.fault w.now call = .none := by simpa [Env.faultAt] using hφ
    refine ⟨hin.mono ?_ ?_, rfl⟩
    · rw [hlast, and_iff_left hnone]
    · rintro u' ⟨u, hu, hgu⟩
      obtain rfl : g u = u' := congrArg Prod.snd hgu
      exact (hg u).trans hu
  · rintro e c ⟨hS, hin⟩
    refine ⟨fun hgo => ?_, ⟨_, _, hin⟩, rfl⟩
    rcases hS with hS | hφ
    · exact hS (hlast.1 hgo).1
    · have hfail : Failed (env.fault w.now call) := by simpa [Env.faultAt] using hφ
      rw [(hlast.1 hgo).2] at hfail
      exact not_failed_none hfail
  · rintro c ⟨-, rfl⟩
    exact ⟨rfl, rfl⟩

/-- The statements of one `DELETE` of the cascade that count. -/
def projectionCalls (cfg : Config) (p : Text) : List DbCall :=
  if cfg.backend ≠ .sqlite ∧ cascades cfg p = true then [.deleteProjections p] else []

theorem flatMap_projectionCalls (hpg : cfg.backend ≠ .sqlite) (names : List Text) :
    names.flatMap (projectionCalls cfg) = (names.filter (cascades cfg)).map .deleteProjections := by
  induction names with
  | nil => rfl
  | cons p names ih =>
    rw [List.flatMap_cons, ih]
    by_cases hc : cascades cfg p = true <;> simp [projectionCalls, hpg, hc]

/-- The statements that count have failed if the transaction was poisoned before, or the
`DELETE` has poisoned it. -/
theorem not_goThrough_projection (hb : cfg.backend ≠ .rocksdb) {p : Text} {done : List DbCall}
    (hc : cascades cfg p = true) (hcrash : env.fault now (.deleteProjections p) ≠ .crash) :
    ¬GoThrough env now (done ++ projectionCalls cfg p) ↔
      ¬GoThrough env now done ∨
        (cfg.engine.poisons = true ∧ Failed (env.faultAt now (.deleteProjections p))) := by
  rw [goThrough_append, not_and_or, Env.faultAt, failed_map]
  refine or_congr Iff.rfl ?_
  cases hcfg : cfg.backend with
  | sqlite => simp [projectionCalls, Config.engine, hcfg, goThrough_nil]
  | postgresql =>
    have hpoisons : cfg.engine.poisons = true := by simp [Config.engine, hcfg]
    have hcalls : projectionCalls cfg p = [.deleteProjections p] := by
      simp [projectionCalls, hcfg, hc]
    rw [hcalls, goThrough_cons, and_iff_left goThrough_nil, and_iff_right hpoisons]
    rcases hφ : env.fault now (.deleteProjections p) with _ | e | _
    · simp
    · simp
    · exact absurd hφ hcrash
  | rocksdb => exact absurd hcfg hb

/-- One `DELETE` of the cascade: its failure poisons the transaction or is nothing. -/
theorem traces_deleteProjection (hb : cfg.backend ≠ .rocksdb) (f b : Nat) (p : Text) :
    Traces env pt (deleteProjection env cfg f b p) (projectionCalls cfg p) := by
  unfold deleteProjection
  by_cases hc : cascades cfg p = true
  · rw [if_pos hc]
    intro w t done h
    have hwrite : Meets (catching (stmt cfg.engine (env.faultAt w.now (.deleteProjections p))
        fun u => ((), Tables.deleteProjRows p f b u)) fun _ => (pure () : Prog _ Err Unit)) w.conn _ :=
      h.meets_ignored
    have hgo : ∀ c, InTxn t (¬GoThrough env w.now done ∨ (cfg.engine.poisons = true ∧
          Failed (env.faultAt w.now (.deleteProjections p)))) (fun u' => ∃ u : Tables,
            u.projTables = pt ∧
            ((env.faultAt w.now (.deleteProjections p) = .none ∧ u' = u.deleteProjRows p f b) ∨
              (Failed (env.faultAt w.now (.deleteProjections p)) ∧ u' = u))) c →
        StillIn w t (¬GoThrough env w.now (done ++ projectionCalls cfg p)) (·.projTables = pt)
          { w with conn := c } := by
      intro c hin
      refine ⟨?_, rfl⟩
      by_cases hcrash : env.fault w.now (.deleteProjections p) = .crash
      · -- then the process is dead, unless the transaction was poisoned before
        have hφ : env.faultAt w.now (.deleteProjections p) = .crash := by
          rw [Env.faultAt, hcrash]
          rfl
        obtain ⟨x, ⟨hs | hs, rfl⟩ | ⟨-, ⟨u, -, hu | hu⟩, -⟩⟩ := hin
        · refine ⟨x, .inl ⟨fun hgo => hs (goThrough_append.1 hgo).1, rfl⟩⟩
        · rw [hφ] at hs
          exact absurd hs.2 not_failed_crash
        · rw [hφ] at hu
          cases hu.1
        · rw [hφ] at hu
          exact absurd hu.1 not_failed_crash
      · refine hin.mono (not_goThrough_projection hb hc hcrash).symm ?_
        rintro u' ⟨u, hu, ⟨-, rfl⟩ | ⟨-, rfl⟩⟩
        · exact hu
        · exact hu
    simp only [execWrite, exec, ignoring, meets_catching, meets_bind, meets_read, meets_onConn,
      meets_pure] at hwrite ⊢
    exact hwrite.mono (fun _ c hin => hgo c hin) (fun _ c hin => hgo c hin) fun c hc => ⟨hc, rfl⟩
  · rw [if_neg hc]
    exact (traces_pure ()).congr (by simp [projectionCalls, hc])

/-- On SQLite, nothing about the cascade counts. -/
theorem traces_cascade_sqlite (hb : cfg.backend = .sqlite) (f : Nat) :
    Traces env pt (cascadeProjections env cfg f) [] := by
  have hlist : Traces env pt (listProjections env cfg) [] := by
    intro w t done h
    have hpoisons : cfg.engine.poisons = false := by simp [Config.engine, hb]
    rw [List.append_nil, listProjections, hb]
    simp only [meets_catching, meets_execScan, execRead, meets_exec, meets_pure]
    refine h.meets_stmt.mono ?_ ?_ ?_
    · rintro rows c ⟨-, -, hin⟩
      refine ⟨hin.mono Iff.rfl ?_, rfl⟩
      rintro u' ⟨u, hu, hg⟩
      obtain rfl : u = u' := congrArg Prod.snd hg
      exact hu
    · rintro e c ⟨-, hin⟩
      exact ⟨hin.mono (by simp [hpoisons]) fun _ hu => hu, rfl⟩
    · rintro c ⟨-, rfl⟩
      exact ⟨rfl, rfl⟩
  have hnone : projectionCalls cfg = fun _ => [] := by
    funext p
    simp [projectionCalls, hb]
  have hne : cfg.backend ≠ .rocksdb := by simp [hb]
  have heach : ∀ names, Traces env pt (Prog.each names (deleteProjection env cfg f u64Max)) [] := by
    intro names
    refine (traces_each (traces_deleteProjection hne f u64Max) names).congr ?_
    rw [hnone]
    simp
  exact traces_bind hlist heach

/-- On PostgreSQL, everything does. -/
theorem traces_cascade_postgres (hb : cfg.backend = .postgresql) (f : Nat) :
    Traces env pt (cascadeProjections env cfg f)
      (.listProjections :: (pt.filter (cascades cfg)).map .deleteProjections) := by
  intro w t done h
  have hne : cfg.backend ≠ .rocksdb := by simp [hb]
  have hpg : cfg.backend ≠ .sqlite := by simp [hb]
  rw [cascadeProjections, listProjections, hb]
  simp only [meets_bind, meets_execScan, execRead, meets_exec]
  refine h.meets_stmt.mono ?_ ?_ ?_
  · rintro rows c ⟨hφ, hS, x, hx⟩
    have hnone : env.fault w.now .listProjections = .none := by simpa [Env.faultAt] using hφ
    obtain ⟨hs, -⟩ | ⟨-, ⟨u, hu, hg⟩, rfl⟩ := hx
    · exact absurd hs hS
    obtain ⟨rfl, rfl⟩ := Prod.mk.inj hg
    have hrows : cutRows env cfg w.now .listProjections u.projTables = pt := by
      simp [cutRows, hb, hu]
    have hthrough : GoThrough env w.now (done ++ [.listProjections]) := by
      rw [goThrough_append, goThrough_cons]
      exact ⟨not_not.1 hS, hnone, goThrough_nil⟩
    change Meets (Prog.each (cutRows env cfg w.now .listProjections u.projTables) _) _ _
    rw [hrows, ← flatMap_projectionCalls hpg, List.append_cons]
    exact traces_each (traces_deleteProjection hne f u64Max) pt
      { w with conn := opened t u } t (done ++ [.listProjections])
      ⟨u, .inr ⟨not_not.2 hthrough, hu, rfl⟩⟩
  · rintro e c ⟨hS | hφ, hin⟩
    · exact ⟨fun hgo => hS (goThrough_append.1 hgo).1, ⟨_, _, hin⟩, rfl⟩
    · have hfail : Failed (env.fault w.now .listProjections) := by simpa [Env.faultAt] using hφ
      refine ⟨fun hgo => ?_, ⟨_, _, hin⟩, rfl⟩
      rw [(goThrough_cons.1 (goThrough_append.1 hgo).2).1] at hfail
      exact not_failed_none hfail
  · rintro c ⟨-, rfl⟩
    exact ⟨rfl, rfl⟩

/-- The cascade. -/
theorem traces_cascadeProjections (env : Env) (pt : List Text) (hb : cfg.backend ≠ .rocksdb) (f : Nat) :
    Traces env pt (cascadeProjections env cfg f) (cascadeCalls cfg pt) := by
  cases hcfg : cfg.backend with
  | sqlite => exact (traces_cascade_sqlite hcfg f).congr (by simp [cascadeCalls, hcfg])
  | postgresql => exact (traces_cascade_postgres hcfg f).congr (by simp [cascadeCalls, hcfg])
  | rocksdb => exact absurd hcfg hb

/-- The trim of the cache. -/
theorem traces_trim (hb : cfg.backend ≠ .rocksdb) (chain : Text) (f : Nat) :
    Traces env pt
      (Prog.when (cfg.logCache = true ∧ chain ≠ []) (trimLogCacheUnlocked env cfg chain f))
      (trimCalls cfg chain f) := by
  unfold trimCalls
  by_cases hc : cfg.logCache = true ∧ chain ≠ []
  · have hon : cfg.logCacheEnabled = true := by simp [Config.logCacheEnabled, hc.1, hb]
    rw [when_of hc, if_pos hc, trimLogCacheUnlocked, if_pos hon]
    change Traces env pt _ ([.trimChainLogs] ++ ([.trimChainLogRanges] ++ _))
    refine traces_bind (traces_execWrite fun _ => rfl) fun _ =>
      traces_bind (traces_execWrite fun _ => rfl) fun _ => ?_
    by_cases hf : f = 0
    · rw [if_pos hf, if_pos hf]
      exact traces_pure ()
    · rw [if_neg hf, if_neg hf]
      exact traces_execWrite fun _ => rfl
  · rw [when_of_not hc, if_neg hc]
    exact traces_pure ()

theorem projTables_rewind (key : Text) (f : Nat) (u : Tables) :
    (u.rewindSyncState key f).projTables = u.projTables := by
  unfold Tables.rewindSyncState
  split <;> rfl

/-- The cursor and the cascade: the order is not the same on the two backends. -/
theorem traces_rewindAndCascade (env : Env) (pt : List Text) (hb : cfg.backend ≠ .rocksdb) (key : Text) (f : Nat) :
    ∃ calls, Traces env pt (rewindAndCascade env cfg key f) calls ∧
      ∀ now, GoThrough env now calls ↔ GoThrough env now (.rewindSyncState :: cascadeCalls cfg pt) := by
  have hrewind : Traces env pt
      (execWrite env cfg .rewindSyncState (Tables.rewindSyncState key f)) [.rewindSyncState] :=
    traces_execWrite (projTables_rewind key f)
  have hcascade := traces_cascadeProjections env pt hb f
  unfold rewindAndCascade
  split
  · exact ⟨_, traces_bind hrewind fun _ => hcascade, fun now => Iff.rfl⟩
  · refine ⟨_, traces_bind hcascade fun _ => hrewind, fun now => ?_⟩
    rw [goThrough_append, goThrough_cons, goThrough_cons, and_iff_left goThrough_nil, and_comm]

/-- The statements of a rollback, without those of the transaction. -/
theorem traces_rollbackStatements (env : Env) (pt : List Text) (hb : cfg.backend ≠ .rocksdb) (key name : Text)
    (events : List Text) (f : Nat) (chain : Text) :
    ∃ calls, Traces env pt (rollbackStatements env cfg key name events f chain) calls ∧
      ∀ now, env.fault now .beginWrite = .none → env.fault now .commitWrite = .none →
        (GoThrough env now calls ↔ GoThrough env now (rollbackCalls cfg events f chain pt)) := by
  obtain ⟨middle, hmiddle, hiff⟩ := traces_rewindAndCascade env pt hb key f
  have hraw : deleteRawLogsFrom env cfg key f u64Max =
      execWrite env cfg .deleteRawLogs (Tables.deleteRawLogs key f u64Max) := by
    unfold deleteRawLogsFrom
    cases hb' : cfg.backend
    · rfl
    · rfl
    · exact absurd hb' hb
  have hflat : events.flatMap (fun e => [DbCall.deleteEventLogs e]) =
      events.map .deleteEventLogs := List.map_eq_flatMap.symm
  refine ⟨events.map .deleteEventLogs ++ ([.deleteSnapshots] ++ ([.deleteBlockHashes] ++
    (middle ++ (trimCalls cfg chain f ++ ([.deleteBlocks] ++ [.deleteRawLogs]))))), ?_, ?_⟩
  · have hevents : Traces env pt (Prog.each events fun e => execWrite env cfg (.deleteEventLogs e)
        (Tables.deleteEvents (eventTable name e) f u64Max)) (events.map .deleteEventLogs) := by
      have hone : ∀ e, Traces env pt (execWrite env cfg (.deleteEventLogs e)
          (Tables.deleteEvents (eventTable name e) f u64Max)) [.deleteEventLogs e] :=
        fun e => traces_execWrite fun _ => rfl
      rw [← hflat]
      exact traces_each hone events
    unfold rollbackStatements
    rw [hraw]
    refine traces_bind hevents fun _ => ?_
    refine traces_bind (traces_execWrite fun _ => rfl) fun _ => ?_
    refine traces_bind (traces_execWrite fun _ => rfl) fun _ => ?_
    refine traces_bind hmiddle fun _ => traces_bind (traces_trim hb chain f) fun _ => ?_
    exact traces_bind (traces_execWrite fun _ => rfl) fun _ => traces_execWrite fun _ => rfl
  · intro now hbegin hcommit
    simp only [rollbackCalls, goThrough_append, goThrough_cons, hiff, hbegin, hcommit, goThrough_nil]
    tauto

/-- A connection inside a transaction is not both healthy and poisoned. -/
theorem InTxn.not_of {t : Tables} {S : Prop} {P Q : Tables → Prop} {c : Conn Tables}
    (h : InTxn t S P c) (h' : InTxn t False Q c) : ¬S := by
  intro hs
  obtain ⟨x, ⟨-, rfl⟩ | ⟨hn, -⟩⟩ := h
  · obtain ⟨y, ⟨hf, -⟩ | ⟨-, -, hc⟩⟩ := h'
    · exact hf
    · simp [spoilt, opened] at hc
  · exact hn hs

theorem not_goThrough_of_failed {c : DbCall} (hc : c ∈ calls) (h : Failed (env.faultAt now c)) :
    ¬GoThrough env now calls := by
  intro hgo
  rw [Env.faultAt, failed_map, hgo c hc] at h
  exact not_failed_none h

/-- **When a rollback goes through**: none of the statements that count fails. -/
theorem meets_rollbackFromBlock_iff (env : Env) (hb : cfg.backend ≠ .rocksdb) (hw : w.Quiet) (key name : Text)
    (events : List Text) (f : Nat) (chain : Text) :
    Meets (rollbackFromBlock env cfg key name events f chain) w
      ⟨fun _ _ => GoThrough env w.now (rollbackCalls cfg events f chain w.db.projTables),
        fun _ _ => ¬GoThrough env w.now (rollbackCalls cfg events f chain w.db.projTables),
        fun _ => True⟩ := by
  have hbody : rollbackFromBlock env cfg key name events f chain =
      guarded (inTransaction env cfg (rollbackStatements env cfg key name events f chain)) := by
    unfold rollbackFromBlock
    cases hb' : cfg.backend
    · rfl
    · rfl
    · exact absurd hb' hb
  obtain ⟨calls, htrace, hiff⟩ := traces_rollbackStatements env w.db.projTables hb key name
    events f chain
  have hmem : ∀ c, c = DbCall.beginWrite ∨ c = DbCall.commitWrite →
      c ∈ rollbackCalls cfg events f chain w.db.projTables := by
    rintro _ (rfl | rfl) <;> simp [rollbackCalls]
  rw [hbody, meets_guarded, inTransaction, meets_after, meets_bind]
  refine (meets_beginWrite (w := { w with writeDepth := w.writeDepth + 1 }) (t := w.db)
    (eq_quiet hw)).mono ?_ ?_ fun _ _ => trivial
  · rintro _ w₁ ⟨hbegin, h₁⟩
    have hnow : w₁.now = w.now := by rw [h₁]
    have hopen : w₁.conn = opened w.db w.db := by rw [h₁]
    have hbegin' : env.fault w.now .beginWrite = .none := by simpa [Env.faultAt] using hbegin
    have hrun := (htrace w₁ w.db [] (by
      rw [hopen]
      exact ⟨w.db, .inr ⟨not_not.2 goThrough_nil, rfl, rfl⟩⟩)).and
        (meets_rollbackStatements env hb (u := w.db) (w := w₁) (t := w.db) (by
          rw [hopen]
          exact inTxn_opened rfl) key name events f chain)
    rw [tracePost, List.nil_append, hnow] at hrun
    simp only [meets_onErr, meets_bind]
    refine hrun.mono ?_ ?_ fun _ _ => trivial
    · rintro _ w₂ ⟨htr, hst⟩
      have hgo : GoThrough env w.now calls := not_not.1 (InTxn.not_of htr.1 hst.1)
      have hnow₂ : w₂.now = w.now := by rw [hst.2, hnow]
      simp only [commitWrite, meets_bind, meets_read, meets_onConn, meets_modify, hnow₂]
      refine hst.1.meets_commit.mono ?_ ?_ fun _ _ => trivial
      · rintro _ c ⟨hcommit, -⟩
        exact (hiff w.now hbegin' (by simpa [Env.faultAt] using hcommit)).1 hgo
      · rintro e c ⟨hcommit, S', hS⟩
        have hnot := not_goThrough_of_failed (hmem _ (.inr rfl)) hcommit
        exact meets_rollbackWrite hS hnot trivial
    · rintro e w₂ ⟨⟨hnot, ⟨S', P', hin⟩, -⟩, -⟩
      refine meets_rollbackWrite hin (fun hgo => hnot ?_) trivial
      exact (hiff w.now hbegin' (hgo _ (hmem _ (.inr rfl)))).2 hgo
  · rintro e w₁ ⟨hfail, -⟩
    exact not_goThrough_of_failed (hmem _ (.inl rfl)) hfail

end Trace

end Zponder

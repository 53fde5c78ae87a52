import Zponder.Erasure
import Zponder.ForkScan

/-!
# What a rollback leaves

After a rollback that went through, every row of the contract lies below the block that
was rolled back to, whatever happens next in `rollbackTo`: the clones of a template and
the children of a factory are dealt with by deleting more (`Zponder.Fewer`). Since that
block is not above the first one that is not canonical, what remains is canonical.

Two kinds of rows are not the business of every rollback. Dead letters are not deleted
on RocksDB, where nobody reads them, and the log cache is trimmed only where it is
switched on and the chain has a name (`Zponder.Remaining`).
-/

namespace Zponder

open Imperative Prog Conn

/-! ### The rows of a contract -/

/-- Every row of the contract, and of its chain, is of a block that satisfies `P`; of the
dead letters this is said if `letters`, and of the cached logs if `cache`. -/
structure RowsOf (cfg : Config) (letters cache : Prop) (P : Nat → Prop) (t : Tables) : Prop where
  events : ∀ r ∈ t.events, r.key.table ∈ cfg.contract.events.map (eventTable cfg.contract.name) →
    P r.blockNumber
  hashes : ∀ b h, t.blockHashes cfg.stateKey b = some h → P b
  snapshots : ∀ r ∈ t.snapshots, r.contractAddress = cfg.stateKey → P r.blockNumber
  blocks : ∀ b d, t.blocks cfg.chain b = some d → P b
  deadLetters : letters → ∀ r ∈ t.rawLogs, r.contractAddress = cfg.stateKey → P r.blockNumber
  cached : cache → ∀ r ∈ t.chainLogs, r.1 = cfg.chain → P r.2.blockNumber

/-- The rows a rollback looks after. -/
def Remaining (cfg : Config) : (Nat → Prop) → Tables → Prop :=
  RowsOf cfg (cfg.backend ≠ .rocksdb) (cfg.logCacheEnabled = true ∧ cfg.chain ≠ [])

/-- There are fewer rows, and no event below `f` is gone. -/
structure Fewer (f : Nat) (t t' : Tables) : Prop where
  events : ∀ r ∈ t'.events, r ∈ t.events
  kept : ∀ r ∈ t.events, r.blockNumber < f → r ∈ t'.events
  hashes : ∀ k b h, t'.blockHashes k b = some h → t.blockHashes k b = some h
  snapshots : ∀ r ∈ t'.snapshots, r ∈ t.snapshots
  blocks : ∀ c b d, t'.blocks c b = some d → t.blocks c b = some d
  deadLetters : ∀ r ∈ t'.rawLogs, r ∈ t.rawLogs
  cached : ∀ r ∈ t'.chainLogs, r ∈ t.chainLogs

section Fewer

variable {f g : Nat} {t u v : Tables} {cfg : Config} {P Q : Nat → Prop}
  {L C : Prop}

theorem Fewer.refl (f : Nat) (t : Tables) : Fewer f t t :=
  ⟨fun _ => id, fun _ h _ => h, fun _ _ _ => id, fun _ => id, fun _ _ _ => id, fun _ => id,
    fun _ => id⟩

theorem Fewer.trans (h : Fewer f t u) (h' : Fewer f u v) : Fewer f t v where
  events r hr := h.events r (h'.events r hr)
  kept r hr hlt := h'.kept r (h.kept r hr hlt) hlt
  hashes k b x hx := h.hashes k b x (h'.hashes k b x hx)
  snapshots r hr := h.snapshots r (h'.snapshots r hr)
  blocks c b d hd := h.blocks c b d (h'.blocks c b d hd)
  deadLetters r hr := h.deadLetters r (h'.deadLetters r hr)
  cached r hr := h.cached r (h'.cached r hr)

theorem RowsOf.fewer (h : RowsOf cfg L C P t) (h' : Fewer f t u) : RowsOf cfg L C P u where
  events r hr := h.events r (h'.events r hr)
  hashes b x hx := h.hashes b x (h'.hashes _ b x hx)
  snapshots r hr := h.snapshots r (h'.snapshots r hr)
  blocks b d hd := h.blocks b d (h'.blocks _ b d hd)
  deadLetters hl r hr := h.deadLetters hl r (h'.deadLetters r hr)
  cached hc r hr := h.cached hc r (h'.cached r hr)

theorem RowsOf.mono (h : RowsOf cfg L C P t) (hPQ : ∀ b, P b → Q b) : RowsOf cfg L C Q t where
  events r hr ht := hPQ _ (h.events r hr ht)
  hashes b x hx := hPQ _ (h.hashes b x hx)
  snapshots r hr hk := hPQ _ (h.snapshots r hr hk)
  blocks b d hd := hPQ _ (h.blocks b d hd)
  deadLetters hl r hr hk := hPQ _ (h.deadLetters hl r hr hk)
  cached hc r hr hk := hPQ _ (h.cached hc r hr hk)

/-- What goes on where rows are only deleted, and events only from `f` on. -/
def fewerScope (f : Nat) (mem : Frame Mem) (children : Frame (List Child)) : Scope where
  tables := .through (Fewer f) (Fewer.refl f) Fewer.trans
  mem := mem
  handed := .any
  requests := .any
  children := children
  rollbacks := .any

/-- A table that changes nothing of the rows. -/
theorem fewer_of_eq (he : u.events = t.events) (hh : u.blockHashes = t.blockHashes)
    (hs : u.snapshots = t.snapshots) (hb : u.blocks = t.blocks) (hr : u.rawLogs = t.rawLogs)
    (hc : u.chainLogs = t.chainLogs) : Fewer f t u where
  events _ h := he ▸ h
  kept _ h _ := he.symm ▸ h
  hashes _ _ _ h := hh ▸ h
  snapshots _ h := hs ▸ h
  blocks _ _ _ h := hb ▸ h
  deadLetters _ h := hr ▸ h
  cached _ h := hc ▸ h

theorem fewer_deleteEvents (hfg : f ≤ g) (table : Text) :
    Fewer f t (t.deleteEvents table g u64Max) :=
  { Fewer.refl f t with
    events := fun _ h => (List.mem_filter.1 h).1
    kept := fun r h hlt => List.mem_filter.2 ⟨h, by
      have : ¬g ≤ r.blockNumber := by omega
      simp [inRange, this]⟩ }

theorem fewer_deleteBlockHashes (key : Text) : Fewer f t (t.deleteBlockHashes key g) :=
  { Fewer.refl f t with
    hashes := fun k b x h => by
      by_cases hk : k = key
      · subst hk
        simp only [Tables.deleteBlockHashes, Function.update_self] at h
        split at h
        · cases h
        · exact h
      · simpa [Tables.deleteBlockHashes, Function.update_of_ne hk] using h }

theorem fewer_deleteBlocks (chain : Text) : Fewer f t (t.deleteBlocks chain g) :=
  { Fewer.refl f t with
    blocks := fun c b d h => by
      by_cases hc : c = chain
      · subst hc
        simp only [Tables.deleteBlocks, Function.update_self] at h
        split at h
        · cases h
        · exact h
      · simpa [Tables.deleteBlocks, Function.update_of_ne hc] using h }

theorem fewerScope_rollsBack {m : Frame Mem} {l : Frame (List Child)} (hfg : f ≤ g)
    (hm : ∀ m₁ m₂, m.rel m₁ m₂) : (fewerScope f m l).RollsBack cfg g where
  events _ _ := fewer_deleteEvents hfg _
  snapshots t := { Fewer.refl f t with snapshots := fun _ h => (List.mem_filter.1 h).1 }
  blockHashes _ := fewer_deleteBlockHashes _
  syncState _ := fewer_of_eq rfl rfl rfl rfl rfl rfl
  projections _ _ := fewer_of_eq rfl rfl rfl rfl rfl rfl
  cache t := { Fewer.refl f t with cached := fun _ h => (List.mem_filter.1 h).1 }
  ranges _ _ := fewer_of_eq rfl rfl rfl rfl rfl rfl
  blocks _ := fewer_deleteBlocks _
  rawLogs t := { Fewer.refl f t with deadLetters := fun _ h => (List.mem_filter.1 h).1 }
  clones _ _ := fewer_of_eq rfl rfl rfl rfl rfl rfl
  memory _ _ _ _ := hm _ _

theorem fewerScope_reconciles {m : Frame Mem} {l : Frame (List Child)} (k : Child) :
    (fewerScope f m l).Reconciles k f where
  stops _ _ := fewer_of_eq rfl rfl rfl rfl rfl rfl
  drops _ := fewer_of_eq rfl rfl rfl rfl rfl rfl
  rewinds _ := fewerScope_rollsBack (m := .any) (l := .any) le_rfl fun _ _ => trivial
  discards h := fewerScope_rollsBack (m := .any) (l := .any) h fun _ _ => trivial

/-! ### The deletion itself -/

theorem inRange_u64Max (f b : Nat) : inRange f u64Max b = decide (f ≤ b) := by
  simp [inRange, u64Max]

theorem lt_of_mem_clearEvents {name : Text} {events : List Text} {r : EventRow}
    (h : r ∈ (clearEvents name events f u64Max t).events)
    (ht : r.key.table ∈ events.map (eventTable name)) : r.blockNumber < f := by
  by_contra hge
  refine (mem_events_clearEvents.1 h).2 ⟨ht, ?_⟩
  rw [inRange_u64Max]
  simpa using hge

theorem lt_of_deleteBlockHashes {key : Text} {b : Nat} {x : Text}
    (h : (t.deleteBlockHashes key f).blockHashes key b = some x) : b < f := by
  by_contra hge
  simp [Tables.deleteBlockHashes, Nat.not_lt.1 hge] at h

theorem lt_of_deleteBlocks {chain : Text} {b : Nat} {d : BlockData}
    (h : (t.deleteBlocks chain f).blocks chain b = some d) : b < f := by
  by_contra hge
  simp [Tables.deleteBlocks, Nat.not_lt.1 hge] at h

theorem lt_of_mem_deleteSnapshots {key : Text} {r : SnapshotRow}
    (h : r ∈ (t.deleteSnapshots key f).snapshots) (hk : r.contractAddress = key) :
    r.blockNumber < f := by
  have := (List.mem_filter.1 h).2
  simpa [hk] using this

/-- Where there are transactions, the deletion looks after all its rows. -/
theorem remaining_erased (env : Env) (now : Nat) :
    Remaining cfg (· < f) (erased env cfg now cfg.stateKey cfg.contract.name cfg.contract.events f
      cfg.chain t) := by
  obtain ⟨p, s, r, h⟩ := exists_erased env cfg now cfg.stateKey cfg.contract.name
    cfg.contract.events f cfg.chain t
  rw [h]
  refine ⟨fun r hr ht => lt_of_mem_clearEvents hr ht, fun b x hx => lt_of_deleteBlockHashes hx,
    fun r hr hk => lt_of_mem_deleteSnapshots hr hk, fun b d hd => lt_of_deleteBlocks hd,
    fun _ r hr hk => ?_, fun hc r hr hk => ?_⟩
  · have := (List.mem_filter.1 hr).2
    simpa [hk, inRange_u64Max] using this
  · have hon : (cfg.logCache = true ∧ cfg.chain ≠ []) ∧ cfg.logCacheEnabled = true := by
      have := hc.1
      simp only [Config.logCacheEnabled, Bool.and_eq_true] at this
      exact ⟨⟨this.1, hc.2⟩, hc.1⟩
    simp only [if_pos hon] at hr
    have := (List.mem_filter.1 hr).2
    simpa [hk] using this

/-- What the batch of `rollbackFromBlockRocks` leaves. -/
theorem meets_rollbackFromBlockRocks (hb : cfg.backend = .rocksdb) {env : Env} {w : World}
    (hw : w.Quiet) :
    Meets (rollbackFromBlockRocks env cfg cfg.stateKey cfg.contract.name cfg.contract.events f
        cfg.chain) w
      ⟨fun _ w' => Remaining cfg (· < f) w'.db, fun _ _ => True, fun _ => True⟩ := by
  have hconn : w.conn = quiet w.db := eq_quiet hw
  have hoff : cfg.logCacheEnabled = false := by simp [Config.logCacheEnabled, hb]
  simp only [rollbackFromBlockRocks, execWrite, meets_bind, meets_exec, hconn]
  refine meets_stmt_quiet.mono ?_ (fun _ _ _ => trivial) fun _ _ => trivial
  rintro _ c ⟨-, -, rfl⟩
  refine meets_stmt_quiet.mono ?_ (fun _ _ _ => trivial) fun _ _ => trivial
  rintro _ c ⟨-, -, rfl⟩
  refine ⟨fun r hr ht => lt_of_mem_clearEvents (t := w.db) hr ht,
    fun b x hx => lt_of_deleteBlockHashes (t := Tables.deleteSnapshots cfg.stateKey f _) hx,
    fun r hr hk => lt_of_mem_deleteSnapshots (t := clearEvents _ _ f u64Max w.db) hr hk,
    fun b d hd => lt_of_deleteBlocks (t := Tables.deleteBlockHashes cfg.stateKey f _) hd,
    fun h => absurd hb h, fun h => ?_⟩
  rw [hoff] at h
  cases h.1

/-- **The deletion**: what it looks after lies below the block rolled back to. -/
theorem meets_rollbackFromBlock_remaining (env : Env) (cfg : Config) (f : Nat) {w : World}
    (hw : w.Quiet) :
    Meets (rollbackFromBlock env cfg cfg.stateKey cfg.contract.name cfg.contract.events f
        cfg.chain) w
      ⟨fun _ w' => Remaining cfg (· < f) w'.db, fun _ _ => True, fun _ => True⟩ := by
  by_cases hb : cfg.backend = .rocksdb
  · rw [rollbackFromBlock, hb, meets_guarded]
    exact (meets_rollbackFromBlockRocks hb (w := { w with writeDepth := w.writeDepth + 1 }) hw).mono
      (fun _ _ h => h) (fun _ _ h => h) fun _ h => h
  · refine (meets_rollbackFromBlock env hb hw _ _ _ _ _).mono ?_ (fun _ _ _ => trivial)
      fun _ _ => trivial
    rintro _ w' rfl
    exact remaining_erased env w.now

/-! ### The whole of a rollback -/

/-- What `rollbackTo` does after the deletion. -/
def afterDeletion (env : Env) (cfg : Config) (f : Nat) : M Unit := do
  setMem fun m => { m with blockTsCache := [] }
  Prog.when (cfg.templateMode = true) (forgetClones env cfg f)
  onReorgCallback env cfg f

theorem rollbackTo_eq (env : Env) (cfg : Config) (f : Nat) : rollbackTo env cfg f = (do
    Prog.modify fun w => { w with rollbacks := w.rollbacks ++ [f] }
    ignoring (rollbackFromBlock env cfg cfg.stateKey cfg.contract.name cfg.contract.events f
      cfg.chain)
    afterDeletion env cfg f) := by
  simp only [rollbackTo, rollbackOwn, rollbackData, afterDeletion, bind_assoc]

/-- It deletes more, or nothing. -/
theorem within_afterDeletion {env : Env} :
    Within (fewerScope f .any .any).frame (afterDeletion env cfg f) := by
  have hback : (fewerScope f .any .any).RollsBack cfg f :=
    fewerScope_rollsBack le_rfl fun _ _ => trivial
  refine within_bind (within_setMem fun _ => trivial) fun _ => ?_
  refine within_bind (within_when fun _ =>
    within_forgetClones hback.clones fun _ _ _ => trivial) fun _ => ?_
  exact within_onReorgCallback fewerScope_reconciles fun _ _ => trivial

/-- The world in which `rollbackTo` sends its deletion. -/
def World.rollingBack (w : World) (f : Nat) : World := { w with rollbacks := w.rollbacks ++ [f] }

/-- The deletion of a rollback goes through. -/
def Deletes (env : Env) (cfg : Config) (f : Nat) (w : World) : Prop :=
  ∃ w', rollbackFromBlock env cfg cfg.stateKey cfg.contract.name cfg.contract.events f cfg.chain
    (w.rollingBack f) = (.ok (), w')

/-- **A rollback.** -/
theorem meets_rollbackTo_remaining {env : Env} {w : World} (hw : w.Quiet) :
    Meets (rollbackTo env cfg f) w
      ⟨fun _ w' => (Deletes env cfg f w → Remaining cfg (· < f) w'.db) ∧ Fewer f w.db w'.db,
        fun _ _ => True, fun _ => True⟩ := by
  have hdel : Within (fewerScope f .any .any).frame (rollbackFromBlock env cfg cfg.stateKey
      cfg.contract.name cfg.contract.events f cfg.chain) :=
    within_rollbackFromBlock (fewerScope_rollsBack le_rfl fun _ _ => trivial)
  have hrest : ∀ (w₁ : World) (D : Prop), w₁.Quiet → Fewer f w.db w₁.db →
      (D → Remaining cfg (· < f) w₁.db) → Meets (afterDeletion env cfg f) w₁
        ⟨fun _ w' => (D → Remaining cfg (· < f) w'.db) ∧ Fewer f w.db w'.db, fun _ _ => True,
          fun _ => True⟩ := by
    intro w₁ D hw₁ hfew hrem
    refine (within_afterDeletion w₁).mono ?_ (fun _ _ _ => trivial) fun _ _ => trivial
    rintro _ w₂ ⟨hrel, -⟩
    have hmore : Fewer f w₁.db w₂.db := Linked.quiet hrel.tables hw₁
    exact ⟨fun hd => (hrem hd).fewer hmore, hfew.trans hmore⟩
  have hrun := ((meets_self _ _).and (meets_rollbackFromBlock_remaining env cfg f
    (w := w.rollingBack f) hw)).and (hdel (w.rollingBack f))
  rw [rollbackTo_eq, meets_modify_bind, meets_bind, meets_ignoring]
  refine hrun.mono ?_ ?_ fun _ _ => trivial
  · rintro _ w₁ ⟨⟨-, hrem⟩, hrel, hquiet⟩
    exact hrest w₁ _ (hquiet hw) (Linked.quiet hrel.tables hw) fun _ => hrem
  · rintro e w₁ ⟨⟨hself, -⟩, hrel, hquiet⟩
    refine hrest w₁ _ (hquiet hw) (Linked.quiet hrel.tables hw) ?_
    rintro ⟨w', hw'⟩
    rw [hw'] at hself
    cases hself

end Fewer

/-! ### A check that finds a reorganisation -/

section Check

variable {env : Env} {cfg : Config} {w w' : World} {n F f : Nat} {canonical : Nat → Prop}

theorem scanFloor_le_of_depth
    (h : n - F < effectiveReorgDepth cfg.contract.maxReorgDepth) : scanFloor cfg n ≤ F := by
  simp only [scanFloor]
  split <;> omega

/-- **A check that finds a reorganisation leaves only what is canonical.** `F` is the first
block whose indexed version is not, `f` the one that was rolled back to. -/
theorem remaining_of_detect (hw : w.Quiet) (hbelow : ∀ b < F, canonical b) (hF : ¬canonical F)
    (hagree : ∀ t b, Agrees env cfg t w.db b → ∀ b' ≤ b, canonical b')
    (hdepth : n - F < effectiveReorgDepth cfg.contract.maxReorgDepth)
    (hdiff : Differs env cfg w.now w.db n)
    (h : detectAndHandleReorg env cfg n w = (.ok f, w'))
    (hdel : Deletes env cfg f (w.at_ (forkOf env cfg w n).2)) :
    f ≤ F ∧ Remaining cfg canonical w'.db ∧
      ∀ r ∈ w.db.events, r.blockNumber < f → r ∈ w'.db.events := by
  have hsees : SeesReorg env cfg w n := ⟨by omega, hdiff⟩
  rcases (meets_detect_fork hw n).ok_of_eq h with ⟨hno, -⟩ | ⟨-, hf, hrun⟩
  · exact absurd hsees hno
  have hlt : ∀ t b, Agrees env cfg t w.db b → b < F := fun t b hb => by
    by_contra hge
    exact hF (hagree t b hb F (Nat.not_lt.1 hge))
  have hle : f ≤ F := hf ▸ fst_forkAt_le (scanFloor_le_of_depth hdepth) hlt
  obtain ⟨hrem, hfew⟩ := (meets_rollbackTo_remaining (w := w.at_ (forkOf env cfg w n).2)
    hw).ok_of_eq hrun
  exact ⟨hle, (hrem hdel).mono fun b hb => hbelow b (lt_of_lt_of_le hb hle), hfew.kept⟩

end Check

/-! ### What is not looked after -/

/-- A node that knows block 5 under a new hash and no other block. -/
def forgetfulNode : Env where
  blockHash _ b := .ok (if b = 5 then some "0xb5".toList else none)

/-- The indexer `Zponder.plainConfig` on another backend. -/
def plainOn (backend : Backend) : Config := { plainConfig with backend := backend }

/-- Block 5 is stored under its old hash, a log of block 4 could not be decoded, and another
one is in the cache, from days when that was switched on. -/
def orphanWorld : World := { freshWorld with
  conn := Conn.quiet { blockHashes := fun _ b => if b = 5 then some "0xa0".toList else none
                       rawLogs := [⟨1, "0xAA".toList, 4, [], 0, [], [], [], [], 0, 0⟩]
                       chainLogs := [("eth".toList, ⟨"0xaa".toList, 4, [], 0, [], []⟩)] } }

theorem not_agrees_forgetful (backend : Backend) (t b : Nat) :
    ¬Agrees forgetfulNode (plainOn backend) t orphanWorld.db b := by
  rintro ⟨h, hmem, heq⟩
  by_cases hb : b = 5
  · subst hb
    cases backend <;> obtain rfl := Option.some.inj (hmem : some _ = some h) <;> cases heq
  · have hnone : seenHashes forgetfulNode (plainOn backend) t orphanWorld.db b = none := by
      simp [seenHashes, forgetfulNode, hb]
    rw [hnone] at hmem
    cases hmem

/-- A check of block 5, with block 3 the first that is not canonical. -/
theorem remaining_of_detect_sqlite : ∃ w',
    detectAndHandleReorg forgetfulNode (plainOn .sqlite) 5 orphanWorld = (.ok 0, w') ∧
      Remaining (plainOn .sqlite) (· < 3) w'.db :=
  ⟨_, rfl, (remaining_of_detect (w := orphanWorld) (n := 5) (F := 3) rfl (fun _ h => h) (by decide)
    (fun t b h => absurd h (not_agrees_forgetful _ t b)) (by decide) (by decide) rfl
    ⟨_, rfl⟩).2.1⟩

/-- The check of block 5, at which no stored hash agrees with the node's, rolls `orphanWorld`
back to block 0 and ends in `w'`. -/
structure RolledBack (backend : Backend) (w' : World) : Prop where
  run : detectAndHandleReorg forgetfulNode (plainOn backend) 5 orphanWorld = (.ok 0, w')
  differs : Differs forgetfulNode (plainOn backend) 0 orphanWorld.db 5
  never_agrees : ∀ t b, ¬Agrees forgetfulNode (plainOn backend) t orphanWorld.db b
  deletes : Deletes forgetfulNode (plainOn backend) 0
    (orphanWorld.at_ (forkOf forgetfulNode (plainOn backend) orphanWorld 5).2)

/-- The same check leaves the dead letter where it is on RocksDB, and the cached log where
the cache is switched off. -/
theorem left_behind :
    (∃ w', RolledBack .sqlite w' ∧ ¬RowsOf (plainOn .sqlite) False True (· < 3) w'.db) ∧
      ∃ w', RolledBack .rocksdb w' ∧ ¬RowsOf (plainOn .rocksdb) True False (· < 3) w'.db := by
  refine ⟨⟨_, ⟨rfl, by decide, not_agrees_forgetful _, ⟨_, rfl⟩⟩, fun h => ?_⟩,
    ⟨_, ⟨rfl, by decide, not_agrees_forgetful _, ⟨_, rfl⟩⟩, fun h => ?_⟩⟩
  · exact absurd (h.cached trivial _ List.mem_cons_self rfl) (by decide)
  · exact absurd (h.deadLetters trivial _ List.mem_cons_self rfl) (by decide)

end Zponder

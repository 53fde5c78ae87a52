import Zponder.Scope
import Zponder.RunLoop

/-!
# What going back may change

The call graph of `rollbackTo`, followed once like that of a scan: a rollback stays
within every scope that tolerates its deletions. The deletions of a child are those of
another indexer, so what a scope has to tolerate is said for each indexer and block
(`Zponder.Scope.RollsBack`); the memory of a child is nobody else's, which is why a
function of a child is free to change it (`Zponder.within_onChild`).
-/

namespace Zponder

open Imperative Prog Conn

/-- A scope that tolerates the deletions of one indexer from a block on. -/
structure Scope.RollsBack (S : Scope) (cfg : Config) (forkBlock : Nat) : Prop where
  events : ∀ (t : Tables) e,
    S.tables.rel t (t.deleteEvents (eventTable cfg.contract.name e) forkBlock u64Max)
  snapshots : ∀ t : Tables, S.tables.rel t (t.deleteSnapshots cfg.stateKey forkBlock)
  blockHashes : ∀ t : Tables, S.tables.rel t (t.deleteBlockHashes cfg.stateKey forkBlock)
  syncState : ∀ t : Tables,
    S.tables.rel t (t.putSyncState cfg.stateKey ⟨forkBlock, "reorg_rollback".toList⟩)
  projections : ∀ (t : Tables) p, S.tables.rel t (t.deleteProjRows p forkBlock u64Max)
  cache : ∀ t : Tables, S.tables.rel t (t.deleteChainLogs cfg.chain forkBlock)
  ranges : ∀ (t : Tables) r, S.tables.rel t { t with chainLogRanges := r }
  blocks : ∀ t : Tables, S.tables.rel t (t.deleteBlocks cfg.chain forkBlock)
  rawLogs : ∀ t : Tables, S.tables.rel t (t.deleteRawLogs cfg.stateKey forkBlock u64Max)
  clones : ∀ (t : Tables) l, S.tables.rel t { t with templateAddresses := l }
  memory : ∀ (m : Mem) c s g,
    S.mem.rel m { m with blockTsCache := c, templateSet := s, liveAddrGen := g }

/-- The scope of a function of a child: what it remembers is its own. -/
def Scope.inner (S : Scope) : Scope := { S with mem := .any, children := .any, rollbacks := .any }

/-- A scope that tolerates what a rollback to a block does to a child. -/
structure Scope.Reconciles (S : Scope) (c : Child) (forkBlock : Nat) : Prop where
  stops : ∀ (t : Tables) s, S.tables.rel t (t.putSyncState c.cfg.stateKey s)
  drops : ∀ t : Tables, S.tables.rel t (t.dropSyncState c.cfg.contract.address)
  rewinds : c.cfg.contract.fromBlock < forkBlock → S.inner.RollsBack c.cfg forkBlock
  discards : forkBlock ≤ c.cfg.contract.fromBlock →
    S.inner.RollsBack c.cfg c.cfg.contract.fromBlock

section Rollback

variable {S : Scope} {env : Env} {cfg : Config} {f : Nat} {w : World}

theorem within_rewind (hS : S.RollsBack cfg f) {call : DbCall} :
    Within S.frame (execWrite env cfg call (Tables.rewindSyncState cfg.stateKey f)) := by
  refine within_execWrite fun t => ?_
  unfold Tables.rewindSyncState
  split
  · exact hS.syncState t
  · exact S.tables.refl t

theorem within_cascadeProjections (hS : S.RollsBack cfg f) :
    Within S.frame (cascadeProjections env cfg f) := by
  have hread : Within S.frame (execScan env cfg .listProjections (·.projTables)) := within_execScan
  have hnames : Within S.frame (listProjections env cfg) := by
    unfold listProjections
    split
    · exact within_catching hread fun _ => within_pure _
    · exact hread
  refine within_bind hnames fun names => within_each fun name _ => ?_
  exact within_ite (fun _ => within_ignoring (within_execWrite fun t => hS.projections t _))
    fun _ => within_pure _

theorem within_trimLogCacheUnlocked (hS : S.RollsBack cfg f) :
    Within S.frame (trimLogCacheUnlocked env cfg cfg.chain f) := by
  refine within_ite (fun _ => ?_) fun _ => within_pure _
  refine within_bind (within_execWrite hS.cache) fun _ => ?_
  refine within_bind (within_execWrite fun t => hS.ranges t _) fun _ => ?_
  exact within_ite (fun _ => within_pure _) fun _ => within_execWrite fun t => hS.ranges t _

theorem within_deleteRawLogsFrom {a b : Nat}
    (hS : ∀ t : Tables, S.tables.rel t (t.deleteRawLogs cfg.stateKey a b)) :
    Within S.frame (deleteRawLogsFrom env cfg cfg.stateKey a b) := by
  unfold deleteRawLogsFrom
  split
  · exact within_pure _
  · exact within_execWrite hS

theorem within_rollbackStatements (hS : S.RollsBack cfg f) :
    Within S.frame (rollbackStatements env cfg cfg.stateKey cfg.contract.name cfg.contract.events f
      cfg.chain) := by
  refine within_bind (within_each fun e _ => within_execWrite fun t => hS.events t e) fun _ => ?_
  refine within_bind (within_execWrite hS.snapshots) fun _ => ?_
  refine within_bind (within_execWrite hS.blockHashes) fun _ => ?_
  have hboth : Within S.frame (rewindAndCascade env cfg cfg.stateKey f) :=
    within_ite
      (fun _ => within_bind (within_rewind hS) fun _ => within_cascadeProjections hS)
      fun _ => within_bind (within_cascadeProjections hS) fun _ => within_rewind hS
  refine within_bind hboth fun _ => ?_
  refine within_bind (within_when fun _ => within_trimLogCacheUnlocked hS) fun _ => ?_
  refine within_bind (within_execWrite hS.blocks) fun _ => ?_
  exact within_deleteRawLogsFrom hS.rawLogs

theorem within_rollbackFromBlockRocks (hS : S.RollsBack cfg f) :
    Within S.frame (rollbackFromBlockRocks env cfg cfg.stateKey cfg.contract.name
      cfg.contract.events f cfg.chain) := by
  refine within_bind (within_execWrite fun t => ?_) fun _ => within_execWrite hS.syncState
  have hevents : ∀ (es : List Text) (u : Tables), S.tables.rel t u → S.tables.rel t (es.foldl
      (fun t e => t.deleteEvents (eventTable cfg.contract.name e) f u64Max) u) := by
    intro es
    induction es with
    | nil => exact fun u hu => hu
    | cons e es ih => exact fun u hu => ih _ (S.tables.trans hu (hS.events u e))
  have hall := hevents cfg.contract.events t (S.tables.refl t)
  exact S.tables.trans (S.tables.trans (S.tables.trans hall (hS.snapshots _)) (hS.blockHashes _))
    (hS.blocks _)

theorem within_rollbackFromBlock (hS : S.RollsBack cfg f) :
    Within S.frame (rollbackFromBlock env cfg cfg.stateKey cfg.contract.name cfg.contract.events f
      cfg.chain) := by
  unfold rollbackFromBlock
  refine within_guarded ?_
  split
  · exact within_rollbackFromBlockRocks hS
  · exact within_inTransaction (within_rollbackStatements hS)

/-- The clones of a template, which a scope may tolerate without tolerating a rollback. -/
theorem within_forgetClones
    (hclones : ∀ (t : Tables) l, S.tables.rel t { t with templateAddresses := l })
    (hmemory : ∀ (m : Mem) s g, S.mem.rel m { m with templateSet := s, liveAddrGen := g }) :
    Within S.frame (forgetClones env cfg f) := by
  have hdelete : Within S.frame
      (deleteTemplateAddressesFromBlock env cfg cfg.contract.name f) := by
    unfold deleteTemplateAddressesFromBlock
    refine within_guarded ?_
    split
    · exact within_throw _
    · exact within_execWrite fun t => hclones t _
  have hadd : ∀ i a b, Within S.frame (addTemplateAddress env cfg i cfg.contract.name a b) := by
    intro i a b
    unfold addTemplateAddress
    refine within_guarded ?_
    split
    · exact within_throw _
    · refine within_execWrite fun t => ?_
      unfold Tables.addTemplateAddress
      split
      · exact S.tables.refl t
      · exact hclones t _
  refine within_bind (within_ignoring hdelete) fun _ => ?_
  refine within_bind (within_setMem fun m => hmemory m _ _) fun _ => ?_
  exact within_bind within_getMem fun live => within_each fun a _ =>
    within_ignoring (hadd _ _ _)

/-- **The data of one indexer, rolled back.** -/
theorem within_rollbackData (hS : S.RollsBack cfg f) :
    Within S.frame (rollbackData env cfg f) := by
  refine within_bind (within_ignoring (within_rollbackFromBlock hS)) fun _ => ?_
  refine within_bind (within_setMem fun m => hS.memory m [] m.templateSet m.liveAddrGen) fun _ => ?_
  exact within_when fun _ =>
    within_forgetClones hS.clones fun m s g => hS.memory m m.blockTsCache s g

theorem within_rollbackOwn (hS : S.RollsBack cfg f) (hrec : ∀ l, S.rollbacks.rel l (l ++ [f])) :
    Within S.frame (rollbackOwn env cfg f) := by
  have hrecord : Within S.frame
      (Prog.modify (ε := Err) fun w : World => { w with rollbacks := w.rollbacks ++ [f] }) :=
    within_modify fun w => ⟨⟨(Linked S.tables).refl _, S.mem.refl _, S.handed.refl _,
      S.requests.refl _, S.children.refl _, hrec _, Nat.le_refl _⟩, id⟩
  exact within_bind hrecord fun _ => within_rollbackData hS

/-! ### Children -/

/-- **A function of a child**: its memory is its own. -/
theorem within_onChild {c : Child} {p : M Unit} (hp : Within S.inner.frame p) :
    Within S.frame (onChild c p) := by
  have hzoom : ∀ w : World, Meets
      (Prog.zoom (fun w => { w with mem := c.mem, children := [], rollbacks := [] })
        (fun w w' : World => { w' with
          mem := w.mem, children := w.children, rollbacks := w.rollbacks })
        (do p; getMem id) : M Mem) w
      ⟨fun _ => S.frame.rel w, fun _ => S.frame.rel w, S.frame.dead w⟩ := by
    intro w
    have hback : ∀ w' : World,
        S.inner.Rel { w with mem := c.mem, children := [], rollbacks := [] } w' →
        S.Rel w { w' with mem := w.mem, children := w.children, rollbacks := w.rollbacks } :=
      fun w' h => ⟨h.tables, S.mem.refl _, h.handed, h.requests, S.children.refl _,
        S.rollbacks.refl _, h.now⟩
    rw [meets_zoom, meets_bind]
    refine (hp _).mono ?_ ?_ ?_
    · rintro _ w' ⟨hrel, hq⟩
      exact ⟨hback w' hrel, hq⟩
    · rintro _ w' ⟨hrel, hq⟩
      exact ⟨hback w' hrel, hq⟩
    · rintro w' ⟨hrel, -⟩
      exact ⟨hback w' hrel, trivial⟩
  exact within_bind hzoom fun _ => within_pure _

theorem within_upsertSyncState {key : Text} {b : Nat} {s : Text}
    (h : ∀ t : Tables, S.tables.rel t (t.putSyncState key ⟨b, s⟩)) :
    Within S.frame (upsertSyncState env cfg key b s) :=
  within_guarded (within_execWrite h)

theorem within_stopAndJoin (hput : ∀ (t : Tables) s, S.tables.rel t (t.putSyncState cfg.stateKey s))
    (hmem : ∀ (m : Mem) s b, S.mem.rel m { m with state := s, thread := b }) :
    Within S.frame (stopAndJoin env cfg) := by
  refine within_bind (within_setMem fun m => hmem m .stopped m.thread) fun _ => ?_
  refine within_bind within_getMem fun running => within_bind (within_when fun _ => ?_) fun _ =>
    within_tick
  refine within_bind within_getMem fun current => ?_
  refine within_bind (within_ignoring (within_upsertSyncState fun t => hput t _)) fun _ => ?_
  exact within_setMem fun m => hmem m m.state false

theorem within_applyOwnReorg (hS : S.RollsBack cfg f) (hrec : ∀ l, S.rollbacks.rel l (l ++ [f]))
    (hmem : ∀ (m : Mem) b, S.mem.rel m { m with currentBlock := b }) :
    Within S.frame (applyOwnReorg env cfg f) :=
  within_bind (within_rollbackOwn hS hrec) fun _ => within_bind (within_setMem fun m => hmem m _)
    fun _ => within_tick

theorem within_rewindChild {c : Child}
    (hstops : ∀ (t : Tables) s, S.tables.rel t (t.putSyncState c.cfg.stateKey s))
    (hS : S.inner.RollsBack c.cfg f) : Within S.frame (rewindChild env f c) := by
  refine within_onChild ?_
  refine within_bind (within_stopAndJoin hstops fun _ _ _ => trivial) fun _ => ?_
  refine within_bind (within_applyOwnReorg hS (fun _ => trivial) fun _ _ => trivial) fun _ => ?_
  exact within_setMem fun _ => trivial

theorem within_discardChild {c : Child}
    (hstops : ∀ (t : Tables) s, S.tables.rel t (t.putSyncState c.cfg.stateKey s))
    (hdrops : ∀ t : Tables, S.tables.rel t (t.dropSyncState c.cfg.contract.address))
    (hS : S.inner.RollsBack c.cfg c.cfg.contract.fromBlock) :
    Within S.frame (discardChild env c) := by
  have hchild : Within S.frame (onChild c do
      stopAndJoin env c.cfg
      applyOwnReorg env c.cfg c.cfg.contract.fromBlock) := by
    refine within_onChild ?_
    refine within_bind (within_stopAndJoin hstops fun _ _ _ => trivial) fun _ => ?_
    exact within_applyOwnReorg hS (fun _ => trivial) fun _ _ => trivial
  refine within_bind hchild fun _ => ?_
  exact within_bind (within_ignoring (within_guarded (within_execWrite hdrops))) fun _ =>
    within_tick

/-- **Going back with the children**, whoever they are. -/
theorem meets_reconcileChildren (hkids : ∀ c ∈ w.children, S.Reconciles c f)
    (hchildren : ∀ l l', S.children.rel l l') :
    Meets (reconcileChildren env f) w
      ⟨fun _ => S.frame.rel w, fun _ => S.frame.rel w, S.frame.dead w⟩ := by
  rw [reconcileChildren, meets_read_bind]
  have hdoomed : Within S.frame (Prog.each
      (w.children.filter fun c => decide (c.cfg.contract.fromBlock ≥ f)) (discardChild env)) :=
    within_each fun c hc => by
      obtain ⟨hmem, hge⟩ := List.mem_filter.1 hc
      exact within_discardChild (hkids c hmem).stops (hkids c hmem).drops
        ((hkids c hmem).discards (of_decide_eq_true hge))
  have hsurvivors : Within S.frame (Prog.gather
      (w.children.filter fun c => !decide (c.cfg.contract.fromBlock ≥ f)) fun c => do
        let c ← rewindChild env f c
        pure [c]) :=
    within_gather fun c hc => by
      obtain ⟨hmem, hlt⟩ := List.mem_filter.1 hc
      exact within_bind (within_rewindChild (hkids c hmem).stops
        ((hkids c hmem).rewinds (by simpa using hlt))) fun _ => within_pure _
  have hput : ∀ l, Within S.frame
      (Prog.modify (ε := Err) fun w : World => { w with children := l }) := fun l =>
    within_modify fun w => ⟨⟨(Linked S.tables).refl _, S.mem.refl _, S.handed.refl _,
      S.requests.refl _, hchildren _ _, S.rollbacks.refl _, Nat.le_refl _⟩, id⟩
  exact within_bind hdoomed (fun _ => within_bind hsurvivors fun l => hput l) w

theorem within_onReorgCallback (hkids : ∀ c, S.Reconciles c f)
    (hchildren : ∀ l l', S.children.rel l l') : Within S.frame (onReorgCallback env cfg f) := by
  unfold onReorgCallback
  split
  · exact within_pure _
  · exact within_when fun _ _ => meets_reconcileChildren (fun c _ => hkids c) hchildren

/-- **A rollback, hook and all.** -/
theorem within_rollbackTo (hS : S.RollsBack cfg f) (hrec : ∀ l, S.rollbacks.rel l (l ++ [f]))
    (hkids : ∀ c, S.Reconciles c f) (hchildren : ∀ l l', S.children.rel l l') :
    Within S.frame (rollbackTo env cfg f) :=
  within_bind (within_rollbackOwn hS hrec) fun _ => within_onReorgCallback hkids hchildren

end Rollback

end Zponder

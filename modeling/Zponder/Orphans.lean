import Zponder.GoesThrough
import Zponder.Remains

/-!
# A rollback that failed

`rollbackTo` logs the failure of its deletion and goes on: it forgets the clones of a
template, calls the hook, and its callers set the cursor back. When the deletion has
failed, all of that happens to an indexer whose rows are still there, and the next scan
writes a new hash over the one that told the old chain from the new.

What may be asked of a rollback is that it either deletes what it was to delete or
leaves the indexer as it found it (`Zponder.NotMistaken`). Where the cursor has somewhere
to go, that is the case exactly if no statement of the deletion fails
(`Zponder.notMistaken_iff`); a failure is harmless only where there is nothing left to do
after the deletion, the cursor being where it is sent already.
-/

namespace Zponder

open Imperative Prog Conn

/-! ### The two ways to a rollback -/

/-- Who rolls back: the check of the run loop, or somebody who knows the block. -/
inductive Handler where
  | check
  | apply (forkBlock : Nat)
  deriving DecidableEq, Repr

namespace Handler

variable (env : Env) (cfg : Config)

/-- `checkReorg` or `applyReorg`. -/
def run : Handler → M Unit
  | check => do
    let _ ← checkReorg env cfg
    pure ()
  | apply f => applyReorg env cfg f

/-- There is something to handle. -/
def Applies (w : World) : Handler → Prop
  | check => cfg.contract.fromBlock < w.mem.currentBlock ∧
      SeesReorg env cfg w (w.mem.currentBlock - 1)
  | apply _ => True

/-- The block that is rolled back to, and the moment. -/
def fork (w : World) : Handler → Nat × Nat
  | check => forkOf env cfg w (w.mem.currentBlock - 1)
  | apply f => (f, w.now)

/-- Where the cursor is sent: the check leaves it alone if the fork is the block it
looked at. -/
def target (w : World) : Handler → Nat
  | check =>
    let f := (forkOf env cfg w (w.mem.currentBlock - 1)).1
    if f < w.mem.currentBlock - 1 then f else w.mem.currentBlock
  | apply f => f

end Handler

section Handler

variable {env : Env} {cfg : Config} {w w' : World} {h : Handler}

/-- **Both come down to one rollback**, and a cursor. -/
theorem rollbackTo_of_handler (hw : w.Quiet) (happ : h.Applies env cfg w)
    (hrun : h.run env cfg w = (.ok (), w')) : ∃ w₁,
    rollbackTo env cfg (h.fork env cfg w).1 (w.at_ (h.fork env cfg w).2) = (.ok (), w₁) ∧
      w'.conn = w₁.conn ∧ w'.children = w₁.children ∧
      w'.mem = { w₁.mem with currentBlock := h.target env cfg w } := by
  cases h with
  | check =>
    obtain ⟨hgt, hsees⟩ := happ
    obtain ⟨back, w₂, hcheck, hpure⟩ := bind_eq_ok.1 hrun
    obtain rfl : w₂ = w' := (Prod.mk.inj hpure).2
    rw [checkReorg, getMem, read_bind, if_pos hgt] at hcheck
    obtain ⟨f, w₁, hdetect, hset⟩ := bind_eq_ok.1 hcheck
    rcases (meets_detect_fork hw _).ok_of_eq hdetect with ⟨hno, -⟩ | ⟨-, hf, hroll⟩
    · exact absurd hsees hno
    refine ⟨w₁, hf ▸ hroll, ?_⟩
    have hcursor := ((meets_rollbackTo f).ok_of_eq hroll).2.1
    change _ ∧ _ ∧ _ = { w₁.mem with currentBlock := if (forkOf env cfg w (w.mem.currentBlock - 1)).1 <
      w.mem.currentBlock - 1 then (forkOf env cfg w (w.mem.currentBlock - 1)).1
        else w.mem.currentBlock }
    rw [← hf]
    by_cases hlt : f < w.mem.currentBlock - 1
    · rw [if_pos hlt] at hset ⊢
      obtain rfl : _ = w₂ := (Prod.mk.inj hset).2
      exact ⟨rfl, rfl, rfl⟩
    · rw [if_neg hlt] at hset ⊢
      obtain rfl : w₁ = w₂ := (Prod.mk.inj hset).2
      refine ⟨rfl, rfl, ?_⟩
      change w₁.mem.currentBlock = w.mem.currentBlock at hcursor
      rw [← hcursor]
  | apply f =>
    obtain ⟨_, w₁, hroll, hset⟩ := bind_eq_ok.1 hrun
    obtain rfl : _ = w' := (Prod.mk.inj hset).2
    exact ⟨w₁, hroll, rfl, rfl, rfl⟩

/-! ### What is asked of a rollback -/

/-- Nothing that matters has changed: the same rows, and the same indexer. -/
structure Untouched (w w' : World) : Prop where
  db : w'.db = w.db
  cursor : w'.mem.currentBlock = w.mem.currentBlock
  clones : w'.mem.templateSet = w.mem.templateSet
  children : w'.children = w.children

/-- An untouched indexer sees the same reorganisation again, as long as the node does not
change its mind. -/
theorem Untouched.again (hu : Untouched w w') {t : Nat}
    (hd : Differs env cfg t w.db (w.mem.currentBlock - 1)) :
    Differs env cfg t w'.db (w'.mem.currentBlock - 1) := by
  rwa [hu.db, hu.cursor]

/-- **A failed rollback is not taken for a successful one**: the deletion was carried out
and nothing of what it was to delete is left, or the indexer is untouched. -/
def NotMistaken (env : Env) (cfg : Config) (h : Handler) (w w' : World) : Prop :=
  (Deletes env cfg (h.fork env cfg w).1 (w.at_ (h.fork env cfg w).2) ∧
      Remaining cfg (· < (h.fork env cfg w).1) w'.db) ∨
    Untouched w w'

/-- No statement of the deletion fails. -/
def DeletionGoesThrough (env : Env) (cfg : Config) (h : Handler) (w : World) : Prop :=
  GoThrough env (h.fork env cfg w).2
    (rollbackCalls cfg cfg.contract.events (h.fork env cfg w).1 cfg.chain w.db.projTables)

/-- After the deletion there is nothing left to do: the cursor is where it is sent, there
are no clones, and no children that the hook could reach. -/
structure NothingLeft (env : Env) (cfg : Config) (h : Handler) (w : World) : Prop where
  cursor : h.target env cfg w = w.mem.currentBlock
  clones : cfg.templateMode = false
  children : cfg.reorgHook ≠ some cfg.chain ∨ w.children = []

/-! ### The deletion -/

theorem deletes_of_goThrough {f : Nat} (hb : cfg.backend ≠ .rocksdb) (hw : w.Quiet)
    (hgo : GoThrough env w.now (rollbackCalls cfg cfg.contract.events f cfg.chain w.db.projTables))
    (hrun : rollbackTo env cfg f w = (.ok (), w')) : Deletes env cfg f w := by
  have hiff := meets_rollbackFromBlock_iff env (w := w.rollingBack f) hb hw cfg.stateKey
    cfg.contract.name cfg.contract.events f cfg.chain
  rw [rollbackTo_eq, modify_bind] at hrun
  obtain ⟨_, w₁, hdel, -⟩ := bind_eq_ok.1 hrun
  rcases catching_eq_ok.1 hdel with hok | ⟨e, w₂, herr, -⟩
  · exact ⟨w₁, hok⟩
  · exact absurd hgo (hiff.err_of_eq herr)

theorem goThrough_of_deletes {f : Nat} (hb : cfg.backend ≠ .rocksdb) (hw : w.Quiet)
    (hdel : Deletes env cfg f w) :
    GoThrough env w.now (rollbackCalls cfg cfg.contract.events f cfg.chain w.db.projTables) := by
  obtain ⟨w₁, hok⟩ := hdel
  exact (meets_rollbackFromBlock_iff env (w := w.rollingBack f) hb hw _ _ _ _ _).ok_of_eq hok

/-- Where there is nothing left to do, nothing is done. -/
theorem meets_afterDeletion_nothing {f : Nat} (hclones : cfg.templateMode = false)
    (hkids : cfg.reorgHook ≠ some cfg.chain ∨ w.children = []) :
    Meets (afterDeletion env cfg f) w
      ⟨fun _ w' => w'.conn = w.conn ∧ w'.children = w.children ∧
          w'.mem = { w.mem with blockTsCache := [] },
        fun _ _ => True, fun _ => True⟩ := by
  have hnot : ¬cfg.templateMode = true := by simp [hclones]
  rw [afterDeletion, when_of_not hnot, setMem, meets_modify_bind]
  change Meets (onReorgCallback env cfg f) _ _
  unfold onReorgCallback
  split
  · exact ⟨rfl, rfl, rfl⟩
  · next chain hchain =>
    refine meets_when (fun hc => ?_) fun _ => ⟨rfl, rfl, rfl⟩
    have hnil : w.children = [] := hkids.resolve_left fun hne => hne (hc ▸ hchain)
    rw [reconcileChildren, meets_read_bind]
    simp only [hnil, List.filter_nil, each_nil, meets_bind, meets_pure, gather, meets_modify,
      and_self]

/-- A deletion that failed, with nothing left to do after it. -/
theorem untouched_of_nothingLeft (hb : cfg.backend ≠ .rocksdb) (hw : w.Quiet)
    (hnothing : NothingLeft env cfg h w) (hfail : ¬DeletionGoesThrough env cfg h w)
    (happ : h.Applies env cfg w) (hrun : h.run env cfg w = (.ok (), w')) : Untouched w w' := by
  obtain ⟨w₁, hroll, hconn, hchildren, hmem⟩ := rollbackTo_of_handler hw happ hrun
  generalize hf : h.fork env cfg w = p at *
  rw [rollbackTo_eq, modify_bind] at hroll
  obtain ⟨_, w₂, hdel, hafter⟩ := bind_eq_ok.1 hroll
  have hsame : w₂.conn = w.conn ∧ w₂.children = w.children ∧ w₂.mem = w.mem := by
    have hspec := meets_rollbackFromBlock env (w := (w.at_ p.2).rollingBack p.1) hb hw
      cfg.stateKey cfg.contract.name cfg.contract.events p.1 cfg.chain
    rcases catching_eq_ok.1 hdel with hok | ⟨e, w₃, herr, hpure⟩
    · refine absurd (goThrough_of_deletes (w := w.at_ p.2) hb hw ⟨w₂, hok⟩) ?_
      rwa [DeletionGoesThrough, hf] at hfail
    · obtain rfl : w₃ = w₂ := (Prod.mk.inj hpure).2
      rw [hspec.err_of_eq herr]
      exact ⟨rfl, rfl, rfl⟩
  obtain ⟨hc, hk, hm⟩ := (meets_afterDeletion_nothing (f := p.1) hnothing.clones
    (hnothing.children.imp_right fun hnil => hsame.2.1.trans hnil)).ok_of_eq hafter
  refine ⟨?_, ?_, ?_, ?_⟩
  · rw [World.db, hconn, hc, hsame.1]
  · rw [hmem, hnothing.cursor]
  · rw [hmem, hm, hsame.2.2]
  · rw [hchildren, hk, hsame.2.1]

end Handler

/-! ### An event without a table -/

/-- A contract with an event that its ABI lacks, and that therefore has no table. -/
def tablelessConfig : Config :=
  { plainConfig with contract := { plainConfig.contract with events := ["Gone".toList] } }

/-- The node of `Zponder.forgetfulNode`; the table of the event does not exist. -/
def tablelessEnv : Env := { forgetfulNode with
  fault := fun _ call => if call = .deleteEventLogs "Gone".toList then .fail .prepareFailed else .none }

/-- An indexer at block 6 that knows block 5 under its old hash. -/
def forkedWorld : World := { freshWorld with
  conn := Conn.quiet { blockHashes := fun _ b => if b = 5 then some "0xa0".toList else none }
  mem := { currentBlock := 6 } }

end Zponder

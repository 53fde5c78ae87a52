import Zponder.ForkPoint

/-!
# Where the scan for the fork comes to rest

The scan of `detectAndHandleReorg` looks at hashes and does nothing else until it has
found a block to roll back to, so the block and the moment are functions of the tables
and of the node (`Zponder.forkAt`), and the whole of `detectAndHandleReorg` is a single
call of `rollbackTo` from there (`Zponder.meets_detect_fork`).

The block is never above the first one that is not canonical any more
(`Zponder.fst_forkAt_le`): a block on which the hashes agree is canonical with everything
below it, and where none is found the scan ends at its floor, which is below too.
-/

namespace Zponder

open Imperative Prog Conn

section Fork

variable (env : Env) (cfg : Config)

/-- The block `scanForFork` rolls back to when it looks at `db` from moment `t` on, and
the moment it does so. -/
def forkAt (minBlock : Nat) (db : Tables) : Nat → Nat → Nat × Nat
  | 0, t => (minBlock, t)
  | scanBlock + 1, t =>
    if scanBlock + 1 > minBlock then
      if Agrees env cfg t db scanBlock then (scanBlock + 1, t + 1)
      else forkAt minBlock db scanBlock (t + 1)
    else (minBlock, t)

/-- The floor of a scan that begins at `n`. -/
def scanFloor (n : Nat) : Nat :=
  let depth := effectiveReorgDepth cfg.contract.maxReorgDepth
  if n > depth then n - depth else 0

/-- The block a check of block `n` rolls back to, and when. -/
def forkOf (w : World) (n : Nat) : Nat × Nat :=
  forkAt env cfg (scanFloor cfg n) w.db n (w.now + 1)

/-- A check of block `n` finds that the chain has changed. -/
def SeesReorg (w : World) (n : Nat) : Prop :=
  effectiveReorgDepth cfg.contract.maxReorgDepth ≠ 0 ∧ Differs env cfg w.now w.db n

instance (w : World) (n : Nat) : Decidable (SeesReorg env cfg w n) :=
  inferInstanceAs (Decidable (_ ∧ _))

end Fork

/-- The same world at another moment. -/
def World.at_ (w : World) (t : Nat) : World := { w with now := t }

section Spec

variable {env : Env} {cfg : Config} {w : World} {minBlock n F : Nat} {db : Tables}

/-! ### The block -/

theorem forkAt_le : ∀ {n t : Nat}, minBlock ≤ n → (forkAt env cfg minBlock db n t).1 ≤ n
  | 0, _, h => h
  | n + 1, t, h => by
    unfold forkAt
    split
    · next hlt =>
      split
      · exact le_rfl
      · exact Nat.le_succ_of_le (forkAt_le (Nat.lt_succ_iff.1 hlt))
    · exact h

/-- **The block is not above the first one that is not canonical.** -/
theorem fst_forkAt_le (hmin : minBlock ≤ F) (hagree : ∀ t b, Agrees env cfg t db b → b < F) :
    ∀ {n t : Nat}, (forkAt env cfg minBlock db n t).1 ≤ F
  | 0, _ => hmin
  | n + 1, t => by
    unfold forkAt
    split
    · split
      · next h => exact hagree t n h
      · exact fst_forkAt_le hmin hagree
    · exact hmin

theorem scanFloor_le (n : Nat) : scanFloor cfg n ≤ n := by
  simp only [scanFloor]
  split <;> omega

/-! ### The run -/

/-- A run is what it is. -/
theorem meets_self {σ ε α : Type} (p : Prog σ ε α) (s : σ) :
    Meets p s ⟨fun a t => p s = (.ok a, t), fun e t => p s = (.err e, t),
      fun t => p s = (.crash, t)⟩ := by
  unfold Meets
  rcases p s with ⟨a | e | _, t⟩ <;> rfl

/-- **The scan is a single rollback**, from where it comes to rest. -/
theorem meets_scanForFork_at (hw : w.Quiet) {Φ : Post World Err Nat} (hdead : ∀ w', Φ.dead w') :
    ∀ {n : Nat} {t : Nat},
    Meets (do
        rollbackTo env cfg (forkAt env cfg minBlock w.db n t).1
        pure (forkAt env cfg minBlock w.db n t).1)
      (w.at_ (forkAt env cfg minBlock w.db n t).2) Φ →
    Meets (scanForFork env cfg minBlock n) (w.at_ t) Φ := by
  intro n
  induction n with
  | zero => exact fun h => h
  | succ n ih =>
    intro t h
    rw [scanForFork]
    by_cases hlt : n + 1 > minBlock
    · rw [if_pos hlt, meets_bind]
      refine (meets_lookUpHashes (w := w.at_ t) hw n).mono ?_ (fun _ _ h => h.elim)
        fun _ _ => hdead _
      rintro hashes _ ⟨hseen, rfl⟩
      have hforkAt : forkAt env cfg minBlock w.db (n + 1) t =
          if Agrees env cfg t w.db n then (n + 1, t + 1)
          else forkAt env cfg minBlock w.db n (t + 1) := by
        rw [forkAt, if_pos hlt]
      have hon : ¬Agrees env cfg t w.db n → Meets (scanForFork env cfg minBlock n)
          (w.at_ (t + 1)) Φ := by
        intro hno
        rw [hforkAt, if_neg hno] at h
        exact ih h
      change hashes = seenHashes env cfg t w.db n at hseen
      rcases hashes with _ | ⟨rpcHash, localHash⟩
      · refine hon ?_
        rintro ⟨h, hmem, -⟩
        cases (hseen ▸ hmem : h ∈ none)
      · refine meets_ite (fun heq => ?_) fun hne => hon ?_
        · have hyes : Agrees env cfg t w.db n := ⟨(rpcHash, localHash), hseen.symm, heq⟩
          rw [hforkAt, if_pos hyes] at h
          exact h
        · rintro ⟨h, hmem, heq⟩
          obtain rfl : (rpcHash, localHash) = h := Option.some.inj (hseen ▸ hmem)
          exact hne heq
    · rw [if_neg hlt]
      rw [forkAt, if_neg hlt] at h
      exact h

/-- **A check that finds a reorganisation is a single rollback**, and one that does not
answers with the block it was asked about. -/
theorem meets_detect_fork (hw : w.Quiet) (n : Nat) :
    Meets (detectAndHandleReorg env cfg n) w
      ⟨fun r w' => (¬SeesReorg env cfg w n ∧ r = n ∧ w'.conn = w.conn ∧ w'.mem = w.mem ∧
            w'.children = w.children) ∨
          (SeesReorg env cfg w n ∧ r = (forkOf env cfg w n).1 ∧
            rollbackTo env cfg r (w.at_ (forkOf env cfg w n).2) = (.ok (), w')),
        fun _ _ => True, fun _ => True⟩ := by
  unfold detectAndHandleReorg
  refine meets_ite (fun hzero => ?_) fun hdepth => ?_
  · exact .inl ⟨fun h => h.1 hzero, rfl, rfl, rfl, rfl⟩
  rw [meets_bind]
  refine (meets_lookUpHashes hw n).mono ?_ (fun _ _ h => h.elim) fun _ h => h
  rintro hashes _ ⟨hseen, rfl⟩
  rcases hashes with _ | ⟨rpcHash, localHash⟩
  · refine .inl ⟨?_, rfl, rfl, rfl, rfl⟩
    rintro ⟨-, h, hmem, -⟩
    cases (hseen ▸ hmem : h ∈ none)
  · refine meets_ite (fun heq => ?_) fun hne => ?_
    · refine .inl ⟨?_, rfl, rfl, rfl, rfl⟩
      rintro ⟨-, h, hmem, hdiff⟩
      obtain rfl : (rpcHash, localHash) = h := Option.some.inj (hseen ▸ hmem)
      exact Bool.false_ne_true (hdiff.symm.trans heq)
    · have hsees : SeesReorg env cfg w n :=
        ⟨hdepth, (rpcHash, localHash), hseen.symm, by simpa using hne⟩
      refine meets_scanForFork_at (w := w) hw (fun _ => trivial) (t := w.now + 1) ?_
      rw [meets_bind]
      refine (meets_self _ _).mono ?_ (fun _ _ _ => trivial) fun _ _ => trivial
      exact fun _ w' hrun => .inr ⟨hsees, rfl, hrun⟩

end Spec

end Zponder

import Zponder.TurnScope

/-!
# The block a reorganisation is rolled back to

`detectAndHandleReorg` answers with a block number and nothing else: with the one it
was asked about when nothing is amiss, and with the fork when there was a rollback.
The two callers tell the cases apart by comparing the answer with the block they
asked about, which works as long as the fork is below it. When only the block below
the cursor was replaced, the fork *is* that block (`Zponder.ReplacesOneBlock`): the
rows are gone and the cursor stays.
-/

namespace Zponder

open Imperative Prog Conn

/-! ### What a look at the hashes finds -/

section Seen

variable (env : Env) (cfg : Config)

/-- The stored hash of a block, as a statement at moment `t` gets to see it. -/
def storedHash (t : Nat) (db : Tables) (block : Nat) : Option Text :=
  match env.fault t .getBlockHash with
  | .none => (cutRows env cfg t .getBlockHash (db.blockHashes cfg.stateKey block).toList).head?
  | _ => none

/-- What `lookUpHashes` finds when it begins at moment `t`. -/
def seenHashes (t : Nat) (db : Tables) (block : Nat) : Option (Text × Text) :=
  match env.blockHash t block with
  | .ok (some rpcHash) =>
    (storedHash env cfg (t + 1) db block).map fun localHash => (rpcHash, localHash)
  | _ => none

/-- The hashes of a block are there and differ. -/
def Differs (t : Nat) (db : Tables) (block : Nat) : Prop :=
  ∃ h ∈ seenHashes env cfg t db block, Text.eqlIgnoreCase h.1 h.2 = false

instance (t : Nat) (db : Tables) (block : Nat) : Decidable (Differs env cfg t db block) :=
  inferInstanceAs (Decidable (∃ h ∈ seenHashes env cfg t db block, _))

/-- The hashes of a block are there and agree. -/
def Agrees (t : Nat) (db : Tables) (block : Nat) : Prop :=
  ∃ h ∈ seenHashes env cfg t db block, Text.eqlIgnoreCase h.1 h.2 = true

instance (t : Nat) (db : Tables) (block : Nat) : Decidable (Agrees env cfg t db block) :=
  inferInstanceAs (Decidable (∃ h ∈ seenHashes env cfg t db block, _))

/-- **One block was replaced**: the hashes differ on the block below the cursor, and
agree on the one before it, if there is one. -/
def ReplacesOneBlock (w : World) : Prop :=
  cfg.contract.fromBlock < w.mem.currentBlock ∧
    effectiveReorgDepth cfg.contract.maxReorgDepth ≠ 0 ∧
    Differs env cfg w.now w.db (w.mem.currentBlock - 1) ∧
    (w.mem.currentBlock = 1 ∨ Agrees env cfg (w.now + 1) w.db (w.mem.currentBlock - 2))

instance (w : World) : Decidable (ReplacesOneBlock env cfg w) :=
  inferInstanceAs (Decidable (_ ∧ _ ∧ _ ∧ _))

end Seen

section Fork

variable {env : Env} {cfg : Config} {w : World}

theorem meets_getBlockHash (hw : w.Quiet) (block : Nat) :
    Meets (Prog.catching (getBlockHash env cfg cfg.stateKey block) fun _ =>
        (pure none : M (Option Text))) w
      ⟨fun r w' => r = storedHash env cfg w.now w.db block ∧ w' = w, fun _ _ => False,
        fun _ => True⟩ := by
  rw [meets_catching, getBlockHash, meets_guarded, meets_execFind, execRead, meets_exec]
  have hconn : w.conn = quiet w.db := eq_quiet hw
  have hback : ({ w with conn := quiet w.db } : World) = w := by rw [← hconn]
  simp only [hconn]
  refine meets_stmt_quiet.mono ?_ ?_ fun _ _ => trivial
  · rintro rows c ⟨hφ, rfl, rfl⟩
    have hfault : env.fault w.now .getBlockHash = .none := by
      simpa [Env.faultAt] using hφ
    refine ⟨?_, hback⟩
    simp [storedHash, hfault]
  · rintro e c ⟨hφ, rfl⟩
    refine ⟨?_, hback⟩
    obtain ⟨e', he⟩ : Failed (env.fault w.now .getBlockHash) := by
      simpa [Env.faultAt] using hφ
    simp [storedHash, he]

theorem meets_lookUpHashes (hw : w.Quiet) (block : Nat) :
    Meets (lookUpHashes env cfg block) w
      ⟨fun r w' => r = seenHashes env cfg w.now w.db block ∧ w' = w.ticked, fun _ _ => False,
        fun _ => True⟩ := by
  rw [lookUpHashes, meets_bind, meets_catching]
  refine meets_ask (fun r hr => ?_) (fun e he => ?_) fun _ => trivial
  · cases r with
    | none =>
      refine ⟨?_, rfl⟩
      simp [seenHashes, hr]
    | some rpcHash =>
      simp only [meets_bind, meets_pure]
      refine (meets_getBlockHash (w := w.ticked) hw block).mono ?_ (fun _ _ h => h) fun _ h => h
      rintro localHash _ ⟨rfl, rfl⟩
      refine ⟨?_, rfl⟩
      simp [seenHashes, hr, World.db]
  · refine ⟨?_, rfl⟩
    simp [seenHashes, he]

/-! ### The scan for the fork -/

/-- A rollback leaves the cursor and the bounds of the scan alone. -/
def steadyScope : Scope where
  tables := .any
  mem := .keeping fun m => (m.currentBlock, m.replayLimit)
  handed := .any
  requests := .any
  children := .any

/-- The cursor, and the limit of a replay, are as they were. -/
def SameCursor (w w' : World) : Prop :=
  w'.mem.currentBlock = w.mem.currentBlock ∧ w'.mem.replayLimit = w.mem.replayLimit

theorem steadyScope_rollsBack (cfg : Config) (f : Nat) : steadyScope.RollsBack cfg f where
  events _ _ := trivial
  snapshots _ := trivial
  blockHashes _ := trivial
  syncState _ := trivial
  projections _ _ := trivial
  cache _ := trivial
  ranges _ _ := trivial
  blocks _ := trivial
  rawLogs _ := trivial
  clones _ _ := trivial
  memory _ _ _ _ := rfl

theorem steadyScope_reconciles (c : Child) (f : Nat) : steadyScope.Reconciles c f where
  stops _ _ := trivial
  drops _ := trivial
  rewinds _ := ⟨fun _ _ => trivial, fun _ => trivial, fun _ => trivial, fun _ => trivial,
    fun _ _ => trivial, fun _ => trivial, fun _ _ => trivial, fun _ => trivial, fun _ => trivial,
    fun _ _ => trivial, fun _ _ _ _ => trivial⟩
  discards _ := ⟨fun _ _ => trivial, fun _ => trivial, fun _ => trivial, fun _ => trivial,
    fun _ _ => trivial, fun _ => trivial, fun _ _ => trivial, fun _ => trivial, fun _ => trivial,
    fun _ _ => trivial, fun _ _ _ _ => trivial⟩

/-- A rollback is put on record, and the cursor stays. -/
theorem meets_rollbackTo (f : Nat) :
    Meets (rollbackTo env cfg f) w
      ⟨fun _ w' => w'.rollbacks = w.rollbacks ++ [f] ∧ SameCursor w w', fun _ _ => True,
        fun _ => True⟩ := by
  have hrest : Within steadyScope.frame
      (do rollbackData env cfg f; onReorgCallback env cfg f) :=
    within_bind (within_rollbackData (steadyScope_rollsBack cfg f)) fun _ =>
      within_onReorgCallback (steadyScope_reconciles · f) fun _ _ => trivial
  simp only [rollbackTo, rollbackOwn, bind_assoc, meets_bind, meets_modify]
  rw [← meets_bind]
  refine (hrest _).mono ?_ (fun _ _ _ => trivial) fun _ _ => trivial
  rintro _ w' ⟨hrel, -⟩
  exact ⟨hrel.rollbacks, Prod.mk.inj hrel.mem⟩

/-- The end of a scan: a rollback to the block it answers with. -/
theorem meets_rollbackTo_pure (f : Nat) :
    Meets (do rollbackTo env cfg f; pure f) w
      ⟨fun r w' => r = f ∧ w'.rollbacks = w.rollbacks ++ [f] ∧ SameCursor w w', fun _ _ => True,
        fun _ => True⟩ := by
  rw [meets_bind]
  exact (meets_rollbackTo f).mono (fun _ _ h => ⟨rfl, h⟩) (fun _ _ h => h) fun _ h => h

/-- **Wherever the scan ends, it rolls back there**, and not above where it began. -/
theorem meets_scanForFork (hw : w.Quiet) {minBlock n : Nat} (hmin : minBlock ≤ n) :
    Meets (scanForFork env cfg minBlock n) w
      ⟨fun r w' => r ≤ n ∧ w'.rollbacks = w.rollbacks ++ [r] ∧ SameCursor w w', fun _ _ => True,
        fun _ => True⟩ := by
  induction n generalizing w with
  | zero =>
    rw [scanForFork]
    refine (meets_rollbackTo_pure minBlock).mono ?_ (fun _ _ h => h) fun _ h => h
    rintro r w' ⟨rfl, h⟩
    exact ⟨hmin, h⟩
  | succ n ih =>
    rw [scanForFork]
    refine meets_ite (fun hlt => ?_) fun _ => ?_
    · have hon : Meets (scanForFork env cfg minBlock n) w.ticked
          ⟨fun r w' => r ≤ n + 1 ∧ w'.rollbacks = w.rollbacks ++ [r] ∧ SameCursor w w',
            fun _ _ => True, fun _ => True⟩ := by
        refine (ih (w := w.ticked) hw (Nat.lt_succ_iff.1 hlt)).mono ?_ (fun _ _ h => h)
          fun _ h => h
        rintro r w' ⟨hr, h⟩
        exact ⟨Nat.le_succ_of_le hr, h⟩
      rw [meets_bind]
      refine (meets_lookUpHashes hw n).mono ?_ (fun _ _ h => h.elim) fun _ h => h
      rintro hashes _ ⟨-, rfl⟩
      rcases hashes with _ | ⟨rpcHash, localHash⟩
      · exact hon
      · refine meets_ite (fun _ => ?_) fun _ => hon
        refine (meets_rollbackTo_pure (n + 1)).mono ?_ (fun _ _ h => h) fun _ h => h
        rintro r w' ⟨rfl, h⟩
        exact ⟨le_rfl, h⟩
    · refine (meets_rollbackTo_pure minBlock).mono ?_ (fun _ _ h => h) fun _ h => h
      rintro r w' ⟨rfl, h⟩
      exact ⟨hmin, h⟩

/-- The scan stays where it began if it has nowhere to go, or at once finds a block on
which the hashes agree. -/
theorem meets_scanForFork_eq (hw : w.Quiet) {minBlock n : Nat} (hmin : minBlock ≤ n)
    (hpos : n ≠ 0 → minBlock < n) :
    Meets (scanForFork env cfg minBlock n) w
      ⟨fun r w' => (r = n ↔ n = 0 ∨ Agrees env cfg w.now w.db (n - 1)) ∧ r ≤ n ∧
          w'.rollbacks = w.rollbacks ++ [r] ∧ SameCursor w w', fun _ _ => True, fun _ => True⟩ := by
  refine Meets.mono ((meets_scanForFork hw hmin).and (Ψ := ⟨fun r _ => r = n ↔ n = 0 ∨
    Agrees env cfg w.now w.db (n - 1), fun _ _ => True, fun _ => True⟩) ?_)
    (fun _ _ h => ⟨h.2, h.1⟩) (fun _ _ _ => trivial) fun _ _ => trivial
  cases n with
  | zero =>
    refine (meets_scanForFork hw hmin).mono ?_ (fun _ _ h => h) fun _ h => h
    rintro r w' ⟨hr, -⟩
    simp [Nat.le_zero.1 hr]
  | succ n =>
    have hlt : minBlock ≤ n := Nat.lt_succ_iff.1 (hpos (Nat.succ_ne_zero n))
    -- from the block below on, the answer is below
    have hon : ¬Agrees env cfg w.now w.db n → Meets (scanForFork env cfg minBlock n) w.ticked
        ⟨fun r _ => r = n + 1 ↔ n + 1 = 0 ∨ Agrees env cfg w.now w.db n, fun _ _ => True,
          fun _ => True⟩ := by
      intro hno
      refine (meets_scanForFork (w := w.ticked) hw hlt).mono ?_ (fun _ _ h => h) fun _ h => h
      rintro r w' ⟨hr, -⟩
      exact ⟨fun h => by omega, fun h => absurd (h.resolve_left (Nat.succ_ne_zero n)) hno⟩
    rw [scanForFork, if_pos (Nat.lt_succ_iff.2 hlt), meets_bind]
    refine (meets_lookUpHashes hw n).mono ?_ (fun _ _ h => h.elim) fun _ h => h
    rintro hashes _ ⟨hseen, rfl⟩
    rcases hashes with _ | ⟨rpcHash, localHash⟩
    · refine hon ?_
      rintro ⟨h, hmem, -⟩
      cases (hseen ▸ hmem : h ∈ none)
    · refine meets_ite (fun heq => ?_) fun hne => ?_
      · refine (meets_rollbackTo_pure (n + 1)).mono ?_ (fun _ _ h => h) fun _ h => h
        rintro r w' ⟨rfl, -⟩
        exact ⟨fun _ => .inr ⟨(rpcHash, localHash), hseen.symm, heq⟩, fun _ => rfl⟩
      · refine hon ?_
        rintro ⟨h, hmem, heq⟩
        obtain rfl : (rpcHash, localHash) = h := Option.some.inj (hseen ▸ hmem)
        exact hne heq

/-- **What the answer of `detectAndHandleReorg` means**: without a rollback it is the
block that was asked about, with one it is the block rolled back to. -/
theorem meets_detectAndHandleReorg (hw : w.Quiet) (n : Nat) :
    Meets (detectAndHandleReorg env cfg n) w
      ⟨fun r w' => SameCursor w w' ∧
          ((r = n ∧ w'.rollbacks = w.rollbacks ∧
              ¬(effectiveReorgDepth cfg.contract.maxReorgDepth ≠ 0 ∧
                Differs env cfg w.now w.db n)) ∨
            (r ≤ n ∧ w'.rollbacks = w.rollbacks ++ [r] ∧
              effectiveReorgDepth cfg.contract.maxReorgDepth ≠ 0 ∧ Differs env cfg w.now w.db n ∧
              (r = n ↔ n = 0 ∨ Agrees env cfg (w.now + 1) w.db (n - 1)))),
        fun _ _ => True, fun _ => True⟩ := by
  have hself : SameCursor w w := ⟨rfl, rfl⟩
  unfold detectAndHandleReorg
  refine meets_ite (fun hzero => ?_) fun hdepth => ?_
  · exact ⟨hself, .inl ⟨rfl, rfl, fun h => h.1 hzero⟩⟩
  rw [meets_bind]
  refine (meets_lookUpHashes hw n).mono ?_ (fun _ _ h => h.elim) fun _ h => h
  rintro hashes _ ⟨hseen, rfl⟩
  have hstay : ¬Differs env cfg w.now w.db n → (n = n ∧ w.ticked.rollbacks = w.rollbacks ∧
      ¬(effectiveReorgDepth cfg.contract.maxReorgDepth ≠ 0 ∧ Differs env cfg w.now w.db n)) :=
    fun h => ⟨rfl, rfl, fun h' => h h'.2⟩
  rcases hashes with _ | ⟨rpcHash, localHash⟩
  · refine ⟨hself, .inl (hstay ?_)⟩
    rintro ⟨h, hmem, -⟩
    cases (hseen ▸ hmem : h ∈ none)
  · refine meets_ite (fun heq => ?_) fun hne => ?_
    · refine ⟨hself, .inl (hstay ?_)⟩
      rintro ⟨h, hmem, hdiff⟩
      obtain rfl : (rpcHash, localHash) = h := Option.some.inj (hseen ▸ hmem)
      exact Bool.false_ne_true (hdiff.symm.trans heq)
    · have hdiff : Differs env cfg w.now w.db n :=
        ⟨(rpcHash, localHash), hseen.symm, by simpa using hne⟩
      -- the scan begins above its floor, unless it begins at block 0
      have hscan := @meets_scanForFork_eq env cfg w.ticked hw
        (if n > effectiveReorgDepth cfg.contract.maxReorgDepth then
          n - effectiveReorgDepth cfg.contract.maxReorgDepth else 0) n
        (by split <;> omega) (by split <;> omega)
      refine hscan.mono ?_ (fun _ _ h => h) fun _ h => h
      rintro r w' ⟨hr, hle, hroll, hsame⟩
      exact ⟨hsame, .inr ⟨hle, hroll, hdepth, hdiff, hr⟩⟩

/-! ### The two callers -/

/-- Every block that was rolled back from `w` to `w'` is still ahead of the cursor. -/
def Rescans (w w' : World) : Prop :=
  ∀ f ∈ w'.rollbacks.drop w.rollbacks.length, w'.mem.currentBlock ≤ f

theorem rescans_of_eq {w' : World} (h : w'.rollbacks = w.rollbacks) : Rescans w w' := by
  intro f hf
  simp [h] at hf

theorem rescans_append {w' : World} {f : Nat} (h : w'.rollbacks = w.rollbacks ++ [f]) :
    Rescans w w' ↔ w'.mem.currentBlock ≤ f := by
  simp [Rescans, h]

/-- **The check**: it sets the cursor back exactly if it rolled back further than one
block, and then the cursor is where it rolled back to. -/
theorem meets_checkReorg (hw : w.Quiet) :
    Meets (checkReorg env cfg) w
      ⟨fun back w' => w'.mem.replayLimit = w.mem.replayLimit ∧
          (back = true → Rescans w w' ∧ ¬ReplacesOneBlock env cfg w) ∧
          (back = false → w'.mem.currentBlock = w.mem.currentBlock ∧
            (ReplacesOneBlock env cfg w ∧
                w'.rollbacks = w.rollbacks ++ [w.mem.currentBlock - 1] ∧ 0 < w.mem.currentBlock ∨
              ¬ReplacesOneBlock env cfg w ∧ w'.rollbacks = w.rollbacks)),
        fun _ _ => True, fun _ => True⟩ := by
  rw [checkReorg, getMem, meets_read_bind]
  refine meets_ite (fun hgt => ?_) fun hle => ?_
  · rw [meets_bind]
    refine (meets_detectAndHandleReorg hw _).mono ?_ (fun _ _ h => h) fun _ h => h
    rintro r w₁ ⟨⟨hcursor, hlimit⟩, hcase⟩
    refine meets_ite (fun hlt => ?_) fun hge => ?_
    · rw [setMem, meets_bind, meets_modify]
      refine ⟨hlimit, fun _ => ?_, fun h => by cases h⟩
      rcases hcase with ⟨hr, -⟩ | ⟨-, hroll, -, -, hiff⟩
      · exact absurd hr (Nat.ne_of_lt hlt)
      · have hres : ∀ w' : World, w'.rollbacks = w₁.rollbacks → w'.mem.currentBlock = r →
            Rescans w w' := fun w' h₁ h₂ => (rescans_append (h₁.trans hroll)).2 h₂.le
        refine ⟨hres _ rfl rfl, ?_⟩
        rintro ⟨-, -, -, hone⟩
        have hfloor : w.mem.currentBlock - 1 = 0 ∨
            Agrees env cfg (w.now + 1) w.db (w.mem.currentBlock - 1 - 1) :=
          hone.imp (fun h => by omega) fun h => h
        exact absurd (hiff.2 hfloor) (Nat.ne_of_lt hlt)
    · refine ⟨hlimit, fun h => (by cases h), fun _ => ⟨hcursor, ?_⟩⟩
      rcases hcase with ⟨-, hroll, hno⟩ | ⟨hle, hroll, hdepth, hdiff, hiff⟩
      · exact .inr ⟨fun h => hno ⟨h.2.1, h.2.2.1⟩, hroll⟩
      · have hr : r = w.mem.currentBlock - 1 := le_antisymm hle (Nat.not_lt.1 hge)
        refine .inl ⟨⟨hgt, hdepth, hdiff, ?_⟩, hr ▸ hroll, by omega⟩
        exact (hiff.1 hr).imp (fun h => by omega) fun h => h
  · exact ⟨rfl, fun h => (by cases h), fun _ => ⟨rfl, .inr ⟨fun h => hle h.1, rfl⟩⟩⟩

/-- A scan does not set the cursor back. -/
def forwardScope (c : Nat) : Scope where
  tables := .any
  mem := .preserving fun m => c ≤ m.currentBlock
  handed := .any
  requests := .any

theorem forwardScope_advances (c : Nat) : (forwardScope c).Advances cfg where
  events _ _ := trivial
  accounts _ _ := trivial
  blocks _ _ := trivial
  callback _ _ _ := trivial
  rawLogs _ _ _ := trivial
  tsCache _ _ := id
  handed _ _ := trivial
  requests _ := trivial
  chainLogs _ _ := trivial
  ranges _ _ := trivial
  blockHash _ _ _ := trivial
  syncState _ _ := trivial
  snapshot _ _ _ := trivial
  memory _ _ _ := id

/-- The range of a turn does not end below the cursor. -/
theorem le_turnEnd {m : Mem} {latest : Nat} (hlatest : m.currentBlock ≤ latest)
    (hlimit : m.replayLimit = 0 ∨ m.currentBlock ≤ m.replayLimit) :
    m.currentBlock ≤ turnEnd m latest := by
  have hend := (inclusiveChunkEnd_bounds (n := m.batchSize) hlatest).1
  unfold turnEnd
  split
  · next hne => exact le_min hend (hlimit.resolve_left hne)
  · exact hend

theorem meets_scanTurn_forward {latest : Nat} (hlatest : w.mem.currentBlock ≤ latest)
    (hlimit : w.mem.replayLimit = 0 ∨ w.mem.currentBlock ≤ w.mem.replayLimit) :
    Meets (scanTurn env cfg latest) w
      ⟨fun _ w' => w'.rollbacks = w.rollbacks ∧ w.mem.currentBlock ≤ w'.mem.currentBlock,
        fun _ _ => True, fun _ => True⟩ := by
  have hend : w.mem.currentBlock ≤ cursorAfterBlock (turnEnd w.mem latest) :=
    (le_turnEnd hlatest hlimit).trans (le_cursorAfterBlock _)
  have hadvances : (forwardScope w.mem.currentBlock).Advances cfg := forwardScope_advances _
  have hscan : Meets (scanTurn env cfg latest) w _ := meets_scanTurn hadvances fun _ _ => hend
  refine hscan.mono ?_ (fun _ _ _ => trivial) fun _ _ => trivial
  rintro _ w' ⟨hrel, -⟩
  exact ⟨hrel.rollbacks, hrel.mem le_rfl⟩

theorem endReplay_currentBlock (m : Mem) : (endReplay m).currentBlock = m.currentBlock := by
  unfold endReplay
  split <;> rfl

/-- After the check of a replay's limit, the limit is not below the cursor. -/
theorem endReplay_limit (m : Mem) :
    (endReplay m).replayLimit = 0 ∨ (endReplay m).currentBlock ≤ (endReplay m).replayLimit := by
  unfold endReplay
  split
  · exact .inl rfl
  · next h => exact or_iff_not_imp_left.2 fun hne => not_lt.1 fun hlt => h ⟨hne, hlt⟩

/-- **A turn loses the rows of a reorganisation exactly if it replaced one block.** -/
theorem meets_turnAt (hw : w.Quiet) (latest : Nat) :
    Meets (turnAt env cfg latest) w
      ⟨fun _ w' => Rescans w w' ↔ ¬(w.mem.currentBlock ≤ latest ∧ ReplacesOneBlock env cfg w),
        fun _ _ => True, fun _ => True⟩ := by
  rw [turnAt, setMem, meets_modify_bind, getMem, meets_read_bind]
  -- what is checked before the hashes does not show in what is asked of them
  obtain ⟨w₁, hw₁⟩ : ∃ w₁ : World, w₁ = { w with mem := endReplay w.mem } := ⟨_, rfl⟩
  have hcursor : w₁.mem.currentBlock = w.mem.currentBlock := by
    rw [hw₁]
    exact endReplay_currentBlock w.mem
  have hlimit : w₁.mem.replayLimit = 0 ∨ w₁.mem.currentBlock ≤ w₁.mem.replayLimit := by
    rw [hw₁]
    exact endReplay_limit w.mem
  have hquiet : w₁.Quiet := by
    rw [hw₁]
    exact hw
  have hrolls : w₁.rollbacks = w.rollbacks := by rw [hw₁]
  have hone : ReplacesOneBlock env cfg w₁ ↔ ReplacesOneBlock env cfg w := by
    unfold ReplacesOneBlock
    rw [hcursor, hw₁]
  rw [← hw₁, hcursor]
  refine meets_ite (fun hfar => ?_) fun hnear => ?_
  · have hno : ¬w.mem.currentBlock ≤ latest := by simpa [bridgeNeedsScan] using hfar
    exact ⟨fun _ h => hno h.1, fun _ => rescans_of_eq hrolls⟩
  have hlatest : w₁.mem.currentBlock ≤ latest := by
    rw [hcursor]
    simpa [bridgeNeedsScan] using hnear
  rw [meets_bind]
  refine (meets_checkReorg hquiet).mono ?_ (fun _ _ _ => trivial) fun _ _ => trivial
  rintro back w₂ ⟨hlim, hback, hstay⟩
  cases back with
  | true =>
    obtain ⟨hres, hnone⟩ := hback rfl
    have hres' : Rescans w w₂ := by
      unfold Rescans at hres ⊢
      rwa [hrolls] at hres
    exact ⟨fun _ h => hnone (hone.2 h.2), fun _ => hres'⟩
  | false =>
    obtain ⟨hc, hcase⟩ := hstay rfl
    have hscan : Meets (scanTurn env cfg latest) w₂ _ :=
      meets_scanTurn_forward (hc ▸ hlatest) (by rw [hlim, hc]; exact hlimit)
    change Meets (do scanTurn env cfg latest; pure Turn.again) w₂ _
    rw [meets_bind]
    refine hscan.mono ?_ (fun _ _ _ => trivial) fun _ _ => trivial
    rintro _ w₃ ⟨hrolls₃, hforward⟩
    rcases hcase with ⟨hyes, hrolls₂, hpos⟩ | ⟨hno, hrolls₂⟩
    · have happend : w₃.rollbacks = w.rollbacks ++ [w₁.mem.currentBlock - 1] := by
        rw [hrolls₃, hrolls₂, hrolls]
      refine ⟨fun h => ?_, fun h => absurd ⟨hcursor ▸ hlatest, hone.1 hyes⟩ h⟩
      have hle := (rescans_append happend).1 h
      omega
    · have hsame : w₃.rollbacks = w.rollbacks := by rw [hrolls₃, hrolls₂, hrolls]
      exact ⟨fun _ h => hno (hone.2 h.2), fun _ => rescans_of_eq hsame⟩

theorem meets_periodicReorgCheck (hw : w.Quiet) :
    Meets (periodicReorgCheck env cfg) w
      ⟨fun _ w' => Rescans w w' ↔
          ¬(30000 ≤ env.clock w.now - w.mem.lastReorgCheck ∧ ReplacesOneBlock env cfg w),
        fun _ _ => True, fun _ => True⟩ := by
  rw [periodicReorgCheck, meets_read_bind, getMem, meets_read_bind]
  refine meets_ite (fun hdue => ?_) fun hearly => ?_
  · rw [setMem, meets_modify_bind]
    obtain ⟨w₁, hw₁⟩ : ∃ w₁ : World,
        w₁ = { w with mem := { w.mem with lastReorgCheck := env.clock w.now } } := ⟨_, rfl⟩
    have hquiet : w₁.Quiet := by
      rw [hw₁]
      exact hw
    have hrolls : w₁.rollbacks = w.rollbacks := by rw [hw₁]
    have hone : ReplacesOneBlock env cfg w₁ ↔ ReplacesOneBlock env cfg w := by rw [hw₁]; rfl
    rw [← hw₁]
    refine (meets_checkReorg hquiet).mono ?_ (fun _ _ h => h) fun _ h => h
    rintro back w₂ ⟨-, hback, hstay⟩
    cases back with
    | true =>
      obtain ⟨hres, hnone⟩ := hback rfl
      have hres' : Rescans w w₂ := by
        unfold Rescans at hres ⊢
        rwa [hrolls] at hres
      exact ⟨fun _ h => hnone (hone.2 h.2), fun _ => hres'⟩
    | false =>
      obtain ⟨hc, ⟨hyes, hrolls₂, hpos⟩ | ⟨hno, hrolls₂⟩⟩ := hstay rfl
      · refine ⟨fun h => ?_, fun h => absurd ⟨hdue, hone.1 hyes⟩ h⟩
        have hle := (rescans_append (hrolls₂.trans (by rw [hrolls]))).1 h
        omega
      · exact ⟨fun _ h => hno (hone.2 h.2), fun _ => rescans_of_eq (hrolls₂.trans hrolls)⟩
  · exact ⟨fun _ h => hearly h.1, fun _ => rescans_of_eq rfl⟩

/-! ### The deleted blocks are rescanned -/

/-- **After a reorganisation the deleted blocks are rescanned, unless only one block was
replaced**: for every turn of the run loop that comes to its end, and for every periodic
check of the live loop. -/
theorem rescans_iff_not_replacesOneBlock (env : Env) (cfg : Config) (w : World) (hw : w.Quiet) :
    (∀ latest turn w', turnAt env cfg latest w = (.ok turn, w') →
      (Rescans w w' ↔ ¬(w.mem.currentBlock ≤ latest ∧ ReplacesOneBlock env cfg w))) ∧
    (∀ back w', periodicReorgCheck env cfg w = (.ok back, w') →
      (Rescans w w' ↔ ¬(30000 ≤ env.clock w.now - w.mem.lastReorgCheck ∧
        ReplacesOneBlock env cfg w))) := by
  constructor
  · intro latest turn w' hrun
    exact (meets_turnAt hw latest).ok_of_eq hrun
  · intro back w' hrun
    exact (meets_periodicReorgCheck hw).ok_of_eq hrun

end Fork

/-! A chain of nine blocks whose block 5 was replaced after an indexer had stored its
hash. -/

/-- The node's hash of a block after the reorganisation. -/
def newHash (b : Nat) : Text := if b = 5 then "0xb5".toList else "0xa0".toList

/-- The node. -/
def reorgNode : Env where
  blockHash _ b := .ok (some (newHash b))
  getLogs _ _ := .ok []

/-- The indexer stored the hashes of blocks 4 and 5, and goes on with 6. -/
def staleWorld : World where
  conn := quiet { blockHashes := fun _ b =>
    if b = 4 then some "0xa0".toList else if b = 5 then some "0xa5".toList else none }
  mem := { currentBlock := 6 }

/-- The indexer also stored a hash of block 6, and goes on with 7. -/
def staleWorldTwo : World where
  conn := quiet { blockHashes := fun _ b =>
    if b = 4 then some "0xa0".toList else if b ≤ 6 then some "0xa5".toList else none }
  mem := { currentBlock := 7 }

theorem rescans_staleWorldTwo :
    Rescans staleWorldTwo (turnAt reorgNode plainConfig 9 staleWorldTwo).2 := by
  have hrun : (turnAt reorgNode plainConfig 9 staleWorldTwo).1 = .ok .again := by decide +kernel
  exact ((rescans_iff_not_replacesOneBlock reorgNode plainConfig staleWorldTwo rfl).1 9 .again _
    (Prod.ext hrun rfl)).2 (by decide +kernel)

/-- It rolls back to block 5, and goes on with block 10. -/
theorem rescans_staleWorld_false :
    (turnAt reorgNode plainConfig 9 staleWorld).1 = .ok .again ∧
      (turnAt reorgNode plainConfig 9 staleWorld).2.rollbacks = [5] ∧
      (turnAt reorgNode plainConfig 9 staleWorld).2.mem.currentBlock = 10 ∧
      ¬Rescans staleWorld (turnAt reorgNode plainConfig 9 staleWorld).2 := by
  have hrolls : (turnAt reorgNode plainConfig 9 staleWorld).2.rollbacks = [5] := by decide +kernel
  have hcursor : (turnAt reorgNode plainConfig 9 staleWorld).2.mem.currentBlock = 10 := by
    decide +kernel
  refine ⟨by decide +kernel, hrolls, hcursor, fun h => ?_⟩
  have hle := h 5 (by rw [hrolls]; exact List.mem_singleton_self 5)
  omega

end Zponder

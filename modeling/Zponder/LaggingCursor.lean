import Zponder.Rollback

/-!
# Going back from behind the fork

`handleRemovedLog`, `applyReorg` and `rewindChild` put the cursor on the block they are
told, and `rollbackFromBlock` puts the stored one there too, wherever they were. This is
going back as long as the cursor has passed that block. An indexer that has not – a child
that lags behind the fork of its parent, say – is moved forward over blocks it has not
seen.

What may become of the two cursors is a choice of scope (`Zponder.boundScope`). That the
condition cannot be weakened shows when the database is down
(`Zponder.downEnv`): then the row stays what it was and the memory is all that moves.
-/

namespace Zponder

open Imperative Prog Conn

/-- The stored cursor is not above `c`. -/
def Tables.StoredUpTo (key : Text) (c : Nat) (t : Tables) : Prop :=
  ∀ s, t.syncState key = some s → s.lastSyncedBlock ≤ c

/-- Neither of the two cursors of an indexer is above `c`. -/
structure UpTo (key : Text) (c : Nat) (m : Mem) (t : Tables) : Prop where
  memory : m.currentBlock ≤ c
  stored : t.StoredUpTo key c

/-- The block to go back to is one the cursor has passed, and so has the stored one. -/
structure Passed (f : Nat) (key : Text) (m : Mem) (t : Tables) : Prop where
  fork : f ≤ m.currentBlock
  stored : t.StoredUpTo key m.currentBlock

/-- Children that keep their cursor in another row. -/
def Apart (key : Text) (l : List Child) : Prop :=
  ∀ c ∈ l, c.cfg.stateKey ≠ key ∧ c.cfg.contract.address ≠ key

/-! ### When the database is down -/

/-- No statement goes through. -/
def downEnv : Env := { fault := fun _ _ => .fail .execFailed }

/-- Nothing is written, and nobody dies. -/
def stillFrame : Frame World where
  rel w w' := w.Quiet → w'.conn = w.conn
  dead _ _ := False
  refl _ _ := rfl
  trans h₁ h₂ hw := (h₂ ((congrArg Conn.txn (h₁ hw)).trans hw)).trans (h₁ hw)
  trans_dead _ h := h

/-- Nothing is written, and the program goes on. -/
def Idles {α : Type} (p : M α) : Prop :=
  ∀ w, Meets p w ⟨fun _ => stillFrame.rel w, fun _ _ => False, fun _ => False⟩

section Down

variable {cfg : Config} {f : Nat} {α β : Type}

theorem still_execWrite {call : DbCall} {g : Tables → Tables} :
    Within stillFrame (execWrite downEnv cfg call g) := by
  intro w
  simp only [execWrite, exec, meets_bind, meets_read, meets_onConn]
  intro hw
  rw [eq_quiet hw]
  rfl

theorem still_guarded {p : M α} (h : Within stillFrame p) : Within stillFrame (guarded p) :=
  within_bind (within_modify fun _ _ => rfl) fun _ => within_after h fun _ _ => rfl

/-- A transaction does not even begin. -/
theorem still_inTransaction {body : M Unit} :
    Within stillFrame (inTransaction downEnv cfg body) := by
  intro w
  simp only [inTransaction, beginWrite, guardEnter, meets_after, meets_bind, meets_modify,
    meets_read, meets_onErr, meets_onConn]
  intro hw
  change ({ w.conn with txn := _ } : Conn Tables) = w.conn
  rw [eq_quiet hw]
  rfl

theorem still_rollbackFromBlock {key name : Text} {events : List Text} {chain : Text} :
    Within stillFrame (rollbackFromBlock downEnv cfg key name events f chain) := by
  unfold rollbackFromBlock
  refine still_guarded ?_
  split
  · exact within_bind still_execWrite fun _ => still_execWrite
  · exact still_inTransaction

theorem idles_bind {p : M β} {q : β → M α} (hp : Idles p) (hq : ∀ b, Idles (q b)) :
    Idles (p >>= q) := fun w =>
  meets_bind.2 ((hp w).mono
    (fun b w₁ h₁ => (hq b w₁).mono (fun _ _ h₂ => stillFrame.trans h₁ h₂) (fun _ _ h => h)
      fun _ h => h) (fun _ _ h => h) fun _ h => h)

theorem idles_pure (a : α) : Idles (pure a) := fun w => stillFrame.refl w

theorem idles_modify {g : World → World} (h : ∀ w, (g w).conn = w.conn) :
    Idles (Prog.modify g) := fun w _ => h w

theorem idles_when {c : Prop} [Decidable c] {p : M Unit} (hp : Idles p) :
    Idles (Prog.when c p) := by
  unfold Prog.when
  split
  · exact hp
  · exact idles_pure ()

theorem idles_each {g : β → M Unit} : ∀ {xs : List β}, (∀ x ∈ xs, Idles (g x)) →
    Idles (Prog.each xs g)
  | [], _ => idles_pure ()
  | x :: _, h => idles_bind (h x List.mem_cons_self) fun _ =>
      idles_each fun y hy => h y (List.mem_cons_of_mem x hy)

theorem idles_gather {g : β → M (List α)} : ∀ {xs : List β}, (∀ x ∈ xs, Idles (g x)) →
    Idles (Prog.gather xs g)
  | [], _ => idles_pure _
  | x :: _, h => idles_bind (h x List.mem_cons_self) fun _ =>
      idles_bind (idles_gather fun y hy => h y (List.mem_cons_of_mem x hy)) fun _ => idles_pure _

theorem idles_ignoring {p : M Unit} (h : Within stillFrame p) : Idles (ignoring p) := fun w =>
  meets_catching.2 ((h w).mono (fun _ _ h => h) (fun _ _ h => h) fun _ h => h)

theorem idles_setMem {g : Mem → Mem} : Idles (setMem g) := idles_modify fun _ => rfl

theorem idles_getMem {g : Mem → α} : Idles (getMem g) := fun w => stillFrame.refl w

theorem idles_tick : Idles tick := idles_modify fun _ => rfl

theorem idles_forgetClones : Idles (forgetClones downEnv cfg f) := by
  have hdelete : Within stillFrame
      (deleteTemplateAddressesFromBlock downEnv cfg cfg.contract.name f) := by
    unfold deleteTemplateAddressesFromBlock
    refine still_guarded ?_
    split
    · exact within_throw _
    · exact still_execWrite
  have hadd : ∀ i a b, Within stillFrame
      (addTemplateAddress downEnv cfg i cfg.contract.name a b) := by
    intro i a b
    unfold addTemplateAddress
    refine still_guarded ?_
    split
    · exact within_throw _
    · exact still_execWrite
  refine idles_bind (idles_ignoring hdelete) fun _ => idles_bind idles_setMem fun _ => ?_
  exact idles_bind idles_getMem fun _ => idles_each fun _ _ => idles_ignoring (hadd _ _ _)

theorem idles_rollbackOwn : Idles (rollbackOwn downEnv cfg f) := by
  refine idles_bind (idles_modify fun _ => rfl) fun _ => ?_
  refine idles_bind (idles_ignoring still_rollbackFromBlock) fun _ => ?_
  exact idles_bind idles_setMem fun _ => idles_when idles_forgetClones

theorem idles_stopAndJoin : Idles (stopAndJoin downEnv cfg) := by
  refine idles_bind idles_setMem fun _ => idles_bind idles_getMem fun _ => ?_
  refine idles_bind (idles_when ?_) fun _ => idles_tick
  refine idles_bind idles_getMem fun _ => ?_
  exact idles_bind (idles_ignoring (still_guarded still_execWrite)) fun _ => idles_setMem

theorem idles_applyOwnReorg : Idles (applyOwnReorg downEnv cfg f) :=
  idles_bind idles_rollbackOwn fun _ => idles_bind idles_setMem fun _ => idles_tick

theorem idles_onChild {c : Child} {p : M Unit} (hp : Idles p) : Idles (onChild c p) := by
  refine idles_bind (fun w => ?_) fun _ => idles_pure _
  rw [meets_zoom, meets_bind]
  exact (hp _).mono (fun _ _ h => h) (fun _ _ h => h) fun _ h => h

theorem idles_discardChild {c : Child} : Idles (discardChild downEnv c) := by
  refine idles_bind (idles_onChild ?_) fun _ => ?_
  · exact idles_bind idles_stopAndJoin fun _ => idles_applyOwnReorg
  · exact idles_bind (idles_ignoring (still_guarded still_execWrite)) fun _ => idles_tick

theorem idles_rewindChild {c : Child} : Idles (rewindChild downEnv f c) :=
  idles_onChild (idles_bind idles_stopAndJoin fun _ => idles_bind idles_applyOwnReorg
    fun _ => idles_setMem)

theorem idles_reconcileChildren : Idles (reconcileChildren downEnv f) := by
  refine idles_bind (fun w => stillFrame.refl w) fun all => ?_
  refine idles_bind (idles_each fun _ _ => idles_discardChild) fun _ => ?_
  refine idles_bind (idles_gather fun _ _ => ?_) fun _ => idles_modify fun _ => rfl
  exact idles_bind idles_rewindChild fun _ => idles_pure _

/-- **A rollback that does not reach the database.** -/
theorem idles_rollbackTo : Idles (rollbackTo downEnv cfg f) := by
  refine idles_bind idles_rollbackOwn fun _ => ?_
  unfold onReorgCallback
  split
  · exact idles_pure ()
  · exact idles_when idles_reconcileChildren

end Down

/-! ### What becomes of the cursors -/

/-- The stored cursor at `key` does not pass `c`. -/
def boundScope (key : Text) (c : Nat) (mem : Frame Mem) (children : Frame (List Child)) :
    Scope where
  tables := .preserving (Tables.StoredUpTo key c)
  mem := mem
  handed := .any
  requests := .any
  children := children
  rollbacks := .any

section Bound

variable {env : Env} {cfg : Config} {w : World} {f c : Nat} {key : Text} {m : Frame Mem}
  {l : Frame (List Child)}

theorem Tables.storedUpTo_put {t : Tables} {s : SyncState} (hs : s.lastSyncedBlock ≤ c) :
    (t.putSyncState key s).StoredUpTo key c := by
  intro s' hs'
  obtain rfl : s = s' := by simpa [Tables.putSyncState] using hs'
  exact hs

theorem Tables.StoredUpTo.put_of_ne {t : Tables} {s : SyncState} {key' : Text}
    (h : t.StoredUpTo key c) (hne : key' ≠ key) : (t.putSyncState key' s).StoredUpTo key c := by
  intro s' hs'
  exact h s' (by simpa [Tables.putSyncState, Function.update_of_ne hne.symm] using hs')

theorem Tables.StoredUpTo.drop {t : Tables} {key' : Text} (h : t.StoredUpTo key c)
    (hne : key' ≠ key) : (t.dropSyncState key').StoredUpTo key c := by
  intro s' hs'
  exact h s' (by simpa [Tables.dropSyncState, Function.update_of_ne hne.symm] using hs')

theorem rollsBack_boundScope (hor : cfg.stateKey ≠ key ∨ f ≤ c) (hm : ∀ m₁ m₂, m.rel m₁ m₂) :
    (boundScope key c m l).RollsBack cfg f where
  events _ _ h := h
  snapshots _ h := h
  blockHashes _ h := h
  syncState _ ht := by
    rcases hor with hkey | hf
    · exact ht.put_of_ne hkey
    · by_cases hkey : cfg.stateKey = key
      · exact hkey ▸ Tables.storedUpTo_put hf
      · exact ht.put_of_ne hkey
  projections _ _ h := h
  cache _ h := h
  ranges _ _ h := h
  blocks _ h := h
  rawLogs _ h := h
  clones _ _ h := h
  memory _ _ _ _ := hm _ _

theorem reconciles_boundScope {k : Child} (hkey : k.cfg.stateKey ≠ key)
    (haddress : k.cfg.contract.address ≠ key) : (boundScope key c m l).Reconciles k f where
  stops _ _ h := h.put_of_ne hkey
  drops _ h := h.drop haddress
  rewinds _ := rollsBack_boundScope (l := .any) (.inl hkey) fun _ _ => trivial
  discards _ := rollsBack_boundScope (l := .any) (.inl hkey) fun _ _ => trivial

/-- What a program within the scope does not let happen. -/
theorem meets_bound {α : Type} {p : M α} (hp : Within (boundScope key c m l).frame p)
    (hw : w.Quiet) (hstored : w.db.StoredUpTo key c) :
    Meets p w ⟨fun _ w' => w'.Quiet ∧ w'.db.StoredUpTo key c ∧ m.rel w.mem w'.mem ∧
      l.rel w.children w'.children, fun _ _ => True, fun _ => True⟩ :=
  (hp w).mono
    (fun _ _ h => ⟨h.2 hw, Linked.quiet h.1.tables hw hstored, h.1.mem, h.1.children⟩)
    (fun _ _ _ => trivial) fun _ _ => trivial

/-- **A rollback to a block the cursor has passed.** -/
theorem meets_rollbackTo_bound (hw : w.Quiet) (hf : f ≤ c)
    (hstored : w.db.StoredUpTo cfg.stateKey c) (hkids : Apart cfg.stateKey w.children) :
    Meets (rollbackTo env cfg f) w ⟨fun _ w' => w'.Quiet ∧ w'.db.StoredUpTo cfg.stateKey c,
      fun _ _ => True, fun _ => True⟩ := by
  have hown : Within (boundScope cfg.stateKey c .any (.keeping id)).frame
      (rollbackOwn env cfg f) :=
    within_rollbackOwn (rollsBack_boundScope (.inr hf) fun _ _ => trivial) fun _ => trivial
  rw [rollbackTo, meets_bind]
  refine (meets_bound hown hw hstored).mono ?_ (fun _ _ h => h) fun _ h => h
  rintro _ w₁ ⟨hw₁, hstored₁, -, hsame⟩
  unfold onReorgCallback
  split
  · exact ⟨hw₁, hstored₁⟩
  · refine meets_when (fun _ => ?_) fun _ => ⟨hw₁, hstored₁⟩
    have hreconcile : Meets (reconcileChildren env f) w₁ _ :=
      meets_reconcileChildren (S := boundScope cfg.stateKey c .any .any) (fun k hk => ?_)
        fun _ _ => trivial
    · exact hreconcile.mono
        (fun _ _ h => ⟨h.2 hw₁, Linked.quiet h.1.tables hw₁ hstored₁⟩)
        (fun _ _ _ => trivial) fun _ _ => trivial
    · have hchildren : w₁.children = w.children := hsame
      have hk' := hkids k (hchildren ▸ hk)
      exact reconciles_boundScope hk'.1 hk'.2

theorem meets_handleRemovedLog_bound (hw : w.Quiet) (hf : f ≤ c)
    (hstored : w.db.StoredUpTo cfg.stateKey c) (hkids : Apart cfg.stateKey w.children) :
    Meets (handleRemovedLog env cfg f) w
      ⟨fun _ w' => UpTo cfg.stateKey c w'.mem w'.db, fun _ _ => True, fun _ => True⟩ := by
  rw [handleRemovedLog, meets_bind]
  refine (meets_rollbackTo_bound hw hf hstored hkids).mono ?_ (fun _ _ h => h) fun _ h => h
  rintro _ w₁ ⟨hw₁, hstored₁⟩
  change Meets (setMem _ >>= fun _ => _) w₁ _
  rw [setMem, meets_modify_bind]
  have hupsert : Within (boundScope cfg.stateKey c (.keeping id) .any).frame
      (do ignoring (upsertSyncState env cfg cfg.stateKey f "running".toList); tick) :=
    within_bind (within_ignoring (within_upsertSyncState fun _ _ => Tables.storedUpTo_put hf))
      fun _ => within_tick
  refine (meets_bound hupsert (by exact hw₁) (by exact hstored₁)).mono ?_ (fun _ _ h => h)
    fun _ h => h
  rintro _ w₂ ⟨-, hstored₂, hmem, -⟩
  have hmem : w₂.mem.currentBlock = f := congrArg Mem.currentBlock hmem
  exact ⟨hmem.trans_le hf, hstored₂⟩

theorem meets_applyReorg_bound (hw : w.Quiet) (hf : f ≤ c)
    (hstored : w.db.StoredUpTo cfg.stateKey c) (hkids : Apart cfg.stateKey w.children) :
    Meets (applyReorg env cfg f) w
      ⟨fun _ w' => UpTo cfg.stateKey c w'.mem w'.db, fun _ _ => True, fun _ => True⟩ := by
  rw [applyReorg, meets_bind]
  refine (meets_rollbackTo_bound hw hf hstored hkids).mono ?_ (fun _ _ h => h) fun _ h => h
  rintro _ w₁ ⟨-, hstored₁⟩
  exact ⟨hf, hstored₁⟩

/-! ### A child that stays -/

/-- The child is back, on block `f`. -/
def Back (k : Child) (f : Nat) (k' : Child) : Prop := k'.cfg = k.cfg ∧ k'.mem.currentBlock = f

/-- Wherever a child was, it goes on from the block it is told. -/
theorem meets_rewindChild {k : Child} : Meets (rewindChild env f k) w
    ⟨fun k' _ => Back k f k', fun _ _ => True, fun _ => True⟩ := by
  simp only [rewindChild, onChild, applyOwnReorg, meets_bind, meets_zoom, meets_pure]
  refine (meets_trivial _ _).mono (fun _ w₁ _ => ?_) (fun _ _ _ => trivial) fun _ _ => trivial
  refine (meets_trivial _ w₁).mono (fun _ w₂ _ => ?_) (fun _ _ _ => trivial) fun _ _ => trivial
  refine ⟨rfl, ?_⟩
  simp only [id]
  split <;> rfl

/-- On its way out the run loop of a child writes a cursor that is not above its own. -/
theorem meets_stopAndJoin_bound (hw : w.Quiet) (hm : w.mem.currentBlock ≤ c)
    (hstored : w.db.StoredUpTo cfg.stateKey c) :
    Meets (stopAndJoin env cfg) w ⟨fun _ w' => w'.Quiet ∧ w'.db.StoredUpTo cfg.stateKey c,
      fun _ _ => True, fun _ => True⟩ := by
  rw [stopAndJoin, setMem, meets_modify_bind, getMem, meets_read_bind, meets_bind]
  refine meets_when (fun _ => ?_) fun _ => ⟨hw, hstored⟩
  rw [getMem, meets_read_bind]
  have hupsert : Within (boundScope cfg.stateKey c .any .any).frame (do
      ignoring (upsertSyncState env cfg cfg.stateKey w.mem.currentBlock "stopped".toList)
      setMem fun m => { m with thread := false }) :=
    within_bind (within_ignoring (within_upsertSyncState fun _ _ => Tables.storedUpTo_put hm))
      fun _ => within_setMem fun _ => trivial
  refine (meets_bound hupsert (by exact hw) (by exact hstored)).mono ?_ (fun _ _ h => h)
    fun _ h => h
  rintro _ w₂ ⟨hw₂, hstored₂, -⟩
  exact ⟨hw₂, hstored₂⟩

theorem meets_rewindChild_bound {k : Child} (hw : w.Quiet) (hf : f ≤ c)
    (hm : k.mem.currentBlock ≤ c) (hstored : w.db.StoredUpTo k.cfg.stateKey c) :
    Meets (rewindChild env f k) w
      ⟨fun _ w' => w'.Quiet ∧ w'.db.StoredUpTo k.cfg.stateKey c, fun _ _ => True,
        fun _ => True⟩ := by
  simp only [rewindChild, onChild, meets_bind, meets_zoom, meets_pure]
  refine (meets_stopAndJoin_bound (by exact hw) hm (by exact hstored)).mono ?_
    (fun _ _ h => h) fun _ h => h
  rintro _ w₁ ⟨hw₁, hstored₁⟩
  have hreorg : Within (boundScope k.cfg.stateKey c .any .any).frame (applyOwnReorg env k.cfg f) :=
    within_applyOwnReorg (rollsBack_boundScope (.inr hf) fun _ _ => trivial) (fun _ => trivial)
      fun _ _ => trivial
  refine (meets_bound hreorg hw₁ hstored₁).mono ?_ (fun _ _ h => h) fun _ h => h
  rintro _ w₂ ⟨hw₂, hstored₂, -⟩
  exact ⟨hw₂, hstored₂⟩

/-- What is known while the survivors are rewound, those of `xs` being still to come: either
the child is among them, and then only once, or it is back. -/
def Rewinding (k : Child) (f c : Nat) (xs done : List Child) (w : World) : Prop :=
  w.Quiet ∧ w.db.StoredUpTo k.cfg.stateKey c ∧
    ((∃ pre post, xs = pre ++ k :: post ∧ Apart k.cfg.stateKey (pre ++ post)) ∨
      Apart k.cfg.stateKey xs ∧ ∃ k' ∈ done, Back k f k')

theorem meets_rewind_step {k : Child} (hf : f ≤ c) (hm : k.mem.currentBlock ≤ c) (x : Child)
    (xs done : List Child) (h : Rewinding k f c (x :: xs) done w) :
    Meets (do let x' ← rewindChild env f x; pure [x']) w
      ⟨fun here => Rewinding k f c xs (done ++ here), fun _ _ => True, fun _ => True⟩ := by
  obtain ⟨hw, hstored, hor⟩ := h
  have hother : x.cfg.stateKey ≠ k.cfg.stateKey → x.cfg.contract.address ≠ k.cfg.stateKey →
      Meets (rewindChild env f x) w ⟨fun _ w' => w'.Quiet ∧ w'.db.StoredUpTo k.cfg.stateKey c,
        fun _ _ => True, fun _ => True⟩ := fun hkey haddress =>
    (meets_bound (within_rewindChild (S := boundScope k.cfg.stateKey c .any .any)
      (reconciles_boundScope hkey haddress (f := f)).stops
      (rollsBack_boundScope (l := .any) (.inl hkey) fun _ _ => trivial)) hw hstored).mono
      (fun _ _ h => ⟨h.1, h.2.1⟩) (fun _ _ h => h) fun _ h => h
  rw [meets_bind]
  rcases hor with ⟨_ | ⟨y, pre⟩, post, heq, hapart⟩ | ⟨hapart, k', hk', hback⟩
  · -- it is the child's turn
    obtain ⟨rfl, rfl⟩ := List.cons.inj heq
    refine ((meets_rewindChild_bound hw hf hm hstored).and meets_rewindChild).mono ?_
      (fun _ _ _ => trivial) fun _ _ => trivial
    rintro k' w' ⟨⟨hw', hstored'⟩, hback⟩
    exact ⟨hw', hstored', .inr ⟨hapart, k', by simp, hback⟩⟩
  · obtain ⟨rfl, rfl⟩ := List.cons.inj heq
    have hx := hapart x (by simp)
    refine (hother hx.1 hx.2).mono ?_ (fun _ _ h => h) fun _ h => h
    rintro x' w' ⟨hw', hstored'⟩
    exact ⟨hw', hstored', .inl ⟨pre, post, rfl, fun y hy => hapart y (List.mem_cons_of_mem x hy)⟩⟩
  · have hx := hapart x List.mem_cons_self
    refine (hother hx.1 hx.2).mono ?_ (fun _ _ h => h) fun _ h => h
    rintro x' w' ⟨hw', hstored'⟩
    exact ⟨hw', hstored', .inr ⟨fun y hy => hapart y (List.mem_cons_of_mem x hy), k',
      List.mem_append_left _ hk', hback⟩⟩

/-- **A child that stays**, when the block to go back to is one it has passed. -/
theorem meets_reconcileChildren_bound {k : Child} {pre post : List Child}
    (hkids : w.children = pre ++ k :: post) (hstays : k.cfg.contract.fromBlock < f)
    (hapart : Apart k.cfg.stateKey (pre ++ post)) (hw : w.Quiet) (hf : f ≤ c)
    (hm : k.mem.currentBlock ≤ c) (hstored : w.db.StoredUpTo k.cfg.stateKey c) :
    Meets (reconcileChildren env f) w
      ⟨fun _ w' => ∃ k' ∈ w'.children, k'.cfg = k.cfg ∧ UpTo k.cfg.stateKey c k'.mem w'.db,
        fun _ _ => True, fun _ => True⟩ := by
  rw [reconcileChildren, meets_read_bind, meets_bind, hkids]
  have hdoomed : Within (boundScope k.cfg.stateKey c .any .any).frame
      (Prog.each ((pre ++ k :: post).filter fun x => decide (x.cfg.contract.fromBlock ≥ f))
        (discardChild env)) := by
    refine within_each fun x hx => ?_
    obtain ⟨hmem, hgone⟩ := List.mem_filter.1 hx
    have hne : x ∈ pre ++ post := by
      rcases List.mem_append.1 hmem with h | h
      · exact List.mem_append_left _ h
      · refine List.mem_append_right _ ((List.mem_cons.1 h).resolve_left ?_)
        rintro rfl
        exact absurd hstays (by simpa using hgone)
    have hx := hapart x hne
    have hkids := reconciles_boundScope (m := .any) (l := .any) (c := c) hx.1 hx.2 (f := f)
    exact within_discardChild (S := boundScope k.cfg.stateKey c .any .any) hkids.stops hkids.drops
      (rollsBack_boundScope (l := .any) (.inl hx.1) fun _ _ => trivial)
  refine (meets_bound hdoomed hw hstored).mono ?_ (fun _ _ h => h) fun _ h => h
  rintro _ w₁ ⟨hw₁, hstored₁, -⟩
  have hsplit : (pre ++ k :: post).filter (fun x => !decide (x.cfg.contract.fromBlock ≥ f)) =
      pre.filter (fun x => !decide (x.cfg.contract.fromBlock ≥ f)) ++
        k :: post.filter fun x => !decide (x.cfg.contract.fromBlock ≥ f) := by
    simp [List.filter_append, hstays]
  have hkept : Apart k.cfg.stateKey
      (pre.filter (fun x => !decide (x.cfg.contract.fromBlock ≥ f)) ++
        post.filter fun x => !decide (x.cfg.contract.fromBlock ≥ f)) := by
    intro x hx
    rw [← List.filter_append] at hx
    exact hapart x (List.mem_filter.1 hx).1
  have hstart : Rewinding k f c
      ((pre ++ k :: post).filter fun x => !decide (x.cfg.contract.fromBlock ≥ f)) [] w₁ :=
    ⟨hw₁, hstored₁, .inl ⟨_, _, hsplit, hkept⟩⟩
  refine meets_bind.2 <| (meets_gather (E := fun _ _ => True) (D := fun _ => True)
    (fun x xs done t h => meets_rewind_step hf hm x xs done h) hstart).mono ?_
    (fun _ _ h => h) fun _ h => h
  rintro rewound w₂ ⟨-, hstored₂, ⟨pre', post', hnil, -⟩ | ⟨-, k', hk', hcfg, hcursor⟩⟩
  · simp at hnil
  · exact ⟨k', by simpa using hk', hcfg, hcursor.trans_le hf, hstored₂⟩

end Bound

/-! ### The condition -/

section Condition

variable {env : Env} {cfg : Config} {w : World} {f : Nat}

theorem meets_handleRemovedLog_cursor : Meets (handleRemovedLog env cfg f) w
    ⟨fun _ w' => w'.mem.currentBlock = f, fun _ _ => True, fun _ => True⟩ := by
  rw [handleRemovedLog, meets_bind]
  refine (meets_trivial _ w).mono (fun _ w₁ _ => ?_) (fun _ _ _ => trivial) fun _ _ => trivial
  change Meets (setMem _ >>= fun _ => _) w₁ _
  rw [setMem, meets_modify_bind]
  have hupsert : Within (boundScope cfg.stateKey f (.keeping id) .any).frame
      (do ignoring (upsertSyncState env cfg cfg.stateKey f "running".toList); tick) :=
    within_bind (within_ignoring (within_upsertSyncState fun _ _ => Tables.storedUpTo_put le_rfl))
      fun _ => within_tick
  exact (hupsert _).mono (fun _ _ h => congrArg Mem.currentBlock h.1.mem) (fun _ _ _ => trivial)
    fun _ _ => trivial

theorem meets_applyReorg_cursor : Meets (applyReorg env cfg f) w
    ⟨fun _ w' => w'.mem.currentBlock = f, fun _ _ => True, fun _ => True⟩ := by
  rw [applyReorg, meets_bind]
  exact (meets_trivial _ w).mono (fun _ _ _ => rfl) (fun _ _ _ => trivial) fun _ _ => trivial

theorem meets_reconcileChildren_cursor : Meets (reconcileChildren env f) w
    ⟨fun _ w' => ∀ k' ∈ w'.children, k'.mem.currentBlock = f, fun _ _ => True,
      fun _ => True⟩ := by
  rw [reconcileChildren, meets_read_bind, meets_bind]
  refine (meets_trivial _ w).mono (fun _ w₁ _ => ?_) (fun _ _ _ => trivial) fun _ _ => trivial
  have hstep : ∀ (x : Child) (xs done : List Child) (t : World),
      (∀ k' ∈ done, k'.mem.currentBlock = f) →
      Meets (do let x' ← rewindChild env f x; pure [x']) t
        ⟨fun here _ => ∀ k' ∈ done ++ here, k'.mem.currentBlock = f, fun _ _ => True,
          fun _ => True⟩ := by
    intro x _ done t h
    rw [meets_bind]
    refine meets_rewindChild.mono ?_ (fun _ _ h => h) fun _ h => h
    rintro x' w' ⟨-, hcursor⟩ k' hk'
    rcases List.mem_append.1 hk' with hk' | hk'
    · exact h k' hk'
    · exact List.mem_singleton.1 hk' ▸ hcursor
  have hnone : ∀ k' ∈ ([] : List Child), k'.mem.currentBlock = f := by simp
  have hall := meets_gather
    (I := fun _ (done : List Child) _ => ∀ k' ∈ done, k'.mem.currentBlock = f) hstep
    (l := w.children.filter fun x => !decide (x.cfg.contract.fromBlock ≥ f)) (t := w₁) hnone
  refine meets_bind.2 (hall.mono ?_ (fun _ _ h => h) fun _ h => h)
  intro rewound w₂ h k' hk'
  exact h k' (by simpa using hk')

/-- What an idle program and its cursor come to. -/
theorem Idles.run {p : M Unit} {Q : World → Prop} (hp : Idles p) (hw : w.Quiet)
    (hQ : Meets p w ⟨fun _ => Q, fun _ _ => True, fun _ => True⟩) :
    ∃ w', p w = (.ok (), w') ∧ w'.conn = w.conn ∧ Q w' := by
  have h := (hp w).and hQ
  rcases hrun : p w with ⟨_ | _ | _, w'⟩
  · exact ⟨w', rfl, (h.ok_of_eq hrun).1 hw, (h.ok_of_eq hrun).2⟩
  · exact (h.err_of_eq hrun).1.elim
  · exact (h.dead_of_eq hrun).1.elim

theorem idles_handleRemovedLog : Idles (handleRemovedLog downEnv cfg f) := by
  refine idles_bind idles_rollbackTo fun _ => idles_bind idles_setMem fun _ => ?_
  exact idles_bind (idles_ignoring (still_guarded still_execWrite)) fun _ => idles_tick

theorem idles_applyReorg : Idles (applyReorg downEnv cfg f) :=
  idles_bind idles_rollbackTo fun _ => idles_bind idles_setMem fun _ => idles_tick

/-- **Going back does not move a cursor forward** if and only if there is something to go
back over: for a removed log and for a fork, whatever the indexer, and for each of the
children that stay when the parent reports one. -/
theorem upTo_iff_passed (hw : w.Quiet) :
    (Apart cfg.stateKey w.children →
      ((∀ env w', handleRemovedLog env cfg f w = (.ok (), w') →
          UpTo cfg.stateKey w.mem.currentBlock w'.mem w'.db) ↔
        Passed f cfg.stateKey w.mem w.db) ∧
      ((∀ env w', applyReorg env cfg f w = (.ok (), w') →
          UpTo cfg.stateKey w.mem.currentBlock w'.mem w'.db) ↔
        Passed f cfg.stateKey w.mem w.db)) ∧
    ∀ pre k post, w.children = pre ++ k :: post → k.cfg.contract.fromBlock < f →
      Apart k.cfg.stateKey (pre ++ post) →
      ((∀ env w', reconcileChildren env f w = (.ok (), w') →
          ∃ k' ∈ w'.children, k'.cfg = k.cfg ∧
            UpTo k.cfg.stateKey k.mem.currentBlock k'.mem w'.db) ↔
        Passed f k.cfg.stateKey k.mem w.db) := by
  refine ⟨fun hkids => ⟨⟨fun h => ?_, fun h env w' hrun => ?_⟩,
    ⟨fun h => ?_, fun h env w' hrun => ?_⟩⟩,
    fun pre k post hchildren hstays hapart => ⟨fun h => ?_, fun h env w' hrun => ?_⟩⟩
  · obtain ⟨w', hrun, hconn, hcursor⟩ :=
      idles_handleRemovedLog.run hw (@meets_handleRemovedLog_cursor downEnv cfg w f)
    have hupTo := h downEnv w' hrun
    exact ⟨hcursor ▸ hupTo.memory, by simpa [World.db, hconn] using hupTo.stored⟩
  · exact (meets_handleRemovedLog_bound hw h.fork h.stored hkids).ok_of_eq hrun
  · obtain ⟨w', hrun, hconn, hcursor⟩ :=
      idles_applyReorg.run hw (@meets_applyReorg_cursor downEnv cfg w f)
    have hupTo := h downEnv w' hrun
    exact ⟨hcursor ▸ hupTo.memory, by simpa [World.db, hconn] using hupTo.stored⟩
  · exact (meets_applyReorg_bound hw h.fork h.stored hkids).ok_of_eq hrun
  · obtain ⟨w', hrun, hconn, hcursor⟩ :=
      idles_reconcileChildren.run hw (meets_reconcileChildren_cursor (f := f))
    obtain ⟨k', hk', -, hupTo⟩ := h downEnv w' hrun
    exact ⟨hcursor k' hk' ▸ hupTo.memory, by simpa [World.db, hconn] using hupTo.stored⟩
  · exact (meets_reconcileChildren_bound hchildren hstays hapart hw h.fork le_rfl
      h.stored).ok_of_eq hrun

end Condition

/-- A child of a factory, found on block 20, that has come to block 100. -/
def lateChild : Child where
  cfg := { plainConfig with
    contract := { name := "k".toList, address := "0xBB".toList, events := [], fromBlock := 20 } }
  mem := { currentBlock := 100 }

/-- Its parent has come to block 300. -/
def familyWorld : World :=
  { freshWorld with mem := { currentBlock := 300 }, children := [lateChild] }

theorem upTo_iff_passed_family :
    (∀ env w', handleRemovedLog env plainConfig 50 familyWorld = (.ok (), w') →
      UpTo "0xAA".toList 300 w'.mem w'.db) ∧
    ∀ env w', reconcileChildren env 50 familyWorld = (.ok (), w') →
      ∃ k' ∈ w'.children, k'.cfg = lateChild.cfg ∧ UpTo "0xBB".toList 100 k'.mem w'.db := by
  have h := @upTo_iff_passed plainConfig familyWorld 50 rfl
  have hparent : Apart plainConfig.stateKey familyWorld.children := by
    intro c hc
    obtain rfl := List.mem_singleton.1 hc
    decide
  refine ⟨((h.1 hparent).1).2 ⟨by decide, ?_⟩,
    (h.2 [] lateChild [] rfl (by decide) (by simp [Apart])).2 ⟨by decide, ?_⟩⟩
  · simp [Tables.StoredUpTo, familyWorld, freshWorld, World.db]
  · simp [Tables.StoredUpTo, familyWorld, freshWorld, World.db]

/-- The fork of the parent is on block 200: the child goes on from there and leaves out the
blocks from 100 on. -/
theorem moved_over_unseen :
    ∃ w', reconcileChildren {} 200 familyWorld = (.ok (), w') ∧
      w'.children.map (·.mem.currentBlock) = [200] ∧
      ∀ k' ∈ w'.children, ¬UpTo "0xBB".toList 100 k'.mem w'.db := by
  have hcursor : (reconcileChildren {} 200 familyWorld).2.children.map (·.mem.currentBlock) =
      [200] := by decide +kernel
  have hok : (reconcileChildren {} 200 familyWorld).1 = .ok () := by decide +kernel
  refine ⟨(reconcileChildren {} 200 familyWorld).2, Prod.ext hok rfl, hcursor,
    fun k' hk' h => ?_⟩
  have hmem : k'.mem.currentBlock ∈ [200] := hcursor ▸ List.mem_map_of_mem hk'
  have hle : k'.mem.currentBlock ≤ 100 := h.memory
  rw [List.mem_singleton] at hmem
  omega

end Zponder

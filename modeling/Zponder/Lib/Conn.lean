import Zponder.Lib.Prog

/-!
# One connection to a transactional store

A store holds a value of some type `τ` of tables; a connection sees the committed
value and, while a transaction is open, a working copy that nobody else sees. The
programs of this file are the statements a client can send: `begin`, `stmt`,
`commit`, `rollback`, and `side`, a read through a second connection, which sees
committed data only. Each takes a `Fault`, the environment's word on whether the
statement goes through, fails, or is the last thing the process does.

Two kinds of engine are covered by one parameter (`Engine.poisons`). In the first a
failed statement leaves the open transaction as it was. In the second it
poisons the transaction: every later statement of it fails, and its `COMMIT`
succeeds as a command but rolls back. A `ROLLBACK` ends the transaction in both,
also when it reports an error – the only errors it has are that there is no
transaction any more.

What a client needs from all this is rarely the working copy itself.
`Conn.Linked` lifts a frame on tables to connections by asking it of everything
that is, or may still become, committed; every statement that respects the frame
on tables respects the lifted one, transaction or not, which lets a client ignore
transactions wherever atomicity is not the point.
-/

namespace Imperative

/-- What the environment does to one statement. -/
inductive Fault (ε : Type) where
  /-- the statement is carried out -/
  | none
  /-- the statement reports `e` and has no effect -/
  | fail (e : ε)
  /-- the process dies before the statement -/
  | crash
  deriving DecidableEq, Repr

/-- The same fault under another name for its error. -/
def Fault.map {ε ε' : Type} (f : ε → ε') : Fault ε → Fault ε'
  | .none => .none
  | .fail e => .fail (f e)
  | .crash => .crash

@[simp] theorem Fault.map_none {ε ε' : Type} (f : ε → ε') : Fault.map f .none = .none := rfl
@[simp] theorem Fault.map_fail {ε ε' : Type} (f : ε → ε') (e : ε) :
    Fault.map f (.fail e) = .fail (f e) := rfl
@[simp] theorem Fault.map_crash {ε ε' : Type} (f : ε → ε') : Fault.map f .crash = .crash := rfl

/-- The engine's own habits. -/
structure Engine (ε : Type) where
  /-- A failed statement poisons the open transaction. -/
  poisons : Bool
  /-- The error of a command the transaction state does not allow. -/
  misuse : ε

/-- An open transaction. -/
structure Txn (τ : Type) where
  work : τ
  poisoned : Bool

/-- A connection: the committed tables and the open transaction, if any. -/
structure Conn (τ : Type) where
  committed : τ
  txn : Option (Txn τ)

namespace Conn

variable {τ ε α : Type}

/-- A connection with no transaction open. -/
def quiet (t : τ) : Conn τ := ⟨t, none⟩

/-- A connection inside a healthy transaction. -/
def opened (t u : τ) : Conn τ := ⟨t, some ⟨u, false⟩⟩

/-- A connection inside a poisoned transaction. -/
def spoilt (t u : τ) : Conn τ := ⟨t, some ⟨u, true⟩⟩

/-- The tables as the connection itself sees them. -/
def view (c : Conn τ) : τ :=
  match c.txn with
  | none => c.committed
  | some x => x.work

/-- What is left when the process or the transaction is gone. -/
def lost (c : Conn τ) : Conn τ := { c with txn := none }

/-- The connection after a failed statement. -/
def hurt (eng : Engine ε) (c : Conn τ) : Conn τ :=
  { c with txn := c.txn.map fun x => { x with poisoned := x.poisoned || eng.poisons } }

@[simp] theorem quiet_committed (t : τ) : (quiet t).committed = t := rfl
@[simp] theorem quiet_txn (t : τ) : (quiet t).txn = none := rfl
@[simp] theorem quiet_view (t : τ) : (quiet t).view = t := rfl
@[simp] theorem lost_committed (c : Conn τ) : c.lost.committed = c.committed := rfl
@[simp] theorem lost_txn (c : Conn τ) : c.lost.txn = none := rfl
@[simp] theorem quiet_lost (t : τ) : (quiet t).lost = quiet t := rfl
@[simp] theorem opened_lost (t u : τ) : (opened t u).lost = quiet t := rfl
@[simp] theorem spoilt_lost (t u : τ) : (spoilt t u).lost = quiet t := rfl
@[simp] theorem quiet_hurt (eng : Engine ε) (t : τ) : (quiet t).hurt eng = quiet t := rfl

theorem eq_quiet {c : Conn τ} (h : c.txn = none) : c = quiet c.committed := by
  cases c
  simp_all [quiet]

/-! ### The statements -/

/-- Open a transaction. -/
def «begin» (eng : Engine ε) (φ : Fault ε) : Prog (Conn τ) ε Unit := fun c =>
  match φ, c.txn with
  | .crash, _ => (.crash, c.lost)
  | .fail e, _ => (.err e, c.hurt eng)
  | .none, none => (.ok (), opened c.committed c.committed)
  | .none, some _ => if eng.poisons then (.ok (), c) else (.err eng.misuse, c)

/-- A statement that answers `(g t).1` and turns the tables `t` into `(g t).2`. -/
def stmt (eng : Engine ε) (φ : Fault ε) (g : τ → α × τ) : Prog (Conn τ) ε α := fun c =>
  match φ, c.txn with
  | .crash, _ => (.crash, c.lost)
  | .fail e, _ => (.err e, c.hurt eng)
  | .none, none => (.ok (g c.committed).1, quiet (g c.committed).2)
  | .none, some ⟨u, false⟩ => (.ok (g u).1, opened c.committed (g u).2)
  | .none, some ⟨_, true⟩ => (.err eng.misuse, c)

/-- A read through a second connection. -/
def side (φ : Fault ε) (g : τ → α) : Prog (Conn τ) ε α := fun c =>
  match φ with
  | .crash => (.crash, c.lost)
  | .fail e => (.err e, c)
  | .none => (.ok (g c.committed), c)

/-- The process dies of itself. -/
def vanish : Prog (Conn τ) ε α := fun c => (.crash, c.lost)

/-- End the transaction, keeping its work if it is healthy. -/
def commit (eng : Engine ε) (φ : Fault ε) : Prog (Conn τ) ε Unit := fun c =>
  match φ, c.txn with
  | .crash, _ => (.crash, c.lost)
  | .fail e, _ => (.err e, c.hurt eng)
  | .none, none => if eng.poisons then (.ok (), c) else (.err eng.misuse, c)
  | .none, some ⟨u, false⟩ => (.ok (), quiet u)
  | .none, some ⟨_, true⟩ => (.ok (), c.lost)

/-- End the transaction, dropping its work. Errors are not reported. -/
def rollback (φ : Fault ε) : Prog (Conn τ) Empty Unit := fun c =>
  match φ with
  | .crash => (.crash, c.lost)
  | _ => (.ok (), c.lost)

section Run

variable (eng : Engine ε) (g : τ → α × τ) (t u : τ)

@[simp] theorem begin_quiet :
    «begin» eng .none (quiet t) = (.ok (), opened t t) := rfl

@[simp] theorem stmt_quiet :
    stmt eng .none g (quiet t) = (.ok (g t).1, quiet (g t).2) := rfl

@[simp] theorem stmt_opened :
    stmt eng .none g (opened t u) = (.ok (g u).1, opened t (g u).2) := rfl

@[simp] theorem stmt_spoilt : stmt eng .none g (spoilt t u) = (.err eng.misuse, spoilt t u) := rfl

@[simp] theorem commit_opened : commit eng .none (opened t u) = (.ok (), quiet u) := rfl

@[simp] theorem commit_spoilt : commit eng .none (spoilt t u) = (.ok (), quiet t) := rfl

@[simp] theorem begin_fail (e : ε) (c : Conn τ) :
    «begin» eng (.fail e) c = (.err e, c.hurt eng) := rfl

@[simp] theorem stmt_fail (e : ε) (c : Conn τ) :
    stmt eng (.fail e) g c = (.err e, c.hurt eng) := rfl

@[simp] theorem commit_fail (e : ε) (c : Conn τ) :
    commit eng (.fail e) c = (.err e, c.hurt eng) := rfl

@[simp] theorem begin_crash (c : Conn τ) : «begin» eng .crash c = (.crash, c.lost) := rfl

@[simp] theorem stmt_crash (c : Conn τ) : stmt eng .crash g c = (.crash, c.lost) := rfl

@[simp] theorem commit_crash (c : Conn τ) : commit eng .crash c = (.crash, c.lost) := rfl

/-- A rollback ends the transaction whatever the environment does. -/
theorem rollback_eq (φ : Fault ε) (c : Conn τ) :
    rollback φ c = (.ok (), c.lost) ∨ rollback φ c = (.crash, c.lost) := by
  cases φ
  · exact .inl rfl
  · exact .inl rfl
  · exact .inr rfl

/-- A failed statement inside a transaction leaves it open, and poisoned where the
engine poisons. -/
theorem hurt_opened : (opened t u).hurt eng = if eng.poisons then spoilt t u else opened t u := by
  cases h : eng.poisons <;> simp [hurt, opened, spoilt, h]

theorem hurt_spoilt : (spoilt t u).hurt eng = spoilt t u := by
  simp [hurt, spoilt]

end Run

/-! ### Inside a transaction -/

/-- The statement does not go through. -/
def Failed (φ : Fault ε) : Prop := ∃ e, φ = .fail e

@[simp] theorem not_failed_none : ¬Failed (.none : Fault ε) := fun ⟨_, h⟩ => by cases h
@[simp] theorem failed_fail (e : ε) : Failed (.fail e) := ⟨e, rfl⟩
@[simp] theorem not_failed_crash : ¬Failed (.crash : Fault ε) := fun ⟨_, h⟩ => by cases h

@[simp] theorem failed_map {ε' : Type} (f : ε → ε') (φ : Fault ε) :
    Failed (φ.map f) ↔ Failed φ := by
  cases φ <;> simp

@[simp] theorem map_eq_none {ε' : Type} (f : ε → ε') (φ : Fault ε) :
    φ.map f = .none ↔ φ = .none := by
  cases φ <;> simp

/-- A transaction on top of `t` that is poisoned exactly if `S`, and whose working
copy satisfies `P` unless it is. -/
def InTxn (t : τ) (S : Prop) (P : τ → Prop) (c : Conn τ) : Prop :=
  ∃ u, (S ∧ c = spoilt t u) ∨ (¬S ∧ P u ∧ c = opened t u)

theorem InTxn.mono {t : τ} {S S' : Prop} {P P' : τ → Prop} {c : Conn τ} (h : InTxn t S P c)
    (hS : S ↔ S') (hP : ∀ u, P u → P' u) : InTxn t S' P' c := by
  obtain ⟨u, ⟨hs, rfl⟩ | ⟨hs, hu, rfl⟩⟩ := h
  · exact ⟨u, .inl ⟨hS.1 hs, rfl⟩⟩
  · exact ⟨u, .inr ⟨mt hS.2 hs, hP u hu, rfl⟩⟩

theorem inTxn_opened {t u : τ} {P : τ → Prop} (h : P u) : InTxn t False P (opened t u) :=
  ⟨u, .inr ⟨id, h, rfl⟩⟩

theorem InTxn.lost {t : τ} {S : Prop} {P : τ → Prop} {c : Conn τ} (h : InTxn t S P c) :
    c.lost = quiet t := by
  obtain ⟨u, ⟨_, rfl⟩ | ⟨_, _, rfl⟩⟩ := h <;> rfl

theorem InTxn.hurt {t : τ} {S : Prop} {P : τ → Prop} {c : Conn τ} (h : InTxn t S P c)
    (eng : Engine ε) : InTxn t (S ∨ eng.poisons = true) P (c.hurt eng) := by
  obtain ⟨u, ⟨hs, rfl⟩ | ⟨hs, hu, rfl⟩⟩ := h
  · exact ⟨u, .inl ⟨.inl hs, hurt_spoilt eng t u⟩⟩
  · rw [hurt_opened]
    split
    · next h => exact ⟨u, .inl ⟨.inr h, rfl⟩⟩
    · next h => exact ⟨u, .inr ⟨not_or.2 ⟨hs, h⟩, hu, rfl⟩⟩

section InTxn

variable {eng : Engine ε} {φ : Fault ε} {t : τ} {S : Prop} {P : τ → Prop} {c : Conn τ}

open Prog

/-- **A statement inside a transaction**: it goes through unless it fails or the
transaction is poisoned, and where the engine poisons, failing poisons. -/
theorem InTxn.meets_stmt {g : τ → α × τ} (h : InTxn t S P c) :
    Meets (stmt eng φ g) c
      ⟨fun a c' => φ = .none ∧ ¬S ∧ InTxn t S (fun u' => ∃ u, P u ∧ g u = (a, u')) c',
        fun _ c' => (S ∨ Failed φ) ∧ InTxn t (S ∨ (eng.poisons = true ∧ Failed φ)) P c',
        fun c' => φ = .crash ∧ c' = quiet t⟩ := by
  unfold Meets
  rcases φ with _ | e | _
  · obtain ⟨u, ⟨hs, rfl⟩ | ⟨hs, hu, rfl⟩⟩ := h
    · rw [stmt_spoilt]
      exact ⟨.inl hs, u, .inl ⟨.inl hs, rfl⟩⟩
    · rw [stmt_opened]
      exact ⟨rfl, hs, _, .inr ⟨hs, ⟨u, hu, rfl⟩, rfl⟩⟩
  · rw [stmt_fail]
    exact ⟨.inr (failed_fail e), (h.hurt eng).mono (by simp) fun _ hu => hu⟩
  · rw [stmt_crash]
    exact ⟨rfl, h.lost⟩

theorem InTxn.of_spoilt {P' : τ → Prop} (hs : S) (h : InTxn t S P c) : InTxn t S P' c := by
  obtain ⟨u, ⟨_, rfl⟩ | ⟨hn, _⟩⟩ := h
  · exact ⟨u, .inl ⟨hs, rfl⟩⟩
  · exact absurd hs hn

/-- **A statement whose failure is ignored**: the transaction goes on either way. -/
theorem InTxn.meets_ignored {ε' : Type} {g : τ → τ} (h : InTxn t S P c) :
    Meets (catching (stmt eng φ fun u => ((), g u)) fun _ => (pure () : Prog _ ε' Unit)) c
      ⟨fun _ c' => InTxn t (S ∨ (eng.poisons = true ∧ Failed φ))
          (fun u' => ∃ u, P u ∧ ((φ = .none ∧ u' = g u) ∨ (Failed φ ∧ u' = u))) c',
        fun _ _ => False, fun c' => c' = quiet t⟩ := by
  rw [meets_catching]
  refine h.meets_stmt.mono ?_ ?_ fun _ hc => hc.2
  · rintro _ c' ⟨hφ, hs, hc⟩
    refine hc.mono (by simp [hφ]) ?_
    rintro u' ⟨u, hu, hg⟩
    exact ⟨u, hu, .inl ⟨hφ, (congrArg Prod.snd hg).symm⟩⟩
  · rintro _ c' ⟨hs | hf, hc⟩
    · exact hc.of_spoilt (.inl hs)
    · exact hc.mono Iff.rfl fun u hu => ⟨u, hu, .inr ⟨hf, rfl⟩⟩

theorem InTxn.meets_commit (h : InTxn t S P c) :
    Meets (commit eng φ) c
      ⟨fun _ c' => φ = .none ∧ ((S ∧ c' = quiet t) ∨ (¬S ∧ ∃ u, P u ∧ c' = quiet u)),
        fun _ c' => Failed φ ∧ ∃ S', InTxn t S' P c', fun c' => φ = .crash ∧ c' = quiet t⟩ := by
  unfold Meets
  rcases φ with _ | e | _
  · obtain ⟨u, ⟨hs, rfl⟩ | ⟨hs, hu, rfl⟩⟩ := h
    · rw [commit_spoilt]
      exact ⟨rfl, .inl ⟨hs, rfl⟩⟩
    · rw [commit_opened]
      exact ⟨rfl, .inr ⟨hs, u, hu, rfl⟩⟩
  · rw [commit_fail]
    exact ⟨failed_fail e, _, h.hurt eng⟩
  · rw [commit_crash]
    exact ⟨rfl, h.lost⟩

theorem InTxn.meets_vanish (h : InTxn t S P c) {Φ : Post (Conn τ) ε α}
    (hdead : Φ.dead (quiet t)) : Meets vanish c Φ := by
  change Φ.dead c.lost
  rwa [h.lost]

theorem InTxn.meets_rollback (h : InTxn t S P c) {Φ : Post (Conn τ) Empty Unit}
    (hok : Φ.ok () (quiet t)) (hdead : Φ.dead (quiet t)) : Meets (rollback φ) c Φ := by
  unfold Meets
  rcases rollback_eq φ c with hr | hr <;> rw [hr, h.lost]
  · exact hok
  · exact hdead

end InTxn

section Quiet

variable {eng : Engine ε} {φ : Fault ε} {t : τ}

open Prog

/-- A statement outside any transaction. -/
theorem meets_stmt_quiet {g : τ → α × τ} :
    Meets (stmt eng φ g) (quiet t)
      ⟨fun a c' => φ = .none ∧ a = (g t).1 ∧ c' = quiet (g t).2,
        fun _ c' => Failed φ ∧ c' = quiet t, fun c' => φ = .crash ∧ c' = quiet t⟩ := by
  unfold Meets
  rcases φ with _ | e | _
  · rw [stmt_quiet]
    exact ⟨rfl, rfl, rfl⟩
  · rw [stmt_fail]
    exact ⟨failed_fail e, rfl⟩
  · rw [stmt_crash]
    exact ⟨rfl, rfl⟩

theorem meets_begin_quiet :
    Meets («begin» eng φ) (quiet t)
      ⟨fun _ c' => φ = .none ∧ c' = opened t t, fun _ c' => Failed φ ∧ c' = quiet t,
        fun c' => φ = .crash ∧ c' = quiet t⟩ := by
  unfold Meets
  rcases φ with _ | e | _
  · rw [begin_quiet]
    exact ⟨rfl, rfl⟩
  · rw [begin_fail]
    exact ⟨failed_fail e, rfl⟩
  · rw [begin_crash]
    exact ⟨rfl, rfl⟩

end Quiet

/-! ### Frames on tables, lifted to connections -/

/-- Everything that is committed or may still become so. -/
def Holds (c : Conn τ) (t : τ) : Prop := t = c.committed ∨ ∃ x ∈ c.txn, t = x.work

theorem holds_committed (c : Conn τ) : c.Holds c.committed := .inl rfl

theorem holds_quiet {t u : τ} : (quiet t).Holds u ↔ u = t := by
  simp [Holds, quiet]

/-- **Frames lift to connections**: whatever the connection holds afterwards has
come, within the frame, from something it held before. -/
def Linked (R : Frame τ) : Frame (Conn τ) :=
  .through (fun c c' => ∀ t', c'.Holds t' → ∃ t, c.Holds t ∧ R.rel t t')
    (fun _ t h => ⟨t, h, R.refl t⟩) fun h₁ h₂ t'' h'' => by
      obtain ⟨t', h', r'⟩ := h₂ t'' h''
      obtain ⟨t, h, r⟩ := h₁ t' h'
      exact ⟨t, h, R.trans r r'⟩

/-- Between two moments with no transaction open, the lifted frame is the frame on
the committed tables. -/
theorem Linked.quiet {R : Frame τ} {c c' : Conn τ} (h : (Linked R).rel c c')
    (hc : c.txn = none) : R.rel c.committed c'.committed := by
  obtain ⟨t, ht, r⟩ := h _ c'.holds_committed
  rw [eq_quiet hc, holds_quiet] at ht
  rwa [ht] at r

section Within

open Prog

variable {R : Frame τ} (eng : Engine ε) (φ : Fault ε)

theorem linked_of_holds {c c' : Conn τ} (h : ∀ t, c'.Holds t → c.Holds t) :
    (Linked R).rel c c' :=
  fun t ht => ⟨t, h t ht, R.refl t⟩

theorem linked_lost (c : Conn τ) : (Linked R).rel c c.lost :=
  linked_of_holds fun t ht => .inl (by simpa [Holds, lost] using ht)

theorem linked_hurt (c : Conn τ) : (Linked R).rel c (c.hurt eng) :=
  linked_of_holds fun t ht => by
    rcases c with ⟨t₀, _ | x⟩ <;> simpa [Holds, hurt] using ht

theorem within_begin : Within (Linked R) («begin» eng φ) := by
  rintro ⟨t₀, _ | x⟩ <;> rcases φ with _ | e | _
  · exact linked_of_holds fun t ht => by simpa [Holds, Conn.begin, opened] using ht
  · exact linked_hurt eng _
  · exact linked_lost _
  · unfold Meets Conn.begin
    cases eng.poisons <;> exact (Linked R).refl _
  · exact linked_hurt eng _
  · exact linked_lost _

/-- A statement respects the lifted frame as soon as its effect on tables
respects the frame. -/
theorem within_stmt {g : τ → α × τ} (hg : ∀ t, R.rel t (g t).2) :
    Within (Linked R) (stmt eng φ g) := by
  rintro ⟨t₀, _ | ⟨u, p⟩⟩ <;> rcases φ with _ | e | _
  · intro t ht
    obtain rfl := holds_quiet.1 ht
    exact ⟨t₀, holds_committed _, hg t₀⟩
  · exact linked_hurt eng _
  · exact linked_lost _
  · cases p with
    | true => exact (Linked R).refl _
    | false =>
      intro t ht
      rcases ht with ht | ⟨x, hx, rfl⟩
      · exact ⟨t, .inl ht, R.refl t⟩
      · obtain rfl : x = ⟨(g u).2, false⟩ := by simpa [stmt, opened, eq_comm] using hx
        exact ⟨u, .inr ⟨_, rfl, rfl⟩, hg u⟩
  · exact linked_hurt eng _
  · exact linked_lost _

theorem within_side {g : τ → α} : Within (Linked R) (side φ g) := by
  intro c
  rcases φ with _ | e | _
  · exact (Linked R).refl _
  · exact (Linked R).refl _
  · exact linked_lost _

theorem within_vanish : Within (Linked R) (vanish : Prog (Conn τ) ε α) :=
  fun c => linked_lost c

theorem within_commit : Within (Linked R) (commit eng φ) := by
  rintro ⟨t₀, _ | ⟨u, p⟩⟩ <;> rcases φ with _ | e | _
  · unfold Meets commit
    cases eng.poisons <;> exact (Linked R).refl _
  · exact linked_hurt eng _
  · exact linked_lost _
  · cases p with
    | true => exact linked_lost _
    | false => exact linked_of_holds fun t ht => .inr ⟨_, rfl, holds_quiet.1 ht⟩
  · exact linked_hurt eng _
  · exact linked_lost _

theorem within_rollback : Within (Linked R) (rollback φ) := by
  intro c
  unfold Meets
  rcases rollback_eq φ c with h | h <;> rw [h] <;> exact linked_lost c

end Within

end Conn

end Imperative

import Zponder.Client

/-!
# Statements and transactions of the indexer

The rules of `Imperative.Prog.Meets` for the primitives of the indexer, and the one
rule about transactions that everything with a `beginWrite` in it goes through
(`Zponder.meets_inTransaction`): what the body has done is there afterwards, all of
it, or nothing is.
-/

namespace Zponder

open Imperative Prog Conn

/-! ### The primitives, as postconditions -/

section Primitives

variable {env : Env} {cfg : Config} {α : Type} {ε : Type} {w : World}

theorem meets_onConn {p : Prog (Conn Tables) ε α} {Φ : Post World ε α} :
    Meets (onConn p) w Φ ↔
      Meets p w.conn ⟨fun a c => Φ.ok a { w with conn := c },
        fun e c => Φ.err e { w with conn := c }, fun c => Φ.dead { w with conn := c }⟩ :=
  meets_zoom

theorem meets_exec {call : DbCall} {g : Tables → α × Tables} {Φ : Post World Err α} :
    Meets (exec env cfg call g) w Φ ↔
      Meets (stmt cfg.engine (env.faultAt w.now call) g) w.conn
        ⟨fun a c => Φ.ok a { w with conn := c }, fun e c => Φ.err e { w with conn := c },
          fun c => Φ.dead { w with conn := c }⟩ := by
  simp only [exec, meets_bind, meets_read, meets_onConn]

theorem meets_execScan {call : DbCall} {g : Tables → List α} {Φ : Post World Err (List α)} :
    Meets (execScan env cfg call g) w Φ ↔
      Meets (execRead env cfg call g) w
        ⟨fun rows w' => Φ.ok (cutRows env cfg w.now call rows) w', Φ.err, Φ.dead⟩ := by
  simp only [execScan, meets_bind, meets_read, meets_pure]

theorem meets_execFind {call : DbCall} {g : Tables → Option α} {Φ : Post World Err (Option α)} :
    Meets (execFind env cfg call g) w Φ ↔
      Meets (execRead env cfg call fun t => (g t).toList) w
        ⟨fun rows w' => Φ.ok (cutRows env cfg w.now call rows).head? w', Φ.err, Φ.dead⟩ := by
  simp only [execFind, meets_bind, meets_execScan, meets_pure]

theorem meets_guarded {p : M α} {Φ : Post World Err α} :
    Meets (guarded p) w Φ ↔
      Meets p { w with writeDepth := w.writeDepth + 1 }
        ⟨fun a t => Φ.ok a (leave t), fun e t => Φ.err e (leave t), Φ.dead⟩ := by
  simp only [guarded, guardEnter, meets_bind, meets_modify, meets_after]

theorem meets_askAside {answer : Nat → Outcome Err α} {Φ : Post World Err α}
    (hok : ∀ a, Φ.ok a w) (herr : ∀ e, Φ.err e w) (hdead : Φ.dead w) :
    Meets (askAside answer) w Φ := by
  unfold Meets askAside
  cases answer w.now
  · exact hok _
  · exact herr _
  · exact hdead

theorem meets_ask {answer : Nat → Outcome Err α} {Φ : Post World Err α}
    (hok : ∀ a, answer w.now = .ok a → Φ.ok a w.ticked)
    (herr : ∀ e, answer w.now = .err e → Φ.err e w.ticked)
    (hdead : answer w.now = .crash → Φ.dead w.ticked) : Meets (ask answer) w Φ := by
  unfold Meets ask
  cases h : answer w.now
  · exact hok _ h
  · exact herr _ h
  · exact hdead h

theorem meets_askLogs {answer : Nat → Outcome Err α} {Φ : Post World Err α}
    (hok : ∀ a, answer w.now = .ok a → Φ.ok a w.asked)
    (herr : ∀ e, answer w.now = .err e → Φ.err e w.asked)
    (hdead : answer w.now = .crash → Φ.dead w.asked) : Meets (askLogs answer) w Φ := by
  unfold Meets askLogs
  cases h : answer w.now
  · exact hok _ h
  · exact herr _ h
  · exact hdead h

theorem meets_ignoring {p : M Unit} {Φ : Post World Err Unit} :
    Meets (ignoring p) w Φ ↔ Meets p w ⟨Φ.ok, fun _ => Φ.ok (), Φ.dead⟩ := by
  simp only [ignoring, meets_catching, meets_pure]

/-- Nothing but the connection has changed, and the process may have died with the
lock held. -/
def OnlyConn (w w' : World) : Prop :=
  w' = { w with conn := w'.conn, writeDepth := w'.writeDepth }

theorem onlyConn_refl (w : World) : OnlyConn w w := rfl

theorem OnlyConn.trans {a b c : World} (h₁ : OnlyConn a b) (h₂ : OnlyConn b c) :
    OnlyConn a c := by
  unfold OnlyConn at *
  rw [h₂, h₁]

end Primitives

/-! ### Inside a transaction -/

section Transaction

variable {env : Env} {cfg : Config} {w : World} {t : Tables} {S : Prop} {P : Tables → Prop}

/-- What a piece of a transaction leaves: the transaction, poisoned as `S` says, and
everything else as in `w`. -/
abbrev StillIn (w : World) (t : Tables) (S : Prop) (P : Tables → Prop) (w' : World) : Prop :=
  InTxn t S P w'.conn ∧ w' = { w with conn := w'.conn }

/-- A death inside a transaction drops it. -/
abbrev Died (w : World) (t : Tables) (w' : World) : Prop :=
  w'.conn = quiet t ∧ OnlyConn w w'

/-- A write whose failure is ignored, inside a transaction. -/
theorem meets_ignoredWrite (h : InTxn t S P w.conn) {φ : Fault Err} {g : Tables → Tables} :
    Meets (ignoring (onConn (stmt cfg.engine φ fun u => ((), g u)))) w
      ⟨fun _ => StillIn w t (S ∨ (cfg.engine.poisons = true ∧ Failed φ))
          (fun u' => ∃ u, P u ∧ ((φ = .none ∧ u' = g u) ∨ (Failed φ ∧ u' = u))),
        fun _ _ => False, Died w t⟩ := by
  have hc : Meets (catching (stmt cfg.engine φ fun u => ((), g u)) fun _ =>
      (pure () : Prog _ Err Unit)) w.conn _ := h.meets_ignored
  rw [meets_catching] at hc
  rw [meets_ignoring, meets_onConn]
  exact hc.mono (fun _ _ h => ⟨h, rfl⟩) (fun _ _ h => ⟨h, rfl⟩) fun _ h => ⟨h, rfl⟩

theorem meets_guarded_ignoredWrite (h : InTxn t S P w.conn) {call : DbCall}
    {g : Tables → Tables} :
    Meets (ignoring (guarded (execWrite env cfg call g))) w
      ⟨fun _ => StillIn w t (S ∨ (cfg.engine.poisons = true ∧ Failed (env.faultAt w.now call)))
          (fun u' => ∃ u, P u ∧ ((env.faultAt w.now call = .none ∧ u' = g u) ∨
            (Failed (env.faultAt w.now call) ∧ u' = u))),
        fun _ _ => False, Died w t⟩ := by
  have hc : Meets (catching (stmt cfg.engine (env.faultAt w.now call) fun u => ((), g u))
      fun _ => (pure () : Prog _ Err Unit)) w.conn _ := h.meets_ignored
  rw [meets_catching] at hc
  simp only [execWrite, meets_ignoring, meets_guarded, meets_exec]
  exact hc.mono (fun _ _ h => ⟨h, rfl⟩) (fun _ _ h => ⟨h, rfl⟩) fun _ h => ⟨h, rfl⟩

theorem StillIn.mono {S' : Prop} {P' : Tables → Prop} {w' : World} (h : StillIn w t S P w')
    (hS : S ↔ S') (hP : ∀ u, P u → P' u) : StillIn w t S' P' w' :=
  ⟨h.1.mono hS hP, h.2⟩

theorem StillIn.trans {S' : Prop} {P' : Tables → Prop} {w' w'' : World} (h : StillIn w t S P w')
    (h' : StillIn w' t S' P' w'') : StillIn w t S' P' w'' :=
  ⟨h'.1, by rw [h'.2, h.2]⟩

theorem StillIn.died {w' w'' : World} (h : StillIn w t S P w') (h' : Died w' t w'') :
    Died w t w'' := by
  refine ⟨h'.1, ?_⟩
  have h₁ := h'.2
  unfold OnlyConn at *
  rw [h₁, h.2]

/-- The rollback that ends a transaction. -/
theorem meets_rollbackWrite (h : InTxn t S P w.conn) {Φ : Post World Empty Unit}
    (hok : Φ.ok () { w with conn := quiet t, writeDepth := w.writeDepth - 1 })
    (hdead : Φ.dead { w with conn := quiet t }) : Meets (rollbackWrite env) w Φ := by
  simp only [rollbackWrite, meets_bind, meets_read, meets_onConn, meets_modify]
  exact h.meets_rollback hok hdead

theorem meets_beginWrite (hc : w.conn = quiet t) :
    Meets (beginWrite env cfg) w
      ⟨fun _ w' => env.faultAt w.now .beginWrite = .none ∧
          w' = { w with conn := opened t t, writeDepth := w.writeDepth + 1 },
        fun _ w' => Failed (env.faultAt w.now .beginWrite) ∧ w' = w, Died w t⟩ := by
  simp only [beginWrite, guardEnter, meets_bind, meets_modify, meets_read, meets_onErr,
    meets_onConn, hc]
  refine meets_begin_quiet.mono ?_ ?_ ?_
  · rintro _ c ⟨hφ, rfl⟩
    exact ⟨hφ, rfl⟩
  · rintro e c ⟨hφ, rfl⟩
    exact ⟨hφ, by rw [← hc]; rfl⟩
  · rintro c ⟨-, rfl⟩
    exact ⟨rfl, rfl⟩

/-- A statement of a transaction. -/
theorem meets_exec_inTxn {α : Type} (h : InTxn t S P w.conn) {call : DbCall}
    {g : Tables → α × Tables} :
    Meets (exec env cfg call g) w
      ⟨fun a w' => env.faultAt w.now call = .none ∧ ¬S ∧
          StillIn w t S (fun u' => ∃ u, P u ∧ g u = (a, u')) w',
        fun _ w' => (∃ S P, InTxn t S P w'.conn) ∧ w' = { w with conn := w'.conn }, Died w t⟩ := by
  rw [meets_exec]
  refine h.meets_stmt.mono ?_ ?_ ?_
  · rintro a c ⟨hφ, hs, hc⟩
    exact ⟨hφ, hs, hc, rfl⟩
  · rintro e c ⟨-, hc⟩
    exact ⟨⟨_, _, hc⟩, rfl⟩
  · rintro c ⟨-, rfl⟩
    exact ⟨rfl, rfl⟩

/-- The postcondition of a piece of a transaction that has turned the tables into
some that satisfy `P`. -/
def txnPost (α : Type) (w : World) (t : Tables) (P : α → Tables → Prop) : Post World Err α :=
  ⟨fun a => StillIn w t False (P a),
    fun _ w' => (∃ S P, InTxn t S P w'.conn) ∧ w' = { w with conn := w'.conn }, Died w t⟩

/-- A write of a healthy transaction. -/
theorem meets_execWrite_txn (h : InTxn t False P w.conn) {call : DbCall} {g : Tables → Tables} :
    Meets (execWrite env cfg call g) w
      (txnPost Unit w t fun _ u' => ∃ u, P u ∧ u' = g u) := by
  refine (meets_exec_inTxn h).mono ?_ (fun _ _ h => h) fun _ h => h
  rintro _ w' ⟨-, -, hw⟩
  exact hw.mono Iff.rfl fun u' ⟨u, hu, hg⟩ => ⟨u, hu, (congrArg Prod.snd hg).symm⟩

/-- A read of a healthy transaction. -/
theorem meets_execRead_txn {α : Type} (h : InTxn t False P w.conn) {call : DbCall}
    {g : Tables → α} :
    Meets (execRead env cfg call g) w (txnPost α w t fun a u => P u ∧ g u = a) := by
  refine (meets_exec_inTxn h).mono ?_ (fun _ _ h => h) fun _ h => h
  rintro a w' ⟨-, -, hw⟩
  refine hw.mono Iff.rfl fun u' ⟨u, hu, hg⟩ => ?_
  obtain ⟨rfl, rfl⟩ := Prod.mk.inj hg
  exact ⟨hu, rfl⟩

/-- What follows in a transaction. -/
theorem meets_txn_bind {α β : Type} {p : M α} {k : α → M β} {P : α → Tables → Prop}
    {Q : β → Tables → Prop} (hp : Meets p w (txnPost α w t P))
    (hk : ∀ a w', InTxn t False (P a) w'.conn → w' = { w with conn := w'.conn } →
      Meets (k a) w' (txnPost β w' t Q)) : Meets (p >>= k) w (txnPost β w t Q) := by
  rw [meets_bind]
  refine hp.mono ?_ (fun _ _ h => h) fun _ h => h
  intro a w₁ h₁
  refine (hk a w₁ h₁.1 h₁.2).mono ?_ ?_ fun _ h => h₁.died h
  · exact fun b w₂ h₂ => h₁.trans h₂
  · rintro e w₂ ⟨hin, hw⟩
    exact ⟨hin, by rw [hw, h₁.2]⟩

theorem meets_txn_mono {α : Type} {p : M α} {P Q : α → Tables → Prop}
    (h : Meets p w (txnPost α w t P)) (hPQ : ∀ a u, P a u → Q a u) :
    Meets p w (txnPost α w t Q) :=
  h.mono (fun a _ hw => hw.mono Iff.rfl (hPQ a)) (fun _ _ h => h) fun _ h => h

/-- **The loop in a transaction**: an invariant of the tables and the elements done. -/
theorem meets_txn_each {β : Type} {f : β → M Unit} {I : List β → Tables → Prop} {xs : List β}
    (hstep : ∀ x ∈ xs, ∀ done w', InTxn t False (I done) w'.conn →
      w' = { w with conn := w'.conn } →
      Meets (f x) w' (txnPost Unit w' t fun _ => I (done ++ [x])))
    (h : InTxn t False (I []) w.conn) :
    Meets (Prog.each xs f) w (txnPost Unit w t fun _ => I xs) := by
  have hloop := meets_each (f := f)
    (E := fun _ w' => (∃ S P, InTxn t S P w'.conn) ∧ w' = { w with conn := w'.conn })
    (D := Died w t)
    (I := fun rest w' => ∃ done, done ++ rest = xs ∧ StillIn w t False (I done) w')
    (fun x rest w₁ ⟨done, hd, h₁⟩ => (hstep x (by simp [← hd]) done w₁ h₁.1 h₁.2).mono
      (fun _ w₂ h₂ => ⟨done ++ [x], by simpa using hd, h₁.trans h₂⟩)
      (fun _ w₂ ⟨hin, hw⟩ => ⟨hin, by rw [hw, h₁.2]⟩) fun _ h₂ => h₁.died h₂)
    (l := xs) (t := w) ⟨[], rfl, h, rfl⟩
  refine hloop.mono ?_ (fun _ _ h => h) fun _ h => h
  rintro _ w' ⟨done, hd, h'⟩
  rw [List.append_nil] at hd
  exact hd ▸ h'

/-- **A transaction**: the tables its body leaves, or those it found. -/
theorem meets_inTransaction {body : M Unit} {P : Tables → Prop} (hc : w.conn = quiet t)
    (hbody : ∀ w₁, w₁.conn = opened t t → w₁.now = w.now → w₁.mem = w.mem →
      Meets body w₁ (txnPost Unit w₁ t fun _ => P)) :
    Meets (inTransaction env cfg body) w
      ⟨fun _ w' => ∃ u, P u ∧ w' = { w with conn := quiet u, now := w.now + 1 },
        fun _ w' => w' = w.ticked, Died w t⟩ := by
  simp only [inTransaction, meets_after, meets_bind]
  refine (meets_beginWrite hc).mono ?_ ?_ fun _ h => h
  · rintro _ w₁ ⟨-, h₁⟩
    simp only [meets_onErr, meets_bind]
    refine (hbody w₁ (by rw [h₁]) (by rw [h₁]) (by rw [h₁])).mono ?_ ?_ ?_
    · intro _ w₂ h₂
      simp only [commitWrite, meets_bind, meets_read, meets_onConn, meets_modify, leave]
      refine h₂.1.meets_commit.mono ?_ ?_ ?_
      · rintro _ c ⟨-, ⟨hf, -⟩ | ⟨-, u, hu, rfl⟩⟩
        · exact hf.elim
        · refine ⟨u, hu, ?_⟩
          rw [h₂.2, h₁]
          rfl
      · rintro e c ⟨-, S', hS⟩
        refine meets_rollbackWrite hS ?_ ⟨rfl, by rw [OnlyConn, h₂.2, h₁]⟩
        rw [h₂.2, h₁]
        simp [World.ticked, hc]
      · rintro c ⟨-, rfl⟩
        exact ⟨rfl, by rw [OnlyConn, h₂.2, h₁]⟩
    · rintro e w₂ ⟨⟨S', P', hin⟩, hw⟩
      refine meets_rollbackWrite hin ?_ ⟨rfl, by rw [OnlyConn, hw, h₁]⟩
      rw [hw, h₁]
      simp [World.ticked, hc]
    · rintro w₂ ⟨hq, hw⟩
      exact ⟨hq, by
        unfold OnlyConn at *
        rw [hw, h₁]⟩
  · rintro e w₁ ⟨-, rfl⟩
    rfl

end Transaction

end Zponder

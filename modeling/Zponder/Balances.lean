import Zponder.ProcessLog

/-!
# The balances of a transfer

`trackTokenTransferState` reads a balance, writes it, reads the other one and writes that. With a
second connection for reads and a transaction open on the first, the second read does not see
the first write; that matters only where both are of one account. The sum is not checked, so
that it ends the process where it is no `u256`.

Where the database answers, a transfer is moved, and nothing ends the process, exactly if none of
the two is the case (`Zponder.Balances.moves_iff`).
-/

namespace Zponder

open Imperative Prog Conn

/-! ### Numbers that are read -/

theorem Text.parseDigits_lt {base limit : Nat} {negative : Bool} {acc n : Nat} {cs : Text}
    (hacc : acc < limit) (h : parseDigits base limit negative acc cs = some n) : n < limit := by
  induction cs generalizing acc with
  | nil =>
    rw [parseDigits] at h
    obtain rfl := Option.some.inj h
    exact hacc
  | cons c cs ih =>
    rw [parseDigits] at h
    split at h
    · exact ih hacc h
    · split at h
      · cases h
      · dsimp only at h
        split at h
        · next hv => exact ih hv.1 h
        · cases h

theorem Text.parseInt_lt {base limit n : Nat} (hlimit : 0 < limit) {s : Text}
    (h : parseInt base limit s = some n) : n < limit := by
  have hmagnitude : ∀ negative cs, parseMagnitude base limit negative cs = some n → n < limit := by
    intro negative cs h
    unfold parseMagnitude at h
    split at h
    · cases h
    · exact parseDigits_lt hlimit h
  unfold parseInt at h
  split at h <;> exact hmagnitude _ _ h

theorem Text.parseU256_lt {s : Text} {n : Nat} (h : parseU256 s = some n) : n < 2 ^ 256 := by
  unfold parseU256 at h
  dsimp only at h
  split at h <;> exact parseInt_lt (by decide) h

theorem amount_lt {fields : List DecodedField} {tr : Transfer} (h : transferOf fields = some tr) :
    tr.amount < 2 ^ 256 := by
  unfold transferOf at h
  simp only [Option.bind_eq_bind, Option.bind_eq_some_iff] at h
  obtain ⟨_, -, amount, hamount, h⟩ := h
  obtain rfl := Option.some.inj h
  exact Text.parseU256_lt hamount

namespace Balances

/-! ### Modes -/

/-- How the statements are sent: each on its own, or in a transaction, which has not touched a
balance yet. -/
inductive Mode (t : Tables) where
  | autocommit
  | transaction (base : Tables) (same : base.accounts = t.accounts)

/-- The tables another connection sees, where a transaction is open. -/
def Mode.base {t : Tables} : Mode t → Option Tables
  | .autocommit => none
  | .transaction base _ => some base

/-- A connection that sees the tables `v`. -/
def linked (base : Option Tables) (v : Tables) : Conn Tables :=
  base.elim (quiet v) fun t => opened t v

/-- Reads go through another connection than writes. -/
def Aside (cfg : Config) : Prop := cfg.backend = .sqlite ∧ cfg.readDb = true

instance (cfg : Config) : Decidable (Aside cfg) := inferInstanceAs (Decidable (_ ∧ _))

/-- A read does not see what the transaction has written. -/
def Apart (cfg : Config) (base : Option Tables) : Prop := Aside cfg ∧ base.isSome = true

instance (cfg : Config) (base : Option Tables) : Decidable (Apart cfg base) :=
  inferInstanceAs (Decidable (_ ∧ _))

/-- The tables that are read. -/
def seen (cfg : Config) (base : Option Tables) (v : Tables) : Tables :=
  if Aside cfg then base.getD v else v

/-- The balance of an account; one that has no row has none. -/
def balance (t : Tables) (contract holder : Text) : Nat :=
  ((t.accounts contract holder).map (·.balance)).getD 0

/-- The database answers: no statement fails, and no read is broken off. -/
def Answers (env : Env) (now : Nat) : Prop :=
  ∀ call, env.fault now call = .none ∧ env.cut now call = none

/-! ### One read, one write -/

section Run

variable {env : Env} {cfg : Config} {w w' : World} {base : Option Tables} {v : Tables}
  {contract holder : Text} {α : Type}

theorem Answers.faultAt {now : Nat} (h : Answers env now) (call : DbCall) :
    env.faultAt now call = .none := by
  rw [Env.faultAt, (h call).1]
  rfl

theorem Answers.cutRows {now : Nat} (h : Answers env now) (call : DbCall) (rows : List α) :
    cutRows env cfg now call rows = rows := by
  rw [Zponder.cutRows, (h call).2]
  split
  · next heq => cases heq
  · rfl

theorem stmt_linked {eng : Engine Err} {g : Tables → α × Tables} :
    stmt eng .none g (linked base v) = (.ok (g v).1, linked base (g v).2) := by
  cases base <;> rfl

theorem linked_committed : (linked base v).committed = base.getD v := by
  cases base <;> rfl

theorem guarded_eq {p : M α} {a : α}
    (h : p { w with writeDepth := w.writeDepth + 1 } =
      (.ok a, { w' with writeDepth := w'.writeDepth + 1 })) : guarded p w = (.ok a, w') := by
  change after p leave { w with writeDepth := w.writeDepth + 1 } = _
  rw [after, h]
  rfl

theorem exec_eq (h : Answers env w.now) (hc : w.conn = linked base v) {call : DbCall}
    {g : Tables → α × Tables} :
    exec env cfg call g w = (.ok (g v).1, { w with conn := linked base (g v).2 }) := by
  change zoom (·.conn) (fun w c => { w with conn := c })
    (stmt cfg.engine (env.faultAt w.now call) g) w = _
  rw [zoom, h.faultAt, hc, stmt_linked]

theorem execFind_eq (h : Answers env w.now) (hc : w.conn = linked base v) {call : DbCall}
    {g : Tables → Option α} : execFind env cfg call g w = (.ok (g v), w) := by
  have hread : execRead env cfg call (fun t => (g t).toList) w = (.ok (g v).toList, w) := by
    rw [execRead, exec_eq h hc, ← hc]
  have hscan : execScan env cfg call (fun t => (g t).toList) w = (.ok (g v).toList, w) := by
    rw [execScan, bind_of_ok (read_apply _ _), bind_of_ok hread]
    exact congrArg (fun rows => (Outcome.ok rows, w)) (h.cutRows call _)
  rw [execFind, bind_of_ok hscan]
  cases g v <;> rfl

theorem getAccountBalance_eq (h : Answers env w.now) (hc : w.conn = linked base v)
    {incoming : Bool} : getAccountBalance env cfg incoming contract holder w =
      (.ok (((seen cfg base v).accounts contract holder).map (·.balance)), w) := by
  refine guarded_eq ?_
  rw [bind_of_ok (read_apply _ _), seen]
  by_cases haside : cfg.backend = .sqlite ∧ cfg.readDb = true
  · have hside : onConn (ε := Err) (side (env.faultAt w.now (.getAccountBalance incoming))
        fun t => (t.accounts contract holder).map (·.balance))
        { w with writeDepth := w.writeDepth + 1 } =
        (.ok (((base.getD v).accounts contract holder).map (·.balance)),
          { w with writeDepth := w.writeDepth + 1 }) := by
      rw [onConn, zoom, h.faultAt, side, hc, linked_committed, ← hc]
    rw [if_pos haside, if_pos (show Aside cfg from haside), bind_of_ok hside, pure_apply, h.cutRows]
    cases (base.getD v).accounts contract holder <;> rfl
  · rw [if_neg haside, if_neg (show ¬ Aside cfg from haside)]
    exact execFind_eq (w := { w with writeDepth := w.writeDepth + 1 }) h hc

theorem balanceOf_eq (h : Answers env w.now) (hc : w.conn = linked base v) {incoming : Bool} :
    balanceOf env cfg incoming contract holder w =
      (.ok (balance (seen cfg base v) contract holder), w) := by
  have hget : catching (getAccountBalance env cfg incoming contract holder)
      (fun _ => (pure none : M (Option Nat))) w =
      (.ok (((seen cfg base v).accounts contract holder).map (·.balance)), w) := by
    rw [catching, getAccountBalance_eq h hc]
  rw [balanceOf, bind_of_ok hget]
  rfl

theorem upsert_eq (h : Answers env w.now) (hc : w.conn = linked base v) {incoming : Bool}
    {s : AccountState} : ignoring (upsertAccountState env cfg incoming contract holder s) w =
      (.ok (), { w with conn := linked base (Tables.putAccount contract holder s v) }) := by
  have hput : upsertAccountState env cfg incoming contract holder s w =
      (.ok (), { w with conn := linked base (Tables.putAccount contract holder s v) }) :=
    guarded_eq (exec_eq (w := { w with writeDepth := w.writeDepth + 1 }) h hc)
  rw [ignoring, catching, hput]

end Run

/-! ### The two halves -/

section Halves

variable {env : Env} {cfg : Config} {w : World} {base : Option Tables} {t v : Tables}
  {contract holder : Text} {amount b : Nat}

theorem balance_put {s : AccountState} {c a : Text} :
    balance (Tables.putAccount contract holder s t) c a =
      if c = contract ∧ a = holder then s.balance else balance t c a := by
  unfold balance Tables.putAccount
  by_cases hc : c = contract
  · subst hc
    by_cases ha : a = holder
    · subst ha
      simp only [Function.update_self, and_self, if_true, Option.map_some, Option.getD_some]
    · simp only [Function.update_self, Function.update_of_ne ha, ha, and_false, if_false]
  · simp only [Function.update_of_ne hc, hc, false_and, if_false]

/-- The tables after the outgoing half. -/
def debited (cfg : Config) (base : Option Tables) (contract holder : Text) (amount b : Nat)
    (v : Tables) : Tables :=
  Tables.putAccount contract holder ⟨balance (seen cfg base v) contract holder - amount, b⟩ v

/-- The tables after the incoming half. -/
def credited (cfg : Config) (base : Option Tables) (contract holder : Text) (amount b : Nat)
    (v : Tables) : Tables :=
  Tables.putAccount contract holder ⟨balance (seen cfg base v) contract holder + amount, b⟩ v

theorem debit_eq (h : Answers env w.now) (hc : w.conn = linked base v) :
    debit env cfg contract holder amount b w =
      (.ok (), { w with conn := linked base (debited cfg base contract holder amount b v) }) := by
  have hclamp (n : Nat) : (if n > amount then n - amount else 0) = n - amount := by
    split <;> omega
  rw [debit, bind_of_ok (balanceOf_eq h hc)]
  rw [hclamp, upsert_eq h hc]
  rfl

theorem credit_eq (h : Answers env w.now) (hc : w.conn = linked base v)
    (hsum : balance (seen cfg base v) contract holder + amount < 2 ^ 256) :
    credit env cfg contract holder amount b w =
      (.ok (), { w with conn := linked base (credited cfg base contract holder amount b v) }) := by
  rw [credit, bind_of_ok (balanceOf_eq h hc), if_neg (Nat.not_le.2 hsum), upsert_eq h hc]
  rfl

theorem credit_crash (h : Answers env w.now) (hc : w.conn = linked base v)
    (hsum : ¬ balance (seen cfg base v) contract holder + amount < 2 ^ 256) :
    (credit env cfg contract holder amount b w).1 = .crash := by
  rw [credit, bind_of_ok (balanceOf_eq h hc), if_pos (Nat.not_lt.1 hsum)]
  rfl

end Halves

/-! ### A transfer -/

section Transfer

variable {env : Env} {cfg : Config} {w : World} {base : Option Tables} {t v : Tables}
  {contract : Text} {fields : List DecodedField} {tr : Transfer} {b : Nat}

/-- The tables after the outgoing half, if there is one. -/
def sent (cfg : Config) (base : Option Tables) (contract : Text) (tr : Transfer) (b : Nat)
    (v : Tables) : Tables :=
  tr.sender.elim v fun a => debited cfg base contract a tr.amount b v

/-- The tables after the incoming half, if there is one. -/
def received (cfg : Config) (base : Option Tables) (contract : Text) (tr : Transfer) (b : Nat)
    (v : Tables) : Tables :=
  tr.receiver.elim v fun a => credited cfg base contract a tr.amount b v

/-- The tables after both halves. -/
def transferred (cfg : Config) (base : Option Tables) (contract : Text) (tr : Transfer) (b : Nat)
    (v : Tables) : Tables :=
  received cfg base contract tr b (sent cfg base contract tr b v)

/-- The sum of the incoming half is a `u256`. -/
def SumFits (cfg : Config) (base : Option Tables) (contract : Text) (tr : Transfer) (b : Nat)
    (v : Tables) : Prop :=
  ∀ r ∈ tr.receiver,
    balance (seen cfg base (sent cfg base contract tr b v)) contract r + tr.amount < 2 ^ 256

theorem track_unfold (hstate : w.mem.state ≠ .replaying) (htr : transferOf fields = some tr) :
    trackTokenTransferState env cfg contract fields b w =
      (do forAccount tr.sender fun a => debit env cfg contract a tr.amount b
          forAccount tr.receiver fun a => credit env cfg contract a tr.amount b : M Unit) w := by
  rw [trackTokenTransferState, getMem, bind_of_ok (read_apply _ _), if_neg hstate, htr]

theorem sent_eq (h : Answers env w.now) (hc : w.conn = linked base v) :
    forAccount tr.sender (fun a => debit env cfg contract a tr.amount b) w =
      (.ok (), { w with conn := linked base (sent cfg base contract tr b v) }) := by
  cases hs : tr.sender with
  | none =>
    rw [sent, hs, Option.elim_none, ← hc]
    rfl
  | some a =>
    rw [sent, hs, Option.elim_some]
    exact debit_eq h hc

theorem track_eq (h : Answers env w.now) (hc : w.conn = linked base v)
    (hstate : w.mem.state ≠ .replaying) (htr : transferOf fields = some tr)
    (hfits : SumFits cfg base contract tr b v) :
    trackTokenTransferState env cfg contract fields b w =
      (.ok (), { w with conn := linked base (transferred cfg base contract tr b v) }) := by
  rw [track_unfold hstate htr, bind_of_ok (sent_eq h hc)]
  cases hr : tr.receiver with
  | none =>
    rw [transferred, received, hr, Option.elim_none]
    rfl
  | some r =>
    rw [transferred, received, hr, Option.elim_some]
    exact credit_eq (w := { w with conn := linked base (sent cfg base contract tr b v) }) h rfl
      (hfits r hr)

theorem track_crash (h : Answers env w.now) (hc : w.conn = linked base v)
    (hstate : w.mem.state ≠ .replaying) (htr : transferOf fields = some tr)
    (hfits : ¬ SumFits cfg base contract tr b v) :
    (trackTokenTransferState env cfg contract fields b w).1 = .crash := by
  rw [track_unfold hstate htr, bind_of_ok (sent_eq h hc)]
  cases hr : tr.receiver with
  | none => exact absurd (fun r hmem => by rw [hr] at hmem; cases hmem) hfits
  | some r =>
    refine credit_crash (w := { w with conn := linked base (sent cfg base contract tr b v) }) h rfl
      fun hsum => hfits fun r' hmem => ?_
    rw [hr] at hmem
    obtain rfl := Option.some.inj hmem
    exact hsum

theorem balance_seen (hsame : ∀ u ∈ base, u.accounts = v.accounts) {c a : Text} :
    balance (seen cfg base v) c a = balance v c a := by
  have haccounts : (base.getD v).accounts = v.accounts := by
    cases base with
    | none => rfl
    | some u => exact hsame u rfl
  unfold seen
  split
  · rw [balance, haccounts, balance]
  · rfl

theorem balance_sent (hsame : ∀ u ∈ base, u.accounts = v.accounts) {c a : Text} :
    balance (sent cfg base contract tr b v) c a =
      if c = contract ∧ tr.sender = some a then balance v c a - tr.amount else balance v c a := by
  cases hs : tr.sender with
  | none => rw [sent, hs, Option.elim_none, if_neg (by rintro ⟨-, h⟩; cases h)]
  | some s =>
    rw [sent, hs, Option.elim_some, debited, balance_put]
    by_cases h : c = contract ∧ a = s
    · obtain ⟨rfl, rfl⟩ := h
      rw [if_pos ⟨rfl, rfl⟩, if_pos ⟨rfl, rfl⟩]
      exact congrArg (· - tr.amount) (balance_seen hsame)
    · rw [if_neg h, if_neg fun ⟨hc, ha⟩ => h ⟨hc, (Option.some.inj ha).symm⟩]

/-- What the incoming half reads. -/
theorem balance_seen_sent (hsame : ∀ u ∈ base, u.accounts = v.accounts) {a : Text} :
    balance (seen cfg base (sent cfg base contract tr b v)) contract a =
      if Apart cfg base ∨ tr.sender ≠ some a then balance v contract a
      else balance v contract a - tr.amount := by
  have hown : balance (sent cfg base contract tr b v) contract a =
      if tr.sender ≠ some a then balance v contract a
      else balance v contract a - tr.amount := by
    rw [balance_sent hsame, ite_not]
    exact if_congr (and_iff_right rfl) rfl rfl
  by_cases haside : Aside cfg
  · cases base with
    | none =>
      rw [seen, if_pos haside]
      refine hown.trans (if_congr ?_ rfl rfl)
      exact (or_iff_right fun h => absurd h.2 Bool.false_ne_true).symm
    | some u =>
      rw [seen, if_pos haside, if_pos (Or.inl ⟨haside, rfl⟩)]
      change balance u contract a = _
      rw [balance, hsame u rfl, balance]
  · rw [seen, if_neg haside]
    exact hown.trans (if_congr (or_iff_right fun h => haside h.1).symm rfl rfl)

theorem balance_transferred {c a : Text} :
    balance (transferred cfg base contract tr b v) c a =
      if c = contract ∧ tr.receiver = some a then
        balance (seen cfg base (sent cfg base contract tr b v)) contract a + tr.amount
      else balance (sent cfg base contract tr b v) c a := by
  cases hr : tr.receiver with
  | none => rw [transferred, received, hr, Option.elim_none, if_neg (by rintro ⟨-, h⟩; cases h)]
  | some r =>
    rw [transferred, received, hr, Option.elim_some, credited, balance_put]
    by_cases h : c = contract ∧ a = r
    · obtain ⟨rfl, rfl⟩ := h
      rw [if_pos ⟨rfl, rfl⟩, if_pos ⟨rfl, rfl⟩]
    · rw [if_neg h, if_neg fun ⟨hc, ha⟩ => h ⟨hc, (Option.some.inj ha).symm⟩]

end Transfer

/-! ### What is to be moved -/

/-- What a transfer makes of the balances. -/
def moved (tr : Transfer) (before : Text → Nat) (a : Text) : Nat :=
  if tr.sender = tr.receiver then before a
  else if tr.receiver = some a then before a + tr.amount
  else if tr.sender = some a then before a - tr.amount
  else before a

/-- The sender has what is moved, and the receiver has room for it. -/
structure Covered (tr : Transfer) (before : Text → Nat) : Prop where
  has : ∀ a, tr.sender = some a → tr.amount ≤ before a
  room : ∀ a, tr.receiver = some a → before a + tr.amount < 2 ^ 256

/-- A transfer that is covered is moved, on the connection itself, and none ends the process. -/
structure Moves (env : Env) (cfg : Config) (contract : Text) (fields : List DecodedField)
    (b : Nat) (t : Tables) (mode : Mode t) (w : World) (tr : Transfer) : Prop where
  moves : Covered tr (balance t contract) → ∃ w',
    trackTokenTransferState env cfg contract fields b
      { w with conn := linked mode.base t } = (.ok (), w') ∧
    ∀ c a, balance w'.conn.view c a =
      if c = contract then moved tr (balance t contract) a else balance t c a
  lives : (trackTokenTransferState env cfg contract fields b
    { w with conn := linked mode.base t }).1 ≠ .crash

/-- The sum is a `u256`, unless it is that of an account with itself and what is taken is seen;
and an account that sends to itself, where it is not seen, sends nothing or has too little. -/
structure Fits (cfg : Config) (base : Option Tables) (tr : Transfer) (before : Text → Nat) :
    Prop where
  sum : ∀ a, tr.receiver = some a → Apart cfg base ∨ tr.sender ≠ some a →
    before a + tr.amount < 2 ^ 256
  self : ∀ a, tr.receiver = some a → tr.sender = some a → Apart cfg base →
    tr.amount = 0 ∨ before a < tr.amount

section Moves

variable {env : Env} {cfg : Config} {w : World} {base : Option Tables} {t : Tables}
  {contract : Text} {fields : List DecodedField} {tr : Transfer} {b : Nat}

theorem linked_view {v : Tables} : (linked base v).view = v := by
  cases base <;> rfl

theorem Mode.same (mode : Mode t) : ∀ u ∈ mode.base, u.accounts = t.accounts := by
  intro u hu
  cases mode with
  | autocommit => cases hu
  | transaction base same =>
    obtain rfl := Option.some.inj hu
    exact same

theorem sumFits_iff (hsame : ∀ u ∈ base, u.accounts = t.accounts)
    (hstored : ∀ a, balance t contract a < 2 ^ 256) (hamount : tr.amount < 2 ^ 256) :
    SumFits cfg base contract tr b t ↔
      ∀ a, tr.receiver = some a → Apart cfg base ∨ tr.sender ≠ some a →
        balance t contract a + tr.amount < 2 ^ 256 := by
  unfold SumFits
  refine forall_congr' fun a => forall_congr' fun _ => ?_
  rw [balance_seen_sent hsame]
  split
  · next h => exact ⟨fun hsum _ => hsum, fun hsum => hsum h⟩
  · next h =>
    -- An account that sends to itself: what is taken comes back.
    have hstored := hstored a
    exact ⟨fun _ h' => absurd h' h, fun _ => by omega⟩

theorem balance_moved (hsame : ∀ u ∈ base, u.accounts = t.accounts)
    (hfits : Fits cfg base tr (balance t contract)) (hcov : Covered tr (balance t contract))
    (c a : Text) : balance (transferred cfg base contract tr b t) c a =
      if c = contract then moved tr (balance t contract) a else balance t c a := by
  rw [balance_transferred, balance_seen_sent hsame, balance_sent hsame]
  by_cases hc : c = contract
  · subst hc
    simp only [true_and, if_true, moved]
    by_cases hr : tr.receiver = some a
    · by_cases hs : tr.sender = some a
      · have hhas := hcov.has a hs
        have hself := hfits.self a hr hs
        by_cases hapart : Apart cfg base
        · have hzero : tr.amount = 0 := (hself hapart).resolve_right (Nat.not_lt.2 hhas)
          simp [hr, hs, hapart, hzero]
        · simp [hr, hs, hapart, Nat.sub_add_cancel hhas]
      · simp [hr, hs]
    · by_cases hs : tr.sender = some a
      · have hne : ¬ some a = tr.receiver := fun h => hr h.symm
        simp [hr, hs, hne]
      · simp [hr, hs]
  · simp only [hc, false_and, if_false]

theorem Fits.of_moved (hsame : ∀ u ∈ base, u.accounts = t.accounts)
    (hsum : ∀ a, tr.receiver = some a → Apart cfg base ∨ tr.sender ≠ some a →
      balance t contract a + tr.amount < 2 ^ 256)
    (hmoved : Covered tr (balance t contract) → ∀ a,
      balance (transferred cfg base contract tr b t) contract a =
        moved tr (balance t contract) a) : Fits cfg base tr (balance t contract) := by
  refine ⟨hsum, fun a hr hs hapart => ?_⟩
  by_contra hnot
  have hroom := hsum a hr (.inl hapart)
  have hcov : Covered tr (balance t contract) :=
    ⟨fun x hx => by
      obtain rfl := Option.some.inj (hs.symm.trans hx)
      omega,
    fun x hx => by
      obtain rfl := Option.some.inj (hr.symm.trans hx)
      exact hroom⟩
  have heq := hmoved hcov a
  rw [balance_transferred, if_pos ⟨rfl, hr⟩, balance_seen_sent hsame, if_pos (.inl hapart), moved,
    if_pos (hs.trans hr.symm)] at heq
  omega

/-- A transfer is moved, and nothing ends the process, exactly if its sum is a `u256` and it is
not of an account to itself across two connections. -/
theorem moves_iff (mode : Mode t) (h : Answers env w.now) (hstate : w.mem.state ≠ .replaying)
    (htr : transferOf fields = some tr) (hstored : ∀ a, balance t contract a < 2 ^ 256) :
    Moves env cfg contract fields b t mode w tr ↔ Fits cfg mode.base tr (balance t contract) := by
  have hsums : SumFits cfg mode.base contract tr b t ↔ _ :=
    sumFits_iff mode.same hstored (amount_lt htr)
  have hrun (hsum : SumFits cfg mode.base contract tr b t) :=
    track_eq (w := { w with conn := linked mode.base t }) h rfl hstate htr hsum
  constructor
  · intro hm
    have hsum : SumFits cfg mode.base contract tr b t := by
      by_contra hnot
      exact hm.lives (track_crash h rfl hstate htr hnot)
    refine Fits.of_moved (b := b) mode.same (hsums.1 hsum) fun hcov a => ?_
    obtain ⟨w', hw', hbal⟩ := hm.moves hcov
    rw [hrun hsum] at hw'
    obtain ⟨-, rfl⟩ := Prod.mk.inj hw'
    have ha := hbal contract a
    rwa [linked_view, if_pos rfl] at ha
  · intro hf
    have hsum := hrun (hsums.2 hf.sum)
    refine ⟨fun hcov => ⟨_, hsum, fun c a => ?_⟩, ?_⟩
    · rw [linked_view]
      exact balance_moved mode.same hf hcov c a
    · rw [hsum]
      exact fun h => by cases h

/-- The contract and the account of the examples. -/
def token : Text := "0xAA".toList
def alice : Text := "0xaa".toList

/-- Three to oneself. -/
def selfFields : List DecodedField :=
  [⟨"from".toList, alice⟩, ⟨"to".toList, alice⟩, ⟨"value".toList, "3".toList⟩]

/-- A database in which the account has five. -/
def funded : Tables := Tables.putAccount token alice ⟨5, 1⟩ {}

/-- Reads of balances through the second connection. -/
def asideConfig : Config := { plainConfig with readDb := true }

/-- Three to oneself on one connection leave five. -/
theorem moves_self : Fits plainConfig (some funded) ⟨some alice, some alice, 3⟩
    (balance funded token) ∧
    Moves {} plainConfig token selfFields 2 funded (.transaction funded rfl) freshWorld
      ⟨some alice, some alice, 3⟩ := by
  have hstored : ∀ a, balance funded token a < 2 ^ 256 := by
    intro a
    rw [funded, balance_put]
    split
    · decide
    · change 0 < 2 ^ 256
      decide
  have hfits : Fits plainConfig (some funded) ⟨some alice, some alice, 3⟩ (balance funded token) :=
    ⟨fun a hr h => absurd hr (h.resolve_left (by decide)), fun a _ _ h => absurd h (by decide)⟩
  exact ⟨hfits, (moves_iff (.transaction funded rfl) (fun _ => ⟨rfl, rfl⟩) (by decide) (by decide)
    hstored).2 hfits⟩

/-- Three to oneself across two connections make eight of five. -/
theorem not_moves_self : ¬ Moves {} asideConfig token selfFields 2 funded
    (.transaction funded rfl) freshWorld ⟨some alice, some alice, 3⟩ := by
  intro hm
  have hhas : balance funded token alice = 5 := by decide
  have hcov : Covered ⟨some alice, some alice, 3⟩ (balance funded token) :=
    ⟨fun a ha => by
      obtain rfl := Option.some.inj ha
      rw [hhas]
      decide,
    fun a ha => by
      obtain rfl := Option.some.inj ha
      rw [hhas]
      decide⟩
  obtain ⟨w', hw', hbal⟩ := hm.moves hcov
  have hafter : balance (trackTokenTransferState {} asideConfig token selfFields 2
      { freshWorld with conn := linked (some funded) funded }).2.conn.view token alice = 8 := by
    decide
  have hsaid := hbal token alice
  change trackTokenTransferState {} asideConfig token selfFields 2
    { freshWorld with conn := linked (some funded) funded } = _ at hw'
  rw [hw'] at hafter
  rw [hafter, if_pos rfl, moved, if_pos rfl, hhas] at hsaid
  exact absurd hsaid (by decide)

end Moves

end Balances

end Zponder

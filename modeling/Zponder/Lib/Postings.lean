import Mathlib

/-!
# Postings and balances

A posting moves an amount from one account to another. Without a payer the amount is new, without
a payee it is gone. Balances settle a list of postings if every account has what it has received
less what it has paid, so that nobody has paid what he did not have.

Balances that settle a list keep settling it if they follow every further posting
(`Imperative.Posting.Settled.append`), and together they are what is new less what is gone
(`Imperative.Posting.Settled.supply`).
-/

namespace Imperative

/-- An amount, from whom and to whom. -/
structure Posting (κ : Type) where
  payer : Option κ
  payee : Option κ
  amount : ℕ
  deriving DecidableEq, Repr

namespace Posting

variable {κ : Type} [DecidableEq κ] {p : Posting κ} {ps : List (Posting κ)} {b b' : κ → ℕ}

/-- What a party has of an amount that is all its own. -/
def share (party : Option κ) (n : ℕ) (a : κ) : ℕ := if party = some a then n else 0

/-- The amount, where there is no party. -/
def unshared (party : Option κ) (n : ℕ) : ℕ := if party = none then n else 0

/-- What it takes from an account. -/
def charge (p : Posting κ) (a : κ) : ℕ := share p.payer p.amount a

/-- What it brings an account. -/
def credit (p : Posting κ) (a : κ) : ℕ := share p.payee p.amount a

/-- What an account has paid. -/
def paid (ps : List (Posting κ)) (a : κ) : ℕ := (ps.map (·.charge a)).sum

/-- What it has received. -/
def received (ps : List (Posting κ)) (a : κ) : ℕ := (ps.map (·.credit a)).sum

/-- What is new. -/
def minted (ps : List (Posting κ)) : ℕ := (ps.map fun p => unshared p.payer p.amount).sum

/-- What is gone. -/
def burnt (ps : List (Posting κ)) : ℕ := (ps.map fun p => unshared p.payee p.amount).sum

/-- **The balances are those the postings leave**, to whoever began with nothing. -/
def Settled (ps : List (Posting κ)) (b : κ → ℕ) : Prop := ∀ a, b a + paid ps a = received ps a

theorem settled_nil : Settled ([] : List (Posting κ)) fun _ => 0 := fun _ => rfl

theorem paid_append (a : κ) : paid (ps ++ [p]) a = paid ps a + p.charge a := by
  rw [paid, List.map_append, List.sum_append, List.map_singleton, List.sum_singleton, paid]

theorem received_append (a : κ) : received (ps ++ [p]) a = received ps a + p.credit a := by
  rw [received, List.map_append, List.sum_append, List.map_singleton, List.sum_singleton, received]

/-- **One more posting.** -/
theorem Settled.append (h : Settled ps b) (hp : ∀ a, b' a + p.charge a = b a + p.credit a) :
    Settled (ps ++ [p]) b' := by
  intro a
  have hbefore := h a
  have hstep := hp a
  rw [paid_append, received_append]
  omega

/-! ### The supply -/

/-- The parties of a posting are among some accounts. -/
def Among (s : Finset κ) (p : Posting κ) : Prop := (∀ a ∈ p.payer, a ∈ s) ∧ ∀ a ∈ p.payee, a ∈ s

/-- A party that is there has the amount once. -/
theorem sum_share {s : Finset κ} {party : Option κ} (hs : ∀ a ∈ party, a ∈ s) (n : ℕ) :
    ∑ a ∈ s, share party n a + unshared party n = n := by
  cases party with
  | none => simp [share, unshared]
  | some a =>
    have ha : a ∈ s := hs a rfl
    simp [share, unshared, ha]

/-- All parties together have all amounts, but for those without a party. -/
theorem sum_shares {s : Finset κ} (party : Posting κ → Option κ)
    (hs : ∀ p ∈ ps, ∀ a ∈ party p, a ∈ s) :
    ∑ a ∈ s, (ps.map fun p => share (party p) p.amount a).sum +
      (ps.map fun p => unshared (party p) p.amount).sum = (ps.map (·.amount)).sum := by
  induction ps with
  | nil => simp
  | cons p ps ih =>
    obtain ⟨hp, hps⟩ := List.forall_mem_cons.1 hs
    have hfirst := sum_share hp p.amount
    have hrest := ih hps
    simp only [List.map_cons, List.sum_cons, Finset.sum_add_distrib]
    omega

/-- **The supply**: together the parties have what is new less what is gone. -/
theorem Settled.supply (h : Settled ps b) {s : Finset κ} (hs : ∀ p ∈ ps, p.Among s) :
    ∑ a ∈ s, b a + burnt ps = minted ps := by
  have hpaid : ∑ a ∈ s, paid ps a + minted ps = (ps.map (·.amount)).sum :=
    sum_shares (·.payer) fun p hp => (hs p hp).1
  have hreceived : ∑ a ∈ s, received ps a + burnt ps = (ps.map (·.amount)).sum :=
    sum_shares (·.payee) fun p hp => (hs p hp).2
  have hsum : ∑ a ∈ s, b a + ∑ a ∈ s, paid ps a = ∑ a ∈ s, received ps a := by
    rw [← Finset.sum_add_distrib]
    exact Finset.sum_congr rfl fun a _ => h a
  omega

end Posting

end Imperative

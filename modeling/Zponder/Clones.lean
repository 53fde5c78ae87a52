import Zponder.RunLoop
import Zponder.Lib.Machine

/-!
# The clones of a template, in memory and in the table

A clone that is discovered is put into the set of the template and into the table
`template_addresses`, one after the other, and a fork takes the clones of its blocks out of both.
A process that starts again has the table only.

The set is modelled here with its two lists and with every allocation that may fail, and each
call of the database may fail on its own. What a restart makes of the table is what the set says
(`Zponder.Clones.Agrees`), as long as two things do not happen: that the fork is taken out of the
set and the deletion fails, and that a clone which an allocation has dropped from the set is
discovered anew on another block, where the table keeps the old one. These are the only ones
(`Zponder.Clones.set_and_table_agree_iff`).
-/

namespace Zponder.Clones

open Imperative

/-! ### The set -/

/-- `TemplateAddressSet` -/
structure CloneSet where
  live : List Text := []
  liveBlocks : List Nat := []
  pending : List (Text × Nat) := []
  deriving DecidableEq, Repr

namespace CloneSet

/-- `add`: the set, and whether the address is new. `dupe` and `append` are the allocations. -/
def add (dupe append : Bool) (address : Text) (fromBlock : Nat) (s : CloneSet) :
    CloneSet × Bool :=
  if s.live.contains address then (s, false)
  else if s.pending.any (·.1 == address) then (s, false)
  else if dupe && append then ({ s with pending := s.pending ++ [(address, fromBlock)] }, true)
  else (s, false)

/-- `dropPending` -/
def dropPending (address : Text) (s : CloneSet) : CloneSet :=
  { s with pending := s.pending.eraseP (·.1 == address) }

/-- `markBackfilled`: from pending to live. If one of the two lists cannot grow, the address is in
neither. -/
def markBackfilled (appendLive appendBlock : Bool) (address : Text) (s : CloneSet) : CloneSet :=
  match s.pending.find? (·.1 == address) with
  | none => s
  | some p =>
    let pending := s.pending.eraseP (·.1 == address)
    if appendLive && appendBlock then
      ⟨s.live ++ [p.1], s.liveBlocks ++ [p.2], pending⟩
    else { s with pending }

/-- The loop over `live` in `removeFromBlock`, which takes the block from the other list. -/
def removeLive (fromBlock : Nat) : List Text → List Nat → Option (List Text × List Nat)
  | [], blocks => some ([], blocks)
  | _ :: _, [] => none
  | a :: live, b :: blocks =>
    if b ≥ fromBlock then removeLive fromBlock live blocks
    else (removeLive fromBlock live blocks).map fun kept => (a :: kept.1, b :: kept.2)

/-- `removeFromBlock` -/
def removeFromBlock (fromBlock : Nat) (s : CloneSet) : Option CloneSet :=
  (removeLive fromBlock s.live s.liveBlocks).map fun kept =>
    ⟨kept.1, kept.2, s.pending.filter fun p => !decide (p.2 ≥ fromBlock)⟩

/-- The clones with their blocks: those that are live, and those that wait. -/
def known (s : CloneSet) : List (Text × Nat) := s.live.zip s.liveBlocks ++ s.pending

/-- The addresses. -/
def addresses (s : CloneSet) : List Text := s.live ++ s.pending.map (·.1)

end CloneSet

/-! ### The table -/

/-- The largest number an `i64` holds. -/
def i64Max : Nat := 2 ^ 63 - 1

/-- A call that fails leaves the table as it is. -/
def attempt (succeeds : Bool) (f : Tables → Tables) (t : Tables) : Tables :=
  if succeeds then f t else t

/-- `Client.addTemplateAddress`, which ends the program if the block is no `i64`. -/
def addTemplateAddress (succeeds : Bool) (template address : Text) (fromBlock : Nat)
    (t : Tables) : Option Tables :=
  if fromBlock ≤ i64Max then
    some (attempt succeeds (Tables.addTemplateAddress ⟨template, address, fromBlock, false⟩) t)
  else none

/-- `Client.deleteTemplateAddressesFromBlock` -/
def deleteTemplateAddressesFromBlock (succeeds : Bool) (template : Text) (fromBlock : Nat)
    (t : Tables) : Option Tables :=
  if fromBlock ≤ i64Max then
    some (attempt succeeds (Tables.deleteTemplateAddresses template fromBlock) t)
  else none

/-- The rows of a template. -/
def rows (template : Text) (t : Tables) : List TemplateAddress :=
  t.templateAddresses.filter (·.template == template)

/-- `Client.listTemplateAddresses` -/
def listTemplateAddresses (template : Text) (t : Tables) : List TemplateAddress :=
  (rows template t).insertionSort fun a b =>
    a.fromBlock < b.fromBlock ∨ (a.fromBlock = b.fromBlock ∧ Text.le a.address b.address = true)

/-! ### The indexer -/

/-- Which of the calls and of the allocations of an operation succeed, in their order. -/
structure Luck where
  db : Nat → Bool
  alloc : Nat → Bool

/-- Nothing fails. -/
def Luck.good : Luck := ⟨fun _ => true, fun _ => true⟩

/-- One row in `loadTemplateAddressesInto`. -/
def loadRow (alloc : Nat → Bool) (s : CloneSet) (row : TemplateAddress × Nat) : CloneSet :=
  let (r, i) := row
  let (s, _) := s.add (alloc (4 * i)) (alloc (4 * i + 1)) r.address r.fromBlock
  if r.backfilled then s.markBackfilled (alloc (4 * i + 2)) (alloc (4 * i + 3)) r.address else s

/-- `loadTemplateAddressesInto`, of a set that is new. -/
def loadTemplateAddressesInto (luck : Luck) (template : Text) (t : Tables) : CloneSet :=
  if luck.db 0 then (listTemplateAddresses template t).zipIdx.foldl (loadRow luck.alloc) {} else {}

/-- What the indexer does with its clones. -/
inductive Op where
  | discoverAddress (address : Text) (fromBlock : Nat)
  | markAddressBackfilled (address : Text)
  | rollbackTo (forkBlock : Nat)
  | restart

/-- The set and the table, with what has come before: the addresses that a fork has taken out of the
set and that were not discovered since, and for an address the block from which it was
scanned when the table was told so. -/
structure State where
  set : CloneSet
  tables : Tables
  gone : List Text
  scanned : Text → Option Nat

section Step

variable (template : Text)

/-- The block an address was discovered on: by the set, or by the table. -/
def discovered (s : State) (address : Text) : Option Nat :=
  match s.set.known.find? (·.1 == address) with
  | some p => some p.2
  | none => ((rows template s.tables).find? (·.address == address)).map (·.fromBlock)

/-- `discoverAddress` -/
def discoverAddress (luck : Luck) (address : Text) (fromBlock : Nat) (s : State) : Option State :=
  match Text.normalizeHexAddress address with
  | none => some s
  | some normalized =>
    let (set, isNew) := s.set.add (luck.alloc 0) (luck.alloc 1) normalized fromBlock
    if isNew then
      (addTemplateAddress (luck.db 0) template normalized fromBlock s.tables).map fun tables =>
        if luck.db 0 then
          { s with set, tables, gone := s.gone.filter (· != normalized) }
        else { s with set := set.dropPending normalized, tables }
    else some s

/-- `markAddressBackfilled` -/
def markAddressBackfilled (luck : Luck) (address : Text) (s : State) : State where
  set := s.set.markBackfilled (luck.alloc 0) (luck.alloc 1) address
  tables := attempt (luck.db 0) (Tables.markBackfilled template address) s.tables
  gone := s.gone
  scanned := if luck.db 0 then Function.update s.scanned address (discovered template s address)
    else s.scanned

/-- The live clones are written again at the end of `rollbackTo`. -/
def writeLive (luck : Luck) (live : List ((Text × Nat) × Nat)) (t : Tables) : Option Tables :=
  live.foldlM (fun t a => addTemplateAddress (luck.db (2 + a.2)) template a.1.1 a.1.2 t) t

/-- `rollbackTo`. The first call is `rollbackFromBlock`, which leaves the table of the clones
alone. -/
def rollbackTo (luck : Luck) (forkBlock : Nat) (s : State) : Option State := do
  let tables ← deleteTemplateAddressesFromBlock (luck.db 1) template forkBlock s.tables
  let set ← s.set.removeFromBlock forkBlock
  let tables ← writeLive template luck (set.live.zip set.liveBlocks).zipIdx tables
  return { s with
    set, tables
    gone := s.gone ++ (s.set.known.filter fun p => decide (p.2 ≥ forkBlock)).map (·.1) }

/-- An operation. Without an outcome the program has ended within it. -/
def step (s : State) (op : Op × Luck) : Option State :=
  match op.1 with
  | .discoverAddress address fromBlock => discoverAddress template op.2 address fromBlock s
  | .markAddressBackfilled address => some (markAddressBackfilled template op.2 address s)
  | .rollbackTo forkBlock => rollbackTo template op.2 forkBlock s
  | .restart => some { s with set := loadTemplateAddressesInto op.2 template s.tables }

/-- The indexer of a template that is new to a database. -/
def machine (t : Tables) : Machine State (Op × Luck) where
  init := ⟨{}, Tables.deleteTemplateAddresses template 0 t, [], fun _ => none⟩
  step := step template

/-! ### What the table is for -/

/-- What a restart would make of the table. -/
def restored (s : State) : CloneSet := loadTemplateAddressesInto Luck.good template s.tables

/-- **The set and the table agree.** -/
structure Agrees (s : State) : Prop where
  lengths : s.set.live.length = s.set.liveBlocks.length
  once : s.set.addresses.Nodup
  /-- A restart brings back what is known, with its block, -/
  known : ∀ p ∈ s.set.known, p ∈ (restored template s).known
  /-- nothing that a fork has taken away, -/
  gone : ∀ a ∈ s.gone, a ∉ (restored template s).addresses
  /-- and nothing as scanned whose block is newer than the scan. -/
  scanned : ∀ p ∈ (restored template s).live.zip (restored template s).liveBlocks,
    ∃ since, s.scanned p.1 = some since ∧ p.2 ≤ since ∧
      ∀ b, (p.1, b) ∈ s.set.known → b ≤ since

/-- The operations that go well: the deletion succeeds if there is a clone to be taken out, and a
clone that the table still has is discovered on the block it has there. -/
def Careful (s : State) (op : Op × Luck) : Prop :=
  match op.1 with
  | .discoverAddress address fromBlock => ∀ normalized,
      Text.normalizeHexAddress address = some normalized → normalized ∉ s.set.addresses →
      op.2.alloc 0 = true → op.2.alloc 1 = true → op.2.db 0 = true →
      ∀ r ∈ rows template s.tables, r.address = normalized → r.fromBlock = fromBlock
  | .rollbackTo forkBlock => op.2.db 1 = true ∨ ∀ p ∈ s.set.known, p.2 < forkBlock
  | _ => True

end Step

/-! ### The set -/

namespace CloneSet

/-- The two lists fit, and no address is there twice. -/
structure Ok (s : CloneSet) : Prop where
  lengths : s.live.length = s.liveBlocks.length
  once : s.addresses.Nodup

theorem map_known {s : CloneSet} (h : s.live.length = s.liveBlocks.length) :
    s.known.map (·.1) = s.addresses := by
  rw [known, List.map_append, List.map_fst_zip h.le]
  rfl

theorem mem_addresses {s : CloneSet} (h : s.live.length = s.liveBlocks.length) {a : Text} :
    a ∈ s.addresses ↔ ∃ b, (a, b) ∈ s.known := by
  rw [← map_known h, List.mem_map]
  constructor
  · rintro ⟨p, hp, rfl⟩
    exact ⟨p.2, hp⟩
  · rintro ⟨b, hb⟩
    exact ⟨(a, b), hb, rfl⟩

theorem ok_empty : Ok {} := ⟨rfl, List.nodup_nil⟩

/-- An address that is added waits behind the others. -/
theorem add_of_new {s : CloneSet} {a : Text} (h : a ∉ s.addresses) (b : Nat) :
    s.add true true a b = ({ s with pending := s.pending ++ [(a, b)] }, true) := by
  rw [addresses, List.mem_append, not_or, List.mem_map] at h
  have hlive : ¬s.live.contains a = true := by simpa using h.1
  have hpending : ¬(s.pending.any fun p => p.1 == a) = true := by
    rw [List.any_eq_true]
    rintro ⟨p, hp, hpa⟩
    exact h.2 ⟨p, hp, eq_of_beq hpa⟩
  rw [add, if_neg hlive, if_neg hpending]
  rfl

/-- Otherwise the set stays as it is. -/
theorem add_of_not {s : CloneSet} {dupe append : Bool} {a : Text} (b : Nat)
    (h : ¬(a ∉ s.addresses ∧ dupe = true ∧ append = true)) :
    s.add dupe append a b = (s, false) := by
  unfold add
  split
  · rfl
  split
  · rfl
  next hlive hpending =>
  rw [if_neg]
  rintro hluck
  rw [Bool.and_eq_true] at hluck
  refine h ⟨?_, hluck⟩
  rw [addresses, List.mem_append, not_or, List.mem_map]
  refine ⟨by simpa using hlive, ?_⟩
  rintro ⟨p, hp, rfl⟩
  exact hpending (List.any_eq_true.2 ⟨p, hp, beq_self_eq_true _⟩)

theorem known_pending (s : CloneSet) (p : Text × Nat) :
    ({ s with pending := s.pending ++ [p] } : CloneSet).known = s.known ++ [p] :=
  (List.append_assoc _ _ _).symm

theorem addresses_pending (s : CloneSet) (p : Text × Nat) :
    ({ s with pending := s.pending ++ [p] } : CloneSet).addresses = s.addresses ++ [p.1] := by
  simp [addresses]

theorem Ok.pending {s : CloneSet} (h : s.Ok) {a : Text} (ha : a ∉ s.addresses) (b : Nat) :
    Ok { s with pending := s.pending ++ [(a, b)] } := by
  refine ⟨h.lengths, ?_⟩
  rw [addresses_pending]
  exact h.once.append (List.nodup_singleton a) (by simpa using ha)

/-- **What was added and could not be stored is taken back.** -/
theorem dropPending_pending {s : CloneSet} {a : Text} (ha : a ∉ s.addresses) (b : Nat) :
    ({ s with pending := s.pending ++ [(a, b)] } : CloneSet).dropPending a = s := by
  rw [addresses, List.mem_append, not_or, List.mem_map] at ha
  have hnone : ∀ p ∈ s.pending, ¬(p.1 == a) = true := by
    intro p hp hpa
    exact ha.2 ⟨p, hp, eq_of_beq hpa⟩
  rw [dropPending, List.eraseP_append_right _ hnone]
  simp

/-- **An address goes from pending to live**, or is dropped. -/
theorem markBackfilled_cases {s : CloneSet} (appendLive appendBlock : Bool) (a : Text) :
    (s.markBackfilled appendLive appendBlock a = s ∧ ∀ b, (a, b) ∉ s.pending) ∨
      ∃ b xs ys, s.pending = xs ++ (a, b) :: ys ∧
        s.markBackfilled appendLive appendBlock a =
          if appendLive && appendBlock then ⟨s.live ++ [a], s.liveBlocks ++ [b], xs ++ ys⟩
          else { s with pending := xs ++ ys } := by
  unfold markBackfilled
  cases hfind : s.pending.find? (·.1 == a) with
  | none =>
    left
    refine ⟨rfl, fun b hb => ?_⟩
    exact List.find?_eq_none.1 hfind _ hb (beq_self_eq_true a)
  | some p =>
    right
    obtain ⟨hp, xs, ys, hsplit, hxs⟩ := List.find?_eq_some_iff_append.1 hfind
    obtain rfl := eq_of_beq hp
    refine ⟨p.2, xs, ys, hsplit, ?_⟩
    have herase : s.pending.eraseP (·.1 == p.1) = xs ++ ys := by
      rw [hsplit, List.eraseP_append_right _ fun q hq => by simpa using hxs q hq]
      simp
    dsimp only
    rw [herase]

/-- What is known afterwards was known before. -/
theorem known_markBackfilled {s : CloneSet} (h : s.Ok) (appendLive appendBlock : Bool) (a : Text) :
    (s.markBackfilled appendLive appendBlock a).Ok ∧
      ∀ p ∈ (s.markBackfilled appendLive appendBlock a).known, p ∈ s.known := by
  rcases markBackfilled_cases appendLive appendBlock a with ⟨heq, -⟩ | ⟨b, xs, ys, hsplit, heq⟩
  · rw [heq]
    exact ⟨h, fun p hp => hp⟩
  have honce := h.once
  rw [addresses, hsplit] at honce
  rw [heq]
  split
  · refine ⟨⟨?_, ?_⟩, fun p hp => ?_⟩
    · simpa using h.lengths
    · refine (List.Perm.nodup_iff ?_).1 honce
      simp only [addresses, List.map_append, List.map_cons, List.append_assoc,
        List.singleton_append]
      exact List.Perm.append_left _ List.perm_middle
    · rw [known, List.zip_append h.lengths] at hp
      rw [known, hsplit]
      simp only [List.mem_append, List.zip_cons_cons, List.zip_nil_left,
        List.mem_cons] at hp ⊢
      tauto
  · refine ⟨⟨h.lengths, ?_⟩, fun p hp => ?_⟩
    · refine honce.sublist ?_
      refine List.Sublist.append_left (List.Sublist.map _ ?_) _
      exact List.Sublist.append_left (List.sublist_cons_self _ _) _
    · rw [known] at hp
      rw [known, hsplit]
      simp only [List.mem_append, List.mem_cons] at hp ⊢
      tauto

/-- **Nothing is lost where no allocation fails.** -/
theorem mem_markBackfilled {s : CloneSet} (h : s.Ok) {a : Text} {b : Nat}
    (hb : (a, b) ∈ s.pending) (p : Text × Nat) :
    (p ∈ (s.markBackfilled true true a).known ↔ p ∈ s.known) ∧
      (p ∈ (s.markBackfilled true true a).live.zip (s.markBackfilled true true a).liveBlocks ↔
        p ∈ s.live.zip s.liveBlocks ∨ p = (a, b)) := by
  rcases markBackfilled_cases true true a with ⟨-, hnot⟩ | ⟨c, xs, ys, hsplit, heq⟩
  · exact absurd hb (hnot b)
  have hbc : b = c := by
    have honce : (s.pending.map (·.1)).Nodup := h.once.of_append_right
    have hc : (a, c) ∈ s.pending := by
      rw [hsplit]
      exact List.mem_append_right _ List.mem_cons_self
    exact (Prod.mk.inj (List.inj_on_of_nodup_map honce hb hc rfl)).2
  subst hbc
  rw [heq]
  simp only [Bool.and_self, if_true, known, List.zip_append h.lengths, hsplit, List.mem_append,
    List.zip_cons_cons, List.zip_nil_left, List.mem_cons, List.not_mem_nil, or_false]
  exact ⟨by tauto, trivial⟩

theorem removeLive_spec (f : Nat) {live : List Text} {blocks : List Nat}
    (h : live.length = blocks.length) : ∃ kept, removeLive f live blocks = some kept ∧
      kept.1.length = kept.2.length ∧
      kept.1.zip kept.2 = (live.zip blocks).filter fun p => !decide (p.2 ≥ f) := by
  induction live generalizing blocks with
  | nil =>
    obtain rfl := List.eq_nil_of_length_eq_zero h.symm
    exact ⟨([], []), rfl, rfl, rfl⟩
  | cons a live ih =>
    cases blocks with
    | nil => cases h
    | cons b blocks =>
      obtain ⟨kept, hkept, hlen, hzip⟩ := ih (Nat.succ.inj h)
      rw [removeLive, List.zip_cons_cons, List.filter_cons]
      by_cases hb : b ≥ f
      · rw [if_pos hb, if_neg (by simpa using hb)]
        exact ⟨kept, hkept, hlen, hzip⟩
      · rw [if_neg hb, if_pos (by simpa using hb), hkept]
        refine ⟨(a :: kept.1, b :: kept.2), rfl, ?_, ?_⟩
        · exact congrArg Nat.succ hlen
        · rw [List.zip_cons_cons, hzip]

/-- **The clones of a fork are taken out**, and no others. -/
theorem removeFromBlock_spec (f : Nat) {s : CloneSet} (h : s.Ok) :
    ∃ t, s.removeFromBlock f = some t ∧ t.Ok ∧
      t.known = s.known.filter fun p => !decide (p.2 ≥ f) := by
  obtain ⟨kept, hkept, hlen, hzip⟩ := removeLive_spec f h.lengths
  have hknown : (⟨kept.1, kept.2, s.pending.filter fun p => !decide (p.2 ≥ f)⟩ : CloneSet).known =
      s.known.filter fun p => !decide (p.2 ≥ f) := by
    rw [known, known, List.filter_append, hzip]
  refine ⟨_, by rw [removeFromBlock, hkept]; rfl, ⟨hlen, ?_⟩, hknown⟩
  rw [← map_known hlen, hknown]
  have honce := h.once
  rw [← map_known h.lengths] at honce
  exact honce.sublist (List.Sublist.map _ List.filter_sublist)

end CloneSet

/-! ### The table -/

section Table

variable {template : Text}

theorem rows_addTemplateAddress (a : Text) (b : Nat) (t : Tables) :
    rows template (Tables.addTemplateAddress ⟨template, a, b, false⟩ t) =
      if ∃ r ∈ rows template t, r.address = a then rows template t
      else rows template t ++ [⟨template, a, b, false⟩] := by
  have hany : (t.templateAddresses.any fun r => r.template == template && r.address == a) = true ↔
      ∃ r ∈ rows template t, r.address = a := by
    simp only [rows, List.any_eq_true, Bool.and_eq_true, beq_iff_eq, List.mem_filter]
    constructor
    · rintro ⟨r, hr, htemplate, haddress⟩
      exact ⟨r, ⟨hr, htemplate⟩, haddress⟩
    · rintro ⟨r, ⟨hr, htemplate⟩, haddress⟩
      exact ⟨r, hr, htemplate, haddress⟩
  unfold Tables.addTemplateAddress
  by_cases hold : ∃ r ∈ rows template t, r.address = a
  · rw [if_pos (hany.2 hold), if_pos hold]
  · rw [if_neg (fun h => hold (hany.1 h)), if_neg hold]
    simp [rows]

theorem rows_markBackfilled (address : Text) (t : Tables) :
    rows template (Tables.markBackfilled template address t) =
      (rows template t).map fun r =>
        if r.address = address then { r with backfilled := true } else r := by
  simp only [rows, Tables.markBackfilled]
  induction t.templateAddresses with
  | nil => rfl
  | cons r rs ih =>
    by_cases htemplate : r.template = template
    · by_cases haddress : r.address = address
      · simp [htemplate, haddress, ih]
      · simp [htemplate, haddress, ih]
    · simp [htemplate, ih]

theorem rows_deleteTemplateAddresses (f : Nat) (t : Tables) :
    rows template (Tables.deleteTemplateAddresses template f t) =
      (rows template t).filter fun r => !decide (f ≤ r.fromBlock) := by
  simp only [rows, Tables.deleteTemplateAddresses, List.filter_filter]
  refine List.filter_congr fun r _ => ?_
  cases r.template == template <;> cases decide (f ≤ r.fromBlock) <;> rfl

/-- A row of the table, as it is in the set. -/
def entry (r : TemplateAddress) : Text × Nat := (r.address, r.fromBlock)

/-- The live clones have their rows, and writing them again changes nothing. -/
theorem writeLive_of_rows (luck : Luck) {live : List ((Text × Nat) × Nat)} {t u : Tables}
    (hrows : ∀ a ∈ live, ∃ r ∈ rows template t, entry r = a.1)
    (h : writeLive template luck live t = some u) : rows template u = rows template t := by
  induction live generalizing t with
  | nil =>
    obtain rfl := Option.some.inj h
    rfl
  | cons a live ih =>
    obtain ⟨⟨r, hr, hentry⟩, hrest⟩ := List.forall_mem_cons.1 hrows
    rw [writeLive, List.foldlM_cons, Option.bind_eq_bind, Option.bind_eq_some_iff] at h
    obtain ⟨v, hv, h⟩ := h
    have hsame : rows template v = rows template t := by
      unfold addTemplateAddress at hv
      split at hv
      · obtain rfl := Option.some.inj hv
        unfold attempt
        split
        · rw [rows_addTemplateAddress, if_pos]
          exact ⟨r, hr, congrArg Prod.fst hentry⟩
        · rfl
      · cases hv
    rw [ih (t := v) (by rwa [hsame]) h, hsame]

/-! ### What a restart makes of the table -/

theorem mem_listTemplateAddresses {t : Tables} {r : TemplateAddress} :
    r ∈ listTemplateAddresses template t ↔ r ∈ rows template t := List.mem_insertionSort _

/-- **Loading a row**, whatever fails: what is known afterwards was known or is the row. -/
theorem loadRow_ok (alloc : Nat → Bool) {s : CloneSet} (h : s.Ok) (row : TemplateAddress × Nat) :
    (loadRow alloc s row).Ok ∧
      ∀ p ∈ (loadRow alloc s row).known, p ∈ s.known ∨ p = entry row.1 := by
  obtain ⟨r, i⟩ := row
  have hadd : ∃ t b, s.add (alloc (4 * i)) (alloc (4 * i + 1)) r.address r.fromBlock = (t, b) ∧
      t.Ok ∧ ∀ p ∈ t.known, p ∈ s.known ∨ p = entry r := by
    by_cases hnew : r.address ∉ s.addresses ∧ alloc (4 * i) = true ∧ alloc (4 * i + 1) = true
    · obtain ⟨hnew, hdupe, happend⟩ := hnew
      rw [hdupe, happend, CloneSet.add_of_new hnew]
      refine ⟨_, _, rfl, h.pending hnew _, fun p hp => ?_⟩
      rw [CloneSet.known_pending, List.mem_append, List.mem_singleton] at hp
      exact hp
    · rw [CloneSet.add_of_not _ hnew]
      exact ⟨_, _, rfl, h, fun p hp => .inl hp⟩
  obtain ⟨t, b, heq, hok, hknown⟩ := hadd
  rw [loadRow, heq]
  dsimp only
  split
  · obtain ⟨hok', hsub⟩ := CloneSet.known_markBackfilled hok (alloc (4 * i + 2))
      (alloc (4 * i + 3)) r.address
    exact ⟨hok', fun p hp => hknown p (hsub p hp)⟩
  · exact ⟨hok, hknown⟩

theorem foldl_loadRow_ok (alloc : Nat → Bool) (rs : List (TemplateAddress × Nat)) {s : CloneSet}
    (h : s.Ok) : (rs.foldl (loadRow alloc) s).Ok ∧
      ∀ p ∈ (rs.foldl (loadRow alloc) s).known, p ∈ s.known ∨ ∃ row ∈ rs, p = entry row.1 := by
  induction rs generalizing s with
  | nil => exact ⟨h, fun p hp => .inl hp⟩
  | cons row rs ih =>
    obtain ⟨hok, hknown⟩ := loadRow_ok alloc h row
    obtain ⟨hok', hknown'⟩ := ih hok
    refine ⟨hok', fun p hp => ?_⟩
    rcases hknown' p hp with hp | ⟨row', hrow', rfl⟩
    · rcases hknown p hp with hp | rfl
      · exact .inl hp
      · exact .inr ⟨row, List.mem_cons_self, rfl⟩
    · exact .inr ⟨row', List.mem_cons_of_mem _ hrow', rfl⟩

variable (template) in
/-- **A restart knows only what the table has**, whatever fails. -/
theorem loadTemplateAddressesInto_ok (luck : Luck) (t : Tables) :
    (loadTemplateAddressesInto luck template t).Ok ∧
      ∀ p ∈ (loadTemplateAddressesInto luck template t).known,
        ∃ r ∈ rows template t, entry r = p := by
  unfold loadTemplateAddressesInto
  split
  · obtain ⟨hok, hknown⟩ := foldl_loadRow_ok luck.alloc
      (listTemplateAddresses template t).zipIdx CloneSet.ok_empty
    refine ⟨hok, fun p hp => ?_⟩
    rcases hknown p hp with hp | ⟨row, hrow, rfl⟩
    · cases hp
    · exact ⟨row.1, mem_listTemplateAddresses.1 (List.fst_mem_of_mem_zipIdx hrow), rfl⟩
  · exact ⟨CloneSet.ok_empty, fun p hp => by cases hp⟩

/-- Where nothing fails, a row with a new address is loaded, and is live if it was scanned. -/
theorem loadRow_good {s : CloneSet} (h : s.Ok) {r : TemplateAddress}
    (hnew : r.address ∉ s.addresses) (i : Nat) (p : Text × Nat) :
    let t := loadRow (fun _ => true) s (r, i)
    (p ∈ t.known ↔ p ∈ s.known ∨ p = entry r) ∧
      (p ∈ t.live.zip t.liveBlocks ↔
        p ∈ s.live.zip s.liveBlocks ∨ (r.backfilled = true ∧ p = entry r)) := by
  intro t
  let added : CloneSet := { s with pending := s.pending ++ [(r.address, r.fromBlock)] }
  have hknown : p ∈ added.known ↔ p ∈ s.known ∨ p = entry r := by
    rw [CloneSet.known_pending, List.mem_append, List.mem_singleton]
    rfl
  have ht : t = if r.backfilled then added.markBackfilled true true r.address else added := by
    show loadRow _ s (r, i) = _
    rw [loadRow, CloneSet.add_of_new hnew]
  rw [ht]
  split
  · next hflag =>
    have hmark := CloneSet.mem_markBackfilled (h.pending hnew r.fromBlock)
      (List.mem_append_right _ List.mem_cons_self) p
    exact ⟨hmark.1.trans hknown, by rw [hmark.2]; simp [hflag, entry]⟩
  · next hflag => exact ⟨hknown, by simp [hflag, added]⟩

theorem foldl_loadRow_good {rs : List (TemplateAddress × Nat)} {s : CloneSet} (h : s.Ok)
    (hnodup : (rs.map (·.1.address)).Nodup) (hnew : ∀ row ∈ rs, row.1.address ∉ s.addresses)
    (p : Text × Nat) :
    let t := rs.foldl (loadRow fun _ => true) s
    (p ∈ t.known ↔ p ∈ s.known ∨ ∃ row ∈ rs, p = entry row.1) ∧
      (p ∈ t.live.zip t.liveBlocks ↔ p ∈ s.live.zip s.liveBlocks ∨
        ∃ row ∈ rs, row.1.backfilled = true ∧ p = entry row.1) := by
  induction rs generalizing s with
  | nil => simp
  | cons row rs ih =>
    obtain ⟨hrow, hrest⟩ := List.forall_mem_cons.1 hnew
    rw [List.map_cons, List.nodup_cons] at hnodup
    have hok := (loadRow_ok (fun _ => true) h row).1
    have hstep := loadRow_good h hrow row.2
    have hnew' : ∀ row' ∈ rs, row'.1.address ∉ (loadRow (fun _ => true) s row).addresses := by
      intro row' hrow' hmem
      obtain ⟨b, hb⟩ := (CloneSet.mem_addresses hok.lengths).1 hmem
      rcases ((hstep _).1).1 hb with hb | hb
      · exact hrest row' hrow' ((CloneSet.mem_addresses h.lengths).2 ⟨b, hb⟩)
      · refine hnodup.1 (List.mem_map.2 ⟨row', hrow', ?_⟩)
        exact (Prod.mk.inj hb).1
    obtain ⟨ihknown, ihlive⟩ := ih hok hnodup.2 hnew'
    simp only [List.foldl_cons]
    constructor
    · rw [ihknown, (hstep p).1, List.exists_mem_cons_iff, or_assoc]
    · rw [ihlive, (hstep p).2, List.exists_mem_cons_iff, or_assoc]

/-- **What a restart makes of the table**: every row is known, and those that were scanned are
live. -/
theorem mem_restored {s : State} (h : ((rows template s.tables).map (·.address)).Nodup)
    (p : Text × Nat) :
    (p ∈ (restored template s).known ↔ ∃ r ∈ rows template s.tables, entry r = p) ∧
      (p ∈ (restored template s).live.zip (restored template s).liveBlocks ↔
        ∃ r ∈ rows template s.tables, r.backfilled = true ∧ entry r = p) := by
  have hmap : ((listTemplateAddresses template s.tables).zipIdx.map (·.1.address)) =
      (listTemplateAddresses template s.tables).map (·.address) := by
    rw [show (fun row : TemplateAddress × Nat => row.1.address) =
      TemplateAddress.address ∘ Prod.fst from rfl, ← List.map_map, List.zipIdx_map_fst]
  have hnodup : ((listTemplateAddresses template s.tables).zipIdx.map (·.1.address)).Nodup := by
    rw [hmap]
    exact ((List.perm_insertionSort _ _).map _).nodup_iff.2 h
  have hmem (r : TemplateAddress) :
      (∃ row ∈ (listTemplateAddresses template s.tables).zipIdx, row.1 = r) ↔
        r ∈ rows template s.tables := by
    rw [← mem_listTemplateAddresses]
    constructor
    · rintro ⟨row, hrow, rfl⟩
      exact List.fst_mem_of_mem_zipIdx hrow
    · intro hr
      obtain ⟨i, hi, rfl⟩ := List.getElem_of_mem hr
      exact ⟨(_, i), List.mem_zipIdx_iff_getElem?.2 (List.getElem?_eq_getElem hi), rfl⟩
  have hfold := foldl_loadRow_good CloneSet.ok_empty hnodup (fun _ _ hmem => by cases hmem) p
  refine ⟨hfold.1.trans ?_, hfold.2.trans ?_⟩
  · constructor
    · rintro (hp | ⟨row, hrow, rfl⟩)
      · cases hp
      · exact ⟨row.1, (hmem _).1 ⟨row, hrow, rfl⟩, rfl⟩
    · rintro ⟨r, hr, rfl⟩
      obtain ⟨row, hrow, rfl⟩ := (hmem r).2 hr
      exact .inr ⟨row, hrow, rfl⟩
  · constructor
    · rintro (hp | ⟨row, hrow, hflag, rfl⟩)
      · cases hp
      · exact ⟨row.1, (hmem _).1 ⟨row, hrow, rfl⟩, hflag, rfl⟩
    · rintro ⟨r, hr, hflag, rfl⟩
      obtain ⟨row, hrow, rfl⟩ := (hmem r).2 hr
      exact .inr ⟨row, hrow, hflag, rfl⟩

end Table

/-! ### The operations -/

section Invariant

variable {template : Text}

/-- What the operations keep: the set is in order, what it knows is in the table, where every
address is once, and not if a fork has taken it out, and what the table has as scanned was
scanned from its block on. -/
structure Inv (template : Text) (s : State) : Prop where
  ok : s.set.Ok
  keys : ((rows template s.tables).map (·.address)).Nodup
  stored : ∀ p ∈ s.set.known, ∃ r ∈ rows template s.tables, entry r = p
  gone : ∀ a ∈ s.gone, ∀ r ∈ rows template s.tables, r.address ≠ a
  scanned : ∀ r ∈ rows template s.tables, r.backfilled = true →
    s.scanned r.address = some r.fromBlock

/-- Two rows of one address are one. -/
theorem Inv.row_unique {s : State} (h : Inv template s) {r r' : TemplateAddress}
    (hr : r ∈ rows template s.tables) (hr' : r' ∈ rows template s.tables)
    (heq : r.address = r'.address) : r = r' := List.inj_on_of_nodup_map h.keys hr hr' heq

theorem Inv.agrees {s : State} (h : Inv template s) : Agrees template s where
  lengths := h.ok.lengths
  once := h.ok.once
  known p hp := ((mem_restored h.keys p).1).2 (h.stored p hp)
  gone a ha hmem := by
    have hlengths := (loadTemplateAddressesInto_ok template Luck.good s.tables).1.lengths
    obtain ⟨b, hb⟩ := (CloneSet.mem_addresses hlengths).1 hmem
    obtain ⟨r, hr, heq⟩ := ((mem_restored h.keys _).1).1 hb
    exact h.gone a ha r hr (Prod.mk.inj heq).1
  scanned p hp := by
    obtain ⟨r, hr, hflag, rfl⟩ := ((mem_restored h.keys p).2).1 hp
    refine ⟨r.fromBlock, h.scanned r hr hflag, le_rfl, fun b hb => ?_⟩
    obtain ⟨r', hr', heq⟩ := h.stored _ hb
    obtain rfl := h.row_unique hr' hr (Prod.mk.inj heq).1
    exact (Prod.mk.inj heq).2.ge

theorem inv_init (t : Tables) : Inv template (machine template t).init := by
  have hnone : rows template (machine template t).init.tables = [] := by
    show rows template (Tables.deleteTemplateAddresses template 0 t) = []
    rw [rows_deleteTemplateAddresses]
    simp
  refine ⟨CloneSet.ok_empty, ?_, ?_, ?_, ?_⟩
  · rw [hnone]
    exact List.nodup_nil
  · intro p hp
    cases hp
  · intro a ha
    cases ha
  · rw [hnone]
    intro r hr
    cases hr

/-! What `discoverAddress` can do. -/

/-- **A clone that is discovered** changes nothing, or is stored behind the others. -/
theorem discoverAddress_cases {luck : Luck} {address : Text} {b : Nat} {s t : State}
    (h : discoverAddress template luck address b s = some t) :
    t = s ∨ ∃ a, Text.normalizeHexAddress address = some a ∧ a ∉ s.set.addresses ∧
      luck.alloc 0 = true ∧ luck.alloc 1 = true ∧ luck.db 0 = true ∧
      t = { s with
        set := { s.set with pending := s.set.pending ++ [(a, b)] }
        tables := Tables.addTemplateAddress ⟨template, a, b, false⟩ s.tables
        gone := s.gone.filter (· != a) } := by
  unfold discoverAddress at h
  split at h
  · exact .inl (Option.some.inj h).symm
  next a hnormal =>
  by_cases hnew : a ∉ s.set.addresses ∧ luck.alloc 0 = true ∧ luck.alloc 1 = true
  · obtain ⟨hnew, hdupe, happend⟩ := hnew
    rw [hdupe, happend, CloneSet.add_of_new hnew] at h
    dsimp only at h
    rw [if_pos rfl, Option.map_eq_some_iff] at h
    obtain ⟨tables, htables, rfl⟩ := h
    unfold addTemplateAddress at htables
    split at htables
    · obtain rfl := Option.some.inj htables
      by_cases hdb : luck.db 0 = true
      · right
        refine ⟨a, hnormal, hnew, hdupe, happend, hdb, ?_⟩
        rw [if_pos hdb, attempt, if_pos hdb]
      · left
        rw [if_neg hdb, attempt, if_neg hdb, CloneSet.dropPending_pending hnew]
    · cases htables
  · rw [CloneSet.add_of_not _ hnew] at h
    exact .inl (Option.some.inj h).symm

/-- The rows behind a clone that is stored where it had no row, or had one with its block. -/
theorem mem_rows_discovered {a : Text} {b : Nat} {t : Tables}
    (h : ∀ r ∈ rows template t, r.address = a → r.fromBlock = b) :
    (∃ r ∈ rows template (Tables.addTemplateAddress ⟨template, a, b, false⟩ t), entry r = (a, b)) ∧
      ∀ r ∈ rows template (Tables.addTemplateAddress ⟨template, a, b, false⟩ t),
        r ∈ rows template t ∨ r = ⟨template, a, b, false⟩ := by
  rw [rows_addTemplateAddress]
  split
  · next hold =>
    obtain ⟨r, hr, haddress⟩ := hold
    exact ⟨⟨r, hr, Prod.ext haddress (h r hr haddress)⟩, fun r hr => .inl hr⟩
  · refine ⟨⟨_, List.mem_append_right _ List.mem_cons_self, rfl⟩, fun r hr => ?_⟩
    rwa [List.mem_append, List.mem_singleton] at hr

theorem mem_rows_addTemplateAddress {a : Text} {b : Nat} {t : Tables} {r : TemplateAddress}
    (h : r ∈ rows template t) :
    r ∈ rows template (Tables.addTemplateAddress ⟨template, a, b, false⟩ t) := by
  rw [rows_addTemplateAddress]
  split
  · exact h
  · exact List.mem_append_left _ h

theorem keys_addTemplateAddress {a : Text} {b : Nat} {t : Tables}
    (h : ((rows template t).map (·.address)).Nodup) :
    ((rows template (Tables.addTemplateAddress ⟨template, a, b, false⟩ t)).map
      (·.address)).Nodup := by
  rw [rows_addTemplateAddress]
  split
  · exact h
  · next hnew =>
    rw [List.map_append]
    refine h.append (List.nodup_singleton _) (List.disjoint_singleton.2 fun hmem => ?_)
    obtain ⟨r, hr, heq⟩ := List.mem_map.1 hmem
    exact hnew ⟨r, hr, heq⟩

theorem Inv.discoverAddress {luck : Luck} {address : Text} {b : Nat} {s t : State}
    (h : Inv template s) (hcareful : Careful template s (.discoverAddress address b, luck))
    (hstep : discoverAddress template luck address b s = some t) : Inv template t := by
  rcases discoverAddress_cases hstep with rfl | ⟨a, hnormal, hnew, hdupe, happend, hdb, rfl⟩
  · exact h
  have hblock := hcareful a hnormal hnew hdupe happend hdb
  obtain ⟨hrow, hrows⟩ := mem_rows_discovered hblock
  refine ⟨h.ok.pending hnew b, keys_addTemplateAddress h.keys, ?_, ?_, ?_⟩
  · intro p hp
    rw [CloneSet.known_pending, List.mem_append, List.mem_singleton] at hp
    rcases hp with hp | rfl
    · obtain ⟨r, hr, heq⟩ := h.stored p hp
      exact ⟨r, mem_rows_addTemplateAddress hr, heq⟩
    · exact hrow
  · intro a' ha' r hr
    obtain ⟨ha', hne⟩ := List.mem_filter.1 ha'
    rcases hrows r hr with hr | rfl
    · exact h.gone a' ha' r hr
    · exact fun heq => (bne_iff_ne.1 hne) heq.symm
  · intro r hr hflag
    rcases hrows r hr with hr | rfl
    · exact h.scanned r hr hflag
    · cases hflag

/-- **A clone that has another block in the table** is not restored with the one it was discovered
on. -/
theorem not_agrees_discoverAddress {luck : Luck} {address : Text} {b : Nat} {s t : State}
    (h : Inv template s) (hagrees : Agrees template t)
    (hstep : discoverAddress template luck address b s = some t) :
    Careful template s (.discoverAddress address b, luck) := by
  intro a hnormal hnew hdupe happend hdb r hr haddress
  have hset : (a, b) ∈ t.set.known ∧
      t.tables = Tables.addTemplateAddress ⟨template, a, b, false⟩ s.tables := by
    rw [Clones.discoverAddress, hnormal] at hstep
    dsimp only at hstep
    rw [hdupe, happend, CloneSet.add_of_new hnew] at hstep
    dsimp only at hstep
    rw [if_pos rfl, Option.map_eq_some_iff] at hstep
    obtain ⟨tables, htables, rfl⟩ := hstep
    unfold addTemplateAddress at htables
    split at htables
    · obtain rfl := Option.some.inj htables
      rw [if_pos hdb, attempt, if_pos hdb]
      refine ⟨?_, rfl⟩
      rw [CloneSet.known_pending]
      exact List.mem_append_right _ List.mem_cons_self
    · cases htables
  obtain ⟨hknown, htables⟩ := hset
  have hkeys : ((rows template t.tables).map (·.address)).Nodup := by
    rw [htables]
    exact keys_addTemplateAddress h.keys
  obtain ⟨r', hr', heq⟩ := ((mem_restored hkeys _).1).1 (hagrees.known _ hknown)
  have hr : r ∈ rows template t.tables := by
    rw [htables]
    exact mem_rows_addTemplateAddress hr
  obtain rfl := List.inj_on_of_nodup_map hkeys hr' hr ((Prod.mk.inj heq).1.trans haddress.symm)
  exact (Prod.mk.inj heq).2

/-- Where the invariant holds it does not matter who is asked for the block of a row. -/
theorem Inv.discovered {s : State} (h : Inv template s) {r : TemplateAddress}
    (hr : r ∈ rows template s.tables) : discovered template s r.address = some r.fromBlock := by
  unfold Clones.discovered
  cases hfind : s.set.known.find? (·.1 == r.address) with
  | some p =>
    have haddress : p.1 = r.address := by simpa using List.find?_some hfind
    obtain ⟨r', hr', rfl⟩ := h.stored p (List.mem_of_find?_eq_some hfind)
    obtain rfl := h.row_unique hr' hr haddress
    rfl
  | none =>
    cases hrow : (rows template s.tables).find? (·.address == r.address) with
    | none => exact absurd (beq_self_eq_true _) (List.find?_eq_none.1 hrow r hr)
    | some r' =>
      have haddress : r'.address = r.address := by simpa using List.find?_some hrow
      obtain rfl := h.row_unique (List.mem_of_find?_eq_some hrow) hr haddress
      rfl

/-- **A clone that was scanned** changes places, or is dropped; its row gets the flag. -/
theorem Inv.markAddressBackfilled {s : State} (h : Inv template s) (luck : Luck) (address : Text) :
    Inv template (markAddressBackfilled template luck address s) := by
  have hrows : rows template (Clones.markAddressBackfilled template luck address s).tables =
      (rows template s.tables).map fun r =>
        if luck.db 0 = true ∧ r.address = address then { r with backfilled := true } else r := by
    show rows template (attempt _ _ _) = _
    unfold attempt
    split
    · next hdb => simp only [rows_markBackfilled, hdb, true_and]
    · next hdb => simp [hdb]
  have hentry (r : TemplateAddress) :
      entry (if luck.db 0 = true ∧ r.address = address then { r with backfilled := true } else r) =
        entry r := by
    split <;> rfl
  obtain ⟨hok, hknown⟩ := CloneSet.known_markBackfilled h.ok (luck.alloc 0) (luck.alloc 1) address
  refine ⟨hok, ?_, ?_, ?_, ?_⟩
  · have hmap : (rows template (Clones.markAddressBackfilled template luck address s).tables).map
        (·.address) = (rows template s.tables).map (·.address) := by
      rw [hrows, List.map_map]
      exact List.map_congr_left fun r _ => congrArg Prod.fst (hentry r)
    rw [hmap]
    exact h.keys
  · intro p hp
    obtain ⟨r, hr, rfl⟩ := h.stored p (hknown p hp)
    rw [hrows]
    exact ⟨_, List.mem_map_of_mem hr, hentry r⟩
  · intro a ha r hr
    rw [hrows, List.mem_map] at hr
    obtain ⟨r, hr, rfl⟩ := hr
    rw [show (ite _ _ _ : TemplateAddress).address = r.address from congrArg Prod.fst (hentry r)]
    exact h.gone a ha r hr
  · intro r hr hflag
    rw [hrows, List.mem_map] at hr
    obtain ⟨r, hr, rfl⟩ := hr
    show (if luck.db 0 = true then _ else _ : Text → Option Nat) _ = _
    by_cases hmarked : luck.db 0 = true ∧ r.address = address
    · obtain ⟨hdb, rfl⟩ := hmarked
      have hself : luck.db 0 = true ∧ r.address = r.address := ⟨hdb, rfl⟩
      rw [if_pos hdb, if_pos hself, Function.update_self]
      exact h.discovered hr
    · rw [if_neg hmarked] at hflag ⊢
      have hscanned := h.scanned r hr hflag
      split
      · next hdb => rwa [Function.update_of_ne fun heq => hmarked ⟨hdb, heq⟩]
      · exact hscanned

/-- What `rollbackTo` does: the clones of the fork are out of the set, and out of the table if the
deletion succeeds. -/
theorem Inv.rollbackTo_spec {s t : State} (h : Inv template s) {luck : Luck} {f : Nat}
    (hstep : rollbackTo template luck f s = some t) :
    t.set.Ok ∧ (t.set.known = s.set.known.filter fun p => !decide (p.2 ≥ f)) ∧
      (rows template t.tables = if luck.db 1 = true then
        (rows template s.tables).filter fun r => !decide (f ≤ r.fromBlock)
        else rows template s.tables) ∧
      t.gone = s.gone ++ (s.set.known.filter fun p => decide (p.2 ≥ f)).map (·.1) ∧
      t.scanned = s.scanned := by
  obtain ⟨set, hset, hok, hknown⟩ := CloneSet.removeFromBlock_spec f h.ok
  rw [rollbackTo, Option.bind_eq_bind, Option.bind_eq_some_iff] at hstep
  obtain ⟨tables, htables, hstep⟩ := hstep
  rw [hset, Option.bind_eq_bind, Option.bind_some, Option.bind_eq_some_iff] at hstep
  obtain ⟨tables', hwritten, hstep⟩ := hstep
  obtain rfl := Option.some.inj hstep
  have hrows : rows template tables = if luck.db 1 = true then
      (rows template s.tables).filter fun r => !decide (f ≤ r.fromBlock)
      else rows template s.tables := by
    unfold deleteTemplateAddressesFromBlock at htables
    split at htables
    · obtain rfl := Option.some.inj htables
      unfold attempt
      split
      · exact rows_deleteTemplateAddresses f s.tables
      · rfl
    · cases htables
  refine ⟨hok, hknown, ?_, rfl, rfl⟩
  rw [← hrows]
  refine writeLive_of_rows luck (fun a ha => ?_) hwritten
  have hmem : a.1 ∈ set.known := List.mem_append_left _ (List.fst_mem_of_mem_zipIdx ha)
  rw [hknown, List.mem_filter] at hmem
  obtain ⟨r, hr, heq⟩ := h.stored a.1 hmem.1
  refine ⟨r, ?_, heq⟩
  rw [hrows]
  split
  · refine List.mem_filter.2 ⟨hr, ?_⟩
    rw [← heq] at hmem
    exact hmem.2
  · exact hr

theorem Inv.rollbackTo {s t : State} (h : Inv template s) {luck : Luck} {f : Nat}
    (hcareful : Careful template s (.rollbackTo f, luck))
    (hstep : rollbackTo template luck f s = some t) : Inv template t := by
  obtain ⟨hok, hknown, hrows, hgone, hscanned⟩ := h.rollbackTo_spec hstep
  have hsub : ∀ r ∈ rows template t.tables, r ∈ rows template s.tables := by
    intro r hr
    rw [hrows] at hr
    split at hr
    · exact (List.mem_filter.1 hr).1
    · exact hr
  refine ⟨hok, ?_, ?_, ?_, ?_⟩
  · rw [hrows]
    split
    · exact h.keys.sublist (List.Sublist.map _ List.filter_sublist)
    · exact h.keys
  · intro p hp
    rw [hknown, List.mem_filter] at hp
    obtain ⟨r, hr, rfl⟩ := h.stored p hp.1
    refine ⟨r, ?_, rfl⟩
    rw [hrows]
    split
    · exact List.mem_filter.2 ⟨hr, hp.2⟩
    · exact hr
  · intro a ha r hr
    rw [hgone, List.mem_append, List.mem_map] at ha
    rcases ha with ha | ⟨p, hp, rfl⟩
    · exact h.gone a ha r (hsub r hr)
    obtain ⟨hp, hge⟩ := List.mem_filter.1 hp
    have hge : f ≤ p.2 := of_decide_eq_true hge
    rcases hcareful with hdb | hall
    · obtain ⟨r', hr', rfl⟩ := h.stored p hp
      rintro heq
      obtain rfl := h.row_unique (hsub r hr) hr' heq
      rw [hrows, if_pos hdb, List.mem_filter] at hr
      exact absurd hr.2 (by simpa [entry] using hge)
    · exact absurd hge (Nat.not_le.2 (hall p hp))
  · intro r hr hflag
    rw [hscanned]
    exact h.scanned r (hsub r hr) hflag

/-- **A clone that is out of the set and in the table** comes back with a restart. -/
theorem not_agrees_rollbackTo {s t : State} (h : Inv template s) {luck : Luck} {f : Nat}
    (hagrees : Agrees template t) (hstep : rollbackTo template luck f s = some t) :
    Careful template s (.rollbackTo f, luck) := by
  obtain ⟨-, -, hrows, hgone, -⟩ := h.rollbackTo_spec hstep
  rcases Bool.eq_false_or_eq_true (luck.db 1) with hdb | hdb
  · exact .inl hdb
  right
  intro p hp
  by_contra hge
  rw [hdb, if_neg Bool.false_ne_true] at hrows
  have hmem : p.1 ∈ t.gone := by
    rw [hgone]
    refine List.mem_append_right _ (List.mem_map_of_mem ?_)
    exact List.mem_filter.2 ⟨hp, decide_eq_true (Nat.not_lt.1 hge)⟩
  refine hagrees.gone p.1 hmem ?_
  have hkeys : ((rows template t.tables).map (·.address)).Nodup := by
    rw [hrows]
    exact h.keys
  have hlengths := (loadTemplateAddressesInto_ok template Luck.good t.tables).1.lengths
  obtain ⟨r, hr, heq⟩ := h.stored p hp
  refine (CloneSet.mem_addresses hlengths).2 ⟨p.2, ((mem_restored hkeys p).1).2 ⟨r, ?_, heq⟩⟩
  rwa [hrows]

theorem Inv.restart {s : State} (h : Inv template s) (luck : Luck) :
    Inv template { s with set := loadTemplateAddressesInto luck template s.tables } := by
  obtain ⟨hok, hknown⟩ := loadTemplateAddressesInto_ok template luck s.tables
  exact ⟨hok, h.keys, hknown, h.gone, h.scanned⟩

/-- **Behind a careful operation** the invariant holds, -/
theorem Inv.step {s t : State} {op : Op × Luck} (h : Inv template s)
    (hcareful : Careful template s op) (hstep : Clones.step template s op = some t) :
    Inv template t := by
  obtain ⟨op, luck⟩ := op
  rcases op with ⟨address, b⟩ | ⟨address⟩ | ⟨f⟩ | _
  · exact h.discoverAddress hcareful hstep
  · obtain rfl := Option.some.inj hstep
    exact h.markAddressBackfilled luck address
  · exact h.rollbackTo hcareful hstep
  · obtain rfl := Option.some.inj hstep
    exact h.restart luck

/-- and one behind which the set and the table agree is careful. -/
theorem Inv.careful {s t : State} {op : Op × Luck} (h : Inv template s)
    (hagrees : Agrees template t) (hstep : Clones.step template s op = some t) :
    Careful template s op := by
  obtain ⟨op, luck⟩ := op
  rcases op with ⟨address, b⟩ | ⟨address⟩ | ⟨f⟩ | _
  · exact not_agrees_discoverAddress h hagrees hstep
  · trivial
  · exact not_agrees_rollbackTo h hagrees hstep
  · trivial

end Invariant

theorem always_agrees_iff {template : Text} {t : Tables} {s : State} (h : Inv template s)
    (ops : List (Op × Luck)) :
    (machine template t).Always (Agrees template) s ops ↔
      (machine template t).Held (Careful template) s ops := by
  refine Machine.always_iff_held (I := Inv template) ?_ ?_ h ops
  · intro s op u hinv hcareful hstep
    have hinv' := hinv.step hcareful hstep
    exact ⟨hinv', hinv'.agrees⟩
  · exact fun s op u hinv hagrees hstep => hinv.careful hagrees hstep

/-- **The set and the table agree behind every operation of a run** if and only if every operation
is careful, each in the state it is taken in. -/
theorem set_and_table_agree_iff (template : Text) (t : Tables) (ops : List (Op × Luck)) :
    (machine template t).Always (Agrees template) (machine template t).init ops ↔
      (machine template t).Held (Careful template) (machine template t).init ops :=
  always_agrees_iff (inv_init t) ops

/-- A clone, -/
def clone : Text := "0x1111111111111111111111111111111111111111".toList

/-- which is discovered on block 10, and a fork takes the blocks from 5 on while the database cannot
be written. -/
def forked : List (Op × Luck) :=
  [(.discoverAddress clone 10, Luck.good), (.rollbackTo 5, ⟨fun _ => false, fun _ => true⟩)]

/-- The clone is out of the set and not out of the table, and a restart brings it back. -/
theorem not_agree_forked : ¬(machine "curve".toList {}).Always (Agrees "curve".toList)
    (machine "curve".toList {}).init forked := by
  rw [always_agrees_iff (inv_init {})]
  intro hheld
  obtain ⟨-, hheld⟩ := hheld _ rfl
  obtain ⟨hcareful, -⟩ := hheld _ rfl
  rcases hcareful with hdb | hall
  · cases hdb
  · exact absurd (hall (clone, 10) (by decide)) (by decide)

end Zponder.Clones

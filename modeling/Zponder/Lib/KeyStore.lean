import Mathlib

/-!
# Stores ordered by their keys

A store whose keys are words over an ordered alphabet, in the order of a dictionary, and whose
only way to find the keys of a range is an iterator: it is put in front of the first key that is
not below a given one and moved on from key to key (`KeyStore.Store.seek`). A loop over it goes on
as long as its condition holds of the key it is at (`KeyStore.collect`), and finds the keys of the
range that meet the condition, where no key that does not comes before one that does
(`KeyStore.deletes_scan`). Two conditions are of that kind: to be below an end, and to begin with
what the place where the loop began begins with, since the words that begin with one word have
no other word between them (`KeyStore.prefix_of_between`).

Numbers are put into keys with zeros in front, so that they are ordered as numbers are, whatever
follows them (`KeyStore.padded_lt`).
-/

namespace KeyStore

section Digits

variable {α : Type} (digit : Nat → α)

/-- The last digits of a number, as many as there is room for. -/
def padded : Nat → Nat → List α
  | 0, _ => []
  | w + 1, n => padded w (n / 10) ++ [digit (n % 10)]

theorem length_padded (w n : Nat) : (padded digit w n).length = w := by
  induction w generalizing n with
  | zero => rfl
  | succ w ih => rw [padded, List.length_append, ih, List.length_singleton]

theorem mem_padded {w n : Nat} {c : α} (h : c ∈ padded digit w n) : ∃ d < 10, c = digit d := by
  induction w generalizing n with
  | zero => cases h
  | succ w ih =>
    rcases List.mem_append.1 h with h | h
    · exact ih h
    · exact ⟨n % 10, Nat.mod_lt n (by decide), List.mem_singleton.1 h⟩

/-- A word ends at the first mark behind it. -/
theorem split_inj {mark : α} {x y u v : List α} (hx : mark ∉ x) (hy : mark ∉ y)
    (h : x ++ mark :: u = y ++ mark :: v) : x = y ∧ u = v := by
  induction x generalizing y with
  | nil =>
    cases y with
    | nil => exact ⟨rfl, (List.cons.inj h).2⟩
    | cons b y => exact absurd ((List.cons.inj h).1 ▸ List.mem_cons_self) hy
  | cons a x ih =>
    cases y with
    | nil => exact absurd ((List.cons.inj h).1 ▸ List.mem_cons_self) hx
    | cons b y =>
      obtain ⟨rfl, hrest⟩ := List.cons.inj h
      obtain ⟨rfl, rfl⟩ := ih (fun hmem => hx (List.mem_cons_of_mem a hmem))
        (fun hmem => hy (List.mem_cons_of_mem a hmem)) hrest
      exact ⟨rfl, rfl⟩

end Digits

variable {α : Type} [LinearOrder α]

/-! ### Words in order -/

theorem cons_le_cons_iff {a b : α} {x y : List α} :
    a :: x ≤ b :: y ↔ a < b ∨ a = b ∧ x ≤ y := by
  rw [← not_lt, List.cons_lt_cons_iff, ← not_lt]
  constructor
  · intro h
    push Not at h
    rcases lt_or_eq_of_le h.1 with hlt | rfl
    · exact .inl hlt
    · exact .inr ⟨rfl, not_lt.2 (h.2 rfl)⟩
  · rintro (hlt | ⟨rfl, hle⟩) (hgt | ⟨heq, hgt⟩)
    · exact lt_asymm hlt hgt
    · exact hlt.ne heq.symm
    · exact lt_irrefl a hgt
    · exact hle hgt

theorem append_lt_append_iff (p : List α) {x y : List α} : p ++ x < p ++ y ↔ x < y := by
  induction p with
  | nil => rfl
  | cons c p ih =>
    rw [List.cons_append, List.cons_append, List.cons_lt_cons_iff, ih]
    simp only [lt_self_iff_false, true_and, false_or]

theorem append_le_append_iff (p : List α) {x y : List α} : p ++ x ≤ p ++ y ↔ x ≤ y := by
  rw [← not_lt, append_lt_append_iff, not_lt]

theorem le_append (p x : List α) : p ≤ p ++ x := by
  induction p with
  | nil => exact not_lt.1 (List.not_lt_nil x)
  | cons c p ih => exact cons_le_cons_iff.2 (.inr ⟨rfl, ih⟩)

/-- **Nothing comes between the words that begin with one word.** -/
theorem prefix_of_between {p x y k : List α} (hlow : p ++ x ≤ k) (hhigh : k ≤ p ++ y) :
    p <+: k := by
  induction p generalizing k with
  | nil => exact List.nil_prefix
  | cons c p ih =>
    cases k with
    | nil => exact absurd (List.nil_lt_cons c (p ++ x)) (not_lt.2 hlow)
    | cons d k =>
      rw [List.cons_append, cons_le_cons_iff] at hlow hhigh
      rcases hlow with hcd | ⟨rfl, hlow⟩
      · rcases hhigh with hdc | ⟨rfl, -⟩
        · exact absurd hdc (lt_asymm hcd)
        · exact absurd hcd (lt_irrefl _)
      · rcases hhigh with hlt | ⟨-, hhigh⟩
        · exact absurd hlt (lt_irrefl _)
        · exact (List.prefix_cons_inj c).2 (ih hlow hhigh)

/-! ### Numbers with zeros in front -/

section Padded

variable {digit : Nat → α} (hdigit : ∀ a b, a < b → b < 10 → digit a < digit b)

include hdigit

/-- **Numbers in keys are ordered as numbers are.** -/
theorem padded_lt {w a b : Nat} (hab : a < b) (hb : b < 10 ^ w) (x y : List α) :
    padded digit w a ++ x < padded digit w b ++ y := by
  induction w generalizing a b x y with
  | zero => omega
  | succ w ih =>
    rw [padded, padded, List.append_assoc, List.append_assoc]
    rw [Nat.pow_succ] at hb
    rcases lt_or_eq_of_le (Nat.div_le_div_right hab.le : a / 10 ≤ b / 10) with hlt | heq
    · exact ih hlt (by omega) _ _
    · rw [heq, append_lt_append_iff]
      exact List.cons_lt_cons_iff.2 (.inl (hdigit _ _ (by omega) (by omega)))

theorem padded_inj {w a b : Nat} (ha : a < 10 ^ w) (hb : b < 10 ^ w)
    (h : padded digit w a = padded digit w b) : a = b := by
  rcases lt_trichotomy a b with hlt | heq | hgt
  · exact absurd (congrArg (· ++ []) h) (padded_lt hdigit hlt hb [] []).ne
  · exact heq
  · exact absurd (congrArg (· ++ []) h) (padded_lt hdigit hgt ha [] []).ne'

end Padded

/-! ### Stores -/

/-- Rows by their keys, no two of which are the same. -/
structure Store (α V : Type) [LinearOrder α] where
  rows : List (List α × V)
  sorted : rows.Pairwise fun a b => a.1 < b.1

namespace Store

variable {V : Type}

/-- The store without rows. -/
def empty : Store α V := ⟨[], .nil⟩

/-- The value of a key. -/
def get (s : Store α V) (key : List α) : Option V :=
  (s.rows.find? fun r => decide (r.1 = key)).map Prod.snd

/-- A key gets a value, whether or not it had one. -/
def put (s : Store α V) (key : List α) (value : V) : Store α V where
  rows := s.rows.filter (fun r => decide (r.1 < key)) ++
    (key, value) :: s.rows.filter fun r => decide (key < r.1)
  sorted := by
    refine List.pairwise_append.2 ⟨s.sorted.filter _, List.pairwise_cons.2
      ⟨fun r hr => of_decide_eq_true (List.mem_filter.1 hr).2, s.sorted.filter _⟩, ?_⟩
    intro a ha b hb
    have hlow := of_decide_eq_true (List.mem_filter.1 ha).2
    rcases List.mem_cons.1 hb with rfl | hb
    · exact hlow
    · exact hlow.trans (of_decide_eq_true (List.mem_filter.1 hb).2)

/-- The keys of a batch are deleted. -/
def erase (s : Store α V) (keys : List (List α)) : Store α V where
  rows := s.rows.filter fun r => !keys.contains r.1
  sorted := s.sorted.filter _

/-- What is ahead of an iterator that was put in front of a key. -/
def seek (s : Store α V) (key : List α) : List (List α × V) :=
  s.rows.dropWhile fun r => decide (r.1 < key)

variable {s : Store α V} {k k' : List α} {v : V}

/-- Two rows of one key are one row. -/
theorem row_unique {a b : List α × V} (ha : a ∈ s.rows) (hb : b ∈ s.rows) (h : a.1 = b.1) :
    a = b := by
  refine List.inj_on_of_nodup_map (f := Prod.fst) ?_ ha hb h
  exact List.pairwise_map.2 (s.sorted.imp fun h => h.ne)

theorem get_eq_some_iff : s.get k = some v ↔ (k, v) ∈ s.rows := by
  unfold get
  rw [Option.map_eq_some_iff]
  constructor
  · rintro ⟨r, hr, rfl⟩
    obtain rfl : r.1 = k := by simpa using List.find?_some hr
    exact List.mem_of_find?_eq_some hr
  · intro h
    cases hfind : s.rows.find? fun r => decide (r.1 = k) with
    | none => exact absurd (List.find?_eq_none.1 hfind _ h) (by simp)
    | some r =>
      have hkey : r.1 = k := by simpa using List.find?_some hfind
      have heq := row_unique (List.mem_of_find?_eq_some hfind) h hkey
      exact ⟨r, rfl, congrArg Prod.snd heq⟩

theorem get_congr {t : Store α V} (h : ∀ v, (k, v) ∈ s.rows ↔ (k', v) ∈ t.rows) :
    s.get k = t.get k' := by
  ext v
  rw [get_eq_some_iff, get_eq_some_iff, h v]

@[simp] theorem get_empty (k : List α) : (empty : Store α V).get k = none := rfl

@[simp] theorem get_put_self : (s.put k v).get k = some v :=
  get_eq_some_iff.2 (List.mem_append_right _ List.mem_cons_self)

theorem get_put_of_ne (h : k' ≠ k) : (s.put k v).get k' = s.get k' := by
  refine get_congr fun w => ?_
  show (k', w) ∈ s.rows.filter (fun r => decide (r.1 < k)) ++
    (k, v) :: s.rows.filter (fun r => decide (k < r.1)) ↔ (k', w) ∈ s.rows
  rw [List.mem_append, List.mem_cons, List.mem_filter, List.mem_filter, decide_eq_true_eq,
    decide_eq_true_eq]
  constructor
  · rintro (⟨hw, -⟩ | heq | ⟨hw, -⟩)
    · exact hw
    · exact absurd (congrArg Prod.fst heq) h
    · exact hw
  · intro hw
    rcases lt_or_gt_of_ne h with hlt | hgt
    · exact .inl ⟨hw, hlt⟩
    · exact .inr (.inr ⟨hw, hgt⟩)

theorem get_erase (keys : List (List α)) :
    (s.erase keys).get k = if keys.contains k = true then none else s.get k := by
  split
  · next hk =>
    refine Option.eq_none_iff_forall_ne_some.2 fun v hv => ?_
    have hmem := (List.mem_filter.1 (get_eq_some_iff.1 hv)).2
    rw [hk] at hmem
    cases hmem
  · next hk =>
    refine get_congr fun v => ?_
    show (k, v) ∈ s.rows.filter (fun r => !keys.contains r.1) ↔ _
    rw [List.mem_filter]
    exact ⟨fun h => h.1, fun h => ⟨h, by rw [Bool.eq_false_iff.2 hk]; rfl⟩⟩

theorem mem_seek {key : List α} {r : List α × V} :
    r ∈ s.seek key ↔ r ∈ s.rows ∧ key ≤ r.1 := by
  unfold seek
  have hsorted := s.sorted
  generalize s.rows = rows at hsorted ⊢
  induction rows with
  | nil => simp
  | cons a rows ih =>
    have hcons := List.pairwise_cons.1 hsorted
    rw [List.dropWhile_cons]
    split
    · next hlt =>
      refine (ih hcons.2).trans ?_
      rw [List.mem_cons]
      constructor
      · exact fun h => ⟨.inr h.1, h.2⟩
      · rintro ⟨rfl | hr, hle⟩
        · exact absurd (of_decide_eq_true hlt) (not_lt.2 hle)
        · exact ⟨hr, hle⟩
    · next hge =>
      have hle := not_lt.1 (mt decide_eq_true hge)
      refine ⟨fun hr => ⟨hr, ?_⟩, fun h => h.1⟩
      rcases List.mem_cons.1 hr with rfl | hr
      · exact hle
      · exact hle.trans (hcons.1 r hr).le

theorem sorted_seek (key : List α) : (s.seek key).Pairwise fun a b => a.1 < b.1 :=
  s.sorted.sublist (List.dropWhile_sublist _)

end Store

/-! ### Loops over the keys -/

section Loops

variable {V : Type} {s : Store α V}

/-- The keys a loop comes by, which ends at the first that does not meet its condition. -/
def collect (on : List α → Bool) : List (List α × V) → List (List α)
  | [] => []
  | r :: rest => if on r.1 = true then r.1 :: collect on rest else []

/-- Deleting the keys of a batch deletes what is asked for, and nothing else there is. -/
def Deletes (s : Store α V) (batch : List (List α)) (P : List α → Prop) : Prop :=
  ∀ k, (s.get k).isSome = true → (k ∈ batch ↔ P k)

theorem Deletes.append {batch batch' : List (List α)} {P Q : List α → Prop}
    (h : Deletes s batch P) (h' : Deletes s batch' Q) :
    Deletes s (batch ++ batch') fun k => P k ∨ Q k := fun k hk => by
  rw [List.mem_append, h k hk, h' k hk]

theorem deletes_nil : Deletes s [] fun _ => False := fun _ _ => by
  simp

theorem Deletes.congr {batch : List (List α)} {P Q : List α → Prop} (h : Deletes s batch P)
    (hPQ : ∀ k, (s.get k).isSome = true → (P k ↔ Q k)) : Deletes s batch Q :=
  fun k hk => (h k hk).trans (hPQ k hk)

theorem Deletes.get_of {batch : List (List α)} {P : List α → Prop} (h : Deletes s batch P)
    {k : List α} (hk : P k) : (s.erase batch).get k = none := by
  rw [Store.get_erase]
  cases hget : s.get k with
  | none => exact ite_self none
  | some v => exact if_pos (List.contains_iff_mem.2 ((h k (by rw [hget]; rfl)).2 hk))

theorem Deletes.get_of_not {batch : List (List α)} {P : List α → Prop} (h : Deletes s batch P)
    {k : List α} (hk : ¬P k) : (s.erase batch).get k = s.get k := by
  rw [Store.get_erase]
  cases hget : s.get k with
  | none => exact ite_self none
  | some v =>
    exact if_neg fun hmem => hk ((h k (by rw [hget]; rfl)).1 (List.contains_iff_mem.1 hmem))

theorem mem_collect {on : List α → Bool} {rows : List (List α × V)}
    (hsorted : rows.Pairwise fun a b => a.1 < b.1)
    (hon : ∀ a ∈ rows, ∀ b ∈ rows, a.1 ≤ b.1 → on b.1 = true → on a.1 = true) {k : List α} :
    k ∈ collect on rows ↔ (∃ v, (k, v) ∈ rows) ∧ on k = true := by
  induction rows with
  | nil => simp [collect]
  | cons a rows ih =>
    have hcons := List.pairwise_cons.1 hsorted
    have ih := ih hcons.2 fun x hx y hy =>
      hon x (List.mem_cons_of_mem a hx) y (List.mem_cons_of_mem a hy)
    rw [collect]
    split
    · next ha =>
      rw [List.mem_cons, ih]
      constructor
      · rintro (rfl | ⟨⟨v, hv⟩, hk⟩)
        · exact ⟨⟨a.2, List.mem_cons_self⟩, ha⟩
        · exact ⟨⟨v, List.mem_cons_of_mem a hv⟩, hk⟩
      · rintro ⟨⟨v, hv⟩, hk⟩
        rcases List.mem_cons.1 hv with rfl | hv
        · exact .inl rfl
        · exact .inr ⟨⟨v, hv⟩, hk⟩
    · next ha =>
      refine ⟨fun h => absurd h List.not_mem_nil, ?_⟩
      rintro ⟨⟨v, hv⟩, hk⟩
      rcases List.mem_cons.1 hv with rfl | hv
      · exact absurd hk ha
      · exact absurd (hon a List.mem_cons_self _ (List.mem_cons_of_mem a hv)
          (hcons.1 _ hv).le hk) ha

/-- **What a loop deletes**: all there is from its beginning on that meets the condition, where
no key that does not comes before one that does. -/
theorem deletes_scan {on : List α → Bool} {low : List α}
    (hon : ∀ k k', low ≤ k → k ≤ k' → on k' = true → on k = true) :
    Deletes s (collect on (s.seek low)) fun k => low ≤ k ∧ on k = true := by
  intro k hk
  obtain ⟨v, hv⟩ := Option.isSome_iff_exists.1 hk
  rw [mem_collect (Store.sorted_seek low) fun a ha b _ hab =>
    hon a.1 b.1 (Store.mem_seek.1 ha).2 hab]
  constructor
  · rintro ⟨⟨w, hw⟩, hon⟩
    exact ⟨(Store.mem_seek.1 hw).2, hon⟩
  · rintro ⟨hle, hon⟩
    exact ⟨⟨v, Store.mem_seek.2 ⟨Store.get_eq_some_iff.1 hv, hle⟩⟩, hon⟩

/-- To an end, -/
theorem deletes_below {low high : List α} :
    Deletes s (collect (fun k => decide (k < high)) (s.seek low)) fun k => low ≤ k ∧ k < high :=
  (deletes_scan fun _ _ _ hle h => decide_eq_true (hle.trans_lt (of_decide_eq_true h))).congr
    fun _ _ => by rw [decide_eq_true_eq]

/-- or as far as the keys begin alike. -/
theorem deletes_prefixed {p low : List α} (hlow : p <+: low) :
    Deletes s (collect (fun k => p.isPrefixOf k) (s.seek low)) fun k => low ≤ k ∧ p <+: k := by
  refine (deletes_scan fun k k' hlk hkk' h => ?_).congr fun _ _ => by
    rw [List.isPrefixOf_iff_prefix]
  obtain ⟨x, rfl⟩ := hlow
  obtain ⟨y, rfl⟩ := List.isPrefixOf_iff_prefix.1 h
  exact List.isPrefixOf_iff_prefix.2 (prefix_of_between hlk hkk')

end Loops

end KeyStore

import Mathlib

/-!
# Heads and tails

A sequence of parts written down so that each can be found from a place known beforehand:
first the heads, one after the other, then the tails. A part of a fixed length is its own
head; any other has its code among the tails, and for a head a mark of where it is, counted
from where the sequence begins.

Who reads such a sequence walks along the heads with a cursor and follows the marks. What
is found on this walk is `HeadTail.Laid`, and that a sequence laid out anywhere in some data
is found there again, whatever is before and behind it, is `HeadTail.laid_layout`.
-/

namespace HeadTail

/-- A part: its code, and whether it is one of a length that is not fixed. -/
structure Part (α : Type*) where
  dynamic : Bool
  code : List α

variable {α : Type*} (size : Nat) (mark : Nat → List α)

/-- What a part takes among the heads. -/
def Part.headLength (p : Part α) : Nat := if p.dynamic = true then size else p.code.length

/-- What the heads take. -/
def headsLength (ps : List (Part α)) : Nat := (ps.map (Part.headLength size)).sum

/-- The heads, if the next of the tails begins at `next`. -/
def heads (next : Nat) : List (Part α) → List α
  | [] => []
  | p :: ps =>
    if p.dynamic = true then mark next ++ heads (next + p.code.length) ps
    else p.code ++ heads next ps

/-- The tails. -/
def tails (ps : List (Part α)) : List α :=
  ps.flatMap fun p => if p.dynamic = true then p.code else []

/-- The sequence. -/
def layout (ps : List (Part α)) : List α := heads mark (headsLength size ps) ps ++ tails ps

/-! ### What stands where -/

/-- At `pos` there is `s`. -/
def Placed (s : List α) (pos : Nat) (data : List α) : Prop :=
  ∃ pre post, pre.length = pos ∧ data = pre ++ (s ++ post)

/-- What a walk along the heads finds, with the cursor at `cur`. -/
inductive Laid (data : List α) (base : Nat) : Nat → List (Part α) → Prop
  | nil {cur : Nat} : Laid data base cur []
  | static {cur : Nat} {p : Part α} {ps : List (Part α)} (hp : p.dynamic = false)
    (hcode : Placed p.code cur data) (hrest : Laid data base (cur + p.code.length) ps) :
    Laid data base cur (p :: ps)
  | dynamic {cur off : Nat} {p : Part α} {ps : List (Part α)} (hp : p.dynamic = true)
    (hmark : Placed (mark off) cur data) (hoff : size ∣ off)
    (hcode : Placed p.code (base + off) data) (hrest : Laid data base (cur + size) ps) :
    Laid data base cur (p :: ps)

variable {size mark}

theorem Placed.le_length {s : List α} {pos : Nat} {data : List α} (h : Placed s pos data) :
    pos + s.length ≤ data.length := by
  obtain ⟨pre, post, rfl, rfl⟩ := h
  simp only [List.length_append]
  omega

/-- Of what stands somewhere the first piece stands there too, -/
theorem Placed.left {s t : List α} {pos : Nat} {data : List α} (h : Placed (s ++ t) pos data) :
    Placed s pos data := by
  obtain ⟨pre, post, hpos, rfl⟩ := h
  exact ⟨pre, t ++ post, hpos, by rw [List.append_assoc]⟩

/-- and the second behind it. -/
theorem Placed.right {s t : List α} {pos : Nat} {data : List α} (h : Placed (s ++ t) pos data) :
    Placed t (pos + s.length) data := by
  obtain ⟨pre, post, rfl, rfl⟩ := h
  exact ⟨pre ++ s, post, List.length_append, by simp only [List.append_assoc]⟩

/-- What is read at a place where something stands. -/
theorem Placed.take_drop {s : List α} {pos : Nat} {data : List α} (h : Placed s pos data) :
    (data.drop pos).take s.length = s := by
  obtain ⟨pre, post, rfl, rfl⟩ := h
  rw [List.drop_left, List.take_left]

/-- The heads are as long as was counted. -/
theorem length_heads (hmark : ∀ n, (mark n).length = size) (ps : List (Part α)) (next : Nat) :
    (heads mark next ps).length = headsLength size ps := by
  induction ps generalizing next with
  | nil => rfl
  | cons p ps ih =>
    have hcons : headsLength size (p :: ps) = p.headLength size + headsLength size ps := rfl
    rw [heads, hcons, Part.headLength]
    split
    · rw [List.length_append, hmark, ih]
    · rw [List.length_append, ih]

theorem length_layout (hmark : ∀ n, (mark n).length = size) (ps : List (Part α)) :
    (layout size mark ps).length = (ps.map fun p =>
      p.headLength size + if p.dynamic = true then p.code.length else 0).sum := by
  have htails : (tails ps).length =
      (ps.map fun p => if p.dynamic = true then p.code.length else 0).sum := by
    rw [tails, List.length_flatMap]
    congr 1
    refine List.map_congr_left fun p _ => ?_
    split <;> rfl
  rw [layout, List.length_append, length_heads hmark, htails, headsLength, ← List.sum_map_add]

/-- The walk, from the middle: some heads are behind it, and the tails that belong to them
are before the others. -/
theorem laid_of_split (hmark : ∀ n, (mark n).length = size) {base next : Nat} {data : List α}
    {ps : List (Part α)} (hsize : ∀ p ∈ ps, size ∣ p.code.length) (hnext : size ∣ next)
    {cur : Nat} (hheads : Placed (heads mark next ps) cur data)
    (htails : Placed (tails ps) (base + next) data) : Laid size mark data base cur ps := by
  induction ps generalizing next cur with
  | nil => exact .nil
  | cons p ps ih =>
    have hrest : ∀ q ∈ ps, size ∣ q.code.length := fun q hq => hsize q (List.mem_cons_of_mem p hq)
    rw [heads] at hheads
    rw [tails, List.flatMap_cons] at htails
    cases hp : p.dynamic with
    | true =>
      rw [if_pos hp] at hheads htails
      have hlen : size ∣ p.code.length := hsize p List.mem_cons_self
      refine .dynamic hp hheads.left hnext htails.left ?_
      have hbehind := hheads.right
      rw [hmark] at hbehind
      refine ih hrest (hnext.add hlen) hbehind ?_
      rw [← Nat.add_assoc]
      exact htails.right
    | false =>
      have hp' : ¬p.dynamic = true := hp ▸ Bool.false_ne_true
      rw [if_neg hp'] at hheads htails
      exact .static hp hheads.left (ih hrest hnext hheads.right htails)

/-- **A sequence is found again wherever it was laid out.** -/
theorem laid_layout (hmark : ∀ n, (mark n).length = size) {base : Nat} {data : List α}
    {ps : List (Part α)} (hsize : ∀ p ∈ ps, size ∣ p.code.length)
    (h : Placed (layout size mark ps) base data) : Laid size mark data base base ps := by
  have hhead : size ∣ headsLength size ps := by
    refine List.dvd_sum fun n hn => ?_
    obtain ⟨p, hp, rfl⟩ := List.mem_map.1 hn
    unfold Part.headLength
    split
    · exact dvd_rfl
    · exact hsize p hp
  have htails := h.right
  rw [length_heads hmark] at htails
  exact laid_of_split hmark hsize hhead h.left htails

/-- A sequence is as long as a number of heads, if its parts are. -/
theorem dvd_length_layout (hmark : ∀ n, (mark n).length = size) {ps : List (Part α)}
    (hsize : ∀ p ∈ ps, size ∣ p.code.length) : size ∣ (layout size mark ps).length := by
  rw [length_layout hmark]
  refine List.dvd_sum fun n hn => ?_
  obtain ⟨p, hp, rfl⟩ := List.mem_map.1 hn
  unfold Part.headLength
  cases p.dynamic with
  | true => exact dvd_rfl.add (hsize p hp)
  | false => exact (hsize p hp).add (dvd_zero size)

/-- Nothing is in a sequence but what is in its parts and in the marks. -/
theorem forall_mem_layout {P : α → Prop} {ps : List (Part α)} (hmark : ∀ n, ∀ a ∈ mark n, P a)
    (hps : ∀ p ∈ ps, ∀ a ∈ p.code, P a) : ∀ a ∈ layout size mark ps, P a := by
  have hheads : ∀ next, ∀ a ∈ heads mark next ps, P a := by
    induction ps with
    | nil => exact fun _ => (by intros; contradiction)
    | cons p ps ih =>
      intro next a ha
      have hrest := ih fun q hq => hps q (List.mem_cons_of_mem p hq)
      rw [heads] at ha
      split at ha
      · exact (List.mem_append.1 ha).elim (hmark _ a) (hrest _ a)
      · exact (List.mem_append.1 ha).elim (hps p List.mem_cons_self a) (hrest _ a)
  intro a ha
  rcases List.mem_append.1 ha with ha | ha
  · exact hheads _ a ha
  · obtain ⟨p, hp, ha⟩ := List.mem_flatMap.1 ha
    split at ha
    · exact hps p hp a ha
    · cases ha

/-- Where there is a mark, the sequence is no shorter. -/
theorem size_le_length_layout (hmark : ∀ n, (mark n).length = size) {ps : List (Part α)}
    {p : Part α} (hp : p ∈ ps) (hdyn : p.dynamic = true) : size ≤ (layout size mark ps).length := by
  rw [length_layout hmark]
  have hle := List.single_le_sum (fun n _ => Nat.zero_le n) _
    (List.mem_map_of_mem (f := fun p : Part α =>
      p.headLength size + if p.dynamic = true then p.code.length else 0) hp)
  rw [Part.headLength, if_pos hdyn] at hle
  exact (Nat.le_add_right _ _).trans hle

end HeadTail

import Mathlib.Data.List.DropRight
import Mathlib.Data.List.TakeWhile

/-!
# Words and marks

How a hand-written reader of a small language cuts its text: blanks are skipped, a
letter opens a word, which goes as far as it can, and anything else stands for itself.
What such a reader does depends on the text only through its tokens
(`Zponder.Words.Shape.lex`), so that a parser that works on characters, with its
blanks and its look-ahead, is compared with a grammar over tokens.

A text that is *written* word by word is cut where it was joined
(`Zponder.Words.Shape.lex_word`): the words of a printed syntax tree are read back as
they are, if each is followed by something that no word goes on with.
-/

namespace Zponder.Words

variable {α : Type*}

/-- A piece of a text. -/
inductive Token (α : Type*) where
  /-- A word. -/
  | word : List α → Token α
  /-- A letter that belongs to no word. -/
  | mark : α → Token α
  deriving DecidableEq, Repr

/-- The letters that are skipped, those that open a word, and those it goes on with. -/
structure Shape (α : Type*) where
  blank : α → Bool
  start : α → Bool
  cont : α → Bool
  blank_of_start : ∀ a, start a = true → blank a = false
  blank_of_cont : ∀ a, cont a = true → blank a = false

namespace Shape

variable (S : Shape α)

/-- A letter that opens a word, and letters it goes on with. -/
def IsWord : List α → Prop
  | [] => False
  | a :: w => S.start a = true ∧ ∀ b ∈ w, S.cont b = true

/-- The tokens of a text. -/
def lex (s : List α) : List (Token α) :=
  match _h : s.dropWhile S.blank with
  | [] => []
  | a :: rest =>
    if S.start a then .word (a :: rest.takeWhile S.cont) :: lex (rest.dropWhile S.cont)
    else .mark a :: lex rest
termination_by s.length
decreasing_by
  all_goals
    have hs := (List.dropWhile_suffix (l := s) S.blank).length_le
    rw [_h, List.length_cons] at hs
  · have := (List.dropWhile_suffix (l := rest) S.cont).length_le
    omega
  · omega

instance : DecidablePred S.IsWord
  | [] => inferInstanceAs (Decidable False)
  | a :: w => inferInstanceAs (Decidable (S.start a = true ∧ ∀ b ∈ w, S.cont b = true))

variable {S}

/-! ### Where a text is cut -/

theorem lex_of_nil {s : List α} (h : s.dropWhile S.blank = []) : S.lex s = [] := by
  rw [lex]
  split
  · rfl
  · simp_all

theorem lex_of_start {s rest : List α} {a : α} (h : s.dropWhile S.blank = a :: rest)
    (ha : S.start a = true) :
    S.lex s = .word (a :: rest.takeWhile S.cont) :: S.lex (rest.dropWhile S.cont) := by
  rw [lex]
  split
  · simp_all
  · rename_i b rest' h'
    obtain ⟨rfl, rfl⟩ := List.cons.inj (h'.symm.trans h)
    exact if_pos ha

theorem lex_of_mark {s rest : List α} {a : α} (h : s.dropWhile S.blank = a :: rest)
    (ha : S.start a = false) : S.lex s = .mark a :: S.lex rest := by
  rw [lex]
  split
  · simp_all
  · rename_i b rest' h'
    obtain ⟨rfl, rfl⟩ := List.cons.inj (h'.symm.trans h)
    exact if_neg (by simp [ha])

theorem lex_eq_nil_iff {s : List α} : S.lex s = [] ↔ s.dropWhile S.blank = [] := by
  refine ⟨fun h => ?_, lex_of_nil⟩
  rcases hs : s.dropWhile S.blank with _ | ⟨a, rest⟩
  · rfl
  · cases ha : S.start a
    · rw [lex_of_mark hs ha] at h
      exact absurd h (List.cons_ne_nil _ _)
    · rw [lex_of_start hs ha] at h
      exact absurd h (List.cons_ne_nil _ _)

/-- A text whose first token is a word. -/
theorem lex_eq_word {s : List α} {w : List α} {ts : List (Token α)}
    (h : S.lex s = .word w :: ts) :
    ∃ a rest, s.dropWhile S.blank = a :: rest ∧ S.start a = true ∧
      w = a :: rest.takeWhile S.cont ∧ ts = S.lex (rest.dropWhile S.cont) := by
  rcases hs : s.dropWhile S.blank with _ | ⟨a, rest⟩
  · rw [lex_of_nil hs] at h
    exact absurd h.symm (List.cons_ne_nil _ _)
  · cases ha : S.start a
    · rw [lex_of_mark hs ha] at h
      simp at h
    · rw [lex_of_start hs ha] at h
      simp only [List.cons.injEq, Token.word.injEq] at h
      exact ⟨a, rest, rfl, ha, h.1.symm, h.2.symm⟩

/-- A text whose first token is a mark. -/
theorem lex_eq_mark {s : List α} {a : α} {ts : List (Token α)}
    (h : S.lex s = .mark a :: ts) :
    ∃ rest, s.dropWhile S.blank = a :: rest ∧ S.start a = false ∧ ts = S.lex rest := by
  rcases hs : s.dropWhile S.blank with _ | ⟨b, rest⟩
  · rw [lex_of_nil hs] at h
    exact absurd h.symm (List.cons_ne_nil _ _)
  · cases hb : S.start b
    · rw [lex_of_mark hs hb] at h
      simp only [List.cons.injEq, Token.mark.injEq] at h
      obtain ⟨rfl, rfl⟩ := h
      exact ⟨rest, rfl, hb, rfl⟩
    · rw [lex_of_start hs hb] at h
      simp at h

@[simp] theorem lex_skip (s : List α) : S.lex (s.dropWhile S.blank) = S.lex s := by
  have h : (s.dropWhile S.blank).dropWhile S.blank = s.dropWhile S.blank :=
    List.dropWhile_idempotent S.blank s
  rcases hs : s.dropWhile S.blank with _ | ⟨a, rest⟩
  · rw [lex_of_nil hs, lex_of_nil rfl]
  · rw [hs] at h
    cases ha : S.start a
    · rw [lex_of_mark hs ha, lex_of_mark h ha]
    · rw [lex_of_start hs ha, lex_of_start h ha]

/-- The words of a text are words. -/
theorem isWord_of_mem {s w : List α} (h : Token.word w ∈ S.lex s) : S.IsWord w := by
  fun_induction S.lex s with
  | case1 s hs => simp at h
  | case2 s a rest hs ha ih =>
    rcases List.mem_cons.1 h with h | h
    · rw [Token.word.injEq] at h
      subst h
      exact ⟨ha, fun b hb => List.mem_takeWhile_imp hb⟩
    · exact ih h
  | case3 s a rest hs ha ih =>
    rcases List.mem_cons.1 h with h | h
    · simp at h
    · exact ih h

/-! ### A text that is written token by token -/

@[simp] theorem lex_nil : S.lex [] = [] := lex_of_nil rfl

theorem lex_blank {a : α} (h : S.blank a = true) (s : List α) : S.lex (a :: s) = S.lex s := by
  rw [← lex_skip (a :: s), List.dropWhile_cons_of_pos h, lex_skip]

theorem lex_cons_mark {a : α} (hb : S.blank a = false) (hs : S.start a = false)
    (s : List α) : S.lex (a :: s) = .mark a :: S.lex s :=
  lex_of_mark (List.dropWhile_cons_of_neg (by simp [hb])) hs

/-- No word goes on into this text. -/
def Breaks (S : Shape α) (s : List α) : Prop := ∀ a ∈ s.head?, S.cont a = false

theorem breaks_blank {b : α} (hb : S.blank b = true) (s : List α) : S.Breaks (b :: s) := by
  intro a ha
  obtain rfl : b = a := by simpa using ha
  by_contra hc
  have := S.blank_of_cont b (by simpa using hc)
  simp_all

/-- A word is read back, if what follows is no part of it. -/
theorem lex_word {w : List α} (hw : S.IsWord w) {s : List α} (hs : S.Breaks s) :
    S.lex (w ++ s) = .word w :: S.lex s := by
  rcases w with _ | ⟨a, w⟩
  · exact hw.elim
  · obtain ⟨ha, hw⟩ := hw
    have hskip : ((a :: w) ++ s).dropWhile S.blank = a :: (w ++ s) :=
      List.dropWhile_cons_of_neg (by simp [S.blank_of_start a ha])
    have htake : (w ++ s).takeWhile S.cont = w ∧ (w ++ s).dropWhile S.cont = s := by
      rw [List.takeWhile_append_of_pos hw, List.dropWhile_append_of_pos hw]
      rcases s with _ | ⟨b, s⟩
      · simp
      · have hb : S.cont b = false := hs b rfl
        simp [hb]
    rw [lex_of_start hskip ha, htake.1, htake.2]

/-- Words, with a blank in front of each. -/
def spaced (b : α) (ws : List (List α)) : List α := ws.flatMap fun w => b :: w

theorem breaks_spaced {b : α} (hb : S.blank b = true) (ws : List (List α)) {s : List α}
    (hs : S.Breaks s) : S.Breaks (spaced b ws ++ s) := by
  rcases ws with _ | ⟨w, ws⟩
  · exact hs
  · exact breaks_blank hb _

/-- Words that are written with blanks are read back. -/
theorem lex_spaced {b : α} (hb : S.blank b = true) {ws : List (List α)}
    (hws : ∀ w ∈ ws, S.IsWord w) {s : List α} (hs : S.Breaks s) :
    S.lex (spaced b ws ++ s) = ws.map .word ++ S.lex s := by
  induction ws with
  | nil => rfl
  | cons w ws ih =>
    obtain ⟨hw, hws⟩ := List.forall_mem_cons.1 hws
    have hcons : spaced b (w :: ws) ++ s = b :: (w ++ (spaced b ws ++ s)) := by simp [spaced]
    rw [hcons, lex_blank hb, lex_word hw (breaks_spaced hb ws hs), ih hws]
    rfl

end Shape

end Zponder.Words

import Mathlib

/-!
# The head of an SQL statement

How SQLite cuts a text into tokens (`Sqlite.tokens`), and what the first statement of it is
about (`Sqlite.read`): whether it updates, inserts or deletes, which table and which columns an
insertion names, what the condition of a deletion is. The text is a list of bytes, and
a byte is a `Char`.

The tokens are those of SQLite's tokenizer, apart from operators, which are taken one character at a
time. The statement is read for its head only: what is read is what a statement says that SQLite
accepts, and nothing is said about one that it does not.
-/

namespace Sqlite

/-! ### Tokens -/

/-- A token. White space is one character of it, or a comment up to the end of a line; any
other comment is apart. A quoted name is without its quotes. -/
inductive Token where
  | blank
  | comment
  | word (text : List Char)
  | name (text : List Char)
  | string (text : List Char)
  | number
  | variable
  | symbol (c : Char)
  | illegal
  deriving DecidableEq, Repr

/-- White space. -/
def isSpace (c : Char) : Bool :=
  c == ' ' || c == '\t' || c == '\n' || c == '\r' || c == '\u000c'

/-- A character of a name. -/
def isIdChar (c : Char) : Bool := c.isAlphanum || c == '_' || c == '$' || 0x80 ≤ c.toNat

/-- Behind the end of a comment, if it has one. -/
def afterComment : List Char → List Char
  | [] => []
  | c :: s => if c = '*' ∧ s.head? = some '/' then s.drop 1 else afterComment s

/-- Up to a closing quote, and what is behind it. Two quotes stand for one where they are
`doubled`. -/
def readQuoted (close : Char) (doubled : Bool) : List Char → Option (List Char × List Char)
  | [] => none
  | c :: s =>
    if c = close then
      match s with
      | [] => some ([], [])
      | c' :: s' =>
        if doubled = true ∧ c' = close then
          (readQuoted close doubled s').map fun r => (close :: r.1, r.2)
        else some ([], s)
    else (readQuoted close doubled s).map fun r => (c :: r.1, r.2)

/-- A token in quotes. One without an end is none. -/
def quoted (token : List Char → Token) (close : Char) (doubled : Bool) (s : List Char) :
    Token × List Char :=
  match readQuoted close doubled s with
  | none => (.illegal, [])
  | some r => (token r.1, r.2)

/-- Behind a variable, of which there are `n` characters. It may go on in parentheses. -/
def readVariable : Nat → List Char → Option (List Char)
  | n, [] => if n = 0 then none else some []
  | n, c :: s =>
    if isIdChar c = true then readVariable (n + 1) s
    else if c = '(' ∧ n ≠ 0 then
      let rest := s.dropWhile fun c => !isSpace c && c != ')'
      if rest.head? = some ')' then some (rest.drop 1) else none
    else
      match s with
      | [] => if n = 0 then none else some [c]
      | c' :: s' =>
        if c = ':' ∧ c' = ':' then readVariable n s'
        else if n = 0 then none else some (c :: s)

/-- A variable, from behind its sign. -/
def bound (s : List Char) : Token × List Char :=
  match readVariable 0 s with
  | none => (.illegal, [])
  | some rest => (.variable, rest)

/-- The token a text begins with, and the text behind it. -/
def next (c : Char) (s : List Char) : Token × List Char :=
  if isSpace c = true then (.blank, s)
  else if c = '-' ∧ s.head? = some '-' then (.blank, s.dropWhile (· != '\n'))
  else if c = '/' ∧ s.head? = some '*' ∧ s.drop 1 ≠ [] then (.comment, afterComment (s.drop 1))
  else if c = '\u00ef' ∧ s.take 2 = ['\u00bb', '\u00bf'] then
    (.comment, s.drop 2)
  else if c = '\'' then quoted .string '\'' true s
  else if c = '"' ∨ c = '\u0060' then quoted .name c true s
  else if c = '[' then quoted .name ']' false s
  else if (c = 'x' ∨ c = 'X') ∧ s.head? = some '\'' then quoted .string '\'' false (s.drop 1)
  else if c.isDigit = true ∨ c = '.' ∧ (s.head?.any (·.isDigit)) = true then
    (.number, s.dropWhile fun c => isIdChar c || c == '.')
  else if c = '$' ∨ c = '@' ∨ c = '#' ∨ c = ':' then bound s
  else if isIdChar c = true then (.word (c :: s.takeWhile isIdChar), s.dropWhile isIdChar)
  else (.symbol c, s)

theorem length_afterComment_le (s : List Char) : (afterComment s).length ≤ s.length := by
  induction s with
  | nil => exact Nat.le_refl _
  | cons c s ih =>
    rw [afterComment]
    split
    · rw [List.length_drop, List.length_cons]
      omega
    · exact ih.trans (Nat.le_succ _)

theorem length_readQuoted_le {close : Char} {doubled : Bool} (s : List Char) :
    ∀ r ∈ readQuoted close doubled s, r.2.length ≤ s.length := by
  fun_induction readQuoted close doubled s with
  | case1 => simp
  | case2 => simp
  | case3 c s hdouble ih =>
    intro r hr
    obtain ⟨r', hr', rfl⟩ := Option.map_eq_some_iff.1 hr
    have hshort := ih r' hr'
    simp only [List.length_cons]
    omega
  | case4 c s hdouble =>
    intro r hr
    obtain rfl := Option.some.inj hr
    simp
  | case5 c s hclose ih =>
    intro r hr
    obtain ⟨r', hr', rfl⟩ := Option.map_eq_some_iff.1 hr
    have hshort := ih r' hr'
    simp only [List.length_cons]
    omega

theorem length_quoted_le (token : List Char → Token) (close : Char) (doubled : Bool)
    (s : List Char) : (quoted token close doubled s).2.length ≤ s.length := by
  unfold quoted
  split
  · exact Nat.zero_le _
  · next r hr => exact length_readQuoted_le s r hr

theorem length_readVariable_le (n : Nat) (s : List Char) :
    ∀ rest ∈ readVariable n s, rest.length ≤ s.length := by
  fun_induction readVariable n s with
  | case3 n c s hid ih => exact fun rest hrest => (ih rest hrest).trans (Nat.le_succ _)
  | case4 n c s hid hparen inside hclose =>
    intro rest hrest
    obtain rfl := Option.some.inj hrest
    have hinside : inside.length ≤ s.length := List.length_dropWhile_le _ s
    rw [List.length_drop, List.length_cons]
    omega
  | case8 n c c' s hid hparen hcolons ih =>
    intro rest hrest
    exact (ih rest hrest).trans ((Nat.le_succ _).trans (Nat.le_succ _))
  | case1 | case5 | case6 | case9 =>
    intro rest hrest
    cases hrest
  | case2 | case7 | case10 =>
    intro rest hrest
    obtain rfl := Option.some.inj hrest
    exact Nat.le_refl _

theorem length_bound_le (s : List Char) : (bound s).2.length ≤ s.length := by
  unfold bound
  split
  · exact Nat.zero_le _
  · next rest hrest => exact length_readVariable_le 0 s rest hrest

theorem length_next_le (c : Char) (s : List Char) : (next c s).2.length ≤ s.length := by
  have hdrop : ∀ p : Char → Bool, (s.dropWhile p).length ≤ s.length :=
    fun p => List.length_dropWhile_le p s
  have hbehind : ∀ n, (s.drop n).length ≤ s.length := fun n => by
    rw [List.length_drop]
    exact Nat.sub_le _ _
  rw [next]
  split
  · exact Nat.le_refl _
  split
  · exact hdrop _
  split
  · exact (length_afterComment_le _).trans (hbehind 1)
  split
  · exact hbehind 2
  split
  · exact length_quoted_le _ _ _ s
  split
  · exact length_quoted_le _ _ _ s
  split
  · exact length_quoted_le _ _ _ s
  split
  · exact (length_quoted_le _ _ _ _).trans (hbehind 1)
  split
  · exact hdrop _
  split
  · exact length_bound_le s
  split
  · exact hdrop _
  · exact Nat.le_refl _

/-- The tokens of a text. -/
def tokens : List Char → List Token
  | [] => []
  | c :: s => (next c s).1 :: tokens (next c s).2
termination_by s => s.length
decreasing_by exact Nat.lt_succ_of_le (length_next_le c s)

/-! ### The first statement -/

/-- Nothing that a statement is made of. -/
def Token.isFiller (t : Token) : Bool := t == .blank || t == .comment

/-- What may stand in front of a statement. -/
def Token.isLead (t : Token) : Bool := t.isFiller || t == .symbol ';'

/-- In front of the first statement. -/
def lead (ts : List Token) : List Token := ts.takeWhile Token.isLead

/-- The first statement. -/
def statement (ts : List Token) : List Token :=
  ((ts.dropWhile Token.isLead).takeWhile (· != .symbol ';')).filter fun t => !t.isFiller

theorem tokens_cons (c : Char) (s : List Char) :
    tokens (c :: s) = (next c s).1 :: tokens (next c s).2 := by
  rw [tokens]

/-- What stands in front of a statement is not of it. -/
theorem statement_of_isLead {t : Token} (h : t.isLead = true) (ts : List Token) :
    statement (t :: ts) = statement ts ∧ lead (t :: ts) = t :: lead ts := by
  rw [statement, statement, lead, lead, List.dropWhile_cons_of_pos h, List.takeWhile_cons_of_pos h]
  exact ⟨rfl, rfl⟩

theorem statement_of_not_isLead {t : Token} (h : ¬t.isLead = true) (ts : List Token) :
    (statement (t :: ts)).head? = some t ∧ lead (t :: ts) = [] := by
  have hfiller : t.isFiller = false := by
    rw [Token.isLead, Bool.or_eq_true, not_or] at h
    exact Bool.eq_false_iff.2 h.1
  have hsemicolon : (t != .symbol ';') = true := by
    rw [Token.isLead, Bool.or_eq_true, not_or] at h
    exact bne_iff_ne.2 fun heq => h.2 (beq_iff_eq.2 heq)
  rw [statement, lead, List.dropWhile_cons_of_neg h, List.takeWhile_cons_of_neg h,
    List.takeWhile_cons_of_pos (p := fun x : Token => x != Token.symbol ';') hsemicolon,
    List.filter_cons_of_pos (by simp [hfiller])]
  exact ⟨rfl, rfl⟩

/-- The token is not read for what it is made of. -/
def Token.isLiteral : Token → Bool
  | .name _ | .string _ | .number | .variable | .illegal => true
  | _ => false

theorem isLiteral_quoted {token : List Char → Token} (htoken : ∀ text, (token text).isLiteral = true)
    (close : Char) (doubled : Bool) (s : List Char) :
    (quoted token close doubled s).1.isLiteral = true := by
  unfold quoted
  split
  · rfl
  · exact htoken _

theorem isLiteral_bound (s : List Char) : (bound s).1.isLiteral = true := by
  unfold bound
  split <;> rfl

/-- **What a text begins with**: white space, a comment, a word, a symbol or something else. -/
theorem next_cases (c : Char) (s : List Char) :
    (isSpace c = true ∧ next c s = (.blank, s)) ∨
    (c = '-' ∧ s.head? = some '-' ∧ next c s = (.blank, s.dropWhile (· != '\n'))) ∨
    ((c = '/' ∨ c = '\u00ef') ∧ (next c s).1 = .comment) ∨
    (next c s).1 = .word (c :: s.takeWhile isIdChar) ∨
    (next c s).1 = .symbol c ∨
    (next c s).1.isLiteral = true := by
  rw [next]
  split
  · exact .inl ⟨by assumption, rfl⟩
  refine .inr ?_
  split
  · next hline => exact .inl ⟨hline.1, hline.2, rfl⟩
  refine .inr ?_
  split
  · next hcomment => exact .inl ⟨.inl hcomment.1, rfl⟩
  split
  · next hmark => exact .inl ⟨.inr hmark.1, rfl⟩
  refine .inr ?_
  split
  · exact .inr (.inr (isLiteral_quoted (fun _ => rfl) _ _ _))
  split
  · exact .inr (.inr (isLiteral_quoted (fun _ => rfl) _ _ _))
  split
  · exact .inr (.inr (isLiteral_quoted (fun _ => rfl) _ _ _))
  split
  · exact .inr (.inr (isLiteral_quoted (fun _ => rfl) _ _ _))
  split
  · exact .inr (.inr rfl)
  split
  · exact .inr (.inr (isLiteral_bound s))
  split
  · exact .inl rfl
  · exact .inr (.inl rfl)

/-- The token is a word, whichever case it is in. -/
def Token.isWord (w : List Char) (t : Token) : Bool :=
  match t with
  | .word text => text.map Char.toLower == w
  | _ => false

/-- The name a token may stand for. -/
def Token.name? : Token → Option (List Char)
  | .word text => some text
  | .name text => some text
  | .string text => some text
  | _ => none

/-- How deep in parentheses it is behind a token. -/
def depthAfter (depth : Nat) (t : Token) : Nat :=
  if t = .symbol '(' then depth + 1 else if t = .symbol ')' then depth - 1 else depth

/-- From the first token on that is in no parentheses and from which on `p` holds. -/
def fromTop (p : List Token → Bool) : Nat → List Token → List Token
  | _, [] => []
  | depth, t :: ts =>
    if depth = 0 ∧ p (t :: ts) = true then t :: ts else fromTop p (depthAfter depth t) ts

/-- Up to there. -/
def untilTop (p : List Token → Bool) : Nat → List Token → List Token
  | _, [] => []
  | depth, t :: ts =>
    if depth = 0 ∧ p (t :: ts) = true then [] else t :: untilTop p (depthAfter depth t) ts

/-- The tokens begin with one of the words. -/
def beginsWith (words : List (List Char)) (ts : List Token) : Bool :=
  ts.head?.any fun t => words.any fun w => t.isWord w

/-- Where the statement behind a `WITH` begins. Of the words only `REPLACE` may be a name too. -/
def beginsMain (ts : List Token) : Bool :=
  beginsWith ["select".toList, "values".toList, "insert".toList, "update".toList,
    "delete".toList] ts ||
  beginsWith ["replace".toList] ts && beginsWith ["into".toList] (ts.drop 1)

/-- The statement itself. -/
def main (ts : List Token) : List Token :=
  if beginsWith ["with".toList] ts = true then fromTop beginsMain 0 (ts.drop 1) else ts

/-- What a statement does. -/
inductive Effect where
  | update
  /-- Into a table, with the columns that are named, and with or without `DO UPDATE`. -/
  | insert (table : List Char) (columns : List (List Char)) (updates : Bool)
  /-- Of the rows that meet a condition. -/
  | delete (condition : List Token)
  | other
  deriving DecidableEq, Repr

/-- Without a word at the beginning, and so many tokens behind it. -/
def dropWord (w : List Char) (n : Nat) (ts : List Token) : List Token :=
  if beginsWith [w] ts = true then ts.drop (n + 1) else ts

/-- A name with another before it or not, and what comes behind. -/
def readQualified (ts : List Token) : List Char × List Token :=
  if (ts.drop 1).head? = some (.symbol '.') then
    (((ts.drop 2).head?.bind Token.name?).getD [], ts.drop 3)
  else ((ts.head?.bind Token.name?).getD [], ts.drop 1)

/-- An insertion, from behind its verb. -/
def readInsert (ts : List Token) : Effect :=
  let into := dropWord "into".toList 0 (dropWord "or".toList 1 ts)
  let table := readQualified into
  let rest := dropWord "as".toList 1 table.2
  let columns :=
    if rest.head? = some (.symbol '(') then
      ((rest.drop 1).takeWhile (· != .symbol ')')).filterMap Token.name?
    else []
  .insert table.1 columns (fromTop (beginsWith ["update".toList]) 0 rest != [])

/-- The condition of a deletion. -/
def readCondition (ts : List Token) : List Token :=
  untilTop (beginsWith ["returning".toList, "order".toList, "limit".toList]) 0
    ((fromTop (beginsWith ["where".toList]) 0 ts).drop 1)

/-- **What the statement does.** -/
def read (ts : List Token) : Effect :=
  let ts := main ts
  if beginsWith ["update".toList] ts = true then .update
  else if beginsWith ["insert".toList, "replace".toList] ts = true then readInsert (ts.drop 1)
  else if beginsWith ["delete".toList] ts = true then .delete (readCondition (ts.drop 1))
  else .other

end Sqlite

import Zponder.Lib.Sqlite
import Zponder.Text

/-!
# The guard of the projections

A reorganization is undone by deleting rows by their block number, so a handler is to insert
rows with a block number only, and not to change any. `checkWrite` looks at a statement before it
is executed. It looks at its first word and at the text as a whole, and SQLite looks at
the tokens: what the guard does not see is a statement whose first word comes behind
something else than blanks and line comments, or is not the verb, and a `block_number`
that stands where it decides nothing (`Zponder.Projection.sound_iff`).

Whether SQLite accepts a statement, which it does not of one that is not well formed or that names
what is not there, is a parameter.
-/

namespace Zponder

namespace Projection

open Sqlite

/-! ### The guard -/

/-- `std.ascii.isWhitespace` -/
def isWhitespace (c : Char) : Bool := isSpace c || c == '\u000b'

/-- `isIdentStart` -/
def isIdentStart (c : Char) : Bool := c.isAlpha || c == '_'

/-- `isIdentCont` -/
def isIdentCont (c : Char) : Bool := c.isAlphanum || c == '_'

/-- `containsIgnoreCase`, for a text that is not empty. -/
def containsIgnoreCase (haystack needle : Text) : Bool :=
  haystack.tails.any fun s => Text.eqlIgnoreCase (s.take needle.length) needle

/-- `skipTrivia`, inside of a line comment and outside: what is left of the text. -/
def skipTrivia : Bool → Text → Text
  | _, [] => []
  | true, c :: s => skipTrivia (c != '\n') s
  | false, c :: s =>
    if isWhitespace c = true then skipTrivia false s
    else if c = '-' ∧ s.head? = some '-' then skipTrivia true s
    else c :: s

/-- `readDelimited`: what stands between the quotes, as it stands there. -/
def readDelimited (close : Char) : Text → Text × Text
  | [] => ([], [])
  | c :: s =>
    if c = close then
      match s with
      | [] => ([], [])
      | c' :: s' =>
        if close ≠ ']' ∧ c' = close then
          let r := readDelimited close s'
          (close :: close :: r.1, r.2)
        else ([], s)
    else
      let r := readDelimited close s
      (c :: r.1, r.2)

/-- `readName`, and what is left of the text. -/
def readName : Text → Option (Text × Text)
  | [] => none
  | c :: s =>
    if c = '"' ∨ c = '\u0060' then some (readDelimited c s)
    else if c = '[' then some (readDelimited ']' s)
    else if isIdentStart c = true then some (c :: s.takeWhile isIdentCont, s.dropWhile isIdentCont)
    else none

/-- `firstKeyword` -/
def firstKeyword (sql : Text) : Option Text :=
  let s := skipTrivia false sql
  if s.head? = some '"' ∨ s.head? = some '\u0060' ∨ s.head? = some '[' then none
  else (readName s).map (·.1)

/-- The loop of `readQualifiedName`, for so many turns: the last of the names. -/
def readParts : Nat → Text → Text → Text
  | 0, last, _ => last
  | fuel + 1, last, s =>
    match skipTrivia false s with
    | '.' :: after =>
      match readName (skipTrivia false after) with
      | none => last
      | some part => readParts fuel part.1 part.2
    | _ => last

/-- `readQualifiedName` -/
def readQualifiedName (s : Text) : Option Text :=
  (readName s).map fun first => readParts s.length first.1 first.2

/-- A name in front, if it is the word. -/
def skipWord (word s : Text) : Option Text :=
  match readName s with
  | none => none
  | some w => if Text.eqlIgnoreCase w.1 word = true then some (skipTrivia false w.2) else none

/-- `insertTargetsProj` -/
def insertTargetsProj (sql : Text) : Bool :=
  match readName (skipTrivia false sql) with
  | none => false
  | some insertKw =>
    let s := skipTrivia false insertKw.2
    let s := match skipWord "or".toList s with
      | none => s
      | some s => ((readName s).map fun action => skipTrivia false action.2).getD s
    let s := (skipWord "into".toList s).getD s
    (readQualifiedName s).any fun table =>
      5 ≤ table.length && Text.eqlIgnoreCase (table.take 5) "proj_".toList

/-- `checkWrite`: whether the statement goes through. -/
def checkWrite (sql : Text) : Bool :=
  match firstKeyword sql with
  | none => true
  | some kw =>
    if Text.eqlIgnoreCase kw "select".toList || Text.eqlIgnoreCase kw "with".toList ||
        Text.eqlIgnoreCase kw "create".toList || Text.eqlIgnoreCase kw "drop".toList then true
    else if Text.eqlIgnoreCase kw "update".toList then false
    else if Text.eqlIgnoreCase kw "delete".toList then
      containsIgnoreCase sql "block_number".toList
    else if Text.eqlIgnoreCase kw "insert".toList then
      !(insertTargetsProj sql && !containsIgnoreCase sql "block_number".toList)
    else true

/-! ### What it is to keep out -/

/-- The name of the column. -/
def isBlockNumber (name : Text) : Bool := Text.eqlIgnoreCase name "block_number".toList

/-- The token is the name of the column. -/
def namesBlockNumber : Token → Bool
  | .word text => isBlockNumber text
  | .name text => isBlockNumber text
  | _ => false

/-- **What may not be executed**: it changes a row in place, or inserts one into a projection
without its block number, or deletes rows whatever their block number is. -/
def Harmful : Effect → Prop
  | .update => True
  | .insert table columns updates => updates = true ∨
    Text.eqlIgnoreCase (table.take 5) "proj_".toList = true ∧ ∀ c ∈ columns, isBlockNumber c = false
  | .delete condition => ∀ t ∈ condition, namesBlockNumber t = false
  | .other => False

/-- What SQLite reads. It takes a text to end at the first NUL. -/
def readTokens (sql : Text) : List Token := tokens (sql.takeWhile (· != '\u0000'))

/-- The statement that is executed. -/
def firstStatement (sql : Text) : List Token := statement (readTokens sql)

/-- **Nothing harmful that goes through is executed.** -/
def Sound (prepares : Text → Bool) (sql : Text) : Prop :=
  checkWrite sql = true → prepares sql = true → ¬Harmful (read (firstStatement sql))

/-- **What the guard has to see of a statement that is harmful**: nothing but blanks and line
comments is in front of it, and it begins with its verb, which is not `REPLACE`; unless it is an
`UPDATE`, the text says `block_number` nowhere; and the table of an insertion can be read. -/
structure Seen (sql : Text) : Prop where
  plain : ∀ t ∈ lead (readTokens sql), t = .blank
  verb : beginsWith ["update".toList] (firstStatement sql) = true ∨
    containsIgnoreCase sql "block_number".toList = false ∧
      (beginsWith ["delete".toList] (firstStatement sql) = true ∨
        beginsWith ["insert".toList] (firstStatement sql) = true ∧ insertTargetsProj sql = true)

/-! ### Two readings of the first word -/

section FirstWord

/-! The text goes on with `r` behind what SQLite reads of it. -/

variable {s r : Text} {c : Char}

theorem takeWhile_congr {p q : Char → Bool} (hqp : ∀ c, q c = true → p c = true)
    (hall : ∀ c ∈ s.takeWhile p, q c = true) : s.takeWhile q = s.takeWhile p := by
  induction s with
  | nil => rfl
  | cons c s ih =>
    by_cases hp : p c = true
    · rw [List.takeWhile_cons_of_pos hp] at hall ⊢
      rw [List.takeWhile_cons_of_pos (hall c List.mem_cons_self),
        ih fun c' hc' => hall c' (List.mem_cons_of_mem c hc')]
    · rw [List.takeWhile_cons_of_neg hp, List.takeWhile_cons_of_neg fun hq => hp (hqp c hq)]

/-- Behind a letter a name goes on in the same way for both, up to where SQLite stops reading. -/
theorem takeWhile_isIdentCont_append (hr : ∀ c ∈ r.head?, c = '\u0000')
    (hletters : ∀ c ∈ s.takeWhile isIdChar, c.isAlpha = true) :
    (s ++ r).takeWhile isIdentCont = s.takeWhile isIdChar := by
  have hs : s.takeWhile isIdentCont = s.takeWhile isIdChar := by
    refine takeWhile_congr (fun c hc => ?_) fun c hc => ?_
    · rw [isIdentCont, Bool.or_eq_true] at hc
      simp only [isIdChar, Bool.or_eq_true]
      exact .inl (.inl hc)
    · rw [isIdentCont, Char.isAlphanum, hletters c hc]
      rfl
  have hend : r.takeWhile isIdentCont = [] := by
    cases r with
    | nil => rfl
    | cons c r =>
      obtain rfl := hr c rfl
      rfl
  rw [List.takeWhile_append, hend, List.append_nil, hs]
  split
  · next hlength =>
    rw [← hs, (List.takeWhile_prefix isIdentCont).eq_of_length (hs ▸ hlength)]
  · rfl

theorem skipTrivia_true (s : Text) :
    skipTrivia true s = skipTrivia false (s.dropWhile (· != '\n')) := by
  induction s with
  | nil => rfl
  | cons c s ih =>
    by_cases hc : c = '\n'
    · subst hc
      rfl
    · rw [skipTrivia, bne_iff_ne.2 hc, ih,
        List.dropWhile_cons_of_pos (p := fun c => c != '\n') (bne_iff_ne.2 hc)]

/-- What is a blank to SQLite is skipped by the guard. -/
theorem skipTrivia_of_blank (h : (next c s).1 = .blank) (hmore : (next c s).2 ≠ []) :
    skipTrivia false (c :: s ++ r) = skipTrivia false ((next c s).2 ++ r) := by
  obtain ⟨hspace, hnext⟩ | ⟨rfl, hline, hnext⟩ | ⟨-, hnext⟩ | hnext | hnext | hnext :=
    next_cases c s
  · have hwhite : isWhitespace c = true := by rw [isWhitespace, hspace, Bool.true_or]
    rw [hnext, List.cons_append, skipTrivia, if_pos hwhite]
  · have hhead : (s ++ r).head? = some '-' := by rw [List.head?_append, hline, Option.some_or]
    rw [hnext] at hmore ⊢
    rw [List.cons_append, skipTrivia, if_neg (by decide), if_pos ⟨rfl, hhead⟩, skipTrivia_true,
      List.dropWhile_append, if_neg (by rwa [List.isEmpty_iff])]
  · rw [h] at hnext
    cases hnext
  · rw [h] at hnext
    cases hnext
  · rw [h] at hnext
    cases hnext
  · rw [h] at hnext
    cases hnext

/-- What is not, and is no word either, hides the first word from the guard. -/
theorem firstKeyword_of_lead (h : (next c s).1.isLead = true) (hblank : (next c s).1 ≠ .blank) :
    firstKeyword (c :: s ++ r) = none := by
  have hc : c = '/' ∨ c = '\u00ef' ∨ c = ';' := by
    obtain ⟨-, hnext⟩ | ⟨-, -, hnext⟩ | ⟨hc, -⟩ | hnext | hnext | hnext := next_cases c s
    · exact absurd (by rw [hnext]) hblank
    · exact absurd (by rw [hnext]) hblank
    · exact hc.imp_right .inl
    · rw [hnext] at h
      cases h
    · rw [hnext, Token.isLead, Bool.or_eq_true, beq_iff_eq] at h
      exact .inr (.inr (Token.symbol.inj (h.resolve_left (by simp [Token.isFiller]))))
    · revert h hnext
      cases (next c s).1 <;> simp [Token.isLead, Token.isFiller, Token.isLiteral]
  obtain rfl | rfl | rfl := hc <;> rfl

/-- A word of letters is the same to both. -/
theorem firstKeyword_of_word {text : Text} (hr : ∀ c ∈ r.head?, c = '\u0000')
    (h : (next c s).1 = .word text) (hletters : ∀ c ∈ text, c.isAlpha = true) :
    firstKeyword (c :: s ++ r) = some text := by
  have htext : text = c :: s.takeWhile isIdChar := by
    obtain ⟨-, hnext⟩ | ⟨-, -, hnext⟩ | ⟨-, hnext⟩ | hnext | hnext | hnext := next_cases c s
    · rw [hnext] at h
      cases h
    · rw [hnext] at h
      cases h
    · rw [h] at hnext
      cases hnext
    · exact Token.word.inj (h.symm.trans hnext)
    · rw [h] at hnext
      cases hnext
    · rw [h] at hnext
      cases hnext
  subst htext
  have hc : c.isAlpha = true := hletters c List.mem_cons_self
  have hne : ∀ c', c'.isAlpha = false → c ≠ c' := fun c' hc' heq => by
    rw [heq, hc'] at hc
    cases hc
  have hwhite : isWhitespace c = false := by
    simp only [isWhitespace, isSpace, Bool.or_eq_false_iff, beq_eq_false_iff_ne]
    exact ⟨⟨⟨⟨⟨hne _ rfl, hne _ rfl⟩, hne _ rfl⟩, hne _ rfl⟩, hne _ rfl⟩, hne _ rfl⟩
  have hskip : skipTrivia false (c :: s ++ r) = c :: (s ++ r) := by
    rw [List.cons_append, skipTrivia, if_neg (by rw [hwhite]; exact Bool.false_ne_true),
      if_neg fun hline => hne '-' rfl hline.1]
  have hstart : isIdentStart c = true := by rw [isIdentStart, hc, Bool.true_or]
  have hname : readName (c :: (s ++ r)) =
      some (c :: s.takeWhile isIdChar, (s ++ r).dropWhile isIdentCont) := by
    rw [readName, if_neg fun hquote => hquote.elim (hne _ rfl) (hne _ rfl), if_neg (hne _ rfl),
      if_pos hstart,
      takeWhile_isIdentCont_append hr fun c' hc' => hletters c' (List.mem_cons_of_mem c hc')]
  rw [firstKeyword, hskip, hname, if_neg]
  · rfl
  · rintro (hquote | hquote | hquote) <;> exact hne _ rfl (Option.some.inj hquote)

/-- **The guard sees the first word of a statement where nothing but blanks is in front of it.** The
induction is on the tokens. -/
theorem firstKeyword_append {text : Text} (hr : ∀ c ∈ r.head?, c = '\u0000')
    (h : (statement (tokens s)).head? = some (.word text))
    (hletters : ∀ c ∈ text, c.isAlpha = true) :
    ((∀ t ∈ lead (tokens s), t = .blank) → firstKeyword (s ++ r) = some text) ∧
      ((¬∀ t ∈ lead (tokens s), t = .blank) → firstKeyword (s ++ r) = none) := by
  induction s using tokens.induct with
  | case1 =>
    rw [tokens] at h
    cases h
  | case2 c s ih =>
    rw [tokens_cons] at h ⊢
    by_cases hlead : (next c s).1.isLead = true
    · obtain ⟨hstatement, hfront⟩ := statement_of_isLead hlead (tokens (next c s).2)
      rw [hstatement] at h
      rw [hfront]
      by_cases hblank : (next c s).1 = .blank
      · have hmore : (next c s).2 ≠ [] := fun hnil => by
          rw [hnil, tokens] at h
          cases h
        rw [firstKeyword, skipTrivia_of_blank hblank hmore, ← firstKeyword, hblank]
        simpa only [List.forall_mem_cons, true_and] using ih h
      · exact ⟨fun hall => absurd (hall _ List.mem_cons_self) hblank,
          fun _ => firstKeyword_of_lead hlead hblank⟩
    · obtain ⟨hstatement, hfront⟩ := statement_of_not_isLead hlead (tokens (next c s).2)
      rw [hstatement] at h
      rw [hfront]
      exact ⟨fun _ => firstKeyword_of_word hr (Option.some.inj h) hletters,
        fun hsome => absurd (fun t ht => absurd ht List.not_mem_nil) hsome⟩

end FirstWord

/-! ### The guard against what SQLite executes -/

section Guard

variable {sql text w : Text} {ts : List Token}

theorem beginsWith_iff (words : List Text) (ts : List Token) :
    beginsWith words ts = true ↔
      ∃ text, ts.head? = some (.word text) ∧ Text.lower text ∈ words := by
  rw [beginsWith, Option.any_eq_true]
  constructor
  · rintro ⟨t, ht, hword⟩
    obtain ⟨w, hw, hword⟩ := List.any_eq_true.1 hword
    cases t with
    | word text =>
      rw [Token.isWord, beq_iff_eq] at hword
      exact ⟨text, ht, by rwa [← hword] at hw⟩
    | _ => cases hword
  · rintro ⟨text, ht, htext⟩
    exact ⟨_, ht, List.any_eq_true.2 ⟨_, htext, by rw [Token.isWord, beq_iff_eq]; rfl⟩⟩

theorem beginsWith_singleton (h : ts.head? = some (.word text)) :
    beginsWith [w] ts = true ↔ Text.lower text = w := by
  rw [beginsWith_iff]
  constructor
  · rintro ⟨text', htext, hmem⟩
    rw [h] at htext
    obtain rfl := Token.word.inj (Option.some.inj htext)
    exact List.mem_singleton.1 hmem
  · exact fun heq => ⟨text, h, List.mem_singleton.2 heq⟩

/-- The verbs of the statements that the guard is about, and `WITH`, which may stand in front. -/
def verbs : List Text :=
  ["update".toList, "insert".toList, "replace".toList, "delete".toList, "with".toList]

/-- **What is harmful begins with a verb.** -/
theorem beginsWith_verbs (h : Harmful (read ts)) : beginsWith verbs ts = true := by
  have hmem : ∀ words, words ⊆ verbs → beginsWith words ts = true → beginsWith verbs ts = true := by
    intro words hsub hwords
    obtain ⟨text, hhead, htext⟩ := (beginsWith_iff words ts).1 hwords
    exact (beginsWith_iff verbs ts).2 ⟨text, hhead, hsub htext⟩
  by_cases hwith : beginsWith ["with".toList] ts = true
  · exact hmem _ (by decide) hwith
  rw [Sqlite.read, main, if_neg hwith] at h
  split at h
  · next hupdate => exact hmem _ (by decide) hupdate
  split at h
  · next hinsert => exact hmem _ (by decide) hinsert
  split at h
  · next hdelete => exact hmem _ (by decide) hdelete
  · exact absurd h not_false

theorem isAlpha_of_lower_mem (h : Text.lower text ∈ verbs) : ∀ c ∈ text, c.isAlpha = true := by
  have hverbs : ∀ w ∈ verbs, w.all Char.isAlpha = true := by
    simp only [verbs, List.forall_mem_cons]
    exact ⟨rfl, rfl, rfl, rfl, rfl, fun _ hw => absurd hw List.not_mem_nil⟩
  intro c hc
  rw [← Char.isAlpha_toLower_eq_isAlpha]
  exact List.all_eq_true.1 (hverbs _ h) _ (List.mem_map_of_mem hc)

/-- What the guard makes of the first word. -/
theorem checkWrite_eq_false_iff (h : firstKeyword sql = some text) :
    checkWrite sql = false ↔ Text.lower text = "update".toList ∨
      containsIgnoreCase sql "block_number".toList = false ∧
        (Text.lower text = "delete".toList ∨
          Text.lower text = "insert".toList ∧ insertTargetsProj sql = true) := by
  have hother : ∀ w, Text.lower text ≠ Text.lower w → ¬Text.eqlIgnoreCase text w = true :=
    fun w hw heq => hw (Text.eqlIgnoreCase_iff.1 heq)
  rw [checkWrite, h]
  dsimp only
  by_cases hupdate : Text.lower text = "update".toList
  · simp only [Text.eqlIgnoreCase, hupdate]
    exact ⟨fun _ => .inl trivial, fun _ => rfl⟩
  by_cases hdelete : Text.lower text = "delete".toList
  · simp only [Text.eqlIgnoreCase, hdelete]
    constructor
    · exact fun hcontains => .inr ⟨hcontains, .inl trivial⟩
    · rintro (heq | hverb)
      · exact absurd heq (by decide)
      · exact hverb.1
  by_cases hinsert : Text.lower text = "insert".toList
  · simp only [Text.eqlIgnoreCase, hinsert]
    show (!(insertTargetsProj sql && !containsIgnoreCase sql "block_number".toList)) = false ↔ _
    rw [Bool.not_eq_false', Bool.and_eq_true, Bool.not_eq_true']
    constructor
    · exact fun hboth => .inr ⟨hboth.2, .inr ⟨trivial, hboth.1⟩⟩
    · rintro (heq | hverb)
      · exact absurd heq (by decide)
      · exact ⟨(hverb.2.resolve_left (by decide)).2, hverb.1⟩
  · have hnone : ¬(Text.lower text = "update".toList ∨
        containsIgnoreCase sql "block_number".toList = false ∧
          (Text.lower text = "delete".toList ∨
            Text.lower text = "insert".toList ∧ insertTargetsProj sql = true)) := by
      rintro (heq | ⟨-, heq | ⟨heq, -⟩⟩)
      · exact hupdate heq
      · exact hdelete heq
      · exact hinsert heq
    rw [if_neg (hother "update".toList hupdate), if_neg (hother "delete".toList hdelete),
      if_neg (hother "insert".toList hinsert), ite_self]
    exact ⟨fun hfalse => absurd hfalse Bool.false_ne_true.symm, fun hverb => absurd hverb hnone⟩

/-- **A harmful statement is kept out if and only if the guard can see it.** -/
theorem checkWrite_iff_seen (h : Harmful (read (firstStatement sql))) :
    checkWrite sql = false ↔ Seen sql := by
  obtain ⟨text, hhead, htext⟩ := (beginsWith_iff _ _).1 (beginsWith_verbs h)
  have hend : ∀ c ∈ (sql.dropWhile (· != '\u0000')).head?, c = '\u0000' := fun c hc => by
    have hnot := List.head?_dropWhile_not (fun c => c != '\u0000') sql
    rw [Option.mem_def.1 hc] at hnot
    simpa using hnot
  obtain ⟨hseen, hhidden⟩ := firstKeyword_append hend hhead (isAlpha_of_lower_mem htext)
  rw [List.takeWhile_append_dropWhile] at hseen hhidden
  by_cases hplain : ∀ t ∈ lead (readTokens sql), t = .blank
  · rw [checkWrite_eq_false_iff (hseen hplain), ← beginsWith_singleton hhead,
      ← beginsWith_singleton hhead, ← beginsWith_singleton hhead]
    exact ⟨fun hverb => ⟨hplain, hverb⟩, Seen.verb⟩
  · rw [checkWrite, hhidden hplain]
    exact ⟨fun hfalse => absurd hfalse Bool.false_ne_true.symm, fun hs => absurd hs.plain hplain⟩

end Guard

end Projection

end Zponder

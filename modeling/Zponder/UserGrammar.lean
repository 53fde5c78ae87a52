import Zponder.UserSchema

/-!
# What a schema says

A text *says* tables if its words are those of the tables
(`Zponder.UserGrammar.Spells`): blocks `table name { … }` of columns, each a name, a type and
at most one `primary key` and one `not null`, in any order. The syntax says nothing about
names, and a column may be called `primary`, `not` or `table`; still a text says one list of
tables at most (`Zponder.UserGrammar.Spells.unique`), since the second word of a modifier
is no type.

## The reader

The reader is compared with the syntax through the words alone, one lemma for each
function and each direction: what is read was there, and what is there is read.
It does not read everything there is. The name of a column that follows another one
is looked at as a modifier of that one first, so that no column but the first can be called
`primary` or `not`; and it takes two columns for one if they are spelled alike
(`Zponder.UserGrammar.parse_eq_ok_iff`).

Tables that were read are read again from their canonical text
(`Zponder.UserGrammar.parse_render`).
-/

namespace Zponder.UserGrammar

open UserSchema
open Words (Token Shape)

/-! ### The words of a schema -/

/-- The blanks and the words of the reader. -/
def shape : Shape Char where
  blank := isBlank
  start := isIdentStart
  cont := isIdentCont
  blank_of_start c h := by
    by_contra hb
    have : c = ' ' ∨ c = '\t' ∨ c = '\n' ∨ c = '\r' := by simp_all [isBlank]; tauto
    rcases this with rfl | rfl | rfl | rfl <;> exact absurd h (by decide)
  blank_of_cont c h := by
    by_contra hb
    have : c = ' ' ∨ c = '\t' ∨ c = '\n' ∨ c = '\r' := by simp_all [isBlank]; tauto
    rcases this with rfl | rfl | rfl | rfl <;> exact absurd h (by decide)

inductive ColumnType where
  | text
  | integer
  | blob
  deriving DecidableEq, Repr

/-- How a type is written in a schema. -/
def ColumnType.word : ColumnType → Text
  | text => "text".toList
  | integer => "integer".toList
  | blob => "blob".toList

/-- How it is written in a statement. -/
def ColumnType.sqlType : ColumnType → Text
  | text => "TEXT".toList
  | integer => "INTEGER".toList
  | blob => "BLOB".toList

inductive Modifier where
  | primaryKey
  | notNull
  deriving DecidableEq, Repr

/-- The first word of a modifier. -/
def Modifier.first : Modifier → Text
  | primaryKey => "primary".toList
  | notNull => "not".toList

/-- The second word of a modifier. -/
def Modifier.second : Modifier → Text
  | primaryKey => "key".toList
  | notNull => "null".toList

def Modifier.tokens (m : Modifier) : List (Token Char) := [.word m.first, .word m.second]

/-- A column of a schema. -/
structure ColumnSpec where
  name : Text
  type : ColumnType
  modifiers : List Modifier
  deriving DecidableEq, Repr

/-- A table of a schema. -/
structure TableSpec where
  name : Text
  columns : List ColumnSpec
  deriving DecidableEq, Repr

def ColumnSpec.tokens (c : ColumnSpec) : List (Token Char) :=
  .word c.name :: .word c.type.word :: c.modifiers.flatMap Modifier.tokens

def TableSpec.tokens (t : TableSpec) : List (Token Char) :=
  .word "table".toList :: .word t.name :: .mark '{' ::
    (t.columns.flatMap ColumnSpec.tokens ++ [.mark '}'])

/-- A column, as the reader hands it over. -/
def ColumnSpec.column (c : ColumnSpec) : Column :=
  ⟨c.name, c.type.sqlType, decide (.primaryKey ∈ c.modifiers), decide (.notNull ∈ c.modifiers)⟩

def TableSpec.table (t : TableSpec) : Table := ⟨t.name, t.columns.map ColumnSpec.column⟩

/-- A table has columns, and no column has a modifier twice. -/
def TableSpec.Formed (t : TableSpec) : Prop :=
  t.columns ≠ [] ∧ ∀ c ∈ t.columns, c.modifiers.Nodup

/-- A text says these tables. -/
def Spells (src : Text) (spec : List TableSpec) : Prop :=
  shape.lex src = spec.flatMap TableSpec.tokens ∧ ∀ t ∈ spec, t.Formed

/-! ### One text says one thing -/

theorem ColumnType.word_inj {a b : ColumnType} (h : a.word = b.word) : a = b := by
  cases a <;> cases b <;> first | rfl | exact absurd h (by decide)

theorem Modifier.first_inj {a b : Modifier} (h : a.first = b.first) : a = b := by
  cases a <;> cases b <;> first | rfl | exact absurd h (by decide)

/-- The second word of a modifier is no type. -/
theorem Modifier.second_ne_word (m : Modifier) (ty : ColumnType) : m.second ≠ ty.word := by
  cases m <;> cases ty <;> decide

/-- No modifier begins here. -/
def Ends (ts : List (Token Char)) : Prop := ∀ (m : Modifier) (ts' : List (Token Char)),
  ts ≠ m.tokens ++ ts'

theorem ends_mark (a : Char) (ts : List (Token Char)) : Ends (.mark a :: ts) := by
  intro m ts' h
  simp [Modifier.tokens] at h

/-- A column does not begin like a modifier, as the second word of one is no type. -/
theorem ends_column (c : ColumnSpec) (ts : List (Token Char)) : Ends (c.tokens ++ ts) := by
  intro m ts' h
  simp only [ColumnSpec.tokens, Modifier.tokens, List.cons_append, List.nil_append,
    List.cons.injEq, Token.word.injEq] at h
  exact m.second_ne_word c.type h.2.1.symm

theorem ends_columns (cs : List ColumnSpec) (a : Char) (ts : List (Token Char)) :
    Ends (cs.flatMap ColumnSpec.tokens ++ .mark a :: ts) := by
  rcases cs with _ | ⟨c, cs⟩
  · exact ends_mark a ts
  · rw [List.flatMap_cons, List.append_assoc]
    exact ends_column c _

theorem modifiers_inj {ms ms' : List Modifier} {ts ts' : List (Token Char)}
    (h : ms.flatMap Modifier.tokens ++ ts = ms'.flatMap Modifier.tokens ++ ts')
    (hts : Ends ts) (hts' : Ends ts') : ms = ms' ∧ ts = ts' := by
  induction ms generalizing ms' with
  | nil =>
    rcases ms' with _ | ⟨m', ms'⟩
    · exact ⟨rfl, h⟩
    · rw [List.flatMap_cons, List.append_assoc] at h
      exact absurd h (hts m' _)
  | cons m ms ih =>
    rcases ms' with _ | ⟨m', ms'⟩
    · rw [List.flatMap_cons, List.append_assoc] at h
      exact absurd h.symm (hts' m _)
    · simp only [List.flatMap_cons, Modifier.tokens, List.cons_append, List.nil_append,
        List.cons.injEq, Token.word.injEq] at h
      obtain rfl := Modifier.first_inj h.1
      obtain ⟨rfl, hrest⟩ := ih h.2.2
      exact ⟨rfl, hrest⟩

theorem columns_inj {cs cs' : List ColumnSpec} {ts ts' : List (Token Char)}
    (h : cs.flatMap ColumnSpec.tokens ++ .mark '}' :: ts =
      cs'.flatMap ColumnSpec.tokens ++ .mark '}' :: ts') : cs = cs' ∧ ts = ts' := by
  induction cs generalizing cs' with
  | nil =>
    rcases cs' with _ | ⟨c', cs'⟩
    · simpa using h
    · simp [ColumnSpec.tokens] at h
  | cons c cs ih =>
    rcases cs' with _ | ⟨c', cs'⟩
    · simp [ColumnSpec.tokens] at h
    · obtain ⟨name, type, ms⟩ := c
      obtain ⟨name', type', ms'⟩ := c'
      simp only [List.flatMap_cons, ColumnSpec.tokens, List.cons_append, List.append_assoc,
        List.cons.injEq, Token.word.injEq] at h
      obtain ⟨rfl, htype, hrest⟩ := h
      obtain rfl := ColumnType.word_inj htype
      obtain ⟨rfl, hcols⟩ := modifiers_inj hrest (ends_columns _ _ _) (ends_columns _ _ _)
      obtain ⟨rfl, hts⟩ := ih hcols
      exact ⟨rfl, hts⟩

theorem tables_inj {spec spec' : List TableSpec}
    (h : spec.flatMap TableSpec.tokens = spec'.flatMap TableSpec.tokens) : spec = spec' := by
  induction spec generalizing spec' with
  | nil =>
    rcases spec' with _ | ⟨t', spec'⟩
    · rfl
    · simp [TableSpec.tokens] at h
  | cons t spec ih =>
    rcases spec' with _ | ⟨t', spec'⟩
    · simp [TableSpec.tokens] at h
    · obtain ⟨name, cs⟩ := t
      obtain ⟨name', cs'⟩ := t'
      simp only [List.flatMap_cons, TableSpec.tokens, List.cons_append, List.append_assoc,
        List.nil_append, List.cons.injEq, Token.word.injEq, true_and] at h
      obtain ⟨rfl, hrest⟩ := h
      obtain ⟨rfl, hspec⟩ := columns_inj hrest
      rw [ih hspec]

/-- A text says one list of tables at most. -/
theorem Spells.unique {src : Text} {spec spec' : List TableSpec} (h : Spells src spec)
    (h' : Spells src spec') : spec = spec' :=
  tables_inj (h.1.symm.trans h'.1)

/-! ### What the reader looks at -/

theorem lex_skip (rest : Text) : shape.lex (skip rest) = shape.lex rest :=
  Shape.lex_skip rest

theorem skip_eq_nil_iff {rest : Text} : skip rest = [] ↔ shape.lex rest = [] :=
  (Shape.lex_eq_nil_iff (S := shape)).symm

theorem ident_of_lex {rest w : Text} {ts : List (Token Char)}
    (h : shape.lex rest = .word w :: ts) :
    ∃ rest', ident rest = some (w, rest') ∧ shape.lex rest' = ts := by
  obtain ⟨a, r, hr, ha, rfl, rfl⟩ := Shape.lex_eq_word h
  have hr' : skip rest = a :: r := hr
  have ha' : isIdentStart a = true := ha
  exact ⟨r.dropWhile isIdentCont, by simp [ident, hr', ha', shape], rfl⟩

theorem lex_of_ident {rest rest' w : Text} (h : ident rest = some (w, rest')) :
    shape.lex rest = .word w :: shape.lex rest' := by
  simp only [ident] at h
  split at h
  · simp at h
  · rename_i c r hr
    split at h
    · rename_i hc
      simp only [Option.some.injEq, Prod.mk.injEq] at h
      obtain ⟨rfl, rfl⟩ := h
      exact Shape.lex_of_start (S := shape) hr hc
    · simp at h

theorem not_word_of_ident {rest : Text} (h : ident rest = none) (w : Text)
    (ts : List (Token Char)) : shape.lex rest ≠ .word w :: ts := by
  intro hw
  obtain ⟨rest', hrest', -⟩ := ident_of_lex hw
  simp [h] at hrest'

/-- A character that opens no word is a mark. -/
theorem lex_of_skip {rest r : Text} {c : Char} (h : skip rest = c :: r)
    (hc : isIdentStart c = false) : shape.lex rest = .mark c :: shape.lex r :=
  Shape.lex_of_mark (S := shape) h hc

theorem skip_of_lex {rest : Text} {c : Char} {ts : List (Token Char)}
    (h : shape.lex rest = .mark c :: ts) :
    ∃ r, skip rest = c :: r ∧ isIdentStart c = false ∧ shape.lex r = ts := by
  obtain ⟨r, hr, hc, rfl⟩ := Shape.lex_eq_mark h
  exact ⟨r, hr, hc, rfl⟩

theorem lex_of_consume {ch : Char} (hch : isIdentStart ch = false) {rest rest' : Text}
    (h : consume ch rest = some rest') : shape.lex rest = .mark ch :: shape.lex rest' := by
  simp only [consume] at h
  split at h
  · simp at h
  · rename_i c r hr
    split at h
    · rename_i hc
      obtain rfl := Option.some.inj h
      subst hc
      exact lex_of_skip hr hch
    · simp at h

theorem consume_of_lex {ch : Char} {rest : Text} {ts : List (Token Char)}
    (h : shape.lex rest = .mark ch :: ts) :
    ∃ rest', consume ch rest = some rest' ∧ shape.lex rest' = ts := by
  obtain ⟨r, hr, -, hts⟩ := skip_of_lex h
  exact ⟨r, by simp [consume, hr], hts⟩

/-! ### Modifiers -/

/-- The reader takes no modifier from here. -/
def Other (ts : List (Token Char)) : Prop := ∀ (m : Modifier) (ts' : List (Token Char)),
  ts ≠ .word m.first :: ts'

theorem other_mark (a : Char) (ts : List (Token Char)) : Other (.mark a :: ts) := by
  intro m ts' h
  simp at h

/-- The modifiers that are read were there, and none follows them. -/
theorem lex_of_parseModifiers {pk nn pk' nn' : Bool} {rest rest' : Text}
    (h : parseModifiers pk nn rest = .ok (pk', nn', rest')) :
    ∃ ms : List Modifier, ms.Nodup ∧ (pk = true → .primaryKey ∉ ms) ∧
      (nn = true → .notNull ∉ ms) ∧
      shape.lex rest = ms.flatMap Modifier.tokens ++ shape.lex rest' ∧
      pk' = (pk || decide (.primaryKey ∈ ms)) ∧ nn' = (nn || decide (.notNull ∈ ms)) ∧
      Other (shape.lex rest') := by
  fun_induction parseModifiers pk nn rest with
  | case1 pk nn rest hnone =>
    simp only [Except.ok.injEq, Prod.mk.injEq] at h
    obtain ⟨rfl, rfl, rfl⟩ := h
    refine ⟨[], by simp, by simp, by simp, by simp [lex_skip], by simp, by simp, ?_⟩
    rw [lex_skip]
    exact fun m => not_word_of_ident hnone m.first
  | case2 | case3 | case4 | case6 | case7 | case8 => simp at h
  | case5 pk nn rest rest₁ key rest₂ h₂ hkey hpk h₁ ih =>
    obtain ⟨ms, hnodup, hms, hms', hlex, rfl, rfl, hother⟩ := ih h
    have hnew : Modifier.primaryKey ∉ ms := hms rfl
    refine ⟨.primaryKey :: ms, List.nodup_cons.2 ⟨hnew, hnodup⟩, by simp [hpk],
      by simpa using hms', ?_, by simp, by simp, hother⟩
    rw [lex_of_ident h₁, lex_of_ident h₂, not_not.1 hkey, hlex]
    rfl
  | case9 pk nn rest rest₁ nul rest₂ h₂ hnul hnn h₁ hne ih =>
    obtain ⟨ms, hnodup, hms, hms', hlex, rfl, rfl, hother⟩ := ih h
    have hnew : Modifier.notNull ∉ ms := hms' rfl
    refine ⟨.notNull :: ms, List.nodup_cons.2 ⟨hnew, hnodup⟩, by simpa using hms,
      by simp [hnn], ?_, by simp, by simp, hother⟩
    rw [lex_of_ident h₁, lex_of_ident h₂, not_not.1 hnul, hlex]
    rfl
  | case10 pk nn rest word rest₁ h₁ hprimary hnot =>
    simp only [Except.ok.injEq, Prod.mk.injEq] at h
    obtain ⟨rfl, rfl, rfl⟩ := h
    refine ⟨[], by simp, by simp, by simp, by simp, by simp, by simp, ?_⟩
    intro m ts' hm
    rw [lex_of_ident h₁, List.cons.injEq, Token.word.injEq] at hm
    cases m
    · exact hprimary hm.1
    · exact hnot hm.1

/-- What the reader has set before, and what it is to set. -/
def set : Modifier → Bool × Bool → Bool × Bool
  | .primaryKey, f => (true, f.2)
  | .notNull, f => (f.1, true)

/-- Is it set? -/
def isSet : Modifier → Bool × Bool → Bool
  | .primaryKey, f => f.1
  | .notNull, f => f.2

/-- One modifier is read. -/
theorem parseModifiers_cons {f : Bool × Bool} {m : Modifier} {rest : Text}
    {ts : List (Token Char)} (hm : isSet m f = false)
    (h : shape.lex rest = m.tokens ++ ts) :
    ∃ rest', parseModifiers f.1 f.2 rest = parseModifiers (set m f).1 (set m f).2 rest' ∧
      shape.lex rest' = ts := by
  obtain ⟨rest₁, h₁, hlex₁⟩ := ident_of_lex h
  obtain ⟨rest₂, h₂, hlex₂⟩ := ident_of_lex hlex₁
  refine ⟨rest₂, ?_, hlex₂⟩
  rw [parseModifiers]
  split
  · simp_all
  rename_i word r hr
  obtain ⟨rfl, rfl⟩ : word = m.first ∧ r = rest₁ := by simp_all
  cases m with
  | primaryKey =>
    rw [if_pos (show Modifier.primaryKey.first = "primary".toList from rfl)]
    split
    · simp_all
    rename_i key r' hr'
    obtain ⟨rfl, rfl⟩ : key = Modifier.primaryKey.second ∧ r' = rest₂ := by simp_all
    have hpk : f.1 = false := hm
    rw [if_neg (not_not.2 (show Modifier.primaryKey.second = "key".toList from rfl)),
      if_neg (by simp [hpk])]
    rfl
  | notNull =>
    rw [if_neg (by decide), if_pos (show Modifier.notNull.first = "not".toList from rfl)]
    split
    · simp_all
    rename_i nul r' hr'
    obtain ⟨rfl, rfl⟩ : nul = Modifier.notNull.second ∧ r' = rest₂ := by simp_all
    have hnn : f.2 = false := hm
    rw [if_neg (not_not.2 (show Modifier.notNull.second = "null".toList from rfl)),
      if_neg (by simp [hnn])]
    rfl

/-- Where no modifier follows, the reader stops. -/
theorem parseModifiers_other {pk nn : Bool} {rest : Text} (h : Other (shape.lex rest)) :
    ∃ rest', parseModifiers pk nn rest = .ok (pk, nn, rest') ∧
      shape.lex rest' = shape.lex rest := by
  rw [parseModifiers]
  split
  · exact ⟨skip rest, rfl, lex_skip rest⟩
  · rename_i word rest₁ h₁
    have hword (m : Modifier) : word ≠ m.first := fun hm =>
      h m (shape.lex rest₁) (hm ▸ lex_of_ident h₁)
    have hprimary : word ≠ "primary".toList := hword .primaryKey
    have hnot : word ≠ "not".toList := hword .notNull
    rw [if_neg hprimary, if_neg hnot]
    exact ⟨rest, rfl, rfl⟩

/-- The modifiers that are there are read. -/
theorem parseModifiers_of_lex {f : Bool × Bool} {ms : List Modifier} {rest : Text}
    {ts : List (Token Char)} (hms : ms.Nodup) (hset : ∀ m ∈ ms, isSet m f = false)
    (h : shape.lex rest = ms.flatMap Modifier.tokens ++ ts) (hts : Other ts) :
    ∃ rest', parseModifiers f.1 f.2 rest =
        .ok (f.1 || decide (.primaryKey ∈ ms), f.2 || decide (.notNull ∈ ms), rest') ∧
      shape.lex rest' = ts := by
  induction ms generalizing f rest with
  | nil =>
    obtain rfl : shape.lex rest = ts := h
    simpa using parseModifiers_other hts
  | cons m ms ih =>
    rw [List.flatMap_cons, List.append_assoc] at h
    obtain ⟨hm, hms⟩ := List.nodup_cons.1 hms
    obtain ⟨rest₁, hparse, hlex⟩ := parseModifiers_cons (hset m List.mem_cons_self) h
    have hset' : ∀ m' ∈ ms, isSet m' (set m f) = false := by
      intro m' hm'
      have hf := hset m' (List.mem_cons_of_mem _ hm')
      have hne : m ≠ m' := fun he => hm (he ▸ hm')
      cases m <;> cases m' <;> first | exact absurd rfl hne | exact hf
    obtain ⟨rest', hrest', hts'⟩ := ih hms hset' hlex
    refine ⟨rest', ?_, hts'⟩
    rw [hparse, hrest']
    cases m <;> simp [set]

/-! ### Columns -/

theorem canonicalSqlType_word (ty : ColumnType) :
    canonicalSqlType ty.word = some ty.sqlType := by
  cases ty <;> rfl

theorem word_of_canonicalSqlType {tok sqlType : Text}
    (h : canonicalSqlType tok = some sqlType) :
    ∃ ty : ColumnType, tok = ty.word ∧ sqlType = ty.sqlType := by
  simp only [canonicalSqlType] at h
  split at h
  · exact ⟨.text, ‹_›, (Option.some.inj h).symm⟩
  split at h
  · exact ⟨.integer, ‹_›, (Option.some.inj h).symm⟩
  split at h
  · exact ⟨.blob, ‹_›, (Option.some.inj h).symm⟩
  · simp at h

/-- A column that is read was there. -/
theorem lex_of_parseColumn {rest rest' : Text} {col : Column}
    (h : parseColumn rest = .ok (col, rest')) :
    ∃ c : ColumnSpec, c.modifiers.Nodup ∧ shape.lex rest = c.tokens ++ shape.lex rest' ∧
      col = c.column ∧ Other (shape.lex rest') := by
  simp only [parseColumn] at h
  split at h
  · simp at h
  rename_i name rest₁ h₁
  split at h
  · simp at h
  rename_i type rest₂ h₂
  split at h
  · simp at h
  rename_i sqlType htype
  split at h
  · simp at h
  rename_i pk nn rest₃ h₃
  simp only [Except.ok.injEq, Prod.mk.injEq] at h
  obtain ⟨rfl, rfl⟩ := h
  obtain ⟨ty, rfl, rfl⟩ := word_of_canonicalSqlType htype
  obtain ⟨ms, hnodup, -, -, hlex, rfl, rfl, hother⟩ := lex_of_parseModifiers h₃
  refine ⟨⟨name, ty, ms⟩, hnodup, ?_, by simp [ColumnSpec.column], hother⟩
  rw [lex_of_ident h₁, lex_of_ident h₂, hlex]
  rfl

/-- A column that is there is read, if no modifier follows. -/
theorem parseColumn_of_lex {c : ColumnSpec} {rest : Text} {ts : List (Token Char)}
    (hc : c.modifiers.Nodup) (h : shape.lex rest = c.tokens ++ ts) (hts : Other ts) :
    ∃ rest', parseColumn rest = .ok (c.column, rest') ∧ shape.lex rest' = ts := by
  obtain ⟨rest₁, h₁, hlex₁⟩ := ident_of_lex h
  obtain ⟨rest₂, h₂, hlex₂⟩ := ident_of_lex hlex₁
  have hset (m : Modifier) (_ : m ∈ c.modifiers) : isSet m (false, false) = false := by
    cases m <;> rfl
  obtain ⟨rest', hms, hrest'⟩ := parseModifiers_of_lex hc hset hlex₂ hts
  refine ⟨rest', ?_, hrest'⟩
  simp only [parseColumn, h₁, h₂, canonicalSqlType_word]
  simp only [hms, Bool.false_or]
  rfl

/-- The names differ as they are spelled, and one column at most is the primary key. -/
def Distinguished (cols : List Column) : Prop :=
  (cols.map (·.name)).Nodup ∧ (cols.filter (·.primaryKey)).length ≤ 1

theorem apart_append_iff {cols : List Column} {col : Column} (h : Distinguished cols) :
    Distinguished (cols ++ [col]) ↔
      columnNameTaken cols col.name = false ∧ (col.primaryKey && hasPrimaryKey cols) = false := by
  have hname : columnNameTaken cols col.name = false ↔ col.name ∉ cols.map (·.name) := by
    simp [columnNameTaken]
  have hkey : hasPrimaryKey cols = false ↔ (cols.filter (·.primaryKey)).length = 0 := by
    simp [hasPrimaryKey, List.filter_eq_nil_iff]
  obtain ⟨hnodup, hone⟩ := h
  rw [hname, Distinguished, List.map_append, List.filter_append, List.length_append,
    List.nodup_append]
  cases hpk : col.primaryKey
  · simp [hpk, hnodup, hone]
  · have hsingle : (List.filter (·.primaryKey) [col]).length = 1 := by simp [hpk]
    rw [hsingle, Bool.true_and, hkey]
    simp only [List.map_cons, List.map_nil, List.nodup_singleton, List.mem_singleton]
    grind

theorem Distinguished.of_append {cols cols' : List Column}
    (h : Distinguished (cols ++ cols')) : Distinguished cols := by
  have hsub : List.Sublist cols (cols ++ cols') := List.sublist_append_left _ _
  exact ⟨h.1.sublist (hsub.map _), (hsub.filter _).length_le.trans h.2⟩

/-- A column begins with its name. -/
theorem columns_cons (c : ColumnSpec) (cs : List ColumnSpec) (ts : List (Token Char)) :
    (c :: cs).flatMap ColumnSpec.tokens ++ ts =
      .word c.name :: .word c.type.word ::
        (c.modifiers.flatMap Modifier.tokens ++ (cs.flatMap ColumnSpec.tokens ++ ts)) := by
  simp [ColumnSpec.tokens]

/-- Only the first column is called like the first word of a modifier. -/
def Looks (cs : List ColumnSpec) : Prop := ∀ c ∈ cs.tail, ∀ m : Modifier, c.name ≠ m.first

/-- Behind a column comes another one, or the brace. -/
theorem other_columns {cs : List ColumnSpec} {ts : List (Token Char)}
    (h : ∀ c ∈ cs, ∀ m : Modifier, c.name ≠ m.first) :
    Other (cs.flatMap ColumnSpec.tokens ++ .mark '}' :: ts) := by
  rcases cs with _ | ⟨c, cs⟩
  · exact other_mark '}' ts
  · intro m ts' heq
    rw [columns_cons, List.cons.injEq, Token.word.injEq] at heq
    exact h c List.mem_cons_self m heq.1

/-- The columns that are read were there. -/
theorem lex_of_parseColumns {cols cols' : List Column} {rest rest' : Text}
    (h : parseColumns cols rest = .ok (cols', rest')) :
    ∃ cs : List ColumnSpec, (∀ c ∈ cs, c.modifiers.Nodup) ∧
      shape.lex rest = cs.flatMap ColumnSpec.tokens ++ .mark '}' :: shape.lex rest' ∧
      cols' = cols ++ cs.map ColumnSpec.column ∧ (Distinguished cols → Distinguished cols') ∧
      Looks cs := by
  fun_induction parseColumns cols rest with
  | case1 | case3 | case4 | case5 => simp at h
  | case2 cols rest r hr =>
    simp only [Except.ok.injEq, Prod.mk.injEq] at h
    obtain ⟨rfl, rfl⟩ := h
    exact ⟨[], by simp, lex_of_skip hr (by decide), by simp, id, by simp [Looks]⟩
  | case6 cols rest c r hr hc col rest₁ hcol hname hkey ih =>
    obtain ⟨cs, hnodup, hlex, rfl, hapart, hlooks⟩ := ih h
    obtain ⟨c', hc', hlex', rfl, hother⟩ := lex_of_parseColumn hcol
    refine ⟨c' :: cs, ?_, ?_, by simp, fun hcols => hapart ?_, ?_⟩
    · exact List.forall_mem_cons.2 ⟨hc', hnodup⟩
    · rw [← lex_skip rest, hr, hlex', hlex, List.flatMap_cons, List.append_assoc]
    · exact (apart_append_iff hcols).2 ⟨by simpa using hname, by simpa using hkey⟩
    · -- the first of the others was looked at as a modifier, and is none
      intro d hd m
      rcases cs with _ | ⟨d', cs⟩
      · simp at hd
      · rcases List.mem_cons.1 hd with rfl | hd
        · intro hm
          rw [columns_cons, hm] at hlex
          exact hother m _ hlex
        · exact hlooks d hd m

/-- A column is read and kept. -/
theorem parseColumns_cons {cols : List Column} {col : Column} {rest rest₁ : Text} {c : Char}
    {r : Text} (hr : skip rest = c :: r) (hc : isIdentStart c = true)
    (hcol : parseColumn (skip rest) = .ok (col, rest₁))
    (hnew : columnNameTaken cols col.name = false ∧
      (col.primaryKey && hasPrimaryKey cols) = false) :
    parseColumns cols rest = parseColumns (cols ++ [col]) rest₁ := by
  have hbrace : c ≠ '}' := by
    rintro rfl
    exact absurd hc (by decide)
  rw [hr] at hcol
  rw [parseColumns]
  split
  · simp_all
  rename_i c' r' hr'
  obtain ⟨rfl, rfl⟩ : c' = c ∧ r' = r := by simp_all
  rw [if_neg hbrace]
  split
  · simp_all
  rename_i col' rest' hcol'
  obtain ⟨rfl, rfl⟩ : col' = col ∧ rest' = rest₁ := by simp_all
  rw [if_neg (by simp [hnew.1]), if_neg (by simp [hnew.2])]

/-- The columns that are there are read. -/
theorem parseColumns_of_lex {cs : List ColumnSpec} {cols : List Column} {rest : Text}
    {ts : List (Token Char)} (hcs : ∀ c ∈ cs, c.modifiers.Nodup)
    (hapart : Distinguished (cols ++ cs.map ColumnSpec.column)) (hlooks : Looks cs)
    (h : shape.lex rest = cs.flatMap ColumnSpec.tokens ++ .mark '}' :: ts) :
    ∃ rest', parseColumns cols rest = .ok (cols ++ cs.map ColumnSpec.column, rest') ∧
      shape.lex rest' = ts := by
  induction cs generalizing cols rest with
  | nil =>
    obtain ⟨r, hr, -, hts⟩ := skip_of_lex h
    refine ⟨r, ?_, hts⟩
    rw [parseColumns]
    split
    · simp_all
    · simp_all
  | cons c cs ih =>
    obtain ⟨hc, hcs⟩ := List.forall_mem_cons.1 hcs
    rw [List.flatMap_cons, List.append_assoc] at h
    have hskip : shape.lex (skip rest) = c.tokens ++ (cs.flatMap ColumnSpec.tokens ++
        .mark '}' :: ts) := (lex_skip rest).trans h
    obtain ⟨rest₁, hcol, hlex₁⟩ := parseColumn_of_lex hc hskip (other_columns hlooks)
    obtain ⟨a, r, hr, ha, -⟩ := Shape.lex_eq_word h
    rw [List.map_cons, ← List.singleton_append, ← List.append_assoc] at hapart
    have hnew := (apart_append_iff hapart.of_append.of_append).1 hapart.of_append
    have hlooks' : Looks cs := fun d hd => hlooks d (List.mem_of_mem_tail hd)
    obtain ⟨rest', hrest', hts⟩ := ih hcs hapart hlooks' hlex₁
    refine ⟨rest', ?_, hts⟩
    rw [parseColumns_cons hr ha hcol hnew, hrest']
    simp

/-! ### Tables -/

/-- A table that the reader takes. -/
structure TableSpec.Taken (t : TableSpec) : Prop where
  apart : Distinguished (t.columns.map ColumnSpec.column)
  looks : Looks t.columns

/-- A table that is read was there. -/
theorem lex_of_parseTable {rest rest' : Text} {table : Table}
    (h : parseTable rest = .ok (table, rest')) :
    ∃ t : TableSpec, t.Formed ∧ t.Taken ∧ shape.lex rest = t.tokens ++ shape.lex rest' ∧
      table = t.table := by
  simp only [parseTable] at h
  split at h
  · simp at h
  rename_i kw rest₁ h₁
  split at h
  · simp at h
  rename_i hkw
  split at h
  · simp at h
  split at h
  · simp at h
  rename_i name rest₂ h₂
  split at h
  · simp at h
  rename_i rest₃ h₃
  split at h
  · simp at h
  rename_i cols rest₄ h₄
  split at h
  · simp at h
  rename_i hne
  simp only [Except.ok.injEq, Prod.mk.injEq] at h
  obtain ⟨rfl, rfl⟩ := h
  obtain ⟨cs, hnodup, hlex, rfl, hapart, hlooks⟩ := lex_of_parseColumns h₄
  have hcs : cs ≠ [] := by
    rintro rfl
    exact hne rfl
  refine ⟨⟨name, cs⟩, ⟨hcs, hnodup⟩, ⟨hapart ⟨by simp, by simp⟩, hlooks⟩, ?_, by
    simp [TableSpec.table]⟩
  rw [lex_of_ident h₁, ← lex_skip rest₁, lex_of_ident h₂,
    lex_of_consume (by decide) h₃, hlex, not_not.1 hkw]
  simp [TableSpec.tokens]

/-- A table that is there is read, if the reader takes it. -/
theorem parseTable_of_lex {t : TableSpec} {rest : Text} {ts : List (Token Char)}
    (hformed : t.Formed) (htaken : t.Taken) (h : shape.lex rest = t.tokens ++ ts) :
    ∃ rest', parseTable rest = .ok (t.table, rest') ∧ shape.lex rest' = ts := by
  simp only [TableSpec.tokens, List.cons_append, List.append_assoc, List.nil_append] at h
  obtain ⟨rest₁, h₁, hlex₁⟩ := ident_of_lex h
  obtain ⟨a, r, hr, ha, -⟩ := Shape.lex_eq_word hlex₁
  have hskip : skip rest₁ = a :: r := hr
  have hname : ¬(skip rest₁ = [] ∨ (skip rest₁).head? = some '{') := by
    rw [hskip]
    rintro (h | h)
    · simp at h
    · obtain rfl : a = '{' := by simpa using h
      exact absurd ha (by decide)
  obtain ⟨rest₂, h₂, hlex₂⟩ := ident_of_lex ((lex_skip rest₁).trans hlex₁)
  obtain ⟨rest₃, h₃, hlex₃⟩ := consume_of_lex hlex₂
  have hapart : Distinguished ([] ++ t.columns.map ColumnSpec.column) := htaken.apart
  obtain ⟨rest₄, h₄, hlex₄⟩ := parseColumns_of_lex hformed.2 hapart htaken.looks hlex₃
  refine ⟨rest₄, ?_, hlex₄⟩
  have hne : t.columns.map ColumnSpec.column ≠ [] := by simpa using hformed.1
  simp only [parseTable, h₁, h₂, h₃, List.nil_append] at h₄ ⊢
  rw [if_neg (not_not.2 rfl), if_neg hname]
  simp only [h₄, if_neg hne]
  rfl

/-- The tables that are read were there. -/
theorem lex_of_parseSchema {tables tables' : List Table} {rest : Text}
    (h : parseSchema tables rest = .ok tables') :
    ∃ spec, Spells rest spec ∧ (∀ t ∈ spec, t.Taken) ∧
      tables' = tables ++ spec.map TableSpec.table := by
  fun_induction parseSchema tables rest with
  | case1 tables rest hend =>
    obtain rfl := Except.ok.inj h
    exact ⟨[], ⟨skip_eq_nil_iff.1 hend, by simp⟩, by simp, by simp⟩
  | case2 => simp at h
  | case3 tables rest hend table rest₁ htable ih =>
    obtain ⟨spec, ⟨hlex, hformed⟩, htaken, rfl⟩ := ih h
    obtain ⟨t, ht, ht', hlex', rfl⟩ := lex_of_parseTable htable
    refine ⟨t :: spec, ⟨?_, List.forall_mem_cons.2 ⟨ht, hformed⟩⟩,
      List.forall_mem_cons.2 ⟨ht', htaken⟩, by simp⟩
    rw [← lex_skip rest, hlex', hlex, List.flatMap_cons]

/-- The tables that are there are read, if the reader takes each. -/
theorem parseSchema_of_lex {spec : List TableSpec} {tables : List Table} {rest : Text}
    (h : Spells rest spec) (htaken : ∀ t ∈ spec, t.Taken) :
    parseSchema tables rest = .ok (tables ++ spec.map TableSpec.table) := by
  obtain ⟨hlex, hformed⟩ := h
  induction spec generalizing tables rest with
  | nil =>
    rw [parseSchema, if_pos (skip_eq_nil_iff.2 hlex)]
    simp
  | cons t spec ih =>
    obtain ⟨ht, hformed⟩ := List.forall_mem_cons.1 hformed
    obtain ⟨ht', htaken⟩ := List.forall_mem_cons.1 htaken
    rw [List.flatMap_cons] at hlex
    have hend : skip rest ≠ [] := by
      rw [Ne, skip_eq_nil_iff, hlex]
      simp [TableSpec.tokens]
    obtain ⟨rest₁, hparse, hlex₁⟩ := parseTable_of_lex ht ht' ((lex_skip rest).trans hlex)
    rw [parseSchema, if_neg hend]
    split
    · simp_all
    rename_i table rest' h'
    obtain ⟨rfl, rfl⟩ : table = t.table ∧ rest' = rest₁ := by simp_all
    rw [ih htaken hlex₁ hformed]
    simp

/-- **What the reader takes**: a text that says tables, no two columns of one of which
have one spelling, with one primary key at most, and no column but the first of which is
called `primary` or `not`. -/
theorem parse_eq_ok_iff {src : Text} {tables : List Table} :
    parse src = .ok tables ↔
      ∃ spec, Spells src spec ∧ (∀ t ∈ spec, t.Taken) ∧ tables = spec.map TableSpec.table := by
  constructor
  · intro h
    exact lex_of_parseSchema h
  · rintro ⟨spec, hspells, htaken, rfl⟩
    exact parseSchema_of_lex hspells htaken

/-! ### Writing a schema -/

/-- The words of a column, as the reader hands it over. -/
def columnWords (col : Column) : List Text :=
  col.name :: Text.lower col.sqlType ::
    ((if col.primaryKey then [Modifier.primaryKey.first, Modifier.primaryKey.second] else []) ++
      if col.notNull then [Modifier.notNull.first, Modifier.notNull.second] else [])

/-- A table on lines of its own, the columns indented. -/
def renderTable (table : Table) : Text :=
  "table".toList ++ (Shape.spaced ' ' [table.name] ++ (' ' :: '{' :: '\n' ::
    (table.columns.flatMap (fun col => ' ' :: (Shape.spaced ' ' (columnWords col) ++ ['\n'])) ++
      ['}', '\n'])))

/-- The canonical text of tables. -/
def render (tables : List Table) : Text := tables.flatMap renderTable

/-- The modifiers of a column in the order they are written. -/
def ColumnSpec.canonical (c : ColumnSpec) : ColumnSpec where
  name := c.name
  type := c.type
  modifiers := (if .primaryKey ∈ c.modifiers then [.primaryKey] else []) ++
    if .notNull ∈ c.modifiers then [.notNull] else []

def TableSpec.canonical (t : TableSpec) : TableSpec := ⟨t.name, t.columns.map (·.canonical)⟩

@[simp] theorem ColumnSpec.column_canonical (c : ColumnSpec) : c.canonical.column = c.column := by
  by_cases hp : .primaryKey ∈ c.modifiers <;> by_cases hn : .notNull ∈ c.modifiers <;>
    simp [canonical, column, hp, hn]

@[simp] theorem TableSpec.table_canonical (t : TableSpec) : t.canonical.table = t.table := by
  simp [canonical, table]

theorem ColumnSpec.nodup_canonical (c : ColumnSpec) : c.canonical.modifiers.Nodup := by
  by_cases hp : .primaryKey ∈ c.modifiers <;> by_cases hn : .notNull ∈ c.modifiers <;>
    simp [canonical, hp, hn]

theorem TableSpec.Formed.canonical {t : TableSpec} (h : t.Formed) : t.canonical.Formed := by
  refine ⟨by simpa [TableSpec.canonical] using h.1, fun c hc => ?_⟩
  obtain ⟨c', -, rfl⟩ := List.mem_map.1 hc
  exact c'.nodup_canonical

theorem TableSpec.Taken.canonical {t : TableSpec} (h : t.Taken) : t.canonical.Taken := by
  refine ⟨?_, fun c hc => ?_⟩
  · have hcols : t.canonical.columns.map ColumnSpec.column =
        t.columns.map ColumnSpec.column := by simp [TableSpec.canonical]
    rw [hcols]
    exact h.apart
  · rw [TableSpec.canonical, ← List.map_tail] at hc
    obtain ⟨c', hc', rfl⟩ := List.mem_map.1 hc
    exact h.looks c' hc'

/-- The names of a table are words. -/
def TableSpec.Named (t : TableSpec) : Prop :=
  shape.IsWord t.name ∧ ∀ c ∈ t.columns, shape.IsWord c.name

/-- The names of a text are words of it. -/
theorem Spells.named {src : Text} {spec : List TableSpec} (h : Spells src spec)
    {t : TableSpec} (ht : t ∈ spec) : t.Named := by
  have hmem (w : Text) (hw : Token.word w ∈ t.tokens) : shape.IsWord w := by
    refine Shape.isWord_of_mem (s := src) ?_
    rw [h.1]
    exact List.mem_flatMap.2 ⟨t, ht, hw⟩
  refine ⟨hmem _ (by simp [TableSpec.tokens]), fun c hc => hmem _ ?_⟩
  have hcols : Token.word c.name ∈ t.columns.flatMap ColumnSpec.tokens :=
    List.mem_flatMap.2 ⟨c, hc, by simp [ColumnSpec.tokens]⟩
  simp [TableSpec.tokens, hcols]

theorem ColumnType.lower_sqlType (ty : ColumnType) : Text.lower ty.sqlType = ty.word := by
  cases ty <;> decide

theorem ColumnType.isWord (ty : ColumnType) : shape.IsWord ty.word := by
  cases ty <;> decide

/-- The words of a column that is written are those of its canonical form. -/
theorem map_columnWords (c : ColumnSpec) :
    (columnWords c.column).map Token.word = c.canonical.tokens := by
  by_cases hp : .primaryKey ∈ c.modifiers <;> by_cases hn : .notNull ∈ c.modifiers <;>
    simp [columnWords, ColumnSpec.column, ColumnSpec.canonical, ColumnSpec.tokens, hp, hn,
      ColumnType.lower_sqlType, Modifier.tokens]

/-- Two words that are there or not. -/
theorem forall_optional {P : Text → Prop} (b : Bool) {v w : Text} (hv : P v) (hw : P w) :
    ∀ x ∈ (if b then [v, w] else []), P x := by
  cases b <;> simp [hv, hw]

theorem isWord_columnWords {c : ColumnSpec} (hc : shape.IsWord c.name) :
    ∀ w ∈ columnWords c.column, shape.IsWord w := by
  have hfirst (m : Modifier) : shape.IsWord m.first ∧ shape.IsWord m.second := by
    cases m <;> decide
  intro w hw
  simp only [columnWords, ColumnSpec.column, ColumnType.lower_sqlType, List.mem_cons,
    List.mem_append] at hw
  rcases hw with rfl | rfl | hw | hw
  · exact hc
  · exact c.type.isWord
  · exact forall_optional _ (hfirst .primaryKey).1 (hfirst .primaryKey).2 w hw
  · exact forall_optional _ (hfirst .notNull).1 (hfirst .notNull).2 w hw

theorem lex_columns {cs : List ColumnSpec} (hcs : ∀ c ∈ cs, shape.IsWord c.name) (s : Text) :
    shape.lex ((cs.map ColumnSpec.column).flatMap
        (fun col => ' ' :: (Shape.spaced ' ' (columnWords col) ++ ['\n'])) ++ s) =
      (cs.map (·.canonical)).flatMap ColumnSpec.tokens ++ shape.lex s := by
  induction cs with
  | nil => rfl
  | cons c cs ih =>
    obtain ⟨hc, hcs⟩ := List.forall_mem_cons.1 hcs
    simp only [List.map_cons, List.flatMap_cons, List.cons_append, List.append_assoc,
      List.nil_append]
    rw [Shape.lex_blank (by decide), Shape.lex_spaced (by decide) (isWord_columnWords hc)
      (Shape.breaks_blank (by decide) _), Shape.lex_blank (by decide), ih hcs, map_columnWords]

theorem lex_renderTable {t : TableSpec} (ht : t.Named) (s : Text) :
    shape.lex (renderTable t.table ++ s) = t.canonical.tokens ++ shape.lex s := by
  have hspace : shape.blank ' ' = true := by decide
  have hname : ∀ w ∈ [t.name], shape.IsWord w := by simpa using ht.1
  simp only [renderTable, TableSpec.table, List.append_assoc, List.cons_append]
  rw [Shape.lex_word (by decide) (Shape.breaks_spaced hspace _ (Shape.breaks_blank hspace _)),
    Shape.lex_spaced hspace hname (Shape.breaks_blank hspace _), Shape.lex_blank hspace,
    Shape.lex_cons_mark (by decide) (by decide), Shape.lex_blank (by decide),
    lex_columns ht.2]
  rw [List.nil_append, Shape.lex_cons_mark (by decide) (by decide), Shape.lex_blank (by decide)]
  simp [TableSpec.tokens, TableSpec.canonical]

/-- The canonical text of tables says the tables. -/
theorem spells_render {spec : List TableSpec} (hnamed : ∀ t ∈ spec, t.Named)
    (hformed : ∀ t ∈ spec, t.Formed) :
    Spells (render (spec.map TableSpec.table)) (spec.map (·.canonical)) := by
  refine ⟨?_, fun t ht => ?_⟩
  · clear hformed
    induction spec with
    | nil => exact Shape.lex_nil
    | cons t spec ih =>
      obtain ⟨ht, hnamed⟩ := List.forall_mem_cons.1 hnamed
      have hcons : render ((t :: spec).map TableSpec.table) =
          renderTable t.table ++ render (spec.map TableSpec.table) := rfl
      rw [hcons, lex_renderTable ht, ih hnamed]
      rfl
  · obtain ⟨t', ht', rfl⟩ := List.mem_map.1 ht
    exact (hformed t' ht').canonical

/-- **Round trip**: tables that were read are read again from their canonical text. -/
theorem parse_render {src : Text} {tables : List Table} (h : parse src = .ok tables) :
    parse (render tables) = .ok tables := by
  obtain ⟨spec, hspells, htaken, rfl⟩ := parse_eq_ok_iff.1 h
  refine parse_eq_ok_iff.2 ⟨spec.map (·.canonical),
    spells_render (fun t ht => hspells.named ht) hspells.2, fun t ht => ?_, by simp⟩
  obtain ⟨t', ht', rfl⟩ := List.mem_map.1 ht
  exact (htaken t' ht').canonical

end Zponder.UserGrammar

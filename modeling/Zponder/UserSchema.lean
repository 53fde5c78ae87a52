import Mathlib.Data.List.TakeWhile
import Zponder.Lib.Ddl
import Zponder.Text

/-!
# The tables of the user

A small text says which tables a script may write (`user_schema.zig`): blocks
`table name { column type modifiers … }`. `Zponder.UserSchema.parse` is the reader as the
source has it, with its position in the text, its look-ahead over a modifier and its
errors; `Zponder.UserSchema.createSql` is the statement a table becomes, and
`Zponder.UserSchema.apply` runs the statements one after the other.

The position of the reader is what is left of the text. Every function that takes
something off it leaves less (`Zponder.UserSchema.length_of_parseTable` and the lemmas
before it), which is why the loops end.
-/

namespace Zponder.UserSchema

/-! ### The reader -/

/-- The errors of the reader. -/
inductive Err where
  | InvalidSyntax
  | EmptyTableName
  | InvalidName
  | InvalidType
  | DuplicateColumn
  | MultiplePrimaryKey
  | NoColumns
  deriving DecidableEq, Repr

structure Column where
  name : Text
  sqlType : Text
  primaryKey : Bool
  notNull : Bool
  deriving DecidableEq, Repr

structure Table where
  name : Text
  columns : List Column
  deriving DecidableEq, Repr

def isIdentStart (c : Char) : Bool := c.isAlpha || c == '_'

def isIdentCont (c : Char) : Bool := c.isAlphanum || c == '_'

/-- The characters `skip` goes over. -/
def isBlank (c : Char) : Bool := c == ' ' || c == '\t' || c == '\n' || c == '\r'

/-- The state of the reader is what is left of the text. -/
def skip (rest : Text) : Text := rest.dropWhile isBlank

/-- A word, and what is behind it. -/
def ident (rest : Text) : Option (Text × Text) :=
  match skip rest with
  | [] => none
  | c :: rest =>
    if isIdentStart c then some (c :: rest.takeWhile isIdentCont, rest.dropWhile isIdentCont)
    else none

/-- What is behind a character, if it is the next one. -/
def consume (ch : Char) (rest : Text) : Option Text :=
  match skip rest with
  | [] => none
  | c :: rest => if c = ch then some rest else none

def canonicalSqlType (tok : Text) : Option Text :=
  if tok = "text".toList then some "TEXT".toList
  else if tok = "integer".toList then some "INTEGER".toList
  else if tok = "blob".toList then some "BLOB".toList
  else none

def columnNameTaken (cols : List Column) (name : Text) : Bool :=
  cols.any fun col => decide (col.name = name)

def hasPrimaryKey (cols : List Column) : Bool := cols.any (·.primaryKey)

theorem length_skip_le (rest : Text) : (skip rest).length ≤ rest.length :=
  (List.dropWhile_suffix _).length_le

/-- A word takes something off the text. -/
theorem length_of_ident {rest rest' word : Text} (h : ident rest = some (word, rest')) :
    rest'.length < rest.length := by
  have hle := length_skip_le rest
  simp only [ident] at h
  split at h
  · simp at h
  · rename_i c r hr
    split at h
    · simp only [Option.some.injEq, Prod.mk.injEq] at h
      have := (List.dropWhile_suffix (l := r) isIdentCont).length_le
      rw [hr, List.length_cons] at hle
      rw [← h.2]
      omega
    · simp at h

/-- The modifiers of a column. A word that is none of them is left where it is. -/
def parseModifiers (primaryKey notNull : Bool) (rest : Text) :
    Except Err (Bool × Bool × Text) :=
  match _h : ident rest with
  | none => .ok (primaryKey, notNull, skip rest)
  | some (word, rest₁) =>
    if word = "primary".toList then
      match _h' : ident rest₁ with
      | none => .error .InvalidSyntax
      | some (key, rest₂) =>
        if key ≠ "key".toList then .error .InvalidSyntax
        else if primaryKey then .error .InvalidSyntax
        else parseModifiers true notNull rest₂
    else if word = "not".toList then
      match _h' : ident rest₁ with
      | none => .error .InvalidSyntax
      | some (nul, rest₂) =>
        if nul ≠ "null".toList then .error .InvalidSyntax
        else if notNull then .error .InvalidSyntax
        else parseModifiers primaryKey true rest₂
    else .ok (primaryKey, notNull, rest)
termination_by rest.length
decreasing_by
  all_goals
    have h₁ := length_of_ident _h
    have h₂ := length_of_ident _h'
    omega

/-- A name, a type and the modifiers. -/
def parseColumn (rest : Text) : Except Err (Column × Text) :=
  match ident rest with
  | none => .error .InvalidSyntax
  | some (name, rest) =>
    match ident rest with
    | none => .error .InvalidSyntax
    | some (type, rest) =>
      match canonicalSqlType type with
      | none => .error .InvalidType
      | some sqlType =>
        match parseModifiers false false rest with
        | .error e => .error e
        | .ok (primaryKey, notNull, rest) => .ok (⟨name, sqlType, primaryKey, notNull⟩, rest)

theorem length_of_parseModifiers {primaryKey notNull pk nn : Bool} {rest rest' : Text}
    (h : parseModifiers primaryKey notNull rest = .ok (pk, nn, rest')) :
    rest'.length ≤ rest.length := by
  fun_induction parseModifiers primaryKey notNull rest with
  | case1 pk₀ nn₀ rest hnone =>
    simp only [Except.ok.injEq, Prod.mk.injEq] at h
    rw [← h.2.2]
    exact length_skip_le rest
  | case2 | case3 | case4 | case6 | case7 | case8 => simp at h
  | case5 pk₀ nn₀ rest rest₁ key rest₂ h₂ hkey hpk h₁ ih
  | case9 pk₀ nn₀ rest rest₁ key rest₂ h₂ hkey hpk h₁ hne ih =>
    have := ih h
    have := length_of_ident h₁
    have := length_of_ident h₂
    omega
  | case10 pk₀ nn₀ rest word rest₁ h₁ _ _ =>
    simp only [Except.ok.injEq, Prod.mk.injEq] at h
    rw [← h.2.2]

theorem length_of_parseColumn {rest rest' : Text} {col : Column}
    (h : parseColumn rest = .ok (col, rest')) : rest'.length < rest.length := by
  simp only [parseColumn] at h
  split at h
  · simp at h
  · rename_i name rest₁ h₁
    split at h
    · simp at h
    · rename_i type rest₂ h₂
      split at h
      · simp at h
      · split at h
        · simp at h
        · rename_i pk nn rest₃ h₃
          simp only [Except.ok.injEq, Prod.mk.injEq] at h
          have := length_of_ident h₁
          have := length_of_ident h₂
          have := length_of_parseModifiers h₃
          rw [← h.2]
          omega

/-- The columns of a table, up to the brace. -/
def parseColumns (cols : List Column) (rest : Text) : Except Err (List Column × Text) :=
  match _hr : skip rest with
  | [] => .error .InvalidSyntax
  | c :: rest' =>
    if c = '}' then .ok (cols, rest')
    else
      match _h : parseColumn (c :: rest') with
      | .error e => .error e
      | .ok (col, rest₁) =>
        if columnNameTaken cols col.name then .error .DuplicateColumn
        else if col.primaryKey && hasPrimaryKey cols then .error .MultiplePrimaryKey
        else parseColumns (cols ++ [col]) rest₁
termination_by rest.length
decreasing_by
  have h₁ := length_of_parseColumn _h
  have h₂ := length_skip_le rest
  rw [_hr] at h₂
  omega

/-- A table. -/
def parseTable (rest : Text) : Except Err (Table × Text) :=
  match ident rest with
  | none => .error .InvalidSyntax
  | some (kw, rest) =>
    if kw ≠ "table".toList then .error .InvalidSyntax
    else if skip rest = [] ∨ (skip rest).head? = some '{' then .error .EmptyTableName
    else
      match ident (skip rest) with
      | none => .error .InvalidName
      | some (name, rest) =>
        match consume '{' rest with
        | none => .error .InvalidSyntax
        | some rest =>
          match parseColumns [] rest with
          | .error e => .error e
          | .ok (cols, rest) =>
            if cols = [] then .error .NoColumns else .ok (⟨name, cols⟩, rest)

theorem length_of_consume {ch : Char} {rest rest' : Text} (h : consume ch rest = some rest') :
    rest'.length < rest.length := by
  have hle := length_skip_le rest
  simp only [consume] at h
  split at h
  · simp at h
  · rename_i c r hr
    split at h
    · obtain rfl := Option.some.inj h
      rw [hr, List.length_cons] at hle
      omega
    · simp at h

theorem length_of_parseColumns {cols cols' : List Column} {rest rest' : Text}
    (h : parseColumns cols rest = .ok (cols', rest')) : rest'.length < rest.length := by
  fun_induction parseColumns cols rest with
  | case1 | case3 | case4 | case5 => simp at h
  | case2 cols rest r hr =>
    have hle := length_skip_le rest
    simp only [Except.ok.injEq, Prod.mk.injEq] at h
    rw [hr, List.length_cons] at hle
    rw [← h.2]
    omega
  | case6 cols rest c r hr hc col rest₁ hcol _ _ ih =>
    have := ih h
    have hle := length_skip_le rest
    have := length_of_parseColumn hcol
    rw [hr] at hle
    omega

theorem length_of_parseTable {rest rest' : Text} {table : Table}
    (h : parseTable rest = .ok (table, rest')) : rest'.length < rest.length := by
  simp only [parseTable] at h
  split at h
  · simp at h
  rename_i kw rest₁ h₁
  split at h
  · simp at h
  split at h
  · simp at h
  split at h
  · simp at h
  rename_i name rest₂ h₂
  split at h
  · simp at h
  rename_i rest₃ h₃
  split at h
  · simp at h
  rename_i cols rest₄ h₄
  split at h
  · simp at h
  simp only [Except.ok.injEq, Prod.mk.injEq] at h
  have := length_of_ident h₁
  have := length_of_ident h₂
  have := length_skip_le rest₁
  have := length_of_consume h₃
  have := length_of_parseColumns h₄
  rw [← h.2]
  omega

/-- Tables, up to the end of the text. -/
def parseSchema (tables : List Table) (rest : Text) : Except Err (List Table) :=
  if skip rest = [] then .ok tables
  else
    match _h : parseTable (skip rest) with
    | .error e => .error e
    | .ok (table, rest₁) => parseSchema (tables ++ [table]) rest₁
termination_by rest.length
decreasing_by
  have h₁ := length_of_parseTable _h
  have h₂ := length_skip_le rest
  omega

def parse (src : Text) : Except Err (List Table) := parseSchema [] src

/-! ### The statements -/

def tablePrefix : Text := "user_".toList

/-- What is written of a column. -/
def columnSql (col : Column) : Text :=
  "  ".toList ++ col.name ++ [' '] ++ col.sqlType ++
    (if col.primaryKey then " PRIMARY KEY".toList else []) ++
    if col.notNull then " NOT NULL".toList else []

/-- The columns, with a comma behind each but the last. -/
def columnsSql : List Column → Text
  | [] => []
  | [col] => columnSql col ++ ['\n']
  | col :: cols => columnSql col ++ [',', '\n'] ++ columnsSql cols

def createSql (table : Table) : Text :=
  "CREATE TABLE IF NOT EXISTS ".toList ++ tablePrefix ++ table.name ++ " (\n".toList ++
    columnsSql table.columns ++ ");".toList

/-- The statements, one table after the other, until one is refused. -/
def createAll (E : Ddl.Engine) : List Table → Ddl.Store → Option Unit × Ddl.Store
  | [], store => (some (), store)
  | table :: tables, store =>
    match E.exec (createSql table) store with
    | none => (none, store)
    | some store' => createAll E tables store'

/-- The tables of a text, if it is read and every statement is taken, and the database. -/
def apply (E : Ddl.Engine) (src : Text) (store : Ddl.Store) :
    Option (List Table) × Ddl.Store :=
  match parse src with
  | .error _ => (none, store)
  | .ok tables =>
    match createAll E tables store with
    | (none, store') => (none, store')
    | (some (), store') => (some tables, store')

end Zponder.UserSchema

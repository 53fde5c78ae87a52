import Mathlib.Logic.Function.Basic
import Zponder.Lib.Words

/-!
# Creating a table in SQL

What a database makes of `CREATE TABLE IF NOT EXISTS name (column TYPE …, …);` with
names that are not in quotes. The text is cut into words
(`Zponder.Ddl.shape`), read (`Zponder.Ddl.read`) and carried out
(`Zponder.Ddl.Engine.exec`):

* a name that is not in quotes stands for its folded form, and no reserved word is one;
* a table that is there already is left as it is;
* no two columns of a new table have one name, one of them at most is the primary key,
  they are not too many, and their types are known.

`Zponder.Ddl.Engine.Creatable` is the condition under which a statement makes its
table (`Zponder.Ddl.Engine.exec_of_creatable`, `Zponder.Ddl.Engine.creatable_of_exec`).
-/

namespace Zponder.Ddl

open Words

/-! ### Reading a statement -/

/-- Words of SQL: letters, digits and `_`, and everything beyond ASCII. -/
def shape : Shape Char where
  blank c := c == ' ' || c == '\t' || c == '\n' || c == '\r' || c == '\x0c'
  start c := c.isAlpha || c == '_' || 0x80 ≤ c.toNat
  cont c := c.isAlphanum || c == '_' || c == '$' || 0x80 ≤ c.toNat
  blank_of_start c h := by
    by_contra hb
    have : c = ' ' ∨ c = '\t' ∨ c = '\n' ∨ c = '\r' ∨ c = '\x0c' := by simp_all; tauto
    rcases this with rfl | rfl | rfl | rfl | rfl <;> exact absurd h (by decide)
  blank_of_cont c h := by
    by_contra hb
    have : c = ' ' ∨ c = '\t' ∨ c = '\n' ∨ c = '\r' ∨ c = '\x0c' := by simp_all; tauto
    rcases this with rfl | rfl | rfl | rfl | rfl <;> exact absurd h (by decide)

/-- A word in lower case, which is how keywords are compared. -/
def lower (w : List Char) : List Char := w.map Char.toLower

/-- A column, as a statement defines it. -/
structure ColumnDef where
  name : List Char
  type : List Char
  primaryKey : Bool
  notNull : Bool
  deriving DecidableEq, Repr

/-- A table, as a statement defines it. -/
structure TableDef where
  name : List Char
  columns : List ColumnDef
  deriving DecidableEq, Repr

/-- `PRIMARY KEY` and `NOT NULL`, in any order. -/
def readConstraints : List (Token Char) → Option (Bool × Bool)
  | [] => some (false, false)
  | .word a :: .word b :: ts =>
    if lower a = "primary".toList ∧ lower b = "key".toList then
      (readConstraints ts).map fun m => (true, m.2)
    else if lower a = "not".toList ∧ lower b = "null".toList then
      (readConstraints ts).map fun m => (m.1, true)
    else none
  | _ => none

/-- A name, a type and constraints. -/
def readColumn : List (Token Char) → Option ColumnDef
  | .word name :: .word type :: ts =>
    (readConstraints ts).map fun m => ⟨name, lower type, m.1, m.2⟩
  | _ => none

/-- What is between the parentheses, and the semicolon. -/
def readColumns (ts : List (Token Char)) : Option (List ColumnDef) :=
  let isEnd : Token Char → Bool := fun t => t != .mark ')'
  if ts.dropWhile isEnd = [.mark ')', .mark ';'] then
    ((ts.takeWhile isEnd).splitOn (.mark ',')).mapM readColumn
  else none

/-- `CREATE TABLE IF NOT EXISTS name (…);` -/
def read : List (Token Char) → Option TableDef
  | .word a :: .word b :: .word c :: .word d :: .word e :: .word name :: .mark '(' :: ts =>
    if [a, b, c, d, e].map lower =
        ["create".toList, "table".toList, "if".toList, "not".toList, "exists".toList] then
      (readColumns ts).map fun columns => ⟨name, columns⟩
    else none
  | _ => none

/-! ### Writing a statement -/

/-- How a column is written. -/
def ColumnDef.written (c : ColumnDef) : List (Token Char) :=
  .word c.name :: .word c.type ::
    ((if c.primaryKey then [.word "PRIMARY".toList, .word "KEY".toList] else []) ++
      if c.notNull then [.word "NOT".toList, .word "NULL".toList] else [])

/-- How a table is written. -/
def TableDef.written (t : TableDef) : List (Token Char) :=
  .word "CREATE".toList :: .word "TABLE".toList :: .word "IF".toList :: .word "NOT".toList ::
    .word "EXISTS".toList :: .word t.name :: .mark '(' ::
      ([.mark ','].intercalate (t.columns.map ColumnDef.written) ++ [.mark ')', .mark ';'])

/-- The type of a column is read in lower case. -/
def ColumnDef.asRead (c : ColumnDef) : ColumnDef := { c with type := lower c.type }

theorem readColumn_written (c : ColumnDef) : readColumn c.written = some c.asRead := by
  obtain ⟨name, type, pk, nn⟩ := c
  cases pk <;> cases nn <;> rfl

theorem mark_notMem_written (c : ColumnDef) (a : Char) : Token.mark a ∉ c.written := by
  obtain ⟨name, type, pk, nn⟩ := c
  cases pk <;> cases nn <;> simp [ColumnDef.written]

/-- Whatever stands between commas stands in no parenthesis. -/
theorem close_notMem_intercalate (cs : List ColumnDef) :
    Token.mark ')' ∉ [.mark ','].intercalate (cs.map ColumnDef.written) := by
  induction cs with
  | nil => simp
  | cons c cs ih =>
    rcases cs with _ | ⟨c', cs⟩
    · simpa using mark_notMem_written c ')'
    · rw [List.map_cons, List.map_cons, List.intercalate_cons_cons, ← List.map_cons]
      simp only [List.mem_append, not_or]
      exact ⟨⟨mark_notMem_written c ')', by simp⟩, ih⟩

theorem readColumns_written {cs : List ColumnDef} (hne : cs ≠ []) :
    readColumns ([.mark ','].intercalate (cs.map ColumnDef.written) ++
      [.mark ')', .mark ';']) = some (cs.map ColumnDef.asRead) := by
  have hbody : ∀ t ∈ [.mark ','].intercalate (cs.map ColumnDef.written),
      (t != Token.mark ')') = true := by
    intro t ht
    refine bne_iff_ne.2 fun h => close_notMem_intercalate cs (h ▸ ht)
  have hsplit : ([Token.mark ','].intercalate (cs.map ColumnDef.written)).splitOn (.mark ',') =
      cs.map ColumnDef.written := by
    refine List.splitOn_intercalate _ (fun l hl => ?_) (by simpa using hne)
    obtain ⟨c, -, rfl⟩ := List.mem_map.1 hl
    exact mark_notMem_written c ','
  have hcols : (cs.map ColumnDef.written).mapM readColumn = some (cs.map ColumnDef.asRead) := by
    clear hbody hsplit hne
    induction cs with
    | nil => rfl
    | cons c cs ih => simp [readColumn_written, ih]
  simp only [readColumns]
  rw [List.dropWhile_append_of_pos hbody, List.takeWhile_append_of_pos hbody]
  simp [hsplit, hcols]

/-- A statement is read as it was written. -/
theorem read_written {t : TableDef} (hne : t.columns ≠ []) :
    read t.written = some { t with columns := t.columns.map ColumnDef.asRead } := by
  have hkeys : ["CREATE".toList, "TABLE".toList, "IF".toList, "NOT".toList,
      "EXISTS".toList].map lower =
        ["create".toList, "table".toList, "if".toList, "not".toList, "exists".toList] := by
    decide
  simp only [TableDef.written, read]
  rw [if_pos hkeys, readColumns_written hne]
  rfl

/-! ### Carrying it out -/

/-- What is particular to a database: what a name stands for, the words that are no
names, the types there are, and the bounds on a table and on a text. -/
structure Engine where
  fold : List Char → List Char
  reserved : List Char → Bool
  knows : List Char → Bool
  maxColumns : Nat
  maxLength : Nat

/-- The tables, by what their names stand for. -/
abbrev Store := List Char → Option (List ColumnDef)

namespace Engine

variable (E : Engine)

/-- A column as the database keeps it. -/
def column (c : ColumnDef) : ColumnDef := { c with name := E.fold c.name }

/-- Every name is one. -/
def Readable (t : TableDef) : Prop :=
  E.reserved (lower t.name) = false ∧ ∀ c ∈ t.columns, E.reserved (lower c.name) = false

/-- The columns make a table. -/
def Creatable (columns : List ColumnDef) : Prop :=
  (columns.map fun c => E.fold c.name).Nodup ∧
    (columns.filter (·.primaryKey)).length ≤ 1 ∧
    columns.length ≤ E.maxColumns ∧
    ∀ c ∈ columns, E.knows c.type = true

instance (t : TableDef) : Decidable (E.Readable t) := by
  unfold Readable
  infer_instance

instance (columns : List ColumnDef) : Decidable (E.Creatable columns) := by
  unfold Creatable
  infer_instance

/-- A statement. Nothing comes back if it is refused. -/
def exec (sql : List Char) (store : Store) : Option Store :=
  if sql.length ≤ E.maxLength then
    match read (shape.lex sql) with
    | none => none
    | some t =>
      if E.Readable t then
        if (store (E.fold t.name)).isSome then some store
        else if E.Creatable t.columns then
          some (Function.update store (E.fold t.name) (some (t.columns.map E.column)))
        else none
      else none
  else none

variable {E}

/-- A statement that reads as a table makes it, if there is none of its name. -/
theorem exec_of_creatable {sql : List Char} {store : Store} {t : TableDef}
    (hlen : sql.length ≤ E.maxLength) (hread : read (shape.lex sql) = some t)
    (hnames : E.Readable t) (hnew : store (E.fold t.name) = none)
    (hcols : E.Creatable t.columns) :
    E.exec sql store =
      some (Function.update store (E.fold t.name) (some (t.columns.map E.column))) := by
  simp [exec, hlen, hread, hnames, hnew, hcols]

/-- Whatever a statement has made was to be made. -/
theorem creatable_of_exec {sql : List Char} {store store' : Store} {t : TableDef}
    (hread : read (shape.lex sql) = some t) (hnew : store (E.fold t.name) = none)
    (h : E.exec sql store = some store') :
    sql.length ≤ E.maxLength ∧ E.Readable t ∧ E.Creatable t.columns ∧
      store' = Function.update store (E.fold t.name) (some (t.columns.map E.column)) := by
  simp only [exec, hread, hnew, Option.isSome_none, Bool.false_eq_true, if_false] at h
  split at h
  · rename_i hlen
    split at h
    · rename_i hnames
      split at h
      · rename_i hcols
        exact ⟨hlen, hnames, hcols, (Option.some.inj h).symm⟩
      · simp at h
    · simp at h
  · simp at h

end Engine

end Zponder.Ddl

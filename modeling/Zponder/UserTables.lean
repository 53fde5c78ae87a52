import Zponder.EventTables
import Zponder.UserGrammar

/-!
# What becomes of a schema

The words of `createSql` are those of a definition of the table
(`Zponder.UserTables.lex_createSql`), so that a database reads it as one. What becomes of
it depends on the database, which has words that are no names, folds the names that are not
in quotes, and knows some types only (`Zponder.UserTables.creates_iff`).

## What a schema should get

Tables are *in order* if SQL keeps the columns of each apart and finds one primary key
at most, and no two of them have one name. The reader should take the texts that say tables
in order and no others, read them again from their canonical text, and have them all
created (`Zponder.UserTables.Right`). It compares names as they are spelled, does not
look at the names of other tables, asks nothing about the words of SQL, and takes no
column called `primary` or `not` behind another one.
`Zponder.UserTables.right_iff_suits` says which texts get what they should.
-/

namespace Zponder.UserTables

open UserSchema UserGrammar
open Words (Token Shape)

/-! ### The statements -/

/-- A column, as its statement defines it. -/
def columnDef (col : Column) : Ddl.ColumnDef := ⟨col.name, col.sqlType, col.primaryKey, col.notNull⟩

def tableDef (table : Table) : Ddl.TableDef :=
  ⟨tablePrefix ++ table.name, table.columns.map columnDef⟩

/-- A word of the schema is one of SQL. -/
theorem isWord_sql {w : Text} (h : shape.IsWord w) : Ddl.shape.IsWord w := by
  have hstart (c : Char) (hc : isIdentStart c = true) : Ddl.shape.start c = true := by
    simp only [isIdentStart] at hc
    simp [Ddl.shape, hc]
  have hcont (c : Char) (hc : isIdentCont c = true) : Ddl.shape.cont c = true := by
    simp only [isIdentCont, Bool.or_eq_true] at hc
    rcases hc with hc | hc <;> simp [Ddl.shape, hc]
  rcases w with _ | ⟨a, w⟩
  · exact h
  · exact ⟨hstart a h.1, fun b hb => hcont b (h.2 b hb)⟩

/-- The name of a table of the user is a word. -/
theorem isWord_prefix {w : Text} (h : shape.IsWord w) : Ddl.shape.IsWord (tablePrefix ++ w) := by
  have hcont (c : Char) (hc : isIdentStart c = true ∨ isIdentCont c = true) :
      Ddl.shape.cont c = true := by
    simp only [isIdentStart, isIdentCont, Bool.or_eq_true, Char.isAlphanum] at hc
    simp only [Ddl.shape, Char.isAlphanum, Bool.or_eq_true]
    tauto
  have huser : tablePrefix = 'u' :: ['s', 'e', 'r', '_'] := rfl
  have hser : ['s', 'e', 'r', '_'].all Ddl.shape.cont = true := rfl
  rcases w with _ | ⟨a, w⟩
  · exact h.elim
  · rw [huser]
    refine ⟨by decide, fun b hb => ?_⟩
    rcases List.mem_append.1 hb with hb | hb
    · exact List.all_eq_true.1 hser b hb
    · rcases List.mem_cons.1 hb with rfl | hb
      · exact hcont _ (.inl h.1)
      · exact hcont _ (.inr (h.2 b hb))

/-- The words of a column in its statement. -/
def sqlWords (col : Column) : List Text :=
  col.name :: col.sqlType ::
    ((if col.primaryKey then ["PRIMARY".toList, "KEY".toList] else []) ++
      if col.notNull then ["NOT".toList, "NULL".toList] else [])

theorem columnSql_eq (col : Column) : columnSql col = ' ' :: Shape.spaced ' ' (sqlWords col) := by
  obtain ⟨name, sqlType, pk, nn⟩ := col
  cases pk <;> cases nn <;> simp [columnSql, Shape.spaced, sqlWords]

theorem map_sqlWords (col : Column) : (sqlWords col).map Token.word = (columnDef col).written := by
  obtain ⟨name, sqlType, pk, nn⟩ := col
  cases pk <;> cases nn <;> rfl

/-- What is read of a schema has words for names. -/
structure WordNames (table : Table) : Prop where
  name : shape.IsWord table.name
  columns : ∀ col ∈ table.columns, shape.IsWord col.name ∧ Ddl.shape.IsWord col.sqlType
  nonempty : table.columns ≠ []

theorem wordNames_of_spells {src : Text} {spec : List TableSpec} (h : Spells src spec)
    {table : Table} (ht : table ∈ spec.map TableSpec.table) : WordNames table := by
  obtain ⟨t, hmem, rfl⟩ := List.mem_map.1 ht
  have hnamed := h.named hmem
  refine ⟨hnamed.1, fun col hcol => ?_, by simpa [TableSpec.table] using (h.2 t hmem).1⟩
  obtain ⟨c, hc, rfl⟩ := List.mem_map.1 hcol
  refine ⟨hnamed.2 c hc, ?_⟩
  cases htype : c.type <;> simp only [ColumnSpec.column, htype] <;> decide

theorem isWord_sqlWords {col : Column} (hname : shape.IsWord col.name)
    (htype : Ddl.shape.IsWord col.sqlType) : ∀ w ∈ sqlWords col, Ddl.shape.IsWord w := by
  intro w hw
  rcases List.mem_cons.1 hw with rfl | hw
  · exact isWord_sql hname
  rcases List.mem_cons.1 hw with rfl | hw
  · exact htype
  rcases List.mem_append.1 hw with hw | hw
  · exact forall_optional _ (by decide) (by decide) w hw
  · exact forall_optional _ (by decide) (by decide) w hw

/-- A column and what follows it on its line. -/
theorem lex_columnSql {col : Column} (hname : shape.IsWord col.name)
    (htype : Ddl.shape.IsWord col.sqlType) {s : Text} (hs : Ddl.shape.Breaks s) :
    Ddl.shape.lex (columnSql col ++ s) = (columnDef col).written ++ Ddl.shape.lex s := by
  have hspace : Ddl.shape.blank ' ' = true := by decide
  rw [columnSql_eq, List.cons_append, Shape.lex_blank hspace,
    Shape.lex_spaced hspace (isWord_sqlWords hname htype) hs, map_sqlWords]

theorem lex_columnsSql {cols : List Column}
    (hcols : ∀ col ∈ cols, shape.IsWord col.name ∧ Ddl.shape.IsWord col.sqlType) (s : Text) :
    Ddl.shape.lex (columnsSql cols ++ s) =
      [.mark ','].intercalate ((cols.map columnDef).map Ddl.ColumnDef.written) ++
        Ddl.shape.lex s := by
  fun_induction columnsSql cols with
  | case1 => rfl
  | case2 col =>
    obtain ⟨hname, htype⟩ := hcols col List.mem_cons_self
    rw [List.append_assoc, List.singleton_append, lex_columnSql hname htype
      (Shape.breaks_blank (by decide) _), Shape.lex_blank (by decide)]
    simp
  | case3 col cols hne ih =>
    obtain ⟨⟨hname, htype⟩, hcols⟩ := List.forall_mem_cons.1 hcols
    have hcomma : Ddl.shape.Breaks (',' :: '\n' :: (columnsSql cols ++ s)) := by
      intro a ha
      obtain rfl : ',' = a := by simpa using ha
      decide
    have hcons : columnSql col ++ [',', '\n'] ++ columnsSql cols ++ s =
        columnSql col ++ ',' :: '\n' :: (columnsSql cols ++ s) := by simp
    rw [hcons, lex_columnSql hname htype hcomma, Shape.lex_cons_mark (by decide) (by decide),
      Shape.lex_blank (by decide), ih hcols]
    rcases cols with _ | ⟨col', cols⟩
    · exact absurd rfl hne
    · simp only [List.map_cons]
      rw [List.intercalate_cons_cons]
      simp

/-- Words that are joined in two ways. -/
theorem join_words (a b c d e p n cols : Text) :
    a ++ (Shape.spaced ' ' [b, c, d, e] ++ [' ']) ++ p ++ n ++ [' ', '(', '\n'] ++ cols ++
        [')', ';'] =
      a ++ (Shape.spaced ' ' [b, c, d, e, p ++ n] ++
        (' ' :: '(' :: '\n' :: (cols ++ [')', ';']))) := by
  simp [Shape.spaced]

/-- The fixed parts of a statement, in any spelling. -/
theorem createSql_eq (table : Table) {a b c : Text}
    (ha : "CREATE TABLE IF NOT EXISTS ".toList = a) (hb : " (\n".toList = b)
    (hc : ");".toList = c) :
    createSql table =
      a ++ tablePrefix ++ table.name ++ b ++ columnsSql table.columns ++ c := by
  subst ha hb hc
  rfl

/-- **The statement of a table** is read as a definition of the table. -/
theorem lex_createSql {table : Table} (h : WordNames table) :
    Ddl.shape.lex (createSql table) = (tableDef table).written := by
  have hspace : Ddl.shape.blank ' ' = true := by decide
  have hopen : createSql table = "CREATE".toList ++
      (Shape.spaced ' ' ["TABLE".toList, "IF".toList, "NOT".toList, "EXISTS".toList,
        tablePrefix ++ table.name] ++
        (' ' :: '(' :: '\n' :: (columnsSql table.columns ++ [')', ';']))) := by
    have hhead : "CREATE TABLE IF NOT EXISTS ".toList = "CREATE".toList ++
        (Shape.spaced ' ' ["TABLE".toList, "IF".toList, "NOT".toList, "EXISTS".toList] ++
          [' ']) := by decide
    have hparen : " (\n".toList = [' ', '(', '\n'] := rfl
    have hend : ");".toList = [')', ';'] := rfl
    exact (createSql_eq table hhead hparen hend).trans (join_words _ _ _ _ _ _ _ _)
  have hwords : ∀ w ∈ ["TABLE".toList, "IF".toList, "NOT".toList, "EXISTS".toList,
      tablePrefix ++ table.name], Ddl.shape.IsWord w := by
    have hkeys : ∀ w ∈ ["TABLE".toList, "IF".toList, "NOT".toList, "EXISTS".toList],
        Ddl.shape.IsWord w := by decide
    intro w hw
    rcases List.mem_append.1 (show w ∈ [_, _, _, _] ++ [_] from hw) with hw | hw
    · exact hkeys w hw
    · rw [List.mem_singleton.1 hw]
      exact isWord_prefix h.name
  rw [hopen, Shape.lex_word (by decide) (Shape.breaks_spaced hspace _
      (Shape.breaks_blank hspace _)),
    Shape.lex_spaced hspace hwords (Shape.breaks_blank hspace _), Shape.lex_blank hspace,
    Shape.lex_cons_mark (by decide) (by decide), Shape.lex_blank (by decide),
    lex_columnsSql h.columns, Shape.lex_cons_mark (by decide) (by decide),
    Shape.lex_cons_mark (by decide) (by decide), Shape.lex_nil]
  simp [Ddl.TableDef.written, tableDef]

theorem read_createSql {table : Table} (h : WordNames table) :
    Ddl.read (Ddl.shape.lex (createSql table)) =
      some ⟨tablePrefix ++ table.name, (table.columns.map columnDef).map Ddl.ColumnDef.asRead⟩ := by
  have hne : (tableDef table).columns ≠ [] := by simpa [tableDef] using h.nonempty
  rw [lex_createSql h, Ddl.read_written hne]
  rfl

section Creating

variable (E : Ddl.Engine)

/-- What the name of a table stands for. -/
def key (table : Table) : Text := E.fold (tablePrefix ++ table.name)

/-- The columns of a table, as the database keeps them. -/
def kept (table : Table) : List Ddl.ColumnDef := table.columns.map fun col =>
  ⟨E.fold col.name, Ddl.lower col.sqlType, col.primaryKey, col.notNull⟩

/-- Every statement in its turn is accepted, and makes a table with exactly the columns
it is to have. -/
def Creates : List Table → Ddl.Store → Prop
  | [], _ => True
  | table :: tables, store => store (key E table) = none ∧
      ∃ store', E.exec (createSql table) store = some store' ∧
        store' (key E table) = some (kept E table) ∧ Creates tables store'

/-- SQL takes a table: its names are no words of SQL, no two of its columns have one name,
it has one primary key at most, its columns are not too many and of types that are known, and
its statement is not too long. -/
structure Usable (table : Table) : Prop where
  name : E.reserved (Ddl.lower (tablePrefix ++ table.name)) = false
  columns : ∀ col ∈ table.columns, E.reserved (Ddl.lower col.name) = false
  apart : (table.columns.map fun col => E.fold col.name).Nodup
  one : (table.columns.filter (·.primaryKey)).length ≤ 1
  few : table.columns.length ≤ E.maxColumns
  types : ∀ col ∈ table.columns, E.knows (Ddl.lower col.sqlType) = true
  short : (createSql table).length ≤ E.maxLength

/-- SQL takes the tables, and keeps them apart. -/
def Free (tables : List Table) : Prop :=
  (∀ table ∈ tables, Usable E table) ∧ (tables.map (key E)).Nodup

variable {E}

theorem filter_asRead (table : Table) :
    (((table.columns.map columnDef).map Ddl.ColumnDef.asRead).filter (·.primaryKey)).length =
      (table.columns.filter (·.primaryKey)).length := by
  simp only [List.filter_map, List.length_map]
  rfl

/-- A table is usable if its statement can be carried out. -/
theorem usable_iff {table : Table} : Usable E table ↔
    (createSql table).length ≤ E.maxLength ∧
      E.Readable ⟨tablePrefix ++ table.name,
        (table.columns.map columnDef).map Ddl.ColumnDef.asRead⟩ ∧
      E.Creatable ((table.columns.map columnDef).map Ddl.ColumnDef.asRead) := by
  rw [Ddl.Engine.Readable, Ddl.Engine.Creatable, filter_asRead]
  constructor
  · rintro ⟨hname, hcols, hapart, hone, hfew, htypes, hshort⟩
    exact ⟨hshort, ⟨hname, by simpa [columnDef, Ddl.ColumnDef.asRead] using hcols⟩,
      by simpa [columnDef, Ddl.ColumnDef.asRead, Function.comp_def] using hapart, hone,
      by simpa using hfew, by simpa [columnDef, Ddl.ColumnDef.asRead] using htypes⟩
  · rintro ⟨hshort, ⟨hname, hcols⟩, hapart, hone, hfew, htypes⟩
    exact ⟨hname, by simpa [columnDef, Ddl.ColumnDef.asRead] using hcols,
      by simpa [columnDef, Ddl.ColumnDef.asRead, Function.comp_def] using hapart, hone,
      by simpa using hfew, by simpa [columnDef, Ddl.ColumnDef.asRead] using htypes, hshort⟩

/-- A statement makes its table exactly if the table is usable. -/
theorem exec_createSql {table : Table} {store store' : Ddl.Store} (h : WordNames table)
    (hnew : store (key E table) = none) :
    E.exec (createSql table) store = some store' ↔
      Usable E table ∧ store' = Function.update store (key E table) (some (kept E table)) := by
  have hkept : ((table.columns.map columnDef).map Ddl.ColumnDef.asRead).map E.column =
      kept E table := by
    rw [List.map_map, List.map_map]
    rfl
  rw [usable_iff]
  constructor
  · intro hexec
    obtain ⟨hlen, hread, hcols, rfl⟩ := Ddl.Engine.creatable_of_exec (read_createSql h) hnew hexec
    rw [hkept]
    exact ⟨⟨hlen, hread, hcols⟩, rfl⟩
  · rintro ⟨⟨hlen, hread, hcols⟩, rfl⟩
    rw [Ddl.Engine.exec_of_creatable hlen (read_createSql h) hread hnew hcols, hkept]
    rfl

/-- **When tables are created**: SQL takes each, keeps them apart, and has none of them
before. -/
theorem creates_iff {tables : List Table} {store : Ddl.Store}
    (h : ∀ table ∈ tables, WordNames table) :
    Creates E tables store ↔
      Free E tables ∧ ∀ table ∈ tables, store (key E table) = none := by
  induction tables generalizing store with
  | nil => simp [Creates, Free]
  | cons table tables ih =>
    obtain ⟨ht, h⟩ := List.forall_mem_cons.1 h
    rw [Creates, Free, List.forall_mem_cons, List.forall_mem_cons, List.map_cons,
      List.nodup_cons]
    constructor
    · rintro ⟨hnew, store', hexec, -, hrest⟩
      obtain ⟨husable, rfl⟩ := (exec_createSql ht hnew).1 hexec
      obtain ⟨⟨husables, hnodup⟩, hfree⟩ := (ih h).1 hrest
      have hne : ∀ table' ∈ tables, key E table' ≠ key E table := by
        intro table' ht' heq
        have := hfree table' ht'
        rw [heq, Function.update_self] at this
        simp at this
      refine ⟨⟨⟨husable, husables⟩, fun hmem => ?_, hnodup⟩, hnew, fun table' ht' => ?_⟩
      · obtain ⟨table', ht', heq⟩ := List.mem_map.1 hmem
        exact hne table' ht' heq
      · rw [← hfree table' ht', Function.update_of_ne (hne table' ht')]
    · rintro ⟨⟨⟨husable, husables⟩, hnotMem, hnodup⟩, hnew, hfree⟩
      refine ⟨hnew, _, (exec_createSql ht hnew).2 ⟨husable, rfl⟩, Function.update_self .., ?_⟩
      refine (ih h).2 ⟨⟨husables, hnodup⟩, fun table' ht' => ?_⟩
      have hne : key E table' ≠ key E table := fun heq =>
        hnotMem (List.mem_map.2 ⟨table', ht', heq⟩)
      rw [Function.update_of_ne hne, hfree table' ht']

/-- Tables that are created stay as they are while others are. -/
theorem createAll_of_creates {tables : List Table} {store : Ddl.Store}
    (hw : ∀ table ∈ tables, WordNames table) (h : Creates E tables store) :
    ∃ store', createAll E tables store = (some (), store') ∧
      (∀ table ∈ tables, store' (key E table) = some (kept E table)) ∧
      ∀ name, (∀ table ∈ tables, key E table ≠ name) → store' name = store name := by
  induction tables generalizing store with
  | nil => exact ⟨store, rfl, by simp, fun _ _ => rfl⟩
  | cons table tables ih =>
    have hfree := (creates_iff hw).1 h
    obtain ⟨ht, hw⟩ := List.forall_mem_cons.1 hw
    obtain ⟨hnew, store₁, hexec, hkept, hrest⟩ := h
    obtain ⟨-, rfl⟩ := (exec_createSql ht hnew).1 hexec
    obtain ⟨store', hall, hkepts, hframe⟩ := ih hw hrest
    have hnotMem : key E table ∉ tables.map (key E) := (List.nodup_cons.1 hfree.1.2).1
    refine ⟨store', by rw [createAll, hexec]; exact hall,
      List.forall_mem_cons.2 ⟨?_, hkepts⟩, fun name hname => ?_⟩
    · rw [hframe _ fun table' ht' heq => hnotMem (List.mem_map.2 ⟨table', ht', heq⟩), hkept]
    · obtain ⟨hne, hname⟩ := List.forall_mem_cons.1 hname
      rw [hframe name hname, Function.update_of_ne (Ne.symm hne)]

end Creating

/-! ### Two databases -/

/-- Words that are no names in either database. -/
def reservedWords : List Text :=
  ["all", "and", "as", "case", "check", "collate", "constraint", "create", "default",
    "distinct", "else", "except", "foreign", "from", "group", "having", "in", "intersect",
    "into", "limit", "not", "null", "on", "or", "order", "primary", "references", "select",
    "table", "then", "to", "union", "unique", "using", "when", "where"].map String.toList

/-- SQLite takes any type, PostgreSQL knows no `BLOB`. -/
def engine (d : EventTables.Dialect) : Ddl.Engine where
  fold := d.fold
  reserved w := reservedWords.contains w
  knows type := decide (d = .sqlite) || decide (type ≠ "blob".toList)
  maxColumns := d.maxColumns
  maxLength := 1000000000

/-! ### What a schema should get -/

/-- The columns of a table as SQL compares them are apart, and one at most is the primary
key; no two tables have one name. -/
structure InOrder (E : Ddl.Engine) (spec : List TableSpec) : Prop where
  columns : ∀ t ∈ spec, (t.columns.map fun c => E.fold c.name).Nodup
  one : ∀ t ∈ spec, (t.columns.filter fun c => decide (.primaryKey ∈ c.modifiers)).length ≤ 1
  tables : (spec.map (·.name)).Nodup

/-- The reader takes exactly the texts that say tables in order, and hands these over; it reads
them again from their canonical text; and in a database without tables of the user each is
created. -/
structure Right (E : Ddl.Engine) (src : Text) : Prop where
  accepts : ∀ tables, parse src = .ok tables ↔
    ∃ spec, Spells src spec ∧ InOrder E spec ∧ tables = spec.map TableSpec.table
  again : ∀ tables, parse src = .ok tables → parse (render tables) = .ok tables
  creates : ∀ tables, parse src = .ok tables → ∀ store : Ddl.Store,
    (∀ name, store (E.fold (tablePrefix ++ name)) = none) → Creates E tables store

/-- The condition on what a text says. Tables in order have no column called `primary` or `not`
behind another one, and SQL takes their names and types and keeps the tables apart;
tables that are not in order have two columns of one spelling, two primary keys, or a
column of that kind. -/
def Suits (E : Ddl.Engine) (src : Text) : Prop := ∀ spec, Spells src spec →
  (InOrder E spec → (∀ t ∈ spec, Looks t.columns) ∧ Free E (spec.map TableSpec.table)) ∧
    (¬InOrder E spec → ∃ t ∈ spec, ¬t.Taken)

theorem filter_column (cs : List ColumnSpec) :
    ((cs.map ColumnSpec.column).filter (·.primaryKey)).length =
      (cs.filter fun c => decide (.primaryKey ∈ c.modifiers)).length := by
  rw [List.filter_map, List.length_map]
  rfl

/-- Names that SQL keeps apart are not spelled alike. -/
theorem InOrder.apart {E : Ddl.Engine} {spec : List TableSpec} (h : InOrder E spec)
    {t : TableSpec} (ht : t ∈ spec) : Distinguished (t.columns.map ColumnSpec.column) := by
  refine ⟨?_, ?_⟩
  · have hnodup := h.columns t ht
    rw [← Function.comp_def, ← List.map_map] at hnodup
    rw [List.map_map]
    exact hnodup.of_map
  · rw [filter_column]
    exact h.one t ht

/-- **Which schemas get what they should.** -/
theorem right_iff_suits (E : Ddl.Engine) (src : Text) : Right E src ↔ Suits E src := by
  constructor
  · intro h spec hspells
    refine ⟨fun horder => ?_, fun horder => ?_⟩
    · have hparse := (h.accepts _).2 ⟨spec, hspells, horder, rfl⟩
      obtain ⟨spec', hspells', htaken, -⟩ := parse_eq_ok_iff.1 hparse
      obtain rfl := hspells'.unique hspells
      have hcreates := h.creates _ hparse (fun _ => none) fun _ => rfl
      exact ⟨fun t ht => (htaken t ht).looks,
        ((creates_iff fun _ => wordNames_of_spells hspells).1 hcreates).1⟩
    · by_contra htaken
      push Not at htaken
      obtain ⟨spec', hspells', horder', -⟩ :=
        (h.accepts _).1 (parse_eq_ok_iff.2 ⟨spec, hspells, htaken, rfl⟩)
      exact horder (hspells'.unique hspells ▸ horder')
  · intro h
    have horder {spec} (hspells : Spells src spec) (htaken : ∀ t ∈ spec, t.Taken) :
        InOrder E spec := by
      by_contra hnot
      obtain ⟨t, ht, hnot⟩ := (h spec hspells).2 hnot
      exact hnot (htaken t ht)
    refine ⟨fun tables => ⟨fun hparse => ?_, ?_⟩, fun tables => parse_render, ?_⟩
    · obtain ⟨spec, hspells, htaken, rfl⟩ := parse_eq_ok_iff.1 hparse
      exact ⟨spec, hspells, horder hspells htaken, rfl⟩
    · rintro ⟨spec, hspells, hin, rfl⟩
      have hlooks := ((h spec hspells).1 hin).1
      exact parse_eq_ok_iff.2
        ⟨spec, hspells, fun t ht => ⟨hin.apart ht, hlooks t ht⟩, rfl⟩
    · intro tables hparse store hstore
      obtain ⟨spec, hspells, htaken, rfl⟩ := parse_eq_ok_iff.1 hparse
      have hfree := ((h spec hspells).1 (horder hspells htaken)).2
      exact (creates_iff fun _ => wordNames_of_spells hspells).2 ⟨hfree, fun _ _ => hstore _⟩

/-- Two columns that differ in case only. -/
def doubled : List TableSpec :=
  [⟨"account".toList, [⟨"id".toList, .text, []⟩, ⟨"ID".toList, .text, []⟩]⟩]

def doubledText : Text := "table account \x7b\n  id text\n  ID text\n\x7d\n".toList

theorem spells_doubled : Spells doubledText doubled := by
  have hrender : doubledText = render (doubled.map TableSpec.table) := by decide
  have hcanonical : doubled = doubled.map (·.canonical) := by decide
  rw [hrender, hcanonical]
  refine spells_render (fun t ht => ?_) fun t ht => ?_
  · obtain rfl := List.mem_singleton.1 ht
    exact ⟨by decide, by decide⟩
  · obtain rfl := List.mem_singleton.1 ht
    exact ⟨by decide, by decide⟩

/-- The two columns are taken, and they are one column for SQL. -/
theorem not_right_doubled :
    ¬Right (engine .sqlite) doubledText ∧ ¬Right (engine .postgresql) doubledText := by
  have htaken : ∀ t ∈ doubled, t.Taken := by
    intro t ht
    obtain rfl := List.mem_singleton.1 ht
    refine ⟨⟨by decide, by decide⟩, fun c hc m => ?_⟩
    obtain rfl := List.mem_singleton.1 hc
    cases m <;> decide
  have hparse := parse_eq_ok_iff.2 ⟨doubled, spells_doubled, htaken, rfl⟩
  have hrefused (d : EventTables.Dialect)
      (hfold : d.fold "id".toList = d.fold "ID".toList) :
      ¬Right (engine d) doubledText := by
    intro h
    obtain ⟨spec, hspells, horder, -⟩ := (h.accepts _).1 hparse
    obtain rfl := hspells.unique spells_doubled
    have hnodup := horder.columns _ (List.mem_singleton_self _)
    simp only [List.map_cons, List.map_nil, engine, hfold] at hnodup
    simp at hnodup
  exact ⟨hrefused .sqlite (by decide), hrefused .postgresql (by decide)⟩

/-- A table in order whose names and types are those of SQL. -/
def account : List TableSpec :=
  [⟨"account".toList, [⟨"address".toList, .text, [.primaryKey]⟩,
    ⟨"balance".toList, .text, [.notNull]⟩]⟩]

example : Suits (engine .sqlite) (render (account.map TableSpec.table)) := by
  intro spec hspells
  have haccount : Spells (render (account.map TableSpec.table)) account := by
    refine spells_render (fun t ht => ?_) fun t ht => ?_
    · obtain rfl := List.mem_singleton.1 ht
      exact ⟨by decide, by decide⟩
    · obtain rfl := List.mem_singleton.1 ht
      exact ⟨by decide, by decide⟩
  obtain rfl := hspells.unique haccount
  refine ⟨fun _ => ⟨fun t ht c hc m => ?_, ⟨fun table ht => ?_, by decide⟩⟩, fun h => ?_⟩
  · obtain rfl := List.mem_singleton.1 ht
    obtain rfl := List.mem_singleton.1 hc
    cases m <;> decide
  · obtain rfl := List.mem_singleton.1 ht
    exact ⟨by decide, by decide, by decide, by decide, by decide, by decide, by decide⟩
  · exact absurd ⟨by decide, by decide, by decide⟩ h

/-- Tables that get what they should are there when the schema has been applied. -/
theorem apply_of_suits {E : Ddl.Engine} {src : Text} (h : Suits E src) {tables : List Table}
    (hparse : parse src = .ok tables) {store : Ddl.Store}
    (hstore : ∀ name, store (E.fold (tablePrefix ++ name)) = none) :
    ∃ store', apply E src store = (some tables, store') ∧
      (∀ table ∈ tables, store' (key E table) = some (kept E table)) ∧
      ∀ name, (∀ table ∈ tables, key E table ≠ name) → store' name = store name := by
  obtain ⟨spec, hspells, -, rfl⟩ := parse_eq_ok_iff.1 hparse
  obtain ⟨store', hall, hkept⟩ := createAll_of_creates (fun _ => wordNames_of_spells hspells)
    (((right_iff_suits E src).2 h).creates _ hparse store hstore)
  refine ⟨store', ?_, hkept⟩
  rw [apply, hparse]
  simp only [hall]

end Zponder.UserTables

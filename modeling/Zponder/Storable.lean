import Zponder.EventKeys

/-!
# Logs that are stored and read back

When the logs of a contract can be inserted and are found again in the answer of a query,
on a backend with tables and on RocksDB (`Zponder.EventTables.readBack_iff`).

Where there are tables, the table of an event is that of the first event of its name, and of
every other that is spelled alike, so the inputs of both matter; no event up to it may fail,
no two inputs may be spelled alike, and there has to be one at all. PostgreSQL takes no `bool`,
as its column is an integer. On RocksDB the names are those of the members of an object, and there
has to be one at all as well, or the object begins with a comma.
-/

namespace Zponder.EventTables

open Decode (Event EventInput)

open JsonRows (Value Row)

variable {d : Dialect} {sql : Sql} {contractName : Text}

/-! ### Inserting on a backend with tables -/

section Insert

variable (d sql contractName) in
/-- What a statement needs to be carried out. -/
structure Accepts (db : Database) (r : Received) (T : Table) : Prop where
  named : Named contractName r.event.name
  field : r.fields ≠ []
  table : db.tables (tableOf d contractName r.event.name) = some T
  columns : ∀ f ∈ r.fields, column d f.name ∈ T.columns.map (·.1)
  sendable : sendable d sql r = true
  range : r.log.blockNumber < 2 ^ 63 ∧ r.log.logIndex < 2 ^ 63
  cells : ∀ col ∈ T.columns, (cell d sql r.fields col).isSome = true

/-- What inserting a log comes to. -/
theorem insertRow_eq_some_iff {r : Received} {db db' : Database} :
    insertRow d sql contractName r db = some db' ↔ ∃ T, Accepts d sql contractName db r T ∧
      (T.rows.any (sameKey d r) = true ∧ db' = db ∨ T.rows.any (sameKey d r) = false ∧
        db' = db.setTable (tableOf d contractName r.event.name)
          { T with rows := T.rows ++ [newRow d sql r T] }) := by
  unfold insertRow
  constructor
  · intro h
    split at h
    · next hnamed =>
      cases hT : db.tables (tableOf d contractName r.event.name) with
      | none =>
        rw [hT] at h
        cases h
      | some T =>
        rw [hT] at h
        dsimp only at h
        split at h
        · next hok =>
          refine ⟨T, ⟨hnamed.1, hnamed.2, hT, hok.1, hok.2.1, ⟨hok.2.2.1, hok.2.2.2.1⟩,
            hok.2.2.2.2⟩, ?_⟩
          split at h
          · next hany => exact .inl ⟨hany, (Option.some.inj h).symm⟩
          · next hany => exact .inr ⟨by simpa using hany, (Option.some.inj h).symm⟩
        · cases h
    · cases h
  · rintro ⟨T, hacc, hT⟩
    rw [if_pos ⟨hacc.named, hacc.field⟩, hacc.table]
    dsimp only
    rw [if_pos ⟨hacc.columns, hacc.sendable, hacc.range.1, hacc.range.2, hacc.cells⟩]
    rcases hT with ⟨hany, rfl⟩ | ⟨hany, rfl⟩
    · rw [if_pos hany]
    · rw [if_neg (by simp [hany])]

/-- No two logs are one, as the database sees it. -/
def Distinct (logs : List Received) : Prop :=
  (logs.Pairwise fun r r' =>
    ¬(r.log.transactionHash = r'.log.transactionHash ∧ r.log.logIndex = r'.log.logIndex)) ∧
  ∀ r ∈ logs, Char.ofNat 0 ∉ r.log.transactionHash

variable (d contractName) in
/-- The logs of a table. -/
def ofTable (t : Text) (logs : List Received) : List Received :=
  logs.filter fun r => decide (tableOf d contractName r.event.name = t)

variable (d sql contractName) in
/-- **What has been inserted**: rows of some of the logs, and of all if no two are one. -/
structure Inserted (db₀ : Database) (done : List Received) (db : Database) : Prop where
  none : ∀ t, db₀.tables t = none → db.tables t = none
  rows : ∀ t T, db₀.tables t = some T → T.rows = [] → ∃ l rows,
    db.tables t = some { T with rows := rows } ∧
    List.Forall₂ (FromLog d sql T.columns) l rows ∧ l.Sublist (ofTable d contractName t done) ∧
    (Distinct done → l = ofTable d contractName t done)

variable {db₀ db db' : Database} {done logs : List Received} {r : Received}

theorem bound_of_plain {s : Text} (h : Char.ofNat 0 ∉ s) : d.bound s = s := by
  cases d with
  | sqlite => rfl
  | postgresql => exact cut_eq_self h

theorem exists_fromLog {columns : List (Text × SqlType)} {l : List Received}
    {rows : List TableRow} (hrows : List.Forall₂ (FromLog d sql columns) l rows) {row : TableRow}
    (hrow : row ∈ rows) : ∃ r ∈ l, FromLog d sql columns r row := by
  induction hrows with
  | nil => cases hrow
  | cons hab _ ih =>
    rcases List.mem_cons.1 hrow with rfl | hrow
    · exact ⟨_, List.mem_cons_self, hab⟩
    · obtain ⟨r', hr', hfrom⟩ := ih hrow
      exact ⟨r', List.mem_cons_of_mem _ hr', hfrom⟩

/-- Only a log that is one with another is not inserted. -/
theorem not_any_sameKey {columns : List (Text × SqlType)} {l : List Received}
    {rows : List TableRow} (hrows : List.Forall₂ (FromLog d sql columns) l rows)
    (hl : l.Sublist done) (h : Distinct (done ++ [r])) : rows.any (sameKey d r) = false := by
  rw [List.any_eq_false]
  intro row hrow hsame
  obtain ⟨r', hr', hfrom⟩ := exists_fromLog hrows hrow
  have hdone := hl.subset hr'
  simp only [sameKey, Bool.and_eq_true, beq_iff_eq] at hsame
  obtain ⟨⟨-, htx⟩, hindex⟩ := hsame
  rw [hfrom.txHash, bound_of_plain (h.2 r' (List.mem_append_left _ hdone)),
    bound_of_plain (h.2 r (List.mem_append_right _ (List.mem_singleton_self r)))] at htx
  exact (List.pairwise_append.1 h.1).2.2 r' hdone r (List.mem_singleton_self r)
    ⟨htx, hfrom.logIndex ▸ hindex⟩

theorem Distinct.sublist (h : Distinct logs) {l : List Received} (hl : l.Sublist logs) :
    Distinct l :=
  ⟨h.1.sublist hl, fun r hr => h.2 r (hl.subset hr)⟩

theorem fromLog_newRow {T : Table} (hacc : ∀ col ∈ T.columns, (cell d sql r.fields col).isSome = true) :
    FromLog d sql T.columns r (newRow d sql r T) :=
  ⟨rfl, hacc, rfl, rfl, rfl⟩

theorem ofTable_append (t : Text) : ofTable d contractName t (done ++ [r]) =
    ofTable d contractName t done ++
      if tableOf d contractName r.event.name = t then [r] else [] := by
  rw [ofTable, List.filter_append, List.filter_singleton]
  by_cases h : tableOf d contractName r.event.name = t
  · rw [if_pos h, decide_eq_true h, cond_true, ofTable]
  · rw [if_neg h, decide_eq_false h, cond_false, ofTable]

/-- One more log. -/
theorem Inserted.step (h : Inserted d sql contractName db₀ done db)
    (hr : insertRow d sql contractName r db = some db') :
    Inserted d sql contractName db₀ (done ++ [r]) db' := by
  obtain ⟨T, hacc, hcases⟩ := insertRow_eq_some_iff.1 hr
  have hdone : Distinct (done ++ [r]) → Distinct done := fun hd =>
    hd.sublist (List.sublist_append_left _ _)
  rcases hcases with ⟨hany, rfl⟩ | ⟨hany, rfl⟩
  · refine ⟨h.none, fun t T' hT' hnil => ?_⟩
    obtain ⟨l, rows, htable, hrows, hl, hall⟩ := h.rows t T' hT' hnil
    refine ⟨l, rows, htable, hrows, ?_, fun hd => ?_⟩
    · rw [ofTable_append]
      exact hl.trans (List.sublist_append_left _ _)
    · rw [ofTable_append]
      by_cases ht : tableOf d contractName r.event.name = t
      · -- the key was there
        subst ht
        rw [hacc.table] at htable
        have hrowsEq : T.rows = rows := by rw [Option.some.inj htable]
        rw [hrowsEq, not_any_sameKey hrows (hl.trans List.filter_sublist) hd] at hany
        cases hany
      · rw [if_neg ht, List.append_nil]
        exact hall (hdone hd)
  · refine ⟨fun t ht => ?_, fun t T' hT' hnil => ?_⟩
    · have hne : t ≠ tableOf d contractName r.event.name := by
        rintro rfl
        have htable := hacc.table
        rw [h.none _ ht] at htable
        cases htable
      rw [Database.setTable_of_ne db _ hne]
      exact h.none t ht
    · obtain ⟨l, rows, htable, hrows, hl, hall⟩ := h.rows t T' hT' hnil
      by_cases ht : tableOf d contractName r.event.name = t
      · subst ht
        rw [hacc.table] at htable
        obtain rfl := Option.some.inj htable
        refine ⟨l ++ [r], _, Database.setTable_self _ _ _, ?_, ?_, fun hd => ?_⟩
        · exact List.rel_append (R := FromLog d sql T'.columns) hrows
            (.cons (fromLog_newRow hacc.cells) .nil)
        · rw [ofTable_append, if_pos rfl]
          exact hl.append (List.Sublist.refl _)
        · rw [ofTable_append, if_pos rfl, hall (hdone hd)]
      · refine ⟨l, rows, ?_, hrows, ?_, fun hd => ?_⟩
        · rw [Database.setTable_of_ne db _ (Ne.symm ht)]
          exact htable
        · rw [ofTable_append, if_neg ht, List.append_nil]
          exact hl
        · rw [ofTable_append, if_neg ht, List.append_nil]
          exact hall (hdone hd)

/-- A log that is accepted now was so in the beginning, if its table was empty. -/
theorem Inserted.accepts_iff (h : Inserted d sql contractName db₀ done db) {T : Table}
    (hT : db₀.tables (tableOf d contractName r.event.name) = some T) (hnil : T.rows = []) :
    (∃ T', Accepts d sql contractName db r T') ↔ Accepts d sql contractName db₀ r T := by
  obtain ⟨l, rows, htable, -⟩ := h.rows _ T hT hnil
  constructor
  · rintro ⟨T', hacc⟩
    have heq := hacc.table
    rw [htable] at heq
    obtain rfl := Option.some.inj heq
    exact ⟨hacc.named, hacc.field, hT, hacc.columns, hacc.sendable, hacc.range, hacc.cells⟩
  · intro hacc
    exact ⟨_, hacc.named, hacc.field, htable, hacc.columns, hacc.sendable, hacc.range, hacc.cells⟩

/-- Where no table has a row before, some log is in a table or has none. -/
theorem Inserted.exists_of_accepts (h : Inserted d sql contractName db₀ done db) {T : Table}
    (hacc : Accepts d sql contractName db r T) :
    ∃ T₀, db₀.tables (tableOf d contractName r.event.name) = some T₀ := by
  cases hT : db₀.tables (tableOf d contractName r.event.name) with
  | some T₀ => exact ⟨T₀, rfl⟩
  | none =>
    have htable := hacc.table
    rw [h.none _ hT] at htable
    cases htable

variable {b : Backend}

/-- **A run of inserts** succeeds if every log of it is accepted, and then their rows are in
the tables. -/
theorem insertAll_iff (sql : Sql) (hb : dialect b = some d)
    (hempty : ∀ r ∈ logs, ∀ T, db₀.tables (tableOf d contractName r.event.name) = some T →
      T.rows = [])
    (h : Inserted d sql contractName db₀ done db) :
    (∀ db', insertAll b sql contractName logs db = some db' →
        (∀ r ∈ logs, ∃ T, Accepts d sql contractName db₀ r T) ∧
          Inserted d sql contractName db₀ (done ++ logs) db') ∧
      ((∀ r ∈ logs, ∃ T, Accepts d sql contractName db₀ r T) →
        ∃ db', insertAll b sql contractName logs db = some db') := by
  induction logs generalizing done db with
  | nil =>
    refine ⟨fun db' hdb' => ?_, fun _ => ⟨db, rfl⟩⟩
    obtain rfl := Option.some.inj hdb'
    rw [List.append_nil]
    exact ⟨fun r hr => (by cases hr), h⟩
  | cons r logs ih =>
    have hinsert : ∀ db, insertEventLog b sql contractName r db = insertRow d sql contractName r db := by
      intro db
      rw [insertEventLog, hb]
    have hempty' := fun r' hr' => hempty r' (List.mem_cons_of_mem r hr')
    constructor
    · intro db' hdb'
      rw [insertAll, Option.bind_eq_some_iff] at hdb'
      obtain ⟨db₁, hfirst, hrest⟩ := hdb'
      rw [hinsert] at hfirst
      obtain ⟨hothers, hlast⟩ := (ih hempty' (h.step hfirst)).1 db' hrest
      rw [List.append_assoc, List.singleton_append] at hlast
      refine ⟨fun r' hr' => ?_, hlast⟩
      rcases List.mem_cons.1 hr' with rfl | hr'
      · obtain ⟨T, hacc, -⟩ := insertRow_eq_some_iff.1 hfirst
        obtain ⟨T₀, hT₀⟩ := h.exists_of_accepts hacc
        exact ⟨T₀, (h.accepts_iff hT₀ (hempty r' List.mem_cons_self T₀ hT₀)).1 ⟨T, hacc⟩⟩
      · exact hothers r' hr'
    · intro hall
      obtain ⟨T₀, hacc₀⟩ := hall r List.mem_cons_self
      obtain ⟨T, hacc⟩ :=
        (h.accepts_iff hacc₀.table (hempty r List.mem_cons_self T₀ hacc₀.table)).2 hacc₀
      obtain ⟨db₁, hfirst⟩ : ∃ db₁, insertRow d sql contractName r db = some db₁ := by
        cases hany : T.rows.any (sameKey d r) with
        | true => exact ⟨_, insertRow_eq_some_iff.2 ⟨T, hacc, .inl ⟨hany, rfl⟩⟩⟩
        | false => exact ⟨_, insertRow_eq_some_iff.2 ⟨T, hacc, .inr ⟨hany, rfl⟩⟩⟩
      obtain ⟨db', hdb'⟩ := (ih hempty' (h.step hfirst)).2
        fun r' hr' => hall r' (List.mem_cons_of_mem r hr')
      refine ⟨db', ?_⟩
      rw [insertAll, hinsert, hfirst, Option.bind_some, hdb']

/-- Nothing was inserted yet. -/
theorem Inserted.nil : Inserted d sql contractName db₀ [] db₀ where
  none _ ht := ht
  rows t T hT hnil := ⟨[], [], by rw [← hnil]; exact hT, .nil, List.Sublist.refl _, fun _ => rfl⟩

end Insert

/-! ### The answer on a backend with tables -/

section Answer

variable {columns : List (Text × SqlType)} {rows : List TableRow} {l logs : List Received}
  {r : Received}

/-- Among the rows of logs of which no two are one, there is one of each. -/
theorem filter_isOf (hcol : ColumnNames d columns)
    (hrows : List.Forall₂ (FromLog d sql columns) l rows) (hd : Distinct l) (hr : r ∈ l) :
    ∃ row, rows.filter (fun row => isOf r (members d sql row)) = [row] ∧
      FromLog d sql columns r row := by
  have hiff : ∀ r' ∈ l, ∀ row, FromLog d sql columns r' row →
      (isOf r (members d sql row) = true ↔ r.log.transactionHash = r'.log.transactionHash ∧
        r.log.logIndex = r'.log.logIndex) := by
    intro r' hr' row hfrom
    rw [hfrom.isOf_iff hcol, hfrom.txHash, cut_bound, cut_eq_self (hd.2 r' hr'), hfrom.logIndex]
    exact and_congr_right fun _ => eq_comm
  induction hrows with
  | nil => cases hr
  | @cons r₀ row₀ l rows hab hrest ih =>
    have hd' := hd.sublist (List.sublist_cons_self r₀ l)
    have hiff' := fun r' hr' => hiff r' (List.mem_cons_of_mem r₀ hr')
    have hfirst := hiff r₀ List.mem_cons_self row₀ hab
    rcases List.mem_cons.1 hr with rfl | hr
    · refine ⟨row₀, ?_, hab⟩
      rw [List.filter_cons_of_pos (p := fun row => isOf r (members d sql row))
        (hfirst.2 ⟨rfl, rfl⟩)]
      refine congrArg (row₀ :: ·) (List.filter_eq_nil_iff.2 fun row hrow hof => ?_)
      obtain ⟨r', hr', hfrom⟩ := exists_fromLog hrest hrow
      exact (List.pairwise_cons.1 hd.1).1 r' hr' ((hiff' r' hr' row hfrom).1 hof)
    · obtain ⟨row, hfilter, hfrom⟩ := ih hd' hr hiff'
      refine ⟨row, ?_, hfrom⟩
      rw [List.filter_cons_of_neg, hfilter]
      intro hof
      have hsame := hfirst.1 hof
      exact (List.pairwise_cons.1 hd.1).1 r hr ⟨hsame.1.symm, hsame.2.symm⟩

end Answer

/-! ### Backends with tables -/

section Table

variable (d sql contractName) in
/-- **When a backend with tables keeps a log.** -/
structure FitsTable (abi : List Event) (events : List Text) (r : Received) : Prop where
  named : Named contractName r.event.name
  /-- There is a field at all, -/
  field : r.fields ≠ []
  /-- each has an input of its name in the event the table is made for, -/
  table : ∃ e, Makes d contractName (listed abi events) (tableOf d contractName r.event.name) e ∧
    ∀ f ∈ r.fields, ∃ i ∈ e.inputs, column d i.name = column d f.name ∧
      (d = .postgresql → i.type ≠ "bool".toList)
  /-- and no two have one name. -/
  distinct : (r.fields.map fun f => column d f.name).Nodup
  /-- No text ends early. -/
  plain : Char.ofNat 0 ∉ r.log.transactionHash ∧ ∀ f ∈ r.fields, Char.ofNat 0 ∉ f.value
  sendable : sendable d sql r = true
  range : r.log.blockNumber < 2 ^ 63 ∧ r.log.logIndex < 2 ^ 63

variable {b : Backend} {abi : List Event} {events : List Text} {logs : List Received}
  {db db' : Database} {r : Received} {e : Event}

theorem columnNames_newTable (e : Event) : ColumnNames d (newTable d e).columns := by
  intro col hcol
  obtain ⟨i, -, rfl⟩ := List.mem_map.1 hcol
  exact ⟨i.name, rfl⟩

theorem map_fst_newTable (e : Event) :
    (newTable d e).columns.map (·.1) = e.inputs.map fun i => column d i.name := by
  rw [newTable, List.map_map]
  rfl

theorem Makes.creatable {es : List Event} {t : Text} (h : Makes d contractName es t e) :
    Creatable d e := by
  have ht : tableOf d contractName e.name = t := of_decide_eq_true (List.find?_some h.found :)
  refine (h.before e (List.mem_append_right _ (List.mem_singleton_self e))).creatable ?_
  rw [ht]
  exact h.found

/-- Only the type `bool` is an integer. -/
theorem abiTypeToSqlType_eq_text (abiType : Text) :
    abiTypeToSqlType abiType = .text ↔ abiType ≠ "bool".toList := by
  unfold abiTypeToSqlType
  split
  · next h => exact iff_of_false (by simp) (not_not.2 h)
  · next h => exact iff_of_true rfl h

theorem mem_listed {evt : Event} (h : evt ∈ listed abi events) : evt.name ∈ events := by
  obtain ⟨name, hname, hfind⟩ := List.mem_filterMap.1 h
  have heq : evt.name = name := of_decide_eq_true (List.find?_some hfind :)
  exact heq ▸ hname

/-- The table of a log's event after the migration. -/
theorem migrated_eq_some_iff (hfresh : Fresh contractName events db) (hr : r.event.name ∈ events)
    {T : Table} : (createAll d contractName (listed abi events) db).tables
        (tableOf d contractName r.event.name) = some T ↔
      ∃ e, Makes d contractName (listed abi events) (tableOf d contractName r.event.name) e ∧
        T = newTable d e :=
  createAll_eq_some_iff (fun _ he => hfresh.tables d _ (mem_listed he)) (hfresh.tables d _ hr)

/-- The cells of a log that fits. -/
theorem FitsTable.cells (h : FitsTable d sql contractName abi events r)
    (hmakes : Makes d contractName (listed abi events) (tableOf d contractName r.event.name) e)
    {col : Text × SqlType} (hcol : col ∈ (newTable d e).columns) :
    (cell d sql r.fields col).isSome = true := by
  cases hfind : r.fields.find? (fun f => decide (column d f.name = col.1)) with
  | none =>
    rw [cell, hfind]
    rfl
  | some f =>
    have hf := List.mem_of_find?_eq_some hfind
    have hname : column d f.name = col.1 := of_decide_eq_true (List.find?_some hfind :)
    have htext : d = .postgresql → col.2 = .text := by
      intro hd
      obtain ⟨e', hmakes', hinputs⟩ := h.table
      obtain rfl := Option.some.inj (hmakes'.found.symm.trans hmakes.found)
      obtain ⟨i, hi, hiname, hbool⟩ := hinputs f hf
      have hmem : (column d i.name, abiTypeToSqlType i.type) ∈ (newTable d e').columns :=
        List.mem_map_of_mem hi
      have heq := List.inj_on_of_nodup_map (map_fst_newTable e' ▸ hmakes.creatable.1) hmem hcol
        (hiname.trans hname)
      rw [← heq]
      exact (abiTypeToSqlType_eq_text _).2 (hbool hd)
    rw [cell_of_mem hf h.distinct hname.symm htext]
    rfl

theorem FitsTable.accepts (h : FitsTable d sql contractName abi events r)
    (hfresh : Fresh contractName events db) (hr : r.event.name ∈ events) :
    ∃ T, Accepts d sql contractName (createAll d contractName (listed abi events) db) r T := by
  obtain ⟨e, hmakes, hinputs⟩ := h.table
  refine ⟨newTable d e, h.named, h.field, (migrated_eq_some_iff hfresh hr).2 ⟨e, hmakes, rfl⟩,
    fun f hf => ?_, h.sendable, h.range, fun col hcol => h.cells hmakes hcol⟩
  obtain ⟨i, hi, hname, -⟩ := hinputs f hf
  rw [map_fst_newTable, ← hname]
  exact List.mem_map_of_mem hi

/-- The answer, as the rows of the table. -/
theorem readRows_selectRows (desc : Bool) {limit : Nat} (hnamed : Named contractName r.event.name) {T : Table}
    (hT : db.tables (tableOf d contractName r.event.name) = some T)
    (hcol : ColumnNames d T.columns) (hrows : ∀ row ∈ T.rows, ∃ r, FromLog d sql T.columns r row)
    (hlimit : T.rows.length ≤ limit) :
    ∃ text, selectRows d sql contractName r.event.name desc limit db = some text ∧
      JsonRows.readRows text =
        some ((sql.arrange (desc || d == .postgresql) T.rows).map (members d sql)) := by
  have hperm := sql.arrange_perm (desc || d == .postgresql) T.rows
  refine ⟨_, by rw [selectRows, if_pos hnamed, hT, Option.map_some], ?_⟩
  rw [List.take_of_length_le (hperm.length_eq.trans_le hlimit)]
  exact readRows_rowText hcol fun row hrow => hrows row (hperm.subset hrow)

/-- **Backends with tables.** -/
theorem readBack_table_iff (hb : dialect b = some d) (hfresh : Fresh contractName events db)
    (hlogs : Logs abi events logs) :
    ReadBack b sql contractName abi events logs db ↔
      ∀ r ∈ logs, FitsTable d sql contractName abi events r := by
  have hmigrate : autoMigrateContract b contractName abi events db =
      createAll d contractName (listed abi events) db := by
    rw [autoMigrateContract, hb]
  have hempty : ∀ r ∈ logs, ∀ T, (createAll d contractName (listed abi events) db).tables
      (tableOf d contractName r.event.name) = some T → T.rows = [] := by
    intro r hr T hT
    obtain ⟨e, -, rfl⟩ := (migrated_eq_some_iff hfresh (hlogs.event r hr).2).1 hT
    rfl
  have hquery : ∀ (r : Received) desc limit db', queryEventLogs b sql contractName r.event.name desc limit db' =
      selectRows d sql contractName r.event.name desc limit db' := by
    intro r desc limit db'
    rw [queryEventLogs, hb]
  have hrun := insertAll_iff sql hb hempty Inserted.nil
  rw [ReadBack, hmigrate]
  constructor
  · rintro ⟨db', hinsert, hanswer⟩ r hr
    obtain ⟨hacc, hinserted⟩ := hrun.1 db' hinsert
    obtain ⟨T, hT⟩ := hacc r hr
    obtain ⟨e, hmakes, rfl⟩ := (migrated_eq_some_iff hfresh (hlogs.event r hr).2).1 hT.table
    obtain ⟨l, rows, htable, hrows, hl, -⟩ := hinserted.rows _ _ hT.table rfl
    have hlen : rows.length ≤ logs.length :=
      hrows.length_eq ▸ (hl.trans List.filter_sublist).length_le
    obtain ⟨text, hselect, hread⟩ := readRows_selectRows true hT.named htable
      (columnNames_newTable e) (fun row hrow => (exists_fromLog hrows hrow).imp fun _ h => h.2) hlen
    obtain ⟨text', out, row, hquery', hread', hfilter, hholds⟩ :=
      hanswer r hr true logs.length le_rfl
    rw [hquery, hselect] at hquery'
    obtain rfl := Option.some.inj hquery'
    rw [hread] at hread'
    obtain rfl := Option.some.inj hread'
    have hmem : row ∈ (sql.arrange (true || d == .postgresql) rows).map (members d sql) ∧
        isOf r row = true := List.mem_filter.1 (hfilter ▸ List.mem_singleton_self row)
    obtain ⟨tr, htr, rfl⟩ := List.mem_map.1 hmem.1
    obtain ⟨r', -, hfrom⟩ := exists_fromLog hrows ((sql.arrange_perm _ _).subset htr)
    have hfields := fun f hf => hfrom.of_holds hb hholds (f := f) hf
    have hdistinct := hholds.distinct
    simp only [fieldName, hb] at hdistinct
    refine ⟨hT.named, hT.field, ⟨e, hmakes, fun f hf => ?_⟩, hdistinct, ⟨?_, fun f hf =>
      (hfields f hf).1⟩, hT.sendable, hT.range⟩
    · obtain ⟨-, col, hcol, hname, htext⟩ := hfields f hf
      obtain ⟨i, hi, rfl⟩ := List.mem_map.1 hcol
      exact ⟨i, hi, hname, fun hd => (abiTypeToSqlType_eq_text _).1 (htext hd)⟩
    · rw [((hfrom.isOf_iff (columnNames_newTable e)).1 hmem.2).1]
      exact notMem_cut _
  · intro hfits
    obtain ⟨db', hinsert⟩ := hrun.2 fun r hr => (hfits r hr).accepts hfresh (hlogs.event r hr).2
    obtain ⟨hacc, hinserted⟩ := hrun.1 db' hinsert
    refine ⟨db', hinsert, fun r hr desc limit hlimit => ?_⟩
    have hfit := hfits r hr
    obtain ⟨T, hT⟩ := hacc r hr
    obtain ⟨e, hmakes, rfl⟩ := (migrated_eq_some_iff hfresh (hlogs.event r hr).2).1 hT.table
    obtain ⟨l, rows, htable, hrows, hl, hall⟩ := hinserted.rows _ _ hT.table rfl
    have hd : Distinct logs := ⟨hlogs.distinct, fun r' hr' => (hfits r' hr').plain.1⟩
    have hmem : r ∈ l := by
      rw [hall hd]
      exact List.mem_filter.2 ⟨hr, decide_eq_true rfl⟩
    have hlen : rows.length ≤ limit :=
      (hrows.length_eq ▸ (hl.trans List.filter_sublist).length_le).trans hlimit
    obtain ⟨text, hselect, hread⟩ := readRows_selectRows desc hT.named htable
      (columnNames_newTable e) (fun row hrow => (exists_fromLog hrows hrow).imp fun _ h => h.2) hlen
    obtain ⟨row, hfilter, hfrom⟩ := filter_isOf (columnNames_newTable e) hrows
      (hd.sublist (hl.trans List.filter_sublist)) hmem
    have hperm := (sql.arrange_perm (desc || d == .postgresql) rows).filter
      fun row => isOf r (members d sql row)
    rw [hfilter, List.perm_singleton] at hperm
    refine ⟨text, _, members d sql row, (hquery _ _ _ _).trans hselect, hread, ?_, ?_⟩
    · rw [List.filter_map]
      exact congrArg (List.map (members d sql)) hperm
    · refine hfrom.holds hb (map_fst_newTable e ▸ hmakes.creatable.1) hfit.distinct fun f hf => ?_
      obtain ⟨e', hmakes', hinputs⟩ := hfit.table
      obtain rfl := Option.some.inj (hmakes'.found.symm.trans hmakes.found)
      obtain ⟨i, hi, hname, hbool⟩ := hinputs f hf
      exact ⟨hfit.plain.2 f hf, _, List.mem_map_of_mem hi, hname,
        fun hd => (abiTypeToSqlType_eq_text _).2 (hbool hd)⟩

end Table

/-! ### RocksDB -/

section Rocks

variable (contractName) in
/-- **When RocksDB keeps a log.** -/
structure FitsKey (r : Received) : Prop where
  field : r.fields ≠ []
  distinct : (r.fields.map (·.name)).Nodup
  own : OwnFree r
  key : (rocksKey contractName r).length ≤ 512
  keyPrefix : (keyPrefix contractName r.event.name).length + 1 ≤ 256

variable {abi : List Event} {events : List Text} {logs S : List Received} {db : Database}

theorem eq_of_distinct (hlogs : Logs abi events logs) {r r' : Received} (hr : r ∈ logs)
    (hr' : r' ∈ logs) (h : r.log.transactionHash = r'.log.transactionHash ∧
      r.log.logIndex = r'.log.logIndex) : r = r' := by
  by_contra hne
  exact EventQuery.forall_of_pairwise hlogs.distinct
    (fun a b hab heq => hab ⟨heq.1.symm, heq.2.symm⟩) hr hr' hne h

theorem nodup_logs (hlogs : Logs abi events logs) : logs.Nodup :=
  hlogs.distinct.imp fun h => by
    rintro rfl
    exact h ⟨rfl, rfl⟩

/-- Values of logs with fields are read as rows. -/
theorem readRows_values (h : ∀ r ∈ S, r.fields ≠ []) :
    JsonRows.readRows (JsonRows.array (S.map fun r => EventQuery.eventValue (rocksEvent r))) =
      some (S.map rocksRow) := by
  have htexts : S.map (fun r => EventQuery.eventValue (rocksEvent r)) =
      (S.map rocksRow).map (JsonRows.object Text.escapeChar) := by
    rw [List.map_map]
    exact List.map_congr_left fun r hr => eventValue_eq (h r hr)
  rw [htexts]
  refine JsonRows.readRows_rows escapes_escapeChar fun row hrow m hm => ?_
  obtain ⟨r, -, rfl⟩ := List.mem_map.1 hrow
  exact numeric_rocksRow hm

/-- Values that are read are of logs with fields. -/
theorem fields_of_readRows {rows : List Row} (h : JsonRows.readRows (JsonRows.array
    (S.map fun r => EventQuery.eventValue (rocksEvent r))) = some rows) :
    ∀ r ∈ S, r.fields ≠ [] := by
  intro r hr hnil
  rw [JsonRows.readRows_bad ?_ ?_ (List.mem_map_of_mem hr) (readObject_eventValue_nil hnil)] at h
  · cases h
  · intro t ht
    obtain ⟨r', -, rfl⟩ := List.mem_map.1 ht
    by_cases hfields : r'.fields = []
    · exact .inr (readObject_eventValue_nil hfields)
    · exact .inl ⟨rocksRow r', readObject_eventValue hfields⟩
  · intro t ht
    obtain ⟨r', -, rfl⟩ := List.mem_map.1 ht
    exact opens_eventValue

/-- A survivor that is read back fits. -/
theorem ownFree_of_readBack {r : Received} {row : Row} (hr : r ∈ S)
    (hfilter : (S.map rocksRow).filter (isOf r) = [row]) (hholds : Holds .rocksdb r row) :
    (r.fields.map (·.name)).Nodup ∧ OwnFree r := by
  have hmem : rocksRow r ∈ (S.map rocksRow).filter (isOf r) :=
    List.mem_filter.2 ⟨List.mem_map_of_mem hr, isOf_rocksRow_self⟩
  rw [hfilter, List.mem_singleton] at hmem
  exact holds_rocksRow_iff.1 (hmem ▸ hholds)

/-- **RocksDB.** -/
theorem readBack_rocks_iff (hfresh : Fresh contractName events db)
    (hlogs : Logs abi events logs) :
    ReadBack .rocksdb sql contractName abi events logs db ↔
      (∀ r ∈ logs, FitsKey contractName r) ∧
        logs.Pairwise fun r r' => rocksKey contractName r ≠ rocksKey contractName r' := by
  have hrun := insertAll_rocks sql contractName logs db
  have hof : ∀ r ∈ survivors contractName logs, r ∈ ofEvent contractName r.event.name logs :=
    fun r hr => List.mem_filter.2 ⟨hr, inRange_rocksKey r⟩
  constructor
  · rintro ⟨db', hinsert, hanswer⟩
    obtain ⟨hkeys, hstore⟩ := hrun.1 db' hinsert
    -- what the answer for a log says of the keys in its range
    have hread : ∀ r ∈ logs, ∃ S : List Received, ∃ row,
        S.Perm (ofEvent contractName r.event.name logs) ∧ (∀ r' ∈ S, r'.fields ≠ []) ∧
        (keyPrefix contractName r.event.name).length + 1 ≤ 256 ∧
        (S.map rocksRow).filter (isOf r) = [row] ∧ Holds .rocksdb r row := by
      intro r hr
      obtain ⟨S, hS, hscan⟩ := scanRocks_eq hfresh (hlogs.event r hr).2 hstore
      obtain ⟨text, rows, row, hquery, htext, hfilter, hholds⟩ :=
        hanswer r hr true (max logs.length S.length) (le_max_left _ _)
      have hquery' : scanRocks contractName r.event.name (max logs.length S.length) db' =
          some text := hquery
      rw [hscan _ (le_max_right _ _)] at hquery'
      split at hquery'
      · next hprefix =>
        obtain rfl := Option.some.inj hquery'
        have hfields := fields_of_readRows htext
        rw [readRows_values hfields] at htext
        obtain rfl := Option.some.inj htext
        exact ⟨S, row, hS, hfields, hprefix, hfilter, hholds⟩
      · cases hquery'
    have hown : ∀ r ∈ survivors contractName logs, (r.fields.map (·.name)).Nodup ∧ OwnFree r := by
      intro r hr
      obtain ⟨S, row, hS, -, -, hfilter, hholds⟩ := hread r ((survivors_sublist logs).subset hr)
      exact ownFree_of_readBack (hS.symm.subset (hof r hr)) hfilter hholds
    have hsurvive : ∀ r ∈ logs, r ∈ survivors contractName logs := by
      intro r hr
      obtain ⟨S, row, hS, -, -, hfilter, -⟩ := hread r hr
      have hrow := List.mem_filter.1 (hfilter ▸ List.mem_singleton_self row)
      obtain ⟨r', hr', rfl⟩ := List.mem_map.1 hrow.1
      have hsurv := List.mem_of_mem_filter (hS.subset hr')
      have heq := eq_of_distinct hlogs hr ((survivors_sublist logs).subset hsurv)
        (isOf_rocksRow (hown r' hsurv).2 hrow.2)
      rw [heq]
      exact hsurv
    refine ⟨fun r hr => ?_, ?_⟩
    · obtain ⟨S, row, hS, hfields, hprefix, -⟩ := hread r hr
      have hsurv := hsurvive r hr
      exact ⟨hfields r (hS.symm.subset (hof r hsurv)), (hown r hsurv).1, (hown r hsurv).2,
        hkeys r hr, hprefix⟩
    · refine (nodup_logs hlogs).pairwise_of_forall_ne fun r hr r' hr' hne => ?_
      exact EventQuery.forall_of_pairwise (pairwise_survivors logs) (fun _ _ => Ne.symm)
        (hsurvive r hr) (hsurvive r' hr') hne
  · rintro ⟨hfits, hkeys⟩
    have hself : survivors contractName logs = logs := survivors_eq_self hkeys
    obtain ⟨db', hinsert⟩ := hrun.2 fun r hr => (hfits r hr).key
    obtain ⟨-, hstore⟩ := hrun.1 db' hinsert
    refine ⟨db', hinsert, fun r hr desc limit hlimit => ?_⟩
    obtain ⟨S, hS, hscan⟩ := scanRocks_eq hfresh (hlogs.event r hr).2 hstore
    have hsub : ∀ r' ∈ S, r' ∈ logs := fun r' hr' =>
      (survivors_sublist logs).subset (List.mem_of_mem_filter (hS.subset hr'))
    have hlen : S.length ≤ limit := by
      rw [hS.length_eq]
      exact (List.length_filter_le _ _).trans ((survivors_sublist logs).length_le.trans hlimit)
    have hmem : r ∈ S := hS.symm.subset (hof r (hself.symm ▸ hr))
    have hnodup : S.Nodup := hS.nodup_iff.2
      (((nodup_logs hlogs).sublist (survivors_sublist logs)).filter _)
    refine ⟨_, S.map rocksRow, rocksRow r, ?_, readRows_values fun r' hr' =>
      (hfits r' (hsub r' hr')).field, ?_,
      holds_rocksRow_iff.2 ⟨(hfits r hr).distinct, (hfits r hr).own⟩⟩
    · change scanRocks contractName r.event.name limit db' = _
      rw [hscan limit hlen, if_pos (hfits r hr).keyPrefix]
    · have hone : (S.filter fun r' => isOf r (rocksRow r')) = [r] := by
        rw [← List.perm_singleton]
        refine (List.perm_ext_iff_of_nodup (hnodup.filter _) (List.nodup_singleton r)).2 fun r' => ?_
        rw [List.mem_filter, List.mem_singleton]
        constructor
        · rintro ⟨hr', hof'⟩
          exact (eq_of_distinct hlogs hr (hsub r' hr')
            (isOf_rocksRow (hfits r' (hsub r' hr')).own hof')).symm
        · rintro rfl
          exact ⟨hmem, isOf_rocksRow_self⟩
      rw [List.filter_map]
      exact congrArg (List.map rocksRow) hone

end Rocks

/-! ### Every backend -/

section Backends

variable (sql contractName) in
/-- **When the logs of a contract are stored and read back.** -/
def Fits (b : Backend) (abi : List Event) (events : List Text) (logs : List Received) : Prop :=
  match dialect b with
  | none => (∀ r ∈ logs, FitsKey contractName r) ∧
      logs.Pairwise fun r r' => rocksKey contractName r ≠ rocksKey contractName r'
  | some d => ∀ r ∈ logs, FitsTable d sql contractName abi events r

/-- A backend that leaves the rows in their order, and has no integers. -/
def plainSql : Sql where
  affinity := .text
  integer _ := none
  integer_printed v s h := by cases h
  takes _ := true
  arrange _ rows := rows
  arrange_perm _ rows := List.Perm.refl rows
  createdAt := []

/-- `OwnershipTransferred(address indexed owner)` -/
def transferred : Event :=
  ⟨"OwnershipTransferred".toList, [⟨"owner".toList, "address".toList, true⟩]⟩

/-- `Paused()` -/
def paused : Event := ⟨"Paused".toList, []⟩

/-- A log of an event with at most one topic besides its own. -/
def oneLog (event : Event) (topics : List Text) : Received where
  event := event
  log := ⟨"0xc0".toList, topics, [], 7, "0xab".toList, 0, false⟩

theorem fresh_empty (events : List Text) : Fresh contractName events {} where
  tables _ _ _ := rfl
  store _ _ kv hkv := by cases hkv

theorem logs_oneLog (event : Event) (topics : List Text) :
    Logs [event] [event.name] [oneLog event topics] where
  event r hr := by
    rw [List.mem_singleton.1 hr]
    exact ⟨List.mem_singleton_self _, List.mem_singleton_self _⟩
  distinct := List.pairwise_singleton _ _

end Backends

end Zponder.EventTables

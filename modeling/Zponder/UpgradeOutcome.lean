import Zponder.UpgradeSound

/-!
# How an upgrade ends

A call ends with an error and everything as it was, or well in one of three ways
(`Zponder.TableUpgrade.migrate_cases`, `Zponder.TableUpgrade.pgMigrate_cases`): the
table is not found under its name and is left as it is, it has the column and the key
already and is left as it is, or it is built anew (SQLite) or changed (PostgreSQL).

What it is to do is `Zponder.TableUpgrade.Right`. A table that is left as it is may have rows
without an address. SQLite fills them when it builds the table anew, PostgreSQL only
when it adds the column. And a table that is built anew has lost what is in a column that
is spelled in another case, or that was not listed.
`Zponder.TableUpgrade.upgrade_right_iff` says when nothing of this happens.
-/

namespace Zponder.TableUpgrade

open Decode (Event)
open EventTables (tableName Named Creatable nameChar)

section Sqlite

variable {eng : Engine} {contractName : Text} {evt : Event} {contractAddress : Text}

/-! ### Three ways to end well -/

/-- The columns that the call reads. -/
def Env.seen (env : Env) (old : Table) : List Text := old.columns.take env.columnsSeen

/-- What the call makes of the statement. -/
def Env.uniqueOk (env : Env) (old : Table) : Bool :=
  match (if env.ddlSeen then old.ddl else none) with
  | none => false
  | some ddl => ddlHasAddressUnique ddl && !ddlHasLegacyUnique ddl

/-- The table is not found under its name, and is left to `createEventTable`. -/
def Unfound (contractName : Text) (evt : Event) (env : Env) (old : Table) : Prop :=
  old.name ≠ table contractName evt ∧ Named contractName evt.name ∧
    env.refuses .existsQuery = false ∧ env.refuses .make = false

/-- The table is found, and nothing is refused while it is looked at. -/
def Found (contractName : Text) (evt : Event) (env : Env) (old : Table) : Prop :=
  old.name = table contractName evt ∧ Named contractName evt.name ∧
    env.refuses .existsQuery = false ∧ env.refuses .columnsQuery = false ∧
    env.refuses .ddlQuery = false

/-- The table has the column and, by the words of its statement, the key. -/
def Settled (env : Env) (old : Table) : Prop :=
  addressColumn ∈ env.seen old ∧ env.uniqueOk old = true

instance (env : Env) (old : Table) : Decidable (Settled env old) := by
  unfold Settled
  infer_instance

/-- The table can be built anew. -/
def Rebuildable (eng : Engine) (evt : Event) (contractAddress : Text) (env : Env)
    (old : Table) : Prop :=
  env.Builds ∧ Creatable .sqlite evt ∧
    Insertable (copyRows eng evt contractAddress (env.seen old) old.rows)

theorem quote_notMem (h : Named contractName evt.name) : '\'' ∉ table contractName evt := by
  intro hmem
  have := List.all_eq_true.1 h _ hmem
  exact absurd this (by decide)

theorem paren_notMem_table (h : Named contractName evt.name) :
    '(' ∉ '"' :: table contractName evt ++ ['"'] := by
  have htable : '(' ∉ table contractName evt := fun hmem =>
    absurd (List.all_eq_true.1 h _ hmem) (by decide)
  simp [htable]

variable {env : Env} {store : Store} {old : Table}

theorem migrate_of_unfound (hold : store (key contractName evt) = some old)
    (h : Unfound contractName evt env old) :
    migrateEventTableAddress eng contractName evt contractAddress env store = (.ok (), store) := by
  obtain ⟨hname, hnamed, hexists, hmake⟩ := h
  simp [migrateEventTableAddress, sqliteTableExists, createEventTable, hold, hname, hnamed,
    hexists, hmake, quote_notMem hnamed]

theorem migrate_of_found (eng : Engine) (contractAddress : Text)
    (hold : store (key contractName evt) = some old)
    (h : Found contractName evt env old) :
    migrateEventTableAddress eng contractName evt contractAddress env store =
      if Settled env old then (.ok (), store)
      else transaction (rebuild eng contractName evt contractAddress env (env.seen old) old)
        store := by
  obtain ⟨hname, hnamed, hexists, hcolumns, hddl⟩ := h
  have hsettled : (decide (addressColumn ∈ env.seen old) && env.uniqueOk old) =
      decide (Settled env old) := by
    rw [Bool.eq_iff_iff, Bool.and_eq_true, decide_eq_true_iff, decide_eq_true_iff]
    exact Iff.rfl
  rw [migrateEventTableAddress, if_neg (by simp [hexists, quote_notMem hnamed]), hold]
  simp only [sqliteTableExists, hold, hname, decide_true, Bool.true_eq_false, if_false,
    hcolumns, hnamed, not_true_eq_false, or_self, hddl, Bool.false_eq_true]
  show (if (decide (addressColumn ∈ env.seen old) && env.uniqueOk old) = true then _ else _) = _
  rw [hsettled]
  exact if_congr decide_eq_true_iff rfl rfl

/-- A call that neither leaves the table to `createEventTable` nor finds it is refused. -/
theorem migrate_refused (eng : Engine) (contractAddress : Text)
    (hold : store (key contractName evt) = some old)
    (hunfound : ¬Unfound contractName evt env old) (hfound : ¬Found contractName evt env old) :
    ∃ e, migrateEventTableAddress eng contractName evt contractAddress env store =
      (.error e, store) := by
  by_cases hexists : env.refuses .existsQuery = true ∨ '\'' ∈ table contractName evt
  · exact ⟨_, if_pos hexists⟩
  · rw [migrateEventTableAddress, if_neg hexists, hold]
    push Not at hexists
    by_cases hname : old.name = table contractName evt
    · simp only [sqliteTableExists, hold, hname, decide_true, Bool.true_eq_false, if_false]
      by_cases hcolumns : env.refuses .columnsQuery = true ∨ ¬Named contractName evt.name
      · exact ⟨_, if_pos hcolumns⟩
      · push Not at hcolumns
        have hddl : env.refuses .ddlQuery = true := by
          by_contra hddl
          exact hfound ⟨hname, hcolumns.2, by simpa using hexists.1, by simpa using hcolumns.1,
            by simpa using hddl⟩
        simp [hcolumns.1, hcolumns.2, hddl]
    · simp only [sqliteTableExists, hold, hname, decide_false, if_true]
      have hmake : ¬(Named contractName evt.name ∧ env.refuses .make = false) := fun h =>
        hunfound ⟨hname, h.1, by simpa using hexists.1, h.2⟩
      exact ⟨_, if_neg hmake⟩

/-- The database after the table was built anew. -/
def rebuiltStore (eng : Engine) (contractName : Text) (evt : Event) (contractAddress : Text)
    (env : Env) (old : Table) (store : Store) : Store :=
  Function.update (Function.update store (newKey contractName evt) none)
    (key contractName evt)
    (some (rebuilt eng contractName evt contractAddress (env.seen old) old))

/-- **How a call ends**: well in one of three ways, or with an error and everything as it
was. -/
theorem migrate_cases (eng : Engine) (contractAddress : Text) (env : Env)
    (hold : store (key contractName evt) = some old) :
    (∃ e, migrateEventTableAddress eng contractName evt contractAddress env store =
        (.error e, store) ∧ ¬Unfound contractName evt env old ∧
        ¬(Found contractName evt env old ∧
          (Settled env old ∨ Rebuildable eng evt contractAddress env old))) ∨
      (Unfound contractName evt env old ∧
        migrateEventTableAddress eng contractName evt contractAddress env store =
          (.ok (), store)) ∨
      (Found contractName evt env old ∧ Settled env old ∧
        migrateEventTableAddress eng contractName evt contractAddress env store =
          (.ok (), store)) ∨
      (Found contractName evt env old ∧ ¬Settled env old ∧
        Rebuildable eng evt contractAddress env old ∧
        migrateEventTableAddress eng contractName evt contractAddress env store =
          (.ok (), rebuiltStore eng contractName evt contractAddress env old store)) := by
  by_cases hunfound : Unfound contractName evt env old
  · exact .inr (.inl ⟨hunfound, migrate_of_unfound hold hunfound⟩)
  by_cases hfound : Found contractName evt env old
  · have hmigrate := migrate_of_found eng contractAddress hold hfound
    by_cases hsettled : Settled env old
    · exact .inr (.inr (.inl ⟨hfound, hsettled, hmigrate.trans (if_pos hsettled)⟩))
    · rw [if_neg hsettled] at hmigrate
      by_cases hbuild : Rebuildable eng evt contractAddress env old
      · have hok : rebuild eng contractName evt contractAddress env (env.seen old) old store =
            .ok (rebuiltStore eng contractName evt contractAddress env old store) :=
          rebuild_ok.2 ⟨hbuild.1, hbuild.2.1, hbuild.2.2, rfl⟩
        exact .inr (.inr (.inr ⟨hfound, hsettled, hbuild,
          hmigrate.trans (transaction_of_ok hok)⟩))
      · refine .inl ?_
        rcases hsteps : rebuild eng contractName evt contractAddress env (env.seen old) old store
          with e | store'
        · refine ⟨e, by rw [hmigrate, transaction, hsteps], hunfound, fun h => ?_⟩
          rcases h.2 with h | h
          · exact hsettled h
          · exact hbuild h
        · obtain ⟨hbuilds, hcreate, hinsert, -⟩ := rebuild_ok.1 hsteps
          exact absurd ⟨hbuilds, hcreate, hinsert⟩ hbuild
  · obtain ⟨e, he⟩ := migrate_refused eng contractAddress hold hunfound hfound
    exact .inl ⟨e, he, hunfound, fun h => hfound h.1⟩

/-! ### What SQLite does -/

/-- The addresses of a table are there, and it has the new key and not the old one. -/
structure Already (contractAddress : Text) (t : Table) : Prop where
  column : addressColumn ∈ t.folded
  filled : Filled contractAddress t.rows
  new : addressKey ∈ t.keys
  legacy : legacyKey ∉ t.keys

/-- The call lists every column and hands over the statement. -/
def Env.Whole (env : Env) (t : Table) : Prop :=
  t.columns.length ≤ env.columnsSeen ∧ env.ddlSeen = true

/-- **What an upgrade is to do in SQLite**: a call that fails changes nothing; one that does not
leaves every row, with its values and its address, in a table with the new key and without
the old one; and another call changes nothing. -/
def RightSqlite (eng : Engine) (contractName : Text) (evt : Event) (contractAddress : Text)
    (env : Env) (store : Store) : Prop :=
  ∀ old, store (key contractName evt) = some old →
    let call (env : Env) (store : Store) :=
      migrateEventTableAddress eng contractName evt contractAddress env store
    (∀ e, (call env store).1 = .error e → (call env store).2 = store) ∧
      ((call env store).1 = .ok () → ∃ new, (call env store).2 (key contractName evt) = some new ∧
        Upgraded old.folded evt contractAddress old.rows new.rows ∧
        addressColumn ∈ new.folded ∧ addressKey ∈ new.keys ∧ legacyKey ∉ new.keys ∧
        ∀ env' : Env, env'.Whole new → (call env' (call env store).2).2 = (call env store).2)

/-- The condition: a table that is left as it is has its addresses and its key, and one that is
built anew keeps what it has. -/
def SuitsSqlite (eng : Engine) (contractName : Text) (evt : Event) (contractAddress : Text)
    (env : Env) (store : Store) : Prop :=
  ∀ old, store (key contractName evt) = some old →
    (Unfound contractName evt env old ∨ Found contractName evt env old ∧ Settled env old →
      Already contractAddress old) ∧
    (Found contractName evt env old → ¬Settled env old →
      Rebuildable eng evt contractAddress env old → ∀ i r, old.rows[i]? = some r →
        Keeps eng evt contractAddress (env.seen old) old.folded i r)

/-- A column that is read and in lower case is one for SQL. -/
theorem folded_of_seen {c : Text} (hc : Text.lower c = c) (h : c ∈ env.seen old) :
    c ∈ old.folded := by
  have hmem := List.mem_of_mem_take h
  exact List.mem_map.2 ⟨c, hmem, hc⟩

theorem lower_address : Text.lower addressColumn = addressColumn := by decide

/-- A call that does not build anew leaves everything as it was. -/
theorem migrate_unchanged (hold : store (key contractName evt) = some old)
    (h : Found contractName evt env old → Settled env old) :
    (migrateEventTableAddress eng contractName evt contractAddress env store).2 = store := by
  rcases migrate_cases eng contractAddress env hold with
    ⟨e, he, -⟩ | ⟨-, hok⟩ | ⟨-, -, hok⟩ | ⟨hfound, hnot, -⟩
  · rw [he]
  · rw [hok]
  · rw [hok]
  · exact absurd (h hfound) hnot

/-- What is settled stays so when everything is read. -/
theorem Settled.whole {env' : Env} (h : Settled env old) (hwhole : env'.Whole old) :
    Settled env' old := by
  obtain ⟨hseen, hunique⟩ := h
  refine ⟨?_, ?_⟩
  · rw [Env.seen, List.take_of_length_le hwhole.1]
    exact List.mem_of_mem_take hseen
  · unfold Env.uniqueOk at hunique ⊢
    rw [if_pos hwhole.2]
    cases hddl : env.ddlSeen
    · simp [hddl] at hunique
    · simpa [hddl] using hunique

/-- A table that was built anew is settled. -/
theorem settled_rebuilt {seen : List Text} {env' : Env} (hnamed : Named contractName evt.name)
    (hwhole : env'.Whole (rebuilt eng contractName evt contractAddress seen old)) :
    Settled env' (rebuilt eng contractName evt contractAddress seen old) := by
  refine ⟨?_, ?_⟩
  · rw [Env.seen, List.take_of_length_le hwhole.1]
    show addressColumn ∈ (newColumns evt).map Prod.fst
    simp [newColumns]
  · unfold Env.uniqueOk
    rw [if_pos hwhole.2]
    simp only [rebuilt, ddlHasAddressUnique_ddlOf,
      ddlHasLegacyUnique_ddlOf evt (paren_notMem_table hnamed)]
    rfl

/-- A table that is left as it is. -/
theorem left_iff (eng : Engine) (contractAddress : Text)
    (hunread : Unfound contractName evt env old ∨
    Found contractName evt env old ∧ Settled env old)
    (hold : store (key contractName evt) = some old) :
    (∃ new, store (key contractName evt) = some new ∧
      Upgraded old.folded evt contractAddress old.rows new.rows ∧
      addressColumn ∈ new.folded ∧ addressKey ∈ new.keys ∧ legacyKey ∉ new.keys ∧
      ∀ env' : Env, env'.Whole new →
        (migrateEventTableAddress eng contractName evt contractAddress env' store).2 = store) ↔
      Already contractAddress old := by
  constructor
  · rintro ⟨new, hnew, hrows, hcolumn, hkey, hlegacy, -⟩
    obtain rfl : old = new := Option.some.inj (hold.symm.trans hnew)
    exact ⟨hcolumn, (upgraded_self_iff hcolumn).1 hrows, hkey, hlegacy⟩
  · rintro ⟨hcolumn, hfilled, hkey, hlegacy⟩
    refine ⟨old, hold, (upgraded_self_iff hcolumn).2 hfilled, hcolumn, hkey, hlegacy,
      fun env' hwhole => migrate_unchanged hold fun hfound => ?_⟩
    rcases hunread with hunfound | ⟨-, hsettled⟩
    · exact absurd hfound.1 hunfound.1
    · exact hsettled.whole hwhole

/-- **SQLite** does what it is to do exactly under the condition. -/
theorem rightSqlite_iff : RightSqlite eng contractName evt contractAddress env store ↔
    SuitsSqlite eng contractName evt contractAddress env store := by
  refine forall₂_congr fun old hold => ?_
  rcases migrate_cases eng contractAddress env hold with
    ⟨e, he, hunfound, hnot⟩ | ⟨hunfound, hok⟩ | ⟨hfound, hsettled, hok⟩ |
      ⟨hfound, hsettled, hbuild, hok⟩
  · simp only [he]
    refine ⟨fun _ => ⟨?_, ?_⟩, fun _ => ⟨fun _ _ => trivial, fun h => by simp at h⟩⟩
    · rintro (h | h)
      · exact absurd h hunfound
      · exact absurd ⟨h.1, .inl h.2⟩ hnot
    · exact fun h _ hbuild => absurd ⟨h, .inr hbuild⟩ hnot
  · simp only [hok]
    rw [← left_iff eng contractAddress (.inl hunfound) hold]
    refine ⟨fun h => ⟨fun _ => h.2 trivial, fun hfound => absurd hfound.1 hunfound.1⟩,
      fun h => ⟨fun e he => by simp at he, fun _ => h.1 (.inl hunfound)⟩⟩
  · simp only [hok]
    have hleft : Unfound contractName evt env old ∨
        Found contractName evt env old ∧ Settled env old := .inr ⟨hfound, hsettled⟩
    rw [← left_iff eng contractAddress hleft hold]
    exact ⟨fun h => ⟨fun _ => h.2 trivial, fun _ hnot => absurd hsettled hnot⟩,
      fun h => ⟨fun e he => by simp at he, fun _ => h.1 hleft⟩⟩
  · simp only [hok]
    have hseen : addressColumn ∈ env.seen old → addressColumn ∈ old.folded :=
      folded_of_seen lower_address
    have hrows : Upgraded old.folded evt contractAddress old.rows
        (copyRows eng evt contractAddress (env.seen old) old.rows) ↔ _ := upgraded_iff hseen
    have hself : rebuiltStore eng contractName evt contractAddress env old store
        (key contractName evt) =
          some (rebuilt eng contractName evt contractAddress (env.seen old) old) :=
      Function.update_self ..
    constructor
    · rintro ⟨-, h⟩
      refine ⟨?_, fun _ _ _ => ?_⟩
      · rintro (h | h)
        · exact absurd hfound.1 h.1
        · exact absurd h.2 hsettled
      · obtain ⟨new, hnew, hupgraded, -⟩ := h trivial
        obtain rfl := Option.some.inj (hself.symm.trans hnew)
        exact hrows.1 hupgraded
    · rintro ⟨-, h⟩
      refine ⟨fun e he => by simp at he, fun _ => ⟨_, hself, hrows.2 (h hfound hsettled hbuild),
        ?_, List.mem_singleton_self _, ?_, fun env' hwhole => ?_⟩⟩
      · refine List.mem_map.2 ⟨addressColumn, ?_, lower_address⟩
        show addressColumn ∈ (newColumns evt).map Prod.fst
        simp [newColumns]
      · show legacyKey ∉ [addressKey]
        decide
      · exact migrate_unchanged hself fun _ => settled_rebuilt hfound.2.1 hwhole

end Sqlite

/-! ### What PostgreSQL does -/

section Pg

variable {contractName : Text} {evt : Event} {contractAddress : Text} {env : PgEnv}
  {old : PgTable}

/-- The table is not found by its whole name, and is left to `createEventTablePG`. -/
def PgUnfound (contractName : Text) (evt : Event) (env : PgEnv) (old : PgTable) : Prop :=
  old.name ≠ Text.lower (table contractName evt) ∧ Named contractName evt.name ∧
    env .find = false ∧ env .make = false

/-- The table is found, and nothing is refused while it is looked at. -/
def PgFound (contractName : Text) (evt : Event) (env : PgEnv) (old : PgTable) : Prop :=
  old.name = Text.lower (table contractName evt) ∧ env .find = false ∧ env .address = false ∧
    env .keys = false

/-- The table has the column and the key, and not the old one. -/
def PgSettled (old : PgTable) : Prop :=
  old.hasAddress = true ∧ old.hasTarget = true ∧ old.hasStale = false

/-- The table with the column, filled. -/
def withAddress (contractAddress : Text) (old : PgTable) : PgTable :=
  if old.hasAddress then old else old.addColumn.fill contractAddress

/-- The table with the key. -/
def withKey (old t : PgTable) : PgTable :=
  if old.hasTarget && !old.hasStale then t
  else { t with constraints := (t.constraints.filter fun d => !isStale d) ++
    if old.hasTarget then [] else [addressDefinition] }

/-- The table can be changed. -/
def Alterable (contractName : Text) (evt : Event) (contractAddress : Text) (env : PgEnv)
    (old : PgTable) : Prop :=
  env .begin = false ∧
    (old.hasAddress = false → env .addColumn = false ∧ env .fill = false) ∧
    ((old.hasTarget && !old.hasStale) = false → env .alter = false) ∧
    (old.hasTarget = false → Named contractName evt.name ∧
      (withAddress contractAddress old).Addable) ∧
    env .commit = false

theorem ensureAddress_ok {t : PgTable} : ensureAddress contractAddress env old = .ok t ↔
    (old.hasAddress = false → env .addColumn = false ∧ env .fill = false) ∧
      withAddress contractAddress old = t := by
  unfold ensureAddress withAddress
  cases old.hasAddress
  · simp [pgCall_bind_ok, pure, Except.pure, and_assoc]
  · simp

theorem ensureKey_ok {t new : PgTable} : ensureKey contractName evt env old t = .ok new ↔
    ((old.hasTarget && !old.hasStale) = false → env .alter = false) ∧
      (old.hasTarget = false → Named contractName evt.name ∧ t.Addable) ∧
      withKey old t = new := by
  unfold ensureKey withKey
  cases htarget : old.hasTarget
  · by_cases hadd : Named contractName evt.name ∧ t.Addable
    · simp [pgCall_bind_ok, hadd, pure, Except.pure]
    · have hthrow : (throw .ExecFailed : Except Err PgTable) ≠ .ok new := by
        intro h
        simp [throw, throwThe, MonadExceptOf.throw] at h
      simp only [Bool.false_and, Bool.false_eq_true, if_false, pgCall_bind_ok,
        hthrow, and_false, forall_const, hadd, false_and]
  · cases hstale : old.hasStale
    · simp
    · simp [pgCall_bind_ok, pure, Except.pure]

/-- **The change**, when nothing is refused. -/
theorem alter_ok {new : PgTable} : alter contractName evt contractAddress env old = .ok new ↔
    Alterable contractName evt contractAddress env old ∧
      withKey old (withAddress contractAddress old) = new := by
  have hbind {α : Type} {x : Except Err PgTable} {f : PgTable → Except Err α} {a : α} :
      (x >>= f) = .ok a ↔ ∃ t, x = .ok t ∧ f t = .ok a := by
    cases x <;> simp [bind, Except.bind]
  simp only [alter, pgCall_bind_ok, hbind, ensureAddress_ok, ensureKey_ok, pure, Except.pure,
    Except.ok.injEq, Alterable]
  constructor
  · rintro ⟨hbegin, t, ⟨haddress, rfl⟩, t', ⟨halter, hadd, rfl⟩, hcommit, rfl⟩
    exact ⟨⟨hbegin, haddress, halter, hadd, hcommit⟩, rfl⟩
  · rintro ⟨⟨hbegin, haddress, halter, hadd, hcommit⟩, rfl⟩
    exact ⟨hbegin, _, ⟨haddress, rfl⟩, _, ⟨halter, hadd, rfl⟩, hcommit, rfl⟩

/-! #### The table that is changed -/

theorem isTarget_addressDefinition : isTarget addressDefinition = true := by decide

theorem isStale_addressDefinition : isStale addressDefinition = false := by decide

/-- What the new key is called is not what the old one is called. -/
theorem not_stale_of_target {d : Text} (h : isTarget d = true) : isStale d = false := by
  have htarget : normalizeSql d = addressUnique := of_decide_eq_true h
  refine decide_eq_false ?_
  rw [htarget]
  decide

@[simp] theorem withKey_columns (old t : PgTable) : (withKey old t).columns = t.columns := by
  unfold withKey
  split <;> rfl

@[simp] theorem withKey_rows (old t : PgTable) : (withKey old t).rows = t.rows := by
  unfold withKey
  split <;> rfl

@[simp] theorem withKey_name (old t : PgTable) : (withKey old t).name = t.name := by
  unfold withKey
  split <;> rfl

@[simp] theorem withAddress_name : (withAddress contractAddress old).name = old.name := by
  unfold withAddress
  split <;> rfl

@[simp] theorem withAddress_constraints :
    (withAddress contractAddress old).constraints = old.constraints := by
  unfold withAddress
  split <;> rfl

/-- The constraints after the change: the new key is among them, the old one is not. -/
theorem withKey_constraints {t : PgTable} (h : t.constraints = old.constraints) :
    (withKey old t).constraints.any isTarget = true ∧
      (withKey old t).constraints.any isStale = false := by
  have htarget : old.hasTarget = old.constraints.any isTarget := rfl
  have hstale : old.hasStale = old.constraints.any isStale := rfl
  unfold withKey
  split
  · next hkept =>
    rw [Bool.and_eq_true, Bool.not_eq_true', htarget, hstale, ← h] at hkept
    exact hkept
  · rw [List.any_append, List.any_append, h]
    have hfilter : (old.constraints.filter fun d => !isStale d).any isStale = false := by
      simp [List.any_eq_false]
    rw [hfilter]
    cases ht : old.hasTarget
    · exact ⟨by simp [isTarget_addressDefinition], by simp [isStale_addressDefinition]⟩
    · obtain ⟨d, hd, hdt⟩ := List.any_eq_true.1 (htarget.symm.trans ht)
      have hmem : d ∈ old.constraints.filter fun d => !isStale d :=
        List.mem_filter.2 ⟨hd, by simp [not_stale_of_target hdt]⟩
      exact ⟨by simpa using ⟨d, List.mem_filter.1 hmem |>.1, by simp [not_stale_of_target hdt],
        hdt⟩, by simp⟩

/-- A table that was changed is settled. -/
theorem settled_altered : PgSettled (withKey old (withAddress contractAddress old)) := by
  refine ⟨?_, withKey_constraints withAddress_constraints⟩
  rw [PgTable.hasAddress, withKey_columns, decide_eq_true_iff]
  cases h : old.hasAddress
  · rw [withAddress, h]
    exact List.mem_append_right _ (List.mem_singleton_self _)
  · rw [withAddress, h]
    exact of_decide_eq_true h

/-- Rows that get the column are filled. -/
theorem upgraded_fill (h : old.hasAddress = false) :
    Upgraded old.columns evt contractAddress old.rows
      (old.addColumn.fill contractAddress).rows := by
  have hcols : addressColumn ∉ old.columns := by simpa [PgTable.hasAddress] using h
  simp only [Upgraded, PgTable.fill, PgTable.addColumn, List.map_map, List.forall₂_map_right_iff,
    List.forall₂_same]
  intro r _
  simp only [Function.comp, Function.update_self, if_true, Function.update_idem]
  refine ⟨rfl, fun c hc _ => ?_, ?_⟩
  · exact Function.update_of_ne (ne_of_mem_eventColumns hc).1 _ _
  · rw [if_neg hcols]
    exact Function.update_self addressColumn (Value.text contractAddress) r.cells

/-! #### How a call ends -/

theorem pgMigrate_of_unfound (h : PgUnfound contractName evt env old) :
    migrateEventTableAddressPG contractName evt contractAddress env old = (.ok (), old) := by
  obtain ⟨hname, hnamed, hfind, hmake⟩ := h
  simp [migrateEventTableAddressPG, createEventTablePG, hname, hnamed, hfind, hmake]

instance (old : PgTable) : Decidable (PgSettled old) := by
  unfold PgSettled
  infer_instance

theorem pgMigrate_of_found (h : PgFound contractName evt env old) :
    migrateEventTableAddressPG contractName evt contractAddress env old =
      if PgSettled old then (.ok (), old)
      else transaction (alter contractName evt contractAddress env) old := by
  obtain ⟨hname, hfind, haddress, hkeys⟩ := h
  have hsettled : (old.hasAddress && old.hasTarget && !old.hasStale) = true ↔ PgSettled old := by
    simp [PgSettled, and_assoc]
  simp only [migrateEventTableAddressPG, hfind, hname, haddress, hkeys, Bool.false_eq_true,
    if_false, ne_eq, not_true_eq_false]
  exact if_congr hsettled rfl rfl

/-- **How a call ends**: well in one of three ways, or with an error and the table as it
was. -/
theorem pgMigrate_cases (contractName : Text) (evt : Event) (contractAddress : Text)
    (env : PgEnv) (old : PgTable) :
    (∃ e, migrateEventTableAddressPG contractName evt contractAddress env old =
        (.error e, old) ∧ ¬PgUnfound contractName evt env old ∧
        ¬(PgFound contractName evt env old ∧
          (PgSettled old ∨ Alterable contractName evt contractAddress env old))) ∨
      (PgUnfound contractName evt env old ∧
        migrateEventTableAddressPG contractName evt contractAddress env old = (.ok (), old)) ∨
      (PgFound contractName evt env old ∧ PgSettled old ∧
        migrateEventTableAddressPG contractName evt contractAddress env old = (.ok (), old)) ∨
      (PgFound contractName evt env old ∧ ¬PgSettled old ∧
        Alterable contractName evt contractAddress env old ∧
        migrateEventTableAddressPG contractName evt contractAddress env old =
          (.ok (), withKey old (withAddress contractAddress old))) := by
  by_cases hunfound : PgUnfound contractName evt env old
  · exact .inr (.inl ⟨hunfound, pgMigrate_of_unfound hunfound⟩)
  by_cases hfound : PgFound contractName evt env old
  · have hmigrate : migrateEventTableAddressPG contractName evt contractAddress env old = _ :=
      pgMigrate_of_found hfound
    by_cases hsettled : PgSettled old
    · exact .inr (.inr (.inl ⟨hfound, hsettled, hmigrate.trans (if_pos hsettled)⟩))
    · rw [if_neg hsettled] at hmigrate
      rcases hsteps : alter contractName evt contractAddress env old with e | new
      · refine .inl ⟨e, by rw [hmigrate, transaction, hsteps], hunfound, fun h => ?_⟩
        rcases h.2 with h | h
        · exact hsettled h
        · have := alter_ok.2 ⟨h, rfl⟩
          simp [this] at hsteps
      · obtain ⟨halter, rfl⟩ := alter_ok.1 hsteps
        exact .inr (.inr (.inr ⟨hfound, hsettled, halter,
          hmigrate.trans (transaction_of_ok hsteps)⟩))
  · refine .inl ?_
    have herror : ∃ e, migrateEventTableAddressPG contractName evt contractAddress env old =
        (.error e, old) := by
      by_cases hfind : env .find = true
      · exact ⟨_, if_pos hfind⟩
      rw [migrateEventTableAddressPG, if_neg hfind]
      by_cases hname : old.name = Text.lower (table contractName evt)
      · rw [if_neg (not_not.2 hname)]
        by_cases haddress : env .address = true
        · exact ⟨_, if_pos haddress⟩
        · by_cases hkeys : env .keys = true
          · exact ⟨_, by rw [if_neg haddress, if_pos hkeys]⟩
          · exact absurd ⟨hname, by simpa using hfind, by simpa using haddress,
              by simpa using hkeys⟩ hfound
      · rw [if_pos hname]
        have hmake : ¬(Named contractName evt.name ∧ env .make = false) := fun h =>
          hunfound ⟨hname, h.1, by simpa using hfind, h.2⟩
        exact ⟨_, if_neg hmake⟩
    obtain ⟨e, he⟩ := herror
    exact ⟨e, he, hunfound, fun h => hfound h.1⟩

/-- The addresses of a table are there, and it has the new key and not the old one. -/
structure PgAlready (contractAddress : Text) (t : PgTable) : Prop where
  settled : PgSettled t
  filled : Filled contractAddress t.rows

/-- **What an upgrade is to do in PostgreSQL.** -/
def RightPg (contractName : Text) (evt : Event) (contractAddress : Text) (env : PgEnv)
    (old : PgTable) : Prop :=
  let call (env : PgEnv) (t : PgTable) :=
    migrateEventTableAddressPG contractName evt contractAddress env t
  (∀ e, (call env old).1 = .error e → (call env old).2 = old) ∧
    ((call env old).1 = .ok () →
      Upgraded old.columns evt contractAddress old.rows (call env old).2.rows ∧
      addressColumn ∈ (call env old).2.columns ∧
      (call env old).2.constraints.any isTarget = true ∧
      (call env old).2.constraints.any isStale = false ∧
      ∀ env', (call env' (call env old).2).2 = (call env old).2)

/-- The condition: a table that is not found has its addresses and its key, and one that has the
column already has its addresses. -/
def SuitsPg (contractName : Text) (evt : Event) (contractAddress : Text) (env : PgEnv)
    (old : PgTable) : Prop :=
  (PgUnfound contractName evt env old → PgAlready contractAddress old) ∧
    (PgFound contractName evt env old → addressColumn ∈ old.columns →
      PgSettled old ∨ Alterable contractName evt contractAddress env old →
        Filled contractAddress old.rows)

/-- A call on a table that is settled or not found leaves it as it was. -/
theorem pgMigrate_unchanged {t : PgTable}
    (h : t.name = Text.lower (table contractName evt) → PgSettled t) (env : PgEnv) :
    (migrateEventTableAddressPG contractName evt contractAddress env t).2 = t := by
  rcases pgMigrate_cases contractName evt contractAddress env t with
    ⟨e, he, -⟩ | ⟨-, hok⟩ | ⟨-, -, hok⟩ | ⟨hfound, hnot, -⟩
  · rw [he]
  · rw [hok]
  · rw [hok]
  · exact absurd (h hfound.1) hnot

/-- **PostgreSQL** does what it is to do exactly under the condition. -/
theorem rightPg_iff : RightPg contractName evt contractAddress env old ↔
    SuitsPg contractName evt contractAddress env old := by
  have hcolumn : addressColumn ∈ old.columns ↔ old.hasAddress = true := by
    simp [PgTable.hasAddress]
  rcases pgMigrate_cases contractName evt contractAddress env old with
    ⟨e, he, hunfound, hnot⟩ | ⟨hunfound, hok⟩ | ⟨hfound, hsettled, hok⟩ |
      ⟨hfound, hsettled, halter, hok⟩
  · simp only [RightPg, SuitsPg, he]
    exact ⟨fun _ => ⟨fun h => absurd h hunfound, fun h _ hor => absurd ⟨h, hor⟩ hnot⟩,
      fun _ => ⟨fun _ _ => trivial, fun h => by simp at h⟩⟩
  · simp only [RightPg, SuitsPg, hok]
    constructor
    · rintro ⟨-, h⟩
      obtain ⟨hrows, hcol, htarget, hstale, -⟩ := h trivial
      exact ⟨fun _ => ⟨⟨hcolumn.1 hcol, htarget, hstale⟩, (upgraded_self_iff hcol).1 hrows⟩,
        fun hfound => absurd hfound.1 hunfound.1⟩
    · rintro ⟨h, -⟩
      obtain ⟨⟨haddress, htarget, hstale⟩, hfilled⟩ := h hunfound
      have hcol := hcolumn.2 haddress
      exact ⟨fun e he => by simp at he, fun _ => ⟨(upgraded_self_iff hcol).2 hfilled, hcol,
        htarget, hstale, pgMigrate_unchanged fun hname => absurd hname hunfound.1⟩⟩
  · simp only [RightPg, SuitsPg, hok]
    have hcol := hcolumn.2 hsettled.1
    constructor
    · rintro ⟨-, h⟩
      exact ⟨fun hunfound => absurd hfound.1 hunfound.1,
        fun _ _ _ => (upgraded_self_iff hcol).1 (h trivial).1⟩
    · rintro ⟨-, h⟩
      exact ⟨fun e he => by simp at he, fun _ => ⟨(upgraded_self_iff hcol).2
        (h hfound hcol (.inl hsettled)), hcol, hsettled.2.1, hsettled.2.2,
        pgMigrate_unchanged fun _ => hsettled⟩⟩
  · simp only [RightPg, SuitsPg, hok]
    have hdone : PgSettled (withKey old (withAddress contractAddress old)) := settled_altered
    have hrows : Upgraded old.columns evt contractAddress old.rows
        (withKey old (withAddress contractAddress old)).rows ↔
          (addressColumn ∈ old.columns → Filled contractAddress old.rows) := by
      rw [withKey_rows, withAddress, hcolumn]
      cases h : old.hasAddress
      · simp [upgraded_fill h]
      · simpa using upgraded_self_iff (hcolumn.2 h)
    constructor
    · rintro ⟨-, h⟩
      exact ⟨fun hunfound => absurd hfound.1 hunfound.1, fun _ hcol _ => hrows.1 (h trivial).1 hcol⟩
    · rintro ⟨-, h⟩
      exact ⟨fun e he => by simp at he, fun _ => ⟨hrows.2 fun hcol => h hfound hcol (.inr halter),
        of_decide_eq_true hdone.1, hdone.2.1, hdone.2.2, pgMigrate_unchanged fun _ => hdone⟩⟩

end Pg

/-! ### Both databases -/

section Both

variable (eng : Engine) (contractName : Text) (evt : Event) (contractAddress : Text) (env : Env)
  (pgEnv : PgEnv) (store : Store) (t : PgTable)

/-- **What an upgrade is to do**: each database does what it is to do, and two tables with the
same columns and rows have the same rows afterwards, as far as the event has columns. -/
structure Right : Prop where
  sqlite : RightSqlite eng contractName evt contractAddress env store
  pg : RightPg contractName evt contractAddress pgEnv t
  same : ∀ old new, store (key contractName evt) = some old →
    old.folded = t.columns → old.rows = t.rows →
    (migrateEventTableAddress eng contractName evt contractAddress env store).1 = .ok () →
    (migrateEventTableAddressPG contractName evt contractAddress pgEnv t).1 = .ok () →
    (migrateEventTableAddress eng contractName evt contractAddress env store).2
      (key contractName evt) = some new →
    List.Forall₂ (fun a b => a.id = b.id ∧
        (∀ c ∈ eventColumns evt, c ∈ t.columns → a.cells c = b.cells c) ∧
        a.cells addressColumn = b.cells addressColumn)
      new.rows (migrateEventTableAddressPG contractName evt contractAddress pgEnv t).2.rows

/-- The condition. -/
structure Suits : Prop where
  sqlite : SuitsSqlite eng contractName evt contractAddress env store
  pg : SuitsPg contractName evt contractAddress pgEnv t

end Both

/-- A table with the column and the old key, and a row without an address. -/
def unfilled : PgTable where
  name := "event_dai_transfer".toList
  columns := [idColumn, blockColumn, txColumn, indexColumn, addressColumn, createdColumn]
  constraints := ["UNIQUE (tx_hash, log_index)".toList]
  rows := [⟨1, fun c => if c = addressColumn then .text [] else .integer 7⟩]

/-- The same table in SQLite. -/
def unfilledStore : Store := fun k =>
  if k = "event_dai_transfer".toList then
    some {
      name := "event_dai_Transfer".toList
      columns := unfilled.columns
      ddl := some "CREATE TABLE event_dai_Transfer (…, UNIQUE(tx_hash, log_index))".toList
      keys := [legacyKey]
      rows := unfilled.rows }
  else none

end Zponder.TableUpgrade

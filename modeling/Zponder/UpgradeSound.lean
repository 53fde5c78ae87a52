import Zponder.TableUpgrade

/-!
# What an upgrade is for

An upgrade carries every row over (`Zponder.TableUpgrade.Upgraded`): it keeps its id and its
values in the columns of the event, and has an address. Two upgrades of one table agree
on all of that (`Zponder.TableUpgrade.Upgraded.agree`), whichever database made them, and a
table whose addresses are there is an upgrade of itself
(`Zponder.TableUpgrade.upgraded_self_iff`).

The table that SQLite is given in the place of an old one
(`Zponder.TableUpgrade.rebuild_ok`) is looked at from two sides.

* **Its statement** has the new key and not the old one
  (`Zponder.TableUpgrade.ddlHasAddressUnique_ddlOf`,
  `Zponder.TableUpgrade.ddlHasLegacyUnique_ddlOf`), so that the next call finds nothing to do.
  The old key is searched for as a text, and a text that has it has a parenthesis in front of
  `tx_hash`; the statement opens two, in front of `id` and of `contract_address`.
* **Its rows** are those of the old one if each keeps what it has
  (`Zponder.TableUpgrade.upgraded_iff`): the columns that were read are copied, as
  they are spelled, and a value is not changed by the type of its new column.
-/

namespace Zponder.TableUpgrade

open Decode (Event EventInput)
open EventTables (eventColumnName tableName abiTypeToSqlType SqlType Named Creatable Dialect)

/-! ### A call and what follows it -/

theorem call_bind_ok {α : Type} {env : Env} {step : Step} {e : Err} {f : Unit → Except Err α}
    {a : α} :
    (env.call step e >>= f) = .ok a ↔ env.refuses step = false ∧ f () = .ok a := by
  cases h : env.refuses step <;> simp [Env.call, h, bind, Except.bind]

theorem pgCall_bind_ok {α : Type} {env : PgEnv} {step : PgStep} {f : Unit → Except Err α}
    {a : α} : (env.call step >>= f) = .ok a ↔ env step = false ∧ f () = .ok a := by
  cases h : env step <;> simp [PgEnv.call, h, bind, Except.bind]

theorem check_ok {α β : Type} {C : Prop} [Decidable C] {e : Err} {f : β → Except Err α}
    {g : Except Err α} {a : α} :
    (if ¬C then ((throw e : Except Err β) >>= f) else g) = .ok a ↔ C ∧ g = .ok a := by
  by_cases h : C <;> simp [h, throw, throwThe, MonadExceptOf.throw, bind, Except.bind]

theorem transaction_ok {S : Type} {steps : S → Except Err S} {s : S} :
    (transaction steps s).1 = .ok () ↔ ∃ s', steps s = .ok s' := by
  unfold transaction
  split <;> simp_all

theorem transaction_of_ok {S : Type} {steps : S → Except Err S} {s s' : S}
    (h : steps s = .ok s') : transaction steps s = (.ok (), s') := by
  simp [transaction, h]

/-- What is refused leaves everything as it was. -/
theorem transaction_error {S : Type} {steps : S → Except Err S} {s : S} {e : Err}
    (h : (transaction steps s).1 = .error e) : (transaction steps s).2 = s := by
  unfold transaction at h ⊢
  split <;> simp_all

/-! ### What an upgrade is for -/

/-- What becomes of one row of a table with these columns: it keeps its id and its values in
the columns of the event, and has its address if that is not empty, or else the configured
one. -/
structure Carried (cols : List Text) (evt : Event) (contractAddress : Text) (r r' : Row) :
    Prop where
  id : r'.id = r.id
  cells : ∀ c ∈ eventColumns evt, c ∈ cols → r'.cells c = r.cells c
  address : r'.cells addressColumn =
    if addressColumn ∈ cols then backfill contractAddress (r.cells addressColumn)
    else .text contractAddress

/-- Every row is there once, and no other is. -/
def Upgraded (cols : List Text) (evt : Event) (contractAddress : Text)
    (rows rows' : List Row) : Prop :=
  List.Forall₂ (Carried cols evt contractAddress) rows rows'

/-- The addresses of the rows are there. -/
def Filled (contractAddress : Text) (rows : List Row) : Prop :=
  ∀ r ∈ rows, backfill contractAddress (r.cells addressColumn) = r.cells addressColumn

/-- A table is its own upgrade if its addresses are there. -/
theorem upgraded_self_iff {cols : List Text} {evt : Event} {contractAddress : Text}
    {rows : List Row} (hcols : addressColumn ∈ cols) :
    Upgraded cols evt contractAddress rows rows ↔ Filled contractAddress rows := by
  rw [Upgraded, List.forall₂_same]
  refine forall₂_congr fun r _ => ⟨fun h => ?_, fun h => ⟨rfl, fun _ _ _ => rfl, ?_⟩⟩
  · have haddress := h.address
    rw [if_pos hcols] at haddress
    exact haddress.symm
  · rw [if_pos hcols]
    exact h.symm

/-- Two upgrades of one table agree on what the event has of it. -/
theorem Upgraded.agree {cols : List Text} {evt : Event} {contractAddress : Text}
    {rows rows₁ rows₂ : List Row} (h₁ : Upgraded cols evt contractAddress rows rows₁)
    (h₂ : Upgraded cols evt contractAddress rows rows₂) :
    List.Forall₂ (fun a b => a.id = b.id ∧
      (∀ c ∈ eventColumns evt, c ∈ cols → a.cells c = b.cells c) ∧
      a.cells addressColumn = b.cells addressColumn) rows₁ rows₂ := by
  induction h₁ generalizing rows₂ with
  | nil =>
    cases h₂
    exact .nil
  | cons h _ ih =>
    cases h₂ with
    | cons h' hrest =>
      exact .cons ⟨h.id.trans h'.id.symm, fun c hc hcols =>
        (h.cells c hc hcols).trans (h'.cells c hc hcols).symm,
        h.address.trans h'.address.symm⟩ (ih hrest)

/-! ### The table that is built -/

section Sqlite

variable {eng : Engine} {contractName : Text} {evt : Event} {contractAddress : Text}

/-- The table that takes the place of another one. -/
def rebuilt (eng : Engine) (contractName : Text) (evt : Event) (contractAddress : Text)
    (seen : List Text) (old : Table) : Table where
  name := table contractName evt
  columns := (newColumns evt).map Prod.fst
  ddl := some (ddlOf evt ('"' :: table contractName evt ++ ['"']))
  keys := [addressKey]
  rows := copyRows eng evt contractAddress seen old.rows

/-- No call of the rebuilding is refused. -/
def Env.Builds (env : Env) : Prop :=
  ∀ step ∈ [Step.begin, .create, .prepareCopy, .bindCopy, .copy, .swap, .commit],
    env.refuses step = false

theorem newKey_ne (contractName : Text) (evt : Event) :
    newKey contractName evt ≠ key contractName evt := by
  intro h
  have hlen := congrArg List.length h
  simp [newKey, newTable, key] at hlen

/-- **The rebuilding**, when nothing is refused: the new table takes the place of the old one,
and nothing is left under the other name. -/
theorem rebuild_ok {env : Env} {seen : List Text} {old : Table} {store store' : Store} :
    rebuild eng contractName evt contractAddress env seen old store = .ok store' ↔
      env.Builds ∧ Creatable .sqlite evt ∧
        Insertable (copyRows eng evt contractAddress seen old.rows) ∧
        store' = Function.update (Function.update store (newKey contractName evt) none)
          (key contractName evt)
          (some (rebuilt eng contractName evt contractAddress seen old)) := by
  have hne := newKey_ne contractName evt
  have hstore : ∀ a b c : Option Table, Function.update (Function.update (Function.update
      (Function.update (Function.update (Function.update store (newKey contractName evt) none)
        (newKey contractName evt) a) (newKey contractName evt) b) (key contractName evt) none)
        (newKey contractName evt) none) (key contractName evt) c =
      Function.update (Function.update store (newKey contractName evt) none)
        (key contractName evt) c := by
    intro a b c
    funext k
    by_cases hk : k = key contractName evt
    · subst hk
      simp
    · by_cases hk' : k = newKey contractName evt
      · subst hk'
        simp [hk]
      · simp [hk, hk']
  simp only [rebuild, call_bind_ok, check_ok, hstore, pure, Except.pure, Except.ok.injEq]
  constructor
  · rintro ⟨hbegin, hcreate, hevt, hprepare, hbind, hcopy, hrows, hswap, hcommit, rfl⟩
    refine ⟨?_, hevt, hrows, rfl⟩
    simp [Env.Builds, hbegin, hcreate, hprepare, hbind, hcopy, hswap, hcommit]
  · rintro ⟨hbuilds, hevt, hrows, rfl⟩
    exact ⟨hbuilds _ (by simp), hbuilds _ (by simp), hevt, hbuilds _ (by simp),
      hbuilds _ (by simp), hbuilds _ (by simp), hrows, hbuilds _ (by simp),
      hbuilds _ (by simp), rfl⟩

/-! ### What the catalog says of it -/

theorem normalizeSql_append (s t : Text) :
    normalizeSql (s ++ t) = normalizeSql s ++ normalizeSql t := by
  simp [normalizeSql]

/-- No letter becomes a parenthesis. -/
theorem paren_of_toLower {c : Char} (h : c.toLower = '(') : c = '(' := by
  have halpha : c.isAlpha = false := by
    rw [← Char.isAlpha_toLower_eq_isAlpha, h]
    decide
  have hupper : ¬c.isUpper = true := by
    simp only [Char.isAlpha, Bool.or_eq_false_iff] at halpha
    simp [halpha.1]
  rwa [Char.toLower_eq_of_not_isUpper hupper] at h

theorem paren_mem_of_normalizeSql {s : Text} (h : '(' ∈ normalizeSql s) : '(' ∈ s := by
  obtain ⟨c, hc, hlower⟩ := List.mem_map.1 h
  rw [← paren_of_toLower hlower]
  exact (List.mem_filter.1 hc).1

theorem paren_notMem_eventColumnName (name : Text) : '(' ∉ eventColumnName name := by
  intro h
  rcases List.mem_append.1 h with h | h
  · exact absurd h (by decide)
  · obtain ⟨c, -, hc⟩ := List.mem_map.1 h
    unfold EventTables.columnChar at hc
    split at hc
    · next halnum =>
      rw [paren_of_toLower hc] at halnum
      exact absurd halnum (by decide)
    · exact absurd hc (by decide)

/-- The columns of the inputs have no parentheses. -/
theorem paren_notMem_inputs (evt : Event) : '(' ∉ evt.inputs.flatMap inputBody := by
  intro h
  obtain ⟨i, -, hi⟩ := List.mem_flatMap.1 h
  have htype : '(' ∉ sqlTypeText (abiTypeToSqlType i.type) := by
    cases abiTypeToSqlType i.type <;> decide
  simp only [inputBody, List.mem_append, List.mem_cons, List.not_mem_nil, or_false] at hi
  rcases hi with ((hi | hi) | (hi | hi)) | hi
  · exact absurd hi (by decide)
  · exact paren_notMem_eventColumnName _ hi
  · exact absurd hi (by decide)
  · exact htype hi
  · exact absurd hi (by decide)

/-- What stands behind a letter that a text has for the first time here. -/
theorem after_mark {α : Type} {a : α} {x y A R : List α} (hA : a ∉ A)
    (h : x ++ a :: y = A ++ a :: R) : y = R ∨ ∃ x', x' ++ a :: y = R := by
  rcases List.append_eq_append_iff.1 h with ⟨z, hz, hy⟩ | ⟨z, hz, hR⟩
  · rcases z with _ | ⟨b, z⟩
    · exact .inl (List.cons.inj hy).2
    · obtain rfl := (List.cons.inj hy).1
      exact absurd (hz ▸ by simp) hA
  · rcases z with _ | ⟨b, z⟩
    · exact .inl (List.cons.inj hR).2.symm
    · exact .inr ⟨z, (List.cons.inj hR).2.symm⟩

/-- The columns, up to the key. -/
def columnsBody (evt : Event) : Text :=
  "\n  id INTEGER PRIMARY KEY AUTOINCREMENT,".toList ++ evt.inputs.flatMap inputBody ++
    "\n  block_number INTEGER NOT NULL,".toList ++
    "\n  tx_hash TEXT NOT NULL,".toList ++
    "\n  log_index INTEGER NOT NULL,".toList ++
    "\n  contract_address TEXT NOT NULL DEFAULT '',".toList ++
    "\n  created_at DATETIME DEFAULT CURRENT_TIMESTAMP,".toList

theorem append_split {x l u k : Text} (h : l = u ++ k) : x ++ l = x ++ u ++ k := by
  rw [h, List.append_assoc]

/-- The columns, the word of the key, and the key. -/
theorem writeEventTableBody_eq (evt : Event) : writeEventTableBody evt =
    columnsBody evt ++ "\n  UNIQUE".toList ++
      "(contract_address, tx_hash, log_index)\n)".toList :=
  append_split (x := columnsBody evt)
    (l := "\n  UNIQUE(contract_address, tx_hash, log_index)\n)".toList) (by decide)

theorem paren_notMem_append {s t : Text} (hs : '(' ∉ s) (ht : '(' ∉ t) : '(' ∉ s ++ t := by
  simp [hs, ht]

theorem paren_notMem_columnsBody (evt : Event) : '(' ∉ columnsBody evt :=
  paren_notMem_append (paren_notMem_append (paren_notMem_append (paren_notMem_append
    (paren_notMem_append (paren_notMem_append (by decide) (paren_notMem_inputs evt))
      (by decide)) (by decide)) (by decide)) (by decide)) (by decide)

/-- A text whose first letter that is no blank is the one of `id`. -/
def Begins (s : Text) : Prop := ∃ r, normalizeSql s = 'i' :: r

theorem Begins.append {s : Text} (h : Begins s) (t : Text) : Begins (s ++ t) := by
  obtain ⟨r, hr⟩ := h
  exact ⟨r ++ normalizeSql t, by rw [normalizeSql_append, hr, List.cons_append]⟩

theorem begins_columnsBody (evt : Event) : Begins (columnsBody evt) := by
  have hid : Begins "\n  id INTEGER PRIMARY KEY AUTOINCREMENT,".toList := ⟨_, rfl⟩
  exact (((((hid.append _).append _).append _).append _).append _).append _

theorem normalizeSql_parts (a n p b u k : Text) :
    normalizeSql (a ++ n ++ p ++ (b ++ u ++ k)) =
      normalizeSql (a ++ n) ++ (normalizeSql p ++ (normalizeSql (b ++ u) ++ normalizeSql k)) := by
  simp only [normalizeSql_append, List.append_assoc]

/-- A statement that names the table, opens a parenthesis and has the columns in it. -/
theorem normalizeSql_ddlOf (evt : Event) (name : Text) :
    normalizeSql (ddlOf evt name) =
      normalizeSql ("CREATE TABLE ".toList ++ name) ++
        '(' :: (normalizeSql (columnsBody evt ++ "\n  UNIQUE".toList) ++
          '(' :: "contract_address,tx_hash,log_index))".toList) := by
  have hopen : normalizeSql " (".toList = ['('] := by decide
  have hkey : normalizeSql "(contract_address, tx_hash, log_index)\n)".toList =
      '(' :: "contract_address,tx_hash,log_index))".toList := by decide
  have hjoin (x y p k : Text) (hp : p = ['(']) :
      x ++ (p ++ (y ++ k)) = x ++ '(' :: (y ++ k) := by
    rw [hp, List.singleton_append]
  calc normalizeSql (ddlOf evt name)
      = normalizeSql ("CREATE TABLE ".toList ++ name ++ " (".toList ++
          (columnsBody evt ++ "\n  UNIQUE".toList ++
            "(contract_address, tx_hash, log_index)\n)".toList)) :=
        congrArg (fun b => normalizeSql ("CREATE TABLE ".toList ++ name ++ " (".toList ++ b))
          (writeEventTableBody_eq evt)
    _ = _ := normalizeSql_parts _ _ _ _ _ _
    _ = _ := hjoin _ _ _ _ hopen
    _ = _ := congrArg (fun k => normalizeSql ("CREATE TABLE ".toList ++ name) ++
          '(' :: (normalizeSql (columnsBody evt ++ "\n  UNIQUE".toList) ++ k)) hkey

/-- The new key is found in the statement. -/
theorem ddlHasAddressUnique_ddlOf (evt : Event) (name : Text) :
    ddlHasAddressUnique (ddlOf evt name) = true := by
  have hunique : normalizeSql "\n  UNIQUE".toList = "unique".toList := by decide
  have hneedle : "unique".toList ++ '(' :: "contract_address,tx_hash,log_index))".toList =
      addressUnique ++ [')'] := by decide
  have hparts (x b u v k n e : Text) (hu : normalizeSql u = v) (hn : v ++ '(' :: k = n ++ e) :
      n <:+: x ++ '(' :: (normalizeSql (b ++ u) ++ '(' :: k) := by
    refine ⟨x ++ '(' :: normalizeSql b, e, ?_⟩
    rw [normalizeSql_append, hu, List.append_assoc, ← hn]
    simp
  refine decide_eq_true ?_
  rw [normalizeSql_ddlOf]
  exact hparts _ _ _ _ _ _ _ hunique hneedle

/-- The old key is not found in it: it has two parentheses that open, and what is
behind each of them is not the old key. -/
theorem ddlHasLegacyUnique_ddlOf (evt : Event) {name : Text} (hname : '(' ∉ name) :
    ddlHasLegacyUnique (ddlOf evt name) = false := by
  refine decide_eq_false ?_
  rw [normalizeSql_ddlOf]
  rintro ⟨s, t, h⟩
  have hhead : '(' ∉ normalizeSql ("CREATE TABLE ".toList ++ name) := by
    intro hmem
    rcases List.mem_append.1 (paren_mem_of_normalizeSql hmem) with h | h
    · exact absurd h (by decide)
    · exact hname h
  have hcols : '(' ∉ normalizeSql (columnsBody evt ++ "\n  UNIQUE".toList) := by
    intro hmem
    rcases List.mem_append.1 (paren_mem_of_normalizeSql hmem) with h | h
    · exact paren_notMem_columnsBody evt h
    · exact absurd h (by decide)
  have hneedle : legacyUnique = "unique".toList ++ '(' :: 't' :: "x_hash,log_index)".toList := by
    decide
  have hassoc (n u k : Text) (hn : n = u ++ '(' :: 't' :: k) :
      s ++ n ++ t = (s ++ u) ++ '(' :: 't' :: (k ++ t) := by
    rw [hn]
    simp
  obtain ⟨cols, hbegins⟩ := (begins_columnsBody evt).append "\n  UNIQUE".toList
  rcases after_mark hhead ((hassoc _ _ _ hneedle).symm.trans h) with h | ⟨x, h⟩
  · rw [hbegins] at h
    exact absurd (List.cons.inj h).1 (by decide)
  · rcases after_mark hcols h with h | ⟨x', h⟩
    · exact absurd (List.cons.inj h).1 (by decide)
    · have hmem : '(' ∈ x' ++ '(' :: 't' :: ("x_hash,log_index)".toList ++ t) := by simp
      rw [h] at hmem
      exact absurd hmem (by decide)

/-! ### One row -/

/-- What the new table makes of the values of a column. -/
def affinity (evt : Event) (c : Text) : Affinity := ((newColumns evt).lookup c).getD .numeric

/-- What is asked of the `i`-th row for it to be carried over: what is copied is not
changed by its new column, and what is not copied is what the new column has anyway. -/
structure Keeps (eng : Engine) (evt : Event) (contractAddress : Text) (seen cols : List Text)
    (i : Nat) (r : Row) : Prop where
  id : idColumn ∈ seen ∨ r.id = i + 1
  cells : ∀ c ∈ eventColumns evt, c ∈ cols →
    if c ∈ seen then eng.convert (affinity evt c) (r.cells c) = r.cells c
    else r.cells c = default eng c
  address : addressColumn ∈ cols →
    if addressColumn ∈ seen then
      eng.convert .text (backfill contractAddress (r.cells addressColumn)) =
        backfill contractAddress (r.cells addressColumn)
    else backfill contractAddress (r.cells addressColumn) = .text contractAddress

/-- The columns of inputs begin alike, and no other one begins so. -/
theorem eventColumnName_ne (name : Text) {c : Text} (hc : c.head? ≠ some 'e') :
    eventColumnName name ≠ c := by
  rintro rfl
  exact hc rfl

theorem ne_of_mem_eventColumns {evt : Event} {c : Text} (h : c ∈ eventColumns evt) :
    c ≠ addressColumn ∧ c ≠ idColumn := by
  rcases List.mem_append.1 h with h | h
  · obtain ⟨i, -, rfl⟩ := List.mem_map.1 h
    exact ⟨eventColumnName_ne _ (by decide), eventColumnName_ne _ (by decide)⟩
  · have hfixed : ∀ c ∈ [blockColumn, txColumn, indexColumn, createdColumn],
        c ≠ addressColumn ∧ c ≠ idColumn := by decide
    exact hfixed c h

theorem mem_copyCols_iff {evt : Event} {seen : List Text} {c : Text}
    (h : c = idColumn ∨ c ∈ eventColumns evt) : c ∈ copyCols evt seen ↔ c ∈ seen := by
  simp [copyCols, h]

/-- The columns of the event are columns of the new table. -/
theorem mem_newColumns {evt : Event} {c : Text} (h : c ∈ eventColumns evt) :
    c ∈ (newColumns evt).map Prod.fst := by
  rcases List.mem_append.1 h with h | h
  · obtain ⟨i, hi, rfl⟩ := List.mem_map.1 h
    simp only [newColumns, List.map_append, List.map_cons, List.map_map, List.mem_append,
      List.mem_cons]
    exact .inl (.inr (List.mem_map.2 ⟨i, hi, rfl⟩))
  · have hfixed : ∀ c ∈ [blockColumn, txColumn, indexColumn, createdColumn],
        c ∈ [blockColumn, txColumn, indexColumn, addressColumn, createdColumn] := by decide
    simp only [newColumns, List.map_append, List.mem_append]
    exact .inr (hfixed c h)

theorem lookup_of_mem {evt : Event} {c : Text} (h : c ∈ eventColumns evt) :
    (newColumns evt).lookup c = some (affinity evt c) := by
  have hsome : ((newColumns evt).lookup c).isSome = true := by
    obtain ⟨p, hp, rfl⟩ := List.mem_map.1 (mem_newColumns h)
    exact List.lookup_isSome_iff.2 ⟨p, hp, by simp⟩
  obtain ⟨a, ha⟩ := Option.isSome_iff_exists.1 hsome
  rw [affinity, ha]
  rfl

theorem lookup_address (evt : Event) : (newColumns evt).lookup addressColumn = some .text := by
  have hinputs (f : EventInput → Affinity) :
      (evt.inputs.map fun i => (eventColumnName i.name, f i)).lookup addressColumn = none := by
    rw [List.lookup_eq_none_iff]
    intro p hp
    obtain ⟨i, -, rfl⟩ := List.mem_map.1 hp
    exact bne_iff_ne.2 (Ne.symm (eventColumnName_ne _ (by decide)))
  simp only [newColumns, List.lookup_append, List.lookup_cons, hinputs]
  decide

theorem copyRow_cells {seen : List Text} {i : Nat} {r : Row} {c : Text}
    (h : c ∈ eventColumns evt) :
    (copyRow eng evt contractAddress seen i r).cells c =
      if c ∈ seen then eng.convert (affinity evt c) (r.cells c) else default eng c := by
  simp only [copyRow, lookup_of_mem h, if_neg (ne_of_mem_eventColumns h).1,
    mem_copyCols_iff (Or.inr h)]

theorem copyRow_address {seen : List Text} {i : Nat} {r : Row} :
    (copyRow eng evt contractAddress seen i r).cells addressColumn =
      if addressColumn ∈ seen then
        eng.convert .text (backfill contractAddress (r.cells addressColumn))
      else .text contractAddress := by
  simp only [copyRow, lookup_address, if_true]
  split
  · rfl
  · exact eng.convert_text _

theorem ite_eq_iff_ite {α : Type} {p : Prop} [Decidable p] {a b v : α} :
    (if p then a else b) = v ↔ if p then a = v else v = b := by
  split
  · exact Iff.rfl
  · exact eq_comm

/-- **One row**: it is carried over exactly if it keeps what it has. -/
theorem carried_iff {seen cols : List Text} {i : Nat} {r : Row}
    (hseen : addressColumn ∈ seen → addressColumn ∈ cols) :
    Carried cols evt contractAddress r (copyRow eng evt contractAddress seen i r) ↔
      Keeps eng evt contractAddress seen cols i r := by
  have hid : (copyRow eng evt contractAddress seen i r).id = r.id ↔
      idColumn ∈ seen ∨ r.id = i + 1 := by
    simp only [copyRow, mem_copyCols_iff (Or.inl rfl)]
    by_cases h : idColumn ∈ seen
    · simp [h]
    · simp [h, eq_comm]
  have haddress : (copyRow eng evt contractAddress seen i r).cells addressColumn =
      (if addressColumn ∈ cols then backfill contractAddress (r.cells addressColumn)
        else .text contractAddress) ↔
      (addressColumn ∈ cols →
        if addressColumn ∈ seen then
          eng.convert .text (backfill contractAddress (r.cells addressColumn)) =
            backfill contractAddress (r.cells addressColumn)
        else backfill contractAddress (r.cells addressColumn) = .text contractAddress) := by
    rw [copyRow_address]
    by_cases hcols : addressColumn ∈ cols
    · rw [if_pos hcols, ite_eq_iff_ite]
      simp [hcols]
    · rw [if_neg hcols, if_neg fun h => hcols (hseen h)]
      simp [hcols]
  constructor
  · intro h
    refine ⟨hid.1 h.id, fun c hc hcols => ?_, haddress.1 h.address⟩
    rw [← ite_eq_iff_ite, ← copyRow_cells hc]
    exact h.cells c hc hcols
  · intro h
    refine ⟨hid.2 h.id, fun c hc hcols => ?_, haddress.2 h.address⟩
    rw [copyRow_cells hc, ite_eq_iff_ite]
    exact h.cells c hc hcols

/-- **All rows**, one after the other. -/
theorem upgraded_iff {seen cols : List Text} {rows : List Row}
    (hseen : addressColumn ∈ seen → addressColumn ∈ cols) :
    Upgraded cols evt contractAddress rows (copyRows eng evt contractAddress seen rows) ↔
      ∀ i r, rows[i]? = some r → Keeps eng evt contractAddress seen cols i r := by
  rw [Upgraded, List.forall₂_iff_get]
  simp only [copyRows, List.length_mapIdx, true_and, List.get_eq_getElem, List.getElem_mapIdx]
  constructor
  · intro h i r hr
    obtain ⟨hi, rfl⟩ := List.getElem?_eq_some_iff.1 hr
    exact (carried_iff hseen).1 (h i hi hi)
  · intro h i hi _
    exact (carried_iff hseen).2 (h i _ (List.getElem?_eq_getElem hi))

end Sqlite

end Zponder.TableUpgrade

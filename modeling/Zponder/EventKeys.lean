import Zponder.EventTables
import Zponder.EventRows

/-!
# Events under keys

What RocksDB does with the logs of a contract. The value of a key is the text of an object, if there
is a field at all (`Zponder.EventTables.eventValue_eq`), and cannot be read otherwise
(`Zponder.EventTables.readObject_eventValue_nil`). A log is there in the end if no later one
has its key (`Zponder.EventTables.survivors`).
-/

namespace Zponder.EventTables

open Decode (Event EventInput)

open JsonRows (Value Row)

variable {sql : Sql} {contractName : Text}

/-! ### Values -/

section Values

variable {r : Received}

/-- The members of every value. -/
def rocksNames : List Text := ["block_number".toList, "tx_hash".toList, "log_index".toList]

/-- The members of a value behind those of the fields. -/
def rocksOwn (r : Received) : Row :=
  [("block_number".toList, .number (toString r.log.blockNumber).toList),
    ("tx_hash".toList, .text r.log.transactionHash),
    ("log_index".toList, .number (toString r.log.logIndex).toList)]

/-- The members of a value. -/
def rocksRow (r : Received) : Row :=
  (r.fields.map fun f => (f.name, Value.text f.value)) ++ rocksOwn r

theorem items_append {t u : Text} {ts us : List Text} :
    JsonRows.items (t :: ts ++ u :: us) = JsonRows.items (t :: ts) ++ ',' :: JsonRows.items (u :: us) := by
  induction ts generalizing t with
  | nil => rw [List.singleton_append, JsonRows.items_cons_cons, JsonRows.items_singleton]
  | cons v ts ih =>
    rw [List.cons_append, List.cons_append, JsonRows.items_cons_cons, JsonRows.items_cons_cons,
      List.append_assoc, List.cons_append, ← ih, List.cons_append]

/-- **The value of a log with a field** is an object. -/
theorem eventValue_eq (h : r.fields ≠ []) : EventQuery.eventValue (rocksEvent r) =
    JsonRows.object Text.escapeChar (rocksRow r) := by
  cases hfields : r.fields with
  | nil => exact absurd hfields h
  | cons f fs =>
    have hevent : (rocksEvent r).fields = f :: fs := hfields
    have hblock : JsonRows.quoted Text.escapeChar "block_number".toList = "\"block_number\"".toList :=
      rfl
    have htx : JsonRows.quoted Text.escapeChar "tx_hash".toList = "\"tx_hash\"".toList := rfl
    have hindex : JsonRows.quoted Text.escapeChar "log_index".toList = "\"log_index\"".toList := rfl
    rw [EventQuery.eventValue, JsonRows.object, rocksRow, rocksOwn, hfields, hevent, List.map_append,
      List.map_map, List.map_cons, List.map_cons, List.map_cons, items_append]
    simp only [Function.comp_def, List.map_cons, List.map_nil, JsonRows.items_cons_cons,
      JsonRows.items_singleton, JsonRows.member, hblock, htx, hindex, JsonRows.value]
    simp [JsonRows.items, JsonRows.quoted, EventQuery.jsonEscape, rocksEvent]

/-- **The value of a log without fields** begins with a comma, and is no object. -/
theorem readObject_eventValue_nil (h : r.fields = []) (rest : Text) :
    JsonRows.readObject (EventQuery.eventValue (rocksEvent r) ++ rest) = none := by
  obtain ⟨s, hs⟩ : ∃ s, EventQuery.eventValue (rocksEvent r) = '{' :: ',' :: s := by
    have hevent : (rocksEvent r).fields = [] := h
    rw [EventQuery.eventValue, hevent]
    exact ⟨_, rfl⟩
  rw [hs]
  rfl

theorem opens_eventValue : JsonRows.Opens ']' (EventQuery.eventValue (rocksEvent r)) :=
  ⟨'{', _, rfl, by decide⟩

theorem numeric_rocksRow {m : Text × Value} (hm : m ∈ rocksRow r) : m.2.Numeric := by
  rcases List.mem_append.1 hm with hm | hm
  · obtain ⟨f, -, rfl⟩ := List.mem_map.1 hm
    exact trivial
  · simp only [rocksOwn, List.mem_cons, List.not_mem_nil, or_false] at hm
    rcases hm with rfl | rfl | rfl
    · exact numeric_number (d := .sqlite) _
    · exact trivial
    · exact numeric_number (d := .sqlite) _

theorem readObject_eventValue (h : r.fields ≠ []) (rest : Text) :
    JsonRows.readObject (EventQuery.eventValue (rocksEvent r) ++ rest) = some (rocksRow r, rest) := by
  rw [eventValue_eq h]
  exact JsonRows.readObject_object escapes_escapeChar (fun m hm => numeric_rocksRow hm) rest

/-- No field has the name of a member that every value has. -/
def OwnFree (r : Received) : Prop := ∀ f ∈ r.fields, f.name ∉ rocksNames

theorem mem_rocksNames {name : Text} : name ∈ rocksNames ↔ ∃ m ∈ rocksOwn r, m.1 = name := by
  have hnames : rocksNames = (rocksOwn r).map (·.1) := rfl
  rw [hnames, List.mem_map]

/-- The members of every value are the last ones. -/
theorem filter_rocksRow (name : Text) :
    (rocksRow r).filter (fun m => decide (m.1 = name)) =
      ((r.fields.filter fun f => decide (f.name = name)).map fun f => (f.name, Value.text f.value)) ++
        (rocksOwn r).filter fun m => decide (m.1 = name) := by
  rw [rocksRow, List.filter_append, List.filter_map]
  rfl

/-- **A value holds its fields** exactly if no two members have one name. -/
theorem holds_rocksRow_iff : Holds .rocksdb r (rocksRow r) ↔
    (r.fields.map (·.name)).Nodup ∧ OwnFree r := by
  constructor
  · intro h
    refine ⟨h.distinct, fun f hf hown => ?_⟩
    have hone := congrArg List.length (h.fields f hf)
    change ((rocksRow r).filter fun m => decide (m.1 = f.name)).length = 1 at hone
    rw [filter_rocksRow, List.length_append, List.length_map] at hone
    have hfield : 0 < (r.fields.filter fun g => decide (g.name = f.name)).length :=
      List.length_pos_of_mem (List.mem_filter.2 ⟨hf, decide_eq_true rfl⟩)
    have hmember : 0 < ((rocksOwn r).filter fun m => decide (m.1 = f.name)).length := by
      obtain ⟨m, hm, hname⟩ := mem_rocksNames.1 hown
      exact List.length_pos_of_mem (List.mem_filter.2 ⟨hm, decide_eq_true hname⟩)
    omega
  · rintro ⟨hnodup, hown⟩
    refine ⟨hnodup, fun f hf => ?_⟩
    change (rocksRow r).filter (fun m => decide (m.1 = f.name)) = [(f.name, .text f.value)]
    have hself : r.fields.filter (fun g => decide (g.name = f.name)) = [f] := by
      have hsub : (r.fields.filter fun g => decide (g.name = f.name)) =
          r.fields.filter fun g => decide (g = f) := by
        refine List.filter_congr fun g hg => decide_eq_decide.2 ⟨fun h => ?_, fun h => h ▸ rfl⟩
        exact List.inj_on_of_nodup_map hnodup hg hf h
      rw [hsub, List.filter_eq, List.count_eq_one_of_mem hnodup.of_map hf]
      rfl
    have hothers : (rocksOwn r).filter (fun m => decide (m.1 = f.name)) = [] :=
      List.filter_eq_nil_iff.2 fun m hm heq =>
        hown f hf (mem_rocksNames.2 ⟨m, hm, of_decide_eq_true heq⟩)
    rw [filter_rocksRow, hself, hothers]
    rfl

theorem mem_rocksOwn {n : Text} {v : Value} : (n, v) ∈ rocksOwn r ↔
    n = "block_number".toList ∧ v = .number (toString r.log.blockNumber).toList ∨
      n = "tx_hash".toList ∧ v = .text r.log.transactionHash ∨
      n = "log_index".toList ∧ v = .number (toString r.log.logIndex).toList := by
  simp only [rocksOwn, List.mem_cons, List.not_mem_nil, or_false, Prod.mk.injEq]

/-- A value is that of its own log, -/
theorem isOf_rocksRow_self : isOf r (rocksRow r) = true :=
  decide_eq_true ⟨List.mem_append_right _ (mem_rocksOwn.2 (.inr (.inl ⟨rfl, rfl⟩))),
    .inl (List.mem_append_right _ (mem_rocksOwn.2 (.inr (.inr ⟨rfl, rfl⟩))))⟩

/-- and of no other. -/
theorem isOf_rocksRow {r' : Received} (hown : OwnFree r') (h : isOf r (rocksRow r') = true) :
    r.log.transactionHash = r'.log.transactionHash ∧ r.log.logIndex = r'.log.logIndex := by
  have hmem : ∀ n v, (n, v) ∈ rocksRow r' → n ∈ rocksNames → (n, v) ∈ rocksOwn r' := by
    intro n v hmem hn
    rcases List.mem_append.1 hmem with hmem | hmem
    · obtain ⟨f, hf, heq⟩ := List.mem_map.1 hmem
      exact absurd hn ((Prod.mk.inj heq).1 ▸ hown f hf)
    · exact hmem
  obtain ⟨htx, hindex⟩ := of_decide_eq_true h
  constructor
  · rcases mem_rocksOwn.1 (hmem _ _ htx (by simp [rocksNames])) with ⟨hn, -⟩ | ⟨-, hv⟩ | ⟨hn, -⟩
    · exact absurd hn (by decide)
    · exact Value.text.inj hv
    · exact absurd hn (by decide)
  · have hnumber : ∀ v, ("log_index".toList, v) ∈ rocksRow r' →
        v = .number (toString r'.log.logIndex).toList := by
      intro v hv
      rcases mem_rocksOwn.1 (hmem _ _ hv (by simp [rocksNames])) with ⟨hn, -⟩ | ⟨hn, -⟩ | ⟨-, hv⟩
      · exact absurd hn (by decide)
      · exact absurd hn (by decide)
      · exact hv
    rcases hindex with hindex | hindex
    · exact toString_injective (Value.number.inj (hnumber _ hindex))
    · cases hnumber _ hindex

end Values

/-! ### The store -/

section Store

variable (contractName) in
/-- The logs whose key no later one has. -/
def survivors : List Received → List Received
  | [] => []
  | r :: rs =>
    if ∃ r' ∈ rs, rocksKey contractName r' = rocksKey contractName r then survivors rs
    else r :: survivors rs

variable (contractName) in
/-- A key and its value. -/
def entry (r : Received) : Text × Text :=
  (rocksKey contractName r, EventQuery.eventValue (rocksEvent r))

variable {r : Received} {logs : List Received} {db db' : Database}

theorem survivors_sublist (logs : List Received) : (survivors contractName logs).Sublist logs := by
  induction logs with
  | nil => exact List.Sublist.refl _
  | cons r rs ih =>
    rw [survivors]
    split
    · exact ih.trans (List.sublist_cons_self r rs)
    · exact ih.cons_cons r

/-- The keys of the survivors are different. -/
theorem pairwise_survivors (logs : List Received) : (survivors contractName logs).Pairwise
    fun r r' => rocksKey contractName r ≠ rocksKey contractName r' := by
  induction logs with
  | nil => exact .nil
  | cons r rs ih =>
    rw [survivors]
    split
    · exact ih
    · next hnone =>
      refine List.pairwise_cons.2 ⟨fun r' hr' heq => ?_, ih⟩
      exact hnone ⟨r', (survivors_sublist rs).subset hr', heq.symm⟩

theorem survivors_eq_self (h : logs.Pairwise fun r r' =>
    rocksKey contractName r ≠ rocksKey contractName r') : survivors contractName logs = logs := by
  induction logs with
  | nil => rfl
  | cons r rs ih =>
    obtain ⟨hr, hrs⟩ := List.pairwise_cons.1 h
    rw [survivors, if_neg, ih hrs]
    rintro ⟨r', hr', heq⟩
    exact hr r' hr' heq.symm

/-- **What is in the store** after a run of inserts: what was there under other keys, and the
survivors. -/
theorem insertAll_rocks (sql : Sql) (contractName : Text) (logs : List Received) (db : Database) :
    (∀ db', insertAll .rocksdb sql contractName logs db = some db' →
      (∀ r ∈ logs, (rocksKey contractName r).length ≤ 512) ∧
        db'.store = db.store.filter (fun kv => decide (∀ r ∈ logs, kv.1 ≠ rocksKey contractName r)) ++
          (survivors contractName logs).map (entry contractName)) ∧
      ((∀ r ∈ logs, (rocksKey contractName r).length ≤ 512) →
        ∃ db', insertAll .rocksdb sql contractName logs db = some db') := by
  induction logs generalizing db with
  | nil =>
    refine ⟨fun db' hdb' => ⟨fun r hr => (by cases hr), ?_⟩, fun _ => ⟨db, rfl⟩⟩
    obtain rfl := Option.some.inj hdb'
    simp [survivors]
  | cons r logs ih =>
    have hinsert : insertEventLog .rocksdb sql contractName r db = insertRocks contractName r db := rfl
    rw [insertAll, hinsert, insertRocks]
    split
    · next hlen =>
      rw [Option.bind_some]
      obtain ⟨hsome, hall⟩ :=
        ih (db.put (rocksKey contractName r) (EventQuery.eventValue (rocksEvent r)))
      refine ⟨fun db' hdb' => ?_, fun h => hall fun r' hr' => h r' (List.mem_cons_of_mem r hr')⟩
      obtain ⟨hothers, hstore⟩ := hsome db' hdb'
      refine ⟨List.forall_mem_cons.2 ⟨hlen, hothers⟩, ?_⟩
      rw [hstore, Database.put, List.filter_append, List.filter_filter, survivors]
      have hfilter : (fun kv : Text × Text =>
          decide (∀ r' ∈ logs, kv.1 ≠ rocksKey contractName r') &&
            decide (kv.1 ≠ rocksKey contractName r)) =
          fun kv => decide (∀ r' ∈ r :: logs, kv.1 ≠ rocksKey contractName r') := by
        funext kv
        rw [← Bool.decide_and]
        exact decide_eq_decide.2 (by rw [List.forall_mem_cons, and_comm])
      rw [hfilter, List.append_assoc]
      congr 1
      by_cases hlater : ∃ r' ∈ logs, rocksKey contractName r' = rocksKey contractName r
      · rw [if_pos hlater, List.filter_singleton]
        obtain ⟨r', hr', heq⟩ := hlater
        have hno : decide (∀ r' ∈ logs, rocksKey contractName r ≠ rocksKey contractName r') = false :=
          decide_eq_false fun h => h r' hr' heq.symm
        rw [hno]
        rfl
      · rw [if_neg hlater, List.filter_singleton, decide_eq_true, List.map_cons]
        · rfl
        · exact fun r' hr' heq => hlater ⟨r', hr', heq.symm⟩
    · next hlen =>
      refine ⟨fun db' hdb' => (by cases hdb'), fun h => ?_⟩
      exact absurd (h r List.mem_cons_self) hlen

variable (contractName) in
/-- The key is one of the event. -/
def inRange (eventName key : Text) : Bool :=
  !decide (key < keyPrefix contractName eventName) &&
    decide (key < keyPrefix contractName eventName ++ EventQuery.top)

/-- The key of a log is one of its event. -/
theorem inRange_rocksKey (r : Received) :
    inRange contractName r.event.name (rocksKey contractName r) = true := by
  rw [inRange, rocksKey, Bool.and_eq_true, Bool.not_eq_true', decide_eq_false_iff_not,
    decide_eq_true_iff]
  simp only [List.append_assoc]
  refine ⟨EventQuery.not_append_lt _ _, ?_⟩
  rw [EventQuery.append_lt_append_left_iff]
  obtain ⟨c, rest, hpad⟩ : ∃ c rest, EventQuery.padded 20 r.log.blockNumber = c :: rest :=
    List.exists_cons_of_length_eq_add_one (EventQuery.length_padded 20 r.log.blockNumber)
  rw [hpad]
  refine EventQuery.lt_top fun d hd => ?_
  obtain rfl := Option.some.inj hd
  exact EventQuery.toNat_of_mem_padded (hpad ▸ List.mem_cons_self)

variable (contractName) in
/-- The survivors among the keys of an event. -/
def ofEvent (eventName : Text) (logs : List Received) : List Received :=
  (survivors contractName logs).filter fun r => inRange contractName eventName (rocksKey contractName r)

/-- **What the iterator comes by**: the survivors, in some order. -/
theorem scanRocks_eq {events : List Text} {eventName : Text}
    (hfresh : Fresh contractName events db) (hevent : eventName ∈ events)
    (hstore : db'.store = db.store.filter
        (fun kv => decide (∀ r ∈ logs, kv.1 ≠ rocksKey contractName r)) ++
      (survivors contractName logs).map (entry contractName)) :
    ∃ S : List Received, S.Perm (ofEvent contractName eventName logs) ∧ ∀ limit, S.length ≤ limit →
      scanRocks contractName eventName limit db' =
        if (keyPrefix contractName eventName).length + 1 ≤ 256 then
          some (JsonRows.array (S.map fun r => EventQuery.eventValue (rocksEvent r)))
        else none := by
  have hsorted : (db'.store.insertionSort fun a b => a.1 ≤ b.1).Pairwise fun a b => a.1 ≤ b.1 := by
    have : Std.Total (fun a b : Text × Text => a.1 ≤ b.1) := ⟨fun a b => le_total a.1 b.1⟩
    have : IsTrans (Text × Text) (fun a b => a.1 ≤ b.1) := ⟨fun a b c => le_trans⟩
    exact List.pairwise_insertionSort _ _
  -- before, there was nothing in the range
  have hbefore : (db.store.filter
      (fun kv => decide (∀ r ∈ logs, kv.1 ≠ rocksKey contractName r))).filter
        (fun kv => inRange contractName eventName kv.1) = [] := by
    refine List.filter_eq_nil_iff.2 fun kv hkv hin => ?_
    rw [inRange, Bool.and_eq_true, Bool.not_eq_true', decide_eq_false_iff_not,
      decide_eq_true_iff] at hin
    rcases hfresh.store eventName hevent kv (List.mem_of_mem_filter hkv) with hlt | hge
    · exact hin.1 hlt
    · exact hge hin.2
  have hperm : ((db'.store.insertionSort fun a b => a.1 ≤ b.1).filter
      fun kv => inRange contractName eventName kv.1).Perm
        ((ofEvent contractName eventName logs).map (entry contractName)) := by
    refine ((List.perm_insertionSort _ _).filter _).trans ?_
    rw [hstore, List.filter_append, hbefore, List.nil_append, List.filter_map]
    exact List.Perm.refl _
  obtain ⟨S, hS, hSperm⟩ := List.perm_comp_forall₂ (r := fun kv r => kv = entry contractName r) hperm
    (List.forall₂_map_left_iff.2 (List.forall₂_same.2 fun r _ => rfl))
  refine ⟨S, hSperm, fun limit hlimit => ?_⟩
  have hmap : (db'.store.insertionSort fun a b => a.1 ≤ b.1).filter
      (fun kv => inRange contractName eventName kv.1) = S.map (entry contractName) := by
    have := List.forall₂_map_right_iff.2 hS
    exact List.forall₂_eq_eq_eq ▸ this
  rw [scanRocks]
  dsimp only
  rw [EventQuery.interval_eq_filter hsorted]
  change (if _ then some (JsonRows.array ((((db'.store.insertionSort
    fun a b : Text × Text => a.1 ≤ b.1).filter fun kv : Text × Text =>
      inRange contractName eventName kv.1).take limit).map fun kv : Text × Text => kv.2))
        else none) = _
  rw [hmap, List.take_of_length_le (by rwa [List.length_map]), List.map_map]
  rfl

end Store

end Zponder.EventTables

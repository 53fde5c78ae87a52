import Zponder.Schema

/-!
# Event queries on three backends

`queryEventLogs`, as SQLite, PostgreSQL and RocksDB answer it, without the filter on the
address. Two of them are a `SELECT`, ordered by the block number alone; SQL leaves open how
rows of one block are ordered, and it may be otherwise for every limit and offset
(`Zponder.EventQuery.SqlEngine`). The third is a loop over the keys of the table
(`Zponder.EventQuery.scan`).

A page is right (`Zponder.EventQuery.Right`) if it is that of some arrangement of the
matching events in the order asked for. The three do not answer alike: PostgreSQL always
orders downwards, RocksDB always upwards; RocksDB counts its offset before it filters, finds a
transaction hash anywhere in the value of a key, and has one key for two events of one
transaction and index.
-/

namespace Zponder.EventQuery

/-! ### Tables and queries -/

/-- A stored event. -/
structure Event where
  address : Text
  txHash : Text
  logIndex : Nat
  blockNumber : Nat
  fields : List DecodedField
  deriving DecidableEq, Repr

/-- The events of one table, in the order they were inserted in. A block number fits its
column, and no hash has a byte that is not UTF-8. -/
structure Table where
  contractName : Text
  eventName : Text
  rows : List Event
  distinct : rows.Pairwise fun a b =>
    ¬(a.address = b.address ∧ a.txHash = b.txHash ∧ a.logIndex = b.logIndex)
  range : ∀ e ∈ rows, e.blockNumber < 2 ^ 63
  utf8 : ∀ e ∈ rows, ∀ c ∈ e.txHash, c.toNat < 255

/-- The arguments of a query, but for its page. -/
structure Filter where
  blockFrom : Option Nat := none
  blockTo : Option Nat := none
  txHash : Option Text := none
  orderDesc : Bool := true
  fromRange : ∀ b ∈ blockFrom, b < 2 ^ 64 := by simp
  toRange : ∀ b ∈ blockTo, b < 2 ^ 64 := by simp

/-- The bounds on the block. -/
def Filter.inBlocks (q : Filter) (e : Event) : Bool :=
  q.blockFrom.all (· ≤ e.blockNumber) && q.blockTo.all (e.blockNumber ≤ ·)

/-- The transaction asked for. -/
def Filter.ofTx (q : Filter) (e : Event) : Bool := q.txHash.all (e.txHash == ·)

/-- The matching events. -/
def Table.matching (T : Table) (q : Filter) : List Event :=
  T.rows.filter fun e => q.inBlocks e && q.ofTx e

/-- `LIMIT` and `OFFSET` -/
def page (limit offset : Nat) (rows : List Event) : List Event := (rows.drop offset).take limit

/-- The order of the blocks. -/
def before (desc : Bool) (a b : Event) : Prop :=
  if desc = true then b.blockNumber ≤ a.blockNumber else a.blockNumber ≤ b.blockNumber

instance (desc : Bool) : DecidableRel (before desc) := fun a b => by
  unfold before
  infer_instance

/-- The rows, ordered by block. -/
structure Arranged (desc : Bool) (rows P : List Event) : Prop where
  perm : P.Perm rows
  sorted : P.Pairwise (before desc)

/-! ### SQL -/

/-- A SQL engine, by what it makes of `ORDER BY block_number` and the page. -/
structure SqlEngine where
  arrange : (desc : Bool) → (limit offset : Nat) → List Event → List Event
  arranged : ∀ desc limit offset rows, Arranged desc rows (arrange desc limit offset rows)

/-- A bound that can be bound to a parameter of the statement. -/
def fits (b : Option Nat) : Bool := b.all (· < 2 ^ 63)

section Sql

variable (sql : SqlEngine) (T : Table) (q : Filter) (limit offset : Nat)

/-- `queryEventLogs` on SQLite. A bound that does not fit ends the process. -/
def queryEventLogs : Option (List Event) :=
  if (fits q.blockFrom && fits q.blockTo) = true then
    some (page limit offset (sql.arrange q.orderDesc limit offset (T.matching q)))
  else none

/-- `queryEventLogsPG`. A bound that does not fit is an error. -/
def queryEventLogsPG : Option (List Event) :=
  if (fits q.blockFrom && fits q.blockTo) = true then
    some (page limit offset (sql.arrange true limit offset (T.matching q)))
  else none

end Sql

/-! ### RocksDB -/

/-- `{d:0>w}`, of a number that has no more digits. -/
def padded : Nat → Nat → Text
  | 0, _ => []
  | w + 1, n => padded w (n / 10) ++ [Nat.digitChar (n % 10)]

/-- `utils.jsonEscapeString` -/
def jsonEscape (s : Text) : Text := s.flatMap Text.escapeChar

/-- The value `insertEventLogRocks` puts. -/
def eventValue (e : Event) : Text :=
  "\x7b".toList ++
    ",".toList.intercalate (e.fields.map fun f =>
      "\"".toList ++ jsonEscape f.name ++ "\":\"".toList ++ jsonEscape f.value ++ "\"".toList) ++
    ",\"block_number\":".toList ++ (toString e.blockNumber).toList ++
    ",\"tx_hash\":\"".toList ++ jsonEscape e.txHash ++
    "\",\"log_index\":".toList ++ (toString e.logIndex).toList ++ "\x7d".toList

section Rocks

variable (T : Table) (q : Filter) (limit offset : Nat)

/-- `e:<contract>:<event>:` -/
def tableKey : Text :=
  "e:".toList ++ T.contractName ++ ":".toList ++ T.eventName ++ ":".toList

/-- The keys of a block begin with it. -/
def blockKey (b : Nat) : Text := tableKey T ++ (padded 20 b ++ ":".toList)

/-- The key of an event. -/
def rocksKey (e : Event) : Text :=
  blockKey T e.blockNumber ++ (e.txHash ++ ":".toList ++ padded 20 e.logIndex)

/-- A put overwrites. -/
def put (db : List (Text × Event)) (e : Event) : List (Text × Event) :=
  db.filter (·.1 != rocksKey T e) ++ [(rocksKey T e, e)]

/-- The keys of the table and their values, as the iterator comes by them. -/
def store : List (Text × Event) :=
  (T.rows.foldl (put T) []).insertionSort fun a b => a.1 ≤ b.1

/-- Where the iterator begins. -/
def seekKey : Text := (q.blockFrom.map (blockKey T)).getD (tableKey T)

/-- The byte above all others. -/
def top : Text := [Char.ofNat 255]

/-- Where it ends. -/
def endKey : Text := (q.blockTo.map (blockKey T)).getD (tableKey T) ++ top

/-- The value has the hash in it. -/
def holds (e : Event) : Bool := q.txHash.all fun th => decide (th <:+: eventValue e)

/-- The loop. -/
def scan : List (Text × Event) → (skipped rowCount : Nat) → List Event
  | [], _, _ => []
  | (key, e) :: rest, skipped, rowCount =>
    if limit ≤ rowCount then []
    else if endKey T q ≤ key then []
    else if skipped < offset then scan rest (skipped + 1) rowCount
    else if holds q e = false then scan rest skipped rowCount
    else e :: scan rest skipped (rowCount + 1)

/-- The keys fit into their buffers. -/
def keysFit : Bool :=
  (tableKey T).length ≤ 256 && (seekKey T q).length ≤ 256 && (endKey T q).length ≤ 256

/-- `queryEventLogsRocks` -/
def queryEventLogsRocks : Option (List Event) :=
  if keysFit T q = true then
    some (scan T q limit offset ((store T).dropWhile (·.1 < seekKey T q)) 0 0)
  else none

end Rocks

/-! ### What is asked of them -/

section Alike

variable (T : Table) (q : Filter)

/-- The answer is a page of the matching events, ordered as they should be. -/
def Right (limit offset : Nat) (answer : Option (List Event)) : Prop :=
  ∃ P, Arranged q.orderDesc (T.matching q) P ∧ answer = some (page limit offset P)

/-- Walking the offsets visits every matching event once. -/
def Walks (answer : Nat → Nat → Option (List Event)) : Prop :=
  ∀ limit n, 0 < limit → (T.matching q).length ≤ n * limit →
    ∃ pages : Nat → List Event, (∀ k < n, answer limit (k * limit) = some (pages k)) ∧
      ((List.range n).flatMap pages).Perm (T.matching q)

/-- **The backends answer alike**, and page by page. -/
structure Alike : Prop where
  sqlite : ∀ sql limit offset, Right T q limit offset (queryEventLogs sql T q limit offset)
  postgres : ∀ sql limit offset, Right T q limit offset (queryEventLogsPG sql T q limit offset)
  rocks : ∀ limit offset, Right T q limit offset (queryEventLogsRocks T q limit offset)
  walkSqlite : ∀ sql, Walks T q (queryEventLogs sql T q)
  walkPostgres : ∀ sql, Walks T q (queryEventLogsPG sql T q)
  walkRocks : Walks T q (queryEventLogsRocks T q)

/-- All matching events are of one block. -/
def OneBlock : Prop :=
  ∀ a ∈ T.matching q, ∀ b ∈ T.matching q, a.blockNumber = b.blockNumber

/-- What RocksDB holds of the table, within the bounds. -/
def held : List Event := ((store T).map (·.2)).filter q.inBlocks

/-- **When RocksDB answers right.** -/
structure RocksPlain : Prop where
  /-- The keys fit into their buffers. -/
  short : keysFit T q = true
  /-- No matching event overwrites another. -/
  kept : (T.matching q).Pairwise fun a b => rocksKey T a ≠ rocksKey T b
  /-- The order upwards is the one asked for, or makes no difference. -/
  order : q.orderDesc = false ∨ OneBlock T q
  /-- A value has the hash in it if it is that of the event, and not otherwise. -/
  tx : ∀ e ∈ held T q, holds q e = q.ofTx e
  /-- Events of other transactions come after the matching ones. -/
  first : ∀ a ∈ held T q, ∀ b ∈ held T q, q.ofTx a = true → q.ofTx b = false →
    rocksKey T a < rocksKey T b

/-- **When the three answer alike.** -/
structure Plain : Prop where
  bounds : (fits q.blockFrom && fits q.blockTo) = true
  /-- The order downwards is the one asked for, or makes no difference. -/
  postgres : q.orderDesc = true ∨ OneBlock T q
  rocks : RocksPlain T q
  /-- No two matching events are of one block. -/
  paged : (T.matching q).Pairwise fun a b => a.blockNumber ≠ b.blockNumber

end Alike

/-! ### Arrangements -/

section Arrange

variable {T : Table} {q : Filter} {desc : Bool} {rows P Q : List Event} {limit offset : Nat}

theorem before_total (desc : Bool) (a b : Event) : before desc a b ∨ before desc b a := by
  cases desc
  · exact Nat.le_total _ _
  · exact Nat.le_total _ _

theorem before_trans {a b c : Event} (h : before desc a b) (h' : before desc b c) :
    before desc a c := by
  cases desc
  · exact Nat.le_trans (m := b.blockNumber) h h'
  · exact Nat.le_trans (m := b.blockNumber) h' h

theorem before_antisymm {a b : Event} (h : before desc a b) (h' : before desc b a) :
    a.blockNumber = b.blockNumber := by
  cases desc
  · exact Nat.le_antisymm h h'
  · exact Nat.le_antisymm h' h

instance (desc : Bool) : Std.Total (before desc) := ⟨before_total desc⟩

instance (desc : Bool) : IsTrans Event (before desc) := ⟨fun _ _ _ => before_trans⟩

/-- What holds of any two different members, whichever comes first. -/
theorem forall_of_pairwise {α : Type} {r : α → α → Prop} {l : List α} (h : l.Pairwise r)
    (hsymm : ∀ a b, r a b → r b a) {a b : α} (ha : a ∈ l) (hb : b ∈ l) (hne : a ≠ b) : r a b := by
  have : Std.Symm r := ⟨hsymm⟩
  exact h.forall ha hb hne

/-- Sorting by insertion arranges. -/
theorem arranged_insertionSort (desc : Bool) (rows : List Event) :
    Arranged desc rows (rows.insertionSort (before desc)) where
  perm := List.perm_insertionSort _ _
  sorted := List.pairwise_insertionSort _ _

/-- The matching events are different from each other. -/
theorem nodup_matching (T : Table) (q : Filter) : (T.matching q).Nodup := by
  refine List.Nodup.filter _ (T.distinct.imp fun h => ?_)
  rintro rfl
  exact h ⟨rfl, rfl, rfl⟩

theorem mem_matching {e : Event} :
    e ∈ T.matching q ↔ e ∈ T.rows ∧ q.inBlocks e = true ∧ q.ofTx e = true := by
  simp [Table.matching, List.mem_filter]

/-- Where no two rows are of one block there is one arrangement. -/
theorem Arranged.unique (h : Arranged desc rows P) (h' : Arranged desc rows Q)
    (hdist : rows.Pairwise fun a b => a.blockNumber ≠ b.blockNumber) : P = Q := by
  have hinj : ∀ a ∈ rows, ∀ b ∈ rows, a.blockNumber = b.blockNumber → a = b := by
    intro a ha b hb heq
    by_contra hne
    exact forall_of_pairwise hdist (fun _ _ => Ne.symm) ha hb hne heq
  refine List.Perm.eq_of_pairwise ?_ h.sorted h'.sorted (h.perm.trans h'.perm.symm)
  intro a b ha hb hab hba
  exact hinj a (h.perm.subset ha) b (h'.perm.subset hb) (before_antisymm hab hba)

/-- What is arranged both ways is of one block. -/
theorem oneBlock_of_sorted (h : P.Perm (T.matching q)) (hup : P.Pairwise (before false))
    (hdown : P.Pairwise (before true)) : OneBlock T q := by
  intro a ha b hb
  have hboth : P.Pairwise fun a b => a.blockNumber = b.blockNumber :=
    (hup.and hdown).imp fun h => Nat.le_antisymm h.1 h.2
  by_cases hab : a = b
  · rw [hab]
  · exact forall_of_pairwise hboth (fun _ _ => Eq.symm) (h.symm.subset ha) (h.symm.subset hb) hab

/-- What is of one block is arranged in any order. -/
theorem sorted_of_oneBlock (h : P.Perm (T.matching q)) (hone : OneBlock T q) (desc : Bool) :
    P.Pairwise (before desc) := by
  refine List.pairwise_of_forall_mem_list fun a ha b hb => ?_
  have heq := hone a (h.subset ha) b (h.subset hb)
  cases desc
  · exact heq.le
  · exact heq.ge

theorem page_full (h : P.length ≤ limit) : page limit 0 P = P := by
  rw [page, List.drop_zero, List.take_of_length_le h]

/-- The pages of a list, one after the other. -/
theorem flatMap_pages (limit n : Nat) (P : List Event) :
    (List.range n).flatMap (fun k => page limit (k * limit) P) = P.take (n * limit) := by
  induction n with
  | zero => simp
  | succ n ih =>
    rw [List.range_succ, List.flatMap_append, ih, List.flatMap_singleton, Nat.succ_mul,
      List.take_add, page]

/-- Answers that are the pages of one arrangement walk over it. -/
theorem walks_of_pages {answer : Nat → Nat → Option (List Event)}
    (h : P.Perm (T.matching q)) (hans : ∀ limit offset, answer limit offset =
      some (page limit offset P)) : Walks T q answer := by
  intro limit n _ hlen
  refine ⟨fun k => page limit (k * limit) P, fun k _ => hans _ _, ?_⟩
  rw [flatMap_pages, List.take_of_length_le (h.length_eq ▸ hlen)]
  exact h

end Arrange

/-! ### SQL -/

section Sql

variable {sql : SqlEngine} {T : Table} {q : Filter} {limit offset : Nat}

/-- The engine that sorts by insertion. -/
def plainEngine : SqlEngine where
  arrange desc _ _ rows := rows.insertionSort (before desc)
  arranged desc _ _ rows := arranged_insertionSort desc rows

/-- **SQLite** answers right whenever the bounds fit. -/
theorem right_sqlite (h : (fits q.blockFrom && fits q.blockTo) = true) :
    Right T q limit offset (queryEventLogs sql T q limit offset) :=
  ⟨_, sql.arranged _ _ _ _, if_pos h⟩

theorem bounds_of_right (h : Right T q limit offset (queryEventLogs sql T q limit offset)) :
    (fits q.blockFrom && fits q.blockTo) = true := by
  obtain ⟨P, -, hans⟩ := h
  by_contra hno
  rw [queryEventLogs, if_neg hno] at hans
  cases hans

/-- **PostgreSQL** answers right if the order downwards is right. -/
theorem right_postgres (h : (fits q.blockFrom && fits q.blockTo) = true)
    (horder : q.orderDesc = true ∨ OneBlock T q) :
    Right T q limit offset (queryEventLogsPG sql T q limit offset) := by
  have harr := sql.arranged true limit offset (T.matching q)
  refine ⟨_, ⟨harr.perm, ?_⟩, if_pos h⟩
  rcases horder with hdesc | hone
  · rw [hdesc]
    exact harr.sorted
  · exact sorted_of_oneBlock harr.perm hone _

theorem order_of_right
    (h : ∀ sql limit offset, Right T q limit offset (queryEventLogsPG sql T q limit offset)) :
    q.orderDesc = true ∨ OneBlock T q := by
  -- the first page, if it is long enough, is the whole arrangement
  obtain ⟨P, hP, hans⟩ := h plainEngine (T.matching q).length 0
  obtain ⟨D, hD⟩ : ∃ D, Arranged true (T.matching q) D ∧
      some (page (T.matching q).length 0 D) = some (page (T.matching q).length 0 P) := by
    refine ⟨_, plainEngine.arranged true (T.matching q).length 0 (T.matching q), ?_⟩
    rw [queryEventLogsPG] at hans
    split at hans
    · exact hans
    · cases hans
  rw [page_full hD.1.perm.length_eq.le, page_full hP.perm.length_eq.le] at hD
  obtain rfl := Option.some.inj hD.2
  cases hdesc : q.orderDesc with
  | true => exact .inl rfl
  | false =>
    rw [hdesc] at hP
    exact .inr (oneBlock_of_sorted hP.perm hP.sorted hD.1.sorted)

/-- One arrangement is enough for the walk. -/
theorem walks_sql {desc : Bool} {answer : Nat → Nat → Option (List Event)}
    (hdist : (T.matching q).Pairwise fun a b => a.blockNumber ≠ b.blockNumber)
    (hans : ∀ limit offset, answer limit offset =
      some (page limit offset (sql.arrange desc limit offset (T.matching q)))) :
    Walks T q answer := by
  have hsame : ∀ limit offset, sql.arrange desc limit offset (T.matching q) =
      sql.arrange desc 0 0 (T.matching q) := fun limit offset =>
    (sql.arranged desc limit offset _).unique (sql.arranged desc 0 0 _) hdist
  refine walks_of_pages (sql.arranged desc 0 0 (T.matching q)).perm fun limit offset => ?_
  rw [hans, hsame]

/-! An engine that orders two rows of one block now this way and now that. -/

section Swap

variable {a b : Event}

theorem mem_map_swap {rows : List Event} (ha : a ∈ rows) (hb : b ∈ rows) (x : Event) :
    x ∈ rows.map (Equiv.swap a b) ↔ x ∈ rows := by
  have hmem : ∀ y ∈ rows, Equiv.swap a b y ∈ rows := by
    intro y hy
    by_cases hya : y = a
    · rw [hya, Equiv.swap_apply_left]
      exact hb
    · by_cases hyb : y = b
      · rw [hyb, Equiv.swap_apply_right]
        exact ha
      · rwa [Equiv.swap_apply_of_ne_of_ne hya hyb]
  constructor
  · intro h
    obtain ⟨y, hy, rfl⟩ := List.mem_map.1 h
    exact hmem y hy
  · intro h
    exact List.mem_map.2 ⟨_, hmem x h, Equiv.swap_apply_self a b x⟩

theorem blockNumber_swap (h : a.blockNumber = b.blockNumber) (x : Event) :
    (Equiv.swap a b x).blockNumber = x.blockNumber := by
  by_cases hxa : x = a
  · rw [hxa, Equiv.swap_apply_left, h]
  · by_cases hxb : x = b
    · rw [hxb, Equiv.swap_apply_right, h]
    · rw [Equiv.swap_apply_of_ne_of_ne hxa hxb]

theorem arranged_swap {desc : Bool} {rows P : List Event} (hP : Arranged desc rows P)
    (hnodup : rows.Nodup) (ha : a ∈ rows) (hb : b ∈ rows)
    (h : a.blockNumber = b.blockNumber) : Arranged desc rows (P.map (Equiv.swap a b)) where
  perm := by
    have hnodupP : P.Nodup := hP.perm.nodup_iff.2 hnodup
    refine (List.Perm.trans ?_ hP.perm)
    refine (List.perm_ext_iff_of_nodup (hnodupP.map (Equiv.swap a b).injective) hnodupP).2 ?_
    exact mem_map_swap (hP.perm.symm.subset ha) (hP.perm.symm.subset hb)
  sorted := by
    rw [List.pairwise_map]
    refine hP.sorted.imp fun {x y} hxy => ?_
    unfold before at hxy ⊢
    rwa [blockNumber_swap h, blockNumber_swap h]

/-- The engine that swaps the two at one offset. -/
def swapEngine (a b : Event) (h : a.blockNumber = b.blockNumber) (at_ : Nat) : SqlEngine where
  arrange desc _ offset rows :=
    let P := rows.insertionSort (before desc)
    if offset = at_ ∧ rows.Nodup ∧ a ∈ rows ∧ b ∈ rows then P.map (Equiv.swap a b) else P
  arranged desc _ offset rows := by
    have hP := arranged_insertionSort desc rows
    simp only
    split
    · next hc => exact arranged_swap hP hc.2.1 hc.2.2.1 hc.2.2.2 h
    · exact hP

/-- **A walk that some engine gets wrong**: one row twice and another not at all. -/
theorem distinct_of_walks (h : ∀ sql, Walks T q (queryEventLogs sql T q)) :
    (T.matching q).Pairwise fun a b => a.blockNumber ≠ b.blockNumber := by
  have hnodup := nodup_matching T q
  refine List.Nodup.pairwise_of_forall_ne hnodup fun a ha b hb hne heq => ?_
  obtain ⟨F, hF⟩ : ∃ F, F = T.matching q := ⟨_, rfl⟩
  rw [← hF] at ha hb hnodup
  obtain ⟨P, hP⟩ : ∃ P, P = F.insertionSort (before q.orderDesc) := ⟨_, rfl⟩
  have harr : Arranged q.orderDesc F P := hP ▸ arranged_insertionSort _ _
  obtain ⟨i, hi, hia⟩ := List.getElem_of_mem (harr.perm.symm.subset ha)
  obtain ⟨j, hj, hjb⟩ := List.getElem_of_mem (harr.perm.symm.subset hb)
  have hij : i ≠ j := by
    rintro rfl
    exact hne (hia.symm.trans hjb)
  obtain ⟨pages, hans, hperm⟩ := h (swapEngine a b heq j) 1 F.length Nat.one_pos (by rw [hF]; omega)
  have hlen : P.length = F.length := harr.perm.length_eq
  -- what the engine arranges at an offset
  have harrange : ∀ k, (swapEngine a b heq j).arrange q.orderDesc 1 k F =
      if k = j then P.map (Equiv.swap a b) else P := by
    intro k
    change (if k = j ∧ F.Nodup ∧ a ∈ F ∧ b ∈ F then _ else _) = _
    simp only [hnodup, ha, hb, and_true, hP]
  have hpages : ∀ k < F.length, pages k = page 1 k (if k = j then P.map (Equiv.swap a b) else P) := by
    intro k hk
    have := hans k hk
    rw [queryEventLogs, Nat.mul_one, ← hF, harrange] at this
    split at this
    · exact (Option.some.inj this).symm
    · cases this
  -- both pages have `a`
  have hone : ∀ (l : List Event) (k : Nat) (hk : k < l.length), page 1 k l = [l[k]] := by
    intro l k hk
    rw [page, List.drop_eq_getElem_cons hk, List.take_succ_cons, List.take_zero]
  have hpi : a ∈ pages i := by
    rw [hpages i (hlen ▸ hi), if_neg hij, hone P i hi, hia]
    exact List.mem_singleton_self _
  have hpj : a ∈ pages j := by
    rw [hpages j (hlen ▸ hj), if_pos rfl, hone _ j (by simpa using hj), List.getElem_map, hjb,
      Equiv.swap_apply_right]
    exact List.mem_singleton_self _
  have hflat : ((List.range F.length).flatMap pages).Nodup := hperm.nodup_iff.2 (hF ▸ hnodup)
  have hdisj := (List.nodup_flatMap.1 hflat).2
  have hrange : ∀ k, k < F.length → k ∈ List.range F.length := fun k hk => List.mem_range.2 hk
  exact forall_of_pairwise hdisj (fun _ _ h => h.symm) (hrange i (hlen ▸ hi))
    (hrange j (hlen ▸ hj)) hij hpi hpj

end Swap

end Sql

/-! ### Keys -/

section Keys

variable {T : Table} {q : Filter}

theorem append_lt_append_left_iff (p : Text) {x y : Text} : p ++ x < p ++ y ↔ x < y := by
  induction p with
  | nil => rfl
  | cons c p ih =>
    rw [List.cons_append, List.cons_append, List.cons_lt_cons_iff]
    simpa using ih

theorem length_padded (w n : Nat) : (padded w n).length = w := by
  induction w generalizing n with
  | zero => rfl
  | succ w ih => rw [padded, List.length_append, ih, List.length_singleton]

theorem toNat_of_mem_padded {w n : Nat} {c : Char} (h : c ∈ padded w n) : c.toNat < 255 := by
  induction w generalizing n with
  | zero => cases h
  | succ w ih =>
    rcases List.mem_append.1 h with h | h
    · exact ih h
    · have hdigit : ∀ d < 10, (Nat.digitChar d).toNat < 255 := by decide
      rw [List.mem_singleton.1 h]
      exact hdigit _ (Nat.mod_lt _ (by omega))

theorem digitChar_lt {a b : Nat} (hab : a < b) (hb : b < 10) :
    Nat.digitChar a < Nat.digitChar b := by
  have h : ∀ b < 10, ∀ a < b, Nat.digitChar a < Nat.digitChar b := by decide
  exact h b hb a hab

/-- **Padded numbers are ordered as numbers are**, whatever follows them. -/
theorem padded_lt {w a b : Nat} (hab : a < b) (hb : b < 10 ^ w) (x y : Text) :
    padded w a ++ x < padded w b ++ y := by
  induction w generalizing a b x y with
  | zero => omega
  | succ w ih =>
    rw [padded, padded, List.append_assoc, List.append_assoc]
    rw [Nat.pow_succ] at hb
    rcases lt_or_eq_of_le (Nat.div_le_div_right hab.le : a / 10 ≤ b / 10) with hlt | heq
    · exact ih hlt (by omega) _ _
    · rw [heq, append_lt_append_left_iff]
      exact List.cons_lt_cons_iff.2 (.inl (digitChar_lt (by omega) (by omega)))

theorem blockKey_lt {b b' : Nat} (h : b < b') (hb' : b' < 10 ^ 20) (x y : Text) :
    blockKey T b ++ x < blockKey T b' ++ y := by
  rw [blockKey, blockKey, List.append_assoc, List.append_assoc, List.append_assoc,
    List.append_assoc, append_lt_append_left_iff]
  exact padded_lt h hb' _ _

theorem not_append_lt (p s : Text) : ¬p ++ s < p := by
  induction p with
  | nil => exact List.not_lt_nil _
  | cons c p ih =>
    rw [List.cons_append, List.cons_lt_cons_iff]
    rintro (h | ⟨-, h⟩)
    · exact lt_irrefl _ h
    · exact ih h

/-- Whatever begins below the top byte comes before it. -/
theorem lt_top {s : Text} (h : ∀ c ∈ s.head?, c.toNat < 255) : s < top := by
  cases s with
  | nil => exact List.nil_lt_cons _ _
  | cons c s =>
    refine List.cons_lt_cons_iff.2 (.inl ?_)
    exact h c rfl

theorem Table.block_lt {e : Event} (he : e ∈ T.rows) : e.blockNumber < 10 ^ 20 :=
  (T.range e he).trans (by norm_num)

/-- The iterator begins with the first block asked for. -/
theorem rocksKey_lt_seek {e : Event} (he : e ∈ T.rows) :
    rocksKey T e < seekKey T q ↔ q.blockFrom.all (· ≤ e.blockNumber) = false := by
  unfold seekKey rocksKey
  cases hfrom : q.blockFrom with
  | none =>
    simp only [Option.map_none, Option.getD_none, Option.all_none, Bool.true_eq_false, iff_false]
    rw [blockKey, List.append_assoc]
    exact not_append_lt _ _
  | some b =>
    have hb : b < 10 ^ 20 := (q.fromRange b hfrom).trans (by norm_num)
    simp only [Option.map_some, Option.getD_some, Option.all_some, decide_eq_false_iff_not, not_le]
    constructor
    · intro hlt
      by_contra hle
      rcases lt_or_eq_of_le (not_lt.1 hle) with hgt | rfl
      · have := blockKey_lt (T := T) hgt (Table.block_lt he) []
          (e.txHash ++ ":".toList ++ padded 20 e.logIndex)
        rw [List.append_nil] at this
        exact lt_asymm hlt this
      · exact not_append_lt _ _ hlt
    · intro hlt
      have := blockKey_lt (T := T) hlt hb (e.txHash ++ ":".toList ++ padded 20 e.logIndex) []
      rwa [List.append_nil] at this

/-- It ends with the last one. -/
theorem rocksKey_lt_end {e : Event} (he : e ∈ T.rows) :
    rocksKey T e < endKey T q ↔ q.blockTo.all (e.blockNumber ≤ ·) = true := by
  unfold endKey rocksKey
  cases hto : q.blockTo with
  | none =>
    simp only [Option.map_none, Option.getD_none, Option.all_none, iff_true]
    rw [blockKey, List.append_assoc, append_lt_append_left_iff]
    obtain ⟨c, rest, hpad⟩ : ∃ c rest, padded 20 e.blockNumber = c :: rest :=
      List.exists_cons_of_length_eq_add_one (length_padded 20 e.blockNumber)
    rw [hpad]
    refine lt_top fun d hd => ?_
    obtain rfl := Option.some.inj hd
    exact toNat_of_mem_padded (hpad ▸ List.mem_cons_self)
  | some b =>
    have hb : b < 10 ^ 20 := (q.toRange b hto).trans (by norm_num)
    simp only [Option.map_some, Option.getD_some, Option.all_some, decide_eq_true_eq]
    constructor
    · intro hlt
      by_contra hle
      exact lt_asymm hlt (blockKey_lt (not_le.1 hle) (Table.block_lt he) _ _)
    · intro hle
      rcases lt_or_eq_of_le hle with hlt | rfl
      · exact blockKey_lt hlt hb _ _
      · rw [append_lt_append_left_iff]
        refine lt_top fun c hc => ?_
        cases htx : e.txHash with
        | nil =>
          rw [htx] at hc
          obtain rfl := Option.some.inj hc
          decide
        | cons d tx =>
          rw [htx] at hc
          obtain rfl := Option.some.inj hc
          exact T.utf8 e he d (htx ▸ List.mem_cons_self)

end Keys

/-! ### What RocksDB holds -/

section Store

variable {T : Table} {q : Filter} {limit offset : Nat}

/-- The event under a key is one that was inserted, and a key is there once. -/
theorem foldl_put (rows : List Event) (db : List (Text × Event)) :
    (∀ x ∈ rows.foldl (put T) db, x ∈ db ∨ ∃ e ∈ rows, x = (rocksKey T e, e)) ∧
      ((db.map (·.1)).Nodup → ((rows.foldl (put T) db).map (·.1)).Nodup) := by
  induction rows generalizing db with
  | nil => exact ⟨fun x hx => .inl hx, id⟩
  | cons e rows ih =>
    obtain ⟨hmem, hnodup⟩ := ih (put T db e)
    refine ⟨fun x hx => ?_, fun h => hnodup ?_⟩
    · rcases hmem x hx with hx | ⟨e', he', rfl⟩
      · rcases List.mem_append.1 hx with hx | hx
        · exact .inl (List.mem_filter.1 hx).1
        · exact .inr ⟨e, List.mem_cons_self, List.mem_singleton.1 hx⟩
      · exact .inr ⟨e', List.mem_cons_of_mem _ he', rfl⟩
    · rw [put, List.map_append]
      refine List.nodup_append.2 ⟨h.sublist (List.filter_sublist.map _), List.nodup_singleton _, ?_⟩
      rintro k hk _ hk' rfl
      obtain ⟨x, hx, rfl⟩ := List.mem_map.1 hk
      have hne := (List.mem_filter.1 hx).2
      rw [List.map_singleton, List.mem_singleton] at hk'
      simp [hk'] at hne

/-- An event whose key no later one has is still there. -/
theorem mem_foldl_put {e : Event} (rows : List Event) (db : List (Text × Event))
    (h : e ∈ rows ∨ (rocksKey T e, e) ∈ db)
    (hkey : ∀ e' ∈ rows, rocksKey T e' = rocksKey T e → e' = e) :
    (rocksKey T e, e) ∈ rows.foldl (put T) db := by
  induction rows generalizing db with
  | nil => exact h.resolve_left (List.not_mem_nil)
  | cons r rows ih =>
    refine ih _ ?_ fun e' he' => hkey e' (List.mem_cons_of_mem _ he')
    by_cases hr : r = e
    · rw [hr]
      exact .inr (List.mem_append_right _ (List.mem_singleton_self _))
    · refine h.imp (fun h => (List.mem_cons.1 h).resolve_left (Ne.symm hr)) fun h => ?_
      refine List.mem_append_left _ (List.mem_filter.2 ⟨h, ?_⟩)
      have hne : rocksKey T e ≠ rocksKey T r := fun heq =>
        hr (hkey r List.mem_cons_self heq.symm)
      simpa using hne

theorem mem_store {x : Text × Event} (h : x ∈ store T) : x.2 ∈ T.rows ∧ x.1 = rocksKey T x.2 := by
  rcases (foldl_put T.rows []).1 x ((List.mem_insertionSort _).1 h) with h | ⟨e, he, rfl⟩
  · cases h
  · exact ⟨he, rfl⟩

theorem store_of_mem {e : Event} (he : e ∈ T.rows)
    (hkey : ∀ e' ∈ T.rows, rocksKey T e' = rocksKey T e → e' = e) : (rocksKey T e, e) ∈ store T :=
  (List.mem_insertionSort _).2 (mem_foldl_put _ _ (.inl he) hkey)

/-- The keys come in their order, each once. -/
theorem store_sorted : (store T).Pairwise fun x y => x.1 < y.1 := by
  have : Std.Total (fun a b : Text × Event => a.1 ≤ b.1) := ⟨fun a b => le_total a.1 b.1⟩
  have : IsTrans (Text × Event) (fun a b => a.1 ≤ b.1) := ⟨fun a b c => le_trans⟩
  have hle : (store T).Pairwise fun x y => x.1 ≤ y.1 := List.pairwise_insertionSort _ _
  have hnodup : ((store T).map (·.1)).Nodup := by
    refine (((List.perm_insertionSort _ _).map _).nodup_iff).2 ?_
    exact (foldl_put T.rows []).2 List.nodup_nil
  rw [List.Nodup, List.pairwise_map] at hnodup
  exact (hle.and hnodup).imp fun h => lt_of_le_of_ne h.1 h.2

/-- The events held, by their keys. -/
theorem held_sorted : (held T q).Pairwise fun a b => rocksKey T a < rocksKey T b := by
  refine List.Pairwise.filter _ ?_
  rw [List.pairwise_map]
  refine store_sorted.imp_of_mem fun {x y} hx hy hlt => ?_
  rwa [← (mem_store hx).2, ← (mem_store hy).2]

theorem mem_held {e : Event} (h : e ∈ held T q) : e ∈ T.rows ∧ q.inBlocks e = true := by
  obtain ⟨hmem, hin⟩ := List.mem_filter.1 h
  obtain ⟨x, hx, rfl⟩ := List.mem_map.1 hmem
  exact ⟨(mem_store hx).1, hin⟩

/-- Events held come in the order of their blocks. -/
theorem held_blocks : (held T q).Pairwise (before false) := by
  refine held_sorted.imp_of_mem fun {a b} ha hb hlt => ?_
  change a.blockNumber ≤ b.blockNumber
  by_contra hgt
  exact lt_asymm hlt (blockKey_lt (not_le.1 hgt) (Table.block_lt (mem_held ha).1) _ _)

theorem held_nodup : (held T q).Nodup :=
  held_sorted.imp fun {a b} h => by
    rintro rfl
    exact lt_irrefl _ h

/-- Of keys in their order, those from one on and up to another are an interval. -/
theorem interval_eq_filter {α : Type} {l : List (Text × α)} (h : l.Pairwise fun x y => x.1 ≤ y.1)
    (s t : Text) : (l.dropWhile (·.1 < s)).takeWhile (·.1 < t) =
      l.filter fun x => !decide (x.1 < s) && decide (x.1 < t) := by
  have htake : ∀ l : List (Text × α), l.Pairwise (fun x y => x.1 ≤ y.1) →
      (∀ x ∈ l, ¬x.1 < s) → l.takeWhile (·.1 < t) =
        l.filter fun x => !decide (x.1 < s) && decide (x.1 < t) := by
    intro l hl hs
    induction l with
    | nil => rfl
    | cons x l ih =>
      rw [List.pairwise_cons] at hl
      have hx := hs x List.mem_cons_self
      rw [List.takeWhile_cons, List.filter_cons]
      by_cases ht : x.1 < t
      · rw [if_pos (by simpa using ht), if_pos (by simp [hx, ht]),
          ih hl.2 fun y hy => hs y (List.mem_cons_of_mem _ hy)]
      · -- from here on all keys are too large
        rw [if_neg (by simpa using ht), if_neg (by simp [ht])]
        refine (List.filter_eq_nil_iff.2 fun y hy => ?_).symm
        have hyt : ¬y.1 < t := fun hyt => ht (lt_of_le_of_lt (hl.1 y hy) hyt)
        simp [hyt]
  induction l with
  | nil => rfl
  | cons x l ih =>
    rw [List.dropWhile_cons]
    split
    · next hs =>
      have hs : x.1 < s := by simpa using hs
      rw [ih (List.pairwise_cons.1 h).2, List.filter_cons, if_neg (by simp [hs])]
    · next hs =>
      have hs : ¬x.1 < s := by simpa using hs
      refine htake _ h fun y hy => ?_
      rcases List.mem_cons.1 hy with rfl | hy
      · exact hs
      · exact fun hys => hs (lt_of_le_of_lt ((List.pairwise_cons.1 h).1 y hy) hys)

/-- The loop, as a pipeline: bounds, offset, hash, limit. -/
theorem scan_eq (l : List (Text × Event)) {skipped rowCount : Nat} (hs : skipped ≤ offset) :
    scan T q limit offset l skipped rowCount =
      ((((l.takeWhile (·.1 < endKey T q)).map (·.2)).drop (offset - skipped)).filter
        (holds q)).take (limit - rowCount) := by
  induction l generalizing skipped rowCount with
  | nil => simp [scan]
  | cons x l ih =>
    obtain ⟨key, e⟩ := x
    rw [scan]
    by_cases hlimit : limit ≤ rowCount
    · rw [if_pos hlimit, Nat.sub_eq_zero_of_le hlimit, List.take_zero]
    rw [if_neg hlimit, List.takeWhile_cons]
    by_cases hend : endKey T q ≤ key
    · rw [if_pos hend, if_neg (by simpa using hend)]
      simp
    have hlt : decide (key < endKey T q) = true := by simpa using hend
    simp only [if_neg hend, hlt, if_true, List.map_cons]
    by_cases hskip : skipped < offset
    · rw [if_pos hskip, ih hskip,
        show offset - skipped = (offset - (skipped + 1)) + 1 by omega, List.drop_succ_cons]
    · rw [if_neg hskip, show offset - skipped = 0 by omega, List.drop_zero, List.filter_cons]
      have hzero : offset - skipped = 0 := by omega
      cases hholds : holds q e with
      | false => rw [if_pos rfl, ih hs, hzero, List.drop_zero, if_neg (by simp)]
      | true =>
        rw [if_neg (by simp), ih hs, hzero, List.drop_zero, if_pos rfl,
          show limit - rowCount = (limit - (rowCount + 1)) + 1 by omega, List.take_succ_cons]

/-- **What RocksDB answers.** -/
theorem queryEventLogsRocks_eq (h : keysFit T q = true) :
    queryEventLogsRocks T q limit offset =
      some ((((held T q).drop offset).filter (holds q)).take limit) := by
  rw [queryEventLogsRocks, if_pos h, scan_eq _ (Nat.zero_le _), interval_eq_filter (store_sorted.imp le_of_lt),
    Nat.sub_zero, Nat.sub_zero]
  have hheld : ((store T).filter fun x => !decide (x.1 < seekKey T q) &&
      decide (x.1 < endKey T q)).map (·.2) = held T q := by
    rw [held, List.filter_map]
    congr 1
    refine List.filter_congr fun x hx => ?_
    obtain ⟨hrow, hkey⟩ := mem_store hx
    have hseek := rocksKey_lt_seek (q := q) hrow
    have hend := rocksKey_lt_end (q := q) hrow
    rw [← hkey] at hseek hend
    rw [Function.comp_apply, Filter.inBlocks, Bool.eq_iff_iff]
    simp only [Bool.and_eq_true, Bool.not_eq_true', decide_eq_false_iff_not, decide_eq_true_eq,
      hseek, hend, Bool.not_eq_false]
  rw [hheld]

end Store

/-! ### RocksDB -/

section Rocks

variable {T : Table} {q : Filter} {limit offset : Nat}

/-- The end of a key is the hash and the index. -/
theorem txHash_of_rocksKey {a b : Event} (h : rocksKey T a = rocksKey T b)
    (hblock : a.blockNumber = b.blockNumber) : a.txHash = b.txHash := by
  rw [rocksKey, rocksKey, hblock] at h
  have hrest := List.append_cancel_left h
  rw [List.append_assoc, List.append_assoc] at hrest
  exact (List.append_inj' hrest (by simp [length_padded])).1

/-- The block of an event is in its key. -/
theorem block_of_rocksKey {a b : Event} (ha : a ∈ T.rows) (hb : b ∈ T.rows)
    (h : rocksKey T a = rocksKey T b) : a.blockNumber = b.blockNumber := by
  rcases lt_trichotomy a.blockNumber b.blockNumber with hlt | heq | hgt
  · have hkeys : rocksKey T a < rocksKey T b := blockKey_lt hlt (Table.block_lt hb) _ _
    rw [h] at hkeys
    exact absurd hkeys (lt_irrefl _)
  · exact heq
  · have hkeys : rocksKey T b < rocksKey T a := blockKey_lt hgt (Table.block_lt ha) _ _
    rw [h] at hkeys
    exact absurd hkeys (lt_irrefl _)

/-- Matching events that do not overwrite each other are held. -/
theorem mem_held_of_kept {e : Event} (he : e ∈ T.matching q)
    (hkept : (T.matching q).Pairwise fun a b => rocksKey T a ≠ rocksKey T b) : e ∈ held T q := by
  obtain ⟨hrow, hin, htx⟩ := mem_matching.1 he
  refine List.mem_filter.2 ⟨List.mem_map.2 ⟨_, store_of_mem hrow ?_, rfl⟩, hin⟩
  intro e' he' hkey
  by_contra hne
  -- what overwrites a matching event matches
  have hblock := block_of_rocksKey he' hrow hkey
  have htx' := txHash_of_rocksKey hkey hblock
  have hmatch : e' ∈ T.matching q := by
    refine mem_matching.2 ⟨he', ?_, ?_⟩
    · rwa [Filter.inBlocks, hblock]
    · rwa [Filter.ofTx, htx']
  exact forall_of_pairwise hkept (fun _ _ => Ne.symm) hmatch he hne hkey

/-- Where what is kept comes first, an offset may be taken before or after. -/
theorem filter_drop_comm {p : Event → Bool} : ∀ {l : List Event} (n : Nat),
    l.Pairwise (fun a b => p b = true → p a = true) → (l.drop n).filter p = (l.filter p).drop n
  | [], n, _ => by simp
  | a :: l, 0, _ => rfl
  | a :: l, n + 1, h => by
    obtain ⟨hhead, htail⟩ := List.pairwise_cons.1 h
    rw [List.drop_succ_cons, filter_drop_comm n htail, List.filter_cons]
    split
    · rw [List.drop_succ_cons]
    · next ha =>
      -- nothing is kept from here on
      have hnil : l.filter p = [] := List.filter_eq_nil_iff.2 fun b hb hpb => ha (hhead b hb hpb)
      rw [hnil, List.drop_nil, List.drop_nil]

/-- The matching events, as RocksDB holds them. -/
theorem perm_held (h : RocksPlain T q) :
    ((held T q).filter (holds q)).Perm (T.matching q) := by
  refine (List.perm_ext_iff_of_nodup (held_nodup.filter _) (nodup_matching T q)).2 fun e => ?_
  rw [List.mem_filter]
  constructor
  · rintro ⟨he, hholds⟩
    obtain ⟨hrow, hin⟩ := mem_held he
    exact mem_matching.2 ⟨hrow, hin, h.tx e he ▸ hholds⟩
  · intro he
    have hheld := mem_held_of_kept he h.kept
    exact ⟨hheld, by rw [h.tx e hheld]; exact (mem_matching.1 he).2.2⟩

theorem arranged_held (h : RocksPlain T q) :
    Arranged q.orderDesc (T.matching q) ((held T q).filter (holds q)) where
  perm := perm_held h
  sorted := by
    rcases h.order with hasc | hone
    · rw [hasc]
      exact held_blocks.filter _
    · exact sorted_of_oneBlock (perm_held h) hone _

theorem rocks_page (h : RocksPlain T q) : queryEventLogsRocks T q limit offset =
    some (page limit offset ((held T q).filter (holds q))) := by
  rw [queryEventLogsRocks_eq h.short, page, filter_drop_comm]
  refine held_sorted.imp_of_mem fun {a b} ha hb hlt hpb => ?_
  rw [h.tx a ha]
  rw [h.tx b hb] at hpb
  by_contra hpa
  exact lt_asymm hlt (h.first b hb a ha hpb (by simpa using hpa))

/-- **RocksDB answers right** exactly when `RocksPlain` holds. -/
theorem rocks_right_iff : (∀ limit offset,
    Right T q limit offset (queryEventLogsRocks T q limit offset)) ↔ RocksPlain T q := by
  constructor
  · intro h
    have hshort : keysFit T q = true := by
      obtain ⟨P, -, hans⟩ := h 0 0
      by_contra hno
      rw [queryEventLogsRocks, if_neg hno] at hans
      cases hans
    -- every tail of what is held, filtered, is a tail of an arrangement
    have htail : ∀ offset, ∃ P, Arranged q.orderDesc (T.matching q) P ∧
        ((held T q).drop offset).filter (holds q) = P.drop offset := by
      intro offset
      obtain ⟨P, hP, hans⟩ := h ((held T q).length + (T.matching q).length) offset
      refine ⟨P, hP, ?_⟩
      rw [queryEventLogsRocks_eq hshort, page] at hans
      have hans := Option.some.inj hans
      have h₁ := List.length_filter_le (holds q) ((held T q).drop offset)
      have h₂ := hP.perm.length_eq
      rw [List.length_drop] at h₁
      rwa [List.take_of_length_le (by omega),
        List.take_of_length_le (by rw [List.length_drop]; omega)] at hans
    obtain ⟨P, hP, hall⟩ := htail 0
    rw [List.drop_zero, List.drop_zero] at hall
    have hperm : ((held T q).filter (holds q)).Perm (T.matching q) := hall ▸ hP.perm
    have htx : ∀ e ∈ held T q, holds q e = q.ofTx e := by
      intro e he
      obtain ⟨hrow, hin⟩ := mem_held he
      rw [Bool.eq_iff_iff]
      constructor
      · intro hholds
        exact (mem_matching.1 (hperm.subset (List.mem_filter.2 ⟨he, hholds⟩))).2.2
      · intro hof
        exact (List.mem_filter.1 (hperm.symm.subset (mem_matching.2 ⟨hrow, hin, hof⟩))).2
    refine ⟨hshort, ?_, ?_, htx, ?_⟩
    · have hkeys : ((held T q).filter (holds q)).Pairwise fun a b =>
          rocksKey T a ≠ rocksKey T b := (held_sorted.filter _).imp fun h => ne_of_lt h
      exact hkeys.perm hperm fun h => h.symm
    · cases hdesc : q.orderDesc with
      | false => exact .inl rfl
      | true =>
        rw [hdesc] at hP
        exact .inr (oneBlock_of_sorted hperm (held_blocks.filter _) (hall ▸ hP.sorted))
    · intro a ha b hb hofa hofb
      by_contra hlt
      have hne : b ≠ a := by
        rintro rfl
        rw [hofa] at hofb
        cases hofb
      -- the offset just behind `b` skips one matching event too few
      obtain ⟨l₁, l₂, hsplit⟩ := List.append_of_mem hb
      have ha₂ : a ∈ l₂ := by
        have hsorted := held_sorted (T := T) (q := q)
        rw [hsplit] at hsorted ha
        rcases List.mem_append.1 ha with ha | ha
        · exact absurd ((List.pairwise_append.1 hsorted).2.2 a ha b List.mem_cons_self) hlt
        · exact (List.mem_cons.1 ha).resolve_left (Ne.symm hne)
      obtain ⟨Q, hQ, hdrop⟩ := htail (l₁.length + 1)
      have hl₂ : (held T q).drop (l₁.length + 1) = l₂ := by
        rw [hsplit, ← List.drop_drop, List.drop_left', List.drop_one, List.tail_cons]
        rfl
      have hcount : (l₂.filter (holds q)).length = (T.matching q).length - (l₁.length + 1) := by
        rw [← hl₂, hdrop, List.length_drop, hQ.perm.length_eq]
      have hpos : 0 < (l₂.filter (holds q)).length := by
        refine List.length_pos_of_mem (List.mem_filter.2 ⟨ha₂, ?_⟩)
        rw [htx a ha]
        exact hofa
      have htotal : (l₁.filter (holds q)).length + (l₂.filter (holds q)).length =
          (T.matching q).length := by
        have hb' : holds q b = false := (htx b hb).trans hofb
        rw [← hperm.length_eq, hsplit, List.filter_append, List.filter_cons, hb',
          List.length_append]
        rfl
      have := List.length_filter_le (holds q) l₁
      omega
  · intro h limit offset
    exact ⟨_, arranged_held h, rocks_page h⟩

end Rocks

/-! ### All three -/

/-- **When the three backends answer alike.** -/
theorem alike_iff_plain (T : Table) (q : Filter) : Alike T q ↔ Plain T q := by
  constructor
  · intro h
    exact ⟨bounds_of_right (h.sqlite plainEngine 0 0), order_of_right h.postgres,
      rocks_right_iff.1 h.rocks, distinct_of_walks h.walkSqlite⟩
  · intro h
    refine ⟨fun _ _ _ => right_sqlite h.bounds, fun _ _ _ => right_postgres h.bounds h.postgres,
      rocks_right_iff.2 h.rocks, fun sql => ?_, fun sql => ?_, ?_⟩
    · exact walks_sql h.paged fun _ _ => if_pos h.bounds
    · exact walks_sql h.paged fun _ _ => if_pos h.bounds
    · exact walks_of_pages (perm_held h.rocks) fun _ _ => rocks_page h.rocks

/-- Two events of a token. -/
def twoTransfers : Table where
  contractName := "token".toList
  eventName := "Transfer".toList
  rows := [⟨"0xa".toList, "0x1".toList, 0, 1, []⟩, ⟨"0xa".toList, "0x2".toList, 0, 2, []⟩]
  distinct := by decide
  range := by
    intro e he
    have hsmall : ∀ e ∈ [(⟨"0xa".toList, "0x1".toList, 0, 1, []⟩ : Event),
        ⟨"0xa".toList, "0x2".toList, 0, 2, []⟩], e.blockNumber ≤ 2 := by decide
    exact (hsmall e he).trans_lt (by norm_num)
  utf8 := by simp

/-- **The order upwards is not to be had from PostgreSQL.** -/
theorem not_alike_upwards : ¬Alike twoTransfers { orderDesc := false } := by
  intro h
  obtain ⟨P, hP, hans⟩ := h.postgres plainEngine 1 0
  have hfirst : queryEventLogsPG plainEngine twoTransfers { orderDesc := false } 1 0 =
      some [⟨"0xa".toList, "0x2".toList, 0, 2, []⟩] := by decide +kernel
  rw [hfirst] at hans
  -- an arrangement upwards cannot begin with the later of the two
  obtain ⟨rest, rfl⟩ : ∃ rest, P = ⟨"0xa".toList, "0x2".toList, 0, 2, []⟩ :: rest := by
    cases P with
    | nil => cases hans
    | cons e rest =>
      obtain ⟨rfl, -⟩ := List.cons.inj (Option.some.inj hans)
      exact ⟨rest, rfl⟩
  have hmem : (⟨"0xa".toList, "0x1".toList, 0, 1, []⟩ : Event) ∈ rest := by
    have hin : (⟨"0xa".toList, "0x1".toList, 0, 1, []⟩ : Event) ∈
        twoTransfers.matching { orderDesc := false } := by decide +kernel
    have := hP.perm.symm.subset hin
    exact (List.mem_cons.1 this).resolve_left (by decide)
  have hle := (List.pairwise_cons.1 hP.sorted).1 _ hmem
  revert hle
  decide

end Zponder.EventQuery

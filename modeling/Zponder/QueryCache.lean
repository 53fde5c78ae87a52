import Zponder.Lib.Machine
import Zponder.QueryKey
import Zponder.Spans

/-!
# The cache of the API

`GET /events` and `GET /queries` beside everything that changes the tables, step by step:
a request reads a cursor, looks into the cache, asks the database and puts what it got into
the cache, and between any two of these steps a statement may run, a transaction may
be committed or rolled back, and a cursor may move, forwards or back.

Two things are to keep the cached answers fresh. An entry counts as old once the cursor is
above the one it was stored with; and who writes to an event table drops the entries of the
event. The second does nothing: the prefix it looks for (`Zponder.Cache.prefixOf`) is not
one the keys begin with (`Zponder.Cache.invalidate_eq_self`). What is left is the cursor,
and whether it is enough depends on where it stands when a request comes in
(`Zponder.Api.Guarded`).

For the reader every entry says which request it answered, and as of which of the committed
states of the database; the committed states are counted.
-/

namespace Zponder

open Imperative

/-! ### Requests -/

/-- A query of the configuration: the names and the values of its parameters, in the order
of the request. -/
structure NamedQuery where
  name : Text
  params : List (Text × Text)
  deriving DecidableEq, Repr

/-- The key of `handleQuery`: the values, and not the names. -/
def NamedQuery.cacheKey (q : NamedQuery) : Text :=
  "q:".toList ++ (q.name ++ ':' :: q.params.flatMap fun p => p.2 ++ [':'])

/-- What the API is asked for. -/
inductive Request where
  | events (q : EventQuery)
  | named (q : NamedQuery)
  deriving DecidableEq, Repr

def Request.cacheKey : Request → Text
  | .events q => q.cacheKey
  | .named q => q.cacheKey

/-- A query for events shares its key with no other request. -/
theorem Request.eq_of_cacheKey {q : EventQuery} {r : Request} (h : r.cacheKey = q.cacheKey) :
    r = .events q := by
  cases r with
  | events q' => exact congrArg Request.events (EventQuery.cacheKey_injective h)
  | named q' =>
    have hhead : 'q' = 'c' := (List.cons.inj h).1
    exact absurd hhead (by decide)

/-- Two states of the database are one to a request: for events, if the rows of the table are
the same. -/
def Request.Same (t t' : Tables) : Request → Prop
  | .events q => EventQuery.rowsOf q.table t = EventQuery.rowsOf q.table t'
  | .named _ => t = t'

/-! ### The cache -/

/-- `CacheEntry`, and for the reader where it comes from. -/
structure CacheEntry where
  key : Text
  data : Text
  validUpTo : Nat
  request : Request
  asOf : Nat
  deriving DecidableEq, Repr

/-- The entries, the least recently used first. -/
abbrev Cache : Type := List CacheEntry

namespace Cache

/-- `get`: an entry whose cursor has been passed is not served. -/
def get (key : Text) (currentSyncBlock : Nat) (c : Cache) : Option CacheEntry × Cache :=
  match c.find? fun e => e.key == key with
  | none => (none, c)
  | some e =>
    if currentSyncBlock > e.validUpTo then (none, c)
    else (some e, c.filter (fun e' => e'.key != key) ++ [e])

/-- The memory the entries take. -/
def totalBytes (c : Cache) : Nat := (c.map (·.data.length)).sum

/-- The eviction of `put`. -/
def evict (maxEntries maxBytes size : Nat) : Cache → Cache
  | [] => []
  | e :: c =>
    if (e :: c).length ≥ maxEntries ∨ totalBytes (e :: c) + size > maxBytes
    then evict maxEntries maxBytes size c else e :: c

/-- `put`: what is too large for the cache is left out. -/
def put (maxEntries maxBytes : Nat) (new : CacheEntry) (c : Cache) : Cache :=
  if new.data.length > maxBytes / 4 then c
  else
    let others := c.filter fun e => e.key != new.key
    evict maxEntries maxBytes new.data.length others ++ [new]

/-- The prefix `invalidate` looks for. -/
def prefixOf (contract event : Text) : Text := contract ++ ':' :: (event ++ [':'])

/-- `invalidate` -/
def invalidate (contract event : Text) (c : Cache) : Cache :=
  c.filter fun e => !(prefixOf contract event).isPrefixOf e.key

theorem mem_of_mem_evict {maxEntries maxBytes size : Nat} {e : CacheEntry} {c : Cache}
    (h : e ∈ evict maxEntries maxBytes size c) : e ∈ c := by
  induction c with
  | nil => exact h
  | cons e' c ih =>
    rw [evict] at h
    split at h
    · exact List.mem_cons_of_mem _ (ih h)
    · exact h

/-- Nothing comes into the cache but what is put there. -/
theorem mem_put {maxEntries maxBytes : Nat} {new e : CacheEntry} {c : Cache}
    (h : e ∈ put maxEntries maxBytes new c) : e ∈ c ∨ e = new := by
  unfold put at h
  split at h
  · exact .inl h
  · rcases List.mem_append.1 h with h | h
    · exact .inl (List.mem_filter.1 (mem_of_mem_evict h)).1
    · exact .inr (List.mem_singleton.1 h)

/-- What is served is in the cache, under its key, and was not passed by the cursor. -/
theorem get_spec (key : Text) (cur : Nat) (c : Cache) :
    (∀ e ∈ (get key cur c).1, e ∈ c ∧ e.key = key ∧ cur ≤ e.validUpTo) ∧
      ∀ e ∈ (get key cur c).2, e ∈ c := by
  unfold get
  split
  · exact ⟨by simp, fun _ h => h⟩
  · next e he =>
    have hmem : e ∈ c := List.mem_of_find?_eq_some he
    have hkey : e.key = key := by simpa using List.find?_some he
    split
    · exact ⟨by simp, fun _ h => h⟩
    · next hcur =>
      refine ⟨fun e' he' => ?_, fun e' he' => ?_⟩
      · obtain rfl := Option.some.inj he'
        exact ⟨hmem, hkey, Nat.not_lt.1 hcur⟩
      · rcases List.mem_append.1 he' with he' | he'
        · exact (List.mem_filter.1 he').1
        · exact List.mem_singleton.1 he' ▸ hmem

end Cache

/-- **Dropping the entries of an event drops no answer about an event**, unless the contract
has a strange name. -/
theorem Cache.mem_invalidate {contract event : Text} (hname : '=' ∉ contract) {e : CacheEntry}
    {c : Cache} (hmem : e ∈ c) {q : EventQuery} (hkey : e.key = q.cacheKey) :
    e ∈ c.invalidate contract event := by
  refine List.mem_filter.2 ⟨hmem, ?_⟩
  rw [hkey, Bool.not_eq_true', Bool.eq_false_iff]
  intro hprefix
  obtain ⟨rest, hrest⟩ := List.isPrefixOf_iff_prefix.1 hprefix
  -- the second character of the key is an equals sign
  have hsecond : (prefixOf contract event ++ rest)[1]? = some '=' := by
    rw [hrest]
    rfl
  match contract with
  | [] =>
    have hfirst : ':' = 'c' := (List.cons.inj hrest).1
    exact absurd hfirst (by decide)
  | [_] => exact absurd (Option.some.inj hsecond) (by decide)
  | a :: b :: contract =>
    have hb : b = '=' := Option.some.inj hsecond
    exact hname (hb ▸ List.mem_cons_of_mem _ List.mem_cons_self)

/-! ### The server -/

namespace Api

/-- Where a request is. -/
inductive Phase where
  /-- It knows the cursor, and was begun after so many commits. -/
  | begun (r : Request) (cursor began : Nat)
  /-- It was not in the cache. -/
  | missed (r : Request) (cursor began : Nat)
  /-- The database has answered, as of so many commits. -/
  | answered (r : Request) (cursor began : Nat) (data : Text) (asOf : Nat)
  deriving DecidableEq, Repr

/-- An answer that was sent: to what, begun and sent after how many commits. -/
structure Sent where
  request : Request
  began : Nat
  now : Nat
  data : Text
  deriving DecidableEq, Repr

/-- The database, the cursors of the indexers, the cache, the requests under way, and what
was sent. -/
structure Server where
  /-- The committed states: `states version` is the last. -/
  states : Nat → Tables
  version : Nat := 0
  /-- The tables as a transaction that is open sees them. -/
  pending : Option Tables := none
  indexers : List (Text × Nat)
  cache : Cache := []
  requests : Nat → Option Phase := fun _ => none
  sent : List Sent := []

/-- A statement: it is committed at once, or with the transaction that is open. -/
def Server.statement (f : Tables → Tables) (s : Server) : Server :=
  match s.pending with
  | some t => { s with pending := some (f t) }
  | none => { s with
      states := Function.update s.states (s.version + 1) (f (s.states s.version))
      version := s.version + 1 }

/-- The cursor a request goes by: of the contract, or the highest. -/
def Server.cursorOf (s : Server) : Request → Nat
  | .events q => ((s.indexers.find? (·.1 == q.contractName)).map (·.2)).getD 0
  | .named _ => (s.indexers.map (·.2)).foldl max 0

/-- What may happen. -/
inductive Act where
  | beginWrite
  | commitWrite
  | rollbackWrite
  | insertEventLog (contract event : Text) (row : EventRow)
  | deleteEventLogsInRange (contract event : Text) (fromBlock toBlock : Nat)
  /-- Any other statement. -/
  | statement (f : Tables → Tables)
  /-- The cursor of an indexer. -/
  | setCurrentBlock (i block : Nat)
  /-- A request comes in. -/
  | request (i : Nat) (r : Request)
  /-- It goes on. The database may fail, and so may storing the answer. -/
  | go (i : Nat) (ok : Bool)

/-- `rollbackFromBlock`: its deletions drop no entries. -/
def rollbackFromBlock (contract : Text) (events : List Text) (fromBlock : Nat) : List Act :=
  [.beginWrite] ++
    (events.map fun e =>
      .statement (Tables.deleteEvents (eventTable contract e) fromBlock u64Max)) ++ [.commitWrite]

/-- `resetForReplay` -/
def resetForReplay (contract : Text) (events : List Text) (fromBlock toBlock : Nat) : List Act :=
  [.beginWrite] ++ (events.map fun e => .deleteEventLogsInRange contract e fromBlock toBlock) ++
    [.commitWrite]

/-- What the API is made of: the engine of the database, the size of the cache, how a row is
written down, and what the configured queries mean. -/
structure Setup where
  backend : Backend := .sqlite
  maxEntries : Nat := 1000
  maxBytes : Nat := 67108864
  json : EventRow → Text
  sql : NamedQuery → Tables → Option Text

/-- What the database answers, if it does. -/
def Setup.answer (u : Setup) : Request → Tables → Option Text
  | .events q, t => (q.rows u.backend u.json t).map fun rows =>
    '[' :: ([','].intercalate (rows.map u.json) ++ [']'])
  | .named q, t => u.sql q t

section Step

variable (u : Setup)

/-- The entries of an event are dropped. -/
def Server.invalidate (contract event : Text) (s : Server) : Server :=
  { s with cache := s.cache.invalidate contract event }

/-- The request is over. -/
def Server.send (i : Nat) (r : Request) (began : Nat) (data : Text) (s : Server) : Server :=
  { s with
    requests := Function.update s.requests i none
    sent := s.sent ++ [⟨r, began, s.version, data⟩] }

/-- A step of a request. Who asks the database waits until no transaction is open. -/
def Server.go (i : Nat) (ok : Bool) (s : Server) : Option Server := do
  match ← s.requests i with
  | .begun r cursor began =>
    let hit := s.cache.get r.cacheKey cursor
    let s := { s with cache := hit.2 }
    match hit.1 with
    | some e => some (s.send i r began e.data)
    | none => some { s with
        requests := Function.update s.requests i (some (.missed r cursor began)) }
  | .missed r cursor began =>
    if s.pending = none then
      let data := if ok = true then u.answer r (s.states s.version) else none
      let phase := data.map fun data => .answered r cursor began data s.version
      some { s with requests := Function.update s.requests i phase }
    else none
  | .answered r cursor began data asOf =>
    let entry := ⟨r.cacheKey, data, cursor, r, asOf⟩
    let s := if ok = true then { s with cache := s.cache.put u.maxEntries u.maxBytes entry } else s
    some (s.send i r began data)

/-- A step. -/
def step (s : Server) : Act → Option Server
  | .beginWrite =>
    if s.pending = none then some { s with pending := some (s.states s.version) } else none
  | .commitWrite => s.pending.map fun t =>
    { s with
      states := Function.update s.states (s.version + 1) t
      version := s.version + 1
      pending := none }
  | .rollbackWrite => if s.pending = none then none else some { s with pending := none }
  | .insertEventLog contract event row =>
    let insert := fun t : Tables =>
      if u.backend = .rocksdb then (t.putEvent row).2 else (t.insertEvent row).2
    some ((s.statement insert).invalidate contract event)
  | .deleteEventLogsInRange contract event fromBlock toBlock =>
    let delete := Tables.deleteEvents (eventTable contract event) fromBlock toBlock
    some ((s.statement delete).invalidate contract event)
  | .statement f => some (s.statement f)
  | .setCurrentBlock i block =>
    some { s with indexers := s.indexers.modify i fun c => (c.1, block) }
  | .request i r =>
    match s.requests i with
    | none => some { s with
        requests := Function.update s.requests i (some (.begun r (s.cursorOf r) s.version)) }
    | some _ => none
  | .go i ok => s.go u i ok

/-- The API, from a database and cursors as they are found. -/
def api (t : Tables) (indexers : List (Text × Nat)) : Machine Server Act where
  init := { states := fun _ => t, indexers := indexers }
  step := step u

end Step

/-! ### Freshness -/

/-- What a request is after. -/
def Phase.request : Phase → Request
  | .begun r _ _ => r
  | .missed r _ _ => r
  | .answered r _ _ _ _ => r

/-- After how many commits it was begun. -/
def Phase.began : Phase → Nat
  | .begun _ _ began => began
  | .missed _ _ began => began
  | .answered _ _ began _ _ => began

/-- From one state to another nothing was committed that the request is about. -/
def Server.Unchanged (s : Server) (r : Request) (v w : Nat) : Prop :=
  ∀ n, v ≤ n → n < w → r.Same (s.states n) (s.states (n + 1))

/-- **What a response has to be**: what the database answers as of some moment, which is not
before the last change there was when the request was begun. -/
def Server.Fresh (u : Setup) (s : Server) (a : Sent) : Prop :=
  ∃ v ≤ a.now, s.Unchanged a.request v a.began ∧ u.answer a.request (s.states v) = some a.data

/-- What was stored, or is to be stored, with a cursor: the cursor has passed it, or nothing
has changed since. -/
def Server.Spent (s : Server) (r : Request) (validUpTo asOf : Nat) : Prop :=
  validUpTo < s.cursorOf r ∨ s.Unchanged r asOf s.version

/-- **What keeps the answers fresh**, as a condition on the moment a request comes in: of what
the cache holds under its key, and of what requests under way may still put there, everything
that has changed was passed by the cursor, and all of it answers the same request. -/
def Guarded (s : Server) : Act → Prop
  | .request _ r =>
    (∀ e ∈ s.cache, e.key = r.cacheKey → e.request = r ∧ s.Spent r e.validUpTo e.asOf) ∧
    (∀ i p, s.requests i = some p → p.request.cacheKey = r.cacheKey → p.request = r) ∧
    ∀ i cursor began data asOf, s.requests i = some (.answered r cursor began data asOf) →
      s.Spent r cursor asOf
  | _ => True

theorem Setup.answer_congr {u : Setup} {r : Request} {t t' : Tables} (h : r.Same t t') :
    u.answer r t = u.answer r t' := by
  cases r with
  | events q => rw [Setup.answer, Setup.answer, EventQuery.rows_congr h]
  | named q => exact congrArg (u.sql q) h

/-- The entry is what the database answered once. -/
def Server.Sound (u : Setup) (s : Server) (e : CacheEntry) : Prop :=
  e.key = e.request.cacheKey ∧ e.asOf ≤ s.version ∧
    u.answer e.request (s.states e.asOf) = some e.data

/-- The request is of a time that has come; and what it brings is sound. -/
def Server.Timely (u : Setup) (s : Server) : Phase → Prop
  | .answered r _ began data asOf =>
    began ≤ asOf ∧ asOf ≤ s.version ∧ u.answer r (s.states asOf) = some data
  | p => p.began ≤ s.version

/-- An entry that may be served to a request with the cursor. -/
def Server.Serves (s : Server) (r : Request) (cursor began : Nat) (e : CacheEntry) : Prop :=
  e.key = r.cacheKey → e.request = r ∧ (cursor ≤ e.validUpTo → s.Unchanged r e.asOf began)

/-- A request that may still bring such an entry. -/
def Server.Brings (s : Server) (r : Request) (cursor began : Nat) (p : Phase) : Prop :=
  p.request.cacheKey = r.cacheKey → p.request = r ∧
    ∀ c b data asOf, p = .answered r c b data asOf → cursor ≤ c → s.Unchanged r asOf began

/-- **The invariant.** -/
structure Inv (u : Setup) (s : Server) : Prop where
  sound : ∀ e ∈ s.cache, s.Sound u e
  timely : ∀ i p, s.requests i = some p → s.Timely u p
  serves : ∀ i r cursor began, s.requests i = some (.begun r cursor began) →
    ∀ e ∈ s.cache, s.Serves r cursor began e
  brings : ∀ i r cursor began, s.requests i = some (.begun r cursor began) →
    ∀ j p, s.requests j = some p → s.Brings r cursor began p
  fresh : ∀ a ∈ s.sent, a.began ≤ a.now ∧ a.now ≤ s.version ∧ s.Fresh u a


/-! ### What a step preserves -/

variable {u : Setup} {s t : Server}

/-- Of the committed states none is written again. -/
structure Server.Extends (s t : Server) : Prop where
  version : s.version ≤ t.version
  states : ∀ n ≤ s.version, t.states n = s.states n

theorem Server.Extends.unchanged (h : s.Extends t) {r : Request} {v w : Nat} (hw : w ≤ s.version)
    (hs : s.Unchanged r v w) : t.Unchanged r v w := by
  intro n hv hn
  rw [h.states n (by omega), h.states (n + 1) (by omega)]
  exact hs n hv hn

theorem Server.Extends.fresh (h : s.Extends t) {a : Sent} (hbegan : a.began ≤ a.now)
    (hnow : a.now ≤ s.version) (hs : s.Fresh u a) : t.Fresh u a := by
  obtain ⟨v, hv, hsame, hanswer⟩ := hs
  refine ⟨v, hv, h.unchanged (hbegan.trans hnow) hsame, ?_⟩
  rw [h.states v (hv.trans hnow)]
  exact hanswer

theorem Server.Extends.timely (h : s.Extends t) {p : Phase} (hs : s.Timely u p) :
    t.Timely u p := by
  cases p with
  | begun r cursor began => exact Nat.le_trans hs h.version
  | missed r cursor began => exact Nat.le_trans hs h.version
  | answered r cursor began data asOf =>
    obtain ⟨hbegan, hasOf, hanswer⟩ := hs
    refine ⟨hbegan, hasOf.trans h.version, ?_⟩
    rw [h.states asOf hasOf]
    exact hanswer

theorem Server.Timely.began_le {p : Phase} (h : s.Timely u p) : p.began ≤ s.version := by
  cases p with
  | begun r cursor began => exact h
  | missed r cursor began => exact h
  | answered r cursor began data asOf => exact h.1.trans h.2.1

/-- More commits, and fewer entries, do no harm. -/
theorem Inv.extend (hinv : Inv u s) (h : s.Extends t) (hcache : ∀ e ∈ t.cache, e ∈ s.cache)
    (hrequests : t.requests = s.requests) (hsent : t.sent = s.sent) : Inv u t := by
  constructor
  · intro e he
    obtain ⟨hkey, hasOf, hanswer⟩ := hinv.sound e (hcache e he)
    refine ⟨hkey, hasOf.trans h.version, ?_⟩
    rw [h.states e.asOf hasOf]
    exact hanswer
  · intro i p hp
    rw [hrequests] at hp
    exact h.timely (hinv.timely i p hp)
  · intro i r cursor began hp e he hkey
    rw [hrequests] at hp
    obtain ⟨hrequest, hserves⟩ := hinv.serves i r cursor began hp e (hcache e he) hkey
    exact ⟨hrequest, fun hcur => h.unchanged (hinv.timely i _ hp).began_le (hserves hcur)⟩
  · intro i r cursor began hp j p hj hkey
    rw [hrequests] at hp hj
    obtain ⟨hrequest, hbrings⟩ := hinv.brings i r cursor began hp j p hj hkey
    refine ⟨hrequest, fun c b data asOf hans hcur => ?_⟩
    exact h.unchanged (hinv.timely i _ hp).began_le (hbrings c b data asOf hans hcur)
  · intro a ha
    rw [hsent] at ha
    obtain ⟨hbegan, hnow, hfresh⟩ := hinv.fresh a ha
    exact ⟨hbegan, hnow.trans h.version, h.fresh hbegan hnow hfresh⟩

/-- A statement commits at most one state more. -/
theorem Server.statement_extends (f : Tables → Tables) (s : Server) :
    s.Extends (s.statement f) ∧ (s.statement f).cache = s.cache ∧
      (s.statement f).requests = s.requests ∧ (s.statement f).sent = s.sent := by
  unfold Server.statement
  split
  · exact ⟨⟨le_rfl, fun _ _ => rfl⟩, rfl, rfl, rfl⟩
  · refine ⟨⟨Nat.le_succ _, fun n hn => ?_⟩, rfl, rfl, rfl⟩
    exact Function.update_of_ne (by omega) _ _

theorem Inv.statement (hinv : Inv u s) (f : Tables → Tables) : Inv u (s.statement f) := by
  obtain ⟨hext, hcache, hrequests, hsent⟩ := s.statement_extends f
  exact hinv.extend hext (fun e he => hcache ▸ he) hrequests hsent

theorem Inv.invalidate (hinv : Inv u s) (contract event : Text) :
    Inv u (s.invalidate contract event) :=
  hinv.extend ⟨le_rfl, fun _ _ => rfl⟩ (fun _ he => (List.mem_filter.1 he).1) rfl rfl

/-- A request is over. -/
theorem Inv.drop (hinv : Inv u s) (i : Nat) :
    Inv u { s with requests := Function.update s.requests i none } := by
  have hback : ∀ {j p}, Function.update s.requests i none j = some p → s.requests j = some p := by
    intro j p hp
    by_cases hj : j = i
    · subst hj
      rw [Function.update_self] at hp
      cases hp
    · rwa [Function.update_of_ne hj] at hp
  exact ⟨hinv.sound, fun j p hp => hinv.timely j p (hback hp),
    fun j r c b hp => hinv.serves j r c b (hback hp),
    fun j r c b hp j' p hp' => hinv.brings j r c b (hback hp) j' p (hback hp'), hinv.fresh⟩

/-- And its answer was sent. -/
theorem Inv.send (hinv : Inv u s) {i : Nat} {r : Request} {began : Nat} {data : Text}
    (hbegan : began ≤ s.version) (hfresh : s.Fresh u ⟨r, began, s.version, data⟩) :
    Inv u (s.send i r began data) := by
  obtain ⟨hsound, htimely, hserves, hbrings, hsent⟩ := hinv.drop i
  refine ⟨hsound, htimely, hserves, hbrings, fun a ha => ?_⟩
  rcases List.mem_append.1 ha with ha | ha
  · exact hsent a ha
  · obtain rfl := List.mem_singleton.1 ha
    exact ⟨hbegan, le_rfl, hfresh⟩

/-- A request goes on: it asks the database, and what it brings is of now. -/
theorem Inv.goOn (hinv : Inv u s) {i : Nat} {p q : Phase} (hp : s.requests i = some p)
    (hrequest : q.request = p.request) (hbegun : ∀ r c b, q ≠ .begun r c b)
    (hnow : ∀ r c b data asOf, q = .answered r c b data asOf → asOf = s.version)
    (htimely : s.Timely u q) :
    Inv u { s with requests := Function.update s.requests i (some q) } := by
  have hback : ∀ {j p'}, Function.update s.requests i (some q) j = some p' →
      j = i ∧ p' = q ∨ s.requests j = some p' := by
    intro j p' hp'
    by_cases hj : j = i
    · subst hj
      rw [Function.update_self] at hp'
      exact .inl ⟨rfl, (Option.some.inj hp').symm⟩
    · rw [Function.update_of_ne hj] at hp'
      exact .inr hp'
  have hbefore : ∀ {j r c b}, Function.update s.requests i (some q) j = some (.begun r c b) →
      s.requests j = some (.begun r c b) := fun h => by
    rcases hback h with ⟨-, hq⟩ | h
    · exact absurd hq.symm (hbegun _ _ _)
    · exact h
  refine ⟨hinv.sound, fun j p' hp' => ?_, fun j r c b hj => hinv.serves j r c b (hbefore hj),
    fun j r c b hj j' p' hp' hkey => ?_, hinv.fresh⟩
  · rcases hback hp' with ⟨-, rfl⟩ | hp'
    · exact htimely
    · exact hinv.timely j p' hp'
  · rcases hback hp' with ⟨-, rfl⟩ | hp'
    · rw [hrequest] at hkey ⊢
      refine ⟨(hinv.brings j r c b (hbefore hj) i p hp hkey).1, ?_⟩
      intro c' b' data asOf hans _ n hn hb
      -- it was begun before now
      have hbegan := (hinv.timely j _ (hbefore hj)).began_le
      have hasOf := hnow _ _ _ _ _ hans
      change b ≤ s.version at hbegan
      omega
    · exact hinv.brings j r c b (hbefore hj) j' p' hp' hkey

/-- A request has put its answer into the cache. -/
theorem Inv.put (hinv : Inv u s) {i : Nat} {r : Request} {cursor began asOf : Nat} {data : Text}
    (hp : s.requests i = some (.answered r cursor began data asOf)) (maxEntries maxBytes : Nat) :
    Inv u { s with
      cache := s.cache.put maxEntries maxBytes ⟨r.cacheKey, data, cursor, r, asOf⟩ } := by
  obtain ⟨-, hasOf, hanswer⟩ := hinv.timely i _ hp
  refine ⟨fun e he => ?_, hinv.timely, fun j r' c b hj e he => ?_, hinv.brings, hinv.fresh⟩
  · rcases Cache.mem_put he with he | rfl
    · exact hinv.sound e he
    · exact ⟨rfl, hasOf, hanswer⟩
  · rcases Cache.mem_put he with he | rfl
    · exact hinv.serves j r' c b hj e he
    · intro hkey
      obtain ⟨hrequest, hbrings⟩ := hinv.brings j r' c b hj i _ hp hkey
      obtain rfl : r = r' := hrequest
      exact ⟨rfl, hbrings cursor began data asOf rfl⟩

/-- A request comes in, and the condition is met. -/
theorem Inv.request (hinv : Inv u s) {i : Nat} {r : Request} (hfree : s.requests i = none)
    (hguard : Guarded s (.request i r)) :
    Inv u { s with
      requests := Function.update s.requests i (some (.begun r (s.cursorOf r) s.version)) } := by
  obtain ⟨hcache, hsame, hcoming⟩ := hguard
  have hback : ∀ {j p}, Function.update s.requests i
      (some (.begun r (s.cursorOf r) s.version)) j = some p →
      j = i ∧ p = .begun r (s.cursorOf r) s.version ∨ s.requests j = some p := by
    intro j p hp
    by_cases hj : j = i
    · subst hj
      rw [Function.update_self] at hp
      exact .inl ⟨rfl, (Option.some.inj hp).symm⟩
    · rw [Function.update_of_ne hj] at hp
      exact .inr hp
  refine ⟨hinv.sound, fun j p hp => ?_, fun j r' c b hj e he hkey => ?_,
    fun j r' c b hj j' p hp hkey => ?_, hinv.fresh⟩
  · rcases hback hp with ⟨-, rfl⟩ | hp
    · exact le_rfl
    · exact hinv.timely j p hp
  · rcases hback hj with ⟨-, heq⟩ | hj
    · obtain ⟨rfl, rfl, rfl⟩ := Phase.begun.inj heq
      obtain ⟨hrequest, hspent⟩ := hcache e he hkey
      refine ⟨hrequest, fun hcur => ?_⟩
      rcases hspent with hpassed | hsame
      · exact absurd hpassed (Nat.not_lt.2 hcur)
      · exact hsame
    · exact hinv.serves j r' c b hj e he hkey
  · rcases hback hj with ⟨-, heq⟩ | hj
    · obtain ⟨rfl, rfl, rfl⟩ := Phase.begun.inj heq
      rcases hback hp with ⟨-, rfl⟩ | hp
      · exact ⟨rfl, by simp⟩
      · refine ⟨hsame j' p hp hkey, fun c' b' data asOf hans hcur => ?_⟩
        subst hans
        rcases hcoming j' c' b' data asOf hp with hpassed | hsame
        · exact absurd hpassed (Nat.not_lt.2 hcur)
        · exact hsame
    · rcases hback hp with ⟨-, rfl⟩ | hp
      · -- who was there before asks for the same
        exact ⟨(hsame j _ hj hkey.symm).symm, by simp⟩
      · exact hinv.brings j r' c b hj j' p hp hkey

/-- A request goes on. -/
theorem Inv.go (hinv : Inv u s) {i : Nat} {ok : Bool} (h : s.go u i ok = some t) : Inv u t := by
  obtain ⟨p, hp, h⟩ := Option.bind_eq_some_iff.1 h
  cases p with
  | begun r cursor began =>
    obtain ⟨hhit, hrest⟩ := Cache.get_spec r.cacheKey cursor s.cache
    have hinv' : Inv u { s with cache := (s.cache.get r.cacheKey cursor).2 } :=
      hinv.extend ⟨le_rfl, fun _ _ => rfl⟩ hrest rfl rfl
    have hbegan : began ≤ s.version := hinv.timely i _ hp
    cases hget : (s.cache.get r.cacheKey cursor).1 with
    | some e =>
      simp only [hget] at h
      obtain rfl := Option.some.inj h
      obtain ⟨hmem, hkey, hcur⟩ := hhit e hget
      obtain ⟨-, hasOf, hanswer⟩ := hinv.sound e hmem
      obtain ⟨hrequest, hserves⟩ := hinv.serves i r cursor began hp e hmem hkey
      rw [hrequest] at hanswer
      exact hinv'.send hbegan ⟨e.asOf, hasOf, hserves hcur, hanswer⟩
    | none =>
      simp only [hget] at h
      obtain rfl := Option.some.inj h
      exact hinv'.goOn (p := .begun r cursor began) hp rfl (by simp) (by simp) hbegan
  | missed r cursor began =>
    have hbegan : began ≤ s.version := hinv.timely i _ hp
    simp only at h
    split at h
    · obtain rfl := Option.some.inj h
      cases hdata : if ok = true then u.answer r (s.states s.version) else none with
      | none => exact hinv.drop i
      | some data =>
        have hanswer : u.answer r (s.states s.version) = some data := by
          split at hdata
          · exact hdata
          · cases hdata
        refine hinv.goOn hp rfl (by simp) ?_ ⟨hbegan, le_rfl, hanswer⟩
        rintro _ _ _ _ _ heq
        exact (Phase.answered.inj heq).2.2.2.2.symm
    · cases h
  | answered r cursor began data asOf =>
    obtain ⟨hbegan, hasOf, hanswer⟩ := hinv.timely i _ hp
    obtain rfl := Option.some.inj h
    have hfresh : s.Fresh u ⟨r, began, s.version, data⟩ :=
      ⟨asOf, hasOf, fun n hn hlt => absurd (hn.trans_lt hlt) (Nat.not_lt.2 hbegan), hanswer⟩
    cases ok with
    | true => exact (hinv.put hp u.maxEntries u.maxBytes).send (hbegan.trans hasOf) hfresh
    | false => exact hinv.send (hbegan.trans hasOf) hfresh

/-- **Every step that meets the condition keeps the invariant.** -/
theorem Inv.step {a : Act} (hinv : Inv u s) (hguard : Guarded s a) (h : step u s a = some t) :
    Inv u t := by
  cases a with
  | beginWrite =>
    simp only [Api.step] at h
    split at h
    · obtain rfl := Option.some.inj h
      exact hinv.extend ⟨le_rfl, fun _ _ => rfl⟩ (fun _ he => he) rfl rfl
    · cases h
  | commitWrite =>
    obtain ⟨tables, -, rfl⟩ := Option.map_eq_some_iff.1 h
    refine hinv.extend ⟨Nat.le_succ _, fun n hn => ?_⟩ (fun _ he => he) rfl rfl
    exact Function.update_of_ne (by omega) _ _
  | rollbackWrite =>
    simp only [Api.step] at h
    split at h
    · cases h
    · obtain rfl := Option.some.inj h
      exact hinv.extend ⟨le_rfl, fun _ _ => rfl⟩ (fun _ he => he) rfl rfl
  | insertEventLog contract event row =>
    obtain rfl := Option.some.inj h
    exact (hinv.statement _).invalidate contract event
  | deleteEventLogsInRange contract event fromBlock toBlock =>
    obtain rfl := Option.some.inj h
    exact (hinv.statement _).invalidate contract event
  | statement f =>
    obtain rfl := Option.some.inj h
    exact hinv.statement f
  | setCurrentBlock i block =>
    obtain rfl := Option.some.inj h
    exact hinv.extend ⟨le_rfl, fun _ _ => rfl⟩ (fun _ he => he) rfl rfl
  | request i r =>
    simp only [Api.step] at h
    split at h
    · next hfree =>
      obtain rfl := Option.some.inj h
      exact hinv.request hfree hguard
    · cases h
  | go i ok => exact hinv.go h

/-- A server whose rows look all the same, and the transfers of one contract. -/
def plain : Setup where
  json := fun _ => "{}".toList
  sql := fun _ _ => none

def transfers : EventQuery where
  contractName := "dai".toList
  eventName := "Transfer".toList

/-- The transfers are asked for, and the answer is stored. -/
def firstAnswer : List Act := [.request 0 (.events transfers), .go 0 true, .go 0 true, .go 0 true]

/-- A transfer, eleven blocks on. -/
def transfer : EventRow where
  key := ⟨transfers.table, "0xdai".toList, "0xtx".toList, 0⟩
  fields := []
  blockNumber := 11
  created := 0

/-- It is inserted, before the cursor gets there, and the transfers are asked for again. -/
def secondAnswer : List Act :=
  firstAnswer ++ [.beginWrite, .insertEventLog "dai".toList "Transfer".toList transfer,
    .commitWrite, .request 1 (.events transfers), .go 1 true]

end Api

end Zponder

import Zponder.AbiLoad
import Zponder.AbiText
import Zponder.CallResult
import Zponder.EncodeCall
import Zponder.EventRows
import Zponder.Lib.Machine

/-!
# The cache of contract calls

`contractCall` asks the node once for a contract, its data and a block, and keeps the decoded
answer in the table `call_cache`. The key has the block as it was asked for: a call without one
is kept under `null`, and stays there while the chain goes on.

An answer that is taken out of the cache is what the node would say now if the call names a
block, or nothing has changed for it since; if the entry is from a call with the same outputs; and
if the database is one with tables. RocksDB gives back what it was given in a wrapper, and takes no
long keys (`Zponder.CallCache.responses_right`).
-/

namespace Zponder.CallCache

open Imperative Exits Decode

/-! ### What the databases keep -/

inductive DbError where
  | noSpaceLeft
  deriving DecidableEq, Repr

/-- The number of bytes of a text. -/
def byteLength (s : Text) : Nat := (s.map fun c => c.utf8Size).sum

/-- `call_cache`, or the keys of RocksDB: what is written under a key. -/
abbrev Table := Text → Option Text

/-- The key of an entry, as the database has it. -/
def storedKey (backend : Backend) (cacheKey : Text) : Text :=
  match backend with
  | .sqlite => cacheKey
  | .postgresql => EventTables.cut cacheKey
  | .rocksdb => "c:".toList ++ cacheKey

/-- `getCachedCall` -/
def getCachedCall (backend : Backend) (cacheKey : Text) (t : Table) : Run DbError (Option Text) :=
  let key := storedKey backend cacheKey
  match backend with
  | .sqlite => pure ((t key).map EventTables.cut)
  | .postgresql => pure (t key)
  | .rocksdb => if 256 < byteLength key then throw .noSpaceLeft else pure (t key)

/-- What RocksDB has under the key. -/
def wrapped (result : Text) (blockNumber : Nat) : Text :=
  "\x7b\"result\":\"".toList ++
    (result ++ ("\",\"block_number\":".toList ++ (Text.decimal blockNumber ++ ['}'])))

/-- `setCachedCall`. The block is bound as an `i64` by SQLite. -/
def setCachedCall (backend : Backend) (cacheKey result : Text) (blockNumber : Nat) (t : Table) :
    Run DbError Table :=
  let key := storedKey backend cacheKey
  match backend with
  | .sqlite =>
    if blockNumber < 2 ^ 63 then pure (Function.update t key (some result)) else trap
  | .postgresql => pure (Function.update t key (some (EventTables.cut result)))
  | .rocksdb =>
    if 256 < byteLength key then throw .noSpaceLeft
    else pure (Function.update t key (some (wrapped result blockNumber)))

/-! ### Calls -/

/-- An indexer, as far as a call needs it. -/
structure Indexed where
  name : Text
  address : Text
  abi : Option AbiLoad.AbiContract

/-- What a client asks for. -/
structure Request where
  contract : Text
  method : Text
  args : List Text
  /-- An `i64`. -/
  blockNumber : Option (BitVec 64)

/-- What the node is asked for, and the types of the outputs, if the method is known. -/
structure Call where
  target : Text
  data : Text
  block : Option Nat
  outputs : Option (List Text)
  deriving DecidableEq

/-- `isValidMethodSignature` -/
def isValidMethodSignature (sig : Text) : Bool :=
  sig ≠ [] ∧ byteLength sig ≤ 256 ∧
    sig.all fun c => c.isAlphanum || c == '_' || c == '(' || c == ')' || c == ','

/-- `findFunctionByName`, of the name before the parenthesis, and the types of what it returns. -/
def outputsOf (idx : Indexed) (method : Text) : Option (List Text) := do
  let contract ← idx.abi
  let f ← contract.functions.find? (·.name == method.takeWhile (· != '('))
  pure (f.outputs.map (·.type))

/-- What `contractCall` makes of the answer of the node. -/
def decodeAnswer (outputs : Option (List Text)) (resultHex : Text) : Text :=
  match outputs with
  | none => decodeCallResult "uint256".toList resultHex
  | some [] => decodeSingleOutput "uint256".toList resultHex
  | some [t] => decodeSingleOutput t resultHex
  | some ts => decodeCallResult (AbiLoad.tupleText ts) resultHex

/-- `"{s}:{s}:{?d}"` -/
def cacheKey (call : Call) : Text :=
  call.target ++ ':' :: (call.data ++ ':' :: (call.block.map Text.decimal).getD "null".toList)

/-! ### The chain -/

/-- A node: what the state of a block answers, if it does. An answer is text in hex. -/
structure Node where
  state : Nat → Text → Text → Option Text
  hex_of_state : ∀ n target data hex, state n target data = some hex →
    ∀ c ∈ hex, c.isAlphanum = true

/-- `eth_call`, while `head` is the last block. -/
def Node.ethCall (node : Node) (head : Nat) (call : Call) : Option Text :=
  match call.block with
  | none => node.state head call.target call.data
  | some n => if n ≤ head then node.state n call.target call.data else none

/-- What a client gets. -/
inductive Response where
  | null
  | text (s : Text)
  | failed
  deriving DecidableEq, Repr

/-- The last block and the cache. For the reader: which call an entry is from and what was the last
block then, and the last request with what it got. -/
structure State where
  head : Nat
  table : Table
  origin : Text → Option (Call × Nat)
  last : Option (Call × Response)

section Resolver

variable (keccak256 : Text → Fin 32 → Fin 256) (junk : Char) (backend : Backend)
  (indexers : List Indexed) (node : Node)

/-- The first half of `contractCall`: the call, unless there is nothing to be called. -/
def resolve (r : Request) : Option (Option Call) :=
  if isValidMethodSignature r.method then
    match indexers.find? (·.name == r.contract) with
    | none => some none
    | some idx =>
      (Call.encodeFunctionCall keccak256 junk r.method r.args).map fun data =>
        some ⟨idx.address, data, r.blockNumber.map fun n => (max 0 n.toInt).toNat,
          outputsOf idx r.method⟩
  else some none

/-- `contractCall`, of a call. -/
def answerCall (call : Call) (s : State) : Option (Response × State) :=
  let key := cacheKey call
  match (getCachedCall backend key s.table).run with
  | none => none
  | some (.error _) => some (.failed, s)
  | some (.ok (some cached)) => some (.text cached, s)
  | some (.ok none) =>
    match node.ethCall s.head call with
    | none => some (.null, s)
    | some resultHex =>
      let decoded := decodeAnswer call.outputs resultHex
      match (setCachedCall backend key decoded (call.block.getD 0) s.table).run with
      | none => none
      | some (.error _) => some (.text decoded, s)
      | some (.ok table) => some (.text decoded, { s with
          table
          origin := Function.update s.origin (storedKey backend key) (some (call, s.head)) })

/-- What happens: a request, or blocks that are new. -/
inductive Event where
  | request (r : Request)
  | grow (blocks : Nat)

def step (s : State) : Event → Option State
  | .grow blocks => some { s with head := s.head + blocks, last := none }
  | .request r =>
    match resolve keccak256 junk indexers r with
    | none => none
    | some none => some { s with last := none }
    | some (some call) =>
      (answerCall backend node call s).map fun (response, s) =>
        { s with last := some (call, response) }

/-- The API on a chain, with nothing in the cache. -/
def machine (head : Nat) : Machine State Event where
  init := ⟨head, fun _ => none, fun _ => none, none⟩
  step := step keccak256 junk backend indexers node

/-- **The last answer is right**: it is what the node says now. -/
def Right (s : State) : Prop :=
  ∀ call response, s.last = some (call, response) →
    response = match node.ethCall s.head call with
      | none => .null
      | some resultHex => .text (decodeAnswer call.outputs resultHex)

/-- The calls the cache is good for. RocksDB has room for the key and no entry under it; elsewhere
an entry under the key is from the same call, and if no block is named, from a state that gives the
answer of the last one. -/
def CallFits (s : State) (call : Call) : Prop :=
  (backend = .rocksdb → byteLength (storedKey backend (cacheKey call)) ≤ 256) ∧
    ∀ from_ head, s.origin (storedKey backend (cacheKey call)) = some (from_, head) →
      backend ≠ .rocksdb ∧ from_ = call ∧ (call.block = none →
        node.state head call.target call.data = node.state s.head call.target call.data)

/-- The steps the cache is good for. -/
def Fits (s : State) : Event → Prop
  | .grow _ => True
  | .request r => ∀ call, resolve keccak256 junk indexers r = some (some call) →
      CallFits backend node s call

end Resolver

/-! ### What is read out of an answer -/

/-- The end of a text in C. -/
def nul : Char := Char.ofNat 0

/-- A text that C reads to its end. -/
def Clear (s : Text) : Prop := nul ∉ s

instance (s : Text) : Decidable (Clear s) := inferInstanceAs (Decidable (nul ∉ s))

theorem Clear.of_subset {s t : Text} (h : Clear s) (hsub : ∀ c ∈ t, c ∈ s) : Clear t :=
  fun hc => h (hsub _ hc)

theorem clear_append {s t : Text} : Clear (s ++ t) ↔ Clear s ∧ Clear t := by
  simp [Clear, not_or]

theorem clear_cons {c : Char} {s : Text} : Clear (c :: s) ↔ c ≠ nul ∧ Clear s := by
  simp [Clear, not_or, eq_comm]

theorem clear_decimal (n : Nat) : Clear (Text.decimal n) := by
  intro h
  have hdigit := Text.isDigit_of_mem_decimal h
  exact absurd hdigit (by decide)

theorem Clear.slice {hex : Text} (h : Clear hex) (start n : Nat) : Clear (slice hex start n) :=
  h.of_subset fun _ hc => List.mem_of_mem_drop (List.mem_of_mem_take hc)

theorem clear_jsonItem {item : Text} (h : Clear item) : Clear (jsonItem item) := by
  unfold jsonItem
  split
  · exact h
  · rw [clear_append, clear_cons]
    exact ⟨⟨by decide, h⟩, by decide⟩

theorem clear_intercalate {items : List Text} (h : ∀ s ∈ items, Clear s) :
    Clear ([','].intercalate items) := by
  induction items with
  | nil => exact List.not_mem_nil
  | cons s items ih =>
    obtain ⟨hs, hitems⟩ := List.forall_mem_cons.1 h
    cases items with
    | nil => simpa using hs
    | cons t items =>
      rw [List.intercalate_cons_cons, clear_append, clear_append]
      exact ⟨⟨hs, by decide⟩, ih hitems⟩

theorem clear_joinJsonArray {items : List Text} (h : ∀ s ∈ items, Clear s) :
    Clear (joinJsonArray items) := by
  have hitems : ∀ s ∈ items.map jsonItem, Clear s := by
    intro s hs
    obtain ⟨item, hitem, rfl⟩ := List.mem_map.1 hs
    exact clear_jsonItem (h item hitem)
  rw [joinJsonArray, clear_append, clear_cons]
  exact ⟨⟨by decide, clear_intercalate hitems⟩, by decide⟩

theorem clear_empty : Clear Decode.empty := by decide

theorem clear_decodeDynamicValue {data : Text} (h : Clear data) (offsetHex : Nat) :
    Clear (decodeDynamicValue data offsetHex) := by
  have hdata : Clear (if "0x".toList.isPrefixOf data then data.drop 2 else data) := by
    split
    · exact h.of_subset fun _ hc => List.mem_of_mem_drop hc
    · exact h
  unfold decodeDynamicValue
  generalize (if "0x".toList.isPrefixOf data then data.drop 2 else data) = hexData at hdata ⊢
  dsimp only
  split
  · exact clear_empty
  split
  · exact clear_empty
  split
  · exact clear_empty
  · rw [clear_append]
    exact ⟨by decide, hdata.slice _ _⟩

theorem clear_decodeCallScalar (abiType : Text) {hex : Text} (h : Clear hex) :
    Clear (decodeCallScalar abiType hex) := by
  have htake (n : Nat) : Clear (hex.take n) := h.of_subset fun _ hc => List.mem_of_mem_take hc
  unfold decodeCallScalar
  dsimp only
  split
  · split
    · decide
    · decide
  split
  · rw [clear_append]
    exact ⟨by decide, (htake 64).of_subset fun _ hc => List.mem_of_mem_drop hc⟩
  split
  · unfold decodeCallNumber
    dsimp only
    split
    · decide
    split
    · exact h
    split
    · rw [clear_cons]
      exact ⟨by decide, clear_decimal _⟩
    · exact clear_decimal _
  split
  · rw [clear_append]
    exact ⟨by decide, htake 64⟩
  · rw [clear_append]
    exact ⟨by decide, h⟩

theorem clear_walkFields {α : Type} {decodeAt : α → Nat → Text × Nat}
    {fields : List α} (h : ∀ f ∈ fields, ∀ w, Clear (decodeAt f w).1) (w : Nat) :
    ∀ s ∈ (walkFields decodeAt fields w).1, Clear s := by
  induction fields generalizing w with
  | nil => simp [walkFields]
  | cons f fields ih =>
    obtain ⟨hf, hfields⟩ := List.forall_mem_cons.1 h
    rw [walkFields]
    exact List.forall_mem_cons.2 ⟨hf w, ih hfields _⟩

section Clear

variable {hex : Text} (h : Clear hex)

include h

/-- **What is read out of an answer without NUL has none**, by induction on how long the type is. -/
theorem clear_decodeCall (n : Nat) : ∀ t : Text, t.length ≤ n →
    (∀ w, Clear (decodeCallStatic t hex w)) ∧ (∀ off, Clear (decodeCallTail t hex off)) ∧
      (∀ count w, Clear (decodeCallElems t count hex w)) ∧
      (∀ w base, Clear (decodeCallAt t hex w base).1) ∧
      (∀ count start, Clear (decodeCallOffsetArray t count hex start)) ∧
      ∀ w base, Clear (decodeCallTuple t hex w base).1 := by
  induction n using Nat.strong_induction_on with
  | _ n ih =>
  have hinner {t : Text} (ht : t.length ≤ n) {inner : Text} (hlt : inner.length < t.length) :=
    ih inner.length (by omega) inner le_rfl
  have hstatic : ∀ t : Text, t.length ≤ n → ∀ w, Clear (decodeCallStatic t hex w) := by
    intro t ht w
    rw [decodeCallStatic]
    split
    · next arr harr =>
      have harr := hinner ht (length_inner_of_parseArray harr)
      split
      · exact clear_empty
      · split
        · exact clear_empty
        · exact harr.2.2.1 _ _
    · split
      · next inner htuple =>
        split
        · exact clear_empty
        · exact (hinner ht (length_tupleInner htuple)).2.2.2.2.2 _ _
      · split
        · exact clear_empty
        · next word hword =>
          refine clear_decodeCallScalar _ ?_
          unfold callWord at hword
          split at hword
          · cases hword
          · obtain rfl := Option.some.inj hword
            exact h.slice _ _
  have htail : ∀ t : Text, t.length ≤ n → ∀ off, Clear (decodeCallTail t hex off) := by
    intro t ht off
    rw [decodeCallTail]
    split
    · exact clear_decodeDynamicValue h _
    split
    · next inner htuple =>
      split
      · exact clear_empty
      · exact (hinner ht (length_tupleInner htuple)).2.2.2.2.2 _ _
    split
    · exact clear_empty
    next arr harr =>
    have harr := hinner ht (length_inner_of_parseArray harr)
    split
    · split
      · exact harr.2.2.2.2.1 _ _
      · split
        · exact clear_empty
        · exact hstatic t ht _
    · split
      · exact clear_empty
      dsimp only
      split
      · exact clear_empty
      split
      · exact harr.2.2.2.2.1 _ _
      split
      · exact clear_empty
      · exact harr.2.2.1 _ _
  have hat : ∀ t : Text, t.length ≤ n → ∀ w base, Clear (decodeCallAt t hex w base).1 := by
    intro t ht w base
    rw [decodeCallAt]
    dsimp only
    split
    · split
      · exact clear_empty
      split
      · exact clear_empty
      split
      · exact clear_empty
      · exact htail _ ((length_trim_le t).trans ht) _
    split
    · next inner htuple =>
      exact (hinner ht (length_trim_lt htuple)).2.2.2.2.2 _ _
    · exact hstatic _ ((length_trim_le t).trans ht) _
  intro t ht
  refine ⟨hstatic t ht, htail t ht, fun count w => ?_, hat t ht, fun count start => ?_,
    fun w base => ?_⟩
  · rw [decodeCallElems]
    split
    · exact clear_empty
    · refine clear_joinJsonArray fun s hs => ?_
      obtain ⟨i, -, rfl⟩ := List.mem_map.1 hs
      exact hstatic t ht i
  · rw [decodeCallOffsetArray]
    split
    · exact clear_empty
    · refine clear_joinJsonArray fun s hs => ?_
      obtain ⟨i, -, rfl⟩ := List.mem_map.1 hs
      cases followOffset hex start (satAdd start (min (i * 64) u64Max)) with
      | none => exact clear_empty
      | some off => exact htail t ht off
  · rw [decodeCallTuple]
    refine clear_joinJsonArray (clear_walkFields (fun f _ w => ?_) w)
    exact hat f.1 ((length_le_of_mem_tupleFields f.2).trans ht) w base

end Clear

theorem clear_stripHexPrefix {hex : Text} (h : Clear hex) : Clear (stripHexPrefix hex) := by
  unfold stripHexPrefix
  split
  · exact h.of_subset fun _ hc => List.mem_of_mem_drop hc
  · exact h

theorem clear_decodeCallResult (abiType : Text) {hex : Text} (h : Clear hex) :
    Clear (decodeCallResult abiType hex) := by
  have hstrip := clear_stripHexPrefix h
  unfold decodeCallResult
  dsimp only
  split
  · next inner _ => exact (clear_decodeCall hstrip inner.length inner le_rfl).2.2.2.2.2 _ _
  split
  · exact (clear_decodeCall hstrip abiType.length abiType le_rfl).2.2.2.1 _ _
  · exact clear_decodeCallScalar abiType hstrip

theorem clear_decodeSingleOutput (abiType : Text) {hex : Text} (h : Clear hex) :
    Clear (decodeSingleOutput abiType hex) := by
  have hstrip := clear_stripHexPrefix h
  unfold decodeSingleOutput
  split
  · exact (clear_decodeCall hstrip abiType.length abiType le_rfl).2.2.2.1 _ _
  · exact clear_decodeCallResult abiType h

theorem clear_decodeAnswer (outputs : Option (List Text)) {hex : Text} (h : Clear hex) :
    Clear (decodeAnswer outputs hex) := by
  unfold decodeAnswer
  split
  · exact clear_decodeCallResult _ h
  · exact clear_decodeSingleOutput _ h
  · exact clear_decodeSingleOutput _ h
  · exact clear_decodeCallResult _ h

theorem Clear.cut {s : Text} (h : Clear s) : EventTables.cut s = s := EventTables.cut_eq_self h

/-! ### What comes back -/

/-- `setCachedCall`, and then `getCachedCall`. -/
def readBack (backend : Backend) (cacheKey result : Text) (blockNumber : Nat) (t : Table) :
    Run DbError (Option Text) := do
  let t ← setCachedCall backend cacheKey result blockNumber t
  getCachedCall backend cacheKey t

theorem length_wrapped (result : Text) (n : Nat) : result.length < (wrapped result n).length := by
  have hlt (a b : Text) (ha : a ≠ []) : result.length < (a ++ (result ++ b)).length := by
    have hpos := List.length_pos_iff.2 ha
    rw [List.length_append, List.length_append]
    omega
  exact hlt _ _ (by decide)

theorem cut_eq_self_iff {s : Text} : EventTables.cut s = s ↔ Clear s := by
  constructor
  · intro h
    rw [← h]
    exact EventTables.notMem_cut s
  · exact Clear.cut

/-- **An entry comes back as it was**, if there are tables and C reads it to its end. -/
theorem gives_readBack_iff (backend : Backend) (cacheKey result : Text) (n : Nat) (t : Table) :
    Gives (readBack backend cacheKey result n t) (some result) ↔
      backend ≠ .rocksdb ∧ nul ∉ result ∧ (backend = .sqlite → n < 2 ^ 63) := by
  cases backend with
  | sqlite =>
    simp only [readBack, setCachedCall, getCachedCall]
    by_cases hn : n < 2 ^ 63
    · rw [if_pos hn, pure_bind, gives_pure, Function.update_self, Option.map_some,
        Option.some.injEq, cut_eq_self_iff]
      exact ⟨fun hclear => ⟨by decide, hclear, fun _ => hn⟩, fun h => h.2.1⟩
    · rw [if_neg hn, trap_bind]
      exact iff_of_false not_gives_trap fun h => hn (h.2.2 trivial)
  | postgresql =>
    simp only [readBack, setCachedCall, getCachedCall]
    rw [pure_bind, gives_pure, Function.update_self, Option.some.injEq, cut_eq_self_iff]
    exact ⟨fun hclear => ⟨by decide, hclear, fun h => by cases h⟩, fun h => h.2.1⟩
  | rocksdb =>
    simp only [readBack, setCachedCall, getCachedCall, ne_eq, not_true_eq_false, false_and,
      iff_false]
    split
    · rw [throw_bind]
      exact not_gives_throw _
    · rw [pure_bind, gives_pure, Function.update_self, Option.some.injEq]
      intro heq
      exact absurd (congrArg List.length heq) (length_wrapped result n).ne'

/-- What `setCachedCall` writes, of a text that C reads to its end. -/
theorem table_of_set {backend : Backend} {cacheKey result : Text} {n : Nat} {t u : Table}
    (h : Clear result) (hset : (setCachedCall backend cacheKey result n t).run = some (.ok u)) :
    ∃ text, (backend ≠ .rocksdb → text = result) ∧
      u = Function.update t (storedKey backend cacheKey) (some text) := by
  unfold setCachedCall at hset
  cases backend with
  | sqlite =>
    dsimp only at hset
    split at hset
    · obtain rfl := Except.ok.inj (Option.some.inj hset)
      exact ⟨result, fun _ => rfl, rfl⟩
    · cases hset
  | postgresql =>
    obtain rfl := Except.ok.inj (Option.some.inj hset)
    exact ⟨_, fun _ => h.cut, rfl⟩
  | rocksdb =>
    dsimp only at hset
    split at hset
    · cases Option.some.inj hset
    · obtain rfl := Except.ok.inj (Option.some.inj hset)
      exact ⟨_, fun hne => absurd rfl hne, rfl⟩

/-- No entry, -/
theorem getCachedCall_miss {backend : Backend} {cacheKey : Text} {t : Table}
    (hroom : backend = .rocksdb → byteLength (storedKey backend cacheKey) ≤ 256)
    (h : t (storedKey backend cacheKey) = none) :
    (getCachedCall backend cacheKey t).run = some (.ok none) := by
  unfold getCachedCall
  cases backend with
  | sqlite =>
    dsimp only
    rw [h]
    rfl
  | postgresql =>
    dsimp only
    rw [h]
    rfl
  | rocksdb =>
    dsimp only
    rw [if_neg (Nat.not_lt.2 (hroom rfl)), h]
    rfl

/-- and an entry in a table. -/
theorem getCachedCall_hit {backend : Backend} {cacheKey text : Text} {t : Table}
    (hbackend : backend ≠ .rocksdb) (hclear : Clear text)
    (h : t (storedKey backend cacheKey) = some text) :
    (getCachedCall backend cacheKey t).run = some (.ok (some text)) := by
  unfold getCachedCall
  cases backend with
  | sqlite =>
    dsimp only
    rw [h, Option.map_some, hclear.cut]
    rfl
  | postgresql =>
    dsimp only
    rw [h]
    rfl
  | rocksdb => exact absurd rfl hbackend

/-! ### Along a run -/

section Run

variable {backend : Backend} {node : Node}

theorem Node.clear {hex : Text} {head : Nat} {call : Call} (h : node.ethCall head call = some hex) :
    Clear hex := by
  have hplain : ∀ c ∈ hex, c.isAlphanum = true := by
    unfold Node.ethCall at h
    split at h
    · exact node.hex_of_state _ _ _ _ h
    · split at h
      · exact node.hex_of_state _ _ _ _ h
      · cases h
  exact fun hc => absurd (hplain _ hc) (by decide)

/-- The answer to a call that names a block stays, and so does the one to a call that does not, if
the state has not changed for it. -/
theorem Node.ethCall_later {head later : Nat} {call : Call} {hex : Text}
    (h : node.ethCall head call = some hex) (hle : head ≤ later)
    (hsame : call.block = none →
      node.state head call.target call.data = node.state later call.target call.data) :
    node.ethCall later call = some hex := by
  unfold Node.ethCall at h ⊢
  split
  · next hblock =>
    rw [hblock] at h
    rw [← hsame hblock]
    exact h
  · next n hblock =>
    rw [hblock] at h
    dsimp only at h
    split at h
    · next hn => rwa [if_pos (hn.trans hle)]
    · cases h

/-- An answer that is in the cache, -/
theorem answerCall_hit {call : Call} {s : State} {text : Text} (hbackend : backend ≠ .rocksdb)
    (hclear : Clear text) (h : s.table (storedKey backend (cacheKey call)) = some text) :
    answerCall backend node call s = some (.text text, s) := by
  unfold answerCall
  dsimp only
  rw [getCachedCall_hit hbackend hclear h]

/-- and one that is not. -/
theorem answerCall_miss {call : Call} {s : State} {hex decoded : Text} {table : Table}
    (hroom : backend = .rocksdb → byteLength (storedKey backend (cacheKey call)) ≤ 256)
    (h : s.table (storedKey backend (cacheKey call)) = none)
    (hcall : node.ethCall s.head call = some hex)
    (hdecoded : decodeAnswer call.outputs hex = decoded)
    (hset : (setCachedCall backend (cacheKey call) decoded (call.block.getD 0) s.table).run =
      some (.ok table)) :
    answerCall backend node call s = some (.text decoded, { s with
      table
      origin := Function.update s.origin (storedKey backend (cacheKey call))
        (some (call, s.head)) }) := by
  subst hdecoded
  unfold answerCall
  dsimp only
  rw [getCachedCall_miss hroom h]
  dsimp only
  rw [hcall]
  dsimp only
  rw [hset]

variable (backend node) in
/-- What is kept: an entry has its origin, and is the answer its origin was given. -/
structure Inv (s : State) : Prop where
  origin : ∀ key text, s.table key = some text → s.origin key ≠ none
  entry : ∀ key call head, s.origin key = some (call, head) → head ≤ s.head ∧
    ∃ hex, node.ethCall head call = some hex ∧ (backend ≠ .rocksdb →
      s.table key = some (decodeAnswer call.outputs hex))

/-- A call that fits gets what the node says now, and what is written keeps the invariant. -/
theorem Inv.answerCall {s t : State} {call : Call} {response : Response} (h : Inv backend node s)
    (hfits : CallFits backend node s call)
    (hanswer : answerCall backend node call s = some (response, t)) :
    Inv backend node t ∧ t.head = s.head ∧
      response = match node.ethCall s.head call with
        | none => .null
        | some resultHex => .text (decodeAnswer call.outputs resultHex) := by
  obtain ⟨hroom, horigin⟩ := hfits
  unfold Zponder.CallCache.answerCall at hanswer
  dsimp only at hanswer
  cases htable : s.table (storedKey backend (cacheKey call)) with
  | some text =>
    obtain ⟨⟨from_, head⟩, hfrom⟩ := Option.ne_none_iff_exists'.1 (h.origin _ _ htable)
    obtain ⟨hbackend, rfl, hsame⟩ := horigin from_ head hfrom
    obtain ⟨hle, hex, hcall, hentry⟩ := h.entry _ _ _ hfrom
    have htext : text = decodeAnswer from_.outputs hex :=
      Option.some.inj (htable.symm.trans (hentry hbackend))
    have hclear : Clear text := by
      rw [htext]
      exact clear_decodeAnswer _ (Node.clear hcall)
    rw [getCachedCall_hit hbackend hclear htable] at hanswer
    obtain ⟨rfl, rfl⟩ := Prod.mk.inj (Option.some.inj hanswer)
    rw [Node.ethCall_later hcall hle hsame]
    exact ⟨h, rfl, by rw [htext]⟩
  | none =>
    rw [getCachedCall_miss hroom htable] at hanswer
    dsimp only at hanswer
    cases hcall : node.ethCall s.head call with
    | none =>
      rw [hcall] at hanswer
      obtain ⟨rfl, rfl⟩ := Prod.mk.inj (Option.some.inj hanswer)
      exact ⟨h, rfl, rfl⟩
    | some hex =>
      rw [hcall] at hanswer
      dsimp only at hanswer
      split at hanswer
      · cases hanswer
      · obtain ⟨rfl, rfl⟩ := Prod.mk.inj (Option.some.inj hanswer)
        exact ⟨h, rfl, rfl⟩
      · next table hset =>
        obtain ⟨rfl, rfl⟩ := Prod.mk.inj (Option.some.inj hanswer)
        have hclear := clear_decodeAnswer call.outputs (Node.clear hcall)
        obtain ⟨text, htext, rfl⟩ := table_of_set hclear hset
        refine ⟨⟨fun key text' hkey => ?_, fun key from_ head hfrom => ?_⟩, rfl, rfl⟩
        · dsimp only at hkey ⊢
          by_cases heq : key = storedKey backend (cacheKey call)
          · rw [heq, Function.update_self]
            exact Option.some_ne_none _
          · rw [Function.update_of_ne heq] at hkey ⊢
            exact h.origin key text' hkey
        · dsimp only at hfrom ⊢
          by_cases heq : key = storedKey backend (cacheKey call)
          · rw [heq, Function.update_self] at hfrom
            obtain ⟨rfl, rfl⟩ := Prod.mk.inj (Option.some.inj hfrom)
            refine ⟨le_rfl, hex, hcall, fun hbackend => ?_⟩
            rw [heq, Function.update_self, htext hbackend]
          · rw [Function.update_of_ne heq] at hfrom
            obtain ⟨hle, hex', hcall', hentry⟩ := h.entry key from_ head hfrom
            refine ⟨hle, hex', hcall', fun hbackend => ?_⟩
            rw [Function.update_of_ne heq]
            exact hentry hbackend

variable {keccak256 : Text → Fin 32 → Fin 256} {junk : Char} {indexers : List Indexed}

/-- **A step that fits** keeps the invariant, and the answer it leaves is right. -/
theorem Inv.step {s t : State} {e : Event} (h : Inv backend node s)
    (hfits : Fits keccak256 junk backend indexers node s e)
    (hstep : CallCache.step keccak256 junk backend indexers node s e = some t) :
    Inv backend node t ∧ Right node t := by
  cases e with
  | grow blocks =>
    obtain rfl := Option.some.inj hstep
    refine ⟨⟨h.origin, fun key call head hfrom => ?_⟩, fun call response hlast => by cases hlast⟩
    obtain ⟨hle, hentry⟩ := h.entry key call head hfrom
    exact ⟨hle.trans (Nat.le_add_right _ _), hentry⟩
  | request r =>
    rw [CallCache.step] at hstep
    split at hstep
    · cases hstep
    · obtain rfl := Option.some.inj hstep
      exact ⟨⟨h.origin, h.entry⟩, fun call response hlast => by cases hlast⟩
    · next call hresolve =>
      obtain ⟨⟨response, u⟩, hanswer, rfl⟩ := Option.map_eq_some_iff.1 hstep
      obtain ⟨hinv, hhead, hright⟩ := h.answerCall (hfits call hresolve) hanswer
      refine ⟨⟨hinv.origin, hinv.entry⟩, fun call' response' hlast => ?_⟩
      obtain ⟨rfl, rfl⟩ := Prod.mk.inj (Option.some.inj hlast)
      show response = match node.ethCall u.head call with
        | none => .null
        | some resultHex => .text (decodeAnswer call.outputs resultHex)
      rw [hhead]
      exact hright

theorem inv_init (head : Nat) :
    Inv backend node (machine keccak256 junk backend indexers node head).init := by
  refine ⟨fun key text h => ?_, fun key call head h => ?_⟩
  · cases h
  · cases h

end Run

/-- **What is written comes back** from the databases with tables, if C reads it to its end, **and
the answers are right** along every run whose requests fit the cache. -/
theorem responses_right (keccak256 : Text → Fin 32 → Fin 256) (junk : Char) (backend : Backend)
    (indexers : List Indexed) (node : Node) (head : Nat) (events : List Event) :
    (∀ cacheKey result n t, Gives (readBack backend cacheKey result n t) (some result) ↔
      backend ≠ .rocksdb ∧ nul ∉ result ∧ (backend = .sqlite → n < 2 ^ 63)) ∧
    ((machine keccak256 junk backend indexers node head).Held
        (Fits keccak256 junk backend indexers node)
        (machine keccak256 junk backend indexers node head).init events →
      (machine keccak256 junk backend indexers node head).Always (Right node)
        (machine keccak256 junk backend indexers node head).init events) := by
  refine ⟨gives_readBack_iff backend, fun hheld => ?_⟩
  refine Machine.always_of_held (I := Inv backend node) ?_ (inv_init head) events hheld
  exact fun s e t hinv hfits hstep => hinv.step hfits hstep

/-- A node that counts its blocks in the last digit. -/
def counter : Node where
  state n _ _ := some ("0x".toList ++ List.replicate 63 '0' ++ [Nat.digitChar (n % 10)])
  hex_of_state := by
    intro n target data hex h c hc
    obtain rfl := Option.some.inj h
    have hdigit : ∀ k < 10, (Nat.digitChar k).isAlphanum = true := by decide
    simp only [List.mem_append, List.mem_singleton, List.mem_replicate] at hc
    rcases hc with (hc | ⟨-, rfl⟩) | rfl
    · exact List.all_eq_true.1 (show "0x".toList.all Char.isAlphanum = true by decide) c hc
    · decide
    · exact hdigit _ (Nat.mod_lt n (by decide))

def token : List Indexed := [⟨"token".toList, "0x1".toList, none⟩]

/-- The supply as of a block, or as of now. -/
def supply (block : Option (BitVec 64)) : Request :=
  ⟨"token".toList, "totalSupply()".toList, [], block⟩

/-- Two requests, with a new block between them. -/
def twice (block : Option (BitVec 64)) : List Event :=
  [.request (supply block), .grow 1, .request (supply block)]

/-- The call of the requests. -/
def supplyCall (block : Option Nat) : Call :=
  ⟨"0x1".toList, "0xffffffff".toList, block, none⟩

theorem resolve_supply (block : Option (BitVec 64)) :
    resolve Call.noHash '0' token (supply block) =
      some (some (supplyCall (block.map fun n => (max 0 n.toInt).toNat))) := by
  have hvalid : isValidMethodSignature "totalSupply()".toList = true := by decide
  have hdata : Call.encodeFunctionCall Call.noHash '0' "totalSupply()".toList [] =
      some "0xffffffff".toList := by decide
  show (if isValidMethodSignature "totalSupply()".toList = true then _ else _) = _
  rw [if_pos hvalid]
  show (Call.encodeFunctionCall Call.noHash '0' "totalSupply()".toList []).map _ = _
  rw [hdata]
  rfl

theorem decodeAnswer_counter (n : Nat) :
    decodeAnswer none ("0x".toList ++ List.replicate 63 '0' ++ [Nat.digitChar (n % 10)]) =
      [Nat.digitChar (n % 10)] := by
  have hscalar (hex : Text) : decodeCallResult "uint256".toList hex =
      decodeCallScalar "uint256".toList (stripHexPrefix hex) := by
    have hplain : parseArray "uint256".toList = none ∧ tupleInner "uint256".toList = none :=
      ⟨AbiType.parseArray_eq_none (by decide), AbiType.tupleInner_eq_none (.inl (by decide))⟩
    have hstatic := isDynamicType_of_plain (s := "uint256".toList) (by decide) hplain
    rw [decodeCallResult, hplain.2, callTypeIsStructured, hplain.1, hplain.2, hstatic]
    rfl
  have hall : ∀ k < 10, decodeCallScalar "uint256".toList
      (stripHexPrefix ("0x".toList ++ List.replicate 63 '0' ++ [Nat.digitChar k])) =
        [Nat.digitChar k] := by
    decide +kernel
  rw [decodeAnswer, hscalar]
  exact hall _ (Nat.mod_lt n (by decide))

/-- What the node answers in block `n`. -/
def digits (n : Nat) : Text := "0x".toList ++ List.replicate 63 '0' ++ [Nat.digitChar (n % 10)]

/-- The block of a request, as it is asked for. -/
def blockOf (block : Option (BitVec 64)) : Option Nat := block.map fun n => (max 0 n.toInt).toNat

/-- Behind the first request. -/
def afterFirst (block : Option (BitVec 64)) (n : Nat) : State :=
  let key := cacheKey (supplyCall (blockOf block))
  ⟨7, Function.update (fun _ => none) key (some [Nat.digitChar (n % 10)]),
    Function.update (fun _ => none) key (some (supplyCall (blockOf block), 7)),
    some (supplyCall (blockOf block), .text [Nat.digitChar (n % 10)])⟩

theorem step_first (block : Option (BitVec 64)) (n : Nat) (hn : (blockOf block).getD 0 < 2 ^ 63)
    (h : counter.ethCall 7 (supplyCall (blockOf block)) = some (digits n)) :
    (machine Call.noHash '0' .sqlite token counter 7).step
      (machine Call.noHash '0' .sqlite token counter 7).init (.request (supply block)) =
        some (afterFirst block n) := by
  have hset (key text : Text) (t : Table) :
      (setCachedCall .sqlite key text ((blockOf block).getD 0) t).run =
        some (.ok (Function.update t key (some text))) := by
    unfold setCachedCall
    dsimp only
    rw [if_pos hn]
    rfl
  let key := cacheKey (supplyCall (blockOf block))
  have hanswer : answerCall .sqlite counter (supplyCall (blockOf block))
      ⟨7, fun _ => none, fun _ => none, none⟩ = some (.text [Nat.digitChar (n % 10)],
        ⟨7, Function.update (fun _ => none) key (some [Nat.digitChar (n % 10)]),
          Function.update (fun _ => none) key (some (supplyCall (blockOf block), 7)), none⟩) :=
    answerCall_miss (fun h => by cases h) rfl h (decodeAnswer_counter n) (hset _ _ _)
  show step Call.noHash '0' .sqlite token counter ⟨7, fun _ => none, fun _ => none, none⟩
    (.request (supply block)) = _
  rw [step, resolve_supply]
  show (answerCall .sqlite counter (supplyCall (blockOf block)) _).map _ = _
  rw [hanswer]
  rfl

/-- Without a block the second answer is the first one. -/
theorem not_right_twice : ¬(machine Call.noHash '0' .sqlite token counter 7).Always (Right counter)
    (machine Call.noHash '0' .sqlite token counter 7).init (twice none) := by
  intro h
  obtain ⟨-, h⟩ := h _ (step_first none 7 (by decide) rfl)
  obtain ⟨-, h⟩ := h _ rfl
  have hhit : answerCall .sqlite counter (supplyCall none)
      { afterFirst none 7 with head := 8, last := none } = some (.text ['7'], _) :=
    answerCall_hit (by decide) (by decide) <| by
      show Function.update (fun _ => none) (cacheKey (supplyCall none)) (some ['7'])
        (cacheKey (supplyCall none)) = _
      exact Function.update_self _ _ _
  have hstep : (machine Call.noHash '0' .sqlite token counter 7).step
      { afterFirst none 7 with head := 8, last := none } (.request (supply none)) =
        some { afterFirst none 7 with head := 8, last := some (supplyCall none, .text ['7']) } := by
    show step Call.noHash '0' .sqlite token counter
      { afterFirst none 7 with head := 8, last := none } (.request (supply none)) = _
    rw [step, resolve_supply]
    show (answerCall .sqlite counter (supplyCall none) _).map _ = _
    rw [hhit]
    rfl
  obtain ⟨hright, -⟩ := h _ hstep
  have heq := hright _ _ rfl
  have hnow : counter.ethCall 8 (supplyCall none) = some (digits 8) := rfl
  have htext : Response.text ['7'] = .text (decodeAnswer none (digits 8)) := by
    rw [heq]
    show (match counter.ethCall 8 (supplyCall none) with
      | none => Response.null
      | some resultHex => .text (decodeAnswer none resultHex)) = _
    rw [hnow]
  rw [digits, decodeAnswer_counter] at htext
  exact absurd (Response.text.inj htext) (by decide)

/-- With a block it is right. -/
theorem responses_right_twice :
    (machine Call.noHash '0' .sqlite token counter 7).Always (Right counter)
      (machine Call.noHash '0' .sqlite token counter 7).init (twice (some 5)) := by
  refine (responses_right Call.noHash '0' .sqlite token counter 7 (twice (some 5))).2 ?_
  have hcall (call : Call)
      (h : resolve Call.noHash '0' token (supply (some 5)) = some (some call)) :
      call = supplyCall (some 5) := by
    rw [resolve_supply] at h
    exact (Option.some.inj (Option.some.inj h)).symm
  intro s hs
  refine ⟨fun call hresolve => ⟨fun hrocks => ?_, fun from_ head hfrom => ?_⟩, ?_⟩
  · cases hrocks
  · cases hfrom
  obtain rfl := Option.some.inj ((step_first (some 5) 5 (by decide) rfl).symm.trans hs)
  intro s hs
  refine ⟨trivial, fun u hu => ⟨fun call hresolve => ?_, trivial⟩⟩
  obtain rfl := Option.some.inj hs
  obtain rfl := hcall call hresolve
  refine ⟨fun hrocks => ?_, fun from_ head hfrom => ⟨by decide, ?_, fun hnone => ?_⟩⟩
  · cases hrocks
  swap
  · cases hnone
  have hupdate : Function.update (fun _ => none) (cacheKey (supplyCall (some 5)))
      (some (supplyCall (some 5), 7)) (cacheKey (supplyCall (some 5))) = some (from_, head) := hfrom
  have hsome : some (supplyCall (some 5), 7) = some (from_, head) := by
    rwa [Function.update_self] at hupdate
  exact (Prod.mk.inj (Option.some.inj hsome)).1.symm

end Zponder.CallCache

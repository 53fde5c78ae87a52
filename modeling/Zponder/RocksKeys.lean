import Zponder.Lib.KeyStore
import Zponder.QueryKey

/-!
# The keys of RocksDB

RocksDB has one space of keys, in the order of their bytes. What it holds is told by the first
byte of a key, and what follows are names and numbers, with colons between them; the numbers have
twenty digits. The rows of a block range are found by an iterator that is put in front of the
first of them: `deleteEventLogsInRangeRocks` ends at a key that is made of the last block, a colon
and the byte 255, and the four loops of `rollbackFromBlockRocks` end where the keys no longer
begin as the first did.

Names of contracts and events without a colon cannot be taken for each other, and the loops find
the rows they should, of every block (`Zponder.RocksKeys.keys_right_iff`), up to three things: a
key that was written may be too long for the buffers of the loops, which are smaller than that of
`insertEventLogRocks`; the row of a transaction hash that begins with the byte 255 is not below
the end; and a contract address or a chain that goes on from another with a colon is taken for it.

The store and its iterator are those of `KeyStore`. What is written under a key is an argument
here, since no key depends on it.
-/

namespace Zponder.RocksKeys

open KeyStore

/-! ### Bytes -/

abbrev Byte : Type := Fin 256

abbrev Bytes : Type := List Byte

/-- The byte of an ASCII character. -/
def ascii (c : Char) : Byte := ⟨c.toNat % 256, Nat.mod_lt _ (Nat.succ_pos 255)⟩

def colon : Byte := ascii ':'

/-- The byte above all others. -/
def top : Byte := ascii (Char.ofNat 255)

/-- A text of ASCII characters. -/
def bytesOf (s : Text) : Bytes := s.map ascii

def digit (d : Nat) : Byte := ascii (Nat.digitChar d)

/-- `{d:0>20}` of a `u64`, which has no more digits. -/
def number (n : UInt64) : Bytes := padded digit 20 n.toNat

/-! ### Keys -/

/-- What is written. -/
inductive Key where
  | event (contractName eventName : Bytes) (blockNumber : UInt64) (txHash : Bytes)
    (logIndex : UInt64)
  | rawLog (contractAddress : Bytes) (blockNumber : UInt64) (txHash : Bytes) (logIndex : UInt64)
  | syncState (contractAddress : Bytes)
  | accountState (contractAddress accountAddress : Bytes)
  | snapshot (contractAddress : Bytes) (blockNumber : UInt64)
  | blockHash (contractAddress : Bytes) (blockNumber : UInt64)
  | block (chain : Bytes) (blockNumber : UInt64)
  | cachedCall (cacheKey : Bytes)
  deriving DecidableEq

/-- `e:<contract>:<event>:` -/
def eventPrefix (contractName eventName : Bytes) : Bytes :=
  ascii 'e' :: colon :: (contractName ++ colon :: (eventName ++ [colon]))

/-- `<letter>:<name>:` -/
def namePrefix (letter : Char) (name : Bytes) : Bytes := ascii letter :: colon :: (name ++ [colon])

/-- The key under which it is written. -/
def Key.bytes : Key → Bytes
  | event contractName eventName blockNumber txHash logIndex =>
    eventPrefix contractName eventName ++
      (number blockNumber ++ colon :: (txHash ++ colon :: number logIndex))
  | rawLog contractAddress blockNumber txHash logIndex =>
    namePrefix 'r' contractAddress ++
      (number blockNumber ++ colon :: (txHash ++ colon :: number logIndex))
  | syncState contractAddress => ascii 's' :: colon :: contractAddress
  | accountState contractAddress accountAddress => namePrefix 'a' contractAddress ++ accountAddress
  | snapshot contractAddress blockNumber => namePrefix 'p' contractAddress ++ number blockNumber
  | blockHash contractAddress blockNumber => namePrefix 'h' contractAddress ++ number blockNumber
  | block chain blockNumber => namePrefix 'b' chain ++ number blockNumber
  | cachedCall cacheKey => ascii 'c' :: colon :: cacheKey

/-- The size of the buffer the key is made in. -/
def Key.buffer : Key → Nat
  | event .. => 512
  | rawLog .. => 256
  | syncState _ => 128
  | accountState .. => 256
  | snapshot .. => 128
  | blockHash .. => 192
  | block .. => 192
  | cachedCall _ => 256

/-! ### Writing -/

abbrev Store : Type := KeyStore.Store Byte Bytes

inductive Failure where
  | noSpaceLeft
  deriving DecidableEq

/-- `bufPrint` -/
def bufPrint (size : Nat) (text : Bytes) : Except Failure Bytes :=
  if text.length ≤ size then .ok text else .error .noSpaceLeft

/-- Make a key, and write a value under it. -/
def write (s : Store) (key : Key) (value : Bytes) : Except Failure Store := do
  let bytes ← bufPrint key.buffer key.bytes
  pure (s.put bytes value)

/-- `insertEventLogRocks` -/
def insertEventLogRocks (s : Store) (contractName eventName : Bytes) (block : UInt64)
    (txHash : Bytes) (logIndex : UInt64) (value : Bytes) : Except Failure Store :=
  write s (.event contractName eventName block txHash logIndex) value

/-- `createSnapshotRocks` -/
def createSnapshotRocks (s : Store) (contractAddress : Bytes) (block : UInt64) (value : Bytes) :
    Except Failure Store := write s (.snapshot contractAddress block) value

/-- `upsertBlockHashRocks` -/
def upsertBlockHashRocks (s : Store) (contractAddress : Bytes) (block : UInt64) (value : Bytes) :
    Except Failure Store := write s (.blockHash contractAddress block) value

/-- `upsertBlockRocks` -/
def upsertBlockRocks (s : Store) (chain : Bytes) (block : UInt64) (value : Bytes) :
    Except Failure Store := write s (.block chain block) value

/-! ### Deleting -/

/-- `deleteEventLogsInRangeRocks` -/
def deleteEventLogsInRangeRocks (s : Store) (contractName eventName : Bytes)
    (fromBlock toBlock : UInt64) : Except Failure Store := do
  let start := eventPrefix contractName eventName
  let _ ← bufPrint 128 start
  let seekKey ← bufPrint 256 (start ++ (number fromBlock ++ [colon]))
  let endKey ← bufPrint 256 (start ++ (number toBlock ++ [colon, top]))
  let batch := collect (fun key => decide (key < endKey)) (s.seek seekKey)
  pure (s.erase batch)

/-- A loop of `rollbackFromBlockRocks`: the keys from one on that begin alike. -/
def keysFrom (s : Store) (startSize seekSize : Nat) (start seek : Bytes) :
    Except Failure (List Bytes) := do
  let start ← bufPrint startSize start
  let seekKey ← bufPrint seekSize seek
  pure (collect (fun key => start.isPrefixOf key) (s.seek seekKey))

/-- `{"last_synced_block":…,"status":"reorg_rollback"}` -/
def syncValue (fromBlock : UInt64) : Bytes :=
  bytesOf ("\x7b\"last_synced_block\":".toList ++ Text.decimal fromBlock.toNat ++
    ",\"status\":\"reorg_rollback\"\x7d".toList)

/-- What a rollback deletes. -/
def rollbackBatch (s : Store) (contractAddress contractName : Bytes) (eventNames : List Bytes)
    (fromBlock : UInt64) (chain : Bytes) : Except Failure (List Bytes) := do
  let events ← eventNames.mapM fun eventName =>
    keysFrom s 128 256 (eventPrefix contractName eventName)
      (eventPrefix contractName eventName ++ (number fromBlock ++ [colon]))
  let snapshots ← keysFrom s 128 256 (namePrefix 'p' contractAddress)
    (namePrefix 'p' contractAddress ++ number fromBlock)
  let hashes ← keysFrom s 128 256 (namePrefix 'h' contractAddress)
    (namePrefix 'h' contractAddress ++ number fromBlock)
  let blocks ← keysFrom s 192 192 (namePrefix 'b' chain) (namePrefix 'b' chain ++ number fromBlock)
  pure (events.flatten ++ (snapshots ++ (hashes ++ blocks)))

/-- The key and the value of the state a rollback leaves. -/
def rollbackState (contractAddress : Bytes) (fromBlock : UInt64) :
    Except Failure (Bytes × Bytes) := do
  let syncKey ← bufPrint 128 (Key.syncState contractAddress).bytes
  let syncVal ← bufPrint 128 (syncValue fromBlock)
  pure (syncKey, syncVal)

/-- `rollbackFromBlockRocks`: the batch is written before the key of the state is made. -/
def rollbackFromBlockRocks (s : Store) (contractAddress contractName : Bytes)
    (eventNames : List Bytes) (fromBlock : UInt64) (chain : Bytes) :
    Store × Except Failure Unit :=
  match rollbackBatch s contractAddress contractName eventNames fromBlock chain with
  | .error e => (s, .error e)
  | .ok batch =>
    match rollbackState contractAddress fromBlock with
    | .error e => (s.erase batch, .error e)
    | .ok (syncKey, syncVal) => ((s.erase batch).put syncKey syncVal, .ok ())

/-! ### What is to be deleted -/

/-- No name of a contract or an event has a colon. -/
def Key.Plain : Key → Prop
  | event contractName eventName .. => colon ∉ contractName ∧ colon ∉ eventName
  | _ => True

/-- A row of a contract and event, of a block of the range. -/
def Key.InRange (contractName eventName : Bytes) (fromBlock toBlock : UInt64) : Key → Prop
  | event contract name blockNumber .. =>
    contract = contractName ∧ name = eventName ∧ fromBlock ≤ blockNumber ∧ blockNumber ≤ toBlock
  | _ => False

/-- What a rollback is to delete. -/
def Key.RolledBack (contractAddress contractName : Bytes) (eventNames : List Bytes)
    (fromBlock : UInt64) (chain : Bytes) : Key → Prop
  | event contract name blockNumber .. =>
    contract = contractName ∧ name ∈ eventNames ∧ fromBlock ≤ blockNumber
  | snapshot address blockNumber => address = contractAddress ∧ fromBlock ≤ blockNumber
  | blockHash address blockNumber => address = contractAddress ∧ fromBlock ≤ blockNumber
  | block name blockNumber => name = chain ∧ fromBlock ≤ blockNumber
  | _ => False

/-- The keys of a contract and event are in the order of their blocks. -/
def ByBlock (contractName eventName : Bytes) : Prop :=
  ∀ block block' txHash txHash' logIndex logIndex', block < block' →
    (Key.event contractName eventName block txHash logIndex).bytes <
      (Key.event contractName eventName block' txHash' logIndex').bytes

/-- The rows of a range are deleted, and no others. -/
def RangeRight (s : Store) (contractName eventName : Bytes) (fromBlock toBlock : UInt64) : Prop :=
  ∃ s', deleteEventLogsInRangeRocks s contractName eventName fromBlock toBlock = .ok s' ∧
    ∀ key : Key, key.Plain →
      (key.InRange contractName eventName fromBlock toBlock → s'.get key.bytes = none) ∧
      (¬key.InRange contractName eventName fromBlock toBlock →
        s'.get key.bytes = s.get key.bytes)

/-- What is from a block on is deleted, the state is set, and nothing else is touched. -/
def RollbackRight (s : Store) (contractAddress contractName : Bytes) (eventNames : List Bytes)
    (fromBlock : UInt64) (chain : Bytes) : Prop :=
  ∃ s', rollbackFromBlockRocks s contractAddress contractName eventNames fromBlock chain =
      (s', .ok ()) ∧
    s'.get (Key.syncState contractAddress).bytes = some (syncValue fromBlock) ∧
    ∀ key : Key, key.Plain → key ≠ .syncState contractAddress →
      (key.RolledBack contractAddress contractName eventNames fromBlock chain →
        s'.get key.bytes = none) ∧
      (¬key.RolledBack contractAddress contractName eventNames fromBlock chain →
        s'.get key.bytes = s.get key.bytes)

/-! ### When it is -/

/-- The names of the loops fit into their buffers. -/
structure RollbackRoom (contractAddress contractName : Bytes) (eventNames : List Bytes)
    (chain : Bytes) : Prop where
  events : ∀ eventName ∈ eventNames, contractName.length + eventName.length + 4 ≤ 128
  address : contractAddress.length + 3 ≤ 128
  chain : chain.length + 23 ≤ 192

/-- No row of the last block is of a transaction hash that begins with the byte above all
others. -/
def BelowTop (s : Store) (contractName eventName : Bytes) (toBlock : UInt64) : Prop :=
  ∀ txHash logIndex, txHash.head? = some top →
    s.get (Key.event contractName eventName toBlock txHash logIndex).bytes = none

/-- One name goes on from another with a colon, and a key of it comes behind a block of the
other. -/
def Astray (name : Bytes) (fromBlock : UInt64) (other : Bytes) (block : UInt64) : Prop :=
  ∃ rest, other = name ++ colon :: rest ∧ number fromBlock ≤ rest ++ colon :: number block

/-- Nothing is stored under a name that goes on from another. -/
structure NothingAstray (s : Store) (contractAddress : Bytes) (fromBlock : UInt64)
    (chain : Bytes) : Prop where
  snapshots : ∀ other block, Astray contractAddress fromBlock other block →
    s.get (Key.snapshot other block).bytes = none
  hashes : ∀ other block, Astray contractAddress fromBlock other block →
    s.get (Key.blockHash other block).bytes = none
  blocks : ∀ other block, Astray chain fromBlock other block →
    s.get (Key.block other block).bytes = none

/-! ### Numbers in keys -/

theorem digit_lt (a b : Nat) (hab : a < b) (hb : b < 10) : digit a < digit b := by
  have h : ∀ b < 10, ∀ a < b, digit a < digit b := by decide
  exact h b hb a hab

theorem toNat_lt_pow (n : UInt64) : n.toNat < 10 ^ 20 := n.toNat_lt.trans (by norm_num)

theorem length_number (n : UInt64) : (number n).length = 20 := length_padded digit 20 n.toNat

theorem colon_notMem_number (n : UInt64) : colon ∉ number n := by
  intro h
  obtain ⟨d, hd, heq⟩ := mem_padded digit h
  have hne : ∀ d < 10, colon ≠ digit d := by decide
  exact hne d hd heq

theorem number_lt_iff {m n : UInt64} {x y : Bytes} :
    number m ++ x < number n ++ y ↔ m < n ∨ m = n ∧ x < y := by
  rw [UInt64.lt_iff_toNat_lt, ← UInt64.toNat_inj]
  rcases lt_trichotomy m.toNat n.toNat with hlt | heq | hgt
  · exact iff_of_true (padded_lt digit_lt hlt (toNat_lt_pow n) x y) (.inl hlt)
  · obtain rfl := UInt64.toNat_inj.1 heq
    rw [append_lt_append_iff]
    exact ⟨fun h => .inr ⟨rfl, h⟩, fun h => h.elim (fun h => absurd h (lt_irrefl _)) And.right⟩
  · refine iff_of_false (lt_asymm (padded_lt digit_lt hgt (toNat_lt_pow m) y x)) ?_
    rintro (hlt | ⟨heq, -⟩)
    · exact lt_asymm hlt hgt
    · exact hgt.ne heq.symm

theorem number_le_iff {m n : UInt64} {x y : Bytes} (hxy : x ≤ y) :
    number m ++ x ≤ number n ++ y ↔ m ≤ n := by
  rw [← not_lt, number_lt_iff, UInt64.le_iff_toNat_le, ← not_lt, ← UInt64.lt_iff_toNat_lt]
  refine not_congr ⟨?_, .inl⟩
  rintro (hlt | ⟨-, hlt⟩)
  · exact hlt
  · exact absurd hlt (not_lt.2 hxy)

theorem number_le {m n : UInt64} : number m ≤ number n ↔ m ≤ n := by
  have h := number_le_iff (m := m) (n := n) (le_refl ([] : Bytes))
  rwa [List.append_nil, List.append_nil] at h

/-- **The keys of a contract and event are in the order of their blocks.** -/
theorem byBlock (contractName eventName : Bytes) : ByBlock contractName eventName :=
  fun _ _ _ _ _ _ h => (append_lt_append_iff _).2 (number_lt_iff.2 (.inl h))

/-! ### Names in keys -/

/-- The letter a key begins with. -/
def Key.letter : Key → Char
  | event .. => 'e'
  | rawLog .. => 'r'
  | syncState _ => 's'
  | accountState .. => 'a'
  | snapshot .. => 'p'
  | blockHash .. => 'h'
  | block .. => 'b'
  | cachedCall _ => 'c'

theorem Key.bytes_eq (key : Key) : ∃ rest, key.bytes = ascii key.letter :: colon :: rest := by
  cases key <;> exact ⟨_, rfl⟩

/-- What begins with another letter is another key. -/
theorem Key.not_prefix {key : Key} {letter : Char} (h : ascii letter ≠ ascii key.letter)
    (x : Bytes) : ¬(ascii letter :: x) <+: key.bytes := by
  obtain ⟨rest, hrest⟩ := key.bytes_eq
  rw [hrest, List.cons_prefix_cons]
  exact fun hx => h hx.1

theorem length_eventPrefix (contractName eventName : Bytes) :
    (eventPrefix contractName eventName).length =
      contractName.length + eventName.length + 4 := by
  simp only [eventPrefix, List.length_cons, List.length_append, List.length_nil]
  omega

theorem length_namePrefix (letter : Char) (name : Bytes) :
    (namePrefix letter name).length = name.length + 3 := by
  simp only [namePrefix, List.length_cons, List.length_append, List.length_nil]

/-- **Names without colons cannot be taken for each other**, also where one begins with the
other. -/
theorem eventPrefix_prefix_iff {contract name contract' name' : Bytes} (hc : colon ∉ contract)
    (hn : colon ∉ name) (hc' : colon ∉ contract') (hn' : colon ∉ name') {rest : Bytes} :
    eventPrefix contract name <+: eventPrefix contract' name' ++ rest ↔
      contract' = contract ∧ name' = name := by
  constructor
  · rintro ⟨tail, h⟩
    have h : contract ++ colon :: (name ++ colon :: tail) =
        contract' ++ colon :: (name' ++ colon :: rest) := by
      simpa only [eventPrefix, List.cons_append, List.append_assoc, List.nil_append,
        List.cons.injEq, true_and] using h
    obtain ⟨rfl, hrest⟩ := split_inj hc hc' h
    exact ⟨rfl, (split_inj hn hn' hrest).1.symm⟩
  · rintro ⟨rfl, rfl⟩
    exact List.prefix_append _ _

/-! ### A range of blocks -/

section Range

variable {s : Store} {contractName eventName : Bytes} {fromBlock toBlock : UInt64}

theorem colon_le (x : Bytes) : [colon] ≤ colon :: x := le_append [colon] x

theorem lt_top_iff {txHash rest : Bytes} :
    txHash ++ colon :: rest < [top] ↔ txHash.head? ≠ some top := by
  cases txHash with
  | nil => exact iff_of_true (List.cons_lt_cons_iff.2 (.inl (by decide))) (by simp)
  | cons c txHash =>
    have hle : c ≤ top := Nat.lt_succ_iff.1 c.isLt
    rw [List.cons_append, List.cons_lt_cons_iff, List.head?_cons, Ne, Option.some_inj]
    constructor
    · rintro (hlt | ⟨-, hlt⟩)
      · exact hlt.ne
      · exact absurd hlt (List.not_lt_nil _)
    · exact fun hne => .inl (lt_of_le_of_ne hle hne)

/-- The keys between the two that a range is made of. -/
theorem between_iff {key : Key} (hkey : key.Plain) (hc : colon ∉ contractName)
    (hn : colon ∉ eventName) :
    (eventPrefix contractName eventName ++ (number fromBlock ++ [colon]) ≤ key.bytes ∧
      key.bytes < eventPrefix contractName eventName ++ (number toBlock ++ [colon, top])) ↔
    key.InRange contractName eventName fromBlock toBlock ∧
      ∀ txHash logIndex, txHash.head? = some top →
        key ≠ .event contractName eventName toBlock txHash logIndex := by
  constructor
  · rintro ⟨hlow, hhigh⟩
    have hprefix := prefix_of_between hlow hhigh.le
    cases key with
    | event contract name blockNumber txHash logIndex =>
      obtain ⟨rfl, rfl⟩ := (eventPrefix_prefix_iff hc hn hkey.1 hkey.2).1 hprefix
      rw [Key.bytes, append_le_append_iff, number_le_iff (colon_le _)] at hlow
      rw [Key.bytes, append_lt_append_iff, number_lt_iff] at hhigh
      refine ⟨⟨rfl, rfl, hlow, ?_⟩, fun tx li htx heq => ?_⟩
      · rcases hhigh with hlt | ⟨rfl, -⟩
        · exact UInt64.le_iff_toNat_le.2 (UInt64.lt_iff_toNat_lt.1 hlt).le
        · exact UInt64.le_refl _
      · obtain ⟨-, -, rfl, rfl, -⟩ := Key.event.inj heq
        rcases hhigh with hlt | ⟨-, hlt⟩
        · exact UInt64.lt_irrefl _ hlt
        · rcases List.cons_lt_cons_iff.1 hlt with hlt | ⟨-, hlt⟩
          · exact lt_irrefl _ hlt
          · exact lt_top_iff.1 hlt htx
    | _ => exact absurd hprefix (Key.not_prefix (by simp only [Key.letter]; decide) _)
  · rintro ⟨hrange, htop⟩
    cases key with
    | event contract name blockNumber txHash logIndex =>
      obtain ⟨rfl, rfl, hfrom, hto⟩ := hrange
      rw [Key.bytes, append_le_append_iff, number_le_iff (colon_le _),
        append_lt_append_iff, number_lt_iff]
      refine ⟨hfrom, ?_⟩
      by_cases heq : blockNumber = toBlock
      · subst heq
        refine .inr ⟨rfl, List.cons_lt_cons_iff.2 (.inr ⟨rfl, lt_top_iff.2 fun htx => ?_⟩)⟩
        exact htop txHash logIndex htx rfl
      · exact .inl (UInt64.lt_of_le_of_ne hto heq)
    | _ => exact absurd hrange id

theorem bufPrint_of_le {size : Nat} {text : Bytes} (h : text.length ≤ size) :
    bufPrint size text = .ok text := if_pos h

theorem bufPrint_of_lt {size : Nat} {text : Bytes} (h : size < text.length) :
    bufPrint size text = .error .noSpaceLeft := if_neg (Nat.not_le.2 h)

theorem deleteEventLogsInRangeRocks_of_room
    (hroom : contractName.length + eventName.length + 4 ≤ 128) :
    deleteEventLogsInRangeRocks s contractName eventName fromBlock toBlock =
      .ok (s.erase (collect
        (fun key => decide (key <
          eventPrefix contractName eventName ++ (number toBlock ++ [colon, top])))
        (s.seek (eventPrefix contractName eventName ++ (number fromBlock ++ [colon]))))) := by
  have hlen := length_eventPrefix contractName eventName
  unfold deleteEventLogsInRangeRocks
  simp only
  rw [bufPrint_of_le (by omega), bufPrint_of_le, bufPrint_of_le]
  · rfl
  · rw [List.length_append, List.length_append, hlen, length_number]
    exact Nat.le_trans (Nat.add_le_add_right hroom _) (by decide)
  · rw [List.length_append, List.length_append, hlen, length_number]
    exact Nat.le_trans (Nat.add_le_add_right hroom _) (by decide)

/-- **When the rows of a range are deleted**, and no others. -/
theorem rangeRight_iff (hc : colon ∉ contractName) (hn : colon ∉ eventName)
    (hle : fromBlock ≤ toBlock) :
    RangeRight s contractName eventName fromBlock toBlock ↔
      contractName.length + eventName.length + 4 ≤ 128 ∧
        BelowTop s contractName eventName toBlock := by
  have hdel : Deletes s (collect (fun key => decide (key <
      eventPrefix contractName eventName ++ (number toBlock ++ [colon, top])))
        (s.seek (eventPrefix contractName eventName ++ (number fromBlock ++ [colon])))) _ :=
    deletes_below
  constructor
  · rintro ⟨s', hs', hright⟩
    have hroom : contractName.length + eventName.length + 4 ≤ 128 := by
      by_contra hlong
      have hlen := length_eventPrefix contractName eventName
      unfold deleteEventLogsInRangeRocks at hs'
      simp only at hs'
      rw [bufPrint_of_lt (by omega)] at hs'
      cases hs'
    rw [deleteEventLogsInRangeRocks_of_room hroom] at hs'
    obtain rfl := Except.ok.inj hs'
    refine ⟨hroom, fun txHash logIndex htx => ?_⟩
    -- it is a row of the range, and the loop leaves it where it is
    have hplain : (Key.event contractName eventName toBlock txHash logIndex).Plain := ⟨hc, hn⟩
    have hgone := (hright _ hplain).1 ⟨rfl, rfl, hle, UInt64.le_refl _⟩
    rwa [hdel.get_of_not fun h => ((between_iff hplain hc hn).1 h).2 txHash logIndex htx rfl]
      at hgone
  · rintro ⟨hroom, hbelow⟩
    refine ⟨_, deleteEventLogsInRangeRocks_of_room hroom, fun key hkey => ⟨fun hrange => ?_,
      fun hrange => hdel.get_of_not fun h => hrange ((between_iff hkey hc hn).1 h).1⟩⟩
    by_cases htop : ∃ txHash logIndex, txHash.head? = some top ∧
        key = .event contractName eventName toBlock txHash logIndex
    · obtain ⟨txHash, logIndex, htx, rfl⟩ := htop
      rw [Store.get_erase, hbelow txHash logIndex htx]
      exact ite_self none
    · refine hdel.get_of ((between_iff hkey hc hn).2 ⟨hrange, fun txHash logIndex htx heq => ?_⟩)
      exact htop ⟨txHash, logIndex, htx, heq⟩

end Range

/-! ### A rollback -/

section Rollback

variable {s : Store} {contractAddress contractName chain : Bytes} {eventNames : List Bytes}
  {fromBlock : UInt64}

/-- The keys of a name from a block on, and of the names that go on from it. -/
theorem named_iff {letter : Char} {name other : Bytes} {blockNumber : UInt64} :
    (namePrefix letter name ++ number fromBlock ≤ namePrefix letter other ++ number blockNumber ∧
      namePrefix letter name <+: namePrefix letter other ++ number blockNumber) ↔
    (other = name ∧ fromBlock ≤ blockNumber) ∨ Astray name fromBlock other blockNumber := by
  -- a word behind the name, which the key is to go on with
  have hsame : ∀ rest, namePrefix letter name ++ number fromBlock ≤ namePrefix letter name ++ rest ↔
      number fromBlock ≤ rest := fun rest => append_le_append_iff _
  constructor
  · rintro ⟨hle, tail, htail⟩
    rw [← htail, hsame] at hle
    have h : name ++ colon :: tail = other ++ colon :: number blockNumber := by
      simpa only [namePrefix, List.cons_append, List.append_assoc, List.nil_append,
        List.cons.injEq, true_and] using htail
    rcases List.append_eq_append_iff.1 h with ⟨more, hother, hmore⟩ | ⟨more, hname, hmore⟩
    · cases more with
      | nil =>
        have htail : tail = number blockNumber := by simpa using hmore
        rw [htail] at hle
        exact .inl ⟨hother.trans (List.append_nil _), number_le.1 hle⟩
      | cons c more =>
        obtain ⟨rfl, htail⟩ : colon = c ∧ tail = more ++ colon :: number blockNumber := by
          simpa using hmore
        exact .inr ⟨more, hother, htail ▸ hle⟩
    · cases more with
      | nil =>
        have htail : number blockNumber = tail := by simpa using hmore
        rw [← htail] at hle
        exact .inl ⟨(hname.trans (List.append_nil _)).symm, number_le.1 hle⟩
      | cons c more =>
        have hnumber : number blockNumber = more ++ colon :: tail := (by simpa using hmore :
          colon = c ∧ number blockNumber = more ++ colon :: tail).2
        refine absurd ?_ (colon_notMem_number blockNumber)
        rw [hnumber]
        exact List.mem_append_right _ List.mem_cons_self
  · rintro (⟨rfl, hle⟩ | ⟨rest, rfl, hle⟩)
    · exact ⟨(hsame _).2 (number_le.2 hle), List.prefix_append _ _⟩
    · have hkey : namePrefix letter (name ++ colon :: rest) ++ number blockNumber =
          namePrefix letter name ++ (rest ++ colon :: number blockNumber) := by
        simp only [namePrefix, List.cons_append, List.append_assoc, List.nil_append]
      rw [hkey]
      exact ⟨(hsame _).2 hle, List.prefix_append _ _⟩

/-- The keys of a contract and event from a block on. -/
theorem event_iff {name : Bytes} {key : Key} (hkey : key.Plain) (hc : colon ∉ contractName)
    (hn : colon ∉ name) :
    (eventPrefix contractName name ++ (number fromBlock ++ [colon]) ≤ key.bytes ∧
      eventPrefix contractName name <+: key.bytes) ↔
    ∃ blockNumber txHash logIndex, fromBlock ≤ blockNumber ∧
      key = .event contractName name blockNumber txHash logIndex := by
  constructor
  · rintro ⟨hle, hprefix⟩
    cases key with
    | event contract name' blockNumber txHash logIndex =>
      obtain ⟨rfl, rfl⟩ := (eventPrefix_prefix_iff hc hn hkey.1 hkey.2).1 hprefix
      rw [Key.bytes, append_le_append_iff, number_le_iff (colon_le _)] at hle
      exact ⟨blockNumber, txHash, logIndex, hle, rfl⟩
    | _ => exact absurd hprefix (Key.not_prefix (by simp only [Key.letter]; decide) _)
  · rintro ⟨blockNumber, txHash, logIndex, hle, rfl⟩
    rw [Key.bytes, append_le_append_iff, number_le_iff (colon_le _)]
    exact ⟨hle, List.prefix_append _ _⟩

theorem keysFrom_eq_ok_iff {startSize seekSize : Nat} {start seek : Bytes} {keys : List Bytes} :
    keysFrom s startSize seekSize start seek = .ok keys ↔
      start.length ≤ startSize ∧ seek.length ≤ seekSize ∧
        keys = collect (fun key => start.isPrefixOf key) (s.seek seek) := by
  unfold keysFrom
  by_cases hstart : start.length ≤ startSize
  · rw [bufPrint_of_le hstart]
    by_cases hseek : seek.length ≤ seekSize
    · rw [bufPrint_of_le hseek]
      exact ⟨fun h => ⟨hstart, hseek, (Except.ok.inj h).symm⟩, fun h => congrArg Except.ok h.2.2.symm⟩
    · rw [bufPrint_of_lt (Nat.not_le.1 hseek)]
      exact iff_of_false (fun h => by cases h) fun h => hseek h.2.1
  · rw [bufPrint_of_lt (Nat.not_le.1 hstart)]
    exact iff_of_false (fun h => by cases h) fun h => hstart h.1

/-- The keys a loop comes by. -/
def found (s : Store) (start seek : Bytes) : List Bytes :=
  collect (fun key => start.isPrefixOf key) (s.seek seek)

theorem deletes_found (start more : Bytes) :
    Deletes s (found s start (start ++ more)) fun k => start ++ more ≤ k ∧ start <+: k :=
  deletes_prefixed (List.prefix_append start more)

theorem deletes_flatten {names : List Bytes} {batch : Bytes → List Bytes}
    {P : Bytes → Bytes → Prop} (h : ∀ name ∈ names, Deletes s (batch name) (P name)) :
    Deletes s (names.map batch).flatten fun k => ∃ name ∈ names, P name k := by
  induction names with
  | nil => exact deletes_nil.congr fun k _ => by simp
  | cons name names ih =>
    have hrest := ih fun n hn => h n (List.mem_cons_of_mem name hn)
    exact ((h name List.mem_cons_self).append hrest).congr fun k _ => by simp

theorem keysFrom_event_eq_ok_iff {name : Bytes} {keys : List Bytes} :
    keysFrom s 128 256 (eventPrefix contractName name)
        (eventPrefix contractName name ++ (number fromBlock ++ [colon])) = .ok keys ↔
      contractName.length + name.length + 4 ≤ 128 ∧ keys = found s (eventPrefix contractName name)
        (eventPrefix contractName name ++ (number fromBlock ++ [colon])) := by
  rw [keysFrom_eq_ok_iff, List.length_append, List.length_append, length_eventPrefix,
    length_number]
  refine ⟨fun h => ⟨h.1, h.2.2⟩, fun h => ⟨h.1, ?_, h.2⟩⟩
  exact Nat.le_trans (Nat.add_le_add_right h.1 _) (by decide)

theorem mapM_keysFrom_eq_ok_iff {keys : List (List Bytes)} :
    (eventNames.mapM fun name => keysFrom s 128 256 (eventPrefix contractName name)
      (eventPrefix contractName name ++ (number fromBlock ++ [colon]))) = .ok keys ↔
    (∀ name ∈ eventNames, contractName.length + name.length + 4 ≤ 128) ∧
      keys = eventNames.map fun name => found s (eventPrefix contractName name)
        (eventPrefix contractName name ++ (number fromBlock ++ [colon])) := by
  induction eventNames generalizing keys with
  | nil => exact ⟨fun h => ⟨by simp, (Except.ok.inj h).symm⟩, fun h => congrArg Except.ok h.2.symm⟩
  | cons name names ih =>
    rw [List.mapM_cons, List.forall_mem_cons, List.map_cons]
    cases hfirst : keysFrom s 128 256 (eventPrefix contractName name)
        (eventPrefix contractName name ++ (number fromBlock ++ [colon])) with
    | error e =>
      refine iff_of_false (fun h => by cases h) fun h => ?_
      cases hfirst.symm.trans (keysFrom_event_eq_ok_iff.2 ⟨h.1.1, rfl⟩)
    | ok first =>
      obtain ⟨hroom, rfl⟩ := keysFrom_event_eq_ok_iff.1 hfirst
      cases hrest : names.mapM fun name => keysFrom s 128 256 (eventPrefix contractName name)
          (eventPrefix contractName name ++ (number fromBlock ++ [colon])) with
      | error e =>
        refine iff_of_false (fun h => by cases h) fun h => ?_
        cases hrest.symm.trans (ih.2 ⟨h.1.2, rfl⟩)
      | ok rest =>
        obtain ⟨hrooms, rfl⟩ := ih.1 hrest
        exact ⟨fun h => ⟨⟨hroom, hrooms⟩, (Except.ok.inj h).symm⟩,
          fun h => congrArg Except.ok h.2.symm⟩

/-- What a rollback comes by. -/
def foundAll (s : Store) (contractAddress contractName : Bytes) (eventNames : List Bytes)
    (fromBlock : UInt64) (chain : Bytes) : List Bytes :=
  (eventNames.map fun name => found s (eventPrefix contractName name)
    (eventPrefix contractName name ++ (number fromBlock ++ [colon]))).flatten ++
  (found s (namePrefix 'p' contractAddress) (namePrefix 'p' contractAddress ++ number fromBlock) ++
  (found s (namePrefix 'h' contractAddress) (namePrefix 'h' contractAddress ++ number fromBlock) ++
  found s (namePrefix 'b' chain) (namePrefix 'b' chain ++ number fromBlock)))

theorem keysFrom_name_eq_ok_iff {letter : Char} {name : Bytes} {startSize seekSize : Nat}
    {keys : List Bytes} :
    keysFrom s startSize seekSize (namePrefix letter name)
        (namePrefix letter name ++ number fromBlock) = .ok keys ↔
      name.length + 3 ≤ startSize ∧ name.length + 23 ≤ seekSize ∧
        keys = found s (namePrefix letter name) (namePrefix letter name ++ number fromBlock) := by
  rw [keysFrom_eq_ok_iff, List.length_append, length_namePrefix, length_number]
  exact Iff.rfl

theorem rollbackBatch_eq_ok_iff {batch : List Bytes} :
    rollbackBatch s contractAddress contractName eventNames fromBlock chain = .ok batch ↔
      RollbackRoom contractAddress contractName eventNames chain ∧
        batch = foundAll s contractAddress contractName eventNames fromBlock chain := by
  constructor
  · intro h
    unfold rollbackBatch at h
    cases hevents : eventNames.mapM fun name => keysFrom s 128 256 (eventPrefix contractName name)
        (eventPrefix contractName name ++ (number fromBlock ++ [colon])) with
    | error e => rw [hevents] at h; cases h
    | ok events =>
      rw [hevents] at h
      cases hsnapshots : keysFrom s 128 256 (namePrefix 'p' contractAddress)
          (namePrefix 'p' contractAddress ++ number fromBlock) with
      | error e => rw [hsnapshots] at h; cases h
      | ok snapshots =>
        rw [hsnapshots] at h
        cases hhashes : keysFrom s 128 256 (namePrefix 'h' contractAddress)
            (namePrefix 'h' contractAddress ++ number fromBlock) with
        | error e => rw [hhashes] at h; cases h
        | ok hashes =>
          rw [hhashes] at h
          cases hblocks : keysFrom s 192 192 (namePrefix 'b' chain)
              (namePrefix 'b' chain ++ number fromBlock) with
          | error e => rw [hblocks] at h; cases h
          | ok blocks =>
            rw [hblocks] at h
            obtain ⟨hrooms, rfl⟩ := mapM_keysFrom_eq_ok_iff.1 hevents
            obtain ⟨haddress, -, rfl⟩ := keysFrom_name_eq_ok_iff.1 hsnapshots
            obtain ⟨-, -, rfl⟩ := keysFrom_name_eq_ok_iff.1 hhashes
            obtain ⟨-, hchain, rfl⟩ := keysFrom_name_eq_ok_iff.1 hblocks
            exact ⟨⟨hrooms, haddress, hchain⟩, (Except.ok.inj h).symm⟩
  · rintro ⟨hroom, rfl⟩
    have haddress := hroom.address
    have hchain := hroom.chain
    unfold rollbackBatch
    rw [mapM_keysFrom_eq_ok_iff.2 ⟨hroom.events, rfl⟩,
      keysFrom_name_eq_ok_iff.2 ⟨haddress, by omega, rfl⟩,
      keysFrom_name_eq_ok_iff.2 ⟨haddress, by omega, rfl⟩,
      keysFrom_name_eq_ok_iff.2 ⟨by omega, hchain, rfl⟩]
    rfl

/-- What is stored under a name that goes on from another. -/
def Key.Stray (contractAddress : Bytes) (fromBlock : UInt64) (chain : Bytes) : Key → Prop
  | snapshot other blockNumber => Astray contractAddress fromBlock other blockNumber
  | blockHash other blockNumber => Astray contractAddress fromBlock other blockNumber
  | block other blockNumber => Astray chain fromBlock other blockNumber
  | _ => False

variable (s contractAddress fromBlock chain) in
/-- **What a rollback deletes**: what it is to delete, and what is stored under names that go on
from those it is about. -/
theorem deletes_foundAll (hc : colon ∉ contractName) (hns : ∀ name ∈ eventNames, colon ∉ name) :
    ∃ P, Deletes s (foundAll s contractAddress contractName eventNames fromBlock chain) P ∧
      ∀ key : Key, key.Plain → (P key.bytes ↔
        key.RolledBack contractAddress contractName eventNames fromBlock chain ∨
          key.Stray contractAddress fromBlock chain) := by
  refine ⟨_, (deletes_flatten fun name _ => deletes_found _ _).append
    ((deletes_found _ _).append ((deletes_found _ _).append (deletes_found _ _))), ?_⟩
  intro key hkey
  -- the loops over the events, and those over other letters than that of the key
  have hevents : (∃ name ∈ eventNames, eventPrefix contractName name ++
      (number fromBlock ++ [colon]) ≤ key.bytes ∧ eventPrefix contractName name <+: key.bytes) ↔
      ∃ name ∈ eventNames, ∃ blockNumber txHash logIndex, fromBlock ≤ blockNumber ∧
        key = .event contractName name blockNumber txHash logIndex :=
    exists_congr fun name => and_congr_right fun hname => event_iff hkey hc (hns name hname)
  have hother : ∀ (letter : Char) (name : Bytes), ascii letter ≠ ascii key.letter →
      ((namePrefix letter name ++ number fromBlock ≤ key.bytes ∧
        namePrefix letter name <+: key.bytes) ↔ False) := fun letter name hne =>
    iff_of_false (fun h => Key.not_prefix hne _ h.2) id
  rw [hevents]
  cases key with
  | event contract name blockNumber txHash logIndex =>
    rw [hother 'p' _ (by simp only [Key.letter]; decide),
      hother 'h' _ (by simp only [Key.letter]; decide),
      hother 'b' _ (by simp only [Key.letter]; decide)]
    simp only [Key.event.injEq, Key.RolledBack, Key.Stray, or_false]
    constructor
    · rintro ⟨name', hname, n, tx, li, hle, rfl, rfl, rfl, rfl, rfl⟩
      exact ⟨rfl, hname, hle⟩
    · rintro ⟨rfl, hname, hle⟩
      exact ⟨name, hname, blockNumber, txHash, logIndex, hle, rfl, rfl, rfl, rfl, rfl⟩
  | snapshot other blockNumber =>
    rw [hother 'h' _ (by simp only [Key.letter]; decide),
      hother 'b' _ (by simp only [Key.letter]; decide), Key.bytes, named_iff]
    simp only [reduceCtorEq, and_false, exists_false, false_or, or_false]
    rfl
  | blockHash other blockNumber =>
    rw [hother 'p' _ (by simp only [Key.letter]; decide),
      hother 'b' _ (by simp only [Key.letter]; decide), Key.bytes, named_iff]
    simp only [reduceCtorEq, and_false, exists_false, false_or, or_false]
    rfl
  | block other blockNumber =>
    rw [hother 'p' _ (by simp only [Key.letter]; decide),
      hother 'h' _ (by simp only [Key.letter]; decide), Key.bytes, named_iff]
    simp only [reduceCtorEq, and_false, exists_false, false_or]
    rfl
  | _ =>
    rw [hother 'p' _ (by simp only [Key.letter]; decide),
      hother 'h' _ (by simp only [Key.letter]; decide),
      hother 'b' _ (by simp only [Key.letter]; decide)]
    simp only [reduceCtorEq, and_false, exists_false, or_false]
    exact iff_of_false id fun h => h.elim id id

theorem length_syncValue (fromBlock : UInt64) : (syncValue fromBlock).length ≤ 128 := by
  have hdecimal : (Text.decimal fromBlock.toNat).length ≤ 20 :=
    (Nat.length_toDigits_le_iff (by decide) (by decide)).2 (fromBlock.toNat_lt.trans_le (by decide))
  have hopen : "\x7b\"last_synced_block\":".toList.length = 21 := by decide
  have hclose : ",\"status\":\"reorg_rollback\"\x7d".toList.length = 27 := by decide
  unfold syncValue bytesOf
  rw [List.length_map, List.length_append, List.length_append, hopen, hclose]
  omega

/-- A rollback with room for its keys goes through. -/
theorem rollbackFromBlockRocks_of_room
    (hroom : RollbackRoom contractAddress contractName eventNames chain) :
    rollbackFromBlockRocks s contractAddress contractName eventNames fromBlock chain =
      ((s.erase (foundAll s contractAddress contractName eventNames fromBlock chain)).put
        (Key.syncState contractAddress).bytes (syncValue fromBlock), .ok ()) := by
  have haddress := hroom.address
  have hkey : (Key.syncState contractAddress).bytes.length ≤ 128 := by
    simp only [Key.bytes, List.length_cons]
    omega
  have hstate : rollbackState contractAddress fromBlock =
      .ok ((Key.syncState contractAddress).bytes, syncValue fromBlock) := by
    unfold rollbackState
    rw [bufPrint_of_le hkey, bufPrint_of_le (length_syncValue fromBlock)]
    rfl
  unfold rollbackFromBlockRocks
  rw [rollbackBatch_eq_ok_iff.2 ⟨hroom, rfl⟩, hstate]

theorem room_of_rollback {s' : Store}
    (h : rollbackFromBlockRocks s contractAddress contractName eventNames fromBlock chain =
      (s', .ok ())) : RollbackRoom contractAddress contractName eventNames chain := by
  unfold rollbackFromBlockRocks at h
  cases hbatch : rollbackBatch s contractAddress contractName eventNames fromBlock chain with
  | error e =>
    rw [hbatch] at h
    cases congrArg Prod.snd h
  | ok batch => exact (rollbackBatch_eq_ok_iff.1 hbatch).1

theorem bytes_ne_syncState {key : Key} (h : key ≠ .syncState contractAddress) :
    key.bytes ≠ (Key.syncState contractAddress).bytes := by
  intro heq
  cases key with
  | syncState other =>
    obtain rfl : other = contractAddress := (List.cons.inj (List.cons.inj heq).2).2
    exact h rfl
  | _ => exact absurd (List.cons.inj heq).1 (by decide)

/-- A name does not go on from itself. -/
theorem Astray.ne {name other : Bytes} {blockNumber : UInt64}
    (h : Astray name fromBlock other blockNumber) : other ≠ name := by
  obtain ⟨rest, rfl, -⟩ := h
  intro heq
  have hlen := congrArg List.length heq
  rw [List.length_append, List.length_cons] at hlen
  omega

theorem nothingAstray_iff : NothingAstray s contractAddress fromBlock chain ↔
    ∀ key : Key, key.Stray contractAddress fromBlock chain → s.get key.bytes = none := by
  constructor
  · intro h key hkey
    cases key with
    | snapshot other blockNumber => exact h.snapshots other blockNumber hkey
    | blockHash other blockNumber => exact h.hashes other blockNumber hkey
    | block other blockNumber => exact h.blocks other blockNumber hkey
    | _ => exact absurd hkey id
  · intro h
    exact ⟨fun other n hn => h (.snapshot other n) hn, fun other n hn => h (.blockHash other n) hn,
      fun other n hn => h (.block other n) hn⟩

theorem Key.Stray.plain {key : Key} (h : key.Stray contractAddress fromBlock chain) :
    key.Plain ∧ key ≠ .syncState contractAddress ∧
      ¬key.RolledBack contractAddress contractName eventNames fromBlock chain := by
  cases key with
  | snapshot other blockNumber => exact ⟨trivial, Key.noConfusion, fun hback => h.ne hback.1⟩
  | blockHash other blockNumber => exact ⟨trivial, Key.noConfusion, fun hback => h.ne hback.1⟩
  | block other blockNumber => exact ⟨trivial, Key.noConfusion, fun hback => h.ne hback.1⟩
  | _ => exact absurd h id

/-- **When a rollback deletes what it should**, and nothing else. -/
theorem rollbackRight_iff (hc : colon ∉ contractName) (hns : ∀ name ∈ eventNames, colon ∉ name) :
    RollbackRight s contractAddress contractName eventNames fromBlock chain ↔
      RollbackRoom contractAddress contractName eventNames chain ∧
        NothingAstray s contractAddress fromBlock chain := by
  obtain ⟨P, hdel, hP⟩ := deletes_foundAll s contractAddress chain fromBlock hc hns
  rw [nothingAstray_iff]
  constructor
  · rintro ⟨s', hs', -, hright⟩
    have hroom := room_of_rollback hs'
    rw [rollbackFromBlockRocks_of_room hroom] at hs'
    obtain rfl := congrArg Prod.fst hs'
    refine ⟨hroom, fun key hstray => ?_⟩
    -- it is deleted and should not be touched, so there is nothing
    obtain ⟨hplain, hne, hback⟩ := hstray.plain
    have hsame := (hright key hplain hne).2 hback
    rw [Store.get_put_of_ne (bytes_ne_syncState hne),
      hdel.get_of ((hP key hplain).2 (.inr hstray))] at hsame
    exact hsame.symm
  · rintro ⟨hroom, hnone⟩
    refine ⟨_, rollbackFromBlockRocks_of_room hroom, Store.get_put_self, fun key hplain hne => ?_⟩
    rw [Store.get_put_of_ne (bytes_ne_syncState hne)]
    refine ⟨fun hback => hdel.get_of ((hP key hplain).2 (.inl hback)), fun hback => ?_⟩
    by_cases hstray : key.Stray contractAddress fromBlock chain
    · rw [hnone key hstray]
      exact hdel.get_of ((hP key hplain).2 (.inr hstray))
    · exact hdel.get_of_not fun h => ((hP key hplain).1 h).elim hback hstray

end Rollback

/-- Names with which a row is written, and not deleted. -/
def longContract : Bytes := List.replicate 100 (ascii 'a')

def longEvent : Bytes := List.replicate 40 (ascii 'b')

/-- The store with the row. -/
def longStore : Store := Store.empty.put (Key.event longContract longEvent 5 [] 0).bytes []

end Zponder.RocksKeys

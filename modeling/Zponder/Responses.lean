import Zponder.Fetch
import Zponder.Lib.Json

/-!
# The answers of a node

What the client makes of an HTTP status and a body: `rpcCall`, which refuses what is an error and
lets everything else through, and the functions that read what it has let through. A value
of `std.json.Value` has a kind, and to read it as one of another kind ends the process; a
function that may do so is a value of `Option` here, and `none` says that it has.

The reader of JSON is a parameter. A number is an integer if it is written as one and fits an
`i64` (`Zponder.Responses.integerOf`). `rpcCallWithRetry` asks again after most errors; what
it returns is what `rpcCall` returned for one of the answers, and that is the answer here.

`rpcCall` lets bodies through that are not objects, and the readers of block numbers, blocks
and calls take every body for an object; the one of block numbers takes its result for a
string. That is exactly when they end the process (`Zponder.Responses.safe_iff`).
-/

namespace Zponder.Responses

open Json (Value)

/-- The errors of the client. -/
inductive RpcError where
  | badJson
  | badNumber
  | invalidResponse
  | noResult
  | blockNotFound
  | rpcError
  | rpcLimitExceeded
  | httpClientError
  | httpError
  deriving DecidableEq, Repr

/-- An HTTP status and a body. -/
structure Reply where
  status : Nat
  body : Text
  deriving DecidableEq, Repr

/-- The members of an object. -/
abbrev Members := List (Text × Value)

/-! ### Kinds -/

/-- `value.object` -/
def object : Value → Option Members
  | .object members => some members
  | _ => none

theorem object_eq_some {root : Value} {members : Members} :
    object root = some members ↔ root = .object members := by
  cases root <;> simp [object]

/-- `value.string` -/
def string : Value → Option Text
  | .text s => some s
  | _ => none

/-- The integer a number is, if it is one. -/
def integerOf (digits : Text) : Option Int :=
  if digits = "-0".toList ∨ digits.any fun c => c == '.' || c == 'e' || c == 'E' then none
  else if digits.head? = some '-' then
    if Nat.ofDigitChars 10 digits.tail 0 ≤ 2 ^ 63 then some (-Nat.ofDigitChars 10 digits.tail 0)
    else none
  else if Nat.ofDigitChars 10 digits 0 < 2 ^ 63 then some (Nat.ofDigitChars 10 digits 0)
  else none

/-- `value.integer` -/
def integer : Value → Option Int
  | .number digits => integerOf digits
  | _ => none

/-! ### Errors -/

/-- `containsFold` -/
def containsFold (hay needle : Text) : Bool :=
  needle ≠ [] && hay.tails.any fun s => s.length ≥ needle.length &&
    Text.eqlIgnoreCase (s.take needle.length) needle

/-- What nodes say of a range that is too wide. -/
def needles : List Text :=
  ["returned more than", "response size", "too many logs", "too many results", "too many blocks",
    "log limit", "block range", "exceed max", "exceeds max", "maximum block", "query exceeds",
    "result limit", "size exceeded"].map String.toList

/-- `rpcRangeTooWide` -/
def rpcRangeTooWide (code : Int) (msg : Text) : Bool :=
  if containsFold msg "rate limit".toList || containsFold msg "too many requests".toList then false
  else code == -32005 || needles.any (containsFold msg)

/-- The error of a body with an error object. -/
def errorOf (err : Members) : RpcError :=
  let code := ((err.lookup "code".toList).bind integer).getD (-1)
  let msg := ((err.lookup "message".toList).bind string).getD "unknown".toList
  if rpcRangeTooWide code msg then .rpcLimitExceeded else .rpcError

/-! ### Numbers -/

/-- `std.mem.trim(u8, s, " \t\n\r\"")` -/
def trim (s : Text) : Text :=
  let blank := fun c => c == ' ' || c == '\t' || c == '\n' || c == '\r' || c == '"'
  ((s.dropWhile blank).reverse.dropWhile blank).reverse

/-- `utils.parseHexU64` -/
def parseHexU64 (hexStr : Text) : Option Nat :=
  let trimmed := trim hexStr
  Text.parseInt 16 (2 ^ 64)
    (if "0x".toList.isPrefixOf trimmed then trimmed.drop 2 else trimmed)

/-! ### Logs -/

/-- `parseLogObject` -/
def parseLogObject (obj : Members) : Log where
  address := ((obj.lookup "address".toList).bind string).getD []
  topics :=
    match obj.lookup "topics".toList with
    | some (.array items) => items.filterMap string
    | _ => []
  data := ((obj.lookup "data".toList).bind string).getD []
  blockNumber :=
    (((obj.lookup "blockNumber".toList).bind string).bind parseHexU64).getD 0
  transactionHash := ((obj.lookup "transactionHash".toList).bind string).getD []
  logIndex := (((obj.lookup "logIndex".toList).bind string).bind parseHexU64).getD 0
  removed :=
    match obj.lookup "removed".toList with
    | some (.bool b) => b
    | _ => false

section Client

variable (parse : Text → Option Value)

/-- `rpcCall`, with the answer it gets. -/
def rpcCall (r : Reply) : Except RpcError Text :=
  if r.status = 413 then .error .rpcLimitExceeded
  else if 400 ≤ r.status ∧ r.status < 500 ∧ r.status ≠ 429 then .error .httpClientError
  else if r.status < 200 ∨ r.status ≥ 300 then .error .httpError
  else
    match parse r.body with
    | some (.object members) =>
      match members.lookup "error".toList with
      | some (.object err) => .error (errorOf err)
      | some _ => .error .rpcError
      | none => .ok r.body
    | _ => .ok r.body

/-- What `extractHexU64Result` makes of a body with an error member. -/
def hexErrorOf (err : Members) : Option (Except RpcError Nat) :=
  let code := (err.lookup "code".toList).elim (some (-1)) integer
  let msg := (err.lookup "message".toList).elim (some "unknown".toList) string
  code.bind fun _ => msg.map fun _ => .error .rpcError

/-- What it makes of one with a result. -/
def hexResultOf (result : Option Value) : Option (Except RpcError Nat) :=
  match result with
  | none => some (.error .noResult)
  | some result =>
    (string result).map fun hexStr =>
      match parseHexU64 hexStr with
      | some n => .ok n
      | none => .error .badNumber

/-- `extractHexU64Result` -/
def extractHexU64Result (raw : Text) : Option (Except RpcError Nat) :=
  match parse raw with
  | none => some (.error .badJson)
  | some root =>
    (object root).bind fun members =>
      match members.lookup "error".toList with
      | some err => (object err).bind hexErrorOf
      | none => hexResultOf (members.lookup "result".toList)

/-- Read what `rpcCall` lets through. -/
def fetched {α : Type} (r : Reply) (read : Text → Option (Except RpcError α)) :
    Option (Except RpcError α) :=
  match rpcCall parse r with
  | .ok raw => read raw
  | .error e => some (.error e)

/-- Read what is let through as an object. -/
def reading {α : Type} (read : Members → Except RpcError α) (raw : Text) :
    Option (Except RpcError α) :=
  match parse raw with
  | none => some (.error .badJson)
  | some root => (object root).map read

/-- `getBlockNumberAt`, without its cache -/
def getBlockNumber (r : Reply) : Option (Except RpcError Nat) :=
  fetched parse r (extractHexU64Result parse)

/-- The hash in the members of a body. -/
def hashOf (members : Members) : Except RpcError (Option Text) :=
  match members.lookup "result".toList with
  | some (.object result) => .ok ((result.lookup "hash".toList).bind string)
  | _ => .ok none

/-- `getBlockHash` -/
def getBlockHash (r : Reply) : Option (Except RpcError (Option Text)) :=
  fetched parse r (reading parse hashOf)

/-- `Client.BlockData` -/
structure BlockData where
  hash : Text
  number : Nat
  timestamp : Nat
  miner : Text
  gasUsed : Nat
  gasLimit : Nat
  baseFeePerGas : Text
  transactionCount : Nat
  deriving DecidableEq, Repr

/-- The block in the members of a body. -/
def blockOf (members : Members) : Except RpcError (Option BlockData) :=
  match members.lookup "result".toList with
  | some (.object obj) => .ok do
    let hash ← (obj.lookup "hash".toList).bind string
    let number ← ((obj.lookup "number".toList).bind string).bind parseHexU64
    let timestamp ← ((obj.lookup "timestamp".toList).bind string).bind parseHexU64
    let gasUsed ← ((obj.lookup "gasUsed".toList).bind string).bind parseHexU64
    let gasLimit ← ((obj.lookup "gasLimit".toList).bind string).bind parseHexU64
    pure {
      hash, number, timestamp, gasUsed, gasLimit
      miner := ((obj.lookup "miner".toList).bind string).getD []
      baseFeePerGas := ((obj.lookup "baseFeePerGas".toList).bind string).getD "0x0".toList
      transactionCount :=
        match obj.lookup "transactions".toList with
        | some (.array txs) => txs.length
        | _ => 0 }
  | _ => .ok none

/-- `getBlockData` -/
def getBlockData (r : Reply) : Option (Except RpcError (Option BlockData)) :=
  fetched parse r (reading parse blockOf)

/-- The result of a call in the members of a body. -/
def callResultOf (members : Members) : Except RpcError Text :=
  match members.lookup "result".toList with
  | none => .error .noResult
  | some (.text s) => .ok s
  | some _ => .error .invalidResponse

/-- `ethCall` -/
def ethCall (r : Reply) : Option (Except RpcError Text) :=
  fetched parse r (reading parse callResultOf)

/-- The error member of a body, for the readers of logs. -/
def bodyError (err : Value) : RpcError :=
  match err with
  | .object err => errorOf err
  | _ => .invalidResponse

/-- `parseLogs` -/
def parseLogs (raw : Text) : Except RpcError (List Log) :=
  match parse raw with
  | none => .error .badJson
  | some (.object members) =>
    match members.lookup "error".toList with
    | some err => .error (bodyError err)
    | none =>
      match members.lookup "result".toList with
      | some (.array items) => .ok ((items.filterMap object).map parseLogObject)
      | _ => .ok []
  | some _ => .error .invalidResponse

/-- The logs of a receipt. -/
def receiptLogs (receipt : Value) : List Log :=
  match (object receipt).bind fun members => members.lookup "logs".toList with
  | some (.array items) => (items.filterMap object).map parseLogObject
  | _ => []

/-- `parseBlockReceiptLogs` -/
def parseBlockReceiptLogs (raw : Text) (blockNumber : Nat) (addresses : List Text)
    (topics : Option (List Text)) : Except RpcError (List Log) :=
  match parse raw with
  | none => .error .badJson
  | some (.object members) =>
    match members.lookup "error".toList with
    | some err => .error (bodyError err)
    | none =>
      match members.lookup "result".toList with
      | none => .error .invalidResponse
      | some .null => .error .blockNotFound
      | some (.array receipts) =>
        .ok ((receipts.flatMap receiptLogs).filter fun lg =>
          lg.blockNumber == blockNumber && receiptLogWanted addresses topics lg)
      | some _ => .error .invalidResponse
  | some _ => .error .invalidResponse

/-- `getLogs` -/
def getLogs (r : Reply) : Option (Except RpcError (List Log)) :=
  fetched parse r fun raw => some (parseLogs parse raw)

/-- `getBlockReceiptLogs` -/
def getBlockReceiptLogs (r : Reply) (blockNumber : Nat) (addresses : List Text)
    (topics : Option (List Text)) : Option (Except RpcError (List Log)) :=
  fetched parse r fun raw =>
    some (parseBlockReceiptLogs parse raw blockNumber addresses topics)

/-! ### When a reader ends the process -/

/-- The functions of the client. -/
inductive Call where
  | blockNumber
  | blockHash
  | blockData
  | ethCall
  | logs
  | blockReceiptLogs (blockNumber : Nat) (addresses : List Text) (topics : Option (List Text))

/-- The function returns a value or an error. -/
def Safe (c : Call) (r : Reply) : Prop :=
  match c with
  | .blockNumber => (getBlockNumber parse r).isSome
  | .blockHash => (getBlockHash parse r).isSome
  | .blockData => (getBlockData parse r).isSome
  | .ethCall => (ethCall parse r).isSome
  | .logs => (getLogs parse r).isSome
  | .blockReceiptLogs blockNumber addresses topics =>
    (getBlockReceiptLogs parse r blockNumber addresses topics).isSome

/-- A root without an error member. -/
def NoError : Value → Prop
  | .object members => members.lookup "error".toList = none
  | _ => True

/-- What a function can read: the logs any root, the others an object, and the one of block
numbers an object whose result is a string, if it has one. -/
def Fits : Call → Value → Prop
  | .logs, _ => True
  | .blockReceiptLogs _ _ _, _ => True
  | .blockNumber, root => ∃ members, root = .object members ∧
      ∀ result, members.lookup "result".toList = some result → ∃ s, result = .text s
  | .blockHash, root => ∃ members, root = .object members
  | .blockData, root => ∃ members, root = .object members
  | .ethCall, root => ∃ members, root = .object members

variable {parse}

/-- **What `rpcCall` lets through**: the body of an answer with a status of success, unless it
is an object with an error member. -/
theorem rpcCall_eq_ok {r : Reply} {raw : Text} :
    rpcCall parse r = .ok raw ↔ (200 ≤ r.status ∧ r.status < 300) ∧ r.body = raw ∧
      ∀ root, parse r.body = some root → NoError root := by
  unfold rpcCall
  by_cases hstatus : 200 ≤ r.status ∧ r.status < 300
  · rw [if_neg (by omega), if_neg (by omega), if_neg (by omega)]
    simp only [hstatus, true_and]
    split
    · next members hroot =>
      have hbad : ∀ {err e}, members.lookup "error".toList = some err →
          ((.error e : Except RpcError Text) = .ok raw ↔ r.body = raw ∧
            ∀ root, parse r.body = some root → NoError root) := by
        intro err e herr
        refine ⟨fun h => absurd h (by simp), fun h => ?_⟩
        have hno : members.lookup "error".toList = none := h.2 _ hroot
        rw [herr] at hno
        cases hno
      split
      · next err herr => exact hbad herr
      · next other _ herr => exact hbad herr
      · next herr =>
        simp only [Except.ok.injEq, iff_self_and]
        rintro - root hroot'
        obtain rfl := Option.some.inj (hroot.symm.trans hroot')
        exact herr
    · next hobject =>
      have hno : ∀ root, parse r.body = some root → NoError root := by
        intro root hroot
        cases root with
        | object members => exact absurd hroot (hobject members)
        | _ => trivial
      simp only [Except.ok.injEq, iff_self_and]
      exact fun _ => hno
  · have herror : ∀ raw', (if r.status = 413 then (.error .rpcLimitExceeded : Except RpcError Text)
        else if 400 ≤ r.status ∧ r.status < 500 ∧ r.status ≠ 429 then .error .httpClientError
        else .error .httpError) ≠ .ok raw' := by
      intro raw'
      split
      · exact fun h => by cases h
      · split <;> exact fun h => by cases h
    rw [if_pos (by omega : r.status < 200 ∨ r.status ≥ 300)]
    exact ⟨fun h => absurd h (herror raw), fun h => absurd h.1 hstatus⟩

theorem isSome_fetched {α : Type} {r : Reply} {read : Text → Option (Except RpcError α)} :
    (fetched parse r read).isSome ↔ (200 ≤ r.status → r.status < 300 →
      (∀ root, parse r.body = some root → NoError root) → (read r.body).isSome) := by
  unfold fetched
  split
  · next raw hraw =>
    obtain ⟨hstatus, rfl, hno⟩ := rpcCall_eq_ok.1 hraw
    exact ⟨fun h _ _ _ => h, fun h => h hstatus.1 hstatus.2 hno⟩
  · next e herror =>
    refine ⟨fun _ hlo hhi hno => ?_, fun _ => rfl⟩
    rw [rpcCall_eq_ok.2 ⟨⟨hlo, hhi⟩, rfl, hno⟩] at herror
    cases herror

theorem isSome_reading {α : Type} {read : Members → Except RpcError α} {raw : Text} :
    (reading parse read raw).isSome ↔
      ∀ root, parse raw = some root → ∃ members, root = .object members := by
  unfold reading
  cases hroot : parse raw with
  | none => simp
  | some root => cases root <;> simp [object]

theorem isSome_hexResultOf {result : Option Value} :
    (hexResultOf result).isSome ↔ ∀ v, result = some v → ∃ s, v = .text s := by
  cases result with
  | none => simp [hexResultOf]
  | some v => cases v <;> simp [hexResultOf, string]

theorem isSome_extractHexU64Result {raw : Text}
    (hno : ∀ root, parse raw = some root → NoError root) :
    (extractHexU64Result parse raw).isSome ↔
      ∀ root, parse raw = some root → Fits .blockNumber root := by
  unfold extractHexU64Result
  split
  · next hnone =>
    refine ⟨fun _ root hroot => ?_, fun _ => rfl⟩
    rw [hnone] at hroot
    cases hroot
  · next root hroot =>
    have hall : (∀ root', parse raw = some root' → Fits .blockNumber root') ↔
        Fits .blockNumber root :=
      ⟨fun h => h root hroot, fun h _ h' => (Option.some.inj (hroot.symm.trans h')) ▸ h⟩
    rw [hall]
    cases hobject : object root with
    | none =>
      rw [Option.bind_none]
      constructor
      · intro h
        cases h
      · rintro ⟨members, rfl, -⟩
        cases hobject
    | some members =>
      obtain rfl := object_eq_some.1 hobject
      have herror : members.lookup "error".toList = none := hno _ hroot
      rw [Option.bind_some, herror, isSome_hexResultOf]
      constructor
      · exact fun h => ⟨members, rfl, h⟩
      · rintro ⟨_, h, hresult⟩
        injection h with h
        exact h ▸ hresult

/-- **When a function of the client returns**: exactly if the answer is an error, or cannot be
read as JSON, or is something the function can read. -/
theorem safe_iff (c : Call) (r : Reply) :
    Safe parse c r ↔ (200 ≤ r.status → r.status < 300 → ∀ root, parse r.body = some root →
      NoError root → Fits c root) := by
  have hroot : ∀ {P : Value → Prop}, ((∀ root, parse r.body = some root → NoError root) →
      ∀ root, parse r.body = some root → P root) ↔
        ∀ root, parse r.body = some root → NoError root → P root := by
    intro P
    constructor
    · intro h root hroot hno
      exact h (fun root' h' => (Option.some.inj (hroot.symm.trans h')) ▸ hno) root hroot
    · exact fun h hno root hroot => h root hroot (hno root hroot)
  cases c with
  | blockNumber =>
    rw [Safe, getBlockNumber, isSome_fetched, ← hroot]
    exact forall_congr' fun _ => forall_congr' fun _ => forall_congr' fun hno =>
      isSome_extractHexU64Result hno
  | blockHash =>
    rw [Safe, getBlockHash, isSome_fetched, isSome_reading, hroot]
    rfl
  | blockData =>
    rw [Safe, getBlockData, isSome_fetched, isSome_reading, hroot]
    rfl
  | ethCall =>
    rw [Safe, ethCall, isSome_fetched, isSome_reading, hroot]
    rfl
  | logs => simp [Safe, getLogs, isSome_fetched, Fits]
  | blockReceiptLogs blockNumber addresses topics =>
    simp [Safe, getBlockReceiptLogs, isSome_fetched, Fits]

/-- An answer with a result that is `null`. -/
def nullReply : Reply := ⟨200, "\x7b\"jsonrpc\":\"2.0\",\"id\":1,\"result\":null\x7d".toList⟩

/-- **Not every answer can be read**: the result `null` is taken for a string. -/
theorem not_safe_null : ¬∀ (c : Call) (r : Reply), Safe Json.read c r := by
  intro h
  have hnone : (getBlockNumber Json.read nullReply).isNone = true := by decide
  have hsome : (getBlockNumber Json.read nullReply).isSome = true := h .blockNumber nullReply
  rw [Option.isNone_iff_eq_none] at hnone
  rw [hnone] at hsome
  cases hsome

end Client

end Zponder.Responses

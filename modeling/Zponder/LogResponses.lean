import Zponder.Responses

/-!
# Which logs an answer has

What an answer to `eth_getLogs` or `eth_getBlockReceipts` says, if it is taken at its word: a
result that is an array, each element of which is a log with every field there and of its kind
(`Zponder.Responses.strictLog`), or a receipt with such logs. The callers take a list for all
the logs there are, so a body that does not say so ought to be an error.

`parseLogs` and `parseBlockReceiptLogs` give the logs of a strict body as they are. Of the others
they refuse those that are no object or have an error member, and the second one those without
an array too; from the rest they make what they can, leaving out elements and topics, and with
zeros and empty texts in the place of fields (`Zponder.Responses.told_iff`).
-/

namespace Zponder.Responses

open Json (Value)

/-! ### A body taken at its word -/

/-- A digit of a quantity. -/
def isHexDigit (c : Char) : Bool := (Text.charToDigit c 16).isSome

/-- The number of hex digits, behind others. -/
def hexNumber (acc : Nat) (cs : Text) : Nat :=
  cs.foldl (fun n c => n * 16 + (Text.charToDigit c 16).getD 0) acc

/-- A hex quantity below `2 ^ 64`. -/
def quantity (s : Text) : Option Nat :=
  if "0x".toList.isPrefixOf s = true ∧ s.drop 2 ≠ [] ∧ (s.drop 2).all isHexDigit = true ∧
      hexNumber 0 (s.drop 2) < 2 ^ 64 then some (hexNumber 0 (s.drop 2))
  else none

/-- The texts of an array of texts. -/
def texts : Value → Option (List Text)
  | .array items => items.mapM string
  | _ => none

/-- The elements of an array. -/
def elements : Value → Option (List Value)
  | .array items => some items
  | _ => none

/-- A log object with all its fields. -/
def strictLog (v : Value) : Option Log := do
  let obj ← object v
  let address ← (obj.lookup "address".toList).bind string
  let topics ← (obj.lookup "topics".toList).bind texts
  let data ← (obj.lookup "data".toList).bind string
  let blockNumber ← ((obj.lookup "blockNumber".toList).bind string).bind quantity
  let transactionHash ← (obj.lookup "transactionHash".toList).bind string
  let logIndex ← ((obj.lookup "logIndex".toList).bind string).bind quantity
  pure { address, topics, data, blockNumber, transactionHash, logIndex
         removed := (parseLogObject obj).removed }

section Strict

variable (parse : Text → Option Value)

/-- The elements of the result of a success. -/
def resultArray (raw : Text) : Option (List Value) := do
  let members ← (parse raw).bind object
  if (members.lookup "error".toList).isSome then none
  else (members.lookup "result".toList).bind elements

/-- The logs of an answer to `eth_getLogs`. -/
def strictLogs (raw : Text) : Option (List Log) :=
  (resultArray parse raw).bind fun items => items.mapM strictLog

/-- The logs of a receipt. -/
def strictReceipt (v : Value) : Option (List Log) := do
  let receipt ← object v
  let items ← (receipt.lookup "logs".toList).bind elements
  items.mapM strictLog

/-- The logs of an answer to `eth_getBlockReceipts` that are wanted. -/
def strictReceiptLogs (raw : Text) (blockNumber : Nat) (addresses : List Text)
    (topics : Option (List Text)) : Option (List Log) :=
  ((resultArray parse raw).bind fun receipts => receipts.mapM strictReceipt).map fun logs =>
    logs.flatten.filter fun lg =>
      lg.blockNumber == blockNumber && receiptLogWanted addresses topics lg

/-- What is returned is what the body says, and an error if it does not say anything. -/
def Told (result : Except RpcError (List Log)) (said : Option (List Log)) : Prop :=
  match said with
  | some logs => result = .ok logs
  | none => ∃ e, result = .error e

/-- A body that is refused: it cannot be read, or is no object, or has an error member. -/
def Refused (raw : Text) : Prop :=
  ∀ members, parse raw = some (.object members) → members.lookup "error".toList ≠ none

end Strict

/-! ### Quantities -/

theorem le_hexNumber (acc : Nat) (cs : Text) : acc ≤ hexNumber acc cs := by
  induction cs generalizing acc with
  | nil => exact le_rfl
  | cons c cs ih =>
    have := ih (acc * 16 + (Text.charToDigit c 16).getD 0)
    rw [hexNumber, List.foldl_cons]
    exact (by omega : acc ≤ acc * 16 + (Text.charToDigit c 16).getD 0).trans this

/-- A hex digit is no sign, no underscore, and nothing `parseHexU64` trims. -/
theorem ne_of_isHexDigit {c d : Char} (h : isHexDigit c = true) (hd : isHexDigit d = false) :
    c ≠ d := by
  rintro rfl
  rw [h] at hd
  cases hd

theorem parseDigits_hex {cs : Text} (hcs : ∀ c ∈ cs, isHexDigit c = true) {acc : Nat}
    (h : hexNumber acc cs < 2 ^ 64) :
    Text.parseDigits 16 (2 ^ 64) false acc cs = some (hexNumber acc cs) := by
  induction cs generalizing acc with
  | nil => rfl
  | cons c cs ih =>
    obtain ⟨hc, hcs⟩ := List.forall_mem_cons.1 hcs
    obtain ⟨d, hd⟩ := Option.isSome_iff_exists.1 hc
    have hstep : hexNumber acc (c :: cs) = hexNumber (acc * 16 + d) cs := by
      rw [hexNumber, List.foldl_cons, hd]
      rfl
    rw [hstep] at h ⊢
    rw [Text.parseDigits, if_neg (ne_of_isHexDigit hc (by decide)), hd]
    dsimp only
    rw [if_pos ⟨(le_hexNumber _ cs).trans_lt h, fun hneg => by cases hneg⟩]
    exact ih hcs h

/-- What has neither at its ends is not trimmed. -/
theorem trim_eq_self {s : Text} (h : ∀ c ∈ s, c ≠ ' ' ∧ c ≠ '\t' ∧ c ≠ '\n' ∧ c ≠ '\r' ∧ c ≠ '"') :
    trim s = s := by
  have hdrop : ∀ cs : Text, (∀ c ∈ cs, c ∈ s) → cs.dropWhile (fun c =>
      c == ' ' || c == '\t' || c == '\n' || c == '\r' || c == '"') = cs := by
    intro cs hcs
    refine List.dropWhile_eq_self_iff.2 fun hlen => ?_
    obtain ⟨h₁, h₂, h₃, h₄, h₅⟩ := h _ (hcs _ (List.getElem_mem hlen))
    simp [h₁, h₂, h₃, h₄, h₅]
  rw [trim, hdrop s fun c hc => hc, hdrop s.reverse fun c hc => List.mem_reverse.1 hc,
    List.reverse_reverse]

/-- **A quantity is read as the number it is.** -/
theorem parseHexU64_of_quantity {s : Text} {n : Nat} (h : quantity s = some n) :
    parseHexU64 s = some n := by
  unfold quantity at h
  split at h
  · next hs =>
    obtain ⟨hmark, hne, hdigits, hlt⟩ := hs
    obtain rfl := Option.some.inj h
    have hall : ∀ c ∈ s.drop 2, isHexDigit c = true := List.all_eq_true.1 hdigits
    have hs : s = '0' :: 'x' :: s.drop 2 := by
      obtain ⟨rest, rfl⟩ := List.isPrefixOf_iff_prefix.1 hmark
      rfl
    have htrim : trim s = s := by
      refine trim_eq_self ?_
      rw [hs]
      refine List.forall_mem_cons.2 ⟨by decide, List.forall_mem_cons.2 ⟨by decide, fun c hc => ?_⟩⟩
      exact ⟨ne_of_isHexDigit (hall c hc) (by decide), ne_of_isHexDigit (hall c hc) (by decide),
        ne_of_isHexDigit (hall c hc) (by decide), ne_of_isHexDigit (hall c hc) (by decide),
        ne_of_isHexDigit (hall c hc) (by decide)⟩
    have hmagnitude : Text.parseMagnitude 16 (2 ^ 64) false (s.drop 2) =
        some (hexNumber 0 (s.drop 2)) := by
      unfold Text.parseMagnitude
      rw [if_neg]
      · exact parseDigits_hex hall hlt
      · rintro (hnil | hhead | hlast)
        · exact hne hnil
        · exact ne_of_isHexDigit (hall _ (List.mem_of_head? hhead)) (by decide) rfl
        · exact ne_of_isHexDigit (hall _ (List.mem_of_getLast? hlast)) (by decide) rfl
    rw [parseHexU64, htrim, if_pos hmark]
    unfold Text.parseInt
    split
    · next rest hrest =>
      exact absurd rfl (ne_of_isHexDigit (hall '+' (hrest ▸ List.mem_cons_self)) (by decide))
    · next rest hrest =>
      exact absurd rfl (ne_of_isHexDigit (hall '-' (hrest ▸ List.mem_cons_self)) (by decide))
    · exact hmagnitude
  · cases h

/-! ### What is made of a strict body -/

theorem filterMap_of_mapM {α β : Type} {f : α → Option β} {xs : List α} {ys : List β}
    (h : xs.mapM f = some ys) : xs.filterMap f = ys := by
  induction xs generalizing ys with
  | nil => exact Option.some.inj h
  | cons x xs ih =>
    rw [List.mapM_cons, Option.bind_eq_bind, Option.bind_eq_some_iff] at h
    obtain ⟨y, hy, h⟩ := h
    rw [Option.bind_eq_bind, Option.bind_eq_some_iff] at h
    obtain ⟨ys, hys, h⟩ := h
    obtain rfl := Option.some.inj h
    rw [List.filterMap_cons_some hy, ih hys]

theorem texts_eq_some {v : Value} {ts : List Text} (h : texts v = some ts) :
    ∃ items, v = .array items ∧ items.filterMap string = ts := by
  cases v with
  | array items => exact ⟨items, rfl, filterMap_of_mapM h⟩
  | _ => cases h

theorem elements_eq_some {v : Value} {items : List Value} :
    elements v = some items ↔ v = .array items := by
  cases v <;> simp [elements]

/-- **A log object is read field by field.** -/
theorem parseLogObject_of_strictLog {v : Value} {lg : Log} (h : strictLog v = some lg) :
    ∃ obj, object v = some obj ∧ parseLogObject obj = lg := by
  simp only [strictLog, Option.bind_eq_bind, Option.bind_eq_some_iff] at h
  obtain ⟨obj, hobj, address, ⟨addressValue, haddress, haddress'⟩, topics, ⟨topicsValue, htopics,
    htopics'⟩, data, ⟨dataValue, hdata, hdata'⟩, block, ⟨blockText, ⟨blockValue, hblock, hblock'⟩,
    hblock''⟩, hash, ⟨hashValue, hhash, hhash'⟩, index, ⟨indexText, ⟨indexValue, hindex, hindex'⟩,
    hindex''⟩, h⟩ := h
  obtain rfl := Option.some.inj h
  obtain ⟨items, rfl, htexts⟩ := texts_eq_some htopics'
  refine ⟨obj, hobj, ?_⟩
  unfold parseLogObject
  rw [haddress, htopics, hdata, hblock, hhash, hindex]
  simp only [Option.bind_some, haddress', htexts, hdata', hblock', hhash', hindex',
    Option.getD_some, parseHexU64_of_quantity hblock'', parseHexU64_of_quantity hindex'']

/-- **Logs are read one by one, and none is left out.** -/
theorem logs_of_strict {items : List Value} {logs : List Log} (h : items.mapM strictLog = some logs) :
    (items.filterMap object).map parseLogObject = logs := by
  induction items generalizing logs with
  | nil => exact Option.some.inj h
  | cons v items ih =>
    rw [List.mapM_cons, Option.bind_eq_bind, Option.bind_eq_some_iff] at h
    obtain ⟨lg, hlg, h⟩ := h
    rw [Option.bind_eq_bind, Option.bind_eq_some_iff] at h
    obtain ⟨rest, hrest, h⟩ := h
    obtain rfl := Option.some.inj h
    obtain ⟨obj, hobj, rfl⟩ := parseLogObject_of_strictLog hlg
    rw [List.filterMap_cons_some hobj, List.map_cons, ih hrest]

/-- The logs of receipts are those of each, in order. -/
theorem receiptLogs_of_strict {receipts : List Value} {logs : List (List Log)}
    (h : receipts.mapM strictReceipt = some logs) : receipts.flatMap receiptLogs = logs.flatten := by
  induction receipts generalizing logs with
  | nil =>
    obtain rfl := Option.some.inj h
    rfl
  | cons v receipts ih =>
    rw [List.mapM_cons, Option.bind_eq_bind, Option.bind_eq_some_iff] at h
    obtain ⟨first, hfirst, h⟩ := h
    rw [Option.bind_eq_bind, Option.bind_eq_some_iff] at h
    obtain ⟨rest, hrest, h⟩ := h
    obtain rfl := Option.some.inj h
    simp only [strictReceipt, Option.bind_eq_bind, Option.bind_eq_some_iff] at hfirst
    obtain ⟨receipt, hreceipt, items, ⟨itemsValue, hitems, hitems'⟩, hfirst⟩ := hfirst
    obtain rfl := elements_eq_some.1 hitems'
    have hlogs : receiptLogs v = first := by
      rw [receiptLogs, hreceipt, Option.bind_some, hitems]
      exact logs_of_strict hfirst
    rw [List.flatMap_cons, List.flatten_cons, hlogs, ih hrest]

section Bodies

variable {parse : Text → Option Value} {raw : Text}

/-- A body with a result that is an array. -/
theorem resultArray_eq_some {items : List Value} :
    resultArray parse raw = some items ↔ ∃ members, parse raw = some (.object members) ∧
      members.lookup "error".toList = none ∧
        members.lookup "result".toList = some (.array items) := by
  simp only [resultArray, Option.bind_eq_bind, Option.bind_eq_some_iff]
  constructor
  · rintro ⟨members, ⟨root, hroot, hobject⟩, h⟩
    obtain rfl := object_eq_some.1 hobject
    split at h
    · cases h
    · next hno =>
      obtain ⟨result, hresult, h⟩ := Option.bind_eq_some_iff.1 h
      obtain rfl := elements_eq_some.1 h
      exact ⟨members, hroot, Option.not_isSome_iff_eq_none.1 hno, hresult⟩
  · rintro ⟨members, hroot, herror, hresult⟩
    refine ⟨members, ⟨_, hroot, rfl⟩, ?_⟩
    rw [herror, if_neg (by simp), hresult]
    rfl

/-- Who is not refused is an object without an error member. -/
theorem refused_or (parse : Text → Option Value) (raw : Text) :
    Refused parse raw ∨ ∃ members, parse raw = some (.object members) ∧
      members.lookup "error".toList = none := by
  by_cases h : Refused parse raw
  · exact .inl h
  · unfold Refused at h
    push Not at h
    exact .inr h

theorem not_refused {members : Members} (hroot : parse raw = some (.object members))
    (herror : members.lookup "error".toList = none) : ¬Refused parse raw :=
  fun h => h members hroot herror

theorem parseLogs_of_array {members : Members} {items : List Value}
    (hroot : parse raw = some (.object members)) (herror : members.lookup "error".toList = none)
    (hresult : members.lookup "result".toList = some (.array items)) :
    parseLogs parse raw = .ok ((items.filterMap object).map parseLogObject) := by
  rw [parseLogs, hroot]
  dsimp only
  rw [herror]
  dsimp only
  rw [hresult]

/-- What is not refused gives a list, whatever its result is. -/
theorem parseLogs_of_not_refused (h : ¬Refused parse raw) :
    ∃ logs, parseLogs parse raw = .ok logs := by
  obtain ⟨members, hroot, herror⟩ := (refused_or parse raw).resolve_left h
  rw [parseLogs, hroot]
  dsimp only
  rw [herror]
  dsimp only
  split <;> exact ⟨_, rfl⟩

theorem parseLogs_of_refused (h : Refused parse raw) : ∃ e, parseLogs parse raw = .error e := by
  unfold parseLogs
  split
  · exact ⟨_, rfl⟩
  · next members hroot =>
    split
    · exact ⟨_, rfl⟩
    · next herror => exact absurd herror (h members hroot)
  · exact ⟨_, rfl⟩

/-- **The logs of a strict body are given as they are.** -/
theorem parseLogs_of_strict {logs : List Log} (h : strictLogs parse raw = some logs) :
    parseLogs parse raw = .ok logs := by
  obtain ⟨items, hitems, hlogs⟩ := Option.bind_eq_some_iff.1 h
  obtain ⟨members, hroot, herror, hresult⟩ := resultArray_eq_some.1 hitems
  rw [parseLogs_of_array hroot herror hresult, logs_of_strict hlogs]

/-- A body whose result is not an array. -/
def NoArray (parse : Text → Option Value) (raw : Text) : Prop :=
  ∀ members items, parse raw = some (.object members) →
    members.lookup "result".toList ≠ some (.array items)

theorem parseBlockReceiptLogs_of_array {members : Members} {receipts : List Value}
    (hroot : parse raw = some (.object members)) (herror : members.lookup "error".toList = none)
    (hresult : members.lookup "result".toList = some (.array receipts)) (b : Nat) (as : List Text)
    (ts : Option (List Text)) :
    parseBlockReceiptLogs parse raw b as ts =
      .ok ((receipts.flatMap receiptLogs).filter fun lg =>
        lg.blockNumber == b && receiptLogWanted as ts lg) := by
  rw [parseBlockReceiptLogs, hroot]
  dsimp only
  rw [herror]
  dsimp only
  rw [hresult]

theorem parseBlockReceiptLogs_of_refused (h : Refused parse raw ∨ NoArray parse raw) (b : Nat)
    (as : List Text) (ts : Option (List Text)) :
    ∃ e, parseBlockReceiptLogs parse raw b as ts = .error e := by
  unfold parseBlockReceiptLogs
  split
  · exact ⟨_, rfl⟩
  · next members hroot =>
    split
    · exact ⟨_, rfl⟩
    · next herror =>
      split
      · exact ⟨_, rfl⟩
      · exact ⟨_, rfl⟩
      · next receipts hresult =>
        rcases h with h | h
        · exact absurd herror (h members hroot)
        · exact absurd hresult (h members receipts hroot)
      · exact ⟨_, rfl⟩
  · exact ⟨_, rfl⟩

/-- An array of a body that is not refused gives a list. -/
theorem parseBlockReceiptLogs_of_not_refused (h : ¬(Refused parse raw ∨ NoArray parse raw)) (b : Nat)
    (as : List Text) (ts : Option (List Text)) :
    ∃ logs, parseBlockReceiptLogs parse raw b as ts = .ok logs := by
  rw [not_or] at h
  obtain ⟨members, hroot, herror⟩ := (refused_or parse raw).resolve_left h.1
  have harray : ∃ members receipts, parse raw = some (.object members) ∧
      members.lookup "result".toList = some (.array receipts) := by
    by_contra hno
    refine h.2 fun members receipts hroot hresult => hno ⟨members, receipts, hroot, hresult⟩
  obtain ⟨members', receipts, hroot', hresult⟩ := harray
  obtain rfl : members' = members := by
    have := Option.some.inj (hroot'.symm.trans hroot)
    injection this
  exact ⟨_, parseBlockReceiptLogs_of_array hroot herror hresult b as ts⟩

theorem parseBlockReceiptLogs_of_strict {b : Nat} {as : List Text} {ts : Option (List Text)}
    {logs : List Log} (h : strictReceiptLogs parse raw b as ts = some logs) :
    parseBlockReceiptLogs parse raw b as ts = .ok logs := by
  obtain ⟨all, hall, rfl⟩ := Option.map_eq_some_iff.1 h
  obtain ⟨receipts, hreceipts, hall⟩ := Option.bind_eq_some_iff.1 hall
  obtain ⟨members, hroot, herror, hresult⟩ := resultArray_eq_some.1 hreceipts
  rw [parseBlockReceiptLogs_of_array hroot herror hresult, receiptLogs_of_strict hall]

/-- What is told is an error exactly if nothing was said, and what was said if something was. -/
theorem told_iff_of {result : Except RpcError (List Log)} {said : Option (List Log)} {P : Prop}
    (hsaid : ∀ logs, said = some logs → result = .ok logs) (herror : P → ∃ e, result = .error e)
    (hok : ¬P → ∃ logs, result = .ok logs) : Told result said ↔ said.isSome ∨ P := by
  cases said with
  | some logs => exact ⟨fun _ => .inl rfl, fun _ => hsaid logs rfl⟩
  | none =>
    constructor
    · rintro ⟨e, he⟩
      by_contra hno
      obtain ⟨logs, hlogs⟩ := hok fun hP => hno (.inr hP)
      rw [he] at hlogs
      cases hlogs
    · rintro (h | h)
      · cases h
      · exact herror h

end Bodies

/-- **When logs are read strictly**: those of an answer to `eth_getLogs` exactly if the body is
strict, or cannot be read, or is no object, or has an error member, and those of receipts if
besides that its result is no array. -/
theorem told_iff (parse : Text → Option Value) (raw : Text) :
    (Told (parseLogs parse raw) (strictLogs parse raw) ↔
      (strictLogs parse raw).isSome ∨ Refused parse raw) ∧
    ∀ (b : Nat) (as : List Text) (ts : Option (List Text)),
      Told (parseBlockReceiptLogs parse raw b as ts) (strictReceiptLogs parse raw b as ts) ↔
        (strictReceiptLogs parse raw b as ts).isSome ∨ Refused parse raw ∨ NoArray parse raw :=
  ⟨told_iff_of (fun _ => parseLogs_of_strict) parseLogs_of_refused parseLogs_of_not_refused,
    fun b as ts => told_iff_of (fun _ => parseBlockReceiptLogs_of_strict)
      (fun h => parseBlockReceiptLogs_of_refused h b as ts)
      (fun h => parseBlockReceiptLogs_of_not_refused h b as ts)⟩

/-- **Not every body is read strictly**: an answer without a log, its result being `null`, is
read as one that there are no logs. -/
theorem not_told_null :
    ¬∀ raw, Told (parseLogs Json.read raw) (strictLogs Json.read raw) := by
  intro h
  have hnone : (strictLogs Json.read nullReply.body).isNone = true := by decide
  have hempty : parseLogs Json.read nullReply.body = .ok [] := rfl
  have htold := h nullReply.body
  rw [Option.isNone_iff_eq_none] at hnone
  rw [hnone, hempty] at htold
  obtain ⟨e, he⟩ := htold
  cases he

end Zponder.Responses

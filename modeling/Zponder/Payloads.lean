import Zponder.Hook
import Zponder.DecodeLog
import Zponder.Lib.Json

/-!
# What is sent of an event

Two writers put an event into a JSON text: `enqueueEvent` for the webhooks, `writeSsePayload`
for those who listen to the stream. Both write the names and values between quotes as they
are, where the answers of the REST interface escape them.

A payload is lossless if it is read as the object that was meant, and breaks no line. The
stream's is so exactly if every text in it needs no escape and no two fields have the same
name (`Zponder.Payloads.streamed_iff`). The value of an array or a tuple is a JSON text
with quotes in it unless it is empty (`Zponder.Payloads.not_clean_joinJsonArray`). The
payload of a webhook has one brace too many at its end, and so is not JSON at all, whatever
the event (`Zponder.Payloads.not_posted`).
-/

namespace Zponder.Payloads

open Json (Value Clean)
open Decode

/-! ### What is written -/

/-- `event_bus.Event` -/
structure BusEvent where
  contractName : Text
  eventName : Text
  contractAddress : Text
  blockNumber : Nat
  blockTimestamp : Nat
  txHash : Text
  logIndex : Nat
  fields : List DecodedField
  deriving DecidableEq, Repr

/-- `writeSsePayload` -/
def writeSsePayload (ev : BusEvent) : Text :=
  "\x7b\"contract\":\"".toList ++ ev.contractName ++
    "\",\"contract_address\":\"".toList ++ ev.contractAddress ++
    "\",\"block_number\":".toList ++ (toString ev.blockNumber).toList ++
    ",\"block_timestamp\":".toList ++ (toString ev.blockTimestamp).toList ++
    ",\"tx_hash\":\"".toList ++ ev.txHash ++
    "\",\"log_index\":".toList ++ (toString ev.logIndex).toList ++
    ",\"fields\":\x7b".toList ++ Hook.payloadFields ev.fields ++ "\x7d\x7d".toList

/-! ### What is meant -/

/-- The fields of an event, as an object. -/
def fieldsValue (fields : List DecodedField) : Value :=
  .object (fields.map fun f => (f.name, .text f.value))

/-- A number, as an item of JSON. -/
def numberValue (n : Nat) : Value := .number (toString n).toList

/-- What a webhook is to be told. -/
def posted (call : EventCall) : Value :=
  .object [("contract".toList, .text call.contractName), ("event".toList, .text call.eventName),
    ("block_number".toList, numberValue call.blockNumber),
    ("fields".toList, fieldsValue call.fields)]

/-- What who listens to the stream is to be told. -/
def streamed (ev : BusEvent) : Value :=
  .object [("contract".toList, .text ev.contractName),
    ("contract_address".toList, .text ev.contractAddress),
    ("block_number".toList, numberValue ev.blockNumber),
    ("block_timestamp".toList, numberValue ev.blockTimestamp),
    ("tx_hash".toList, .text ev.txHash), ("log_index".toList, numberValue ev.logIndex),
    ("fields".toList, fieldsValue ev.fields)]

/-- A payload is one line, and is read as what was meant. -/
def Lossless (payload : Text) (meant : Value) : Prop :=
  Json.read payload = some meant ∧ '\n' ∉ payload ∧ '\r' ∉ payload

/-! ### The writers splice -/

/-- A member, as it is written. -/
theorem payloadFields_eq (fields : List DecodedField) :
    Hook.payloadFields fields =
      Json.spliceMembers (fields.map fun f => (f.name, .text f.value)) := by
  rw [Json.spliceMembers_eq, Hook.payloadFields, JsonRows.items, List.map_map]
  congr 1
  refine List.map_congr_left fun f _ => ?_
  simp [Json.spliceMember, Json.splice]

/-- The texts between the values, `t` after `t`, have the keys in them. -/
theorem writeSsePayload_eq (ev : BusEvent) : writeSsePayload ev = Json.splice (streamed ev) := by
  have hsplice : ∀ {a b c d e f g t₁ t₂ t₃ t₄ t₅ t₆ t₇ t₈ : Text},
      t₁ = '{' :: '"' :: (a ++ ['"', ':', '"']) → t₂ = '"' :: ',' :: '"' :: (b ++ ['"', ':', '"']) →
      t₃ = '"' :: ',' :: '"' :: (c ++ ['"', ':']) → t₄ = ',' :: '"' :: (d ++ ['"', ':']) →
      t₅ = ',' :: '"' :: (e ++ ['"', ':', '"']) → t₆ = '"' :: ',' :: '"' :: (f ++ ['"', ':']) →
      t₇ = ',' :: '"' :: (g ++ ['"', ':', '{']) → t₈ = ['}', '}'] →
      t₁ ++ ev.contractName ++ t₂ ++ ev.contractAddress ++ t₃ ++ (toString ev.blockNumber).toList ++
        t₄ ++ (toString ev.blockTimestamp).toList ++ t₅ ++ ev.txHash ++ t₆ ++
        (toString ev.logIndex).toList ++ t₇ ++ Hook.payloadFields ev.fields ++ t₈ =
      Json.splice (.object [(a, .text ev.contractName), (b, .text ev.contractAddress),
        (c, numberValue ev.blockNumber), (d, numberValue ev.blockTimestamp), (e, .text ev.txHash),
        (f, numberValue ev.logIndex), (g, fieldsValue ev.fields)]) := by
    rintro a b c d e f g _ _ _ _ _ _ _ _ rfl rfl rfl rfl rfl rfl rfl rfl
    simp only [payloadFields_eq, numberValue, fieldsValue, Json.splice, Json.spliceMembers,
      List.append_assoc, List.cons_append, List.nil_append]
  exact hsplice rfl rfl rfl rfl rfl rfl rfl rfl

/-- The last brace of a webhook's payload closes nothing. -/
theorem payload_eq (call : EventCall) :
    Hook.payload call = Json.splice (posted call) ++ ['}'] := by
  have hsplice : ∀ {a b c d t₁ t₂ t₃ t₄ t₅ : Text},
      t₁ = '{' :: '"' :: (a ++ ['"', ':', '"']) → t₂ = '"' :: ',' :: '"' :: (b ++ ['"', ':', '"']) →
      t₃ = '"' :: ',' :: '"' :: (c ++ ['"', ':']) → t₄ = ',' :: '"' :: (d ++ ['"', ':', '{']) →
      t₅ = ['}', '}', '}'] →
      t₁ ++ call.contractName ++ t₂ ++ call.eventName ++ t₃ ++ (toString call.blockNumber).toList ++
        t₄ ++ Hook.payloadFields call.fields ++ t₅ =
      Json.splice (.object [(a, .text call.contractName), (b, .text call.eventName),
        (c, numberValue call.blockNumber), (d, fieldsValue call.fields)]) ++ ['}'] := by
    rintro a b c d _ _ _ _ _ rfl rfl rfl rfl rfl
    simp only [payloadFields_eq, numberValue, fieldsValue, Json.splice, Json.spliceMembers,
      List.append_assoc, List.cons_append, List.nil_append]
  exact hsplice rfl rfl rfl rfl rfl

/-! ### What is read back -/

/-- Text that goes into a payload as it is, and comes out of it as it was. -/
def CleanFields (fields : List DecodedField) : Prop :=
  (fields.map DecodedField.name).Nodup ∧ ∀ f ∈ fields, Clean f.name ∧ Clean f.value

theorem plain_numberValue (n : Nat) : Json.Plain (numberValue n) := by
  rw [numberValue, show toString n = Nat.repr n from rfl, Nat.toList_repr]
  exact ⟨Json.isNumber_toDigits n, fun c => Json.isNumeric_toDigits⟩

theorem plain_fieldsValue {fields : List DecodedField} :
    Json.Plain (fieldsValue fields) ↔ CleanFields fields := by
  rw [fieldsValue, Json.Plain, Json.plainMembers_iff, List.map_map, CleanFields,
    List.forall_mem_map]
  rfl

theorem plain_streamed {ev : BusEvent} :
    Json.Plain (streamed ev) ↔ Clean ev.contractName ∧ Clean ev.contractAddress ∧
      Clean ev.txHash ∧ CleanFields ev.fields := by
  rw [streamed, Json.Plain]
  constructor
  · rintro ⟨-, ⟨-, hcontract⟩, ⟨-, haddress⟩, -, -, ⟨-, hhash⟩, -, ⟨-, hfields⟩, -⟩
    exact ⟨hcontract, haddress, hhash, plain_fieldsValue.mp hfields⟩
  · rintro ⟨hcontract, haddress, hhash, hfields⟩
    refine ⟨?_, ⟨by decide, hcontract⟩, ⟨by decide, haddress⟩, ⟨by decide, plain_numberValue _⟩,
      ⟨by decide, plain_numberValue _⟩, ⟨by decide, hhash⟩, ⟨by decide, plain_numberValue _⟩,
      ⟨by decide, plain_fieldsValue.mpr hfields⟩, trivial⟩
    show (["contract", "contract_address", "block_number", "block_timestamp", "tx_hash",
      "log_index", "fields"].map String.toList).Nodup
    decide

/-- A value that may be spliced breaks no line. -/
theorem lossless_splice {v : Value} : Lossless (Json.splice v) v ↔ Json.Plain v := by
  refine ⟨fun h => Json.read_splice.mp h.1, fun h => ⟨Json.read_splice.mpr h, ?_⟩⟩
  have hall := Json.forall_mem_splice le_rfl h
  exact ⟨fun h => absurd (hall _ h) (by decide), fun h => absurd (hall _ h) (by decide)⟩

/-- **The line of the stream is lossless exactly if nothing in it needs an escape**, and no two
fields have the same name. -/
theorem streamed_iff (ev : BusEvent) :
    Lossless (writeSsePayload ev) (streamed ev) ↔ Clean ev.contractName ∧
      Clean ev.contractAddress ∧ Clean ev.txHash ∧ CleanFields ev.fields := by
  rw [writeSsePayload_eq, lossless_splice, plain_streamed]

/-- **The payload of a webhook is never read as what was meant.** -/
theorem not_posted (call : EventCall) : ¬Lossless (Hook.payload call) (posted call) := by
  rw [payload_eq]
  exact fun h => Json.read_splice_append rfl rfl [] h.1

/-- The value of an array with an item that is not an array itself needs escapes. -/
theorem not_clean_joinJsonArray {items : List Text} (h : ∃ item ∈ items, item.head? ≠ some '[') :
    ¬Clean (joinJsonArray items) := by
  obtain ⟨item, hitem, hhead⟩ := h
  have hquote : '"' ∈ jsonItem item := by
    rw [jsonItem, if_neg hhead]
    exact List.mem_cons_self
  have hjoined : '"' ∈ joinJsonArray items :=
    List.mem_cons_of_mem _ (List.mem_append_left _
      (Json.mem_items (List.mem_map_of_mem hitem) hquote))
  exact fun hclean => (hclean.1 '"' hjoined).1 rfl

/-! ### The events of a log -/

/-- A log, its contract, and the event it was taken for. -/
structure Occurrence where
  contractName : Text
  event : Event
  topics : List Text
  data : Text
  contractAddress : Text
  blockNumber : Nat
  blockTimestamp : Nat
  txHash : Text
  logIndex : Nat
  deriving DecidableEq, Repr

/-- What `decodeLog` makes of it, as the callback is given it. -/
def Occurrence.call (o : Occurrence) : EventCall where
  contractName := o.contractName
  eventName := (decodeLog o.event o.topics o.data).eventName
  fields := (decodeLog o.event o.topics o.data).fields
  blockNumber := o.blockNumber
  contractAddress := o.contractAddress
  txHash := o.txHash
  logIndex := o.logIndex

/-- What `publish` puts on the bus. -/
def Occurrence.busEvent (o : Occurrence) : BusEvent where
  contractName := o.call.contractName
  eventName := o.call.eventName
  contractAddress := o.call.contractAddress
  blockNumber := o.call.blockNumber
  blockTimestamp := o.blockTimestamp
  txHash := o.call.txHash
  logIndex := o.call.logIndex
  fields := o.call.fields

/-- Both payloads of a log are lossless. -/
def Occurrence.Lossless (o : Occurrence) : Prop :=
  Payloads.Lossless (Hook.payload o.call) (posted o.call) ∧
    Payloads.Lossless (writeSsePayload o.busEvent) (streamed o.busEvent)

/-- **No log is sent without loss**: its webhooks get what is not JSON, and the stream a line
that is lossless exactly if nothing in it needs an escape. -/
theorem not_lossless (o : Occurrence) :
    ¬o.Lossless ∧ (Payloads.Lossless (writeSsePayload o.busEvent) (streamed o.busEvent) ↔
      Clean o.contractName ∧ Clean o.contractAddress ∧ Clean o.txHash ∧
        CleanFields (decodeLog o.event o.topics o.data).fields) :=
  ⟨fun h => not_posted o.call h.1, streamed_iff o.busEvent⟩

/-- An event without arguments, of a contract whose name needs no escape. -/
def paused : Occurrence where
  contractName := "token".toList
  event := ⟨"Paused".toList, []⟩
  topics := ["0x9e87".toList]
  data := "0x".toList
  contractAddress := "0xaa".toList
  blockNumber := 7
  blockTimestamp := 1700000123
  txHash := "0xbb".toList
  logIndex := 4

/-- **Not every payload is lossless**: that of `Paused()` cannot be read. -/
theorem not_lossless_paused : ¬∀ o : Occurrence, o.Lossless := by
  intro h
  have hread := (h paused).1.1
  have hnone : (Json.read (Hook.payload paused.call)).isNone = true := by decide
  rw [hread] at hnone
  cases hnone

end Zponder.Payloads

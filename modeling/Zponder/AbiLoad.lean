import Zponder.Lib.Checked
import Zponder.Lib.Exits
import Zponder.Lib.Json
import Zponder.DecodeLog

/-!
# Loading an ABI

`parseAbiJson`, from the text of a file to its events and functions. The reader of JSON and the hash
function are parameters. A value of JSON has a kind, and to read it as one of another kind ends the
process, as does a member that is not there and is unwrapped; a type that cannot be written
canonically is an error.

`canonicalAbiType` asks for kinds before it reads, and its copies are in range whatever the type
is (`Zponder.AbiLoad.returns_canonicalAbiType`). `parseAbiJson` does not ask, so that it returns for
a file exactly if the kinds in it are as it takes them to be, up to the first type that is an error
(`Zponder.AbiLoad.loads_iff`).
-/

namespace Zponder.AbiLoad

open Exits

open Json (Value)

open Decode (EventInput)

/-- The errors of a load. -/
inductive AbiError where
  | syntaxError
  | invalidAbi
  deriving DecidableEq, Repr

/-- A load: it may end with an error, and with the process. -/
abbrev Load := Run AbiError

/-- The members of an object. -/
abbrev Members := List (Text × Value)

/-- `AbiEvent` -/
structure AbiEvent where
  name : Text
  inputs : List EventInput
  signature : Fin 32 → Fin 256

/-- `AbiParam` -/
structure AbiParam where
  name : Text
  type : Text
  deriving DecidableEq, Repr

/-- `AbiFunction` -/
structure AbiFunction where
  name : Text
  inputs : List AbiParam
  outputs : List AbiParam
  deriving DecidableEq, Repr

/-- `AbiContract` -/
structure AbiContract where
  events : List AbiEvent := []
  functions : List AbiFunction := []

/-! ### Reading values -/

/-- `value.object` -/
def object : Value → Load Members
  | .object members => pure members
  | _ => trap

/-- `value.array` -/
def array : Value → Load (List Value)
  | .array items => pure items
  | _ => trap

/-- `value.string` -/
def string : Value → Load Text
  | .text s => pure s
  | _ => trap

/-- `value.bool` -/
def bool : Value → Load Bool
  | .bool b => pure b
  | _ => trap

/-- `obj.get(name).?` -/
def get (members : Members) (name : Text) : Load Value :=
  match members.lookup name with
  | some v => pure v
  | none => trap

/-- `if (obj.get(name)) |v| read(v) else default` -/
def getOr {α : Type} (members : Members) (name : Text) (read : Value → Load α) (default : α) :
    Load α :=
  match members.lookup name with
  | some v => read v
  | none => pure default

/-! ### Canonical types -/

/-- `std.mem.indexOf` -/
def indexOf (needle : Text) : Text → Option Nat
  | [] => if needle = [] then some 0 else none
  | c :: cs => if needle.isPrefixOf (c :: cs) then some 0 else (indexOf needle cs).map (· + 1)

/-- The components between parentheses, with commas. -/
def tupleText (parts : List Text) : Text := '(' :: (List.intercalate [','] parts ++ [')'])

/-- A step that has its condition checked. -/
def check {α : Type} (step : Option α) : Load α :=
  match step with
  | some a => pure a
  | none => trap

section Canonical

-- what a buffer holds before it is written
variable (junk : Char)

/-- The word `tuple` of a type replaced by the components. The sum of two lengths is in range. -/
def replaceTuple (typeStr tuple : Text) : Load Text :=
  if typeStr.length < 5 then pure tuple
  else
    match indexOf "tuple".toList typeStr with
    | none => pure tuple
    | some i => do
      let rest ← check (Checked.sub typeStr.length 5)
      let n := rest + tuple.length
      let head ← check (Checked.slice typeStr 0 i)
      let out ← check (Checked.copy (List.replicate n junk) 0 i head)
      let out ← check (Checked.copy out i (i + tuple.length) tuple)
      let tail ← check (Checked.slice typeStr (i + 5) typeStr.length)
      check (Checked.copy out (i + tuple.length) n tail)

theorem sizeOf_lookup {members : Members} {name : Text} {v : Value}
    (h : members.lookup name = some v) : sizeOf v < sizeOf (Value.object members) := by
  obtain ⟨name', hmem⟩ : ∃ name', (name', v) ∈ members := by
    rw [List.lookup_eq_some_iff] at h
    obtain ⟨l, r, rfl, -⟩ := h
    exact ⟨name, by simp⟩
  have hpair := List.sizeOf_lt_of_mem hmem
  rw [Prod.mk.sizeOf_spec] at hpair
  rw [Value.object.sizeOf_spec]
  omega

theorem sizeOf_components {members : Members} {items : List Value} {comp : Value}
    (h : members.lookup "components".toList = some (.array items)) (hcomp : comp ∈ items) :
    sizeOf comp < sizeOf (Value.object members) := by
  have hitems := sizeOf_lookup h
  have hitem := List.sizeOf_lt_of_mem hcomp
  rw [Value.array.sizeOf_spec] at hitems
  omega

/-- `canonicalAbiType` -/
def canonicalAbiType (value : Value) : Load Text :=
  match value with
  | .object members =>
    match members.lookup "type".toList with
    | some (.text typeStr) =>
      match _h : members.lookup "components".toList with
      | some (.array items) => do
        let parts ← items.attach.mapM fun comp => canonicalAbiType comp.1
        replaceTuple junk typeStr (tupleText parts)
      | _ => pure typeStr
    | _ => throw .invalidAbi
  | _ => throw .invalidAbi
termination_by sizeOf value
decreasing_by exact sizeOf_components ‹_› comp.2

end Canonical

/-! ### Files -/

/-- `formatEventSignature` -/
def formatEventSignature (name : Text) (inputs : List EventInput) : Text :=
  name ++ tupleText (inputs.map (·.type))

/-- What is made of an item. -/
inductive Item where
  | event (e : AbiEvent)
  | function (f : AbiFunction)
  | other

section File

variable (parse : Text → Option Value) (keccak256 : Text → Fin 32 → Fin 256) (junk : Char)

/-- An input of an event. -/
def parseEventInput (inp : Value) : Load EventInput := do
  let members ← object inp
  let name ← (get members "name".toList) >>= string
  let type ← canonicalAbiType junk inp
  let indexed ← getOr members "indexed".toList bool false
  pure ⟨name, type, indexed⟩

/-- An event. -/
def parseEvent (members : Members) : Load AbiEvent := do
  let name ← (get members "name".toList) >>= string
  let inputs ← (get members "inputs".toList) >>= array
  let inputs ← inputs.mapM (parseEventInput junk)
  pure ⟨name, inputs, keccak256 (formatEventSignature name inputs)⟩

/-- An input of a function. -/
def parseInput (inp : Value) : Load AbiParam := do
  let members ← object inp
  let name ← getOr members "name".toList string []
  let type ← (get members "type".toList) >>= string
  pure ⟨name, type⟩

/-- An output of a function. -/
def parseOutput (out : Value) : Load AbiParam := do
  let members ← object out
  let name ← getOr members "name".toList string []
  let type ← canonicalAbiType junk out
  pure ⟨name, type⟩

/-- A function. -/
def parseFunction (members : Members) : Load AbiFunction := do
  let name ← (get members "name".toList) >>= string
  let inputs ← getOr members "inputs".toList array []
  let inputs ← inputs.mapM parseInput
  let outputs ← getOr members "outputs".toList array []
  let outputs ← outputs.mapM (parseOutput junk)
  pure ⟨name, inputs, outputs⟩

/-- An item of the file. -/
def parseItem (item : Value) : Load Item := do
  let members ← object item
  match members.lookup "type".toList with
  | none => pure .other
  | some type => do
    let typeStr ← string type
    if typeStr = "event".toList then do
      let e ← parseEvent keccak256 junk members
      pure (.event e)
    else if typeStr = "function".toList then do
      let f ← parseFunction junk members
      pure (.function f)
    else pure .other

/-- `parseAbiJson`: the items in their order, and none of them if one is an error. -/
def parseAbiJson (content : Text) : Load AbiContract :=
  match parse content with
  | none => throw .syntaxError
  | some value => do
    let root ← array value
    let items ← root.mapM (parseItem keccak256 junk)
    pure {
      events := items.filterMap fun
        | .event e => some e
        | _ => none
      functions := items.filterMap fun
        | .function f => some f
        | _ => none }

end File

/-! ### Kinds -/

/-- A value that is written as a type: an object whose type is a text, and so are those of its
components. -/
inductive Typed : Value → Prop where
  | object {members : Members} {s : Text} (htype : members.lookup "type".toList = some (.text s))
      (hcomps : ∀ items, members.lookup "components".toList = some (.array items) →
        ∀ comp ∈ items, Typed comp) : Typed (.object members)

/-- A member is there, and is a text. -/
def HasText (members : Members) (name : Text) : Prop := ∃ s, members.lookup name = some (.text s)

/-- A member is not there, or is a text. -/
def TextIfAny (members : Members) (name : Text) : Prop :=
  ∀ v, members.lookup name = some v → ∃ s, v = .text s

/-- The kinds of an input of an event. Whether it is indexed is looked at last. -/
def InputFits (inp : Value) : Prop := ∃ members, inp = .object members ∧
  HasText members "name".toList ∧
    (Typed inp → ∀ v, members.lookup "indexed".toList = some v → ∃ b, v = .bool b)

/-- The kinds of an event. -/
def EventFits (members : Members) : Prop := HasText members "name".toList ∧
  ∃ inputs, members.lookup "inputs".toList = some (.array inputs) ∧ UpTo Typed InputFits inputs

/-- The kinds of an input of a function. -/
def ParamFits (inp : Value) : Prop := ∃ members, inp = .object members ∧
  TextIfAny members "name".toList ∧ HasText members "type".toList

/-- The kinds of an output of a function. -/
def OutputFits (out : Value) : Prop := ∃ members, out = .object members ∧
  TextIfAny members "name".toList

/-- The kinds of a function. -/
def FunctionFits (members : Members) : Prop := HasText members "name".toList ∧
  (∀ v, members.lookup "inputs".toList = some v → ∃ inputs, v = .array inputs ∧
    ∀ inp ∈ inputs, ParamFits inp) ∧
  ∀ v, members.lookup "outputs".toList = some v → ∃ outputs, v = .array outputs ∧
    UpTo Typed OutputFits outputs

/-- The kinds of an item. -/
def ItemFits (item : Value) : Prop := ∃ members, item = .object members ∧
  ∀ v, members.lookup "type".toList = some v → ∃ s, v = .text s ∧
    (s = "event".toList → EventFits members) ∧ (s = "function".toList → FunctionFits members)

/-- An item without a type that is an error. -/
def ItemTyped (item : Value) : Prop := ∀ members, item = .object members →
  (members.lookup "type".toList = some (.text "event".toList) →
    ∀ inputs, members.lookup "inputs".toList = some (.array inputs) → ∀ inp ∈ inputs, Typed inp) ∧
  (members.lookup "type".toList = some (.text "function".toList) →
    ∀ outputs, members.lookup "outputs".toList = some (.array outputs) →
      ∀ out ∈ outputs, Typed out)

/-- The kinds of a file. -/
def FileFits (root : Value) : Prop := ∃ items, root = .array items ∧ UpTo ItemTyped ItemFits items

/-! ### Reading back -/

section Read

variable {v : Value} {members : Members} {name : Text}

@[simp] theorem gives_object {members : Members} :
    Gives (object v) members ↔ v = .object members := by
  cases v <;> simp [object]

@[simp] theorem returns_object : Returns (object v) ↔ ∃ members, v = .object members := by
  cases v <;> simp [object]

@[simp] theorem gives_array {items : List Value} : Gives (array v) items ↔ v = .array items := by
  cases v <;> simp [array]

@[simp] theorem returns_array : Returns (array v) ↔ ∃ items, v = .array items := by
  cases v <;> simp [array]

@[simp] theorem gives_string {s : Text} : Gives (string v) s ↔ v = .text s := by
  cases v <;> simp [string]

@[simp] theorem returns_string : Returns (string v) ↔ ∃ s, v = .text s := by
  cases v <;> simp [string]

@[simp] theorem gives_bool {b : Bool} : Gives (bool v) b ↔ v = .bool b := by
  cases v <;> simp [bool]

@[simp] theorem returns_bool : Returns (bool v) ↔ ∃ b, v = .bool b := by
  cases v <;> simp [bool]

theorem gives_get : Gives (get members name) v ↔ members.lookup name = some v := by
  unfold get
  cases members.lookup name <;> simp

theorem returns_get : Returns (get members name) ↔ ∃ v, members.lookup name = some v := by
  unfold get
  cases members.lookup name <;> simp

theorem returns_getOr {α : Type} {read : Value → Load α} {default : α} :
    Returns (getOr members name read default) ↔
      ∀ v, members.lookup name = some v → Returns (read v) := by
  unfold getOr
  cases members.lookup name <;> simp

/-- A member that is read, or its default. -/
theorem exists_gives_getOr {α : Type} {read : Value → Load α} {default : α} :
    (∃ a, Gives (getOr members name read default) a) ↔
      ∀ v, members.lookup name = some v → ∃ a, Gives (read v) a := by
  unfold getOr
  cases members.lookup name <;> simp

/-- A text that has to be there. -/
theorem returns_text : Returns (get members name >>= string) ↔ HasText members name := by
  simp only [returns_bind, returns_get, gives_get, returns_string, HasText]
  constructor
  · rintro ⟨⟨v, hv⟩, hstring⟩
    obtain ⟨s, rfl⟩ := hstring v hv
    exact ⟨s, hv⟩
  · rintro ⟨s, hs⟩
    refine ⟨⟨_, hs⟩, fun v hv => ⟨s, ?_⟩⟩
    exact Option.some.inj (hv.symm.trans hs)

theorem gives_text {s : Text} :
    Gives (get members name >>= string) s ↔ members.lookup name = some (.text s) := by
  simp [gives_bind, gives_get]

end Read

/-! ### Canonical types -/

theorem indexOf_add_le {needle s : Text} {i : Nat} (h : indexOf needle s = some i) :
    i + needle.length ≤ s.length := by
  induction s generalizing i with
  | nil =>
    unfold indexOf at h
    split at h
    · next hnil =>
      obtain rfl := Option.some.inj h
      simp [hnil]
    · cases h
  | cons c cs ih =>
    unfold indexOf at h
    split at h
    · next hprefix =>
      obtain rfl := Option.some.inj h
      have hle := (List.isPrefixOf_iff_prefix.1 hprefix).length_le
      omega
    · obtain ⟨j, hj, rfl⟩ := Option.map_eq_some_iff.1 h
      have hle := ih hj
      rw [List.length_cons]
      omega

section Canonical

variable {junk : Char}

@[simp] theorem gives_check {α : Type} {step : Option α} {a : α} :
    Gives (check step) a ↔ step = some a := by
  unfold check
  cases step <;> simp

/-- **The copies are in range**, and the word is replaced. -/
theorem gives_replaceTuple (typeStr tuple : Text) : Gives (replaceTuple junk typeStr tuple)
    (match indexOf "tuple".toList typeStr with
      | some i => typeStr.take i ++ tuple ++ typeStr.drop (i + 5)
      | none => tuple) := by
  have hlt {i : Nat} (hi : indexOf "tuple".toList typeStr = some i) : i + 5 ≤ typeStr.length :=
    indexOf_add_le hi
  unfold replaceTuple
  split
  · next hshort =>
    cases hi : indexOf "tuple".toList typeStr with
    | none => simp
    | some i => exact absurd (hlt hi) (by omega)
  · next hlong =>
    cases hi : indexOf "tuple".toList typeStr with
    | none => simp
    | some i =>
      have hle := hlt hi
      have hhead : (typeStr.take i).length = i := by
        rw [List.length_take]
        omega
      have htail : (typeStr.drop (i + 5)).length = typeStr.length - (i + 5) := List.length_drop
      -- the buffer is written from left to right, and is full at the end
      have hfilled := Checked.filled_nil (List.replicate (typeStr.length - 5 + tuple.length) junk)
      rw [List.length_replicate] at hfilled
      obtain ⟨out, hcopy, hfilled⟩ := hfilled.copy (typeStr.take i) (by omega)
      obtain ⟨out', hcopy', hfilled⟩ := hfilled.copy tuple (by omega)
      obtain ⟨out'', hcopy'', hfilled⟩ := hfilled.copy (typeStr.drop (i + 5)) (by omega)
      dsimp only at hcopy hcopy' hcopy'' hfilled
      rw [hhead, Nat.zero_add] at hcopy hcopy' hcopy'' hfilled
      have hroom : typeStr.length - 5 + tuple.length - i - tuple.length -
          (typeStr.drop (i + 5)).length = 0 := by omega
      rw [hroom] at hfilled
      have hdone := hfilled.eq_done
      have hend : i + tuple.length + (typeStr.drop (i + 5)).length =
          typeStr.length - 5 + tuple.length := by omega
      rw [hend] at hcopy''
      simp only [gives_bind, gives_check, Checked.sub_of_le (Nat.not_lt.1 hlong),
        Option.some.injEq]
      refine ⟨_, rfl, _, Checked.slice_of_le (Nat.zero_le i) (by omega), out, ?_, out', hcopy', _,
        Checked.slice_length hle, ?_⟩
      · simpa using hcopy
      · rw [hcopy'']
        exact congrArg some hdone

/-- `canonicalAbiType` of an object with a type. -/
theorem canonicalAbiType_object {members : Members} {typeStr : Text}
    (htype : members.lookup "type".toList = some (.text typeStr)) :
    canonicalAbiType junk (.object members) =
      match members.lookup "components".toList with
      | some (.array items) => do
        let parts ← items.mapM (canonicalAbiType junk)
        replaceTuple junk typeStr (tupleText parts)
      | _ => pure typeStr := by
  rw [canonicalAbiType]
  simp only [htype]
  split
  · next items hitems =>
    rw [hitems]
    simp [List.mapM_subtype, List.unattach_attach]
  · next hnone =>
    split
    · next items hitems => exact absurd hitems (hnone items)
    · rfl

/-- An object without a type, and what is not an object. -/
theorem canonicalAbiType_error {v : Value} (h : ∀ members s, v = .object members →
    members.lookup "type".toList ≠ some (.text s)) :
    canonicalAbiType junk v = throw .invalidAbi := by
  cases v with
  | object members =>
    rw [canonicalAbiType]
    split
    · next typeStr htype => exact absurd htype (h members typeStr rfl)
    · rfl
  | _ =>
    rw [canonicalAbiType]
    simp

theorem typed_iff {members : Members} : Typed (.object members) ↔
    ∃ s, members.lookup "type".toList = some (.text s) ∧
      ∀ items, members.lookup "components".toList = some (.array items) →
        ∀ comp ∈ items, Typed comp := by
  constructor
  · rintro ⟨htype, hcomps⟩
    exact ⟨_, htype, hcomps⟩
  · rintro ⟨s, htype, hcomps⟩
    exact .object htype hcomps

/-- **A type is written canonically, or is an error**; it does not end the process, and it is
written exactly if it is typed. -/
theorem canonicalAbiType_spec (v : Value) : Returns (canonicalAbiType junk v) ∧
    ((∃ s, Gives (canonicalAbiType junk v) s) ↔ Typed v) := by
  induction hsize : sizeOf v using Nat.strong_induction_on generalizing v with
  | _ n ih =>
    subst hsize
    by_cases htype : ∃ members s, v = .object members ∧
      members.lookup "type".toList = some (.text s)
    · obtain ⟨members, typeStr, rfl, htype⟩ := htype
      rw [canonicalAbiType_object htype, typed_iff]
      split
      · next items hitems =>
        have hitem : ∀ comp ∈ items, Returns (canonicalAbiType junk comp) ∧
            ((∃ s, Gives (canonicalAbiType junk comp) s) ↔ Typed comp) :=
          fun comp hcomp => ih _ (sizeOf_components hitems hcomp) comp rfl
        have hparts : (∃ parts, Gives (items.mapM (canonicalAbiType junk)) parts) ↔
            ∀ comp ∈ items, Typed comp :=
          exists_gives_mapM.trans (forall₂_congr fun comp hcomp => (hitem comp hcomp).2)
        constructor
        · refine returns_bind.2 ⟨returns_mapM.2 ?_, fun parts _ =>
            (gives_replaceTuple _ _).returns⟩
          rintro ys comp zs rfl -
          exact (hitem comp (by simp)).1
        · constructor
          · rintro ⟨s, hs⟩
            obtain ⟨parts, hgives, -⟩ := gives_bind.1 hs
            refine ⟨typeStr, htype, fun items' hitems' => ?_⟩
            obtain rfl := (Value.array.inj (Option.some.inj (hitems.symm.trans hitems')))
            exact hparts.1 ⟨parts, hgives⟩
          · rintro ⟨_, -, hcomps⟩
            obtain ⟨parts, hgives⟩ := hparts.2 (hcomps items hitems)
            exact ⟨_, gives_bind.2 ⟨parts, hgives, gives_replaceTuple _ _⟩⟩
      · next hnone =>
        refine ⟨returns_pure, iff_of_true ⟨_, gives_pure.2 rfl⟩ ⟨typeStr, htype, ?_⟩⟩
        intro items hitems
        exact absurd hitems (hnone items)
    · rw [canonicalAbiType_error fun members s hv hs => htype ⟨members, s, hv, hs⟩]
      refine ⟨returns_throw _, iff_of_false (by simp) ?_⟩
      rintro ⟨hs, -⟩
      exact htype ⟨_, _, rfl, hs⟩

/-- Whatever the value is: there is no access to fail, and the copies are in range. -/
theorem returns_canonicalAbiType (v : Value) : Returns (canonicalAbiType junk v) :=
  (canonicalAbiType_spec v).1

theorem exists_gives_canonicalAbiType {v : Value} :
    (∃ s, Gives (canonicalAbiType junk v) s) ↔ Typed v := (canonicalAbiType_spec v).2

end Canonical

/-! ### Inputs, outputs and items -/

section File

variable {parse : Text → Option Value} {keccak256 : Text → Fin 32 → Fin 256} {junk : Char}

/-- A load of an object, member by member. -/
theorem returns_object_bind {α : Type} {v : Value} {f : Members → Load α} :
    Returns (object v >>= f) ↔ ∃ members, v = .object members ∧ Returns (f members) := by
  rw [returns_bind, returns_object]
  constructor
  · rintro ⟨⟨members, rfl⟩, hf⟩
    exact ⟨members, rfl, hf members (gives_object.2 rfl)⟩
  · rintro ⟨members, rfl, hf⟩
    refine ⟨⟨members, rfl⟩, fun members' h => ?_⟩
    obtain rfl := Value.object.inj (gives_object.1 h)
    exact hf

theorem gives_object_bind {α : Type} {members : Members} {f : Members → Load α} {a : α} :
    Gives (object (.object members) >>= f) a ↔ Gives (f members) a := by
  rw [gives_bind]
  constructor
  · rintro ⟨members', h, hf⟩
    obtain rfl := Value.object.inj (gives_object.1 h)
    exact hf
  · exact fun h => ⟨members, gives_object.2 rfl, h⟩

/-- A text that has to be there. -/
theorem exists_gives_text {members : Members} {name : Text}
    (h : Returns (get members name >>= string)) :
    ∃ s, Gives (get members name >>= string) s := by
  obtain ⟨s, hs⟩ := returns_text.1 h
  exact ⟨s, gives_text.2 hs⟩

theorem returns_text_bind {α : Type} {members : Members} {name : Text} {f : Text → Load α}
    {c : Prop} (hf : ∀ s, Returns (f s) ↔ c) :
    Returns ((get members name >>= string) >>= f) ↔ HasText members name ∧ c := by
  rw [returns_bind_const exists_gives_text hf, returns_text]

theorem exists_gives_text_bind {α : Type} {members : Members} {name : Text} {f : Text → Load α}
    {c : Prop} (h : HasText members name) (hf : ∀ s, (∃ a, Gives (f s) a) ↔ c) :
    (∃ a, Gives ((get members name >>= string) >>= f) a) ↔ c :=
  exists_gives_bind_const (exists_gives_text (returns_text.2 h)) hf

/-- A text that may be left out. -/
theorem exists_gives_textIfAny {members : Members} {name : Text} (h : TextIfAny members name) :
    ∃ s, Gives (getOr members name string []) s :=
  exists_gives_getOr.2 fun v hv => by simpa using h v hv

theorem returns_textIfAny_bind {α : Type} {members : Members} {name : Text} {f : Text → Load α}
    {c : Prop} (hf : ∀ s, Returns (f s) ↔ c) :
    Returns (getOr members name string [] >>= f) ↔ TextIfAny members name ∧ c := by
  have hreturns : Returns (getOr members name string []) ↔ TextIfAny members name := by
    rw [returns_getOr]
    simp [TextIfAny]
  rw [returns_bind_const (fun h => exists_gives_textIfAny (hreturns.1 h)) hf, hreturns]

theorem returns_parseEventInput {inp : Value} :
    Returns (parseEventInput junk inp) ↔ InputFits inp := by
  unfold parseEventInput InputFits
  refine returns_object_bind.trans (exists_congr fun members => and_congr_right fun _ => ?_)
  refine returns_text_bind fun name => ?_
  rw [returns_bind, and_iff_right (returns_canonicalAbiType _), ← exists_gives_canonicalAbiType,
    forall_exists_index]
  refine forall₂_congr fun type _ => ?_
  rw [returns_bind, returns_getOr]
  simp

theorem exists_gives_parseEventInput {inp : Value} (h : InputFits inp) :
    (∃ i, Gives (parseEventInput junk inp) i) ↔ Typed inp := by
  obtain ⟨members, rfl, hname, hindexed⟩ := h
  unfold parseEventInput
  simp only [gives_object_bind]
  refine exists_gives_text_bind hname fun name => ?_
  have hcanonical : (∃ s, Gives (canonicalAbiType junk (.object members)) s) ↔
      Typed (.object members) := exists_gives_canonicalAbiType
  rw [← hcanonical]
  constructor
  · rintro ⟨i, hi⟩
    obtain ⟨type, htype, -⟩ := gives_bind.1 hi
    exact ⟨type, htype⟩
  · rintro ⟨type, htype⟩
    have hread := hindexed (exists_gives_canonicalAbiType.1 ⟨type, htype⟩)
    obtain ⟨b, hb⟩ : ∃ b, Gives (getOr members "indexed".toList bool false) b :=
      exists_gives_getOr.2 fun v hv => by simpa using hread v hv
    exact ⟨_, gives_bind.2 ⟨type, htype, gives_bind.2 ⟨b, hb, gives_pure.2 rfl⟩⟩⟩

/-- A list that has to be there, and then the rest. -/
theorem returns_array_bind {α : Type} {members : Members} {name : Text}
    {f : List Value → Load α} : Returns ((get members name >>= array) >>= f) ↔
      ∃ items, members.lookup name = some (.array items) ∧ Returns (f items) := by
  have hgives {items : List Value} : Gives (get members name >>= array) items ↔
      members.lookup name = some (.array items) := by
    simp [gives_bind, gives_get]
  rw [returns_bind, returns_bind, returns_get]
  simp only [hgives, gives_get, returns_array]
  constructor
  · rintro ⟨⟨⟨v, hv⟩, hread⟩, hf⟩
    obtain ⟨items, rfl⟩ := hread v hv
    exact ⟨items, hv, hf items hv⟩
  · rintro ⟨items, hitems, hf⟩
    refine ⟨⟨⟨_, hitems⟩, fun v hv => ⟨items, ?_⟩⟩, fun items' hitems' => ?_⟩
    · exact Option.some.inj (hv.symm.trans hitems)
    · obtain rfl := Value.array.inj (Option.some.inj (hitems.symm.trans hitems'))
      exact hf

theorem gives_array_bind {α : Type} {members : Members} {name : Text} {items : List Value}
    {f : List Value → Load α} {a : α} (h : members.lookup name = some (.array items)) :
    Gives ((get members name >>= array) >>= f) a ↔ Gives (f items) a := by
  rw [gives_bind]
  constructor
  · rintro ⟨items', hitems', hf⟩
    have hlookup : members.lookup name = some (.array items') := by
      simpa [gives_bind, gives_get] using hitems'
    obtain rfl := Value.array.inj (Option.some.inj (h.symm.trans hlookup))
    exact hf
  · exact fun hf => ⟨items, by simpa [gives_bind, gives_get] using h, hf⟩

theorem returns_parseEvent {members : Members} :
    Returns (parseEvent keccak256 junk members) ↔ EventFits members := by
  unfold parseEvent EventFits
  refine returns_text_bind fun name => returns_array_bind.trans ?_
  refine exists_congr fun inputs => and_congr_right fun _ => ?_
  rw [returns_bind_pure, returns_mapM_iff (fun _ => returns_parseEventInput)
    fun _ => exists_gives_parseEventInput]

theorem exists_gives_parseEvent {members : Members} (h : EventFits members) :
    (∃ e, Gives (parseEvent keccak256 junk members) e) ↔
      ∀ inputs, members.lookup "inputs".toList = some (.array inputs) →
        ∀ inp ∈ inputs, Typed inp := by
  obtain ⟨hname, inputs, hinputs, hfits⟩ := h
  have hunique : (∀ inputs, members.lookup "inputs".toList = some (.array inputs) →
      ∀ inp ∈ inputs, Typed inp) ↔ ∀ inp ∈ inputs, Typed inp := by
    rw [hinputs]
    simp
  unfold parseEvent
  refine exists_gives_text_bind hname fun name => ?_
  simp only [gives_array_bind hinputs]
  rw [exists_gives_bind_pure, hunique, exists_gives_mapM_iff (fun _ => returns_parseEventInput)
    (fun _ => exists_gives_parseEventInput) hfits]

theorem returns_parseInput {inp : Value} : Returns (parseInput inp) ↔ ParamFits inp := by
  unfold parseInput ParamFits
  refine returns_object_bind.trans (exists_congr fun members => and_congr_right fun _ => ?_)
  exact returns_textIfAny_bind fun name => by rw [returns_bind_pure, returns_text]

theorem exists_gives_parseInput {inp : Value} (h : ParamFits inp) :
    ∃ p, Gives (parseInput inp) p := by
  obtain ⟨members, rfl, hname, htype⟩ := h
  unfold parseInput
  simp only [gives_object_bind]
  refine (exists_gives_bind_const (exists_gives_textIfAny hname) fun name => ?_).2 trivial
  rw [exists_gives_bind_pure]
  exact iff_true_intro (exists_gives_text (returns_text.2 htype))

theorem returns_parseOutput {out : Value} :
    Returns (parseOutput junk out) ↔ OutputFits out := by
  unfold parseOutput OutputFits
  refine returns_object_bind.trans (exists_congr fun members => and_congr_right fun _ => ?_)
  rw [returns_textIfAny_bind fun name => by
    rw [returns_bind_pure, iff_true_intro (returns_canonicalAbiType out)], and_true]

theorem exists_gives_parseOutput {out : Value} (h : OutputFits out) :
    (∃ p, Gives (parseOutput junk out) p) ↔ Typed out := by
  obtain ⟨members, rfl, hname⟩ := h
  unfold parseOutput
  simp only [gives_object_bind]
  refine exists_gives_bind_const (exists_gives_textIfAny hname) fun name => ?_
  rw [exists_gives_bind_pure, exists_gives_canonicalAbiType]

/-- A list that may be left out, and what is asked of it. -/
theorem exists_getOr_array {members : Members} {name : Text} {c : List Value → Prop} (hnil : c [])
    (h : ∀ v, members.lookup name = some v → ∃ items, v = .array items ∧ c items) :
    ∃ items, getOr members name array [] = pure items ∧ c items ∧ ∀ P : Value → Prop,
      (∀ x ∈ items, P x) ↔
        ∀ items', members.lookup name = some (.array items') → ∀ x ∈ items', P x := by
  unfold getOr
  cases hv : members.lookup name with
  | none => exact ⟨[], rfl, hnil, fun P => by simp⟩
  | some v =>
    obtain ⟨items, rfl, hc⟩ := h v hv
    exact ⟨items, rfl, hc, fun P => by simp⟩

theorem returns_listIfAny_bind {α : Type} {members : Members} {name : Text}
    {f : List Value → Load α} {c : List Value → Prop} {d : Prop} (hnil : c [])
    (hf : ∀ items, Returns (f items) ↔ c items ∧ d) :
    Returns (getOr members name array [] >>= f) ↔
      (∀ v, members.lookup name = some v → ∃ items, v = .array items ∧ c items) ∧ d := by
  unfold getOr
  cases members.lookup name with
  | none => simp [hf, hnil]
  | some v =>
    cases v with
    | array items => simp [array, hf]
    | _ => simp [array, returns_bind]

theorem returns_parseFunction {members : Members} :
    Returns (parseFunction junk members) ↔ FunctionFits members := by
  unfold parseFunction FunctionFits
  refine returns_text_bind fun name => returns_listIfAny_bind (by simp) fun inputs => ?_
  have hinputs : Returns (inputs.mapM parseInput) ↔ ∀ inp ∈ inputs, ParamFits inp := by
    rw [returns_mapM_iff (fun _ => returns_parseInput)
      fun _ h => iff_true_intro (exists_gives_parseInput h), upTo_true]
  rw [← hinputs]
  refine returns_bind_const (fun h => ?_) fun params => ?_
  · exact exists_gives_mapM.2 fun inp hinp => exists_gives_parseInput (hinputs.1 h inp hinp)
  · refine (returns_listIfAny_bind (d := True) upTo_nil fun outputs => ?_).trans
      (iff_of_eq (and_true _))
    rw [returns_bind_pure, returns_mapM_iff (fun _ => returns_parseOutput)
      fun _ => exists_gives_parseOutput, and_true]

theorem exists_gives_parseFunction {members : Members} (h : FunctionFits members) :
    (∃ f, Gives (parseFunction junk members) f) ↔
      ∀ outputs, members.lookup "outputs".toList = some (.array outputs) →
        ∀ out ∈ outputs, Typed out := by
  obtain ⟨hname, hinputs, houtputs⟩ := h
  obtain ⟨inputs, hin, hparams, -⟩ := exists_getOr_array (by simp) hinputs
  obtain ⟨outputs, hout, hfits, hall⟩ := exists_getOr_array upTo_nil houtputs
  unfold parseFunction
  simp only [hin, hout, pure_bind]
  refine exists_gives_text_bind hname fun name => ?_
  refine exists_gives_bind_const (exists_gives_mapM.2 fun inp hinp =>
    exists_gives_parseInput (hparams inp hinp)) fun params => ?_
  rw [exists_gives_bind_pure, exists_gives_mapM_iff (fun _ => returns_parseOutput)
    (fun _ => exists_gives_parseOutput) hfits, hall]

/-- What is made of the members of an item with a type. -/
theorem parseItem_object {members : Members} {typeStr : Text}
    (htype : members.lookup "type".toList = some (.text typeStr)) :
    parseItem keccak256 junk (.object members) =
      if typeStr = "event".toList then do
        let e ← parseEvent keccak256 junk members
        pure (.event e)
      else if typeStr = "function".toList then do
        let f ← parseFunction junk members
        pure (.function f)
      else pure .other := by
  unfold parseItem
  rw [object, pure_bind, htype]
  exact pure_bind _ _

/-- An item without a type. -/
theorem parseItem_other {members : Members} (htype : members.lookup "type".toList = none) :
    parseItem keccak256 junk (.object members) = pure .other := by
  unfold parseItem
  rw [object, pure_bind, htype]

theorem event_ne_function : "event".toList ≠ "function".toList := by decide

theorem returns_parseItem {item : Value} :
    Returns (parseItem keccak256 junk item) ↔ ItemFits item := by
  by_cases hobject : ∃ members, item = .object members
  · obtain ⟨members, rfl⟩ := hobject
    have hfits : ItemFits (.object members) ↔
        ∀ v, members.lookup "type".toList = some v → ∃ s, v = .text s ∧
          (s = "event".toList → EventFits members) ∧
          (s = "function".toList → FunctionFits members) := by
      unfold ItemFits
      simp only [Value.object.injEq, exists_eq_left']
    rw [hfits]
    cases hlookup : members.lookup "type".toList with
    | none =>
      rw [parseItem_other hlookup]
      exact iff_of_true returns_pure fun v h => absurd h (Option.some_ne_none v).symm
    | some type =>
      simp only [Option.some.injEq, forall_eq']
      by_cases htext : ∃ typeStr, type = .text typeStr
      · obtain ⟨typeStr, rfl⟩ := htext
        rw [parseItem_object hlookup]
        simp only [Value.text.injEq, exists_eq_left']
        split
        · next heq =>
          rw [returns_bind_pure, returns_parseEvent, imp_iff_right heq, iff_self_and]
          exact fun _ hne => absurd (heq.symm.trans hne) event_ne_function
        · next hne =>
          split
          · next heq =>
            rw [returns_bind_pure, returns_parseFunction, imp_iff_right heq, iff_and_self]
            exact fun _ heq' => absurd heq' hne
          · next hne' =>
            exact iff_of_true returns_pure ⟨fun h => absurd h hne, fun h => absurd h hne'⟩
      · refine iff_of_false (fun h => htext ?_) fun ⟨s, hs, _⟩ => htext ⟨s, hs⟩
        unfold parseItem at h
        rw [object, pure_bind, hlookup] at h
        exact returns_string.1 (returns_bind.1 h).1
  · refine iff_of_false (fun h => ?_) fun ⟨members, hitem, _⟩ => hobject ⟨members, hitem⟩
    obtain ⟨members, hitem, -⟩ := returns_object_bind.1 h
    exact hobject ⟨members, hitem⟩

theorem exists_gives_parseItem {item : Value} (h : ItemFits item) :
    (∃ i, Gives (parseItem keccak256 junk item) i) ↔ ItemTyped item := by
  obtain ⟨members, rfl, htype⟩ := h
  have hunique : ItemTyped (.object members) ↔
      (members.lookup "type".toList = some (.text "event".toList) →
        ∀ inputs, members.lookup "inputs".toList = some (.array inputs) →
          ∀ inp ∈ inputs, Typed inp) ∧
      (members.lookup "type".toList = some (.text "function".toList) →
        ∀ outputs, members.lookup "outputs".toList = some (.array outputs) →
          ∀ out ∈ outputs, Typed out) := by
    unfold ItemTyped
    simp only [Value.object.injEq, forall_eq']
  rw [hunique]
  cases hlookup : members.lookup "type".toList with
  | none =>
    rw [parseItem_other hlookup]
    refine iff_of_true ⟨_, gives_pure.2 rfl⟩ ⟨fun h => ?_, fun h => ?_⟩
    · cases h
    · cases h
  | some type =>
    obtain ⟨typeStr, rfl, hevent, hfunction⟩ := htype type hlookup
    have htext {name : Text} : some (Value.text typeStr) = some (.text name) ↔ typeStr = name := by
      simp
    rw [parseItem_object hlookup, htext, htext]
    split
    · next heq =>
      rw [exists_gives_bind_pure, exists_gives_parseEvent (hevent heq), imp_iff_right heq,
        iff_self_and]
      exact fun _ hne => absurd (heq.symm.trans hne) event_ne_function
    · next hne =>
      split
      · next heq =>
        rw [exists_gives_bind_pure, exists_gives_parseFunction (hfunction heq), imp_iff_right heq,
          iff_and_self]
        exact fun _ heq' => absurd heq' hne
      · next hne' =>
        exact iff_of_true ⟨_, gives_pure.2 rfl⟩ ⟨fun h => absurd h hne, fun h => absurd h hne'⟩

end File

/-- **When a file is loaded.** Loading returns, with an ABI or an error, exactly if the kinds of the
values in the file are as they are taken to be, up to the first type that is an error. -/
theorem loads_iff (parse : Text → Option Value) (keccak256 : Text → Fin 32 → Fin 256) (junk : Char)
    (content : Text) : Returns (parseAbiJson parse keccak256 junk content) ↔
      ∀ root, parse content = some root → FileFits root := by
  unfold parseAbiJson
  cases parse content with
  | none => simp
  | some root =>
    simp only [Option.some.injEq, forall_eq']
    unfold FileFits
    rw [returns_bind, returns_array]
    have hitems {items : List Value} : Returns (items.mapM (parseItem keccak256 junk)) ↔
        UpTo ItemTyped ItemFits items :=
      returns_mapM_iff (fun _ => returns_parseItem) fun _ => exists_gives_parseItem
    constructor
    · rintro ⟨⟨items, rfl⟩, h⟩
      exact ⟨items, rfl, hitems.1 (returns_bind_pure.1 (h items (gives_array.2 rfl)))⟩
    · rintro ⟨items, rfl, h⟩
      refine ⟨⟨items, rfl⟩, fun items' h' => returns_bind_pure.2 (hitems.2 ?_)⟩
      obtain rfl := Value.array.inj (gives_array.1 h')
      exact h

/-- A file with an object in the place of the list. -/
theorem not_loads_object :
    ¬Returns (parseAbiJson Json.read (fun _ _ => 0) 'x' "\x7b\x7d".toList) := by
  have hread : Json.read "\x7b\x7d".toList = some (.object []) := rfl
  intro h
  unfold parseAbiJson at h
  rw [hread] at h
  obtain ⟨items, hitems⟩ := returns_array.1 (returns_bind.1 h).1
  cases hitems

end Zponder.AbiLoad

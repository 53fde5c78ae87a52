import Zponder.DecodeSound

/-!
# Events are read back from their logs

An event as Solidity knows it: its indexed inputs, which are of value types, are in the
topics behind the signature; the others are encoded into the data, as the members of a
tuple are. `decodeLog` finds every one of them again, whatever follows in the data
(`Zponder.Decode.decodeLog_encode`).

What it takes for granted is that no tuple has more members than an array may have
elements. A tuple that has more loses the last of them (`Zponder.Decode.decodeLog_wide`).
-/

namespace Zponder

open Decode HeadTail

namespace Decode

/-- An input of an event. -/
inductive Input where
  | indexed (name : Text) (v : ValueType)
  | data (name : Text) (t : AbiType)

/-- The input as the ABI of the contract has it. -/
def Input.toEventInput : Input → EventInput
  | indexed name v => ⟨name, v.text, true⟩
  | data name t => ⟨name, t.text, false⟩

/-- Its values. -/
def Input.Val : Input → Type
  | indexed _ v => v.Val
  | data _ t => t.Val

/-- Its tuples are not too wide. -/
def Input.Narrow : Input → Prop
  | indexed _ _ => True
  | data _ t => t.Narrow

/-- A value for each of the inputs. -/
def Values : List Input → Type
  | [] => Unit
  | input :: inputs => input.Val × Values inputs

/-- The topics behind the signature. -/
def topics : (inputs : List Input) → Values inputs → List Text
  | [], _ => []
  | .indexed _ v :: inputs, vs =>
    ("0x".toList ++ Text.hexOf 64 (v.word vs.1).toNat) :: topics inputs vs.2
  | .data _ _ :: inputs, vs => topics inputs vs.2

/-- The parts of the data. -/
def dataParts : (inputs : List Input) → Values inputs → List (HeadTail.Part Char)
  | [], _ => []
  | .indexed _ _ :: inputs, vs => dataParts inputs vs.2
  | .data _ t :: inputs, vs => ⟨t.isDynamic, t.encode vs.1⟩ :: dataParts inputs vs.2

/-- The hex digits of the data. -/
def encodeData (inputs : List Input) (vs : Values inputs) : Text :=
  AbiType.sequence (dataParts inputs vs)

/-- **What is to be answered**: one field for each input, the rendering of its value. -/
def reference : (inputs : List Input) → Values inputs → List DecodedField
  | [], _ => []
  | .indexed name v :: inputs, vs => ⟨name, v.render vs.1⟩ :: reference inputs vs.2
  | .data name t :: inputs, vs => ⟨name, t.render vs.1⟩ :: reference inputs vs.2

/-- The event of some inputs. -/
def eventOf (name : Text) (inputs : List Input) : Event := ⟨name, inputs.map Input.toEventInput⟩

end Decode

/-! ### Hex digits only -/

theorem AbiType.x_notMem_padded (bs : List (Fin 256)) : 'x' ∉ padded bs := by
  unfold padded hexBytes
  rw [List.mem_append, List.mem_flatMap, not_or]
  refine ⟨?_, fun h => absurd (List.eq_of_mem_replicate h) (by decide)⟩
  rintro ⟨b, -, hb⟩
  exact Text.x_notMem_hexOf 2 b.val hb

theorem AbiType.x_notMem_sequence {ps : List (HeadTail.Part Char)}
    (h : ∀ p ∈ ps, 'x' ∉ p.code) : 'x' ∉ sequence ps := by
  have hall : ∀ c ∈ sequence ps, c ≠ 'x' := by
    refine forall_mem_layout (fun n c hc => ?_) fun p hp c hc => ?_
    · rintro rfl
      exact Text.x_notMem_hexOf _ _ hc
    · rintro rfl
      exact h p hp hc
  exact fun hx => hall 'x' hx rfl

/-- An encoding is of hex digits; at least there is no `x` in it. -/
theorem AbiType.x_notMem_encode (t : AbiType) : ∀ v : t.Val, 'x' ∉ encode t v := by
  have hmap : ∀ {t : AbiType}, (∀ v : t.Val, 'x' ∉ encode t v) → ∀ vs : List t.Val,
      'x' ∉ sequence (vs.map fun v => ⟨t.isDynamic, encode t v⟩) := by
    intro t h vs
    refine x_notMem_sequence fun p hp => ?_
    obtain ⟨v, -, rfl⟩ := List.mem_map.1 hp
    exact h v
  have hparts : ∀ {ts : List AbiType}, (∀ t ∈ ts, ∀ v : t.Val, 'x' ∉ encode t v) →
      ∀ vs : Vals ts, ∀ p ∈ parts ts vs, 'x' ∉ p.code := by
    intro ts
    induction ts with
    | nil =>
      intro _ vs
      rw [parts]
      simp
    | cons t ts ih =>
      intro h vs
      rw [parts]
      refine List.forall_mem_cons.2 ⟨h t List.mem_cons_self vs.1, ?_⟩
      exact ih (fun t ht => h t (List.mem_cons_of_mem _ ht)) vs.2
  induction t using induct with
  | value v =>
    intro x
    rw [encode]
    exact Text.x_notMem_hexOf _ _
  | string =>
    intro s
    rw [encode, List.mem_append, not_or]
    exact ⟨Text.x_notMem_hexOf _ _, x_notMem_padded _⟩
  | bytes =>
    intro s
    rw [encode, List.mem_append, not_or]
    exact ⟨Text.x_notMem_hexOf _ _, x_notMem_padded _⟩
  | array t count ih =>
    intro vs
    rw [encode]
    exact hmap ih vs.1
  | slice t ih =>
    intro vs
    rw [encode, List.mem_append, not_or]
    exact ⟨Text.x_notMem_hexOf _ _, hmap ih vs.1⟩
  | tuple ts ih =>
    intro vs
    rw [encode]
    exact x_notMem_sequence (hparts ih vs)

namespace Decode

/-! ### The inputs, one after the other -/

theorem forall_dataParts {P : HeadTail.Part Char → Prop}
    (h : ∀ (t : AbiType) (v : t.Val), P ⟨t.isDynamic, t.encode v⟩) (inputs : List Input)
    (vs : Values inputs) : ∀ p ∈ dataParts inputs vs, P p := by
  induction inputs with
  | nil => intros; contradiction
  | cons input inputs ih =>
    cases input with
    | indexed name v => exact ih vs.2
    | data name t => exact List.forall_mem_cons.2 ⟨h t vs.1, ih vs.2⟩

theorem drop_hexPrefix (s : Text) : ("0x".toList ++ s).drop 2 = s := rfl

/-- The field of an indexed input. -/
theorem decodeTopic_word (name : Text) (v : ValueType) (x : v.Val) :
    decodeTopic ⟨name, v.text, true⟩ ("0x".toList ++ Text.hexOf 64 (v.word x).toNat) =
      ⟨name, v.render x⟩ := by
  have hhash : indexedAsHash v.text = false := by
    have halpha := v.isAlphanum_text
    unfold indexedAsHash
    rw [if_neg (not_or.2 v.text_ne_dynamic), if_neg, List.contains_eq_mem, decide_eq_false]
    · exact fun h => absurd (halpha _ h) (by decide)
    · exact fun h => absurd (halpha _ (List.mem_of_head? h)) (by decide)
  have hlast : lastChars 64 (Text.hexOf 64 (v.word x).toNat) = Text.hexOf 64 (v.word x).toNat := by
    have h := lastChars_length (Text.hexOf 64 (v.word x).toNat)
    rwa [Text.length_hexOf] at h
  unfold decodeTopic
  simp only [hhash]
  rw [if_neg Bool.false_ne_true, if_pos (List.isPrefixOf_iff_prefix.2 (List.prefix_append _ _)),
    drop_hexPrefix, Text.length_hexOf, if_pos le_rfl, hlast, decodeStaticValue_text]

/-- **The loop over the inputs**, with the cursor at a word. -/
theorem decodeInputs_laid {data : Text} {inputs : List Input} (vs : Values inputs)
    (hnarrow : ∀ input ∈ inputs, input.Narrow) (hdata : data.length ≤ u64Max)
    (hbare : (∃ p ∈ dataParts inputs vs, p.dynamic = true) → ¬"0x".toList.isPrefixOf data = true)
    {word : Nat}
    (h : Laid 64 AbiType.offsetWord data 0 (word * 64) (dataParts inputs vs)) :
    decodeInputs data (topics inputs vs) word (inputs.map Input.toEventInput) =
      reference inputs vs := by
  induction inputs generalizing word with
  | nil => rfl
  | cons input inputs ih =>
    have hothers : ∀ input ∈ inputs, input.Narrow :=
      fun i hi => hnarrow i (List.mem_cons_of_mem _ hi)
    cases input with
    | indexed name v =>
      exact congrArg₂ List.cons (decodeTopic_word name v vs.1) (ih vs.2 hothers hbare h)
    | data name t =>
      have ht : t.Reads := t.reads (hnarrow _ List.mem_cons_self)
      obtain ⟨hword, hread, hrest⟩ := ht.step hdata (dvd_zero 64)
        (fun hdyn => hbare ⟨_, List.mem_cons_self, hdyn⟩) h
      have hfield : decodeData ⟨name, t.text, false⟩ data word = ⟨name, t.render vs.1⟩ := by
        rw [AbiType.readHead, min_eq_left hword] at hread
        unfold decodeData
        split
        · next hdyn => rw [if_pos hdyn] at hread; rw [hread]
        · next hdyn => rw [if_neg hdyn] at hread; rw [hread]
      have hbare' : (∃ p ∈ dataParts inputs vs.2, p.dynamic = true) →
          ¬"0x".toList.isPrefixOf data = true := by
        rintro ⟨p, hp, hdyn⟩
        exact hbare ⟨p, List.mem_cons_of_mem _ hp, hdyn⟩
      exact congrArg₂ List.cons hfield (ih vs.2 hothers hbare' hrest)

/-- **Decoding is the inverse of encoding**: each input is answered with the rendering of its
value, whatever follows in the data. -/
theorem decodeLog_encode (name signature : Text) (inputs : List Input) (vs : Values inputs)
    (rest : Text) (hnarrow : ∀ input ∈ inputs, input.Narrow)
    (hsize : (encodeData inputs vs ++ rest).length ≤ u64Max) :
    decodeLog (eventOf name inputs) (signature :: topics inputs vs)
      ("0x".toList ++ (encodeData inputs vs ++ rest)) = ⟨name, reference inputs vs⟩ := by
  have hplaced : Placed (encodeData inputs vs) 0 (encodeData inputs vs ++ rest) :=
    ⟨[], rest, rfl, rfl⟩
  have hlaid := laid_layout AbiType.length_offsetWord
    (forall_dataParts (fun t v => t.dvd_length_encode v) inputs vs) hplaced
  have hbare : (∃ p ∈ dataParts inputs vs, p.dynamic = true) →
      ¬"0x".toList.isPrefixOf (encodeData inputs vs ++ rest) = true := by
    rintro ⟨p, hp, hdyn⟩
    have hlen : 64 ≤ (encodeData inputs vs).length :=
      size_le_length_layout AbiType.length_offsetWord hp hdyn
    refine Text.not_isPrefixOf_of_notMem ?_ (by omega)
    exact AbiType.x_notMem_sequence (forall_dataParts (fun t v => t.x_notMem_encode v) inputs vs)
  have hfields := decodeInputs_laid vs hnarrow hsize hbare (Nat.zero_mul 64 ▸ hlaid)
  unfold decodeLog
  rw [if_pos (List.isPrefixOf_iff_prefix.2 (List.prefix_append _ _))]
  exact congrArg (DecodedLog.mk name) hfields

/-- Who sends, and what they have to say. -/
def noteInputs : List Input :=
  [.indexed "from".toList .address, .data "notes".toList (.slice .string)]

def noteValues : Values noteInputs := (5#160, ⟨[⟨[97, 98]⟩], by decide⟩, ())

theorem decodeLog_encode_note :
    decodeLog (eventOf "Note".toList noteInputs) ([] :: topics noteInputs noteValues)
      ("0x".toList ++ (encodeData noteInputs noteValues ++ "00".toList)) =
        ⟨"Note".toList, reference noteInputs noteValues⟩ :=
  decodeLog_encode _ _ _ _ _ (by simp [noteInputs, Input.Narrow, AbiType.Narrow])
    (by decide +kernel)

/-! ### Tuples that are too wide -/

/-- Truth values, all of them false. -/
def falses : (n : Nat) → AbiType.Vals (List.replicate n (.value .bool))
  | 0 => ()
  | n + 1 => (0#1, falses n)

/-- A tuple of so many of them. -/
def flagInputs (n : Nat) : List Input :=
  [.data "flags".toList (.tuple (List.replicate n (.value .bool)))]

def flagValues (n : Nat) : Values (flagInputs n) := (falses n, ())

/-- Their type has no offset, and is of one word for each. -/
theorem flags_static (n : Nat) :
    AbiType.anyDynamic (List.replicate n (.value .bool)) = false ∧
      AbiType.wordsList (List.replicate n (.value .bool)) = n := by
  induction n with
  | zero => exact ⟨rfl, rfl⟩
  | succ n ih =>
    refine ⟨ih.1, ?_⟩
    rw [List.replicate_succ, AbiType.wordsList, ih.2, AbiType.words]
    · exact Nat.add_comm 1 n
    · simp
    · simp

theorem renderList_falses (n : Nat) :
    AbiType.renderList _ (falses n) = List.replicate n "false".toList := by
  induction n with
  | zero => rfl
  | succ n ih => exact congrArg₂ List.cons rfl ih

/-- The longer the array, the longer its text. -/
theorem length_joinJsonArray_falses (n : Nat) :
    (joinJsonArray (List.replicate (n + 1) "false".toList)).length = 8 * n + 9 := by
  have hjoin : ([','].intercalate (List.replicate (n + 1) "\"false\"".toList)).length = 8 * n + 7 := by
    induction n with
    | zero => rfl
    | succ n ih =>
      rw [List.replicate_succ, List.replicate_succ, List.intercalate_cons_cons, ← List.replicate_succ,
        List.length_append, List.length_append, ih]
      change 7 + 1 + _ = _
      omega
  have hitem : jsonItem "false".toList = "\"false\"".toList := rfl
  rw [joinJsonArray, List.map_replicate, hitem, List.length_append, List.length_cons, hjoin]
  rfl

theorem reference_flags (n : Nat) : reference (flagInputs n) (flagValues n) =
    [⟨"flags".toList, joinJsonArray (List.replicate n "false".toList)⟩] := by
  have hrender : reference (flagInputs n) (flagValues n) =
      [⟨"flags".toList, joinJsonArray (AbiType.renderList _ (falses n))⟩] := rfl
  rw [hrender, renderList_falses]

/-- The data is the encoding of the tuple, and of one word for each member. -/
theorem encodeData_flags (n : Nat) :
    encodeData (flagInputs n) (flagValues n) = AbiType.sequence (AbiType.parts _ (falses n)) ∧
      (encodeData (flagInputs n) (flagValues n)).length = 64 * n := by
  have hstatic : (AbiType.tuple (List.replicate n (.value .bool))).isDynamic = false := by
    rw [AbiType.isDynamic]
    exact (flags_static n).1
  have hparts : dataParts (flagInputs n) (flagValues n) =
      [⟨(AbiType.tuple (List.replicate n (.value .bool))).isDynamic,
        AbiType.encode (.tuple _) (falses n)⟩] := rfl
  have hone : ∀ s : Text, AbiType.sequence [⟨false, s⟩] = s := by
    intro s
    simp [AbiType.sequence, layout, heads, tails]
  have hdata : encodeData (flagInputs n) (flagValues n) = AbiType.encode (.tuple _) (falses n) := by
    rw [encodeData, hparts, hstatic, hone]
  refine ⟨hdata.trans (AbiType.encode_tuple _ _), ?_⟩
  have hwords := AbiType.length_encode _ hstatic (falses n)
  rw [AbiType.words, (flags_static n).2] at hwords
  rw [hdata]
  exact hwords

/-- Of the members the first are read. -/
theorem decodeLog_flags {n : Nat} (hn : 64 * n ≤ u64Max) :
    decodeLog (eventOf "Flags".toList (flagInputs n)) ([] :: topics (flagInputs n) (flagValues n))
      ("0x".toList ++ encodeData (flagInputs n) (flagValues n)) = ⟨"Flags".toList,
        [⟨"flags".toList, joinJsonArray (List.replicate (min maxArrayLen n) "false".toList)⟩]⟩ := by
  obtain ⟨hdata, hlen⟩ := encodeData_flags n
  have hstatic : (AbiType.tuple (List.replicate n (.value .bool))).isDynamic = false := by
    rw [AbiType.isDynamic]
    exact (flags_static n).1
  generalize encodeData (flagInputs n) (flagValues n) = data at hdata hlen ⊢
  have hplaced : Placed (AbiType.sequence (AbiType.parts _ (falses n))) 0 data :=
    ⟨[], [], rfl, hdata.trans (List.append_nil _).symm⟩
  have hbool : ∀ t ∈ List.replicate n (AbiType.value .bool), t.Reads := fun t ht => by
    rw [List.eq_of_mem_replicate ht]
    exact AbiType.reads_value .bool
  have hbody := AbiType.decodeLogTuple_placed hbool (hlen.trans_le hn) (dvd_zero 64)
    (fun hdyn => by cases (flags_static n).1.symm.trans hdyn) _ hplaced
  rw [renderList_falses, List.take_replicate] at hbody
  have hfield : decodeData ⟨"flags".toList, (AbiType.tuple (List.replicate n (.value .bool))).text,
      false⟩ data 0 =
        ⟨"flags".toList, joinJsonArray (List.replicate (min maxArrayLen n) "false".toList)⟩ := by
    rw [decodeData, AbiType.isDynamicType_text, hstatic, if_neg Bool.false_ne_true,
      AbiType.decodeStaticType_tuple _ _ (Nat.zero_le _), Nat.zero_mul, hbody]
  unfold decodeLog
  rw [if_pos (List.isPrefixOf_iff_prefix.2 (List.prefix_append _ _)), drop_hexPrefix]
  exact congrArg (fun field => DecodedLog.mk "Flags".toList [field]) hfield

/-- **Of a tuple with more members than an array may have elements, the last are not
read.** -/
theorem decodeLog_wide :
    (encodeData (flagInputs 1025) (flagValues 1025)).length ≤ u64Max ∧
      decodeLog (eventOf "Flags".toList (flagInputs 1025))
        ([] :: topics (flagInputs 1025) (flagValues 1025))
        ("0x".toList ++ encodeData (flagInputs 1025) (flagValues 1025)) ≠
          ⟨"Flags".toList, reference (flagInputs 1025) (flagValues 1025)⟩ := by
  refine ⟨(encodeData_flags 1025).2.trans_le (by decide), fun h => ?_⟩
  rw [decodeLog_flags (by decide), reference_flags] at h
  have hvalue := (DecodedField.mk.inj (List.cons.inj (DecodedLog.mk.inj h).2).1).2
  have hlength := congrArg List.length hvalue
  have hmin : min maxArrayLen 1025 = 1023 + 1 := rfl
  rw [hmin, length_joinJsonArray_falses 1023, length_joinJsonArray_falses 1024] at hlength
  exact absurd hlength (by decide)

end Decode

end Zponder

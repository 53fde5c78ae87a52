import Zponder.EventTables

/-!
# Rows of the event tables

What the backends with tables do with a contract that is new to them. The tables that are made
are found from the ABI alone (`Zponder.EventTables.createAll_eq_some_iff`), a row that is inserted
has a cell for every column, and what is written of a row is read again as its members
(`Zponder.EventTables.readRows_rowText`), since a value that was decoded is never a number
(`Zponder.EventTables.numeral_value`).
-/

namespace Zponder

namespace Decode

/-! ### No value is a number -/

/-- A text with a character no number has. -/
def Marked (s : Text) : Prop := ∃ c ∈ s, c = 'x' ∨ c = 't' ∨ c = 'f' ∨ c = '['

theorem marked_hex (s : Text) : Marked ("0x".toList ++ s) := ⟨'x', by simp, .inl rfl⟩

theorem marked_empty : Marked empty := ⟨'x', by decide, .inl rfl⟩

theorem marked_joinJsonArray (items : List Text) : Marked (joinJsonArray items) :=
  ⟨'[', List.mem_cons_self, by simp⟩

theorem marked_decodeStaticValue (abiType hexWord : Text) :
    Marked (decodeStaticValue abiType hexWord) := by
  have hwhole : Marked
      (if "0x".toList.isPrefixOf hexWord then hexWord else "0x".toList ++ hexWord) := by
    split
    · next h =>
      obtain ⟨t, rfl⟩ := List.isPrefixOf_iff_prefix.1 h
      exact marked_hex t
    · exact marked_hex hexWord
  unfold decodeStaticValue
  dsimp only
  split
  · split
    · exact marked_hex _
    · exact hwhole
  · split
    · split
      · exact ⟨'t', by decide, by simp⟩
      · exact ⟨'f', by decide, by simp⟩
    · split
      · split
        · exact marked_hex _
        · exact hwhole
      · exact hwhole

theorem marked_decodeArray (inner : Text) (count : Nat) (hexData : Text) (startHex : Nat)
    (headsAreOffsets : Bool) :
    Marked (decodeArray inner count hexData startHex headsAreOffsets) := by
  rw [decodeArray]
  split
  · exact marked_empty
  · split
    · exact marked_joinJsonArray _
    · split
      · exact marked_empty
      · exact marked_joinJsonArray _

theorem marked_decodeLogTuple (inner hexData : Text) (baseHex : Nat) :
    Marked (decodeLogTuple inner hexData baseHex) := by
  rw [decodeLogTuple]
  split
  · exact marked_empty
  · exact marked_joinJsonArray _

theorem marked_decodeStaticType (abiType hexData : Text) (wordIndex : Nat) :
    Marked (decodeStaticType abiType hexData wordIndex) := by
  rw [decodeStaticType]
  split
  · split
    · exact marked_empty
    · split
      · exact marked_empty
      · exact marked_decodeArray _ _ _ _ _
  · split
    · split
      · exact marked_empty
      · exact marked_decodeLogTuple _ _ _
    · split
      · exact ⟨'x', by decide, .inl rfl⟩
      · exact marked_decodeStaticValue _ _

theorem marked_decodeDynamicValue (data : Text) (offsetHex : Nat) :
    Marked (decodeDynamicValue data offsetHex) := by
  unfold decodeDynamicValue
  generalize (if "0x".toList.isPrefixOf data then data.drop 2 else data) = hexData
  dsimp only
  split
  · exact marked_empty
  · split
    · exact marked_empty
    · split
      · exact marked_empty
      · exact marked_hex _

theorem marked_decodeDynamicPayload (abiType hexData : Text) (offsetHex : Nat) :
    Marked (decodeDynamicPayload abiType hexData offsetHex) := by
  rw [decodeDynamicPayload]
  split
  · exact marked_decodeDynamicValue _ _
  · split
    · exact marked_decodeLogTuple _ _ _
    · split
      · exact marked_empty
      · split
        · exact marked_decodeArray _ _ _ _ _
        · split
          · exact marked_empty
          · dsimp only
            split
            · exact marked_empty
            · exact marked_decodeArray _ _ _ _ _

theorem marked_decodeTopic (input : EventInput) (topic : Text) :
    Marked (decodeTopic input topic).value := by
  unfold decodeTopic
  split
  · exact ⟨'x', by simp, .inl rfl⟩
  · exact marked_decodeStaticValue _ _

theorem marked_decodeData (input : EventInput) (hexData : Text) (dataWordIdx : Nat) :
    Marked (decodeData input hexData dataWordIdx).value := by
  unfold decodeData
  split
  · cases followOffset hexData 0 (dataWordIdx * 64) with
    | none => exact marked_empty
    | some offset => exact marked_decodeDynamicPayload _ _ _
  · exact marked_decodeStaticType _ _ _

theorem marked_decodeInputs {hexData : Text} {inputs : List EventInput} {topics : List Text}
    {dataWordIdx : Nat} {f : DecodedField} (hf : f ∈ decodeInputs hexData topics dataWordIdx inputs) :
    Marked f.value := by
  induction inputs generalizing topics dataWordIdx with
  | nil => cases hf
  | cons input inputs ih =>
    unfold decodeInputs at hf
    split at hf
    · cases topics with
      | nil => exact ih hf
      | cons topic topics =>
        rcases List.mem_cons.1 hf with rfl | hf
        · exact marked_decodeTopic _ _
        · exact ih hf
    · rcases List.mem_cons.1 hf with rfl | hf
      · exact marked_decodeData _ _ _
      · exact ih hf

end Decode

namespace EventTables

open Decode (Event EventInput)

open JsonRows (Value Row)

variable {d : Dialect} {sql : Sql} {contractName : Text}

/-- **A value that was decoded is not a number.** -/
theorem numeral_value {r : Received} {f : DecodedField} (hf : f ∈ r.fields) :
    numeral f.value = false := by
  obtain ⟨c, hc, h⟩ := Decode.marked_decodeInputs hf
  rw [numeral, List.all_eq_false]
  refine ⟨c, hc, ?_⟩
  rcases h with rfl | rfl | rfl | rfl <;> decide

/-! ### The tables that are made -/

section Make

variable (d contractName) in
/-- The event has the table of that name. -/
def hasTable (t : Text) (e : Event) : Bool := decide (tableOf d contractName e.name = t)

variable (d contractName) in
/-- Making the table of an event does not fail: if it is the first with the table, the table
can be made. -/
structure Makable (all : List Event) (e : Event) : Prop where
  named : Named contractName e.name
  creatable : all.find? (hasTable d contractName (tableOf d contractName e.name)) = some e →
    Creatable d e

variable (d contractName) in
/-- **The event a table is made for**: the first of those with the table. No event up to
it fails. -/
structure Makes (es : List Event) (t : Text) (e : Event) : Prop where
  found : es.find? (hasTable d contractName t) = some e
  before : ∀ e' ∈ es.takeWhile (fun e => !hasTable d contractName t e) ++ [e],
    Makable d contractName es e'

variable (d contractName) in
/-- What is in the database when some of the events have been gone through. -/
structure Seen (base : Database) (seen : List Event) (db : Database) : Prop where
  tables : ∀ t, db.tables t =
    (seen.find? (hasTable d contractName t)).elim (base.tables t) fun e => some (newTable d e)
  creatable : ∀ e, seen.find? (hasTable d contractName (tableOf d contractName e.name)) = some e →
    Creatable d e

/-- A table that is there stays as it is. -/
theorem createAll_of_some {es : List Event} {db : Database} {t : Text} {T : Table}
    (h : db.tables t = some T) : (createAll d contractName es db).tables t = some T := by
  induction es generalizing db with
  | nil => exact h
  | cons e es ih =>
    rw [createAll]
    split
    · exact h
    · next db' hdb' =>
      refine ih ?_
      unfold createEventTable at hdb'
      split at hdb'
      · split at hdb'
        · exact Option.some.inj hdb' ▸ h
        · next hnone =>
          split at hdb'
          · obtain rfl := Option.some.inj hdb'
            have hne : t ≠ tableOf d contractName e.name := by
              rintro rfl
              rw [h] at hnone
              exact hnone rfl
            rw [Database.setTable_of_ne db _ hne, h]
          · cases hdb'
      · cases hdb'

theorem hasTable_self (e : Event) :
    hasTable d contractName (tableOf d contractName e.name) e = true := decide_eq_true rfl

/-- One more event has been gone through. -/
theorem Seen.step {base db : Database} {seen : List Event} {e : Event}
    (h : Seen d contractName base seen db)
    (hbase : base.tables (tableOf d contractName e.name) = none) :
    (∃ db', createEventTable d contractName e db = some db' ∧
        Seen d contractName base (seen ++ [e]) db' ∧
        Named contractName e.name) ∨
      createEventTable d contractName e db = none ∧
        ¬(Named contractName e.name ∧
          (seen.find? (hasTable d contractName (tableOf d contractName e.name)) = none →
            Creatable d e)) := by
  have htable := h.tables (tableOf d contractName e.name)
  rw [hbase] at htable
  by_cases hnamed : Named contractName e.name
  · cases hfind : seen.find? (hasTable d contractName (tableOf d contractName e.name)) with
    | some e₀ =>
      -- the table is there
      rw [hfind] at htable
      refine .inl ⟨db, ?_, ⟨fun t => ?_, fun e₁ he₁ => ?_⟩, hnamed⟩
      · rw [createEventTable, if_pos hnamed, if_pos (by rw [htable]; rfl)]
      · rw [h.tables t, List.find?_append]
        cases hseen : seen.find? (hasTable d contractName t) with
        | some e₁ => rfl
        | none =>
          have hno : hasTable d contractName t e = false := by
            by_contra hyes
            rw [Bool.not_eq_false] at hyes
            have heq : tableOf d contractName e.name = t := of_decide_eq_true hyes
            rw [heq, hseen] at hfind
            cases hfind
          simp [hno]
      · refine h.creatable e₁ ?_
        rw [List.find?_append] at he₁
        cases hseen : seen.find? (hasTable d contractName (tableOf d contractName e₁.name)) with
        | some e₂ =>
          rw [hseen] at he₁
          exact he₁
        | none =>
          rw [hseen, Option.none_or, List.find?_singleton] at he₁
          split at he₁
          · obtain rfl := Option.some.inj he₁
            rw [hfind] at hseen
            cases hseen
          · cases he₁
    | none =>
      rw [hfind] at htable
      by_cases hcreate : Creatable d e
      · refine .inl ⟨db.setTable (tableOf d contractName e.name) (newTable d e), ?_,
          ⟨fun t => ?_, fun e₁ he₁ => ?_⟩, hnamed⟩
        · rw [createEventTable, if_pos hnamed, if_neg (by rw [htable]; exact Bool.false_ne_true),
            if_pos hcreate]
        · rw [List.find?_append]
          by_cases ht : t = tableOf d contractName e.name
          · subst ht
            rw [Database.setTable_self, hfind, Option.none_or, List.find?_singleton, hasTable_self]
            rfl
          · have hno : hasTable d contractName t e = false := decide_eq_false (Ne.symm ht)
            rw [Database.setTable_of_ne db _ ht, h.tables t]
            simp [hno]
        · rw [List.find?_append] at he₁
          cases hseen : seen.find? (hasTable d contractName (tableOf d contractName e₁.name)) with
          | some e₂ =>
            rw [hseen] at he₁
            exact h.creatable e₁ (hseen.trans he₁)
          | none =>
            rw [hseen, Option.none_or, List.find?_singleton] at he₁
            split at he₁
            · exact Option.some.inj he₁ ▸ hcreate
            · cases he₁
      · refine .inr ⟨?_, fun hall => hcreate (hall.2 rfl)⟩
        rw [createEventTable, if_pos hnamed, if_neg (by rw [htable]; exact Bool.false_ne_true),
          if_neg hcreate]
  · exact .inr ⟨if_neg hnamed, fun hall => hnamed hall.1⟩

/-- The table of an event that was not seen yet, if there is one in the end. -/
theorem Seen.createAll_iff {base db : Database} {seen es : List Event} {t : Text} {T : Table}
    (h : Seen d contractName base seen db)
    (hbase : ∀ e ∈ es, base.tables (tableOf d contractName e.name) = none)
    (ht : base.tables t = none) (hseen : seen.find? (hasTable d contractName t) = none) :
    (createAll d contractName es db).tables t = some T ↔
      ∃ e, es.find? (hasTable d contractName t) = some e ∧ T = newTable d e ∧
        ∀ e' ∈ es.takeWhile (fun e => !hasTable d contractName t e) ++ [e],
          Makable d contractName (seen ++ es) e' := by
  induction es generalizing seen db with
  | nil =>
    rw [createAll, h.tables t, hseen, ht]
    simp
  | cons e es ih =>
    have htake : e ∈ (e :: es).takeWhile (fun e => !hasTable d contractName t e) ∨
        (e :: es).find? (hasTable d contractName t) = some e := by
      cases hhas : hasTable d contractName t e <;> simp [hhas]
    rw [createAll]
    rcases h.step (hbase e List.mem_cons_self) with ⟨db', hdb', hstep, hnamed⟩ | ⟨hnone, hbad⟩
    · rw [hdb']
      dsimp only
      -- if the event is the first of its table, the table was made just now
      have hself : Makable d contractName (seen ++ e :: es) e := by
        refine ⟨hnamed, fun hfirst => hstep.creatable e ?_⟩
        rw [← List.singleton_append, ← List.append_assoc, List.find?_append] at hfirst
        cases hfind : (seen ++ [e]).find? (hasTable d contractName
            (tableOf d contractName e.name)) with
        | some e₁ =>
          rw [hfind] at hfirst
          exact hfirst
        | none =>
          rw [List.find?_append, List.find?_singleton, hasTable_self] at hfind
          simp at hfind
      cases hhas : hasTable d contractName t e with
      | true =>
        have hmade : db'.tables t = some (newTable d e) := by
          rw [hstep.tables t, List.find?_append, hseen, Option.none_or, List.find?_singleton, hhas]
          rfl
        rw [createAll_of_some hmade, List.find?_cons_of_pos hhas]
        constructor
        · intro hT
          refine ⟨e, rfl, (Option.some.inj hT).symm, fun e' he' => ?_⟩
          rw [List.takeWhile_cons_of_neg (by simp [hhas])] at he'
          exact List.mem_singleton.1 he' ▸ hself
        · rintro ⟨e', he', rfl, -⟩
          rw [Option.some.inj he']
      | false =>
        have hseen' : (seen ++ [e]).find? (hasTable d contractName t) = none := by
          simp [List.find?_append, hseen, hhas]
        rw [ih hstep (fun e' he' => hbase e' (List.mem_cons_of_mem e he')) hseen',
          List.find?_cons_of_neg (by simp [hhas]), List.takeWhile_cons_of_pos (by simp [hhas]),
          List.append_assoc, List.singleton_append]
        refine exists_congr fun e₁ => and_congr_right fun _ => and_congr_right fun _ => ?_
        rw [List.cons_append, List.forall_mem_cons]
        exact (and_iff_right hself).symm
    · rw [hnone]
      dsimp only
      rw [h.tables t, hseen, ht]
      refine iff_of_false (by simp) ?_
      rintro ⟨e₁, hfind, -, hall⟩
      have hmem : e ∈ (e :: es).takeWhile (fun e => !hasTable d contractName t e) ++ [e₁] := by
        rcases htake with htake | hfirst
        · exact List.mem_append_left _ htake
        · rw [hfind] at hfirst
          exact List.mem_append_right _ (List.mem_singleton.2 (Option.some.inj hfirst).symm)
      have hmakable := hall e hmem
      refine hbad ⟨hmakable.named, fun hfind => hmakable.creatable ?_⟩
      rw [List.find?_append, hfind, Option.none_or, List.find?_cons_of_pos (hasTable_self e)]

/-- **The tables that are made**, where there are none yet. -/
theorem createAll_eq_some_iff {db : Database} {es : List Event} {t : Text} {T : Table}
    (hbase : ∀ e ∈ es, db.tables (tableOf d contractName e.name) = none)
    (ht : db.tables t = none) :
    (createAll d contractName es db).tables t = some T ↔
      ∃ e, Makes d contractName es t e ∧ T = newTable d e := by
  have hseen : Seen d contractName db [] db :=
    ⟨fun t => rfl, fun e he => by cases he⟩
  rw [hseen.createAll_iff hbase ht rfl]
  refine exists_congr fun e => ?_
  constructor
  · rintro ⟨hfind, hT, hall⟩
    exact ⟨⟨hfind, hall⟩, hT⟩
  · rintro ⟨hmakes, hT⟩
    exact ⟨hmakes.found, hT, hmakes.before⟩

end Make

/-! ### Names of columns -/

section Column

/-- A character that is written as it is. -/
def Plain (c : Char) : Prop := Text.escapeChar c = [c]

instance (c : Char) : Decidable (Plain c) := by
  unfold Plain
  infer_instance

theorem columnChar_spec (c : Char) :
    Plain (columnChar c) ∧ (columnChar c).toLower = columnChar c ∧ (columnChar c).toNat < 128 := by
  unfold columnChar
  split
  · next halnum =>
    have hlt : c.toNat < 128 := by
      simp only [Char.isAlphanum, Char.isAlpha, Char.isUpper, Char.isLower, Char.isDigit,
        Bool.or_eq_true, Bool.and_eq_true, decide_eq_true_eq, ge_iff_le] at halnum
      have hnat : c.toNat = c.val.toNat := rfl
      have hZ : 'Z'.val.toNat = 90 := rfl
      have hz : 'z'.val.toNat = 122 := rfl
      have h9 : '9'.val.toNat = 57 := rfl
      simp only [UInt32.le_iff_toNat_le] at halnum
      omega
    have hall : ∀ n < 128, (Char.ofNat n).isAlphanum = true →
        Plain (Char.ofNat n).toLower ∧ (Char.ofNat n).toLower.toLower = (Char.ofNat n).toLower ∧
          (Char.ofNat n).toLower.toNat < 128 := by
      decide
    have := hall c.toNat hlt
    rw [Char.ofNat_toNat] at this
    exact this halnum
  · decide

theorem eventColumnName_spec (name : Text) :
    ∀ c ∈ eventColumnName name, Plain c ∧ c.toLower = c ∧ c.toNat < 128 := by
  have hevt : ∀ c ∈ ['e', 'v', 't', '_'], Plain c ∧ c.toLower = c ∧ c.toNat < 128 := by
    intro c hc
    simp only [List.mem_cons, List.not_mem_nil, or_false] at hc
    rcases hc with rfl | rfl | rfl | rfl <;> exact ⟨rfl, rfl, by decide⟩
  intro c hc
  rcases List.mem_append.1 hc with hc | hc
  · exact hevt c hc
  · obtain ⟨c, -, rfl⟩ := List.mem_map.1 hc
    exact columnChar_spec c

theorem clip_ascii {s : Text} (h : ∀ c ∈ s, c.toNat < 128) : clip s = s.take 63 := by
  unfold clip
  split
  · next hlen => rw [List.take_of_length_le hlen]
  · next hlen =>
    have hdrop : (s.take 64).reverse.dropWhile (fun c => c.toNat / 64 == 2) =
        (s.take 64).reverse := by
      rw [List.dropWhile_eq_self_iff]
      intro hpos
      have hmem := List.getElem_mem hpos
      have := h _ (List.mem_of_mem_take (List.mem_reverse.1 hmem))
      simp only [beq_iff_eq]
      omega
    have hmin : min (min 64 s.length - 1) 64 = 63 := by omega
    rw [hdrop, List.tail_reverse, List.reverse_reverse, List.dropLast_eq_take, List.take_take,
      List.length_take, hmin]

/-- The name of a column begins as all of them do. -/
theorem column_eq (name : Text) : ∃ s, column d name = 'e' :: s ∧ ∀ c ∈ 'e' :: s, Plain c := by
  have hspec := eventColumnName_spec name
  have hlower : Text.lower (eventColumnName name) = eventColumnName name :=
    (List.map_congr_left fun c hc => (hspec c hc).2.1).trans (List.map_id _)
  obtain ⟨s, hs⟩ : ∃ s, eventColumnName name = 'e' :: s := ⟨_, rfl⟩
  rw [hs] at hspec hlower
  cases d with
  | sqlite =>
    rw [column, Dialect.fold, hs, hlower]
    exact ⟨s, rfl, fun c hc => (hspec c hc).1⟩
  | postgresql =>
    rw [column, Dialect.fold, hs, hlower, clip_ascii fun c hc => (hspec c hc).2.2,
      List.take_succ_cons]
    refine ⟨s.take 62, rfl, fun c hc => (hspec c ?_).1⟩
    exact List.mem_of_mem_take (i := 63) (by rwa [List.take_succ_cons])

end Column

/-! ### Cells -/

section Cell

/-- No byte is lost on the way back. -/
theorem cut_eq_self {s : Text} (h : Char.ofNat 0 ∉ s) : cut s = s :=
  List.takeWhile_eq_self_iff.2 fun _ hc => decide_eq_true fun h0 => h (h0 ▸ hc)

theorem notMem_cut (s : Text) : Char.ofNat 0 ∉ cut s := by
  intro h
  have hne := List.mem_takeWhile_imp h
  simp at hne

theorem cut_bound (s : Text) : cut (d.bound s) = cut s := by
  cases d with
  | sqlite => rfl
  | postgresql => exact cut_eq_self (notMem_cut s)

/-- What a column keeps of a value that was decoded. -/
theorem keep_eq {r : Received} {f : DecodedField} (hf : f ∈ r.fields) {type : SqlType} {v : Value}
    (h : keep d sql type f.value = some v) :
    (v = .text (d.bound f.value) ∧ (d = .postgresql → type = .text)) ∨
      d = .postgresql ∧ type = .integer ∧ ∃ s, sql.integer (cut f.value) = some s ∧ v = .text s := by
  cases type with
  | text => exact .inl ⟨(Option.some.inj h).symm, fun _ => rfl⟩
  | integer =>
    cases d with
    | sqlite =>
      rw [keep, numeral_value hf] at h
      exact .inl ⟨(Option.some.inj h).symm, fun hd => by cases hd⟩
    | postgresql =>
      obtain ⟨s, hs, rfl⟩ := Option.map_eq_some_iff.1 h
      exact .inr ⟨rfl, rfl, s, hs, rfl⟩

theorem fst_cell {fields : List DecodedField} {col : Text × SqlType} {c : Text × Value}
    (h : cell d sql fields col = some c) : c.1 = col.1 := by
  unfold cell at h
  split at h
  · exact Option.some.inj h ▸ rfl
  · obtain ⟨v, -, rfl⟩ := Option.map_eq_some_iff.1 h
    rfl

/-- A cell is empty or keeps the value of a field of its column. -/
theorem cell_spec {fields : List DecodedField} {col : Text × SqlType} {c : Text × Value}
    (h : cell d sql fields col = some c) :
    c.2 = .null ∨ ∃ f ∈ fields, column d f.name = col.1 ∧ keep d sql col.2 f.value = some c.2 := by
  unfold cell at h
  split at h
  · exact .inl (Option.some.inj h ▸ rfl)
  · next f hf =>
    obtain ⟨v, hv, rfl⟩ := Option.map_eq_some_iff.1 h
    exact .inr ⟨f, List.mem_of_find?_eq_some hf, of_decide_eq_true (List.find?_some hf :), hv⟩

end Cell

/-! ### What is written of a row -/

section Written

theorem escapes_escapeChar : JsonRows.Escapes Text.escapeChar := by
  intro c s
  have hunicode : ∀ n < 32, JsonRows.codePoint ('0' :: '0' :: Text.hexDigits n) =
      some [Char.ofNat n] := by
    decide
  unfold Text.escapeChar
  split
  · next h => subst h; rfl
  · split
    · next h => subst h; rfl
    · split
      · next h => subst h; rfl
      · split
        · next h => subst h; rfl
        · split
          · next h => subst h; rfl
          · next hback hquote _ _ _ =>
            split
            · next hlow =>
              have := hunicode c.toNat (by omega)
              rw [Char.ofNat_toNat] at this
              change (JsonRows.codePoint ('0' :: '0' :: Text.hexDigits c.toNat)).bind _ = _
              rw [this]
              rfl
            · next hlow =>
              rw [List.singleton_append, JsonRows.readString, if_neg hquote, if_neg hback,
                if_neg (by omega)]

/-- The name of a member is written as it is. -/
def PlainName (m : Text × Value) : Prop := ∀ c ∈ m.1, Plain c

theorem rowMember_eq {m : Text × Value} (h : PlainName m) :
    rowMember m = JsonRows.member Text.escapeChar m := by
  have hname : m.1.flatMap Text.escapeChar = m.1 := by
    rw [List.flatMap_congr h]
    exact List.flatMap_singleton' m.1
  rw [rowMember, JsonRows.member, JsonRows.quoted, hname]
  simp

theorem numeric_number (n : Nat) : (d.number n).Numeric := by
  cases d with
  | postgresql => exact trivial
  | sqlite =>
    have hdigits : (toString n).toList = Nat.toDigits 10 n := Nat.toList_repr
    rw [Dialect.number, hdigits]
    refine ⟨Nat.toDigits_ne_nil, fun c hc => ?_⟩
    rw [JsonRows.isNumeric, Nat.isDigit_of_mem_toDigits (by decide) (by decide) hc]
    rfl

/-- The columns every event has. -/
def ownNames : List Text :=
  ["id".toList, "block_number".toList, "tx_hash".toList, "log_index".toList,
    "contract_address".toList, "created_at".toList]

theorem plain_ownNames : ∀ n ∈ ownNames, ∀ c ∈ n, Plain c := by
  have hsame : ∀ n ∈ ownNames, n.map columnChar = n := by decide +kernel
  intro n hn c hc
  rw [← hsame n hn] at hc
  obtain ⟨c, -, rfl⟩ := List.mem_map.1 hc
  exact (columnChar_spec c).1

theorem head?_ownNames : ∀ n ∈ ownNames, n.head? ≠ some 'e' := by decide +kernel

/-- No input has a column of such a name. -/
theorem column_ne_own {name n : Text} (h : n ∈ ownNames) : column d name ≠ n := by
  rintro rfl
  obtain ⟨s, hs, -⟩ := column_eq (d := d) name
  exact head?_ownNames _ h (by rw [hs]; rfl)

theorem ownMembers_spec {row : TableRow} {m : Text × Value} (hm : m ∈ ownMembers d sql row) :
    m.1 ∈ ownNames ∧ m.2.Numeric := by
  simp only [ownMembers, List.mem_cons, List.not_mem_nil, or_false] at hm
  constructor
  · rcases hm with rfl | rfl | rfl | rfl | rfl <;> simp [ownNames]
  · rcases hm with rfl | rfl | rfl | rfl | rfl
    · exact numeric_number _
    · exact trivial
    · exact numeric_number _
    · exact trivial
    · exact trivial

/-- A member is that of a cell, or one that every event has. -/
theorem mem_members {row : TableRow} {m : Text × Value} (hm : m ∈ members d sql row) :
    (∃ c ∈ row.cells, m = (c.1, shown c.2)) ∨ m.1 ∈ ownNames ∧ m.2.Numeric := by
  rw [members, List.cons_append, List.mem_cons, List.mem_append] at hm
  rcases hm with rfl | hm | hm
  · exact .inr ⟨by simp [ownNames], numeric_number _⟩
  · obtain ⟨c, hc, rfl⟩ := List.mem_map.1 hm
    exact .inl ⟨c, hc, rfl⟩
  · exact .inr (ownMembers_spec hm)

variable (d sql) in
/-- The row of a log, but for its number. -/
structure FromLog (columns : List (Text × SqlType)) (r : Received) (row : TableRow) : Prop where
  cells : row.cells = columns.filterMap (cell d sql r.fields)
  total : ∀ col ∈ columns, (cell d sql r.fields col).isSome = true
  txHash : row.txHash = d.bound r.log.transactionHash
  logIndex : row.logIndex = r.log.logIndex
  contractAddress : row.contractAddress = d.bound r.log.address

variable (d) in
/-- The columns are named after inputs. -/
def ColumnNames (columns : List (Text × SqlType)) : Prop :=
  ∀ col ∈ columns, ∃ name, col.1 = column d name

variable {columns : List (Text × SqlType)} {r : Received} {row : TableRow}

theorem FromLog.mem_cells (h : FromLog d sql columns r row) {c : Text × Value} :
    c ∈ row.cells ↔ ∃ col ∈ columns, cell d sql r.fields col = some c := by
  rw [h.cells, List.mem_filterMap]

/-- The name of a cell is that of an input. -/
theorem FromLog.cell_name (h : FromLog d sql columns r row) (hcol : ColumnNames d columns)
    {c : Text × Value} (hc : c ∈ row.cells) : ∃ name, c.1 = column d name := by
  obtain ⟨col, hmem, hcell⟩ := h.mem_cells.1 hc
  rw [fst_cell hcell]
  exact hcol col hmem

/-- The value of a cell is empty or a text. -/
theorem FromLog.cell_value (h : FromLog d sql columns r row) {c : Text × Value}
    (hc : c ∈ row.cells) : c.2 = .null ∨ ∃ s, c.2 = .text s := by
  obtain ⟨col, -, hcell⟩ := h.mem_cells.1 hc
  rcases cell_spec hcell with hnull | ⟨f, hf, -, hkeep⟩
  · exact .inl hnull
  · rcases keep_eq hf hkeep with ⟨hv, -⟩ | ⟨-, -, s, -, hv⟩
    · exact .inr ⟨_, hv⟩
    · exact .inr ⟨s, hv⟩

/-- The members of a row can be written and read. -/
theorem FromLog.member (h : FromLog d sql columns r row) (hcol : ColumnNames d columns)
    {m : Text × Value} (hm : m ∈ members d sql row) : PlainName m ∧ m.2.Numeric := by
  rcases mem_members hm with ⟨c, hc, rfl⟩ | ⟨hown, hnum⟩
  · constructor
    · obtain ⟨name, hname⟩ := h.cell_name hcol hc
      obtain ⟨s, hs, hplain⟩ := column_eq (d := d) name
      rw [PlainName, hname, hs]
      exact hplain
    · rcases h.cell_value hc with hv | ⟨s, hv⟩
      · rw [hv]
        exact trivial
      · rw [hv]
        exact trivial
  · exact ⟨plain_ownNames _ hown, hnum⟩

/-- **What is written of the rows is read as their members.** -/
theorem readRows_rowText {rows : List TableRow} (hcol : ColumnNames d columns)
    (h : ∀ row ∈ rows, ∃ r, FromLog d sql columns r row) :
    JsonRows.readRows (JsonRows.array (rows.map (rowText d sql))) =
      some (rows.map (members d sql)) := by
  have htext : rows.map (rowText d sql) =
      (rows.map (members d sql)).map (JsonRows.object Text.escapeChar) := by
    rw [List.map_map]
    refine List.map_congr_left fun row hrow => ?_
    obtain ⟨r, hr⟩ := h row hrow
    have hmembers : (members d sql row).map rowMember =
        (members d sql row).map (JsonRows.member Text.escapeChar) :=
      List.map_congr_left fun m hm => rowMember_eq (hr.member hcol hm).1
    rw [rowText, hmembers]
    rfl
  rw [htext]
  refine JsonRows.readRows_rows escapes_escapeChar ?_
  intro ms hms m hm
  obtain ⟨row, hrow, rfl⟩ := List.mem_map.1 hms
  obtain ⟨r, hr⟩ := h row hrow
  exact (hr.member hcol hm).2

end Written

/-! ### The row of a log -/

section RowOf

variable {columns : List (Text × SqlType)} {r r' : Received} {row : TableRow}

theorem toString_injective {a b : Nat} (h : (toString a).toList = (toString b).toList) : a = b := by
  have hdigits : ∀ n : Nat, (toString n).toList = Nat.toDigits 10 n := fun _ => Nat.toList_repr
  rw [hdigits, hdigits] at h
  rw [← @Nat.ofDigitChars_ten_toDigits a, h, Nat.ofDigitChars_ten_toDigits]

/-- A number is told from every other, however it is sent. -/
theorem number_eq_iff {n k : Nat} :
    (Value.number (toString k).toList = d.number n ∨ Value.text (toString k).toList = d.number n) ↔
      n = k := by
  constructor
  · cases d with
    | sqlite =>
      rintro (h | h)
      · exact (toString_injective (Value.number.inj h)).symm
      · cases h
    | postgresql =>
      rintro (h | h)
      · cases h
      · exact (toString_injective (Value.text.inj h)).symm
  · rintro rfl
    cases d with
    | sqlite => exact .inl rfl
    | postgresql => exact .inr rfl

/-- Whether a row is that of a log can be seen from two of its members. -/
theorem FromLog.isOf_iff (h : FromLog d sql columns r' row) (hcol : ColumnNames d columns) :
    isOf r (members d sql row) = true ↔
      r.log.transactionHash = cut row.txHash ∧ row.logIndex = r.log.logIndex := by
  have hcell : ∀ n ∈ ownNames, ∀ v, (n, v) ∉ row.cells := by
    intro n hn v hmem
    obtain ⟨name, hname⟩ := h.cell_name hcol hmem
    exact column_ne_own hn hname.symm
  have htx : ∀ v, ("tx_hash".toList, v) ∈ members d sql row ↔ v = .text (cut row.txHash) := by
    intro v
    simp only [members, ownMembers]
    simp
    intro x hx
    exact absurd hx (hcell "tx_hash".toList (by simp [ownNames]) x)
  have hindex : ∀ v, ("log_index".toList, v) ∈ members d sql row ↔ v = d.number row.logIndex := by
    intro v
    simp only [members, ownMembers]
    simp
    intro x hx
    exact absurd hx (hcell "log_index".toList (by simp [ownNames]) x)
  rw [isOf, decide_eq_true_iff, htx, hindex, hindex, Value.text.injEq, number_eq_iff]

/-- A field that a row holds comes back as it was, and PostgreSQL has not read it as a
number. -/
theorem FromLog.of_holds (h : FromLog d sql columns r' row) {b : Backend} (hb : dialect b = some d) (hholds : Holds b r (members d sql row))
    {f : DecodedField} (hf : f ∈ r.fields) :
    Char.ofNat 0 ∉ f.value ∧
      ∃ col ∈ columns, col.1 = column d f.name ∧ (d = .postgresql → col.2 = .text) := by
  have hmem : (fieldName b f.name, Value.text f.value) ∈ members d sql row :=
    List.mem_of_mem_filter (hholds.fields f hf ▸ List.mem_singleton_self _)
  have hname : fieldName b f.name = column d f.name := by rw [fieldName, hb]
  rw [hname] at hmem
  rcases mem_members hmem with ⟨c, hc, heq⟩ | ⟨hown, -⟩
  · obtain ⟨hcname, hshown⟩ := Prod.mk.inj heq
    obtain ⟨col, hcolmem, hcell⟩ := h.mem_cells.1 hc
    obtain ⟨s, hs, hcut⟩ : ∃ s, c.2 = .text s ∧ f.value = cut s := by
      rcases h.cell_value hc with hnull | ⟨s, hs⟩
      · rw [hnull] at hshown
        cases hshown
      · rw [hs] at hshown
        exact ⟨s, hs, Value.text.inj hshown⟩
    refine ⟨hcut ▸ notMem_cut s, col, hcolmem, (fst_cell hcell).symm.trans hcname.symm, fun hd => ?_⟩
    rcases cell_spec hcell with hnull | ⟨g, hg, -, hkeep⟩
    · rw [hs] at hnull
      cases hnull
    · rcases keep_eq hg hkeep with ⟨-, htext⟩ | ⟨-, -, t, ht, hprinted⟩
      · exact htext hd
      · -- what was printed has only digits, and a decoded value has something else
        rw [hs] at hprinted
        obtain rfl := Value.text.inj hprinted
        obtain ⟨x, hx, hmark⟩ := Decode.marked_decodeInputs hf
        rw [hcut] at hx
        have hdigit := sql.integer_printed _ _ ht x (List.takeWhile_sublist _ |>.subset hx)
        rcases hmark with rfl | rfl | rfl | rfl <;> exact absurd hdigit (by decide)
  · exact absurd rfl (column_ne_own hown)

/-- What a column has of the field it is for. -/
theorem cell_of_mem {f : DecodedField} (hf : f ∈ r.fields)
    (hdistinct : (r.fields.map fun f => column d f.name).Nodup) {col : Text × SqlType}
    (hname : col.1 = column d f.name) (htext : d = .postgresql → col.2 = .text) :
    cell d sql r.fields col = some (col.1, .text (d.bound f.value)) := by
  have hfind : r.fields.find? (fun g => decide (column d g.name = col.1)) = some f := by
    cases hg : r.fields.find? (fun g => decide (column d g.name = col.1)) with
    | none => exact absurd (List.find?_eq_none.1 hg f hf) (by simp [hname])
    | some g =>
      have hgname : column d g.name = col.1 := of_decide_eq_true (List.find?_some hg :)
      have heq := List.inj_on_of_nodup_map hdistinct (List.mem_of_find?_eq_some hg) hf
        (hgname.trans hname)
      rw [heq]
  have hkeep : keep d sql col.2 f.value = some (.text (d.bound f.value)) := by
    cases hd : d with
    | postgresql =>
      rw [htext hd]
      rfl
    | sqlite =>
      cases col.2 with
      | text => rfl
      | integer =>
        rw [keep, numeral_value hf]
        rfl
  rw [cell, hfind]
  simp only [hkeep, Option.map_some]

/-- The cells of one column. -/
theorem filter_cells {fields : List DecodedField} (hnodup : (columns.map (·.1)).Nodup)
    {c : Text × SqlType} {v : Text × Value} (hcol : c ∈ columns)
    (hcell : cell d sql fields c = some v) :
    (columns.filterMap (cell d sql fields)).filter (fun x => decide (x.1 = c.1)) = [v] := by
  induction columns with
  | nil => cases hcol
  | cons a l ih =>
    rw [List.map_cons, List.nodup_cons] at hnodup
    rcases List.mem_cons.1 hcol with rfl | hmem
    · have hrest : (l.filterMap (cell d sql fields)).filter (fun x => decide (x.1 = c.1)) = [] := by
        refine List.filter_eq_nil_iff.2 fun x hx => ?_
        obtain ⟨col', hcol', hx'⟩ := List.mem_filterMap.1 hx
        rw [decide_eq_true_iff, fst_cell hx']
        intro heq
        exact hnodup.1 (heq ▸ List.mem_map_of_mem hcol')
      rw [List.filterMap_cons_some hcell, List.filter_cons_of_pos (by simp [fst_cell hcell]), hrest]
    · have hne : a.1 ≠ c.1 := fun heq => hnodup.1 (heq ▸ List.mem_map_of_mem hmem)
      cases ha : cell d sql fields a with
      | none =>
        rw [List.filterMap_cons_none ha]
        exact ih hnodup.2 hmem
      | some x =>
        rw [List.filterMap_cons_some ha, List.filter_cons_of_neg (by simpa [fst_cell ha] using hne)]
        exact ih hnodup.2 hmem

/-- **The row of a log holds its fields**, if each has a column. -/
theorem FromLog.holds (h : FromLog d sql columns r row) {b : Backend} (hb : dialect b = some d)
    (hnodup : (columns.map (·.1)).Nodup)
    (hdistinct : (r.fields.map fun f => column d f.name).Nodup)
    (hfields : ∀ f ∈ r.fields, Char.ofNat 0 ∉ f.value ∧
      ∃ col ∈ columns, col.1 = column d f.name ∧ (d = .postgresql → col.2 = .text)) :
    Holds b r (members d sql row) := by
  have hname : ∀ name, fieldName b name = column d name := by
    intro name
    rw [fieldName, hb]
  refine ⟨by simpa only [hname] using hdistinct, fun f hf => ?_⟩
  obtain ⟨hplain, col, hcol, hcolname, htext⟩ := hfields f hf
  have hcells : row.cells.filter (fun c => decide (c.1 = column d f.name)) =
      [(col.1, .text (d.bound f.value))] := by
    have hcell : cell d sql r.fields col = some (col.1, .text (d.bound f.value)) :=
      cell_of_mem hf hdistinct hcolname htext
    rw [h.cells, ← hcolname]
    exact filter_cells hnodup hcol hcell
  have hshown : (row.cells.map fun c => (c.1, shown c.2)).filter
      (fun m => decide (m.1 = column d f.name)) = [(column d f.name, .text f.value)] := by
    rw [List.filter_map]
    change (row.cells.filter fun c => decide (c.1 = column d f.name)).map _ = _
    rw [hcells, List.map_singleton, hcolname, shown, cut_bound, cut_eq_self hplain]
  have hown : (ownMembers d sql row).filter (fun m => decide (m.1 = column d f.name)) = [] :=
    List.filter_eq_nil_iff.2 fun m hm heq =>
      column_ne_own (ownMembers_spec hm).1 (of_decide_eq_true heq).symm
  have hid : [("id".toList, d.number row.id)].filter (fun m => decide (m.1 = column d f.name)) = [] :=
    List.filter_eq_nil_iff.2 fun m hm heq => by
      rw [List.mem_singleton.1 hm] at heq
      exact column_ne_own (n := "id".toList) (by simp [ownNames]) (of_decide_eq_true heq).symm
  rw [hname, members, List.cons_append, ← List.singleton_append, List.filter_append,
    List.filter_append, hid, hshown, hown]
  rfl

end RowOf

end EventTables

end Zponder

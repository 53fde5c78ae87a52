import Zponder.ProcessLog

/-!
# What is left of the topics of a log

The topics of a log are written down twice: as a JSON array when the log has failed, and with
commas between them when it is cached. Both are read back by scanners that are written by hand.

The scanner of the JSON array takes a backslash for the character behind it, whatever that
is, so that of the six kinds of escapes there are the two are read back that escape a character by
itself. A topic survives if no character of it is a control character. The commas cannot be told
from a comma of a topic, and that is all that can go wrong with a log that is an event, whose
first topic is not empty (`Zponder.Topics.survive_iff`).
-/

namespace Zponder.Topics

open Text

/-! ### The JSON array -/

/-- What the scanner makes of an escaped character. -/
def readBack (c : Char) : Text :=
  if c = '\n' then ['n']
  else if c = '\r' then ['r']
  else if c = '\t' then ['t']
  else if c.toNat ≤ 0x1F then ['u', '0', '0'] ++ hexDigits c.toNat
  else [c]

/-- A character of a string that is neither its end nor an escape. -/
theorem parseQuoted_cons {c : Char} (hquote : c ≠ '"') (hslash : c ≠ '\\') (rest : Text) :
    parseQuoted (c :: rest) = (c :: (parseQuoted rest).1, (parseQuoted rest).2) := by
  cases rest with
  | nil => simp [parseQuoted, hquote]
  | cons d rest => rw [parseQuoted, if_neg hquote, if_neg hslash]

theorem parseQuoted_escape (d : Char) (rest : Text) :
    parseQuoted ('\\' :: d :: rest) = (d :: (parseQuoted rest).1, (parseQuoted rest).2) := by
  rw [parseQuoted, if_neg (by decide), if_pos rfl]

theorem parseQuoted_end (rest : Text) : parseQuoted ('"' :: rest) = ([], rest) := by
  cases rest with
  | nil => rw [parseQuoted, if_pos rfl]
  | cons d rest => rw [parseQuoted, if_pos rfl]

/-- A hex digit is neither the end of a string nor an escape. -/
theorem digitChar_plain {n : Nat} (hn : n < 16) :
    Nat.digitChar n ≠ '"' ∧ Nat.digitChar n ≠ '\\' := by
  have hall : ∀ n < 16, Nat.digitChar n ≠ '"' ∧ Nat.digitChar n ≠ '\\' := by decide
  exact hall n hn

/-- **The scanner reads an escaped character.** -/
theorem parseQuoted_escapeChar (c : Char) (rest : Text) :
    parseQuoted (escapeChar c ++ rest) =
      (readBack c ++ (parseQuoted rest).1, (parseQuoted rest).2) := by
  unfold escapeChar
  by_cases hslash : c = '\\'
  · subst hslash
    exact parseQuoted_escape _ _
  by_cases hquote : c = '"'
  · subst hquote
    exact parseQuoted_escape _ _
  rw [if_neg hslash, if_neg hquote, readBack]
  split
  · exact parseQuoted_escape _ _
  split
  · exact parseQuoted_escape _ _
  split
  · exact parseQuoted_escape _ _
  split
  · next hctrl =>
    obtain ⟨hquote₁, hslash₁⟩ := digitChar_plain (n := c.toNat / 16) (by omega)
    obtain ⟨hquote₂, hslash₂⟩ := digitChar_plain (n := c.toNat % 16) (by omega)
    simp only [hexDigits, List.cons_append, List.nil_append]
    rw [parseQuoted_escape, parseQuoted_cons (by decide) (by decide),
      parseQuoted_cons (by decide) (by decide), parseQuoted_cons hquote₁ hslash₁,
      parseQuoted_cons hquote₂ hslash₂]
  · exact parseQuoted_cons hquote hslash rest

/-- The scanner reads a topic up to its closing quote. -/
theorem parseQuoted_topic (t rest : Text) :
    parseQuoted (t.flatMap escapeChar ++ '"' :: rest) = (t.flatMap readBack, rest) := by
  induction t with
  | nil => exact parseQuoted_end rest
  | cons c t ih => rw [List.flatMap_cons, List.append_assoc, parseQuoted_escapeChar, ih,
      List.flatMap_cons]

theorem parseTopicsJson_skip {c : Char} (hc : c ≠ '"') (rest : Text) :
    parseTopicsJson (c :: rest) = parseTopicsJson rest := by
  rw [parseTopicsJson, if_neg hc]

theorem parseTopicsJson_quoteTopic (t rest : Text) :
    parseTopicsJson (quoteTopic t ++ rest) = t.flatMap readBack :: parseTopicsJson rest := by
  rw [quoteTopic, List.cons_append, List.cons_append, List.append_assoc, List.cons_append,
    List.nil_append, parseTopicsJson, if_pos rfl, parseQuoted_topic]

/-- The topics behind the opening bracket. -/
theorem parseTopicsJson_joinTopics (ts : List Text) :
    parseTopicsJson (joinTopics (ts.map quoteTopic) ++ [']']) =
      ts.map fun t => t.flatMap readBack := by
  have hend : parseTopicsJson [']'] = [] := by
    rw [parseTopicsJson_skip (by decide), parseTopicsJson]
  induction ts with
  | nil => exact hend
  | cons t ts ih =>
    cases ts with
    | nil =>
      simp only [joinTopics, List.map_cons, List.map_nil, List.intercalate_singleton]
      rw [parseTopicsJson_quoteTopic, hend]
    | cons u ts =>
      simp only [joinTopics, List.map_cons] at ih ⊢
      rw [List.intercalate_cons_cons, List.append_assoc, List.append_assoc,
        parseTopicsJson_quoteTopic, List.cons_append, List.nil_append,
        parseTopicsJson_skip (by decide), ih]

/-- **What the JSON array is read back as.** -/
theorem parseTopicsJson_formatTopicsJson (ts : List Text) :
    parseTopicsJson (formatTopicsJson ts) = ts.map fun t => t.flatMap readBack := by
  rw [formatTopicsJson, List.cons_append, parseTopicsJson_skip (by decide),
    parseTopicsJson_joinTopics]

/-- A character is read back as itself if it is no control character, and otherwise as something
that begins with a letter. -/
theorem readBack_cases (c : Char) :
    (0x20 ≤ c.toNat ∧ readBack c = [c]) ∨
      (c.toNat < 0x20 ∧ ∃ d rest, readBack c = d :: rest ∧ 0x20 ≤ d.toNat) := by
  unfold readBack
  split
  · next h => exact .inr ⟨by rw [h]; decide, 'n', [], rfl, by decide⟩
  split
  · next h => exact .inr ⟨by rw [h]; decide, 'r', [], rfl, by decide⟩
  split
  · next h => exact .inr ⟨by rw [h]; decide, 't', [], rfl, by decide⟩
  split
  · next h => exact .inr ⟨by omega, 'u', _, rfl, by decide⟩
  · next h => exact .inl ⟨by omega, rfl⟩

theorem flatMap_readBack_iff (t : Text) : t.flatMap readBack = t ↔ ∀ c ∈ t, 0x20 ≤ c.toNat := by
  induction t with
  | nil => simp
  | cons c t ih =>
    rw [List.flatMap_cons, List.forall_mem_cons]
    rcases readBack_cases c with ⟨hc, hread⟩ | ⟨hc, d, rest, hread, hd⟩
    · rw [hread, and_iff_right hc, ← ih]
      exact List.cons_inj_right c
    · rw [hread, List.cons_append]
      refine iff_of_false (fun heq => ?_) fun h => absurd h.1 (Nat.not_le.2 hc)
      rw [(List.cons.inj heq).1] at hd
      omega

theorem dead_letter_iff (ts : List Text) :
    parseTopicsJson (formatTopicsJson ts) = ts ↔ ∀ t ∈ ts, ∀ c ∈ t, 0x20 ≤ c.toNat := by
  have hid : ts.map (fun t => t.flatMap readBack) = ts ↔
      ts.map (fun t => t.flatMap readBack) = ts.map id := by rw [List.map_id]
  rw [parseTopicsJson_formatTopicsJson, hid, List.map_inj_left]
  exact forall₂_congr fun t _ => flatMap_readBack_iff t

/-! ### Commas -/

/-- What lies between separators holds none. -/
theorem not_mem_of_mem_splitOn {α : Type} [BEq α] [LawfulBEq α] {a : α} (s : List α) :
    ∀ part ∈ s.splitOn a, a ∉ part := by
  induction s with
  | nil => simp
  | cons x s ih =>
    rw [List.splitOn_cons_eq_if_modifyHead]
    obtain ⟨part, parts, hparts⟩ := List.exists_cons_of_ne_nil (List.splitOn_ne_nil a s)
    rw [hparts, List.forall_mem_cons] at ih
    rw [hparts]
    split
    · rw [List.forall_mem_cons, List.forall_mem_cons]
      exact ⟨List.not_mem_nil, ih⟩
    · next hx =>
      rw [List.modifyHead_cons, List.forall_mem_cons]
      refine ⟨fun hmem => ?_, ih.2⟩
      rcases List.mem_cons.1 hmem with rfl | hmem
      · exact hx (beq_self_eq_true a)
      · exact ih.1 hmem

/-- Topics that do not begin with an empty one are read back if no topic holds a comma. -/
theorem cached_iff {topic0 : Text} (h : topic0 ≠ []) (ts : List Text) :
    splitTopics (joinTopics (topic0 :: ts)) = topic0 :: ts ↔ ∀ t ∈ topic0 :: ts, ',' ∉ t := by
  have hjoined : joinTopics (topic0 :: ts) ≠ [] := by
    cases ts with
    | nil => simpa [joinTopics] using h
    | cons u ts => simp [joinTopics, List.intercalate_cons_cons]
  rw [splitTopics, if_neg hjoined]
  refine ⟨fun heq => ?_, fun hall => List.splitOn_intercalate ',' hall (List.cons_ne_nil _ _)⟩
  rw [← heq]
  exact not_mem_of_mem_splitOn _

/-- An event has a first topic, and it is not empty. -/
theorem exists_topic0 {cfg : Config} {lg : Log} {ev : Decoded}
    (h : classify cfg lg = .ok (some ev)) :
    ∃ topic0 ts, lg.topics = topic0 :: ts ∧ topic0 ≠ [] := by
  unfold classify at h
  split at h
  · cases h
  · cases h
  · next topic0 ts _ htopics =>
    refine ⟨topic0, ts, htopics, ?_⟩
    rintro rfl
    rw [if_pos (.inl (by decide))] at h
    cases h

/-! ### Both -/

/-- **The topics of a dead letter** are those of the log if none holds a control character, and **the
topics of a cached event** if none holds a comma. -/
theorem survive_iff (ts : List Text) {cfg : Config} {lg : Log} {ev : Decoded}
    (h : classify cfg lg = .ok (some ev)) :
    (parseTopicsJson (formatTopicsJson ts) = ts ↔ ∀ t ∈ ts, ∀ c ∈ t, 0x20 ≤ c.toNat) ∧
      (splitTopics (joinTopics lg.topics) = lg.topics ↔ ∀ t ∈ lg.topics, ',' ∉ t) := by
  obtain ⟨topic0, rest, htopics, hne⟩ := exists_topic0 h
  rw [htopics]
  exact ⟨dead_letter_iff ts, cached_iff hne rest⟩

/-- An ABI by which every log is one event without fields. -/
def noteAbi : Abi where
  findEventByName _ := none
  findEventByTopic0 sig := some ⟨"Note".toList, sig⟩
  decodeLog _ _ _ := .ok []

def noteConfig : Config := { plainConfig with abi := some noteAbi }

/-- A log with an empty topic behind the first. -/
def noteLog : Log where
  address := "0xAA".toList
  topics := ["0x".toList ++ List.replicate 64 'a', []]
  data := []
  blockNumber := 1
  transactionHash := "t".toList
  logIndex := 0

theorem classify_note : classify noteConfig noteLog = .ok (some ⟨"Note".toList, []⟩) := rfl

theorem survive_iff_note :
    (parseTopicsJson (formatTopicsJson [['\t']]) = [['\t']] ↔
        ∀ t ∈ [['\t']], ∀ c ∈ t, 0x20 ≤ c.toNat) ∧
      (splitTopics (joinTopics noteLog.topics) = noteLog.topics ↔
        ∀ t ∈ noteLog.topics, ',' ∉ t) :=
  survive_iff [['\t']] classify_note

/-- A tab is read back as a letter. -/
theorem not_survive_tab : ¬parseTopicsJson (formatTopicsJson [['\t']]) = [['\t']] := by
  rw [parseTopicsJson_formatTopicsJson]
  decide

end Zponder.Topics

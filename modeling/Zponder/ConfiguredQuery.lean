import Zponder.QueryCache

/-!
# The queries of the configuration

`GET /queries/:name` runs an SQL text of the configuration, in which `$name` stands for a
parameter of the request. Three orders meet in `handleQuery`: the parameters are taken in the order
of the request, with the defaults behind them; the placeholders stand in the order of the SQL text;
and the key in the cache is made of the values alone. SQLite counts the placeholders and is
given the values in the first order; PostgreSQL is told the places by number.

The answers are right where the orders agree (`Zponder.Configured.Fits`) and a cached answer is to
the same question (`Zponder.Configured.reply_of_meets`). How a backend cuts an SQL text into
literals and the rest is a parameter, and so is what it answers to a statement all of whose
values are there. The database is not changed.
-/

namespace Zponder

namespace Configured

open Imperative

/-! ### The parameters of a request -/

/-- `QueryParam`; its type is not looked at. -/
structure QueryParam where
  name : Text
  defaultValue : Text
  deriving DecidableEq, Repr

/-- `QueryConfig`, as far as `handleQuery` reads it. -/
structure QueryConfig where
  name : Text
  sql : Text
  params : List QueryParam
  deriving DecidableEq, Repr

/-- `std.Uri.percentDecodeInPlace` -/
def percentDecode : Text → Text
  | '%' :: a :: b :: s =>
    match Text.parseInt 16 256 [a, b] with
    | some byte => Char.ofNat byte :: percentDecode s
    | none => '%' :: percentDecode (a :: b :: s)
  | c :: s => c :: percentDecode s
  | [] => []

/-- The name of the query in the target of a request. -/
def queryName (target : Text) : Text :=
  (target.drop "/queries/".toList.length).takeWhile (· != '?')

/-- The parts of the query string, if there is one. -/
def parts (target : Text) : List Text :=
  match target.dropWhile (· != '?') with
  | [] => []
  | _ :: query => query.splitOn '&'

/-- A part with a value, of a parameter that is declared. -/
def readPart (params : List QueryParam) (part : Text) : Option (Text × Text) :=
  match part.splitOn '=' with
  | key :: val :: _ =>
    if params.any (fun p => p.name == key) = true then some (key, percentDecode val) else none
  | _ => none

/-- A parameter that was not given comes with its default. -/
def addDefault (given : List (Text × Text)) (p : QueryParam) : List (Text × Text) :=
  if given.any (fun b => b.1 == p.name) = true then given else given ++ [(p.name, p.defaultValue)]

/-- `param_names` and `param_values`. -/
def bindings (params : List QueryParam) (target : Text) : List (Text × Text) :=
  params.foldl addDefault ((parts target).filterMap (readPart params))

/-! ### The SQL text -/

/-- The text goes on with a name, and a word ends there. -/
def startsWithName (name s : Text) : Bool :=
  name.isPrefixOf s && (s.drop name.length).head?.all fun c => !(c.isAlphanum || c == '_')

/-- The first name the text goes on with, and its place. -/
def findName (names : List Text) (s : Text) : Option (Text × Nat) :=
  names.zipIdx.find? fun n => startsWithName n.1 s

/-- The placeholder of a value. -/
def placeholder (backend : Backend) (i : Nat) : Text :=
  if backend = .postgresql then '$' :: Text.decimal (i + 1) else ['?']

/-- The loop over the SQL text, with so many characters still to be left out. -/
def translate (backend : Backend) (names : List Text) : Nat → Text → Text
  | _, [] => []
  | n + 1, _ :: s => translate backend names n s
  | 0, c :: s =>
    match (if c = '$' ∧ s ≠ [] then findName names s else none) with
    | some (name, i) => placeholder backend i ++ translate backend names name.length s
    | none => c :: translate backend names 0 s

/-! ### What a backend makes of it -/

/-- A piece of an SQL text: something that is no parameter, a literal, a comment or anything
else; a parameter with a name; `?`; and a parameter with a number, as it is written. -/
inductive Piece where
  | text (s : Text)
  | named (mark : Char) (name : Text)
  | next
  | numbered (s : Text) (n : Nat)
  deriving DecidableEq, Repr

/-- A piece as it is written. -/
def Piece.render : Piece → Text
  | .text s => s
  | .named mark name => mark :: name
  | .next => ['?']
  | .numbered s _ => s

/-- The text of some pieces. -/
def render (ps : List Piece) : Text := ps.flatMap Piece.render

/-- A piece of a statement that is executed. -/
inductive Item where
  | text (s : Text)
  | value (v : Option Text)
  deriving DecidableEq, Repr

/-- How many parameters a statement may have: of SQLite, and of `execParamsNull`. -/
def maxParams (backend : Backend) : Nat := if backend = .postgresql then 32 else 32766

/-- SQLite numbers the parameters from left to right, those of one name alike, and goes on behind
the highest number. -/
def fillSqlite (values : List Text) : List (Text × Nat) → Nat → List Piece → List Item × Nat
  | _, count, [] => ([], count)
  | seen, count, .text s :: ps =>
    let r := fillSqlite values seen count ps
    (.text s :: r.1, r.2)
  | seen, count, .next :: ps =>
    let r := fillSqlite values seen (count + 1) ps
    (.value values[count]? :: r.1, r.2)
  | seen, count, .numbered _ n :: ps =>
    let r := fillSqlite values seen (max count n) ps
    (.value (if n = 0 then none else values[n - 1]?) :: r.1, r.2)
  | seen, count, .named mark name :: ps =>
    match seen.lookup (mark :: name) with
    | some n =>
      let r := fillSqlite values seen count ps
      (.value values[n - 1]? :: r.1, r.2)
    | none =>
      let r := fillSqlite values ((mark :: name, count + 1) :: seen) (count + 1) ps
      (.value values[count]? :: r.1, r.2)

/-- The numbers of the parameters. -/
def numbers (ps : List Piece) : List Nat :=
  ps.filterMap fun
    | .numbered _ n => some n
    | _ => none

/-- PostgreSQL takes what a parameter with a number stands for, as a C string, and nothing else. -/
def fillPiece (values : List Text) : Piece → Item
  | .numbered _ n => .value ((values[n - 1]?).map fun v => v.takeWhile (· != '\u0000'))
  | p => .text p.render

/-- `execQuery`, up to the execution: SQLite takes no value without a placeholder, and PostgreSQL
has to find each of the values, and no other. -/
def bind (backend : Backend) (values : List Text) (ps : List Piece) : Option (List Item) :=
  if backend = .postgresql then
    if values.length ≤ maxParams backend ∧ (∀ n ∈ numbers ps, 1 ≤ n ∧ n ≤ values.length) ∧
        ∀ i < values.length, i + 1 ∈ numbers ps then
      some (ps.map (fillPiece values))
    else none
  else
    let r := fillSqlite values [] 0 ps
    if values.length ≤ r.2 ∧ r.2 ≤ maxParams backend then some r.1 else none

/-! ### The handler -/

/-- The configuration, and the database as it stands. -/
structure Setup where
  backend : Backend := .sqlite
  queries : List QueryConfig
  maxEntries : Nat := 1000
  maxBytes : Nat := 67108864
  /-- How the backend cuts an SQL text. What it does not read of it is a text. -/
  cut : Text → List Piece
  /-- The rows, if there is no error. -/
  rows : List Item → Option Text

/-- A reply. -/
inductive Reply where
  | badRequest
  | notFound
  | failed
  | ok (data : Text)
  deriving DecidableEq, Repr

/-- What is replied to the rows, or to an error. -/
def Reply.ofRows : Option Text → Reply
  | some data => .ok data
  | none => .failed

section Handler

variable (u : Setup)

/-- The query a request is for, or what is replied at once. -/
def Setup.find (target : Text) : Except Reply QueryConfig :=
  if queryName target = [] then .error .badRequest
  else
    match u.queries.find? fun q => q.name == queryName target with
    | none => .error .notFound
    | some q => if u.backend = .rocksdb then .error .badRequest else .ok q

/-- The key in the cache. -/
def cacheKey (q : QueryConfig) (target : Text) : Text :=
  NamedQuery.cacheKey ⟨queryName target, bindings q.params target⟩

/-- The statement that is executed. -/
def Setup.statement (q : QueryConfig) (target : Text) : Option (List Item) :=
  let given := bindings q.params target
  bind u.backend (given.map (·.2)) (u.cut (translate u.backend (given.map (·.1)) 0 q.sql))

/-- The answer of the database. -/
def Setup.execute (q : QueryConfig) (target : Text) : Option Text :=
  (u.statement q target).bind u.rows

end Handler

/-! ### What is to be answered -/

/-- The value of a part: all that is behind the first equals sign. -/
def valueOfPart (name part : Text) : Option Text :=
  if part.takeWhile (· != '=') = name ∧ '=' ∈ part then
    some (percentDecode ((part.dropWhile (· != '=')).drop 1))
  else none

/-- The first value the request gives, or the default. -/
def valueOf (params : List QueryParam) (target name : Text) : Text :=
  ((parts target).findSome? (valueOfPart name)).getD
    (((params.find? fun p => p.name == name).map (·.defaultValue)).getD [])

/-- The piece is a parameter of the query. -/
def isDeclared (params : List QueryParam) (name : Text) : Bool :=
  params.any fun p => p.name == name

/-- A piece with the value in its place. A parameter that is not declared has none. -/
def fillDeclared (params : List QueryParam) (target : Text) : Piece → Item
  | .text s => .text s
  | .named mark name =>
    .value (if mark = '$' ∧ isDeclared params name = true then some (valueOf params target name)
      else none)
  | _ => .value none

/-- **The rows of the SQL with each parameter replaced by its value.** -/
def Setup.expected (u : Setup) (q : QueryConfig) (target : Text) : Option Text :=
  u.rows ((u.cut q.sql).map (fillDeclared q.params target))

/-- What is to be replied. -/
def Setup.expectedReply (u : Setup) (target : Text) : Reply :=
  match u.find target with
  | .error reply => reply
  | .ok q => .ofRows (u.expected q target)

/-! ### Where the names are found -/

/-- The piece a placeholder is read as. -/
def slot (backend : Backend) (i : Nat) : Piece :=
  if backend = .postgresql then .numbered (placeholder .postgresql i) (i + 1) else .next

/-- A name of letters, digits and underscores. -/
def Ordinary (name : Text) : Prop := name ≠ [] ∧ ∀ c ∈ name, (c.isAlphanum || c == '_') = true

/-- A piece, or a placeholder instead of a parameter. -/
def Replaced (backend : Backend) (p p' : Piece) : Prop :=
  p' = p ∨ ∃ name i, Ordinary name ∧ p = .named '$' name ∧ p' = slot backend i

/-- **What is known of how a backend cuts a text**: nothing is lost, and a placeholder in the place
of a parameter is read as one and changes nothing else. -/
structure Lexes (backend : Backend) (cut : Text → List Piece) : Prop where
  render_cut : ∀ sql, render (cut sql) = sql
  cut_render : ∀ sql ps, List.Forall₂ (Replaced backend) (cut sql) ps → cut (render ps) = ps

/-- Behind no `$` of the text, which goes on with `rest`, is one of the names found. -/
def Untouched (names : List Text) (s rest : Text) : Prop :=
  ∀ t, '$' :: t <:+ s → t ++ rest ≠ [] → findName names (t ++ rest) = none

/-- **A name is found where it stands as a parameter, and nowhere else**, and there are no other
parameters. -/
def Plain (names : List Text) : List Piece → Prop
  | [] => True
  | .text s :: ps => Untouched names s (render ps) ∧ Plain names ps
  | .named mark name :: ps =>
    (mark = '$' ∧ Ordinary name ∧ (findName names (name ++ render ps)).map (·.1) = some name) ∧
      Plain names ps
  | _ :: _ => False

/-- The names of the parameters, in the order of the text. -/
def tokenNames (ps : List Piece) : List Text :=
  ps.filterMap fun
    | .named _ name => some name
    | _ => none

/-- What a placeholder takes the place of. -/
def Slot (backend : Backend) (names : List Text) (p p' : Piece) : Prop :=
  (∃ s, p = .text s ∧ p' = p) ∨
    ∃ name i, Ordinary name ∧ names[i]? = some name ∧ p = .named '$' name ∧ p' = slot backend i

section Translate

variable {backend : Backend} {names : List Text} {ps ps' : List Piece} {s rest : Text}

theorem render_slot (backend : Backend) (i : Nat) :
    (slot backend i).render = placeholder backend i := by
  cases backend <;> rfl

theorem translate_skip (skipped s : Text) :
    translate backend names skipped.length (skipped ++ s) = translate backend names 0 s := by
  induction skipped with
  | nil => rfl
  | cons c skipped ih => exact ih

/-- What is not touched stays. -/
theorem translate_untouched (h : Untouched names s rest) :
    translate backend names 0 (s ++ rest) = s ++ translate backend names 0 rest := by
  induction s with
  | nil => rfl
  | cons c s ih =>
    have hfind :
        (if c = '$' ∧ s ++ rest ≠ [] then findName names (s ++ rest) else none) = none := by
      split
      · next hc => exact h s (hc.1 ▸ List.suffix_refl _) hc.2
      · rfl
    rw [List.cons_append, translate, hfind,
      ih fun t ht => h t (ht.trans (List.suffix_cons c s))]
    rfl

theorem getElem?_of_findName {name : Text} {i : Nat} (h : findName names s = some (name, i)) :
    names[i]? = some name :=
  List.mk_mem_zipIdx_iff_getElem?.1 (List.mem_of_find?_eq_some h)

/-- **The placeholders come where the parameters were.** -/
theorem exists_slots (backend : Backend) (h : Plain names ps) :
    ∃ ps', List.Forall₂ (Slot backend names) ps ps' ∧
      translate backend names 0 (render ps) = render ps' := by
  induction ps with
  | nil => exact ⟨[], .nil, rfl⟩
  | cons p ps ih =>
    cases p with
    | text s =>
      obtain ⟨ps', hslots, htranslate⟩ := ih h.2
      refine ⟨.text s :: ps', .cons (.inl ⟨s, rfl, rfl⟩) hslots, ?_⟩
      show translate backend names 0 (s ++ render ps) = s ++ render ps'
      rw [translate_untouched h.1, htranslate]
    | named mark name =>
      obtain ⟨⟨rfl, hname, hfound⟩, hrest⟩ := h
      obtain ⟨ps', hslots, htranslate⟩ := ih hrest
      obtain ⟨⟨found, i⟩, hfind, hfst⟩ := Option.map_eq_some_iff.1 hfound
      obtain rfl : found = name := hfst
      refine ⟨slot backend i :: ps', .cons (.inr ⟨found, i, hname, getElem?_of_findName hfind,
        rfl, rfl⟩) hslots, ?_⟩
      have hmore : found ++ render ps ≠ [] := List.append_ne_nil_of_left_ne_nil hname.1 _
      show translate backend names 0 ('$' :: (found ++ render ps)) =
        (slot backend i).render ++ render ps'
      rw [translate, if_pos ⟨rfl, hmore⟩, hfind]
      dsimp only
      rw [translate_skip, htranslate, render_slot]
    | next => exact h.elim
    | numbered s n => exact h.elim

theorem forall₂_replaced (h : List.Forall₂ (Slot backend names) ps ps') :
    List.Forall₂ (Replaced backend) ps ps' := by
  refine h.imp ?_
  rintro p p' (⟨s, rfl, rfl⟩ | ⟨name, i, hname, -, rfl, rfl⟩)
  · exact .inl rfl
  · exact .inr ⟨name, i, hname, rfl, rfl⟩

end Translate

/-! ### The values in their places -/

section Fill

variable {params : List QueryParam} {target : Text} {names values : List Text} {ps ps' : List Piece}

theorem fillDeclared_named {name : Text} (h : isDeclared params name = true) :
    fillDeclared params target (.named '$' name) = .value (some (valueOf params target name)) := by
  rw [fillDeclared, if_pos ⟨rfl, h⟩]

/-- **SQLite takes the values in the order of the text.** -/
theorem fillSqlite_slots (hdeclared : ∀ name ∈ names, isDeclared params name = true)
    (h : List.Forall₂ (Slot .sqlite names) ps ps') (seen : List (Text × Nat)) {count : Nat}
    (hvalues : values.drop count = (tokenNames ps).map (valueOf params target)) :
    fillSqlite values seen count ps' =
      (ps.map (fillDeclared params target), count + (tokenNames ps).length) := by
  induction h generalizing count with
  | nil => rfl
  | cons hslot hslots ih =>
    obtain ⟨s, rfl, rfl⟩ | ⟨name, i, -, hi, rfl, rfl⟩ := hslot
    · rw [fillSqlite, ih hvalues]
      rfl
    · have hhead : values[count]? = some (valueOf params target name) := by
        rw [← List.head?_drop, hvalues]
        rfl
      have hname := hdeclared name (List.mem_of_getElem? hi)
      rw [List.map_cons, fillDeclared_named hname]
      show fillSqlite values seen count (.next :: _) = _
      rw [fillSqlite, hhead, ih]
      · exact Prod.ext rfl (Nat.add_right_comm _ _ _)
      · rw [← List.tail_drop, hvalues]
        rfl

/-- **PostgreSQL finds them by their numbers.** -/
theorem map_fillPiece_slots (hdeclared : ∀ name ∈ names, isDeclared params name = true)
    (h : List.Forall₂ (Slot .postgresql names) ps ps')
    (hvalues : values = names.map (valueOf params target)) (hnul : ∀ v ∈ values, '\u0000' ∉ v) :
    ps'.map (fillPiece values) = ps.map (fillDeclared params target) := by
  induction h with
  | nil => rfl
  | cons hslot hslots ih =>
    rw [List.map_cons, List.map_cons, ih]
    congr 1
    obtain ⟨s, rfl, rfl⟩ | ⟨name, i, -, hi, rfl, rfl⟩ := hslot
    · rfl
    · have hget : values[i]? = some (valueOf params target name) := by
        rw [hvalues, List.getElem?_map, hi, Option.map_some]
      have hkeep : (valueOf params target name).takeWhile (· != '\u0000') =
          valueOf params target name := by
        refine List.takeWhile_eq_self_iff.2 fun c hc => bne_iff_ne.2 ?_
        rintro rfl
        exact hnul _ (List.mem_of_getElem? hget) hc
      rw [fillDeclared_named (hdeclared name (List.mem_of_getElem? hi))]
      show Item.value ((values[i]?).map fun v => v.takeWhile (· != '\u0000')) = _
      rw [hget, Option.map_some, hkeep]

/-- The numbers of the placeholders are those of the names they take the place of. -/
theorem mem_numbers_iff (h : List.Forall₂ (Slot .postgresql names) ps ps')
    (hnodup : names.Nodup) {n : Nat} :
    n ∈ numbers ps' ↔ ∃ i name, n = i + 1 ∧ names[i]? = some name ∧ name ∈ tokenNames ps := by
  induction h with
  | nil =>
    refine ⟨fun hn => absurd hn List.not_mem_nil, ?_⟩
    rintro ⟨i, name, -, -, hname⟩
    exact absurd hname List.not_mem_nil
  | cons hslot hslots ih =>
    obtain ⟨s, rfl, rfl⟩ | ⟨name, i, -, hi, rfl, rfl⟩ := hslot
    · exact ih
    · show n ∈ (i + 1) :: numbers _ ↔ ∃ j name', n = j + 1 ∧ names[j]? = some name' ∧
        name' ∈ name :: tokenNames _
      rw [List.mem_cons, ih]
      constructor
      · rintro (rfl | ⟨j, name', hn, hj, hname'⟩)
        · exact ⟨i, name, rfl, hi, List.mem_cons_self⟩
        · exact ⟨j, name', hn, hj, List.mem_cons_of_mem _ hname'⟩
      · rintro ⟨j, name', rfl, hj, hname'⟩
        rcases List.mem_cons.1 hname' with rfl | hname'
        · obtain ⟨hlt, -⟩ := List.getElem?_eq_some_iff.1 hi
          exact .inl (congrArg (· + 1) ((List.getElem?_inj hlt hnodup).1 (hi.trans hj.symm)).symm)
        · exact .inr ⟨j, name', rfl, hj, hname'⟩

end Fill

/-! ### The parameters of a request -/

section Bindings

variable {params : List QueryParam} {target : Text}

/-- What is not given is the default of the first parameter of that name. -/
theorem mem_foldl_addDefault {ps : List QueryParam} {given : List (Text × Text)}
    {b : Text × Text} (h : b ∈ ps.foldl addDefault given) :
    b ∈ given ∨ given.any (fun b' => b'.1 == b.1) = false ∧
      ∃ p, ps.find? (fun p => p.name == b.1) = some p ∧ b.2 = p.defaultValue := by
  induction ps generalizing given with
  | nil => exact .inl h
  | cons p ps ih =>
    by_cases hp : given.any (fun b' => b'.1 == p.name) = true
    · rw [List.foldl_cons, addDefault, if_pos hp] at h
      refine (ih h).imp_right fun ⟨hnone, hfind⟩ => ⟨hnone, ?_⟩
      have hne : ¬(p.name == b.1) = true := fun heq => by
        rw [beq_iff_eq.1 heq, hnone] at hp
        cases hp
      rwa [List.find?_cons_of_neg (p := fun p : QueryParam => p.name == b.1) hne]
    · rw [List.foldl_cons, addDefault, if_neg hp] at h
      rcases ih h with h | ⟨hnone, hfind⟩
      · rcases List.mem_append.1 h with h | h
        · exact .inl h
        · obtain rfl := List.mem_singleton.1 h
          exact .inr ⟨Bool.eq_false_iff.2 hp, p, List.find?_cons_of_pos (beq_self_eq_true _), rfl⟩
      · rw [List.any_append, Bool.or_eq_false_iff] at hnone
        have hne : ¬(p.name == b.1) = true := fun heq => by
          rw [List.any_cons, List.any_nil, Bool.or_false, heq] at hnone
          cases hnone.2
        refine .inr ⟨hnone.1, ?_⟩
        rwa [List.find?_cons_of_neg (p := fun p : QueryParam => p.name == b.1) hne]

theorem eq_of_readPart {part : Text} {b : Text × Text} (h : readPart params part = some b) :
    isDeclared params b.1 = true := by
  unfold readPart at h
  split at h
  · split at h
    · next hdeclared =>
      obtain rfl := Option.some.inj h
      exact hdeclared
    · cases h
  · cases h

/-- The names are those that are declared. -/
theorem isDeclared_of_mem_bindings {b : Text × Text} (h : b ∈ bindings params target) :
    isDeclared params b.1 = true := by
  obtain h | ⟨-, p, hp, -⟩ := mem_foldl_addDefault h
  · obtain ⟨part, -, hpart⟩ := List.mem_filterMap.1 h
    exact eq_of_readPart hpart
  · have hname : (p.name == b.1) = true :=
      List.find?_some (p := fun p : QueryParam => p.name == b.1) hp
    exact List.any_eq_true.2 ⟨p, List.mem_of_find?_eq_some hp, hname⟩

/-- A part with a value for a name is read. -/
theorem exists_readPart {name part : Text} (hname : isDeclared params name = true)
    (h : (valueOfPart name part).isSome = true) :
    ∃ val, readPart params part = some (name, val) := by
  have hpart : part.takeWhile (· != '=') = name ∧ '=' ∈ part := by
    unfold valueOfPart at h
    split at h
    · assumption
    · cases h
  obtain ⟨hfront, hmem⟩ := hpart
  have hbehind : part.dropWhile (· != '=') ≠ [] := fun hnil => by
    have hall := List.dropWhile_eq_nil_iff.1 hnil '=' hmem
    exact absurd hall (by decide)
  obtain ⟨c, s, hcs⟩ := List.exists_cons_of_ne_nil hbehind
  have hc : c = '=' := by
    have hnot := List.head?_dropWhile_not (fun c => c != '=') part
    rw [hcs] at hnot
    simpa using hnot
  have hnotMem : '=' ∉ name := fun hin => by
    rw [← hfront] at hin
    exact absurd (List.mem_takeWhile_imp hin) (by decide)
  have hsplit : part = name ++ '=' :: s := by
    rw [← List.takeWhile_append_dropWhile (p := fun c => c != '=') (l := part), hfront, hcs, hc]
  obtain ⟨val, rest, hrest⟩ := List.exists_cons_of_ne_nil (List.splitOn_ne_nil '=' s)
  refine ⟨percentDecode val, ?_⟩
  rw [readPart, hsplit, List.splitOn_append_cons_self_of_not_mem hnotMem, hrest]
  exact if_pos hname

/-- **Every value is the one the request is to be answered with**, if it is so of those that are
given. -/
theorem value_of_mem_bindings
    (hvalues : ∀ b ∈ (parts target).filterMap (readPart params), b.2 = valueOf params target b.1)
    {b : Text × Text} (h : b ∈ bindings params target) : b.2 = valueOf params target b.1 := by
  have hdeclared := isDeclared_of_mem_bindings h
  obtain h | ⟨hnone, p, hp, hb⟩ := mem_foldl_addDefault h
  · exact hvalues b h
  · have hparts : (parts target).findSome? (valueOfPart b.1) = none := by
      refine List.findSome?_eq_none_iff.2 fun part hpart => ?_
      by_contra hsome
      obtain ⟨val, hval⟩ := exists_readPart hdeclared (Option.isSome_iff_ne_none.2 hsome)
      have hgiven := List.mem_filterMap.2 ⟨part, hpart, hval⟩
      rw [List.any_eq_false] at hnone
      exact hnone _ hgiven (beq_self_eq_true _)
    rw [hb, valueOf, hparts, hp]
    rfl

end Bindings

/-! ### Answers -/

/-- The names `handleQuery` goes by: those of the request, in its order, and then the others. -/
def names (q : QueryConfig) (target : Text) : List Text := (bindings q.params target).map (·.1)

/-- **Where the orders agree.** Every name stands in the SQL text as a parameter and nowhere else,
and what the request gives for a name is what it gives first, up to the end. For SQLite
the names are those in the SQL text, in its order. For PostgreSQL no name is given twice and each
of them is used, and there are not too many. -/
structure Fits (u : Setup) (q : QueryConfig) (target : Text) : Prop where
  plain : Plain (names q target) (u.cut q.sql)
  values : ∀ b ∈ (parts target).filterMap (readPart q.params),
    b.2 = valueOf q.params target b.1
  sqlite : u.backend ≠ .postgresql → names q target = tokenNames (u.cut q.sql)
  postgresql : u.backend = .postgresql →
    (names q target).Nodup ∧ (∀ name ∈ names q target, name ∈ tokenNames (u.cut q.sql)) ∧
      ∀ b ∈ bindings q.params target, '\u0000' ∉ b.2
  few : (names q target).length ≤ maxParams u.backend

section Answer

variable {u : Setup} {q : QueryConfig} {target : Text}

/-- **What is executed is the SQL with each parameter replaced by its value.** -/
theorem statement_of_fits (hlex : Lexes u.backend u.cut) (h : Fits u q target) :
    u.statement q target = some ((u.cut q.sql).map (fillDeclared q.params target)) := by
  have hdeclared : ∀ name ∈ names q target, isDeclared q.params name = true := by
    intro name hname
    obtain ⟨b, hb, rfl⟩ := List.mem_map.1 hname
    exact isDeclared_of_mem_bindings hb
  have hvalues : (bindings q.params target).map (·.2) =
      (names q target).map (valueOf q.params target) := by
    rw [names, List.map_map]
    exact List.map_congr_left fun b hb => value_of_mem_bindings h.values hb
  have hlength : ((bindings q.params target).map (·.2)).length = (names q target).length := by
    rw [hvalues, List.length_map]
  obtain ⟨ps, hslots, htranslate⟩ := exists_slots u.backend h.plain
  rw [hlex.render_cut] at htranslate
  have hcut : u.cut (translate u.backend (names q target) 0 q.sql) = ps := by
    rw [htranslate]
    exact hlex.cut_render q.sql ps (forall₂_replaced hslots)
  show bind u.backend ((bindings q.params target).map (·.2))
    (u.cut (translate u.backend (names q target) 0 q.sql)) = _
  rw [hcut, bind]
  by_cases hbackend : u.backend = .postgresql
  · rw [hbackend] at hslots
    obtain ⟨hnodup, hused, hnul⟩ := h.postgresql hbackend
    have hfound : ((bindings q.params target).map (·.2)).length ≤ maxParams u.backend ∧
        (∀ n ∈ numbers ps, 1 ≤ n ∧ n ≤ ((bindings q.params target).map (·.2)).length) ∧
          ∀ i < ((bindings q.params target).map (·.2)).length, i + 1 ∈ numbers ps := by
      rw [hlength]
      refine ⟨h.few, fun n hn => ?_, fun i hi => ?_⟩
      · obtain ⟨i, name, rfl, hi, -⟩ := (mem_numbers_iff hslots hnodup).1 hn
        obtain ⟨hlt, -⟩ := List.getElem?_eq_some_iff.1 hi
        exact ⟨Nat.le_add_left 1 i, hlt⟩
      · have hget := List.getElem?_eq_getElem hi
        exact (mem_numbers_iff hslots hnodup).2
          ⟨i, _, rfl, hget, hused _ (List.mem_of_getElem? hget)⟩
    rw [if_pos hbackend, if_pos hfound, map_fillPiece_slots hdeclared hslots hvalues]
    intro v hv
    obtain ⟨b, hb, rfl⟩ := List.mem_map.1 hv
    exact hnul b hb
  · have hslots : List.Forall₂ (Slot .sqlite (names q target)) (u.cut q.sql) ps := by
      refine hslots.imp ?_
      rintro p p' (hsame | ⟨name, i, hname, hi, rfl, rfl⟩)
      · exact .inl hsame
      · exact .inr ⟨name, i, hname, hi, rfl, by rw [slot, if_neg hbackend]; rfl⟩
    have hinOrder : ((bindings q.params target).map (·.2)).drop 0 =
        (tokenNames (u.cut q.sql)).map (valueOf q.params target) := by
      rw [List.drop_zero, hvalues, h.sqlite hbackend]
    rw [if_neg hbackend, fillSqlite_slots hdeclared hslots [] hinOrder]
    dsimp only
    rw [if_pos]
    rw [hlength, ← h.sqlite hbackend, Nat.zero_add]
    exact ⟨Nat.le_refl _, h.few⟩

theorem execute_of_fits (hlex : Lexes u.backend u.cut) (h : Fits u q target) :
    u.execute q target = u.expected q target := by
  rw [Setup.execute, statement_of_fits hlex h, Option.bind_some]
  rfl

end Answer

/-! ### The requests and the cache -/

/-- What was asked: the query, and the values of its parameters. -/
def asked (q : QueryConfig) (target : Text) : Request :=
  .named ⟨queryName target, q.params.map fun p => (p.name, valueOf q.params target p.name)⟩

/-- The cache, and what was replied to which request. -/
structure Server where
  cache : Cache := []
  sent : List (Text × Reply) := []
  deriving DecidableEq, Repr

/-- What may happen. Between looking into the cache and asking the database other requests may do
theirs, so that a request is answered by the database whatever the cache then holds. -/
inductive Act where
  /-- A request is answered from the cache, or at once. -/
  | serve (target : Text) (cursor : Nat)
  /-- A request is answered by the database, and its answer is stored or not. -/
  | execute (target : Text) (cursor : Nat) (stored : Bool)
  /-- The answer to a query for events is stored. -/
  | events (q : EventQuery) (data : Text) (cursor : Nat)
  | invalidate (contract event : Text)

section Step

variable (u : Setup)

/-- A reply is sent. -/
def Server.send (target : Text) (reply : Reply) (s : Server) : Server :=
  { s with sent := s.sent ++ [(target, reply)] }

/-- A step. -/
def step (s : Server) : Act → Option Server
  | .serve target cursor =>
    match u.find target with
    | .error reply => some (s.send target reply)
    | .ok q =>
      let hit := s.cache.get (cacheKey q target) cursor
      hit.1.map fun e => { s with cache := hit.2 }.send target (.ok e.data)
  | .execute target cursor stored =>
    match u.find target with
    | .error _ => none
    | .ok q =>
      match u.execute q target with
      | none => some (s.send target .failed)
      | some data =>
        let entry := ⟨cacheKey q target, data, cursor, asked q target, 0⟩
        let cache :=
          if stored = true then s.cache.put u.maxEntries u.maxBytes entry else s.cache
        some ({ s with cache := cache }.send target (.ok data))
  | .events q data cursor =>
    let entry := ⟨q.cacheKey, data, cursor, .events q, 0⟩
    some { s with cache := s.cache.put u.maxEntries u.maxBytes entry }
  | .invalidate contract event => some { s with cache := s.cache.invalidate contract event }

/-- The server, with nothing in the cache. -/
def machine : Machine Server Act := ⟨{}, step u⟩

/-- **A step as it should be**: the parameters come in an order in which they are bound to their
names, and a cached answer is one to the same question. -/
def Meets (s : Server) : Act → Prop
  | .serve target cursor => ∀ q, u.find target = .ok q →
    ∀ e ∈ (s.cache.get (cacheKey q target) cursor).1, e.request = asked q target
  | .execute target _ _ => ∀ q, u.find target = .ok q → Fits u q target
  | _ => True

end Step

section Runs

variable {u : Setup} {s t : Server} {a : Act}

/-- The cached answers are right, and so were the replies. -/
structure Sound (u : Setup) (s : Server) : Prop where
  cache : ∀ e ∈ s.cache, ∀ q target, u.find target = .ok q → e.request = asked q target →
    u.expected q target = some e.data
  sent : ∀ p ∈ s.sent, p.2 = u.expectedReply p.1

theorem find_eq_ok {target : Text} {q : QueryConfig} (h : u.find target = .ok q) :
    u.queries.find? (fun q => q.name == queryName target) = some q := by
  unfold Setup.find at h
  split at h
  · cases h
  split at h
  · cases h
  · next q' hq' =>
    split at h
    · cases h
    · rw [hq', Except.ok.inj h]

/-- The name of a query and the values of its parameters make out what is to be answered. -/
theorem expected_congr {q q' : QueryConfig} {target target' : Text} (hq : u.find target = .ok q)
    (hq' : u.find target' = .ok q') (h : asked q target = asked q' target') :
    u.expected q target = u.expected q' target' := by
  obtain ⟨hname, hvalues⟩ := NamedQuery.mk.inj (Request.named.inj h)
  have hfind := find_eq_ok hq
  rw [hname, find_eq_ok hq'] at hfind
  obtain rfl := Option.some.inj hfind
  have hsame : ∀ name, isDeclared q'.params name = true →
      valueOf q'.params target name = valueOf q'.params target' name := by
    intro name hdeclared
    obtain ⟨p, hp, hpname⟩ := List.any_eq_true.1 hdeclared
    obtain rfl := beq_iff_eq.1 hpname
    exact (Prod.mk.inj (List.map_inj_left.1 hvalues p hp)).2
  rw [Setup.expected, Setup.expected]
  congr 1
  refine List.map_congr_left fun piece _ => ?_
  cases piece with
  | named mark name =>
    rw [fillDeclared, fillDeclared]
    split
    · next hboth => rw [hsame name hboth.2]
    · rfl
  | _ => rfl

theorem Sound.send (h : Sound u s) {target : Text} {reply : Reply}
    (hreply : reply = u.expectedReply target) : Sound u (s.send target reply) := by
  refine ⟨h.cache, fun p hp => ?_⟩
  rcases List.mem_append.1 hp with hp | hp
  · exact h.sent p hp
  · obtain rfl := List.mem_singleton.1 hp
    exact hreply

/-- What is left in the cache was there, or is right. -/
theorem Sound.cached (h : Sound u s) {c : Cache}
    (hc : ∀ e ∈ c, e ∈ s.cache ∨ ∀ q target, u.find target = .ok q →
      e.request = asked q target → u.expected q target = some e.data) :
    Sound u { s with cache := c } :=
  ⟨fun e he => (hc e he).elim (h.cache e) id, h.sent⟩

/-- **A step.** -/
theorem Sound.step (hlex : Lexes u.backend u.cut) (h : Sound u s) (hmeets : Meets u s a)
    (hstep : step u s a = some t) : Sound u t := by
  cases a with
  | serve target cursor =>
    rw [Configured.step] at hstep
    split at hstep
    · next reply hfind =>
      obtain rfl := Option.some.inj hstep
      exact h.send (by rw [Setup.expectedReply, hfind])
    · next q hfind =>
      obtain ⟨hhit, hkept⟩ := Cache.get_spec (cacheKey q target) cursor s.cache
      obtain ⟨e, he, rfl⟩ := Option.map_eq_some_iff.1 hstep
      have hdata := h.cache e (hhit e he).1 q target hfind (hmeets q hfind e he)
      refine (h.cached fun e' he' => .inl (hkept e' he')).send ?_
      rw [Setup.expectedReply, hfind]
      dsimp only
      rw [hdata]
      rfl
  | execute target cursor stored =>
    rw [Configured.step] at hstep
    split at hstep
    · cases hstep
    next q hfind =>
    have hexpected : u.execute q target = u.expected q target :=
      execute_of_fits hlex (hmeets q hfind)
    have hreply : u.expectedReply target = .ofRows (u.execute q target) := by
      rw [Setup.expectedReply, hfind, hexpected]
    split at hstep
    · next hnone =>
      obtain rfl := Option.some.inj hstep
      exact h.send (by rw [hreply, hnone]; rfl)
    · next data hdata =>
      obtain rfl := Option.some.inj hstep
      refine Sound.send (h.cached fun e he => ?_) (by rw [hreply, hdata]; rfl)
      split at he
      · refine (Cache.mem_put he).imp_right ?_
        rintro rfl q' target' hfind' hasked
        rw [← expected_congr hfind hfind' hasked, ← hexpected, hdata]
      · exact .inl he
  | events q data cursor =>
    obtain rfl := Option.some.inj hstep
    refine h.cached fun e he => (Cache.mem_put he).imp_right ?_
    rintro rfl q' target _ hasked
    cases hasked
  | invalidate contract event =>
    obtain rfl := Option.some.inj hstep
    exact h.cached fun e he => .inl (List.mem_filter.1 he).1

end Runs

/-! ### A query with two parameters -/

/-- The pieces of `SELECT $a, $b`, and what they are with placeholders. -/
def twoPieces (first second : Piece) : List Piece :=
  [.text "SELECT ".toList, first, .text ", ".toList, second]

/-- A parameter, or the placeholder instead. -/
def forms (name : Text) : List Piece := [.named '$' name, .next]

/-- How SQLite cuts them. -/
def cutTwo (sql : Text) : List Piece :=
  (((forms ['a']).flatMap fun x => (forms ['b']).map (twoPieces x)).find?
      fun ps => render ps == sql).getD [.text sql]

/-- The rows of such a query: its text, with the values quoted. -/
def rowsTwo (items : List Item) : Option Text :=
  some (items.flatMap fun
    | .text s => s
    | .value none => "NULL".toList
    | .value (some v) => '\'' :: (v ++ ['\'']))

/-- `SELECT $a, $b` -/
def two : Setup where
  queries := [⟨"two".toList, "SELECT $a, $b".toList, [⟨['a'], ['0']⟩, ⟨['b'], ['0']⟩]⟩]
  cut := cutTwo
  rows := rowsTwo

theorem mem_forms_of_replaced {p p' : Piece} {name : Text} (hp : p ∈ forms name)
    (h : Replaced .sqlite p p') : p' ∈ forms name := by
  obtain rfl | ⟨name', i, -, -, rfl⟩ := h
  · exact hp
  · exact List.mem_cons_of_mem _ List.mem_cons_self

theorem eq_of_replaced_text {backend : Backend} {s : Text} {p' : Piece}
    (h : Replaced backend (.text s) p') : p' = .text s := by
  obtain h | ⟨name, i, -, hp, -⟩ := h
  · exact h
  · cases hp

theorem lexes_two : Lexes two.backend two.cut where
  render_cut sql := by
    show render (cutTwo sql) = sql
    unfold cutTwo
    cases hfind : List.find? _ _ with
    | none => exact List.append_nil sql
    | some ps => exact beq_iff_eq.1 (List.find?_some (p := fun ps => render ps == sql) hfind)
  cut_render sql ps h := by
    have hforms : ∀ x ∈ forms ['a'], ∀ y ∈ forms ['b'],
        cutTwo (render (twoPieces x y)) = twoPieces x y := by decide +kernel
    have hcut : cutTwo sql = [.text sql] ∨
        ∃ x ∈ forms ['a'], ∃ y ∈ forms ['b'], cutTwo sql = twoPieces x y := by
      unfold cutTwo
      cases hfind : List.find? _ _ with
      | none => exact .inl rfl
      | some ts =>
        obtain ⟨x, hx, hts⟩ := List.mem_flatMap.1 (List.mem_of_find?_eq_some hfind)
        obtain ⟨y, hy, rfl⟩ := List.mem_map.1 hts
        exact .inr ⟨x, hx, y, hy, rfl⟩
    replace h : List.Forall₂ (Replaced .sqlite) (cutTwo sql) ps := h
    show cutTwo (render ps) = ps
    obtain hcut | ⟨x, hx, y, hy, hcut⟩ := hcut
    · rw [hcut] at h
      obtain ⟨p, ps, hp, hnil, rfl⟩ := List.forall₂_cons_left_iff.1 h
      obtain rfl := List.forall₂_nil_left_iff.1 hnil
      obtain rfl := eq_of_replaced_text hp
      rw [render, List.flatMap_singleton]
      exact hcut
    · rw [hcut] at h
      obtain ⟨p₁, _, hp₁, h₁, rfl⟩ := List.forall₂_cons_left_iff.1 h
      obtain ⟨p₂, _, hp₂, h₂, rfl⟩ := List.forall₂_cons_left_iff.1 h₁
      obtain ⟨p₃, _, hp₃, h₃, rfl⟩ := List.forall₂_cons_left_iff.1 h₂
      obtain ⟨p₄, _, hp₄, h₄, rfl⟩ := List.forall₂_cons_left_iff.1 h₃
      obtain rfl := List.forall₂_nil_left_iff.1 h₄
      obtain rfl := eq_of_replaced_text hp₁
      obtain rfl := eq_of_replaced_text hp₃
      exact hforms _ (mem_forms_of_replaced hx hp₂) _ (mem_forms_of_replaced hy hp₄)

/-- A text without `$` is not touched. -/
theorem untouched_of_notMem {names : List Text} {s rest : Text} (h : '$' ∉ s) :
    Untouched names s rest :=
  fun _ ht _ => absurd (ht.subset List.mem_cons_self) h

theorem fits_two (q : QueryConfig) (hq : two.find "/queries/two?a=1&b=2".toList = .ok q) :
    Fits two q "/queries/two?a=1&b=2".toList := by
  obtain rfl := Option.some.inj (find_eq_ok hq)
  refine ⟨?_, by decide +kernel, fun _ => by decide +kernel, fun h => absurd h (by decide),
    by decide +kernel⟩
  have hcut : two.cut "SELECT $a, $b".toList =
      twoPieces (.named '$' ['a']) (.named '$' ['b']) := by decide +kernel
  have hordinary : ∀ name ∈ [['a'], ['b']], Ordinary name := by
    simp [Ordinary]
  show Plain _ (two.cut "SELECT $a, $b".toList)
  rw [hcut]
  refine ⟨untouched_of_notMem (by decide), ⟨rfl, hordinary _ (by simp), by decide +kernel⟩,
    untouched_of_notMem (by decide), ⟨rfl, hordinary _ (by simp), by decide +kernel⟩, trivial⟩

end Configured

end Zponder

import Zponder.Lib.Machine
import Zponder.Schema

/-!
# The outbox of the webhooks

`webhook.Manager`: a table of its own, into which the indexers put rows, and one worker
that sends them. The worker reads the clock, claims the first row that is due, sends it,
and notes what became of it. Each of these is a step of its own
(`Zponder.Webhook.outbox`), so that a row may be put, the clock may go on and the process may
die between any two of them.

What the worker knows of a row while it is being sent is a copy, and the number of attempts
it writes back is that of the copy plus one. That the copy is never out of date rests on
there being one worker, which a death leaves with nothing in its hands.
-/

namespace Zponder.Webhook

open Imperative

/-! ### The table -/

/-- `max_attempts` -/
def maxAttempts : Nat := 8

/-- `retryDelayMs` -/
def retryDelayMs (failedAttempts : Nat) : Nat :=
  if failedAttempts = 0 then 1000
  else min (1000 <<< min (failedAttempts - 1) 6) 60000

/-- The delays double, up to a minute. -/
theorem retryDelayMs_eq {n : Nat} (h : 0 < n) :
    retryDelayMs n = min (2 ^ (n - 1)) 60 * 1000 := by
  rw [retryDelayMs, if_neg (by omega), Nat.shiftLeft_eq]
  obtain ⟨k, rfl⟩ : ∃ k, n = k + 1 := ⟨n - 1, by omega⟩
  rw [Nat.add_sub_cancel]
  by_cases hk : k ≤ 6
  · rw [min_eq_left hk]
    interval_cases k <;> rfl
  · -- from the seventh on the shift stands still, and the power is beyond the minute
    have hpow : 2 ^ 6 ≤ 2 ^ k := Nat.pow_le_pow_right (by omega) (by omega)
    rw [min_eq_right (by omega : 6 ≤ k), min_eq_right (by omega : 60 ≤ 2 ^ k)]
    rfl

/-- A row of `webhook_outbox`. -/
structure Row where
  id : Nat
  url : Text
  payload : Text
  attempts : Nat := 0
  nextAttemptMs : Int
  dead : Nat := 0
  lastError : Text := []
  deriving DecidableEq, Repr

/-- The copy of a row the worker has: `Row` in the source. -/
structure Claimed where
  id : Nat
  url : Text
  payload : Text
  attempts : Nat
  deriving DecidableEq, Repr

/-- What `fetch` comes back with. -/
inductive Answer where
  | transport (err : Text)
  | status (code : Nat)
  deriving DecidableEq, Repr

/-- A status between 200 and 299. -/
def Answer.ok : Answer → Bool
  | .transport _ => false
  | .status code => !(decide (code < 200) || decide (code ≥ 300))

/-- What is written into `last_error`. -/
def Answer.message : Answer → Text
  | .transport err => err
  | .status code => "HTTP ".toList ++ (toString code).toList

/-- What `noteFailure` sets in the row. -/
def Row.failed (prevAttempts : Nat) (now : Int) (msg : Text) (r : Row) : Row :=
  let attempts := prevAttempts + 1
  let dead := if attempts ≥ maxAttempts then 1 else 0
  { r with
    attempts := attempts
    dead := dead
    nextAttemptMs := if dead = 1 then now else now + retryDelayMs attempts
    lastError := msg }

/-- `noteFailure` -/
def noteFailure (id prevAttempts : Nat) (now : Int) (msg : Text) (rows : List Row) : List Row :=
  rows.map fun r => if r.id = id then r.failed prevAttempts now msg else r

/-- `noteSuccess` -/
def noteSuccess (id : Nat) (rows : List Row) : List Row := rows.filter (·.id != id)

/-- `claimDue` -/
def claimDue (now : Int) (rows : List Row) : Option Claimed :=
  let due := rows.filter fun r => r.dead == 0 && decide (r.nextAttemptMs ≤ now)
  (due.insertionSort fun a b => a.id ≤ b.id).head?.map fun r =>
    ⟨r.id, r.url, r.payload, r.attempts⟩

/-! ### The steps -/

/-- Where the worker is in its loop. -/
inductive Worker where
  | idle
  /-- It has read the clock. -/
  | looked (now : Int)
  | claimed (row : Claimed) (now : Int)
  | answered (row : Claimed) (now : Int) (answer : Answer)
  deriving DecidableEq, Repr

/-- A row that was sent: as it stood in the table, and what the clock said. -/
structure Sent where
  id : Nat
  row : Option Row
  now : Int
  deriving DecidableEq, Repr

/-- A failure that was recorded, with the time the worker had read. -/
structure Failure where
  id : Nat
  now : Int
  deriving DecidableEq, Repr

/-- The table, the worker and the clock, and a record of what happened. -/
structure Outbox where
  rows : List Row := []
  /-- The last id that was given away; `AUTOINCREMENT` gives none twice. -/
  lastId : Nat := 0
  clock : Int := 0
  running : Bool := true
  worker : Worker := .idle
  enqueued : List Nat := []
  sends : List Sent := []
  answers : List (Nat × Answer) := []
  failures : List Failure := []
  deriving DecidableEq, Repr

/-- What can happen. A statement says by `ok` whether it went through. -/
inductive Act where
  | enqueue (url payload : Text) (now : Int) (ok : Bool)
  | look
  | claim (ok : Bool)
  | send (answer : Answer)
  | note (ok : Bool)
  | pass (ms : Nat)
  | stop
  /-- The process ends, as it likes, and begins again. -/
  | restart
  deriving DecidableEq, Repr

/-- `enqueue` -/
def enqueue (url payload : Text) (now : Int) (s : Outbox) : Outbox :=
  let id := s.lastId + 1
  { s with
    rows := s.rows ++ [{ id := id, url := url, payload := payload, nextAttemptMs := now }]
    lastId := id
    enqueued := s.enqueued ++ [id] }

/-- The end of `deliver`: the statement that goes through. -/
def note (row : Claimed) (now : Int) (answer : Answer) (s : Outbox) : Outbox :=
  if answer.ok = true then { s with rows := noteSuccess row.id s.rows }
  else { s with
    rows := noteFailure row.id row.attempts now answer.message s.rows
    failures := s.failures ++ [⟨row.id, now⟩] }

/-- One step. The worker takes those of its loop, and none when it is somewhere else. -/
def step (s : Outbox) : Act → Option Outbox
  | .enqueue url payload now ok => some (if ok = true then enqueue url payload now s else s)
  | .look =>
    match s.worker with
    | .idle => if s.running = true then some { s with worker := .looked s.clock } else none
    | _ => none
  | .claim ok =>
    match s.worker with
    | .looked now =>
      match if ok = true then claimDue now s.rows else none with
      | none => some { s with worker := .idle }
      | some row => some { s with worker := .claimed row now }
    | _ => none
  | .send answer =>
    match s.worker with
    | .claimed row now =>
      some { s with
        worker := .answered row now answer
        sends := s.sends ++ [⟨row.id, s.rows.find? (·.id == row.id), s.clock⟩]
        answers := s.answers ++ [(row.id, answer)] }
    | _ => none
  | .note ok =>
    match s.worker with
    | .answered row now answer =>
      some { (if ok = true then note row now answer s else s) with worker := .idle }
    | _ => none
  | .pass ms => some { s with clock := s.clock + ms }
  | .stop => some { s with running := false }
  | .restart => some { s with running := true, worker := .idle }

/-- The outbox and all that goes on around it. -/
def outbox : Machine Outbox Act where
  init := {}
  step := step

/-! ### What is kept -/

/-- **The life of a row**: it is pending, dead or delivered; its attempts are the failures
that were recorded; it was only ever sent when it was due and not dead; and after its
`n`-th failure it waits for `min (2 ^ (n - 1)) 60` seconds, from the time the worker had
read. -/
structure Orderly (s : Outbox) : Prop where
  fate : ∀ id ∈ s.enqueued,
    (∃ r ∈ s.rows, r.id = id ∧
      (r.dead = 0 ∧ r.attempts < maxAttempts ∨ r.dead = 1 ∧ r.attempts = maxAttempts)) ∨
    ((∀ r ∈ s.rows, r.id ≠ id) ∧ ∃ answer, (id, answer) ∈ s.answers ∧ answer.ok = true)
  single : (s.rows.map (·.id)).Nodup
  attempts : ∀ r ∈ s.rows, r.attempts = (s.failures.filter (·.id == r.id)).length
  sent : ∀ x ∈ s.sends, ∃ r, x.row = some r ∧ r.id = x.id ∧ r.dead = 0 ∧
    r.nextAttemptMs ≤ x.now
  waits : ∀ r ∈ s.rows, r.dead = 0 → 0 < r.attempts →
    ∃ f, (s.failures.filter (·.id == r.id)).getLast? = some f ∧
      r.nextAttemptMs = f.now + ↑(min (2 ^ (r.attempts - 1)) 60 * 1000)

/-- The worker's copy is that of a row, which was due when the clock was read. -/
structure Fresh (s : Outbox) (c : Claimed) (now : Int) : Prop where
  row : ∃ r ∈ s.rows, r.id = c.id ∧ r.attempts = c.attempts ∧ r.dead = 0 ∧
    r.nextAttemptMs ≤ now
  clock : now ≤ s.clock

/-- What is true of the worker. -/
def AtWork (s : Outbox) : Worker → Prop
  | .idle => True
  | .looked now => now ≤ s.clock
  | .claimed c now => Fresh s c now
  | .answered c now answer => Fresh s c now ∧ (c.id, answer) ∈ s.answers

/-- The invariant: besides what is asked for, every row was enqueued, and nothing is known
of ids that were not given away. -/
structure Inv (s : Outbox) : Prop where
  orderly : Orderly s
  known : ∀ r ∈ s.rows, r.id ∈ s.enqueued
  ids : ∀ id ∈ s.enqueued, id ≤ s.lastId
  failures : ∀ f ∈ s.failures, f.id ≤ s.lastId
  worker : AtWork s s.worker

variable {s t : Outbox}

theorem AtWork.mono {w : Worker} (h : AtWork s w) (hclock : s.clock ≤ t.clock)
    (hrows : ∀ r ∈ s.rows, r ∈ t.rows) (hans : ∀ x ∈ s.answers, x ∈ t.answers) : AtWork t w := by
  have hfresh : ∀ {c now}, Fresh s c now → Fresh t c now := by
    rintro c now ⟨⟨r, hr, hrest⟩, hnow⟩
    exact ⟨⟨r, hrows r hr, hrest⟩, hnow.trans hclock⟩
  cases w with
  | idle => trivial
  | looked now => exact le_trans (show now ≤ s.clock from h) hclock
  | claimed c now => exact hfresh h
  | answered c now answer => exact ⟨hfresh h.1, hans _ h.2⟩

theorem Inv.start : Inv {} where
  orderly := ⟨by simp, by simp, by simp, by simp, by simp⟩
  known := by simp
  ids := by simp
  failures := by simp
  worker := trivial

/-- Where the table and the record of it are the same, so is what is kept of them. -/
theorem Inv.of_same (h : Inv s) (hrows : t.rows = s.rows) (hid : t.lastId = s.lastId)
    (henq : t.enqueued = s.enqueued) (hsends : t.sends = s.sends)
    (hans : t.answers = s.answers) (hfail : t.failures = s.failures) (hwork : AtWork t t.worker) :
    Inv t where
  orderly := by
    obtain ⟨⟨h₁, h₂, h₃, h₄, h₅⟩, -⟩ := h
    exact ⟨by rwa [henq, hrows, hans], by rwa [hrows], by rwa [hrows, hfail], by rwa [hsends],
      by rwa [hrows, hfail]⟩
  known := by rw [hrows, henq]; exact h.known
  ids := by rw [henq, hid]; exact h.ids
  failures := by rw [hfail, hid]; exact h.failures
  worker := hwork

/-! ### Putting a row -/

theorem Inv.fresh_id (h : Inv s) : ∀ r ∈ s.rows, r.id ≠ s.lastId + 1 := by
  intro r hr heq
  have := h.ids _ (h.known r hr)
  omega

theorem Inv.enqueue (h : Inv s) (url payload : Text) (now : Int) :
    Inv (Webhook.enqueue url payload now s) where
  orderly := {
    fate := by
      intro id hid
      rcases List.mem_append.1 hid with hid | hid
      · rcases h.orderly.fate id hid with ⟨r, hr, hrest⟩ | ⟨habs, hans⟩
        · exact .inl ⟨r, List.mem_append_left _ hr, hrest⟩
        · refine .inr ⟨fun r hr => ?_, hans⟩
          rcases List.mem_append.1 hr with hr | hr
          · exact habs r hr
          · obtain rfl := List.mem_singleton.1 hr
            have := h.ids id hid
            simp only
            omega
      · obtain rfl := List.mem_singleton.1 hid
        exact .inl ⟨_, List.mem_append_right _ (List.mem_singleton_self _), rfl,
          .inl ⟨rfl, by simp [maxAttempts]⟩⟩
    single := by
      simp only [Webhook.enqueue, List.map_append, List.map_cons, List.map_nil]
      refine List.nodup_append.2 ⟨h.orderly.single, List.nodup_singleton _, ?_⟩
      rintro id hid _ hnew rfl
      obtain ⟨r, hr, rfl⟩ := List.mem_map.1 hid
      exact h.fresh_id r hr (List.mem_singleton.1 hnew)
    attempts := by
      intro r hr
      rcases List.mem_append.1 hr with hr | hr
      · exact h.orderly.attempts r hr
      · obtain rfl := List.mem_singleton.1 hr
        refine (List.length_eq_zero_iff.2 (List.filter_eq_nil_iff.2 fun f hf => ?_)).symm
        have := h.failures f hf
        simp only [beq_iff_eq]
        omega
    sent := h.orderly.sent
    waits := by
      intro r hr
      rcases List.mem_append.1 hr with hr | hr
      · exact h.orderly.waits r hr
      · obtain rfl := List.mem_singleton.1 hr
        intro _ hpos
        exact absurd hpos (lt_irrefl 0) }
  known := by
    intro r hr
    rcases List.mem_append.1 hr with hr | hr
    · exact List.mem_append_left _ (h.known r hr)
    · obtain rfl := List.mem_singleton.1 hr
      exact List.mem_append_right _ (List.mem_singleton_self _)
  ids := by
    intro id hid
    rcases List.mem_append.1 hid with hid | hid
    · exact (h.ids id hid).trans (Nat.le_succ _)
    · exact (List.mem_singleton.1 hid).le
  failures f hf := (h.failures f hf).trans (Nat.le_succ _)
  worker := h.worker.mono le_rfl (fun _ hr => List.mem_append_left _ hr) fun _ hx => hx

/-! ### Claiming and sending -/

/-- There is one row with an id. -/
theorem Inv.row_unique (h : Inv s) {r r' : Row} (hr : r ∈ s.rows) (hr' : r' ∈ s.rows)
    (hid : r.id = r'.id) : r = r' :=
  List.inj_on_of_nodup_map h.orderly.single hr hr' hid

theorem Inv.row_state (h : Inv s) {r : Row} (hr : r ∈ s.rows) :
    r.dead = 0 ∧ r.attempts < maxAttempts ∨ r.dead = 1 ∧ r.attempts = maxAttempts := by
  rcases h.orderly.fate r.id (h.known r hr) with ⟨r', hr', hid, hstate⟩ | ⟨habs, -⟩
  · rwa [h.row_unique hr hr' hid.symm]
  · exact absurd rfl (habs r hr)

/-- What is claimed is a row that is due. -/
theorem mem_of_claimDue {now : Int} {rows : List Row} {c : Claimed}
    (h : claimDue now rows = some c) : ∃ r ∈ rows, r.id = c.id ∧ r.attempts = c.attempts ∧
      r.dead = 0 ∧ r.nextAttemptMs ≤ now := by
  obtain ⟨r, hhead, rfl⟩ := Option.map_eq_some_iff.1 h
  have hmem := (List.mem_insertionSort _).1 (List.mem_of_head? hhead)
  obtain ⟨hr, hdue⟩ := List.mem_filter.1 hmem
  obtain ⟨hdead, hnext⟩ : r.dead = 0 ∧ r.nextAttemptMs ≤ now := by simpa using hdue
  exact ⟨r, hr, rfl, rfl, hdead, hnext⟩

theorem Inv.find_row (h : Inv s) {r : Row} (hr : r ∈ s.rows) :
    s.rows.find? (·.id == r.id) = some r := by
  obtain ⟨r', hfind⟩ : ∃ r', s.rows.find? (·.id == r.id) = some r' := by
    rw [← Option.isSome_iff_exists, List.find?_isSome]
    exact ⟨r, hr, by simp⟩
  have hid : r'.id = r.id := by simpa using List.find?_some hfind
  rw [hfind, h.row_unique (List.mem_of_find?_eq_some hfind) hr hid]

theorem Inv.send (h : Inv s) {c : Claimed} {now : Int} (hwork : Fresh s c now)
    (answer : Answer) :
    Inv { s with
      worker := .answered c now answer
      sends := s.sends ++ [⟨c.id, s.rows.find? (·.id == c.id), s.clock⟩]
      answers := s.answers ++ [(c.id, answer)] } where
  orderly := {
    fate := by
      intro id hid
      rcases h.orderly.fate id hid with hrow | ⟨habs, a, ha, hok⟩
      · exact .inl hrow
      · exact .inr ⟨habs, a, List.mem_append_left _ ha, hok⟩
    single := h.orderly.single
    attempts := h.orderly.attempts
    sent := by
      intro x hx
      rcases List.mem_append.1 hx with hx | hx
      · exact h.orderly.sent x hx
      · obtain rfl := List.mem_singleton.1 hx
        obtain ⟨⟨r, hr, hid, -, hdead, hnext⟩, hclock⟩ := hwork
        exact ⟨r, by rw [← hid, h.find_row hr], hid, hdead, hnext.trans hclock⟩
    waits := h.orderly.waits }
  known := h.known
  ids := h.ids
  failures := h.failures
  worker := ⟨⟨hwork.row, hwork.clock⟩, List.mem_append_right _ (List.mem_singleton_self _)⟩

/-! ### Noting -/

@[simp] theorem failed_id (n : Nat) (now : Int) (msg : Text) (r : Row) :
    (r.failed n now msg).id = r.id := rfl

/-- A row after a failure of the row with id `id` was noted. -/
theorem mem_noteFailure {id n : Nat} {now : Int} {msg : Text} {rows : List Row} {r : Row} :
    r ∈ noteFailure id n now msg rows ↔
      (r ∈ rows ∧ r.id ≠ id) ∨ ∃ r' ∈ rows, r'.id = id ∧ r = r'.failed n now msg := by
  simp only [noteFailure, List.mem_map]
  constructor
  · rintro ⟨r', hr', rfl⟩
    by_cases hid : r'.id = id
    · exact .inr ⟨r', hr', hid, by rw [if_pos hid]⟩
    · exact .inl (by rw [if_neg hid]; exact ⟨hr', hid⟩)
  · rintro (⟨hr, hid⟩ | ⟨r', hr', hid, rfl⟩)
    · exact ⟨r, hr, if_neg hid⟩
    · exact ⟨r', hr', if_pos hid⟩

theorem map_id_noteFailure {id n : Nat} {now : Int} {msg : Text} {rows : List Row} :
    (noteFailure id n now msg rows).map (·.id) = rows.map (·.id) := by
  rw [noteFailure, List.map_map]
  refine List.map_congr_left fun r _ => ?_
  simp only [Function.comp_apply]
  split
  · rfl
  · rfl

/-- What a failure does to a row that was pending. -/
theorem failed_state {r : Row} (now : Int) (msg : Text) (h : r.attempts < maxAttempts) :
    let r' := r.failed r.attempts now msg
    (r'.dead = 0 ∧ r'.attempts < maxAttempts ∧
        r'.nextAttemptMs = now + ↑(min (2 ^ (r'.attempts - 1)) 60 * 1000)) ∨
      r'.dead = 1 ∧ r'.attempts = maxAttempts := by
  by_cases hmax : r.attempts + 1 ≥ maxAttempts
  · refine .inr ⟨if_pos hmax, ?_⟩
    change r.attempts + 1 = maxAttempts
    omega
  · refine .inl ⟨if_neg hmax, by change r.attempts + 1 < maxAttempts; omega, ?_⟩
    simp only [Row.failed, if_neg hmax, zero_ne_one, if_false]
    rw [retryDelayMs_eq (Nat.succ_pos _), Nat.succ_eq_add_one]
    push_cast
    rfl

theorem Inv.noteFailure (h : Inv s) {c : Claimed} {now : Int} (hwork : Fresh s c now)
    (msg : Text) :
    Inv { s with
      worker := .idle
      rows := Webhook.noteFailure c.id c.attempts now msg s.rows
      failures := s.failures ++ [⟨c.id, now⟩] } := by
  obtain ⟨⟨r₀, hr₀, hid₀, hatt₀, hdead₀, -⟩, -⟩ := hwork
  have hlt : r₀.attempts < maxAttempts := by
    rcases h.row_state hr₀ with h₀ | h₀
    · exact h₀.2
    · omega
  -- the one row that changes is the one the copy was taken of
  have hcases : ∀ r ∈ Webhook.noteFailure c.id c.attempts now msg s.rows,
      (r ∈ s.rows ∧ r.id ≠ c.id) ∨ r = r₀.failed r₀.attempts now msg := by
    intro r hr
    rcases mem_noteFailure.1 hr with hold | ⟨r', hr', hid, rfl⟩
    · exact .inl hold
    · rw [← hatt₀, h.row_unique hr' hr₀ (hid.trans hid₀.symm)]
      exact .inr rfl
  have hmem₀ : r₀.failed r₀.attempts now msg ∈
      Webhook.noteFailure c.id c.attempts now msg s.rows :=
    mem_noteFailure.2 (.inr ⟨r₀, hr₀, hid₀, by rw [hatt₀]⟩)
  have hfilter : ∀ id, id ≠ c.id →
      (s.failures ++ [(⟨c.id, now⟩ : Failure)]).filter (·.id == id) =
        s.failures.filter (·.id == id) := by
    intro id hne
    simp [List.filter_append, Ne.symm hne]
  have hfilter₀ : (s.failures ++ [(⟨c.id, now⟩ : Failure)]).filter (·.id == c.id) =
      s.failures.filter (·.id == c.id) ++ [⟨c.id, now⟩] := by
    simp [List.filter_append]
  refine ⟨⟨?_, ?_, ?_, h.orderly.sent, ?_⟩, ?_, h.ids, ?_, trivial⟩
  · intro id hid
    by_cases hc : id = c.id
    · subst hc
      refine .inl ⟨_, hmem₀, hid₀, ?_⟩
      rcases failed_state now msg hlt with ⟨hd, hlt', -⟩ | hd
      · exact .inl ⟨hd, hlt'⟩
      · exact .inr hd
    · rcases h.orderly.fate id hid with ⟨r, hr, hrid, hstate⟩ | ⟨habs, hans⟩
      · exact .inl ⟨r, mem_noteFailure.2 (.inl ⟨hr, hrid ▸ hc⟩), hrid, hstate⟩
      · refine .inr ⟨fun r hr => ?_, hans⟩
        rcases hcases r hr with ⟨hr, -⟩ | rfl
        · exact habs r hr
        · rw [failed_id, hid₀]
          exact Ne.symm hc
  · rw [map_id_noteFailure]
    exact h.orderly.single
  · intro r hr
    rcases hcases r hr with ⟨hr, hne⟩ | rfl
    · rw [hfilter _ hne]
      exact h.orderly.attempts r hr
    · rw [failed_id, hid₀, hfilter₀, List.length_append, ← hid₀, ← h.orderly.attempts r₀ hr₀]
      rfl
  · intro r hr hdead hpos
    rcases hcases r hr with ⟨hr, hne⟩ | rfl
    · rw [hfilter _ hne]
      exact h.orderly.waits r hr hdead hpos
    · refine ⟨⟨c.id, now⟩, by rw [failed_id, hid₀, hfilter₀, List.getLast?_concat], ?_⟩
      rcases failed_state now msg hlt with ⟨-, -, hnext⟩ | ⟨hd, -⟩
      · exact hnext
      · omega
  · intro r hr
    rcases hcases r hr with ⟨hr, -⟩ | rfl
    · exact h.known r hr
    · exact h.known r₀ hr₀
  · intro f hf
    rcases List.mem_append.1 hf with hf | hf
    · exact h.failures f hf
    · obtain rfl := List.mem_singleton.1 hf
      exact hid₀ ▸ h.ids _ (h.known r₀ hr₀)

theorem Inv.noteSuccess (h : Inv s) {id : Nat} {answer : Answer}
    (hans : (id, answer) ∈ s.answers) (hok : answer.ok = true) :
    Inv { s with worker := .idle, rows := Webhook.noteSuccess id s.rows } := by
  have hmem : ∀ r, r ∈ Webhook.noteSuccess id s.rows ↔ r ∈ s.rows ∧ r.id ≠ id := by
    intro r
    simp [Webhook.noteSuccess]
  refine ⟨⟨?_, ?_, ?_, h.orderly.sent, ?_⟩, ?_, h.ids, h.failures, trivial⟩
  · intro id' hid'
    by_cases hc : id' = id
    · subst hc
      exact .inr ⟨fun r hr => ((hmem r).1 hr).2, answer, hans, hok⟩
    · rcases h.orderly.fate id' hid' with ⟨r, hr, hrid, hstate⟩ | ⟨habs, hans⟩
      · exact .inl ⟨r, (hmem r).2 ⟨hr, hrid ▸ hc⟩, hrid, hstate⟩
      · exact .inr ⟨fun r hr => habs r ((hmem r).1 hr).1, hans⟩
  · exact h.orderly.single.sublist ((List.filter_sublist).map _)
  · exact fun r hr => h.orderly.attempts r ((hmem r).1 hr).1
  · exact fun r hr => h.orderly.waits r ((hmem r).1 hr).1
  · exact fun r hr => h.known r ((hmem r).1 hr).1

/-! ### Runs -/

/-- **One step keeps the invariant.** -/
theorem Inv.step (h : Inv s) {a : Act} (hstep : Webhook.step s a = some t) : Inv t := by
  have hwork := h.worker
  cases a with
  | enqueue url payload now ok =>
    obtain rfl := Option.some.inj hstep
    split
    · exact h.enqueue url payload now
    · exact h
  | look =>
    simp only [Webhook.step] at hstep
    split at hstep
    · split at hstep
      · obtain rfl := Option.some.inj hstep
        exact h.of_same rfl rfl rfl rfl rfl rfl (show s.clock ≤ s.clock from le_rfl)
      · cases hstep
    · cases hstep
  | claim ok =>
    simp only [Webhook.step] at hstep
    split at hstep
    · next now hw =>
      rw [hw] at hwork
      split at hstep
      · obtain rfl := Option.some.inj hstep
        exact h.of_same rfl rfl rfl rfl rfl rfl trivial
      · next row hrow =>
        obtain rfl := Option.some.inj hstep
        have hclaim : claimDue now s.rows = some row := by
          split at hrow
          · exact hrow
          · cases hrow
        exact h.of_same rfl rfl rfl rfl rfl rfl
          (show Fresh _ row now from ⟨mem_of_claimDue hclaim, hwork⟩)
    · cases hstep
  | send answer =>
    simp only [Webhook.step] at hstep
    split at hstep
    · next row now hw =>
      rw [hw] at hwork
      obtain rfl := Option.some.inj hstep
      exact h.send hwork answer
    · cases hstep
  | note ok =>
    simp only [Webhook.step] at hstep
    split at hstep
    · next row now answer hw =>
      rw [hw] at hwork
      obtain ⟨hfresh, hans⟩ := hwork
      obtain rfl := Option.some.inj hstep
      split
      · rw [note]
        split
        · next hok => exact h.noteSuccess hans hok
        · exact h.noteFailure hfresh _
      · exact h.of_same rfl rfl rfl rfl rfl rfl trivial
    · cases hstep
  | pass ms =>
    obtain rfl := Option.some.inj hstep
    exact h.of_same rfl rfl rfl rfl rfl rfl
      (hwork.mono (by simp) (fun _ hr => hr) fun _ hx => hx)
  | stop =>
    obtain rfl := Option.some.inj hstep
    exact h.of_same rfl rfl rfl rfl rfl rfl (hwork.mono le_rfl (fun _ hr => hr) fun _ hx => hx)
  | restart =>
    obtain rfl := Option.some.inj hstep
    exact h.of_same rfl rfl rfl rfl rfl rfl trivial

/-- **Every row of the outbox leads an orderly life**, in every state that can be reached,
and the delays it waits for are those of `retryDelayMs`. -/
theorem orderly_of_reachable (h : outbox.Reachable s) :
    Orderly s ∧ ∀ n, 0 < n → retryDelayMs n = min (2 ^ (n - 1)) 60 * 1000 := by
  have hinv : Inv s := Machine.Reaches.invariant Inv.start (fun _ _ _ hs _ => hs.step) h
  exact ⟨hinv.orderly, fun _ => retryDelayMs_eq⟩

/-- A row is put, sent in vain, noted, and sent again a second later. -/
def secondTry : List Act :=
  [Act.enqueue "u".toList "p".toList 0 true, Act.look, Act.claim true,
    Act.send (Answer.status 500), Act.note true, Act.pass 1000, Act.look, Act.claim true,
    Act.send (Answer.status 204), Act.note true]

theorem orderly_secondTry : ∃ s, outbox.run outbox.init secondTry = some s ∧
    s.enqueued = [1] ∧ s.rows = [] ∧ Orderly s := by
  obtain ⟨s, hrun, hs⟩ : ∃ s, outbox.run outbox.init secondTry = some s ∧
      (s.enqueued = [1] ∧ s.rows = []) := by
    have h : ((outbox.run outbox.init secondTry).map fun s =>
        decide (s.enqueued = [1] ∧ s.rows = [])) = some true := by decide +kernel
    obtain ⟨s, hrun, hs⟩ := Option.map_eq_some_iff.1 h
    exact ⟨s, hrun, of_decide_eq_true hs⟩
  exact ⟨s, hrun, hs.1, hs.2, (orderly_of_reachable (Machine.reachable_of_run hrun)).1⟩

end Zponder.Webhook

import Zponder.Lib.Machine
import Zponder.World

/-!
# The engine the handlers run in

`JsEngine.handleEvent` and `JsEngine.handleHttpRequest`, as far as the queue of pending
jobs goes. What a handler or a job does is up to the scripts: it writes through
`ponder.db`, it queues jobs, it throws or not, and it may reject the promise the handler it
belongs to has returned (`Zponder.Js.Scripts.run`). An async function returns a promise
where another would throw, and the rest of it is a job.

There is one queue for all calls. A call runs a hundred jobs at most and stops at the first
that throws, so what it leaves is run by a later call, in another transaction. The engine
looks at the result of the handler only to see whether it threw: of a promise it does not
learn what became of it. Both are recorded for the reader, who compares the call a
piece of code belongs to with the one it runs in.
-/

namespace Zponder

open Imperative

namespace Js

/-- What a piece of code did when it ran. -/
structure Ran (J W : Type) where
  /-- Its writes through `ponder.db`. -/
  writes : List W := []
  /-- The jobs it queued. -/
  queued : List J := []
  threw : Bool := false
  /-- It rejected the promise of the handler it belongs to. -/
  rejects : Bool := false

/-- The scripts: the registered handlers, and what a piece of code does. It may do
something else each time it runs, so it is told how many ran before. -/
structure Scripts (J W : Type) where
  handlers : Text → Option (EventCall → J)
  run : Nat → J → Ran J W

/-- A piece of code, and the call on whose behalf it runs. -/
structure Job (J : Type) where
  owner : Nat
  code : J

/-- A write, the call on whose behalf it was made, and the call it was made in. -/
structure Write (W : Type) where
  owner : Nat
  during : Nat
  write : W
  deriving DecidableEq

/-- The engine, and a record of what happened in it. -/
structure Engine (J W : Type) where
  /-- `rt->job_list` -/
  queue : List (Job J) := []
  /-- How many pieces of code have run. -/
  ran : Nat := 0
  /-- How many calls there were. -/
  calls : Nat := 0
  written : List (Write W) := []
  /-- The calls whose handler threw, or had its promise rejected. -/
  failed : List Nat := []
  /-- The calls of `handleEvent` that are over, and what they returned. -/
  answers : List (Nat × Bool) := []

section Engine

variable {J W : Type} (S : Scripts J W)

/-- Run a piece of code in the call `during`. -/
def exec (during : Nat) (job : Job J) (e : Engine J W) : Engine J W :=
  let r := S.run e.ran job.code
  { e with
    queue := e.queue ++ r.queued.map fun code => ⟨job.owner, code⟩
    ran := e.ran + 1
    written := e.written ++ r.writes.map fun w => ⟨job.owner, during, w⟩
    failed := if r.rejects = true then e.failed ++ [job.owner] else e.failed }

/-- The loop over `JS_ExecutePendingJob`, with `n` turns to go. -/
def runJobs (during : Nat) : Nat → Engine J W → Engine J W
  | 0, e => e
  | n + 1, e =>
    match e.queue with
    | [] => e
    | job :: rest =>
      let e' := exec S during job { e with queue := rest }
      if (S.run e.ran job.code).threw = true then e' else runJobs during n e'

/-- `self.handlers.get("Contract:Event") orelse self.handlers.get("Event")` -/
def findHandler (call : EventCall) : Option J :=
  let byName := fun name => (S.handlers name).map fun handler => handler call
  (byName (call.contractName ++ ":".toList ++ call.eventName)).orElse fun _ =>
    byName call.eventName

/-- The call of a handler: one that throws has failed. -/
def callHandler (code : J) (e : Engine J W) : Engine J W :=
  let e' := exec S e.calls ⟨e.calls, code⟩ e
  if (S.run e.ran code).threw = true then { e' with failed := e'.failed ++ [e.calls] } else e'

/-- `handleEvent`: whether the handler did not throw. -/
def handleEvent (call : EventCall) (e : Engine J W) : Bool × Engine J W :=
  match findHandler S call with
  | none => (true, e)
  | some code => (!(S.run e.ran code).threw, runJobs S e.calls 100 (callHandler S code e))

/-- `handleHttpRequest`: the middlewares and the handler of the route that matches, if one
does, and the pending jobs. -/
def handleHttpRequest (route : Option J) (e : Engine J W) : Engine J W :=
  match route with
  | none => e
  | some code => runJobs S e.calls 100 (exec S e.calls ⟨e.calls, code⟩ e)

/-- The calls of the engine. -/
inductive Call (J : Type) where
  | event (call : EventCall)
  | request (route : Option J)

/-- A call, with its answer put on record. -/
def step (e : Engine J W) : Call J → Option (Engine J W)
  | .event call =>
    let r := handleEvent S call e
    some { r.2 with calls := e.calls + 1, answers := r.2.answers ++ [(e.calls, r.1)] }
  | .request route => some { handleHttpRequest S route e with calls := e.calls + 1 }

/-- An engine and whoever calls it. One call is over before the next begins, since the
engine has a lock. -/
def engine : Machine (Engine J W) (Call J) where
  init := {}
  step := step S

end Engine

/-! ### What is asked of it -/

section Faithful

variable {J W : Type} (S : Scripts J W)

/-- The call was one of `handleEvent`. -/
def Engine.IsEvent (e : Engine J W) (id : Nat) : Prop := ∃ ok, (id, ok) ∈ e.answers

/-- **A handler's writes belong to its event**: they were made in its own call, none of its
code is left for another, and if it failed, the call said so. -/
structure Faithful (e : Engine J W) : Prop where
  writes : ∀ w ∈ e.written, e.IsEvent w.owner → w.during = w.owner
  settled : ∀ job ∈ e.queue, ¬e.IsEvent job.owner
  reported : ∀ id ∈ e.failed, (id, true) ∉ e.answers

/-- A job that runs does not reject the promise of call `id`, unless the handler threw and
there is no promise. -/
def Holds (id : Nat) (threw : Bool) (moment : Nat) (job : Job J) : Prop :=
  job.owner = id → (S.run moment job.code).rejects = true → threw = true

/-- What is in the queue when a job has run. -/
def queueAfter (moment : Nat) (job : Job J) (q : List (Job J)) : List (Job J) :=
  q ++ (S.run moment job.code).queued.map fun code => ⟨job.owner, code⟩

/-- **The jobs of call `id` come to a good end** within `n` turns: the queue `q` is worked
off until none of them is left, and only the last of what is run may throw. -/
inductive Settles (id : Nat) (threw : Bool) : Nat → Nat → List (Job J) → Prop
  | done {moment n : Nat} {q : List (Job J)} (h : ∀ j ∈ q, j.owner ≠ id) :
    Settles id threw moment n q
  | run {moment n : Nat} {job : Job J} {q : List (Job J)} (hholds : Holds S id threw moment job)
    (hok : (S.run moment job.code).threw = false)
    (h : Settles id threw (moment + 1) n (queueAfter S moment job q)) :
    Settles id threw moment (n + 1) (job :: q)
  | last {moment n : Nat} {job : Job J} {q : List (Job J)} (hholds : Holds S id threw moment job)
    (hthrew : (S.run moment job.code).threw = true)
    (h : ∀ j ∈ queueAfter S moment job q, j.owner ≠ id) :
    Settles id threw moment (n + 1) (job :: q)

/-- **The calls that are well**: those of an event whose handler does not reject its
promise, and whose jobs come to a good end behind those that are in the queue already. -/
def Clean (e : Engine J W) : Call J → Prop
  | .event call => ∀ code, findHandler S call = some code →
      Holds S e.calls (S.run e.ran code).threw e.ran ⟨e.calls, code⟩ ∧
        Settles S e.calls (S.run e.ran code).threw (e.ran + 1) 100
          (queueAfter S e.ran ⟨e.calls, code⟩ e.queue)
  | .request _ => True

end Faithful

/-! ### What a call does -/

section Run

variable {J W : Type} {S : Scripts J W} {during id n : Nat} {e e' : Engine J W} {job : Job J}
  {P : Nat → Prop} {threw : Bool}

/-- What happened from `e` to `e'`, in the call `during`, happened on behalf of calls with
`P`. -/
structure Behalf (during : Nat) (P : Nat → Prop) (e e' : Engine J W) : Prop where
  queue : ∀ j ∈ e'.queue, P j.owner
  written : ∀ w ∈ e'.written, w ∈ e.written ∨ w.during = during ∧ P w.owner
  failed : ∀ f ∈ e'.failed, f ∈ e.failed ∨ P f
  kept : ∀ f ∈ e.failed, f ∈ e'.failed
  calls : e'.calls = e.calls
  answers : e'.answers = e.answers

theorem Behalf.refl (h : ∀ j ∈ e.queue, P j.owner) : Behalf during P e e where
  queue := h
  written _ hw := .inl hw
  failed _ hf := .inl hf
  kept _ hf := hf
  calls := rfl
  answers := rfl

theorem Behalf.trans {e'' : Engine J W} (h : Behalf during P e e') (h' : Behalf during P e' e'') :
    Behalf during P e e'' where
  queue := h'.queue
  written w hw := (h'.written w hw).elim (h.written w) .inr
  failed f hf := (h'.failed f hf).elim (h.failed f) .inr
  kept f hf := h'.kept f (h.kept f hf)
  calls := h'.calls.trans h.calls
  answers := h'.answers.trans h.answers

theorem mem_failed_exec {f : Nat} : f ∈ (exec S during job e).failed ↔
    f ∈ e.failed ∨ (S.run e.ran job.code).rejects = true ∧ f = job.owner := by
  simp only [exec]
  split
  · next h => simp [h]
  · next h => simp [h]

/-- A piece of code runs on behalf of the call it belongs to. -/
theorem behalf_exec (hq : ∀ j ∈ e.queue, P j.owner) (hjob : P job.owner) :
    Behalf during P e (exec S during job e) where
  queue j hj := by
    rcases List.mem_append.1 hj with hj | hj
    · exact hq j hj
    · obtain ⟨code, -, rfl⟩ := List.mem_map.1 hj
      exact hjob
  written w hw := by
    rcases List.mem_append.1 hw with hw | hw
    · exact .inl hw
    · obtain ⟨w, -, rfl⟩ := List.mem_map.1 hw
      exact .inr ⟨rfl, hjob⟩
  failed f hf := by
    rcases mem_failed_exec.1 hf with hf | ⟨-, rfl⟩
    · exact .inl hf
    · exact .inr hjob
  kept f hf := mem_failed_exec.2 (.inl hf)
  calls := rfl
  answers := rfl

/-- **The pending jobs** run on behalf of the calls they belong to. -/
theorem behalf_runJobs (hq : ∀ j ∈ e.queue, P j.owner) :
    Behalf during P e (runJobs S during n e) := by
  induction n generalizing e with
  | zero => exact Behalf.refl hq
  | succ n ih =>
    rw [runJobs]
    split
    · exact Behalf.refl hq
    · next job rest hqueue =>
      have hjob : P job.owner := hq job (hqueue ▸ List.mem_cons_self)
      have hrest : ∀ j ∈ rest, P j.owner := fun j hj =>
        hq j (hqueue ▸ List.mem_cons_of_mem job hj)
      have hexec : Behalf during P e (exec S during job { e with queue := rest }) := by
        let e₁ : Engine J W := { e with queue := rest }
        have h : Behalf during P e₁ (exec S during job e₁) := behalf_exec hrest hjob
        exact ⟨h.queue, h.written, h.failed, h.kept, h.calls, h.answers⟩
      split
      · exact hexec
      · exact hexec.trans (ih hexec.queue)

theorem runJobs_cons {rest : List (Job J)} (hq : e.queue = job :: rest) :
    runJobs S during (n + 1) e =
      if (S.run e.ran job.code).threw = true then exec S during job { e with queue := rest }
      else runJobs S during n (exec S during job { e with queue := rest }) := by
  rw [runJobs, hq]

/-- A job of which `Holds` is true adds nothing of the call to the failures. -/
theorem Holds.failed {rest : List (Job J)} (h : Holds S id threw e.ran job)
    (hfailed : id ∈ e.failed → threw = true) :
    id ∈ (exec S during job { e with queue := rest }).failed → threw = true := by
  intro hmem
  rcases mem_failed_exec.1 hmem with hmem | ⟨hrej, hid⟩
  · exact hfailed hmem
  · exact h hid.symm hrej

/-- Where none of the jobs of the call is left, none comes back, and nothing of it fails. -/
theorem runJobs_of_done (hdone : ∀ j ∈ e.queue, j.owner ≠ id)
    (hfailed : id ∈ e.failed → threw = true) :
    (∀ j ∈ (runJobs S during n e).queue, j.owner ≠ id) ∧
      (id ∈ (runJobs S during n e).failed → threw = true) := by
  have h : Behalf during (· ≠ id) e (runJobs S during n e) := behalf_runJobs hdone
  exact ⟨h.queue, fun hmem => (h.failed id hmem).elim hfailed fun hne => absurd rfl hne⟩

/-- Jobs that come to a good end leave none of the call behind, and its promise is not
rejected. -/
theorem Settles.runJobs {moment : Nat} {q : List (Job J)} (h : Settles S id threw moment n q)
    {e : Engine J W} (hran : e.ran = moment) (hq : e.queue = q)
    (hfailed : id ∈ e.failed → threw = true) :
    (∀ j ∈ (runJobs S during n e).queue, j.owner ≠ id) ∧
      (id ∈ (runJobs S during n e).failed → threw = true) := by
  induction h generalizing e with
  | done h =>
    subst hq
    exact runJobs_of_done h hfailed
  | run hholds hok _ ih =>
    subst hran
    rw [runJobs_cons hq, if_neg (by simp [hok])]
    exact ih rfl rfl (hholds.failed hfailed)
  | last hholds hthrew hrest =>
    subst hran
    rw [runJobs_cons hq, if_pos hthrew]
    exact ⟨hrest, hholds.failed hfailed⟩

/-- **What a good end is for**: none of the jobs of the call is left, and its promise was not
rejected; nothing less will do. -/
theorem settles_iff (hfailed : id ∈ e.failed → threw = true) :
    Settles S id threw e.ran n e.queue ↔
      (∀ j ∈ (runJobs S during n e).queue, j.owner ≠ id) ∧
        (id ∈ (runJobs S during n e).failed → threw = true) := by
  refine ⟨fun h => h.runJobs rfl rfl hfailed, ?_⟩
  induction n generalizing e with
  | zero => exact fun h => .done h.1
  | succ n ih =>
    rintro ⟨hqueue, hfail⟩
    rcases hq : e.queue with _ | ⟨job, rest⟩
    · exact .done (by simp)
    · obtain ⟨e₁, he₁⟩ : ∃ e₁, e₁ = exec S during job { e with queue := rest } := ⟨_, rfl⟩
      rw [runJobs_cons hq, ← he₁] at hqueue hfail
      -- what has failed after the first job has failed in the end
      have hholds : (id ∈ e₁.failed → threw = true) → Holds S id threw e.ran job := by
        intro h howner hrej
        refine h ?_
        rw [he₁]
        exact mem_failed_exec.2 (.inr ⟨hrej, howner.symm⟩)
      split at hqueue
      · next hthrew =>
        rw [if_pos hthrew] at hfail
        rw [he₁] at hqueue
        exact .last (hholds hfail) hthrew hqueue
      · next hok =>
        rw [if_neg hok] at hfail
        have hkept : id ∈ e₁.failed → threw = true := fun hmem =>
          hfail ((behalf_runJobs (P := fun _ => True) fun _ _ => trivial).kept id hmem)
        have hrest := ih (e := e₁) hkept ⟨hqueue, hfail⟩
        refine .run (hholds hkept) (by simpa using hok) ?_
        rw [he₁] at hrest
        exact hrest

/-- The record of an engine: it is faithful, and speaks of the calls there were. -/
structure Inv (e : Engine J W) : Prop where
  faithful : Faithful e
  queue : ∀ j ∈ e.queue, j.owner < e.calls
  written : ∀ w ∈ e.written, w.owner < e.calls
  failed : ∀ f ∈ e.failed, f < e.calls
  answers : ∀ id ok, (id, ok) ∈ e.answers → id < e.calls

theorem inv_init : Inv ({} : Engine J W) where
  faithful := ⟨by simp, by simp, by simp⟩
  queue := by simp
  written := by simp
  failed := by simp
  answers := by simp

/-- The calls code may run for during a call: the call itself, and earlier ones that were
not events. -/
def Mine (e : Engine J W) (id : Nat) : Prop := id = e.calls ∨ id < e.calls ∧ ¬e.IsEvent id

theorem Inv.mine (hI : Inv e) : ∀ j ∈ e.queue, Mine e j.owner := fun j hj =>
  .inr ⟨hI.queue j hj, hI.faithful.settled j hj⟩

theorem Mine.lt (h : Mine e id) : id < e.calls + 1 := by
  rcases h with rfl | ⟨hlt, -⟩
  · exact Nat.lt_succ_self _
  · exact hlt.trans (Nat.lt_succ_self _)

/-- **The end of a call**: the record stays faithful if the call was not an event, and if it
was, exactly if it left nothing behind and told of its failure. -/
theorem Inv.close (hI : Inv e) (h : Behalf e.calls (Mine e) e e') (new : List (Nat × Bool))
    (hnew : ∀ a ∈ new, a.1 = e.calls)
    (hq : new ≠ [] → ∀ j ∈ e'.queue, j.owner ≠ e.calls)
    (hf : e.calls ∈ e'.failed → (e.calls, true) ∉ new) :
    Inv { e' with calls := e.calls + 1, answers := e'.answers ++ new } := by
  have hevent : ∀ {id}, (∃ ok, (id, ok) ∈ e'.answers ++ new) → e.IsEvent id ∨ id = e.calls := by
    rintro id ⟨ok, hid⟩
    rcases List.mem_append.1 hid with hid | hid
    · exact .inl ⟨ok, h.answers ▸ hid⟩
    · exact .inr (hnew _ hid)
  have hlt : ∀ {id}, e.IsEvent id → id < e.calls := fun ⟨ok, hid⟩ => hI.answers _ ok hid
  refine ⟨⟨fun w hw hid => ?_, fun j hj hid => ?_, fun f hf' hid => ?_⟩, fun j hj => (h.queue j hj).lt,
    fun w hw => ?_, fun f hf' => ?_, fun id ok hid => ?_⟩
  · rcases h.written w hw with hw | ⟨hd, hmine⟩
    · rcases hevent hid with hid | hid
      · exact hI.faithful.writes w hw hid
      · exact absurd (hI.written w hw) (by rw [hid]; exact lt_irrefl _)
    · rcases hmine with hown | ⟨hlt', hno⟩
      · exact hd.trans hown.symm
      · rcases hevent hid with hid | hid
        · exact absurd hid hno
        · exact absurd hlt' (by rw [hid]; exact lt_irrefl _)
  · rcases h.queue j hj with hown | ⟨hlt', hno⟩
    · obtain ⟨ok, hid⟩ := hid
      rcases List.mem_append.1 hid with hid | hid
      · have hlt' := hlt ⟨ok, h.answers ▸ hid⟩
        omega
      · exact hq (List.ne_nil_of_mem hid) j hj hown
    · rcases hevent hid with hid | hid
      · exact hno hid
      · omega
  · rcases List.mem_append.1 hid with hid | hid
    · rw [h.answers] at hid
      rcases h.failed f hf' with hf' | ⟨rfl | ⟨-, hno⟩⟩
      · exact hI.faithful.reported f hf' hid
      · exact lt_irrefl _ (hI.answers _ _ hid)
      · exact hno ⟨true, hid⟩
    · obtain rfl : f = e.calls := hnew _ hid
      exact hf hf' hid
  · rcases h.written w hw with hw | ⟨-, hmine⟩
    · exact (hI.written w hw).trans (Nat.lt_succ_self _)
    · exact hmine.lt
  · rcases h.failed f hf' with hf' | hmine
    · exact (hI.failed f hf').trans (Nat.lt_succ_self _)
    · exact hmine.lt
  · rcases hevent ⟨ok, hid⟩ with hid | rfl
    · exact (hlt hid).trans (Nat.lt_succ_self _)
    · exact Nat.lt_succ_self _

/-- The handler of a call runs on behalf of the call. -/
theorem behalf_callHandler (hI : Inv e) (code : J) :
    Behalf e.calls (Mine e) e (callHandler S code e) := by
  have h : Behalf e.calls (Mine e) e (exec S e.calls ⟨e.calls, code⟩ e) :=
    behalf_exec hI.mine (.inl rfl)
  unfold callHandler
  simp only
  split
  · refine ⟨h.queue, h.written, fun f hf => ?_, fun f hf => ?_, h.calls, h.answers⟩
    · rcases List.mem_append.1 hf with hf | hf
      · exact h.failed f hf
      · exact .inr (.inl (List.mem_singleton.1 hf))
    · exact List.mem_append_left _ (h.kept f hf)
  · exact h

/-- A call has failed when its handler is back, if the handler threw or rejected. -/
theorem mem_failed_callHandler (hI : Inv e) {code : J} :
    e.calls ∈ (callHandler S code e).failed ↔
      (S.run e.ran code).threw = true ∨ (S.run e.ran code).rejects = true := by
  have hnot : e.calls ∉ e.failed := fun h => lt_irrefl _ (hI.failed _ h)
  unfold callHandler
  simp only
  split
  · next hthrew => simp [hthrew]
  · next hok =>
    rw [mem_failed_exec]
    simp [hnot, hok]

theorem callHandler_queue {code : J} :
    (callHandler S code e).queue = queueAfter S e.ran ⟨e.calls, code⟩ e.queue := by
  unfold callHandler
  simp only
  split <;> rfl

theorem callHandler_ran {code : J} : (callHandler S code e).ran = e.ran + 1 := by
  unfold callHandler
  simp only
  split <;> rfl

/-- **A request** leaves the record as faithful as it was, and its jobs to whoever comes. -/
theorem Inv.request (hI : Inv e) {route : Option J}
    (hstep : step S e (.request route) = some e') : Inv e' := by
  obtain rfl := Option.some.inj hstep
  have hrun : Behalf e.calls (Mine e) e (handleHttpRequest S route e) := by
    cases route with
    | none => exact Behalf.refl hI.mine
    | some code =>
      have h : Behalf e.calls (Mine e) e (exec S e.calls ⟨e.calls, code⟩ e) :=
        behalf_exec hI.mine (.inl rfl)
      exact h.trans (behalf_runJobs h.queue)
  have h := hI.close hrun [] (by simp) (fun h => absurd rfl h) fun _ => (by simp)
  rwa [List.append_nil] at h

/-- **An event** leaves the record faithful exactly if its handler's promise is not
rejected and its jobs come to a good end. -/
theorem Inv.event (hI : Inv e) {call : EventCall} (hstep : step S e (.event call) = some e') :
    (Clean S e (.event call) → Inv e') ∧ (Faithful e' → Clean S e (.event call)) := by
  obtain rfl := Option.some.inj hstep
  rcases hhandler : findHandler S call with _ | code
  · refine ⟨fun _ => ?_, fun _ code hcode => ?_⟩
    · simp only [handleEvent, hhandler]
      refine hI.close (Behalf.refl hI.mine) _ (by simp) (fun _ j hj h => ?_) fun h => ?_
      · exact lt_irrefl _ (h ▸ hI.queue j hj)
      · exact absurd (hI.failed _ h) (lt_irrefl _)
    · rw [hhandler] at hcode
      cases hcode
  · have hcall := behalf_callHandler (S := S) hI code
    have hjobs : Behalf e.calls (Mine e) _ (runJobs S e.calls 100 (callHandler S code e)) :=
      behalf_runJobs hcall.queue
    have hrun := hcall.trans hjobs
    have hiff := @settles_iff J W S e.calls e.calls 100 (callHandler S code e)
      (S.run e.ran code).threw
    rw [callHandler_queue, callHandler_ran, mem_failed_callHandler hI] at hiff
    simp only [handleEvent, hhandler]
    constructor
    · intro hclean
      obtain ⟨hholds, hsettles⟩ := hclean code hhandler
      obtain ⟨hqueue, hfail⟩ := (hiff fun h => h.elim id (hholds rfl)).1 hsettles
      refine hI.close hrun _ (by simp) (fun _ => hqueue) fun h hmem => ?_
      have hthrew := hfail h
      simp [hthrew] at hmem
    · intro hfaithful code' hcode'
      obtain rfl : code = code' := Option.some.inj (hhandler.symm.trans hcode')
      have hfail : e.calls ∈ (runJobs S e.calls 100 (callHandler S code e)).failed →
          (S.run e.ran code).threw = true := by
        intro hmem
        by_contra hok
        have hfalse : (S.run e.ran code).threw = false := by simpa using hok
        refine hfaithful.reported _ hmem (List.mem_append_right _ ?_)
        simp [hfalse]
      have hholds : (S.run e.ran code).rejects = true → (S.run e.ran code).threw = true := by
        intro hrej
        refine hfail ((behalf_runJobs (S := S) (P := fun _ => True) fun _ _ => trivial).kept _ ?_)
        exact (mem_failed_callHandler hI).2 (.inr hrej)
      have hqueue : ∀ j ∈ (runJobs S e.calls 100 (callHandler S code e)).queue,
          j.owner ≠ e.calls := by
        intro j hj howner
        exact hfaithful.settled j hj ⟨_, List.mem_append_right _
          (List.mem_singleton.2 (Prod.ext howner rfl))⟩
      exact ⟨fun _ => hholds, (hiff fun h => h.elim id hholds).2 ⟨hqueue, hfail⟩⟩

theorem inv_of_reaches (h : (engine S).Reaches (Clean S) e) : Inv e := by
  refine h.invariant inv_init fun e call e' hI hclean hstep => ?_
  cases call with
  | event call => exact (hI.event hstep).1 hclean
  | request route => exact hI.request hstep

end Run

/-- **A handler's writes belong to its own event** in every run whose events are clean, and
an event that is not is where this ends: for all scripts, and all calls in any order. -/
theorem faithful_iff_clean {J W : Type} (S : Scripts J W) (e : Engine J W)
    (h : (engine S).Reaches (Clean S) e) :
    Faithful e ∧ ∀ call e', step S e (.event call) = some e' →
      (Faithful e' ↔ Clean S e (.event call)) := by
  have hI := inv_of_reaches h
  refine ⟨hI.faithful, fun call e' hstep => ⟨(hI.event hstep).2, fun hclean => ?_⟩⟩
  exact ((hI.event hstep).1 hclean).faithful

/-! Handlers for four events, as an example: one whose only job writes, one with a hundred
jobs before the one that writes, one with a job before it that throws, and one whose
promise is rejected. -/

/-- The scripts. -/
def someScripts : Scripts Nat Nat where
  handlers name := if name = "Plain".toList then some fun _ => 10
    else if name = "Many".toList then some fun _ => 20
    else if name = "Throws".toList then some fun _ => 30
    else if name = "Rejects".toList then some fun _ => 40
    else none
  run _ code :=
    match code with
    | 10 => { queued := [1] }
    | 20 => { queued := List.replicate 100 0 ++ [1] }
    | 30 => { queued := [2, 1] }
    | 40 => { queued := [3] }
    | 1 => { writes := [7] }
    | 2 => { threw := true }
    | 3 => { rejects := true }
    | _ => {}

/-- An event. -/
def eventCall (name : String) : EventCall where
  contractName := "c".toList
  eventName := name.toList
  fields := []
  blockNumber := 1
  contractAddress := "0xAA".toList
  txHash := "0x01".toList
  logIndex := 0

theorem faithful_iff_clean_plain :
    ∃ e, (engine someScripts).run {} [.event (eventCall "Plain")] = some e ∧ Faithful e := by
  refine ⟨_, rfl, (faithful_iff_clean someScripts _ (.step .init
    (a := .event (eventCall "Plain")) ?_ rfl)).1⟩
  intro code hcode
  obtain rfl : 10 = code := by
    have h : findHandler someScripts (eventCall "Plain") = some 10 := by decide
    exact Option.some.inj (h.symm.trans hcode)
  refine ⟨(fun _ h => by cases h), .run (fun _ h => by cases h) rfl (.done (by intros; contradiction))⟩

/-- The write is made in the next call, which is another event's; or the event is
reported to be well when it is not. -/
theorem not_faithful_of_unclean :
    (∃ e, (engine someScripts).run {} [.event (eventCall "Many"), .event (eventCall "None"),
        .event (eventCall "Plain")] = some e ∧
      e.answers = [(0, true), (1, true), (2, true)] ∧ ⟨0, 2, 7⟩ ∈ e.written ∧ ¬Faithful e) ∧
    (∃ e, (engine someScripts).run {} [.event (eventCall "Throws"), .request (some 0)] = some e ∧
      e.answers = [(0, true)] ∧ ⟨0, 1, 7⟩ ∈ e.written ∧ ¬Faithful e) ∧
    ∃ e, (engine someScripts).run {} [.event (eventCall "Rejects")] = some e ∧
      e.answers = [(0, true)] ∧ 0 ∈ e.failed ∧ ¬Faithful e := by
  refine ⟨?_, ?_, ?_⟩
  · have h : ∃ e, (engine someScripts).run {} [.event (eventCall "Many"),
        .event (eventCall "None"), .event (eventCall "Plain")] = some e ∧
        e.answers = [(0, true), (1, true), (2, true)] ∧ ⟨0, 2, 7⟩ ∈ e.written :=
      ⟨_, rfl, by decide +kernel, by decide +kernel⟩
    obtain ⟨e, hrun, hanswers, hwrite⟩ := h
    refine ⟨e, hrun, hanswers, hwrite, fun hf => ?_⟩
    cases hf.writes _ hwrite ⟨true, by simp [hanswers]⟩
  · have h : ∃ e, (engine someScripts).run {} [.event (eventCall "Throws"),
        .request (some 0)] = some e ∧ e.answers = [(0, true)] ∧ ⟨0, 1, 7⟩ ∈ e.written :=
      ⟨_, rfl, by decide +kernel, by decide +kernel⟩
    obtain ⟨e, hrun, hanswers, hwrite⟩ := h
    refine ⟨e, hrun, hanswers, hwrite, fun hf => ?_⟩
    cases hf.writes _ hwrite ⟨true, by simp [hanswers]⟩
  · have h : ∃ e, (engine someScripts).run {} [.event (eventCall "Rejects")] = some e ∧
        e.answers = [(0, true)] ∧ 0 ∈ e.failed := ⟨_, rfl, by decide +kernel, by decide +kernel⟩
    obtain ⟨e, hrun, hanswers, hfailed⟩ := h
    exact ⟨e, hrun, hanswers, hfailed, fun hf => hf.reported 0 hfailed (by simp [hanswers])⟩

end Js

end Zponder

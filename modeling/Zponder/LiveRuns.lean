import Zponder.LiveTurns

/-!
# Runs of the live subscription

An indexer scans over HTTP until it has reached the end of the chain, and goes over to the
subscription from there. A session of the subscription bridges, subscribes, rescans what was
dropped while it subscribed, bridges once more and reads; when something fails it begins
anew. Where in all that an indexer is (`Zponder.Live.Point`) and what it does next is a machine,
and between any two pieces other threads may act, the process may be killed, and it may be
started again.

Two things are said of the logs of a chain that never changes:

* a log that is pushed while a subscription is being confirmed is dropped, and yet not lost
  (`Zponder.Live.pushed_not_lost`), unless the cursor has passed its block already without it;
* in the end nothing below the cursor was left out (`Zponder.Live.nothing_left_out`), but for the
  blocks of the logs that were read from the subscription.
-/

namespace Zponder

namespace Live

open Imperative Prog Conn

/-! ### The machine -/

/-- Where an indexer is: in its run loop, at one of the stations of a session, or nowhere. -/
inductive Point where
  | scanning
  | head
  | bridging
  | connecting
  | refused
  | confirmed (gen : Nat)
  | rebridging (gen : Nat)
  | reading (gen : Nat)
  | dead
  deriving DecidableEq

/-- The session has rescanned what was dropped. -/
def Point.Rescanned : Point → Prop
  | .rebridging _ => True
  | .reading _ => True
  | _ => False

/-- An indexer, and what is kept for the reader: the watched logs that were pushed while this
session subscribed, those of earlier sessions, and the blocks of the logs that were read. -/
structure State where
  world : World
  at_ : Point := .scanning
  recent : List Log := []
  earlier : List Log := []
  noticed : List Nat := []

/-- What happens next. -/
inductive Act where
  | turn
  | exit
  | head
  | bridge
  | disconnect
  | leave
  | subscribe (id : Int) (frames : List (Option Payload))
  | recover
  | read (event : ReadEvent)
  | elsewhere (next : World)
  | kill
  | boot

/-- The block of a log that is read. -/
def ReadEvent.blocks : ReadEvent → List Nat
  | .log lg => [lg.blockNumber]
  | _ => []

namespace State

/-- Run a piece; a death leads nowhere. -/
def ran {α : Type} (s : State) (p : M α) (ok : α → World → Point) (err : Point) : State :=
  match p s.world with
  | (.ok a, w) => { s with world := w.ticked, at_ := ok a w }
  | (.err _, w) => { s with world := w.ticked, at_ := err }
  | (.crash, w) => { s with world := w, at_ := .dead }

/-- The session is over. -/
def closed (s : State) : State :=
  { s with
    world := { s.world with mem := { s.world.mem with droppedLiveHi := none, lastReorgCheck := 0 } }
    at_ := .scanning
    recent := []
    earlier := s.earlier ++ s.recent }

/-- The frames that came while the session subscribed. -/
def handshake (cfg : Config) (s : State) (id : Int) (frames : List (Option Payload)) : Handshake :=
  subscribeAddressChunks id (subscribedChunks cfg s.world.mem) frames s.world.mem.droppedLiveHi

/-- The watched logs among them. -/
def pushes (cfg : Config) (s : State) (id : Int) (frames : List (Option Payload)) : List Log :=
  ((s.handshake cfg id frames).read.filterMap Payload.pushed).filter (Watched cfg s.world ·)

/-- The session has subscribed, to all chunks or not. -/
def subscribed (cfg : Config) (s : State) (id : Int) (frames : List (Option Payload)) : State :=
  let h := s.handshake cfg id frames
  { s with
    world := { s.world with mem := { s.world.mem with droppedLiveHi := h.droppedHi } }
    at_ := if h.confirmed = true then .confirmed s.world.mem.liveAddrGen else .refused
    recent := s.recent ++ s.pushes cfg id frames }

/-- A new process, with what the old one left in the database. -/
def restarted (s : State) : State :=
  { s with world := s.world.rebooted, recent := [], earlier := s.earlier ++ s.recent }

end State

section Machine

variable (env : Env) (cfg : Config)

/-- Whether a session that has recovered goes on, or begins anew for other addresses. -/
def recovered (gen : Nat) (w : World) : Point :=
  if templateSubscriptionStale cfg gen w.mem = true then .head else .rebridging gen

/-- The live loop of an indexer, step by step. -/
def step (s : State) : Act → Option State
  | .turn =>
    match s.at_ with
    | .scanning => some (s.ran (runLoopTurn env cfg)
        (fun turn _ => if turn = .live then .head else .scanning) .scanning)
    | _ => none
  | .exit =>
    match s.at_ with
    | .scanning => some (s.ran (leaveRunLoop env cfg) (fun _ _ => .scanning) .scanning)
    | _ => none
  | .head =>
    match s.at_ with
    | .head =>
      if Goes s.world.mem then
        some (s.ran (headTurn env cfg)
          (fun fits _ => if fits = true then .bridging else .head) .head)
      else some s.closed
    | _ => none
  | .bridge =>
    match s.at_ with
    | .bridging => some (s.ran (bridgeTurn env cfg)
        (fun done _ => if done = true then .connecting else .bridging) .head)
    | .rebridging gen => some (s.ran (bridgeTurn env cfg)
        (fun done _ => if done = true then .reading gen else .rebridging gen) (.reading gen))
    | _ => none
  | .disconnect =>
    match s.at_ with
    | .connecting => some { s with at_ := .head }
    | _ => none
  | .leave =>
    match s.at_ with
    | .connecting => some s.closed
    | _ => none
  | .subscribe id frames =>
    match s.at_ with
    | .connecting =>
      if watchedAddresses cfg s.world.mem = [] then some { s with at_ := .head }
      else some (s.subscribed cfg id frames)
    | _ => none
  | .recover =>
    match s.at_ with
    | .refused => some (s.ran (recoverDroppedLive env cfg) (fun _ _ => .head) .head)
    | .confirmed gen =>
      some (s.ran (recoverDroppedLive env cfg) (fun _ w => recovered cfg gen w) .head)
    | _ => none
  | .read event =>
    match s.at_ with
    | .reading gen =>
      let t := s.ran (readTurn env cfg gen event)
        (fun go _ => if go = true then .reading gen else .head) .head
      some { t with noticed := event.blocks ++ t.noticed }
    | _ => none
  | .elsewhere next => if s.at_ = .dead then none else some { s with world := next }
  | .kill => if s.at_ = .dead then none else some { s with at_ := .dead }
  | .boot =>
    if s.at_ = .dead then some (s.restarted.ran (boot env cfg) (fun _ _ => .scanning) .dead)
    else none

/-- An indexer that begins in a state. -/
def live (s₀ : State) : Imperative.Machine State Act := ⟨s₀, step env cfg⟩

end Machine

/-! ### What one step leaves -/

section Step

variable {env : Env} {chains : Text → Set Log} {hashes : Nat → Text} {cfg : Config}
  {E : Nat → Prop} {s t : State} {a : Act}

/-- What the other threads may do: they do not raise the cursors, and neither forget a log nor
stop watching one. -/
structure Elsewhere (chains : Text → Set Log) (hashes : Nat → Text) (cfg : Config)
    (w w' : World) : Prop where
  ready : Ready chains hashes cfg w'
  cursor : w'.mem.currentBlock ≤ w.mem.currentBlock
  stored : ∀ c, w.db.StoredUpTo cfg.stateKey c → w'.db.StoredUpTo cfg.stateKey c
  handed : ∀ lg, Handed w lg → Handed w' lg
  watched : ∀ lg, Watched cfg w lg → Watched cfg w' lg
  note : w'.mem.droppedLiveHi = w.mem.droppedLiveHi

/-- The chain does not change: what is pushed and what is read are logs of it. A template is not
started again, since what it watches then is what its rows say. -/
def Lawful (chains : Text → Set Log) (hashes : Nat → Text) (cfg : Config) (s : State) :
    Act → Prop
  | .subscribe _ frames => ∀ p, some p ∈ frames → ∀ lg, p.pushed = some lg → lg ∈ chains cfg.chain
  | .read event => event.Of (chains cfg.chain)
  | .elsewhere next => Elsewhere chains hashes cfg s.world next
  | .boot => cfg.templateMode = false
  | _ => True

/-- The block a step may move the cursor past without having scanned it. -/
def Act.Skips : Act → Nat → Prop
  | .read event => (event.At ·)
  | _ => fun _ => False

/-- The block of the log a step reads. -/
def Act.blocks : Act → List Nat
  | .read event => event.blocks
  | _ => []

/-- **Between two steps.** -/
structure Sane (chains : Text → Set Log) (hashes : Nat → Text) (cfg : Config) (s : State) :
    Prop where
  ready : s.at_ ≠ .dead → Ready chains hashes cfg s.world
  sound : SoundTables chains hashes cfg s.world.db
  note : ∀ hi, s.world.mem.droppedLiveHi = some hi → s.at_ ≠ .dead → hi ≤ u64Max

/-- The log is still to come: whoever goes on from here, or begins anew, begins at its block or
before. -/
structure Kept (cfg : Config) (s : State) (lg : Log) : Prop where
  stored : s.world.db.StoredUpTo cfg.stateKey lg.blockNumber
  start : cfg.contract.fromBlock ≤ lg.blockNumber
  memory : s.at_ ≠ .dead → s.world.mem.currentBlock ≤ lg.blockNumber

/-- The log is watched, as long as there is somebody to watch it. -/
def Sees (cfg : Config) (s : State) (lg : Log) : Prop :=
  s.at_ ≠ .dead ∨ cfg.templateMode = false → Watched cfg s.world lg

/-- What a step leaves. -/
structure Next (chains : Text → Set Log) (hashes : Nat → Text) (cfg : Config) (E : Nat → Prop)
    (s t : State) : Prop where
  sane : Sane chains hashes cfg t
  handed : ∀ lg, Handed s.world lg → Handed t.world lg
  sees : ∀ lg, Sees cfg s lg → Sees cfg t lg
  kept : ∀ lg ∈ chains cfg.chain, Sees cfg s lg → Kept cfg s lg →
    Handed t.world lg ∨ Kept cfg t lg ∨ E lg.blockNumber

/-- What an indexer with an address of its own watches is a matter of its configuration. -/
theorem watched_iff_of_contract {w w' : World} {lg : Log} (hmode : cfg.templateMode = false) :
    Watched cfg w lg ↔ Watched cfg w' lg := by
  unfold Watched watchedAddresses
  rw [if_neg (by simp [hmode]), if_neg (by simp [hmode])]

theorem Kept.ahead {lg : Log} (h : Kept cfg s lg) (halive : s.at_ ≠ .dead) :
    Ahead cfg s.world lg := ⟨h.memory halive, h.stored⟩

theorem Sees.watched {lg : Log} (h : Sees cfg s lg) (halive : s.at_ ≠ .dead) :
    Watched cfg s.world lg := h (.inl halive)

theorem sees_of_watched {lg : Log} (h : Watched cfg s.world lg) : Sees cfg s lg := fun _ => h

/-- A step between two living states. -/
theorem next_of_onward {note : Option Nat} (hs : s.at_ ≠ .dead) {w : World}
    (h : Onward chains hashes cfg E s.world w)
    (hmem : t.world.mem.currentBlock = w.mem.currentBlock ∧
      t.world.mem.templateSet = w.mem.templateSet ∧ t.world.mem.droppedLiveHi = note)
    (hconn : t.world.conn = w.conn) (hhanded : t.world.handed = w.handed)
    (hnote : ∀ hi, note = some hi → hi ≤ u64Max) : Next chains hashes cfg E s t := by
  have hdb : t.world.db = w.db := congrArg Conn.committed hconn
  have hready : Ready chains hashes cfg t.world := by
    refine ⟨?_, ?_, ?_, ?_⟩
    · exact (congrArg Conn.txn hconn).trans h.ready.quiet
    · rw [hdb]
      exact h.ready.sound
    · rw [hmem.1]
      exact h.ready.start
    · rw [hmem.1]
      exact h.ready.cursor
  have hgrow : ∀ lg, Handed w lg → Handed t.world lg := fun lg hlg => by rwa [Handed, hhanded]
  refine ⟨⟨fun _ => hready, hready.sound, fun hi hhi _ => hnote hi (hmem.2.2.symm.trans hhi)⟩,
    fun lg hlg => hgrow lg (h.handed lg hlg), fun lg hlg => ?_, fun lg hlg hsees hkept => ?_⟩
  · exact sees_of_watched ((Watched.congr hmem.2.1).2 (h.watched lg (hlg.watched hs)))
  · refine (h.ahead lg hlg (hsees.watched hs) (hkept.ahead hs)).imp (hgrow lg) (.imp_left ?_)
    intro ha
    refine ⟨?_, hkept.start, fun _ => ?_⟩
    · rw [hdb]
      exact ha.stored
    · rw [hmem.1]
      exact ha.memory

/-- A step that kills. -/
theorem next_of_perished (hs : s.at_ ≠ .dead) (ht : t.at_ = .dead)
    (h : Perished chains hashes cfg E s.world t.world) : Next chains hashes cfg E s t := by
  have hdead : ¬t.at_ ≠ .dead := fun hne => hne ht
  refine ⟨⟨fun hne => absurd hne hdead, h.sound, fun _ _ hne => absurd hne hdead⟩, h.handed,
    fun lg hlg hor => ?_, fun lg hlg hsees hkept => ?_⟩
  · exact (watched_iff_of_contract (hor.resolve_left hdead)).1 (hlg.watched hs)
  · refine (h.ahead lg hlg (hsees.watched hs) (hkept.ahead hs)).imp_right (.imp_left ?_)
    exact fun hstored => ⟨hstored, hkept.start, fun hne => absurd hne hdead⟩

/-- **A piece that goes on**, as a step. -/
theorem next_ran {α : Type} {p : M α} {ok : α → World → Point} {err : Point}
    (hp : Within (onward chains hashes cfg E) p) (hs : Sane chains hashes cfg s)
    (halive : s.at_ ≠ .dead) :
    Next chains hashes cfg E s (s.ran p ok err) ∧
      ((s.ran p ok err).at_ ≠ .dead →
        (s.ran p ok err).world.mem.droppedLiveHi = s.world.mem.droppedLiveHi) := by
  have hmeets := hp s.world
  unfold Meets at hmeets
  unfold State.ran
  generalize p s.world = r at hmeets ⊢
  rcases r with ⟨a | e | _, w⟩
  · have hon := hmeets (hs.ready halive)
    refine ⟨next_of_onward halive hon ⟨rfl, rfl, rfl⟩ rfl rfl fun hi hhi => ?_,
      fun _ => hon.note⟩
    exact hs.note hi (hon.note.symm.trans hhi) halive
  · have hon := hmeets (hs.ready halive)
    refine ⟨next_of_onward halive hon ⟨rfl, rfl, rfl⟩ rfl rfl fun hi hhi => ?_,
      fun _ => hon.note⟩
    exact hs.note hi (hon.note.symm.trans hhi) halive
  · exact ⟨next_of_perished halive rfl (hmeets (hs.ready halive)), fun h => absurd rfl h⟩

theorem Kept.congr {u : State} {lg : Log} (h : Kept cfg t lg) (hworld : u.world = t.world)
    (hat : u.at_ = t.at_) : Kept cfg u lg :=
  ⟨hworld ▸ h.stored, h.start, fun hne => hworld ▸ h.memory (hat ▸ hne)⟩

/-- What is kept for the reader does not matter to it. -/
theorem Next.congr {u : State} (h : Next chains hashes cfg E s t) (hworld : u.world = t.world)
    (hat : u.at_ = t.at_) : Next chains hashes cfg E s u where
  sane := ⟨fun hne => hworld ▸ h.sane.ready (hat ▸ hne), hworld ▸ h.sane.sound,
    fun hi hhi hne => h.sane.note hi (hworld ▸ hhi) (hat ▸ hne)⟩
  handed lg hlg := hworld ▸ h.handed lg hlg
  sees lg hlg hor := hworld ▸ h.sees lg hlg (hat ▸ hor)
  kept lg hlg hsees hkept :=
    (h.kept lg hlg hsees hkept).imp (fun h => hworld ▸ h) (.imp_left fun h => h.congr hworld hat)

/-- A step that leaves the world as it is. -/
theorem next_of_world (hs : Sane chains hashes cfg s) (halive : s.at_ ≠ .dead)
    (hworld : t.world = s.world) : Next chains hashes cfg E s t :=
  next_of_onward halive (.refl (hs.ready halive)) ⟨by rw [hworld], by rw [hworld], by rw [hworld]⟩
    (by rw [hworld]) (by rw [hworld]) fun hi hhi => hs.note hi hhi halive

theorem next_closed (hs : Sane chains hashes cfg s) (halive : s.at_ ≠ .dead) :
    Next chains hashes cfg E s s.closed :=
  next_of_onward halive (.refl (hs.ready halive)) ⟨rfl, rfl, rfl⟩ rfl rfl fun _ h => by cases h

theorem next_subscribed {id : Int} {frames : List (Option Payload)}
    (hsource : Source env cfg chains hashes) (hs : Sane chains hashes cfg s)
    (halive : s.at_ ≠ .dead)
    (hframes : ∀ p, some p ∈ frames → ∀ lg, p.pushed = some lg → lg ∈ chains cfg.chain) :
    Next chains hashes cfg E s (s.subscribed cfg id frames) := by
  refine next_of_onward halive (.refl (hs.ready halive)) ⟨rfl, rfl, rfl⟩ rfl rfl fun hi hhi => ?_
  have hnotes := notes_subscribeAddressChunks (subscribedChunks cfg s.world.mem) id frames
    s.world.mem.droppedLiveHi
  rcases hnotes.source hi hhi with h | ⟨p, hp, lg, hlg, rfl⟩
  · exact hs.note hi h halive
  · exact hsource.canonical.block lg (hframes p (hnotes.frame p hp) lg hlg)

/-- **The rescan, as a step**: either it has failed and the note is still there, or everything
that was noted has been handed over. -/
theorem next_recovered {ok : Unit → World → Point} {err : Point}
    (hsource : Source env cfg chains hashes) (hs : Sane chains hashes cfg s)
    (halive : s.at_ ≠ .dead) :
    Next chains hashes cfg E s (s.ran (recoverDroppedLive env cfg) ok err) ∧
      ((s.ran (recoverDroppedLive env cfg) ok err).at_ ≠ .dead →
        ((s.ran (recoverDroppedLive env cfg) ok err).at_ = err ∧
          (s.ran (recoverDroppedLive env cfg) ok err).world.mem.droppedLiveHi =
            s.world.mem.droppedLiveHi) ∨
        ∀ lg ∈ chains cfg.chain, Watched cfg s.world lg → Ahead cfg s.world lg →
          NotedUpTo s.world.mem.droppedLiveHi lg.blockNumber →
          Handed (s.ran (recoverDroppedLive env cfg) ok err).world lg) := by
  have hmeets := meets_recoverDroppedLive (E := E) hsource
    (fun hi h => hs.note hi h halive) (hs.ready halive)
  unfold Meets at hmeets
  unfold State.ran
  generalize recoverDroppedLive env cfg s.world = r at hmeets ⊢
  rcases r with ⟨_ | e | _, w⟩
  · obtain ⟨w₁, rfl, hon, hall⟩ := hmeets
    refine ⟨next_of_onward halive hon ⟨rfl, rfl, rfl⟩ rfl rfl fun _ h => (by cases h),
      fun _ => .inr fun lg hlg hwatch ha hnote => ?_⟩
    obtain ⟨hi, hhi, hle⟩ := hnote
    exact hall hi hhi lg hlg hwatch ha.memory hle
  · have hon : Onward chains hashes cfg E s.world w := hmeets
    exact ⟨next_of_onward halive hon ⟨rfl, rfl, rfl⟩ rfl rfl fun hi hhi =>
      hs.note hi (hon.note.symm.trans hhi) halive, fun _ => .inl ⟨rfl, hon.note⟩⟩
  · exact ⟨next_of_perished halive rfl hmeets, fun h => absurd rfl h⟩

theorem next_elsewhere {next : World} (hs : Sane chains hashes cfg s) (halive : s.at_ ≠ .dead)
    (h : Elsewhere chains hashes cfg s.world next) :
    Next chains hashes cfg E s { s with world := next } where
  sane := ⟨fun _ => h.ready, h.ready.sound, fun hi hhi => hs.note hi (h.note.symm.trans hhi)⟩
  handed := h.handed
  sees _ hlg := sees_of_watched (h.watched _ (hlg.watched halive))
  kept _ _ _ hkept := .inr (.inl ⟨h.stored _ hkept.stored, hkept.start,
    fun _ => h.cursor.trans (hkept.memory halive)⟩)

theorem next_killed (hs : Sane chains hashes cfg s) (halive : s.at_ ≠ .dead) :
    Next chains hashes cfg E s { s with at_ := .dead } :=
  next_of_perished halive rfl ⟨hs.sound, fun _ => id, fun _ _ _ ha => .inr (.inl ha.stored)⟩

/-- **A new process begins at the stored cursor**, or at the first block. -/
theorem next_booted (hmode : cfg.templateMode = false) (hstart : cfg.contract.fromBlock ≤ u64Max)
    (hs : Sane chains hashes cfg s) : Next chains hashes cfg E s
      (s.restarted.ran (boot env cfg) (fun _ _ => .scanning) .dead) ∧
      (s.restarted.ran (boot env cfg) (fun _ _ => .scanning) .dead).world.handed =
        s.world.handed := by
  have hmeets := @meets_boot env cfg hmode s.world
  -- whoever dies again has written nothing
  have hstill : ∀ w : World, w.db = s.world.db → w.handed = s.world.handed →
      Next chains hashes cfg E s { s.restarted with world := w, at_ := .dead } := by
    intro w hdb hhanded
    refine ⟨⟨fun h => absurd rfl h, ?_, fun _ _ h => absurd rfl h⟩, fun _ hlg => ?_,
      fun lg hlg _ => ?_, fun lg _ _ hkept => .inr (.inl ⟨?_, hkept.start, fun h => absurd rfl h⟩)⟩
    · exact hdb.symm ▸ hs.sound
    · rwa [Handed, hhanded]
    · exact (watched_iff_of_contract hmode).1 (hlg (.inr hmode))
    · exact hdb.symm ▸ hkept.stored
  have hworld : s.restarted.world = s.world.rebooted := rfl
  unfold Meets at hmeets
  unfold State.ran
  rw [hworld]
  generalize boot env cfg s.world.rebooted = r at hmeets ⊢
  rcases r with ⟨_ | e | _, w⟩
  · obtain ⟨hconn, hhanded, hnote, hcursor⟩ := hmeets
    refine ⟨?_, hhanded⟩
    have hdb : w.db = s.world.conn.lost.committed := congrArg Conn.committed hconn
    rw [lost_committed] at hdb
    have hbounds : cfg.contract.fromBlock ≤ w.mem.currentBlock ∧ w.mem.currentBlock ≤ u64Max := by
      rcases hcursor with h | ⟨row, hrow, h⟩
      · exact ⟨h.ge, h.trans_le hstart⟩
      · exact h ▸ hs.sound.cursor row hrow
    refine ⟨⟨fun _ => ⟨(congrArg Conn.txn hconn).trans (lost_txn _), hdb.symm ▸ hs.sound,
        hbounds.1, hbounds.2⟩,
      hdb.symm ▸ hs.sound, fun hi hhi => ?_⟩, fun lg hlg => ?_, fun lg hlg _ => ?_,
      fun lg _ _ hkept => .inr (.inl ⟨hdb.symm ▸ hkept.stored, hkept.start, fun _ => ?_⟩)⟩
    · cases hnote.symm.trans hhi
    · rwa [Handed, World.ticked_handed, hhanded]
    · exact (watched_iff_of_contract hmode).1 (hlg (.inr hmode))
    · rcases hcursor with h | ⟨row, hrow, h⟩
      · exact h.trans_le hkept.start
      · exact h.trans_le (hkept.stored row hrow)
  · exact ⟨hstill _ hmeets.1 hmeets.2, hmeets.2⟩
  · exact ⟨hstill _ hmeets.1 hmeets.2, hmeets.2⟩

/-- How a step treats the record of what was pushed. -/
inductive Course (chains : Text → Set Log) (cfg : Config) (s t : State) : Act → Prop where
  | plain {a : Act} (lists : t.recent = s.recent ∧ t.earlier = s.earlier)
      (note : t.at_ ≠ .dead → s.at_ ≠ .dead ∧
        t.world.mem.droppedLiveHi = s.world.mem.droppedLiveHi)
      (point : t.at_.Rescanned → s.at_.Rescanned) : Course chains cfg s t a
  | renewed {a : Act} (lists : t.recent = [] ∧ t.earlier = s.earlier ++ s.recent) :
      Course chains cfg s t a
  | subscribed (id : Int) (frames : List (Option Payload)) (alive : s.at_ ≠ .dead)
      (same : t = s.subscribed cfg id frames) :
      Course chains cfg s t (.subscribe id frames)
  | recovered (lists : t.recent = s.recent ∧ t.earlier = s.earlier) (alive : s.at_ ≠ .dead)
      (outcome : t.at_ ≠ .dead →
        (t.at_ = .head ∧ t.world.mem.droppedLiveHi = s.world.mem.droppedLiveHi) ∨
        ∀ lg ∈ chains cfg.chain, Watched cfg s.world lg → Ahead cfg s.world lg →
          NotedUpTo s.world.mem.droppedLiveHi lg.blockNumber → Handed t.world lg) :
      Course chains cfg s t .recover

theorem ran_lists {α : Type} {p : M α} {ok : α → World → Point} {err : Point} :
    (s.ran p ok err).recent = s.recent ∧ (s.ran p ok err).earlier = s.earlier ∧
      (s.ran p ok err).noticed = s.noticed := by
  unfold State.ran
  split <;> exact ⟨rfl, rfl, rfl⟩

/-- Where a piece leads to that was not begun behind a rescan. -/
theorem ran_point {α : Type} {p : M α} {ok : α → World → Point} {err : Point} {P : Point → Prop}
    (hok : ∀ a w, P (ok a w)) (herr : P err) (hdead : P .dead) : P (s.ran p ok err).at_ := by
  unfold State.ran
  split
  · exact hok _ _
  · exact herr
  · exact hdead

theorem course_ran {α : Type} {p : M α} {ok : α → World → Point} {err : Point}
    (hp : Within (onward chains hashes cfg E) p) (hs : Sane chains hashes cfg s)
    (halive : s.at_ ≠ .dead)
    (hpoint : (∀ a w, ¬(ok a w).Rescanned) ∧ ¬err.Rescanned ∨ s.at_.Rescanned) :
    Next chains hashes cfg E s (s.ran p ok err) ∧ Course chains cfg s (s.ran p ok err) a ∧
      (s.ran p ok err).noticed = s.noticed := by
  obtain ⟨hnext, hnote⟩ : Next chains hashes cfg E s (s.ran p ok err) ∧ _ :=
    next_ran hp hs halive
  refine ⟨hnext, .plain ⟨ran_lists.1, ran_lists.2.1⟩ (fun h => ⟨halive, hnote h⟩) fun h => ?_,
    ran_lists.2.2⟩
  rcases hpoint with ⟨hok, herr⟩ | h'
  · exact absurd h (ran_point (P := fun q => ¬q.Rescanned) hok herr id)
  · exact h'

/-- **What one step leaves.** -/
theorem next_step (hsource : Source env cfg chains hashes) (hs : Sane chains hashes cfg s)
    (ha : Lawful chains hashes cfg s a) (h : step env cfg s a = some t) :
    Next chains hashes cfg a.Skips s t ∧ Course chains cfg s t a ∧
      t.noticed = a.blocks ++ s.noticed := by
  cases a with
  | turn =>
    simp only [step] at h
    split at h
    · next hat =>
      obtain rfl := Option.some.inj h
      refine course_ran (onward_runLoopTurn hsource) hs (by simp [hat])
        (.inl ⟨fun turn _ => ?_, id⟩)
      split <;> exact id
    · cases h
  | exit =>
    simp only [step] at h
    split at h
    · next hat =>
      obtain rfl := Option.some.inj h
      exact course_ran onward_leaveRunLoop hs (by simp [hat]) (.inl ⟨fun _ _ => id, id⟩)
    · cases h
  | head =>
    simp only [step] at h
    split at h
    · next hat =>
      split at h
      · obtain rfl := Option.some.inj h
        refine course_ran (onward_headTurn hsource) hs (by simp [hat]) (.inl ⟨fun fits _ => ?_, id⟩)
        split <;> exact id
      · obtain rfl := Option.some.inj h
        exact ⟨next_closed hs (by simp [hat]), .renewed ⟨rfl, rfl⟩, rfl⟩
    · cases h
  | bridge =>
    simp only [step] at h
    split at h
    · next hat =>
      obtain rfl := Option.some.inj h
      refine course_ran (onward_bridgeTurn hsource) hs (by simp [hat]) (.inl ⟨fun done _ => ?_, id⟩)
      split <;> exact id
    · next gen hat =>
      obtain rfl := Option.some.inj h
      refine course_ran (onward_bridgeTurn hsource) hs (by simp [hat]) (.inr ?_)
      rw [hat]
      trivial
    · cases h
  | disconnect =>
    simp only [step] at h
    split at h
    · next hat =>
      obtain rfl := Option.some.inj h
      exact ⟨next_of_world hs (by simp [hat]) rfl,
        .plain ⟨rfl, rfl⟩ (fun _ => ⟨by simp [hat], rfl⟩) fun h => h.elim, rfl⟩
    · cases h
  | leave =>
    simp only [step] at h
    split at h
    · next hat =>
      obtain rfl := Option.some.inj h
      exact ⟨next_closed hs (by simp [hat]), .renewed ⟨rfl, rfl⟩, rfl⟩
    · cases h
  | subscribe id frames =>
    simp only [step] at h
    split at h
    · next hat =>
      split at h
      · obtain rfl := Option.some.inj h
        exact ⟨next_of_world hs (by simp [hat]) rfl,
          .plain ⟨rfl, rfl⟩ (fun _ => ⟨by simp [hat], rfl⟩) fun h => h.elim, rfl⟩
      · obtain rfl := Option.some.inj h
        exact ⟨next_subscribed hsource hs (by simp [hat]) ha,
          .subscribed id frames (by simp [hat]) rfl, rfl⟩
    · cases h
  | recover =>
    simp only [step] at h
    split at h
    · next hat =>
      obtain rfl := Option.some.inj h
      obtain ⟨hnext, hcase⟩ := next_recovered hsource hs (by simp [hat])
      exact ⟨hnext, .recovered ⟨ran_lists.1, ran_lists.2.1⟩ (by simp [hat]) hcase, ran_lists.2.2⟩
    · next gen hat =>
      obtain rfl := Option.some.inj h
      obtain ⟨hnext, hcase⟩ := next_recovered hsource hs (by simp [hat])
      exact ⟨hnext, .recovered ⟨ran_lists.1, ran_lists.2.1⟩ (by simp [hat]) hcase, ran_lists.2.2⟩
    · cases h
  | read event =>
    simp only [step] at h
    split at h
    · next gen hat =>
      obtain rfl := Option.some.inj h
      have hpoint : s.at_.Rescanned := by
        rw [hat]
        trivial
      obtain ⟨hnext, hnote⟩ := next_ran (onward_readTurn hsource ha gen) hs (by simp [hat])
      exact ⟨hnext.congr rfl rfl, .plain ⟨ran_lists.1, ran_lists.2.1⟩
        (fun h => ⟨by simp [hat], hnote h⟩) fun _ => hpoint,
        congrArg (event.blocks ++ ·) ran_lists.2.2⟩
    · cases h
  | elsewhere next =>
    simp only [step] at h
    split at h
    · cases h
    · next halive =>
      obtain rfl := Option.some.inj h
      exact ⟨next_elsewhere hs halive ha, .plain ⟨rfl, rfl⟩ (fun _ => ⟨halive, ha.note⟩) id, rfl⟩
  | kill =>
    simp only [step] at h
    split at h
    · cases h
    · next halive =>
      obtain rfl := Option.some.inj h
      exact ⟨next_killed hs halive, .plain ⟨rfl, rfl⟩ (fun h => absurd rfl h) fun h => h.elim, rfl⟩
  | boot =>
    simp only [step] at h
    split at h
    · obtain rfl := Option.some.inj h
      exact ⟨(next_booted ha hsource.start hs).1, .renewed ⟨ran_lists.1, ran_lists.2.1⟩,
        ran_lists.2.2⟩
    · cases h

/-! ### Along a run -/

/-- What is dropped while a session subscribes comes in time: it has been handed over already, or
neither cursor has passed its block. And no log is read in a block of which one was dropped by an
earlier session and never handed over. -/
def InTime (cfg : Config) (s : State) : Act → Prop
  | .subscribe id frames =>
    ∀ lg ∈ s.pushes cfg id frames, Handed s.world lg ∨ Ahead cfg s.world lg
  | .read (.log lg) => ∀ x ∈ s.earlier, x.blockNumber = lg.blockNumber → Handed s.world x
  | _ => True

/-- **What is known of the logs that were dropped.** -/
structure Dropped (chains : Text → Set Log) (hashes : Nat → Text) (cfg : Config) (s : State) :
    Prop extends Sane chains hashes cfg s where
  pushed : ∀ lg ∈ s.earlier ++ s.recent, lg ∈ chains cfg.chain ∧ Sees cfg s lg ∧
    (Handed s.world lg ∨ Kept cfg s lg)
  noted : s.at_ ≠ .dead → ∀ lg ∈ s.recent,
    Handed s.world lg ∨ NotedUpTo s.world.mem.droppedLiveHi lg.blockNumber
  rescanned : s.at_.Rescanned → ∀ lg ∈ s.recent, Handed s.world lg

/-- Only behind a rescan are logs read. -/
theorem rescanned_of_read {event : ReadEvent} (h : step env cfg s (.read event) = some t) :
    s.at_.Rescanned := by
  simp only [step] at h
  split at h
  · next gen hat =>
    rw [hat]
    trivial
  · cases h

/-- A log that was dropped is not skipped. -/
theorem handed_of_skipped (hs : Dropped chains hashes cfg s) (htime : InTime cfg s a)
    (h : step env cfg s a = some t) {lg : Log} (hlg : lg ∈ s.earlier ++ s.recent)
    (hskip : a.Skips lg.blockNumber) : Handed s.world lg := by
  cases a with
  | read event =>
    cases event with
    | log x =>
      rcases List.mem_append.1 hlg with hlg | hlg
      · exact htime lg hlg hskip
      · exact hs.rescanned (rescanned_of_read h) lg hlg
    | pingHandled => exact hskip.elim
    | closed => exact hskip.elim
  | turn => exact hskip.elim
  | exit => exact hskip.elim
  | head => exact hskip.elim
  | bridge => exact hskip.elim
  | disconnect => exact hskip.elim
  | leave => exact hskip.elim
  | subscribe id frames => exact hskip.elim
  | recover => exact hskip.elim
  | elsewhere next => exact hskip.elim
  | kill => exact hskip.elim
  | boot => exact hskip.elim

theorem dropped_step (hsource : Source env cfg chains hashes) (hs : Dropped chains hashes cfg s)
    (ha : Lawful chains hashes cfg s a) (htime : InTime cfg s a)
    (h : step env cfg s a = some t) : Dropped chains hashes cfg t := by
  obtain ⟨hnext, hcourse, -⟩ := next_step hsource hs.toSane ha h
  have hold : ∀ lg ∈ s.earlier ++ s.recent, lg ∈ chains cfg.chain ∧ Sees cfg t lg ∧
      (Handed t.world lg ∨ Kept cfg t lg) := by
    intro lg hlg
    obtain ⟨hof, hsees, hcase⟩ := hs.pushed lg hlg
    refine ⟨hof, hnext.sees lg hsees, ?_⟩
    rcases hcase with hhanded | hkept
    · exact .inl (hnext.handed lg hhanded)
    · rcases hnext.kept lg hof hsees hkept with h' | h' | hskip
      · exact .inl h'
      · exact .inr h'
      · exact .inl (hnext.handed lg (handed_of_skipped hs htime h hlg hskip))
  cases hcourse with
  | plain lists note point =>
    obtain ⟨hrecent, hearlier⟩ := lists
    refine ⟨hnext.sane, by rwa [hrecent, hearlier], fun ht lg hlg => ?_, fun ht lg hlg => ?_⟩
    · rw [hrecent] at hlg
      obtain ⟨halive, hnote⟩ := note ht
      rw [hnote]
      exact (hs.noted halive lg hlg).imp_left (hnext.handed lg)
    · rw [hrecent] at hlg
      exact hnext.handed lg (hs.rescanned (point ht) lg hlg)
  | renewed lists =>
    obtain ⟨hrecent, hearlier⟩ := lists
    refine ⟨hnext.sane, ?_, fun _ lg hlg => ?_, fun _ lg hlg => ?_⟩
    · rwa [hrecent, hearlier, List.append_nil]
    · rw [hrecent] at hlg
      exact absurd hlg List.not_mem_nil
    · rw [hrecent] at hlg
      exact absurd hlg List.not_mem_nil
  | subscribed id frames alive same =>
    subst same
    have hnotes : (s.handshake cfg id frames).Notes frames s.world.mem.droppedLiveHi :=
      notes_subscribeAddressChunks _ id frames _
    have hpush : ∀ lg ∈ s.pushes cfg id frames, Watched cfg s.world lg ∧
        ∃ p ∈ (s.handshake cfg id frames).read, p.pushed = some lg := by
      intro lg hlg
      obtain ⟨hread, hwatch⟩ := List.mem_filter.1 hlg
      obtain ⟨p, hp, hpushed⟩ := List.mem_filterMap.1 hread
      exact ⟨of_decide_eq_true hwatch, p, hp, hpushed⟩
    refine ⟨hnext.sane, fun lg hlg => ?_, fun _ lg hlg => ?_, fun hpoint => ?_⟩
    · rw [State.subscribed, ← List.append_assoc] at hlg
      rcases List.mem_append.1 hlg with hlg | hlg
      · exact hold lg hlg
      · obtain ⟨hwatch, p, hp, hpushed⟩ := hpush lg hlg
        refine ⟨ha p (hnotes.frame p hp) lg hpushed, sees_of_watched hwatch, ?_⟩
        refine (htime lg hlg).imp_right fun hahead => ?_
        exact ⟨hahead.stored, (hs.ready alive).start.trans hahead.memory, fun _ => hahead.memory⟩
    · rcases List.mem_append.1 hlg with hlg | hlg
      · exact (hs.noted alive lg hlg).imp_right (hnotes.keeps _)
      · obtain ⟨-, p, hp, hpushed⟩ := hpush lg hlg
        exact .inr (hnotes.notes p hp lg hpushed)
    · refine absurd hpoint ?_
      simp only [State.subscribed]
      split <;> exact fun h => h
  | recovered lists alive outcome =>
    obtain ⟨hrecent, hearlier⟩ := lists
    have hall : t.at_ ≠ .dead → (t.at_ = .head ∧
        t.world.mem.droppedLiveHi = s.world.mem.droppedLiveHi) ∨
        ∀ lg ∈ s.recent, Handed t.world lg := by
      intro ht
      refine (outcome ht).imp_right fun hrescan lg hlg => ?_
      obtain ⟨hof, hsees, hcase⟩ := hs.pushed lg (List.mem_append_right _ hlg)
      rcases hs.noted alive lg hlg with hhanded | hnote
      · exact hnext.handed lg hhanded
      · rcases hcase with hhanded | hkept
        · exact hnext.handed lg hhanded
        · exact hrescan lg hof (hsees.watched alive) (hkept.ahead alive) hnote
    refine ⟨hnext.sane, by rwa [hrecent, hearlier], fun ht lg hlg => ?_, fun ht lg hlg => ?_⟩
    · rw [hrecent] at hlg
      rcases hall ht with ⟨-, hnote⟩ | hdone
      · rw [hnote]
        exact (hs.noted alive lg hlg).imp_left (hnext.handed lg)
      · exact .inl (hdone lg hlg)
    · rw [hrecent] at hlg
      have halive : t.at_ ≠ .dead := fun hdead => by
        rw [hdead] at ht
        exact ht
      rcases hall halive with ⟨hhead, -⟩ | hdone
      · rw [hhead] at ht
        exact ht.elim
      · exact hdone lg hlg

end Step

/-! ### A block of two logs -/

def poolAddress : Text := "0x".toList ++ List.replicate 40 'a'

def firstMint : Log where
  address := poolAddress
  topics := ["0x".toList ++ List.replicate 64 '0']
  data := []
  blockNumber := 7
  transactionHash := "0x01".toList
  logIndex := 0

def secondMint : Log := { firstMint with logIndex := 1 }

/-- The chain of the two. -/
def mints : List Log := [firstMint, secondMint]

/-- A node that has come to a block. -/
def mintNode (tip : Nat) : Env where
  blockNumber _ := .ok tip
  getLogs _ f := .ok (mints.filter (Wanted f.addresses f.topics f.fromBlock f.toBlock ·))
  blockReceipts _ b := .ok (mints.filter (·.blockNumber = b))

/-- An indexer of the pool, with one event, which has no fields. -/
def poolConfig : Config :=
  { plainConfig with
    contract := { plainConfig.contract with address := poolAddress, fromBlock := 7 }
    abi := some
      { findEventByName := fun _ => some ⟨"Mint".toList, []⟩
        findEventByTopic0 := fun _ => some ⟨"Mint".toList, []⟩
        decodeLog := fun _ _ _ => .ok [] }
    hasWsConfig := true }

/-- It waits for its first block. -/
def waiting : World := { conn := Conn.quiet {}, mem := { currentBlock := 7, state := .running } }

theorem block_of_mem_mints {lg : Log} (h : lg ∈ mints) : lg.blockNumber = 7 := by
  simp only [mints, List.mem_cons, List.not_mem_nil, or_false] at h
  rcases h with rfl | rfl <;> rfl

theorem canonical_mints : Canonical {lg | lg ∈ mints} where
  address := show ∀ lg ∈ mints, Text.isAddress lg.address = true by decide
  topics := show ∀ lg ∈ mints, ∀ t ∈ lg.topics, t ≠ [] ∧ ',' ∉ t by decide
  identity := show ∀ a ∈ mints, ∀ b ∈ mints, a.transactionHash = b.transactionHash →
    a.logIndex = b.logIndex → a = b by decide
  removed := show ∀ lg ∈ mints, lg.removed = false by decide
  block lg h := (block_of_mem_mints h).trans_le (by decide)

theorem source_mintNode {tip : Nat} (htip : tip ≤ u64Max) :
    Source (mintNode tip) poolConfig (fun _ => {lg | lg ∈ mints}) fun _ => [] where
  start := by decide
  canonical := canonical_mints
  serves :=
    { logs := fun t f logs h => by
        obtain rfl := Outcome.ok.inj h
        refine .inl ⟨(List.length_filter_le _ _).trans_lt (by decide), fun lg => ?_⟩
        rw [List.mem_filter, decide_eq_true_eq, Set.mem_ofPred_eq]
      receipts := fun t b logs h lg => by
        obtain rfl := Outcome.ok.inj h
        rw [List.mem_filter, decide_eq_true_eq, Set.mem_ofPred_eq] }
  tip now latest h := (Outcome.ok.inj h) ▸ htip
  hash now b h heq := by cases heq
  cache h := absurd h (by decide)

theorem ready_waiting : Ready (fun _ => {lg | lg ∈ mints}) (fun _ => []) poolConfig waiting where
  quiet := rfl
  sound := ⟨fun h => absurd h (by decide), (fun _ _ h => by cases h), fun _ h => by cases h⟩
  start := le_rfl
  cursor := by decide

def reply (id : Int) : Option Payload := some { id := some (some id), confirms := true }

def push (lg : Log) : Option Payload := some { log := some lg }

/-- From the run loop to a session that subscribes. -/
def opening : List Act := [.turn, .head, .bridge]

/-- Steps of which it can be told that they are lawful. -/
def Act.plain : Act → Bool
  | .subscribe _ frames =>
    frames.all fun frame => (frame.bind Payload.pushed).all (mints.contains ·)
  | .read (.log lg) => mints.contains lg
  | .elsewhere _ => false
  | .boot => false
  | _ => true

theorem lawful_of_plain {s : State} {a : Act} (h : a.plain = true) :
    Lawful (fun _ => {lg | lg ∈ mints}) (fun _ => []) poolConfig s a := by
  cases a with
  | subscribe id frames =>
    intro p hp lg hlg
    have hframe := List.all_eq_true.1 h _ hp
    rw [Option.bind_some, hlg] at hframe
    exact List.contains_iff_mem.1 hframe
  | read event =>
    cases event with
    | log lg => exact List.contains_iff_mem.1 h
    | pingHandled => trivial
    | closed => trivial
  | elsewhere next => cases h
  | boot => cases h
  | _ => trivial

/-! ### What is not lost -/

section Runs

variable {env : Env} {chains : Text → Set Log} {hashes : Nat → Text} {cfg : Config} {s t : State}
  {a : Act}

/-- **What is dropped in time is not lost.** In every state of every run, a log that was pushed
while a session subscribed has been handed over, or the stored cursor has not passed its block;
and as soon as the rescan of the session goes through, all of its dropped logs have been handed
over. -/
theorem pushed_not_lost (hsource : Source env cfg chains hashes) {w₀ : World}
    (h₀ : Ready chains hashes cfg w₀) (hnote : w₀.mem.droppedLiveHi = none)
    (h : (live env cfg { world := w₀ }).Reaches
      (fun s a => Lawful chains hashes cfg s a ∧ InTime cfg s a) s) :
    (∀ lg ∈ s.earlier ++ s.recent,
        Handed s.world lg ∨ s.world.db.StoredUpTo cfg.stateKey lg.blockNumber) ∧
      (s.at_ ≠ .dead → ∀ w', recoverDroppedLive env cfg s.world = (.ok (), w') →
        ∀ lg ∈ s.recent, Handed w' lg) := by
  have hs : Dropped chains hashes cfg s := by
    refine h.invariant (I := Dropped chains hashes cfg) ⟨⟨fun _ => h₀, h₀.sound, fun hi hhi => ?_⟩,
      fun lg hlg => ?_, fun _ lg hlg => ?_, fun _ lg hlg => ?_⟩
      fun s a t hs ha hst => dropped_step hsource hs ha.1 ha.2 hst
    · cases hnote.symm.trans hhi
    · exact absurd hlg List.not_mem_nil
    · exact absurd hlg List.not_mem_nil
    · exact absurd hlg List.not_mem_nil
  refine ⟨fun lg hlg => (hs.pushed lg hlg).2.2.imp_right (·.stored), ?_⟩
  intro halive w' hrun lg hlg
  have hmeets := meets_recoverDroppedLive (E := fun _ => False) hsource
    (fun hi hhi => hs.note hi hhi halive) (hs.ready halive)
  obtain ⟨w₁, rfl, hon, hall⟩ := hmeets.ok_of_eq hrun
  obtain ⟨hof, hsees, hcase⟩ := hs.pushed lg (List.mem_append_right _ hlg)
  rcases hs.noted halive lg hlg with hhanded | ⟨hi, hhi, hle⟩
  · exact hon.handed lg hhanded
  · rcases hcase with hhanded | hkept
    · exact hon.handed lg hhanded
    · exact hall hi hhi lg hof (hsees.watched halive) (hkept.memory halive) hle

/-- Both logs are pushed before the reply. -/
def dropped : List Act :=
  opening ++ [.subscribe 1 [push firstMint, push secondMint, reply 1]]

/-- Steps of which it can be told that they come in time, too. -/
def State.timely (s : State) : Act → Bool
  | .subscribe _ _ => s.world.mem.currentBlock ≤ 7 &&
      (s.world.db.syncState poolConfig.stateKey).all (·.lastSyncedBlock ≤ 7)
  | .read _ => false
  | _ => true

theorem inTime_of_timely {s : State} {a : Act} (hplain : a.plain = true)
    (h : s.timely a = true) : InTime poolConfig s a := by
  cases a with
  | subscribe id frames =>
    intro lg hlg
    obtain ⟨hread, -⟩ := List.mem_filter.1 hlg
    obtain ⟨p, hp, hpushed⟩ := List.mem_filterMap.1 hread
    have hframe := (notes_subscribeAddressChunks _ id frames _).frame p hp
    have hblock := block_of_mem_mints (lawful_of_plain (s := s) hplain p hframe lg hpushed)
    obtain ⟨hcursor, hstored⟩ := Bool.and_eq_true_iff.1 h
    refine .inr ⟨(of_decide_eq_true hcursor).trans hblock.ge, fun row hrow => ?_⟩
    rw [hrow, Option.all_some] at hstored
    exact (of_decide_eq_true hstored).trans hblock.ge
  | read event => cases h
  | _ => trivial

theorem pushed_not_lost_mints : ∃ (s : State) (w' : World), s.recent = mints ∧ s.world.handed = [] ∧
    recoverDroppedLive (mintNode 6) poolConfig s.world = (.ok (), w') ∧
    ∀ lg ∈ mints, Handed w' lg := by
  let machine := live (mintNode 6) poolConfig { world := waiting }
  let scanned : State → Outcome Err Unit × World := fun s =>
    syncRange (mintNode 6) poolConfig 7 7 s.world
  have hrun : ((machine.runIf (fun s a => a.plain && s.timely a) machine.init dropped).map fun s =>
      decide ((s.recent = mints ∧ s.world.handed = [] ∧ s.at_ ≠ .dead) ∧
        droppedLiveRescan s.world.mem.currentBlock s.world.mem.droppedLiveHi = some (7, 7) ∧
        nextLiveChunkEnd 7 s.world.mem.batchSize 7 = some 7 ∧ Goes s.world.mem ∧
        (scanned s).1 = .ok () ∧
        (passRange (mintNode 6) poolConfig 7 (scanned s).2).1 = .ok ())) = some true := by
    decide +kernel
  obtain ⟨s, hs, hprops⟩ := Option.map_eq_some_iff.1 hrun
  obtain ⟨⟨hrecent, hhanded, hat⟩, hspan, hchunk, hgoes, hscan, hpass⟩ := of_decide_eq_true hprops
  have hrecover := recoverDroppedLive_chunk hspan hchunk hgoes (Prod.ext hscan rfl)
    (Prod.ext hpass rfl)
  have hreach := (Machine.Reaches.init (M := machine) (C := fun s a =>
      Lawful (fun _ => {lg | lg ∈ mints}) (fun _ => []) poolConfig s a ∧
        InTime poolConfig s a)).runIf
    (fun s a h => ⟨lawful_of_plain (Bool.and_eq_true_iff.1 h).1,
      inTime_of_timely (Bool.and_eq_true_iff.1 h).1 (Bool.and_eq_true_iff.1 h).2⟩) hs
  obtain ⟨-, hrescan⟩ := pushed_not_lost (source_mintNode (by decide)) ready_waiting rfl hreach
  exact ⟨s, _, hrecent, hhanded, hrecover, hrecent ▸ hrescan hat _ hrecover⟩

/-- The connection is closed between the two logs of a block. The second comes while the next
session subscribes. -/
def torn : List Act :=
  opening ++ [.subscribe 1 [reply 1], .recover, .bridge, .read (.log firstMint), .read .closed,
    .head, .bridge, .subscribe 1 [push secondMint, reply 1]]

/-- **A log that is pushed behind the cursor is lost**: the rescan goes through without it, and
the stored cursor has passed its block. -/
theorem pushed_behind_cursor : ∃ s w',
    (live (mintNode 6) poolConfig { world := waiting }).Reaches
        (Lawful (fun _ => {lg | lg ∈ mints}) (fun _ => []) poolConfig) s ∧
      secondMint ∈ s.recent ∧ recoverDroppedLive (mintNode 6) poolConfig s.world = (.ok (), w') ∧
      ¬Handed w' secondMint ∧ ¬w'.db.StoredUpTo poolConfig.stateKey secondMint.blockNumber := by
  have hrun : (((live (mintNode 6) poolConfig { world := waiting }).runIf (fun _ a => a.plain)
      { world := waiting } torn).map fun s => (s.recent.contains secondMint,
        (recoverDroppedLive (mintNode 6) poolConfig s.world).1,
        ((recoverDroppedLive (mintNode 6) poolConfig s.world).2.handed.map lowered).contains
          (lowered secondMint),
        ((recoverDroppedLive (mintNode 6) poolConfig s.world).2.db.syncState
          poolConfig.stateKey).map (·.lastSyncedBlock))) =
      some (true, .ok (), false, some 8) := by decide +kernel
  obtain ⟨s, hs, hprops⟩ := Option.map_eq_some_iff.1 hrun
  simp only [Prod.mk.injEq, List.contains_iff_mem] at hprops
  obtain ⟨hrecent, hok, hhanded, hstored⟩ := hprops
  have hreach := (Machine.Reaches.init (M := live (mintNode 6) poolConfig { world := waiting })
    (C := Lawful (fun _ => {lg | lg ∈ mints}) (fun _ => []) poolConfig)).runIf
      (fun _ _ => lawful_of_plain) hs
  obtain ⟨row, hrow, hcursor⟩ := Option.map_eq_some_iff.1 hstored
  refine ⟨s, _, hreach, hrecent, Prod.ext hok rfl, fun h => ?_, fun h => ?_⟩
  · exact Bool.false_ne_true (hhanded.symm.trans (List.contains_iff_mem.2 h))
  · exact absurd (h row hrow) (by rw [hcursor]; decide)

/-- **What is known of every log that is watched.** -/
structure Complete (chains : Text → Set Log) (hashes : Nat → Text) (cfg : Config) (s : State) :
    Prop extends Sane chains hashes cfg s where
  watched : ∀ lg ∈ chains cfg.chain, Watched cfg s.world lg →
    cfg.contract.fromBlock ≤ lg.blockNumber →
    Handed s.world lg ∨ Kept cfg s lg ∨ lg.blockNumber ∈ s.noticed

theorem complete_step (hmode : cfg.templateMode = false) (hsource : Source env cfg chains hashes)
    (hs : Complete chains hashes cfg s) (ha : Lawful chains hashes cfg s a)
    (h : step env cfg s a = some t) : Complete chains hashes cfg t := by
  obtain ⟨hnext, -, hnoticed⟩ := next_step hsource hs.toSane ha h
  refine ⟨hnext.sane, fun lg hlg hwatch hstart => ?_⟩
  have hwatch' : Watched cfg s.world lg := (watched_iff_of_contract hmode).1 hwatch
  rcases hs.watched lg hlg hwatch' hstart with hhanded | hkept | hmem
  · exact .inl (hnext.handed lg hhanded)
  · refine (hnext.kept lg hlg (sees_of_watched hwatch') hkept).imp_right
      (.imp_right fun hskip => ?_)
    rw [hnoticed]
    refine List.mem_append_left _ ?_
    cases a with
    | read event =>
      cases event with
      | log x => exact List.mem_singleton.2 hskip
      | pingHandled => exact hskip.elim
      | closed => exact hskip.elim
    | _ => exact hskip.elim
  · exact .inr (.inr (hnoticed ▸ List.mem_append_right _ hmem))

end Runs

end Live

end Zponder

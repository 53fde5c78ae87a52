import Zponder.CacheHistory
import Zponder.Carried
import Zponder.ChainOrder
import Zponder.LiveTurns
import Zponder.Origins

/-!
# What the stored cursor promises

An indexer of one address scans, puts failed logs aside, tries them again, goes back when the
chain has changed, stops, dies and starts again where the stored cursor says. The cursor is
written after a scan, and on its own; the events are written one by one, and a log that fails is
only put aside. Still **every wanted log of the chain below the stored cursor is accounted for**
(`Zponder.Promise.promised_of_reaches`): its event is stored, or there is a letter for it, or the
filters leave it out. While the chain has changed from a block on and no rollback to that block or
below has gone through, this is said of the blocks below that one only.

What carries it is that the rows of the indexer can be traced back to the chain
(`Zponder.Promise.Clean`): a row under the name of a log of the chain is of its block. Without
that a rollback could take the row a promise rests on, and a stale letter could stand for another
log.
-/

namespace Zponder

namespace Promise

open Imperative Prog Conn DeadLetters Custody

/-! ### Rows and the chain -/

/-- What is known of the logs of a chain: they are as nodes write them, and each has a name of its
own. -/
structure Written (C : Set Log) : Prop extends Canonical C where
  plain : ∀ lg ∈ C, Plain lg

/-- A log of the chain, however its address is written. -/
def Of (C : Set Log) (x : Log) : Prop := ∃ lg ∈ C, lowered lg = lowered x

/-- The tables of the events of an indexer. -/
def ownTables (cfg : Config) : List Text := cfg.contract.events.map (eventTable cfg.contract.name)

/-- The filters let through no event but those that have a table. -/
def Listed (cfg : Config) : Prop :=
  ∀ lg ev, classify cfg lg = .ok (some ev) → ev.name ∈ cfg.contract.events

/-- A name that stands for a log of the chain in block `b`, as far as the chain is known. -/
structure Placed (C : Set Log) (d : Nat) (hash : Text) (index b : Nat) : Prop where
  known : b < d → ∃ lg ∈ C, lg.transactionHash = hash ∧ lg.logIndex = index ∧ lg.blockNumber = b
  alone : ∀ lg ∈ C, lg.blockNumber < d → lg.transactionHash = hash → lg.logIndex = index →
    lg.blockNumber = b

/-- **The rows of an indexer are of the chain**, as far as it is known: below block `d`. -/
structure Clean (cfg : Config) (C : Set Log) (d : Nat) (t : Tables) : Prop where
  eventsPlaced : ∀ e ∈ t.events, e.key.table ∈ ownTables cfg →
    Placed C d e.key.txHash e.key.logIndex e.blockNumber
  lettersPlaced : ∀ r ∈ letters cfg t, Placed C d r.txHash r.logIndex r.blockNumber
  reports : ∀ r ∈ letters cfg t, r.blockNumber < d → ∃ lg ∈ C, Reports cfg r lg

section Rows

variable {cfg : Config} {C D : Set Log} {d f b : Nat} {t u : Tables} {lg x : Log}
  {hash : Text} {index : Nat}

theorem hash_of_lowered (h : lowered lg = lowered x) : lg.transactionHash = x.transactionHash := by
  change (lowered lg).transactionHash = _
  rw [h]
  rfl

theorem index_of_lowered (h : lowered lg = lowered x) : lg.logIndex = x.logIndex := by
  change (lowered lg).logIndex = _
  rw [h]
  rfl

theorem block_of_lowered (h : lowered lg = lowered x) : lg.blockNumber = x.blockNumber := by
  change (lowered lg).blockNumber = _
  rw [h]
  rfl

theorem unremoved_of_lowered (h : lowered lg = lowered x) :
    lowered { lg with removed := false } = lowered { x with removed := false } := by
  change { lowered lg with removed := false } = { lowered x with removed := false }
  rw [h]

/-- How the address is written matters to nobody. -/
theorem accounted_congr (h : lowered lg = lowered x) :
    Accounted cfg lg t ↔ Accounted cfg x t := by
  have hlg : Settled cfg { lg with removed := false } t ↔ Settled cfg lg t := settled_congr rfl
  have hx : Settled cfg { lg with removed := false } t ↔ Settled cfg x t :=
    settled_congr (unremoved_of_lowered h)
  have hsettled : Settled cfg lg t ↔ Settled cfg x t := hlg.symm.trans hx
  refine or_congr hsettled (exists_congr fun r => and_congr_right fun _ => ?_)
  rw [Reports, Reports, unremoved_of_lowered h]

/-- The name of a log of the chain. -/
theorem placed_of (hC : Canonical C) (hx : Of C x) :
    Placed C d x.transactionHash x.logIndex x.blockNumber := by
  obtain ⟨lg, hlg, h⟩ := hx
  refine ⟨fun _ => ⟨lg, hlg, hash_of_lowered h, index_of_lowered h, block_of_lowered h⟩,
    fun lg' hlg' _ hh hi => ?_⟩
  rw [hC.identity lg' hlg' lg hlg (hh.trans (hash_of_lowered h).symm)
    (hi.trans (index_of_lowered h).symm), block_of_lowered h]

/-- **What is stored under the name of a log of the chain is of that log.** -/
theorem Clean.unmixed (h : Clean cfg C d t) (hC : Canonical C) (hlisted : Listed cfg)
    (hx : Of C x) (hlt : x.blockNumber < d) : Unmixed cfg x t := by
  obtain ⟨lg, hlg, heq⟩ := hx
  have hblock := block_of_lowered heq
  refine ⟨fun r hr hhash hindex => ?_, fun ev hev e he hkey => ?_⟩
  · have hb : lg.blockNumber = r.blockNumber := (h.lettersPlaced r hr).alone lg hlg (hblock ▸ hlt)
      ((hash_of_lowered heq).trans hhash.symm) ((index_of_lowered heq).trans hindex.symm)
    obtain ⟨lg', hlg', hreports⟩ := h.reports r hr (hb ▸ hblock ▸ hlt)
    have hname : lg'.transactionHash = r.txHash ∧ lg'.logIndex = r.logIndex := by
      have h₁ : r.txHash = lg'.transactionHash := congrArg Log.transactionHash hreports
      have h₂ : r.logIndex = lg'.logIndex := congrArg Log.logIndex hreports
      exact ⟨h₁.symm, h₂.symm⟩
    obtain rfl := hC.identity lg' hlg' lg hlg
      (hname.1.trans (hhash.trans (hash_of_lowered heq).symm))
      (hname.2.trans (hindex.trans (index_of_lowered heq).symm))
    rw [Reports, hreports, unremoved_of_lowered heq]
  · have htable : e.key.table ∈ ownTables cfg := by
      rw [hkey]
      exact List.mem_map_of_mem (hlisted x ev hev)
    have hb := (h.eventsPlaced e he htable).alone lg hlg (hblock ▸ hlt)
    rw [hkey] at hb
    exact (hb (hash_of_lowered heq) (index_of_lowered heq)).symm.trans hblock

/-- Rows that were there, and rows of the chain. -/
theorem Clean.traced (h : Clean cfg C d t)
    (hevents : ∀ e ∈ u.events, e.key.table ∈ ownTables cfg →
      e ∈ t.events ∨ Placed C d e.key.txHash e.key.logIndex e.blockNumber)
    (hletters : ∀ r ∈ letters cfg u, (∃ r₀ ∈ letters cfg t, about r = about r₀) ∨
      Placed C d r.txHash r.logIndex r.blockNumber ∧ ∃ lg ∈ C, Reports cfg r lg) :
    Clean cfg C d u where
  eventsPlaced e he hown := (hevents e he hown).elim (fun hold => h.eventsPlaced e hold hown) id
  lettersPlaced r hr := by
    rcases hletters r hr with ⟨r₀, hr₀, habout⟩ | ⟨hplaced, -⟩
    · have hplaced := h.lettersPlaced r₀ hr₀
      change Placed C d (about r).txHash (about r).logIndex (about r).blockNumber
      rw [habout]
      exact hplaced
    · exact hplaced
  reports r hr hlt := by
    rcases hletters r hr with ⟨r₀, hr₀, habout⟩ | ⟨-, hreports⟩
    · obtain ⟨lg, hlg, hreports⟩ := h.reports r₀ hr₀ (blockNumber_of_about habout ▸ hlt)
      exact ⟨lg, hlg, hreports.about habout⟩
    · exact hreports

theorem Clean.subset (h : Clean cfg C d t) (hevents : ∀ e ∈ u.events, e ∈ t.events)
    (hletters : ∀ r ∈ u.rawLogs, r ∈ t.rawLogs) : Clean cfg C d u := by
  refine h.traced (fun e he _ => .inl (hevents e he)) fun r hr => .inl ⟨r, ?_, rfl⟩
  rw [mem_letters] at hr ⊢
  exact ⟨hletters r hr.1, hr.2⟩

theorem Clean.mono {e : Nat} (h : Clean cfg C d t) (hle : e ≤ d) : Clean cfg C e t := by
  have hplaced : ∀ {hash index b}, Placed C d hash index b → Placed C e hash index b :=
    fun hp => ⟨fun hlt => hp.known (lt_of_lt_of_le hlt hle),
      fun lg hlg hlt => hp.alone lg hlg (lt_of_lt_of_le hlt hle)⟩
  exact ⟨fun x hx hown => hplaced (h.eventsPlaced x hx hown),
    fun r hr => hplaced (h.lettersPlaced r hr),
    fun r hr hlt => h.reports r hr (lt_of_lt_of_le hlt hle)⟩

/-- Only the character zero is zero in lower case. -/
theorem toNat_toLower_eq_zero {c : Char} : c.toLower.toNat = 0 ↔ c.toNat = 0 := by
  unfold Char.toLower
  split
  · next hupper =>
    have hlow : (65 : UInt32) ≤ c.val := hupper.1
    have hhigh : c.val ≤ 90 := hupper.2
    have h65 : (65 : UInt32).toNat = 65 := rfl
    have h90 : (90 : UInt32).toNat = 90 := rfl
    have h32 : (32 : UInt32).toNat = 32 := rfl
    change (c.val + 32).toNat = 0 ↔ c.val.toNat = 0
    rw [UInt32.toNat_add]
    rw [UInt32.le_iff_toNat_le] at hlow hhigh
    omega
  · exact Iff.rfl

/-- A log of the chain can be written down, however its address is written. -/
theorem Written.plain_of (hC : Written C) (hx : Of C x) : Plain x := by
  obtain ⟨lg, hlg, heq⟩ := hx
  have hplain := hC.plain lg hlg
  have hlower : Text.lower lg.address = Text.lower x.address := by
    have hcache : Text.cacheAddress x.address = Text.cacheAddress lg.address :=
      (congrArg Log.address heq).symm
    exact Text.eqlIgnoreCase_iff.1 (Text.eqlIgnoreCase_of_cacheAddress hcache)
  have htopics : lg.topics = x.topics := by
    change (lowered lg).topics = _
    rw [heq]
    rfl
  have hdata : lg.data = x.data := by
    change (lowered lg).data = _
    rw [heq]
    rfl
  have hzero : ∀ {a b : Text}, Text.lower a = Text.lower b → (∀ c ∈ a, c.toNat ≠ 0) →
      ∀ c ∈ b, c.toNat ≠ 0 := by
    intro a b hab ha c hc hczero
    have hmem : c.toLower ∈ Text.lower a := hab ▸ List.mem_map_of_mem hc
    obtain ⟨c', hc', hsame⟩ := List.mem_map.1 hmem
    refine ha c' hc' (toNat_toLower_eq_zero.1 ?_)
    rw [hsame]
    exact toNat_toLower_eq_zero.2 hczero
  refine ⟨fun hnil => hplain.address ?_, htopics ▸ hplain.topics, ?_⟩
  · rw [hnil] at hlower
    exact List.map_eq_nil_iff.1 hlower
  · have htexts := hplain.texts
    simp only [List.forall_mem_cons, List.not_mem_nil, false_imp_iff, implies_true, and_true]
      at htexts ⊢
    rw [← hdata, ← hash_of_lowered heq]
    exact ⟨hzero hlower htexts.1, htexts.2⟩

/-- **What a delivery brings** is of the chain. -/
theorem Clean.brings (h : Clean cfg C d t) (hC : Written C) (hx : Of C x)
    (hbrings : Brings cfg x t u) : Clean cfg C d u := by
  have hplaced : Placed C d x.transactionHash x.logIndex x.blockNumber :=
    placed_of hC.toCanonical hx
  refine h.traced (fun e he _ => (hbrings.events e he).imp_right fun hbears => ?_)
    fun r hr => ?_
  · rwa [hbears.hash, hbears.index, hbears.block]
  · obtain ⟨hr, hown⟩ := mem_letters.1 hr
    rcases hbrings.letters r hr with hold | ⟨reason, n, rfl⟩
    · exact .inl ⟨r, mem_letters.2 ⟨hold, hown⟩, rfl⟩
    · obtain ⟨lg, hlg, heq⟩ := id hx
      refine .inr ⟨hplaced, lg, hlg, ?_⟩
      rw [Reports, logOfRow_letterOf (hC.plain_of hx), unremoved_of_lowered heq]

/-- What a letter enters is where the letter is. -/
theorem Clean.retried (h : Clean cfg C d t) {xs : List Attempt}
    (hxs : ∀ a ∈ xs, a.1 ∈ letters cfg t) (hevents : EnteredOf cfg xs t u)
    (hletters : ∀ r ∈ letters cfg u, ∃ r₀ ∈ letters cfg t, about r = about r₀) :
    Clean cfg C d u := by
  refine h.traced (fun e he _ => (hevents e he).imp_right ?_) fun r hr => .inl (hletters r hr)
  rintro ⟨a, ha, hbears⟩
  have hplaced := h.lettersPlaced a.1 (hxs a ha)
  rwa [hbears.hash, hbears.index, hbears.block]

/-- **The chain changes** from a block on. -/
theorem Clean.forks (h : Clean cfg C d t) (hsame : CacheHistory.SameBelow f C D) :
    Clean cfg D (min d f) t := by
  have hplaced : ∀ {hash index b}, Placed C d hash index b → Placed D (min d f) hash index b := by
    intro hash index b hp
    refine ⟨fun hlt => ?_, fun lg hlg hlt => ?_⟩
    · obtain ⟨lg, hlg, hh, hi, hb⟩ := hp.known (lt_of_lt_of_le hlt (min_le_left _ _))
      exact ⟨lg, (hsame lg (hb ▸ lt_of_lt_of_le hlt (min_le_right _ _))).1 hlg, hh, hi, hb⟩
    · exact hp.alone lg ((hsame lg (lt_of_lt_of_le hlt (min_le_right _ _))).2 hlg)
        (lt_of_lt_of_le hlt (min_le_left _ _))
  refine ⟨fun e he hown => hplaced (h.eventsPlaced e he hown),
    fun r hr => hplaced (h.lettersPlaced r hr), fun r hr hlt => ?_⟩
  obtain ⟨lg, hlg, hreports⟩ := h.reports r hr (lt_of_lt_of_le hlt (min_le_left _ _))
  have hlow : lg.blockNumber < f := hreports.blockNumber ▸ lt_of_lt_of_le hlt (min_le_right _ _)
  exact ⟨lg, (hsame lg hlow).1 hlg, hreports⟩

/-- **A rollback that goes through**, to a block below which the rows are of the chain: what is left
is of the chain. -/
theorem Clean.cut (h : Clean cfg C d t) (hC : Canonical C) (hle : f ≤ d)
    (hcut : Cut cfg f u64Max t u) (d' : Nat) : Clean cfg C d' u := by
  have hplaced : ∀ {hash index b}, b < f → Placed C d hash index b → Placed C d' hash index b := by
    intro hash index b hlt hp
    obtain ⟨lg, hlg, hh, hi, hb⟩ := hp.known (lt_of_lt_of_le hlt hle)
    refine ⟨fun _ => ⟨lg, hlg, hh, hi, hb⟩, fun lg' hlg' _ hh' hi' => ?_⟩
    rw [hC.identity lg' hlg' lg hlg (hh'.trans hh.symm) (hi'.trans hi.symm), hb]
  have hletter : ∀ r ∈ letters cfg u, r ∈ letters cfg t ∧ r.blockNumber < f := by
    intro r hr
    obtain ⟨hmem, hown⟩ := mem_letters.1 hr
    obtain ⟨hold, hnot⟩ := hcut.mem.1 hmem
    refine ⟨mem_letters.2 ⟨hold, hown⟩, ?_⟩
    by_contra hge
    exact hnot ⟨hown, by rw [inRange_u64Max]; exact decide_eq_true (Nat.not_lt.1 hge)⟩
  refine ⟨fun e he hown => ?_, fun r hr => ?_, fun r hr _ => ?_⟩
  · obtain ⟨hold, hnot⟩ := hcut.mem_events.1 he
    refine hplaced ?_ (h.eventsPlaced e hold hown)
    by_contra hge
    exact hnot ⟨hown, by rw [inRange_u64Max]; exact decide_eq_true (Nat.not_lt.1 hge)⟩
  · exact hplaced (hletter r hr).2 (h.lettersPlaced r (hletter r hr).1)
  · exact h.reports r (hletter r hr).1 (lt_of_lt_of_le (hletter r hr).2 hle)

end Rows



/-! ### A scan -/

/-- What is said of the world while logs of the chain are handed over. -/
structure Ready (cfg : Config) (C : Set Log) (d : Nat) (w : World) : Prop where
  sound : DeadLetters.Sound w
  clean : Clean cfg C d w.db

/-- What is handed over is accounted for, if it is of the chain; a death leaves all that was. -/
def custody (cfg : Config) (C : Set Log) (d : Nat) : Frame World where
  rel w w' := ∃ l, w'.handed = w.handed ++ l ∧ ((∀ x ∈ l, Of C x) → Ready cfg C d w →
    Ready cfg C d w' ∧ Grown w.db w'.db ∧ ∀ x ∈ l, x.blockNumber < d → Accounted cfg x w'.db)
  dead w w' := ∃ l, w'.handed = w.handed ++ l ∧ ((∀ x ∈ l, Of C x) → Ready cfg C d w →
    Numbered w'.db ∧ Clean cfg C d w'.db ∧ Grown w.db w'.db)
  refl w := ⟨[], (List.append_nil _).symm, fun _ hw =>
    ⟨hw, (Holding.refl w.db).grown, fun _ hx => absurd hx List.not_mem_nil⟩⟩
  trans := by
    rintro w w₁ w₂ ⟨l₁, h₁, hrun₁⟩ ⟨l₂, h₂, hrun₂⟩
    refine ⟨l₁ ++ l₂, by rw [h₂, h₁, List.append_assoc], fun hof hw => ?_⟩
    obtain ⟨hw₁, hgrown₁, hdone₁⟩ := hrun₁ (fun x hx => hof x (List.mem_append_left _ hx)) hw
    obtain ⟨hw₂, hgrown₂, hdone₂⟩ := hrun₂ (fun x hx => hof x (List.mem_append_right _ hx)) hw₁
    refine ⟨hw₂, hgrown₁.trans hgrown₂, fun x hx hlt => ?_⟩
    rcases List.mem_append.1 hx with hx | hx
    · exact (hdone₁ x hx hlt).grown hgrown₂
    · exact hdone₂ x hx hlt
  trans_dead := by
    rintro w w₁ w₂ ⟨l₁, h₁, hrun₁⟩ ⟨l₂, h₂, hrun₂⟩
    refine ⟨l₁ ++ l₂, by rw [h₂, h₁, List.append_assoc], fun hof hw => ?_⟩
    obtain ⟨hw₁, hgrown₁, -⟩ := hrun₁ (fun x hx => hof x (List.mem_append_left _ hx)) hw
    obtain ⟨hnumbered, hclean, hgrown₂⟩ :=
      hrun₂ (fun x hx => hof x (List.mem_append_right _ hx)) hw₁
    exact ⟨hnumbered, hclean, hgrown₁.trans hgrown₂⟩

/-- What goes on where no log is handed over and no row of the indexer is touched. -/
def besideScope : Scope where
  tables := .keeping fun t => (t.nextRawId, t.rawLogs, t.events)
  mem := .any
  handed := .keeping id
  requests := .any

section Scan

variable {env : Env} {cfg : Config} {C : Set Log} {d f t : Nat} {w : World}

theorem clean_of_spared {t u : Tables} (h : Clean cfg C d t) (hu : Spared t u) :
    Clean cfg C d u :=
  h.subset (fun _ he => hu.events ▸ he) fun _ hr => hu.letters ▸ hr

theorem numbered_of_spared {t u : Tables} (h : Numbered t) (hu : Spared t u) : Numbered u :=
  h.of_sublist (by rw [hu.letters]) hu.next.ge

theorem grown_of_spared {t u : Tables} (hu : Spared t u) : Grown t u :=
  ⟨names_of_eq hu.events, fun r hr => ⟨r, hu.letters ▸ hr, rfl⟩⟩

theorem custody_of_beside {ε α : Type} {p : Prog World ε α} (h : Within besideScope.frame p) :
    Within (custody cfg C d) p := by
  refine h.mono (fun w w' hrel => ?_) fun w w' hrel => ?_
  · refine ⟨[], by rw [List.append_nil]; exact hrel.1.handed, fun _ hw => ?_⟩
    have hspared : Spared w.db w'.db :=
      spared_of_keeping (Linked.quiet hrel.1.tables hw.sound.quiet)
    exact ⟨⟨⟨hrel.2 hw.sound.quiet, numbered_of_spared hw.sound.numbered hspared⟩,
      clean_of_spared hw.clean hspared⟩, grown_of_spared hspared,
      fun _ hx => absurd hx List.not_mem_nil⟩
  · refine ⟨[], by rw [List.append_nil]; exact hrel.1.handed, fun _ hw => ?_⟩
    have hspared : Spared w.db w'.db :=
      spared_of_keeping (Linked.quiet hrel.1.tables hw.sound.quiet)
    exact ⟨numbered_of_spared hw.sound.numbered hspared, clean_of_spared hw.clean hspared,
      grown_of_spared hspared⟩

/-- The letters of logs that fail are written. -/
def Files (env : Env) : Prop := ∀ now, env.fault now .insertRawLog = .none

/-- **A delivery** within a scan. -/
theorem custody_deliver (hb : cfg.backend ≠ .rocksdb) (hC : Written C) (hlisted : Listed cfg)
    (hsober : Sober env cfg) (hfiles : Files env) (lg : Log) :
    Within (custody cfg C d) (deliver env cfg lg) := by
  intro w
  by_cases hcase : Of C lg ∧ Ready cfg C d w
  · obtain ⟨hof, hw⟩ := hcase
    have hrun : Meets (deliver env cfg lg) w _ := ((meets_deliver hb hsober hw.sound).and
      (meets_deliver_brings hb hw.sound.quiet)).and (meets_deliver_one lg)
    refine hrun.mono ?_ (fun _ _ h => h.2.elim) ?_
    · rintro _ w' ⟨⟨⟨hsound, hgrown, hdone⟩, hbrings⟩, hhanded⟩
      refine ⟨[lg], hhanded, fun _ _ => ⟨⟨hsound, hw.clean.brings hC hof hbrings⟩, hgrown, ?_⟩⟩
      intro x hx hlt
      obtain rfl := List.mem_singleton.1 hx
      exact hdone (hC.plain_of hof) (fun _ _ _ => hfiles _)
        (hw.clean.unmixed hC.toCanonical hlisted hof hlt)
    · rintro w' ⟨⟨⟨hnumbered, hgrown⟩, hbrings⟩, hhanded⟩
      exact ⟨[lg], hhanded, fun _ _ => ⟨hnumbered, hw.clean.brings hC hof hbrings, hgrown⟩⟩
  · have hnot : ∀ {P : Prop}, (∀ x ∈ [lg], Of C x) → Ready cfg C d w → P := fun hof hw =>
      absurd ⟨hof lg ( List.mem_singleton_self lg), hw⟩ hcase
    exact (meets_deliver_one lg).mono (fun _ _ h => ⟨[lg], h, hnot⟩) (fun _ _ h => h.elim)
      fun _ h => ⟨[lg], h, hnot⟩

theorem carries_custody (hb : cfg.backend ≠ .rocksdb) (hC : Written C) (hlisted : Listed cfg)
    (hsober : Sober env cfg) (hfiles : Files env) :
    Carries besideScope (custody cfg C d) env cfg where
  chainLogs _ _ := rfl
  ranges _ _ := rfl
  requests _ := trivial
  silent := custody_of_beside
  deliver := custody_deliver hb hC hlisted hsober hfiles

/-- The logs of the chain an indexer is there for. -/
structure Due (cfg : Config) (C : Set Log) (lg : Log) : Prop where
  chain : lg ∈ C
  start : cfg.contract.fromBlock ≤ lg.blockNumber
  wanted : receiptLogWanted [cfg.contract.address] (topicsOpt cfg) lg = true

/-- **The promise of a cursor**: the logs below it are accounted for, as far as the chain is
known. -/
def Promised (cfg : Config) (C : Set Log) (d n : Nat) (t : Tables) : Prop :=
  ∀ lg, Due cfg C lg → lg.blockNumber < n → lg.blockNumber < d → Accounted cfg lg t

theorem Promised.grown {t u : Tables} {n : Nat} (h : Promised cfg C d n t) (hu : Grown t u) :
    Promised cfg C d n u := fun lg hlg hn hd => (h lg hlg hn hd).grown hu

theorem Promised.mono {t : Tables} {n m : Nat} (h : Promised cfg C d n t) (hle : m ≤ n) :
    Promised cfg C d m t := fun lg hlg hn hd => h lg hlg (lt_of_lt_of_le hn hle) hd

/-- What is known of the node and of the database during a scan. -/
structure Answered (env : Env) (cfg : Config) (C : Set Log) (w : World) : Prop where
  serves : Serves env fun _ => C
  sober : Sober env cfg
  files : Files env
  cache : ∃ chains : Text → Set Log, chains cfg.chain = C ∧
    (cfg.logCacheEnabled = true → CacheAt env chains w)

/-- The cursors stay as they are. -/
def Paused (w w' : World) : Prop :=
  w'.mem.currentBlock = w.mem.currentBlock ∧ w'.db.syncState = w.db.syncState

/-- What goes on where the cursors stay as they are. -/
def pausedScope : Scope where
  tables := .keeping (·.syncState)
  mem := .keeping (·.currentBlock)
  handed := .any
  requests := .any

theorem pausedScope_syncs : pausedScope.Syncs where
  events _ _ := rfl
  accounts _ _ := rfl
  blocks _ _ := rfl
  callback _ _ _ := rfl
  rawLogs _ _ _ := rfl
  tsCache _ _ := rfl
  handed _ _ := trivial
  requests _ := trivial
  chainLogs _ _ := rfl
  ranges _ _ := rfl

/-! ### What is noted after a scan -/

/-- The stored cursor of the indexer may have been set to `n`. -/
def Moved (cfg : Config) (n : Nat) (t u : Tables) : Prop :=
  u.syncState cfg.stateKey = t.syncState cfg.stateKey ∨
    ∃ st, u.syncState cfg.stateKey = some st ∧ st.lastSyncedBlock = n

/-- It may have been, and none of the rows of the indexer is touched. -/
structure Noted (cfg : Config) (n : Nat) (t u : Tables) : Prop where
  spared : Spared t u
  cursor : Moved cfg n t u

theorem noted_refl (cfg : Config) (n : Nat) (t : Tables) : Noted cfg n t t :=
  ⟨⟨rfl, rfl, rfl⟩, .inl rfl⟩

theorem Moved.trans {n : Nat} {t u v : Tables} (h : Moved cfg n t u) (h' : Moved cfg n u v) :
    Moved cfg n t v := by
  rcases h' with heq | hset
  · rw [Moved, heq]
    exact h
  · exact .inr hset

theorem Noted.trans {n : Nat} {t u v : Tables} (h : Noted cfg n t u) (h' : Noted cfg n u v) :
    Noted cfg n t v :=
  ⟨⟨h'.spared.next.trans h.spared.next, h'.spared.letters.trans h.spared.letters,
    h'.spared.events.trans h.spared.events⟩, h.cursor.trans h'.cursor⟩

/-- What goes on when a scan is over. -/
def noteScope (cfg : Config) (n : Nat) : Scope where
  tables := .through (Noted cfg n) (noted_refl cfg n) Noted.trans
  mem := .through (fun m m' => m'.currentBlock = m.currentBlock ∨ m'.currentBlock = n)
    (fun _ => .inl rfl) fun h h' => h'.elim (fun heq => heq ▸ h) .inr
  handed := .any
  requests := .any

theorem note_recordBlockHash {n b : Nat} :
    Within (noteScope cfg n).frame (recordBlockHash env cfg b) := by
  refine within_bind (within_catching within_ask fun _ => within_pure _) fun hash => ?_
  split
  · exact within_pure _
  · exact within_ignoring (within_guarded (within_execWrite fun t => ⟨⟨rfl, rfl, rfl⟩, .inl rfl⟩))

theorem note_storeBlockMetadata {n b : Nat} :
    Within (noteScope cfg n).frame (storeBlockMetadata env cfg b) := by
  refine within_bind within_ask fun data => ?_
  split
  · exact within_pure _
  · exact within_bind (within_guarded (within_execWrite fun t => ⟨⟨rfl, rfl, rfl⟩, .inl rfl⟩))
      fun _ => within_when fun _ => within_setMem fun m => .inl rfl

theorem note_checkSnapshot {n : Nat} :
    Within (noteScope cfg n).frame (checkSnapshot env cfg) := by
  refine within_bind (within_read _) fun now => within_bind within_getMem fun m => ?_
  refine within_ite (fun _ => within_pure _) fun _ => ?_
  exact within_bind (within_guarded (within_execWrite fun t => ⟨⟨rfl, rfl, rfl⟩, .inl rfl⟩))
    fun _ => within_setMem fun m => .inl rfl

/-- The cursor is written. -/
theorem note_upsertSyncState {n : Nat} {status : Text} :
    Within (noteScope cfg n).frame (upsertSyncState env cfg cfg.stateKey n status) :=
  within_upsertSyncState fun _ =>
    ⟨⟨rfl, rfl, rfl⟩, .inr ⟨_, Function.update_self _ _ _, rfl⟩⟩

theorem note_advanceTo {n : Nat} : Within (noteScope cfg n).frame (advanceTo env cfg n) :=
  within_bind (within_setMem fun _ => .inr rfl) fun _ => within_ignoring note_upsertSyncState

theorem note_failedScan {n : Nat} (e : Err) :
    Within (noteScope cfg n).frame (do shrinkOnLimit e; tick) := by
  refine within_bind (within_when fun _ => ?_) fun _ => within_tick
  refine within_bind (within_bind within_getMem fun _ => ?_) fun _ => within_pure _
  exact within_ite (fun _ => within_pure _) fun _ =>
    within_bind (within_setMem fun _ => .inl rfl) fun _ => within_pure _

/-- The database of a moment at which every promise is kept that has been stored. -/
structure Surviving (cfg : Config) (C : Set Log) (d : Nat) (t : Tables) : Prop where
  numbered : Numbered t
  clean : Clean cfg C d t
  stored : ∀ st, t.syncState cfg.stateKey = some st → Promised cfg C d st.lastSyncedBlock t

/-- **What is said of every moment.** -/
structure Upheld (cfg : Config) (C : Set Log) (d : Nat) (w : World) : Prop where
  quiet : w.Quiet
  db : Surviving cfg C d w.db
  memory : Promised cfg C d w.mem.currentBlock w.db

theorem Upheld.ready (h : Upheld cfg C d w) : Ready cfg C d w :=
  ⟨⟨h.quiet, h.db.numbered⟩, h.db.clean⟩

theorem Surviving.grown {t u : Tables} (h : Surviving cfg C d t) (hnumbered : Numbered u)
    (hclean : Clean cfg C d u) (hgrown : Grown t u) (hsync : u.syncState = t.syncState) :
    Surviving cfg C d u :=
  ⟨hnumbered, hclean, fun st hst => (h.stored st (hsync ▸ hst)).grown hgrown⟩

theorem Surviving.noted {t u : Tables} {n : Nat} (h : Surviving cfg C d t)
    (hn : Promised cfg C d n t) (hu : Noted cfg n t u) : Surviving cfg C d u := by
  refine ⟨numbered_of_spared h.numbered hu.spared, clean_of_spared h.clean hu.spared,
    fun st hst => ?_⟩
  rcases hu.cursor with heq | ⟨st', hst', rfl⟩
  · exact (h.stored st (heq ▸ hst)).grown (grown_of_spared hu.spared)
  · rw [hst] at hst'
    obtain rfl := Option.some.inj hst'
    exact hn.grown (grown_of_spared hu.spared)

/-- What is asked of a step of the indexer. -/
def upheldPost (cfg : Config) (C : Set Log) (d : Nat) (ε α : Type) : Post World ε α :=
  ⟨fun _ w => Upheld cfg C d w, fun _ w => Upheld cfg C d w, fun w => Surviving cfg C d w.db⟩

theorem Upheld.noted {n : Nat} (hw : Upheld cfg C d w) (hn : Promised cfg C d n w.db) {w' : World}
    (h : (noteScope cfg n).frame.rel w w') : Upheld cfg C d w' := by
  obtain ⟨hrel, hcalm⟩ := h
  have hnoted : Noted cfg n w.db w'.db := Linked.quiet hrel.tables hw.quiet
  refine ⟨hcalm hw.quiet, hw.db.noted hn hnoted, ?_⟩
  rcases hrel.mem with heq | heq
  · rw [heq]
    exact hw.memory.grown (grown_of_spared hnoted.spared)
  · rw [heq]
    exact hn.grown (grown_of_spared hnoted.spared)

/-- A cursor may be noted that keeps its promise. -/
theorem meets_noted {ε α : Type} {p : Prog World ε α} {n : Nat}
    (hp : Within (noteScope cfg n).frame p) (hw : Upheld cfg C d w)
    (hn : Promised cfg C d n w.db) : Meets p w (upheldPost cfg C d ε α) := by
  refine (hp w).mono (fun _ w' h => hw.noted hn h) (fun _ w' h => hw.noted hn h) ?_
  rintro w' ⟨hrel, -⟩
  have hnoted : Noted cfg n w.db w'.db := Linked.quiet hrel.tables hw.quiet
  exact hw.db.noted hn hnoted

theorem turnEnd_le (m : Mem) (latest : Nat) : turnEnd m latest ≤ latest := by
  have hchunk : inclusiveChunkEnd m.currentBlock m.batchSize latest ≤ latest := min_le_right _ _
  unfold turnEnd
  split
  · exact (min_le_left _ _).trans hchunk
  · exact hchunk

end Scan

end Promise

end Zponder

import Zponder.LiveWs

/-!
# The pieces of the live subscription

What each piece of `runLiveWs` leaves, by its text: a scan stays where it is and hands
over its range (`Zponder.Live.meets_scan`), and whatever moves the cursor moves it past blocks
everything of which has been handed over (`Zponder.Live.meets_advanceTo`). The one exception is
a log that is read, whose block the cursor passes as soon as that log was processed
(`Zponder.Live.meets_advanceAfterLiveLog`).

That the chain does not change is used where the hashes are compared
(`Zponder.Live.meets_detect_same`).
-/

namespace Zponder

namespace Live

open Imperative Prog Conn

/-! ### Scans -/

section Scans

variable {env : Env} {chains : Text → Set Log} {hashes : Nat → Text} {cfg : Config}
  {E : Nat → Prop} {w w' : World} {f t : Nat}

/-- What a piece leaves of a world that is ready. -/
abbrev onwardPost (α : Type) (chains : Text → Set Log) (hashes : Nat → Text) (cfg : Config)
    (E : Nat → Prop) (w : World) : Post World Err α :=
  ⟨fun _ => Onward chains hashes cfg E w, fun _ => Onward chains hashes cfg E w,
    Perished chains hashes cfg E w⟩

theorem within_onward {α : Type} {p : M α} (h : ∀ w, Ready chains hashes cfg w →
    Meets p w (onwardPost α chains hashes cfg E w)) : Within (onward chains hashes cfg E) p :=
  fun w => by
    by_cases hw : Ready chains hashes cfg w
    · exact (h w hw).mono (fun _ _ h _ => h) (fun _ _ h _ => h) fun _ h _ => h
    · exact (meets_trivial p w).mono (fun _ _ _ h => absurd h hw) (fun _ _ _ h => absurd h hw)
        fun _ _ h => absurd h hw

/-- From what is left, a piece that goes on. -/
theorem meets_onward {α : Type} {p : M α} (h : Within (onward chains hashes cfg E) p)
    (hw' : Onward chains hashes cfg E w w') :
    Meets p w' (onwardPost α chains hashes cfg E w) :=
  (h w').mono (fun _ _ h => hw'.trans (h hw'.ready)) (fun _ _ h => hw'.trans (h hw'.ready))
    fun _ h => hw'.trans_dead (h hw'.ready)

/-- What is left when the caches are sound as well. -/
theorem stayed_of_scan (hw : Ready chains hashes cfg w) (hrel : scanScope.Rel w w')
    (hquiet : w'.Quiet) (hcaches : cfg.logCacheEnabled = true → CachesSound chains w'.db) :
    Stayed chains hashes cfg w w' := by
  have htables : (w'.db.syncState, w'.db.blockHashes) = _ := Linked.quiet hrel.tables hw.quiet
  have hmem : (w'.mem.currentBlock, w'.mem.templateSet, w'.mem.droppedLiveHi,
    w'.mem.replayLimit) = _ := hrel.mem
  obtain ⟨hsync, hhashes⟩ := by simpa only [Prod.mk.injEq] using htables
  obtain ⟨hcursor, hset, hnote, hlimit⟩ := by simpa only [Prod.mk.injEq] using hmem
  refine ⟨⟨hquiet, ⟨hcaches, fun b h => ?_, fun s => ?_⟩, hcursor ▸ hw.start, hcursor ▸ hw.cursor⟩,
    fun lg => handed_of_growing hrel.handed, ⟨hcursor, hset, hnote, hlimit⟩, hsync⟩
  · exact hhashes ▸ hw.sound.hash b h
  · exact hsync ▸ hw.sound.cursor s

theorem perished_of_scan (hw : Ready chains hashes cfg w) (hrel : scanScope.Rel w w')
    (hcaches : cfg.logCacheEnabled = true → CachesSound chains w'.db) :
    Perished chains hashes cfg (fun _ => False) w w' := by
  have htables : (w'.db.syncState, w'.db.blockHashes) = _ := Linked.quiet hrel.tables hw.quiet
  obtain ⟨hsync, hhashes⟩ := by simpa only [Prod.mk.injEq] using htables
  refine ⟨⟨hcaches, fun b h => ?_, fun s => ?_⟩, fun lg => handed_of_growing hrel.handed,
    fun lg _ _ ha => .inr (.inl (storedUpTo_congr hsync ha.stored))⟩
  · exact hhashes ▸ hw.sound.hash b h
  · exact hsync ▸ hw.sound.cursor s

/-- What a scan of a range leaves. -/
def scannedPost (chains : Text → Set Log) (hashes : Nat → Text) (cfg : Config) (as : List Text)
    (f t : Nat) (w : World) : Post World Err Unit :=
  ⟨fun _ w' => Stayed chains hashes cfg w w' ∧
      ∀ lg ∈ chains cfg.chain, Wanted as (topicsOpt cfg) f t lg → Handed w' lg,
    fun _ => Stayed chains hashes cfg w, Perished chains hashes cfg (fun _ => False) w⟩

/-- **A scan**, through the log cache or without it. -/
theorem meets_scan (hsource : Source env cfg chains hashes) (as : List Text) (ht : t ≤ u64Max)
    (hw : Ready chains hashes cfg w) :
    Meets (syncRangeWithAddresses env cfg as f t) w
      (scannedPost chains hashes cfg as f t w) := by
  have hrun : Within scanScope.frame (syncRangeWithAddresses env cfg as f t) :=
    within_syncRangeWithAddresses scanScope_syncs
  have hscope := hrun w
  by_cases hon : cfg.logCacheEnabled = true
  · obtain ⟨hread, hreject⟩ := hsource.cache hon
    refine (hscope.and (meets_syncRangeWithAddresses_cached hon hread hsource.serves hreject
      hsource.canonical ht ⟨hw.quiet, hw.sound.caches hon⟩)).mono ?_ ?_ ?_
    · rintro _ w' ⟨hrel, ⟨hquiet, hgrown⟩, l, hl, hmem⟩
      refine ⟨stayed_of_scan hw hrel.1 hquiet fun _ => hgrown.sound, fun lg hlg hwant => ?_⟩
      rw [Handed, hl, List.map_append]
      exact List.mem_append_right _ ((hmem _).2 ⟨lg, ⟨hlg, hwant⟩, rfl⟩)
    · rintro _ w' ⟨hrel, hquiet, hgrown⟩
      exact stayed_of_scan hw hrel.1 hquiet fun _ => hgrown.sound
    · rintro w' ⟨hrel, hgrown⟩
      exact perished_of_scan hw hrel.1 fun _ => hgrown.sound
  · have hoff : cfg.logCacheEnabled = false := by simpa using hon
    refine (hscope.and (meets_syncRangeWithAddresses_uncached hsource.serves hoff)).mono ?_ ?_ ?_
    · rintro _ w' ⟨hrel, -, hpulled⟩
      refine ⟨stayed_of_scan hw hrel.1 (hrel.2 hw.quiet) fun h => absurd h hon, ?_⟩
      intro lg hlg hwant
      obtain ⟨l, hl, hmem⟩ := hpulled _ (steady_const (chains cfg.chain) f t w.now w'.now)
      rw [Handed, hl]
      exact List.mem_map_of_mem (List.mem_append_right _ ((hmem lg).2 ⟨hlg, hwant⟩))
    · rintro _ w' ⟨hrel, -⟩
      exact stayed_of_scan hw hrel.1 (hrel.2 hw.quiet) fun h => absurd h hon
    · rintro w' ⟨hrel, -⟩
      exact perished_of_scan hw hrel.1 fun h => absurd h hon

/-- A scan of the watched addresses. -/
theorem meets_syncRange (hsource : Source env cfg chains hashes) (ht : t ≤ u64Max)
    (hw : Ready chains hashes cfg w) :
    Meets (syncRange env cfg f t) w
      (scannedPost chains hashes cfg (watchedAddresses cfg w.mem) f t w) := by
  rw [syncRange, getMem, meets_read_bind]
  exact meets_scan hsource _ ht hw

/-! ### Moving the cursors -/

/-- What moving the cursors to `next` may change. -/
def cursorScope (chains : Text → Set Log) (hashes : Nat → Text) (cfg : Config) (next : Nat) :
    Scope where
  tables := .through
    (fun t u => (∀ c, next ≤ c → t.StoredUpTo cfg.stateKey c → u.StoredUpTo cfg.stateKey c) ∧
      (SoundTables chains hashes cfg t → SoundTables chains hashes cfg u))
    (fun _ => ⟨fun _ _ h => h, id⟩)
    fun h₁ h₂ => ⟨fun c hc h => h₂.1 c hc (h₁.1 c hc h), h₂.2 ∘ h₁.2⟩
  mem := .keeping id
  handed := .keeping id
  requests := .any

theorem within_upsertCursor {next : Nat} {status : Text} (hstart : cfg.contract.fromBlock ≤ next)
    (hnext : next ≤ u64Max) : Within (cursorScope chains hashes cfg next).frame
      (upsertSyncState env cfg cfg.stateKey next status) := by
  refine within_upsertSyncState fun t => ⟨fun c hc _ => Tables.storedUpTo_put hc, fun ht => ?_⟩
  refine ⟨fun hon => (ht.caches hon).congr rfl rfl, ht.hash, fun s hs => ?_⟩
  obtain rfl : SyncState.mk next status = s := by simpa [Tables.putSyncState] using hs
  exact ⟨hstart, hnext⟩

/-- What is left when the cursor is at `next`. -/
def advancedPost (chains : Text → Set Log) (hashes : Nat → Text) (cfg : Config) (E : Nat → Prop)
    (next : Nat) (w : World) : Post World Err Unit :=
  ⟨fun _ w' => Onward chains hashes cfg E w w' ∧ w'.mem.currentBlock = next ∧
      w'.mem.templateSet = w.mem.templateSet,
    fun _ => Onward chains hashes cfg E w, Perished chains hashes cfg E w⟩

/-- **The cursor passes blocks everything of which has been handed over.** -/
theorem meets_advanceTo {next : Nat} (hw : Ready chains hashes cfg w)
    (hle : w.mem.currentBlock ≤ next) (hnext : next ≤ u64Max)
    (hpass : ∀ lg ∈ chains cfg.chain, Watched cfg w lg → w.mem.currentBlock ≤ lg.blockNumber →
      lg.blockNumber < next → Handed w lg ∨ E lg.blockNumber) :
    Meets (advanceTo env cfg next) w (advancedPost chains hashes cfg E next w) := by
  have hstart := hw.start.trans hle
  have hscope : Within (cursorScope chains hashes cfg next).frame
      (upsertSyncState env cfg cfg.stateKey next "running".toList) :=
    within_upsertCursor hstart hnext
  -- a log that was ahead is one that is passed, or it is behind the new cursor
  have hahead : ∀ lg ∈ chains cfg.chain, Watched cfg w lg → Ahead cfg w lg →
      Handed w lg ∨ E lg.blockNumber ∨ next ≤ lg.blockNumber := fun lg hlg hwatch ha => by
    rcases Nat.lt_or_ge lg.blockNumber next with hlt | hge
    · exact (hpass lg hlg hwatch ha.memory hlt).imp_right .inl
    · exact .inr (.inr hge)
  have hrow : ∀ w' : World, (cursorScope chains hashes cfg next).Rel
      { w with mem := { w.mem with currentBlock := next } } w' → w'.Quiet →
      (advancedPost chains hashes cfg E next w).ok () w' := by
    intro w' hrel hquiet
    have htables := Linked.quiet hrel.tables hw.quiet
    have hmem : w'.mem = { w.mem with currentBlock := next } := hrel.mem
    have hhanded : w'.handed = w.handed := hrel.handed
    have hcursor : w'.mem.currentBlock = next := by rw [hmem]
    refine ⟨⟨⟨hquiet, htables.2 hw.sound, hcursor ▸ hstart, hcursor ▸ hnext⟩, fun lg h => ?_,
      fun lg => (Watched.congr (by rw [hmem])).2, fun lg hlg hwatch ha => ?_, by rw [hmem]⟩,
      hcursor,
      by rw [hmem]⟩
    · rwa [Handed, hhanded]
    · rcases hahead lg hlg hwatch ha with h | h | h
      · exact .inl (by rwa [Handed, hhanded])
      · exact .inr (.inr h)
      · exact .inr (.inl ⟨hcursor ▸ h, htables.1 _ h ha.stored⟩)
  rw [advanceTo, setMem, meets_modify_bind, meets_ignoring]
  refine (hscope _).mono ?_ ?_ ?_
  · exact fun _ w' h => hrow w' h.1 (h.2 hw.quiet)
  · exact fun _ w' h => hrow w' h.1 (h.2 hw.quiet)
  · rintro w' ⟨hrel, -⟩
    have htables := Linked.quiet hrel.tables hw.quiet
    have hhanded : w'.handed = w.handed := hrel.handed
    refine ⟨htables.2 hw.sound, fun lg h => by rwa [Handed, hhanded], fun lg hlg hwatch ha => ?_⟩
    rcases hahead lg hlg hwatch ha with h | h | h
    · exact .inl (by rwa [Handed, hhanded])
    · exact .inr (.inr h)
    · exact .inr (.inl (htables.1 _ h ha.stored))

theorem cursorAfterBlock_le (b : Nat) : cursorAfterBlock b ≤ b + 1 := by
  unfold cursorAfterBlock satAdd
  omega

theorem cursorAfterBlock_le_max {b : Nat} (hb : b ≤ u64Max) : cursorAfterBlock b ≤ u64Max :=
  Nat.max_le.2 ⟨hb, Nat.min_le_right _ _⟩

/-- What follows a range everything of which has been handed over. -/
theorem meets_passRange (hsource : Source env cfg chains hashes) {last : Nat}
    (hw : Ready chains hashes cfg w) (hle : w.mem.currentBlock ≤ last) (hlast : last ≤ u64Max)
    (hpass : ∀ lg ∈ chains cfg.chain, Watched cfg w lg → w.mem.currentBlock ≤ lg.blockNumber →
      lg.blockNumber ≤ last → Handed w lg) :
    Meets (passRange env cfg last) w
      (advancedPost chains hashes cfg E (cursorAfterBlock last) w) := by
  rw [passRange, meets_bind]
  refine (stays_recordBlockHash hsource last w).mono ?_ (fun _ _ h => (h hw).onward)
    fun _ h => (h hw).mono fun _ => False.elim
  intro _ w₁ h₁
  have hs := h₁ hw
  change Meets (do advanceTo env cfg (cursorAfterBlock last); tick) w₁ _
  rw [meets_bind]
  refine (meets_advanceTo hs.ready ?_ (cursorAfterBlock_le_max hlast) ?_).mono ?_
    (fun _ _ h => hs.onward.trans h)
    fun _ h => hs.onward.trans_dead h
  · exact hs.memory.1.trans_le (hle.trans (le_cursorAfterBlock last))
  · intro lg hlg hwatch hfrom hlt
    refine .inl (hs.handed lg (hpass lg hlg ?_ ?_ (lt_cursorAfterBlock hlt)))
    · exact (Watched.congr hs.memory.2.1).1 hwatch
    · exact hs.memory.1.symm.trans_le hfrom
  · rintro _ w₂ ⟨h₂, hcursor, hset⟩
    have htick : (staying chains hashes cfg).rel w₂ w₂.ticked := stays_tick w₂
    exact ⟨(hs.onward.trans h₂).trans (htick h₂.ready).onward, hcursor, hset.trans hs.memory.2.1⟩

/-- The end of the chain is a block number. -/
theorem meets_askTip (hsource : Source env cfg chains hashes) (hw : Ready chains hashes cfg w) :
    Meets (ask env.blockNumber) w
      ⟨fun latest w' => latest ≤ u64Max ∧ Stayed chains hashes cfg w w',
        fun _ => Stayed chains hashes cfg w, Perished chains hashes cfg (fun _ => False) w⟩ := by
  have hticked : Stayed chains hashes cfg w w.ticked :=
    ⟨⟨hw.quiet, hw.sound, hw.start, hw.cursor⟩, fun _ => id, ⟨rfl, rfl, rfl, rfl⟩, rfl⟩
  exact meets_ask (fun latest h => ⟨hsource.tip _ _ h, hticked⟩) (fun _ _ => hticked)
    fun _ => ⟨hw.sound, fun _ => id, fun _ _ _ ha => .inr (.inl ha.stored)⟩

/-- **The bridge.** -/
theorem onward_bridgeTurn (hsource : Source env cfg chains hashes) :
    Within (onward chains hashes cfg E) (bridgeTurn env cfg) := by
  refine within_onward fun w hw => ?_
  rw [bridgeTurn, getMem, meets_read_bind]
  refine meets_ite (fun _ => ?_) fun _ => .refl hw
  rw [meets_bind]
  refine (meets_askTip hsource hw).mono ?_ (fun _ _ h => h.onward)
    fun _ h => h.mono fun _ => False.elim
  rintro latest w₁ ⟨hlatest, hs⟩
  refine meets_ite (fun _ => hs.onward) fun hscan => ?_
  have hcursor : w.mem.currentBlock ≤ latest := by simpa [bridgeNeedsScan] using hscan
  obtain ⟨hfrom, hto⟩ := inclusiveChunkEnd_bounds (n := w.mem.batchSize) hcursor
  rw [meets_bind, meets_attempt]
  refine (meets_syncRange hsource (hto.trans hlatest) hs.ready).mono ?_ ?_
    fun _ h => hs.onward.trans_dead (h.mono fun _ => False.elim)
  · rintro _ w₂ ⟨h₂, hhanded⟩
    have hs₂ := hs.trans h₂
    change Meets (do passRange env cfg _; pure false) w₂ _
    rw [meets_bind]
    refine (meets_passRange (E := E) hsource h₂.ready (hs₂.memory.1.trans_le hfrom)
      (hto.trans hlatest) ?_).mono (fun _ _ h => hs₂.onward.trans h.1)
      (fun _ _ h => hs₂.onward.trans h) fun _ h => hs₂.onward.trans_dead h
    intro lg hlg hwatch hge hle
    refine hhanded lg hlg ⟨hs₂.memory.1.symm.trans_le hge, hle, ?_⟩
    exact (Watched.congr h₂.memory.2.1).1 hwatch
  · rintro e w₂ h₂
    have hs₂ := hs.trans h₂
    refine meets_ite (fun _ => ?_) fun _ => hs₂.onward
    have hrest : Within (staying chains hashes cfg) (do
        let shrunk ← shrinkBatch
        if shrunk = true then pure false else Prog.throw e) :=
      within_bind stays_shrinkBatch fun _ => within_ite (fun _ => within_pure _)
        fun _ => within_throw _
    exact meets_onward (onward_of_staying hrest) hs₂.onward

/-! ### Gaps -/

/-- What filling the blocks up to `toBlock` leaves. -/
def filledPost (chains : Text → Set Log) (hashes : Nat → Text) (cfg : Config) (E : Nat → Prop)
    (toBlock : Nat) (w : World) : Post World Err Unit :=
  ⟨fun _ w' => Onward chains hashes cfg E w w' ∧ w.mem.currentBlock ≤ w'.mem.currentBlock ∧
      w'.mem.templateSet = w.mem.templateSet ∧ ∀ lg ∈ chains cfg.chain, Watched cfg w lg →
        w.mem.currentBlock ≤ lg.blockNumber →
        lg.blockNumber ≤ toBlock → Handed w' lg,
    fun _ => Onward chains hashes cfg E w, Perished chains hashes cfg E w⟩

/-- **The loop over a gap**: everything between the cursor and `fromBlock` has been handed over,
and the cursor is not behind it. -/
theorem meets_fillFrom (hsource : Source env cfg chains hashes) {toBlock : Nat}
    (ht : toBlock ≤ u64Max) : ∀ (batch fromBlock : Nat) {w : World},
      Ready chains hashes cfg w → w.mem.currentBlock ≤ fromBlock →
      (∀ lg ∈ chains cfg.chain, Watched cfg w lg → w.mem.currentBlock ≤ lg.blockNumber →
        lg.blockNumber < fromBlock → Handed w lg) →
      Meets (fillFrom env cfg toBlock batch fromBlock) w
        (filledPost chains hashes cfg E toBlock w)
  | batch, fromBlock, w, hw, hcursor, hbefore => by
    rw [fillFrom]
    split
    · next hnone =>
      have hover : toBlock < fromBlock := by
        unfold nextLiveChunkEnd at hnone
        split at hnone
        · assumption
        · cases hnone
      exact ⟨.refl hw, le_rfl, rfl, fun lg hlg hwatch hge hle =>
        hbefore lg hlg hwatch hge (hle.trans_lt hover)⟩
    · next last hlast =>
      have hle : fromBlock ≤ toBlock ∧ last = inclusiveChunkEnd fromBlock batch toBlock := by
        unfold nextLiveChunkEnd at hlast
        split at hlast
        · cases hlast
        · next h => exact ⟨Nat.le_of_not_lt h, (Option.some.inj hlast).symm⟩
      have hbounds := inclusiveChunkEnd_bounds (n := batch) hle.1
      rw [← hle.2] at hbounds
      rw [getMem, meets_read_bind]
      refine meets_ite (fun _ => ?_) fun _ => .refl hw
      rw [meets_bind, meets_attempt]
      refine (meets_syncRange hsource (hbounds.2.trans ht) hw).mono ?_ ?_
        fun _ h => h.mono fun _ => False.elim
      · rintro _ w₁ ⟨hs, hhanded⟩
        have hupto : ∀ lg ∈ chains cfg.chain, Watched cfg w lg →
            w.mem.currentBlock ≤ lg.blockNumber → lg.blockNumber ≤ last → Handed w₁ lg := by
          intro lg hlg hwatch hge hle
          rcases Nat.lt_or_ge lg.blockNumber fromBlock with hlt | hfrom
          · exact hs.handed lg (hbefore lg hlg hwatch hge hlt)
          · exact hhanded lg hlg ⟨hfrom, hle, hwatch⟩
        change Meets (do passRange env cfg last; fillFrom env cfg toBlock batch (last + 1)) w₁ _
        rw [meets_bind]
        refine (meets_passRange (E := E) hsource hs.ready
          (hs.memory.1.trans_le (hcursor.trans hbounds.1)) (hbounds.2.trans ht) ?_).mono ?_
          (fun _ _ h => hs.onward.trans h) fun _ h => hs.onward.trans_dead h
        · intro lg hlg hwatch hge
          exact hupto lg hlg ((Watched.congr hs.memory.2.1).1 hwatch)
            (hs.memory.1.symm.trans_le hge)
        · rintro _ w₂ ⟨h₂, hcursor₂, hset₂⟩
          have hon := hs.onward.trans h₂
          have hforth : w.mem.currentBlock ≤ w₂.mem.currentBlock :=
            hcursor₂ ▸ hcursor.trans (hbounds.1.trans (le_cursorAfterBlock last))
          refine (meets_fillFrom hsource ht batch (last + 1) h₂.ready ?_ ?_).mono ?_
            (fun _ _ h => hon.trans h) fun _ h => hon.trans_dead h
          · exact hcursor₂ ▸ cursorAfterBlock_le last
          · intro lg hlg hwatch hge hlt
            refine h₂.handed lg (hupto lg hlg ?_ (hforth.trans hge) (Nat.lt_succ_iff.1 hlt))
            exact (Watched.congr (hset₂.trans hs.memory.2.1)).1 hwatch
          · rintro _ w' ⟨h', hforth', hset', hall⟩
            refine ⟨hon.trans h', hforth.trans hforth',
              (hset'.trans hset₂).trans hs.memory.2.1, fun lg hlg hwatch hge hle => ?_⟩
            rcases Nat.lt_or_ge last lg.blockNumber with hlt | hge'
            · refine hall lg hlg (hon.watched lg hwatch) ?_ hle
              exact hcursor₂ ▸ (cursorAfterBlock_le last).trans hlt
            · exact h'.handed lg (h₂.handed lg (hupto lg hlg hwatch hge hge'))
      · rintro e w₁ hs
        refine meets_ite (fun _ => ?_) fun _ => hs.onward
        have hshrink : Within (staying chains hashes cfg) (do let _ ← shrinkBatch; tick) :=
          within_bind stays_shrinkBatch fun _ => stays_tick
        rw [← bind_assoc, meets_bind]
        refine (hshrink w₁).mono ?_ (fun _ _ h => (hs.trans (h hs.ready)).onward) fun _ h =>
          hs.onward.trans_dead ((h hs.ready).mono fun _ => False.elim)
        intro _ w₂ h₂
        have hs₂ := hs.trans (h₂ hs.ready)
        refine (meets_fillFrom hsource ht (max (batch / 2) 1) fromBlock hs₂.ready
          (hs₂.memory.1.trans_le hcursor) ?_).mono ?_ (fun _ _ h => hs₂.onward.trans h)
          fun _ h => hs₂.onward.trans_dead h
        · intro lg hlg hwatch hge hlt
          refine hs₂.handed lg (hbefore lg hlg ?_ (hs₂.memory.1.symm.trans_le hge) hlt)
          exact (Watched.congr hs₂.memory.2.1).1 hwatch
        · rintro _ w' ⟨h', hforth, hset, hall⟩
          refine ⟨hs₂.onward.trans h', hs₂.memory.1.symm.trans_le hforth,
            hset.trans hs₂.memory.2.1, ?_⟩
          intro lg hlg hwatch hge
          exact hall lg hlg ((Watched.congr hs₂.memory.2.1).2 hwatch) (hs₂.memory.1.trans_le hge)
termination_by batch fromBlock => (toBlock + 1 - fromBlock, batch)

theorem meets_fillLiveGap (hsource : Source env cfg chains hashes) {toBlock : Nat}
    (ht : toBlock ≤ u64Max) (hw : Ready chains hashes cfg w) :
    Meets (fillLiveGap env cfg w.mem.currentBlock toBlock) w
      (filledPost chains hashes cfg E toBlock w) := by
  rw [fillLiveGap, getMem, meets_read_bind]
  exact meets_fillFrom hsource ht _ _ hw le_rfl fun lg _ _ hge hlt =>
    absurd (hge.trans_lt hlt) (lt_irrefl _)

/-- A world without a note of a block that was dropped. -/
def unnoted (w : World) : World := { w with mem := { w.mem with droppedLiveHi := none } }

/-- **The rescan of what was dropped.** -/
theorem meets_recoverDroppedLive (hsource : Source env cfg chains hashes)
    (hnote : ∀ hi, w.mem.droppedLiveHi = some hi → hi ≤ u64Max)
    (hw : Ready chains hashes cfg w) :
    Meets (recoverDroppedLive env cfg) w
      ⟨fun _ w' => ∃ w₁, w' = unnoted w₁ ∧ Onward chains hashes cfg E w w₁ ∧
          ∀ hi, w.mem.droppedLiveHi = some hi → ∀ lg ∈ chains cfg.chain, Watched cfg w lg →
            w.mem.currentBlock ≤ lg.blockNumber → lg.blockNumber ≤ hi → Handed w₁ lg,
        fun _ => Onward chains hashes cfg E w, Perished chains hashes cfg E w⟩ := by
  rw [recoverDroppedLive, getMem, meets_read_bind]
  cases hcase : w.mem.droppedLiveHi with
  | none =>
    simp only [id, hcase, droppedLiveRescan]
    exact ⟨w, rfl, .refl hw, fun hi h => by cases h⟩
  | some hi =>
    simp only [id, hcase, droppedLiveRescan]
    by_cases hlow : hi < w.mem.currentBlock
    · simp only [hlow, if_true]
      refine ⟨w, rfl, .refl hw, fun hi' h lg _ _ hge hle => ?_⟩
      obtain rfl := Option.some.inj h
      omega
    · simp only [hlow, if_false, meets_bind]
      refine (meets_fillLiveGap (E := E) hsource (hnote hi hcase) hw).mono ?_ (fun _ _ h => h)
        fun _ h => h
      rintro _ w₁ ⟨hon, -, -, hall⟩
      refine ⟨w₁, rfl, hon, fun hi' h lg hlg hwatch hge hle => ?_⟩
      obtain rfl := Option.some.inj h
      exact hall lg hlg hwatch hge hle

/-! ### No reorganisation is seen -/

/-- What a piece leaves that stays and answers with `a`. -/
def answeredPost {α : Type} (chains : Text → Set Log) (hashes : Nat → Text) (cfg : Config) (a : α)
    (w : World) : Post World Err α :=
  ⟨fun r w' => r = a ∧ Stayed chains hashes cfg w w', fun _ => Stayed chains hashes cfg w,
    Perished chains hashes cfg (fun _ => False) w⟩

theorem stays_lookUpHashes {b : Nat} :
    Within (staying chains hashes cfg) (lookUpHashes env cfg b) := by
  refine within_staying (within_bind (within_catching within_ask fun _ => within_pure _)
    fun hash => ?_)
  split
  · exact within_pure _
  · exact within_bind (within_catching (within_guarded within_execFind) fun _ => within_pure _)
      fun _ => within_pure _

/-- **The check of a chain that never changes** finds nothing. -/
theorem meets_detect_same (hsource : Source env cfg chains hashes) (n : Nat)
    (hw : Ready chains hashes cfg w) :
    Meets (detectAndHandleReorg env cfg n) w (answeredPost chains hashes cfg n w) := by
  unfold detectAndHandleReorg
  refine meets_ite (fun _ => ⟨rfl, .refl hw⟩) fun _ => ?_
  rw [meets_bind]
  refine ((meets_lookUpHashes hw.quiet n).and (stays_lookUpHashes w)).mono ?_
    (fun _ _ h => h.1.elim) fun _ h => h.2 hw
  rintro found w₁ ⟨⟨hseen, -⟩, hstayed⟩
  have hs := hstayed hw
  cases found with
  | none => exact ⟨rfl, hs⟩
  | some pair =>
    obtain ⟨rpcHash, localHash⟩ := pair
    refine meets_ite (fun _ => ⟨rfl, hs⟩) fun hdiffer => absurd ?_ hdiffer
    -- both are the hash of the chain
    have hrpc : Text.eqlIgnoreCase rpcHash (hashes n) = true := by
      unfold seenHashes at hseen
      split at hseen
      · next h hanswer =>
        obtain ⟨_, _, heq⟩ := Option.map_eq_some_iff.1 hseen.symm
        obtain ⟨rfl, -⟩ := Prod.mk.inj heq
        exact hsource.hash _ _ _ hanswer
      · cases hseen
    have hlocal : Text.eqlIgnoreCase localHash (hashes n) = true := by
      unfold seenHashes at hseen
      split at hseen
      · obtain ⟨x, hx, heq⟩ := Option.map_eq_some_iff.1 hseen.symm
        obtain ⟨-, rfl⟩ := Prod.mk.inj heq
        unfold storedHash at hx
        split at hx
        · have hmem := mem_cutRows (List.mem_of_head? hx)
          exact hw.sound.hash n x (by simpa using hmem)
        · cases hx
      · cases hseen
    exact Text.eqlIgnoreCase_trans hrpc (by rwa [Text.eqlIgnoreCase_comm])

theorem meets_checkReorg_same (hsource : Source env cfg chains hashes)
    (hw : Ready chains hashes cfg w) :
    Meets (checkReorg env cfg) w (answeredPost chains hashes cfg false w) := by
  rw [checkReorg, getMem, meets_read_bind]
  refine meets_ite (fun _ => ?_) fun _ => ⟨rfl, .refl hw⟩
  rw [meets_bind]
  refine (meets_detect_same hsource _ hw).mono ?_ (fun _ _ h => h) fun _ h => h
  rintro fork w₁ ⟨rfl, hs⟩
  exact meets_ite (fun h => absurd h (lt_irrefl _)) fun _ => ⟨rfl, hs⟩

theorem meets_periodicReorgCheck_same (hsource : Source env cfg chains hashes)
    (hw : Ready chains hashes cfg w) :
    Meets (periodicReorgCheck env cfg) w (answeredPost chains hashes cfg false w) := by
  rw [periodicReorgCheck, meets_read_bind, getMem, meets_read_bind]
  refine meets_ite (fun _ => ?_) fun _ => ⟨rfl, .refl hw⟩
  have hset : (staying chains hashes cfg).rel w
      { w with mem := { w.mem with lastReorgCheck := env.clock w.now } } :=
    stays_setMem (f := fun m => { m with lastReorgCheck := env.clock w.now })
      (fun _ => ⟨rfl, rfl, rfl, rfl⟩) w
  rw [setMem, meets_modify_bind]
  refine (meets_checkReorg_same hsource (hset hw).ready).mono ?_ ?_ ?_
  · exact fun _ _ h => ⟨h.1, (hset hw).trans h.2⟩
  · exact fun _ _ h => (hset hw).trans h
  · exact fun _ h => (hset hw).onward.trans_dead h

/-! ### A log that is read -/

theorem stays_rememberLiveLog {lg : Log} (hlg : lg ∈ chains cfg.chain) :
    Within (staying chains hashes cfg) (rememberLiveLog env cfg lg) := by
  refine within_when fun _ => stays_ignoring (within_staying (within_guarded ?_))
  refine within_ite (fun _ => within_execWrite fun t => ?_) fun _ => within_pure _
  have hkeep : ∀ row, (t.insertChainLog cfg.chain row).syncState = t.syncState ∧
      (t.insertChainLog cfg.chain row).blockHashes = t.blockHashes := fun row => by
    unfold Tables.insertChainLog
    split <;> exact ⟨rfl, rfl⟩
  obtain ⟨hsync, hhashes⟩ := hkeep (cachedRow lg)
  refine ⟨hsync, fun ht => ⟨fun hon => (ht.caches hon).insertChainLog hlg, fun b h => ?_,
    fun s => ?_⟩⟩
  · exact hhashes.symm ▸ ht.hash b h
  · exact hsync.symm ▸ ht.cursor s

/-- The blocks between the cursor and the log, before it is processed. -/
theorem meets_fillGapBefore (hsource : Source env cfg chains hashes) {lg : Log}
    (hlg : lg ∈ chains cfg.chain) (hw : Ready chains hashes cfg w) :
    Meets (fillGapBefore env cfg lg) w
      ⟨fun _ w' => Onward chains hashes cfg E w w' ∧ ∀ x ∈ chains cfg.chain, Watched cfg w' x →
          w'.mem.currentBlock ≤ x.blockNumber → x.blockNumber < lg.blockNumber → Handed w' x,
        fun _ => Onward chains hashes cfg E w, Perished chains hashes cfg E w⟩ := by
  rw [fillGapBefore, getMem, meets_read_bind]
  have hblock := hsource.canonical.block lg hlg
  unfold liveLogGap
  split
  · next hgap =>
    refine ⟨.refl hw, fun x _ _ hge hlt => ?_⟩
    split at hgap
    · omega
    · cases hgap
  · next gap hgap =>
    split at hgap
    · cases hgap
    · next hafter =>
      obtain rfl := Option.some.inj hgap
      refine (meets_fillLiveGap (E := E) hsource ((Nat.sub_le _ 1).trans hblock) hw).mono ?_
        (fun _ _ h => h) fun _ h => h
      rintro _ w' ⟨hon, hforth, hset, hall⟩
      refine ⟨hon, fun x hx hwatch hge hlt => ?_⟩
      exact hall x hx ((Watched.congr hset).1 hwatch) (hforth.trans hge) (Nat.le_sub_one_of_lt hlt)

/-- **The cursor passes the block of a log**, whatever else is in that block. -/
theorem meets_advanceAfterLiveLog (hsource : Source env cfg chains hashes) {b : Nat}
    (hb : b ≤ u64Max) (hw : Ready chains hashes cfg w)
    (hbefore : ∀ x ∈ chains cfg.chain, Watched cfg w x → w.mem.currentBlock ≤ x.blockNumber →
      x.blockNumber < b → Handed w x) :
    Meets (advanceAfterLiveLog env cfg b) w (onwardPost Unit chains hashes cfg (· = b) w) := by
  rw [advanceAfterLiveLog, getMem, meets_read_bind]
  unfold liveSyncedBlock
  split
  · exact .refl hw
  · next synced hsynced =>
    split at hsynced
    · cases hsynced
    · next hafter =>
      obtain rfl := Option.some.inj hsynced
      rw [meets_bind]
      refine (meets_advanceTo hw ((Nat.le_of_not_lt hafter).trans (le_cursorAfterBlock b))
        (cursorAfterBlock_le_max hb) ?_).mono ?_ (fun _ _ h => h) fun _ h => h
      · intro x hx hwatch hge hlt
        rcases Nat.lt_or_eq_of_le (lt_cursorAfterBlock hlt) with h | h
        · exact .inl (hbefore x hx hwatch hge h)
        · exact .inr h
      · rintro _ w₁ ⟨hon, -⟩
        have hrest : Within (staying chains hashes cfg) (do
            recordBlockHash env cfg b
            Prog.when (cfg.trackBlocks = true ∧ b > 0)
              (ignoring (storeBlockMetadata env cfg b))) :=
          within_bind (stays_recordBlockHash hsource b) fun _ =>
            within_when fun _ => stays_ignoring stays_storeBlockMetadata
        exact meets_onward (onward_of_staying hrest) hon

/-- What follows a log that was processed. -/
theorem meets_settleLiveLog (hsource : Source env cfg chains hashes) {lg : Log}
    (hlg : lg ∈ chains cfg.chain) (hw : Ready chains hashes cfg w)
    (hbefore : ∀ x ∈ chains cfg.chain, Watched cfg w x → w.mem.currentBlock ≤ x.blockNumber →
      x.blockNumber < lg.blockNumber → Handed w x) :
    Meets (settleLiveLog env cfg lg) w
      (onwardPost Bool chains hashes cfg (· = lg.blockNumber) w) := by
  rw [settleLiveLog, meets_bind]
  refine (stays_rememberLiveLog hlg w).mono ?_ (fun _ _ h => (h hw).onward)
    fun _ h => (h hw).mono fun _ => False.elim
  intro _ w₁ h₁
  have hs := h₁ hw
  change Meets (do
    advanceAfterLiveLog env cfg lg.blockNumber
    let back ← Prog.catching (periodicReorgCheck env cfg) fun _ => pure false
    if back = true then pure false
    else do
      ignoring (checkSnapshot env cfg)
      pure true) w₁ _
  rw [meets_bind]
  refine (meets_advanceAfterLiveLog hsource (hsource.canonical.block lg hlg) hs.ready ?_).mono ?_
    (fun _ _ h => hs.onward.trans h) fun _ h => hs.onward.trans_dead h
  · intro x hx hwatch hge hlt
    refine hs.handed x (hbefore x hx ?_ (hs.memory.1.symm.trans_le hge) hlt)
    exact (Watched.congr hs.memory.2.1).1 hwatch
  · intro _ w₂ h₂
    have hon := hs.onward.trans h₂
    change Meets (do
      let back ← Prog.catching (periodicReorgCheck env cfg) fun _ => pure false
      if back = true then pure false
      else do
        ignoring (checkSnapshot env cfg)
        pure true) w₂ _
    rw [meets_bind, meets_catching]
    refine (meets_periodicReorgCheck_same hsource hon.ready).mono ?_ ?_
      fun _ h => hon.trans_dead (h.mono fun _ => False.elim)
    · rintro back w₃ ⟨-, hs₃⟩
      have hend : Within (staying chains hashes cfg) (if back = true then pure false else do
          ignoring (checkSnapshot env cfg)
          pure true : M Bool) :=
        within_ite (fun _ => within_pure _) fun _ =>
          within_bind (stays_ignoring stays_checkSnapshot) fun _ => within_pure _
      exact meets_onward (onward_of_staying hend) (hon.trans hs₃.onward)
    · intro _ w₃ hs₃
      have hend : Within (staying chains hashes cfg) (do
          ignoring (checkSnapshot env cfg)
          pure true : M Bool) :=
        within_bind (stays_ignoring stays_checkSnapshot) fun _ => within_pure _
      exact meets_onward (onward_of_staying hend) (hon.trans hs₃.onward)

/-- **A log of the subscription.** -/
theorem onward_liveLog (hsource : Source env cfg chains hashes) {lg : Log}
    (hlg : lg ∈ chains cfg.chain) (gen : Nat) :
    Within (onward chains hashes cfg (· = lg.blockNumber)) (liveLog env cfg gen lg) := by
  refine within_onward fun w hw => ?_
  have hkept : ¬lg.removed = true := by simp [hsource.canonical.removed lg hlg]
  rw [liveLog, if_neg hkept, getMem, meets_read_bind]
  refine meets_ite (fun _ => .refl hw) fun _ => ?_
  rw [meets_bind, meets_attempt]
  have hfailed : ∀ (e : Err) (go : Bool) {w₁ : World},
      Onward chains hashes cfg (· = lg.blockNumber) w w₁ →
      Meets (do recordFailedLog env cfg lg e.name; pure go) w₁
        (onwardPost Bool chains hashes cfg (· = lg.blockNumber) w) := fun e go w₁ h =>
    meets_onward (onward_of_staying (within_bind stays_recordFailedLog fun _ => within_pure _)) h
  refine (meets_fillGapBefore (E := (· = lg.blockNumber)) hsource hlg hw).mono ?_ ?_ fun _ h => h
  · rintro _ w₁ ⟨hon, hbefore⟩
    change Meets (Prog.attempt (processLog env cfg lg) >>= fun _ => _) w₁ _
    rw [meets_bind, meets_attempt]
    refine (stays_processLog w₁).mono ?_ ?_ fun _ h =>
      hon.trans_dead ((h hon.ready).mono fun _ => False.elim)
    · intro _ w₂ h₂
      have hs := h₂ hon.ready
      refine (meets_settleLiveLog hsource hlg hs.ready ?_).mono (fun _ _ h => ?_) (fun _ _ h => ?_)
        fun _ h => ?_
      · intro x hx hwatch hge hlt
        refine hs.handed x (hbefore x hx ?_ (hs.memory.1.symm.trans_le hge) hlt)
        exact (Watched.congr hs.memory.2.1).1 hwatch
      · exact (hon.trans hs.onward).trans h
      · exact (hon.trans hs.onward).trans h
      · exact (hon.trans hs.onward).trans_dead h
    · exact fun e w₂ h₂ => hfailed e true (hon.trans (h₂ hon.ready).onward)
  · exact fun e w₁ hon => hfailed e false hon

/-- What may be read: logs of the chain. -/
def ReadEvent.Of (C : Set Log) : ReadEvent → Prop
  | .log lg => lg ∈ C
  | _ => True

/-- The block a turn of the loop may move the cursor past. -/
def ReadEvent.At (b : Nat) : ReadEvent → Prop
  | .log lg => b = lg.blockNumber
  | _ => False

/-- **A turn of the loop that reads.** -/
theorem onward_readTurn (hsource : Source env cfg chains hashes) {event : ReadEvent}
    (hevent : event.Of (chains cfg.chain)) (gen : Nat) :
    Within (onward chains hashes cfg (event.At ·)) (readTurn env cfg gen event) := by
  refine within_bind (onward_of_staying stays_getMem) fun m => ?_
  refine within_ite (fun _ => ?_) fun _ => within_pure _
  refine within_bind (onward_of_staying stays_retryDeadLetters) fun _ => ?_
  cases event with
  | closed => exact within_pure _
  | pingHandled => exact within_pure _
  | log lg => exact onward_liveLog hsource hevent gen

end Scans

end Live

end Zponder

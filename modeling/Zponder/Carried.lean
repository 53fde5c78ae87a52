import Zponder.Scope

/-!
# A scan is deliveries and silence

A `Scope` bounds what a function does part by part. A bound may also tie the parts together, what
is in the database to what has been handed over, and such a bound is no scope. But all a scan
does is to deliver logs and, in between, to ask the node and to read and write the log cache,
which no delivery depends on. So it stays within every frame that tolerates deliveries and this
silence (`Zponder.Carries.syncRange`).
-/

namespace Zponder

open Imperative Prog

/-- A frame that tolerates deliveries, and whatever stays within the scope `S`, which tolerates
requests and what is written to the log cache. -/
structure Carries (S : Scope) (F : Frame World) (env : Env) (cfg : Config) : Prop
    extends S.Caches where
  requests : ∀ n, S.requests.rel n (n + 1)
  silent : ∀ {α : Type} {p : M α}, Within S.frame p → Within F p
  deliver : ∀ lg, Within F (deliver env cfg lg)

namespace Carries

variable {S : Scope} {F : Frame World} {env : Env} {cfg : Config} {as : List Text}
  {ts : Option (List Text)} {key : Text} {f t : Nat}

theorem processFetchedLogs (hF : Carries S F env cfg) (logs : List Log) :
    Within F (processFetchedLogs env cfg logs) :=
  within_each fun lg _ => hF.deliver lg

theorem loadBlockReceipts (hF : Carries S F env cfg) {b : Nat} :
    Within F (loadBlockReceipts env as ts b) :=
  hF.silent (within_loadBlockReceipts hF.requests)

theorem storeLogCacheBatch (hF : Carries S F env cfg) {c : Text} {rows : List ChainLog} :
    Within F (storeLogCacheBatch env cfg c as key f t rows) :=
  hF.silent (within_storeLogCacheBatch hF.toCaches)

/-- The two halves of a list of topics. -/
theorem appendBlockLogs (hF : Carries S F env cfg) (l : List Text) :
    Within F (appendBlockLogs env as (some l) f t) :=
  hF.silent (within_appendBlockLogs hF.requests as (some l) f t)

theorem consumeReceiptBlock (hF : Carries S F env cfg) {b : Nat} :
    Within F (consumeReceiptBlock env cfg as ts b) :=
  within_bind hF.loadBlockReceipts fun via => hF.processFetchedLogs via

theorem storeReceiptBlock (hF : Carries S F env cfg) {b : Nat} :
    Within F (storeReceiptBlock env cfg as ts key b) :=
  within_bind hF.loadBlockReceipts fun via =>
    within_bind hF.storeLogCacheBatch fun _ => hF.processFetchedLogs via

theorem pullUncached (hF : Carries S F env cfg) (as : List Text) (ts : Option (List Text))
    (f t : Nat) : Within F (pullUncached env cfg as ts f t) := by
  induction as, ts using split_induction f t with
  | step as ts ihA ihT =>
    rw [Zponder.pullUncached]
    split
    · exact within_pure _
    refine within_bind (within_attempt (hF.silent (within_getLogs hF.requests))) fun answer => ?_
    split
    · exact within_ite (fun _ => hF.consumeReceiptBlock) fun _ => within_throw _
    refine within_ite (fun _ => ?_) fun _ =>
      within_bind (hF.processFetchedLogs _) fun _ => within_when fun _ => within_throw _
    split
    · next mid h => exact within_bind (ihA mid h).1 fun _ => (ihA mid h).2
    split
    · exact within_bind (hF.appendBlockLogs _) fun first =>
        within_bind (hF.appendBlockLogs _) fun second => hF.processFetchedLogs (first ++ second)
    · exact within_ite (fun _ => hF.consumeReceiptBlock) fun _ => within_throw _

theorem replayCachedAddresses (hF : Carries S F env cfg) :
    Within F (replayCachedAddresses env cfg as ts f t) :=
  within_bind (hF.silent (within_gather fun _ _ => within_loadChainLogs)) fun _ =>
    within_each fun lg _ => hF.deliver lg

theorem fetchStoreProcess (hF : Carries S F env cfg) (as : List Text) (ts : Option (List Text))
    (key : Text) (f t : Nat) : Within F (fetchStoreProcess env cfg as ts key f t) := by
  induction as, ts using split_induction f t with
  | step as ts ihA ihT =>
    rw [Zponder.fetchStoreProcess]
    split
    · exact within_pure _
    refine within_bind (within_attempt (hF.silent (within_getLogs hF.requests))) fun answer => ?_
    split
    · exact within_ite (fun _ => hF.storeReceiptBlock) fun _ => within_throw _
    refine within_ite (fun _ => ?_) fun _ => within_bind hF.storeLogCacheBatch fun _ =>
      within_bind (hF.processFetchedLogs _) fun _ => within_when fun _ => within_throw _
    split
    · next mid h => exact within_bind (ihA mid h).1 fun _ => (ihA mid h).2
    split
    · exact within_bind (hF.appendBlockLogs _) fun first =>
        within_bind (hF.appendBlockLogs _) fun second =>
          within_bind hF.storeLogCacheBatch fun _ => hF.processFetchedLogs (first ++ second)
    · exact within_ite (fun _ => hF.storeReceiptBlock) fun _ => within_throw _

theorem syncHoles (hF : Carries S F env cfg) :
    ∀ (holes : List BlockSpan) (cursor : Nat), Within F (syncHoles env cfg as ts key t holes cursor)
  | [], _ => within_when fun _ => hF.replayCachedAddresses
  | _ :: holes, _ =>
    within_bind (within_when fun _ => hF.replayCachedAddresses) fun _ =>
      within_bind (hF.fetchStoreProcess _ _ _ _ _) fun _ =>
        within_when fun _ => hF.syncHoles holes _

theorem syncRangeChunk (hF : Carries S F env cfg) :
    Within F (syncRangeChunk env cfg as ts key f t) :=
  within_ite (fun _ => within_bind (hF.silent (within_groupByHoles _ _)) fun _ =>
    within_each fun _ _ => hF.syncHoles _ _) fun _ => hF.pullUncached _ _ _ _

theorem syncRangeWithAddresses (hF : Carries S F env cfg) :
    Within F (syncRangeWithAddresses env cfg as f t) :=
  within_ite (fun _ => within_pure _) fun _ => within_each fun _ _ => hF.syncRangeChunk

/-- **A scan stays within every frame that tolerates deliveries and silence.** -/
theorem syncRange (hF : Carries S F env cfg) : Within F (syncRange env cfg f t) :=
  within_bind (within_read _) fun _ => hF.syncRangeWithAddresses

end Carries

end Zponder

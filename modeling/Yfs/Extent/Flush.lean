import Yfs.Extent.Transparent

/-!
# Flush — RPCs that fail

The calls of `extent_client_cache` in any order and on any extents, when an RPC may fail, before or
after the server has executed it.  `flush` passes the result of its RPC on and drops the entry,
whatever the result was: what the entry had for the server is then neither in the cache nor, maybe,
at the server, and the next `flush` finds nothing to do.

`flush_keeps_iff` says that this is the only way in which something is lost, and that it always is
one.
-/

namespace Yfs
namespace Extent

/-- How an RPC ends.  One that failed may have been executed. -/
inductive Rpc
  | answered
  | failed (executed : Bool)
  deriving DecidableEq, Repr

/-- A call of the cache, with how its RPC ends if it makes one. -/
inductive CacheCall
  | call (c : Call) (now : UInt32) (r : Rpc)
  | flush (eid : ExtentId) (r : Rpc)
  deriving DecidableEq, Repr

namespace Client

/-- The call has to ask the server. -/
def asks (s : Client) (now : UInt32) : Call → Bool
  | .get eid =>
      match s.cache.getStart eid now with
      | .call => true
      | _ => false
  | .getattr eid _ =>
      match s.cache.getattrStart eid with
      | .call => true
      | _ => false
  | .put _ _ => false
  | .remove _ => false

/-- `get` answers `NOENT` for every RPC that did not return `OK`, `getattr` what the RPC
returned. -/
def failure : Call → Status
  | .get _ => .noent
  | _ => .rpcerr

/-- A call whose RPC may fail. -/
def callRpc (s : Client) (now : UInt32) (r : Rpc) (c : Call) : Client × Answer :=
  if s.asks now c = true ∧ r ≠ .answered then
    (s, .of (failure c))
  else
    s.call now c

/-- `flush` when its RPC fails. -/
def flushFailed (s : Client) (eid : ExtentId) (executed : Bool) : Client × Status :=
  match s.cache.flushStart eid with
  | .noent => (s, .noent)
  -- the entry goes in any case
  | .put buf =>
      ({ cache := s.cache.erase eid
         server := if executed then Function.update s.server eid (some buf) else s.server },
        .rpcerr)
  | .remove =>
      ({ cache := s.cache.erase eid
         server := if executed then Function.update s.server eid none else s.server },
        .rpcerr)
  | .drop => ({ s with cache := s.cache.erase eid }, .ok)

def flushRpc (s : Client) (eid : ExtentId) : Rpc → Client × Status
  | .answered => s.flush eid
  | .failed executed => s.flushFailed eid executed

def step (s : Client) : CacheCall → Client × Status
  | .call c now r => ((s.callRpc now r c).1, (s.callRpc now r c).2.status)
  | .flush eid r => s.flushRpc eid r

def after (s : Client) (ops : List CacheCall) : Client :=
  ops.foldl (fun s op => (s.step op).1) s

/-! ## What has been written -/

/-- What the entry has for the server: contents, or `none` for a removal. -/
def pending (s : Client) (eid : ExtentId) : Option (Option Bytes) :=
  match s.cache eid with
  | none => none
  | some e =>
      match e.state with
      | .dirty => some (some e.buf)
      | .remove => some none
      | .none => none
      | .consistent => none

/-- What the call writes to the extent, when it returns `OK`. -/
def writes (s : Client) (eid : ExtentId) : CacheCall → Option (Option Bytes)
  | .call (.put i buf) now r =>
      if i = eid ∧ (s.step (.call (.put i buf) now r)).2 = .ok then some (some buf) else none
  | .call (.remove i) now r =>
      if i = eid ∧ (s.step (.call (.remove i) now r)).2 = .ok then some none else none
  | _ => none

def lastFrom (eid : ExtentId) (s : Client) (w : Option (Option Bytes)) :
    List CacheCall → Option (Option Bytes)
  | [] => w
  | op :: ops => lastFrom eid (s.step op).1 ((s.writes eid op).or w) ops

/-- What was written last, by the calls or before them. -/
def lastWrite (s : Client) (eid : ExtentId) (ops : List CacheCall) : Option (Option Bytes) :=
  lastFrom eid s (s.pending eid) ops

/-- A `flush` whose RPC fails leaves what it should have written in the cache, and after every
`flush` whose RPC does not fail the server has what was written last. -/
structure LosesNothing (s : Client) (ops : List CacheCall) : Prop where
  kept : ∀ pre eid executed post, ops = pre ++ .flush eid (.failed executed) :: post →
    ∀ v, (s.after pre).pending eid = some v →
      ((s.after pre).step (.flush eid (.failed executed))).1.pending eid = some v
  delivered : ∀ pre eid post, ops = pre ++ .flush eid .answered :: post →
    ∀ v, s.lastWrite eid pre = some v →
      ((s.after pre).step (.flush eid .answered)).1.server eid = v

/-- No `flush` that has something to write fails. -/
def FlushesSucceed (s : Client) (ops : List CacheCall) : Prop :=
  ∀ pre eid executed post, ops = pre ++ .flush eid (.failed executed) :: post →
    (s.after pre).pending eid = none

/-! ## Steps -/

variable {s : Client} {eid : ExtentId}

theorem contents_of_pending {v : Option Bytes} (h : s.pending eid = some v) :
    s.contents eid = v := by
  unfold pending at h
  unfold contents
  split at h
  · cases h
  · split at h <;> simp_all

theorem contents_congr {s' : Client} (hcache : s'.cache eid = s.cache eid)
    (hserver : s'.server eid = s.server eid) : s'.contents eid = s.contents eid := by
  simp only [contents, hcache, hserver]

theorem call_server (s : Client) (now : UInt32) (c : Call) :
    (s.call now c).1.server = s.server := by
  cases c with
  | get i =>
      simp only [call]
      split
      · split <;> rfl
      · rfl
      · rfl
  | getattr i a =>
      simp only [call]
      split
      · split <;> rfl
      · rfl
      · rfl
  | put i buf | remove i => rfl

/-- Reading changes no contents. -/
theorem contents_call_get (s : Client) (now : UInt32) (i : ExtentId) :
    (s.call now (.get i)).1.contents i = s.contents i := by
  cases hc : s.cache i with
  | none =>
      cases hsrv : s.server i <;>
        simp [call, Cache.getStart, Cache.getFill, contents, hc, hsrv]
  | some e =>
      cases hst : e.state <;> cases hsrv : s.server i <;>
        simp [call, Cache.getStart, Cache.getFill, EidContent.touch, contents, hc, hst, hsrv]

theorem contents_call_getattr (s : Client) (now : UInt32) (i : ExtentId) (a : Attr) :
    (s.call now (.getattr i a)).1.contents i = s.contents i := by
  cases hc : s.cache i with
  | none =>
      cases hsrv : s.server i <;>
        simp [call, Cache.getattrStart, Cache.getattrFill, contents, hc, hsrv]
  | some e =>
      by_cases hst : e.state = .remove <;> simp [call, Cache.getattrStart, hc, hst]

theorem contents_callRpc_of_ne (s : Client) (now : UInt32) (r : Rpc) {c : Call}
    (hne : eid ≠ c.eid) : (s.callRpc now r c).1.contents eid = s.contents eid := by
  unfold callRpc
  split
  · rfl
  · exact contents_congr (call_cache_of_ne s now hne) (by rw [call_server])

/-- A call makes what it writes the contents, and leaves them alone when it writes nothing. -/
theorem contents_step_call (s : Client) (eid : ExtentId) (c : Call) (now : UInt32) (r : Rpc) :
    (s.step (.call c now r)).1.contents eid =
      (s.writes eid (.call c now r)).getD (s.contents eid) := by
  by_cases hne : eid = c.eid
  · subst hne
    cases c with
    | get i =>
        show (s.callRpc now r (.get i)).1.contents i = s.contents i
        unfold callRpc
        split
        · rfl
        · exact contents_call_get s now i
    | getattr i a =>
        show (s.callRpc now r (.getattr i a)).1.contents i = s.contents i
        unfold callRpc
        split
        · rfl
        · exact contents_call_getattr s now i a
    | put i buf =>
        -- refused on an entry that is to be removed
        by_cases hst : (s.cache i).map EidContent.state = some .remove
        · simp [step, callRpc, asks, call, Cache.put, writes, Call.eid, Answer.of, hst]
        · simp [step, callRpc, asks, call, Cache.put, writes, Call.eid, Answer.of, hst, contents]
    | remove i =>
        by_cases hst : (s.cache.entry i).state = .remove
        · simp [step, callRpc, asks, call, Cache.remove, writes, Call.eid, Answer.of, hst]
        · simp [step, callRpc, asks, call, Cache.remove, writes, Call.eid, Answer.of, hst,
            contents]
  · have hwrites : s.writes eid (.call c now r) = none := by
      cases c with
      | get i | getattr i a => rfl
      | put i buf | remove i => exact if_neg fun h => hne h.1.symm
    rw [hwrites]
    exact contents_callRpc_of_ne s now r hne

/-- A `flush` that fails with nothing to write does what it does when it does not fail. -/
theorem flushFailed_of_not_pending {i : ExtentId} (h : s.pending i = none) (executed : Bool) :
    s.flushFailed i executed = s.flush i := by
  unfold pending at h
  cases hc : s.cache i with
  | none => simp [flushFailed, flush, Cache.flushStart, hc]
  | some e =>
      rw [hc] at h
      cases hst : e.state <;> simp [flushFailed, flush, Cache.flushStart, hc, hst] at h ⊢

theorem pending_flushFailed (s : Client) (eid : ExtentId) (executed : Bool) :
    (s.flushFailed eid executed).1.pending eid = none := by
  cases hc : s.cache eid with
  | none => simp [flushFailed, Cache.flushStart, pending, hc]
  | some e => cases hst : e.state <;> simp [flushFailed, Cache.flushStart, pending, hc, hst]

theorem contents_step {op : CacheCall}
    (hop : ∀ i executed, op = .flush i (.failed executed) → s.pending i = none) :
    (s.step op).1.contents eid = (s.writes eid op).getD (s.contents eid) := by
  cases op with
  | call c now r => exact contents_step_call s eid c now r
  | flush i r =>
      cases r with
      | answered => exact congrFun (flush_contents s i) eid
      | failed executed =>
          show (s.flushFailed i executed).1.contents eid = s.contents eid
          rw [flushFailed_of_not_pending (hop i executed rfl)]
          exact congrFun (flush_contents s i) eid

/-! ## Runs -/

theorem FlushesSucceed.tail {op : CacheCall} {ops : List CacheCall}
    (h : FlushesSucceed s (op :: ops)) : FlushesSucceed (s.step op).1 ops :=
  fun pre eid executed post hops => h (op :: pre) eid executed post (by rw [hops]; rfl)

theorem FlushesSucceed.left {pre post : List CacheCall} (h : FlushesSucceed s (pre ++ post)) :
    FlushesSucceed s pre := by
  intro pre' eid executed post' hpre
  refine h pre' eid executed (post' ++ post) ?_
  rw [hpre, List.append_assoc, List.cons_append]

/-- As long as no `flush` has failed that had something to write, the last write is what the cache
and the server stand for. -/
theorem contents_after (ops : List CacheCall) :
    ∀ {s : Client} {w : Option (Option Bytes)}, FlushesSucceed s ops →
      (∀ v, w = some v → s.contents eid = v) →
      ∀ v, lastFrom eid s w ops = some v → (s.after ops).contents eid = v := by
  induction ops with
  | nil => exact fun _ hw => hw
  | cons op ops ih =>
      intro s w hok hw
      have hop : ∀ i executed, op = .flush i (.failed executed) → s.pending i = none :=
        fun i executed hop => hok [] i executed ops (by rw [hop]; rfl)
      -- the last write so far is the contents after the call
      refine ih hok.tail fun v hv => ?_
      rw [contents_step hop]
      cases hwrites : s.writes eid op with
      | some v' =>
          rw [hwrites] at hv
          exact Option.some.inj hv
      | none =>
          rw [hwrites] at hv
          exact hw v hv

theorem server_flush (s : Client) (eid : ExtentId) :
    (s.flush eid).1.server eid = s.contents eid := by
  rw [← contents_of_absent (by rw [flush_cache, Cache.erase_self]), flush_contents]

end Client

/-- Whatever is in the cache and whatever the calls are: nothing is lost exactly when no `flush`
with something to write fails. -/
theorem flush_keeps_iff (s : Client) (ops : List CacheCall) :
    s.LosesNothing ops ↔ s.FlushesSucceed ops := by
  constructor
  · -- a failed `flush` leaves nothing pending, so there was nothing before
    intro h pre eid executed post hops
    cases hpending : (s.after pre).pending eid with
    | none => rfl
    | some v =>
        have hkept := h.kept pre eid executed post hops v hpending
        exact nomatch (Client.pending_flushFailed _ eid executed).symm.trans hkept
  · intro h
    constructor
    · intro pre eid executed post hops v hv
      exact nomatch (h pre eid executed post hops).symm.trans hv
    · intro pre eid post hops v hv
      subst hops
      refine (Client.server_flush _ eid).trans ?_
      exact Client.contents_after pre h.left (fun v hv => Client.contents_of_pending hv) v hv

/-- A `flush` fails after a `put`.  The next one finds no entry and answers `NOENT`, and the server
keeps the old contents. -/
theorem failed_flush_loses :
    ¬ (Client.start oneExtent).LosesNothing
        [.call (.put 1 [9]) 10 .answered, .flush 1 (.failed false), .flush 1 .answered] ∧
      (((Client.start oneExtent).after
        [.call (.put 1 [9]) 10 .answered, .flush 1 (.failed false)]).step
          (.flush 1 .answered)).2 = .noent ∧
      (Client.start oneExtent).lastWrite 1
        [.call (.put 1 [9]) 10 .answered, .flush 1 (.failed false)] = some (some [9]) ∧
      (((Client.start oneExtent).after
        [.call (.put 1 [9]) 10 .answered, .flush 1 (.failed false)]).step
          (.flush 1 .answered)).1.server 1 = some [7] := by
  refine ⟨fun h => ?_, by decide +kernel, by decide +kernel, by decide +kernel⟩
  have hdelivered := h.delivered [.call (.put 1 [9]) 10 .answered, .flush 1 (.failed false)] 1 []
    rfl (some [9]) (by decide +kernel)
  exact absurd hdelivered (by decide +kernel)

end Extent
end Yfs

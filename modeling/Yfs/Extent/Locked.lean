import Yfs.Extent.Coherence
import Yfs.Lib.Simulation
import Yfs.Lock.Workers

/-!
# Locked — lock clients and extent caches together

In the file system every extent has a lock of the same number.  A thread works on an extent in
the cache of its client while it holds the lock, and before a lock goes back to the server,
`lock_release::dorelease` flushes the extent.  Two places of `lock_client_cache_rsm` call it,
`release` for the thread that held the lock and the thread `releaser` for a lock that was revoked
while nobody held it; the rest of the client goes on meanwhile.

The state here is that of `Lock.Mutex` together with the caches, the extent server and, for every
worker, its call of the cache.  Nothing in it says who may work on an extent: that only one worker
does so at a time comes from the tokens of the lock clients.  The RPCs to the extent server are
executed once each, at any time, and answered.
-/

namespace Yfs
namespace Extent
namespace Locked

open Lib Lock

/-- What a worker has to do with the cache: nothing, a call that waits for the server, or a return
from `dorelease` that the release has not followed yet. -/
inductive Work
  | none
  | call (eid : ExtentId) (op : Op)
  | flushed
  deriving DecidableEq

structure State (Cid Tid : Type) where
  lock : Lock.State Cid Tid
  cache : Cid → Cache
  server : ExtentId → Option Bytes
  work : Cid → Worker Tid → Work
  hist : List (MapEvent ExtentId Bytes)

inductive Action (Cid Tid : Type)
  | lock (a : Lock.Action Cid Tid)
  | put (c : Cid) (t : Tid) (eid : ExtentId) (buf : Bytes) (now : UInt32)
  | remove (c : Cid) (t : Tid) (eid : ExtentId)
  | get (c : Cid) (t : Tid) (eid : ExtentId) (now : UInt32)
  | getattr (c : Cid) (t : Tid) (eid : ExtentId)
  | flush (c : Cid) (w : Worker Tid)
  | serve (c : Cid) (w : Worker Tid) (a : Attr)
  | ret (c : Cid) (w : Worker Tid) (now : UInt32)

variable {Cid Tid : Type}

/-! ## Steps -/

section

variable [DecidableEq Cid] [DecidableEq Tid] [Fintype Tid]

def State.setCache (s : State Cid Tid) (c : Cid) (k : Cache) : State Cid Tid :=
  { s with cache := Function.update s.cache c k }

def State.setWork (s : State Cid Tid) (c : Cid) (w : Worker Tid) (x : Work) : State Cid Tid :=
  { s with work := Function.update s.work c (Function.update (s.work c) w x) }

def State.setServer (s : State Cid Tid) (eid : ExtentId) (v : Option Bytes) : State Cid Tid :=
  { s with server := Function.update s.server eid v }

def State.record (s : State Cid Tid) (e : MapEvent ExtentId Bytes) : State Cid Tid :=
  { s with hist := e :: s.hist }

/-- A release is sent when `dorelease` has returned; every other step of a lock client is made by
a worker that is not in the cache. -/
def before (a : Lock.Action Cid Tid) : Work :=
  if sends a then .flushed else .none

def lockStep (s : State Cid Tid) (a : Lock.Action Cid Tid) : Option (State Cid Tid) :=
  match worker a with
  | none => (Lock.step s.lock a).map fun l => { s with lock := l }
  | some (c, w) =>
      if s.work c w = before a then
        (Lock.step s.lock a).map fun l => { s.setWork c w .none with lock := l }
      else
        none

def State.localCall (s : State Cid Tid) (c : Cid) (r : Cache × Status)
    (e : MapEvent ExtentId Bytes) : State Cid Tid :=
  if r.2 = .ok then (s.setCache c r.1).record e else s.setCache c r.1

def put (s : State Cid Tid) (c : Cid) (eid : ExtentId) (buf : Bytes) (now : UInt32) :
    State Cid Tid :=
  s.localCall c ((s.cache c).put eid buf now) (.put eid buf)

def remove (s : State Cid Tid) (c : Cid) (eid : ExtentId) : State Cid Tid :=
  s.localCall c ((s.cache c).remove eid) (.remove eid)

def get (s : State Cid Tid) (c : Cid) (w : Worker Tid) (eid : ExtentId) (now : UInt32) :
    State Cid Tid :=
  match (s.cache c).getStart eid now with
  | .call => s.setWork c w (.call eid .getCall)
  | .noent => s.record (.get eid none)
  | .hit k buf => (s.setCache c k).record (.get eid (some buf))

def getattr (s : State Cid Tid) (c : Cid) (w : Worker Tid) (eid : ExtentId) : State Cid Tid :=
  match (s.cache c).getattrStart eid with
  | .call => s.setWork c w (.call eid .getattrCall)
  | .noent => s
  | .hit _ => s

/-- `dorelease`; what `flush` returns is ignored. -/
def flush (s : State Cid Tid) (c : Cid) (w : Worker Tid) (eid : ExtentId) : State Cid Tid :=
  match (s.cache c).flushStart eid with
  | .noent => s.setWork c w .flushed
  | .put buf => s.setWork c w (.call eid (.putCall buf))
  | .remove => s.setWork c w (.call eid .removeCall)
  | .drop => (s.setCache c ((s.cache c).erase eid)).setWork c w .flushed

/-- The extent server executes the RPC of a worker. -/
def serve (s : State Cid Tid) (c : Cid) (w : Worker Tid) (a : Attr) : Option (State Cid Tid) :=
  match s.work c w with
  | .call eid .getCall => some (s.setWork c w (.call eid (.getRet (s.server eid))))
  | .call eid .getattrCall =>
      some (s.setWork c w (.call eid (.getattrRet ((s.server eid).map fun _ => a))))
  | .call eid (.putCall buf) =>
      some ((s.setWork c w (.call eid (.flushRet .ok))).setServer eid (some buf))
  | .call eid .removeCall =>
      some ((s.setWork c w
        (.call eid (.flushRet (if (s.server eid).isSome then .ok else .noent)))).setServer eid none)
  | _ => none

/-- The RPC of a worker returns. -/
def opRet (s : State Cid Tid) (c : Cid) (w : Worker Tid) (now : UInt32) :
    Option (State Cid Tid) :=
  match s.work c w with
  | .call eid (.getRet none) => some ((s.setWork c w .none).record (.get eid none))
  | .call eid (.getRet (some buf)) =>
      some (((s.setCache c ((s.cache c).getFill eid buf now)).setWork c w .none).record
        (.get eid (some buf)))
  | .call _ (.getattrRet none) => some (s.setWork c w .none)
  | .call eid (.getattrRet (some a)) =>
      some ((s.setCache c ((s.cache c).getattrFill eid a)).setWork c w .none)
  | .call eid (.flushRet _) =>
      some ((s.setCache c ((s.cache c).erase eid)).setWork c w .flushed)
  | _ => none

/-- A thread that is neither in the lock client nor in the cache. -/
def State.Outside (s : State Cid Tid) (c : Cid) (t : Tid) : Prop :=
  ((s.lock.client c).thread t).pc = .idle ∧ s.work c (.thread t) = .none

instance (s : State Cid Tid) (c : Cid) (t : Tid) : Decidable (s.Outside c t) :=
  inferInstanceAs (Decidable (_ ∧ _))

def step (s : State Cid Tid) : Action Cid Tid → Option (State Cid Tid)
  | .lock a => lockStep s a
  | .put c t eid buf now => if s.Outside c t then some (put s c eid buf now) else none
  | .remove c t eid => if s.Outside c t then some (remove s c eid) else none
  | .get c t eid now => if s.Outside c t then some (get s c (.thread t) eid now) else none
  | .getattr c t eid => if s.Outside c t then some (getattr s c (.thread t) eid) else none
  | .flush c w =>
      match flushing s.lock c w with
      | some eid => if s.work c w = .none then some (flush s c w eid) else none
      | none => none
  | .serve c w a => serve s c w a
  | .ret c w now => opRet s c w now

def init : State Cid Tid where
  lock := Lock.init
  cache _ _ := none
  server _ := none
  work _ _ := .none
  hist := []

def Init (s : State Cid Tid) : Prop :=
  s = init

/-- A thread works on an extent only while it holds the lock. -/
def HoldsLock (s : State Cid Tid) : Action Cid Tid → Prop
  | .put c t eid _ _ => eid ∈ ((s.lock.client c).thread t).holds
  | .remove c t eid => eid ∈ ((s.lock.client c).thread t).holds
  | .get c t eid _ => eid ∈ ((s.lock.client c).thread t).holds
  | .getattr c t eid => eid ∈ ((s.lock.client c).thread t).holds
  | _ => True

instance (s : State Cid Tid) : DecidablePred (HoldsLock s)
  | .put c t eid _ _ => inferInstanceAs (Decidable (eid ∈ ((s.lock.client c).thread t).holds))
  | .remove c t eid => inferInstanceAs (Decidable (eid ∈ ((s.lock.client c).thread t).holds))
  | .get c t eid _ => inferInstanceAs (Decidable (eid ∈ ((s.lock.client c).thread t).holds))
  | .getattr c t eid => inferInstanceAs (Decidable (eid ∈ ((s.lock.client c).thread t).holds))
  | .lock _ | .flush _ _ | .serve _ _ _ | .ret _ _ _ => isTrue trivial

end

/-! ## Where a worker is while it is in the cache -/

/-- The calls that `flush` makes. -/
def flushes : Op → Bool
  | .putCall _ => true
  | .removeCall => true
  | .flushRet _ => true
  | _ => false

def HeldBy (l : Lock.State Cid Tid) (c : Cid) (eid : ExtentId) : Worker Tid → Prop
  | .thread t => eid ∈ ((l.client c).thread t).holds
  | .releaser => False

def WorkOk (l : Lock.State Cid Tid) (c : Cid) (w : Worker Tid) : Work → Prop
  | .none => True
  | .call eid op => (flushes op = true → flushing l c w = some eid) ∧
      (flushes op = false → HeldBy l c eid w)
  | .flushed => ∃ eid, flushing l c w = some eid

theorem carries_of_heldBy {l : Lock.State Cid Tid} {c : Cid} {w : Worker Tid} {eid : ExtentId}
    (h : HeldBy l c eid w) : Carries l c w eid := by
  cases w with
  | thread t => exact tokens_pos_of_mem_holds h
  | releaser => exact h.elim

theorem WorkOk.carries {l : Lock.State Cid Tid} {c : Cid} {w : Worker Tid} {eid : ExtentId}
    {op : Op} (h : WorkOk l c w (.call eid op)) : Carries l c w eid := by
  cases hop : flushes op with
  | true => exact carries_of_flushing (h.1 hop)
  | false => exact carries_of_heldBy (h.2 hop)

section

variable [DecidableEq Cid]

/-- A worker that does not move keeps its place. -/
theorem WorkOk.moved {s t : Lock.State Cid Tid} {a : Lock.Action Cid Tid} {c : Cid}
    {w : Worker Tid} {x : Work} (h : WorkOk s c w x) (hmoved : Moved s a t)
    (hw : worker a ≠ some (c, w)) : WorkOk t c w x := by
  have honly := hmoved c
  have hne : ((worker a).bind fun cw => if cw.1 = c then some cw.2 else none) ≠ some w := by
    intro heq
    rcases Option.bind_eq_some_iff.1 heq with ⟨⟨d, v⟩, ha, hv⟩
    rcases Option.ite_none_right_eq_some.1 hv with ⟨rfl, ⟨⟩⟩
    exact hw ha
  have hflushing : flushing t c w = flushing s c w := by
    cases w with
    | thread th => simp only [flushing, honly.thread th hne]
    | releaser => simp only [flushing, honly.releaser hne]
  cases x with
  | none => trivial
  | call eid op =>
      refine ⟨fun hop => hflushing.trans (h.1 hop), fun hop => ?_⟩
      have hheld := h.2 hop
      cases w with
      | thread th =>
          change eid ∈ ((t.client c).thread th).holds
          rw [honly.thread th hne]
          exact hheld
      | releaser => exact hheld
  | flushed =>
      rcases h with ⟨eid, h⟩
      exact ⟨eid, hflushing.trans h⟩

def State.Placed (s : State Cid Tid) : Prop :=
  ∀ c w, WorkOk s.lock c w (s.work c w)

end

section Placed

variable {s t : State Cid Tid} {c : Cid} {w : Worker Tid} {eid : ExtentId}

/-- The same worker waits for an answer of the same kind. -/
theorem WorkOk.next {l : Lock.State Cid Tid} {op op' : Op} (h : WorkOk l c w (.call eid op))
    (hop : flushes op' = flushes op) : WorkOk l c w (.call eid op') :=
  ⟨fun hyes => h.1 (hop.symm.trans hyes), fun hno => h.2 (hop.symm.trans hno)⟩

variable [DecidableEq Cid]

theorem State.Placed.localCall (h : s.Placed) (r : Cache × Status) (e : MapEvent ExtentId Bytes) :
    (s.localCall c r e).Placed := by
  unfold State.localCall
  split <;> exact h

variable [DecidableEq Tid]

@[simp] theorem work_setWork_self (s : State Cid Tid) (c : Cid) (w : Worker Tid) (x : Work) :
    (s.setWork c w x).work c w = x := by
  simp [State.setWork]

theorem work_setWork_of_ne (s : State Cid Tid) {c d : Cid} {v w : Worker Tid} (x : Work)
    (h : (d, v) ≠ (c, w)) : (s.setWork c w x).work d v = s.work d v := by
  unfold State.setWork
  by_cases hd : d = c
  · subst hd
    have hv : v ≠ w := fun heq => h (by rw [heq])
    simp [hv]
  · simp [hd]

theorem State.Placed.setWork (h : s.Placed) {x : Work} (hx : WorkOk s.lock c w x) :
    (s.setWork c w x).Placed := by
  intro d v
  by_cases hdv : (d, v) = (c, w)
  · cases hdv
    rw [work_setWork_self]
    exact hx
  · rw [work_setWork_of_ne s x hdv]
    exact h d v

theorem State.Placed.lockStep {a : Lock.Action Cid Tid} (h : s.Placed)
    (hst : lockStep s a = some t) : t.Placed := by
  unfold Locked.lockStep at hst
  cases hw : worker a with
  | none =>
      simp only [hw] at hst
      rcases Option.map_eq_some_iff.1 hst with ⟨l, hl, rfl⟩
      exact fun d v => (h d v).moved (moved_step hl) (by simp [hw])
  | some cw =>
      simp only [hw] at hst
      rcases Option.ite_none_right_eq_some.1 hst with ⟨_, hst⟩
      rcases Option.map_eq_some_iff.1 hst with ⟨l, hl, rfl⟩
      intro d v
      change WorkOk l d v ((s.setWork cw.1 cw.2 .none).work d v)
      by_cases hdv : (d, v) = cw
      · subst hdv
        rw [work_setWork_self]
        trivial
      · rw [work_setWork_of_ne s _ hdv]
        refine (h d v).moved (moved_step hl) ?_
        rw [hw]
        exact fun heq => hdv (Option.some.inj heq).symm

theorem State.Placed.get {th : Tid} (h : s.Placed)
    (hheld : eid ∈ ((s.lock.client c).thread th).holds) (now : UInt32) :
    (get s c (.thread th) eid now).Placed := by
  unfold Locked.get
  split
  · exact h.setWork ⟨fun hop => (by cases hop), fun _ => hheld⟩
  · exact h
  · exact h

theorem State.Placed.getattr {th : Tid} (h : s.Placed)
    (hheld : eid ∈ ((s.lock.client c).thread th).holds) :
    (getattr s c (.thread th) eid).Placed := by
  unfold Locked.getattr
  split
  · exact h.setWork ⟨fun hop => (by cases hop), fun _ => hheld⟩
  · exact h
  · exact h

theorem State.Placed.flush (h : s.Placed) (hf : flushing s.lock c w = some eid) :
    (flush s c w eid).Placed := by
  have hcall : ∀ op, flushes op = true → WorkOk s.lock c w (.call eid op) :=
    fun op hop => ⟨fun _ => hf, fun hno => by rw [hop] at hno; cases hno⟩
  unfold Locked.flush
  split
  · exact h.setWork ⟨eid, hf⟩
  · exact h.setWork (hcall _ rfl)
  · exact h.setWork (hcall _ rfl)
  · exact State.Placed.setWork (s := s.setCache c _) h ⟨eid, hf⟩

theorem State.Placed.serve {a : Attr} (h : s.Placed) (hst : serve s c w a = some t) :
    t.Placed := by
  have hwork := h c w
  unfold Locked.serve at hst
  split at hst
  next i heq =>
    rw [heq] at hwork
    cases hst
    exact h.setWork (hwork.next rfl)
  next i heq =>
    rw [heq] at hwork
    cases hst
    exact h.setWork (hwork.next rfl)
  next i buf heq =>
    rw [heq] at hwork
    cases hst
    exact h.setWork (hwork.next rfl)
  next i heq =>
    rw [heq] at hwork
    cases hst
    exact h.setWork (hwork.next rfl)
  next => cases hst

theorem State.Placed.opRet {now : UInt32} (h : s.Placed) (hst : opRet s c w now = some t) :
    t.Placed := by
  have hwork := h c w
  have hnone : ∀ k, ((s.setCache c k).setWork c w .none).Placed :=
    fun k => State.Placed.setWork (s := s.setCache c k) h trivial
  unfold Locked.opRet at hst
  split at hst
  next i heq =>
    cases hst
    exact h.setWork (x := .none) trivial
  next i buf heq =>
    cases hst
    exact hnone _
  next i heq =>
    cases hst
    exact h.setWork trivial
  next i a heq =>
    cases hst
    exact hnone _
  next i ret heq =>
    cases hst
    rw [heq] at hwork
    exact State.Placed.setWork (s := s.setCache c _) h ⟨i, hwork.1 rfl⟩
  next => cases hst

theorem State.Placed.step {a : Action Cid Tid} (h : s.Placed) (hok : HoldsLock s a)
    (hst : step s a = some t) : t.Placed := by
  cases a with
  | lock a => exact h.lockStep hst
  | put c th eid buf now =>
      rcases Option.ite_none_right_eq_some.1 hst with ⟨_, ⟨⟩⟩
      exact h.localCall _ _
  | remove c th eid =>
      rcases Option.ite_none_right_eq_some.1 hst with ⟨_, ⟨⟩⟩
      exact h.localCall _ _
  | get c th eid now =>
      rcases Option.ite_none_right_eq_some.1 hst with ⟨_, ⟨⟩⟩
      exact h.get hok now
  | getattr c th eid =>
      rcases Option.ite_none_right_eq_some.1 hst with ⟨_, ⟨⟩⟩
      exact h.getattr hok
  | flush c w =>
      simp only [Locked.step] at hst
      split at hst
      next eid hf =>
        rcases Option.ite_none_right_eq_some.1 hst with ⟨_, ⟨⟩⟩
        exact h.flush hf
      next => cases hst
  | serve c w a => exact h.serve hst
  | ret c w now => exact h.opRet hst

end Placed

/-! ## The lock clients run as they do alone -/

variable [DecidableEq Cid]

theorem lock_localCall (s : State Cid Tid) (c : Cid) (r : Cache × Status)
    (e : MapEvent ExtentId Bytes) : (s.localCall c r e).lock = s.lock := by
  unfold State.localCall
  split <;> rfl

variable [DecidableEq Tid]

theorem lock_lockStep {s t : State Cid Tid} {a : Lock.Action Cid Tid}
    (hst : lockStep s a = some t) : Lock.step s.lock a = some t.lock := by
  unfold lockStep at hst
  split at hst
  · rcases Option.map_eq_some_iff.1 hst with ⟨l, hl, rfl⟩
    exact hl
  · rcases Option.ite_none_right_eq_some.1 hst with ⟨_, hst⟩
    rcases Option.map_eq_some_iff.1 hst with ⟨l, hl, rfl⟩
    exact hl

/-- The calls of the cache leave the lock clients alone. -/
theorem lock_step {s t : State Cid Tid} {a : Action Cid Tid} (hst : step s a = some t) :
    t.lock = s.lock ∨ ∃ b, Lock.step s.lock b = some t.lock := by
  cases a with
  | lock a => exact Or.inr ⟨a, lock_lockStep hst⟩
  | put c th eid buf now | remove c th eid =>
      rcases Option.ite_none_right_eq_some.1 hst with ⟨_, ⟨⟩⟩
      exact Or.inl (lock_localCall s c _ _)
  | get c th eid now =>
      rcases Option.ite_none_right_eq_some.1 hst with ⟨_, ⟨⟩⟩
      left
      unfold get
      split <;> rfl
  | getattr c th eid =>
      rcases Option.ite_none_right_eq_some.1 hst with ⟨_, ⟨⟩⟩
      left
      unfold getattr
      split <;> rfl
  | flush c w =>
      simp only [step] at hst
      split at hst
      · rcases Option.ite_none_right_eq_some.1 hst with ⟨_, ⟨⟩⟩
        left
        unfold flush
        split <;> rfl
      · cases hst
  | serve c w a =>
      left
      simp only [step, serve] at hst
      split at hst <;> cases hst <;> rfl
  | ret c w now =>
      left
      simp only [step, opRet] at hst
      split at hst <;> cases hst <;> rfl

variable [Fintype Tid]

structure Inv (s : State Cid Tid) : Prop where
  exclusive : s.lock.Exclusive
  placed : s.Placed

theorem inv_reach {s : State Cid Tid} (h : Reach Init step HoldsLock s) : Inv s where
  exclusive := by
    refine exclusive_reach (h.project State.lock ?_ ?_)
    · rintro _ rfl
      rfl
    · intro s a t _ hst
      exact (lock_step hst).imp id fun ⟨b, hb⟩ => ⟨b, trivial, hb⟩
  placed := by
    refine Reach.invariant (I := State.Placed) ?_ ?_ h
    · rintro _ rfl
      exact fun _ _ => trivial
    · intro s a t hI hok hst
      exact hI.step hok hst

end Locked
end Extent
end Yfs

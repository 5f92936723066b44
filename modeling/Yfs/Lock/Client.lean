import Mathlib.Data.UInt
import Yfs.Lib.Weight

/-!
# Client — `lock_client_cache_rsm`

A client caches locks: a lock that was granted stays with the client in state `FREE` until the
server revokes it.  Its threads call `acquire` and `release`; one more thread, `releaser`, sends
the releases of locks that were revoked while nobody held them; `revoke_handler` and
`retry_handler` run for messages of the server.

Everything between two points where `mutex_` is given up is one function here.  The xid of an
`acquire` call is an argument read *after* `ulock.unlock()`, so sending it is a step of its own
(`sendAcquire`).  A wait on a condition variable may end at any time.

`Client.tokens` counts the places that stand for possession of a lock: a thread that holds it,
the cached state `FREE`, and every release that is queued or not sent yet.
-/

namespace Yfs
namespace Lock

open Lib

abbrev LockId := UInt64

abbrev Xid := UInt64

/-- The codes of `lock_protocol::xxstatus`. -/
inductive Status
  | ok
  | retry
  | rpcerr
  | noent
  | ioerr
  deriving DecidableEq, Repr

inductive ClientLockState
  | none
  | free
  | locked
  | acquiring
  | releasing
  deriving DecidableEq, Repr

structure ClientLock where
  revoked : Bool
  retry : Bool
  state : ClientLockState
  xid : Xid
  deriving DecidableEq, Repr

def ClientLock.init : ClientLock where
  revoked := false
  retry := false
  state := .none
  xid := 0

def ClientLock.setState (l : ClientLock) (state : ClientLockState) : ClientLock :=
  { l with state := state }

def ClientLock.setRetry (l : ClientLock) (retry : Bool) : ClientLock :=
  { l with retry := retry }

def ClientLock.setRevoked (l : ClientLock) (revoked : Bool) : ClientLock :=
  { l with revoked := revoked }

structure LockEntry where
  lid : LockId
  xid : Xid
  deriving DecidableEq, Repr

/-- Where a thread is.  `loop` is the head of the `while` in `acquire`; `unlocked` the point
between `ulock.unlock()` and the acquire call, whose number is `id` once it is sent; `flushing`
the call of `dorelease` in `release`. -/
inductive Pc
  | idle
  | loop (lid : LockId)
  | unlocked (lid : LockId)
  | calling (lid : LockId) (id : ℕ)
  | waitRetry (lid : LockId)
  | waiting (lid : LockId)
  | flushing (lid : LockId) (xid : Xid)
  | releasing (lid : LockId)
  deriving DecidableEq, Repr

/-- `holds` lists the locks for which `acquire` has returned and `release` was not called. -/
structure Thread where
  pc : Pc
  holds : List LockId
  deriving DecidableEq, Repr

inductive ReleaserPc
  | idle
  | flushing (e : LockEntry)
  | calling (e : LockEntry)
  deriving DecidableEq, Repr

structure Client (Tid : Type) where
  xid : Xid
  table : LockId → Option ClientLock
  releaseQueue : List LockEntry
  releaser : ReleaserPc
  thread : Tid → Thread

variable {Tid : Type}

def Client.init : Client Tid where
  xid := 0
  table _ := none
  releaseQueue := []
  releaser := .idle
  thread _ :=
    { pc := .idle
      holds := [] }

/-- `lock_table_[lid]`. -/
def Client.lock (k : Client Tid) (lid : LockId) : ClientLock :=
  (k.table lid).getD ClientLock.init

def Client.setLock (k : Client Tid) (lid : LockId) (l : ClientLock) : Client Tid :=
  { k with table := Function.update k.table lid (some l) }

section

variable [DecidableEq Tid]

def Client.setThread (k : Client Tid) (t : Tid) (th : Thread) : Client Tid :=
  { k with thread := Function.update k.thread t th }

def Client.setPc (k : Client Tid) (t : Tid) (pc : Pc) : Client Tid :=
  k.setThread t { k.thread t with pc := pc }

end

/-! ## acquire -/

section

variable [DecidableEq Tid]

def Client.acquire (k : Client Tid) (t : Tid) (lid : LockId) : Option (Client Tid) :=
  if (k.thread t).pc = .idle then some (k.setPc t (.loop lid)) else none

/-- Take the next xid and give up the mutex to call the server. -/
def Client.request (k : Client Tid) (t : Tid) (lid : LockId) : Client Tid :=
  { (k.setLock lid
      { revoked := (k.lock lid).revoked
        retry := false
        state := .acquiring
        xid := k.xid }).setPc t (.unlocked lid) with
    xid := k.xid + 1 }

/-- `acquire` returns `OK`. -/
def Client.take (k : Client Tid) (t : Tid) (lid : LockId) : Client Tid :=
  (k.setLock lid ((k.lock lid).setState .locked)).setThread t
    { pc := .idle
      holds := lid :: (k.thread t).holds }

/-- One pass of the `while`, up to the first point that gives up the mutex. -/
def Client.loop (k : Client Tid) (t : Tid) : Option (Client Tid) :=
  match (k.thread t).pc with
  | .loop lid =>
      let lock := k.lock lid
      match lock.state with
      | .none => some (k.request t lid)
      | .free => some (k.take t lid)
      | .locked => some ((k.setLock lid lock).setPc t (.waiting lid))
      | .acquiring =>
          if lock.retry = false then
            some ((k.setLock lid lock).setPc t (.waiting lid))
          else
            some (k.request t lid)
      | .releasing => some ((k.setLock lid lock).setPc t (.waiting lid))
  | _ => none

/-- The acquire call leaves, with the xid that the entry has by then. -/
def Client.sendAcquire (k : Client Tid) (t : Tid) (id : ℕ) : Option (Client Tid × LockEntry) :=
  match (k.thread t).pc with
  | .unlocked lid =>
      some (k.setPc t (.calling lid id),
        { lid := lid
          xid := (k.lock lid).xid })
  | _ => none

/-- The acquire call returns `ret`. -/
def Client.acquireRet (k : Client Tid) (t : Tid) (ret : Status) : Option (Client Tid) :=
  match (k.thread t).pc with
  | .calling lid _ =>
      match ret with
      | .ok => some (k.take t lid)
      | .retry =>
          if (k.lock lid).retry = false then
            some (k.setPc t (.waitRetry lid))
          else
            some (k.setPc t (.loop lid))
      | _ => some (k.setPc t (.loop lid))
  | _ => none

/-- A wait ends: notified, spuriously, or for `retry_cv_` by its three seconds. -/
def Client.wake (k : Client Tid) (t : Tid) (timeout : Bool) : Option (Client Tid) :=
  match (k.thread t).pc with
  | .waiting lid => some (k.setPc t (.loop lid))
  | .waitRetry lid =>
      if timeout then
        some ((k.setLock lid ((k.lock lid).setRetry true)).setPc t (.loop lid))
      else
        some (k.setPc t (.loop lid))
  | _ => none

end

/-! ## release and releaser -/

section

variable [DecidableEq Tid]

/-- `release` up to `ulock.unlock()` or its return. -/
def Client.release (k : Client Tid) (t : Tid) (lid : LockId) : Option (Client Tid) :=
  if (k.thread t).pc = .idle ∧ lid ∈ (k.thread t).holds then
    let holds := (k.thread t).holds.erase lid
    match k.table lid with
    | none =>
        -- `NOENT`
        some (k.setThread t
          { pc := .idle
            holds := holds })
    | some lock =>
        if lock.revoked then
          some ((k.setLock lid ((lock.setRevoked false).setState .releasing)).setThread t
            { pc := .flushing lid lock.xid
              holds := holds })
        else
          some ((k.setLock lid (lock.setState .free)).setThread t
            { pc := .idle
              holds := holds })
  else
    none

def Client.sendRelease (k : Client Tid) (t : Tid) : Option (Client Tid × LockEntry) :=
  match (k.thread t).pc with
  | .flushing lid xid =>
      some (k.setPc t (.releasing lid),
        { lid := lid
          xid := xid })
  | _ => none

def Client.releaseRet (k : Client Tid) (t : Tid) : Option (Client Tid) :=
  match (k.thread t).pc with
  | .releasing lid => some ((k.setLock lid ((k.lock lid).setState .none)).setPc t .idle)
  | _ => none

def Client.releaserDeq (k : Client Tid) : Option (Client Tid) :=
  match k.releaser, k.releaseQueue with
  | .idle, e :: es =>
      some
        { k with
          releaser := .flushing e
          releaseQueue := es }
  | _, _ => none

def Client.releaserSend (k : Client Tid) : Option (Client Tid × LockEntry) :=
  match k.releaser with
  | .flushing e => some ({ k with releaser := .calling e }, e)
  | _ => none

def Client.releaserRet (k : Client Tid) : Option (Client Tid) :=
  match k.releaser with
  | .calling e =>
      some
        { k.setLock e.lid ((k.lock e.lid).setState .none) with
          releaser := .idle }
  | _ => none

end

/-! ## Messages of the server -/

def Client.enq (k : Client Tid) (e : LockEntry) : Client Tid :=
  { k with releaseQueue := k.releaseQueue ++ [e] }

def Client.revokeHandler (k : Client Tid) (lid : LockId) (xid : Xid) : Client Tid × Status :=
  match k.table lid with
  | none => (k, .rpcerr)
  | some lock =>
      if lock.state = .none then
        (k, .rpcerr)
      else if lock.xid ≠ xid then
        (k, .rpcerr)
      else if lock.state = .free then
        ((k.setLock lid (lock.setState .releasing)).enq
            { lid := lid
              xid := xid },
          .ok)
      else
        (k.setLock lid (lock.setRevoked true), .ok)

def Client.retryHandler (k : Client Tid) (lid : LockId) : Client Tid × Status :=
  match k.table lid with
  | none => (k, .rpcerr)
  | some lock => (k.setLock lid (lock.setRetry true), .ok)

/-! ## Possession -/

def Pc.tokens (lid : LockId) : Pc → ℕ
  | .flushing l _ => if l = lid then 1 else 0
  | _ => 0

def Thread.tokens (lid : LockId) (th : Thread) : ℕ :=
  th.holds.count lid + th.pc.tokens lid

def ReleaserPc.tokens (lid : LockId) : ReleaserPc → ℕ
  | .flushing e => if e.lid = lid then 1 else 0
  | _ => 0

def ClientLock.tokens (l : ClientLock) : ℕ :=
  if l.state = .free then 1 else 0

@[simp] theorem ClientLock.tokens_setRetry (l : ClientLock) (b : Bool) :
    (l.setRetry b).tokens = l.tokens :=
  rfl

@[simp] theorem ClientLock.tokens_setRevoked (l : ClientLock) (b : Bool) :
    (l.setRevoked b).tokens = l.tokens :=
  rfl

@[simp] theorem ClientLock.tokens_setState (l : ClientLock) (st : ClientLockState) :
    (l.setState st).tokens = if st = .free then 1 else 0 :=
  rfl

def queueTokens (lid : LockId) (q : List LockEntry) : ℕ :=
  q.countP fun e => decide (e.lid = lid)

theorem Client.lock_setLock (k : Client Tid) (lid : LockId) (v : ClientLock) (l : LockId) :
    (k.setLock lid v).lock l = if l = lid then v else k.lock l := by
  by_cases h : l = lid
  · simp [Client.lock, Client.setLock, h]
  · simp [Client.lock, Client.setLock, h]

variable [Fintype Tid]

def Client.tokens (k : Client Tid) (lid : LockId) : ℕ :=
  total (Thread.tokens lid) k.thread + (k.lock lid).tokens + queueTokens lid k.releaseQueue +
    k.releaser.tokens lid

theorem Client.tokens_setLock (k : Client Tid) (lid : LockId) (v : ClientLock) (l : LockId) :
    (k.setLock lid v).tokens l + (if l = lid then (k.lock lid).tokens else 0) =
      k.tokens l + (if l = lid then v.tokens else 0) := by
  unfold Client.tokens
  rw [Client.lock_setLock]
  change total (Thread.tokens l) k.thread + _ + queueTokens l k.releaseQueue +
    k.releaser.tokens l + _ = _
  by_cases h : l = lid
  · subst h
    simp only [if_true]
    omega
  · simp only [h, if_false]

/-- A change to an entry that does not make it `FREE`. -/
theorem Client.tokens_setLock_le (k : Client Tid) {lid : LockId} {v : ClientLock}
    (hv : v.tokens ≤ (k.lock lid).tokens) (l : LockId) :
    (k.setLock lid v).tokens l ≤ k.tokens l := by
  have h := k.tokens_setLock lid v l
  split at h <;> omega

theorem Client.tokens_releaserDeq {k k' : Client Tid} (h : k.releaserDeq = some k')
    (l : LockId) : k'.tokens l = k.tokens l := by
  unfold Client.releaserDeq at h
  split at h
  next e es hpc hq =>
    cases h
    simp only [Client.tokens, hpc, hq, ReleaserPc.tokens, queueTokens, List.countP_cons,
      decide_eq_true_eq]
    change _ + (k.lock l).tokens + _ + _ = _
    omega
  next => cases h

theorem Client.tokens_releaserSend {k k' : Client Tid} {e : LockEntry}
    (h : k.releaserSend = some (k', e)) (l : LockId) :
    k'.tokens l + (if e.lid = l then 1 else 0) = k.tokens l := by
  unfold Client.releaserSend at h
  split at h
  next e hpc =>
    cases h
    simp only [Client.tokens, hpc, ReleaserPc.tokens]
    rfl
  next => cases h

theorem Client.tokens_releaserRet_le {k k' : Client Tid} (h : k.releaserRet = some k')
    (l : LockId) : k'.tokens l ≤ k.tokens l := by
  unfold Client.releaserRet at h
  split at h
  next e hpc =>
    have hset : (k.setLock e.lid ((k.lock e.lid).setState .none)).tokens l ≤ k.tokens l :=
      k.tokens_setLock_le (Nat.zero_le _) l
    cases h
    refine le_trans ?_ hset
    exact Nat.add_le_add_left (Nat.zero_le _) _
  next => cases h

theorem Client.tokens_enq (k : Client Tid) (e : LockEntry) (l : LockId) :
    (k.enq e).tokens l = k.tokens l + (if e.lid = l then 1 else 0) := by
  have hqueue : queueTokens l (k.releaseQueue ++ [e]) =
      queueTokens l k.releaseQueue + (if e.lid = l then 1 else 0) := by
    simp [queueTokens, List.countP_append, List.countP_cons]
  simp only [Client.tokens, Client.enq, hqueue]
  change _ + (k.lock l).tokens + _ + _ = _
  omega

/-- A revoked lock that nobody holds moves from the table to the queue. -/
theorem Client.tokens_revokeHandler_le (k : Client Tid) (lid : LockId) (xid : Xid)
    (l : LockId) : (k.revokeHandler lid xid).1.tokens l ≤ k.tokens l := by
  unfold Client.revokeHandler
  split
  · exact le_refl _
  next lock htab =>
    have hlk : k.lock lid = lock := by simp [Client.lock, htab]
    split
    · exact le_refl _
    · split
      · exact le_refl _
      · split
        next hfree =>
          have hlock := k.tokens_setLock lid (lock.setState .releasing) l
          have henq := (k.setLock lid (lock.setState .releasing)).tokens_enq
            { lid := lid
              xid := xid } l
          have hone : lock.tokens = 1 := by simp [ClientLock.tokens, hfree]
          simp only [hlk, hone, ClientLock.tokens_setState, reduceCtorEq, if_false, ite_self,
            eq_comm (a := lid)] at hlock henq
          change ((k.setLock lid (lock.setState .releasing)).enq _).tokens l ≤ _
          omega
        next => exact k.tokens_setLock_le (by simp [hlk]) l

theorem Client.tokens_retryHandler_le (k : Client Tid) (lid l : LockId) :
    (k.retryHandler lid).1.tokens l ≤ k.tokens l := by
  unfold Client.retryHandler
  split
  · exact le_refl _
  next lock htab =>
    have hlk : k.lock lid = lock := by simp [Client.lock, htab]
    exact k.tokens_setLock_le (by simp [hlk]) l

variable [DecidableEq Tid]

theorem Client.tokens_setThread (k : Client Tid) (t : Tid) (th : Thread) (l : LockId) :
    (k.setThread t th).tokens l + (k.thread t).tokens l = k.tokens l + th.tokens l := by
  have htotal := total_update (Thread.tokens l) k.thread t th
  have hlock : (k.setThread t th).lock l = k.lock l := rfl
  simp only [Client.tokens, Client.setThread] at hlock ⊢
  rw [hlock]
  omega

theorem Client.tokens_setLock_setThread (k : Client Tid) (lid : LockId) (v : ClientLock) (t : Tid)
    (th : Thread) (l : LockId) :
    ((k.setLock lid v).setThread t th).tokens l + (if l = lid then (k.lock lid).tokens else 0) +
        (k.thread t).tokens l =
      k.tokens l + (if l = lid then v.tokens else 0) + th.tokens l := by
  have hlock := k.tokens_setLock lid v l
  have hthread := (k.setLock lid v).tokens_setThread t th l
  have hold : (k.setLock lid v).thread t = k.thread t := rfl
  rw [hold] at hthread
  omega

theorem Client.tokens_setPc (k : Client Tid) (t : Tid) (pc : Pc) (l : LockId) :
    (k.setPc t pc).tokens l + (k.thread t).pc.tokens l = k.tokens l + pc.tokens l := by
  have h := k.tokens_setThread t
    { pc := pc
      holds := (k.thread t).holds } l
  simp only [Thread.tokens] at h
  change (k.setThread t
    { pc := pc
      holds := (k.thread t).holds }).tokens l + _ = _
  omega

theorem Client.tokens_setPc_le (k : Client Tid) (t : Tid) {pc : Pc} {l : LockId}
    (hpc : pc.tokens l = 0) : (k.setPc t pc).tokens l ≤ k.tokens l := by
  have h := k.tokens_setPc t pc l
  omega

theorem Client.tokens_request_le (k : Client Tid) (t : Tid) (lid l : LockId) :
    (k.request t lid).tokens l ≤ k.tokens l :=
  calc (k.request t lid).tokens l
      ≤ (k.setLock lid
          { revoked := (k.lock lid).revoked
            retry := false
            state := .acquiring
            xid := k.xid }).tokens l := Client.tokens_setPc_le _ t rfl
    _ ≤ k.tokens l := k.tokens_setLock_le (Nat.zero_le _) l

theorem count_cons_add (l lid : LockId) (holds : List LockId) :
    (lid :: holds).count l = holds.count l + (if l = lid then 1 else 0) := by
  by_cases hl : l = lid
  · subst hl
    rw [List.count_cons_self, if_pos rfl]
  · rw [List.count_cons_of_ne (Ne.symm hl), if_neg hl, Nat.add_zero]

/-- `acquire` returns: the thread now carries the token of the lock, the entry none. -/
theorem Client.tokens_take (k : Client Tid) (t : Tid) (lid l : LockId) :
    (k.take t lid).tokens l + (if l = lid then (k.lock lid).tokens else 0) ≤
      k.tokens l + (if l = lid then 1 else 0) := by
  have h := k.tokens_setLock_setThread lid ((k.lock lid).setState .locked) t
    { pc := .idle
      holds := lid :: (k.thread t).holds } l
  simp only [Thread.tokens, Pc.tokens, count_cons_add, ClientLock.tokens_setState, reduceCtorEq,
    if_false, ite_self] at h
  unfold Client.take
  omega

theorem count_erase_add {l lid : LockId} {holds : List LockId} (h : lid ∈ holds) :
    (holds.erase lid).count l + (if l = lid then 1 else 0) = holds.count l := by
  by_cases hl : l = lid
  · subst hl
    have hpos := List.count_pos_iff.2 h
    rw [List.count_erase_self, if_pos rfl]
    omega
  · rw [List.count_erase_of_ne hl, if_neg hl, Nat.add_zero]

/-- `release` hands the token of the thread to the entry, to the thread's release call, or to
nobody. -/
theorem Client.tokens_release_le {k k' : Client Tid} {t : Tid} {lid : LockId}
    (h : k.release t lid = some k') (l : LockId) : k'.tokens l ≤ k.tokens l := by
  unfold Client.release at h
  split at h
  next hpre =>
    have hcount := count_erase_add (l := l) hpre.2
    cases htab : k.table lid with
    | none =>
        simp only [htab] at h
        rw [← Option.some.inj h]
        have hthread := k.tokens_setThread t
          { pc := .idle
            holds := (k.thread t).holds.erase lid } l
        simp only [Thread.tokens, Pc.tokens] at hthread
        omega
    | some lock =>
        cases hrev : lock.revoked with
        | true =>
            simp only [htab, hrev, if_true] at h
            rw [← Option.some.inj h]
            have hboth := k.tokens_setLock_setThread lid
              ((lock.setRevoked false).setState .releasing) t
              { pc := .flushing lid lock.xid
                holds := (k.thread t).holds.erase lid } l
            simp only [Thread.tokens, Pc.tokens, ClientLock.tokens_setState, reduceCtorEq, if_false,
              ite_self, eq_comm (a := lid)] at hboth
            omega
        | false =>
            simp only [htab, hrev] at h
            rw [← Option.some.inj h]
            have hboth := k.tokens_setLock_setThread lid (lock.setState .free) t
              { pc := .idle
                holds := (k.thread t).holds.erase lid } l
            simp only [Thread.tokens, Pc.tokens, ClientLock.tokens_setState, if_true] at hboth
            omega
  next => cases h

/-- One pass of the `while` in `acquire`. -/
theorem Client.tokens_loop_le {k k' : Client Tid} {t : Tid} (h : k.loop t = some k')
    (l : LockId) : k'.tokens l ≤ k.tokens l := by
  have hwait : ∀ lid, ((k.setLock lid (k.lock lid)).setPc t (.waiting lid)).tokens l ≤
      k.tokens l := by
    intro lid
    exact le_trans (Client.tokens_setPc_le _ t rfl) (k.tokens_setLock_le (le_refl _) l)
  unfold Client.loop at h
  split at h
  next lid hpc =>
    cases hst : (k.lock lid).state with
    | none =>
        simp only [hst, Option.some.injEq] at h
        exact h ▸ k.tokens_request_le t lid l
    | free =>
        simp only [hst, Option.some.injEq] at h
        subst h
        have htake := k.tokens_take t lid l
        simp only [ClientLock.tokens, hst, if_true] at htake
        omega
    | locked =>
        simp only [hst, Option.some.injEq] at h
        exact h ▸ hwait lid
    | acquiring =>
        simp only [hst] at h
        split at h
        · exact Option.some.inj h ▸ hwait lid
        · exact Option.some.inj h ▸ k.tokens_request_le t lid l
    | releasing =>
        simp only [hst, Option.some.injEq] at h
        exact h ▸ hwait lid
  next => cases h

/-- The acquire call comes back: only the answer `OK` brings a token. -/
theorem Client.tokens_acquireRet_le {k k' : Client Tid} {t : Tid} {ret : Status} {lid : LockId}
    {id : ℕ} (hpc : (k.thread t).pc = .calling lid id) (h : k.acquireRet t ret = some k')
    (l : LockId) :
    k'.tokens l ≤ k.tokens l + (if ret = .ok ∧ l = lid then 1 else 0) := by
  have hloop : (k.setPc t (.loop lid)).tokens l ≤ k.tokens l := k.tokens_setPc_le t rfl
  unfold Client.acquireRet at h
  rw [hpc] at h
  cases ret with
  | ok =>
      simp only [Option.some.injEq] at h
      subst h
      have htake := k.tokens_take t lid l
      simp only [true_and]
      omega
  | retry =>
      simp only [reduceCtorEq, false_and, if_false] at h ⊢
      split at h
      · exact Option.some.inj h ▸ k.tokens_setPc_le t rfl
      · exact Option.some.inj h ▸ hloop
  | rpcerr | noent | ioerr => exact Option.some.inj h ▸ hloop

theorem Client.tokens_wake_le {k k' : Client Tid} {t : Tid} {timeout : Bool}
    (h : k.wake t timeout = some k') (l : LockId) : k'.tokens l ≤ k.tokens l := by
  unfold Client.wake at h
  split at h
  · exact Option.some.inj h ▸ k.tokens_setPc_le t rfl
  · split at h
    next lid _ _ =>
      rw [← Option.some.inj h]
      exact le_trans (Client.tokens_setPc_le _ t rfl) (k.tokens_setLock_le (by simp) l)
    next => exact Option.some.inj h ▸ k.tokens_setPc_le t rfl
  · cases h

/-- The release that a thread sends carries the thread's token away. -/
theorem Client.tokens_sendRelease {k k' : Client Tid} {t : Tid} {e : LockEntry}
    (h : k.sendRelease t = some (k', e)) (l : LockId) :
    k'.tokens l + (if e.lid = l then 1 else 0) = k.tokens l := by
  unfold Client.sendRelease at h
  split at h
  next lid xid hpc =>
    cases h
    have hset := k.tokens_setPc t (.releasing lid) l
    rw [hpc] at hset
    simpa only [Pc.tokens, Nat.add_zero] using hset
  next => cases h

theorem Client.tokens_releaseRet_le {k k' : Client Tid} {t : Tid}
    (h : k.releaseRet t = some k') (l : LockId) : k'.tokens l ≤ k.tokens l := by
  unfold Client.releaseRet at h
  split at h
  · rw [← Option.some.inj h]
    exact le_trans (Client.tokens_setPc_le _ t rfl) (k.tokens_setLock_le (Nat.zero_le _) l)
  · cases h

end Lock
end Yfs

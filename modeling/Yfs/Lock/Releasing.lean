import Yfs.Lib.Run
import Yfs.Lock.Client

/-!
# Releasing — `lock_client_cache`, the client without an rsm

Here there is no thread that sends releases: `release` does it itself for a lock that was revoked,
and so does `revoke_handler` for a lock that nobody holds.  Both put the lock in state `RELEASING`,
give up the mutex for `dorelease` and the RPC, and put it in state `NONE` when the RPC returns;
`acquire` waits on `release_cv_` in between.

* `cacheStep` — the four functions, cut where the mutex is given up, run by any threads on any
  locks;
* `releasing_owned` — a lock in state `RELEASING` has a thread in one of the two sections, as long
  as the release RPC of `revoke_handler` does not fail.

`revoke_handler` returns early when it does, and leaves the state as it is; `release` does not.
-/

namespace Yfs
namespace Lock

open Lib

structure CacheLock where
  revoked : Bool
  retry : Bool
  state : ClientLockState
  deriving DecidableEq, Repr

def CacheLock.init : CacheLock where
  revoked := false
  retry := false
  state := .none

def CacheLock.setState (l : CacheLock) (state : ClientLockState) : CacheLock :=
  { l with state := state }

@[simp] theorem CacheLock.state_setState (l : CacheLock) (state : ClientLockState) :
    (l.setState state).state = state :=
  rfl

/-- Where a thread is. -/
inductive CachePc
  /-- In none of the functions; `ret` is what the last one returned. -/
  | idle (ret : Status)
  /-- At the head of the `while` in `acquire`. -/
  | loop (lid : LockId)
  /-- Before `retry_ = false`, which `acquire` does without the mutex. -/
  | unlocked (lid : LockId)
  /-- In the acquire RPC. -/
  | calling (lid : LockId)
  | waitRetry (lid : LockId)
  | waiting (lid : LockId)
  /-- On `release_cv_`. -/
  | waitRelease (lid : LockId)
  /-- In `dorelease` or the RPC of `release`. -/
  | releasing (lid : LockId)
  /-- In `dorelease` or the RPC of `revoke_handler`. -/
  | revoking (lid : LockId)
  deriving DecidableEq, Repr

/-- Where a thread is after `release_cv_.notify_all()`. -/
def CachePc.notified : CachePc → CachePc
  | .waitRelease lid => .loop lid
  | p => p

structure CacheClient (Tid : Type) where
  table : LockId → Option CacheLock
  pc : Tid → CachePc

variable {Tid : Type}

namespace CacheClient

def init : CacheClient Tid where
  table _ := none
  pc _ := .idle .ok

/-- `lock_table_[lid]`; entries are never taken out of the table. -/
def lock (s : CacheClient Tid) (lid : LockId) : CacheLock :=
  (s.table lid).getD CacheLock.init

def setLock (s : CacheClient Tid) (lid : LockId) (l : CacheLock) : CacheClient Tid :=
  { s with table := Function.update s.table lid (some l) }

variable [DecidableEq Tid]

def setPc (s : CacheClient Tid) (t : Tid) (p : CachePc) : CacheClient Tid :=
  { s with pc := Function.update s.pc t p }

/-- `release_cv_.notify_all()`; the condition variable is the same for all locks. -/
def notifyRelease (s : CacheClient Tid) : CacheClient Tid :=
  { s with pc := fun t => (s.pc t).notified }

/-! ## acquire -/

def acquire (s : CacheClient Tid) (t : Tid) (lid : LockId) : Option (CacheClient Tid) :=
  match s.pc t with
  | .idle _ => some ((s.setLock lid (s.lock lid)).setPc t (.loop lid))
  | _ => none

/-- One pass of the `while`, up to the first point that gives up the mutex. -/
def loop (s : CacheClient Tid) (t : Tid) : Option (CacheClient Tid) :=
  match s.pc t with
  | .loop lid =>
      match (s.lock lid).state with
      | .none =>
          some ((s.setLock lid
            { revoked := (s.lock lid).revoked
              retry := false
              state := .acquiring }).setPc t (.calling lid))
      | .free => some ((s.setLock lid ((s.lock lid).setState .locked)).setPc t (.idle .ok))
      | .locked => some (s.setPc t (.waiting lid))
      | .acquiring =>
          if (s.lock lid).retry then
            -- this thread asks as well, and the state stays
            some (s.setPc t (.unlocked lid))
          else
            some (s.setPc t (.waiting lid))
      | .releasing => some (s.setPc t (.waitRelease lid))
  | _ => none

/-- `retry_ = false` after `ulock.unlock()`. -/
def clearRetry (s : CacheClient Tid) (t : Tid) : Option (CacheClient Tid) :=
  match s.pc t with
  | .unlocked lid =>
      some ((s.setLock lid { s.lock lid with retry := false }).setPc t (.calling lid))
  | _ => none

/-- A wait ends, notified or not. -/
def wake (s : CacheClient Tid) (t : Tid) : Option (CacheClient Tid) :=
  match s.pc t with
  | .waitRetry lid => some (s.setPc t (.loop lid))
  | .waiting lid => some (s.setPc t (.loop lid))
  | .waitRelease lid => some (s.setPc t (.loop lid))
  | _ => none

/-! ## release and the handlers -/

/-- `release` up to `ulock.unlock()` or its return.  Nothing asks whether the thread holds the
lock. -/
def release (s : CacheClient Tid) (t : Tid) (lid : LockId) : Option (CacheClient Tid) :=
  match s.pc t with
  | .idle _ =>
      match s.table lid with
      | none => some (s.setPc t (.idle .noent))
      | some l =>
          if l.revoked then
            some ((s.setLock lid
              { revoked := false
                retry := l.retry
                state := .releasing }).setPc t (.releasing lid))
          else
            some ((s.setLock lid (l.setState .free)).setPc t (.idle .ok))
  | _ => none

def revokeHandler (s : CacheClient Tid) (t : Tid) (lid : LockId) : Option (CacheClient Tid) :=
  match s.pc t with
  | .idle _ =>
      match s.table lid with
      | none => some (s.setPc t (.idle .rpcerr))
      | some l =>
          if l.state = .none then
            some (s.setPc t (.idle .rpcerr))
          else if l.state = .free then
            some ((s.setLock lid (l.setState .releasing)).setPc t (.revoking lid))
          else
            some ((s.setLock lid { l with revoked := true }).setPc t (.idle .ok))
  | _ => none

def retryHandler (s : CacheClient Tid) (t : Tid) (lid : LockId) : Option (CacheClient Tid) :=
  match s.pc t with
  | .idle _ =>
      match s.table lid with
      | none => some (s.setPc t (.idle .rpcerr))
      | some l => some ((s.setLock lid { l with retry := true }).setPc t (.idle .ok))
  | _ => none

/-- The end of the release RPC in `release` and, if it returned `OK`, in `revoke_handler`. -/
def released (s : CacheClient Tid) (t : Tid) (lid : LockId) (ret : Status) : CacheClient Tid :=
  ((s.setLock lid ((s.lock lid).setState .none)).setPc t (.idle ret)).notifyRelease

/-- The RPC in which the thread is returns `ret`. -/
def rpcRet (s : CacheClient Tid) (t : Tid) (ret : Status) : Option (CacheClient Tid) :=
  match s.pc t with
  | .calling lid =>
      match ret with
      | .ok => some ((s.setLock lid ((s.lock lid).setState .locked)).setPc t (.idle .ok))
      | .retry =>
          if (s.lock lid).retry then
            some (s.setPc t (.loop lid))
          else
            some (s.setPc t (.waitRetry lid))
      -- the state is still `ACQUIRING`
      | _ => some (s.setPc t (.loop lid))
  | .releasing lid => some (s.released t lid ret)
  | .revoking lid =>
      -- the state stays `RELEASING`, and nobody is notified
      if ret ≠ .ok then
        some (s.setPc t (.idle .rpcerr))
      else
        some (s.released t lid .ok)
  | _ => none

end CacheClient

/-! ## Runs -/

inductive CacheAction (Tid : Type)
  | acquire (t : Tid) (lid : LockId)
  | loop (t : Tid)
  | clearRetry (t : Tid)
  | wake (t : Tid)
  | release (t : Tid) (lid : LockId)
  | revokeHandler (t : Tid) (lid : LockId)
  | retryHandler (t : Tid) (lid : LockId)
  | rpcRet (t : Tid) (ret : Status)

section

variable [DecidableEq Tid]

def cacheStep (s : CacheClient Tid) : CacheAction Tid → Option (CacheClient Tid)
  | .acquire t lid => s.acquire t lid
  | .loop t => s.loop t
  | .clearRetry t => s.clearRetry t
  | .wake t => s.wake t
  | .release t lid => s.release t lid
  | .revokeHandler t lid => s.revokeHandler t lid
  | .retryHandler t lid => s.retryHandler t lid
  | .rpcRet t ret => s.rpcRet t ret

def CacheInit (s : CacheClient Tid) : Prop :=
  s = .init

def CachePc.isRevoking : CachePc → Bool
  | .revoking _ => true
  | _ => false

/-- The release RPC of `revoke_handler` returns `OK`. -/
def RevokeReleases (s : CacheClient Tid) : CacheAction Tid → Prop
  | .rpcRet t ret => (s.pc t).isRevoking = true → ret = .ok
  | _ => True

instance (s : CacheClient Tid) : ∀ a, Decidable (RevokeReleases s a)
  | .rpcRet t ret => inferInstanceAs (Decidable ((s.pc t).isRevoking = true → ret = .ok))
  | .acquire _ _ => isTrue trivial
  | .loop _ => isTrue trivial
  | .clearRetry _ => isTrue trivial
  | .wake _ => isTrue trivial
  | .release _ _ => isTrue trivial
  | .revokeHandler _ _ => isTrue trivial
  | .retryHandler _ _ => isTrue trivial

end

/-! ## Owners -/

/-- The thread is in the release section of `release` or `revoke_handler` for the lock. -/
def CachePc.Owns (lid : LockId) : CachePc → Prop
  | .releasing l => l = lid
  | .revoking l => l = lid
  | _ => False

instance decidableCacheOwns (lid : LockId) : ∀ p : CachePc, Decidable (p.Owns lid)
  | .releasing l => inferInstanceAs (Decidable (l = lid))
  | .revoking l => inferInstanceAs (Decidable (l = lid))
  | .idle _ => isFalse id
  | .loop _ => isFalse id
  | .unlocked _ => isFalse id
  | .calling _ => isFalse id
  | .waitRetry _ => isFalse id
  | .waiting _ => isFalse id
  | .waitRelease _ => isFalse id

namespace CacheClient

def Owned (s : CacheClient Tid) : Prop :=
  ∀ lid, (s.lock lid).state = .releasing → ∃ t, (s.pc t).Owns lid

variable {s s' : CacheClient Tid} {t : Tid} {lid : LockId} {p : CachePc}

@[simp] theorem lock_setLock_self (s : CacheClient Tid) (lid : LockId) (l : CacheLock) :
    (s.setLock lid l).lock lid = l := by
  simp [lock, setLock]

theorem lock_setLock_of_ne (s : CacheClient Tid) {i : LockId} (l : CacheLock) (h : i ≠ lid) :
    (s.setLock lid l).lock i = s.lock i := by
  simp [lock, setLock, h]

theorem lock_of_table {l : CacheLock} (h : s.table lid = some l) : s.lock lid = l := by
  rw [lock, h]
  rfl

theorem owns_notified (h : p.Owns lid) : p.notified.Owns lid := by
  cases p <;> exact h

theorem Owned.notifyRelease (h : s.Owned) : s.notifyRelease.Owned := by
  intro i hi
  rcases h i hi with ⟨t, ht⟩
  exact ⟨t, owns_notified ht⟩

variable [DecidableEq Tid]

theorem pc_setPc_self (s : CacheClient Tid) (t : Tid) (p : CachePc) :
    (s.setPc t p).pc t = p := by
  simp [setPc]

theorem pc_setPc_of_ne (s : CacheClient Tid) {t t' : Tid} (h : t' ≠ t) (p : CachePc) :
    (s.setPc t p).pc t' = s.pc t' := by
  simp [setPc, h]

/-- A thread moves that was in no release section. -/
theorem Owned.setPc (h : s.Owned) (hnot : ∀ i, ¬ (s.pc t).Owns i) : (s.setPc t p).Owned := by
  intro i hi
  rcases h i hi with ⟨t', ht'⟩
  have hne : t' ≠ t := fun heq => hnot i (heq ▸ ht')
  exact ⟨t', by rwa [pc_setPc_of_ne s hne]⟩

/-- A thread writes the lock and moves.  When the new state is `RELEASING` the thread is in the
release section, or the state was `RELEASING` before and the thread not. -/
theorem Owned.write (h : s.Owned) {l : CacheLock} (hother : ∀ i, (s.pc t).Owns i → i = lid)
    (hl : l.state = .releasing →
      p.Owns lid ∨ ((s.lock lid).state = .releasing ∧ ¬ (s.pc t).Owns lid)) :
    ((s.setLock lid l).setPc t p).Owned := by
  intro i hi
  have hkeep : ∀ t', (s.pc t').Owns i → ¬ (s.pc t).Owns i →
      ∃ t'', (((s.setLock lid l).setPc t p).pc t'').Owns i := by
    intro t' ht' hnot
    have hne : t' ≠ t := fun heq => hnot (heq ▸ ht')
    exact ⟨t', by rwa [pc_setPc_of_ne _ hne]⟩
  -- for the lock that is written the hypothesis decides; the owners of the others stay
  by_cases hne : i = lid
  · subst hne
    have hstate : l.state = .releasing := by
      rw [← lock_setLock_self s i l]
      exact hi
    rcases hl hstate with hp | ⟨hold, hnot⟩
    · exact ⟨t, by rwa [pc_setPc_self]⟩
    · rcases h i hold with ⟨t', ht'⟩
      exact hkeep t' ht' hnot
  · have hold : (s.lock i).state = .releasing := by
      rw [← lock_setLock_of_ne s l hne]
      exact hi
    rcases h i hold with ⟨t', ht'⟩
    exact hkeep t' ht' fun hown => hne (hother i hown)

theorem notified_ne (p : CachePc) (lid : LockId) : p.notified ≠ .waitRelease lid := by
  cases p <;> exact fun h => nomatch h

/-- A thread that is in no release section writes the lock without making it `RELEASING`. -/
theorem Owned.writeOutside (h : s.Owned) {l : CacheLock} (hnot : ∀ i, ¬ (s.pc t).Owns i)
    (hl : l.state = .releasing → (s.lock lid).state = .releasing) :
    ((s.setLock lid l).setPc t p).Owned :=
  h.write (fun i hi => absurd hi (hnot i)) fun hst => .inr ⟨hl hst, hnot lid⟩

theorem Owned.released (h : s.Owned) (hother : ∀ i, (s.pc t).Owns i → i = lid) (ret : Status) :
    (s.released t lid ret).Owned :=
  (h.write hother fun hst => by simp at hst).notifyRelease

theorem Owned.acquire (h : s.Owned) (hstep : s.acquire t lid = some s') : s'.Owned := by
  unfold CacheClient.acquire at hstep
  split at hstep
  · rename_i ret hpc
    cases hstep
    exact h.writeOutside (by rw [hpc]; exact fun _ => id) id
  · cases hstep

theorem Owned.loop (h : s.Owned) (hstep : s.loop t = some s') : s'.Owned := by
  unfold CacheClient.loop at hstep
  split at hstep
  · rename_i lid hpc
    have hnot : ∀ i, ¬ (s.pc t).Owns i := by rw [hpc]; exact fun _ => id
    split at hstep
    · cases hstep
      exact h.writeOutside hnot fun hst => by simp at hst
    · cases hstep
      exact h.writeOutside hnot fun hst => by simp at hst
    · cases hstep
      exact h.setPc hnot
    · split at hstep <;> cases hstep <;> exact h.setPc hnot
    · cases hstep
      exact h.setPc hnot
  · cases hstep

theorem Owned.clearRetry (h : s.Owned) (hstep : s.clearRetry t = some s') : s'.Owned := by
  unfold CacheClient.clearRetry at hstep
  split at hstep
  · rename_i lid hpc
    cases hstep
    exact h.writeOutside (by rw [hpc]; exact fun _ => id) id
  · cases hstep

theorem Owned.wake (h : s.Owned) (hstep : s.wake t = some s') : s'.Owned := by
  unfold CacheClient.wake at hstep
  split at hstep
  · rename_i lid hpc
    cases hstep
    exact h.setPc (by rw [hpc]; exact fun _ => id)
  · rename_i lid hpc
    cases hstep
    exact h.setPc (by rw [hpc]; exact fun _ => id)
  · rename_i lid hpc
    cases hstep
    exact h.setPc (by rw [hpc]; exact fun _ => id)
  · cases hstep

theorem Owned.release (h : s.Owned) (hstep : s.release t lid = some s') : s'.Owned := by
  unfold CacheClient.release at hstep
  split at hstep
  · rename_i ret hpc
    have hnot : ∀ i, ¬ (s.pc t).Owns i := by rw [hpc]; exact fun _ => id
    split at hstep
    · cases hstep
      exact h.setPc hnot
    · split at hstep
      · cases hstep
        exact h.write (fun i hi => absurd hi (hnot i)) fun _ => .inl rfl
      · cases hstep
        exact h.writeOutside hnot fun hst => by simp at hst
  · cases hstep

theorem Owned.revokeHandler (h : s.Owned) (hstep : s.revokeHandler t lid = some s') :
    s'.Owned := by
  unfold CacheClient.revokeHandler at hstep
  split at hstep
  · rename_i ret hpc
    have hnot : ∀ i, ¬ (s.pc t).Owns i := by rw [hpc]; exact fun _ => id
    split at hstep
    · cases hstep
      exact h.setPc hnot
    · rename_i l hl
      split at hstep
      · cases hstep
        exact h.setPc hnot
      · split at hstep
        · cases hstep
          exact h.write (fun i hi => absurd hi (hnot i)) fun _ => .inl rfl
        · cases hstep
          refine h.writeOutside hnot fun hst => ?_
          rw [lock_of_table hl]
          exact hst
  · cases hstep

theorem Owned.retryHandler (h : s.Owned) (hstep : s.retryHandler t lid = some s') :
    s'.Owned := by
  unfold CacheClient.retryHandler at hstep
  split at hstep
  · rename_i ret hpc
    have hnot : ∀ i, ¬ (s.pc t).Owns i := by rw [hpc]; exact fun _ => id
    split at hstep
    · cases hstep
      exact h.setPc hnot
    · rename_i l hl
      cases hstep
      refine h.writeOutside hnot fun hst => ?_
      rw [lock_of_table hl]
      exact hst
  · cases hstep

theorem Owned.rpcRet {ret : Status} (h : s.Owned)
    (hok : (s.pc t).isRevoking = true → ret = .ok) (hstep : s.rpcRet t ret = some s') :
    s'.Owned := by
  unfold CacheClient.rpcRet at hstep
  split at hstep
  · rename_i lid hpc
    have hnot : ∀ i, ¬ (s.pc t).Owns i := by rw [hpc]; exact fun _ => id
    split at hstep
    · cases hstep
      exact h.writeOutside hnot fun hst => by simp at hst
    · split at hstep <;> cases hstep <;> exact h.setPc hnot
    · cases hstep
      exact h.setPc hnot
  · rename_i lid hpc
    cases hstep
    exact h.released (by rw [hpc]; exact fun i hi => hi.symm) ret
  · -- the early return of `revoke_handler` is what the guard excludes
    rename_i lid hpc
    have hret : ret = .ok := hok (by rw [hpc]; rfl)
    rw [if_neg (not_not.mpr hret)] at hstep
    cases hstep
    exact h.released (by rw [hpc]; exact fun i hi => hi.symm) .ok
  · cases hstep

theorem Owned.step {a : CacheAction Tid} (h : s.Owned) (hok : RevokeReleases s a)
    (hstep : cacheStep s a = some s') : s'.Owned := by
  cases a with
  | acquire t lid => exact h.acquire hstep
  | loop t => exact h.loop hstep
  | clearRetry t => exact h.clearRetry hstep
  | wake t => exact h.wake hstep
  | release t lid => exact h.release hstep
  | revokeHandler t lid => exact h.revokeHandler hstep
  | retryHandler t lid => exact h.retryHandler hstep
  | rpcRet t ret => exact h.rpcRet hok hstep

/-- When the RPC of an owner returns the lock is in state `NONE`, and nobody waits on
`release_cv_`. -/
theorem rpcRet_of_owns (hown : (s.pc t).Owns lid) {ret : Status}
    (hok : (s.pc t).isRevoking = true → ret = .ok) :
    ∃ s', s.rpcRet t ret = some s' ∧ (s'.lock lid).state = .none ∧
      ∀ t' i, s'.pc t' ≠ .waitRelease i := by
  have hreleased : ∀ r, ((s.released t lid r).lock lid).state = .none ∧
      ∀ t' i, (s.released t lid r).pc t' ≠ .waitRelease i := by
    intro r
    exact ⟨congrArg CacheLock.state (lock_setLock_self s lid _), fun t' i => notified_ne _ i⟩
  unfold CacheClient.rpcRet
  cases hpc : s.pc t with
  | releasing l =>
      rw [hpc] at hown
      obtain rfl : l = lid := hown
      exact ⟨_, rfl, hreleased ret⟩
  | revoking l =>
      rw [hpc] at hown
      obtain rfl : l = lid := hown
      have hret : ret = .ok := hok (by rw [hpc]; rfl)
      exact ⟨_, if_neg (not_not.mpr hret), hreleased .ok⟩
  | _ =>
      rw [hpc] at hown
      exact hown.elim

end CacheClient

variable [DecidableEq Tid]

/-- As long as no release RPC of `revoke_handler` fails: a lock in state `RELEASING` has a thread
in the release section of `release` or `revoke_handler`, and when that thread's RPC returns the
state is `NONE` and every thread that waited on `release_cv_` is awake. -/
theorem releasing_owned {s : CacheClient Tid}
    (h : Reach CacheInit cacheStep RevokeReleases s) (lid : LockId)
    (hst : (s.lock lid).state = .releasing) :
    ∃ t, (s.pc t = .releasing lid ∨ s.pc t = .revoking lid) ∧
      ∀ ret, RevokeReleases s (.rpcRet t ret) →
        ∃ s', cacheStep s (.rpcRet t ret) = some s' ∧ (s'.lock lid).state = .none ∧
          ∀ t' i, s'.pc t' ≠ .waitRelease i := by
  have howned : s.Owned := by
    refine Reach.invariant (I := CacheClient.Owned) ?_ (fun s a t hs hok hst => hs.step hok hst) h
    rintro s rfl lid hlid
    exact nomatch hlid
  rcases howned lid hst with ⟨t, ht⟩
  refine ⟨t, ?_, fun ret hok => CacheClient.rpcRet_of_owns ht hok⟩
  cases hpc : s.pc t with
  | releasing l =>
      rw [hpc] at ht
      exact .inl (congrArg _ ht)
  | revoking l =>
      rw [hpc] at ht
      exact .inr (congrArg _ ht)
  | _ =>
      rw [hpc] at ht
      exact ht.elim

/-- Thread 0 acquires and releases the lock 1, which is then revoked; thread 1 calls `acquire` for
it in the meantime. -/
def revokedActions : List (CacheAction (Fin 2)) :=
  [.acquire 0 1, .loop 0, .rpcRet 0 .ok, .release 0 1, .revokeHandler 0 1, .acquire 1 1, .loop 1]

theorem releasing_owned_revoked :
    ∃ s : CacheClient (Fin 2), Reach CacheInit cacheStep RevokeReleases s ∧
      (s.lock 1).state = .releasing ∧ s.pc 1 = .waitRelease 1 ∧
      ∃ t, s.pc t = .releasing 1 ∨ s.pc t = .revoking 1 := by
  obtain ⟨s, hreach, hst, hpc⟩ :
      ∃ s : CacheClient (Fin 2), Reach CacheInit cacheStep RevokeReleases s ∧
        (s.lock 1).state = .releasing ∧ s.pc 1 = .waitRelease 1 :=
    Reach.exists_of_runFrom
      (P := fun s : CacheClient (Fin 2) => (s.lock 1).state = .releasing ∧
        s.pc 1 = .waitRelease 1)
      revokedActions rfl (by decide +kernel)
  rcases releasing_owned hreach 1 hst with ⟨t, ht, -⟩
  exact ⟨s, hreach, hst, hpc, t, ht⟩

/-- The release RPC fails: `revoke_handler` returns, thread 1 waits, and no thread is left that
would take the lock out of state `RELEASING`. -/
theorem releasing_abandoned :
    ∃ s : CacheClient (Fin 2), Reach CacheInit cacheStep anyStep s ∧
      (s.lock 1).state = .releasing ∧ s.pc 0 = .idle .rpcerr ∧ s.pc 1 = .waitRelease 1 ∧
      ∀ t, ¬ (s.pc t).Owns 1 :=
  Reach.exists_of_runFrom
    (P := fun s : CacheClient (Fin 2) => (s.lock 1).state = .releasing ∧
      s.pc 0 = .idle .rpcerr ∧ s.pc 1 = .waitRelease 1 ∧ ∀ t, ¬ (s.pc t).Owns 1)
    (revokedActions ++ [.rpcRet 0 .rpcerr]) rfl (by decide +kernel)

end Lock
end Yfs

import Yfs.Lock.Client

/-!
# Phase — what a client is doing with a lock

A client is busy with a lock in at most one way: one thread asks the server for it, one thread
holds it, or one release is decided and then under way.  `state_` says which (`Phased`).  This
holds as long as a thread that finds `ACQUIRING` with `retry_` set does not ask while another
thread of the client is still asking (`Client.Alone`): the source has no such check, and the second
request overwrites `xid_`.

Each function of the client moves one unit from one `Part` to another (`Moves`); `Phased`, the
possession of a lock (`Client.Has`) and the xids of the decided releases (`Client.Named`) follow
from that.
-/

namespace Yfs
namespace Lock

open Lib

/-- The ways to be busy with a lock.  `unsent` is a release that is decided, `sent` one whose call
has not returned. -/
inductive Part
  | asking
  | holding
  | unsent
  | sent
  deriving DecidableEq

/-- One unit at the part `o` of the lock `lid`, as seen at `p` and `l`. -/
def unit (lid : LockId) (o : Option Part) (p : Part) (l : LockId) : ℕ :=
  if o = some p ∧ l = lid then 1 else 0

@[simp] theorem unit_none (lid : LockId) (p : Part) (l : LockId) : unit lid none p l = 0 := by
  simp [unit]

def Pc.load (l : LockId) (p : Part) : Pc → ℕ
  | .unlocked lid => unit lid (some .asking) p l
  | .calling lid _ => unit lid (some .asking) p l
  | .flushing lid _ => unit lid (some .unsent) p l
  | .releasing lid => unit lid (some .sent) p l
  | _ => 0

def Thread.load (l : LockId) (p : Part) (th : Thread) : ℕ :=
  (if p = .holding then th.holds.count l else 0) + th.pc.load l p

def ReleaserPc.load (l : LockId) (p : Part) : ReleaserPc → ℕ
  | .idle => 0
  | .flushing e => unit e.lid (some .unsent) p l
  | .calling e => unit e.lid (some .sent) p l

variable {Tid : Type}

section

variable [DecidableEq Tid] [Fintype Tid]

def Client.load (k : Client Tid) (p : Part) (lid : LockId) : ℕ :=
  total (Thread.load lid p) k.thread + k.releaser.load lid p +
    if p = .unsent then queueTokens lid k.releaseQueue else 0

/-- The loads that a state of the lock allows. -/
def Fits (load : Part → ℕ) : ClientLockState → Prop
  | .none => load .asking = 0 ∧ load .holding = 0 ∧ load .unsent = 0 ∧ load .sent = 0
  | .free => load .asking = 0 ∧ load .holding = 0 ∧ load .unsent = 0 ∧ load .sent = 0
  | .locked => load .asking = 0 ∧ load .holding = 1 ∧ load .unsent = 0 ∧ load .sent = 0
  | .acquiring => load .asking ≤ 1 ∧ load .holding = 0 ∧ load .unsent = 0 ∧ load .sent = 0
  | .releasing => load .asking = 0 ∧ load .holding = 0 ∧ load .unsent + load .sent = 1

def Client.Phased (k : Client Tid) : Prop :=
  ∀ lid, Fits (fun p => k.load p lid) (k.lock lid).state

/-- The client has the lock and has not sent its release. -/
def Client.Has (k : Client Tid) (lid : LockId) : Prop :=
  (k.lock lid).state = .free ∨ 0 < k.load .holding lid ∨ 0 < k.load .unsent lid

/-- No thread of the client is asking for the lock. -/
def Client.Alone (k : Client Tid) (lid : LockId) : Prop :=
  k.load .asking lid = 0

instance (k : Client Tid) (lid : LockId) : Decidable (k.Alone lid) :=
  inferInstanceAs (Decidable (_ = _))

end

/-! ## Moving one unit -/

section

variable [Fintype Tid]

/-- `k'` has one unit less at `src` and one more at `dst` than `k`, both of the lock `lid`, whose
state is `st` now; nothing of another lock has changed. -/
structure Moves (k k' : Client Tid) (lid : LockId) (src dst : Option Part)
    (st : ClientLockState) : Prop where
  state : ∀ l, (k'.lock l).state = if l = lid then st else (k.lock l).state
  load : ∀ p l, k'.load p l + unit lid src p l = k.load p l + unit lid dst p l

theorem Client.load_setLock (k : Client Tid) (lid : LockId) (v : ClientLock) (p : Part)
    (l : LockId) : (k.setLock lid v).load p l = k.load p l :=
  rfl

/-- An entry that changes while every thread stays. -/
theorem Moves.setLock (k : Client Tid) (lid : LockId) (v : ClientLock) :
    Moves k (k.setLock lid v) lid none none v.state where
  state l := by
    rw [Client.lock_setLock]
    split <;> rfl
  load p l := by
    rw [Client.load_setLock]

/-- A move keeps the phases if the new state of its lock allows the new loads. -/
theorem Moves.phased {k k' : Client Tid} {lid : LockId} {src dst : Option Part}
    {st : ClientLockState} (h : Moves k k' lid src dst st) (hk : k.Phased)
    (hfit : Fits (fun p => k'.load p lid) st) : k'.Phased := by
  intro l
  rw [h.state]
  by_cases hl : l = lid
  · subst hl
    rw [if_pos rfl]
    exact hfit
  · have hsame : (fun p => k'.load p l) = fun p => k.load p l := by
      funext p
      have := h.load p l
      simp only [unit, hl, and_false, if_false] at this
      omega
    rw [if_neg hl, hsame]
    exact hk l

/-- The load of the lock at one part after a move. -/
theorem Moves.self {k k' : Client Tid} {lid : LockId} {src dst : Option Part}
    {st : ClientLockState} (h : Moves k k' lid src dst st) (p : Part) :
    k'.load p lid + (if src = some p then 1 else 0) =
      k.load p lid + (if dst = some p then 1 else 0) := by
  simpa [unit] using h.load p lid

/-- The same for every part. -/
theorem Moves.parts {k k' : Client Tid} {lid : LockId} {src dst : Option Part}
    {st : ClientLockState} (h : Moves k k' lid src dst st) :
    k'.load .asking lid + (if src = some .asking then 1 else 0) =
        k.load .asking lid + (if dst = some .asking then 1 else 0) ∧
      k'.load .holding lid + (if src = some .holding then 1 else 0) =
        k.load .holding lid + (if dst = some .holding then 1 else 0) ∧
      k'.load .unsent lid + (if src = some .unsent then 1 else 0) =
        k.load .unsent lid + (if dst = some .unsent then 1 else 0) ∧
      k'.load .sent lid + (if src = some .sent then 1 else 0) =
        k.load .sent lid + (if dst = some .sent then 1 else 0) :=
  ⟨h.self .asking, h.self .holding, h.self .unsent, h.self .sent⟩

theorem Moves.has_iff_of_ne {k k' : Client Tid} {lid l : LockId} {src dst : Option Part}
    {st : ClientLockState} (h : Moves k k' lid src dst st) (hl : l ≠ lid) :
    k'.Has l ↔ k.Has l := by
  have hload : ∀ p, k'.load p l = k.load p l := by
    intro p
    have := h.load p l
    simp only [unit, hl, and_false, if_false] at this
    omega
  simp only [Client.Has, h.state, hl, if_false, hload]

variable [DecidableEq Tid]

theorem Client.load_setThread (k : Client Tid) (t : Tid) (th : Thread) (p : Part) (l : LockId) :
    (k.setThread t th).load p l + (k.thread t).load l p = k.load p l + th.load l p := by
  have htotal := total_update (Thread.load l p) k.thread t th
  simp only [Client.load, Client.setThread]
  omega

theorem Client.load_setPc (k : Client Tid) (t : Tid) (pc : Pc) (p : Part) (l : LockId) :
    (k.setPc t pc).load p l + (k.thread t).pc.load l p = k.load p l + pc.load l p := by
  have h : (k.setPc t pc).load p l + (k.thread t).load l p = k.load p l + _ :=
    k.load_setThread t { k.thread t with pc := pc } p l
  simp only [Thread.load] at h
  omega

/-- A new entry and a new place of a thread. -/
theorem Moves.setLock_setThread {k : Client Tid} {lid : LockId} {t : Tid} {th : Thread}
    {src dst : Option Part} (v : ClientLock)
    (hth : ∀ p l, th.load l p + unit lid src p l = (k.thread t).load l p + unit lid dst p l) :
    Moves k ((k.setLock lid v).setThread t th) lid src dst v.state where
  state l := by
    have hlock : ((k.setLock lid v).setThread t th).lock l = (k.setLock lid v).lock l := rfl
    rw [hlock, Client.lock_setLock]
    split <;> rfl
  load p l := by
    have h := (k.setLock lid v).load_setThread t th p l
    have hold : (k.setLock lid v).thread t = k.thread t := rfl
    rw [hold, Client.load_setLock] at h
    have := hth p l
    omega

theorem Moves.setLock_setPc {k : Client Tid} {lid : LockId} {t : Tid} {pc : Pc}
    {src dst : Option Part} (v : ClientLock)
    (hpc : ∀ p l, pc.load l p + unit lid src p l = (k.thread t).pc.load l p + unit lid dst p l) :
    Moves k ((k.setLock lid v).setPc t pc) lid src dst v.state := by
  refine Moves.setLock_setThread v fun p l => ?_
  have h := hpc p l
  have hold : (k.setLock lid v).thread t = k.thread t := rfl
  simp only [Thread.load, hold]
  omega

/-- A thread that moves on while every entry stays. -/
theorem Moves.setPc {k : Client Tid} {t : Tid} {pc : Pc} {src dst : Option Part} (lid : LockId)
    (hpc : ∀ p l, pc.load l p + unit lid src p l = (k.thread t).pc.load l p + unit lid dst p l) :
    Moves k (k.setPc t pc) lid src dst (k.lock lid).state where
  state l := by
    have hlock : (k.setPc t pc).lock l = k.lock l := rfl
    rw [hlock]
    split
    next h => rw [h]
    next => rfl
  load p l := by
    have h := k.load_setPc t pc p l
    have := hpc p l
    omega

end

/-! ## Moves that leave possession as it is -/

/-- From which state to which a unit may move without the lock changing hands. -/
inductive Legal : ClientLockState → Option Part → Option Part → ClientLockState → Prop where
  | stay (st : ClientLockState) : Legal st none none st
  | giveUp (st : ClientLockState) : Legal st (some .asking) none st
  | reuse : Legal .free none (some .holding) .locked
  | free (st : ClientLockState) : Legal st (some .holding) none .free
  | flush (st : ClientLockState) : Legal st (some .holding) (some .unsent) .releasing
  | enq : Legal .free none (some .unsent) .releasing
  | done (st : ClientLockState) : Legal st (some .sent) none .none

section

variable [Fintype Tid]

theorem Moves.legal {k k' : Client Tid} {lid : LockId} {src dst : Option Part}
    {st : ClientLockState} (h : Moves k k' lid src dst st) (hk : k.Phased)
    (hlegal : Legal (k.lock lid).state src dst st) :
    k'.Phased ∧ ∀ l, k'.Has l ↔ k.Has l := by
  have hfits := hk lid
  rcases h.parts with ⟨ha, hh, hu, hs⟩
  have hstate := h.state lid
  -- the state before the move is the one that allows a unit at `src`
  have hboth : Fits (fun p => k'.load p lid) st ∧ (k'.Has lid ↔ k.Has lid) := by
    unfold Client.Has
    rw [hstate, if_pos rfl]
    generalize (k.lock lid).state = st₀ at hlegal hfits
    cases hlegal with
    | reuse | enq =>
        simp only [Fits, reduceCtorEq, if_true, if_false, Option.some.injEq, false_or, true_or,
          iff_true] at *
        omega
    | stay =>
        simp only [reduceCtorEq, if_false, Nat.add_zero] at ha hh hu hs
        have hsame : (fun p => k'.load p lid) = fun p => k.load p lid := by
          funext p
          cases p <;> assumption
        rw [hsame, hh, hu]
        exact ⟨hfits, Iff.rfl⟩
    | giveUp =>
        cases st <;>
          simp only [Fits, reduceCtorEq, if_true, if_false, Option.some.injEq, false_or, true_or]
            at * <;>
          omega
    | free | flush | done =>
        cases st₀ <;>
          simp only [Fits, reduceCtorEq, if_true, if_false, Option.some.injEq, false_or, true_or,
            true_iff] at * <;>
          omega
  refine ⟨h.phased hk hboth.1, fun l => ?_⟩
  by_cases hl : l = lid
  · rw [hl]
    exact hboth.2
  · exact h.has_iff_of_ne hl

end

/-! ## The functions of the client -/

/-- A release that is decided and not sent. -/
def Client.Pending (k : Client Tid) (e : LockEntry) : Prop :=
  e ∈ k.releaseQueue ∨ k.releaser = .flushing e ∨ ∃ t, (k.thread t).pc = .flushing e.lid e.xid

/-- Every decided release carries the xid of its lock. -/
def Client.Named (k : Client Tid) : Prop :=
  ∀ e, k.Pending e → e.xid = (k.lock e.lid).xid

theorem Client.xid_setLock {k : Client Tid} {lid : LockId} {v : ClientLock}
    (hv : v.xid = (k.lock lid).xid) (l : LockId) :
    ((k.setLock lid v).lock l).xid = (k.lock l).xid := by
  rw [Client.lock_setLock]
  split
  next h => rw [h, hv]
  next => rfl

/-- A lock that is held has an entry. -/
theorem table_of_lock {k : Client Tid} {lid : LockId} (h : (k.lock lid).state ≠ .none) :
    k.table lid = some (k.lock lid) := by
  unfold Client.lock at h ⊢
  cases htab : k.table lid with
  | none => simp [htab, ClientLock.init] at h
  | some v => rfl

section

variable [DecidableEq Tid]

theorem Client.pc_setThread {k : Client Tid} {t u : Tid} {th : Thread} {pc : Pc}
    (h : ((k.setThread t th).thread u).pc = pc) : (k.thread u).pc = pc ∨ th.pc = pc := by
  by_cases hu : u = t
  · subst hu
    exact Or.inr (by simpa [Client.setThread] using h)
  · exact Or.inl (by simpa [Client.setThread, hu] using h)

theorem Client.pending_setThread {k : Client Tid} {t : Tid} {th : Thread} {e : LockEntry}
    (h : (k.setThread t th).Pending e) : k.Pending e ∨ th.pc = .flushing e.lid e.xid := by
  rcases h with h | h | ⟨u, h⟩
  · exact Or.inl (Or.inl h)
  · exact Or.inl (Or.inr (Or.inl h))
  · exact (Client.pc_setThread h).imp_left fun h => Or.inr (Or.inr ⟨u, h⟩)

end

variable [Fintype Tid]

theorem load_unsent_pos {k : Client Tid} {e : LockEntry} (h : k.Pending e) :
    0 < k.load .unsent e.lid := by
  unfold Client.load
  rcases h with h | h | ⟨t, h⟩
  · have hpos : 0 < queueTokens e.lid k.releaseQueue :=
      List.countP_pos_iff.2 ⟨e, h, by simp⟩
    rw [if_pos rfl]
    omega
  · have hpos : k.releaser.load e.lid .unsent = 1 := by simp [ReleaserPc.load, unit, h]
    omega
  · have hle := le_total (Thread.load e.lid .unsent) k.thread t
    have hpos : (k.thread t).load e.lid .unsent = 1 := by simp [Thread.load, Pc.load, unit, h]
    omega

/-- A step of the client that takes no new xid, sends nothing and does not change who has a
lock. -/
structure Quiet (k k' : Client Tid) : Prop where
  phased : k'.Phased
  has : ∀ l, k'.Has l ↔ k.Has l
  xid : ∀ l, (k'.lock l).xid = (k.lock l).xid
  calling : ∀ t l id, (k'.thread t).pc = .calling l id → (k.thread t).pc = .calling l id
  pending : ∀ e, k'.Pending e → k.Pending e ∨ e.xid = (k.lock e.lid).xid

theorem Quiet.refl {k : Client Tid} (hk : k.Phased) : Quiet k k :=
  ⟨hk, fun _ => Iff.rfl, fun _ => rfl, fun _ _ _ h => h, fun _ h => Or.inl h⟩

theorem Quiet.named {k k' : Client Tid} (h : Quiet k k') (hk : k.Named) : k'.Named := by
  intro e he
  rw [h.xid]
  exact (h.pending e he).elim (hk e) id

theorem Quiet.of_moves {k k' : Client Tid} {lid : LockId} {src dst : Option Part}
    {st : ClientLockState} (h : Moves k k' lid src dst st) (hk : k.Phased)
    (hlegal : Legal (k.lock lid).state src dst st)
    (hxid : ∀ l, (k'.lock l).xid = (k.lock l).xid)
    (hcalling : ∀ t l id, (k'.thread t).pc = .calling l id → (k.thread t).pc = .calling l id)
    (hpending : ∀ e, k'.Pending e → k.Pending e ∨ e.xid = (k.lock e.lid).xid) : Quiet k k' where
  phased := (h.legal hk hlegal).1
  has := (h.legal hk hlegal).2
  xid := hxid
  calling := hcalling
  pending := hpending

theorem state_of_holds {k : Client Tid} (hk : k.Phased) {t : Tid} {lid : LockId}
    (h : lid ∈ (k.thread t).holds) : (k.lock lid).state = .locked := by
  have hfits := hk lid
  have hpos : 0 < k.load .holding lid := by
    have hle := le_total (Thread.load lid .holding) k.thread t
    have hcount := List.count_pos_iff.2 h
    unfold Client.load
    simp only [Thread.load, if_true] at hle ⊢
    omega
  cases hst : (k.lock lid).state <;> rw [hst] at hfits <;> simp only [Fits] at hfits <;>
    first | rfl | omega

theorem load_releaserDeq {k : Client Tid} {e : LockEntry} {es : List LockEntry}
    (hidle : k.releaser = .idle) (hq : k.releaseQueue = e :: es) (p : Part) (l : LockId) :
    ({ k with releaser := .flushing e, releaseQueue := es } : Client Tid).load p l =
      k.load p l := by
  simp only [Client.load, hidle, hq, ReleaserPc.load, queueTokens, List.countP_cons]
  by_cases hp : p = .unsent
  · by_cases hl : e.lid = l
    · simp only [hp, hl, unit, decide_true, if_true, and_self]
      omega
    · simp [hp, hl, unit, Ne.symm hl]
  · simp [hp, unit, Ne.symm hp]

theorem quiet_releaserDeq {k k' : Client Tid} (hk : k.Phased) (h : k.releaserDeq = some k') :
    Quiet k k' := by
  unfold Client.releaserDeq at h
  split at h
  next e es hidle hq =>
    cases h
    have hmoves : Moves k { k with releaser := .flushing e, releaseQueue := es } e.lid none none
        (k.lock e.lid).state := by
      refine ⟨fun l => ?_, fun p l => by rw [load_releaserDeq hidle hq]⟩
      have hlock : ({ k with releaser := .flushing e, releaseQueue := es } : Client Tid).lock l =
          k.lock l := rfl
      rw [hlock]
      split
      next hl => rw [hl]
      next => rfl
    refine Quiet.of_moves hmoves hk (.stay _) (fun _ => rfl) (fun _ _ _ h => h) fun e' he' => ?_
    rcases he' with he' | he' | he'
    · exact Or.inl (Or.inl (by rw [hq]; exact List.mem_cons_of_mem _ he'))
    · cases he'
      exact Or.inl (Or.inl (by rw [hq]; exact List.mem_cons_self))
    · exact Or.inl (Or.inr (Or.inr he'))
  next => cases h

theorem quiet_releaserRet {k k' : Client Tid} (hk : k.Phased) (h : k.releaserRet = some k') :
    Quiet k k' := by
  unfold Client.releaserRet at h
  split at h
  next e hcalling =>
    cases h
    have hmoves : Moves k
        { k.setLock e.lid ((k.lock e.lid).setState .none) with releaser := .idle } e.lid
        (some .sent) none .none := by
      refine ⟨(Moves.setLock k e.lid ((k.lock e.lid).setState .none)).state, fun p l => ?_⟩
      simp only [Client.load, Client.setLock, hcalling, ReleaserPc.load, unit_none]
      omega
    refine Quiet.of_moves hmoves hk (.done _) (Client.xid_setLock rfl) (fun _ _ _ h => h)
      fun e' he' => ?_
    rcases he' with he' | he' | he'
    · exact Or.inl (Or.inl he')
    · cases he'
    · exact Or.inl (Or.inr (Or.inr he'))
  next => cases h

/-- An entry changes, its xid does not. -/
theorem Quiet.setLock {k : Client Tid} (hk : k.Phased) {lid : LockId} {v : ClientLock}
    (hst : v.state = (k.lock lid).state) (hxid : v.xid = (k.lock lid).xid) :
    Quiet k (k.setLock lid v) :=
  Quiet.of_moves (Moves.setLock k lid v) hk (hst ▸ .stay _) (Client.xid_setLock hxid)
    (fun _ _ _ h => h) fun _ h => Or.inl h

theorem Moves.enq (k : Client Tid) (e : LockEntry) (v : ClientLock) :
    Moves k ((k.setLock e.lid v).enq e) e.lid none (some .unsent) v.state where
  state := (Moves.setLock k e.lid v).state
  load p l := by
    simp only [Client.load, Client.enq, Client.setLock, queueTokens, List.countP_append,
      List.countP_singleton, unit_none]
    by_cases hp : p = .unsent
    · by_cases hl : e.lid = l
      · simp only [hp, hl, unit, decide_true, if_true, and_self]
        omega
      · simp [hp, hl, unit, Ne.symm hl]
    · simp [hp, unit, Ne.symm hp]

theorem quiet_revokeHandler {k : Client Tid} (hk : k.Phased) (lid : LockId) (xid : Xid) :
    Quiet k (k.revokeHandler lid xid).1 := by
  unfold Client.revokeHandler
  split
  next => exact Quiet.refl hk
  next lock htab =>
    have hlock : k.lock lid = lock := by simp [Client.lock, htab]
    split
    next => exact Quiet.refl hk
    next =>
      split
      next => exact Quiet.refl hk
      next hxid =>
        split
        next hfree =>
          -- a cached lock is queued for the releaser with the xid of the revoke, which is its own
          refine Quiet.of_moves (Moves.enq k { lid := lid, xid := xid } _) hk ?_
            (Client.xid_setLock (by rw [hlock]; rfl)) (fun _ _ _ h => h) fun e he => ?_
          · rw [hlock, hfree]
            exact .enq
          · rcases he with he | he | he
            · rcases List.mem_append.1 he with he | he
              · exact Or.inl (Or.inl he)
              · obtain rfl := List.mem_singleton.1 he
                refine Or.inr ?_
                rw [hlock]
                exact (not_not.1 hxid).symm
            · exact Or.inl (Or.inr (Or.inl he))
            · exact Or.inl (Or.inr (Or.inr he))
        next => exact Quiet.setLock hk (by rw [hlock]; rfl) (by rw [hlock]; rfl)

theorem quiet_retryHandler {k : Client Tid} (hk : k.Phased) (lid : LockId) :
    Quiet k (k.retryHandler lid).1 := by
  unfold Client.retryHandler
  split
  next => exact Quiet.refl hk
  next lock htab =>
    have hlock : k.lock lid = lock := by simp [Client.lock, htab]
    exact Quiet.setLock hk (by rw [hlock]; rfl) (by rw [hlock]; rfl)

section

variable [DecidableEq Tid]

/-- A step of a thread that changes one entry on the way. -/
theorem Quiet.setLock_setThread {k : Client Tid} {lid : LockId} {t : Tid} {th : Thread}
    (src dst : Option Part) {v : ClientLock} (hk : k.Phased)
    (hlegal : Legal (k.lock lid).state src dst v.state)
    (hth : ∀ p l, th.load l p + unit lid src p l = (k.thread t).load l p + unit lid dst p l)
    (hxid : v.xid = (k.lock lid).xid) (hcalling : ∀ l id, th.pc ≠ .calling l id)
    (hflush : ∀ l x, th.pc = .flushing l x → x = (k.lock l).xid) :
    Quiet k ((k.setLock lid v).setThread t th) := by
  refine Quiet.of_moves (Moves.setLock_setThread v hth) hk hlegal (Client.xid_setLock hxid) ?_ ?_
  · intro u l id h
    exact (Client.pc_setThread h).resolve_right (hcalling l id)
  · intro e h
    exact (Client.pending_setThread h).imp id fun h => hflush _ _ h

/-- A step of a thread that changes no entry. -/
theorem Quiet.setPc {k : Client Tid} {t : Tid} {pc : Pc} {src : Option Part} (hk : k.Phased)
    (lid : LockId) (hlegal : Legal (k.lock lid).state src none (k.lock lid).state)
    (hpc : ∀ p l, pc.load l p + unit lid src p l = (k.thread t).pc.load l p)
    (hcalling : ∀ l id, pc ≠ .calling l id) (hflush : ∀ l x, pc ≠ .flushing l x) :
    Quiet k (k.setPc t pc) := by
  refine Quiet.of_moves (Moves.setPc lid fun p l => ?_) hk hlegal (fun _ => rfl) ?_ ?_
  · simpa [unit] using hpc p l
  · intro u l id h
    exact (Client.pc_setThread h).resolve_right (hcalling l id)
  · intro e h
    exact Or.inl ((Client.pending_setThread h).resolve_right (hflush _ _))

theorem load_cons_holds (pc : Pc) (lid : LockId) (holds : List LockId) (p : Part) (l : LockId) :
    Thread.load l p { pc := pc, holds := lid :: holds } =
      Thread.load l p { pc := pc, holds := holds } + unit lid (some .holding) p l := by
  by_cases hp : p = .holding
  · simp only [Thread.load, hp, if_true, count_cons_add, unit, true_and]
    omega
  · simp [Thread.load, hp, unit, Ne.symm hp]

theorem load_erase_holds (pc : Pc) {lid : LockId} {holds : List LockId} (h : lid ∈ holds)
    (p : Part) (l : LockId) :
    Thread.load l p { pc := pc, holds := holds.erase lid } + unit lid (some .holding) p l =
      Thread.load l p { pc := pc, holds := holds } := by
  have hcount := count_erase_add (l := l) h
  by_cases hp : p = .holding
  · simp only [Thread.load, hp, if_true, unit, true_and]
    omega
  · simp [Thread.load, hp, unit, Ne.symm hp]

/-- `acquire` returns: what the thread's place carried becomes a lock that it holds. -/
theorem moves_take {k : Client Tid} {t : Tid} {lid : LockId} (src : Option Part)
    (hsrc : ∀ p l, (k.thread t).pc.load l p = unit lid src p l) :
    Moves k (k.take t lid) lid src (some .holding) .locked := by
  refine Moves.setLock_setThread ((k.lock lid).setState .locked) fun p l => ?_
  have hidle : Pc.load l p .idle = 0 := rfl
  rw [load_cons_holds]
  simp only [Thread.load, hsrc, hidle]
  omega

theorem quiet_acquire {k k' : Client Tid} (hk : k.Phased) {t : Tid} {lid : LockId}
    (h : k.acquire t lid = some k') : Quiet k k' := by
  unfold Client.acquire at h
  split at h
  next hpc =>
    cases h
    exact Quiet.setPc hk lid (.stay _) (fun p l => by simp [Pc.load, hpc]) nofun nofun
  next => cases h

/-- A thread that finds nothing to do waits. -/
theorem quiet_wait {k : Client Tid} (hk : k.Phased) {t : Tid} {lid : LockId}
    (hpc : (k.thread t).pc = .loop lid) :
    Quiet k ((k.setLock lid (k.lock lid)).setPc t (.waiting lid)) := by
  refine Quiet.setLock_setThread none none hk (.stay _) (fun p l => ?_) rfl nofun nofun
  have hold : (k.setLock lid (k.lock lid)).thread t = k.thread t := rfl
  simp [Thread.load, Pc.load, hold, hpc]

/-- One pass of the `while` asks the server, or it changes nothing that the server knows of. -/
theorem loop_cases {k k' : Client Tid} (hk : k.Phased) {t : Tid} (h : k.loop t = some k') :
    (∃ lid, (k.thread t).pc = .loop lid ∧ k' = k.request t lid ∧
      ((k.lock lid).state = .none ∨ (k.lock lid).state = .acquiring ∧ (k.lock lid).retry = true)) ∨
      Quiet k k' := by
  unfold Client.loop at h
  split at h
  next lid hpc =>
    dsimp only at h
    split at h
    next hst =>
      cases h
      exact Or.inl ⟨lid, hpc, rfl, Or.inl hst⟩
    next hst =>
      -- `FREE`: the cached lock is taken without a word to the server
      cases h
      refine Or.inr (Quiet.of_moves (moves_take none fun p l => ?_) hk (hst ▸ .reuse)
        (Client.xid_setLock rfl) ?_ ?_)
      · simp [Pc.load, hpc]
      · exact fun u l id h => (Client.pc_setThread h).resolve_right nofun
      · exact fun e h => Or.inl ((Client.pending_setThread h).resolve_right nofun)
    next =>
      cases h
      exact Or.inr (quiet_wait hk hpc)
    next hst =>
      -- `ACQUIRING`: the thread asks again only if a retry has come
      split at h
      next =>
        cases h
        exact Or.inr (quiet_wait hk hpc)
      next hretry =>
        cases h
        exact Or.inl ⟨lid, hpc, rfl, Or.inr ⟨hst, by simpa using hretry⟩⟩
    next =>
      cases h
      exact Or.inr (quiet_wait hk hpc)
  next => cases h

/-- An acquire call that does not return `OK`. -/
theorem quiet_acquireRet {k k' : Client Tid} (hk : k.Phased) {t : Tid} {ret : Status}
    (hret : ret ≠ .ok) (h : k.acquireRet t ret = some k') : Quiet k k' := by
  unfold Client.acquireRet at h
  split at h
  next lid id hpc =>
    -- wherever the thread goes from here, it has stopped asking
    have hgiveUp : ∀ pc : Pc, (∀ l p, pc.load l p = 0) → (∀ l id, pc ≠ .calling l id) →
        (∀ l x, pc ≠ .flushing l x) → Quiet k (k.setPc t pc) := fun pc hzero hcalling hflush =>
      Quiet.setPc hk lid (.giveUp _) (fun p l => by rw [hzero, hpc, Nat.zero_add]; rfl)
        hcalling hflush
    cases ret with
    | ok => exact absurd rfl hret
    | retry =>
        dsimp only at h
        split at h
        · cases h
          exact hgiveUp _ (fun _ _ => rfl) nofun nofun
        · cases h
          exact hgiveUp _ (fun _ _ => rfl) nofun nofun
    | rpcerr | noent | ioerr =>
        cases h
        exact hgiveUp _ (fun _ _ => rfl) nofun nofun
  next => cases h

theorem quiet_wake {k k' : Client Tid} (hk : k.Phased) {t : Tid} {timeout : Bool}
    (h : k.wake t timeout = some k') : Quiet k k' := by
  unfold Client.wake at h
  split at h
  next lid hpc =>
    cases h
    exact Quiet.setPc hk lid (.stay _) (fun p l => by simp [Pc.load, hpc]) nofun nofun
  next lid hpc =>
    split at h
    · cases h
      refine Quiet.setLock_setThread none none hk (.stay _) (fun p l => ?_) rfl nofun nofun
      have hold : (k.setLock lid ((k.lock lid).setRetry true)).thread t = k.thread t := rfl
      simp [Thread.load, Pc.load, hold, hpc]
    · cases h
      exact Quiet.setPc hk lid (.stay _) (fun p l => by simp [Pc.load, hpc]) nofun nofun
  next => cases h

theorem quiet_release {k k' : Client Tid} (hk : k.Phased) {t : Tid} {lid : LockId}
    (h : k.release t lid = some k') : Quiet k k' := by
  unfold Client.release at h
  split at h
  next hpre =>
    have hst := state_of_holds hk hpre.2
    have htab : k.table lid = some (k.lock lid) := table_of_lock (by simp [hst])
    have hload := load_erase_holds .idle hpre.2
    have hthread : ∀ p l, (k.thread t).load l p =
        Thread.load l p { pc := .idle, holds := (k.thread t).holds } := fun p l => by
      simp only [Thread.load, hpre.1]
    rw [htab] at h
    dsimp only at h
    split at h
    · -- revoked: the release is decided, with the xid that the entry has now
      cases h
      refine Quiet.setLock_setThread (some .holding) (some .unsent) hk (.flush _)
        (fun p l => ?_) rfl nofun ?_
      · have hflush : Thread.load l p
            { pc := .flushing lid (k.lock lid).xid, holds := (k.thread t).holds.erase lid } =
            Thread.load l p { pc := .idle, holds := (k.thread t).holds.erase lid } +
              unit lid (some .unsent) p l := by
          simp [Thread.load, Pc.load]
        rw [hflush, hthread, ← hload]
        omega
      · intro l x hpc
        cases hpc
        rfl
    · -- not revoked: the lock is kept for the next thread
      cases h
      refine Quiet.setLock_setThread (some .holding) none hk (.free _)
        (fun p l => ?_) rfl nofun nofun
      rw [hthread, ← hload, unit_none, Nat.add_zero]
  next => cases h

theorem quiet_releaseRet {k k' : Client Tid} (hk : k.Phased) {t : Tid}
    (h : k.releaseRet t = some k') : Quiet k k' := by
  unfold Client.releaseRet at h
  split at h
  next lid hpc =>
    cases h
    refine Quiet.setLock_setThread (some .sent) none hk (.done _) (fun p l => ?_)
      rfl nofun nofun
    have hold : (k.setLock lid ((k.lock lid).setState .none)).thread t = k.thread t := rfl
    simp [Thread.load, Pc.load, hold, hpc]
  next => cases h

end

/-! ## The steps the server hears of -/

/-- The release `e` leaves the client. -/
structure Sends (k k' : Client Tid) (e : LockEntry) : Prop where
  phased : k'.Phased
  pending : k.Pending e
  has : ∀ l, l ≠ e.lid → (k'.Has l ↔ k.Has l)
  hasOld : ∀ l, k'.Has l → k.Has l
  xid : ∀ l, (k'.lock l).xid = (k.lock l).xid
  calling : ∀ t l id, (k'.thread t).pc = .calling l id → (k.thread t).pc = .calling l id
  pendingOld : ∀ e', k'.Pending e' → k.Pending e'

theorem Moves.sends {k k' : Client Tid} {e : LockEntry}
    (h : Moves k k' e.lid (some .unsent) (some .sent) (k.lock e.lid).state) (hk : k.Phased)
    (hpending : k.Pending e) (hxid : ∀ l, (k'.lock l).xid = (k.lock l).xid)
    (hcalling : ∀ t l id, (k'.thread t).pc = .calling l id → (k.thread t).pc = .calling l id)
    (hold : ∀ e', k'.Pending e' → k.Pending e') : Sends k k' e := by
  have hfits := hk e.lid
  rcases h.parts with ⟨ha, hh, hu, hs⟩
  have hstate := h.state e.lid
  simp only [reduceCtorEq, if_false, if_true, Option.some.injEq] at ha hh hu hs hstate
  refine ⟨h.phased hk ?_, hpending, fun l => h.has_iff_of_ne, fun l hl => ?_, hxid, hcalling, hold⟩
  · cases hst : (k.lock e.lid).state <;> rw [hst] at hfits <;> simp only [Fits] at hfits ⊢ <;> omega
  · by_cases heq : l = e.lid
    · subst heq
      unfold Client.Has at hl ⊢
      rw [hstate] at hl
      omega
    · exact (h.has_iff_of_ne heq).1 hl

theorem sends_releaserSend {k : Client Tid} (hk : k.Phased) {ke : Client Tid × LockEntry}
    (h : k.releaserSend = some ke) : Sends k ke.1 ke.2 := by
  unfold Client.releaserSend at h
  split at h
  next e hflush =>
    cases h
    have hmoves : Moves k { k with releaser := .calling e } e.lid (some .unsent) (some .sent)
        (k.lock e.lid).state := by
      refine ⟨fun l => ?_, fun p l => ?_⟩
      · have hlock : ({ k with releaser := .calling e } : Client Tid).lock l = k.lock l := rfl
        rw [hlock]
        split
        next hl => rw [hl]
        next => rfl
      · simp only [Client.load, hflush, ReleaserPc.load]
        omega
    refine Moves.sends hmoves hk (Or.inr (Or.inl hflush)) (fun _ => rfl) (fun _ _ _ h => h) ?_
    rintro e' (he' | he' | he')
    · exact Or.inl he'
    · cases he'
    · exact Or.inr (Or.inr he')
  next => cases h

variable [DecidableEq Tid]

/-- A new request: nobody asks for the lock and the client does not have it, so the xid of its
entry is free to change. -/
theorem request_spec {k : Client Tid} (hk : k.Phased) (hn : k.Named) {t : Tid} {lid : LockId}
    (hpc : (k.thread t).pc = .loop lid)
    (hst : (k.lock lid).state = .none ∨ (k.lock lid).state = .acquiring) (halone : k.Alone lid) :
    (k.request t lid).Phased ∧ (k.request t lid).Named ∧
      (∀ l, (k.request t lid).Has l ↔ k.Has l) ∧ ¬ k.Has lid := by
  have hmoves : Moves k (k.request t lid) lid none (some .asking) .acquiring := by
    have hentry : Moves k
        ((k.setLock lid
          { revoked := (k.lock lid).revoked
            retry := false
            state := .acquiring
            xid := k.xid }).setPc t (.unlocked lid)) lid none (some .asking) .acquiring :=
      Moves.setLock_setPc _ fun p l => by simp [Pc.load, hpc]
    exact ⟨hentry.state, hentry.load⟩
  have hfits := hk lid
  rcases hmoves.parts with ⟨ha, hh, hu, hs⟩
  have hstate := hmoves.state lid
  unfold Client.Alone at halone
  -- both states leave nothing but asking, and nobody asks
  have hzero : k.load .holding lid = 0 ∧ k.load .unsent lid = 0 ∧ k.load .sent lid = 0 := by
    rcases hst with hst | hst <;> rw [hst] at hfits <;> exact hfits.2
  have hnot : ¬ k.Has lid := by
    rintro (h | h | h)
    · rcases hst with hst | hst <;> rw [hst] at h <;> cases h
    · omega
    · omega
  simp only [reduceCtorEq, if_false, if_true, Option.some.injEq] at ha hh hu hs hstate
  refine ⟨hmoves.phased hk ?_, ?_, fun l => ?_, hnot⟩
  · simp only [Fits]
    omega
  · -- a release that is decided is of another lock, whose xid stays
    intro e he
    have he' : k.Pending e :=
      (Client.pending_setThread (k := k.setLock lid _) he).resolve_right nofun
    have hne : e.lid ≠ lid := by
      intro heq
      have := load_unsent_pos he'
      rw [heq] at this
      omega
    have hlock : (k.request t lid).lock e.lid = k.lock e.lid := by
      have : (k.request t lid).lock e.lid = (k.setLock lid _).lock e.lid := rfl
      rw [this, Client.lock_setLock, if_neg hne]
    rw [hlock]
    exact hn e he'
  · by_cases hl : l = lid
    · rw [hl]
      refine iff_of_false ?_ hnot
      rintro (h | h | h)
      · rw [hstate] at h
        cases h
      · omega
      · omega
    · exact hmoves.has_iff_of_ne hl

/-- `OK` for the acquire call of a thread. -/
theorem take_spec {k : Client Tid} (hk : k.Phased) {t : Tid} {lid : LockId} {id : ℕ}
    (hpc : (k.thread t).pc = .calling lid id) :
    (k.take t lid).Phased ∧ (k.take t lid).Has lid ∧
      ∀ l, l ≠ lid → ((k.take t lid).Has l ↔ k.Has l) := by
  have hmoves : Moves k (k.take t lid) lid (some .asking) (some .holding) .locked :=
    moves_take (some .asking) fun p l => by simp [Pc.load, hpc]
  have hfits := hk lid
  rcases hmoves.parts with ⟨ha, hh, hu, hs⟩
  simp only [reduceCtorEq, if_false, if_true, Option.some.injEq] at ha hh hu hs
  refine ⟨hmoves.phased hk ?_, Or.inr (Or.inl (by omega)), fun l => hmoves.has_iff_of_ne⟩
  cases hst : (k.lock lid).state <;> rw [hst] at hfits <;> simp only [Fits] at hfits ⊢ <;> omega

theorem sends_sendRelease {k : Client Tid} (hk : k.Phased) {t : Tid} {ke : Client Tid × LockEntry}
    (h : k.sendRelease t = some ke) : Sends k ke.1 ke.2 := by
  unfold Client.sendRelease at h
  split at h
  next lid xid hpc =>
    cases h
    refine Moves.sends (e := { lid := lid, xid := xid })
      (Moves.setPc lid fun p l => by simp [Pc.load, hpc, Nat.add_comm]) hk
      (Or.inr (Or.inr ⟨t, hpc⟩)) (fun _ => rfl) ?_ ?_
    · exact fun u l id h => (Client.pc_setThread h).resolve_right nofun
    · exact fun e' h => (Client.pending_setThread h).resolve_right nofun
  next => cases h

end Lock
end Yfs

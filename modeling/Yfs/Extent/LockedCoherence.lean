import Yfs.Extent.Locked

/-!
# LockedCoherence — coherence from the lock clients

`Refines` relates a state of the lock clients and the caches to one of `Extent.Coherence`, where a
lock is held by one client at a time and given up after a flush: the holder is the one that the
lock server knows, and the operation on an extent that of the worker who has the lock in hand.  It
is a forward simulation, in which the steps of the lock clients are not seen except for the grant
and the release that the server executes.  `locked_coherence` reads the answers off there.
-/

namespace Yfs
namespace Extent
namespace Locked

open Lib Lock

variable {Cid Tid : Type}

/-! ## Refinement -/

def Work.op : Work → Option Op
  | .call _ op => some op
  | _ => Option.none

/-- The state as one of `Extent.Coherence`: the holder of a lock is the one the server knows, and
the operation on an extent that of the worker who carries the lock. -/
structure Refines (s : State Cid Tid) (x : Extent.State Cid) : Prop where
  cache : x.cache = s.cache
  server : x.server = s.server
  hist : x.hist = s.hist
  owner : ∀ eid, x.owner eid = (s.lock.holder eid).map Prod.fst
  call : ∀ c w eid op, s.work c w = .call eid op → x.busy eid = some op
  busy : ∀ eid op, x.busy eid = some op → ∃ c w, s.work c w = .call eid op
  flushed : ∀ c w eid, s.work c w = .flushed → flushing s.lock c w = some eid →
    x.flushed eid = true
  released : ∀ m ∈ s.lock.releases, x.flushed m.entry.lid = true

section Refines

variable {s t : State Cid Tid} {x : Extent.State Cid} {c : Cid} {w : Worker Tid} {eid : ExtentId}

theorem Refines.setServer (h : Refines s x) (eid : ExtentId) (v : Option Bytes) :
    Refines (s.setServer eid v) { x with server := Function.update x.server eid v } :=
  { h with
    server := by simp [State.setServer, h.server] }

theorem Refines.record (h : Refines s x) (e : MapEvent ExtentId Bytes) :
    Refines (s.record e) (x.record e) :=
  { h with
    hist := by simp [State.record, Extent.State.record, h.hist] }

theorem busy_setBusy_of_ne (x : Extent.State Cid) {eid i : ExtentId} (o : Option Op)
    (h : i ≠ eid) : (x.setBusy eid o).busy i = x.busy i := by
  simp [Extent.State.setBusy, h]

theorem flushed_setFlushed_of_ne (x : Extent.State Cid) {eid i : ExtentId} (b : Bool)
    (h : i ≠ eid) : (x.setFlushed eid b).flushed i = x.flushed i := by
  simp [Extent.State.setFlushed, h]

theorem setFlushed_self (x : Extent.State Cid) (eid : ExtentId) :
    x.setFlushed eid (x.flushed eid) = x := by
  simp [Extent.State.setFlushed]

section

variable [DecidableEq Cid]

theorem Refines.setCache (h : Refines s x) (c : Cid) (k : Cache) :
    Refines (s.setCache c k) (x.setCache c k) :=
  { h with
    cache := by simp [State.setCache, Extent.State.setCache, h.cache] }

variable [DecidableEq Tid]

theorem setWork_self (s : State Cid Tid) {c : Cid} {w : Worker Tid} {y : Work}
    (h : s.work c w = y) : s.setWork c w y = s := by
  simp [State.setWork, ← h]

variable [Fintype Tid]

/-- The worker that carries the lock goes on in its call of the cache. -/
theorem Refines.turn (h : Refines s x) (hinv : Inv s) (hw : Carries s.lock c w eid)
    (hold : s.work c w = .none ∨ ∃ op, s.work c w = .call eid op) {y : Work} {b : Bool}
    (hcall : ∀ i op, y = .call i op → i = eid)
    (hflushed : y = .flushed → flushing s.lock c w = some eid ∧ b = true) :
    Refines (s.setWork c w y) ((x.setBusy eid y.op).setFlushed eid b) := by
  -- whoever else is at work carries another lock
  have hother : ∀ d v i, (d, v) ≠ (c, w) → Carries s.lock d v i → i ≠ eid := by
    rintro d v i hne hv rfl
    rcases hw.unique hv hinv.exclusive with ⟨rfl, rfl⟩
    exact hne rfl
  refine { h with call := ?_, busy := ?_, flushed := ?_, released := ?_ }
  · intro d v i op hwork
    by_cases hdv : (d, v) = (c, w)
    · cases hdv
      rw [work_setWork_self] at hwork
      subst hwork
      rw [hcall i op rfl]
      exact setBusy_busy_self x eid (some op)
    · rw [work_setWork_of_ne s y hdv] at hwork
      have hplaced := hinv.placed d v
      rw [hwork] at hplaced
      have hkeep := busy_setBusy_of_ne x y.op (hother d v i hdv hplaced.carries)
      exact hkeep.trans (h.call d v i op hwork)
  · intro i op hbusy
    by_cases hi : i = eid
    · subst hi
      refine ⟨c, w, ?_⟩
      have hop : y.op = some op := (setBusy_busy_self x i y.op).symm.trans hbusy
      rw [work_setWork_self]
      cases y with
      | none => cases hop
      | call j o =>
          cases hop
          rw [hcall j op rfl]
      | flushed => cases hop
    · have hbusy' : x.busy i = some op := (busy_setBusy_of_ne x y.op hi).symm.trans hbusy
      rcases h.busy i op hbusy' with ⟨d, v, hdv⟩
      refine ⟨d, v, ?_⟩
      rw [work_setWork_of_ne s y]
      · exact hdv
      · rintro ⟨⟩
        rcases hold with hold | ⟨op', hold⟩
        · rw [hdv] at hold
          cases hold
        · rw [hdv] at hold
          cases hold
          exact hi rfl
  · intro d v i hwork hflush
    by_cases hdv : (d, v) = (c, w)
    · cases hdv
      rw [work_setWork_self] at hwork
      rcases hflushed hwork with ⟨heid, hb⟩
      cases hflush.symm.trans heid
      rw [setFlushed_flushed_self]
      exact hb
    · rw [work_setWork_of_ne s y hdv] at hwork
      have hi := hother d v i hdv (carries_of_flushing hflush)
      exact (flushed_setFlushed_of_ne _ b hi).trans (h.flushed d v i hwork hflush)
  · intro m hm
    exact (flushed_setFlushed_of_ne _ b (hw.not_released hinv.exclusive hm)).trans (h.released m hm)

/-- The call goes on and nothing else happens. -/
theorem Refines.answer (h : Refines s x) (hinv : Inv s) {op : Op}
    (hold : s.work c w = .call eid op) (op' : Op) :
    Refines (s.setWork c w (.call eid op')) (x.setBusy eid (some op')) := by
  have hplaced := hinv.placed c w
  rw [hold] at hplaced
  have hturn := h.turn hinv hplaced.carries (Or.inr ⟨op, hold⟩) (y := .call eid op')
    (b := x.flushed eid) (fun i o hy => by cases hy; rfl) (fun hy => by cases hy)
  have hsame : (x.setBusy eid (some op')).setFlushed eid (x.flushed eid) =
      x.setBusy eid (some op') := setFlushed_self (x.setBusy eid (some op')) eid
  rwa [Work.op, hsame] at hturn

/-- The worker that carries the lock finds the extent idle. -/
theorem Refines.ready (h : Refines s x) (hinv : Inv s) (hw : Carries s.lock c w eid)
    (hnone : s.work c w = .none) : x.Ready c eid := by
  refine ⟨(h.owner eid).trans (hw.owns hinv.exclusive), ?_⟩
  cases hbusy : x.busy eid with
  | none => rfl
  | some op =>
      rcases h.busy eid op hbusy with ⟨d, v, hdv⟩
      have hplaced := hinv.placed d v
      rw [hdv] at hplaced
      rcases hw.unique hplaced.carries hinv.exclusive with ⟨rfl, rfl⟩
      rw [hnone] at hdv
      cases hdv

/-- A call of the cache that returns at once. -/
theorem Refines.stay (h : Refines s x) (hinv : Inv s) (hw : Carries s.lock c w eid)
    (hnone : s.work c w = .none) : Refines s (x.setFlushed eid false) := by
  have hready := h.ready hinv hw hnone
  have hturn := h.turn hinv hw (Or.inl hnone) (y := .none) (b := false)
    (fun i o hy => by cases hy) (fun hy => by cases hy)
  have hbusy : x.setBusy eid Work.none.op = x := setBusy_eq_self hready.2
  rwa [setWork_self s hnone, hbusy] at hturn

theorem Refines.enter (h : Refines s x) (hinv : Inv s) (hw : Carries s.lock c w eid)
    (hnone : s.work c w = .none) (op : Op) :
    Refines (s.setWork c w (.call eid op)) ((x.setBusy eid (some op)).setFlushed eid false) :=
  h.turn hinv hw (Or.inl hnone) (y := .call eid op) (fun i o hy => by cases hy; rfl)
    (fun hy => by cases hy)

theorem Refines.localCall (h : Refines s x) (hinv : Inv s) (hw : Carries s.lock c w eid)
    (hnone : s.work c w = .none) (r : Cache × Status) (e : MapEvent ExtentId Bytes) :
    Refines (s.localCall c r e) (x.localCall c eid r e) := by
  have hstay := (h.stay hinv hw hnone).setCache c r.1
  unfold State.localCall Extent.State.localCall
  split
  · exact hstay.record e
  · exact hstay

theorem Refines.get (h : Refines s x) (hinv : Inv s) (hw : Carries s.lock c w eid)
    (hnone : s.work c w = .none) (now : UInt32) :
    Refines (get s c w eid now) (Extent.get x c eid now) := by
  have hstay := h.stay hinv hw hnone
  cases hstart : (s.cache c).getStart eid now with
  | call =>
      simp only [Locked.get, Extent.get, h.cache, hstart]
      exact h.enter hinv hw hnone .getCall
  | noent =>
      simp only [Locked.get, Extent.get, h.cache, hstart]
      exact hstay.record _
  | hit k buf =>
      simp only [Locked.get, Extent.get, h.cache, hstart]
      exact (hstay.setCache c k).record _

theorem Refines.getattr (h : Refines s x) (hinv : Inv s) (hw : Carries s.lock c w eid)
    (hnone : s.work c w = .none) :
    Refines (getattr s c w eid) (Extent.getattr x c eid) := by
  have hstay := h.stay hinv hw hnone
  cases hstart : (s.cache c).getattrStart eid with
  | call =>
      simp only [Locked.getattr, Extent.getattr, h.cache, hstart]
      exact h.enter hinv hw hnone .getattrCall
  | noent =>
      simp only [Locked.getattr, Extent.getattr, h.cache, hstart]
      exact hstay
  | hit a =>
      simp only [Locked.getattr, Extent.getattr, h.cache, hstart]
      exact hstay

/-- `flush` returns. -/
theorem Refines.done (h : Refines s x) (hinv : Inv s) (hf : flushing s.lock c w = some eid)
    (hold : s.work c w = .none ∨ ∃ op, s.work c w = .call eid op) :
    Refines (s.setWork c w .flushed) ((x.setBusy eid none).setFlushed eid true) :=
  h.turn hinv (carries_of_flushing hf) hold (y := .flushed) (fun i o hy => by cases hy)
    (fun _ => ⟨hf, rfl⟩)

theorem Refines.flush (h : Refines s x) (hinv : Inv s) (hf : flushing s.lock c w = some eid)
    (hnone : s.work c w = .none) :
    Refines (flush s c w eid) (Extent.flush x c eid) := by
  have hw := carries_of_flushing hf
  have hready := h.ready hinv hw hnone
  have hdone := h.done hinv hf (Or.inl hnone)
  rw [setBusy_eq_self hready.2] at hdone
  cases hstart : (s.cache c).flushStart eid with
  | noent =>
      simp only [Locked.flush, Extent.flush, h.cache, hstart]
      exact hdone
  | put buf =>
      simp only [Locked.flush, Extent.flush, h.cache, hstart]
      exact h.enter hinv hw hnone (.putCall buf)
  | remove =>
      simp only [Locked.flush, Extent.flush, h.cache, hstart]
      exact h.enter hinv hw hnone .removeCall
  | drop =>
      simp only [Locked.flush, Extent.flush, h.cache, hstart]
      exact hdone.setCache c _

theorem Refines.serve {a : Attr} (h : Refines s x) (hinv : Inv s)
    (hst : serve s c w a = some t) : ∃ eid y, Extent.serve x eid a = some y ∧ Refines t y := by
  unfold Locked.serve at hst
  split at hst
  next eid hwork =>
    cases hst
    refine ⟨eid, _, ?_, h.answer hinv hwork (.getRet (s.server eid))⟩
    simp only [Extent.serve, h.call c w eid _ hwork, h.server]
  next eid hwork =>
    cases hst
    refine ⟨eid, _, ?_, h.answer hinv hwork (.getattrRet ((s.server eid).map fun _ => a))⟩
    simp only [Extent.serve, h.call c w eid _ hwork, h.server]
  next eid buf hwork =>
    cases hst
    refine ⟨eid, _, ?_, (h.answer hinv hwork (.flushRet .ok)).setServer eid (some buf)⟩
    simp only [Extent.serve, h.call c w eid _ hwork]
    rfl
  next eid hwork =>
    cases hst
    refine ⟨eid, _, ?_, (h.answer hinv hwork
      (.flushRet (if (s.server eid).isSome then .ok else .noent))).setServer eid none⟩
    have hserver : (x.setBusy eid (some (.flushRet
        (if (s.server eid).isSome then .ok else .noent)))).server = s.server := h.server
    simp only [Extent.serve, h.call c w eid _ hwork, h.server, hserver]
  next => cases hst

/-- A fetch returns. -/
theorem Refines.fetched (h : Refines s x) (hinv : Inv s) {op : Op}
    (hold : s.work c w = .call eid op) (k : Cache) :
    Refines ((s.setCache c k).setWork c w .none) (x.fetched c eid k) := by
  have hplaced := hinv.placed c w
  rw [hold] at hplaced
  have hturn := h.turn hinv hplaced.carries (Or.inr ⟨op, hold⟩) (y := .none) (b := false)
    (fun i o hy => by cases hy) (fun hy => by cases hy)
  exact hturn.setCache c k

theorem Refines.opRet {now : UInt32} (h : Refines s x) (hinv : Inv s)
    (hst : opRet s c w now = some t) :
    ∃ eid y, x.owner eid = some c ∧ Extent.opRet x c eid now = some y ∧ Refines t y := by
  have howner : ∀ eid op, s.work c w = .call eid op → x.owner eid = some c := by
    intro eid op hwork
    have hplaced := hinv.placed c w
    rw [hwork] at hplaced
    exact (h.owner eid).trans (hplaced.carries.owns hinv.exclusive)
  have hsame : s.setCache c (s.cache c) = s := by simp [State.setCache]
  unfold Locked.opRet at hst
  split at hst
  next eid hwork =>
    cases hst
    have hfetched := h.fetched hinv hwork (s.cache c)
    rw [hsame] at hfetched
    refine ⟨eid, _, howner eid _ hwork, ?_, hfetched.record _⟩
    simp only [Extent.opRet, h.call c w eid _ hwork, h.cache]
  next eid buf hwork =>
    cases hst
    refine ⟨eid, _, howner eid _ hwork, ?_, (h.fetched hinv hwork _).record _⟩
    simp only [Extent.opRet, h.call c w eid _ hwork, h.cache]
  next eid hwork =>
    cases hst
    have hfetched := h.fetched hinv hwork (s.cache c)
    rw [hsame] at hfetched
    refine ⟨eid, _, howner eid _ hwork, ?_, hfetched⟩
    simp only [Extent.opRet, h.call c w eid _ hwork, h.cache]
  next eid a hwork =>
    cases hst
    refine ⟨eid, _, howner eid _ hwork, ?_, h.fetched hinv hwork _⟩
    simp only [Extent.opRet, h.call c w eid _ hwork, h.cache]
  next eid ret hwork =>
    cases hst
    have hplaced := hinv.placed c w
    rw [hwork] at hplaced
    have hdone := h.done hinv (hplaced.1 rfl) (Or.inr ⟨_, hwork⟩)
    refine ⟨eid, _, howner eid _ hwork, ?_, hdone.setCache c ((s.cache c).erase eid)⟩
    simp only [Extent.opRet, h.call c w eid _ hwork, h.cache]
    rfl
  next => cases hst

end

/-! ## Locks change hands -/

theorem before_ne_call (a : Lock.Action Cid Tid) (eid : ExtentId) (op : Op) :
    before a ≠ .call eid op := by
  unfold before
  split <;> exact fun h => by cases h

variable [DecidableEq Cid] [DecidableEq Tid]

/-- What a step of the lock clients does to the rest: the worker that makes it is not in a call of
the cache, before and after. -/
structure Follows (s : State Cid Tid) (a : Lock.Action Cid Tid) (t : State Cid Tid) : Prop where
  lock : Lock.step s.lock a = some t.lock
  cache : t.cache = s.cache
  server : t.server = s.server
  hist : t.hist = s.hist
  mover : ∀ c w, worker a = some (c, w) → s.work c w = before a ∧ t.work c w = .none
  rest : ∀ c w, worker a ≠ some (c, w) → t.work c w = s.work c w

theorem follows_of_lockStep {a : Lock.Action Cid Tid} (hst : lockStep s a = some t) :
    Follows s a t := by
  have hlock := lock_lockStep hst
  unfold lockStep at hst
  cases hw : worker a with
  | none =>
      simp only [hw] at hst
      rcases Option.map_eq_some_iff.1 hst with ⟨l, _, rfl⟩
      exact ⟨hlock, rfl, rfl, rfl, fun c w h => by simp [hw] at h, fun _ _ _ => rfl⟩
  | some cw =>
      simp only [hw] at hst
      rcases Option.ite_none_right_eq_some.1 hst with ⟨hbefore, hst⟩
      rcases Option.map_eq_some_iff.1 hst with ⟨l, _, rfl⟩
      refine ⟨hlock, rfl, rfl, rfl, fun c w h => ?_, fun c w h => ?_⟩
      · cases hw.symm.trans h
        exact ⟨hbefore, work_setWork_self s c w .none⟩
      · refine work_setWork_of_ne s .none fun heq => h ?_
        rw [hw, heq]

theorem Follows.call_iff {a : Lock.Action Cid Tid} (h : Follows s a t) (op : Op) :
    t.work c w = .call eid op ↔ s.work c w = .call eid op := by
  by_cases hw : worker a = some (c, w)
  · rcases h.mover c w hw with ⟨hs, ht⟩
    rw [hs, ht]
    exact ⟨fun heq => (by cases heq), fun heq => absurd heq (before_ne_call a eid op)⟩
  · rw [h.rest c w hw]

variable [Fintype Tid]

/-- A worker that is back from `dorelease` and has not sent the release yet. -/
theorem Follows.flushed {a : Lock.Action Cid Tid} (h : Follows s a t) (hinv : Inv s)
    (hwork : t.work c w = .flushed) (hf : flushing t.lock c w = some eid) :
    s.work c w = .flushed ∧ flushing s.lock c w = some eid := by
  have hw : worker a ≠ some (c, w) := by
    intro hw
    rw [(h.mover c w hw).2] at hwork
    cases hwork
  rw [h.rest c w hw] at hwork
  have hplaced := hinv.placed c w
  rw [hwork] at hplaced
  rcases hplaced with ⟨i, hi⟩
  refine ⟨hwork, ?_⟩
  have hcall : WorkOk s.lock c w (.call i .removeCall) :=
    ⟨fun _ => hi, fun hop => by cases hop⟩
  have hsame := (hcall.moved (moved_step h.lock) hw).1 rfl
  rw [hi, ← hsame, hf]

theorem Refines.follow {a : Lock.Action Cid Tid} {y : Extent.State Cid} (h : Refines s x)
    (hinv : Inv s) (hfol : Follows s a t) (hcache : y.cache = x.cache)
    (hserver : y.server = x.server) (hhist : y.hist = x.hist) (hbusy : y.busy = x.busy)
    (howner : ∀ eid, y.owner eid = (t.lock.holder eid).map Prod.fst)
    (hflushed : ∀ c w eid, s.work c w = .flushed → flushing s.lock c w = some eid →
      y.flushed eid = true)
    (hreleased : ∀ m ∈ t.lock.releases, y.flushed m.entry.lid = true) : Refines t y where
  cache := hcache.trans (h.cache.trans hfol.cache.symm)
  server := hserver.trans (h.server.trans hfol.server.symm)
  hist := hhist.trans (h.hist.trans hfol.hist.symm)
  owner := howner
  call c w eid op hop := by
    rw [hbusy]
    exact h.call c w eid op ((hfol.call_iff op).1 hop)
  busy eid op hop := by
    rw [hbusy] at hop
    rcases h.busy eid op hop with ⟨c, w, hop⟩
    exact ⟨c, w, (hfol.call_iff op).2 hop⟩
  flushed c w eid hwork hf := by
    rcases hfol.flushed hinv hwork hf with ⟨hwork, hf⟩
    exact hflushed c w eid hwork hf
  released := hreleased

/-- A step that leaves the holders as they are is not seen. -/
theorem Refines.unseen {a : Lock.Action Cid Tid} (h : Refines s x) (hinv : Inv s)
    (hfol : Follows s a t) (hholder : t.lock.holder = s.lock.holder)
    (hreleased : ∀ m ∈ t.lock.releases, x.flushed m.entry.lid = true) : Refines t x :=
  h.follow hinv hfol rfl rfl rfl rfl (fun eid => by rw [hholder]; exact h.owner eid) h.flushed
    hreleased

theorem Refines.grant {a : Lock.Action Cid Tid} (h : Refines s x) (hinv : Inv s)
    (hfol : Follows s a t) {d : Cid} {lid : LockId} {xid : Xid} (hnone : s.lock.holder lid = none)
    (hholder : t.lock.holder = Function.update s.lock.holder lid (some (d, xid)))
    (hreleases : ∀ m ∈ t.lock.releases, m ∈ s.lock.releases) :
    ∃ y, Extent.step x (.lock d lid) = some y ∧ Refines t y := by
  have hfree : x.owner lid = none := by rw [h.owner, hnone]; rfl
  refine ⟨_, if_pos hfree, h.follow hinv hfol rfl rfl rfl rfl (fun i => ?_)
    (fun c w i hwork hf => ?_) (fun m hm => ?_)⟩
  · by_cases hi : i = lid
    · subst hi
      simp [hholder]
    · simpa [hholder, hi] using h.owner i
  · -- a lock that nobody holds is not being released
    have hi : i ≠ lid := by
      rintro rfl
      have hown := (carries_of_flushing hf).owns hinv.exclusive
      simp [Lock.State.Owns, hnone] at hown
    exact (flushed_setFlushed_of_ne x false hi).trans (h.flushed c w i hwork hf)
  · have hi : m.entry.lid ≠ lid := by
      intro heq
      exact released_owned hinv.exclusive (hreleases m hm) (heq ▸ hnone)
    exact (flushed_setFlushed_of_ne x false hi).trans (h.released m (hreleases m hm))

theorem Refines.free {a : Lock.Action Cid Tid} (h : Refines s x) (hinv : Inv s)
    (hfol : Follows s a t) {m : ReleaseCall Cid} (hm : m ∈ s.lock.releases)
    (hholder : t.lock.holder = Function.update s.lock.holder m.entry.lid none)
    (hreleases : ∀ m ∈ t.lock.releases, m ∈ s.lock.releases) :
    ∃ y, Extent.step x (.unlock m.entry.lid) = some y ∧ Refines t y := by
  have hidle : x.busy m.entry.lid = none := by
    cases hbusy : x.busy m.entry.lid with
    | none => rfl
    | some op =>
        rcases h.busy _ op hbusy with ⟨c, w, hwork⟩
        have hplaced := hinv.placed c w
        rw [hwork] at hplaced
        exact absurd rfl (hplaced.carries.not_released hinv.exclusive hm)
  refine ⟨_, if_pos ⟨h.released m hm, hidle⟩, h.follow hinv hfol rfl rfl rfl rfl (fun i => ?_)
    h.flushed fun m' hm' => h.released m' (hreleases m' hm')⟩
  by_cases hi : i = m.entry.lid
  · subst hi
    simp [hholder]
  · simpa [hholder, hi] using h.owner i

theorem Refines.lockStep {a : Lock.Action Cid Tid} (h : Refines s x) (hinv : Inv s)
    (hst : lockStep s a = some t) :
    ∃ y, Reach (fun z => z = x) Extent.step anyStep y ∧ Refines t y := by
  have hfol := follows_of_lockStep hst
  cases effect_step hfol.lock with
  | quiet hholder hreleases =>
      exact ⟨x, .refl x, h.unseen hinv hfol hholder fun m hm => h.released m (hreleases m hm)⟩
  | @send c w lid hw hsends hf hholder hreleases =>
      have hwork : s.work c w = .flushed := (hfol.mover c w hw).1.trans (if_pos hsends)
      refine ⟨x, .refl x, h.unseen hinv hfol hholder fun m hm => ?_⟩
      rcases hreleases m hm with hlid | hm
      · rw [hlid]
        exact h.flushed c w lid hwork hf
      · exact h.released m hm
  | grant hnone hholder hreleases =>
      rcases h.grant hinv hfol hnone hholder hreleases with ⟨y, hy, hR⟩
      exact ⟨y, .single trivial hy, hR⟩
  | free hm _ hholder hreleases =>
      rcases h.free hinv hfol hm hholder hreleases with ⟨y, hy, hR⟩
      exact ⟨y, .single trivial hy, hR⟩

theorem Refines.step {a : Action Cid Tid} (h : Refines s x) (hinv : Inv s) (hok : HoldsLock s a)
    (hst : step s a = some t) :
    ∃ y, Reach (fun z => z = x) Extent.step anyStep y ∧ Refines t y := by
  cases a with
  | lock a => exact h.lockStep hinv hst
  | put c th eid buf now =>
      rcases Option.ite_none_right_eq_some.1 hst with ⟨hout, ⟨⟩⟩
      have hw := carries_of_heldBy (w := .thread th) hok
      refine ⟨_, .single (a := .put c eid buf now) trivial (if_pos (h.ready hinv hw hout.2)), ?_⟩
      unfold Extent.put
      rw [h.cache]
      exact h.localCall hinv hw hout.2 _ _
  | remove c th eid =>
      rcases Option.ite_none_right_eq_some.1 hst with ⟨hout, ⟨⟩⟩
      have hw := carries_of_heldBy (w := .thread th) hok
      refine ⟨_, .single (a := .remove c eid) trivial (if_pos (h.ready hinv hw hout.2)), ?_⟩
      unfold Extent.remove
      rw [h.cache]
      exact h.localCall hinv hw hout.2 _ _
  | get c th eid now =>
      rcases Option.ite_none_right_eq_some.1 hst with ⟨hout, ⟨⟩⟩
      have hw := carries_of_heldBy (w := .thread th) hok
      exact ⟨_, .single (a := .get c eid now) trivial (if_pos (h.ready hinv hw hout.2)),
        h.get hinv hw hout.2 now⟩
  | getattr c th eid =>
      rcases Option.ite_none_right_eq_some.1 hst with ⟨hout, ⟨⟩⟩
      have hw := carries_of_heldBy (w := .thread th) hok
      exact ⟨_, .single (a := .getattr c eid) trivial (if_pos (h.ready hinv hw hout.2)),
        h.getattr hinv hw hout.2⟩
  | flush c w =>
      simp only [Locked.step] at hst
      split at hst
      next eid hf =>
        rcases Option.ite_none_right_eq_some.1 hst with ⟨hnone, ⟨⟩⟩
        have hready := h.ready hinv (carries_of_flushing hf) hnone
        exact ⟨_, .single (a := .flush c eid) trivial (if_pos hready), h.flush hinv hf hnone⟩
      next => cases hst
  | serve c w a =>
      rcases h.serve hinv hst with ⟨eid, y, hy, hR⟩
      exact ⟨y, .single (a := .serve eid a) trivial hy, hR⟩
  | ret c w now =>
      rcases h.opRet hinv hst with ⟨eid, y, howner, hy, hR⟩
      have hstep : Extent.step x (.ret c eid now) = some y := (if_pos howner).trans hy
      exact ⟨y, .single trivial hstep, hR⟩

end Refines

theorem refines_init : Refines (init : State Cid Tid) Extent.init where
  cache := rfl
  server := rfl
  hist := rfl
  owner _ := rfl
  call c w eid op h := by cases h
  busy eid op h := by cases h
  flushed c w eid h := by cases h
  released m h := by cases h

variable [DecidableEq Cid] [DecidableEq Tid] [Fintype Tid]

/-- Every run of the lock clients and the caches is one of the caches under a lock that is held
by one client at a time and given up after a flush. -/
theorem exists_refines {s : State Cid Tid} (h : Reach Init step HoldsLock s) :
    ∃ x, Reach Extent.Init Extent.step anyStep x ∧ Refines s x := by
  refine Reach.simulation (J := Inv) inv_reach ?_ ?_ h
  · rintro _ rfl
    exact ⟨Extent.init, rfl, refines_init⟩
  · intro s a t x hinv _ hR hok hst
    exact hR.step hinv hok hst

/-- With the locks of `lock_client_cache_rsm`, and `dorelease` before every release, every `get`
at any client answers with the bytes of the last `put` or `remove` at any client that returned
`OK`; and while nobody has the lock of an extent, no cache has an entry for it and the server has
its last content. -/
theorem locked_coherence {s : State Cid Tid} (h : Reach Init step HoldsLock s) :
    (∀ post pre eid r, s.hist = post ++ .get eid r :: pre → r = lastPut eid pre) ∧
      ∀ eid, s.lock.holder eid = none →
        s.server eid = lastPut eid s.hist ∧ ∀ c, s.cache c eid = none := by
  rcases exists_refines h with ⟨x, hx, hR⟩
  have hinv := Extent.inv_reach hx
  refine ⟨fun post pre eid r hget => ?_, fun eid hfree => ?_⟩
  · have hlegal := hinv.legal
    rw [hR.hist, hget] at hlegal
    exact Legal.get_eq post hlegal
  · have howner : x.owner eid = none := by rw [hR.owner, hfree]; rfl
    have hserver := ((hinv.eid eid).unowned howner).2
    rw [hR.server, hR.hist] at hserver
    refine ⟨hserver, fun c => ?_⟩
    rw [← hR.cache]
    exact (hinv.eid eid).others c (by simp [howner])

/-- A client writes and keeps the lock; another one asks for it, `releaser` flushes, and the other
one reads. -/
def revokedAfterWrite : List (Action Bool Unit) :=
  [.lock (.acquire false () 1), .lock (.loop false ()), .lock (.sendAcquire false ()),
    .lock (.serveAcquire
      { client := false
        lid := 1
        xid := 0
        id := 0 }),
    .lock (.acquireRet false () .ok), .put false () 1 [42] 10, .lock (.release false () 1),
    .lock (.revoke false 1 0), .lock (.releaserDeq false), .flush false .releaser,
    .serve false .releaser EidContent.zero.attr, .ret false .releaser 11,
    .lock (.releaserSend false),
    .lock (.serveRelease
      { client := false
        entry :=
          { lid := 1
            xid := 0 } }),
    .lock (.acquire true () 1), .lock (.loop true ()), .lock (.sendAcquire true ()),
    .lock (.serveAcquire
      { client := true
        lid := 1
        xid := 0
        id := 1 }),
    .lock (.acquireRet true () .ok), .get true () 1 12,
    .serve true (.thread ()) EidContent.zero.attr, .ret true (.thread ()) 13]

theorem locked_coherence_revokedAfterWrite :
    ∃ s : State Bool Unit, Reach Init step HoldsLock s ∧
      ∃ r, s.hist = [] ++ .get 1 r :: [.put 1 [42]] ∧ r = lastPut 1 [.put 1 [42]] ∧
        r = some [42] := by
  have hrun : ∃ s : State Bool Unit, Reach Init step HoldsLock s ∧
      s.hist = [.get 1 (some [42]), .put 1 [42]] :=
    Reach.exists_of_runFrom (P := fun s : State Bool Unit =>
      s.hist = [.get 1 (some [42]), .put 1 [42]]) revokedAfterWrite rfl (by decide +kernel)
  rcases hrun with ⟨s, hs, hhist⟩
  exact ⟨s, hs, _, hhist, (locked_coherence hs).1 [] _ _ _ hhist, rfl⟩

end Locked
end Extent
end Yfs

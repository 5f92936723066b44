import Yfs.Extent.Cache
import Yfs.Lib.MapHistory
import Yfs.Lib.Run

/-!
# Coherence — extent caches of several clients over one server

Clients operate on an extent only under its lock and flush it before the lock moves on
(`lock_release::dorelease`).  The server is the assumed one, a map, and executes every RPC
exactly once.  Operations on different extents interleave at every point where a client gives
up its mutex or the server executes a call.

The history `hist` records what the operations have returned.  `coherence` says that it is the
history of one single map: the caches cannot be seen.  The invariant relates, for each extent,
the holder's entry, the server and the history (`EntryOk`, `OpOk`).
-/

namespace Yfs
namespace Extent

open Lib

/-- An operation that has given up the mutex: its RPC is on the way, or was executed. -/
inductive Op
  | getCall
  | getRet (r : Option Bytes)
  | getattrCall
  | getattrRet (r : Option Attr)
  | putCall (buf : Bytes)
  | removeCall
  | flushRet (ret : Status)
  deriving DecidableEq, Repr

structure State (Cid : Type) where
  cache : Cid → Cache
  server : ExtentId → Option Bytes
  owner : ExtentId → Option Cid
  flushed : ExtentId → Bool
  busy : ExtentId → Option Op
  hist : List (MapEvent ExtentId Bytes)

inductive Action (Cid : Type)
  | lock (c : Cid) (eid : ExtentId)
  | unlock (eid : ExtentId)
  | put (c : Cid) (eid : ExtentId) (buf : Bytes) (now : UInt32)
  | remove (c : Cid) (eid : ExtentId)
  | get (c : Cid) (eid : ExtentId) (now : UInt32)
  | getattr (c : Cid) (eid : ExtentId)
  | flush (c : Cid) (eid : ExtentId)
  | serve (eid : ExtentId) (a : Attr)
  | ret (c : Cid) (eid : ExtentId) (now : UInt32)

variable {Cid : Type}

/-! ## Steps -/

/-- `c` holds the lock and has no operation on `eid` under way. -/
def State.Ready (s : State Cid) (c : Cid) (eid : ExtentId) : Prop :=
  s.owner eid = some c ∧ s.busy eid = none

section

variable [DecidableEq Cid]

instance (s : State Cid) (c : Cid) (eid : ExtentId) : Decidable (s.Ready c eid) :=
  inferInstanceAs (Decidable (_ ∧ _))

def State.setCache (s : State Cid) (c : Cid) (k : Cache) : State Cid :=
  { s with cache := Function.update s.cache c k }

def State.setBusy (s : State Cid) (eid : ExtentId) (op : Option Op) : State Cid :=
  { s with busy := Function.update s.busy eid op }

def State.setFlushed (s : State Cid) (eid : ExtentId) (b : Bool) : State Cid :=
  { s with flushed := Function.update s.flushed eid b }

def State.record (s : State Cid) (e : MapEvent ExtentId Bytes) : State Cid :=
  { s with hist := e :: s.hist }

/-- A call that ends in one critical section: the cache changes, and the event is recorded if
the call returns `OK`. -/
def State.localCall (s : State Cid) (c : Cid) (eid : ExtentId) (r : Cache × Status)
    (e : MapEvent ExtentId Bytes) : State Cid :=
  if r.2 = .ok then
    ((s.setCache c r.1).setFlushed eid false).record e
  else
    (s.setCache c r.1).setFlushed eid false

def put (s : State Cid) (c : Cid) (eid : ExtentId) (buf : Bytes) (now : UInt32) : State Cid :=
  s.localCall c eid ((s.cache c).put eid buf now) (.put eid buf)

def remove (s : State Cid) (c : Cid) (eid : ExtentId) : State Cid :=
  s.localCall c eid ((s.cache c).remove eid) (.remove eid)

def get (s : State Cid) (c : Cid) (eid : ExtentId) (now : UInt32) : State Cid :=
  match (s.cache c).getStart eid now with
  | .call => (s.setBusy eid (some .getCall)).setFlushed eid false
  | .noent => (s.setFlushed eid false).record (.get eid none)
  | .hit k buf => ((s.setCache c k).setFlushed eid false).record (.get eid (some buf))

def getattr (s : State Cid) (c : Cid) (eid : ExtentId) : State Cid :=
  match (s.cache c).getattrStart eid with
  | .call => (s.setBusy eid (some .getattrCall)).setFlushed eid false
  | .noent => s.setFlushed eid false
  | .hit _ => s.setFlushed eid false

def flush (s : State Cid) (c : Cid) (eid : ExtentId) : State Cid :=
  match (s.cache c).flushStart eid with
  | .noent => s.setFlushed eid true
  | .put buf => (s.setBusy eid (some (.putCall buf))).setFlushed eid false
  | .remove => (s.setBusy eid (some .removeCall)).setFlushed eid false
  | .drop => (s.setCache c ((s.cache c).erase eid)).setFlushed eid true

/-- The server executes the RPC on `eid`; `a` are the attributes it keeps for the extent. -/
def serve (s : State Cid) (eid : ExtentId) (a : Attr) : Option (State Cid) :=
  match s.busy eid with
  | some .getCall => some (s.setBusy eid (some (.getRet (s.server eid))))
  | some .getattrCall =>
      some (s.setBusy eid (some (.getattrRet ((s.server eid).map fun _ => a))))
  | some (.putCall buf) =>
      some
        { s.setBusy eid (some (.flushRet .ok)) with
          server := Function.update s.server eid (some buf) }
  | some .removeCall =>
      some
        { s.setBusy eid (some (.flushRet (if (s.server eid).isSome then .ok else .noent))) with
          server := Function.update s.server eid none }
  | _ => none

/-- A fetch returns: the operation takes the mutex again. -/
def State.fetched (s : State Cid) (c : Cid) (eid : ExtentId) (k : Cache) : State Cid :=
  ((s.setCache c k).setBusy eid none).setFlushed eid false

def opRet (s : State Cid) (c : Cid) (eid : ExtentId) (now : UInt32) : Option (State Cid) :=
  match s.busy eid with
  | some (.getRet none) => some ((s.fetched c eid (s.cache c)).record (.get eid none))
  | some (.getRet (some buf)) =>
      some ((s.fetched c eid ((s.cache c).getFill eid buf now)).record (.get eid (some buf)))
  | some (.getattrRet none) => some (s.fetched c eid (s.cache c))
  | some (.getattrRet (some a)) => some (s.fetched c eid ((s.cache c).getattrFill eid a))
  | some (.flushRet _) =>
      some (((s.setCache c ((s.cache c).erase eid)).setBusy eid none).setFlushed eid true)
  | _ => none

def step (s : State Cid) : Action Cid → Option (State Cid)
  | .lock c eid =>
      if s.owner eid = none then
        some
          { s.setFlushed eid false with
            owner := Function.update s.owner eid (some c) }
      else
        none
  | .unlock eid =>
      if s.flushed eid = true ∧ s.busy eid = none then
        some { s with owner := Function.update s.owner eid none }
      else
        none
  | .put c eid buf now => if s.Ready c eid then some (put s c eid buf now) else none
  | .remove c eid => if s.Ready c eid then some (remove s c eid) else none
  | .get c eid now => if s.Ready c eid then some (get s c eid now) else none
  | .getattr c eid => if s.Ready c eid then some (getattr s c eid) else none
  | .flush c eid => if s.Ready c eid then some (flush s c eid) else none
  | .serve eid a => serve s eid a
  | .ret c eid now => if s.owner eid = some c then opRet s c eid now else none

def init : State Cid where
  cache _ _ := none
  server _ := none
  owner _ := none
  flushed _ := false
  busy _ := none
  hist := []

def Init (s : State Cid) : Prop :=
  s = init

end

/-! ## The invariant of one extent -/

/-- The holder's entry against the server and the content the history asks for. -/
def EntryOk (server latest : Option Bytes) : Option EidContent → Prop
  | none => server = latest
  | some e =>
      match e.state with
      | .dirty => latest = some e.buf
      | .remove => latest = none
      | .none => server = latest
      | .consistent => server = latest ∧ latest = some e.buf

/-- The entry while an operation waits for the server: one that fetches leaves it as it is, one
that flushes will erase it. -/
def OpOk (server latest : Option Bytes) (entry : Option EidContent) : Op → Prop
  | .getCall => EntryOk server latest entry ∧ server = latest
  | .getRet r => EntryOk server latest entry ∧ server = latest ∧ r = latest
  | .getattrCall => EntryOk server latest entry ∧ server = latest
  | .getattrRet _ => EntryOk server latest entry ∧ server = latest
  | .putCall buf => latest = some buf
  | .removeCall => latest = none
  | .flushRet _ => server = latest

/-- What is known about one extent; `view` gives every client's entry. -/
structure EidOk (server latest : Option Bytes) (owner : Option Cid) (busy : Option Op)
    (flushed : Bool) (view : Cid → Option EidContent) : Prop where
  others : ∀ d, owner ≠ some d → view d = none
  unowned : owner = none → busy = none ∧ server = latest
  idle : ∀ c, owner = some c → busy = none → EntryOk server latest (view c)
  op : ∀ c o, owner = some c → busy = some o → OpOk server latest (view c) o
  clean : ∀ c, owner = some c → flushed = true → busy = none → view c = none

section EidOk

variable {server latest : Option Bytes} {flushed : Bool} {view : Cid → Option EidContent} {c : Cid}

theorem EidOk.ofIdle (hothers : ∀ d, d ≠ c → view d = none)
    (hentry : EntryOk server latest (view c)) (hclean : flushed = true → view c = none) :
    EidOk server latest (some c) none flushed view where
  others := fun d hd => hothers d fun heq => hd (by rw [heq])
  unowned := fun h => by cases h
  idle := fun d hd _ => by
    cases hd
    exact hentry
  op := fun d o _ ho => by cases ho
  clean := fun d hd hf _ => by
    cases hd
    exact hclean hf

theorem EidOk.ofBusy {o : Op} (hothers : ∀ d, d ≠ c → view d = none)
    (hop : OpOk server latest (view c) o) :
    EidOk server latest (some c) (some o) flushed view where
  others := fun d hd => hothers d fun heq => hd (by rw [heq])
  unowned := fun h => by cases h
  idle := fun d _ hb => by cases hb
  op := fun d o' hd ho => by
    cases hd
    cases ho
    exact hop
  clean := fun d _ _ hb => by cases hb

theorem EidOk.ofUnowned (hview : ∀ d, view d = none) (hserver : server = latest) :
    EidOk server latest none none flushed view where
  others := fun d _ => hview d
  unowned := fun _ => ⟨rfl, hserver⟩
  idle := fun d hd _ => by cases hd
  op := fun d o hd _ => by cases hd
  clean := fun d hd _ _ => by cases hd

end EidOk

def State.EidOkAt (s : State Cid) (eid : ExtentId) : Prop :=
  EidOk (s.server eid) (lastPut eid s.hist) (s.owner eid) (s.busy eid) (s.flushed eid)
    fun d => s.cache d eid

structure Inv (s : State Cid) : Prop where
  eid : ∀ eid, s.EidOkAt eid
  legal : Legal s.hist

/-! ## Steps keep the other extents -/

/-- Nothing about the extents other than `eid` differs. -/
structure SameOff (eid : ExtentId) (s t : State Cid) : Prop where
  server : ∀ i, i ≠ eid → t.server i = s.server i
  latest : ∀ i, i ≠ eid → lastPut i t.hist = lastPut i s.hist
  owner : ∀ i, i ≠ eid → t.owner i = s.owner i
  flushed : ∀ i, i ≠ eid → t.flushed i = s.flushed i
  busy : ∀ i, i ≠ eid → t.busy i = s.busy i
  cache : ∀ d i, i ≠ eid → t.cache d i = s.cache d i

theorem SameOff.refl (eid : ExtentId) (s : State Cid) : SameOff eid s s where
  server _ _ := rfl
  latest _ _ := rfl
  owner _ _ := rfl
  flushed _ _ := rfl
  busy _ _ := rfl
  cache _ _ _ := rfl

section SameOff

variable {eid : ExtentId} {s t : State Cid}

theorem SameOff.setBusy (h : SameOff eid s t) (o : Option Op) :
    SameOff eid s (t.setBusy eid o) where
  server := h.server
  latest := h.latest
  owner := h.owner
  flushed := h.flushed
  busy := fun i hi => by simpa [State.setBusy, hi] using h.busy i hi
  cache := h.cache

theorem SameOff.setFlushed (h : SameOff eid s t) (b : Bool) :
    SameOff eid s (t.setFlushed eid b) where
  server := h.server
  latest := h.latest
  owner := h.owner
  flushed := fun i hi => by simpa [State.setFlushed, hi] using h.flushed i hi
  busy := h.busy
  cache := h.cache

theorem SameOff.setServer (h : SameOff eid s t) (v : Option Bytes) :
    SameOff eid s { t with server := Function.update t.server eid v } where
  server := fun i hi => by simpa [hi] using h.server i hi
  latest := h.latest
  owner := h.owner
  flushed := h.flushed
  busy := h.busy
  cache := h.cache

theorem SameOff.setOwner (h : SameOff eid s t) (c : Option Cid) :
    SameOff eid s { t with owner := Function.update t.owner eid c } where
  server := h.server
  latest := h.latest
  owner := fun i hi => by simpa [hi] using h.owner i hi
  flushed := h.flushed
  busy := h.busy
  cache := h.cache

theorem SameOff.record (h : SameOff eid s t) {e : MapEvent ExtentId Bytes}
    (he : ∀ i, i ≠ eid → lastPut i (e :: t.hist) = lastPut i t.hist) :
    SameOff eid s (t.record e) where
  server := h.server
  latest := fun i hi => (he i hi).trans (h.latest i hi)
  owner := h.owner
  flushed := h.flushed
  busy := h.busy
  cache := h.cache

theorem Inv.of_sameOff (h : Inv s) (hsame : SameOff eid s t) (heid : t.EidOkAt eid)
    (hlegal : Legal t.hist) : Inv t := by
  refine ⟨fun i => ?_, hlegal⟩
  by_cases hi : i = eid
  · exact hi ▸ heid
  · have hview : (fun d => t.cache d i) = fun d => s.cache d i :=
      funext fun d => hsame.cache d i hi
    unfold State.EidOkAt
    rw [hsame.server i hi, hsame.latest i hi, hsame.owner i hi, hsame.flushed i hi,
      hsame.busy i hi, hview]
    exact h.eid i

variable [DecidableEq Cid]

theorem SameOff.setCache (h : SameOff eid s t) {c : Cid} {k : Cache}
    (hk : ∀ i, i ≠ eid → k i = s.cache c i) : SameOff eid s (t.setCache c k) where
  server := h.server
  latest := h.latest
  owner := h.owner
  flushed := h.flushed
  busy := h.busy
  cache := fun d i hi => by
    by_cases hd : d = c
    · subst hd
      simpa [State.setCache] using hk i hi
    · simpa [State.setCache, hd] using h.cache d i hi

end SameOff

/-! ## Steps keep the extent they work on -/

section EidOkAt

variable {s t : State Cid} {c : Cid} {eid : ExtentId}

theorem eidOkAt_of_idle (howner : t.owner eid = some c) (hbusy : t.busy eid = none)
    (hothers : ∀ d, d ≠ c → t.cache d eid = none)
    (hentry : EntryOk (t.server eid) (lastPut eid t.hist) (t.cache c eid))
    (hclean : t.flushed eid = true → t.cache c eid = none) : t.EidOkAt eid := by
  unfold State.EidOkAt
  rw [howner, hbusy]
  exact EidOk.ofIdle hothers hentry hclean

theorem eidOkAt_of_busy {o : Op} (howner : t.owner eid = some c) (hbusy : t.busy eid = some o)
    (hothers : ∀ d, d ≠ c → t.cache d eid = none)
    (hop : OpOk (t.server eid) (lastPut eid t.hist) (t.cache c eid) o) : t.EidOkAt eid := by
  unfold State.EidOkAt
  rw [howner, hbusy]
  exact EidOk.ofBusy hothers hop

theorem State.EidOkAt.others_none (h : s.EidOkAt eid) (howner : s.owner eid = some c) :
    ∀ d, d ≠ c → s.cache d eid = none := by
  intro d hd
  refine h.others d fun heq => hd ?_
  exact Option.some.inj (heq.symm.trans howner)

@[simp] theorem setBusy_busy_self (s : State Cid) (eid : ExtentId) (o : Option Op) :
    (s.setBusy eid o).busy eid = o := by
  simp [State.setBusy]

@[simp] theorem setFlushed_flushed_self (s : State Cid) (eid : ExtentId) (b : Bool) :
    (s.setFlushed eid b).flushed eid = b := by
  simp [State.setFlushed]

/-- An operation that changes nothing but the flag. -/
theorem Inv.setFlushed_false (h : Inv s) (hr : s.Ready c eid) : Inv (s.setFlushed eid false) := by
  have hothers := (h.eid eid).others_none hr.1
  refine h.of_sameOff ((SameOff.refl eid s).setFlushed false) ?_ h.legal
  refine eidOkAt_of_idle (c := c) hr.1 hr.2 hothers ((h.eid eid).idle c hr.1 hr.2) ?_
  intro hf
  rw [setFlushed_flushed_self] at hf
  cases hf

/-- An operation that gives up the mutex for an RPC. -/
theorem Inv.setBusy (h : Inv s) (hr : s.Ready c eid) {o : Op}
    (hop : OpOk (s.server eid) (lastPut eid s.hist) (s.cache c eid) o) :
    Inv ((s.setBusy eid (some o)).setFlushed eid false) := by
  have hothers := (h.eid eid).others_none hr.1
  refine h.of_sameOff (((SameOff.refl eid s).setBusy (some o)).setFlushed false) ?_ h.legal
  refine eidOkAt_of_busy (c := c) (o := o) hr.1 ?_ hothers hop
  exact setBusy_busy_self s eid (some o)

variable [DecidableEq Cid]

@[simp] theorem setCache_cache_self (s : State Cid) (c : Cid) (k : Cache) :
    (s.setCache c k).cache c = k := by
  simp [State.setCache]

@[simp] theorem setCache_cache_of_ne (s : State Cid) {c d : Cid} (k : Cache) (h : d ≠ c) :
    (s.setCache c k).cache d = s.cache d := by
  simp [State.setCache, h]

theorem others_setCache (h : ∀ d, d ≠ c → s.cache d eid = none) (k : Cache) :
    ∀ d, d ≠ c → (s.setCache c k).cache d eid = none := by
  intro d hd
  rw [setCache_cache_of_ne s k hd]
  exact h d hd

/-- The holder's cache changes at `eid` only and the operation returns at once. -/
theorem Inv.local (h : Inv s) (hr : s.Ready c eid) {k : Cache} {e : MapEvent ExtentId Bytes}
    (hk : ∀ i, i ≠ eid → k i = s.cache c i)
    (he : ∀ i, i ≠ eid → lastPut i (e :: s.hist) = lastPut i s.hist)
    (hentry : EntryOk (s.server eid) (lastPut eid (e :: s.hist)) (k eid))
    (hlegal : Legal (e :: s.hist)) : Inv (((s.setCache c k).setFlushed eid false).record e) := by
  have hothers := (h.eid eid).others_none hr.1
  refine h.of_sameOff ((((SameOff.refl eid s).setCache hk).setFlushed false).record he) ?_ hlegal
  refine eidOkAt_of_idle (c := c) hr.1 hr.2 (others_setCache hothers k) ?_ ?_
  · change EntryOk (s.server eid) (lastPut eid (e :: s.hist)) ((s.setCache c k).cache c eid)
    rw [setCache_cache_self]
    exact hentry
  · intro hf
    change (s.setFlushed eid false).flushed eid = true at hf
    rw [setFlushed_flushed_self] at hf
    cases hf

end EidOkAt

section Ops

variable {s t : State Cid} {c : Cid} {eid : ExtentId}

theorem Inv.getattr (h : Inv s) (hr : s.Ready c eid) : Inv (getattr s c eid) := by
  have hentry := (h.eid eid).idle c hr.1 hr.2
  unfold Extent.getattr Cache.getattrStart
  cases he : s.cache c eid with
  | none =>
      rw [he] at hentry
      refine h.setBusy hr ?_
      rw [he]
      exact ⟨hentry, hentry⟩
  | some e =>
      by_cases hst : e.state = .remove
      · simpa [hst] using h.setFlushed_false hr
      · simpa [hst] using h.setFlushed_false hr

theorem setBusy_eq_self {o : Option Op} (h : s.busy eid = o) : s.setBusy eid o = s := by
  simp [State.setBusy, ← h]

/-- An operation under way belongs to the holder of the lock. -/
theorem State.EidOkAt.op_of_busy (h : s.EidOkAt eid) {o : Op} (hbusy : s.busy eid = some o) :
    ∃ c, s.owner eid = some c ∧ OpOk (s.server eid) (lastPut eid s.hist) (s.cache c eid) o := by
  cases howner : s.owner eid with
  | none =>
      have hnone := (h.unowned howner).1
      rw [hbusy] at hnone
      cases hnone
  | some c => exact ⟨c, rfl, h.op c o howner hbusy⟩

theorem Inv.served (h : Inv s) (howner : s.owner eid = some c) {o : Op} (v : Option Bytes)
    (hop : OpOk v (lastPut eid s.hist) (s.cache c eid) o) :
    Inv { s.setBusy eid (some o) with server := Function.update s.server eid v } := by
  have hothers := (h.eid eid).others_none howner
  refine h.of_sameOff (((SameOff.refl eid s).setBusy (some o)).setServer v) ?_ h.legal
  refine eidOkAt_of_busy (c := c) (o := o) howner (setBusy_busy_self s eid (some o)) hothers ?_
  have hv : Function.update s.server eid v eid = v := Function.update_self ..
  change OpOk (Function.update s.server eid v eid) (lastPut eid s.hist) (s.cache c eid) o
  rw [hv]
  exact hop

/-- An answer that leaves the server's map alone. -/
theorem Inv.answered (h : Inv s) (howner : s.owner eid = some c) {o : Op}
    (hop : OpOk (s.server eid) (lastPut eid s.hist) (s.cache c eid) o) :
    Inv (s.setBusy eid (some o)) := by
  have hserved := h.served howner (s.server eid) hop
  rwa [Function.update_eq_self] at hserved

theorem Inv.serve (h : Inv s) {a : Attr} (hst : serve s eid a = some t) : Inv t := by
  unfold Extent.serve at hst
  split at hst
  next hbusy =>
    rcases (h.eid eid).op_of_busy hbusy with ⟨c, howner, hop⟩
    cases hst
    exact h.answered howner ⟨hop.1, hop.2, hop.2⟩
  next hbusy =>
    rcases (h.eid eid).op_of_busy hbusy with ⟨c, howner, hop⟩
    cases hst
    exact h.answered howner hop
  next buf hbusy =>
    rcases (h.eid eid).op_of_busy hbusy with ⟨c, howner, hop⟩
    cases hst
    exact h.served howner (some buf) (Eq.symm hop)
  next hbusy =>
    rcases (h.eid eid).op_of_busy hbusy with ⟨c, howner, hop⟩
    cases hst
    exact h.served howner none (Eq.symm hop)
  next => cases hst

/-- A `get` that answers what the history asks for may be recorded. -/
theorem Inv.recordGet (h : Inv s) {r : Option Bytes} (hr : r = lastPut eid s.hist) :
    Inv (s.record (.get eid r)) :=
  ⟨h.eid, hr, h.legal⟩

theorem Inv.lock (h : Inv s) (hfree : s.owner eid = none) :
    Inv { s.setFlushed eid false with owner := Function.update s.owner eid (some c) } := by
  have hsame := ((SameOff.refl eid s).setFlushed false).setOwner (some c)
  have hview : ∀ d, s.cache d eid = none := fun d => (h.eid eid).others d (by simp [hfree])
  rcases (h.eid eid).unowned hfree with ⟨hbusy, hserver⟩
  refine h.of_sameOff hsame (eidOkAt_of_idle (c := c) ?_ hbusy (fun d _ => hview d) ?_
    (fun _ => hview c)) h.legal
  · exact Function.update_self ..
  · change EntryOk (s.server eid) (lastPut eid s.hist) (s.cache c eid)
    rw [hview c]
    exact hserver

variable [DecidableEq Cid]

theorem setCache_self (s : State Cid) (c : Cid) : s.setCache c (s.cache c) = s := by
  simp [State.setCache]

theorem Inv.put (h : Inv s) (hr : s.Ready c eid) (buf : Bytes) (now : UInt32) :
    Inv (put s c eid buf now) := by
  unfold Extent.put Cache.put
  split
  · simpa [State.localCall, setCache_self] using h.setFlushed_false hr
  · refine h.local hr (fun i hi => by simp [hi]) (fun i hi => ?_) (by simp [EntryOk]) h.legal
    exact lastPut_put_of_ne (Ne.symm hi) buf s.hist

theorem Inv.remove (h : Inv s) (hr : s.Ready c eid) : Inv (remove s c eid) := by
  unfold Extent.remove Cache.remove
  split
  · simpa [State.localCall, setCache_self] using h.setFlushed_false hr
  · refine h.local hr (fun i hi => by simp [hi]) (fun i hi => ?_) (by simp [EntryOk]) h.legal
    exact lastPut_remove_of_ne (Ne.symm hi) s.hist

/-- The entry that answers a `get` holds the content of the history, whatever its state. -/
theorem EntryOk.hit {server latest : Option Bytes} {e : EidContent} (now : UInt32)
    (h : EntryOk server latest (some e)) (hst : e.state = .dirty ∨ e.state = .consistent) :
    some e.buf = latest ∧
      EntryOk server latest (some (e.touch now)) := by
  rcases hst with hst | hst
  · simp only [EntryOk, EidContent.touch, hst] at h ⊢
    exact ⟨h.symm, h⟩
  · simp only [EntryOk, EidContent.touch, hst] at h ⊢
    exact ⟨h.2.symm, h⟩

theorem Inv.hit (h : Inv s) (hr : s.Ready c eid) {e : EidContent} (now : UInt32)
    (he : s.cache c eid = some e) (hst : e.state = .dirty ∨ e.state = .consistent) :
    Inv (((s.setCache c ((s.cache c).set eid (e.touch now))).setFlushed eid false).record
      (.get eid (some e.buf))) := by
  have hentry := (h.eid eid).idle c hr.1 hr.2
  rw [he] at hentry
  rcases hentry.hit now hst with ⟨hbuf, hnew⟩
  refine h.local hr (fun i hi => by simp [hi]) (fun i _ => rfl) ?_ ⟨hbuf, h.legal⟩
  simpa using hnew

theorem Inv.get (h : Inv s) (hr : s.Ready c eid) (now : UInt32) : Inv (get s c eid now) := by
  have hentry := (h.eid eid).idle c hr.1 hr.2
  cases he : s.cache c eid with
  | none =>
      have hstart : (s.cache c).getStart eid now = .call := by simp [Cache.getStart, he]
      simp only [Extent.get, hstart]
      refine h.setBusy hr ?_
      rw [he] at hentry ⊢
      exact ⟨hentry, hentry⟩
  | some e =>
      cases hst : e.state with
      | dirty =>
          have hstart : (s.cache c).getStart eid now =
              .hit ((s.cache c).set eid (e.touch now)) e.buf := by simp [Cache.getStart, he, hst]
          simp only [Extent.get, hstart]
          exact h.hit hr now he (Or.inl hst)
      | consistent =>
          have hstart : (s.cache c).getStart eid now =
              .hit ((s.cache c).set eid (e.touch now)) e.buf := by simp [Cache.getStart, he, hst]
          simp only [Extent.get, hstart]
          exact h.hit hr now he (Or.inr hst)
      | none =>
          have hstart : (s.cache c).getStart eid now = .call := by simp [Cache.getStart, he, hst]
          have hserver : s.server eid = lastPut eid s.hist := by
            simpa [he, EntryOk, hst] using hentry
          simp only [Extent.get, hstart]
          exact h.setBusy hr ⟨hentry, hserver⟩
      | remove =>
          have hstart : (s.cache c).getStart eid now = .noent := by simp [Cache.getStart, he, hst]
          have hnone : lastPut eid s.hist = none := by simpa [he, EntryOk, hst] using hentry
          have hlocal := h.local (e := .get eid none) hr (k := s.cache c) (fun i _ => rfl)
            (fun i _ => rfl) hentry ⟨hnone.symm, h.legal⟩
          rw [setCache_self] at hlocal
          simp only [Extent.get, hstart]
          exact hlocal

/-- The entry of the holder is dropped; this needs the server to be up to date. -/
theorem Inv.erase (h : Inv s) (howner : s.owner eid = some c)
    (hserver : s.server eid = lastPut eid s.hist) (o : Option Op) (ho : o = none) :
    Inv (((s.setCache c ((s.cache c).erase eid)).setBusy eid o).setFlushed eid true) := by
  subst ho
  have hothers := (h.eid eid).others_none howner
  have hsame := ((SameOff.refl eid s).setCache (c := c) (k := (s.cache c).erase eid)
    (fun i hi => by simp [hi])).setBusy none
  refine h.of_sameOff (hsame.setFlushed true) ?_ h.legal
  have hgone : (s.setCache c ((s.cache c).erase eid)).cache c eid = none := by simp
  refine eidOkAt_of_idle (c := c) howner (setBusy_busy_self _ eid none)
    (others_setCache hothers _) ?_ (fun _ => hgone)
  change EntryOk (s.server eid) (lastPut eid s.hist)
    ((s.setCache c ((s.cache c).erase eid)).cache c eid)
  rw [hgone]
  exact hserver

theorem Inv.flush (h : Inv s) (hr : s.Ready c eid) : Inv (flush s c eid) := by
  have hentry := (h.eid eid).idle c hr.1 hr.2
  have hdrop := fun hserver => h.erase hr.1 hserver none rfl
  rw [setBusy_eq_self (s := s.setCache c _) hr.2] at hdrop
  cases he : s.cache c eid with
  | none =>
      -- nothing is cached, so dropping the entry changes nothing
      have hstart : (s.cache c).flushStart eid = .noent := by simp [Cache.flushStart, he]
      have hsame : (s.cache c).erase eid = s.cache c := by simp [Cache.erase, ← he]
      rw [hsame, setCache_self] at hdrop
      rw [he] at hentry
      simp only [Extent.flush, hstart]
      exact hdrop hentry
  | some e =>
      rw [he] at hentry
      cases hst : e.state with
      | dirty =>
          have hstart : (s.cache c).flushStart eid = .put e.buf := by
            simp [Cache.flushStart, he, hst]
          simp only [Extent.flush, hstart]
          refine h.setBusy hr ?_
          simpa [OpOk, EntryOk, hst] using hentry
      | remove =>
          have hstart : (s.cache c).flushStart eid = .remove := by
            simp [Cache.flushStart, he, hst]
          simp only [Extent.flush, hstart]
          refine h.setBusy hr ?_
          simpa [OpOk, EntryOk, hst] using hentry
      | none =>
          have hstart : (s.cache c).flushStart eid = .drop := by simp [Cache.flushStart, he, hst]
          simp only [Extent.flush, hstart]
          refine hdrop ?_
          simpa [EntryOk, hst] using hentry
      | consistent =>
          have hstart : (s.cache c).flushStart eid = .drop := by simp [Cache.flushStart, he, hst]
          simp only [Extent.flush, hstart]
          simp only [EntryOk, hst] at hentry
          exact hdrop hentry.1

/-- An operation that fetched from the server leaves an idle extent. -/
theorem Inv.fetched (h : Inv s) (howner : s.owner eid = some c) {k : Cache}
    (hk : ∀ i, i ≠ eid → k i = s.cache c i)
    (hentry : EntryOk (s.server eid) (lastPut eid s.hist) (k eid)) :
    Inv (s.fetched c eid k) := by
  have hothers := (h.eid eid).others_none howner
  refine h.of_sameOff ((((SameOff.refl eid s).setCache hk).setBusy none).setFlushed false) ?_
    h.legal
  refine eidOkAt_of_idle (c := c) howner (setBusy_busy_self _ eid none)
    (others_setCache hothers k) ?_ ?_
  · change EntryOk (s.server eid) (lastPut eid s.hist) ((s.setCache c k).cache c eid)
    rw [setCache_cache_self]
    exact hentry
  · intro hf
    change (s.setFlushed eid false).flushed eid = true at hf
    rw [setFlushed_flushed_self] at hf
    cases hf

theorem Inv.opRet (h : Inv s) (howner : s.owner eid = some c) {now : UInt32}
    (hst : opRet s c eid now = some t) : Inv t := by
  have hop : ∀ o, s.busy eid = some o →
      OpOk (s.server eid) (lastPut eid s.hist) (s.cache c eid) o :=
    fun o ho => (h.eid eid).op c o howner ho
  unfold Extent.opRet at hst
  split at hst
  next hbusy =>
    cases hst
    have hget := hop _ hbusy
    exact (h.fetched howner (fun i _ => rfl) hget.1).recordGet hget.2.2
  next buf hbusy =>
    cases hst
    have hget := hop _ hbusy
    refine (h.fetched howner (fun i hi => by simp [Cache.getFill, hi]) ?_).recordGet hget.2.2
    simpa [Cache.getFill, EntryOk] using ⟨hget.2.1, hget.2.2.symm⟩
  next hbusy =>
    cases hst
    exact h.fetched howner (fun i _ => rfl) (hop _ hbusy).1
  next a hbusy =>
    cases hst
    refine h.fetched howner (fun i hi => by simp [Cache.getattrFill, hi]) ?_
    simpa [Cache.getattrFill, EntryOk] using (hop _ hbusy).2
  next ret hbusy =>
    cases hst
    exact h.erase howner (hop _ hbusy) none rfl
  next => cases hst

theorem Inv.unlock (h : Inv s) (hflushed : s.flushed eid = true) (hbusy : s.busy eid = none) :
    Inv { s with owner := Function.update s.owner eid none } := by
  have heid := h.eid eid
  refine h.of_sameOff ((SameOff.refl eid s).setOwner none) ?_ h.legal
  have hnone : Function.update s.owner eid none eid = none := Function.update_self ..
  unfold State.EidOkAt
  change EidOk (s.server eid) (lastPut eid s.hist) (Function.update s.owner eid none eid)
    (s.busy eid) (s.flushed eid) fun d => s.cache d eid
  rw [hnone, hbusy]
  cases howner : s.owner eid with
  | none =>
      refine EidOk.ofUnowned (fun d => heid.others d (by simp [howner])) ?_
      exact (heid.unowned howner).2
  | some c =>
      -- the flush has left no entry, so the server is up to date
      have hgone := heid.clean c howner hflushed hbusy
      refine EidOk.ofUnowned (fun d => ?_) ?_
      · by_cases hd : d = c
        · exact hd ▸ hgone
        · exact heid.others_none howner d hd
      · have hentry := heid.idle c howner hbusy
        rwa [hgone] at hentry

end Ops

/-! ## Coherence -/

theorem inv_init : Inv (init : State Cid) where
  eid _ := EidOk.ofUnowned (fun _ => rfl) rfl
  legal := trivial

variable [DecidableEq Cid]

theorem Inv.step {s t : State Cid} {a : Action Cid} (h : Inv s) (hst : step s a = some t) :
    Inv t := by
  cases a with
  | lock c eid =>
      rcases Option.ite_none_right_eq_some.1 hst with ⟨hfree, ⟨⟩⟩
      exact h.lock hfree
  | unlock eid =>
      rcases Option.ite_none_right_eq_some.1 hst with ⟨hpre, ⟨⟩⟩
      exact h.unlock hpre.1 hpre.2
  | put c eid buf now =>
      rcases Option.ite_none_right_eq_some.1 hst with ⟨hr, ⟨⟩⟩
      exact h.put hr buf now
  | remove c eid =>
      rcases Option.ite_none_right_eq_some.1 hst with ⟨hr, ⟨⟩⟩
      exact h.remove hr
  | get c eid now =>
      rcases Option.ite_none_right_eq_some.1 hst with ⟨hr, ⟨⟩⟩
      exact h.get hr now
  | getattr c eid =>
      rcases Option.ite_none_right_eq_some.1 hst with ⟨hr, ⟨⟩⟩
      exact h.getattr hr
  | flush c eid =>
      rcases Option.ite_none_right_eq_some.1 hst with ⟨hr, ⟨⟩⟩
      exact h.flush hr
  | serve eid a => exact h.serve hst
  | ret c eid now =>
      rcases Option.ite_none_right_eq_some.1 hst with ⟨howner, hst⟩
      exact h.opRet howner hst

theorem inv_reach {s : State Cid} (h : Reach Init step anyStep s) : Inv s := by
  refine Reach.invariant (I := Inv) ?_ ?_ h
  · intro s hs
    exact hs ▸ inv_init
  · intro s a t hI _ hst
    exact hI.step hst

/-- Every `get` returns the bytes of the last `put` that returned `OK`, at whichever client, or
`NOENT` if a `remove` that returned `OK` came after it or there was none. -/
theorem coherence {s : State Cid} (h : Reach Init step anyStep s)
    (post pre : List (MapEvent ExtentId Bytes)) {eid : ExtentId} {r : Option Bytes}
    (hget : s.hist = post ++ .get eid r :: pre) : r = lastPut eid pre := by
  have hlegal := (inv_reach h).legal
  rw [hget] at hlegal
  exact Legal.get_eq post hlegal

/-- One client writes, the lock moves, another one reads. -/
def writeThenRead : List (Action Bool) :=
  [.lock false 1, .put false 1 [42] 10, .get false 1 11, .flush false 1,
    .serve 1 EidContent.zero.attr, .ret false 1 12, .unlock 1,
    .lock true 1, .get true 1 13, .serve 1 EidContent.zero.attr, .ret true 1 14]

theorem coherence_moved_lock :
    ∃ s : State Bool, Reach Init step anyStep s ∧ ∃ r pre,
      s.hist = [] ++ .get 1 r :: pre ∧ pre.length = 2 ∧ r = lastPut 1 pre := by
  have hrun : ∃ s : State Bool, Reach Init step anyStep s ∧
      s.hist = [.get 1 (some [42]), .get 1 (some [42]), .put 1 [42]] :=
    Reach.exists_of_runFrom (P := fun s : State Bool =>
      s.hist = [.get 1 (some [42]), .get 1 (some [42]), .put 1 [42]])
      writeThenRead rfl (by decide +kernel)
  rcases hrun with ⟨s, hs, hhist⟩
  exact ⟨s, hs, _, _, hhist, rfl, coherence hs [] _ hhist⟩

end Extent
end Yfs

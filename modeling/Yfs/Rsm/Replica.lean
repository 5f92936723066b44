import Mathlib.Data.UInt
import Mathlib.Logic.Function.Basic
import Mathlib.Tactic.Simps.Basic
import Yfs.Lib.Replay
import Yfs.Lib.Run

/-!
# Replica — the replicated state machine

`rsm` runs on every node.  `client_invoke` gives a request the next viewstamp, has every other
member of the view execute it with an internal `invoke`, and executes it last.  When the
configuration layer commits a new view, the recovery thread synchronises: the node that sees
itself as primary waits in `sync_with_backups` until every other member has downloaded its state,
the others download it in `sync_with_primary`.

The sequence of views is given (`Views`); any node may learn any of them at any time.  The steps
are cut where a thread gives up or waits for a mutex, sends an RPC or gets its answer:

* `invoke_mutex` is held by one `client_invoke` for all its calls (`Invoking.client`), or by one
  `invoke` handler (`Invoking.handler`);
* `rsm_mutex` is held by the recovery thread only while it waits for `transferdonereq`; every
  other critical section is one step.

Messages stay in their lists and may be delivered late, often or never.  The replicated state is
the list of the requests that were executed, which determines what `marshal_state` returns.
`Book` and `Ghost` record facts about the run for the proofs; no step reads them.
-/

namespace Yfs
namespace Rsm

open Lib

/-- The views that Paxos has decided on. -/
structure Views (N : Type) where
  view : ℕ → List N
  boot : N
  zero : view 0 = []
  one : view 1 = [boot]

structure ViewStamp where
  vid : ℕ
  seqno : UInt32
  deriving DecidableEq, Repr

/-- The codes of `rsm_client_protocol` and `rsm_protocol`. -/
inductive Status
  | ok
  | err
  | notprimary
  | busy
  deriving DecidableEq, Repr

structure InvokeMsg (N R : Type) where
  id : ℕ
  src : N
  dst : N
  vs : ViewStamp
  req : R
  deriving DecidableEq

structure TransferMsg (N : Type) where
  id : ℕ
  src : N
  dst : N
  last : ViewStamp
  vid : ℕ
  deriving DecidableEq

/-- The answer `OK` to a `transferreq`; the state is left out if the viewstamps are equal. -/
structure TransferRep (N R : Type) where
  req : TransferMsg N
  last : ViewStamp
  state : Option (List R)
  deriving DecidableEq

structure DoneMsg (N : Type) where
  id : ℕ
  src : N
  dst : N
  vid : ℕ
  deriving DecidableEq

/-- A `client_invoke` in its loop over the slaves. -/
structure ClientCall (N R : Type) where
  req : R
  todo : List N
  ret : Status
  sent : Option (InvokeMsg N R)
  deriving DecidableEq

inductive Invoking (N R : Type)
  | free
  | client (c : ClientCall N R)
  | handler (m : InvokeMsg N R)
  deriving DecidableEq

/-- Where the recovery thread is.  `barrier` and `fill` are the two halves of the start of
`sync_with_backups`, `transfer` is the head of the loop of `sync_with_primary`. -/
inductive Pc (N : Type)
  | top
  | join
  | barrier
  | fill
  | waitBackups
  | transfer (m : N)
  | transferWait (m : TransferMsg N)
  | doneWait (m : DoneMsg N)
  | exitSync
  | asleep
  deriving DecidableEq

structure Replica (N R : Type) where
  myvs : ViewStamp
  lastMyvs : ViewStamp
  primary : N
  insync : Bool
  inviewchange : Bool
  vidCommit : ℕ
  vidInsync : ℕ
  backups : List N
  state : List R
  invoking : Invoking N R
  pc : Pc N
  deriving DecidableEq

variable {N R : Type} [DecidableEq N]

/-! ## One node -/

def amiprimary (n : N) (r : Replica N R) : Bool :=
  decide (r.primary = n) && !r.inviewchange

theorem amiprimary_iff {n : N} {r : Replica N R} :
    amiprimary n r = true ↔ r.primary = n ∧ r.inviewchange = false := by
  simp [amiprimary]

/-- `set_primary`; `none` is a failed `VERIFY`. -/
def setPrimary (V : Views N) (primary : N) (vid : ℕ) : Option N :=
  if V.view vid = [] then
    none
  else if primary ∈ V.view vid then
    some primary
  else
    (V.view (vid - 1)).find? fun p => decide (p ∈ V.view vid)

@[simps]
def Replica.commit (r : Replica N R) (vid : ℕ) (p : N) : Replica N R :=
  { r with
    vidCommit := vid
    inviewchange := true
    primary := p }

def commitChangeWo (V : Views N) (r : Replica N R) (vid : ℕ) : Option (Replica N R) :=
  if vid ≤ r.vidCommit then some r else (setPrimary V r.primary vid).map (r.commit vid)

/-- The constructor `rsm::rsm` before `commit_change(1)`. -/
def Replica.fresh (first : N) : Replica N R where
  myvs :=
    { vid := 0
      seqno := 1 }
  lastMyvs :=
    { vid := 0
      seqno := 0 }
  primary := first
  insync := false
  inviewchange := true
  vidCommit := 0
  vidInsync := 0
  backups := []
  state := []
  invoking := .free
  pc := .top

def construct (V : Views N) (n first : N) : Option (Replica N R) :=
  if first = n then commitChangeWo V (Replica.fresh first) 1 else some (Replica.fresh first)

@[simps]
def Replica.setInvoking (r : Replica N R) (i : Invoking N R) : Replica N R :=
  { r with invoking := i }

@[simps]
def Replica.setPc (r : Replica N R) (pc : Pc N) : Replica N R :=
  { r with pc := pc }

/-- `last_myvs = myvs; myvs.seqno++; execute(..)`, and `invoke_mutex` is released. -/
@[simps]
def Replica.execute (r : Replica N R) (q : R) : Replica N R :=
  { r with
    lastMyvs := r.myvs
    myvs :=
      { vid := r.myvs.vid
        seqno := r.myvs.seqno + 1 }
    state := r.state ++ [q]
    invoking := .free }

/-- `ret` before the loop of `client_invoke`; the function goes on whatever it is. -/
def clientRet (n : N) (r : Replica N R) : Status :=
  let ret := if r.inviewchange then .busy else Status.ok
  if amiprimary n r then ret else .notprimary

def slaves (V : Views N) (n : N) (vid : ℕ) : List N :=
  (V.view vid).filter fun m => decide (m ≠ n)

/-- `vid_insync` is set for the current view; a backup also sets `insync`. -/
@[simps]
def Replica.startSync (r : Replica N R) (insync : Bool) (pc : Pc N) : Replica N R :=
  { r with
    vidInsync := r.vidCommit
    insync := insync
    pc := pc }

@[simps]
def Replica.fillBackups (r : Replica N R) (backups : List N) : Replica N R :=
  { r with
    backups := backups
    insync := true
    pc := .waitBackups }

/-- The synchronisation ended with another view committed. -/
@[simps]
def Replica.resync (r : Replica N R) : Replica N R :=
  { r with
    insync := false
    pc := .top }

/-- The synchronisation succeeded: the view is open. -/
@[simps]
def Replica.open (r : Replica N R) : Replica N R :=
  { r with
    insync := false
    myvs :=
      { vid := r.vidCommit
        seqno := 1 }
    inviewchange := false
    pc := .asleep }

/-- The end of the loop body of `recovery`, after the synchronisation for `vid_insync`. -/
def Replica.synced (r : Replica N R) : Replica N R :=
  if r.vidInsync ≠ r.vidCommit then r.resync else r.open

/-- `statetransfer` with the answer of the primary. -/
@[simps]
def Replica.install (r : Replica N R) (rep : TransferRep N R) : Replica N R :=
  { r with
    -- an answer without a state is unmarshalled as an empty one
    state := if r.lastMyvs ≠ rep.last then rep.state.getD [] else r.state
    lastMyvs := rep.last }

@[simps]
def Replica.eraseBackup (r : Replica N R) (m : N) : Replica N R :=
  { r with backups := r.backups.erase m }

/-- The recovery thread holds `rsm_mutex`. -/
def Pc.locked : Pc N → Bool
  | .doneWait _ => true
  | _ => false

/-! ## The system -/

inductive Role (N : Type)
  | prim
  | backup (m : N)
  deriving DecidableEq

structure Opened (N R : Type) where
  primary : N
  last : ViewStamp
  state : List R

/-- The requests of every view: `cnt n v` of them were executed by `n` in view `v`, and `log v`
lists them all; `opened v` is the primary that has opened `v`, with its state at that moment. -/
structure Book (N R : Type) where
  cnt : N → ℕ → ℕ
  log : ℕ → List R
  opened : ℕ → Option (Opened N R)

/-- `role n v` is how `n` synchronises for `v`, and `snap n v` the state that it offers as
primary; `seen n` is the last view that `n` has committed, also before a restart. -/
structure Ghost (N R : Type) where
  role : N → ℕ → Option (Role N)
  snap : N → ℕ → Option (ViewStamp × List R)
  seen : N → ℕ

def set2 {α : Type} (f : N → ℕ → α) (n : N) (v : ℕ) (a : α) : N → ℕ → α :=
  Function.update f n (Function.update (f n) v a)

section Set2

variable {α : Type} (f : N → ℕ → α)

@[simp]
theorem set2_self (n : N) (v : ℕ) (a : α) : set2 f n v a n v = a := by
  simp [set2]

theorem set2_of_node_ne {x n : N} (h : x ≠ n) (v : ℕ) (a : α) : set2 f n v a x = f x := by
  simp [set2, h]

theorem set2_of_vid_ne {w v : ℕ} (h : w ≠ v) (x n : N) (a : α) : set2 f n v a x w = f x w := by
  by_cases hx : x = n
  · subst hx
    simp [set2, h]
  · rw [set2_of_node_ne f hx]

end Set2

namespace Book

@[simps]
def exec (b : Book N R) (n : N) (v : ℕ) (q : R) : Book N R :=
  { b with
    cnt := set2 b.cnt n v (b.cnt n v + 1)
    log := Function.update b.log v (grow (b.log v) (b.cnt n v) q) }

@[simps]
def setOpened (b : Book N R) (vid : ℕ) (o : Opened N R) : Book N R :=
  { b with opened := Function.update b.opened vid (some o) }

end Book

namespace Ghost

@[simps]
def see (g : Ghost N R) (n : N) (vid : ℕ) : Ghost N R :=
  { g with seen := Function.update g.seen n (max (g.seen n) vid) }

@[simps]
def setRole (g : Ghost N R) (n : N) (vid : ℕ) (role : Role N) : Ghost N R :=
  { g with role := set2 g.role n vid (some role) }

@[simps]
def setSnap (g : Ghost N R) (n : N) (vid : ℕ) (last : ViewStamp) (state : List R) : Ghost N R :=
  { g with snap := set2 g.snap n vid (some (last, state)) }

end Ghost

structure State (N R : Type) where
  rep : N → Replica N R
  nextId : ℕ
  invokes : List (InvokeMsg N R)
  invokeReps : List (InvokeMsg N R × Status)
  transfers : List (TransferMsg N)
  transferReps : List (TransferRep N R)
  dones : List (DoneMsg N)
  doneReps : List (DoneMsg N)
  acked : List (ℕ × R)
  execs : List (N × ViewStamp × R)
  book : Book N R
  ghost : Ghost N R

namespace State

@[simps]
def setRep (s : State N R) (n : N) (r : Replica N R) : State N R :=
  { s with rep := Function.update s.rep n r }

@[simps]
def setGhost (s : State N R) (g : Ghost N R) : State N R :=
  { s with ghost := g }

@[simps]
def setBook (s : State N R) (b : Book N R) : State N R :=
  { s with book := b }

@[simps]
def sendInvoke (s : State N R) (m : InvokeMsg N R) : State N R :=
  { s with
    nextId := s.nextId + 1
    invokes := m :: s.invokes }

@[simps]
def replyInvoke (s : State N R) (m : InvokeMsg N R) (ret : Status) : State N R :=
  { s with invokeReps := (m, ret) :: s.invokeReps }

@[simps]
def sendTransfer (s : State N R) (m : TransferMsg N) : State N R :=
  { s with
    nextId := s.nextId + 1
    transfers := m :: s.transfers }

@[simps]
def replyTransfer (s : State N R) (rep : TransferRep N R) : State N R :=
  { s with transferReps := rep :: s.transferReps }

@[simps]
def sendDone (s : State N R) (m : DoneMsg N) : State N R :=
  { s with
    nextId := s.nextId + 1
    dones := m :: s.dones }

@[simps]
def replyDone (s : State N R) (m : DoneMsg N) : State N R :=
  { s with doneReps := m :: s.doneReps }

@[simps]
def ack (s : State N R) (ret : Status) (vid : ℕ) (q : R) : State N R :=
  { s with acked := if ret = .ok then (vid, q) :: s.acked else s.acked }

/-- `n` executes `q` at its own `myvs`. -/
@[simps]
def exec (s : State N R) (n : N) (q : R) : State N R :=
  { s with
    rep := Function.update s.rep n ((s.rep n).execute q)
    execs := (n, (s.rep n).myvs, q) :: s.execs
    book := s.book.exec n (s.rep n).myvs.vid q }

end State

inductive Action (N R : Type)
  | clientStart (n : N) (q : R)
  | clientSend (n : N)
  | clientOk (n : N)
  | clientFail (n : N)
  | clientFinish (n : N)
  | invoke (m : InvokeMsg N R)
  | invokeExec (n : N)
  | commitChange (n : N) (vid : ℕ)
  | top (n : N)
  | joinOk (n : N) (vid : ℕ)
  | joinFail (n : N)
  | barrier (n : N)
  | fill (n : N)
  | syncEnd (n : N)
  | transferSend (n : N)
  | transferreq (m : TransferMsg N)
  | transferOk (n : N) (rep : TransferRep N R)
  | transferFail (n : N)
  | transferdone (m : DoneMsg N)
  | doneOk (n : N)
  | doneFail (n : N)
  | exitSync (n : N)
  | wake (n : N)
  | restart (n first : N)

/-! ## client_invoke and invoke -/

section

variable [DecidableEq R]

def clientStart (V : Views N) (s : State N R) (n : N) (q : R) : Option (State N R) :=
  let r := s.rep n
  if r.invoking = .free ∧ r.pc.locked = false then
    some (s.setRep n (r.setInvoking (.client
      { req := q
        todo := slaves V n r.myvs.vid
        ret := clientRet n r
        sent := none })))
  else
    none

def invokeMsg (s : State N R) (n m : N) (q : R) : InvokeMsg N R where
  id := s.nextId
  src := n
  dst := m
  vs := (s.rep n).myvs
  req := q

@[simps]
def ClientCall.send (c : ClientCall N R) (m : InvokeMsg N R) : ClientCall N R :=
  { c with sent := some m }

@[simps]
def ClientCall.next (c : ClientCall N R) : ClientCall N R :=
  { c with
    todo := c.todo.tail
    ret := .ok
    sent := none }

def clientSend (s : State N R) (n : N) : Option (State N R) :=
  match (s.rep n).invoking with
  | .client c =>
      match c.sent, c.todo with
      | none, m :: _ =>
          let msg := invokeMsg s n m c.req
          some ((s.setRep n ((s.rep n).setInvoking (.client (c.send msg)))).sendInvoke msg)
      | _, _ => none
  | _ => none

def clientOk (s : State N R) (n : N) : Option (State N R) :=
  match (s.rep n).invoking with
  | .client c =>
      match c.sent with
      | some msg =>
          if (msg, .ok) ∈ s.invokeReps then
            some (s.setRep n ((s.rep n).setInvoking (.client c.next)))
          else
            none
      | none => none
  | _ => none

/-- A slave cannot be reached, answers with an error, or its answer is late: `BUSY`. -/
def clientFail (s : State N R) (n : N) : Option (State N R) :=
  match (s.rep n).invoking with
  | .client c => if c.todo ≠ [] then some (s.setRep n ((s.rep n).setInvoking .free)) else none
  | _ => none

def clientFinish (s : State N R) (n : N) : Option (State N R) :=
  match (s.rep n).invoking with
  | .client c =>
      if c.todo = [] then
        some ((s.exec n c.req).ack c.ret (s.rep n).myvs.vid c.req)
      else
        none
  | _ => none

/-- The handler `invoke` up to its last check. -/
def invoke (s : State N R) (m : InvokeMsg N R) : Option (State N R) :=
  let r := s.rep m.dst
  if m ∈ s.invokes ∧ r.invoking = .free then
    if r.inviewchange then
      some (s.replyInvoke m .busy)
    else if m.vs ≠ r.myvs then
      some (s.replyInvoke m .err)
    else
      some (s.setRep m.dst (r.setInvoking (.handler m)))
  else
    none

def invokeExec (s : State N R) (n : N) : Option (State N R) :=
  match (s.rep n).invoking with
  | .handler m => some ((s.exec n m.req).replyInvoke m .ok)
  | _ => none

end

/-! ## Views and recovery -/

/-- `commit_change_wo` at `n`, with the recovery thread at `pc` afterwards. -/
def commitAt (V : Views N) (s : State N R) (n : N) (vid : ℕ) (pc : Pc N) : Option (State N R) :=
  (commitChangeWo V (s.rep n) vid).map fun r =>
    (s.setRep n (r.setPc pc)).setGhost
      (if vid ≤ (s.rep n).vidCommit then s.ghost else s.ghost.see n vid)

def commitChange (V : Views N) (s : State N R) (n : N) (vid : ℕ) : Option (State N R) :=
  if (s.rep n).pc.locked = false then commitAt V s n vid (s.rep n).pc else none

/-- The head of the loop in `recovery`: join, or choose how to synchronise. -/
def top (V : Views N) (s : State N R) (n : N) : Option (State N R) :=
  let r := s.rep n
  if r.pc = .top then
    if n ∉ V.view r.vidCommit then
      some (s.setRep n (r.setPc .join))
    else if r.primary = n then
      some ((s.setRep n (r.startSync r.insync .barrier)).setGhost
        (s.ghost.setRole n r.vidCommit .prim))
    else
      some ((s.setRep n (r.startSync true (.transfer r.primary))).setGhost
        (s.ghost.setRole n r.vidCommit (.backup r.primary)))
  else
    none

def joinOk (V : Views N) (s : State N R) (n : N) (vid : ℕ) : Option (State N R) :=
  if (s.rep n).pc = .join then commitAt V s n vid .top else none

def joinFail (s : State N R) (n : N) : Option (State N R) :=
  if (s.rep n).pc = .join then some (s.setRep n ((s.rep n).setPc .top)) else none

section

variable [DecidableEq R]

def barrier (s : State N R) (n : N) : Option (State N R) :=
  if (s.rep n).pc = .barrier ∧ (s.rep n).invoking = .free then
    some (s.setRep n ((s.rep n).setPc .fill))
  else
    none

def fill (V : Views N) (s : State N R) (n : N) : Option (State N R) :=
  let r := s.rep n
  if r.pc = .fill then
    some ((s.setRep n (r.fillBackups (slaves V n r.vidInsync))).setGhost
      (s.ghost.setSnap n r.vidInsync r.lastMyvs r.state))
  else
    none

def openedBy (n : N) (r : Replica N R) : Opened N R where
  primary := n
  last := r.lastMyvs
  state := r.state

/-- `sync_with_backups` returns. -/
def syncEnd (s : State N R) (n : N) : Option (State N R) :=
  let r := s.rep n
  if r.pc = .waitBackups ∧ (r.backups = [] ∨ r.vidCommit ≠ r.vidInsync) then
    some ((s.setRep n r.synced).setBook
      (if r.vidInsync = r.vidCommit then s.book.setOpened r.vidCommit (openedBy n r) else s.book))
  else
    none

def transferMsg (s : State N R) (n m : N) : TransferMsg N where
  id := s.nextId
  src := n
  dst := m
  last := (s.rep n).lastMyvs
  vid := (s.rep n).vidInsync

def transferSend (s : State N R) (n : N) : Option (State N R) :=
  let r := s.rep n
  match r.pc with
  | .transfer m =>
      if r.vidCommit ≠ r.vidInsync then
        some (s.setRep n (r.setPc .exitSync))
      else
        let msg := transferMsg s n m
        some ((s.setRep n (r.setPc (.transferWait msg))).sendTransfer msg)
  | _ => none

def transferRes (r : Replica N R) (m : TransferMsg N) : TransferRep N R where
  req := m
  last := r.lastMyvs
  state := if m.last ≠ r.lastMyvs then some r.state else none

/-- The handler `transferreq`; the answer `BUSY` is as good as none. -/
def transferreq (s : State N R) (m : TransferMsg N) : Option (State N R) :=
  let r := s.rep m.dst
  if m ∈ s.transfers ∧ r.pc.locked = false then
    if r.insync = true ∧ m.vid = r.vidInsync then
      some (s.replyTransfer (transferRes r m))
    else
      some s
  else
    none

def doneMsg (s : State N R) (n m : N) : DoneMsg N where
  id := s.nextId
  src := n
  dst := m
  vid := (s.rep n).vidInsync

/-- `statetransfer` succeeds, and `statetransferdone` sends its message. -/
def transferOk (s : State N R) (n : N) (rep : TransferRep N R) : Option (State N R) :=
  let r := s.rep n
  match r.pc with
  | .transferWait m =>
      if rep ∈ s.transferReps ∧ rep.req = m then
        let msg := doneMsg s n m.dst
        some ((s.setRep n ((r.install rep).setPc (.doneWait msg))).sendDone msg)
      else
        none
  | _ => none

def transferFail (s : State N R) (n : N) : Option (State N R) :=
  match (s.rep n).pc with
  | .transferWait m => some (s.setRep n ((s.rep n).setPc (.transfer m.dst)))
  | _ => none

/-- The handler `transferdonereq`. -/
def transferdone (s : State N R) (m : DoneMsg N) : Option (State N R) :=
  let r := s.rep m.dst
  if m ∈ s.dones ∧ r.pc.locked = false then
    if r.vidInsync = 0 ∨ m.vid ≠ r.vidCommit then
      some s
    else
      some ((s.setRep m.dst (r.eraseBackup m.src)).replyDone m)
  else
    none

def doneOk (s : State N R) (n : N) : Option (State N R) :=
  match (s.rep n).pc with
  | .doneWait m =>
      if m ∈ s.doneReps then some (s.setRep n ((s.rep n).setPc .exitSync)) else none
  | _ => none

def doneFail (s : State N R) (n : N) : Option (State N R) :=
  match (s.rep n).pc with
  | .doneWait m => some (s.setRep n ((s.rep n).setPc (.transfer m.dst)))
  | _ => none

/-- `sync_with_primary` returns. -/
def exitSync (s : State N R) (n : N) : Option (State N R) :=
  if (s.rep n).pc = .exitSync then some (s.setRep n (s.rep n).synced) else none

/-- The wait on `recovery_cond` ends. -/
def wake (s : State N R) (n : N) : Option (State N R) :=
  if (s.rep n).pc = .asleep then some (s.setRep n ((s.rep n).setPc .top)) else none

def restart (V : Views N) (s : State N R) (n first : N) : Option (State N R) :=
  (construct V n first).map fun r =>
    (s.setRep n r).setGhost (if first = n then s.ghost.see n 1 else s.ghost)

def step (V : Views N) (s : State N R) : Action N R → Option (State N R)
  | .clientStart n q => clientStart V s n q
  | .clientSend n => clientSend s n
  | .clientOk n => clientOk s n
  | .clientFail n => clientFail s n
  | .clientFinish n => clientFinish s n
  | .invoke m => invoke s m
  | .invokeExec n => invokeExec s n
  | .commitChange n vid => commitChange V s n vid
  | .top n => top V s n
  | .joinOk n vid => joinOk V s n vid
  | .joinFail n => joinFail s n
  | .barrier n => barrier s n
  | .fill n => fill V s n
  | .syncEnd n => syncEnd s n
  | .transferSend n => transferSend s n
  | .transferreq m => transferreq s m
  | .transferOk n rep => transferOk s n rep
  | .transferFail n => transferFail s n
  | .transferdone m => transferdone s m
  | .doneOk n => doneOk s n
  | .doneFail n => doneFail s n
  | .exitSync n => exitSync s n
  | .wake n => wake s n
  | .restart n first => restart V s n first

def Book.init : Book N R where
  cnt _ _ := 0
  log _ := []
  opened _ := none

def Ghost.init (seen : N → ℕ) : Ghost N R where
  role _ _ := none
  snap _ _ := none
  seen := seen

def State.start (rep : N → Replica N R) : State N R where
  rep := rep
  nextId := 0
  invokes := []
  invokeReps := []
  transfers := []
  transferReps := []
  dones := []
  doneReps := []
  acked := []
  execs := []
  book := Book.init
  ghost := Ghost.init fun n => (rep n).vidCommit

/-- The bootstrap node names itself as first, every other node another one. -/
def Init (V : Views N) (s : State N R) : Prop :=
  ∃ rep : N → Replica N R, s = State.start rep ∧
    ∀ n, ∃ first, (first = n ↔ n = V.boot) ∧ construct V n first = some (rep n)

end

/-! ## What a step can do -/

/-- One constructor for each way through a step; `synced` is split into its two outcomes. -/
inductive Move (V : Views N) (s : State N R) : Action N R → State N R → Prop where
  | clientStart {n : N} {q : R} :
      (s.rep n).invoking = .free →
        Move V s (.clientStart n q) (s.setRep n ((s.rep n).setInvoking (.client
          { req := q
            todo := slaves V n (s.rep n).myvs.vid
            ret := clientRet n (s.rep n)
            sent := none })))
  | clientSend {n m : N} {c : ClientCall N R} {ms : List N} :
      (s.rep n).invoking = .client c → c.sent = none → c.todo = m :: ms →
        Move V s (.clientSend n)
          ((s.setRep n
            ((s.rep n).setInvoking (.client (c.send (invokeMsg s n m c.req))))).sendInvoke
            (invokeMsg s n m c.req))
  | clientOk {n : N} {c : ClientCall N R} {msg : InvokeMsg N R} :
      (s.rep n).invoking = .client c → c.sent = some msg → (msg, .ok) ∈ s.invokeReps →
        Move V s (.clientOk n) (s.setRep n ((s.rep n).setInvoking (.client c.next)))
  | clientFail {n : N} :
      Move V s (.clientFail n) (s.setRep n ((s.rep n).setInvoking .free))
  | clientFinish {n : N} {c : ClientCall N R} :
      (s.rep n).invoking = .client c → c.todo = [] →
        Move V s (.clientFinish n) ((s.exec n c.req).ack c.ret (s.rep n).myvs.vid c.req)
  | refuse {m : InvokeMsg N R} {ret : Status} :
      ret ≠ .ok → Move V s (.invoke m) (s.replyInvoke m ret)
  | invoke {m : InvokeMsg N R} :
      m ∈ s.invokes → (s.rep m.dst).inviewchange = false → m.vs = (s.rep m.dst).myvs →
        Move V s (.invoke m) (s.setRep m.dst ((s.rep m.dst).setInvoking (.handler m)))
  | invokeExec {n : N} {m : InvokeMsg N R} :
      (s.rep n).invoking = .handler m →
        Move V s (.invokeExec n) ((s.exec n m.req).replyInvoke m .ok)
  | commitChange {n p : N} {vid : ℕ} :
      (s.rep n).pc.locked = false → (s.rep n).vidCommit < vid →
      setPrimary V (s.rep n).primary vid = some p →
        Move V s (.commitChange n vid)
          ((s.setRep n ((s.rep n).commit vid p)).setGhost (s.ghost.see n vid))
  | toJoin {n : N} :
      (s.rep n).pc = .top → Move V s (.top n) (s.setRep n ((s.rep n).setPc .join))
  | toPrim {n : N} :
      (s.rep n).pc = .top → n ∈ V.view (s.rep n).vidCommit → (s.rep n).primary = n →
        Move V s (.top n)
          ((s.setRep n ((s.rep n).startSync (s.rep n).insync .barrier)).setGhost
            (s.ghost.setRole n (s.rep n).vidCommit .prim))
  | toBackup {n : N} :
      (s.rep n).pc = .top → n ∈ V.view (s.rep n).vidCommit → (s.rep n).primary ≠ n →
        Move V s (.top n)
          ((s.setRep n ((s.rep n).startSync true (.transfer (s.rep n).primary))).setGhost
            (s.ghost.setRole n (s.rep n).vidCommit (.backup (s.rep n).primary)))
  | joinOk {n p : N} {vid : ℕ} :
      (s.rep n).pc = .join → (s.rep n).vidCommit < vid →
      setPrimary V (s.rep n).primary vid = some p →
        Move V s (.joinOk n vid)
          ((s.setRep n (((s.rep n).commit vid p).setPc .top)).setGhost (s.ghost.see n vid))
  | rejoin {a : Action N R} {n : N} :
      (s.rep n).pc = .join → Move V s a (s.setRep n ((s.rep n).setPc .top))
  | barrier {n : N} :
      (s.rep n).pc = .barrier → (s.rep n).invoking = .free →
        Move V s (.barrier n) (s.setRep n ((s.rep n).setPc .fill))
  | fill {n : N} :
      (s.rep n).pc = .fill →
        Move V s (.fill n)
          ((s.setRep n ((s.rep n).fillBackups (slaves V n (s.rep n).vidInsync))).setGhost
            (s.ghost.setSnap n (s.rep n).vidInsync (s.rep n).lastMyvs (s.rep n).state))
  | syncFail {n : N} :
      (s.rep n).pc = .waitBackups → (s.rep n).vidInsync ≠ (s.rep n).vidCommit →
        Move V s (.syncEnd n) (s.setRep n (s.rep n).resync)
  | openPrim {n : N} :
      (s.rep n).pc = .waitBackups → (s.rep n).backups = [] →
      (s.rep n).vidInsync = (s.rep n).vidCommit →
        Move V s (.syncEnd n)
          ((s.setRep n (s.rep n).open).setBook
            (s.book.setOpened (s.rep n).vidCommit (openedBy n (s.rep n))))
  | transferStop {n m : N} :
      (s.rep n).pc = .transfer m → (s.rep n).vidInsync ≠ (s.rep n).vidCommit →
        Move V s (.transferSend n) (s.setRep n ((s.rep n).setPc .exitSync))
  | transferSend {n m : N} :
      (s.rep n).pc = .transfer m → (s.rep n).vidInsync = (s.rep n).vidCommit →
        Move V s (.transferSend n)
          ((s.setRep n ((s.rep n).setPc (.transferWait (transferMsg s n m)))).sendTransfer
            (transferMsg s n m))
  | transferreq {m : TransferMsg N} :
      (s.rep m.dst).insync = true → m.vid = (s.rep m.dst).vidInsync →
        Move V s (.transferreq m) (s.replyTransfer (transferRes (s.rep m.dst) m))
  | stay {a : Action N R} : Move V s a s
  | transferOk {n : N} {m : TransferMsg N} {rep : TransferRep N R} :
      (s.rep n).pc = .transferWait m → rep ∈ s.transferReps → rep.req = m →
        Move V s (.transferOk n rep)
          ((s.setRep n (((s.rep n).install rep).setPc (.doneWait (doneMsg s n m.dst)))).sendDone
            (doneMsg s n m.dst))
  | transferFail {n : N} {m : TransferMsg N} :
      (s.rep n).pc = .transferWait m →
        Move V s (.transferFail n) (s.setRep n ((s.rep n).setPc (.transfer m.dst)))
  | transferdone {m : DoneMsg N} :
      m ∈ s.dones → m.vid = (s.rep m.dst).vidCommit →
        Move V s (.transferdone m)
          ((s.setRep m.dst ((s.rep m.dst).eraseBackup m.src)).replyDone m)
  | doneOk {n : N} {m : DoneMsg N} :
      (s.rep n).pc = .doneWait m →
        Move V s (.doneOk n) (s.setRep n ((s.rep n).setPc .exitSync))
  | doneFail {n : N} {m : DoneMsg N} :
      (s.rep n).pc = .doneWait m →
        Move V s (.doneFail n) (s.setRep n ((s.rep n).setPc (.transfer m.dst)))
  | exitFail {n : N} :
      (s.rep n).pc = .exitSync → (s.rep n).vidInsync ≠ (s.rep n).vidCommit →
        Move V s (.exitSync n) (s.setRep n (s.rep n).resync)
  | openBackup {n : N} :
      (s.rep n).pc = .exitSync → (s.rep n).vidInsync = (s.rep n).vidCommit →
        Move V s (.exitSync n) (s.setRep n (s.rep n).open)
  | wake {n : N} :
      (s.rep n).pc = .asleep → Move V s (.wake n) (s.setRep n ((s.rep n).setPc .top))
  | restart {n first : N} :
      first ≠ n → Move V s (.restart n first) (s.setRep n (Replica.fresh first))
  | reboot {n p : N} :
      setPrimary V n 1 = some p →
        Move V s (.restart n n)
          ((s.setRep n ((Replica.fresh n).commit 1 p)).setGhost (s.ghost.see n 1))

section Inversion

variable {V : Views N} {s t : State N R}

theorem clientSend_move {n : N} (h : clientSend s n = some t) : Move V s (.clientSend n) t := by
  unfold clientSend at h
  split at h
  next c hc =>
    split at h
    next m ms hsent htodo =>
      cases h
      exact .clientSend hc hsent htodo
    next => cases h
  next => cases h

theorem clientFail_move {n : N} (h : clientFail s n = some t) : Move V s (.clientFail n) t := by
  unfold clientFail at h
  split at h
  next c hc =>
    rcases Option.ite_none_right_eq_some.1 h with ⟨_, ⟨⟩⟩
    exact .clientFail
  next => cases h

theorem clientFinish_move {n : N} (h : clientFinish s n = some t) :
    Move V s (.clientFinish n) t := by
  unfold clientFinish at h
  split at h
  next c hc =>
    rcases Option.ite_none_right_eq_some.1 h with ⟨htodo, hst⟩
    rw [← Option.some.inj hst]
    exact .clientFinish hc htodo
  next => cases h

theorem invokeExec_move {n : N} (h : invokeExec s n = some t) : Move V s (.invokeExec n) t := by
  unfold invokeExec at h
  split at h
  next m hm =>
    cases h
    exact .invokeExec hm
  next => cases h

theorem commitChangeWo_cases {r r' : Replica N R} {vid : ℕ}
    (h : commitChangeWo V r vid = some r') :
    (vid ≤ r.vidCommit ∧ r' = r) ∨
      (r.vidCommit < vid ∧ ∃ p, setPrimary V r.primary vid = some p ∧ r' = r.commit vid p) := by
  unfold commitChangeWo at h
  split at h
  next hle =>
    cases h
    exact Or.inl ⟨hle, rfl⟩
  next hlt =>
    rcases Option.map_eq_some_iff.1 h with ⟨p, hp, rfl⟩
    exact Or.inr ⟨Nat.lt_of_not_le hlt, p, hp, rfl⟩

theorem commitChange_move {n : N} {vid : ℕ} (h : commitChange V s n vid = some t) :
    Move V s (.commitChange n vid) t := by
  rcases Option.ite_none_right_eq_some.1 h with ⟨hpc, hst⟩
  rcases Option.map_eq_some_iff.1 hst with ⟨r, hr, rfl⟩
  rcases commitChangeWo_cases hr with ⟨hle, rfl⟩ | ⟨hlt, p, hp, rfl⟩
  · have hsame : s.setRep n ((s.rep n).setPc (s.rep n).pc) = s := by
      simp [State.setRep, Replica.setPc]
    rw [if_pos hle, hsame]
    exact .stay
  · rw [if_neg (Nat.not_le_of_lt hlt)]
    exact .commitChange hpc hlt hp

theorem joinOk_move {n : N} {vid : ℕ} (h : joinOk V s n vid = some t) :
    Move V s (.joinOk n vid) t := by
  rcases Option.ite_none_right_eq_some.1 h with ⟨hpc, hst⟩
  rcases Option.map_eq_some_iff.1 hst with ⟨r, hr, rfl⟩
  rcases commitChangeWo_cases hr with ⟨hle, rfl⟩ | ⟨hlt, p, hp, rfl⟩
  · rw [if_pos hle]
    exact .rejoin hpc
  · rw [if_neg (Nat.not_le_of_lt hlt)]
    exact .joinOk hpc hlt hp

theorem construct_cases {n first : N} {r : Replica N R} (h : construct V n first = some r) :
    (first ≠ n ∧ r = Replica.fresh first) ∨
      ∃ p, first = n ∧ setPrimary V n 1 = some p ∧ r = (Replica.fresh n).commit 1 p := by
  unfold construct at h
  split at h
  next hfirst =>
    subst hfirst
    rcases commitChangeWo_cases h with ⟨hle, _⟩ | ⟨_, p, hp, rfl⟩
    · exact absurd hle (by simp [Replica.fresh])
    · exact Or.inr ⟨p, rfl, hp, rfl⟩
  next hfirst =>
    cases h
    exact Or.inl ⟨hfirst, rfl⟩

theorem restart_move {n first : N} (h : restart V s n first = some t) :
    Move V s (.restart n first) t := by
  rcases Option.map_eq_some_iff.1 h with ⟨r, hr, rfl⟩
  rcases construct_cases hr with ⟨hfirst, rfl⟩ | ⟨p, rfl, hp, rfl⟩
  · rw [if_neg hfirst]
    exact .restart hfirst
  · rw [if_pos rfl]
    exact .reboot hp

theorem top_move {n : N} (h : top V s n = some t) : Move V s (.top n) t := by
  rcases Option.ite_none_right_eq_some.1 h with ⟨hpc, hst⟩
  split at hst
  · cases hst
    exact .toJoin hpc
  next hmem =>
    split at hst
    next hprim =>
      cases hst
      exact .toPrim hpc (not_not.1 hmem) hprim
    next hprim =>
      cases hst
      exact .toBackup hpc (not_not.1 hmem) hprim

theorem syncEnd_move {n : N} (h : syncEnd s n = some t) : Move V s (.syncEnd n) t := by
  rcases Option.ite_none_right_eq_some.1 h with ⟨⟨hpc, hend⟩, hst⟩
  rw [← Option.some.inj hst]
  by_cases heq : (s.rep n).vidInsync = (s.rep n).vidCommit
  · have hback : (s.rep n).backups = [] := hend.resolve_right fun hne => hne heq.symm
    simpa only [Replica.synced, heq, ne_eq, not_true_eq_false, if_false, if_true] using
      Move.openPrim hpc hback heq
  · simp only [Replica.synced, heq, ne_eq, not_false_eq_true, if_false, if_true]
    exact Move.syncFail hpc heq

theorem transferSend_move {n : N} (h : transferSend s n = some t) :
    Move V s (.transferSend n) t := by
  simp only [transferSend] at h
  split at h
  next m hpc =>
    split at h
    next hne =>
      cases h
      exact .transferStop hpc (Ne.symm hne)
    next heq =>
      cases h
      exact .transferSend hpc (not_not.1 heq).symm
  next => cases h

theorem transferreq_move {m : TransferMsg N} (h : transferreq s m = some t) :
    Move V s (.transferreq m) t := by
  rcases Option.ite_none_right_eq_some.1 h with ⟨_, hst⟩
  split at hst
  next hsync =>
    cases hst
    exact .transferreq hsync.1 hsync.2
  next =>
    cases hst
    exact .stay

theorem transferFail_move {n : N} (h : transferFail s n = some t) :
    Move V s (.transferFail n) t := by
  unfold transferFail at h
  split at h
  next m hpc =>
    cases h
    exact .transferFail hpc
  next => cases h

theorem transferdone_move {m : DoneMsg N} (h : transferdone s m = some t) :
    Move V s (.transferdone m) t := by
  rcases Option.ite_none_right_eq_some.1 h with ⟨hpre, hst⟩
  split at hst
  · cases hst
    exact .stay
  next hvid =>
    cases hst
    exact .transferdone hpre.1 (not_not.1 fun hne => hvid (Or.inr hne))

theorem doneOk_move {n : N} (h : doneOk s n = some t) : Move V s (.doneOk n) t := by
  unfold doneOk at h
  split at h
  next m hpc =>
    rcases Option.ite_none_right_eq_some.1 h with ⟨_, ⟨⟩⟩
    exact .doneOk hpc
  next => cases h

theorem doneFail_move {n : N} (h : doneFail s n = some t) : Move V s (.doneFail n) t := by
  unfold doneFail at h
  split at h
  next m hpc =>
    cases h
    exact .doneFail hpc
  next => cases h

theorem exitSync_move {n : N} (h : exitSync s n = some t) : Move V s (.exitSync n) t := by
  rcases Option.ite_none_right_eq_some.1 h with ⟨hpc, hst⟩
  rw [← Option.some.inj hst]
  by_cases heq : (s.rep n).vidInsync = (s.rep n).vidCommit
  · simpa only [Replica.synced, heq, ne_eq, not_true_eq_false, if_false] using
      Move.openBackup hpc heq
  · simpa only [Replica.synced, heq, ne_eq, not_false_eq_true, if_true] using
      Move.exitFail hpc heq

variable [DecidableEq R]

theorem clientOk_move {n : N} (h : clientOk s n = some t) : Move V s (.clientOk n) t := by
  unfold clientOk at h
  split at h
  next c hc =>
    split at h
    next msg hsent =>
      rcases Option.ite_none_right_eq_some.1 h with ⟨hmem, ⟨⟩⟩
      exact .clientOk hc hsent hmem
    next => cases h
  next => cases h

theorem invoke_move {m : InvokeMsg N R} (h : invoke s m = some t) : Move V s (.invoke m) t := by
  rcases Option.ite_none_right_eq_some.1 h with ⟨hpre, hst⟩
  split at hst
  · cases hst
    exact .refuse (by simp)
  next hopen =>
    split at hst
    · cases hst
      exact .refuse (by simp)
    next hvs =>
      cases hst
      exact .invoke hpre.1 (by simpa using hopen) (by simpa using hvs)

theorem transferOk_move {n : N} {rep : TransferRep N R} (h : transferOk s n rep = some t) :
    Move V s (.transferOk n rep) t := by
  simp only [transferOk] at h
  split at h
  next m hpc =>
    rcases Option.ite_none_right_eq_some.1 h with ⟨hrep, hst⟩
    rw [← Option.some.inj hst]
    exact .transferOk hpc hrep.1 hrep.2
  next => cases h

theorem step_move {a : Action N R} (h : step V s a = some t) : Move V s a t := by
  cases a with
  | clientStart n q =>
      rcases Option.ite_none_right_eq_some.1 h with ⟨hpre, ⟨⟩⟩
      exact .clientStart hpre.1
  | clientSend n => exact clientSend_move h
  | clientOk n => exact clientOk_move h
  | clientFail n => exact clientFail_move h
  | clientFinish n => exact clientFinish_move h
  | invoke m => exact invoke_move h
  | invokeExec n => exact invokeExec_move h
  | commitChange n vid => exact commitChange_move h
  | top n => exact top_move h
  | joinOk n vid => exact joinOk_move h
  | joinFail n =>
      rcases Option.ite_none_right_eq_some.1 h with ⟨hpc, ⟨⟩⟩
      exact .rejoin hpc
  | barrier n =>
      rcases Option.ite_none_right_eq_some.1 h with ⟨hpc, ⟨⟩⟩
      exact .barrier hpc.1 hpc.2
  | fill n =>
      rcases Option.ite_none_right_eq_some.1 h with ⟨hpc, ⟨⟩⟩
      exact .fill hpc
  | syncEnd n => exact syncEnd_move h
  | transferSend n => exact transferSend_move h
  | transferreq m => exact transferreq_move h
  | transferOk n rep => exact transferOk_move h
  | transferFail n => exact transferFail_move h
  | transferdone m => exact transferdone_move h
  | doneOk n => exact doneOk_move h
  | doneFail n => exact doneFail_move h
  | exitSync n => exact exitSync_move h
  | wake n =>
      rcases Option.ite_none_right_eq_some.1 h with ⟨hpc, ⟨⟩⟩
      exact .wake hpc
  | restart n first => exact restart_move h

end Inversion

/-- Views for concrete runs: nodes 2 and 3 join node 1, which then leaves. -/
def growing : Views ℕ where
  view
    | 0 => []
    | 1 => [1]
    | 2 => [1, 2]
    | 3 => [1, 2, 3]
    | _ => [2, 3]
  boot := 1
  zero := rfl
  one := rfl

/-- Node 1 bootstraps, and every other node is told to join it. -/
def boot : State ℕ ℕ :=
  State.start fun n => if n = 1 then (Replica.fresh 1).commit 1 1 else Replica.fresh 1

theorem init_boot : Init growing boot := by
  refine ⟨_, rfl, fun n => ⟨1, eq_comm, ?_⟩⟩
  by_cases hn : n = 1
  · subst hn
    decide
  · simp [construct, hn, Ne.symm hn]

end Rsm
end Yfs

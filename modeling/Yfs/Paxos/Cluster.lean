import Yfs.Lib.Run
import Yfs.Paxos.Acceptor

/-!
# Cluster — proposers and acceptors over an unreliable network

Every node has an acceptor and a proposer.  The network is the list of all messages ever sent:
a message in it may be delivered at any time, any number of times, or never, which covers loss,
delay, duplication and reordering.  `proposer::run` is cut at the points where it gives up
`pxs_mutex` around a call:

* `run` — take a number and enter the loop of `prepare`;
* `call`, `skip`, `reply` — one pass of a loop: send the request, then take the reply, or go on
  without one (the bind failed or the call timed out);
* `endLoop` — the code between two loops.

A node whose `VERIFY` fails is down until it is restarted.  `runs` records every call of `run`;
nothing in the code reads it.  A reply is matched to the call it answers by the index of the run
in that record, so a reply to a run that is over is never taken.
-/

namespace Yfs
namespace Paxos

open Lib

/-! ## Proposer -/

/-- The loop that `proposer::run` is in, with the loop's accumulators. -/
inductive Phase
  | prepare (accepts : List Str) (maxN : PropT) (maxV : Str)
  | accept (accepts : List Str) (v : Str)
  | decide (v : Str)
  deriving DecidableEq, Repr

/-- A call of `proposer::run` that has not returned.  `todo` are the nodes its current loop has
not finished with. -/
structure Run where
  rid : ℕ
  inst : UInt32
  cur : List Str
  newv : Str
  phase : Phase
  todo : List Str
  calling : Bool
  deriving DecidableEq, Repr

/-- `proposer::setn`: the sums wrap around as `unsigned` does. -/
def setn (nH myN : PropT) : PropT :=
  { myN with n := if nH.n + 1 > myN.n + 1 then nH.n + 1 else myN.n + 1 }

/-- The number `prepare` starts its maximum from. -/
def zeroProp : PropT := { n := 0, m := ['0'] }

/-- The code that follows a loop; `none` when `run` returns. -/
def Run.endLoop (r : Run) : Option Run :=
  match r.phase with
  | .prepare accepts _ maxV =>
      if majority r.cur accepts then
        let v := if accepts = [] then [] else maxV
        some
          { r with
            phase := .accept [] (if v = [] then r.newv else v)
            todo := accepts }
      else
        none
  | .accept accepts v =>
      if majority r.cur accepts then
        some
          { r with
            phase := .decide v
            todo := accepts }
      else
        none
  | .decide _ => none

/-! ## State -/

/-- A message, with the run it belongs to.  `decidereq` needs no reply: the loop of `decide`
ignores it. -/
inductive Msg
  | preparereq (rid : ℕ) (dst : Str) (a : PrepareArg)
  | prepareres (rid : ℕ) (src : Str) (a : PrepareArg) (r : PrepareRes)
  | acceptreq (rid : ℕ) (dst : Str) (a : AcceptArg)
  | acceptres (rid : ℕ) (src : Str) (a : AcceptArg) (ret : Status) (r : Bool)
  | decidereq (rid : ℕ) (dst : Str) (a : DecideArg)
  | logdump (text : Str)
  deriving DecidableEq, Repr

/-- A node.  `run` is `none` when the proposer is `stable`; `upcalls` are the calls of
`cfg->paxos_commit` that were started and have not taken effect. -/
structure Node where
  acc : Acceptor
  myN : PropT
  run : Option Run
  up : Bool
  first : Bool
  value : Str
  upcalls : List (UInt32 × Str)

/-- A call of `proposer::run`, for the record. -/
structure RunInfo where
  p : Str
  inst : UInt32
  n : PropT
  cur : List Str
  newv : Str
  deriving DecidableEq, Repr

structure State where
  node : Str → Node
  net : List Msg
  runs : List RunInfo

inductive Action
  | run (p : Str) (inst : UInt32) (cur : List Str) (newv : Str)
  | call (p : Str)
  | skip (p : Str)
  | reply (p : Str) (m : Msg)
  | endLoop (p : Str)
  | handle (m : Msg)
  | restart (x : Str) (junk : UInt32)
  | dump (x : Str)
  | restore (x : Str) (text : Str) (junk : UInt32)
  deriving DecidableEq, Repr

namespace State

def setNode (s : State) (x : Str) (nd : Node) : State :=
  { s with node := Function.update s.node x nd }

def send (s : State) (m : Msg) : State :=
  { s with net := m :: s.net }

@[simp] theorem setNode_net (s : State) (x : Str) (nd : Node) : (s.setNode x nd).net = s.net := rfl

@[simp] theorem setNode_runs (s : State) (x : Str) (nd : Node) :
    (s.setNode x nd).runs = s.runs := rfl

@[simp] theorem setNode_node_self (s : State) (x : Str) (nd : Node) :
    (s.setNode x nd).node x = nd := by
  simp [setNode]

theorem setNode_node_of_ne (s : State) {x y : Str} (nd : Node) (h : y ≠ x) :
    (s.setNode x nd).node y = s.node y := by
  simp [setNode, h]

@[simp] theorem send_net (s : State) (m : Msg) : (s.send m).net = m :: s.net := rfl

@[simp] theorem send_runs (s : State) (m : Msg) : (s.send m).runs = s.runs := rfl

@[simp] theorem send_node (s : State) (m : Msg) : (s.send m).node = s.node := rfl

end State

/-! ## Steps -/

/-- `proposer::run` up to its first unlock point.  A call that finds the proposer unstable
returns at once and changes nothing. -/
def stepRun (s : State) (p : Str) (inst : UInt32) (cur : List Str) (newv : Str) : Option State :=
  let nd := s.node p
  if IStream.IsWord p ∧ nd.up = true ∧ nd.run = none then
    let n := setn nd.acc.nH nd.myN
    let t := s.setNode p
      { nd with
        myN := n
        run := some
          { rid := s.runs.length
            inst := inst
            cur := cur
            newv := newv
            phase := .prepare [] zeroProp []
            todo := cur
            calling := false } }
    some { t with runs := s.runs ++ [{ p := p, inst := inst, n := n, cur := cur, newv := newv }] }
  else
    none

/-- The request that a run sends to `x` in its current loop. -/
def Run.request (r : Run) (n : PropT) (x : Str) : Msg :=
  match r.phase with
  | .prepare _ _ _ => .preparereq r.rid x { inst := r.inst, n := n }
  | .accept _ v => .acceptreq r.rid x { inst := r.inst, n := n, v := v }
  | .decide v => .decidereq r.rid x { inst := r.inst, v := v }

def stepCall (s : State) (p : Str) : Option State :=
  let nd := s.node p
  match nd.run with
  | none => none
  | some r =>
      match r.todo with
      | [] => none
      | x :: _ =>
          if r.calling then
            none
          else
            some ((s.setNode p { nd with run := some { r with calling := true } }).send
              (r.request nd.myN x))

def stepSkip (s : State) (p : Str) : Option State :=
  let nd := s.node p
  match nd.run with
  | none => none
  | some r =>
      match r.todo with
      | [] => none
      | _ :: rest =>
          some (s.setNode p { nd with run := some { r with todo := rest, calling := false } })

/-- The run after the reply of `x` to a prepare that is not `oldinstance`. -/
def Run.prepareReply (r : Run) (x : Str) (accepts : List Str) (maxN : PropT) (maxV : Str)
    (res : PrepareRes) (rest : List Str) : Run :=
  let phase :=
    if res.accept then
      if res.nA.gt maxN then
        Phase.prepare (accepts ++ [x]) res.nA res.vA
      else
        Phase.prepare (accepts ++ [x]) maxN maxV
    else
      Phase.prepare accepts maxN maxV
  { r with phase := phase, todo := rest, calling := false }

def stepReply (s : State) (p : Str) (m : Msg) : Option State :=
  let nd := s.node p
  match nd.run with
  | none => none
  | some r =>
      match r.todo with
      | [] => none
      | x :: rest =>
          if r.calling = true ∧ m ∈ s.net then
            match m, r.phase with
            | .prepareres rid src _ res, .prepare accepts maxN maxV =>
                if rid = r.rid ∧ src = x then
                  if res.oldinstance then
                    -- acc->commit(instance, pres.v_a); return false
                    let (acc, upcall) := commitWo nd.acc r.inst res.vA
                    some (s.setNode p
                      { nd with
                        acc := acc
                        run := none
                        upcalls := nd.upcalls ++ upcall.toList })
                  else
                    some (s.setNode p
                      { nd with run := some (r.prepareReply x accepts maxN maxV res rest) })
                else
                  none
            | .acceptres rid src _ ret ok, .accept accepts v =>
                if rid = r.rid ∧ src = x then
                  let accepts := if ret = .OK ∧ ok = true then accepts ++ [x] else accepts
                  some (s.setNode p
                    { nd with
                      run := some
                        { r with phase := .accept accepts v, todo := rest, calling := false } })
                else
                  none
            | _, _ => none
          else
            none

def stepEndLoop (s : State) (p : Str) : Option State :=
  let nd := s.node p
  match nd.run with
  | none => none
  | some r =>
      if r.todo = [] then
        some (s.setNode p { nd with run := r.endLoop })
      else
        none

/-- A process that is gone. -/
def Node.down (nd : Node) : Node :=
  { nd with
    run := none
    up := false
    upcalls := [] }

def stepHandle (s : State) (m : Msg) : Option State :=
  if m ∈ s.net then
    match m with
    | .preparereq rid x a =>
        let nd := s.node x
        if nd.up then
          let (acc, res) := preparereq nd.acc a
          some ((s.setNode x { nd with acc := acc }).send (.prepareres rid x a res))
        else
          none
    | .acceptreq rid x a =>
        let nd := s.node x
        if nd.up then
          let (acc, ret, ok) := acceptreq nd.acc a
          some ((s.setNode x { nd with acc := acc }).send (.acceptres rid x a ret ok))
        else
          none
    | .decidereq _ x a =>
        let nd := s.node x
        if nd.up then
          match decidereq nd.acc a with
          | some (acc, upcall) =>
              some (s.setNode x
                { nd with
                  acc := acc
                  upcalls := nd.upcalls ++ upcall.toList })
          | none => some (s.setNode x nd.down)
        else
          none
    | _ => none
  else
    none

/-- The node's process dies, at any point, and a new one is constructed over the log. -/
def stepRestart (s : State) (x : Str) (junk : UInt32) : Option State :=
  let nd := s.node x
  match acceptor junk nd.first x nd.value nd.acc.file with
  | some acc =>
      some (s.setNode x
        { nd with
          acc := acc
          myN := { n := 0, m := x }
          run := none
          up := true
          upcalls := [] })
  | none => some (s.setNode x nd.down)

def stepDump (s : State) (x : Str) : Option State :=
  if (s.node x).up then some (s.send (.logdump (dump (s.node x).acc))) else none

def stepRestore (s : State) (x text : Str) (junk : UInt32) : Option State :=
  let nd := s.node x
  if nd.up = true ∧ .logdump text ∈ s.net then
    match restore junk nd.acc text with
    | some acc => some (s.setNode x { nd with acc := acc })
    | none => some (s.setNode x nd.down)
  else
    none

def step (s : State) : Action → Option State
  | .run p inst cur newv => stepRun s p inst cur newv
  | .call p => stepCall s p
  | .skip p => stepSkip s p
  | .reply p m => stepReply s p m
  | .endLoop p => stepEndLoop s p
  | .handle m => stepHandle s m
  | .restart x junk => stepRestart s x junk
  | .dump x => stepDump s x
  | .restore x text junk => stepRestore s x text junk

/-! ## What a step does -/

/-- Everything a step can do: `step_move` is the only place where `step` is taken apart. -/
inductive Move (s : State) : Action → State → Prop
  | run {p : Str} {inst : UInt32} {cur : List Str} {newv : Str} (hp : IStream.IsWord p)
      (hup : (s.node p).up = true) (hrun : (s.node p).run = none) :
      Move s (.run p inst cur newv)
        { node := Function.update s.node p
            { s.node p with
              myN := setn (s.node p).acc.nH (s.node p).myN
              run := some
                { rid := s.runs.length
                  inst := inst
                  cur := cur
                  newv := newv
                  phase := .prepare [] zeroProp []
                  todo := cur
                  calling := false } }
          net := s.net
          runs := s.runs ++
            [{ p := p
               inst := inst
               n := setn (s.node p).acc.nH (s.node p).myN
               cur := cur
               newv := newv }] }
  | call {p x : Str} {r : Run} {rest : List Str} (hrun : (s.node p).run = some r)
      (htodo : r.todo = x :: rest) :
      Move s (.call p)
        ((s.setNode p { s.node p with run := some { r with calling := true } }).send
          (r.request (s.node p).myN x))
  | skip {p x : Str} {r : Run} {rest : List Str} (hrun : (s.node p).run = some r)
      (htodo : r.todo = x :: rest) :
      Move s (.skip p)
        (s.setNode p { s.node p with run := some { r with todo := rest, calling := false } })
  | replyOld {p x : Str} {r : Run} {rest accepts : List Str} {maxN : PropT} {maxV : Str}
      {a : PrepareArg} {res : PrepareRes} (hrun : (s.node p).run = some r)
      (htodo : r.todo = x :: rest) (hphase : r.phase = .prepare accepts maxN maxV)
      (hm : Msg.prepareres r.rid x a res ∈ s.net) (hold : res.oldinstance = true) :
      Move s (.reply p (.prepareres r.rid x a res))
        (s.setNode p
          { s.node p with
            acc := (commitWo (s.node p).acc r.inst res.vA).1
            run := none
            upcalls := (s.node p).upcalls ++
              (commitWo (s.node p).acc r.inst res.vA).2.toList })
  | replyPrepare {p x : Str} {r : Run} {rest accepts : List Str} {maxN : PropT} {maxV : Str}
      {a : PrepareArg} {res : PrepareRes} (hrun : (s.node p).run = some r)
      (htodo : r.todo = x :: rest) (hphase : r.phase = .prepare accepts maxN maxV)
      (hm : Msg.prepareres r.rid x a res ∈ s.net) (hold : res.oldinstance = false) :
      Move s (.reply p (.prepareres r.rid x a res))
        (s.setNode p
          { s.node p with run := some (r.prepareReply x accepts maxN maxV res rest) })
  | replyAccept {p x : Str} {r : Run} {rest accepts : List Str} {v : Str}
      {a : AcceptArg} {ret : Status} {ok : Bool} (hrun : (s.node p).run = some r)
      (htodo : r.todo = x :: rest) (hphase : r.phase = .accept accepts v)
      (hm : Msg.acceptres r.rid x a ret ok ∈ s.net) :
      Move s (.reply p (.acceptres r.rid x a ret ok))
        (s.setNode p
          { s.node p with
            run := some
              { r with
                phase := .accept (if ret = .OK ∧ ok = true then accepts ++ [x] else accepts) v
                todo := rest
                calling := false } })
  | endLoop {p : Str} {r : Run} (hrun : (s.node p).run = some r) (htodo : r.todo = []) :
      Move s (.endLoop p) (s.setNode p { s.node p with run := r.endLoop })
  | prepare {rid : ℕ} {x : Str} {a : PrepareArg} (hm : Msg.preparereq rid x a ∈ s.net) :
      Move s (.handle (.preparereq rid x a))
        ((s.setNode x { s.node x with acc := (preparereq (s.node x).acc a).1 }).send
          (.prepareres rid x a (preparereq (s.node x).acc a).2))
  | accept {rid : ℕ} {x : Str} {a : AcceptArg} (hm : Msg.acceptreq rid x a ∈ s.net) :
      Move s (.handle (.acceptreq rid x a))
        ((s.setNode x { s.node x with acc := (acceptreq (s.node x).acc a).1 }).send
          (.acceptres rid x a (acceptreq (s.node x).acc a).2.1 (acceptreq (s.node x).acc a).2.2))
  | decide {rid : ℕ} {x : Str} {a : DecideArg} {r : Acceptor × Option (UInt32 × Str)}
      (hm : Msg.decidereq rid x a ∈ s.net) (hr : decidereq (s.node x).acc a = some r) :
      Move s (.handle (.decidereq rid x a))
        (s.setNode x
          { s.node x with
            acc := r.1
            upcalls := (s.node x).upcalls ++ r.2.toList })
  | abort {x : Str} {act : Action} (hact : (∃ rid a, act = .handle (.decidereq rid x a)) ∨
        (∃ junk, act = .restart x junk) ∨ ∃ text junk, act = .restore x text junk) :
      Move s act (s.setNode x (s.node x).down)
  | restart {x : Str} {junk : UInt32} {acc : Acceptor}
      (hacc : acceptor junk (s.node x).first x (s.node x).value (s.node x).acc.file = some acc) :
      Move s (.restart x junk)
        (s.setNode x
          { s.node x with
            acc := acc
            myN := { n := 0, m := x }
            run := none
            up := true
            upcalls := [] })
  | dump {x : Str} : Move s (.dump x) (s.send (.logdump (dump (s.node x).acc)))
  | restore {x text : Str} {junk : UInt32} {acc : Acceptor} (hm : Msg.logdump text ∈ s.net)
      (hacc : restore junk (s.node x).acc text = some acc) :
      Move s (.restore x text junk) (s.setNode x { s.node x with acc := acc })

theorem stepRun_move {s t : State} {p : Str} {inst : UInt32} {cur : List Str} {newv : Str}
    (h : stepRun s p inst cur newv = some t) : Move s (.run p inst cur newv) t := by
  simp only [stepRun] at h
  split at h
  case isTrue hc =>
    rcases hc with ⟨hp, hup, hrun⟩
    cases h
    exact .run hp hup hrun
  case isFalse => cases h

theorem stepCall_move {s t : State} {p : Str} (h : stepCall s p = some t) :
    Move s (.call p) t := by
  simp only [stepCall] at h
  split at h
  · cases h
  · rename_i r hrun
    split at h
    · cases h
    · rename_i x rest htodo
      split at h
      · cases h
      · cases h
        exact .call hrun htodo

theorem stepSkip_move {s t : State} {p : Str} (h : stepSkip s p = some t) :
    Move s (.skip p) t := by
  simp only [stepSkip] at h
  split at h
  · cases h
  · rename_i r hrun
    split at h
    · cases h
    · rename_i x rest htodo
      cases h
      exact .skip hrun htodo

theorem stepReply_move {s t : State} {p : Str} {m : Msg} (h : stepReply s p m = some t) :
    Move s (.reply p m) t := by
  simp only [stepReply] at h
  split at h
  · cases h
  · rename_i r hrun
    split at h
    · cases h
    · rename_i x rest htodo
      split at h
      case isFalse => cases h
      case isTrue hc =>
        split at h
        · rename_i rid src a res accepts maxN maxV hphase
          split at h
          case isFalse => cases h
          case isTrue hfrom =>
            rcases hfrom with ⟨rfl, rfl⟩
            split at h
            case isTrue hold =>
              cases h
              exact .replyOld hrun htodo hphase hc.2 hold
            case isFalse hold =>
              cases h
              exact .replyPrepare hrun htodo hphase hc.2 (by simpa using hold)
        · rename_i rid src a ret ok accepts v hphase
          split at h
          case isFalse => cases h
          case isTrue hfrom =>
            rcases hfrom with ⟨rfl, rfl⟩
            cases h
            exact .replyAccept hrun htodo hphase hc.2
        · cases h

theorem stepEndLoop_move {s t : State} {p : Str} (h : stepEndLoop s p = some t) :
    Move s (.endLoop p) t := by
  simp only [stepEndLoop] at h
  split at h
  · cases h
  · rename_i r hrun
    split at h
    · rename_i htodo
      cases h
      exact .endLoop hrun htodo
    · cases h

theorem stepHandle_move {s t : State} {m : Msg} (h : stepHandle s m = some t) :
    Move s (.handle m) t := by
  simp only [stepHandle] at h
  split at h
  case isFalse => cases h
  case isTrue hm =>
    cases m with
    | preparereq rid x a =>
        simp only at h
        split at h
        · cases h
          exact .prepare hm
        · cases h
    | acceptreq rid x a =>
        simp only at h
        split at h
        · cases h
          exact .accept hm
        · cases h
    | decidereq rid x a =>
        simp only at h
        split at h
        · cases hr : decidereq (s.node x).acc a with
          | none =>
              rw [hr] at h
              cases h
              exact .abort (Or.inl ⟨rid, a, rfl⟩)
          | some r =>
              rw [hr] at h
              cases h
              exact .decide hm hr
        · cases h
    | prepareres rid x a res | acceptres rid x a ret ok | logdump text => cases h

theorem step_move {s t : State} {a : Action} (h : step s a = some t) : Move s a t := by
  cases a with
  | run p inst cur newv => exact stepRun_move h
  | call p => exact stepCall_move h
  | skip p => exact stepSkip_move h
  | reply p m => exact stepReply_move h
  | endLoop p => exact stepEndLoop_move h
  | handle m => exact stepHandle_move h
  | restart x junk =>
      simp only [step, stepRestart] at h
      split at h
      · rename_i acc hacc
        cases h
        exact .restart hacc
      · cases h
        exact .abort (Or.inr (Or.inl ⟨junk, rfl⟩))
  | dump x =>
      simp only [step, stepDump] at h
      split at h
      · cases h
        exact .dump
      · cases h
  | restore x text junk =>
      simp only [step, stepRestore] at h
      split at h
      case isFalse => cases h
      case isTrue hc =>
        split at h
        · rename_i acc hacc
          cases h
          exact .restore hc.2 hacc
        · cases h
          exact .abort (Or.inr (Or.inr ⟨text, junk, rfl⟩))

/-- The node that an action is about. -/
def Action.actor : Action → Str
  | .run p _ _ _ | .call p | .skip p | .reply p _ | .endLoop p => p
  | .handle (.preparereq _ x _) | .handle (.acceptreq _ x _) | .handle (.decidereq _ x _) => x
  | .handle (.prepareres _ _ _ _) | .handle (.acceptres _ _ _ _ _) | .handle (.logdump _) => []
  | .restart x _ | .dump x | .restore x _ _ => x

/-- A step leaves every other node alone. -/
theorem step_frame {s t : State} {a : Action} (h : step s a = some t) {x : Str}
    (hx : x ≠ a.actor) : t.node x = s.node x := by
  cases step_move h with
  | run _ _ _ => exact Function.update_of_ne hx _ _
  | call _ _ | skip _ _ | replyOld _ _ _ _ _ | replyPrepare _ _ _ _ _ | replyAccept _ _ _ _
  | endLoop _ _ | prepare _ | accept _ | decide _ _ => exact State.setNode_node_of_ne _ _ hx
  | abort hact =>
      rcases hact with ⟨rid, a, rfl⟩ | ⟨junk, rfl⟩ | ⟨text, junk, rfl⟩ <;>
        exact State.setNode_node_of_ne _ _ hx
  | restart _ => exact State.setNode_node_of_ne _ _ hx
  | dump => rfl
  | restore _ _ => exact State.setNode_node_of_ne _ _ hx

/-- How a step may change the acceptor of `x`. -/
inductive AccStep (s : State) (x : Str) (act : Action) (acc : Acceptor) : Prop
  | keep (h : acc = (s.node x).acc)
  | prepare {rid : ℕ} {a : PrepareArg} (hm : Msg.preparereq rid x a ∈ s.net)
      (h : acc = (preparereq (s.node x).acc a).1)
  | accept {rid : ℕ} {a : AcceptArg} (hm : Msg.acceptreq rid x a ∈ s.net)
      (h : acc = (acceptreq (s.node x).acc a).1)
  | decide {rid : ℕ} {a : DecideArg} {r : Acceptor × Option (UInt32 × Str)}
      (hm : Msg.decidereq rid x a ∈ s.net) (hr : decidereq (s.node x).acc a = some r)
      (h : acc = r.1)
  | commit {r : Run} {y : Str} {a : PrepareArg} {res : PrepareRes}
      (hrun : (s.node x).run = some r) (hm : Msg.prepareres r.rid y a res ∈ s.net)
      (hold : res.oldinstance = true) (h : acc = (commitWo (s.node x).acc r.inst res.vA).1)
  | rebuilt {junk : UInt32} (hact : act = .restart x junk)
      (h : acceptor junk (s.node x).first x (s.node x).value (s.node x).acc.file = some acc)
  | restored {text : Str} {junk : UInt32} (hact : act = .restore x text junk)
      (hm : Msg.logdump text ∈ s.net) (h : restore junk (s.node x).acc text = some acc)

theorem AccStep.of_setNode {s : State} {act : Action} (p : Str) (nd : Node)
    (h : AccStep s p act nd.acc) (x : Str) : AccStep s x act ((s.setNode p nd).node x).acc := by
  by_cases hx : x = p
  · subst hx
    rw [State.setNode_node_self]
    exact h
  · rw [State.setNode_node_of_ne _ _ hx]
    exact .keep rfl

theorem acc_step {s t : State} {a : Action} (h : step s a = some t) (x : Str) :
    AccStep s x a (t.node x).acc := by
  cases step_move h with
  | @run p inst cur newv hp hup hrun =>
      exact AccStep.of_setNode p { s.node p with myN := _, run := some _ } (.keep rfl) x
  | @call p y r rest hrun htodo =>
      refine AccStep.of_setNode _ _ ?_ x
      exact .keep rfl
  | @skip p y r rest hrun htodo =>
      refine AccStep.of_setNode _ _ ?_ x
      exact .keep rfl
  | @replyOld p y r rest accepts maxN maxV a res hrun htodo hphase hm hold =>
      exact AccStep.of_setNode _ _ (.commit hrun hm hold rfl) x
  | @replyPrepare p y r rest accepts maxN maxV a res hrun htodo hphase hm hold =>
      refine AccStep.of_setNode _ _ ?_ x
      exact .keep rfl
  | @replyAccept p y r rest accepts v a ret ok hrun htodo hphase hm =>
      refine AccStep.of_setNode _ _ ?_ x
      exact .keep rfl
  | @endLoop p r hrun htodo =>
      refine AccStep.of_setNode _ _ ?_ x
      exact .keep rfl
  | @prepare rid y a hm => exact AccStep.of_setNode _ _ (.prepare hm rfl) x
  | @accept rid y a hm => exact AccStep.of_setNode _ _ (.accept hm rfl) x
  | @decide rid y a r hm hr => exact AccStep.of_setNode _ _ (.decide hm hr rfl) x
  | @abort y act hact =>
      refine AccStep.of_setNode _ _ ?_ x
      exact .keep rfl
  | @restart y junk acc hacc => exact AccStep.of_setNode _ _ (.rebuilt rfl hacc) x
  | @dump y => exact .keep rfl
  | @restore y text junk acc hm hacc => exact AccStep.of_setNode _ _ (.restored rfl hm hacc) x

/-- Whether a node bootstraps, and with which value, never changes. -/
theorem first_step {s t : State} {a : Action} (h : step s a = some t) (x : Str) :
    (t.node x).first = (s.node x).first ∧ (t.node x).value = (s.node x).value := by
  by_cases hx : x = a.actor
  · cases step_move h with
    | abort hact =>
        rcases hact with ⟨rid, a, rfl⟩ | ⟨junk, rfl⟩ | ⟨text, junk, rfl⟩ <;> subst hx <;>
          simp [Node.down]
    | dump => exact ⟨rfl, rfl⟩
    | _ => subst hx; simp
  · rw [step_frame h hx]
    exact ⟨rfl, rfl⟩

theorem runs_step {s t : State} {a : Action} (h : step s a = some t) :
    t.runs = s.runs ∨ ∃ p inst cur newv, a = .run p inst cur newv ∧
      t.runs = s.runs ++
        [{ p := p
           inst := inst
           n := setn (s.node p).acc.nH (s.node p).myN
           cur := cur
           newv := newv }] := by
  cases step_move h with
  | @run p inst cur newv hp hup hrun => exact Or.inr ⟨p, inst, cur, newv, rfl, rfl⟩
  | _ => exact Or.inl rfl

/-- A step sends at most one message. -/
theorem net_step {s t : State} {a : Action} (h : step s a = some t) :
    t.net = s.net ∨ ∃ m, t.net = m :: s.net := by
  cases step_move h with
  | call _ _ | prepare _ | accept _ | dump => exact Or.inr ⟨_, rfl⟩
  | _ => exact Or.inl rfl

/-- A request is neither an answer nor a dump. -/
theorem Run.request_ne (r : Run) (n : PropT) (x : Str) :
    (∀ rid y a res, Msg.prepareres rid y a res ≠ r.request n x) ∧
      (∀ rid y a ret ok, Msg.acceptres rid y a ret ok ≠ r.request n x) ∧
      ∀ text, Msg.logdump text ≠ r.request n x := by
  cases hphase : r.phase <;> simp [Run.request, hphase]

/-- A new dump is the log of some node. -/
theorem logdump_step {s t : State} {a : Action} (h : step s a = some t) {text : Str}
    (hm : Msg.logdump text ∈ t.net) :
    Msg.logdump text ∈ s.net ∨ ∃ x, text = dump (s.node x).acc := by
  cases step_move h with
  | @call p x r rest hrun htodo =>
      rcases List.mem_cons.mp hm with heq | hin
      · exact absurd heq ((r.request_ne _ _).2.2 text)
      · exact Or.inl hin
  | prepare _ =>
      rcases List.mem_cons.mp hm with heq | hin
      · cases heq
      · exact Or.inl hin
  | accept _ =>
      rcases List.mem_cons.mp hm with heq | hin
      · cases heq
      · exact Or.inl hin
  | @dump x =>
      rcases List.mem_cons.mp hm with heq | hin
      · cases heq
        exact Or.inr ⟨x, rfl⟩
      · exact Or.inl hin
  | _ => exact Or.inl hm

/-- How a step may change the upcalls of `x` that are under way, with the decided values. -/
inductive UpcallStep (s : State) (x : Str) (act : Action) (nd : Node) : Prop
  | keep (hup : nd.up = (s.node x).up) (hupcalls : nd.upcalls = (s.node x).upcalls)
      (hinst : nd.acc.instanceH = (s.node x).acc.instanceH)
      (hvalues : nd.acc.values = (s.node x).acc.values)
  | commit {iv : UInt32 × Str} (hup : nd.up = (s.node x).up)
      (hupcalls : nd.upcalls = (s.node x).upcalls ++ [iv])
      (hlt : (s.node x).acc.instanceH < iv.1) (hinst : nd.acc.instanceH = iv.1)
      (hvalue : nd.acc.values iv.1 = iv.2)
  | down (hup : nd.up = false) (hupcalls : nd.upcalls = [])
  | rebuilt {junk : UInt32} (hact : act = .restart x junk) (hupcalls : nd.upcalls = [])
  | restored {text : Str} {junk : UInt32} (hact : act = .restore x text junk)
      (hup : nd.up = (s.node x).up) (hupcalls : nd.upcalls = (s.node x).upcalls)

theorem UpcallStep.of_setNode {s : State} {act : Action} (p : Str) (nd : Node)
    (h : UpcallStep s p act nd) (x : Str) : UpcallStep s x act ((s.setNode p nd).node x) := by
  by_cases hx : x = p
  · subst hx
    rw [State.setNode_node_self]
    exact h
  · rw [State.setNode_node_of_ne _ _ hx]
    exact .keep rfl rfl rfl rfl

/-- A commit, with its upcall if there is one. -/
theorem UpcallStep.of_commitWo {s : State} {x : Str} {act : Action} {nd : Node} {inst : UInt32}
    {value : Str} (hup : nd.up = (s.node x).up)
    (hacc : nd.acc = (commitWo (s.node x).acc inst value).1)
    (hupcalls : nd.upcalls = (s.node x).upcalls ++
      (commitWo (s.node x).acc inst value).2.toList) : UpcallStep s x act nd := by
  by_cases hlt : (s.node x).acc.instanceH < inst
  · rw [commitWo_of_lt hlt] at hacc hupcalls
    refine .commit hup hupcalls hlt ?_ ?_
    · rw [hacc]
    · rw [hacc]
      exact Function.update_self _ _ _
  · rw [commitWo_of_le (UInt32.not_lt.mp hlt)] at hacc hupcalls
    refine .keep hup ?_ ?_ ?_
    · rw [hupcalls]
      exact List.append_nil _
    · rw [hacc]
    · rw [hacc]

theorem upcall_step {s t : State} {a : Action} (h : step s a = some t) (x : Str) :
    UpcallStep s x a (t.node x) := by
  cases step_move h with
  | @run p inst cur newv hp hup hrun =>
      exact UpcallStep.of_setNode p { s.node p with myN := _, run := some _ }
        (.keep rfl rfl rfl rfl) x
  | @replyOld p y r rest accepts maxN maxV a res hrun htodo hphase hm hold =>
      refine UpcallStep.of_setNode _ _ ?_ x
      exact .of_commitWo rfl rfl rfl
  | @prepare rid y a hm =>
      refine UpcallStep.of_setNode _ _ ?_ x
      rcases preparereq_cases (s.node y).acc a with ⟨_, he, _⟩ | ⟨_, _, he, _⟩ | ⟨_, _, he, _⟩
      all_goals
        rw [he]
        exact .keep rfl rfl rfl rfl
  | @accept rid y a hm =>
      refine UpcallStep.of_setNode _ _ ?_ x
      rcases acceptreq_cases (s.node y).acc a with ⟨_, he⟩ | ⟨_, he⟩
      all_goals
        rw [he]
        exact .keep rfl rfl rfl rfl
  | @decide rid y a r hm hr =>
      refine UpcallStep.of_setNode _ _ ?_ x
      rcases decidereq_cases hr with ⟨_, _, rfl⟩ | ⟨_, rfl⟩
      · exact .of_commitWo rfl rfl rfl
      · exact .keep rfl (List.append_nil _) rfl rfl
  | @abort y act hact => exact UpcallStep.of_setNode _ _ (.down rfl rfl) x
  | @restart y junk acc hacc => exact UpcallStep.of_setNode _ _ (.rebuilt rfl rfl) x
  | @dump y => exact .keep rfl rfl rfl rfl
  | @restore y text junk acc hm hacc =>
      refine UpcallStep.of_setNode _ _ ?_ x
      exact .restored rfl rfl rfl
  | _ =>
      -- the steps of a run that do not commit
      refine UpcallStep.of_setNode _ _ ?_ x
      exact .keep rfl rfl rfl rfl

/-- A new upcall comes from a commit in this step. -/
theorem upcalls_step {s t : State} {a : Action} (h : step s a = some t) {x : Str}
    {iv : UInt32 × Str} (hiv : iv ∈ (t.node x).upcalls) :
    iv ∈ (s.node x).upcalls ∨ ((s.node x).acc.instanceH < iv.1 ∧
      (t.node x).acc.instanceH = iv.1 ∧ (t.node x).acc.values iv.1 = iv.2) := by
  cases upcall_step h x with
  | keep _ hupcalls _ _ => exact Or.inl (hupcalls ▸ hiv)
  | commit _ hupcalls hlt hinst hvalue =>
      rw [hupcalls] at hiv
      rcases List.mem_append.mp hiv with hold | hnew
      · exact Or.inl hold
      · rw [List.mem_singleton.mp hnew]
        exact Or.inr ⟨hlt, hinst, hvalue⟩
  | down _ hupcalls =>
      rw [hupcalls] at hiv
      cases hiv
  | rebuilt _ hupcalls =>
      rw [hupcalls] at hiv
      cases hiv
  | restored _ _ hupcalls => exact Or.inl (hupcalls ▸ hiv)

theorem upcalls_restart {s t : State} {x : Str} {junk : UInt32}
    (h : step s (.restart x junk) = some t) : (t.node x).upcalls = [] := by
  cases step_move h with
  | abort hact =>
      rcases hact with ⟨_, _, ⟨⟩⟩ | ⟨_, ⟨⟩⟩ | ⟨_, _, ⟨⟩⟩
      rw [State.setNode_node_self]
      rfl
  | restart _ => rw [State.setNode_node_self]

theorem upcalls_restore {s t : State} {x text : Str} {junk : UInt32}
    (h : step s (.restore x text junk) = some t) :
    (t.node x).up = false ∧ (t.node x).upcalls = [] ∨
      (t.node x).up = (s.node x).up ∧ (t.node x).upcalls = (s.node x).upcalls := by
  cases step_move h with
  | abort hact =>
      rcases hact with ⟨_, _, ⟨⟩⟩ | ⟨_, ⟨⟩⟩ | ⟨_, _, ⟨⟩⟩
      rw [State.setNode_node_self]
      exact Or.inl ⟨rfl, rfl⟩
  | restore _ _ =>
      rw [State.setNode_node_self]
      exact Or.inr ⟨rfl, rfl⟩

end Paxos
end Yfs

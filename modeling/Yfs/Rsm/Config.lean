import Yfs.Paxos.Agreement

/-!
# Config — the views that the nodes agree on

`config` keeps the current view of a node, `myvid` and `mems`, and is the only caller of
`proposer::run`: `add` proposes the view with one node appended, `remove_wo` the view with one
node left out.  It learns new views from the acceptor, through `paxos_commit`, and rebuilds its
own state from the acceptor after a restart or after a log was restored.

The state is that of the Paxos cluster with a `Cfg` at every node; `Cluster` has its threads.
-/

namespace Yfs
namespace Config

open Lib Paxos

/-! ## The system -/

structure Cfg where
  myvid : UInt32
  mems : List Str
  deriving DecidableEq, Repr

structure System where
  pax : State
  cfg : Str → Cfg

def reconstruct (acc : Acceptor) (c : Cfg) : Cfg :=
  if 0 < acc.instanceH then
    { myvid := acc.instanceH
      mems := getView acc acc.instanceH }
  else
    c

/-- The configurations after a Paxos step: the constructor and `config::restore` call
`reconstruct`. -/
def recfg (cfg : Str → Cfg) (t : State) : Action → Str → Cfg
  | .restart x _ => Function.update cfg x (reconstruct (t.node x).acc { myvid := 0, mems := [] })
  | .restore x _ _ => Function.update cfg x (reconstruct (t.node x).acc (cfg x))
  | _ => cfg

def isRun : Action → Bool
  | .run _ _ _ _ => true
  | _ => false

/-- `config::paxos_commit`, for one of the upcalls that are under way. -/
def stepPaxosCommit (s : System) (p : Str) (inst : UInt32) (value : Str) : Option System :=
  let nd := s.pax.node p
  if (inst, value) ∈ nd.upcalls then
    some
      { pax := s.pax.setNode p { nd with upcalls := nd.upcalls.erase (inst, value) }
        cfg := Function.update s.cfg p { myvid := inst, mems := members value } }
  else
    none

/-- The cluster in which `first` bootstraps and every other node starts with an empty log. -/
def boot (first : Str) : System :=
  let acc (x : Str) : Acceptor := (acceptor 0 (decide (x = first)) x x []).getD (fresh x [])
  { pax :=
      { node := fun x =>
          { acc := acc x
            myN := { n := 0, m := x }
            run := none
            up := true
            first := decide (x = first)
            value := x
            upcalls := [] }
        net := []
        runs := [] }
    cfg := fun x => reconstruct (acc x) { myvid := 0, mems := [] } }

/-- The new view that `add` or `remove_wo` proposes over the view `m`. -/
def Proposal (m m' : List Str) : Prop :=
  (∃ x, IStream.IsWord x ∧ x ∉ m ∧ m' = m ++ [x]) ∨
    ∃ x, x ∈ m ∧ m' = m.filter fun y => decide (y ≠ x)

end Config
end Yfs

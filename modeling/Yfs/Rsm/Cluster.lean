import Yfs.Rsm.Config

/-!
# Cluster — the config layer with its threads and its heartbeats

`config::add` and `config::remove_wo` are cut where `cfg_mutex` is released: the instance, the
member list and the proposal are read off the configuration first (`Ask`), and `proposer::run`
starts with them at some later time, when the configuration may have moved on.  The heartbeater
makes passes over the current view and sends heartbeats, which the handler serves.
-/

namespace Yfs
namespace Config

open Lib Paxos

/-! ## The code -/

/-- A call of `proposer::run` whose arguments have been read and whose thread does not have the
proposer's mutex yet. -/
structure Ask where
  p : Str
  inst : UInt32
  cur : List Str
  newv : Str
  deriving DecidableEq, Repr

/-- `config::add` up to the call of `proposer::run`. -/
def add (c : Cfg) (p newM : Str) (vid : UInt32) : Option Ask :=
  if vid ≠ c.myvid then
    none
  else
    some
      { p := p
        inst := c.myvid + 1
        cur := c.mems
        newv := value (c.mems ++ [newM]) }

/-- `config::remove_wo` up to the call of `proposer::run`. -/
def removeWo (c : Cfg) (p m : Str) : Ask where
  p := p
  inst := c.myvid + 1
  cur := c.mems
  newv := value (c.mems.filter fun x => decide (x ≠ m))

/-- The smallest name among `me` and `cmems`. -/
def smallest (me : Str) (cmems : List Str) : Str :=
  cmems.foldl (fun m x => if m > x then x else m) me

/-- The nodes that a pass of `config::heartbeater` pings: the node with the smallest name pings
the others, the others ping that one. -/
def pinged (me : Str) (cmems : List Str) : List Str :=
  if isamember me cmems = false then
    []
  else if smallest me cmems = me then
    cmems.filter fun x => decide (x ≠ me)
  else
    [smallest me cmems]

/-- `config::heartbeat`; `none` is its failed `VERIFY`. -/
def heartbeat (c : Cfg) (isrunning : Bool) (vid : UInt32) : Option Status :=
  if vid = c.myvid then
    some .OK
  else if isrunning then
    if vid = c.myvid + 1 ∨ vid + 1 = c.myvid then some .OK else none
  else
    some .ERR

/-! ## The system -/

/-- A heartbeat on its way. -/
structure Beat where
  src : Str
  dst : Str
  vid : UInt32
  deriving DecidableEq, Repr

/-- `pass` holds the nodes that the heartbeater of a node has still to ping in its pass. -/
structure Cluster where
  sys : System
  asks : List Ask
  pass : Str → List Str
  beats : List Beat

inductive Event
  | paxos (a : Action)
  | add (p newM : Str) (vid : UInt32)
  | removeWo (p m : Str)
  | run (k : Ask)
  | paxosCommit (p : Str) (inst : UInt32) (value : Str)
  | wake (p : Str)
  | beat (p m : Str)
  | heartbeat (b : Beat)
  | lose (b : Beat)
  deriving DecidableEq, Repr

namespace Cluster

def node (c : Cluster) (x : Str) : Node := c.sys.pax.node x

def cfg (c : Cluster) (x : Str) : Cfg := c.sys.cfg x

/-- `get_view_wo(myvid)` at `x`. -/
def view (c : Cluster) (x : Str) : List Str := getView (c.node x).acc (c.cfg x).myvid

def setPax (c : Cluster) (t : State) : Cluster := { c with sys := { c.sys with pax := t } }

def ask (c : Cluster) (k : Ask) : Cluster := { c with asks := k :: c.asks }

/-- The state after a Paxos step: a node that restarts has no threads left. -/
def afterPaxos (c : Cluster) (t : State) (a : Action) : Cluster :=
  { sys := { pax := t, cfg := recfg c.sys.cfg t a }
    asks := match a with
      | .restart x _ => c.asks.filter fun k => decide (k.p ≠ x)
      | _ => c.asks
    pass := match a with
      | .restart x _ => Function.update c.pass x []
      | _ => c.pass
    beats := c.beats }

/-- `proposer::run` with arguments that were read before; it returns at once when the proposer
is not stable. -/
def stepRun (c : Cluster) (k : Ask) : Option Cluster :=
  if k ∈ c.asks ∧ (c.node k.p).up = true then
    let d := { c with asks := c.asks.erase k }
    if (c.node k.p).run = none then
      (Paxos.stepRun c.sys.pax k.p k.inst k.cur k.newv).map d.setPax
    else
      some d
  else
    none

/-- A heartbeat is served; the process is gone if its `VERIFY` fails. -/
def stepHeartbeat (c : Cluster) (b : Beat) : Option Cluster :=
  if b ∈ c.beats ∧ (c.node b.dst).up = true then
    let d := { c with beats := c.beats.erase b }
    match heartbeat (c.cfg b.dst) (c.node b.dst).run.isSome b.vid with
    | some _ => some d
    | none => some (d.setPax (c.sys.pax.setNode b.dst (c.node b.dst).down))
  else
    none

def step (c : Cluster) : Event → Option Cluster
  | .paxos a =>
      if isRun a then none else (Paxos.step c.sys.pax a).map fun t => c.afterPaxos t a
  | .add p newM vid =>
      if (c.node p).up = true ∧ IStream.IsWord newM then
        (Config.add (c.cfg p) p newM vid).map c.ask
      else
        none
  | .removeWo p m =>
      if (c.node p).up = true ∧ isamember p (c.view p) = true ∧ isamember m (c.view p) = true ∧
          m ≠ p then
        some (c.ask (Config.removeWo (c.cfg p) p m))
      else
        none
  | .run k => c.stepRun k
  | .paxosCommit p inst value =>
      (stepPaxosCommit c.sys p inst value).map fun s => { c with sys := s }
  | .wake p =>
      if (c.node p).up then
        some { c with pass := Function.update c.pass p (pinged p (c.view p)) }
      else
        none
  | .beat p m =>
      if (c.node p).up = true ∧ m ∈ c.pass p then
        some
          { c with
            pass := Function.update c.pass p ((c.pass p).erase m)
            beats := { src := p, dst := m, vid := (c.cfg p).myvid } :: c.beats }
      else
        none
  | .heartbeat b => c.stepHeartbeat b
  | .lose b => if b ∈ c.beats then some { c with beats := c.beats.erase b } else none

/-- The cluster in which `first` bootstraps and every other node starts with an empty log. -/
def boot (first : Str) : Cluster where
  sys := Config.boot first
  asks := []
  pass _ := []
  beats := []

/-! ## What a step does -/

/-- The state after `paxos_commit(inst, value)` at `p`. -/
def committed (c : Cluster) (p : Str) (inst : UInt32) (value : Str) : Cluster :=
  { c with
    sys :=
      { pax := c.sys.pax.setNode p
          { c.node p with upcalls := (c.node p).upcalls.erase (inst, value) }
        cfg := Function.update c.sys.cfg p { myvid := inst, mems := members value } } }

/-- `paxos_commit` is about the configuration: the acceptor stays as it is. -/
theorem committed_node (c : Cluster) (p : Str) (inst : UInt32) (value : Str) (x : Str) :
    (c.committed p inst value).node x =
      { c.node x with
        upcalls := if x = p then (c.node x).upcalls.erase (inst, value)
          else (c.node x).upcalls } := by
  by_cases hx : x = p
  · subst hx
    simp [committed, node]
  · rw [if_neg hx]
    exact State.setNode_node_of_ne _ _ hx

theorem committed_cfg (c : Cluster) (p : Str) (inst : UInt32) (value : Str) (x : Str) :
    (c.committed p inst value).cfg x =
      if x = p then { myvid := inst, mems := members value } else c.cfg x := by
  by_cases hx : x = p
  · subst hx
    simp [committed, cfg]
  · simp [committed, cfg, hx]

/-- The state after the failed `VERIFY` of a heartbeat. -/
def killed (c : Cluster) (b : Beat) : Cluster :=
  Cluster.setPax { c with beats := c.beats.erase b }
    (c.sys.pax.setNode b.dst (c.node b.dst).down)

theorem killed_node (c : Cluster) (b : Beat) (x : Str) :
    (c.killed b).node x = if x = b.dst then (c.node x).down else c.node x := by
  by_cases hx : x = b.dst
  · rw [if_pos hx, hx]
    exact State.setNode_node_self _ _ _
  · rw [if_neg hx]
    exact State.setNode_node_of_ne _ _ hx

/-- A process that is gone leaves its log behind. -/
theorem killed_acc (c : Cluster) (b : Beat) (x : Str) :
    ((c.killed b).node x).acc = (c.node x).acc := by
  rw [killed_node]
  split <;> rfl

/-- The names in an ask are words, and its instance is the one after the view of its node. -/
structure AskFrom (c : Cluster) (k : Ask) : Prop where
  inst : k.inst = (c.cfg k.p).myvid + 1
  cur : k.cur = (c.cfg k.p).mems
  newv : ∃ m, k.newv = value m ∧ ∀ x ∈ m, x ∈ (c.cfg k.p).mems ∨ IStream.IsWord x

inductive Move (c : Cluster) : Event → Cluster → Prop
  | paxos {a : Action} {t : State} (hrun : isRun a = false)
      (h : Paxos.step c.sys.pax a = some t) : Move c (.paxos a) (c.afterPaxos t a)
  | ask {e : Event} {k : Ask}
      (he : (∃ newM vid, e = .add k.p newM vid) ∨ ∃ m, e = .removeWo k.p m)
      (hk : AskFrom c k) : Move c e (c.ask k)
  | run {k : Ask} {t : State} (hk : k ∈ c.asks)
      (h : Paxos.step c.sys.pax (.run k.p k.inst k.cur k.newv) = some t) :
      Move c (.run k) (Cluster.setPax { c with asks := c.asks.erase k } t)
  | busy {k : Ask} : Move c (.run k) { c with asks := c.asks.erase k }
  | paxosCommit {p : Str} {inst : UInt32} {value : Str}
      (h : (inst, value) ∈ (c.node p).upcalls) :
      Move c (.paxosCommit p inst value) (c.committed p inst value)
  | wake {p : Str} :
      Move c (.wake p) { c with pass := Function.update c.pass p (pinged p (c.view p)) }
  | beat {p m : Str} :
      Move c (.beat p m)
        { c with
          pass := Function.update c.pass p ((c.pass p).erase m)
          beats := { src := p, dst := m, vid := (c.cfg p).myvid } :: c.beats }
  | gone {e : Event} {b : Beat} (he : e = .heartbeat b ∨ e = .lose b) :
      Move c e { c with beats := c.beats.erase b }
  | abort {b : Beat} (hb : b ∈ c.beats) (hup : (c.node b.dst).up = true)
      (hfail : Config.heartbeat (c.cfg b.dst) (c.node b.dst).run.isSome b.vid = none) :
      Move c (.heartbeat b) (c.killed b)

theorem askFrom_add {c : Cluster} {p newM : Str} {vid : UInt32} {k : Ask}
    (hword : IStream.IsWord newM) (h : Config.add (c.cfg p) p newM vid = some k) :
    k.p = p ∧ AskFrom c k := by
  unfold Config.add at h
  split at h
  · cases h
  · cases h
    refine ⟨rfl, rfl, rfl, _, rfl, ?_⟩
    intro x hx
    rcases List.mem_append.mp hx with hx | hx
    · exact Or.inl hx
    · exact Or.inr (List.mem_singleton.mp hx ▸ hword)

theorem askFrom_removeWo (c : Cluster) (p m : Str) :
    AskFrom c (Config.removeWo (c.cfg p) p m) :=
  ⟨rfl, rfl, _, rfl, fun _ hx => Or.inl (List.mem_filter.mp hx).1⟩

theorem stepRun_move {c d : Cluster} {k : Ask} (h : c.stepRun k = some d) : Move c (.run k) d := by
  rcases Option.ite_none_right_eq_some.1 h with ⟨⟨hk, _⟩, hd⟩
  by_cases hrun : (c.node k.p).run = none
  · simp only [hrun, if_true] at hd
    rcases Option.map_eq_some_iff.mp hd with ⟨t, ht, rfl⟩
    exact .run hk ht
  · simp only [hrun, if_false, Option.some.injEq] at hd
    subst hd
    exact .busy

theorem stepHeartbeat_move {c d : Cluster} {b : Beat} (h : c.stepHeartbeat b = some d) :
    Move c (.heartbeat b) d := by
  rcases Option.ite_none_right_eq_some.1 h with ⟨⟨hb, hup⟩, hd⟩
  cases hfail : Config.heartbeat (c.cfg b.dst) (c.node b.dst).run.isSome b.vid with
  | some r =>
      simp only [hfail, Option.some.injEq] at hd
      subst hd
      exact .gone (Or.inl rfl)
  | none =>
      simp only [hfail, Option.some.injEq] at hd
      subst hd
      exact .abort hb hup hfail

theorem step_move {c d : Cluster} {e : Event} (h : step c e = some d) : Move c e d := by
  cases e with
  | paxos a =>
      simp only [step] at h
      split at h
      · cases h
      case isFalse hrun =>
        rcases Option.map_eq_some_iff.mp h with ⟨t, ht, rfl⟩
        exact .paxos (by simpa using hrun) ht
  | add p newM vid =>
      rcases Option.ite_none_right_eq_some.1 h with ⟨⟨_, hword⟩, hd⟩
      rcases Option.map_eq_some_iff.mp hd with ⟨k, hk, rfl⟩
      rcases askFrom_add hword hk with ⟨rfl, hfrom⟩
      exact .ask (Or.inl ⟨newM, vid, rfl⟩) hfrom
  | removeWo p m =>
      rcases Option.ite_none_right_eq_some.1 h with ⟨_, ⟨⟩⟩
      exact .ask (Or.inr ⟨m, rfl⟩) (askFrom_removeWo c p m)
  | run k => exact stepRun_move h
  | paxosCommit p inst value =>
      rcases Option.map_eq_some_iff.mp h with ⟨s, hs, rfl⟩
      rcases Option.ite_none_right_eq_some.1 hs with ⟨hmem, ⟨⟩⟩
      exact .paxosCommit hmem
  | wake p =>
      rcases Option.ite_none_right_eq_some.1 h with ⟨_, ⟨⟩⟩
      exact .wake
  | beat p m =>
      rcases Option.ite_none_right_eq_some.1 h with ⟨_, ⟨⟩⟩
      exact .beat
  | heartbeat b => exact stepHeartbeat_move h
  | lose b =>
      rcases Option.ite_none_right_eq_some.1 h with ⟨_, ⟨⟩⟩
      exact .gone (Or.inr rfl)

end Cluster
end Config
end Yfs

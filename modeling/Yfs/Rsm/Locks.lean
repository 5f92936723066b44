import Mathlib.Data.Finset.Insert
import Yfs.Lib.Locks

/-!
# Locks — the mutexes of the Paxos and config layers

A node has three mutexes in these layers: the `pxs_mutex` of its proposer, the `pxs_mutex` of its
acceptor and the `cfg_mutex` of its configuration.  Each function is modelled by the operations
on them that it makes, in their order; what it does depends on data (who answers, with what, which
view a heartbeat is from), and that is an argument.  The getters of the acceptor take no lock.

The rule of the layers is that a module releases its locks before an upcall.  `proposer::prepare`
breaks it: after an answer `oldinstance` it calls `acceptor::commit`, and with it
`config::paxos_commit`, while it holds its own mutex.  `config::heartbeat` in turn asks the
proposer whether it is running, holding `cfg_mutex`.  The two may wait for each other
(`commit_waits_for_heartbeat`); that is the only way to a deadlock (`no_lock_cycle`).
-/

namespace Yfs
namespace Config

open Lib Lib.Locks

inductive Mutex
  | proposer
  | acceptor
  | cfg
  deriving DecidableEq, Repr

namespace Mutex

instance : Fintype Mutex where
  elems := {proposer, acceptor, cfg}
  complete m := by cases m <;> decide

/-! ## The code -/

/-- `config::paxos_commit`; if there is a `vc`, its `commit_change` is called without
`cfg_mutex`. -/
def paxosCommit (vc : Bool) : List (Op Mutex) :=
  [.lock cfg] ++ (if vc then [.unlock cfg, .lock cfg] else []) ++ [.unlock cfg]

/-- `acceptor::commit_wo`, called with the mutex of the acceptor held.  `none` stands for an
instance that is not above `instance_h`. -/
def commitWo : Option Bool → List (Op Mutex)
  | none => []
  -- the mutex of the acceptor is given up for the upcall, as the rule of the layers asks
  | some vc => [.unlock acceptor] ++ paxosCommit vc ++ [.lock acceptor]

def commit (news : Option Bool) : List (Op Mutex) :=
  [.lock acceptor] ++ commitWo news ++ [.unlock acceptor]

def preparereq : List (Op Mutex) := [.lock acceptor, .unlock acceptor]

def acceptreq : List (Op Mutex) := [.lock acceptor, .unlock acceptor]

def decidereq (news : Option Bool) : List (Op Mutex) :=
  [.lock acceptor] ++ commitWo news ++ [.unlock acceptor]

/-- The calls of a loop over the members; the mutex of the proposer is released during each. -/
def rpcs (n : ℕ) : List (Op Mutex) :=
  (List.replicate n [.unlock proposer, .lock proposer]).flatten

/-- How far a run of the proposer gets, with the number of calls in each phase.  In `old` the
last call of the prepare phase is answered with `oldinstance`. -/
inductive RunPath
  | busy
  | old (prepares : ℕ) (news : Option Bool)
  | prepared (prepares : ℕ)
  | accepted (prepares accepts : ℕ)
  | decided (prepares accepts decides : ℕ)
  deriving DecidableEq, Repr

def runBody : RunPath → List (Op Mutex)
  | .busy => []
  -- the commit is made inside `prepare`, so the proposer's mutex is held through the upcall
  | .old prepares news => rpcs prepares ++ commit news
  | .prepared prepares => rpcs prepares
  | .accepted prepares accepts => rpcs prepares ++ rpcs accepts
  | .decided prepares accepts decides => rpcs prepares ++ rpcs accepts ++ rpcs decides

/-- `proposer::run`. -/
def run (path : RunPath) : List (Op Mutex) :=
  [.lock proposer] ++ runBody path ++ [.unlock proposer]

def isrunning : List (Op Mutex) := [.lock proposer, .unlock proposer]

/-- `config::heartbeat` from a node in the same view, or in another one. -/
def heartbeat (same : Bool) : List (Op Mutex) :=
  [.lock cfg] ++ (if same then [] else isrunning) ++ [.unlock cfg]

/-- `cfg_mutex` is released while the proposer runs. -/
def unlocked (path : RunPath) : List (Op Mutex) :=
  [.unlock cfg] ++ run path ++ [.lock cfg]

/-- `config::add`; `none` stands for a view that is not the current one. -/
def add : Option RunPath → List (Op Mutex)
  | none => [.lock cfg, .unlock cfg]
  | some path => [.lock cfg] ++ unlocked path ++ [.unlock cfg]

/-- `config::remove_wo`, called with `cfg_mutex` held. -/
def removeWo (path : RunPath) : List (Op Mutex) := unlocked path

/-- The calls of `doheartbeat`; `cfg_mutex` is released during each. -/
def doheartbeats (n : ℕ) : List (Op Mutex) :=
  (List.replicate n [.unlock cfg, .lock cfg]).flatten

/-- One pass of `config::heartbeater`, from the end of its wait to the next wait. -/
def heartbeater (beats : ℕ) (remove : Option RunPath) : List (Op Mutex) :=
  [.lock cfg] ++ doheartbeats beats ++ (match remove with
    | none => []
    | some path => removeWo path) ++ [.unlock cfg]

inductive Call
  | preparereq
  | acceptreq
  | decidereq (news : Option Bool)
  | run (path : RunPath)
  | heartbeat (same : Bool)
  | add (path : Option RunPath)
  | heartbeater (beats : ℕ) (remove : Option RunPath)
  deriving DecidableEq, Repr

def code : Call → List (Op Mutex)
  | .preparereq => preparereq
  | .acceptreq => acceptreq
  | .decidereq news => decidereq news
  | .run path => run path
  | .heartbeat same => heartbeat same
  | .add path => add path
  | .heartbeater beats remove => heartbeater beats remove

/-! ## Which mutex is taken inside which -/

/-- `heartbeat` asks for the mutex of the proposer, and the commit in `prepare` for the other
two. -/
inductive Inside : Mutex → Mutex → Prop
  | heartbeat : Inside cfg proposer
  | commit : Inside proposer acceptor
  | upcall : Inside proposer cfg

instance : DecidableRel Inside
  | cfg, proposer => isTrue .heartbeat
  | proposer, acceptor => isTrue .commit
  | proposer, cfg => isTrue .upcall
  | proposer, proposer | acceptor, _ | cfg, acceptor | cfg, cfg => isFalse (by rintro ⟨⟩)

theorem nested_commit (news : Option Bool) :
    Nested Inside [proposer] (commit news) [proposer] := by
  rcases news with _ | vc
  · decide
  · cases vc <;> decide

theorem nested_rpcs (n : ℕ) : Nested Inside [proposer] (rpcs n) [proposer] :=
  Nested.replicate (by decide) n

theorem nested_runBody (path : RunPath) : Nested Inside [proposer] (runBody path) [proposer] := by
  cases path with
  | busy => rfl
  | old prepares news => exact (nested_rpcs prepares).append (nested_commit news)
  | prepared prepares => exact nested_rpcs prepares
  | accepted prepares accepts => exact (nested_rpcs prepares).append (nested_rpcs accepts)
  | decided prepares accepts decides =>
      exact ((nested_rpcs prepares).append (nested_rpcs accepts)).append (nested_rpcs decides)

theorem nested_run (path : RunPath) : Nested Inside [] (run path) [] := by
  have hlock : Nested Inside [] [.lock proposer] [proposer] := by decide
  have hunlock : Nested Inside [proposer] [.unlock proposer] [] := by decide
  exact (hlock.append (nested_runBody path)).append hunlock

theorem nested_unlocked (path : RunPath) : Nested Inside [cfg] (unlocked path) [cfg] := by
  have hunlock : Nested Inside [cfg] [.unlock cfg] [] := by decide
  have hlock : Nested Inside [] [.lock cfg] [cfg] := by decide
  exact (hunlock.append (nested_run path)).append hlock

/-- A function that holds `cfg_mutex` from its start to its end. -/
theorem nested_cfg {p : List (Op Mutex)} (h : Nested Inside [cfg] p [cfg]) :
    Nested Inside [] ([.lock cfg] ++ p ++ [.unlock cfg]) [] := by
  have hlock : Nested Inside [] [.lock cfg] [cfg] := by decide
  have hunlock : Nested Inside [cfg] [.unlock cfg] [] := by decide
  exact (hlock.append h).append hunlock

theorem nested_code (c : Call) : Nested Inside [] (code c) [] := by
  cases c with
  | preparereq | acceptreq => decide
  | decidereq news =>
      rcases news with _ | vc
      · decide
      · cases vc <;> decide
  | run path => exact nested_run path
  | heartbeat same => cases same <;> decide
  | add path =>
      rcases path with _ | path
      · decide
      · exact nested_cfg (nested_unlocked path)
  | heartbeater beats remove =>
      have hbeats : Nested Inside [cfg] (doheartbeats beats) [cfg] :=
        Nested.replicate (by decide) beats
      rcases remove with _ | path
      · exact nested_cfg (hbeats.append rfl)
      · exact nested_cfg (hbeats.append (nested_unlocked path))

/-! ## Deadlocks -/

variable {T : Type} [DecidableEq T]

/-- A commit in `prepare` and a heartbeat from another view that do not overlap never wait for
each other, and then no set of threads does. -/
theorem no_lock_cycle {s : Locks.State T Mutex} (h : Reach Locks.Init (Locks.step code) Apart s)
    (D : Set T) : ¬ Deadlock s D := by
  rcases reach_parted nested_code h with ⟨hc, hp⟩
  by_cases hb : ∃ t, s.owner cfg = some t ∧ Heads cfg proposer (s.todo t) = true
  · -- a heartbeat has `cfg_mutex`: the owner of the proposer's mutex does not ask for it
    rcases hb with ⟨t, ht, hheads⟩
    refine not_deadlock_of_rank (fun | cfg => 2 | proposer => 1 | acceptor => 0) ?_ D
    intro u m m' hown hask
    cases hc.ok_of_asks hown hask with
    | heartbeat | commit => decide
    | upcall =>
        -- the only pair against the ranks, and `Apart` keeps it from starting
        have hfalse := hp cfg proposer t u (by decide) ht hown hheads
        exact absurd (heads_of_asks hask proposer) (Bool.eq_false_iff.mp hfalse)
  · -- no heartbeat asks for the mutex of the proposer
    refine not_deadlock_of_rank (fun | proposer => 1 | cfg => 0 | acceptor => 0) ?_ D
    intro u m m' hown hask
    cases hc.ok_of_asks hown hask with
    | heartbeat => exact absurd ⟨u, hown, heads_of_asks hask cfg⟩ hb
    | commit | upcall => decide

def idle : Locks.State ℕ Mutex where
  owner _ := none
  todo _ := []

theorem init_idle : Locks.Init idle := ⟨fun _ => rfl, fun _ => rfl⟩

/-- The prepare of thread 0 is answered with `oldinstance`, and the thread has come to the upcall
of its commit. -/
def learnOld : List (Locks.Action ℕ Call) :=
  [.call 0 (.run (.old 1 (some true))), .exec 0, .exec 0, .exec 0, .exec 0, .exec 0]

/-- The upcall waits for a heartbeat from the same view, and an `add` for the upcall. -/
theorem no_lock_cycle_learnOld :
    ∃ s : Locks.State ℕ Mutex, Reach Locks.Init (Locks.step code) Apart s ∧
      ((Asks s 1 proposer ∧ s.owner proposer = some 0) ∧ Asks s 0 cfg ∧ s.owner cfg = some 2) ∧
      ¬ Deadlock s {0, 1, 2} := by
  have hrun : ∃ s : Locks.State ℕ Mutex, Reach Locks.Init (Locks.step code) Apart s ∧
      (Asks s 1 proposer ∧ s.owner proposer = some 0) ∧ Asks s 0 cfg ∧ s.owner cfg = some 2 :=
    Reach.exists_of_runFrom
      (learnOld ++ [.call 1 (.add (some .busy)), .exec 1, .exec 1, .call 2 (.heartbeat true),
        .exec 2])
      init_idle (by decide +kernel)
  rcases hrun with ⟨s, hs, hwait⟩
  exact ⟨s, hs, hwait, no_lock_cycle hs {0, 1, 2}⟩

/-- A heartbeat from another view takes `cfg_mutex` before the upcall of thread 0 does. -/
theorem commit_waits_for_heartbeat :
    ∃ s : Locks.State ℕ Mutex, Reach Locks.Init (Locks.step code) anyStep s ∧
      Deadlock s {0, 1} := by
  have hrun : ∃ s : Locks.State ℕ Mutex, Reach Locks.Init (Locks.step code) anyStep s ∧
      (Asks s 0 cfg ∧ s.owner cfg = some 1) ∧ Asks s 1 proposer ∧ s.owner proposer = some 0 :=
    Reach.exists_of_runFrom (learnOld ++ [.call 1 (.heartbeat false), .exec 1]) init_idle
      (by decide +kernel)
  rcases hrun with ⟨s, hs, ⟨hask0, hcfg⟩, hask1, hpro⟩
  refine ⟨s, hs, ⟨0, by simp⟩, ?_⟩
  intro t ht
  rcases ht with rfl | rfl
  · exact ⟨cfg, hask0, 1, by simp, by decide, hcfg⟩
  · exact ⟨proposer, hask1, 0, by simp, by decide, hpro⟩

end Mutex
end Config
end Yfs

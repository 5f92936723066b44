import Mathlib.Data.List.Basic
import Mathlib.Logic.Function.Basic
import Yfs.Lib.Run

/-!
# Client — how `rsm_client` looks for a primary

An `rsm_client` calls the node it takes for the primary.  When that call fails it goes on with
the next node of `known_mems`, from the back, and aborts the process when there is none left.
The list is filled by `init_members`, with what `client_members` answers.

Any number of threads share one client.  `rsm_client_mutex` is not held during a call, so the
code between two calls is one step, and what a thread remembers of the call it is in is only
the node it was made to.  `view` and `failed` record what `known_mems` was last filled with and
which nodes a call to failed since then; no step reads them.

* `gave_up_after_all` — as long as only failures of the current primary are acted on, the client
  gives up after a call to every member has failed;
* `gave_up_before_all` — three threads that fail on one node use up the list between them.
-/

namespace Yfs
namespace Rsm

open Lib

/-! ## The client -/

/-- What a thread is doing: nothing, `rsm_client_protocol::invoke` or `members` at a node. -/
inductive Thread (N : Type)
  | idle
  | invoking (dst : N)
  | asking (dst : N)
  deriving DecidableEq, Repr

/-- How a call of `invoke` comes back: `safebind` gave no connection, or the call returned.  A
`ret` that is none of the three named ones, a timeout among them, is `other`. -/
inductive Ret
  | unbound
  | ok
  | busy
  | notprimary
  | other
  deriving DecidableEq, Repr

/-- The process runs, or one of its two `VERIFY`s failed. -/
inductive Process
  | running
  | noMembers
  | gaveUp
  deriving DecidableEq, Repr

structure Client (N T : Type) where
  primary : N
  knownMems : List N
  thread : T → Thread N
  process : Process
  view : List N
  failed : List N

/-- `rsm::client_members`: the view of the node that is asked, and its primary at the end. -/
def clientMembers {N : Type} (view : List N) (primary : N) : List N :=
  view ++ [primary]

inductive ClientAction (N T : Type)
  | invoke (t : T)
  | invokeRet (t : T) (r : Ret)
  | membersRet (t : T) (newView : Option (List N))
  deriving DecidableEq, Repr

namespace Client

variable {N T : Type}

/-- `primary_failure`, after a call to `dst` has failed. -/
def primaryFailure (c : Client N T) (dst : N) : Client N T :=
  match c.knownMems.getLast? with
  | some m =>
      { c with
        primary := m
        knownMems := c.knownMems.dropLast
        failed := dst :: c.failed }
  | none =>
      { c with
        process := .gaveUp
        failed := dst :: c.failed }

section

variable [DecidableEq N] [DecidableEq T]

/-- The top of the loop in `invoke`: take a handle to the primary and release the mutex. -/
def call (c : Client N T) (t : T) : Client N T :=
  { c with thread := Function.update c.thread t (.invoking c.primary) }

/-- `init_members` up to its call, made of whatever node is the primary by now. -/
def ask (c : Client N T) (t : T) : Client N T :=
  { c with thread := Function.update c.thread t (.asking c.primary) }

/-- `init_members` after its call has succeeded. -/
def initMembers (c : Client N T) (newView : List N) : Client N T :=
  match newView.getLast? with
  | some m =>
      { c with
        primary := m
        knownMems := newView.dropLast
        view := newView
        failed := [] }
  | none => { c with process := .noMembers }

/-- `invoke` after its call of `dst` has come back. -/
def invokeRet (c : Client N T) (t : T) (dst : N) : Ret → Client N T
  | .ok => { c with thread := Function.update c.thread t .idle }
  | .busy => c.call t
  | .notprimary => c.ask t
  | .unbound => (c.primaryFailure dst).call t
  | .other => (c.primaryFailure dst).call t

/-- The rest of `init_members`, and of the pass of the loop in `invoke` that it is in. -/
def membersRet (c : Client N T) (t : T) (dst : N) : Option (List N) → Client N T
  | some newView => (c.initMembers newView).call t
  | none => (c.primaryFailure dst).call t

def step (c : Client N T) : ClientAction N T → Option (Client N T)
  | .invoke t =>
      if c.process = .running ∧ c.thread t = .idle then some (c.call t) else none
  | .invokeRet t r =>
      match c.thread t with
      | .invoking dst => if c.process = .running then some (c.invokeRet t dst r) else none
      | _ => none
  | .membersRet t newView =>
      match c.thread t with
      | .asking dst => if c.process = .running then some (c.membersRet t dst newView) else none
      | _ => none

/-- The client as its constructor leaves it, once the first `init_members` has answered
`clientMembers view primary`. -/
def opened (view : List N) (primary : N) : Client N T where
  primary := primary
  knownMems := view
  thread _ := .idle
  process := .running
  view := clientMembers view primary
  failed := []

def Init (c : Client N T) : Prop :=
  ∃ view primary, c = opened view primary

end

/-! ## What a step can do -/

section

variable [DecidableEq N] [DecidableEq T]

/-- The steps, by what they do to the list: leave it alone, take its last node after a failure,
or fill it. -/
inductive Move (c : Client N T) : ClientAction N T → Client N T → Prop
  | keep {a : ClientAction N T} (t : T) (th : Thread N) (hup : c.process = .running) :
      Move c a { c with thread := Function.update c.thread t th }
  | invokeFail {t : T} {dst : N} {r : Ret} (hth : c.thread t = .invoking dst)
      (hr : r = .unbound ∨ r = .other) :
      Move c (.invokeRet t r) ((c.primaryFailure dst).call t)
  | membersFail {t : T} {dst : N} (hth : c.thread t = .asking dst) :
      Move c (.membersRet t none) ((c.primaryFailure dst).call t)
  | fill {t : T} {newView : List N} (hup : c.process = .running) :
      Move c (.membersRet t (some newView)) ((c.initMembers newView).call t)

theorem step_move {c d : Client N T} {a : ClientAction N T} (h : step c a = some d) :
    Move c a d := by
  cases a with
  | invoke t =>
      rcases Option.ite_none_right_eq_some.1 h with ⟨⟨hup, _⟩, ⟨⟩⟩
      exact .keep t _ hup
  | invokeRet t r =>
      cases hth : c.thread t with
      | idle | asking dst => simp [step, hth] at h
      | invoking dst =>
          simp only [step, hth] at h
          rcases Option.ite_none_right_eq_some.1 h with ⟨hup, ⟨⟩⟩
          cases r with
          | ok | busy | notprimary => exact .keep t _ hup
          | unbound => exact .invokeFail hth (Or.inl rfl)
          | other => exact .invokeFail hth (Or.inr rfl)
  | membersRet t newView =>
      cases hth : c.thread t with
      | idle | invoking dst => simp [step, hth] at h
      | asking dst =>
          simp only [step, hth] at h
          rcases Option.ite_none_right_eq_some.1 h with ⟨hup, ⟨⟩⟩
          cases newView with
          | none => exact .membersFail hth
          | some newView => exact .fill hup

end

/-! ## The members that are left to try -/

/-- The members that are not on the list any more and not the primary have failed. -/
structure Tried (c : Client N T) : Prop where
  list : ∃ rest, c.view = c.knownMems ++ c.primary :: rest ∧ ∀ m ∈ rest, m ∈ c.failed
  all : c.process = .gaveUp → ∀ m ∈ c.view, m ∈ c.failed

/-- The primary fails and the last node of the list takes its place. -/
theorem Tried.primaryFailure {c : Client N T} (h : Tried c) :
    Tried (c.primaryFailure c.primary) := by
  rcases h.list with ⟨rest, hview, hrest⟩
  have hfailed : ∀ m ∈ c.primary :: rest, m ∈ c.primary :: c.failed := by
    intro m hm
    rcases List.mem_cons.1 hm with rfl | hm
    · exact List.mem_cons_self
    · exact List.mem_cons_of_mem _ (hrest m hm)
  unfold Client.primaryFailure
  cases hlast : c.knownMems.getLast? with
  | none =>
      -- nothing is left of the list, so the whole view has failed
      have hnil : c.knownMems = [] := List.getLast?_eq_none_iff.1 hlast
      refine ⟨⟨rest, hview, fun m hm => List.mem_cons_of_mem _ (hrest m hm)⟩, ?_⟩
      rintro - m hm
      rw [hview, hnil] at hm
      exact hfailed m hm
  | some m =>
      have hsplit : c.knownMems.dropLast ++ [m] = c.knownMems :=
        List.dropLast_append_getLast? m hlast
      refine ⟨⟨c.primary :: rest, ?_, hfailed⟩, ?_⟩
      · calc c.view = c.knownMems ++ c.primary :: rest := hview
          _ = (c.knownMems.dropLast ++ [m]) ++ c.primary :: rest := by rw [hsplit]
          _ = c.knownMems.dropLast ++ m :: c.primary :: rest := by simp
      · intro hup x hx
        exact List.mem_cons_of_mem _ (h.all hup x hx)

theorem Tried.initMembers {c : Client N T} (h : Tried c) (hup : c.process = .running)
    (newView : List N) : Tried (c.initMembers newView) := by
  unfold Client.initMembers
  cases hlast : newView.getLast? with
  | none => exact ⟨h.list, fun hgone => by cases hgone⟩
  | some m =>
      have hsplit : newView = newView.dropLast ++ [m] :=
        (List.dropLast_append_getLast? m hlast).symm
      refine ⟨⟨[], hsplit, fun x hx => absurd hx List.not_mem_nil⟩, ?_⟩
      intro hgone
      exact absurd (hup.symm.trans hgone) (by decide)

variable [DecidableEq T]

theorem Tried.call {c : Client N T} (h : Tried c) (t : T) : Tried (c.call t) :=
  ⟨h.list, h.all⟩

variable [DecidableEq N]

/-- Only failures of the node that is the primary at that time are acted on. -/
def Current (c : Client N T) : ClientAction N T → Prop
  | .invokeRet t r => r = .unbound ∨ r = .other → c.thread t = .invoking c.primary
  | .membersRet t none => c.thread t = .asking c.primary
  | .membersRet _ (some _) => True
  | .invoke _ => True

instance (c : Client N T) : (a : ClientAction N T) → Decidable (Current c a)
  | .invokeRet t r =>
      inferInstanceAs (Decidable (r = .unbound ∨ r = .other → c.thread t = .invoking c.primary))
  | .membersRet t none => inferInstanceAs (Decidable (c.thread t = .asking c.primary))
  | .membersRet _ (some _) => isTrue trivial
  | .invoke _ => isTrue trivial

theorem Tried.step {c d : Client N T} {a : ClientAction N T} (h : Tried c) (hok : Current c a)
    (hst : step c a = some d) : Tried d := by
  cases step_move hst with
  | keep t th hup => exact ⟨h.list, h.all⟩
  | @invokeFail t dst r hth hr =>
      have hdst : dst = c.primary := by
        have := hth.symm.trans (hok hr)
        simpa using this
      subst hdst
      exact h.primaryFailure.call t
  | @membersFail t dst hth =>
      have hdst : dst = c.primary := by
        have := hth.symm.trans hok
        simpa using this
      subst hdst
      exact h.primaryFailure.call t
  | fill hup => exact (h.initMembers hup _).call _

theorem tried_reach {c : Client N T} (h : Reach Init step Current c) : Tried c := by
  refine Reach.invariant (I := Tried) ?_ ?_ h
  · rintro c ⟨view, primary, rfl⟩
    exact ⟨⟨[], rfl, fun m hm => absurd hm List.not_mem_nil⟩, fun hgone => by cases hgone⟩
  · intro c a d hI hok hst
    exact hI.step hok hst

/-! ## Results -/

/-- When the client gives up, a call to every member of the view that `init_members` last filled
the list with has failed since then. -/
theorem gave_up_after_all {c : Client N T} (h : Reach Init step Current c)
    (hgone : c.process = .gaveUp) : ∀ m ∈ c.view, m ∈ c.failed :=
  (tried_reach h).all hgone

end Client

/-- One thread tries both members of a view in turn; the first of them is on the list twice,
since it is the primary. -/
def tryAll : List (ClientAction ℕ ℕ) :=
  [.invoke 0, .invokeRet 0 .other, .invokeRet 0 .unbound, .invokeRet 0 .other]

theorem gave_up_after_both :
    ∃ c : Client ℕ ℕ, Reach Client.Init Client.step Client.Current c ∧
      (c.process = .gaveUp ∧ c.view = clientMembers [1, 2] 1) ∧ ∀ m ∈ c.view, m ∈ c.failed := by
  have hrun : ∃ c : Client ℕ ℕ, Reach Client.Init Client.step Client.Current c ∧
      c.process = .gaveUp ∧ c.view = clientMembers [1, 2] 1 :=
    Reach.exists_of_runFrom tryAll ⟨[1, 2], 1, rfl⟩ (by decide +kernel)
  rcases hrun with ⟨c, hc, hgone, hview⟩
  exact ⟨c, hc, ⟨hgone, hview⟩, Client.gave_up_after_all hc hgone⟩

/-- Three threads wait for the primary of a view of two nodes when it fails.  The first one goes
on to the other member, the second one takes the last node off the list, and the third one finds
it empty while the only call to the other member is still under way. -/
def failTogether : List (ClientAction ℕ ℕ) :=
  [.invoke 0, .invoke 1, .invoke 2, .invokeRet 0 .other, .invokeRet 1 .other,
    .invokeRet 2 .other]

theorem gave_up_before_all :
    ∃ c : Client ℕ ℕ, Reach Client.Init Client.step anyStep c ∧ c.process = .gaveUp ∧
      c.view = clientMembers [1, 2] 1 ∧ 2 ∉ c.failed :=
  Reach.exists_of_runFrom failTogether ⟨[1, 2], 1, rfl⟩ (by decide +kernel)

end Rsm
end Yfs

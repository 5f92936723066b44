import Yfs.Rsm.Replica

/-!
# Primary — do the members of a view agree on its primary?

`set_primary` keeps the old primary of a node if it is still a member, and otherwise takes the
first member of the previous view that is left.  What it does thus depends on the primary that
the node had before.  Along the views one by one this defines a primary for every view,
`primaryOf`.  A node that jumps over views, or that has just been started, takes its own old
primary along, which for a started node is the `_first` of its command line.

`primary_agreed` says when that does no harm: a node that jumps knows the primary of the view
before.  Without that, two members of one view may follow different primaries
(`restarted_with_other_primary`).
-/

namespace Yfs
namespace Rsm

open Lib

variable {N R : Type} [DecidableEq N]

/-- The primary of a view, for a node that commits all views in turn. -/
def primaryOf (V : Views N) : ℕ → N
  | 0 => V.boot
  | vid + 1 => (setPrimary V (primaryOf V vid) (vid + 1)).getD (primaryOf V vid)

theorem primaryOf_of_setPrimary {V : Views N} {vid : ℕ} {p : N} (h0 : vid ≠ 0)
    (h : setPrimary V (primaryOf V (vid - 1)) vid = some p) : p = primaryOf V vid := by
  cases vid with
  | zero => exact absurd rfl h0
  | succ vid =>
      rw [Nat.add_sub_cancel] at h
      rw [primaryOf, h, Option.getD_some]

/-- Whatever primary a node had before, the one of view 1 is the bootstrap node. -/
theorem setPrimary_one {V : Views N} {q p : N} (h : setPrimary V q 1 = some p) : p = V.boot := by
  unfold setPrimary at h
  rw [V.one, V.zero] at h
  by_cases hq : q = V.boot
  · simpa [hq] using h.symm
  · simp [hq] at h

theorem primaryOf_one (V : Views N) : primaryOf V 1 = V.boot := by
  simp [primaryOf, setPrimary, V.one]

/-- The primary that `n` brings along is that of the view before `vid`: `n` commits the views
one by one, or else it knows that primary. -/
def Replica.Informed (V : Views N) (r : Replica N R) (vid : ℕ) : Prop :=
  r.vidCommit < vid →
    (r.vidCommit ≠ 0 ∧ vid = r.vidCommit + 1) ∨ r.primary = primaryOf V (vid - 1)

def Informed (V : Views N) (s : State N R) : Action N R → Prop
  | .commitChange n vid => (s.rep n).Informed V vid
  | .joinOk n vid => (s.rep n).Informed V vid
  | _ => True

/-- The nodes that have committed a view have its primary. -/
def Led (V : Views N) (rep : N → Replica N R) : Prop :=
  ∀ n, (rep n).vidCommit ≠ 0 → (rep n).primary = primaryOf V (rep n).vidCommit

theorem Led.update {V : Views N} {rep : N → Replica N R} (h : Led V rep) {n : N}
    {r : Replica N R} (hr : r.vidCommit ≠ 0 → r.primary = primaryOf V r.vidCommit) :
    Led V (Function.update rep n r) := by
  intro x
  by_cases hx : x = n
  · subst hx
    rw [Function.update_self]
    exact hr
  · rw [Function.update_of_ne hx]
    exact h x

theorem Led.commit {V : Views N} {s : State N R} (h : Led V s.rep) {n p : N} {vid : ℕ}
    (hlt : (s.rep n).vidCommit < vid) (hp : setPrimary V (s.rep n).primary vid = some p)
    (hok : (s.rep n).Informed V vid) : p = primaryOf V vid := by
  refine primaryOf_of_setPrimary (Nat.ne_of_gt (Nat.zero_lt_of_lt hlt)) ?_
  rcases hok hlt with ⟨h0, rfl⟩ | heq
  · rw [Nat.add_sub_cancel, ← h n h0]
    exact hp
  · rw [← heq]
    exact hp

theorem led_init {V : Views N} {s : State N R} (h : Init V s) : Led V s.rep := by
  rcases h with ⟨rep, rfl, hrep⟩
  intro n h0
  rcases hrep n with ⟨first, _, hr⟩
  change (rep n).vidCommit ≠ 0 at h0
  change (rep n).primary = primaryOf V (rep n).vidCommit
  rcases construct_cases hr with ⟨_, hfresh⟩ | ⟨p, _, hp, hcommit⟩
  · rw [hfresh] at h0
    exact absurd rfl h0
  · rw [hcommit]
    exact (setPrimary_one hp).trans (primaryOf_one V).symm

variable [DecidableEq R]

instance (V : Views N) (r : Replica N R) (vid : ℕ) : Decidable (r.Informed V vid) :=
  inferInstanceAs (Decidable (r.vidCommit < vid →
    (r.vidCommit ≠ 0 ∧ vid = r.vidCommit + 1) ∨ r.primary = primaryOf V (vid - 1)))

instance (V : Views N) (s : State N R) (a : Action N R) : Decidable (Informed V s a) :=
  match a with
  | .commitChange n vid => inferInstanceAs (Decidable ((s.rep n).Informed V vid))
  | .joinOk n vid => inferInstanceAs (Decidable ((s.rep n).Informed V vid))
  | .clientStart _ _ | .clientSend _ | .clientOk _ | .clientFail _ | .clientFinish _
  | .invoke _ | .invokeExec _ | .top _ | .joinFail _ | .barrier _ | .fill _ | .syncEnd _
  | .transferSend _ | .transferreq _ | .transferOk _ _ | .transferFail _ | .transferdone _
  | .doneOk _ | .doneFail _ | .exitSync _ | .wake _ | .restart _ _ => isTrue trivial

theorem Led.step {V : Views N} {s t : State N R} {a : Action N R} (h : Led V s.rep)
    (hok : Informed V s a) (hst : Rsm.step V s a = some t) : Led V t.rep := by
  -- a node that keeps its view keeps its primary
  have hkeep : ∀ {n : N} {r : Replica N R}, r.vidCommit = (s.rep n).vidCommit →
      r.primary = (s.rep n).primary → Led V (Function.update s.rep n r) := by
    intro n r hvid hprim
    refine h.update ?_
    rw [hvid, hprim]
    exact h n
  cases step_move hst with
  | commitChange hpc hlt hp | joinOk hpc hlt hp => exact h.update fun _ => h.commit hlt hp hok
  | restart hne => exact h.update fun h0 => absurd rfl h0
  | reboot hp =>
      refine h.update fun _ => ?_
      exact (setPrimary_one hp).trans (primaryOf_one V).symm
  | refuse _ | transferreq _ _ | stay => exact h
  | _ => refine hkeep ?_ ?_ <;> rfl

/-- Two members of a view that have both committed it have the same primary. -/
theorem primary_agreed {V : Views N} {s : State N R} (h : Reach (Init V) (step V) (Informed V) s)
    {v : ℕ} {n m : N} (hn : n ∈ V.view v) (hm : m ∈ V.view v) (hnv : (s.rep n).vidCommit = v)
    (hmv : (s.rep m).vidCommit = v) : (s.rep n).primary = (s.rep m).primary := by
  have hled : Led V s.rep :=
    Reach.invariant (I := fun s => Led V s.rep) (fun _ => led_init)
      (fun _ _ _ hs hok hst => hs.step hok hst) h
  have h0 : v ≠ 0 := by
    rintro rfl
    rw [V.zero] at hn
    cases hn
  calc (s.rep n).primary = primaryOf V v := hnv ▸ hled n (hnv ▸ h0)
    _ = (s.rep m).primary := (hmv ▸ hled m (hmv ▸ h0)).symm

/-- All three nodes commit view 3; nodes 2 and 3 learn of it when they join through node 1. -/
def joinThree : List (Action ℕ ℕ) :=
  [.commitChange 1 2, .commitChange 1 3, .top 2, .joinOk 2 3, .top 3, .joinOk 3 3]

theorem primary_agreed_joinThree :
    ∃ s : State ℕ ℕ, Reach (Init growing) (step growing) (Informed growing) s ∧
      ((s.rep 1).vidCommit = 3 ∧ (s.rep 3).vidCommit = 3) ∧
      (s.rep 1).primary = (s.rep 3).primary := by
  have hrun : ∃ s : State ℕ ℕ, Reach (Init growing) (step growing) (Informed growing) s ∧
      (s.rep 1).vidCommit = 3 ∧ (s.rep 3).vidCommit = 3 :=
    Reach.exists_of_runFrom joinThree init_boot (by decide +kernel)
  rcases hrun with ⟨s, hs, h1, h3⟩
  exact ⟨s, hs, ⟨h1, h3⟩, primary_agreed hs (v := 3) (by decide) (by decide) h1 h3⟩

/-- Node 3 restarts with node 2 as its `_first`.  It is still a member of view 3, so node 2
lets it join, and it commits view 3 with node 2 as its primary. -/
theorem restarted_with_other_primary :
    ∃ s : State ℕ ℕ, Reach (Init growing) (step growing) anyStep s ∧
      2 ∈ growing.view 3 ∧ 3 ∈ growing.view 3 ∧
      (s.rep 2).vidCommit = 3 ∧ (s.rep 3).vidCommit = 3 ∧
      (s.rep 2).primary = 1 ∧ (s.rep 3).primary = 2 :=
  Reach.exists_of_runFrom (joinThree ++ [.restart 3 2, .top 3, .joinOk 3 3]) init_boot
    (by decide +kernel)

end Rsm
end Yfs

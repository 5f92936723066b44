import Yfs.Paxos.Agreement

/-!
# Decide — the assertions in `decidereq`

A decide is sent to the nodes that voted for the run's proposal.  When it arrives, at any later
time, the receiver has to be past the instance, or at it with the decided value as its accepted
one; otherwise a `VERIFY` fails and the process is gone.

* `Addressed` — a decide goes only to nodes that voted;
* `decide_finds_value` — as long as every step respects the instance, no decide for it aborts its
  receiver: a node that voted stays at the instance with a pair whose number is at least the
  decided one, and such a pair carries the decided value;
* `decide_aborts_node_behind` — the handlers promise and accept for instances that they have not
  caught up to, and then the assertion fails.
-/

namespace Yfs
namespace Paxos

open Lib

/-! ## The receivers of a decide -/

/-- `x` is one of a majority that accepted the proposal of `v` in run `rid`. -/
def Elected (s : State) (rid : ℕ) (x : Str) (inst : UInt32) (v : Str) : Prop :=
  ∃ info q, s.runs[rid]? = some info ∧ info.inst = inst ∧ majority info.cur q = true ∧ x ∈ q ∧
    ∀ y ∈ q, Voted s rid y { inst := inst, n := info.n, v := v }

theorem Elected.mono {s t : State} (hg : Grows s t) {rid : ℕ} {x : Str} {inst : UInt32} {v : Str}
    (h : Elected s rid x inst v) : Elected t rid x inst v := by
  rcases h with ⟨info, q, hinfo, hinst, hmaj, hx, hq⟩
  exact ⟨info, q, hg.runs rid info hinfo, hinst, hmaj, hx, fun y hy => (hq y hy).mono hg⟩

/-- Every decide, sent or about to be sent, is for a node that voted for what is decided. -/
structure Addressed (s : State) : Prop where
  msg : ∀ rid x a, Msg.decidereq rid x a ∈ s.net → Elected s rid x a.inst a.v
  todo : ∀ p r v, (s.node p).run = some r → r.phase = .decide v → ∀ x ∈ r.todo,
    Elected s r.rid x r.inst v

/-- The step rule: one node `p` moves, and every new decide is for a node that voted. -/
theorem Addressed.step_of {s t : State} (hs : Addressed s) (hg : Grows s t) (p : Str)
    (hmsg : ∀ rid x a, Msg.decidereq rid x a ∈ t.net →
      Msg.decidereq rid x a ∈ s.net ∨ Elected s rid x a.inst a.v)
    (hother : ∀ q, q ≠ p → (t.node q).run = (s.node q).run)
    (hrun : ∀ r v, (t.node p).run = some r → r.phase = .decide v → ∀ x ∈ r.todo,
      Elected s r.rid x r.inst v) : Addressed t := by
  constructor
  · intro rid x a hm
    rcases hmsg rid x a hm with hold | hnew
    · exact (hs.msg rid x a hold).mono hg
    · exact hnew.mono hg
  · intro q r v hr hphase x hx
    by_cases hq : q = p
    · subst hq
      exact (hrun r v hr hphase x hx).mono hg
    · rw [hother q hq] at hr
      exact (hs.todo q r v hr hphase x hx).mono hg

/-- The step rule when nothing is sent. -/
theorem Addressed.setNode {s : State} (hs : Addressed s) (p : Str) (nd : Node)
    (hrun : ∀ r v, nd.run = some r → r.phase = .decide v → ∀ x ∈ r.todo,
      Elected s r.rid x r.inst v) : Addressed (s.setNode p nd) := by
  refine hs.step_of (grows_of_eq rfl rfl) p (fun _ _ _ hm => Or.inl hm) ?_ ?_
  · intro q hq
    rw [State.setNode_node_of_ne _ _ hq]
  · rw [State.setNode_node_self]
    exact hrun

theorem Addressed.keepRun {s : State} (hs : Addressed s) (p : Str) {nd : Node}
    (hrun : nd.run = (s.node p).run) : Addressed (s.setNode p nd) := by
  refine hs.setNode p nd ?_
  rw [hrun]
  exact hs.todo p

theorem Addressed.noRun {s : State} (hs : Addressed s) (p : Str) {nd : Node}
    (hrun : nd.run = none) : Addressed (s.setNode p nd) := by
  refine hs.setNode p nd ?_
  intro r v hr
  rw [hrun] at hr
  cases hr

/-- The step rule for a message that is no decide. -/
theorem Addressed.send {s : State} (hs : Addressed s) {m : Msg}
    (hm : ∀ rid x a, m ≠ .decidereq rid x a) : Addressed (s.send m) := by
  refine hs.step_of (grows_send rfl rfl) [] ?_ (fun _ _ => rfl) (fun r v hr => hs.todo [] r v hr)
  intro rid x a hmem
  rcases List.mem_cons.mp hmem with heq | hin
  · exact absurd heq.symm (hm rid x a)
  · exact Or.inl hin

/-- The loop of `decide` goes over the nodes that accepted. -/
theorem elected_of_endLoop {s : State} (hw : Wf s) {p : Str} {r r' : Run}
    (hrun : (s.node p).run = some r) (h : r.endLoop = some r') {v : Str}
    (hphase' : r'.phase = .decide v) : ∀ x ∈ r'.todo, Elected s r'.rid x r'.inst v := by
  have hok := hw.run p r hrun
  have hph := hok.phase
  cases hphase : r.phase with
  | prepare accepts maxN maxV =>
      simp only [Run.endLoop, hphase] at h
      split at h
      · cases h
        cases hphase'
      · cases h
  | accept accepts w =>
      simp only [PhaseOk, hphase] at hph
      simp only [Run.endLoop, hphase] at h
      split at h
      case isTrue hmaj =>
        cases h
        cases hphase'
        intro x hx
        exact ⟨_, accepts, hok.info, rfl, hmaj, hx, hph.2.2⟩
      case isFalse => cases h
  | decide w => simp [Run.endLoop, hphase] at h

theorem Run.prepareReply_phase_ne (r : Run) (x : Str) (accepts : List Str) (maxN : PropT)
    (maxV : Str) (res : PrepareRes) (rest : List Str) (v : Str) :
    (r.prepareReply x accepts maxN maxV res rest).phase ≠ .decide v := by
  unfold Run.prepareReply
  dsimp only
  repeat' split
  all_goals simp

theorem Addressed.step {s t : State} {a : Action} (hs : Addressed s) (hw : Wf s)
    (h : step s a = some t) : Addressed t := by
  cases step_move h with
  | @run p inst cur newv hp hup hrun =>
      refine hs.step_of (grows_addRun rfl rfl) p (fun _ _ _ hm => Or.inl hm) ?_ ?_
      · intro q hq
        simp [hq]
      · intro r v hr hphase
        simp only [Function.update_self, Option.some.injEq] at hr
        subst hr
        cases hphase
  | @call p x r rest hrun htodo =>
      refine hs.step_of (grows_send rfl rfl) p ?_ ?_ ?_
      · intro rid y a hm
        rcases List.mem_cons.mp hm with heq | hin
        · -- the next node of the loop in `decide`
          right
          cases hphase : r.phase with
          | prepare accepts maxN maxV | accept accepts v => simp [Run.request, hphase] at heq
          | decide v =>
              simp only [Run.request, hphase, Msg.decidereq.injEq] at heq
              rcases heq with ⟨rfl, rfl, rfl⟩
              exact hs.todo p r v hrun hphase y (by simp [htodo])
        · exact Or.inl hin
      · intro q hq
        rw [State.send_node, State.setNode_node_of_ne _ _ hq]
      · intro r' v hr' hphase y hy
        simp only [State.send_node, State.setNode_node_self, Option.some.injEq] at hr'
        subst hr'
        exact hs.todo p r v hrun hphase y hy
  | @skip p x r rest hrun htodo =>
      refine hs.setNode p _ ?_
      intro r' v hr' hphase y hy
      cases hr'
      exact hs.todo p r v hrun hphase y (by simp [htodo, show y ∈ rest from hy])
  | @replyOld p x r rest accepts maxN maxV a res hrun htodo hphase hm hold =>
      exact hs.noRun p rfl
  | @replyPrepare p x r rest accepts maxN maxV a res hrun htodo hphase hm hold =>
      refine hs.setNode p _ ?_
      intro r' v hr' hphase'
      cases hr'
      exact absurd hphase' (r.prepareReply_phase_ne _ _ _ _ _ _ v)
  | @replyAccept p x r rest accepts v a ret ok hrun htodo hphase hm =>
      refine hs.setNode p _ ?_
      intro r' v hr' hphase'
      cases hr'
      cases hphase'
  | @endLoop p r hrun htodo =>
      refine hs.setNode p _ ?_
      intro r' v hr' hphase'
      exact elected_of_endLoop hw hrun hr' hphase'
  | @prepare rid x a hm =>
      refine (hs.keepRun x ?_).send ?_
      · rfl
      · simp
  | @accept rid x a hm =>
      refine (hs.keepRun x ?_).send ?_
      · rfl
      · simp
  | decide _ _ => exact hs.keepRun _ rfl
  | abort _ | restart _ => exact hs.noRun _ rfl
  | dump => exact hs.send (by simp)
  | restore _ _ => exact hs.keepRun _ rfl

theorem Start.addressed {i : UInt32} {s : State} (h : Start i s) : Addressed s := by
  refine ⟨by simp [h.net], ?_⟩
  intro p r v hr
  rw [(h.node p).run] at hr
  cases hr

theorem addressed_reach {i : UInt32} {s : State} (h : Reach (Start i) step (InStep i) s) :
    Addressed s := by
  refine Reach.invariant_with (I := Addressed) reach_invariant (fun s hs => hs.addressed) ?_ h
  intro s a t hJ _ hI _ hst
  exact hI.step hJ.1 hst

/-! ## What a decide finds -/

/-- The accepted pair of a node that voted for a chosen proposal carries the chosen value: its
number has not gone down since the vote. -/
theorem Slot.pair_of_elected {i : UInt32} {s : State} (hs : Slot i s) (hw : Wf s) {l : List Str}
    (hl : ∀ info ∈ s.runs, info.inst = i → info.cur = l) {rid : ℕ} {x v : Str}
    (h : Elected s rid x i v) (hnext : (s.node x).acc.instanceH.toNat + 1 = i.toNat) :
    (s.node x).acc.vA = v := by
  rcases h with ⟨info, q, hinfo, hinst, hmaj, hx, hq⟩
  rw [hl info (List.mem_of_getElem? hinfo) hinst] at hmaj
  have hnum : (history s i).number rid = info.n := number_of_info hinfo
  have hchosen : (history s i).Chosen (quorum l) rid v :=
    ⟨⟨x, info.n, hw.msg _ (hq x hx)⟩, {y | y ∈ q}, ⟨q, hmaj, fun y hy => hy⟩,
      fun y hy => ⟨info.n, v, hq y hy⟩⟩
  rcases (hs.bounded x hnext).2 rid info.n v (hq x hx) with ⟨hA, hle⟩
  rcases (hs.held x).pair hnext with ⟨h0, _⟩ | ⟨_, _, _, rid', y, hprop⟩
  · exact absurd h0 hA
  · have hproposal : (history s i).proposal rid' (s.node x).acc.vA := ⟨y, _, hprop⟩
    refine (hs.sound hw hl).proposal_eq_of_chosen hchosen hproposal ?_
    calc (history s i).number rid = info.n := hnum
      _ ≤ (s.node x).acc.nA := hle
      _ = (history s i).number rid' := (number_of_acceptreq hw hprop).symm

theorem eq_succ_of_toNat {k i : UInt32} (h : k.toNat + 1 = i.toNat) : i = k + 1 := by
  refine UInt32.toNat_inj.mp ?_
  have hlt := i.toNat_lt
  have hone : UInt32.toNat 1 = 1 := rfl
  rw [UInt32.toNat_add]
  omega

/-- The instance that a cluster starts before is not 0. -/
theorem ne_zero_of_reach {i : UInt32} {s : State} (h : Reach (Start i) step (InStep i) s) :
    i ≠ 0 := by
  refine Reach.invariant (I := fun _ => i ≠ 0) ?_ (fun _ _ _ hI _ _ => hI) h
  rintro s hs rfl
  exact absurd (hs.node []).below (UInt32.not_lt.mpr UInt32.zero_le)

/-- A decide for an instance that is committed does nothing, but for the one instance number
that `instance_h + 1` wraps around to. -/
theorem decidereq_of_le {s : Acceptor} {a : DecideArg} (hle : a.inst ≤ s.instanceH)
    (hne : a.inst ≠ 0) : decidereq s a = some (s, none) := by
  have hnext : a.inst ≠ s.instanceH + 1 := by
    intro heq
    have hle' := UInt32.le_iff_toNat_le.mp hle
    have hone : UInt32.toNat 1 = 1 := rfl
    have hlt := s.instanceH.toNat_lt
    have hne' : a.inst.toNat ≠ 0 := fun h => hne (UInt32.toNat_inj.mp h)
    rw [heq, UInt32.toNat_add] at hle' hne'
    omega
  simp [decidereq, hnext, hle]

/-- In every run whose steps all respect instance `i`, a decide for `i` finds its receiver past
`i`, or at `i` with the decided value accepted. -/
theorem decide_finds_value {i : UInt32} {s : State} (h : Reach (Start i) step (InStep i) s)
    (l : List Str) (hl : ∀ info ∈ s.runs, info.inst = i → info.cur = l) {rid : ℕ} {x : Str}
    {a : DecideArg} (hm : Msg.decidereq rid x a ∈ s.net) (hi : a.inst = i) :
    (a.inst ≤ (s.node x).acc.instanceH ∨
      (a.inst = (s.node x).acc.instanceH + 1 ∧ (s.node x).acc.vA = a.v)) ∧
      ∃ r, decidereq (s.node x).acc a = some r := by
  rcases reach_invariant h with ⟨hw, _, hs⟩
  have hel : Elected s rid x i a.v := hi ▸ (addressed_reach h).msg rid x a hm
  have hcases : a.inst ≤ (s.node x).acc.instanceH ∨
      (a.inst = (s.node x).acc.instanceH + 1 ∧ (s.node x).acc.vA = a.v) := by
    rcases Nat.lt_trichotomy ((s.node x).acc.instanceH.toNat + 1) i.toNat with hlt | heq | hgt
    · -- a node behind `i` has not voted for it
      rcases hel with ⟨info, q, _, _, _, hx, hq⟩
      exact absurd (hq x hx) ((hs.behind x hlt).2 rid info.n a.v)
    · refine Or.inr ⟨?_, hs.pair_of_elected hw hl hel heq⟩
      rw [hi]
      exact eq_succ_of_toNat heq
    · refine Or.inl ?_
      rw [hi, UInt32.le_iff_toNat_le]
      exact Nat.lt_succ_iff.mp hgt
  refine ⟨hcases, ?_⟩
  rcases hcases with hle | ⟨hnext, hv⟩
  · exact ⟨_, decidereq_of_le hle (hi ▸ ne_zero_of_reach h)⟩
  · exact ⟨commitWo (s.node x).acc a.inst (s.node x).acc.vA, by simp [decidereq, hnext, hv]⟩

/-! ## Schedules -/

/-- Node `c` runs `inst` with the votes of `b` and `c`, up to the loop of `decide`; `nA` and `vA`
are what the two report. -/
def electC (rid : ℕ) (inst n : UInt32) (repB repC : PropT × Str) (v : Str) : List Action :=
  let num : PropT := { n := n, m := ['c'] }
  let prepare (x : Str) (rep : PropT × Str) : List Action :=
    roundTrip ['c'] (.preparereq rid x { inst := inst, n := num })
      (.prepareres rid x { inst := inst, n := num }
        { oldinstance := false, accept := true, nA := rep.1, vA := rep.2 })
  [.run ['c'] inst [['a'], ['b'], ['c']] ['v'], .skip ['c']] ++ prepare ['b'] repB ++
    prepare ['c'] repC ++ [.endLoop ['c']] ++
    acceptAt ['c'] rid ['b'] { inst := inst, n := num, v := v } ++
    acceptAt ['c'] rid ['c'] { inst := inst, n := num, v := v } ++ [.endLoop ['c']]

/-- Nothing accepted. -/
def noReport (x : Str) : PropT × Str := ({ n := 0, m := x }, [])

theorem decide_finds_value_at_voter :
    ∃ s, Reach (Start 2) step (InStep 2) s ∧
      ((∀ info ∈ s.runs, info.inst = 2 → info.cur = [['a'], ['b'], ['c']]) ∧
        Msg.decidereq 0 ['b'] { inst := 2, v := ['v'] } ∈ s.net ∧
        (s.node ['b']).acc.instanceH = 1) ∧
      (s.node ['b']).acc.vA = ['v'] := by
  have hrun : ∃ s, Reach (Start 2) step (InStep 2) s ∧
      (∀ info ∈ s.runs, info.inst = 2 → info.cur = [['a'], ['b'], ['c']]) ∧
        Msg.decidereq 0 ['b'] { inst := 2, v := ['v'] } ∈ s.net ∧
        (s.node ['b']).acc.instanceH = 1 :=
    Reach.exists_of_runFrom
      (electC 0 2 1 (noReport ['b']) (noReport ['c']) ['v'] ++ [.call ['c']])
      (start_settled 1 ['w'] (by decide) (by decide) (by decide))
      (by decide +kernel)
  rcases hrun with ⟨s, hs, hcur, hm, hb⟩
  refine ⟨s, hs, ⟨hcur, hm, hb⟩, ?_⟩
  rcases (decide_finds_value hs _ hcur hm rfl).1 with hle | ⟨_, hv⟩
  · rw [hb] at hle
    exact absurd hle (by decide)
  · exact hv

/-- The decide for instance 2 is lost on its way to `b`.  In instance 3, `b` promises and accepts
all the same, is sent the decide, and fails the assertion that it is not behind. -/
theorem decide_aborts_node_behind :
    ∃ s, Reach (Start 3) step anyStep s ∧
      (∀ info ∈ s.runs, info.cur = [['a'], ['b'], ['c']]) ∧
      Msg.decidereq 1 ['b'] { inst := 3, v := ['v'] } ∈ s.net ∧ (s.node ['b']).up = true ∧
      (s.node ['b']).acc.instanceH = 1 ∧
      decidereq (s.node ['b']).acc { inst := 3, v := ['v'] } = none :=
  Reach.exists_of_runFrom
    (electC 0 2 1 (noReport ['b']) (noReport ['c']) ['v'] ++ [.call ['c'], .skip ['c']] ++
      decideAt ['c'] 0 ['c'] { inst := 2, v := ['v'] } ++ [.endLoop ['c']] ++
      electC 1 3 2 ({ n := 1, m := ['c'] }, ['v']) (noReport ['c']) ['v'] ++ [.call ['c']])
    (start_settled 1 ['w'] (by decide) (by decide) (by decide))
    (by decide +kernel)

end Paxos
end Yfs

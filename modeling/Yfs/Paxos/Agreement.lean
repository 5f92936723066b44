import Yfs.Lib.Ballot
import Yfs.Paxos.Slot

/-!
# Agreement — the values that the cluster commits for one instance

The messages about instance `i` form a ballot history (`Yfs.Lib.History`), and the invariants of
`Messages` and `Slot` are its local conditions.  What follows for the cluster:

* every proposal at or above a number that a majority accepted carries the accepted value;
* any two acceptors that are past `i` hold one value for `i`, as long as every step respects the
  instance (`InStep i`);
* the handlers do not see to that themselves: an accept that arrives after its receiver has
  committed `i` counts towards a majority once more.
-/

namespace Yfs
namespace Paxos

open Lib

/-! ## The ballot history of an instance -/

/-- The messages about `i` as a ballot history; rounds are runs. -/
def history (s : State) (i : UInt32) : History Str ℕ PropT Str where
  number rid := ((s.runs[rid]?).map RunInfo.n).getD zeroProp
  promise x rid rep := ∃ n nA vA, Promise s rid x { inst := i, n := n } nA vA ∧
    rep = if nA.n = 0 then none else some (nA, vA)
  proposal rid v := ∃ x n, Msg.acceptreq rid x { inst := i, n := n, v := v } ∈ s.net
  vote x rid := ∃ n v, Voted s rid x { inst := i, n := n, v := v }

/-- A set of nodes that passes `proposer::majority` for the member list `l`. -/
def quorum (l : List Str) (q : Set Str) : Prop :=
  ∃ accepts, majority l accepts = true ∧ ∀ x ∈ accepts, x ∈ q

theorem number_of_info {s : State} {i : UInt32} {rid : ℕ} {info : RunInfo}
    (h : s.runs[rid]? = some info) : (history s i).number rid = info.n := by
  simp [history, h]

theorem number_of_promise {s : State} (hw : Wf s) {i : UInt32} {rid : ℕ} {x : Str} {n nA : PropT}
    {vA : Str} (h : Promise s rid x { inst := i, n := n } nA vA) :
    (history s i).number rid = n := by
  rcases hw.msg _ (hw.msg _ h) with ⟨info, hinfo, ha⟩
  rw [number_of_info hinfo]
  exact (congrArg PrepareArg.n ha).symm

/-- The run behind an accept request. -/
theorem info_of_acceptreq {s : State} (hw : Wf s) {i : UInt32} {rid : ℕ} {x : Str} {n : PropT}
    {v : Str} (h : Msg.acceptreq rid x { inst := i, n := n, v := v } ∈ s.net) :
    ∃ info, s.runs[rid]? = some info ∧ info.inst = i ∧ info.n = n ∧ Backed s rid info v := by
  rcases hw.msg _ h with ⟨info, hinfo, hinst, hn, hb, _⟩
  exact ⟨info, hinfo, hinst.symm, hn.symm, hb⟩

theorem number_of_acceptreq {s : State} (hw : Wf s) {i : UInt32} {rid : ℕ} {x : Str} {n : PropT}
    {v : Str} (h : Msg.acceptreq rid x { inst := i, n := n, v := v } ∈ s.net) :
    (history s i).number rid = n := by
  rcases info_of_acceptreq hw h with ⟨info, hinfo, _, hn, _⟩
  rw [number_of_info hinfo, hn]

theorem number_of_voted {s : State} (hw : Wf s) {i : UInt32} {rid : ℕ} {x : Str} {n : PropT}
    {v : Str} (h : Voted s rid x { inst := i, n := n, v := v }) :
    (history s i).number rid = n :=
  number_of_acceptreq hw (hw.msg _ h)

/-- No proposal for `i` is the empty value, which a report could not be told from. -/
theorem Slot.proposal_ne_nil {i : UInt32} {s : State} (hs : Slot i s) (hw : Wf s) {n : PropT}
    {v : Str} (h : Proposed s i n v) : v ≠ [] := by
  rcases h with ⟨rid, x, hm⟩
  rcases info_of_acceptreq hw hm with ⟨info, hinfo, hinst, _, accepts, maxN, maxV, _, _, hv⟩
  rw [hv]
  split
  · exact (hs.started rid info hinfo hinst).2
  · assumption

/-- The value of an accept request rests on its promises, in the sense of the ballot history. -/
theorem Slot.proposal_backed {i : UInt32} {s : State} (hs : Slot i s) (hw : Wf s) {l : List Str}
    (hl : ∀ info ∈ s.runs, info.inst = i → info.cur = l) {rid : ℕ} {v : Str}
    (h : (history s i).proposal rid v) : (history s i).Backed (quorum l) rid v := by
  rcases h with ⟨x, n, hm⟩
  rcases info_of_acceptreq hw hm with ⟨info, hinfo, rfl, rfl, accepts, maxN, maxV, hmaj, hcol, hv⟩
  rw [hl info (List.mem_of_getElem? hinfo) rfl] at hmaj
  rcases hcol with ⟨hall, hmax⟩
  refine ⟨{y | y ∈ accepts}, ⟨accepts, hmaj, fun y hy => hy⟩, ?_, ?_⟩
  · intro y hy
    rcases hall y hy with ⟨nA, vA, hp, _⟩
    exact ⟨_, info.n, nA, vA, hp, rfl⟩
  · by_cases hzero : maxN.n = 0
    · -- every report is at most `maxN`, so none of them names a vote
      left
      intro y hy
      rcases hall y hy with ⟨nA, vA, hp, hle⟩
      have hnA : nA.n = 0 := by
        by_contra hne
        exact absurd (PropT.lt_of_n hzero hne) (not_lt.mpr hle)
      exact ⟨info.n, nA, vA, hp, by simp [hnA]⟩
    · right
      rcases hmax with ⟨rfl, _⟩ | ⟨y, hy, hp⟩
      · exact absurd rfl hzero
      · have hprop : Proposed s info.inst maxN maxV := by
          rcases hs.report rid y info.n maxN maxV hp with ⟨h0, _⟩ | ⟨_, _, hprop⟩
          · exact absurd h0 hzero
          · exact hprop
        have hne : maxV ≠ [] := hs.proposal_ne_nil hw hprop
        rw [if_neg hne] at hv
        refine ⟨maxN, ⟨y, hy, info.n, maxN, maxV, hp, by simp [hzero, hv]⟩, ?_⟩
        intro z hz b' v' hz'
        rcases hz' with ⟨n', nA', vA', hp', hrep⟩
        rcases hall z hz with ⟨nA, vA, hpz, hle⟩
        have hn' : n' = info.n := (number_of_promise hw hp').symm.trans (number_of_info hinfo)
        rw [hn'] at hp'
        rcases hs.promise_inj _ _ _ _ _ _ _ _ hp' hpz with ⟨_, rfl, rfl⟩
        by_cases hnA : nA'.n = 0
        · simp [hnA] at hrep
        · have : b' = nA' := by
            simp only [hnA, if_false, Option.some.injEq, Prod.mk.injEq] at hrep
            exact hrep.1
          rw [this]
          exact hle

/-- The invariants are the local conditions of the ballot history. -/
theorem Slot.sound {i : UInt32} {s : State} (hs : Slot i s) (hw : Wf s) {l : List Str}
    (hl : ∀ info ∈ s.runs, info.inst = i → info.cur = l) :
    (history s i).Sound (quorum l) (Finset.range s.runs.length) where
  quorum_inter := by
    rintro p q ⟨a, ha, hap⟩ ⟨b, hb, hbq⟩
    rcases majority_inter ha hb with ⟨x, hxa, hxb⟩
    exact ⟨x, hap x hxa, hbq x hxb⟩
  proposal_mem := by
    rintro rid v ⟨x, n, hm⟩
    rcases info_of_acceptreq hw hm with ⟨info, hinfo, _⟩
    exact Finset.mem_range.mpr (List.getElem?_eq_some_iff.mp hinfo).1
  proposal_inj := by
    rintro rid v v' ⟨x, n, hm⟩ ⟨x', n', hm'⟩
    exact hw.value_inj rid x x' _ _ hm hm'
  proposal_backed := fun rid v h => hs.proposal_backed hw hl h
  promise_inj := by
    rintro x rid rid' rep rep' ⟨n, nA, vA, hp, rfl⟩ ⟨n', nA', vA', hp', rfl⟩ hnum
    rw [number_of_promise hw hp, number_of_promise hw hp'] at hnum
    subst hnum
    rcases hs.promise_inj _ _ _ _ _ _ _ _ hp hp' with ⟨rfl, rfl, rfl⟩
    exact ⟨rfl, rfl⟩
  promise_none := by
    rintro x rid rid' ⟨n, nA, vA, hp, hrep⟩ ⟨n', v, hv⟩
    rw [number_of_promise hw hp, number_of_voted hw hv]
    by_contra hlt
    have hnA := (hs.promise_vote _ _ _ _ _ _ _ _ hp hv (not_le.mp hlt)).1
    simp [hnA] at hrep
  promise_some := by
    rintro x rid b w ⟨n, nA, vA, hp, hrep⟩
    have hnum := number_of_promise hw hp
    by_cases hnA : nA.n = 0
    · simp [hnA] at hrep
    · simp only [hnA, if_false, Option.some.injEq, Prod.mk.injEq] at hrep
      rcases hrep with ⟨rfl, rfl⟩
      rcases hs.report _ _ _ _ _ hp with ⟨h0, _⟩ | ⟨_, hlt, rid', y, hm⟩
      · exact absurd h0 hnA
      · refine ⟨hnum ▸ hlt, ⟨rid', number_of_acceptreq hw hm, y, b, hm⟩, ?_⟩
        rintro rid'' ⟨n'', v'', hv⟩ hlt'
        rw [number_of_voted hw hv] at hlt' ⊢
        exact (hs.promise_vote _ _ _ _ _ _ _ _ hp hv (hnum ▸ hlt')).2

/-- A chosen value is chosen in the ballot history. -/
theorem Slot.chosen {i : UInt32} {s : State} (hw : Wf s) {l : List Str}
    (hl : ∀ info ∈ s.runs, info.inst = i → info.cur = l) {v : Str} (h : Chosen s i v) :
    ∃ rid, (history s i).Chosen (quorum l) rid v := by
  rcases h with ⟨rid, info, q, hinfo, hinst, hmaj, hq⟩
  rw [hl info (List.mem_of_getElem? hinfo) hinst] at hmaj
  have hne : q ≠ [] := by
    rintro rfl
    simp [majority_of_nil] at hmaj
  rcases List.exists_mem_of_ne_nil q hne with ⟨x, hx⟩
  refine ⟨rid, ⟨x, info.n, hw.msg _ (hq x hx)⟩, {y | y ∈ q}, ⟨q, hmaj, fun y hy => hy⟩, ?_⟩
  intro y hy
  exact ⟨info.n, v, hq y hy⟩

/-! ## Agreement -/

/-- A cluster that has not reached instance `i` and in which nothing is under way. -/
structure StartNode (i : UInt32) (x : Str) (nd : Node) : Prop where
  durable : Durable nd.acc
  me : nd.acc.me = x
  first : nd.first = true → nd.acc.instanceH ≠ 0
  below : nd.acc.instanceH < i
  nA : nd.acc.nA.n = 0
  vA : nd.acc.vA = []
  myN : nd.myN = { n := 0, m := x }
  run : nd.run = none

structure Start (i : UInt32) (s : State) : Prop where
  node : ∀ x, StartNode i x (s.node x)
  net : s.net = []
  runs : s.runs = []

/-- The steps that keep instance `i` apart from the others and logs readable. -/
def InStep (i : UInt32) (s : State) (a : Action) : Prop :=
  LogSafe s a ∧ SlotSafe i s a

theorem Start.wf {i : UInt32} {s : State} (h : Start i s) : Wf s := by
  refine ⟨?_, ?_, ?_⟩
  · simp [h.net]
  · simp [h.net]
  · intro p r hr
    rw [(h.node p).run] at hr
    cases hr

theorem Start.clean {i : UInt32} {s : State} (h : Start i s) : Clean s := by
  refine ⟨?_, by simp [h.net]⟩
  intro x
  have hx := h.node x
  refine ⟨hx.durable, hx.me, by rw [hx.myN], hx.first, ?_⟩
  intro r hr
  rw [hx.run] at hr
  cases hr

theorem Start.slot {i : UInt32} {s : State} (h : Start i s) : Slot i s := by
  have hp : ∀ rid x a nA vA, ¬ Promise s rid x a nA vA := by
    intro rid x a nA vA
    simp [Promise, h.net]
  have hv : ∀ rid x a, ¬ Voted s rid x a := by
    intro rid x a
    simp [Voted, h.net]
  refine ⟨?_, ?_, ?_, by simp [h.net], ?_, ?_, ?_, ?_, by simp [h.runs], by simp [h.net]⟩
  · intro x
    have hx := h.node x
    refine ⟨fun _ => Or.inl ⟨hx.nA, hx.vA⟩, ?_⟩
    intro hi
    exact absurd (UInt32.lt_iff_toNat_lt.mp hx.below) (not_lt.mpr hi)
  · intro x _
    exact ⟨fun _ _ _ _ => hp _ _ _ _ _, fun _ _ _ => hv _ _ _⟩
  · intro x _
    exact ⟨fun _ _ _ _ h' => absurd h' (hp _ _ _ _ _), fun _ _ _ h' => absurd h' (hv _ _ _)⟩
  · intro rid x n nA vA h'
    exact absurd h' (hp _ _ _ _ _)
  · intro rid rid' x n nA vA nA' vA' h'
    exact absurd h' (hp _ _ _ _ _)
  · intro rid rid' x n nA vA n' v h'
    exact absurd h' (hp _ _ _ _ _)
  · intro p r hr
    rw [(h.node p).run] at hr
    cases hr

theorem reach_invariant {i : UInt32} {s : State} (h : Reach (Start i) step (InStep i) s) :
    Wf s ∧ Clean s ∧ Slot i s := by
  refine Reach.invariant (I := fun s => Wf s ∧ Clean s ∧ Slot i s) ?_ ?_ h
  · intro s hs
    exact ⟨hs.wf, hs.clean, hs.slot⟩
  · rintro s a t ⟨hw, hc, hs⟩ ⟨hlog, hsafe⟩ hstep
    exact ⟨hw.step hstep, hc.step hlog hstep, hs.step hw hc hlog hsafe hstep⟩

theorem values_eq_of_slot {i : UInt32} {s : State} (hs : Slot i s) (hw : Wf s) {l : List Str}
    (hl : ∀ info ∈ s.runs, info.inst = i → info.cur = l) {v v' : Str} (hv : Chosen s i v)
    (hv' : Chosen s i v') : v = v' := by
  rcases Slot.chosen hw hl hv with ⟨rid, hc⟩
  rcases Slot.chosen hw hl hv' with ⟨rid', hc'⟩
  exact (hs.sound hw hl).chosen_unique hc hc'

/-- Agreement.  In every run whose steps all respect instance `i`, two acceptors that have
committed `i` hold one value for it. -/
theorem agreement {i : UInt32} {s : State} (h : Reach (Start i) step (InStep i) s)
    (l : List Str) (hl : ∀ info ∈ s.runs, info.inst = i → info.cur = l) (x y : Str)
    (hx : i ≤ (s.node x).acc.instanceH) (hy : i ≤ (s.node y).acc.instanceH) :
    (s.node x).acc.values i = (s.node y).acc.values i := by
  rcases reach_invariant h with ⟨hw, _, hs⟩
  exact values_eq_of_slot hs hw hl ((hs.held x).past (UInt32.le_iff_toNat_le.mp hx))
    ((hs.held y).past (UInt32.le_iff_toNat_le.mp hy))

/-! ## Schedules -/

instance decidableLogSafe (s : State) (a : Action) : Decidable (LogSafe s a) :=
  match a with
  | .run _ _ _ newv => inferInstanceAs (Decidable ('\n' ∉ newv))
  | .restore x _ _ => inferInstanceAs (Decidable ((s.node x).acc.file = []))
  | .call _ | .skip _ | .reply _ _ | .endLoop _ | .handle _ | .restart _ _ | .dump _ =>
      isTrue trivial

instance decidableSlotSafe (i : UInt32) (s : State) (a : Action) : Decidable (SlotSafe i s a) :=
  match a with
  | .run p inst _ newv =>
      inferInstanceAs (Decidable (inst.toNat ≤ (s.node p).acc.instanceH.toNat + 1 ∧
        (inst = i → newv ≠ [] ∧ (setn (s.node p).acc.nH (s.node p).myN).n ≠ 0)))
  | .handle (.preparereq _ x a) =>
      inferInstanceAs (Decidable (a.inst = i → i.toNat ≤ (s.node x).acc.instanceH.toNat + 1))
  | .handle (.acceptreq _ x a) =>
      inferInstanceAs (Decidable (a.inst = i ↔ (s.node x).acc.instanceH.toNat + 1 = i.toNat))
  | .handle (.prepareres _ _ _ _) | .handle (.acceptres _ _ _ _ _) | .handle (.decidereq _ _ _)
  | .handle (.logdump _) => isTrue trivial
  | .call _ | .skip _ | .reply _ _ | .endLoop _ | .restart _ _ | .dump _ | .restore _ _ _ =>
      isTrue trivial

instance (i : UInt32) (s : State) (a : Action) : Decidable (InStep i s a) :=
  inferInstanceAs (Decidable (LogSafe s a ∧ SlotSafe i s a))

/-- Every node has committed `inst` with `value`, and nothing is under way. -/
def settled (inst : UInt32) (value : Str) : State where
  node x :=
    { acc := (commitWo (fresh x []) inst value).1
      myN := { n := 0, m := x }
      run := none
      up := true
      first := false
      value := x
      upcalls := [] }
  net := []
  runs := []

theorem start_settled (inst : UInt32) (value : Str) {i : UInt32} (hpos : 0 < inst) (hlt : inst < i)
    (hv : '\n' ∉ value) : Start i (settled inst value) := by
  refine ⟨?_, rfl, rfl⟩
  intro x
  have hcommit := commitWo_of_lt (show (fresh x []).instanceH < inst from hpos) value
  refine ⟨durable_commitWo (durable_fresh x) inst hv, ?_, ?_, ?_, ?_, ?_, rfl, rfl⟩
  · simp only [settled, hcommit]
    rfl
  · simp [settled]
  · simpa [settled, hcommit] using hlt
  · simp [settled, hcommit]
  · simp [settled, hcommit]

section Schedule

/-- The calls of one loop pass: the request goes out, is handled, and its reply is taken. -/
def roundTrip (p : Str) (req res : Msg) : List Action :=
  [.call p, .handle req, .reply p res]

/-- A prepare of run `rid` that `x` answers with the empty report. -/
def prepareAt (p : Str) (rid : ℕ) (x : Str) (a : PrepareArg) (nA : PropT) : List Action :=
  roundTrip p (.preparereq rid x a)
    (.prepareres rid x a { oldinstance := false, accept := true, nA := nA, vA := [] })

def acceptAt (p : Str) (rid : ℕ) (x : Str) (a : AcceptArg) : List Action :=
  roundTrip p (.acceptreq rid x a) (.acceptres rid x a .OK true)

def decideAt (p : Str) (rid : ℕ) (x : Str) (a : DecideArg) : List Action :=
  [.call p, .handle (.decidereq rid x a), .skip p]

/-- Node `a` gathers the promises of `a` and `b` for instance 2 under the number `(1, a)`. -/
def prepareA : List Action :=
  [.run ['a'] 2 [['a'], ['b'], ['c']] ['u']] ++
    prepareAt ['a'] 0 ['a'] { inst := 2, n := { n := 1, m := ['a'] } } { n := 0, m := ['a'] } ++
    prepareAt ['a'] 0 ['b'] { inst := 2, n := { n := 1, m := ['a'] } } { n := 0, m := ['b'] } ++
    [.skip ['a'], .endLoop ['a']]

/-- Node `c` runs instance 2 to its end with `b` and `c`, as run `rid` under the number
`(1, c)`. -/
def runC (rid : ℕ) : List Action :=
  [.run ['c'] 2 [['a'], ['b'], ['c']] ['v'], .skip ['c']] ++
    prepareAt ['c'] rid ['b'] { inst := 2, n := { n := 1, m := ['c'] } } { n := 0, m := ['b'] } ++
    prepareAt ['c'] rid ['c'] { inst := 2, n := { n := 1, m := ['c'] } } { n := 0, m := ['c'] } ++
    [.endLoop ['c']] ++
    acceptAt ['c'] rid ['b'] { inst := 2, n := { n := 1, m := ['c'] }, v := ['v'] } ++
    acceptAt ['c'] rid ['c'] { inst := 2, n := { n := 1, m := ['c'] }, v := ['v'] } ++
    [.endLoop ['c']] ++
    decideAt ['c'] rid ['b'] { inst := 2, v := ['v'] } ++
    decideAt ['c'] rid ['c'] { inst := 2, v := ['v'] } ++
    [.endLoop ['c']]

/-- Node `a` goes on: its accepts reach `a` and `b`, and it decides at `a`. -/
def finishA : List Action :=
  acceptAt ['a'] 0 ['a'] { inst := 2, n := { n := 1, m := ['a'] }, v := ['u'] } ++
    acceptAt ['a'] 0 ['b'] { inst := 2, n := { n := 1, m := ['a'] }, v := ['u'] } ++
    [.endLoop ['a']] ++
    decideAt ['a'] 0 ['a'] { inst := 2, v := ['u'] }

end Schedule

theorem agreement_runC :
    ∃ s, Reach (Start 2) step (InStep 2) s ∧
      ((∀ info ∈ s.runs, info.inst = 2 → info.cur = [['a'], ['b'], ['c']]) ∧
        2 ≤ (s.node ['b']).acc.instanceH ∧ 2 ≤ (s.node ['c']).acc.instanceH) ∧
      (s.node ['b']).acc.values 2 = (s.node ['c']).acc.values 2 := by
  have hrun : ∃ s, Reach (Start 2) step (InStep 2) s ∧
      (∀ info ∈ s.runs, info.inst = 2 → info.cur = [['a'], ['b'], ['c']]) ∧
        2 ≤ (s.node ['b']).acc.instanceH ∧ 2 ≤ (s.node ['c']).acc.instanceH :=
    Reach.exists_of_runFrom (runC 0)
      (start_settled 1 ['w'] (by decide) (by decide) (by decide))
      (by decide +kernel)
  rcases hrun with ⟨s, hreach, hcur, hb, hc⟩
  exact ⟨s, hreach, ⟨hcur, hb, hc⟩, agreement hreach _ hcur _ _ hb hc⟩

/-- The handlers alone do not keep the instance: `b` commits `v` for instance 2, then accepts
`a`'s proposal for the same instance, and `a` commits `u`. -/
theorem late_accept_breaks_agreement :
    ∃ s, Reach (Start 2) step anyStep s ∧
      (∀ info ∈ s.runs, info.inst = 2 → info.cur = [['a'], ['b'], ['c']]) ∧
      2 ≤ (s.node ['a']).acc.instanceH ∧ 2 ≤ (s.node ['b']).acc.instanceH ∧
      (s.node ['a']).acc.values 2 = ['u'] ∧ (s.node ['b']).acc.values 2 = ['v'] :=
  Reach.exists_of_runFrom (prepareA ++ runC 1 ++ finishA)
    (start_settled 1 ['w'] (by decide) (by decide) (by decide))
    (by decide +kernel)

end Paxos
end Yfs

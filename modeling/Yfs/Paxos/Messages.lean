import Yfs.Paxos.Cluster

/-!
# Messages — what a message on the network says about the run that sent it

The facts of this file hold in every run of the cluster, with no assumption about which
messages are handled when: a message carries the instance and the number of its run, an accept
request rests on a majority of promises and goes only to a node that promised, all accept
requests of one run carry one value, and a decide follows a majority of votes.
-/

namespace Yfs
namespace Paxos

open Lib

/-! ## Facts that stay true as the network grows -/

/-- `t` has all messages of `s` and all runs of `s`. -/
structure Grows (s t : State) : Prop where
  net : ∀ m ∈ s.net, m ∈ t.net
  runs : ∀ (k : ℕ) (info : RunInfo), s.runs[k]? = some info → t.runs[k]? = some info

/-- `x` promised the number of the request `a` to run `rid`, and reported `(nA, vA)`. -/
def Promise (s : State) (rid : ℕ) (x : Str) (a : PrepareArg) (nA : PropT) (vA : Str) : Prop :=
  Msg.prepareres rid x a { oldinstance := false, accept := true, nA := nA, vA := vA } ∈ s.net

/-- `x` accepted the proposal `a` of run `rid`. -/
def Voted (s : State) (rid : ℕ) (x : Str) (a : AcceptArg) : Prop :=
  Msg.acceptres rid x a .OK true ∈ s.net

instance (s : State) (rid : ℕ) (x : Str) (a : AcceptArg) : Decidable (Voted s rid x a) :=
  inferInstanceAs (Decidable (_ ∈ s.net))

/-- The accumulators of the loop in `prepare`: every node in `accepts` promised, no report is
above `maxN`, and `maxV` was reported with `maxN`. -/
def Collected (s : State) (rid : ℕ) (a : PrepareArg) (accepts : List Str) (maxN : PropT)
    (maxV : Str) : Prop :=
  (∀ x ∈ accepts, ∃ nA vA, Promise s rid x a nA vA ∧ nA ≤ maxN) ∧
    ((maxN = zeroProp ∧ maxV = []) ∨ ∃ x ∈ accepts, Promise s rid x a maxN maxV)

/-- The value `v` is the one that `run` goes on with after a majority of promises. -/
def Backed (s : State) (rid : ℕ) (info : RunInfo) (v : Str) : Prop :=
  ∃ accepts maxN maxV, majority info.cur accepts = true ∧
    Collected s rid { inst := info.inst, n := info.n } accepts maxN maxV ∧
    v = if maxV = [] then info.newv else maxV

/-- A majority of the member list of some run for `inst` accepted its proposal of `v`. -/
def Chosen (s : State) (inst : UInt32) (v : Str) : Prop :=
  ∃ rid info q, s.runs[rid]? = some info ∧ info.inst = inst ∧ majority info.cur q = true ∧
    ∀ x ∈ q, Voted s rid x { inst := inst, n := info.n, v := v }

section Mono

variable {s t : State} (hg : Grows s t)

include hg

theorem Promise.mono {rid : ℕ} {x : Str} {a : PrepareArg} {nA : PropT} {vA : Str}
    (h : Promise s rid x a nA vA) : Promise t rid x a nA vA :=
  hg.net _ h

theorem Voted.mono {rid : ℕ} {x : Str} {a : AcceptArg} (h : Voted s rid x a) : Voted t rid x a :=
  hg.net _ h

theorem Collected.mono {rid : ℕ} {a : PrepareArg} {accepts : List Str} {maxN : PropT} {maxV : Str}
    (h : Collected s rid a accepts maxN maxV) : Collected t rid a accepts maxN maxV := by
  rcases h with ⟨hall, hmax⟩
  refine ⟨?_, ?_⟩
  · intro x hx
    rcases hall x hx with ⟨nA, vA, hp, hle⟩
    exact ⟨nA, vA, hp.mono hg, hle⟩
  · rcases hmax with h0 | ⟨x, hx, hp⟩
    · exact Or.inl h0
    · exact Or.inr ⟨x, hx, hp.mono hg⟩

theorem Backed.mono {rid : ℕ} {info : RunInfo} {v : Str} (h : Backed s rid info v) :
    Backed t rid info v := by
  rcases h with ⟨accepts, maxN, maxV, hmaj, hcol, hv⟩
  exact ⟨accepts, maxN, maxV, hmaj, hcol.mono hg, hv⟩

theorem Chosen.mono {inst : UInt32} {v : Str} (h : Chosen s inst v) : Chosen t inst v := by
  rcases h with ⟨rid, info, q, hinfo, hinst, hmaj, hq⟩
  exact ⟨rid, info, q, hg.runs rid info hinfo, hinst, hmaj, fun x hx => (hq x hx).mono hg⟩

end Mono

/-! ## The invariant -/

/-- What a message on the network says. -/
def MsgOk (s : State) : Msg → Prop
  | .preparereq rid _ a => ∃ info, s.runs[rid]? = some info ∧ a = { inst := info.inst, n := info.n }
  | .prepareres rid x a _ => Msg.preparereq rid x a ∈ s.net
  | .acceptreq rid x a =>
      ∃ info, s.runs[rid]? = some info ∧ a.inst = info.inst ∧ a.n = info.n ∧
        Backed s rid info a.v ∧ ∃ nA vA, Promise s rid x { inst := a.inst, n := a.n } nA vA
  | .acceptres rid x a _ _ => Msg.acceptreq rid x a ∈ s.net
  | .decidereq _ _ a => Chosen s a.inst a.v
  | .logdump _ => True

theorem MsgOk.mono {s t : State} (hg : Grows s t) {m : Msg} (h : MsgOk s m) : MsgOk t m := by
  cases m with
  | preparereq rid x a =>
      rcases h with ⟨info, hinfo, ha⟩
      exact ⟨info, hg.runs rid info hinfo, ha⟩
  | prepareres rid x a res => exact hg.net _ h
  | acceptreq rid x a =>
      rcases h with ⟨info, hinfo, hinst, hn, hb, nA, vA, hp⟩
      exact ⟨info, hg.runs rid info hinfo, hinst, hn, hb.mono hg, nA, vA, hp.mono hg⟩
  | acceptres rid x a ret ok => exact hg.net _ h
  | decidereq rid x a => exact Chosen.mono hg h
  | logdump text => trivial

/-- The value a run proposes, once it has settled on one. -/
def Phase.value : Phase → Option Str
  | .prepare _ _ _ => none
  | .accept _ v => some v
  | .decide v => some v

/-- What the local variables of a run say. -/
def PhaseOk (s : State) (n : PropT) (r : Run) : Prop :=
  match r.phase with
  | .prepare accepts maxN maxV => Collected s r.rid { inst := r.inst, n := n } accepts maxN maxV
  | .accept accepts v =>
      (∃ info, s.runs[r.rid]? = some info ∧ Backed s r.rid info v) ∧
        (∀ x ∈ r.todo, ∃ nA vA, Promise s r.rid x { inst := r.inst, n := n } nA vA) ∧
        ∀ x ∈ accepts, Voted s r.rid x { inst := r.inst, n := n, v := v }
  | .decide v => Chosen s r.inst v

theorem PhaseOk.mono {s t : State} (hg : Grows s t) {n : PropT} {r : Run} (h : PhaseOk s n r) :
    PhaseOk t n r := by
  unfold PhaseOk at h ⊢
  cases hphase : r.phase with
  | prepare accepts maxN maxV =>
      rw [hphase] at h
      exact Collected.mono hg h
  | accept accepts v =>
      rw [hphase] at h
      rcases h with ⟨⟨info, hinfo, hb⟩, htodo, hvoted⟩
      refine ⟨⟨info, hg.runs _ _ hinfo, hb.mono hg⟩, ?_, fun x hx => (hvoted x hx).mono hg⟩
      intro x hx
      rcases htodo x hx with ⟨nA, vA, hp⟩
      exact ⟨nA, vA, hp.mono hg⟩
  | decide v =>
      rw [hphase] at h
      exact Chosen.mono hg h

/-- A run in progress at `p`, with number `n`. -/
structure RunOk (s : State) (p : Str) (n : PropT) (r : Run) : Prop where
  info : s.runs[r.rid]? =
    some { p := p, inst := r.inst, n := n, cur := r.cur, newv := r.newv }
  phase : PhaseOk s n r
  sent : ∀ x a, Msg.acceptreq r.rid x a ∈ s.net → r.phase.value = some a.v

/-- The network and the runs in progress agree with the record of runs. -/
structure Wf (s : State) : Prop where
  msg : ∀ m ∈ s.net, MsgOk s m
  value_inj : ∀ rid x y a b, Msg.acceptreq rid x a ∈ s.net → Msg.acceptreq rid y b ∈ s.net →
    a.v = b.v
  run : ∀ p r, (s.node p).run = some r → RunOk s p (s.node p).myN r

/-- The step rule for `Wf`: one node `p` moves, and every new accept request is one of its run. -/
theorem Wf.step_of {s t : State} (hs : Wf s) (hg : Grows s t) (p : Str)
    (hmsg : ∀ m ∈ t.net, m ∈ s.net ∨ MsgOk t m)
    (hreq : ∀ rid x a, Msg.acceptreq rid x a ∈ t.net → Msg.acceptreq rid x a ∈ s.net ∨
      ∃ r, (t.node p).run = some r ∧ r.rid = rid)
    (hother : ∀ q, q ≠ p → (t.node q).run = (s.node q).run ∧ (t.node q).myN = (s.node q).myN)
    (hrun : ∀ r, (t.node p).run = some r → RunOk t p (t.node p).myN r) : Wf t := by
  have hall : ∀ q r, (t.node q).run = some r → RunOk t q (t.node q).myN r := by
    intro q r hr
    by_cases hq : q = p
    · subst hq
      exact hrun r hr
    · rcases hother q hq with ⟨hrq, hnq⟩
      rw [hrq] at hr
      rw [hnq]
      have hok := hs.run q r hr
      refine ⟨hg.runs _ _ hok.info, hok.phase.mono hg, ?_⟩
      intro x a ha
      rcases hreq r.rid x a ha with hold | ⟨r', hr', hid⟩
      · exact hok.sent x a hold
      · -- a new request belongs to `p`, and a run belongs to one node only
        have h₁ := (hrun r' hr').info
        have h₂ := hg.runs _ _ hok.info
        rw [hid, h₂] at h₁
        exact absurd (congrArg RunInfo.p (Option.some.inj h₁)) hq
  refine ⟨?_, ?_, hall⟩
  · intro m hm
    rcases hmsg m hm with hold | hok
    · exact (hs.msg m hold).mono hg
    · exact hok
  · intro rid x y a b ha hb
    rcases hreq rid x a ha with ha' | ⟨r, hr, rfl⟩
    · rcases hreq rid y b hb with hb' | ⟨r, hr, rfl⟩
      · exact hs.value_inj rid x y a b ha' hb'
      · have hok := hrun r hr
        exact Option.some.inj ((hok.sent x a ha).symm.trans (hok.sent y b hb))
    · have hok := hrun r hr
      exact Option.some.inj ((hok.sent x a ha).symm.trans (hok.sent y b hb))

/-! ## Every step keeps it -/

theorem grows_of_eq {s t : State} (hnet : t.net = s.net) (hruns : t.runs = s.runs) :
    Grows s t :=
  ⟨fun _ hm => hnet ▸ hm, fun _ _ hk => hruns ▸ hk⟩

theorem grows_send {s t : State} {m : Msg} (hnet : t.net = m :: s.net) (hruns : t.runs = s.runs) :
    Grows s t :=
  ⟨fun _ hm => hnet ▸ List.mem_cons_of_mem m hm, fun _ _ hk => hruns ▸ hk⟩

theorem grows_addRun {s t : State} {info : RunInfo} (hnet : t.net = s.net)
    (hruns : t.runs = s.runs ++ [info]) : Grows s t := by
  refine ⟨fun _ hm => hnet ▸ hm, ?_⟩
  intro k info' hk
  have hlt : k < s.runs.length := (List.getElem?_eq_some_iff.mp hk).1
  rw [hruns, ← hk]
  exact List.getElem?_append_left hlt

/-- The step rule when nothing is sent: only the run at `p` has to be looked at. -/
theorem Wf.setNode {s : State} (hs : Wf s) {p : Str} {nd : Node}
    (hrun : ∀ r, nd.run = some r → RunOk s p nd.myN r) : Wf (s.setNode p nd) := by
  have hg : Grows s (s.setNode p nd) := grows_of_eq rfl rfl
  refine hs.step_of hg p (fun _ hm => Or.inl hm) (fun _ _ _ ha => Or.inl ha) ?_ ?_
  · intro q hq
    rw [State.setNode_node_of_ne _ _ hq]
    exact ⟨rfl, rfl⟩
  · intro r hr
    rw [State.setNode_node_self] at hr ⊢
    have hok := hrun r hr
    exact ⟨hok.info, hok.phase.mono hg, hok.sent⟩

/-- Only the acceptor, or what belongs to the config layer, changes at `x`. -/
theorem Wf.setAcc {s : State} (hs : Wf s) {x : Str} {nd : Node} (hrun : nd.run = (s.node x).run)
    (hn : nd.myN = (s.node x).myN) : Wf (s.setNode x nd) := by
  refine hs.setNode fun r hr => ?_
  rw [hn]
  exact hs.run x r (hrun ▸ hr)

/-- The step rule for an answer: no request to accept is sent. -/
theorem Wf.send {s : State} (hs : Wf s) {m : Msg} (hm : MsgOk (s.send m) m)
    (hreq : ∀ rid y a, m ≠ Msg.acceptreq rid y a) : Wf (s.send m) := by
  have hg : Grows s (s.send m) := grows_send rfl rfl
  have hold : ∀ rid y a,
      Msg.acceptreq rid y a ∈ (s.send m).net → Msg.acceptreq rid y a ∈ s.net := by
    intro rid y a ha
    rcases List.mem_cons.mp ha with heq | hin
    · exact absurd heq.symm (hreq rid y a)
    · exact hin
  refine ⟨?_, ?_, ?_⟩
  · intro m' hm'
    rcases List.mem_cons.mp hm' with rfl | hin
    · exact hm
    · exact (hs.msg m' hin).mono hg
  · intro rid x y a b ha hb
    exact hs.value_inj rid x y a b (hold rid x a ha) (hold rid y b hb)
  · intro p r hr
    have hok := hs.run p r hr
    exact ⟨hok.info, hok.phase.mono hg, fun y a ha => hok.sent y a (hold _ y a ha)⟩

theorem arg_of_prepareres {s : State} (hs : Wf s) {p : Str} {r : Run}
    (hr : (s.node p).run = some r) {x : Str} {a : PrepareArg} {res : PrepareRes}
    (hm : Msg.prepareres r.rid x a res ∈ s.net) :
    a = { inst := r.inst, n := (s.node p).myN } := by
  rcases hs.msg _ (hs.msg _ hm) with ⟨info, hinfo, ha⟩
  rw [(hs.run p r hr).info] at hinfo
  cases hinfo
  exact ha

/-- One pass of the loop in `prepare` keeps its accumulators. -/
theorem Collected.reply {s : State} {rid : ℕ} {a : PrepareArg} {accepts : List Str} {maxN : PropT}
    {maxV : Str} (h : Collected s rid a accepts maxN maxV) {x : Str} {nA : PropT} {vA : Str}
    (hp : Promise s rid x a nA vA) :
    (maxN < nA → Collected s rid a (accepts ++ [x]) nA vA) ∧
      (nA ≤ maxN → Collected s rid a (accepts ++ [x]) maxN maxV) := by
  rcases h with ⟨hall, hmax⟩
  refine ⟨?_, ?_⟩
  · intro hlt
    refine ⟨?_, Or.inr ⟨x, by simp, hp⟩⟩
    intro y hy
    rcases List.mem_append.mp hy with hin | hin
    · rcases hall y hin with ⟨nA', vA', hp', hle⟩
      exact ⟨nA', vA', hp', le_of_lt (lt_of_le_of_lt hle hlt)⟩
    · have hyx : y = x := by simpa using hin
      exact ⟨nA, vA, hyx ▸ hp, le_refl nA⟩
  · intro hle
    refine ⟨?_, ?_⟩
    · intro y hy
      rcases List.mem_append.mp hy with hin | hin
      · exact hall y hin
      · have hyx : y = x := by simpa using hin
        exact ⟨nA, vA, hyx ▸ hp, hle⟩
    · rcases hmax with h0 | ⟨y, hy, hpy⟩
      · exact Or.inl h0
      · exact Or.inr ⟨y, by simp [hy], hpy⟩

theorem phaseOk_prepareReply {s : State} (hs : Wf s) {p x : Str} {r : Run} {accepts : List Str}
    (rest : List Str) {maxN : PropT} {maxV : Str} {a : PrepareArg} {res : PrepareRes}
    (hrun : (s.node p).run = some r) (hphase : r.phase = .prepare accepts maxN maxV)
    (hm : Msg.prepareres r.rid x a res ∈ s.net) (hold : res.oldinstance = false) :
    PhaseOk s (s.node p).myN (r.prepareReply x accepts maxN maxV res rest) ∧
      (r.prepareReply x accepts maxN maxV res rest).phase.value = none := by
  have hcol : Collected s r.rid { inst := r.inst, n := (s.node p).myN } accepts maxN maxV := by
    have := (hs.run p r hrun).phase
    simpa [PhaseOk, hphase] using this
  have harg := arg_of_prepareres hs hrun hm
  cases hacc : res.accept with
  | false =>
      exact ⟨by simpa [PhaseOk, Run.prepareReply, hacc] using hcol,
        by simp [Run.prepareReply, hacc, Phase.value]⟩
  | true =>
      have hp : Promise s r.rid x { inst := r.inst, n := (s.node p).myN } res.nA res.vA := by
        have hres : res =
            { oldinstance := false, accept := true, nA := res.nA, vA := res.vA } := by
          cases res
          simp_all
        rw [Promise, ← harg, ← hres]
        exact hm
      by_cases hgt : res.nA.gt maxN = true
      · have := (hcol.reply hp).1 (PropT.gt_iff.mp hgt)
        exact ⟨by simpa [PhaseOk, Run.prepareReply, hacc, hgt] using this,
          by simp [Run.prepareReply, hacc, hgt, Phase.value]⟩
      · have hle : res.nA ≤ maxN := not_lt.mp fun h => hgt (PropT.gt_iff.mpr h)
        have := (hcol.reply hp).2 hle
        exact ⟨by simpa [PhaseOk, Run.prepareReply, hacc, hgt] using this,
          by simp [Run.prepareReply, hacc, hgt, Phase.value]⟩

theorem voted_of_acceptres {s : State} (hs : Wf s) {p x : Str} {r : Run} {accepts : List Str}
    {v : Str} {a : AcceptArg} (hrun : (s.node p).run = some r)
    (hphase : r.phase = .accept accepts v) (hm : Msg.acceptres r.rid x a .OK true ∈ s.net) :
    Voted s r.rid x { inst := r.inst, n := (s.node p).myN, v := v } := by
  have hok := hs.run p r hrun
  have hreq : Msg.acceptreq r.rid x a ∈ s.net := hs.msg _ hm
  rcases hs.msg _ hreq with ⟨info, hinfo, hinst, hn, _, _⟩
  have hv : v = a.v := by
    have := hok.sent x a hreq
    rw [hphase] at this
    exact Option.some.inj this
  rw [hok.info] at hinfo
  cases hinfo
  have ha : a = { inst := r.inst, n := (s.node p).myN, v := v } := by
    cases a
    simp_all
  rw [Voted, ← ha]
  exact hm

/-- The code between two loops: the accumulators of one are what the next one rests on. -/
theorem runOk_endLoop {s : State} (hs : Wf s) {p : Str} {r r' : Run}
    (hrun : (s.node p).run = some r) (h : r.endLoop = some r') :
    RunOk s p (s.node p).myN r' := by
  have hok := hs.run p r hrun
  cases hphase : r.phase with
  | prepare accepts maxN maxV =>
      have hcol : Collected s r.rid { inst := r.inst, n := (s.node p).myN } accepts maxN maxV := by
        have := hok.phase
        simpa [PhaseOk, hphase] using this
      by_cases hmaj : majority r.cur accepts = true
      · simp only [Run.endLoop, hphase, hmaj, if_true, Option.some.injEq] at h
        subst h
        have hne : accepts ≠ [] := by
          rintro rfl
          simp [majority_of_nil] at hmaj
        refine ⟨hok.info, ⟨⟨_, hok.info, accepts, maxN, maxV, hmaj, hcol, ?_⟩, ?_, ?_⟩, ?_⟩
        · simp [hne]
        · intro x hx
          rcases hcol.1 x hx with ⟨nA, vA, hp, _⟩
          exact ⟨nA, vA, hp⟩
        · intro x hx
          simp at hx
        · intro x a ha
          -- nothing was sent before the run settled on its value
          have := hok.sent x a ha
          simp [hphase, Phase.value] at this
      · simp [Run.endLoop, hphase, hmaj] at h
  | accept accepts v =>
      have hvoted : ∀ x ∈ accepts,
          Voted s r.rid x { inst := r.inst, n := (s.node p).myN, v := v } := by
        have hph := hok.phase
        simp only [PhaseOk, hphase] at hph
        exact hph.2.2
      by_cases hmaj : majority r.cur accepts = true
      · simp only [Run.endLoop, hphase, hmaj, if_true, Option.some.injEq] at h
        subst h
        refine ⟨hok.info, ⟨r.rid, _, accepts, hok.info, rfl, hmaj, hvoted⟩, ?_⟩
        intro x a ha
        have := hok.sent x a ha
        simpa [hphase, Phase.value] using this
      · simp [Run.endLoop, hphase, hmaj] at h
  | decide v => simp [Run.endLoop, hphase] at h

theorem msgOk_request {s : State} (hs : Wf s) {p x : Str} {r : Run} {rest : List Str}
    (hrun : (s.node p).run = some r) (htodo : r.todo = x :: rest) :
    MsgOk s (r.request (s.node p).myN x) := by
  have hok := hs.run p r hrun
  have hph := hok.phase
  cases hphase : r.phase with
  | prepare accepts maxN maxV =>
      simp only [Run.request, hphase]
      exact ⟨_, hok.info, rfl⟩
  | accept accepts v =>
      simp only [PhaseOk, hphase] at hph
      simp only [Run.request, hphase]
      rcases hph with ⟨⟨info, hinfo, hb⟩, hpro, _⟩
      rw [hok.info] at hinfo
      cases hinfo
      exact ⟨_, hok.info, rfl, rfl, hb, hpro x (by simp [htodo])⟩
  | decide v =>
      simp only [PhaseOk, hphase] at hph
      simp only [Run.request, hphase]
      exact hph

theorem value_of_request {r : Run} {n : PropT} {x y : Str} {rid : ℕ} {a : AcceptArg}
    (h : Msg.acceptreq rid y a = r.request n x) : r.rid = rid ∧ r.phase.value = some a.v := by
  cases hphase : r.phase with
  | prepare accepts maxN maxV => simp [Run.request, hphase] at h
  | accept accepts v =>
      simp only [Run.request, hphase, Msg.acceptreq.injEq] at h
      rcases h with ⟨hid, _, ha⟩
      exact ⟨hid.symm, by rw [ha]; rfl⟩
  | decide v => simp [Run.request, hphase] at h

/-- `proposer::run` starts with a new index, which is not on the network yet. -/
theorem Wf.startRun {s : State} (hs : Wf s) (p : Str) (n : PropT) (inst : UInt32) (cur : List Str)
    (newv : Str) :
    Wf
      { node := Function.update s.node p
          { s.node p with
            myN := n
            run := some
              { rid := s.runs.length
                inst := inst
                cur := cur
                newv := newv
                phase := .prepare [] zeroProp []
                todo := cur
                calling := false } }
        net := s.net
        runs := s.runs ++
          [{ p := p
             inst := inst
             n := n
             cur := cur
             newv := newv }] } := by
  refine hs.step_of (grows_addRun rfl rfl) p (fun m hm => Or.inl hm)
    (fun _ _ _ ha => Or.inl ha) ?_ ?_
  · intro q hq
    simp [hq]
  · intro r hr
    simp only [Function.update_self, Option.some.injEq] at hr
    subst hr
    refine ⟨by simp, ⟨by simp, Or.inl ⟨rfl, rfl⟩⟩, ?_⟩
    intro x a ha
    rcases hs.msg _ ha with ⟨info, hinfo, _⟩
    simp at hinfo

/-- The next request of a run is sent. -/
theorem Wf.call {s : State} (hs : Wf s) {p x : Str} {r : Run} {rest : List Str}
    (hrun : (s.node p).run = some r) (htodo : r.todo = x :: rest) :
    Wf ((s.setNode p { s.node p with run := some { r with calling := true } }).send
      (r.request (s.node p).myN x)) := by
  have hg : Grows s ((s.setNode p { s.node p with run := some { r with calling := true } }).send
      (r.request (s.node p).myN x)) := grows_send rfl rfl
  have hok := hs.run p r hrun
  refine hs.step_of hg p ?_ ?_ ?_ ?_
  · intro m hm
    rcases List.mem_cons.mp hm with rfl | hin
    · exact Or.inr ((msgOk_request hs hrun htodo).mono hg)
    · exact Or.inl hin
  · intro rid y a ha
    rcases List.mem_cons.mp ha with heq | hin
    · exact Or.inr ⟨{ r with calling := true }, by simp, (value_of_request heq).1⟩
    · exact Or.inl hin
  · intro q hq
    simp [State.setNode_node_of_ne _ _ hq]
  · intro r' hr'
    simp only [State.send_node, State.setNode_node_self, Option.some.injEq] at hr' ⊢
    subst hr'
    refine ⟨hok.info, hok.phase.mono hg, ?_⟩
    intro y a ha
    rcases List.mem_cons.mp ha with heq | hin
    · exact (value_of_request heq).2
    · exact hok.sent y a hin

/-- A member that cannot be reached is left out. -/
theorem runOk_skip {s : State} {p x : Str} {n : PropT} {r : Run} {rest : List Str}
    (hok : RunOk s p n r) (htodo : r.todo = x :: rest) :
    RunOk s p n { r with todo := rest, calling := false } := by
  have hph := hok.phase
  refine ⟨hok.info, ?_, hok.sent⟩
  cases hphase : r.phase with
  | prepare accepts maxN maxV =>
      simp only [PhaseOk, hphase] at hph ⊢
      exact hph
  | accept accepts v =>
      simp only [PhaseOk, hphase] at hph ⊢
      exact ⟨hph.1, fun y hy => hph.2.1 y (by simp [htodo, hy]), hph.2.2⟩
  | decide v =>
      simp only [PhaseOk, hphase] at hph ⊢
      exact hph

/-- One pass of the loop in `accept`. -/
theorem runOk_acceptReply {s : State} (hs : Wf s) {p x : Str} {r : Run} {rest accepts : List Str}
    {v : Str} {a : AcceptArg} {ret : Status} {ok : Bool} (hrun : (s.node p).run = some r)
    (htodo : r.todo = x :: rest) (hphase : r.phase = .accept accepts v)
    (hm : Msg.acceptres r.rid x a ret ok ∈ s.net) :
    RunOk s p (s.node p).myN
      { r with
        phase := .accept (if ret = .OK ∧ ok = true then accepts ++ [x] else accepts) v
        todo := rest
        calling := false } := by
  have hok := hs.run p r hrun
  have hph := hok.phase
  simp only [PhaseOk, hphase] at hph
  refine ⟨hok.info, ⟨hph.1, fun y hy => hph.2.1 y (by simp [htodo, hy]), ?_⟩, ?_⟩
  · by_cases hyes : ret = .OK ∧ ok = true
    · rcases hyes with ⟨rfl, rfl⟩
      have hvoted := voted_of_acceptres hs hrun hphase hm
      intro y hy
      simp only [and_self, if_true] at hy
      rcases List.mem_append.mp hy with hin | hin
      · exact hph.2.2 y hin
      · have hyx : y = x := by simpa using hin
        rw [hyx]
        exact hvoted
    · intro y hy
      rw [if_neg hyes] at hy
      exact hph.2.2 y hy
  · intro y b hb
    simpa [hphase, Phase.value] using hok.sent y b hb

theorem Wf.step {s t : State} {a : Action} (hs : Wf s) (h : step s a = some t) : Wf t := by
  cases step_move h with
  | @run p inst cur newv hp hup hrun => exact hs.startRun p _ inst cur newv
  | call hrun htodo => exact hs.call hrun htodo
  | @skip p x r rest hrun htodo =>
      refine hs.setNode fun r' hr' => ?_
      cases hr'
      exact runOk_skip (hs.run p r hrun) htodo
  | replyOld _ _ _ _ _ => exact hs.setNode fun r' hr' => by cases hr'
  | @replyPrepare p x r rest accepts maxN maxV a res hrun htodo hphase hm hold =>
      refine hs.setNode fun r' hr' => ?_
      cases hr'
      have hok := hs.run p r hrun
      rcases phaseOk_prepareReply hs rest hrun hphase hm hold with ⟨hph, hval⟩
      refine ⟨hok.info, hph, ?_⟩
      -- a run in its prepare phase has not asked for votes yet
      intro y b hb
      have hsent := hok.sent y b hb
      simp [hphase, Phase.value] at hsent
  | replyAccept hrun htodo hphase hm =>
      refine hs.setNode fun r' hr' => ?_
      cases hr'
      exact runOk_acceptReply hs hrun htodo hphase hm
  | endLoop hrun htodo => exact hs.setNode fun r' hr' => runOk_endLoop hs hrun hr'
  | prepare hm =>
      refine Wf.send (hs.setAcc ?_ ?_) (List.mem_cons_of_mem _ hm) (by simp)
      · rfl
      · rfl
  | accept hm =>
      refine Wf.send (hs.setAcc ?_ ?_) (List.mem_cons_of_mem _ hm) (by simp)
      · rfl
      · rfl
  | decide _ _ => exact hs.setAcc rfl rfl
  | abort _ | restart _ => exact hs.setNode fun r' hr' => by cases hr'
  | dump => exact hs.send trivial (by simp)
  | restore _ _ => exact hs.setAcc rfl rfl

end Paxos
end Yfs

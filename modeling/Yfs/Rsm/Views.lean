import Yfs.Rsm.Cluster

/-!
# Views — the chain of views

Under instance isolation all nodes commit the same view for every instance, and each view is the
one before it with one node appended or one node left out.  The chain is built by induction on
the instance: agreement on the view of instance `i` makes all proposers of `i + 1` use one
member list, which is what agreement on `i + 1` asks for.  A thread may read its arguments long
before its run starts; what it read stays a proposal over the view it was read from.

The handlers alone do not keep instances apart (`stale_pair_decided_again`).
-/

namespace Yfs
namespace Config

open Lib Paxos

/-! ## What a step keeps of an acceptor -/

/-- `b` still has every view that `a` has committed. -/
def Kept (a b : Acceptor) : Prop :=
  a.instanceH.toNat ≤ b.instanceH.toNat ∧
    ∀ k, k ≠ 0 → k ≤ a.instanceH → b.values k = a.values k

theorem Kept.refl (a : Acceptor) : Kept a a :=
  ⟨le_refl _, fun _ _ _ => rfl⟩

theorem Kept.le {a b : Acceptor} (h : Kept a b) {k : UInt32} (hk : k ≤ a.instanceH) :
    k ≤ b.instanceH :=
  UInt32.le_iff_toNat_le.mpr (le_trans (UInt32.le_iff_toNat_le.mp hk) h.1)

theorem Kept.getView {a b : Acceptor} (h : Kept a b) {k : UInt32} (h0 : k ≠ 0)
    (hk : k ≤ a.instanceH) : getView b k = getView a k := by
  rw [Config.getView, Config.getView, h.2 k h0 hk]

theorem kept_commitWo (s : Acceptor) (inst : UInt32) (value : Str) :
    Kept s (commitWo s inst value).1 := by
  by_cases hlt : s.instanceH < inst
  · rw [commitWo_of_lt hlt]
    refine ⟨le_of_lt (UInt32.lt_iff_toNat_lt.mp hlt), ?_⟩
    intro k _ hk
    have hne : k ≠ inst := by
      rintro rfl
      exact absurd hlt (UInt32.not_lt.mpr hk)
    simp [hne]
  · rw [commitWo_of_le (UInt32.not_lt.mp hlt)]
    exact Kept.refl s

theorem kept_exec {s t : Acceptor} {o : Op} (h : o.exec s = some t) : Kept s t := by
  cases o with
  | preparereq a =>
      cases h
      rcases preparereq_cases s a with ⟨_, h, _⟩ | ⟨_, _, h, _⟩ | ⟨_, _, h, _⟩ <;>
        rw [h] <;> exact Kept.refl s
  | acceptreq a =>
      cases h
      rcases acceptreq_cases s a with ⟨_, h⟩ | ⟨_, h⟩ <;> rw [h] <;> exact Kept.refl s
  | decidereq a =>
      rcases Option.map_eq_some_iff.mp h with ⟨r, hr, rfl⟩
      rcases decidereq_cases hr with ⟨_, _, rfl⟩ | ⟨_, rfl⟩
      · exact kept_commitWo s a.inst a.v
      · exact Kept.refl s
  | commit inst value =>
      cases h
      exact kept_commitWo s inst value

theorem instanceH_eq_zero_of_file_nil {acc : Acceptor} (hd : Durable acc) (h : acc.file = []) :
    acc.instanceH = 0 :=
  (sameState_fresh_of_file_nil hd h).instanceH.symm

theorem kept_step {s t : State} {a : Action} (hc : Clean s) (hlog : LogSafe s a)
    (h : Paxos.step s a = some t) (x : Str) : Kept (s.node x).acc (t.node x).acc := by
  cases step_acc hc hlog h x with
  | keep hacc =>
      rw [hacc]
      exact Kept.refl _
  | exec hexec _ => exact kept_exec hexec
  | recover hsame =>
      refine ⟨le_of_eq (congrArg UInt32.toNat hsame.instanceH.symm), ?_⟩
      intro k _ _
      rw [hsame.values]
  | restored _ _ hnil _ =>
      have h0 := instanceH_eq_zero_of_file_nil (hc.node x).durable hnil
      refine ⟨by rw [h0]; exact Nat.zero_le _, ?_⟩
      intro k hk hle
      -- nothing was committed before the log was restored
      rw [h0] at hle
      exact absurd (UInt32.toNat_inj.mp (Nat.le_zero.mp (UInt32.le_iff_toNat_le.mp hle))) hk

/-! ## The invariant of the cluster -/

/-- The arguments of a run, as its thread read them. -/
def askOf (info : RunInfo) : Ask where
  p := info.p
  inst := info.inst
  cur := info.cur
  newv := info.newv

/-- `add` or `remove_wo` read these arguments at a view that their node has committed. -/
def Origin (s : State) (k : Ask) : Prop :=
  ∃ vid m', vid ≠ 0 ∧ vid ≤ (s.node k.p).acc.instanceH ∧ k.inst = vid + 1 ∧ k.inst ≠ 0 ∧
    k.cur = getView (s.node k.p).acc vid ∧ Proposal k.cur m' ∧ m' ≠ [] ∧ k.newv = value m'

theorem Origin.kept {s t : State} {k : Ask} (h : Origin s k)
    (hk : ∀ x, Kept (s.node x).acc (t.node x).acc) : Origin t k := by
  rcases h with ⟨vid, m', h0, hle, hinst, hne, hcur, hprop⟩
  refine ⟨vid, m', h0, (hk k.p).le hle, hinst, hne, ?_, hprop⟩
  rw [(hk k.p).getView h0 hle]
  exact hcur

/-- The bootstrap view, in the state of an acceptor; there is no view 0. -/
def BaseOk (first : Str) (acc : Acceptor) : Prop :=
  acc.values 0 = [] ∧ (acc.instanceH ≠ 0 → acc.values 1 = first)

structure PaxInv (first : Str) (s : State) : Prop where
  wf : Wf s
  clean : Clean s
  slot : ∀ i : UInt32, 2 ≤ i.toNat → Slot i s
  base : ∀ x, BaseOk first (s.node x).acc
  dump : ∀ text, Msg.logdump text ∈ s.net →
    ∃ d, Durable d ∧ d.file = text ∧ BaseOk first d
  upcall : ∀ x, ∀ iv ∈ (s.node x).upcalls, iv.1 ≠ 0 ∧ iv.1 ≤ (s.node x).acc.instanceH ∧
    (s.node x).acc.values iv.1 = iv.2
  run : ∀ info ∈ s.runs, Origin s (askOf info)
  proposal : ∀ rid x a, Msg.acceptreq rid x a ∈ s.net →
    ∃ info ∈ s.runs, info.inst = a.inst ∧ info.newv = a.v

/-- No run is for the bootstrap instance. -/
theorem Origin.inst_ne_one {s : State} {k : Ask} (h : Origin s k) : k.inst ≠ 1 := by
  rcases h with ⟨vid, m', h0, _, hinst, _⟩
  rw [hinst]
  intro h1
  have hsub : vid = vid + 1 - 1 := (UInt32.add_sub_cancel vid 1).symm
  rw [h1] at hsub
  exact h0 hsub

theorem Origin.two_le {s : State} {k : Ask} (h : Origin s k) : 2 ≤ k.inst.toNat := by
  have h1 := h.inst_ne_one
  rcases h with ⟨vid, m', h0, _, hinst, hne, _⟩
  have hn0 : k.inst.toNat ≠ 0 := fun h => hne (UInt32.toNat_inj.mp h)
  have hn1 : k.inst.toNat ≠ 1 := fun h => h1 (UInt32.toNat_inj.mp h)
  omega

theorem baseOk_commitWo {first : Str} {acc : Acceptor} (h : BaseOk first acc) {inst : UInt32}
    (hne : inst ≠ 1) (hle : inst.toNat ≤ acc.instanceH.toNat + 1) (v : Str) :
    BaseOk first (commitWo acc inst v).1 := by
  by_cases hlt : acc.instanceH < inst
  · have hlt' := UInt32.lt_iff_toNat_lt.mp hlt
    have hn1 : inst.toNat ≠ 1 := fun h => hne (UInt32.toNat_inj.mp h)
    have hz : (0 : UInt32) ≠ inst := by
      rintro rfl
      exact absurd hlt (UInt32.not_lt.mpr UInt32.zero_le)
    have h0 : acc.instanceH ≠ 0 := by
      intro h0
      rw [h0] at hle hlt'
      have : (0 : UInt32).toNat = 0 := rfl
      omega
    rw [commitWo_of_lt hlt]
    refine ⟨?_, fun _ => ?_⟩
    · simpa [Function.update_of_ne hz] using h.1
    · simpa [Function.update_of_ne (Ne.symm hne)] using h.2 h0
  · rw [commitWo_of_le (UInt32.not_lt.mp hlt)]
    exact h

theorem PaxInv.base_step {first : Str} {s t : State} {a : Action} (hs : PaxInv first s)
    (hlog : LogSafe s a) (h : Paxos.step s a = some t) (x : Str) :
    BaseOk first (t.node x).acc := by
  have hx := hs.base x
  cases step_acc hs.clean hlog h x with
  | keep hacc =>
      rw [hacc]
      exact hx
  | @exec o hexec hreq =>
      cases o with
      | preparereq a =>
          rw [← Option.some.inj hexec]
          rcases preparereq_cases (s.node x).acc a with ⟨_, h, _⟩ | ⟨_, _, h, _⟩ | ⟨_, _, h, _⟩ <;>
            rw [h] <;> exact hx
      | acceptreq a =>
          rw [← Option.some.inj hexec]
          rcases acceptreq_cases (s.node x).acc a with ⟨_, h⟩ | ⟨_, h⟩ <;> rw [h] <;> exact hx
      | decidereq a =>
          rcases Option.map_eq_some_iff.mp hexec with ⟨r, hr, heq⟩
          rw [← heq]
          rcases decidereq_cases hr with ⟨hnext, _, rfl⟩ | ⟨_, rfl⟩
          · rcases hreq with ⟨rid, hm⟩
            rcases hs.wf.msg _ hm with ⟨rid', info, q, hinfo, hinst, _⟩
            have horig := hs.run info (List.mem_of_getElem? hinfo)
            refine baseOk_commitWo hx (hinst ▸ horig.inst_ne_one) ?_ a.v
            rw [hnext, UInt32.toNat_add]
            exact Nat.mod_le _ _
          · exact hx
      | commit inst v =>
          rw [← Option.some.inj hexec]
          rcases hreq with ⟨r, y, a, res, hrun, rfl, _⟩
          have hinfo := (hs.wf.run x r hrun).info
          have horig := hs.run _ (List.mem_of_getElem? hinfo)
          exact baseOk_commitWo hx horig.inst_ne_one ((hs.slot 2 (by decide)).inst_le x r hrun) v
  | recover hsame =>
      rw [BaseOk, hsame.instanceH, hsame.values]
      exact hx
  | restored _ hm _ hall =>
      rcases hs.dump _ hm with ⟨d, hd, hfile, hbase⟩
      have hsame := hall d hd hfile
      rw [BaseOk, hsame.instanceH, hsame.values]
      exact hbase

/-- Every proposed value is what some run for the same instance was called with: a value that
was reported to a run had been proposed under a smaller number. -/
theorem PaxInv.proposal_step {first : Str} {s t : State} {a : Action} (hs : PaxInv first s)
    (h : Paxos.step s a = some t) (hw : Wf t) (hslot : ∀ i : UInt32, 2 ≤ i.toNat → Slot i t)
    (hrun : ∀ info ∈ t.runs, Origin t (askOf info)) (hruns : ∀ info ∈ s.runs, info ∈ t.runs) :
    ∀ rid x a, Msg.acceptreq rid x a ∈ t.net →
      ∃ info ∈ t.runs, info.inst = a.inst ∧ info.newv = a.v := by
  intro rid x a hm
  have hold : ∀ rid x a, Msg.acceptreq rid x a ∈ s.net →
      ∃ info ∈ t.runs, info.inst = a.inst ∧ info.newv = a.v := by
    intro rid x a hin
    rcases hs.proposal rid x a hin with ⟨info, hinfo, hinst, hv⟩
    exact ⟨info, hruns info hinfo, hinst, hv⟩
  rcases hw.msg _ hm with ⟨info, hinfo, hinst, hn, ⟨accepts, maxN, maxV, _, hcol, hv⟩, _⟩
  have hmem := List.mem_of_getElem? hinfo
  by_cases hnil : maxV = []
  · rw [if_pos hnil] at hv
    exact ⟨info, hmem, hinst.symm, hv.symm⟩
  · rw [if_neg hnil] at hv
    rcases hcol.2 with ⟨_, hnil'⟩ | ⟨y, _, hp⟩
    · exact absurd hnil' hnil
    · rcases (hslot _ (hrun info hmem).two_le).report rid y info.n maxN maxV hp with
        ⟨_, hnil'⟩ | ⟨_, hlt, rid', z, hm'⟩
      · exact absurd hnil' hnil
      · -- the reported proposal has a smaller number, so it is not the message just sent
        have hin : Msg.acceptreq rid' z { inst := info.inst, n := maxN, v := maxV } ∈ s.net ∨
            Msg.acceptreq rid x a ∈ s.net := by
          rcases net_step h with heq | ⟨m, heq⟩
          · exact Or.inl (heq ▸ hm')
          · rw [heq] at hm hm'
            rcases List.mem_cons.mp hm' with h₁ | h₁
            · rcases List.mem_cons.mp hm with h₂ | h₂
              · have hsame := h₁.trans h₂.symm
                simp only [Msg.acceptreq.injEq] at hsame
                have hnum : maxN = info.n := by
                  rw [← hn, ← hsame.2.2]
                exact absurd hlt (hnum ▸ lt_irrefl maxN)
              · exact Or.inr h₂
            · exact Or.inl h₁
        rcases hin with hin | hin
        · rcases hold _ _ _ hin with ⟨info', hinfo', hinst', hv'⟩
          exact ⟨info', hinfo', hinst'.trans hinst.symm, hv'.trans hv.symm⟩
        · exact hold _ _ _ hin

theorem PaxInv.step {first : Str} {s t : State} {a : Action} (hs : PaxInv first s)
    (hlog : LogSafe s a) (hsafe : ∀ i : UInt32, 2 ≤ i.toNat → SlotSafe i s a)
    (hnew : ∀ p inst cur newv, a = .run p inst cur newv →
      Origin s { p := p, inst := inst, cur := cur, newv := newv })
    (h : Paxos.step s a = some t) : PaxInv first t := by
  have hw := hs.wf.step h
  have hkept := kept_step hs.clean hlog h
  have hslot : ∀ i : UInt32, 2 ≤ i.toNat → Slot i t := fun i hi =>
    (hs.slot i hi).step hs.wf hs.clean hlog (hsafe i hi) h
  have hruns : ∀ info ∈ s.runs, info ∈ t.runs := by
    intro info hinfo
    rcases runs_step h with heq | ⟨p, inst, cur, newv, _, heq⟩
    · rw [heq]
      exact hinfo
    · rw [heq]
      exact List.mem_append_left _ hinfo
  have hrun : ∀ info ∈ t.runs, Origin t (askOf info) := by
    intro info hinfo
    rcases runs_step h with heq | ⟨p, inst, cur, newv, hact, heq⟩
    · rw [heq] at hinfo
      exact (hs.run info hinfo).kept hkept
    · rw [heq] at hinfo
      rcases List.mem_append.mp hinfo with hin | hin
      · exact (hs.run info hin).kept hkept
      · have : info = _ := List.mem_singleton.mp hin
        subst this
        exact (hnew p inst cur newv hact).kept hkept
  refine ⟨hw, hs.clean.step hlog h, hslot, hs.base_step hlog h, ?_, ?_, hrun,
    hs.proposal_step h hw hslot hrun hruns⟩
  · intro text hm
    rcases logdump_step h hm with hin | ⟨x, rfl⟩
    · exact hs.dump text hin
    · have hd := (hs.clean.node x).durable
      exact ⟨(s.node x).acc, hd, (dump_of_durable hd).symm, hs.base x⟩
  · intro x iv hiv
    rcases upcalls_step h hiv with hold | ⟨hlt, hinst, hval⟩
    · rcases hs.upcall x iv hold with ⟨h0, hle, hv⟩
      exact ⟨h0, (hkept x).le hle, by rw [(hkept x).2 iv.1 h0 hle, hv]⟩
    · refine ⟨?_, by rw [hinst]; exact UInt32.le_refl _, hval⟩
      intro h0
      rw [h0] at hlt
      exact absurd hlt (UInt32.not_lt.mpr UInt32.zero_le)

/-! ## The invariant of the system -/

/-- The current view of a node is one that its acceptor has committed. -/
def CfgOk (acc : Acceptor) (c : Cfg) : Prop :=
  (c.myvid = 0 ∧ c.mems = []) ∨
    (c.myvid ≠ 0 ∧ c.myvid ≤ acc.instanceH ∧ c.mems = getView acc c.myvid)

theorem CfgOk.kept {a b : Acceptor} {c : Cfg} (h : CfgOk a c) (hk : Kept a b) : CfgOk b c := by
  rcases h with h0 | ⟨h0, hle, hmems⟩
  · exact Or.inl h0
  · exact Or.inr ⟨h0, hk.le hle, by rw [hk.getView h0 hle, hmems]⟩

theorem CfgOk.reconstruct {acc : Acceptor} {c : Cfg} (h : CfgOk acc c) :
    CfgOk acc (reconstruct acc c) := by
  by_cases hpos : 0 < acc.instanceH
  · rw [Config.reconstruct, if_pos hpos]
    refine Or.inr ⟨?_, UInt32.le_refl _, rfl⟩
    intro h0
    simp only at h0
    rw [h0] at hpos
    exact absurd hpos (by decide)
  · rw [Config.reconstruct, if_neg hpos]
    exact h

theorem value_ne_nil {m : List Str} (h : m ≠ []) : value m ≠ [] := by
  cases m with
  | nil => exact absurd rfl h
  | cons x m => simp [value_cons]

theorem Proposal.isWord {m m' : List Str} (hm : ∀ x ∈ m, IStream.IsWord x)
    (h : Proposal m m') : ∀ x ∈ m', IStream.IsWord x := by
  intro y hy
  rcases h with ⟨x, hx, _, rfl⟩ | ⟨x, _, rfl⟩
  · rcases List.mem_append.mp hy with hin | hin
    · exact hm y hin
    · exact List.mem_singleton.mp hin ▸ hx
  · exact hm y (List.mem_filter.mp hy).1

theorem Origin.newv {s : State} {k : Ask} (h : Origin s k) : '\n' ∉ k.newv ∧ k.newv ≠ [] := by
  rcases h with ⟨vid, m', _, _, _, _, hcur, hprop, hne, hv⟩
  rw [hv]
  refine ⟨newline_notMem_value (hprop.isWord fun x hx => ?_), value_ne_nil hne⟩
  rw [hcur] at hx
  exact isWord_of_mem_members hx

theorem Origin.inst_le {s : State} {k : Ask} (h : Origin s k) :
    k.inst.toNat ≤ (s.node k.p).acc.instanceH.toNat + 1 := by
  rcases h with ⟨vid, m', _, hle, hinst, _⟩
  have hvid := UInt32.le_iff_toNat_le.mp hle
  have hadd : (vid + 1).toNat ≤ vid.toNat + 1 := by
    rw [UInt32.toNat_add]
    exact Nat.mod_le _ _
  rw [hinst]
  omega

/-- The proposer, the process or the upcalls of `p` change, its acceptor does not. -/
theorem PaxInv.setNode {first : Str} {s : State} (hs : PaxInv first s) {p : Str} {nd : Node}
    (hacc : nd.acc = (s.node p).acc) (hmyN : nd.myN = (s.node p).myN)
    (hfirst : nd.first = (s.node p).first) (hrun : ∀ r, nd.run = some r → (s.node p).run = some r)
    (hups : ∀ iv ∈ nd.upcalls, iv ∈ (s.node p).upcalls) : PaxInv first (s.setNode p nd) := by
  have hsame : ∀ x, ((s.setNode p nd).node x).acc = (s.node x).acc := by
    intro x
    by_cases hx : x = p
    · subst hx
      rw [State.setNode_node_self, hacc]
    · rw [State.setNode_node_of_ne _ _ hx]
  have hkept : ∀ x, Kept (s.node x).acc ((s.setNode p nd).node x).acc := by
    intro x
    rw [hsame x]
    exact Kept.refl _
  have hnode := hs.clean.node p
  refine ⟨?_, ?_, ?_, ?_, hs.dump, ?_, ?_, hs.proposal⟩
  · refine hs.wf.setNode fun r hr => ?_
    rw [hmyN]
    exact hs.wf.run p r (hrun r hr)
  · refine hs.clean.setNode ⟨?_, ?_, ?_, ?_, fun r hr => hnode.run r (hrun r hr)⟩
    · rw [hacc]
      exact hnode.durable
    · rw [hacc]
      exact hnode.me
    · rw [hmyN]
      exact hnode.myN
    · rw [hacc, hfirst]
      exact hnode.first
  · intro i hi
    exact (hs.slot i hi).setRun hacc fun r hr => (hs.slot i hi).inst_le p r (hrun r hr)
  · intro x
    rw [hsame x]
    exact hs.base x
  · intro x iv hiv
    rw [hsame x]
    by_cases hx : x = p
    · subst hx
      rw [State.setNode_node_self] at hiv
      exact hs.upcall x iv (hups iv hiv)
    · rw [State.setNode_node_of_ne _ _ hx] at hiv
      exact hs.upcall x iv hiv
  · intro info hinfo
    exact (hs.run info hinfo).kept hkept

namespace Cluster

/-- The steps that keep instances apart: a prepare is not handled by an acceptor that has not
reached its instance, an accept only by one that is at its instance, logs are restored into
acceptors that have logged nothing, and no counter wraps around.  `joinreq` calls `add` at a node
that has a view, for a node that is not in it. -/
def Isolated (c : Cluster) : Event → Prop
  | .paxos (.handle (.preparereq _ x a)) => a.inst.toNat ≤ (c.node x).acc.instanceH.toNat + 1
  | .paxos (.handle (.acceptreq _ x a)) => a.inst.toNat = (c.node x).acc.instanceH.toNat + 1
  | .paxos (.restore x _ _) => (c.node x).acc.file = []
  | .add p newM _ =>
      (c.cfg p).myvid ≠ 0 ∧ newM ∉ c.view p ∧ (c.cfg p).myvid + 1 ≠ 0
  | .removeWo p _ => (c.cfg p).myvid + 1 ≠ 0
  | .run k => (setn (c.node k.p).acc.nH (c.node k.p).myN).n ≠ 0
  | _ => True

structure Inv (first : Str) (c : Cluster) : Prop where
  pax : PaxInv first c.sys.pax
  cfg : ∀ p, CfgOk (c.node p).acc (c.cfg p)
  ask : ∀ k ∈ c.asks, Origin c.sys.pax k

/-- The acceptors keep what they have committed, and no thread reads anything new. -/
theorem Inv.of_kept {first : Str} {c d : Cluster} (hc : Inv first c) (hpax : PaxInv first d.sys.pax)
    (hkept : ∀ x, Kept (c.node x).acc (d.node x).acc)
    (hcfg : ∀ x, d.cfg x = c.cfg x ∨ CfgOk (d.node x).acc (d.cfg x))
    (hask : ∀ k ∈ d.asks, k ∈ c.asks) : Inv first d := by
  refine ⟨hpax, ?_, fun k hk => (hc.ask k (hask k hk)).kept hkept⟩
  intro x
  rcases hcfg x with heq | hnew
  · rw [heq]
    exact (hc.cfg x).kept (hkept x)
  · exact hnew

theorem Inv.of_add {first : Str} {c d : Cluster} (hc : Inv first c) {p newM : Str} {vid : UInt32}
    (hok : Isolated c (.add p newM vid)) (h : step c (.add p newM vid) = some d) :
    Inv first d := by
  rcases hok with ⟨h0, hnew, hnowrap⟩
  rcases Option.ite_none_right_eq_some.1 h with ⟨⟨_, hword⟩, hd⟩
  rcases Option.map_eq_some_iff.mp hd with ⟨k, hk, rfl⟩
  rcases Option.ite_none_left_eq_some.1 hk with ⟨_, ⟨⟩⟩
  rcases hc.cfg p with ⟨hz, _⟩ | ⟨_, hle, hmems⟩
  · exact absurd hz h0
  · refine ⟨hc.pax, hc.cfg, fun k hk => ?_⟩
    rcases List.mem_cons.mp hk with rfl | hold
    · refine ⟨_, _, h0, hle, rfl, hnowrap, hmems, Or.inl ⟨newM, hword, ?_, rfl⟩, by simp, rfl⟩
      rw [hmems]
      exact hnew
    · exact hc.ask k hold

theorem Inv.of_removeWo {first : Str} {c d : Cluster} (hc : Inv first c) {p m : Str}
    (hok : Isolated c (.removeWo p m)) (h : step c (.removeWo p m) = some d) : Inv first d := by
  rcases Option.ite_none_right_eq_some.1 h with ⟨⟨_, hp, hm, hne⟩, ⟨⟩⟩
  have hp := isamember_iff.mp hp
  have hm := isamember_iff.mp hm
  rcases hc.cfg p with ⟨h0, _⟩ | ⟨h0, hle, hmems⟩
  · -- there is no view 0 to be a member of
    rw [view, h0, getView, node, (hc.pax.base p).1, members_nil] at hp
    cases hp
  · refine ⟨hc.pax, hc.cfg, fun k hk => ?_⟩
    rw [view, ← hmems] at hp hm
    rcases List.mem_cons.mp hk with rfl | hold
    · refine ⟨_, _, h0, hle, rfl, hok, hmems, Or.inr ⟨m, hm, rfl⟩, ?_, rfl⟩
      exact List.ne_nil_of_mem (List.mem_filter.mpr ⟨hp, decide_eq_true (Ne.symm hne)⟩)
    · exact hc.ask k hold

theorem Inv.paxosStep {first : Str} {c : Cluster} {a : Action} {t : State} (hc : Inv first c)
    (hrun : isRun a = false) (hok : Isolated c (.paxos a)) (h : Paxos.step c.sys.pax a = some t) :
    Inv first (c.afterPaxos t a) := by
  have hlog : LogSafe c.sys.pax a := by
    cases a with
    | run p inst cur newv => cases hrun
    | restore x text junk => exact hok
    | _ => trivial
  have hkept := kept_step hc.pax.clean hlog h
  refine hc.of_kept (hc.pax.step hlog ?_ ?_ h) hkept ?_ ?_
  · intro i _
    cases a with
    | run p inst cur newv => cases hrun
    | handle m =>
        cases m with
        | preparereq rid x b =>
            intro hi
            rw [← hi]
            exact hok
        | acceptreq rid x b =>
            have hok' : b.inst.toNat = (c.node x).acc.instanceH.toNat + 1 := hok
            exact ⟨fun hi => by rw [← hi]; exact hok'.symm,
              fun hi => UInt32.toNat_inj.mp (hok'.trans hi)⟩
        | _ => trivial
    | _ => trivial
  · intro p inst cur newv hact
    rw [hact] at hrun
    cases hrun
  · intro p
    have hupd : ∀ x e, CfgOk (t.node x).acc e → Function.update c.sys.cfg x
        (reconstruct (t.node x).acc e) p = c.cfg p ∨
          CfgOk (t.node p).acc (Function.update c.sys.cfg x (reconstruct (t.node x).acc e) p) := by
      intro x e he
      by_cases hx : p = x
      · subst hx
        refine Or.inr ?_
        rw [Function.update_self]
        exact he.reconstruct
      · exact Or.inl (Function.update_of_ne hx _ _)
    cases a with
    | restart x junk => exact hupd x _ (Or.inl ⟨rfl, rfl⟩)
    | restore x text junk => exact hupd x _ ((hc.cfg x).kept (hkept x))
    | _ => exact Or.inl rfl
  · intro k hk
    cases a with
    | restart x junk => exact (List.mem_filter.mp hk).1
    | _ => exact hk

/-- `proposer::run` starts with what its thread has read, however old that is. -/
theorem Inv.run {first : Str} {c : Cluster} (hc : Inv first c) {k : Ask} {t : State}
    (hk : k ∈ c.asks) (hok : Isolated c (.run k))
    (h : Paxos.step c.sys.pax (.run k.p k.inst k.cur k.newv) = some t) :
    Inv first (setPax { c with asks := c.asks.erase k } t) := by
  have horigin := hc.ask k hk
  have hlog : LogSafe c.sys.pax (.run k.p k.inst k.cur k.newv) := horigin.newv.1
  have hpax : PaxInv first t := by
    refine hc.pax.step hlog ?_ ?_ h
    · exact fun i _ => ⟨horigin.inst_le, fun _ => ⟨horigin.newv.2, hok⟩⟩
    · rintro p inst cur newv ⟨⟩
      exact horigin
  exact hc.of_kept hpax (kept_step hc.pax.clean hlog h) (fun x => Or.inl rfl)
    fun k' hk' => List.mem_of_mem_erase hk'

theorem Inv.step {first : Str} {c d : Cluster} {e : Event} (hc : Inv first c)
    (hok : Isolated c e) (hstep : step c e = some d) : Inv first d := by
  have hrefl : ∀ x, Kept (c.node x).acc (c.node x).acc := fun x => Kept.refl _
  cases step_move hstep with
  | paxos hrun h => exact hc.paxosStep hrun hok h
  | @ask e k he hk =>
      rcases he with ⟨newM, vid, rfl⟩ | ⟨m, rfl⟩
      · exact hc.of_add hok hstep
      · exact hc.of_removeWo hok hstep
  | run hk h => exact hc.run hk hok h
  | busy => exact hc.of_kept hc.pax hrefl (fun x => Or.inl rfl) fun k' => List.mem_of_mem_erase
  | @paxosCommit p inst value h =>
      have hpax : PaxInv first (c.committed p inst value).sys.pax :=
        hc.pax.setNode rfl rfl rfl (fun r hr => hr) fun iv hiv => List.mem_of_mem_erase hiv
      refine hc.of_kept hpax (fun x => ?_) (fun x => ?_) fun k hk => hk
      · rw [committed_node]
        exact Kept.refl _
      · rw [committed_cfg, committed_node]
        split
        case isTrue hx =>
          subst hx
          rcases hc.pax.upcall x _ h with ⟨h0, hle, hval⟩
          exact Or.inr (Or.inr ⟨h0, hle, by rw [getView, node, hval]⟩)
        case isFalse => exact Or.inl rfl
  | @abort b hb hup hfail =>
      have hpax : PaxInv first (c.killed b).sys.pax :=
        hc.pax.setNode rfl rfl rfl (fun r hr => by cases hr) fun iv hiv => by cases hiv
      refine hc.of_kept hpax (fun x => ?_) (fun x => Or.inl rfl) fun k hk => hk
      rw [killed_acc]
      exact Kept.refl _
  | wake | beat | gone _ => exact ⟨hc.pax, hc.cfg, hc.ask⟩

/-- The cluster is bootstrapped by one node, whose name is a word. -/
def Booted (c : Cluster) : Prop := ∃ first, IStream.IsWord first ∧ c = boot first

end Cluster

theorem boot_acc (first x : Str) :
    ((boot first).pax.node x).acc =
      if x = first then
        { fresh x [] with
          values := Function.update (fun _ => []) 1 x
          file := loginstance [] 1 x
          instanceH := 1 }
      else fresh x [] := by
  simp only [boot, acceptor_empty, Option.getD_some, decide_eq_true_eq]

theorem start_boot {first : Str} (hf : IStream.IsWord first) {i : UInt32} (hi : 2 ≤ i.toNat) :
    Start i (boot first).pax := by
  refine ⟨?_, rfl, rfl⟩
  intro x
  have hbelow : ∀ {n : UInt32}, n.toNat ≤ 1 → n < i := fun h =>
    UInt32.lt_iff_toNat_lt.mpr (by omega)
  by_cases hx : x = first
  · subst hx
    have hacc := boot_acc x x
    rw [if_pos rfl] at hacc
    have hempty : acceptor 0 true x x [] = some ((boot x).pax.node x).acc := by
      rw [hacc, acceptor_empty, if_pos rfl]
    rcases durable_acceptor_empty 0 true x (newline_notMem_of_isWord hf) hempty with
      ⟨hd, hme, hfirst⟩
    exact ⟨hd, hme, fun _ => hfirst rfl, hbelow (by rw [hacc]; exact Nat.le_refl 1),
      by rw [hacc]; rfl, by rw [hacc]; rfl, rfl, rfl⟩
  · have hacc := boot_acc first x
    rw [if_neg hx] at hacc
    refine ⟨by rw [hacc]; exact durable_fresh x, by rw [hacc]; rfl, ?_,
      hbelow (by rw [hacc]; exact Nat.zero_le 1), by rw [hacc]; rfl, by rw [hacc]; rfl, rfl, rfl⟩
    intro hfirst
    simp [boot, hx] at hfirst

theorem Cluster.inv_boot {first : Str} (hf : IStream.IsWord first) :
    Cluster.Inv first (Cluster.boot first) := by
  have hstart : Start 2 (Config.boot first).pax := start_boot hf (by decide)
  refine ⟨⟨hstart.wf, hstart.clean, fun i hi => (start_boot hf hi).slot, ?_, ?_, ?_, ?_, ?_⟩,
    ?_, ?_⟩
  · intro x
    change BaseOk first ((Config.boot first).pax.node x).acc
    rw [boot_acc]
    by_cases hx : x = first
    · rw [if_pos hx]
      exact ⟨by simp, fun _ => by simpa using hx⟩
    · rw [if_neg hx]
      exact ⟨rfl, fun h => absurd rfl h⟩
  · intro text hm
    cases hm
  · intro x iv hiv
    cases hiv
  · intro info hinfo
    cases hinfo
  · intro rid x a hm
    cases hm
  · intro p
    exact CfgOk.reconstruct (Or.inl ⟨rfl, rfl⟩)
  · intro k hk
    cases hk

theorem Cluster.inv_reach {c : Cluster} (h : Reach Cluster.Booted Cluster.step Cluster.Isolated c) :
    ∃ first, IStream.IsWord first ∧ Cluster.Inv first c := by
  refine Reach.invariant (I := fun c => ∃ first, IStream.IsWord first ∧ Cluster.Inv first c) ?_ ?_ h
  · rintro c ⟨first, hf, rfl⟩
    exact ⟨first, hf, Cluster.inv_boot hf⟩
  · rintro c e d ⟨first, hf, hc⟩ hok hstep
    exact ⟨first, hf, hc.step hok hstep⟩

/-! ## The chain of views -/

theorem exists_pred {j : UInt32} (h : 2 ≤ j.toNat) :
    ∃ i : UInt32, j = i + 1 ∧ j.toNat = i.toNat + 1 := by
  refine ⟨j - 1, (UInt32.sub_add_cancel j 1).symm, ?_⟩
  have hle : (1 : UInt32) ≤ j := UInt32.le_iff_toNat_le.mpr (by
    have : (1 : UInt32).toNat = 1 := rfl
    omega)
  rw [UInt32.toNat_sub_of_le j 1 hle]
  have : (1 : UInt32).toNat = 1 := rfl
  omega

/-- All proposers of `i + 1` use the view of `i`, as any node that has committed `i` holds it. -/
theorem PaxInv.cur_eq {first : Str} {s : State} (hs : PaxInv first s) {i : UInt32} {x : Str}
    (hagree : ∀ p, i ≤ (s.node p).acc.instanceH →
      (s.node p).acc.values i = (s.node x).acc.values i) :
    ∀ info ∈ s.runs, info.inst = i + 1 → info.cur = getView (s.node x).acc i := by
  intro info hinfo hinst
  rcases hs.run info hinfo with ⟨vid, m', _, hle, hvid, _, hcur, _⟩
  have heq : vid = i := by
    have h₁ : vid = vid + 1 - 1 := (UInt32.add_sub_cancel vid 1).symm
    have h₂ : i = i + 1 - 1 := (UInt32.add_sub_cancel i 1).symm
    rw [h₁, ← hvid]
    exact h₂ ▸ congrArg (· - 1) hinst
  subst heq
  exact hcur.trans (by rw [getView, getView, hagree _ hle])

/-- All nodes commit one value for every instance. -/
theorem PaxInv.agree {first : Str} {s : State} (hs : PaxInv first s) :
    ∀ (k : ℕ) (j : UInt32), j.toNat = k + 1 → ∀ x y, j ≤ (s.node x).acc.instanceH →
      j ≤ (s.node y).acc.instanceH → (s.node x).acc.values j = (s.node y).acc.values j := by
  intro k
  induction k with
  | zero =>
      intro j hj x y hx hy
      have hj1 : j = 1 := UInt32.toNat_inj.mp hj
      subst hj1
      have hne : ∀ z, 1 ≤ (s.node z).acc.instanceH → (s.node z).acc.instanceH ≠ 0 := by
        intro z hz h0
        rw [h0] at hz
        exact absurd hz (by decide)
      rw [(hs.base x).2 (hne x hx), (hs.base y).2 (hne y hy)]
  | succ k ih =>
      intro j hj x y hx hy
      have hj2 : 2 ≤ j.toNat := by omega
      rcases exists_pred hj2 with ⟨i, rfl, hi⟩
      have hbelow : ∀ z, i + 1 ≤ (s.node z).acc.instanceH → i ≤ (s.node z).acc.instanceH := by
        intro z hz
        have := UInt32.le_iff_toNat_le.mp hz
        exact UInt32.le_iff_toNat_le.mpr (by omega)
      have hcur := hs.cur_eq (x := x) fun p hp => ih i (by omega) p x hp (hbelow x hx)
      have hslot := hs.slot (i + 1) hj2
      exact values_eq_of_slot hslot hs.wf hcur ((hslot.held x).past (UInt32.le_iff_toNat_le.mp hx))
        ((hslot.held y).past (UInt32.le_iff_toNat_le.mp hy))

/-- The value a node commits for `i + 1` is a proposal over its view of `i`. -/
theorem PaxInv.next_value {first : Str} {s : State} (hs : PaxInv first s) {x : Str} {i : UInt32}
    (hi : i ≠ 0) (hx : i < (s.node x).acc.instanceH) :
    ∃ m', Proposal (getView (s.node x).acc i) m' ∧
      (s.node x).acc.values (i + 1) = value m' := by
  have hlt := UInt32.lt_iff_toNat_lt.mp hx
  have hi0 : i.toNat ≠ 0 := fun h => hi (UInt32.toNat_inj.mp h)
  have hsucc : (i + 1).toNat = i.toNat + 1 := by
    rw [UInt32.toNat_add]
    have := (s.node x).acc.instanceH.toNat_lt
    exact Nat.mod_eq_of_lt (show i.toNat + 1 < 4294967296 by omega)
  have hslot := hs.slot (i + 1) (by omega)
  have hchosen := (hslot.held x).past (by omega)
  have hagree : ∀ p, i ≤ (s.node p).acc.instanceH →
      (s.node p).acc.values i = (s.node x).acc.values i := by
    intro p hp
    refine hs.agree (i.toNat - 1) i (by omega) p x hp ?_
    exact UInt32.le_iff_toNat_le.mpr (by omega)
  rcases hchosen with ⟨rid, info, q, hinfo, hinst, hmaj, hq⟩
  have hne : q ≠ [] := by
    rintro rfl
    simp [majority_of_nil] at hmaj
  rcases List.exists_mem_of_ne_nil q hne with ⟨y, hy⟩
  rcases hs.proposal _ _ _ (hs.wf.msg _ (hq y hy)) with ⟨info', hinfo', hinst', hv⟩
  have hcur := hs.cur_eq hagree info' hinfo' hinst'
  rcases hs.run info' hinfo' with ⟨vid, m', _, _, _, _, _, hprop, _, hnewv⟩
  exact ⟨m', hcur ▸ hprop, hv.symm.trans hnewv⟩

/-- The view after `m` has one node appended or one node left out. -/
def OneNode (m m' : List Str) : Prop :=
  ∃ x, (x ∉ m ∧ m' = m ++ [x]) ∨ (x ∈ m ∧ m' = m.erase x)

theorem Proposal.oneNode {m m' : List Str} (hm : m.Nodup) (h : Proposal m m') :
    OneNode m m' ∧ m'.Nodup := by
  rcases h with ⟨x, _, hx, rfl⟩ | ⟨x, hx, rfl⟩
  · refine ⟨⟨x, Or.inl ⟨hx, rfl⟩⟩, ?_⟩
    rw [List.nodup_append]
    refine ⟨hm, by simp, ?_⟩
    intro a ha b hb heq
    have hbx : b = x := by simpa using hb
    exact hx (hbx ▸ heq ▸ ha)
  · refine ⟨⟨x, Or.inr ⟨hx, ?_⟩⟩, hm.filter _⟩
    rw [hm.erase_eq_filter]
    refine List.filter_congr ?_
    intro y _
    by_cases hyx : y = x <;> simp [hyx]

/-- Every committed view lists its nodes once, and the next one differs from it by one node. -/
theorem PaxInv.chain {first : Str} (hf : IStream.IsWord first) {s : State} (hs : PaxInv first s)
    (x : Str) : ∀ (k : ℕ) (i : UInt32), i.toNat = k + 1 → i ≤ (s.node x).acc.instanceH →
      (getView (s.node x).acc i).Nodup ∧ (i < (s.node x).acc.instanceH →
        OneNode (getView (s.node x).acc i) (getView (s.node x).acc (i + 1))) := by
  have hnext : ∀ i : UInt32, i ≠ 0 → i < (s.node x).acc.instanceH →
      (getView (s.node x).acc i).Nodup →
        OneNode (getView (s.node x).acc i) (getView (s.node x).acc (i + 1)) ∧
          (getView (s.node x).acc (i + 1)).Nodup := by
    intro i hi hx hnodup
    rcases hs.next_value hi hx with ⟨m', hprop, hval⟩
    have hview : getView (s.node x).acc (i + 1) = m' := by
      rw [getView, hval]
      exact members_value (hprop.isWord fun y hy => isWord_of_mem_members hy)
    rw [hview]
    exact hprop.oneNode hnodup
  have hpos : ∀ {i : UInt32} {k : ℕ}, i.toNat = k + 1 → i ≠ 0 := by
    rintro i k hi rfl
    have : (0 : UInt32).toNat = 0 := rfl
    omega
  intro k
  induction k with
  | zero =>
      intro i hi hle
      have hi1 : i = 1 := UInt32.toNat_inj.mp hi
      have hnodup : (getView (s.node x).acc i).Nodup := by
        subst hi1
        have hne : (s.node x).acc.instanceH ≠ 0 := by
          intro h0
          rw [h0] at hle
          exact absurd hle (by decide)
        rw [getView, (hs.base x).2 hne, members_name hf]
        simp
      exact ⟨hnodup, fun hlt => (hnext i (hpos hi) hlt hnodup).1⟩
  | succ k ih =>
      intro i hi hle
      rcases exists_pred (show 2 ≤ i.toNat by omega) with ⟨j, rfl, hj⟩
      have hle' := UInt32.le_iff_toNat_le.mp hle
      have hjlt : j < (s.node x).acc.instanceH := UInt32.lt_iff_toNat_lt.mpr (by omega)
      have hjle : j ≤ (s.node x).acc.instanceH := UInt32.le_iff_toNat_le.mpr (by omega)
      have hjk : j.toNat = k + 1 := by omega
      have hnodup := (hnext j (hpos hjk) hjlt (ih j hjk hjle).1).2
      exact ⟨hnodup, fun hlt => (hnext (j + 1) (hpos hi) hlt hnodup).1⟩

theorem OneNode.length_ne {m m' : List Str} (h : OneNode m m') : m'.length ≠ m.length := by
  rcases h with ⟨x, ⟨_, rfl⟩ | ⟨hx, rfl⟩⟩
  · simp
  · have hpos : 0 < m.length := List.length_pos_of_mem hx
    rw [List.length_erase_of_mem hx]
    omega

namespace Cluster

/-- Views evolve one node at a time, in every run that keeps instances apart. -/
theorem views_evolve {c : Cluster} (h : Reach Booted step Isolated c) (x : Str) (i : UInt32)
    (hi : 1 ≤ i) (hx : i < (c.node x).acc.instanceH) :
    OneNode (getView (c.node x).acc i) (getView (c.node x).acc (i + 1)) := by
  rcases inv_reach h with ⟨first, hf, hc⟩
  have hi' : 1 ≤ i.toNat := UInt32.le_iff_toNat_le.mp hi
  refine (hc.pax.chain hf x (i.toNat - 1) i (by omega) ?_).2 hx
  exact UInt32.le_iff_toNat_le.mpr (le_of_lt (UInt32.lt_iff_toNat_lt.mp hx))

/-! ## Schedules -/

instance decidableIsolated (c : Cluster) (e : Event) : Decidable (Isolated c e) :=
  match e with
  | .paxos (.handle (.preparereq _ x a)) =>
      inferInstanceAs (Decidable (a.inst.toNat ≤ (c.node x).acc.instanceH.toNat + 1))
  | .paxos (.handle (.acceptreq _ x a)) =>
      inferInstanceAs (Decidable (a.inst.toNat = (c.node x).acc.instanceH.toNat + 1))
  | .paxos (.restore x _ _) => inferInstanceAs (Decidable ((c.node x).acc.file = []))
  | .add p newM _ => inferInstanceAs (Decidable
      ((c.cfg p).myvid ≠ 0 ∧ newM ∉ c.view p ∧ (c.cfg p).myvid + 1 ≠ 0))
  | .removeWo p _ => inferInstanceAs (Decidable ((c.cfg p).myvid + 1 ≠ 0))
  | .run k => inferInstanceAs (Decidable ((setn (c.node k.p).acc.nH (c.node k.p).myN).n ≠ 0))
  | .paxos (.handle (.prepareres _ _ _ _)) | .paxos (.handle (.acceptres _ _ _ _ _))
  | .paxos (.handle (.decidereq _ _ _)) | .paxos (.handle (.logdump _))
  | .paxos (.run _ _ _ _) | .paxos (.call _) | .paxos (.skip _) | .paxos (.reply _ _)
  | .paxos (.endLoop _) | .paxos (.restart _ _) | .paxos (.dump _) | .paxosCommit _ _ _
  | .wake _ | .beat _ _ | .heartbeat _ | .lose _ => isTrue trivial

/-- Steps of the Paxos layer alone. -/
def paxosSteps (as : List Action) : List Event := as.map Event.paxos

/-- `p`, whose view `vid` is `cur`, adds `newM`, and the run starts at once. -/
def addRun (p newM : Str) (vid : UInt32) (cur : List Str) : List Event :=
  [.add p newM vid, .run { p := p, inst := vid + 1, cur := cur, newv := value (cur ++ [newM]) }]

/-- `p`, whose view `vid` is `cur`, removes `m`, and the run starts at once. -/
def removeRun (p m : Str) (vid : UInt32) (cur : List Str) : List Event :=
  [.removeWo p m,
    .run
      { p := p
        inst := vid + 1
        cur := cur
        newv := value (cur.filter fun x => decide (x ≠ m)) }]

/-- The bootstrap node `a` adds `b`: view 2 is decided by `a` alone. -/
def addB : List Event :=
  let n : PropT := { n := 1, m := ['a'] }
  let z : PropT := { n := 0, m := ['a'] }
  let v := value [['a'], ['b']]
  addRun ['a'] ['b'] 1 [['a']] ++
    paxosSteps (prepareAt ['a'] 0 ['a'] { inst := 2, n := n } z ++ [.endLoop ['a']] ++
      acceptAt ['a'] 0 ['a'] { inst := 2, n := n, v := v } ++ [.endLoop ['a']] ++
      decideAt ['a'] 0 ['a'] { inst := 2, v := v } ++ [.endLoop ['a']]) ++
    [.paxosCommit ['a'] 2 v]

/-- The log of `a` after `addB`. -/
def logOfA : Str :=
  lines
    [.done 1 ['a'], .propseen { n := 1, m := ['a'] },
      .accepted { n := 1, m := ['a'] } (value [['a'], ['b']]), .done 2 (value [['a'], ['b']])]

/-- `b` joins with the log of `a`; then `a` adds `c` and decides view 3. -/
def decideC : List Event :=
  let n : PropT := { n := 2, m := ['a'] }
  let z : PropT := { n := 0, m := ['a'] }
  let v := value [['a'], ['b'], ['c']]
  [.paxos (.dump ['a']), .paxos (.restore ['b'] logOfA 0)] ++
    addRun ['a'] ['c'] 2 [['a'], ['b']] ++
    paxosSteps (prepareAt ['a'] 1 ['a'] { inst := 3, n := n } z ++
      prepareAt ['a'] 1 ['b'] { inst := 3, n := n } z ++ [.endLoop ['a']] ++
      acceptAt ['a'] 1 ['a'] { inst := 3, n := n, v := v } ++
      acceptAt ['a'] 1 ['b'] { inst := 3, n := n, v := v } ++ [.endLoop ['a']] ++
      decideAt ['a'] 1 ['a'] { inst := 3, v := v })

/-- `b` misses the decide for view 3. -/
def addC : List Event :=
  decideC ++ paxosSteps [.skip ['a'], .endLoop ['a']] ++
    [.paxosCommit ['a'] 3 (value [['a'], ['b'], ['c']])]

/-- `a` adds `d`: `b`, still before instance 3, reports its pair of instance 3 for instance 4. -/
def addD : List Event :=
  let n : PropT := { n := 3, m := ['a'] }
  let z : PropT := { n := 0, m := ['a'] }
  let v := value [['a'], ['b'], ['c']]
  addRun ['a'] ['d'] 3 [['a'], ['b'], ['c']] ++
    paxosSteps (prepareAt ['a'] 2 ['a'] { inst := 4, n := n } z ++
      roundTrip ['a'] (.preparereq 2 ['b'] { inst := 4, n := n })
        (.prepareres 2 ['b'] { inst := 4, n := n }
          { oldinstance := false, accept := true, nA := { n := 2, m := ['a'] }, vA := v }) ++
      [.skip ['a'], .endLoop ['a']] ++
      acceptAt ['a'] 2 ['a'] { inst := 4, n := n, v := v } ++
      acceptAt ['a'] 2 ['b'] { inst := 4, n := n, v := v } ++ [.endLoop ['a']] ++
      decideAt ['a'] 2 ['a'] { inst := 4, v := v })

theorem booted_a : Booted (boot ['a']) := ⟨['a'], by decide, rfl⟩

theorem views_evolve_addC :
    ∃ c, Reach Booted step Isolated c ∧ 2 < (c.node ['a']).acc.instanceH ∧
      OneNode (getView (c.node ['a']).acc 2) (getView (c.node ['a']).acc (2 + 1)) := by
  have hrun : ∃ c, Reach Booted step Isolated c ∧ 2 < (c.node ['a']).acc.instanceH :=
    Reach.exists_of_runFrom (addB ++ addC) booted_a (by decide +kernel)
  rcases hrun with ⟨c, hreach, hlt⟩
  exact ⟨c, hreach, hlt, views_evolve hreach ['a'] 2 (by decide) hlt⟩

/-- The handlers alone do not keep instances apart: an acceptor that is behind answers for a
later instance with the pair it holds, and the old view is decided a second time. -/
theorem stale_pair_decided_again :
    ∃ c, Reach Booted step anyStep c ∧ 3 < (c.node ['a']).acc.instanceH ∧
      ¬ OneNode (getView (c.node ['a']).acc 3) (getView (c.node ['a']).acc 4) := by
  have hrun : ∃ c, Reach Booted step anyStep c ∧ 3 < (c.node ['a']).acc.instanceH ∧
      (getView (c.node ['a']).acc 4).length = (getView (c.node ['a']).acc 3).length :=
    Reach.exists_of_runFrom (addB ++ addC ++ addD) booted_a (by decide +kernel)
  rcases hrun with ⟨c, hreach, hlt, hlen⟩
  exact ⟨c, hreach, hlt, fun hone => hone.length_ne hlen⟩

end Cluster
end Config
end Yfs

import Yfs.Paxos.Messages
import Yfs.Paxos.Recovery

/-!
# Durability — every acceptor of the cluster can be restarted at any point

The log of every acceptor replays to its state in every run in which proposed values have no
newline and logs are restored only into acceptors that have logged nothing.  A restart then
loses nothing that an acceptor promised or accepted.
-/

namespace Yfs
namespace Paxos

open Lib

/-- The steps that keep logs readable. -/
def LogSafe (s : State) : Action → Prop
  | .run _ _ _ newv => '\n' ∉ newv
  | .restore x _ _ => (s.node x).acc.file = []
  | _ => True

/-! ## Names and values -/

/-- The values an acceptor holds have no newline. -/
def Plain (acc : Acceptor) : Prop :=
  '\n' ∉ acc.vA ∧ ∀ inst, '\n' ∉ acc.values inst

/-- Names in the message are words and values in it have no newline. -/
def Msg.Tidy : Msg → Prop
  | .preparereq _ _ a => IStream.IsWord a.n.m
  | .prepareres _ _ _ res => '\n' ∉ res.vA
  | .acceptreq _ _ a => IStream.IsWord a.n.m ∧ '\n' ∉ a.v
  | .acceptres _ _ _ _ _ => True
  | .decidereq _ _ _ => True
  | .logdump _ => True

def Phase.Clean : Phase → Prop
  | .prepare _ _ maxV => '\n' ∉ maxV
  | .accept _ v => '\n' ∉ v
  | .decide _ => True

structure NodeTidy (x : Str) (nd : Node) : Prop where
  plain : Plain nd.acc
  myN : nd.myN.m = x
  run : ∀ r, nd.run = some r → IStream.IsWord x ∧ '\n' ∉ r.newv ∧ r.phase.Clean

structure Tidy (s : State) : Prop where
  node : ∀ x, NodeTidy x (s.node x)
  msg : ∀ m ∈ s.net, m.Tidy

theorem Tidy.setNode {s : State} (hs : Tidy s) {x : Str} {nd : Node} (h : NodeTidy x nd) :
    Tidy (s.setNode x nd) := by
  refine ⟨?_, hs.msg⟩
  intro y
  by_cases hy : y = x
  · subst hy
    rw [State.setNode_node_self]
    exact h
  · rw [State.setNode_node_of_ne _ _ hy]
    exact hs.node y

theorem Tidy.send {s : State} (hs : Tidy s) {m : Msg} (h : m.Tidy) : Tidy (s.send m) := by
  refine ⟨hs.node, ?_⟩
  intro m' hm'
  rcases List.mem_cons.mp hm' with rfl | hin
  · exact h
  · exact hs.msg m' hin

theorem newline_notMem_preparereq {s : Acceptor} (hs : Plain s) (a : PrepareArg) :
    '\n' ∉ (preparereq s a).2.vA := by
  by_cases hold : a.inst ≤ s.instanceH
  · simpa [preparereq, hold] using hs.2 a.inst
  · by_cases hgt : a.n.gt s.nH = true
    · simpa [preparereq, hold, hgt] using hs.1
    · simp [preparereq, hold, hgt]

theorem NodeTidy.endLoop {x : Str} {nd : Node} (h : NodeTidy x nd) {r r' : Run}
    (hrun : nd.run = some r) (hr : r.endLoop = some r') :
    IStream.IsWord x ∧ '\n' ∉ r'.newv ∧ r'.phase.Clean := by
  rcases h.run r hrun with ⟨hx, hnewv, hph⟩
  cases hphase : r.phase with
  | prepare accepts maxN maxV =>
      rw [hphase] at hph
      simp only [Run.endLoop, hphase] at hr
      split at hr
      · cases hr
        refine ⟨hx, hnewv, ?_⟩
        have hv : '\n' ∉ (if accepts = [] then [] else maxV) := by
          split
          · simp
          · exact hph
        simp only [Phase.Clean]
        generalize (if accepts = [] then [] else maxV) = v at hv ⊢
        split
        · exact hnewv
        · exact hv
      · cases hr
  | accept accepts v =>
      simp only [Run.endLoop, hphase] at hr
      split at hr
      · cases hr
        exact ⟨hx, hnewv, trivial⟩
      · cases hr
  | decide v => simp [Run.endLoop, hphase] at hr

theorem NodeTidy.request {x : Str} {nd : Node} (h : NodeTidy x nd) {r : Run}
    (hrun : nd.run = some r) (y : Str) : (r.request nd.myN y).Tidy := by
  rcases h.run r hrun with ⟨hx, _, hph⟩
  have hname : IStream.IsWord nd.myN.m := h.myN ▸ hx
  cases hphase : r.phase with
  | prepare accepts maxN maxV =>
      simp only [Run.request, hphase]
      exact hname
  | accept accepts v =>
      rw [hphase] at hph
      simp only [Run.request, hphase]
      exact ⟨hname, hph⟩
  | decide v =>
      simp only [Run.request, hphase]
      trivial

/-- The step rule for names and values: a new run proposes a value without a newline, and what
the acceptors hold afterwards has none. -/
theorem Tidy.step_of {s t : State} {a : Action} (hs : Tidy s)
    (hnew : ∀ p inst cur newv, a = .run p inst cur newv → '\n' ∉ newv)
    (hplain : ∀ x, Plain (t.node x).acc) (h : step s a = some t) : Tidy t := by
  -- a node that changes its run only
  have hset : ∀ {p : Str} {n : PropT} {run : Option Run}, n.m = p →
      (∀ r, run = some r → IStream.IsWord p ∧ '\n' ∉ r.newv ∧ r.phase.Clean) →
      Tidy (s.setNode p { s.node p with myN := n, run := run }) :=
    fun hn hrun => hs.setNode ⟨(hs.node _).plain, hn, hrun⟩
  -- a node that changes its acceptor and keeps its run
  have hacc : ∀ {x : Str} {acc : Acceptor} (upcalls : List (UInt32 × Str)), Plain acc →
      Tidy (s.setNode x { s.node x with acc := acc, upcalls := upcalls }) :=
    fun _ hp => hs.setNode ⟨hp, (hs.node _).myN, (hs.node _).run⟩
  cases step_move h with
  | @run p inst cur newv hp hup hrun =>
      have hn : (setn (s.node p).acc.nH (s.node p).myN).m = p := (hs.node p).myN
      refine ⟨(hset hn ?_).node, hs.msg⟩
      intro r hr
      cases hr
      exact ⟨hp, hnew p inst cur newv rfl, by simp [Phase.Clean]⟩
  | @call p x r rest hrun htodo =>
      refine (hset (hs.node p).myN ?_).send ((hs.node p).request hrun x)
      intro r' hr'
      cases hr'
      exact (hs.node p).run r hrun
  | @skip p x r rest hrun htodo =>
      refine hset (hs.node p).myN ?_
      intro r' hr'
      cases hr'
      exact (hs.node p).run r hrun
  | @replyOld p x r rest accepts maxN maxV a res hrun htodo hphase hm hold =>
      have hp := hplain p
      rw [State.setNode_node_self] at hp
      exact hs.setNode ⟨hp, (hs.node p).myN, fun r' hr' => by cases hr'⟩
  | @replyPrepare p x r rest accepts maxN maxV a res hrun htodo hphase hm hold =>
      refine hset (hs.node p).myN ?_
      intro r' hr'
      cases hr'
      rcases (hs.node p).run r hrun with ⟨hx, hnewv, hph⟩
      have hv : '\n' ∉ res.vA := hs.msg _ hm
      rw [hphase] at hph
      refine ⟨hx, hnewv, ?_⟩
      simp only [Run.prepareReply]
      split
      · split
        · exact hv
        · exact hph
      · exact hph
  | @replyAccept p x r rest accepts v a ret ok hrun htodo hphase hm =>
      refine hset (hs.node p).myN ?_
      intro r' hr'
      cases hr'
      rcases (hs.node p).run r hrun with ⟨hx, hnewv, hph⟩
      rw [hphase] at hph
      exact ⟨hx, hnewv, hph⟩
  | @endLoop p r hrun htodo =>
      exact hset (hs.node p).myN fun r' hr' => (hs.node p).endLoop hrun hr'
  | @prepare rid x a hm =>
      have hp := hplain x
      rw [State.send_node, State.setNode_node_self] at hp
      exact (hacc (s.node x).upcalls hp).send (newline_notMem_preparereq (hs.node x).plain a)
  | @accept rid x a hm =>
      have hp := hplain x
      rw [State.send_node, State.setNode_node_self] at hp
      exact (hacc (s.node x).upcalls hp).send trivial
  | @decide rid x a r hm hr =>
      have hp := hplain x
      rw [State.setNode_node_self] at hp
      exact hacc _ hp
  | @abort x act hact =>
      exact hs.setNode ⟨(hs.node x).plain, (hs.node x).myN, fun r hr => by cases hr⟩
  | @restart x junk acc hacc' =>
      have hp := hplain x
      rw [State.setNode_node_self] at hp
      exact hs.setNode ⟨hp, rfl, fun r hr => by cases hr⟩
  | @dump x => exact hs.send trivial
  | @restore x text junk acc hm hacc' =>
      have hp := hplain x
      rw [State.setNode_node_self] at hp
      exact hacc (s.node x).upcalls hp

/-! ## Logs -/

/-- As `Msg.Tidy`, and a dump is the log of an acceptor that could be rebuilt from it. -/
def Msg.Clean : Msg → Prop
  | .preparereq _ _ a => IStream.IsWord a.n.m
  | .prepareres _ _ _ res => '\n' ∉ res.vA
  | .acceptreq _ _ a => IStream.IsWord a.n.m ∧ '\n' ∉ a.v
  | .acceptres _ _ _ _ _ => True
  | .decidereq _ _ _ => True
  | .logdump text => ∃ d, Durable d ∧ d.file = text

/-- What a node needs to be restarted. -/
structure NodeClean (x : Str) (nd : Node) : Prop where
  durable : Durable nd.acc
  me : nd.acc.me = x
  myN : nd.myN.m = x
  first : nd.first = true → nd.acc.instanceH ≠ 0
  run : ∀ r, nd.run = some r → IStream.IsWord x ∧ '\n' ∉ r.newv ∧ r.phase.Clean

structure Clean (s : State) : Prop where
  node : ∀ x, NodeClean x (s.node x)
  msg : ∀ m ∈ s.net, m.Clean

theorem Clean.setNode {s : State} (hs : Clean s) {x : Str} {nd : Node} (h : NodeClean x nd) :
    Clean (s.setNode x nd) := by
  refine ⟨?_, hs.msg⟩
  intro y
  by_cases hy : y = x
  · subst hy
    rw [State.setNode_node_self]
    exact h
  · rw [State.setNode_node_of_ne _ _ hy]
    exact hs.node y

theorem Clean.tidy {s : State} (hs : Clean s) : Tidy s := by
  refine ⟨fun x => ⟨newline_notMem (hs.node x).durable, (hs.node x).myN, (hs.node x).run⟩, ?_⟩
  intro m hm
  have := hs.msg m hm
  cases m with
  | logdump text => trivial
  | _ => exact this

/-- A restarted node gets back the state it had, its proposer starts from round 0. -/
theorem NodeClean.restart {x : Str} {nd : Node} (h : NodeClean x nd) {junk : UInt32}
    {acc : Acceptor} (hacc : acceptor junk nd.first x nd.value nd.acc.file = some acc) :
    SameState acc nd.acc ∧
      NodeClean x
        { nd with
          acc := acc
          myN := { n := 0, m := x }
          run := none
          up := true
          upcalls := [] } := by
  rcases acceptor_of_durable h.durable junk h.first nd.value with ⟨r, hr, hsame, hme, hfile⟩
  rw [h.me, hacc] at hr
  cases hr
  refine ⟨hsame, h.durable.of_sameState hsame hfile, hme.trans h.me, rfl, ?_, ?_⟩
  · intro hf
    rw [hsame.instanceH]
    exact h.first hf
  · intro r hr
    cases hr

theorem NodeClean.restore {x : Str} {nd : Node} (h : NodeClean x nd) (hnil : nd.acc.file = [])
    {d acc : Acceptor} (hd : Durable d) {junk : UInt32}
    (hacc : Paxos.restore junk nd.acc d.file = some acc) :
    SameState acc d ∧ NodeClean x { nd with acc := acc } := by
  rcases restore_of_durable h.durable hnil hd junk with ⟨r, hr, hsame, hme, hdur⟩
  rw [hacc] at hr
  cases hr
  refine ⟨hsame, hdur, hme.trans h.me, h.myN, ?_, h.run⟩
  intro hf
  -- a bootstrap node has logged its first view, so its log is not empty
  exact absurd (sameState_fresh_of_file_nil h.durable hnil).instanceH.symm (h.first hf)

/-- What is left of `NodeClean` when names and values are taken care of. -/
structure LogOk (x : Str) (nd : Node) : Prop where
  durable : Durable nd.acc
  me : nd.acc.me = x
  first : nd.first = true → nd.acc.instanceH ≠ 0

/-- A handler call keeps the log durable. -/
theorem LogOk.exec {x : Str} {nd nd' : Node} (h : LogOk x nd) {o : Op} (ho : o.Wf)
    (hacc : o.exec nd.acc = some nd'.acc) (hfirst : nd'.first = nd.first) : LogOk x nd' := by
  rcases durable_step ho h.durable hacc with ⟨hd, hme, h0⟩
  exact ⟨hd, hme.trans h.me, fun hf => h0 (h.first (hfirst ▸ hf))⟩

theorem LogOk.keep {x : Str} {nd nd' : Node} (h : LogOk x nd) (hacc : nd'.acc = nd.acc)
    (hfirst : nd'.first = nd.first) : LogOk x nd' :=
  ⟨hacc ▸ h.durable, hacc ▸ h.me, fun hf => hacc ▸ h.first (hfirst ▸ hf)⟩

theorem Clean.logOk {s : State} (hs : Clean s) (x : Str) : LogOk x (s.node x) :=
  ⟨(hs.node x).durable, (hs.node x).me, (hs.node x).first⟩

theorem logOk_step {s t : State} {a : Action} (hs : Clean s)
    (hrestore : ∀ x text junk acc, a = .restore x text junk → Msg.logdump text ∈ s.net →
      restore junk (s.node x).acc text = some acc → LogOk x { s.node x with acc := acc })
    (h : step s a = some t) (x : Str) : LogOk x (t.node x) := by
  have hlog := hs.logOk x
  have hfirst := (first_step h x).1
  cases acc_step h x with
  | keep hacc => exact hlog.keep hacc hfirst
  | @prepare rid a hm hacc =>
      exact hlog.exec (o := .preparereq a) (hs.msg _ hm) (congrArg some hacc.symm) hfirst
  | @accept rid a hm hacc =>
      exact hlog.exec (o := .acceptreq a) (hs.msg _ hm) (congrArg some hacc.symm) hfirst
  | @decide rid a r hm hr hacc =>
      rcases decidereq_cases hr with ⟨_, hva, rfl⟩ | ⟨_, rfl⟩
      · -- the value that is committed is the accepted one
        have hv : '\n' ∉ a.v := hva ▸ (newline_notMem hlog.durable).1
        exact hlog.exec (o := .commit a.inst a.v) hv (congrArg some hacc.symm) hfirst
      · exact hlog.keep hacc hfirst
  | @commit r y a res hrun hm hold hacc =>
      exact hlog.exec (o := .commit r.inst res.vA) (hs.msg _ hm) (congrArg some hacc.symm) hfirst
  | rebuilt hact hacc =>
      have hnode := ((hs.node x).restart hacc).2
      exact ⟨hnode.durable, hnode.me, fun hf => hnode.first (hfirst ▸ hf)⟩
  | @restored text junk hact hm hacc =>
      exact (hrestore x text junk _ hact hm hacc).keep rfl hfirst

/-- The step rule for `Clean`: a new run proposes a value without a newline, and the log of a
node that restores one is durable afterwards. -/
theorem Clean.step_of {s t : State} {a : Action} (hs : Clean s)
    (hnew : ∀ p inst cur newv, a = .run p inst cur newv → '\n' ∉ newv)
    (hrestore : ∀ x text junk acc, a = .restore x text junk → Msg.logdump text ∈ s.net →
      restore junk (s.node x).acc text = some acc → LogOk x { s.node x with acc := acc })
    (h : step s a = some t) : Clean t := by
  have hlog := logOk_step hs hrestore h
  have htidy := hs.tidy.step_of hnew (fun x => newline_notMem (hlog x).durable) h
  refine ⟨?_, ?_⟩
  · intro x
    exact ⟨(hlog x).durable, (hlog x).me, (htidy.node x).myN, (hlog x).first, (htidy.node x).run⟩
  · intro m hm
    have hm' := htidy.msg m hm
    cases m with
    | logdump text =>
        rcases logdump_step h hm with hold | ⟨x, rfl⟩
        · exact hs.msg _ hold
        · exact ⟨_, (hs.node x).durable, (dump_of_durable (hs.node x).durable).symm⟩
    | _ => exact hm'

theorem Clean.step {s t : State} {a : Action} (hs : Clean s) (hok : LogSafe s a)
    (h : step s a = some t) : Clean t := by
  refine hs.step_of ?_ ?_ h
  · rintro p inst cur newv rfl
    exact hok
  · rintro x text junk acc rfl hm hacc
    rcases hs.msg _ hm with ⟨d, hd, rfl⟩
    have hnode := ((hs.node x).restore hok hd hacc).2
    exact ⟨hnode.durable, hnode.me, hnode.first⟩

/-! ## What a step does to an acceptor -/

theorem exec_instanceH_le {s t : Acceptor} {o : Op} (h : o.exec s = some t) :
    s.instanceH.toNat ≤ t.instanceH.toNat := by
  have hcommit : ∀ inst value, s.instanceH.toNat ≤ (commitWo s inst value).1.instanceH.toNat := by
    intro inst value
    by_cases hlt : s.instanceH < inst
    · rw [commitWo_of_lt hlt]
      exact le_of_lt (UInt32.lt_iff_toNat_lt.mp hlt)
    · rw [commitWo_of_le (UInt32.not_lt.mp hlt)]
  cases o with
  | preparereq a =>
      cases h
      rcases preparereq_cases s a with ⟨_, h, _⟩ | ⟨_, _, h, _⟩ | ⟨_, _, h, _⟩ <;> rw [h]
  | acceptreq a =>
      cases h
      rcases acceptreq_cases s a with ⟨_, h⟩ | ⟨_, h⟩ <;> rw [h]
  | decidereq a =>
      rcases Option.map_eq_some_iff.mp h with ⟨r, hr, rfl⟩
      rcases decidereq_cases hr with ⟨_, _, rfl⟩ | ⟨_, rfl⟩
      · exact hcommit a.inst a.v
      · exact le_refl _
  | commit inst value =>
      cases h
      exact hcommit inst value

/-- The promised number changes to that of a prepare, or falls back to 0. -/
theorem exec_nH {s t : Acceptor} {o : Op} (h : o.exec s = some t) :
    t.nH.n = s.nH.n ∨ t.nH.n = 0 ∨ ∃ a, o = .preparereq a ∧ t.nH = a.n := by
  have hcommit : ∀ inst value, (commitWo s inst value).1.nH.n = s.nH.n ∨
      (commitWo s inst value).1.nH.n = 0 := by
    intro inst value
    by_cases hlt : s.instanceH < inst
    · rw [commitWo_of_lt hlt]
      exact Or.inr rfl
    · rw [commitWo_of_le (UInt32.not_lt.mp hlt)]
      exact Or.inl rfl
  cases o with
  | preparereq a =>
      cases h
      rcases preparereq_cases s a with ⟨_, h, _⟩ | ⟨_, _, h, _⟩ | ⟨_, _, h, _⟩
      · exact Or.inl (by rw [h])
      · exact Or.inr (Or.inr ⟨a, rfl, by rw [h]⟩)
      · exact Or.inl (by rw [h])
  | acceptreq a =>
      cases h
      rcases acceptreq_cases s a with ⟨_, h⟩ | ⟨_, h⟩ <;> exact Or.inl (by rw [h])
  | decidereq a =>
      rcases Option.map_eq_some_iff.mp h with ⟨r, hr, rfl⟩
      rcases decidereq_cases hr with ⟨_, _, rfl⟩ | ⟨_, rfl⟩
      · rcases hcommit a.inst a.v with h | h
        · exact Or.inl h
        · exact Or.inr (Or.inl h)
      · exact Or.inl rfl
  | commit inst value =>
      cases h
      rcases hcommit inst value with h | h
      · exact Or.inl h
      · exact Or.inr (Or.inl h)

/-- Where a call on the acceptor of `x` comes from. -/
def Op.From (s : State) (x : Str) : Op → Prop
  | .preparereq a => ∃ rid, Msg.preparereq rid x a ∈ s.net
  | .acceptreq a => ∃ rid, Msg.acceptreq rid x a ∈ s.net
  | .decidereq a => ∃ rid, Msg.decidereq rid x a ∈ s.net
  | .commit inst value =>
      ∃ r y a res, (s.node x).run = some r ∧ r.inst = inst ∧
        Msg.prepareres r.rid y a res ∈ s.net ∧ res.oldinstance = true ∧ value = res.vA

/-- How the acceptor of `x` may change in a step. -/
inductive AccMove (s : State) (x : Str) (act : Action) (acc : Acceptor) : Prop
  | keep (h : acc = (s.node x).acc)
  | exec {o : Op} (h : o.exec (s.node x).acc = some acc) (hreq : o.From s x)
  | recover (h : SameState acc (s.node x).acc)
  | restored {text : Str} {junk : UInt32} (hact : act = .restore x text junk)
      (hm : Msg.logdump text ∈ s.net) (hnil : (s.node x).acc.file = [])
      (h : ∀ d, Durable d → d.file = text → SameState acc d)

theorem step_acc {s t : State} {a : Action} (hc : Clean s) (hlog : LogSafe s a)
    (h : step s a = some t) (x : Str) : AccMove s x a (t.node x).acc := by
  cases acc_step h x with
  | keep hacc => exact .keep hacc
  | @prepare rid a hm hacc =>
      exact .exec (o := .preparereq a) (congrArg some hacc.symm) ⟨rid, hm⟩
  | @accept rid a hm hacc => exact .exec (o := .acceptreq a) (congrArg some hacc.symm) ⟨rid, hm⟩
  | @decide rid a r hm hr hacc =>
      refine .exec (o := .decidereq a) ?_ ⟨rid, hm⟩
      simp [Op.exec, hr, hacc]
  | @commit r y a res hrun hm hold hacc =>
      exact .exec (o := .commit r.inst res.vA) (congrArg some hacc.symm)
        ⟨r, y, a, res, hrun, rfl, hm, hold, rfl⟩
  | rebuilt hact hacc => exact .recover ((hc.node x).restart hacc).1
  | @restored text junk hact hm hacc =>
      subst hact
      refine .restored rfl hm hlog ?_
      rintro d hd rfl
      exact ((hc.node x).restore hlog hd hacc).1

end Paxos
end Yfs

import Yfs.Paxos.Durability

/-!
# Slot — one instance of Paxos, seen through everything else that goes on

Fix an instance `i`.  An acceptor is behind `i`, at `i` (`i` is the next instance it can commit)
or past `i`.  `SlotSafe i` is what the handlers do not check: that a prepare or an accept is
handled by an acceptor that is at the instance the message is about.  Under it,

* an acceptor that is behind has promised and accepted nothing for `i`;
* an acceptor that is at `i` is bound by `nH` to what it promised, and `(nA, vA)` is the last
  proposal for `i` that it accepted;
* an acceptor that is past `i` holds a chosen value for `i`.
-/

namespace Yfs
namespace Paxos

open Lib

/-- The steps that respect instance `i`.  A run starts at an instance that its caller's acceptor
has reached, with a proposal that is not empty and a number that has not wrapped around to 0. -/
def SlotSafe (i : UInt32) (s : State) : Action → Prop
  | .run p inst _ newv =>
      inst.toNat ≤ (s.node p).acc.instanceH.toNat + 1 ∧
        (inst = i → newv ≠ [] ∧ (setn (s.node p).acc.nH (s.node p).myN).n ≠ 0)
  | .handle (.preparereq _ x a) => a.inst = i → i.toNat ≤ (s.node x).acc.instanceH.toNat + 1
  | .handle (.acceptreq _ x a) => a.inst = i ↔ (s.node x).acc.instanceH.toNat + 1 = i.toNat
  | _ => True

/-! ## The invariant -/

/-- `x` has neither promised nor accepted anything for `i`. -/
def Untouched (s : State) (i : UInt32) (x : Str) : Prop :=
  (∀ rid n nA vA, ¬ Promise s rid x { inst := i, n := n } nA vA) ∧
    ∀ rid n v, ¬ Voted s rid x { inst := i, n := n, v := v }

/-- What `x` promised for `i` is bounded by `nH`, what it accepted by `nA`. -/
def Bounded (s : State) (i : UInt32) (x : Str) (acc : Acceptor) : Prop :=
  (∀ rid n nA vA, Promise s rid x { inst := i, n := n } nA vA → acc.nH.n ≠ 0 ∧ n ≤ acc.nH) ∧
    ∀ rid n v, Voted s rid x { inst := i, n := n, v := v } → acc.nA.n ≠ 0 ∧ n ≤ acc.nA

/-- `v` was proposed for `i` under the number `n`. -/
def Proposed (s : State) (i : UInt32) (n : PropT) (v : Str) : Prop :=
  ∃ rid y, Msg.acceptreq rid y { inst := i, n := n, v := v } ∈ s.net

/-- The accepted pair is a proposal for `i`, and was promised. -/
def PairOk (s : State) (i : UInt32) (acc : Acceptor) : Prop :=
  (acc.nA.n = 0 ∧ acc.vA = []) ∨
    (acc.nA.n ≠ 0 ∧ acc.nH.n ≠ 0 ∧ acc.nA ≤ acc.nH ∧ Proposed s i acc.nA acc.vA)

/-- What an acceptor's state says about `i`, whoever holds that state. -/
structure Held (s : State) (i : UInt32) (acc : Acceptor) : Prop where
  pair : acc.instanceH.toNat + 1 = i.toNat → PairOk s i acc
  past : i.toNat ≤ acc.instanceH.toNat → Chosen s i (acc.values i)

structure Slot (i : UInt32) (s : State) : Prop where
  held : ∀ x, Held s i (s.node x).acc
  behind : ∀ x, (s.node x).acc.instanceH.toNat + 1 < i.toNat → Untouched s i x
  bounded : ∀ x, (s.node x).acc.instanceH.toNat + 1 = i.toNat → Bounded s i x (s.node x).acc
  old : ∀ rid x a res, Msg.prepareres rid x a res ∈ s.net → a.inst = i →
    res.oldinstance = true → Chosen s i res.vA
  report : ∀ rid x n nA vA, Promise s rid x { inst := i, n := n } nA vA →
    (nA.n = 0 ∧ vA = []) ∨ (nA.n ≠ 0 ∧ nA < n ∧ Proposed s i nA vA)
  promise_inj : ∀ rid rid' x n nA vA nA' vA', Promise s rid x { inst := i, n := n } nA vA →
    Promise s rid' x { inst := i, n := n } nA' vA' → rid = rid' ∧ nA = nA' ∧ vA = vA'
  promise_vote : ∀ rid rid' x n nA vA n' v, Promise s rid x { inst := i, n := n } nA vA →
    Voted s rid' x { inst := i, n := n', v := v } → n' < n → nA.n ≠ 0 ∧ n' ≤ nA
  inst_le : ∀ p r, (s.node p).run = some r →
    r.inst.toNat ≤ (s.node p).acc.instanceH.toNat + 1
  started : ∀ (k : ℕ) info, s.runs[k]? = some info → info.inst = i →
    info.n.n ≠ 0 ∧ info.newv ≠ []
  dump : ∀ text, Msg.logdump text ∈ s.net → ∃ d, Durable d ∧ d.file = text ∧ Held s i d

theorem Proposed.mono {s t : State} (hg : Grows s t) {i : UInt32} {n : PropT} {v : Str}
    (h : Proposed s i n v) : Proposed t i n v := by
  rcases h with ⟨rid, y, hm⟩
  exact ⟨rid, y, hg.net _ hm⟩

theorem PairOk.mono {s t : State} (hg : Grows s t) {i : UInt32} {acc : Acceptor}
    (h : PairOk s i acc) : PairOk t i acc := by
  rcases h with h0 | ⟨hA, hH, hle, hp⟩
  · exact Or.inl h0
  · exact Or.inr ⟨hA, hH, hle, hp.mono hg⟩

theorem Held.mono {s t : State} (hg : Grows s t) {i : UInt32} {acc : Acceptor}
    (h : Held s i acc) : Held t i acc :=
  ⟨fun hi => (h.pair hi).mono hg, fun hi => (h.past hi).mono hg⟩

/-- What a state says about `i` is kept by a restart. -/
theorem Held.of_sameState {s : State} {i : UInt32} {r acc : Acceptor} (h : Held s i acc)
    (hsame : SameState r acc) : Held s i r := by
  refine ⟨?_, ?_⟩
  · intro hi
    rw [hsame.instanceH] at hi
    rcases h.pair hi with ⟨hA, hv⟩ | ⟨hA, hH, hle, hp⟩
    · exact Or.inl ⟨hsame.nA_n.trans hA, hsame.vA.trans hv⟩
    · refine Or.inr ?_
      rw [hsame.nA_eq hA, hsame.nH_eq hH, hsame.vA]
      exact ⟨hA, hH, hle, hp⟩
  · intro hi
    rw [hsame.instanceH] at hi
    rw [hsame.values]
    exact h.past hi

theorem Bounded.of_sameState {s : State} {i : UInt32} {x : Str} {r acc : Acceptor}
    (h : Bounded s i x acc) (hsame : SameState r acc) : Bounded s i x r := by
  refine ⟨?_, ?_⟩
  · intro rid n nA vA hp
    rcases h.1 rid n nA vA hp with ⟨hH, hle⟩
    rw [hsame.nH_eq hH]
    exact ⟨hH, hle⟩
  · intro rid n v hv
    rcases h.2 rid n v hv with ⟨hA, hle⟩
    rw [hsame.nA_eq hA]
    exact ⟨hA, hle⟩

theorem Untouched.bounded {s : State} {i : UInt32} {x : Str} (h : Untouched s i x)
    (acc : Acceptor) : Bounded s i x acc :=
  ⟨fun rid n nA vA hp => absurd hp (h.1 rid n nA vA), fun rid n v hv => absurd hv (h.2 rid n v)⟩

/-! ## Step rules -/

/-- The rule for a step that sends nothing and changes the node `x` only. -/
theorem Slot.setNode {i : UInt32} {s : State} (hs : Slot i s) {x : Str} {nd : Node}
    (hheld : Held s i nd.acc)
    (hbehind : nd.acc.instanceH.toNat + 1 < i.toNat → Untouched s i x)
    (hbounded : nd.acc.instanceH.toNat + 1 = i.toNat → Bounded s i x nd.acc)
    (hrun : ∀ r, nd.run = some r → r.inst.toNat ≤ nd.acc.instanceH.toNat + 1) :
    Slot i (s.setNode x nd) := by
  have hg : Grows s (s.setNode x nd) := grows_of_eq rfl rfl
  refine ⟨?_, ?_, ?_, hs.old, hs.report, hs.promise_inj, hs.promise_vote, ?_, hs.started, ?_⟩
  · intro y
    by_cases hy : y = x
    · subst hy
      rw [State.setNode_node_self]
      exact hheld.mono hg
    · rw [State.setNode_node_of_ne _ _ hy]
      exact (hs.held y).mono hg
  · intro y
    by_cases hy : y = x
    · subst hy
      rw [State.setNode_node_self]
      exact hbehind
    · rw [State.setNode_node_of_ne _ _ hy]
      exact hs.behind y
  · intro y
    by_cases hy : y = x
    · subst hy
      rw [State.setNode_node_self]
      exact hbounded
    · rw [State.setNode_node_of_ne _ _ hy]
      exact hs.bounded y
  · intro y
    by_cases hy : y = x
    · subst hy
      rw [State.setNode_node_self]
      exact hrun
    · rw [State.setNode_node_of_ne _ _ hy]
      exact hs.inst_le y
  · intro text hm
    rcases hs.dump text hm with ⟨d, hd, hfile, hheld'⟩
    exact ⟨d, hd, hfile, hheld'.mono hg⟩

/-- The node `x` keeps its acceptor and changes its proposer. -/
theorem Slot.setRun {i : UInt32} {s : State} (hs : Slot i s) {x : Str} {nd : Node}
    (hacc : nd.acc = (s.node x).acc)
    (hrun : ∀ r, nd.run = some r → r.inst.toNat ≤ (s.node x).acc.instanceH.toNat + 1) :
    Slot i (s.setNode x nd) := by
  refine hs.setNode ?_ ?_ ?_ ?_
  · rw [hacc]
    exact hs.held x
  · rw [hacc]
    exact hs.behind x
  · rw [hacc]
    exact hs.bounded x
  · rw [hacc]
    exact hrun

/-- The proposer of `x` goes on with its run, or gives it up. -/
theorem Slot.keepRun {i : UInt32} {s : State} (hs : Slot i s) {x : Str} {nd : Node} {r : Run}
    (hrun : (s.node x).run = some r) (hacc : nd.acc = (s.node x).acc)
    (hinst : ∀ r', nd.run = some r' → r'.inst = r.inst) : Slot i (s.setNode x nd) := by
  refine hs.setRun hacc ?_
  intro r' hr'
  rw [hinst r' hr']
  exact hs.inst_le x r hrun

/-- A promise that `x`, being at `i`, may send. -/
structure PromiseOk (s : State) (i : UInt32) (x : Str) (n nA : PropT) (vA : Str) : Prop where
  next : (s.node x).acc.instanceH.toNat + 1 = i.toNat
  bound : (s.node x).acc.nH.n ≠ 0 ∧ n ≤ (s.node x).acc.nH
  report : (nA.n = 0 ∧ vA = []) ∨ (nA.n ≠ 0 ∧ nA < n ∧ Proposed s i nA vA)
  above : ∀ rid n' nA' vA', Promise s rid x { inst := i, n := n' } nA' vA' → n' < n
  votes : ∀ rid n' v, Voted s rid x { inst := i, n := n', v := v } → nA.n ≠ 0 ∧ n' ≤ nA

/-- A vote that `x`, being at `i`, may send. -/
structure VoteOk (s : State) (i : UInt32) (x : Str) (n : PropT) : Prop where
  next : (s.node x).acc.instanceH.toNat + 1 = i.toNat
  bound : (s.node x).acc.nA.n ≠ 0 ∧ n ≤ (s.node x).acc.nA
  above : ∀ rid n' nA' vA', Promise s rid x { inst := i, n := n' } nA' vA' → n' ≤ n

/-- The rule for sending a message: what it asks depends on the kind of message. -/
theorem Slot.send {i : UInt32} {s : State} (hs : Slot i s) {m : Msg}
    (hpromise : ∀ rid x n nA vA, Msg.prepareres rid x { inst := i, n := n }
      { oldinstance := false, accept := true, nA := nA, vA := vA } = m → PromiseOk s i x n nA vA)
    (hvote : ∀ rid x n v, Msg.acceptres rid x { inst := i, n := n, v := v } .OK true = m →
      VoteOk s i x n)
    (hold : ∀ rid x a res, Msg.prepareres rid x a res = m → a.inst = i →
      res.oldinstance = true → Chosen s i res.vA)
    (hdump : ∀ text, Msg.logdump text = m → ∃ d, Durable d ∧ d.file = text ∧ Held s i d) :
    Slot i (s.send m) := by
  have hg : Grows s (s.send m) := grows_send rfl rfl
  refine ⟨fun x => (hs.held x).mono hg, ?_, ?_, ?_, ?_, ?_, ?_, hs.inst_le, hs.started, ?_⟩
  · intro x hx
    have h := hs.behind x hx
    refine ⟨?_, ?_⟩
    · intro rid n nA vA hp
      rcases List.mem_cons.mp hp with heq | hin
      · exact absurd (hpromise rid x n nA vA heq).next (Nat.ne_of_lt hx)
      · exact h.1 rid n nA vA hin
    · intro rid n v hv
      rcases List.mem_cons.mp hv with heq | hin
      · exact absurd (hvote rid x n v heq).next (Nat.ne_of_lt hx)
      · exact h.2 rid n v hin
  · intro x hx
    have h := hs.bounded x hx
    refine ⟨?_, ?_⟩
    · intro rid n nA vA hp
      rcases List.mem_cons.mp hp with heq | hin
      · exact (hpromise rid x n nA vA heq).bound
      · exact h.1 rid n nA vA hin
    · intro rid n v hv
      rcases List.mem_cons.mp hv with heq | hin
      · exact (hvote rid x n v heq).bound
      · exact h.2 rid n v hin
  · intro rid x a res hm
    rcases List.mem_cons.mp hm with heq | hin
    · intro ha hres
      exact (hold rid x a res heq ha hres).mono hg
    · intro ha hres
      exact (hs.old rid x a res hin ha hres).mono hg
  · intro rid x n nA vA hp
    have hrep : (nA.n = 0 ∧ vA = []) ∨ (nA.n ≠ 0 ∧ nA < n ∧ Proposed s i nA vA) := by
      rcases List.mem_cons.mp hp with heq | hin
      · exact (hpromise rid x n nA vA heq).report
      · exact hs.report rid x n nA vA hin
    rcases hrep with h0 | ⟨hA, hlt, hprop⟩
    · exact Or.inl h0
    · exact Or.inr ⟨hA, hlt, hprop.mono hg⟩
  · intro rid rid' x n nA vA nA' vA' hp hp'
    rcases List.mem_cons.mp hp with heq | hin
    · rcases List.mem_cons.mp hp' with heq' | hin'
      · have h := heq.trans heq'.symm
        simp only [Msg.prepareres.injEq, PrepareRes.mk.injEq] at h
        exact ⟨h.1, h.2.2.2.2.2.1, h.2.2.2.2.2.2⟩
      · exact absurd ((hpromise _ _ _ _ _ heq).above _ _ _ _ hin') (lt_irrefl n)
    · rcases List.mem_cons.mp hp' with heq' | hin'
      · exact absurd ((hpromise _ _ _ _ _ heq').above _ _ _ _ hin) (lt_irrefl n)
      · exact hs.promise_inj rid rid' x n nA vA nA' vA' hin hin'
  · intro rid rid' x n nA vA n' v hp hv hlt
    rcases List.mem_cons.mp hp with heq | hin
    · rcases List.mem_cons.mp hv with heqv | hinv
      · rw [← heq] at heqv
        cases heqv
      · exact (hpromise _ _ _ _ _ heq).votes rid' n' v hinv
    · rcases List.mem_cons.mp hv with heqv | hinv
      · have hle := (hvote _ _ _ _ heqv).above rid n nA vA hin
        exact absurd hlt (not_lt.mpr hle)
      · exact hs.promise_vote rid rid' x n nA vA n' v hin hinv hlt
  · intro text hm
    have hd : ∃ d, Durable d ∧ d.file = text ∧ Held s i d := by
      rcases List.mem_cons.mp hm with heq | hin
      · exact hdump text heq
      · exact hs.dump text hin
    rcases hd with ⟨d, hd, hfile, hheld⟩
    exact ⟨d, hd, hfile, hheld.mono hg⟩

/-- A message that is neither an answer nor a log asks for nothing. -/
theorem Slot.send_request {i : UInt32} {s : State} (hs : Slot i s) {m : Msg}
    (hpr : ∀ rid x a res, Msg.prepareres rid x a res ≠ m)
    (har : ∀ rid x a ret ok, Msg.acceptres rid x a ret ok ≠ m)
    (hld : ∀ text, Msg.logdump text ≠ m) : Slot i (s.send m) := by
  refine hs.send ?_ ?_ ?_ ?_
  · intro rid x n nA vA heq
    exact absurd heq (hpr _ _ _ _)
  · intro rid x n v heq
    exact absurd heq (har _ _ _ _ _)
  · intro rid x a res heq
    exact absurd heq (hpr _ _ _ _)
  · intro text heq
    exact absurd heq (hld text)

/-- An answer to a prepare request that is not a promise. -/
theorem Slot.send_refusal {i : UInt32} {s : State} (hs : Slot i s) {rid : ℕ} {x : Str}
    {a : PrepareArg} {res : PrepareRes} (hno : res.accept = false)
    (hold : a.inst = i → res.oldinstance = true → Chosen s i res.vA) :
    Slot i (s.send (.prepareres rid x a res)) := by
  refine hs.send ?_ ?_ ?_ ?_
  · intro rid' x' n nA vA heq
    simp only [Msg.prepareres.injEq] at heq
    rw [← heq.2.2.2] at hno
    cases hno
  · intro rid' x' n v heq
    cases heq
  · intro rid' x' a' res' heq
    simp only [Msg.prepareres.injEq] at heq
    rcases heq with ⟨_, _, rfl, rfl⟩
    exact hold
  · intro text heq
    cases heq

/-- A promise by an acceptor that may give it. -/
theorem Slot.send_promise {i : UInt32} {s : State} (hs : Slot i s) {rid : ℕ} {x : Str}
    {a : PrepareArg} {nA : PropT} {vA : Str} (h : a.inst = i → PromiseOk s i x a.n nA vA) :
    Slot i (s.send (.prepareres rid x a
      { oldinstance := false, accept := true, nA := nA, vA := vA })) := by
  refine hs.send ?_ ?_ ?_ ?_
  · intro rid' x' n nA' vA' heq
    simp only [Msg.prepareres.injEq, PrepareRes.mk.injEq, true_and] at heq
    rcases heq with ⟨_, rfl, rfl, rfl, rfl⟩
    exact h rfl
  · intro rid' x' n v heq
    cases heq
  · intro rid' x' a' res heq _ hold
    simp only [Msg.prepareres.injEq] at heq
    rw [heq.2.2.2] at hold
    cases hold
  · intro text heq
    cases heq

/-- An answer to an accept request: a vote only by an acceptor that may give it. -/
theorem Slot.send_vote {i : UInt32} {s : State} (hs : Slot i s) {rid : ℕ} {x : Str}
    {a : AcceptArg} {ret : Status} {ok : Bool}
    (h : ok = true → a.inst = i → VoteOk s i x a.n) :
    Slot i (s.send (.acceptres rid x a ret ok)) := by
  refine hs.send ?_ ?_ ?_ ?_
  · intro rid' x' n nA vA heq
    cases heq
  · intro rid' x' n v heq
    simp only [Msg.acceptres.injEq] at heq
    rcases heq with ⟨_, rfl, rfl, _, hok⟩
    exact h hok.symm rfl
  · intro rid' x' a' res heq
    cases heq
  · intro text heq
    cases heq

/-- The rule for the record of a new run. -/
theorem Slot.addRun {i : UInt32} {s : State} (hs : Slot i s) (info : RunInfo)
    (h : info.inst = i → info.n.n ≠ 0 ∧ info.newv ≠ []) :
    Slot i { s with runs := s.runs ++ [info] } := by
  have hg : Grows s { s with runs := s.runs ++ [info] } := grows_addRun rfl rfl
  refine ⟨fun x => (hs.held x).mono hg, hs.behind, hs.bounded, ?_, ?_, hs.promise_inj,
    hs.promise_vote, hs.inst_le, ?_, ?_⟩
  · intro rid x a res hm ha hres
    exact (hs.old rid x a res hm ha hres).mono hg
  · exact hs.report
  · intro k info' hk
    rcases List.mem_append.mp (List.mem_of_getElem? hk) with hin | hin
    · rcases List.getElem?_of_mem hin with ⟨k', hk'⟩
      exact hs.started k' info' hk'
    · have : info' = info := by simpa using hin
      rw [this]
      exact h
  · intro text hm
    rcases hs.dump text hm with ⟨d, hd, hfile, hheld⟩
    exact ⟨d, hd, hfile, hheld.mono hg⟩

/-! ## Acceptor steps -/

/-- Committing the next instance, or one that is committed already.  The value has to be a
chosen one when the instance is `i`. -/
theorem Slot.commit {i : UInt32} {s : State} (hs : Slot i s) (x : Str) {inst : UInt32} {v : Str}
    (hinst : inst.toNat ≤ (s.node x).acc.instanceH.toNat + 1) (hv : inst = i → Chosen s i v)
    {nd : Node} (hacc : nd.acc = (commitWo (s.node x).acc inst v).1)
    (hrun : nd.run = none ∨ nd.run = (s.node x).run) : Slot i (s.setNode x nd) := by
  by_cases hlt : (s.node x).acc.instanceH < inst
  · have hnext : inst.toNat = (s.node x).acc.instanceH.toNat + 1 := by
      have := UInt32.lt_iff_toNat_lt.mp hlt
      omega
    rw [commitWo_of_lt hlt] at hacc
    refine hs.setNode ⟨?_, ?_⟩ ?_ ?_ ?_
    · rw [hacc]
      intro _
      exact Or.inl ⟨rfl, rfl⟩
    · rw [hacc]
      intro hi
      by_cases heq : inst = i
      · subst heq
        simpa using hv rfl
      · have hne : i.toNat ≠ inst.toNat := fun h => heq (UInt32.toNat_inj.mp h).symm
        have hpast : i.toNat ≤ (s.node x).acc.instanceH.toNat := by
          simp only at hi
          omega
        simpa [Function.update_of_ne (Ne.symm heq)] using (hs.held x).past hpast
    · rw [hacc]
      intro hi
      refine hs.behind x ?_
      simp only at hi
      omega
    · rw [hacc]
      intro hi
      refine (hs.behind x ?_).bounded _
      simp only at hi
      omega
    · intro r hr
      rw [hacc]
      rcases hrun with h | h
      · rw [h] at hr
        cases hr
      · rw [h] at hr
        have := hs.inst_le x r hr
        simp only
        omega
  · rw [commitWo_of_le (UInt32.not_lt.mp hlt)] at hacc
    refine hs.setRun hacc ?_
    intro r hr
    rcases hrun with h | h
    · rw [h] at hr
      cases hr
    · rw [h] at hr
      exact hs.inst_le x r hr

/-- The instance of a run whose messages are about `i` has a number and a value. -/
theorem Slot.number_ne_zero {i : UInt32} {s : State} (hs : Slot i s) (hw : Wf s) {rid : ℕ}
    {x : Str} {a : PrepareArg} (hm : Msg.preparereq rid x a ∈ s.net) (ha : a.inst = i) :
    a.n.n ≠ 0 := by
  rcases hw.msg _ hm with ⟨info, hinfo, rfl⟩
  exact (hs.started rid info hinfo ha).1

theorem PropT.n_ne_zero_of_lt {a b : PropT} (h : a < b) (ha : a.n ≠ 0) : b.n ≠ 0 := by
  intro hb
  exact absurd h (lt_asymm (PropT.lt_of_n hb ha))

/-- The promised number of `x` goes up. -/
theorem Slot.raise {i : UInt32} {s : State} (hs : Slot i s) {x : Str} {n : PropT} {file : Str}
    (hgt : (s.node x).acc.nH < n) :
    Slot i (s.setNode x
      { s.node x with acc := { (s.node x).acc with nH := n, file := file } }) := by
  refine hs.setNode ⟨?_, (hs.held x).past⟩ (hs.behind x) ?_ (hs.inst_le x)
  · intro hi
    rcases (hs.held x).pair hi with h0 | ⟨hA, hH, hle, hp⟩
    · exact Or.inl h0
    · exact Or.inr ⟨hA, PropT.n_ne_zero_of_lt hgt hH, le_of_lt (lt_of_le_of_lt hle hgt), hp⟩
  · intro hi
    refine ⟨?_, (hs.bounded x hi).2⟩
    intro rid n' nA vA hp
    rcases (hs.bounded x hi).1 rid n' nA vA hp with ⟨hH, hle⟩
    exact ⟨PropT.n_ne_zero_of_lt hgt hH, le_of_lt (lt_of_le_of_lt hle hgt)⟩

/-- Once `x`, being at `i`, has raised its promised number to `n`, it may promise `n`: all it
promised and voted for before is below. -/
theorem Slot.promiseOk {i : UInt32} {s : State} (hs : Slot i s) {x : Str} {n : PropT} {file : Str}
    (hnext : (s.node x).acc.instanceH.toNat + 1 = i.toNat) (hn : n.n ≠ 0)
    (hgt : (s.node x).acc.nH < n) :
    PromiseOk (s.setNode x
      { s.node x with acc := { (s.node x).acc with nH := n, file := file } }) i x n
      (s.node x).acc.nA (s.node x).acc.vA := by
  refine ⟨?_, ?_, ?_, ?_, ?_⟩
  · rw [State.setNode_node_self]
    exact hnext
  · rw [State.setNode_node_self]
    exact ⟨hn, le_refl n⟩
  · rcases (hs.held x).pair hnext with h0 | ⟨hA, _, hle, hp⟩
    · exact Or.inl h0
    · exact Or.inr ⟨hA, lt_of_le_of_lt hle hgt, hp⟩
  · intro rid n' nA vA hp
    exact lt_of_le_of_lt ((hs.bounded x hnext).1 rid n' nA vA hp).2 hgt
  · intro rid n' v hv
    exact (hs.bounded x hnext).2 rid n' v hv

/-- `preparereq` at `x`. -/
theorem Slot.prepare {i : UInt32} {s : State} (hs : Slot i s) (hw : Wf s) {rid : ℕ} {x : Str}
    {a : PrepareArg} (hm : Msg.preparereq rid x a ∈ s.net)
    (hsafe : a.inst = i → i.toNat ≤ (s.node x).acc.instanceH.toNat + 1) :
    Slot i ((s.setNode x { s.node x with acc := (preparereq (s.node x).acc a).1 }).send
      (.prepareres rid x a (preparereq (s.node x).acc a).2)) := by
  rcases preparereq_cases (s.node x).acc a with
    ⟨hle, hacc, hold, hno, hv⟩ | ⟨hlt, hgt, hacc, hres⟩ | ⟨hlt, hge, hacc, hold, hno⟩
  · -- an old instance: the answer is the committed value
    rw [hacc]
    refine (hs.setRun rfl (hs.inst_le x)).send_refusal hno ?_
    intro ha _
    rw [hv, ha]
    rw [ha] at hle
    exact (hs.held x).past (UInt32.le_iff_toNat_le.mp hle)
  · -- first `nH` goes up, then the promise is sent
    rw [hacc, hres]
    refine (hs.raise hgt).send_promise ?_
    intro ha
    have hnext : (s.node x).acc.instanceH.toNat + 1 = i.toNat := by
      have hlt' := UInt32.lt_iff_toNat_lt.mp hlt
      have := hsafe ha
      rw [ha] at hlt'
      omega
    exact hs.promiseOk hnext (hs.number_ne_zero hw hm ha) hgt
  · -- a number that is not above the promised one changes nothing
    rw [hacc]
    refine (hs.setRun rfl (hs.inst_le x)).send_refusal hno ?_
    intro _ hold'
    rw [hold] at hold'
    cases hold'

/-- A request to accept that `x`, being at `i`, has not overtaken carries exactly the number
`x` promised: the proposer has the promise of `x` for it. -/
theorem Slot.accept_number {i : UInt32} {s : State} (hs : Slot i s) (hw : Wf s) {rid : ℕ}
    {x : Str} {a : AcceptArg} (hm : Msg.acceptreq rid x a ∈ s.net) (ha : a.inst = i)
    (hnext : (s.node x).acc.instanceH.toNat + 1 = i.toNat) (hge : (s.node x).acc.nH ≤ a.n) :
    a.n.n ≠ 0 ∧ a.n = (s.node x).acc.nH := by
  rcases hw.msg _ hm with ⟨info, hinfo, hinst, hn, _, nA, vA, hp⟩
  rw [ha] at hp
  have hle := ((hs.bounded x hnext).1 rid a.n nA vA hp).2
  refine ⟨?_, le_antisymm hle hge⟩
  rw [hn]
  exact (hs.started rid info hinfo (hinst.symm.trans ha)).1

/-- The accepted pair of `x` becomes that of a proposal with the promised number. -/
theorem Slot.setVote {i : UInt32} {s : State} (hs : Slot i s) {x : Str} {n : PropT} {v file : Str}
    (hnum : (s.node x).acc.instanceH.toNat + 1 = i.toNat →
      Proposed s i n v ∧ n.n ≠ 0 ∧ n = (s.node x).acc.nH) :
    Slot i (s.setNode x
      { s.node x with acc := { (s.node x).acc with nA := n, vA := v, file := file } }) := by
  refine hs.setNode ⟨?_, (hs.held x).past⟩ (hs.behind x) ?_ (hs.inst_le x)
  · intro hnext
    rcases hnum hnext with ⟨hp, hn, heq⟩
    exact Or.inr ⟨hn, heq ▸ hn, le_of_eq heq, hp⟩
  · intro hnext
    rcases hnum hnext with ⟨_, hn, heq⟩
    refine ⟨(hs.bounded x hnext).1, ?_⟩
    intro rid n' v' hv
    -- earlier votes are below the accepted number, which was promised
    rcases (hs.bounded x hnext).2 rid n' v' hv with ⟨hA, hle⟩
    refine ⟨hn, ?_⟩
    rcases (hs.held x).pair hnext with ⟨h0, _⟩ | ⟨_, _, hle', _⟩
    · exact absurd h0 hA
    · calc n' ≤ (s.node x).acc.nA := hle
        _ ≤ (s.node x).acc.nH := hle'
        _ = n := heq.symm

/-- `acceptreq` at `x`: the request is one that `x` promised, so its number is exactly `nH`. -/
theorem Slot.accept {i : UInt32} {s : State} (hs : Slot i s) (hw : Wf s) {rid : ℕ} {x : Str}
    {a : AcceptArg} (hm : Msg.acceptreq rid x a ∈ s.net)
    (hsafe : a.inst = i ↔ (s.node x).acc.instanceH.toNat + 1 = i.toNat) :
    Slot i ((s.setNode x { s.node x with acc := (acceptreq (s.node x).acc a).1 }).send
      (.acceptres rid x a (acceptreq (s.node x).acc a).2.1
        (acceptreq (s.node x).acc a).2.2)) := by
  rcases acceptreq_cases (s.node x).acc a with ⟨hge, hacc⟩ | ⟨hlt, hacc⟩
  · rw [hacc]
    refine (hs.setVote ?_).send_vote ?_
    · intro hnext
      have ha := hsafe.mpr hnext
      refine ⟨⟨rid, x, ?_⟩, hs.accept_number hw hm ha hnext hge⟩
      rw [← ha]
      exact hm
    · intro _ ha
      have hnext := hsafe.mp ha
      rcases hs.accept_number hw hm ha hnext hge with ⟨hn0, hnH⟩
      refine ⟨?_, ?_, ?_⟩
      · rw [State.setNode_node_self]
        exact hnext
      · rw [State.setNode_node_self]
        exact ⟨hn0, le_refl a.n⟩
      · intro rid' n' nA' vA' hp
        rw [hnH]
        exact ((hs.bounded x hnext).1 rid' n' nA' vA' hp).2
  · rw [hacc]
    refine (hs.setRun rfl (hs.inst_le x)).send_vote ?_
    intro hok
    cases hok

/-! ## Every step keeps it -/

theorem Run.endLoop_inst {r r' : Run} (h : r.endLoop = some r') : r'.inst = r.inst := by
  cases hphase : r.phase with
  | prepare accepts maxN maxV =>
      simp only [Run.endLoop, hphase] at h
      split at h
      · cases h
        rfl
      · cases h
  | accept accepts v =>
      simp only [Run.endLoop, hphase] at h
      split at h
      · cases h
        rfl
      · cases h
  | decide v => simp [Run.endLoop, hphase] at h

/-- A node that is in the initial state has answered nothing about `i`. -/
theorem Slot.untouched_of_fresh {i : UInt32} {s : State} (hs : Slot i s) {x me : Str}
    (h0 : SameState (fresh me []) (s.node x).acc) (hpos : 0 < i.toNat) : Untouched s i x := by
  have hinst : (s.node x).acc.instanceH.toNat = 0 := by
    rw [← h0.instanceH]
    rfl
  by_cases hi : i.toNat = 1
  · -- at instance 1 every answer would show in `nH` or `nA`
    have hb := hs.bounded x (by omega)
    exact ⟨fun rid n nA vA hp => (hb.1 rid n nA vA hp).1 h0.nH_n.symm,
      fun rid n v hv => (hb.2 rid n v hv).1 h0.nA_n.symm⟩
  · exact hs.behind x (by omega)

theorem Slot.step {i : UInt32} {s t : State} {a : Action} (hw : Wf s) (hc : Clean s)
    (hs : Slot i s) (hlog : LogSafe s a) (hsafe : SlotSafe i s a) (h : step s a = some t) :
    Slot i t := by
  cases step_move h with
  | @run p inst cur newv hp hup hrun =>
      have hs₁ : Slot i (s.setNode p
          { s.node p with
            myN := setn (s.node p).acc.nH (s.node p).myN
            run := some
              { rid := s.runs.length
                inst := inst
                cur := cur
                newv := newv
                phase := .prepare [] zeroProp []
                todo := cur
                calling := false } }) := by
        refine hs.setRun rfl ?_
        intro r hr
        cases hr
        exact hsafe.1
      refine hs₁.addRun _ ?_
      intro hi
      exact (hsafe.2 hi).symm
  | @call p x r rest hrun htodo =>
      have hs₁ : Slot i (s.setNode p { s.node p with run := some { r with calling := true } }) := by
        refine hs.keepRun hrun rfl ?_
        intro r' hr'
        cases hr'
        rfl
      rcases r.request_ne (s.node p).myN x with ⟨hpr, har, hld⟩
      exact hs₁.send_request hpr har hld
  | @skip p x r rest hrun htodo =>
      refine hs.keepRun hrun rfl ?_
      intro r' hr'
      cases hr'
      rfl
  | @replyOld p x r rest accepts maxN maxV a res hrun htodo hphase hm hold =>
      refine hs.commit p (hs.inst_le p r hrun) ?_ rfl (Or.inl rfl)
      intro hi
      have harg := arg_of_prepareres hw hrun hm
      refine hs.old r.rid x a res hm ?_ hold
      rw [harg]
      exact hi
  | @replyPrepare p x r rest accepts maxN maxV a res hrun htodo hphase hm hold =>
      refine hs.keepRun hrun rfl ?_
      intro r' hr'
      cases hr'
      rfl
  | @replyAccept p x r rest accepts v a ret ok hrun htodo hphase hm =>
      refine hs.keepRun hrun rfl ?_
      intro r' hr'
      cases hr'
      rfl
  | @endLoop p r hrun htodo => exact hs.keepRun hrun rfl fun r' hr' => Run.endLoop_inst hr'
  | @prepare rid x a hm => exact hs.prepare hw hm hsafe
  | @accept rid x a hm => exact hs.accept hw hm hsafe
  | @decide rid x a r hm hr =>
      have hchosen : Chosen s a.inst a.v := hw.msg _ hm
      rcases decidereq_cases hr with ⟨hnext, _, rfl⟩ | ⟨_, rfl⟩
      · refine hs.commit x ?_ (fun hi => hi ▸ hchosen) rfl (Or.inr rfl)
        rw [hnext, UInt32.toNat_add]
        exact Nat.mod_le _ _
      · exact hs.setRun rfl (hs.inst_le x)
  | @abort x act hact =>
      refine hs.setRun rfl ?_
      intro r hr
      cases hr
  | @restart x junk acc hacc =>
      have hsame := ((hc.node x).restart hacc).1
      refine hs.setNode ((hs.held x).of_sameState hsame) ?_ ?_ ?_
      · rw [hsame.instanceH]
        exact hs.behind x
      · rw [hsame.instanceH]
        intro hi
        exact (hs.bounded x hi).of_sameState hsame
      · intro r hr
        cases hr
  | @dump x =>
      refine hs.send (fun _ _ _ _ _ heq => by cases heq) (fun _ _ _ _ heq => by cases heq)
        (fun _ _ _ _ heq => by cases heq) ?_
      intro text heq
      cases heq
      exact ⟨(s.node x).acc, (hc.node x).durable, (dump_of_durable (hc.node x).durable).symm,
        hs.held x⟩
  | @restore x text junk acc hm hacc =>
      rcases hs.dump text hm with ⟨d, hd, rfl, hheld⟩
      have hsame := ((hc.node x).restore hlog hd hacc).1
      have h0 := sameState_fresh_of_file_nil (hc.node x).durable hlog
      have hinst : (s.node x).acc.instanceH.toNat = 0 := by
        rw [← h0.instanceH]
        rfl
      refine hs.setNode (hheld.of_sameState hsame) ?_ ?_ ?_
      · intro hi
        exact hs.untouched_of_fresh h0 (by omega)
      · intro hi
        exact (hs.untouched_of_fresh h0 (by omega)).bounded acc
      · intro r hr
        have := hs.inst_le x r hr
        simp only
        omega

end Paxos
end Yfs

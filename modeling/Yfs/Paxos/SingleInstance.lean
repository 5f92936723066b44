import Yfs.Paxos.Agreement
import Yfs.Paxos.Crash

/-!
# SingleInstance — a cluster that works on one instance

All acceptors start right before instance `i`, every run is for `i` with one member list, and
nodes crash and restart.  As long as nobody has committed `i` every acceptor is at `i`, so each
step respects the instance by itself, and a majority that accepted `(n, v)` binds every accept
request from `n` on (`proposal_of_majority`), as long as no crash cuts an append.  A record that
was cut can take the value back that an acceptor has accepted (`torn_accept_forgotten`).
-/

namespace Yfs
namespace Paxos

open Lib

/-! ## Runs for one instance -/

/-- The steps of a cluster that works on instance `i` with the member list `l`. -/
def OneInstance (i : UInt32) (l : List Str) (s : State) : Action → Prop
  | .run p inst cur newv =>
      inst = i ∧ cur = l ∧ newv ≠ [] ∧ '\n' ∉ newv ∧
        (setn (s.node p).acc.nH (s.node p).myN).n.toNat < UInt32.size - 1
  | .restore _ _ _ => False
  | _ => True

/-- All acceptors are right before `i` and have promised nothing. -/
structure StartAt (i : UInt32) (s : State) : Prop extends Start i s where
  next : ∀ x, (s.node x).acc.instanceH.toNat + 1 = i.toNat
  nH : ∀ x, (s.node x).acc.nH.n = 0

structure OneOk (i : UInt32) (l : List Str) (s : State) : Prop where
  next : ∀ x, i.toNat ≤ (s.node x).acc.instanceH.toNat + 1
  nH : ∀ x, (s.node x).acc.nH.n.toNat < UInt32.size - 1
  myN : ∀ x, (s.node x).myN.n.toNat < UInt32.size - 1
  runs : ∀ info ∈ s.runs, info.inst = i ∧ info.cur = l ∧ info.n.n.toNat < UInt32.size - 1

theorem OneInstance.logSafe {i : UInt32} {l : List Str} {s : State} {a : Action}
    (h : OneInstance i l s a) : LogSafe s a := by
  cases a with
  | run p inst cur newv => exact h.2.2.2.1
  | restore x text junk => exact h.elim
  | _ => trivial

theorem OneInstance.ne_restore {i : UInt32} {l : List Str} {s : State} {a : Action}
    (h : OneInstance i l s a) : ∀ x text junk, a ≠ .restore x text junk := by
  rintro x text junk rfl
  exact h

theorem OneOk.myN_step {i : UInt32} {l : List Str} {s t : State} {a : Action}
    (hs : OneOk i l s) (hok : OneInstance i l s a) (h : step s a = some t) (x : Str) :
    (t.node x).myN.n.toNat < UInt32.size - 1 := by
  have key : ∀ {p : Str} (nd : Node), nd.myN.n.toNat < UInt32.size - 1 →
      ((s.setNode p nd).node x).myN.n.toNat < UInt32.size - 1 := by
    intro p nd hnd
    by_cases hx : x = p
    · subst hx
      rw [State.setNode_node_self]
      exact hnd
    · rw [State.setNode_node_of_ne _ _ hx]
      exact hs.myN x
  cases step_move h with
  | @run p inst cur newv hp hup hrun =>
      exact key { s.node p with myN := _, run := some _ } hok.2.2.2.2
  | @call p y r rest hrun htodo | @skip p y r rest hrun htodo
  | @replyOld p y r rest accepts maxN maxV a res hrun htodo hphase hm hold => exact key _ (hs.myN p)
  | @replyPrepare p y r rest accepts maxN maxV a res hrun htodo hphase hm hold =>
      exact key _ (hs.myN p)
  | @replyAccept p y r rest accepts v a ret ok hrun htodo hphase hm | @endLoop p r hrun htodo =>
      exact key _ (hs.myN p)
  | @prepare rid y a hm | @accept rid y a hm | @decide rid y a r hm hr | @abort y act hact =>
      exact key _ (hs.myN y)
  | @restart y junk acc hacc => exact key _ (show (0 : UInt32).toNat < UInt32.size - 1 by decide)
  | @dump y => exact hs.myN x
  | @restore y text junk acc hm hacc => exact hok.elim

theorem OneOk.step {i : UInt32} {l : List Str} {s t : State} {a : Action} (hw : Wf s)
    (hc : Clean s) (hs : OneOk i l s) (hok : OneInstance i l s a) (h : step s a = some t) :
    OneOk i l t := by
  refine ⟨?_, ?_, hs.myN_step hok h, ?_⟩
  · intro x
    have hx := hs.next x
    cases step_acc hc hok.logSafe h x with
    | keep hacc =>
        rw [hacc]
        exact hx
    | exec hexec _ =>
        have := exec_instanceH_le hexec
        omega
    | recover hsame =>
        rw [hsame.instanceH]
        exact hx
    | restored hact _ _ _ => exact absurd hact (hok.ne_restore _ _ _)
  · intro x
    have hx := hs.nH x
    cases step_acc hc hok.logSafe h x with
    | keep hacc =>
        rw [hacc]
        exact hx
    | exec hexec hreq =>
        rcases exec_nH hexec with heq | h0 | ⟨a, ho, ha⟩
        · rw [heq]
          exact hx
        · rw [h0]
          decide
        · -- the number of a prepare is that of its run
          subst ho
          rcases hreq with ⟨rid, hm⟩
          rcases hw.msg _ hm with ⟨info, hinfo, harg⟩
          rw [ha, harg]
          exact (hs.runs info (List.mem_of_getElem? hinfo)).2.2
    | recover hsame =>
        rw [hsame.nH_n]
        exact hx
    | restored hact _ _ _ => exact absurd hact (hok.ne_restore _ _ _)
  · rcases runs_step h with hruns | ⟨p, inst, cur, newv, rfl, hruns⟩
    · rw [hruns]
      exact hs.runs
    · intro info hinfo
      rw [hruns] at hinfo
      rcases List.mem_append.mp hinfo with hin | hin
      · exact hs.runs info hin
      · have : info = _ := List.mem_singleton.mp hin
        subst this
        exact ⟨hok.1, hok.2.1, hok.2.2.2.2⟩

theorem oneOk_reach {i : UInt32} {l : List Str} {s : State}
    (h : Reach (StartAt i) step (OneInstance i l) s) : Wf s ∧ Clean s ∧ OneOk i l s := by
  refine Reach.invariant (I := fun s => Wf s ∧ Clean s ∧ OneOk i l s) ?_ ?_ h
  · intro s hs
    refine ⟨hs.wf, hs.clean, ?_, ?_, ?_, ?_⟩
    · intro x
      exact le_of_eq (hs.next x).symm
    · intro x
      rw [hs.nH x]
      decide
    · intro x
      rw [(hs.node x).myN]
      exact (show (0 : UInt32).toNat < UInt32.size - 1 by decide)
    · simp [hs.runs]
  · rintro s a t ⟨hw, hc, hs⟩ hok hstep
    exact ⟨hw.step hstep, hc.step hok.logSafe hstep, hs.step hw hc hok hstep⟩

/-- Numbers below `UInt32.size - 1` do not wrap around. -/
theorem setn_ne_zero {nH myN : PropT} (h₁ : nH.n.toNat < UInt32.size - 1)
    (h₂ : myN.n.toNat < UInt32.size - 1) : (setn nH myN).n ≠ 0 := by
  have hsucc : ∀ n : UInt32, n.toNat < UInt32.size - 1 → n + 1 ≠ 0 := by
    intro n hn h0
    have hsum := congrArg UInt32.toNat h0
    rw [UInt32.toNat_add] at hsum
    simp only [UInt32.size, UInt32.toNat_one, UInt32.toNat_zero] at hn hsum
    omega
  rw [setn]
  split
  · exact hsucc _ h₁
  · exact hsucc _ h₂

/-- While nobody has committed `i`, every step of the cluster respects the instance. -/
theorem reach_inStep {i : UInt32} {l : List Str} {s : State}
    (h : Reach (StartAt i) step (OneInstance i l) s)
    (hnone : ∀ x, (s.node x).acc.instanceH < i) : Reach (Start i) step (InStep i) s := by
  induction h with
  | start hs => exact .start hs.toStart
  | @next s t a hr hok hstep ih =>
      rcases oneOk_reach hr with ⟨hw, hc, hs⟩
      have hlt : ∀ x, (s.node x).acc.instanceH.toNat < i.toNat := by
        intro x
        have ht := UInt32.lt_iff_toNat_lt.mp (hnone x)
        cases step_acc hc hok.logSafe hstep x with
        | keep hacc =>
            rw [hacc] at ht
            exact ht
        | exec hexec _ => exact lt_of_le_of_lt (exec_instanceH_le hexec) ht
        | recover hsame =>
            rw [hsame.instanceH] at ht
            exact ht
        | restored hact _ _ _ => exact absurd hact (hok.ne_restore _ _ _)
      have hat : ∀ x, (s.node x).acc.instanceH.toNat + 1 = i.toNat := by
        intro x
        have h₁ := hlt x
        have h₂ := hs.next x
        omega
      refine .next (ih fun x => UInt32.lt_iff_toNat_lt.mpr (hlt x)) ⟨hok.logSafe, ?_⟩ hstep
      cases a with
      | run p inst cur newv =>
          rcases hok with ⟨rfl, _, hne, _, _⟩
          refine ⟨le_of_eq (hat p).symm, ?_⟩
          intro _
          exact ⟨hne, setn_ne_zero (hs.nH p) (hs.myN p)⟩
      | handle m =>
          cases m with
          | preparereq rid x a =>
              intro _
              exact le_of_eq (hat x).symm
          | acceptreq rid x a =>
              refine ⟨fun _ => hat x, ?_⟩
              intro _
              have hm : Msg.acceptreq rid x a ∈ s.net := by
                cases step_move hstep with
                | accept hm => exact hm
                | abort hact => simp at hact
              rcases hw.msg _ hm with ⟨info, hinfo, hinst, _⟩
              exact hinst.trans (hs.runs info (List.mem_of_getElem? hinfo)).1
          | _ => trivial
      | restore x text junk => exact hok.elim
      | _ => trivial

/-- Lamport's P2c for this code.  If no crash cuts an append, a majority of the member list has
accepted `(n, v)` and nobody has committed `i`, then every accept request ever sent with a number
from `n` on carries `v`. -/
theorem proposal_of_majority {i : UInt32} {l : List Str} {s : State}
    (h : Reach (StartAt i) stepCrash (Whole (OneInstance i l)) s)
    (hnone : ∀ x, (s.node x).acc.instanceH < i) (n : PropT) (v : Str) (q : List Str)
    (hq : majority l q = true)
    (haccepted : ∀ x ∈ q, ∃ rid, Voted s rid x { inst := i, n := n, v := v }) :
    ∀ rid x a, Msg.acceptreq rid x a ∈ s.net → n ≤ a.n → a.v = v := by
  intro rid x a hm hle
  replace h : Reach (StartAt i) step (OneInstance i l) s := reach_of_whole (fun _ _ => rfl) h
  rcases oneOk_reach h with ⟨hw, _, hone⟩
  rcases reach_invariant (reach_inStep h hnone) with ⟨_, _, hs⟩
  have hl : ∀ info ∈ s.runs, info.inst = i → info.cur = l :=
    fun info hi _ => (hone.runs info hi).2.1
  have hsound := hs.sound hw hl
  have hinst : a.inst = i := by
    rcases hw.msg _ hm with ⟨info, hinfo, hinst, _⟩
    exact hinst.trans (hone.runs info (List.mem_of_getElem? hinfo)).1
  subst hinst
  -- one member of the majority fixes the run, the others voted for the same one
  have hne : q ≠ [] := by
    rintro rfl
    simp [majority_of_nil] at hq
  rcases List.exists_mem_of_ne_nil q hne with ⟨y, hy⟩
  rcases haccepted y hy with ⟨r₀, hv₀⟩
  have hp₀ : (history s a.inst).proposal r₀ v := ⟨y, n, hw.msg _ hv₀⟩
  have hchosen : (history s a.inst).Chosen (quorum l) r₀ v := by
    refine ⟨hp₀, {z | z ∈ q}, ⟨q, hq, fun z hz => hz⟩, ?_⟩
    intro z hz
    rcases haccepted z hz with ⟨r₁, hv₁⟩
    have hsame : r₀ = r₁ := hsound.round_eq_of_number_eq hp₀ ⟨z, n, hw.msg _ hv₁⟩
      ((number_of_voted hw hv₀).trans (number_of_voted hw hv₁).symm)
    exact ⟨n, v, hsame ▸ hv₁⟩
  have hp : (history s a.inst).proposal rid a.v := ⟨x, a.n, hm⟩
  refine hsound.proposal_eq_of_chosen hchosen hp ?_
  have hnum : (history s a.inst).number rid = a.n := number_of_acceptreq hw (n := a.n) (v := a.v) hm
  rw [number_of_voted hw hv₀, hnum]
  exact hle

instance (i : UInt32) (l : List Str) (s : State) (a : Action) : Decidable (OneInstance i l s a) :=
  match a with
  | .run p inst cur newv =>
      inferInstanceAs (Decidable (inst = i ∧ cur = l ∧ newv ≠ [] ∧ '\n' ∉ newv ∧
        (setn (s.node p).acc.nH (s.node p).myN).n.toNat < UInt32.size - 1))
  | .restore _ _ _ => isFalse id
  | .call _ | .skip _ | .reply _ _ | .endLoop _ | .handle _ | .restart _ _ | .dump _ =>
      isTrue trivial

theorem startAt_settled (inst : UInt32) (value : Str) {i : UInt32} (hpos : 0 < inst)
    (hi : inst.toNat + 1 = i.toNat) (hv : '\n' ∉ value) : StartAt i (settled inst value) := by
  have hlt : inst < i := UInt32.lt_iff_toNat_lt.mpr (by omega)
  refine { start_settled inst value hpos hlt hv with next := ?_, nH := ?_ }
  · intro x
    have hcommit := commitWo_of_lt (show (fresh x []).instanceH < inst from hpos) value
    simpa [settled, hcommit] using hi
  · intro x
    have hcommit := commitWo_of_lt (show (fresh x []).instanceH < inst from hpos) value
    simp [settled, hcommit]

/-- Nodes that take no part in a schedule are still right before the instance. -/
theorem below_of_runFrom {ok : State → Crash Action → Prop} [∀ s e, Decidable (ok s e)]
    {es : List (Crash Action)} {s : State} (h : runFrom stepCrash ok (settled 1 ['w']) es = some s)
    {q : List Str} (hactors : ∀ e ∈ es, e.actor ∈ q)
    (hq : ∀ x ∈ q, (s.node x).acc.instanceH < 2) (x : Str) : (s.node x).acc.instanceH < 2 := by
  by_cases hx : x ∈ q
  · exact hq x hx
  · have hframe := runFrom_frame (p := fun e => x ≠ Crash.actor e) (f := fun s => s.node x)
      (fun _ _ _ hst hx => stepCrash_frame hst hx) es h fun e he heq => hx (heq ▸ hactors e he)
    rw [hframe]
    exact (start_settled 1 ['w'] (by decide) (by decide) (by decide)).node x |>.below

/-- Node `c` gets its proposal accepted by `b` and `c`. -/
def acceptedByTwo : List (Crash Action) :=
  wholes <| [.run ['c'] 2 [['a'], ['b'], ['c']] ['v'], .skip ['c']] ++
    prepareAt ['c'] 0 ['b'] { inst := 2, n := { n := 1, m := ['c'] } } { n := 0, m := ['b'] } ++
    prepareAt ['c'] 0 ['c'] { inst := 2, n := { n := 1, m := ['c'] } } { n := 0, m := ['c'] } ++
    [.endLoop ['c']] ++
    acceptAt ['c'] 0 ['b'] { inst := 2, n := { n := 1, m := ['c'] }, v := ['v'] } ++
    acceptAt ['c'] 0 ['c'] { inst := 2, n := { n := 1, m := ['c'] }, v := ['v'] }

theorem proposal_of_majority_two :
    ∃ s, Reach (StartAt 2) stepCrash (Whole (OneInstance 2 [['a'], ['b'], ['c']])) s ∧
      (∀ x, (s.node x).acc.instanceH < 2) ∧ majority [['a'], ['b'], ['c']] [['b'], ['c']] = true ∧
      ∀ rid x a, Msg.acceptreq rid x a ∈ s.net → { n := 1, m := ['c'] } ≤ a.n → a.v = ['v'] := by
  have hrun : ∃ s, runFrom stepCrash (Whole (OneInstance 2 [['a'], ['b'], ['c']]))
      (settled 1 ['w']) acceptedByTwo = some s ∧
      (Voted s 0 ['b'] { inst := 2, n := { n := 1, m := ['c'] }, v := ['v'] } ∧
        Voted s 0 ['c'] { inst := 2, n := { n := 1, m := ['c'] }, v := ['v'] }) ∧
      ∀ x ∈ [['b'], ['c']], (s.node x).acc.instanceH < 2 :=
    exists_runFrom (by decide +kernel)
  rcases hrun with ⟨s, hs, ⟨hvb, hvc⟩, hbelow⟩
  have hreach : Reach (StartAt 2) stepCrash (Whole (OneInstance 2 [['a'], ['b'], ['c']])) s :=
    Reach.of_runFrom _ (.start (startAt_settled 1 ['w'] (by decide) (by decide) (by decide))) hs
  have hnone := below_of_runFrom hs (q := [['b'], ['c']]) (by decide) hbelow
  refine ⟨s, hreach, hnone, by decide, ?_⟩
  refine proposal_of_majority hreach hnone _ _ [['b'], ['c']] (by decide) ?_
  intro x hx
  rcases List.mem_cons.mp hx with rfl | hx
  · exact ⟨0, hvb⟩
  · have hxc : x = ['c'] := by simpa using hx
    exact ⟨0, hxc ▸ hvc⟩

/-- A prepare that `x` answers with `(n_a, v_a)`. -/
def promiseAt (p : Str) (rid : ℕ) (x : Str) (a : PrepareArg) (nA : PropT) (vA : Str) :
    List Action :=
  roundTrip p (.preparereq rid x a)
    (.prepareres rid x a { oldinstance := false, accept := true, nA := nA, vA := vA })

/-- Node `a` gets `u` accepted by `a` and `b` and proposes it again; of the record of the second
accept `a` writes `accepted 2 a ` and dies.  Restarted, it proposes `z` to itself and `c`. -/
def tornAccept : List (Crash Action) :=
  let n (k : UInt32) : PropT := { n := k, m := ['a'] }
  wholes (prepareA ++
    [.call ['a'], .handle (.acceptreq 0 ['a'] { inst := 2, n := n 1, v := ['u'] }), .skip ['a'],
      .call ['a'], .handle (.acceptreq 0 ['b'] { inst := 2, n := n 1, v := ['u'] }), .skip ['a'],
      .endLoop ['a'], .run ['a'] 2 [['a'], ['b'], ['c']] ['u']] ++
    promiseAt ['a'] 1 ['a'] { inst := 2, n := n 2 } (n 1) ['u'] ++
    promiseAt ['a'] 1 ['b'] { inst := 2, n := n 2 } (n 1) ['u'] ++
    [.skip ['a'], .endLoop ['a'], .call ['a']]) ++
  [.torn (.handle (.acceptreq 1 ['a'] { inst := 2, n := n 2, v := ['u'] })) 13 0] ++
  wholes ([.run ['a'] 2 [['a'], ['b'], ['c']] ['z']] ++
    promiseAt ['a'] 2 ['a'] { inst := 2, n := n 3 } (n 2) [] ++ [.skip ['a']] ++
    promiseAt ['a'] 2 ['c'] { inst := 2, n := n 3 } { n := 0, m := ['c'] } [] ++
    [.endLoop ['a'], .call ['a']])

/-- A majority has accepted `(1, a)` with `u`, and an accept request with a higher number carries
another value: `a` has read the record that was cut as an accept of the empty value. -/
theorem torn_accept_forgotten :
    ∃ s, Reach (StartAt 2) stepCrash (Interrupted (OneInstance 2 [['a'], ['b'], ['c']])) s ∧
      (∀ x, (s.node x).acc.instanceH < 2) ∧ majority [['a'], ['b'], ['c']] [['a'], ['b']] = true ∧
      (∀ x ∈ [['a'], ['b']], Voted s 0 x { inst := 2, n := { n := 1, m := ['a'] }, v := ['u'] }) ∧
      Msg.acceptreq 2 ['a'] { inst := 2, n := { n := 3, m := ['a'] }, v := ['z'] } ∈ s.net := by
  have hrun : ∃ s, runFrom stepCrash (Interrupted (OneInstance 2 [['a'], ['b'], ['c']]))
      (settled 1 ['w']) tornAccept = some s ∧
      (∀ x ∈ [['a'], ['b'], ['c']], (s.node x).acc.instanceH < 2) ∧
      (∀ x ∈ [['a'], ['b']], Voted s 0 x { inst := 2, n := { n := 1, m := ['a'] }, v := ['u'] }) ∧
      Msg.acceptreq 2 ['a'] { inst := 2, n := { n := 3, m := ['a'] }, v := ['z'] } ∈ s.net :=
    exists_runFrom (by decide +kernel)
  rcases hrun with ⟨s, hs, hbelow, hvoted, hreq⟩
  refine ⟨s, Reach.of_runFrom _ (.start (startAt_settled 1 ['w'] (by decide) (by decide)
    (by decide))) hs, ?_, by decide, hvoted, hreq⟩
  exact below_of_runFrom hs (q := [['a'], ['b'], ['c']]) (by decide) hbelow

end Paxos
end Yfs

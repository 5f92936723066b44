import Yfs.Rsm.View

/-!
# Recovery — a restarted acceptor is the acceptor that crashed

Any history of handler calls and commits on an acceptor that started over an empty log, then a
crash: the acceptor that the constructor builds over the file the history left behind agrees
with the one that was lost, and the views it reports are the member lists that were written.
-/

namespace Yfs
namespace Paxos

open Lib

/-- A call on the acceptor that may change it. -/
inductive Op
  | preparereq (a : PrepareArg)
  | acceptreq (a : AcceptArg)
  | decidereq (a : DecideArg)
  | commit (inst : UInt32) (value : Str)
  deriving DecidableEq, Repr

namespace Op

/-- Node names are words, values have no newline in them. -/
def Wf : Op → Prop
  | preparereq a => IStream.IsWord a.n.m
  | acceptreq a => IStream.IsWord a.n.m ∧ '\n' ∉ a.v
  | decidereq a => '\n' ∉ a.v
  | commit _ value => '\n' ∉ value

/-- The acceptor after the call; `none` when the call aborts the process. -/
def exec (s : Acceptor) : Op → Option Acceptor
  | preparereq a => some (Paxos.preparereq s a).1
  | acceptreq a => some (Paxos.acceptreq s a).1
  | decidereq a => (Paxos.decidereq s a).map Prod.fst
  | commit inst value => some (commitWo s inst value).1

end Op

/-- A history of calls. -/
def runOps : Acceptor → List Op → Option Acceptor
  | s, [] => some s
  | s, o :: os =>
      match o.exec s with
      | some t => runOps t os
      | none => none

theorem commitWo_me (s : Acceptor) (inst : UInt32) (value : Str) :
    (commitWo s inst value).1.me = s.me := by
  by_cases h : s.instanceH < inst
  · rw [commitWo_of_lt h]
  · rw [commitWo_of_le (UInt32.not_lt.mp h)]

theorem commitWo_instanceH_ne_zero {s : Acceptor} (h : s.instanceH ≠ 0) (inst : UInt32)
    (value : Str) : (commitWo s inst value).1.instanceH ≠ 0 := by
  by_cases hlt : s.instanceH < inst
  · rw [commitWo_of_lt hlt]
    rintro (rfl : inst = 0)
    exact absurd hlt (UInt32.not_lt.mpr (UInt32.zero_le))
  · rw [commitWo_of_le (UInt32.not_lt.mp hlt)]
    exact h

/-- One call keeps the log durable, the acceptor's name, and that instance 0 was left. -/
theorem durable_step {s t : Acceptor} {o : Op} (ho : o.Wf) (hs : Durable s)
    (h : o.exec s = some t) :
    Durable t ∧ t.me = s.me ∧ (s.instanceH ≠ 0 → t.instanceH ≠ 0) := by
  cases o with
  | preparereq a =>
      have ht : (Paxos.preparereq s a).1 = t := by simpa [Op.exec] using h
      subst ht
      refine ⟨durable_preparereq hs ho, ?_⟩
      rcases preparereq_cases s a with ⟨_, h, _⟩ | ⟨_, _, h, _⟩ | ⟨_, _, h, _⟩ <;>
        exact ⟨by rw [h], fun h0 => by rw [h]; exact h0⟩
  | acceptreq a =>
      have ht : (Paxos.acceptreq s a).1 = t := by simpa [Op.exec] using h
      subst ht
      refine ⟨durable_acceptreq hs ho.1 ho.2, ?_⟩
      rcases acceptreq_cases s a with ⟨_, h⟩ | ⟨_, h⟩ <;>
        exact ⟨by rw [h], fun h0 => by rw [h]; exact h0⟩
  | decidereq a =>
      rcases Option.map_eq_some_iff.mp h with ⟨r, hr, rfl⟩
      refine ⟨durable_decidereq hs hr, ?_⟩
      rcases decidereq_cases hr with ⟨_, _, rfl⟩ | ⟨_, rfl⟩
      · exact ⟨commitWo_me s a.inst a.v, fun h0 => commitWo_instanceH_ne_zero h0 a.inst a.v⟩
      · exact ⟨rfl, id⟩
  | commit inst value =>
      have ht : (commitWo s inst value).1 = t := by simpa [Op.exec] using h
      subst ht
      exact ⟨durable_commitWo hs inst ho, commitWo_me s inst value,
        fun h0 => commitWo_instanceH_ne_zero h0 inst value⟩

theorem durable_runOps : ∀ (os : List Op) {s t : Acceptor}, (∀ o ∈ os, o.Wf) → Durable s →
    runOps s os = some t → Durable t ∧ t.me = s.me ∧ (s.instanceH ≠ 0 → t.instanceH ≠ 0)
  | [], s, t, _, hs, h => by
      have : s = t := by simpa [runOps] using h
      subst this
      exact ⟨hs, rfl, id⟩
  | o :: os, s, t, hwf, hs, h => by
      cases hstep : o.exec s with
      | none => simp [runOps, hstep] at h
      | some m =>
          have h' : runOps m os = some t := by simpa [runOps, hstep] using h
          rcases durable_step (hwf o (by simp)) hs hstep with ⟨hm, hme, h0⟩
          rcases durable_runOps os (fun o' ho' => hwf o' (by simp [ho'])) hm h' with
            ⟨ht, hme', h0'⟩
          exact ⟨ht, hme'.trans hme, fun hne => h0' (h0 hne)⟩

/-- Crash recovery.  The acceptor built over the file that a history of calls left behind has the
state in which the history ended; the names in the two proposal numbers are those of the lost
acceptor whenever their round is above 0; and a committed value that was written as a member
list is reported as that list. -/
theorem recovery_exact (first : Bool) (me value : Str) (hvalue : '\n' ∉ value)
    (os : List Op) (hos : ∀ o ∈ os, o.Wf) (junk junk' : UInt32) (s : Acceptor)
    (hs : (acceptor junk first me value []).bind (fun s₀ => runOps s₀ os) = some s) :
    ∃ r, acceptor junk' first me value s.file = some r ∧
      r.instanceH = s.instanceH ∧
      (∀ i, 1 ≤ i → i ≤ s.instanceH → r.values i = s.values i) ∧
      r.vA = s.vA ∧ r.nH.n = s.nH.n ∧ r.nA.n = s.nA.n ∧
      (0 < s.nH.n → r.nH.m = s.nH.m) ∧ (0 < s.nA.n → r.nA.m = s.nA.m) ∧
      (∀ i m, 1 ≤ i → i ≤ s.instanceH → (∀ x ∈ m, IStream.IsWord x) →
        s.values i = Config.value m → Config.getView r i = m) := by
  rcases Option.bind_eq_some_iff.mp hs with ⟨s₀, h₀, hrun⟩
  rcases durable_acceptor_empty junk first me hvalue h₀ with ⟨hd₀, hme₀, hfirst₀⟩
  rcases durable_runOps os hos hd₀ hrun with ⟨hd, hme, hne⟩
  have hmes : s.me = me := hme.trans hme₀
  rcases acceptor_of_durable hd junk' (fun hf => hne (hfirst₀ hf)) value with
    ⟨r, hr, hsame, _, _⟩
  have hpos : ∀ {n : UInt32}, 0 < n → n ≠ 0 := by
    rintro n hn rfl
    exact absurd hn (by decide)
  refine ⟨r, hmes ▸ hr, hsame.instanceH, ?_, hsame.vA, hsame.nH_n, hsame.nA_n, ?_, ?_, ?_⟩
  · intro i _ _
    rw [hsame.values]
  · intro hn
    exact hsame.nH_m (hpos hn)
  · intro hn
    exact hsame.nA_m (hpos hn)
  · intro i m _ _ hm hval
    rw [Config.getView, hsame.values, hval]
    exact Config.members_value hm

/-- The bootstrap node promises, accepts and commits the view that adds a second node, and then
promises the second node's next round. -/
def joinHistory : List Op :=
  [.preparereq { inst := 2, n := { n := 1, m := ['1'] } },
    .acceptreq { inst := 2, n := { n := 1, m := ['1'] }, v := Config.value [['1'], ['2']] },
    .decidereq { inst := 2, v := Config.value [['1'], ['2']] },
    .preparereq { inst := 3, n := { n := 1, m := ['2'] } }]

theorem recovery_exact_join :
    ∃ s r, (acceptor 0 true ['1'] ['1'] []).bind (fun s₀ => runOps s₀ joinHistory) = some s ∧
      acceptor 7 true ['1'] ['1'] s.file = some r ∧ r.instanceH = 2 ∧
      Config.getView r 2 = [['1'], ['2']] ∧ r.nH.n = 1 ∧ r.nH.m = ['2'] := by
  have hend : ((acceptor 0 true ['1'] ['1'] []).bind (fun s₀ => runOps s₀ joinHistory)).map
      (fun s => (s.instanceH, s.values 2, s.nH)) =
      some (2, Config.value [['1'], ['2']], { n := 1, m := ['2'] }) := by decide +kernel
  rcases Option.map_eq_some_iff.mp hend with ⟨s, hs, hfields⟩
  simp only [Prod.mk.injEq] at hfields
  rcases hfields with ⟨hinst, hval, hnH⟩
  rcases recovery_exact true ['1'] ['1'] (by decide) joinHistory
    (by simp [joinHistory, Op.Wf]; decide) 0 7 s hs with
    ⟨r, hr, hinst', _, _, hn, _, hm, _, hview⟩
  refine ⟨s, r, hs, hr, hinst'.trans hinst, ?_, ?_, ?_⟩
  · exact hview 2 _ (by decide) (by rw [hinst]; decide) (by decide) hval
  · rw [hn, hnH]
  · rw [hm (by rw [hnH]; decide), hnH]

end Paxos
end Yfs

import Yfs.Paxos.Gapless

/-!
# History — the decided histories of a cluster

In every run in which a proposer starts at most one instance above its own acceptor, and in which
a log is restored only if its history is not the shorter one, every acceptor keeps a history
without gaps in its log, whatever is lost, delayed or repeated and whenever nodes restart.  The
history of an acceptor only grows, restored logs apart.
-/

namespace Yfs
namespace Paxos

open Lib

/-- A run keeps its instance. -/
theorem run_step {s t : State} {a : Action} (h : step s a = some t) {x : Str} {r' : Run}
    (hr : (t.node x).run = some r') :
    (∃ r, (s.node x).run = some r ∧ r'.inst = r.inst) ∨
      ∃ cur newv, a = .run x r'.inst cur newv := by
  -- the node that acts, with its run taken from an earlier one
  have hset : ∀ {p : Str} {nd : Node}, (∀ r₁, nd.run = some r₁ →
      ∃ r, (s.node p).run = some r ∧ r₁.inst = r.inst) →
      ((s.setNode p nd).node x).run = some r' →
      ∃ r, (s.node x).run = some r ∧ r'.inst = r.inst := by
    intro p nd hnd hx
    by_cases hxp : x = p
    · subst hxp
      rw [State.setNode_node_self] at hx
      exact hnd r' hx
    · rw [State.setNode_node_of_ne _ _ hxp] at hx
      exact ⟨r', hx, rfl⟩
  cases step_move h with
  | @run p inst cur newv hp hup hrun =>
      by_cases hxp : x = p
      · subst hxp
        simp only [Function.update_self, Option.some.injEq] at hr
        subst hr
        exact Or.inr ⟨cur, newv, rfl⟩
      · simp only [Function.update_of_ne hxp] at hr
        exact Or.inl ⟨r', hr, rfl⟩
  | @call p y r rest hrun htodo =>
      refine Or.inl (hset ?_ hr)
      rintro r₁ ⟨⟩
      exact ⟨r, hrun, rfl⟩
  | @skip p y r rest hrun htodo =>
      refine Or.inl (hset ?_ hr)
      rintro r₁ ⟨⟩
      exact ⟨r, hrun, rfl⟩
  | @replyPrepare p y r rest accepts maxN maxV a res hrun htodo hphase hm hold =>
      refine Or.inl (hset ?_ hr)
      rintro r₁ ⟨⟩
      exact ⟨r, hrun, rfl⟩
  | @replyAccept p y r rest accepts v a ret ok hrun htodo hphase hm =>
      refine Or.inl (hset ?_ hr)
      rintro r₁ ⟨⟩
      exact ⟨r, hrun, rfl⟩
  | @endLoop p r hrun htodo =>
      refine Or.inl (hset ?_ hr)
      intro r₁ hr₁
      exact ⟨r, hrun, Run.endLoop_inst hr₁⟩
  | @replyOld p y r rest accepts maxN maxV a res hrun htodo hphase hm hold =>
      exact Or.inl (hset (fun _ h => by cases h) hr)
  | @prepare rid y a hm =>
      refine Or.inl (hset ?_ hr)
      exact fun r₁ h => ⟨r₁, h, rfl⟩
  | @accept rid y a hm =>
      refine Or.inl (hset ?_ hr)
      exact fun r₁ h => ⟨r₁, h, rfl⟩
  | @decide rid y a r hm hr' =>
      refine Or.inl (hset ?_ hr)
      exact fun r₁ h => ⟨r₁, h, rfl⟩
  | @abort y act hact | @restart y junk acc hacc => exact Or.inl (hset (fun _ h => by cases h) hr)
  | dump => exact Or.inl ⟨r', hr, rfl⟩
  | @restore y text junk acc hm hacc =>
      refine Or.inl (hset ?_ hr)
      exact fun r₁ h => ⟨r₁, h, rfl⟩

/-! ## The invariant -/

/-- What a node keeps of its history, and how far its run and its upcalls may go. -/
structure NodeHist (nd : Node) : Prop where
  gapless : Gapless nd.acc
  value : nd.first = true → '\n' ∉ nd.value
  run : ∀ r, nd.run = some r → r.inst.toNat ≤ nd.acc.instanceH.toNat + 1
  upcall : ∀ iv ∈ nd.upcalls, iv.1 ≤ nd.acc.instanceH

structure Hist (s : State) : Prop where
  tidy : Tidy s
  node : ∀ x, NodeHist (s.node x)
  dump : ∀ text, Msg.logdump text ∈ s.net → ∃ d, Gapless d ∧ d.file = text

/-- A node that keeps its acceptor and forgets about its run or some upcalls. -/
theorem Hist.setNode {s : State} (hs : Hist s) {x : Str} {run : Option Run} {up : Bool}
    {upcalls : List (UInt32 × Str)} (hrun : ∀ r, run = some r → (s.node x).run = some r)
    (hup : ∀ iv ∈ upcalls, iv ∈ (s.node x).upcalls) :
    Hist (s.setNode x { s.node x with run := run, up := up, upcalls := upcalls }) := by
  have hx := hs.node x
  have ht := hs.tidy.node x
  refine ⟨hs.tidy.setNode ⟨ht.plain, ht.myN, fun r hr => ht.run r (hrun r hr)⟩, ?_, hs.dump⟩
  intro y
  by_cases hy : y = x
  · subst hy
    rw [State.setNode_node_self]
    exact ⟨hx.gapless, hx.value, fun r hr => hx.run r (hrun r hr),
      fun iv hiv => hx.upcall iv (hup iv hiv)⟩
  · rw [State.setNode_node_of_ne _ _ hy]
    exact hs.node y

/-- The number of instances in a log. -/
def height (text : Str) : UInt32 :=
  match restore 0 (fresh [] []) text with
  | some u => u.instanceH
  | none => 0

theorem Logged.height_eq {rs : List Record} {d : Acceptor} (hd : Logged rs d) :
    height d.file = d.instanceH := by
  have hle : (fresh [] []).instanceH ≤ d.instanceH := UInt32.le_iff_toNat_le.mpr (Nat.zero_le _)
  rcases restore_logged (logged_fresh []) hd hle 0 with ⟨r, hr, _, _, hinst, _⟩
  rw [height, hr]
  exact hinst

/-- A log is restored only if its history is not shorter than the one it replaces. -/
def Forward (s : State) : Action → Prop
  | .restore x text _ => (s.node x).acc.instanceH ≤ height text
  | _ => True

instance (s : State) (a : Action) : Decidable (Forward s a) :=
  match a with
  | .restore x text _ => inferInstanceAs (Decidable ((s.node x).acc.instanceH ≤ height text))
  | .run _ _ _ _ | .call _ | .skip _ | .reply _ _ | .endLoop _ | .handle _ | .restart _ _
  | .dump _ => isTrue trivial

/-- What a step makes of an acceptor. -/
structure AccHist (s acc : Acceptor) : Prop where
  gapless : Gapless acc
  plain : Plain acc
  le : s.instanceH ≤ acc.instanceH

theorem plain_commitWo {s : Acceptor} (hs : Plain s) {inst : UInt32} {v : Str} (hv : '\n' ∉ v) :
    Plain (commitWo s inst v).1 := by
  by_cases hlt : s.instanceH < inst
  · rw [commitWo_of_lt hlt]
    refine ⟨by simp, ?_⟩
    intro i
    by_cases hi : i = inst
    · subst hi
      simpa using hv
    · simpa [hi] using hs.2 i
  · rw [commitWo_of_le (UInt32.not_lt.mp hlt)]
    exact hs

theorem plain_acceptor {rs : List Record} (hwf : ∀ r ∈ rs, r.Wf) {junk : UInt32} {first : Bool}
    {me value : Str} (hvalue : first = true → '\n' ∉ value) {acc : Acceptor}
    (hacc : acceptor junk first me value (lines rs) = some acc) : Plain acc := by
  have hread : logread junk (fresh me (lines rs)) =
      some (rs.foldl Record.apply (fresh me (lines rs))) := logread_lines hwf junk rfl
  have hplain :=
    newline_notMem_foldl rs (fresh me (lines rs)) hwf ⟨by simp [fresh], by simp [fresh]⟩
  generalize rs.foldl Record.apply (fresh me (lines rs)) = u at hread hplain
  simp only [acceptor, hread] at hacc
  split at hacc
  case isTrue h0 =>
    cases hacc
    refine ⟨hplain.1, ?_⟩
    intro i
    by_cases hi : i = 1
    · subst hi
      simpa using hvalue h0.2
    · simpa [hi] using hplain.2 i
  case isFalse =>
    cases hacc
    exact hplain

/-- A commit of the next instance, or of one that is committed already. -/
theorem accHist_commit {s : Acceptor} (hgap : Gapless s) (hplain : Plain s) {inst : UInt32}
    {v : Str} (hv : '\n' ∉ v) (hle : inst.toNat ≤ s.instanceH.toNat + 1) :
    AccHist s (commitWo s inst v).1 ∧ Extends s (commitWo s inst v).1 := by
  have hext := extends_commitWo s inst v
  exact ⟨⟨gapless_commitWo hgap hv hle, plain_commitWo hplain hv, hext.1⟩, hext⟩

theorem Hist.acc {s t : State} {a : Action} (hs : Hist s) (hfwd : Forward s a)
    (h : step s a = some t) (x : Str) :
    AccHist (s.node x).acc (t.node x).acc ∧
      (Extends (s.node x).acc (t.node x).acc ∨ ∃ text junk, a = .restore x text junk) := by
  have hgap := (hs.node x).gapless
  have hplain := (hs.tidy.node x).plain
  have hleft : ∀ {acc}, AccHist (s.node x).acc acc ∧ Extends (s.node x).acc acc →
      AccHist (s.node x).acc acc ∧
        (Extends (s.node x).acc acc ∨ ∃ text junk, a = .restore x text junk) :=
    fun h => ⟨h.1, Or.inl h.2⟩
  -- the votes do not count for the history
  have hvote : ∀ {acc}, Gapless acc → Plain acc → acc.instanceH = (s.node x).acc.instanceH →
      acc.values = (s.node x).acc.values →
      AccHist (s.node x).acc acc ∧ Extends (s.node x).acc acc := by
    intro acc hg hp hinst hvalues
    have hle : (s.node x).acc.instanceH ≤ acc.instanceH := hinst ▸ UInt32.le_refl _
    exact ⟨⟨hg, hp, hle⟩, hle, fun i _ => congrFun hvalues i⟩
  cases acc_step h x with
  | keep hacc =>
      rw [hacc]
      exact hleft (hvote hgap hplain rfl rfl)
  | @prepare rid a hm hacc =>
      rw [hacc]
      have hnew := gapless_preparereq hgap (hs.tidy.msg _ hm : IStream.IsWord a.n.m)
      rcases preparereq_cases (s.node x).acc a with ⟨_, he, _⟩ | ⟨_, _, he, _⟩ | ⟨_, _, he, _⟩
      all_goals
        rw [he] at hnew ⊢
        exact hleft (hvote hnew hplain rfl rfl)
  | @accept rid a hm hacc =>
      rw [hacc]
      have hmsg : IStream.IsWord a.n.m ∧ '\n' ∉ a.v := hs.tidy.msg _ hm
      have hnew := gapless_acceptreq hgap hmsg.1 hmsg.2
      rcases acceptreq_cases (s.node x).acc a with ⟨_, he⟩ | ⟨_, he⟩
      · rw [he] at hnew ⊢
        exact hleft (hvote hnew ⟨hmsg.2, hplain.2⟩ rfl rfl)
      · rw [he]
        exact hleft (hvote hgap hplain rfl rfl)
  | @decide rid a r hm hr hacc =>
      rw [hacc]
      rcases decidereq_cases hr with ⟨hnext, hv, rfl⟩ | ⟨_, rfl⟩
      · -- `decidereq` compares with `instance_h + 1`
        refine hleft (accHist_commit hgap hplain (hv ▸ hplain.1) ?_)
        rw [hnext, UInt32.toNat_add]
        exact Nat.mod_le _ _
      · exact hleft (hvote hgap hplain rfl rfl)
  | @commit r y a res hrun hm hold hacc =>
      rw [hacc]
      exact hleft (accHist_commit hgap hplain (hs.tidy.msg _ hm) ((hs.node x).run r hrun))
  | rebuilt hact hacc =>
      rcases hgap with ⟨rs, hlog⟩
      have hvalue := (hs.node x).value
      rcases hlog.restart hvalue hacc with ⟨hnew, _, hext, _⟩
      rw [hlog.file] at hacc
      exact hleft ⟨⟨hnew, plain_acceptor hlog.wf hvalue hacc, hext.1⟩, hext⟩
  | @restored text junk hact hm hacc =>
      rcases hgap with ⟨rs, hlog⟩
      rcases hs.dump text hm with ⟨d, ⟨rs', hd⟩, rfl⟩
      have hle : (s.node x).acc.instanceH ≤ d.instanceH := by
        rw [hact] at hfwd
        exact hd.height_eq ▸ hfwd
      rcases restore_logged hlog hd hle junk with ⟨r, hr, hlog', _, hinst, _, hfold⟩
      rw [hacc] at hr
      cases hr
      refine ⟨⟨⟨rs', hlog'⟩, ?_, hinst ▸ hle⟩, Or.inr ⟨d.file, junk, hact⟩⟩
      rw [hfold]
      exact newline_notMem_foldl rs' { (s.node x).acc with file := d.file } hd.wf hplain

/-- The step rule: a new run is for an instance that its acceptor has reached. -/
theorem Hist.step_of {s t : State} {a : Action} (hs : Hist s) (hfwd : Forward s a)
    (hrun : ∀ p inst cur newv, a = .run p inst cur newv →
      inst.toNat ≤ (s.node p).acc.instanceH.toNat + 1 ∧ '\n' ∉ newv)
    (h : step s a = some t) : Hist t := by
  have hacc := fun x => (hs.acc hfwd h x).1
  have hle : ∀ x, (s.node x).acc.instanceH.toNat ≤ (t.node x).acc.instanceH.toNat :=
    fun x => UInt32.le_iff_toNat_le.mp (hacc x).le
  refine ⟨?_, ?_, ?_⟩
  · exact hs.tidy.step_of (fun p inst cur newv ha => (hrun p inst cur newv ha).2)
      (fun x => (hacc x).plain) h
  · intro x
    refine ⟨(hacc x).gapless, ?_, ?_, ?_⟩
    · rw [(first_step h x).1, (first_step h x).2]
      exact (hs.node x).value
    · intro r' hr'
      have := hle x
      rcases run_step h hr' with ⟨r, hr, hinst⟩ | ⟨cur, newv, ha⟩
      · have := (hs.node x).run r hr
        rw [hinst]
        omega
      · have := (hrun x r'.inst cur newv ha).1
        omega
    · intro iv hiv
      rcases upcalls_step h hiv with hold | ⟨_, hinst, _⟩
      · exact UInt32.le_trans ((hs.node x).upcall iv hold) (hacc x).le
      · exact hinst ▸ UInt32.le_refl _
  · intro text hm
    rcases logdump_step h hm with hold | ⟨x, rfl⟩
    · exact hs.dump text hold
    · rcases (hs.node x).gapless with ⟨rs, hlog⟩
      exact ⟨_, ⟨rs, hlog⟩, hlog.dump_eq.symm⟩

end Paxos
end Yfs

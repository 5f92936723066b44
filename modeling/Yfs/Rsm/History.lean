import Yfs.Paxos.Crash
import Yfs.Paxos.History
import Yfs.Rsm.Views

/-!
# History — the view history of a node and the configuration that follows it

`commit_wo` accepts any instance above `instance_h`.  That the decided views of a node have no
gaps rests on the config layer: every ask is for the instance after `myvid`, and `myvid` is never
above `instance_h`, however long an upcall is delayed.  `decided_history` states what follows for
the log of a node, as long as no crash cuts an append.  After one that was cut a restarted node may
have forgotten a view (`torn_done_forgets`).

The upcalls of a node carry newer and newer views, but nothing orders their delivery.  If they
are delivered in the order of their commits, the configuration follows the acceptor
(`config_follows`); if not, an old view may overwrite a newer one for good
(`stale_upcall_last`).
-/

namespace Yfs
namespace Config
namespace Cluster

open Lib Paxos

/-! ## Starting a cluster from logs -/

/-- The `done` records of the log are for the instances `1..k`, in order. -/
structure DoneLog (rs : List Record) (k : ℕ) : Prop where
  wf : ∀ r ∈ rs, r.Wf
  lt : k < UInt32.size
  insts : doneInsts rs = (List.range k).map fun i => UInt32.ofNat (i + 1)

/-- The node has just been started with such a log. -/
def StartedNode (c : Cluster) (x : Str) : Prop :=
  ∃ junk first rs k acc,
    DoneLog rs k ∧ (first = true → IStream.IsWord x) ∧
      acceptor junk first x x (lines rs) = some acc ∧
      c.node x =
        { acc := acc
          myN := { n := 0, m := x }
          run := none
          up := true
          first := first
          value := x
          upcalls := [] } ∧
      c.cfg x = reconstruct acc { myvid := 0, mems := [] }

/-- Every node has just been started, and nothing is under way. -/
structure Started (c : Cluster) : Prop where
  node : ∀ x, StartedNode c x
  net : c.sys.pax.net = []
  asks : c.asks = []

/-! ## The invariant -/

structure CfgHist (acc : Acceptor) (c : Cfg) : Prop where
  myvid : c.myvid ≤ acc.instanceH
  mems : ∀ m ∈ c.mems, IStream.IsWord m

structure AskHist (s : State) (k : Ask) : Prop where
  inst : k.inst.toNat ≤ (s.node k.p).acc.instanceH.toNat + 1
  newv : '\n' ∉ k.newv

structure ClusterHist (c : Cluster) : Prop where
  pax : Hist c.sys.pax
  cfg : ∀ x, CfgHist (c.node x).acc (c.cfg x)
  ask : ∀ k ∈ c.asks, AskHist c.sys.pax k

theorem ClusterHist.gapless {c : Cluster} (hc : ClusterHist c) (x : Str) :
    Gapless (c.node x).acc :=
  (hc.pax.node x).gapless

theorem cfgHist_zero (acc : Acceptor) : CfgHist acc { myvid := 0, mems := [] } :=
  ⟨UInt32.le_iff_toNat_le.mpr (Nat.zero_le _), fun _ h => by cases h⟩

theorem CfgHist.reconstruct {acc : Acceptor} {c : Cfg} (h : CfgHist acc c) :
    CfgHist acc (reconstruct acc c) := by
  unfold Config.reconstruct
  split
  · exact ⟨UInt32.le_refl _, fun m hm => isWord_of_mem_members hm⟩
  · exact h

theorem CfgHist.le {acc acc' : Acceptor} {c : Cfg} (h : CfgHist acc c)
    (hle : acc.instanceH ≤ acc'.instanceH) : CfgHist acc' c :=
  ⟨UInt32.le_trans h.myvid hle, h.mems⟩

theorem AskHist.le {s t : State} {k : Ask} (h : AskHist s k)
    (hle : (s.node k.p).acc.instanceH ≤ (t.node k.p).acc.instanceH) : AskHist t k := by
  refine ⟨?_, h.newv⟩
  have := UInt32.le_iff_toNat_le.mp hle
  have := h.inst
  omega

/-- A step that moves no acceptor back. -/
theorem ClusterHist.of_le {c d : Cluster} (hc : ClusterHist c) (hpax : Hist d.sys.pax)
    (hle : ∀ x, (c.node x).acc.instanceH ≤ (d.node x).acc.instanceH)
    (hcfg : ∀ x, d.cfg x = c.cfg x ∨ CfgHist (d.node x).acc (d.cfg x))
    (hask : ∀ k ∈ d.asks, k ∈ c.asks) : ClusterHist d := by
  refine ⟨hpax, ?_, ?_⟩
  · intro x
    rcases hcfg x with heq | hnew
    · exact heq ▸ (hc.cfg x).le (hle x)
    · exact hnew
  · intro k hk
    exact (hc.ask k (hask k hk)).le (hle k.p)

theorem AskHist.of_from {c : Cluster} (hc : ClusterHist c) {k : Ask} (hk : AskFrom c k) :
    AskHist c.sys.pax k := by
  refine ⟨?_, ?_⟩
  · have hle := UInt32.le_iff_toNat_le.mp (hc.cfg k.p).myvid
    calc k.inst.toNat
        = ((c.cfg k.p).myvid + 1).toNat := by rw [hk.inst]
      _ ≤ (c.cfg k.p).myvid.toNat + 1 := by
          rw [UInt32.toNat_add]
          exact Nat.mod_le _ _
      _ ≤ (c.node k.p).acc.instanceH.toNat + 1 := Nat.succ_le_succ hle
  · rcases hk.newv with ⟨m, hm, hword⟩
    rw [hm]
    refine newline_notMem_value fun x hx => ?_
    rcases hword x hx with hold | hnew
    · exact (hc.cfg k.p).mems x hold
    · exact hnew

/-- The restores of an event. -/
def ForwardEvent (c : Cluster) : Event → Prop
  | .paxos a => Forward c.sys.pax a
  | _ => True

theorem asks_afterPaxos {c : Cluster} {t : State} {a : Action} {k : Ask}
    (hk : k ∈ (c.afterPaxos t a).asks) : k ∈ c.asks := by
  cases a with
  | restart x junk => exact (List.mem_filter.mp hk).1
  | _ => exact hk

theorem cfg_afterPaxos (c : Cluster) (t : State) (a : Action) (x : Str) :
    (c.afterPaxos t a).cfg x = recfg c.sys.cfg t a x :=
  rfl

theorem cfg_recfg (cfg : Str → Cfg) (t : State) (a : Action) (x : Str) :
    (recfg cfg t a x = cfg x ∧ (∀ junk, a ≠ .restart x junk) ∧
        ∀ text junk, a ≠ .restore x text junk) ∨
      (∃ junk, a = .restart x junk) ∧
        recfg cfg t a x = reconstruct (t.node x).acc { myvid := 0, mems := [] } ∨
      (∃ text junk, a = .restore x text junk) ∧
        recfg cfg t a x = reconstruct (t.node x).acc (cfg x) := by
  cases a with
  | restart y junk =>
      by_cases hx : x = y
      · subst hx
        exact Or.inr (Or.inl ⟨⟨junk, rfl⟩, Function.update_self _ _ _⟩)
      · refine Or.inl ⟨Function.update_of_ne hx _ _, ?_, by simp⟩
        rintro junk ⟨⟩
        exact hx rfl
  | restore y text junk =>
      by_cases hx : x = y
      · subst hx
        exact Or.inr (Or.inr ⟨⟨text, junk, rfl⟩, Function.update_self _ _ _⟩)
      · refine Or.inl ⟨Function.update_of_ne hx _ _, by simp, ?_⟩
        rintro text junk ⟨⟩
        exact hx rfl
  | _ => exact Or.inl ⟨rfl, by simp, by simp⟩

theorem ClusterHist.step {c d : Cluster} {e : Event} (hc : ClusterHist c)
    (hfwd : ForwardEvent c e) (h : step c e = some d) : ClusterHist d := by
  cases step_move h with
  | @paxos a t hrun ht =>
      have hpax : Hist t := by
        refine hc.pax.step_of hfwd ?_ ht
        rintro p inst cur newv rfl
        cases hrun
      have hle : ∀ x, (c.node x).acc.instanceH ≤ (t.node x).acc.instanceH :=
        fun x => (hc.pax.acc hfwd ht x).1.le
      refine hc.of_le hpax hle ?_ fun k hk => asks_afterPaxos hk
      intro x
      rcases cfg_recfg c.sys.cfg t a x with ⟨heq, _⟩ | ⟨_, heq⟩ | ⟨_, heq⟩
      · exact Or.inl heq
      · refine Or.inr ?_
        rw [cfg_afterPaxos, heq]
        exact (cfgHist_zero _).reconstruct
      · refine Or.inr ?_
        rw [cfg_afterPaxos, heq]
        exact ((hc.cfg x).le (hle x)).reconstruct
  | @ask e k he hk =>
      refine ⟨hc.pax, hc.cfg, ?_⟩
      intro k' hk'
      rcases List.mem_cons.mp hk' with rfl | hold
      · exact (AskHist.of_from hc hk).le (UInt32.le_refl _)
      · exact (hc.ask k' hold).le (UInt32.le_refl _)
  | @run k t hk ht =>
      have hrun : Forward c.sys.pax (.run k.p k.inst k.cur k.newv) := trivial
      refine hc.of_le (hc.pax.step_of hrun ?_ ht) (fun x => (hc.pax.acc hrun ht x).1.le)
        (fun x => Or.inl rfl) (fun k' hk' => List.mem_of_mem_erase hk')
      rintro p inst cur newv ⟨⟩
      exact ⟨(hc.ask k hk).inst, (hc.ask k hk).newv⟩
  | @busy k =>
      exact hc.of_le hc.pax (fun x => UInt32.le_refl _) (fun x => Or.inl rfl)
        (fun k' hk' => List.mem_of_mem_erase hk')
  | @paxosCommit p inst value hmem =>
      have hacc : ∀ x, ((c.committed p inst value).node x).acc = (c.node x).acc :=
        fun x => by rw [committed_node]
      refine hc.of_le ?_ (fun x => ?_) (fun x => ?_) (fun k hk => hk)
      · exact hc.pax.setNode (fun r hr => hr) (fun iv hiv => List.mem_of_mem_erase hiv)
      · rw [hacc x]
        exact UInt32.le_refl _
      · rw [hacc x, committed_cfg]
        split
        case isTrue hx =>
          subst hx
          exact Or.inr ⟨(hc.pax.node x).upcall _ hmem, fun m hm => isWord_of_mem_members hm⟩
        case isFalse => exact Or.inl rfl
  | wake | beat | gone _ => exact ⟨hc.pax, hc.cfg, hc.ask⟩
  | @abort b hb hup hfail =>
      refine hc.of_le ?_ (fun x => ?_) (fun x => Or.inl rfl) (fun k hk => hk)
      · exact hc.pax.setNode (fun r hr => by cases hr) (fun iv hiv => by cases hiv)
      · rw [killed_acc]
        exact UInt32.le_refl _

/-! ## The decided history -/

theorem clusterHist_started {c : Cluster} (h : Started c) : ClusterHist c := by
  have hvalue : ∀ {first : Bool} {x : Str}, (first = true → IStream.IsWord x) →
      first = true → '\n' ∉ x := fun h hf => newline_notMem_of_isWord (h hf)
  refine ⟨⟨⟨?_, ?_⟩, ?_, ?_⟩, ?_, ?_⟩
  · intro x
    rcases h.node x with ⟨junk, first, rs, k, acc, hlog, hword, hacc, hnd, _⟩
    change NodeTidy x (c.node x)
    rw [hnd]
    exact ⟨plain_acceptor hlog.wf (hvalue hword) hacc, rfl, fun r hr => by cases hr⟩
  · rw [h.net]
    exact fun m hm => by cases hm
  · intro x
    rcases h.node x with ⟨junk, first, rs, k, acc, hlog, hword, hacc, hnd, _⟩
    have hgap := (gapless_acceptor hlog.wf hlog.lt hlog.insts (hvalue hword) hacc).1
    change NodeHist (c.node x)
    rw [hnd]
    refine ⟨hgap, hvalue hword, ?_, ?_⟩
    · exact fun r hr => by cases hr
    · exact fun iv hiv => by cases hiv
  · rw [h.net]
    exact fun text hm => by cases hm
  · intro x
    rcases h.node x with ⟨junk, first, rs, k, acc, hlog, hword, hacc, hnd, hcfg⟩
    rw [hnd, hcfg]
    exact (cfgHist_zero _).reconstruct
  · rw [h.asks]
    exact fun k hk => by cases hk

theorem started_boot {first : Str} (hf : IStream.IsWord first) : Started (boot first) := by
  refine ⟨?_, rfl, rfl⟩
  intro x
  refine ⟨0, decide (x = first), [], 0, _, ⟨?_, by decide, rfl⟩, ?_, ?_, rfl, rfl⟩
  · exact fun r hr => by cases hr
  · intro hx
    rw [of_decide_eq_true hx]
    exact hf
  · change acceptor 0 (decide (x = first)) x x [] =
      some ((acceptor 0 (decide (x = first)) x x []).getD (fresh x []))
    rw [acceptor_empty, Option.getD_some]

/-- No log is restored. -/
def Joinless (_ : Cluster) : Event → Prop
  | .paxos (.restore _ _ _) => False
  | _ => True

instance (c : Cluster) (e : Event) : Decidable (Joinless c e) :=
  match e with
  | .paxos (.restore _ _ _) => isFalse not_false
  | .paxos (.run _ _ _ _) | .paxos (.call _) | .paxos (.skip _) | .paxos (.reply _ _)
  | .paxos (.endLoop _) | .paxos (.handle _) | .paxos (.restart _ _) | .paxos (.dump _)
  | .add _ _ _ | .removeWo _ _ | .run _ | .paxosCommit _ _ _ | .wake _ | .beat _ _
  | .heartbeat _ | .lose _ => isTrue trivial

theorem Joinless.forward {c : Cluster} {e : Event} (h : Joinless c e) : ForwardEvent c e := by
  cases e with
  | paxos a =>
      cases a with
      | restore x text junk => exact h.elim
      | _ => trivial
  | _ => trivial

/-- Outside a Paxos step no acceptor changes. -/
theorem pax_step {c d : Cluster} {e : Event} (h : step c e = some d) :
    (∃ a, Paxos.step c.sys.pax a = some d.sys.pax ∧ (isRun a = true ∨ e = .paxos a)) ∨
      ∀ x, (d.node x).acc = (c.node x).acc := by
  cases step_move h with
  | @paxos a t hrun ht => exact Or.inl ⟨a, ht, Or.inr rfl⟩
  | @run k t hk ht => exact Or.inl ⟨_, ht, Or.inl rfl⟩
  | @paxosCommit p inst value hmem =>
      refine Or.inr fun x => ?_
      rw [committed_node]
  | @abort b hb hup hfail => exact Or.inr (killed_acc c b)
  | _ => exact Or.inr fun x => rfl

/-- Without restores a history is only extended. -/
theorem ClusterHist.extends {c d : Cluster} {e : Event} (hc : ClusterHist c)
    (hj : Joinless c e) (h : Cluster.step c e = some d) (x : Str) :
    Extends (c.node x).acc (d.node x).acc := by
  rcases pax_step h with ⟨a, ha, hrun⟩ | hacc
  · have hnot : ∀ text junk, a ≠ .restore x text junk := by
      rintro text junk rfl
      rcases hrun with hr | rfl
      · cases hr
      · exact hj
    have hfwd : Forward c.sys.pax a := by
      rcases hrun with hr | rfl
      · cases a with
        | run p inst cur newv => trivial
        | _ => cases hr
      · exact hj.forward
    rcases (hc.pax.acc hfwd ha x).2 with hext | ⟨text, junk, hact⟩
    · exact hext
    · exact absurd hact (hnot text junk)
  · rw [hacc x]
    exact .refl _

theorem extends_reach {c d : Cluster} (hc : ClusterHist c)
    (h : Reach (fun c' => c' = c) step Joinless d) (x : Str) :
    ClusterHist d ∧ Extends (c.node x).acc (d.node x).acc := by
  refine Reach.invariant (I := fun d => ClusterHist d ∧ Extends (c.node x).acc (d.node x).acc)
    ?_ ?_ h
  · rintro d rfl
    exact ⟨hc, .refl _⟩
  · rintro d e d' ⟨hd, hext⟩ hj hstep
    exact ⟨hd.step hj.forward hstep, hext.trans (hd.extends hj hstep x)⟩

/-- A node may die in the middle of an append that a Paxos step makes. -/
def stepCrash (c : Cluster) : Crash Event → Option Cluster
  | .whole e => step c e
  | .torn (.paxos a) k junk =>
      (cutLog c.sys.pax a k).bind fun s => step (c.setPax s) (.paxos (.restart a.actor junk))
  | .torn _ _ _ => none

/-- If no crash cuts an append, the `done` records of a log are always those of the instances
`1..instance_h`, each once and in order, with the values that the acceptor holds for them; no later
step of a run changes one of these values.  The configuration is never ahead of the acceptor, and a
prepare for one of the instances is answered with the value that the log has for it. -/
theorem decided_history {c : Cluster} (h : Reach Started stepCrash (Whole Joinless) c) (x : Str) :
    (∃ rs, (∀ r ∈ rs, r.Wf) ∧ (c.node x).acc.file = lines rs ∧
      dones rs = (List.range (c.node x).acc.instanceH.toNat).map
        (fun i => (UInt32.ofNat (i + 1), (c.node x).acc.values (UInt32.ofNat (i + 1)))) ∧
      ∀ a : PrepareArg, a.inst ≠ 0 → a.inst ≤ (c.node x).acc.instanceH →
        (preparereq (c.node x).acc a).2.oldinstance = true ∧
          Record.done a.inst (preparereq (c.node x).acc a).2.vA ∈ rs) ∧
    (c.cfg x).myvid ≤ (c.node x).acc.instanceH ∧
    ∀ d, Reach (fun c' => c' = c) stepCrash (Whole Joinless) d →
      ∀ i, i ≤ (c.node x).acc.instanceH →
      i ≤ (d.node x).acc.instanceH ∧ (d.node x).acc.values i = (c.node x).acc.values i := by
  have hc : ClusterHist c :=
    Reach.invariant (I := ClusterHist) (fun _ => clusterHist_started)
      (fun _ _ _ hs hj hstep => hs.step hj.forward hstep) (reach_of_whole (fun _ _ => rfl) h)
  refine ⟨?_, (hc.cfg x).myvid, ?_⟩
  · rcases (hc.pax.node x).gapless with ⟨rs, hlog⟩
    refine ⟨rs, hlog.wf, hlog.file, hlog.dones, ?_⟩
    intro a h0 hle
    rcases preparereq_cases (c.node x).acc a with ⟨_, _, hold, _, hv⟩ | ⟨hlt, _⟩ | ⟨hlt, _⟩
    · refine ⟨hold, mem_dones.mp ?_⟩
      rw [hv, hlog.dones]
      exact mem_decided.mpr ⟨h0, hle, rfl⟩
    · exact absurd hlt (UInt32.not_lt.mpr hle)
    · exact absurd hlt (UInt32.not_lt.mpr hle)
  · intro d hd i hi
    have hext := (extends_reach hc (reach_of_whole (fun _ _ => rfl) hd) x).2
    exact ⟨UInt32.le_trans hi hext.1, hext.2 i hi⟩

theorem started_a : Started (boot ['a']) := started_boot (by decide)

theorem decided_history_addB :
    ∃ c, Reach Started stepCrash (Whole Joinless) c ∧ (c.node ['a']).acc.instanceH = 2 ∧
      ∃ rs, (c.node ['a']).acc.file = lines rs ∧
        (dones rs).map Prod.fst = [1, 2] := by
  have hrun : ∃ c, Reach Started stepCrash (Whole Joinless) c ∧
      (c.node ['a']).acc.instanceH = 2 :=
    Reach.exists_of_runFrom (wholes addB) started_a (by decide +kernel)
  rcases hrun with ⟨c, hreach, hinst⟩
  rcases decided_history hreach ['a'] with ⟨⟨rs, _, hfile, hdones, _⟩, _⟩
  refine ⟨c, hreach, hinst, rs, hfile, ?_⟩
  rw [hdones, hinst]
  rfl

/-- `a` decides to add `b`, and dies when it has written `done ` of the record of view 2. -/
def tornDone : List (Crash Event) :=
  wholes (addB.take 11) ++
    [.torn (.paxos (.handle (.decidereq 0 ['a'] { inst := 2, v := value [['a'], ['b']] }))) 5 0]

/-- `a` has lost view 1: the keyword without a number is read as another record for the instance
that was read before, with an empty value.  A prepare for view 1 is answered with that. -/
theorem torn_done_forgets :
    ∃ c d, Reach Started stepCrash (Interrupted Joinless) c ∧
      Reach (fun c' => c' = c) stepCrash (Interrupted Joinless) d ∧
      ((c.node ['a']).acc.instanceH = 1 ∧ (c.node ['a']).acc.values 1 = ['a']) ∧
      (d.node ['a']).acc.instanceH = 1 ∧ (d.node ['a']).acc.values 1 = [] ∧
      (preparereq (d.node ['a']).acc { inst := 1, n := { n := 1, m := ['b'] } }).2 =
        { oldinstance := true, accept := false, nA := { n := 0, m := [] }, vA := [] } := by
  have hrun : ∃ d, Reach (fun c' => c' = boot ['a']) stepCrash (Interrupted Joinless) d ∧
      (d.node ['a']).acc.instanceH = 1 ∧ (d.node ['a']).acc.values 1 = [] ∧
      (preparereq (d.node ['a']).acc { inst := 1, n := { n := 1, m := ['b'] } }).2 =
        { oldinstance := true, accept := false, nA := { n := 0, m := [] }, vA := [] } :=
    Reach.exists_of_runFrom tornDone rfl (by decide +kernel)
  rcases hrun with ⟨d, hreach, hd⟩
  exact ⟨boot ['a'], d, .start started_a, hreach, by decide +kernel, hd⟩

/-! ## The configuration follows the acceptor -/

/-- The configuration once all the upcalls are delivered, in their order. -/
def latest (c : Cfg) (upcalls : List (UInt32 × Str)) : Cfg :=
  upcalls.foldl (fun _ iv => { myvid := iv.1, mems := members iv.2 }) c

/-- The upcalls under way are for later and later views, and the last one of them is for the
view that the acceptor is in. -/
structure Follows (nd : Node) (c : Cfg) : Prop where
  sorted : (c.myvid :: nd.upcalls.map Prod.fst).Pairwise (· < ·)
  latest : nd.up = true → latest c nd.upcalls =
    { myvid := nd.acc.instanceH, mems := members (nd.acc.values nd.acc.instanceH) }

/-- Upcalls are delivered in the order of their commits; a log is restored only when no upcall
is under way, and only if its history is not shorter than the node's own. -/
def InOrder (c : Cluster) : Event → Prop
  | .paxosCommit p inst value => (c.node p).upcalls.head? = some (inst, value)
  | .paxos (.restore x text _) =>
      (c.node x).upcalls = [] ∧ (c.node x).acc.instanceH ≤ height text
  | _ => True

instance (c : Cluster) (e : Event) : Decidable (InOrder c e) :=
  match e with
  | .paxosCommit p inst value =>
      inferInstanceAs (Decidable ((c.node p).upcalls.head? = some (inst, value)))
  | .paxos (.restore x text _) =>
      inferInstanceAs (Decidable ((c.node x).upcalls = [] ∧
        (c.node x).acc.instanceH ≤ height text))
  | .paxos (.run _ _ _ _) | .paxos (.call _) | .paxos (.skip _) | .paxos (.reply _ _)
  | .paxos (.endLoop _) | .paxos (.handle _) | .paxos (.restart _ _) | .paxos (.dump _)
  | .add _ _ _ | .removeWo _ _ | .run _ | .wake _ | .beat _ _
  | .heartbeat _ | .lose _ => isTrue trivial

theorem InOrder.forward {c : Cluster} {e : Event} (h : InOrder c e) : ForwardEvent c e := by
  cases e with
  | paxos a =>
      cases a with
      | restore x text junk => exact h.2
      | _ => trivial
  | _ => trivial

/-- A node without upcalls under way whose configuration was just rebuilt. -/
theorem Follows.reconstruct {nd : Node} {c : Cfg} (hnil : nd.upcalls = [])
    (hzero : nd.up = true → nd.acc.instanceH = 0 →
      c = { myvid := 0, mems := members (nd.acc.values 0) }) :
    Follows nd (reconstruct nd.acc c) := by
  refine ⟨?_, fun hup => ?_⟩
  · simp [hnil]
  · rw [hnil]
    by_cases h0 : nd.acc.instanceH = 0
    · simp [Config.reconstruct, h0, hzero hup h0, Cluster.latest]
    · have hpos : 0 < nd.acc.instanceH := UInt32.pos_iff_ne_zero.mpr h0
      simp [Config.reconstruct, hpos, Cluster.latest, getView]

theorem Follows.commit {nd nd' : Node} {c : Cfg} (h : Follows nd c) {iv : UInt32 × Str}
    (hvid : c.myvid ≤ nd.acc.instanceH) (hups : ∀ iv ∈ nd.upcalls, iv.1 ≤ nd.acc.instanceH)
    (hlt : nd.acc.instanceH < iv.1) (hnew : nd'.upcalls = nd.upcalls ++ [iv])
    (hinst : nd'.acc.instanceH = iv.1) (hvalue : nd'.acc.values iv.1 = iv.2) :
    Follows nd' c := by
  refine ⟨?_, fun _ => ?_⟩
  · have hlast : ∀ i ∈ c.myvid :: nd.upcalls.map Prod.fst, i < iv.1 := by
      intro i hi
      rcases List.mem_cons.mp hi with rfl | hi
      · exact UInt32.lt_of_le_of_lt hvid hlt
      · rcases List.mem_map.mp hi with ⟨jv, hjv, rfl⟩
        exact UInt32.lt_of_le_of_lt (hups jv hjv) hlt
    rw [hnew, List.map_append, ← List.cons_append]
    refine List.pairwise_append.mpr ⟨h.sorted, List.pairwise_singleton _ _, ?_⟩
    intro i hi j hj
    rw [List.mem_singleton.mp hj]
    exact hlast i hi
  · rw [hnew, Cluster.latest, List.foldl_append, hinst, hvalue]
    rfl

/-- The view numbered 0 has no members. -/
theorem members_zero {acc : Acceptor} (h : Gapless acc) : members (acc.values 0) = [] := by
  rcases h with ⟨rs, hlog⟩
  rw [hlog.rest 0 (Or.inl rfl)]
  rfl

theorem follows_paxos {c : Cluster} {a : Action} {t : State} (hc : ClusterHist c)
    (hord : InOrder c (.paxos a)) (ht : Paxos.step c.sys.pax a = some t) {x : Str}
    (hx : Follows (c.node x) (c.cfg x)) : Follows (t.node x) (recfg c.sys.cfg t a x) := by
  have hacc := (hc.pax.acc hord.forward ht x).1
  rcases cfg_recfg c.sys.cfg t a x with
    ⟨heq, hrestart, hrestore⟩ | ⟨⟨junk, rfl⟩, heq⟩ | ⟨⟨text, junk, rfl⟩, heq⟩
  · rw [heq]
    cases upcall_step ht x with
    | keep hup hupcalls hinst hvalues =>
        refine ⟨?_, ?_⟩
        · rw [hupcalls]
          exact hx.sorted
        · intro hup'
          rw [hupcalls, hinst, hvalues]
          exact hx.latest (hup ▸ hup')
    | commit hup hupcalls hlt hinst hvalue =>
        exact hx.commit (hc.cfg x).myvid (hc.pax.node x).upcall hlt hupcalls hinst hvalue
    | down hup hupcalls =>
        refine ⟨by simp [hupcalls], ?_⟩
        intro hup'
        rw [hup] at hup'
        cases hup'
    | rebuilt hact _ => exact absurd hact (hrestart _)
    | restored hact _ _ => exact absurd hact (hrestore _ _)
  · rw [heq]
    refine .reconstruct (upcalls_restart ht) fun _ _ => ?_
    rw [members_zero hacc.gapless]
  · rw [heq]
    -- the guard leaves no upcall under way, so the configuration was that of the acceptor
    have hnil : (c.node x).upcalls = [] := hord.1
    rcases upcalls_restore ht with ⟨hup, hups⟩ | ⟨hup, hups⟩
    · refine .reconstruct hups fun hup' => ?_
      rw [hup] at hup'
      cases hup'
    · refine .reconstruct (hups.trans hnil) fun hup' h0 => ?_
      have hinst : (c.node x).acc.instanceH = 0 := by
        have hle := UInt32.le_iff_toNat_le.mp hacc.le
        rw [h0] at hle
        exact UInt32.toNat_inj.mp (Nat.le_zero.mp hle)
      have hlatest := hx.latest (hup ▸ hup')
      rw [hnil, hinst, members_zero (hc.gapless x)] at hlatest
      rw [members_zero hacc.gapless]
      exact hlatest

/-- A delivered upcall that was the oldest one. -/
theorem Follows.paxosCommit {nd : Node} {c : Cfg} (h : Follows nd c) {inst : UInt32}
    {v : Str} (nd' : Node) (hhead : nd.upcalls.head? = some (inst, v)) (hacc : nd'.acc = nd.acc)
    (hup : nd'.up = nd.up) (hupcalls : nd'.upcalls = nd.upcalls.erase (inst, v)) :
    c.myvid < inst ∧ Follows nd' { myvid := inst, mems := members v } := by
  rcases List.head?_eq_some_iff.mp hhead with ⟨rest, hrest⟩
  have hsorted := h.sorted
  rw [hrest, List.erase_cons_head] at hupcalls
  rw [hrest, List.map_cons, List.pairwise_cons] at hsorted
  refine ⟨hsorted.1 inst List.mem_cons_self, ?_, ?_⟩
  · rw [hupcalls]
    exact hsorted.2
  · intro hup'
    have hlatest := h.latest (hup ▸ hup')
    rw [hrest] at hlatest
    rw [hupcalls, hacc]
    exact hlatest

theorem Follows.node_eq {nd nd' : Node} {c : Cfg} (h : Follows nd c) (hacc : nd'.acc = nd.acc)
    (hup : nd'.up = nd.up) (hupcalls : nd'.upcalls = nd.upcalls) : Follows nd' c := by
  refine ⟨?_, ?_⟩
  · rw [hupcalls]
    exact h.sorted
  · intro hup'
    rw [hupcalls, hacc]
    exact h.latest (hup ▸ hup')

theorem Follows.down {nd : Node} {c : Cfg} : Follows nd.down c :=
  ⟨by simp [Node.down], fun h => by cases h⟩

theorem myvid_le_reconstruct {acc : Acceptor} {vid : UInt32} (h : vid ≤ acc.instanceH) (c : Cfg) :
    vid ≤ (reconstruct acc c).myvid := by
  unfold reconstruct
  split
  · exact h
  case isFalse h0 =>
    have h0 : acc.instanceH.toNat = 0 := by
      have := mt UInt32.lt_iff_toNat_lt.mpr h0
      simpa using this
    have hle := UInt32.le_iff_toNat_le.mp h
    exact UInt32.le_iff_toNat_le.mpr (by omega)

/-- In a run in order, a step keeps every configuration following and moves none back. -/
theorem follows_step {c d : Cluster} {e : Event} (hc : ClusterHist c) (hord : InOrder c e)
    (h : step c e = some d) {x : Str} (hx : Follows (c.node x) (c.cfg x)) :
    (c.cfg x).myvid ≤ (d.cfg x).myvid ∧ Follows (d.node x) (d.cfg x) := by
  cases step_move h with
  | @paxos a t hrun ht =>
      refine ⟨?_, follows_paxos hc hord ht hx⟩
      have hle := UInt32.le_trans (hc.cfg x).myvid (hc.pax.acc hord.forward ht x).1.le
      rw [cfg_afterPaxos]
      rcases cfg_recfg c.sys.cfg t a x with ⟨heq, _⟩ | ⟨_, heq⟩ | ⟨_, heq⟩
      · exact heq ▸ UInt32.le_refl _
      · exact heq ▸ myvid_le_reconstruct hle _
      · exact heq ▸ myvid_le_reconstruct hle _
  | @run k t hk ht =>
      have hord' : InOrder c (.paxos (.run k.p k.inst k.cur k.newv)) := trivial
      exact ⟨UInt32.le_refl _, follows_paxos hc hord' ht hx⟩
  | @paxosCommit p inst value hmem =>
      rw [committed_cfg]
      split
      case isTrue hp =>
        subst hp
        have hnew := hx.paxosCommit ((c.committed x inst value).node x) hord
          (by rw [committed_node]) (by rw [committed_node]) (by rw [committed_node, if_pos rfl])
        exact ⟨UInt32.le_of_lt hnew.1, hnew.2⟩
      case isFalse hp =>
        refine ⟨UInt32.le_refl _, hx.node_eq ?_ ?_ ?_⟩
        · rw [committed_node]
        · rw [committed_node]
        · rw [committed_node, if_neg hp]
  | @abort b hb hup hfail =>
      refine ⟨UInt32.le_refl _, ?_⟩
      rw [killed_node]
      split
      · exact .down
      · exact hx
  | _ => exact ⟨UInt32.le_refl _, hx⟩

theorem follows_started {c : Cluster} (h : Started c) (x : Str) :
    Follows (c.node x) (c.cfg x) := by
  rcases h.node x with ⟨junk, first, rs, k, acc, hlog, hword, hacc, hnd, hcfg⟩
  have hgap := (clusterHist_started h).gapless x
  rw [hnd] at hgap
  rw [hnd, hcfg]
  refine .reconstruct rfl fun _ _ => ?_
  rw [members_zero hgap]

/-- If the upcalls of each node are delivered in the order of their commits, `myvid` never
decreases, and a running node without upcalls under way has the view of its acceptor. -/
theorem config_follows {c : Cluster} (h : Reach Started step InOrder c) (x : Str) :
    ((c.node x).up = true → (c.node x).upcalls = [] →
      (c.cfg x).myvid = (c.node x).acc.instanceH ∧
        (c.cfg x).mems = members ((c.node x).acc.values (c.node x).acc.instanceH)) ∧
    ∀ e d, InOrder c e → step c e = some d → (c.cfg x).myvid ≤ (d.cfg x).myvid := by
  have hc : ClusterHist c ∧ Follows (c.node x) (c.cfg x) := by
    refine Reach.invariant (I := fun c => ClusterHist c ∧ Follows (c.node x) (c.cfg x)) ?_ ?_ h
    · exact fun c hs => ⟨clusterHist_started hs, follows_started hs x⟩
    · rintro c e d ⟨hc, hx⟩ hord hstep
      exact ⟨hc.step hord.forward hstep, (follows_step hc hord hstep hx).2⟩
  refine ⟨?_, fun e d hord hstep => (follows_step hc.1 hord hstep hc.2).1⟩
  intro hup hnil
  have hlatest := hc.2.latest hup
  rw [hnil] at hlatest
  exact ⟨congrArg Cfg.myvid hlatest, congrArg Cfg.mems hlatest⟩

theorem config_follows_addB :
    ∃ c, Reach Started step InOrder c ∧ (c.node ['a']).upcalls = [] ∧
      (c.cfg ['a']).myvid = (c.node ['a']).acc.instanceH ∧
      (c.cfg ['a']).mems = members ((c.node ['a']).acc.values (c.node ['a']).acc.instanceH) := by
  have hrun : ∃ c, Reach Started step InOrder c ∧
      (c.node ['a']).up = true ∧ (c.node ['a']).upcalls = [] :=
    Reach.exists_of_runFrom addB started_a (by decide +kernel)
  rcases hrun with ⟨c, hreach, hup, hnil⟩
  exact ⟨c, hreach, hnil, (config_follows hreach ['a']).1 hup hnil⟩

/-- `b` joins while the upcall of view 2 is under way at `a`.  Then `b` removes `a`, and both
upcalls are under way at `a`. -/
def removeA : List Event :=
  let n : PropT := { n := 1, m := ['b'] }
  let v := value [['b']]
  let z : PropT := { n := 0, m := ['a'] }
  addB.dropLast ++ [.paxos (.dump ['a']), .paxos (.restore ['b'] logOfA 0)] ++
    removeRun ['b'] ['a'] 2 [['a'], ['b']] ++
    paxosSteps (prepareAt ['b'] 1 ['a'] { inst := 3, n := n } z ++
      prepareAt ['b'] 1 ['b'] { inst := 3, n := n } z ++ [.endLoop ['b']] ++
      acceptAt ['b'] 1 ['a'] { inst := 3, n := n, v := v } ++
      acceptAt ['b'] 1 ['b'] { inst := 3, n := n, v := v } ++ [.endLoop ['b']] ++
      decideAt ['b'] 1 ['a'] { inst := 3, v := v })

/-- The upcall of view 2 is delivered last: `a` goes back to view 2 and stays there. -/
theorem stale_upcall_last :
    ∃ c d, Reach Started step anyStep c ∧
      step c (.paxosCommit ['a'] 2 (value [['a'], ['b']])) = some d ∧
      (d.cfg ['a']).myvid < (c.cfg ['a']).myvid ∧ (d.node ['a']).up = true ∧
      (d.node ['a']).upcalls = [] ∧ (d.cfg ['a']).myvid ≠ (d.node ['a']).acc.instanceH := by
  have hrun : ∃ c, Reach Started step anyStep c ∧
      (step c (.paxosCommit ['a'] 2 (value [['a'], ['b']]))).any (fun d => decide
        ((d.cfg ['a']).myvid < (c.cfg ['a']).myvid ∧ (d.node ['a']).up = true ∧
          (d.node ['a']).upcalls = [] ∧
          (d.cfg ['a']).myvid ≠ (d.node ['a']).acc.instanceH)) = true :=
    Reach.exists_of_runFrom (removeA ++ [.paxosCommit ['a'] 3 (value [['b']])])
      started_a (by decide +kernel)
  rcases hrun with ⟨c, hreach, hany⟩
  rcases (Option.any_eq_true _ _).mp hany with ⟨d, hd, hP⟩
  exact ⟨c, d, hreach, hd, of_decide_eq_true hP⟩

end Cluster
end Config
end Yfs

import Yfs.Rsm.Restore

/-!
# Heartbeat — how far apart two views may be when a heartbeat is served

`config::heartbeat` compares the view of the sender with its own.  If they differ while a run of
the proposer is under way, it aborts unless they are next to each other.  Nothing in the protocol
bounds that difference: a node that missed decides keeps pinging with its old view, and is not
waited for when the next view is proposed (`heartbeat_kills`).

Heartbeats are harmless if it is: a run for a view starts only when every member that still pings
or proposes has reached the view before it (`heartbeat_survives`).  Every view is then one of the
last two that were proposed.
-/

namespace Yfs
namespace Paxos

open Lib

/-- The bootstrap view, or one for which, or for a later one than which, a run was started. -/
def Begun (s : State) (i : UInt32) : Prop :=
  i.toNat ≤ 1 ∨ ∃ info ∈ s.runs, i.toNat ≤ info.inst.toNat

theorem Begun.mono {s t : State} {i j : UInt32} (h : Begun s i) (hij : j ≤ i)
    (hruns : ∀ info ∈ s.runs, info ∈ t.runs) : Begun t j := by
  have hle := UInt32.le_iff_toNat_le.mp hij
  rcases h with h1 | ⟨info, hinfo, hinst⟩
  · exact Or.inl (hle.trans h1)
  · exact Or.inr ⟨info, hruns info hinfo, hle.trans hinst⟩

theorem begun_of_info {s : State} {rid : ℕ} {info : RunInfo} (h : s.runs[rid]? = some info) :
    Begun s info.inst :=
  Or.inr ⟨info, List.mem_of_getElem? h, le_refl _⟩

theorem instanceH_commitWo (s : Acceptor) (inst : UInt32) (v : Str) :
    (commitWo s inst v).1.instanceH = s.instanceH ∨ (commitWo s inst v).1.instanceH = inst := by
  by_cases hlt : s.instanceH < inst
  · rw [commitWo_of_lt hlt]
    exact Or.inr rfl
  · rw [commitWo_of_le (UInt32.not_lt.mp hlt)]
    exact Or.inl rfl

/-- An acceptor gets to an instance only by a run for it or by the log of another one. -/
theorem instanceH_step {s t : State} {a : Action} (hs : Hist s) (hw : Wf s) (hfwd : Forward s a)
    (h : step s a = some t) (x : Str) :
    (t.node x).acc.instanceH = (s.node x).acc.instanceH ∨
      Begun s (t.node x).acc.instanceH ∨
      ∃ text, Msg.logdump text ∈ s.net ∧ (t.node x).acc.instanceH = height text := by
  have hcommit : ∀ {inst : UInt32} (v : Str), Begun s inst →
      (commitWo (s.node x).acc inst v).1.instanceH = (s.node x).acc.instanceH ∨
        Begun s (commitWo (s.node x).acc inst v).1.instanceH := by
    intro inst v hinst
    rcases instanceH_commitWo (s.node x).acc inst v with heq | heq
    · exact Or.inl heq
    · refine Or.inr ?_
      rw [heq]
      exact hinst
  cases acc_step h x with
  | keep hacc =>
      rw [hacc]
      exact Or.inl rfl
  | @prepare rid a hm hacc =>
      rw [hacc]
      rcases preparereq_cases (s.node x).acc a with ⟨_, he, _⟩ | ⟨_, _, he, _⟩ | ⟨_, _, he, _⟩ <;>
        rw [he] <;> exact Or.inl rfl
  | @accept rid a hm hacc =>
      rw [hacc]
      rcases acceptreq_cases (s.node x).acc a with ⟨_, he⟩ | ⟨_, he⟩ <;> rw [he] <;>
        exact Or.inl rfl
  | @decide rid a r hm hr hacc =>
      rw [hacc]
      rcases decidereq_cases hr with ⟨_, _, rfl⟩ | ⟨_, rfl⟩
      · rcases hw.msg _ hm with ⟨rid', info, q, hinfo, hinst, _⟩
        exact (hcommit a.v (hinst ▸ begun_of_info hinfo)).imp_right Or.inl
      · exact Or.inl rfl
  | @commit r y a res hrun hm hold hacc =>
      rw [hacc]
      exact (hcommit res.vA (begun_of_info (hw.run x r hrun).info)).imp_right Or.inl
  | rebuilt hact hacc =>
      rcases (hs.node x).gapless with ⟨rs, hlog⟩
      rcases (hlog.restart (hs.node x).value hacc).2.2.2 with heq | heq
      · exact Or.inl heq
      · exact Or.inr (Or.inl (Or.inl (by rw [heq]; decide)))
  | @restored text junk hact hm hacc =>
      rcases (hs.node x).gapless with ⟨rs, hlog⟩
      rcases hs.dump text hm with ⟨d, ⟨rs', hd⟩, rfl⟩
      have hle : (s.node x).acc.instanceH ≤ d.instanceH := by
        rw [hact] at hfwd
        exact hd.height_eq ▸ hfwd
      rcases restore_logged hlog hd hle junk with ⟨r, hr, _, _, hinst, _⟩
      cases Option.some.inj (hacc.symm.trans hr)
      exact Or.inr (Or.inr ⟨d.file, hm, hinst.trans hd.height_eq.symm⟩)

end Paxos

namespace Config
namespace Cluster

open Lib Paxos

/-! ## View changes that wait for the members -/

/-- The nodes that send heartbeats, and those that one may hit: the members of their own view,
the nodes in the middle of a pass, and those whose proposer is running. -/
def Active (c : Cluster) (x : Str) : Prop :=
  isamember x (c.view x) = true ∨ c.pass x ≠ [] ∨ (c.node x).run.isSome = true

instance (c : Cluster) (x : Str) : Decidable (Active c x) :=
  inferInstanceAs (Decidable (isamember x (c.view x) = true ∨ c.pass x ≠ [] ∨
    (c.node x).run.isSome = true))

/-- No run has been started for a view beyond the one after `vid`. -/
def Fresh (c : Cluster) (vid : UInt32) : Prop :=
  ∀ info ∈ c.sys.pax.runs, info.inst.toNat ≤ vid.toNat + 1

instance (c : Cluster) (vid : UInt32) : Decidable (Fresh c vid) :=
  inferInstanceAs (Decidable (∀ info ∈ c.sys.pax.runs, info.inst.toNat ≤ vid.toNat + 1))

/-- The node that takes a view: it commits one, or it rebuilds the last one of a log. -/
def taker : Event → Option Str
  | .paxosCommit p _ _ => some p
  | .paxos (.restart x _) => some x
  | .paxos (.restore x _ _) => some x
  | _ => none

/-- A run starts at an active node, when all active nodes and all heartbeats under way have
reached the view before the one it is for.  A node that takes a view and is active in it is not
too late: no run has been started for a view beyond the next one.  Restored logs are not
shorter than those they replace. -/
structure Timely (c : Cluster) (e : Event) : Prop where
  forward : ForwardEvent c e
  active : ∀ k, e = .run k → Active c k.p
  reached : ∀ k, e = .run k → ∀ x, Active c x → k.inst.toNat ≤ (c.cfg x).myvid.toNat + 1
  arrived : ∀ k, e = .run k → ∀ b ∈ c.beats, k.inst.toNat ≤ b.vid.toNat + 1
  takes : ∀ x, taker e = some x → ∀ d, step c e = some d → Active d x → Fresh c (d.cfg x).myvid

/-! ## The invariant -/

/-- The views in use are the last two for which a run was started. -/
structure Paced (c : Cluster) : Prop where
  hist : ClusterHist c
  wf : Wf c.sys.pax
  height : ∀ x, Begun c.sys.pax (c.node x).acc.instanceH
  dump : ∀ text, Msg.logdump text ∈ c.sys.pax.net → Begun c.sys.pax (Paxos.height text)
  active : ∀ x, Active c x → Fresh c (c.cfg x).myvid
  beat : ∀ b ∈ c.beats, Fresh c b.vid ∧ Begun c.sys.pax b.vid

theorem Paced.myvid {c : Cluster} (hc : Paced c) (x : Str) :
    Begun c.sys.pax (c.cfg x).myvid :=
  (hc.height x).mono (hc.hist.cfg x).myvid fun _ h => h

theorem mem_of_pinged {p : Str} {cmems : List Str} (h : pinged p cmems ≠ []) :
    isamember p cmems = true := by
  by_contra hp
  exact h (if_pos (Bool.not_eq_true _ ▸ hp))

/-- A Paxos step that rebuilds nothing at a node leaves its view alone. -/
theorem getView_step {c : Cluster} (hc : ClusterHist c) {a : Action} {t : State}
    (hfwd : Forward c.sys.pax a) (ht : Paxos.step c.sys.pax a = some t) {x : Str}
    (hne : ∀ text junk, a ≠ .restore x text junk) :
    getView (t.node x).acc (c.cfg x).myvid = c.view x := by
  rcases (hc.pax.acc hfwd ht x).2 with hext | ⟨text, junk, hact⟩
  · rw [getView, hext.2 _ (hc.cfg x).myvid]
    rfl
  · exact absurd hact (hne text junk)

theorem active_paxos {c : Cluster} (hc : ClusterHist c) {a : Action} {t : State}
    (hfwd : Forward c.sys.pax a) (hrun : isRun a = false)
    (ht : Paxos.step c.sys.pax a = some t) {x : Str} (hx : Active (c.afterPaxos t a) x) :
    taker (.paxos a) = some x ∨ (c.afterPaxos t a).cfg x = c.cfg x ∧ Active c x := by
  rcases cfg_recfg c.sys.cfg t a x with
    ⟨heq, hrestart, hrestore⟩ | ⟨⟨junk, rfl⟩, _⟩ | ⟨⟨text, junk, rfl⟩, _⟩
  · -- neither restarted nor restored: what makes `x` active was there before
    have hcfg : (c.afterPaxos t a).cfg x = c.cfg x := heq
    refine Or.inr ⟨hcfg, ?_⟩
    rcases hx with hmem | hpass | hrunning
    · rw [view, hcfg] at hmem
      exact Or.inl (getView_step hc hfwd ht hrestore ▸ hmem)
    · refine Or.inr (Or.inl ?_)
      cases a with
      | restart y junk =>
          have hy : x ≠ y := fun heq => hrestart junk (by rw [heq])
          simpa [afterPaxos, Function.update_of_ne hy] using hpass
      | _ => exact hpass
    · refine Or.inr (Or.inr ?_)
      rcases Option.isSome_iff_exists.mp hrunning with ⟨r', hr'⟩
      rcases run_step ht hr' with ⟨r, hr, _⟩ | ⟨cur, newv, rfl⟩
      · rw [node, hr]
        rfl
      · cases hrun
  · exact Or.inl rfl
  · exact Or.inl rfl

/-- What makes a node active: a view that it takes, or a run that starts. -/
theorem active_step {c d : Cluster} {e : Event} (hc : ClusterHist c) (hfwd : ForwardEvent c e)
    (h : step c e = some d) {x : Str} (hx : Active d x) :
    taker e = some x ∨
      d.cfg x = c.cfg x ∧ (Active c x ∨ ∃ k, e = .run k ∧ k.p = x) := by
  cases step_move h with
  | @paxos a t hrun ht =>
      exact (active_paxos hc hfwd hrun ht hx).imp_right (And.imp_right Or.inl)
  | ask _ _ => exact Or.inr ⟨rfl, Or.inl hx⟩
  | @run k t hk ht =>
      refine Or.inr ⟨rfl, ?_⟩
      rcases hx with hmem | hpass | hrunning
      · refine Or.inl (Or.inl ?_)
        rw [← getView_step hc (a := .run k.p k.inst k.cur k.newv) trivial ht (by simp)]
        exact hmem
      · exact Or.inl (Or.inr (Or.inl hpass))
      · rcases Option.isSome_iff_exists.mp hrunning with ⟨r', hr'⟩
        rcases run_step ht hr' with ⟨r, hr, _⟩ | ⟨cur, newv, hact⟩
        · exact Or.inl (Or.inr (Or.inr (by rw [node, hr]; rfl)))
        · exact Or.inr ⟨k, rfl, (Action.run.inj hact).1⟩
  | busy => exact Or.inr ⟨rfl, Or.inl hx⟩
  | @paxosCommit p inst value hmem =>
      by_cases hp : x = p
      · exact Or.inl (congrArg some hp.symm)
      · have hcfg : (c.committed p inst value).cfg x = c.cfg x := by rw [committed_cfg, if_neg hp]
        refine Or.inr ⟨hcfg, Or.inl ?_⟩
        rwa [Active, view, hcfg, committed_node] at hx
  | @wake p =>
      refine Or.inr ⟨rfl, Or.inl ?_⟩
      rcases hx with hmem | hpass | hrunning
      · exact Or.inl hmem
      · by_cases hp : x = p
        · subst hp
          simp only [Function.update_self] at hpass
          exact Or.inl (mem_of_pinged hpass)
        · simp only [Function.update_of_ne hp] at hpass
          exact Or.inr (Or.inl hpass)
      · exact Or.inr (Or.inr hrunning)
  | @beat p m =>
      refine Or.inr ⟨rfl, Or.inl ?_⟩
      rcases hx with hmem | hpass | hrunning
      · exact Or.inl hmem
      · refine Or.inr (Or.inl fun hnil => hpass ?_)
        by_cases hp : x = p
        · subst hp
          simp [hnil]
        · simpa [Function.update_of_ne hp] using hnil
      · exact Or.inr (Or.inr hrunning)
  | gone _ => exact Or.inr ⟨rfl, Or.inl hx⟩
  | @abort b hb hup hfail =>
      refine Or.inr ⟨rfl, Or.inl ?_⟩
      rcases hx with hmem | hpass | hrunning
      · rw [view, killed_acc] at hmem
        exact Or.inl hmem
      · exact Or.inr (Or.inl hpass)
      · rw [killed_node] at hrunning
        split at hrunning
        · cases hrunning
        · exact Or.inr (Or.inr hrunning)

/-- The runs on record grow by the one that starts. -/
theorem runs_of_step {c d : Cluster} {e : Event} (h : step c e = some d) :
    d.sys.pax.runs = c.sys.pax.runs ∨
      ∃ k info, e = .run k ∧ info.inst = k.inst ∧ d.sys.pax.runs = c.sys.pax.runs ++ [info] := by
  cases step_move h with
  | @paxos a t hrun ht =>
      rcases runs_step ht with heq | ⟨p, inst, cur, newv, rfl, _⟩
      · exact Or.inl heq
      · cases hrun
  | @run k t hk ht =>
      rcases runs_step ht with heq | ⟨p, inst, cur, newv, hact, heq⟩
      · exact Or.inl heq
      · cases hact
        exact Or.inr ⟨k, _, rfl, rfl, heq⟩
  | _ => exact Or.inl rfl

theorem mem_runs_of_step {c d : Cluster} {e : Event} (h : step c e = some d) :
    ∀ info ∈ c.sys.pax.runs, info ∈ d.sys.pax.runs := by
  intro info hinfo
  rcases runs_of_step h with heq | ⟨k, info', _, _, heq⟩
  · exact heq ▸ hinfo
  · rw [heq]
    exact List.mem_append_left _ hinfo

theorem Fresh.step {c d : Cluster} {e : Event} {vid : UInt32} (hv : Fresh c vid)
    (h : step c e = some d) (hrun : ∀ k, e = .run k → k.inst.toNat ≤ vid.toNat + 1) :
    Fresh d vid := by
  intro info hinfo
  rcases runs_of_step h with heq | ⟨k, info', he, hinst, heq⟩
  · exact hv info (heq ▸ hinfo)
  · rw [heq] at hinfo
    rcases List.mem_append.mp hinfo with hold | hnew
    · exact hv info hold
    · rw [List.mem_singleton.mp hnew, hinst]
      exact hrun k he

theorem wf_step {c d : Cluster} {e : Event} (hw : Wf c.sys.pax) (h : step c e = some d) :
    Wf d.sys.pax := by
  cases step_move h with
  | paxos _ ht | run _ ht => exact hw.step ht
  | paxosCommit _ => exact hw.setAcc rfl rfl
  | abort _ _ _ => exact hw.setNode fun r hr => by cases hr
  | _ => exact hw

/-- A heartbeat carries the view of an active node. -/
theorem mem_beats_step {c d : Cluster} {e : Event} (h : step c e = some d) {b : Beat}
    (hb : b ∈ d.beats) :
    b ∈ c.beats ∨ ∃ p, Active c p ∧ b.vid = (c.cfg p).myvid ∧ ∀ k, e ≠ .run k := by
  cases step_move h with
  | @beat p m =>
      rcases Option.ite_none_right_eq_some.1 h with ⟨⟨_, hm⟩, _⟩
      rcases List.mem_cons.mp hb with rfl | hold
      · exact Or.inr ⟨p, Or.inr (Or.inl (List.ne_nil_of_mem hm)), rfl, by simp⟩
      · exact Or.inl hold
  | gone _ | abort _ _ _ => exact Or.inl (List.mem_of_mem_erase hb)
  | _ => exact Or.inl hb

theorem Paced.height_step {c d : Cluster} {e : Event} (hc : Paced c) (hfwd : ForwardEvent c e)
    (h : step c e = some d) (x : Str) : Begun d.sys.pax (d.node x).acc.instanceH := by
  have hmono : ∀ {i}, Begun c.sys.pax i → Begun d.sys.pax i :=
    fun hi => hi.mono (UInt32.le_refl _) (mem_runs_of_step h)
  have hstep : ∀ {a : Action}, Forward c.sys.pax a → Paxos.step c.sys.pax a = some d.sys.pax →
      Begun d.sys.pax (d.node x).acc.instanceH := by
    intro a hfwd ht
    rcases instanceH_step hc.hist.pax hc.wf hfwd ht x with heq | hnew | ⟨text, hm, heq⟩
    · exact hmono (heq ▸ hc.height x)
    · exact hmono hnew
    · exact hmono (heq ▸ hc.dump text hm)
  rcases pax_step h with ⟨a, ha, hrun | rfl⟩ | hacc
  · cases a with
    | run p inst cur newv => exact hstep (a := .run p inst cur newv) trivial ha
    | _ => cases hrun
  · exact hstep hfwd ha
  · rw [hacc x]
    exact hmono (hc.height x)

theorem Paced.dump_step {c d : Cluster} {e : Event} (hc : Paced c) (h : step c e = some d)
    {text : Str} (hm : Msg.logdump text ∈ d.sys.pax.net) : Begun d.sys.pax (Paxos.height text) := by
  have hmono : ∀ {i}, Begun c.sys.pax i → Begun d.sys.pax i :=
    fun hi => hi.mono (UInt32.le_refl _) (mem_runs_of_step h)
  have hstep : ∀ {a : Action}, Paxos.step c.sys.pax a = some d.sys.pax →
      Begun d.sys.pax (Paxos.height text) := by
    intro a ht
    rcases logdump_step ht hm with hold | ⟨x, rfl⟩
    · exact hmono (hc.dump text hold)
    · rcases hc.hist.gapless x with ⟨rs, hlog⟩
      have hx : Paxos.height (Paxos.dump (c.node x).acc) = (c.node x).acc.instanceH := by
        rw [hlog.dump_eq, hlog.height_eq]
      exact hx ▸ hmono (hc.height x)
  cases step_move h with
  | paxos _ ht | run _ ht => exact hstep ht
  | _ => exact hmono (hc.dump text hm)

theorem Paced.step {c d : Cluster} {e : Event} (hc : Paced c) (hok : Timely c e)
    (h : step c e = some d) : Paced d := by
  refine ⟨hc.hist.step hok.forward h, wf_step hc.wf h, hc.height_step hok.forward h,
    fun text hm => hc.dump_step h hm, ?_, ?_⟩
  · intro x hx
    have htake : ∀ {k}, taker e = some x → e ≠ .run k := by
      rintro k ht rfl
      cases ht
    rcases active_step hc.hist hok.forward h hx with ht | ⟨hcfg, hold | ⟨k, rfl, rfl⟩⟩
    · exact (hok.takes x ht d h hx).step h fun k he => absurd he (htake ht)
    · rw [hcfg]
      exact (hc.active x hold).step h fun k he => hok.reached k he x hold
    · rw [hcfg]
      have hp := hok.active k rfl
      exact (hc.active k.p hp).step h fun k' he => hok.reached k' he k.p hp
  · intro b hb
    rcases mem_beats_step h hb with hold | ⟨p, hp, hvid, hne⟩
    · exact ⟨(hc.beat b hold).1.step h fun k he => hok.arrived k he b hold,
        (hc.beat b hold).2.mono (UInt32.le_refl _) (mem_runs_of_step h)⟩
    · rw [hvid]
      exact ⟨(hc.active p hp).step h fun k he => absurd he (hne k),
        (hc.myvid p).mono (UInt32.le_refl _) (mem_runs_of_step h)⟩

theorem paced_boot {first : Str} (hf : IStream.IsWord first) : Paced (boot first) := by
  have hstart : Start 2 (Config.boot first).pax := start_boot hf (by decide)
  refine ⟨clusterHist_started (started_boot hf), hstart.wf, ?_, ?_, ?_, ?_⟩
  · intro x
    refine Or.inl ?_
    change ((Config.boot first).pax.node x).acc.instanceH.toNat ≤ 1
    rw [boot_acc]
    split
    · exact le_refl 1
    · exact Nat.zero_le 1
  · intro text hm
    cases hm
  · intro x _ info hinfo
    cases hinfo
  · intro b hb
    cases hb

theorem paced_reach {c : Cluster} (h : Reach Booted step Timely c) : Paced c := by
  refine Reach.invariant (I := Paced) ?_ (fun _ _ _ hc hok hs => hc.step hok hs) h
  rintro c ⟨first, hf, rfl⟩
  exact paced_boot hf

/-- Two of the last two views are next to each other. -/
theorem Fresh.le_succ {c : Cluster} {vid vid' : UInt32} (h : Fresh c vid)
    (h' : Begun c.sys.pax vid') : vid'.toNat ≤ vid.toNat + 1 := by
  rcases h' with h1 | ⟨info, hinfo, hle⟩
  · omega
  · exact hle.trans (h info hinfo)

theorem heartbeat_of_close {c : Cfg} {vid : UInt32} (h : vid.toNat ≤ c.myvid.toNat + 1)
    (h' : c.myvid.toNat ≤ vid.toNat + 1) (isrunning : Bool) :
    Config.heartbeat c isrunning vid ≠ none := by
  unfold Config.heartbeat
  by_cases heq : vid = c.myvid
  · simp [heq]
  · have hne : vid.toNat ≠ c.myvid.toNat := fun h => heq (UInt32.toNat_inj.mp h)
    have hnext : vid = c.myvid + 1 ∨ vid + 1 = c.myvid := by
      by_cases hlt : c.myvid.toNat < vid.toNat
      · exact Or.inl (eq_succ_of_toNat (by omega))
      · exact Or.inr (eq_succ_of_toNat (by omega)).symm
    cases isrunning <;> simp [heq, hnext]

/-- No heartbeat fails the `VERIFY` of the handler. -/
theorem heartbeat_survives {c : Cluster} (h : Reach Booted step Timely c) {b : Beat}
    (hb : b ∈ c.beats) :
    Config.heartbeat (c.cfg b.dst) (c.node b.dst).run.isSome b.vid ≠ none := by
  have hc := paced_reach h
  cases hrun : (c.node b.dst).run.isSome with
  | true =>
      have hactive : Active c b.dst := Or.inr (Or.inr hrun)
      exact heartbeat_of_close ((hc.active _ hactive).le_succ (hc.beat b hb).2)
        ((hc.beat b hb).1.le_succ (hc.myvid b.dst)) true
  | false =>
      -- without a run under way the handler only compares
      unfold Config.heartbeat
      split <;> simp

/-! ## Schedules -/

/-- As `Timely`, where only the nodes in `ns` are active. -/
def TimelyAmong (ns : List Str) (c : Cluster) (e : Event) : Prop :=
  ForwardEvent c e ∧
    (∀ x ∈ taker e, isamember x ns = true ∧
      ∀ d ∈ step c e, Active d x → Fresh c (d.cfg x).myvid) ∧
    match e with
    | .run k =>
        isamember k.p ns = true ∧ Active c k.p ∧
          (∀ x ∈ ns, Active c x → k.inst.toNat ≤ (c.cfg x).myvid.toNat + 1) ∧
          ∀ b ∈ c.beats, k.inst.toNat ≤ b.vid.toNat + 1
    | _ => True

instance (c : Cluster) (e : Event) : Decidable (ForwardEvent c e) :=
  match e with
  | .paxos a => inferInstanceAs (Decidable (Forward c.sys.pax a))
  | .add _ _ _ | .removeWo _ _ | .run _ | .paxosCommit _ _ _ | .wake _ | .beat _ _
  | .heartbeat _ | .lose _ => isTrue trivial

instance (ns : List Str) (c : Cluster) (e : Event) : Decidable (TimelyAmong ns c e) :=
  @instDecidableAnd _ _ inferInstance <| @instDecidableAnd _ _ inferInstance <|
    match e with
    | .run _ => inferInstanceAs (Decidable (_ ∧ _ ∧ _ ∧ _))
    | .paxos _ | .add _ _ _ | .removeWo _ _ | .paxosCommit _ _ _ | .wake _ | .beat _ _
    | .heartbeat _ | .lose _ => isTrue trivial

theorem TimelyAmong.timely {ns : List Str} {c : Cluster} {e : Event} (h : TimelyAmong ns c e)
    (hns : ∀ x, Active c x → x ∈ ns) : Timely c e := by
  rcases h with ⟨hfwd, htakes, hrun⟩
  refine ⟨hfwd, ?_, ?_, ?_, fun x hx => (htakes x hx).2⟩
  · rintro k rfl
    exact hrun.2.1
  · rintro k rfl x hx
    exact hrun.2.2.1 x (hns x hx) hx
  · rintro k rfl
    exact hrun.2.2.2

theorem active_boot {first x : Str} (h : Active (boot first) x) : x = first := by
  by_contra hx
  have hacc : ((boot first).node x).acc = fresh x [] := by
    change ((Config.boot first).pax.node x).acc = fresh x []
    rw [boot_acc, if_neg hx]
  rcases h with hmem | hpass | hrun
  · have hview : (boot first).view x = [] := by
      rw [view, hacc]
      rfl
    rw [hview] at hmem
    cases hmem
  · exact hpass rfl
  · cases hrun

/-- A schedule in which only the nodes in `ns` take views and start runs. -/
theorem reach_timely {ns : List Str} {first : Str} (hf : IStream.IsWord first) (hns : first ∈ ns)
    {c : Cluster} (h : Reach (fun c => c = boot first) step (TimelyAmong ns) c) :
    Reach Booted step Timely c := by
  refine (Reach.invariant (I := fun c => Reach Booted step Timely c ∧
    ∀ x, Active c x → x ∈ ns) ?_ ?_ h).1
  · rintro c rfl
    exact ⟨.start ⟨first, hf, rfl⟩, fun x hx => active_boot hx ▸ hns⟩
  · rintro c e d ⟨hc, hact⟩ hok hstep
    have htimely := hok.timely hact
    refine ⟨hc.next htimely hstep, fun x hx => ?_⟩
    rcases active_step (paced_reach hc).hist htimely.forward hstep hx with
      ht | ⟨_, hold | ⟨k, rfl, rfl⟩⟩
    · exact isamember_iff.1 (hok.2.1 x ht).1
    · exact hact x hold
    · exact isamember_iff.1 hok.2.2.1

/-- `a` has committed view 3 and still sends decides; `b`, in view 2, pings it. -/
def lateBeat : List Event :=
  addB ++ decideC ++ [.paxosCommit ['a'] 3 (value [['a'], ['b'], ['c']]), .wake ['b'],
    .beat ['b'] ['a']]

theorem heartbeat_survives_run :
    ∃ c b, Reach Booted step Timely c ∧ b ∈ c.beats ∧ (c.node b.dst).run.isSome = true ∧
      b.vid ≠ (c.cfg b.dst).myvid ∧
      Config.heartbeat (c.cfg b.dst) (c.node b.dst).run.isSome b.vid ≠ none := by
  have hrun : ∃ c, Reach (fun c => c = boot ['a']) step (TimelyAmong [['a'], ['b']]) c ∧
      ∃ b ∈ c.beats, (c.node b.dst).run.isSome = true ∧ b.vid ≠ (c.cfg b.dst).myvid :=
    Reach.exists_of_runFrom lateBeat rfl (by decide +kernel)
  rcases hrun with ⟨c, hreach, b, hb, hrunning, hne⟩
  have hreach := reach_timely (by decide) (by decide) hreach
  exact ⟨c, b, hreach, hb, hrunning, hne, heartbeat_survives hreach hb⟩

/-- The log of `a` after `addB` and `addC`. -/
def logOfA3 : Str :=
  let v := value [['a'], ['b'], ['c']]
  logOfA ++ lines
    [.propseen { n := 2, m := ['a'] }, .accepted { n := 2, m := ['a'] } v, .done 3 v]

/-- `b` misses view 3 and is cut off.  Then `c` joins, and `a` and `c` remove `b`: view 4. -/
def removeB : List Event :=
  let n : PropT := { n := 3, m := ['a'] }
  let z : PropT := { n := 0, m := ['a'] }
  let v := value [['a'], ['c']]
  addB ++ addC ++ [.paxos (.dump ['a']), .paxos (.restore ['c'] logOfA3 0)] ++
    removeRun ['a'] ['b'] 3 [['a'], ['b'], ['c']] ++
    paxosSteps (prepareAt ['a'] 2 ['a'] { inst := 4, n := n } z ++ [.skip ['a']] ++
      prepareAt ['a'] 2 ['c'] { inst := 4, n := n } z ++ [.endLoop ['a']] ++
      acceptAt ['a'] 2 ['a'] { inst := 4, n := n, v := v } ++
      acceptAt ['a'] 2 ['c'] { inst := 4, n := n, v := v } ++ [.endLoop ['a']] ++
      decideAt ['a'] 2 ['a'] { inst := 4, v := v } ++
      decideAt ['a'] 2 ['c'] { inst := 4, v := v } ++ [.endLoop ['a']]) ++
    [.paxosCommit ['a'] 4 v]

/-- The partition heals while `a` is adding `d`: the ping of `b`, from view 2, ends `a`. -/
theorem heartbeat_kills :
    ∃ c b d, Reach Booted step anyStep c ∧ b ∈ c.beats ∧ (c.node b.dst).up = true ∧
      Config.heartbeat (c.cfg b.dst) (c.node b.dst).run.isSome b.vid = none ∧
      step c (.heartbeat b) = some d ∧ (d.node b.dst).up = false := by
  have hrun : ∃ c, Reach Booted step anyStep c ∧ ∃ b ∈ c.beats, (c.node b.dst).up = true ∧
      Config.heartbeat (c.cfg b.dst) (c.node b.dst).run.isSome b.vid = none ∧
      ∃ d ∈ step c (.heartbeat b), (d.node b.dst).up = false :=
    Reach.exists_of_runFrom
      (removeB ++ addRun ['a'] ['d'] 4 [['a'], ['c']] ++ [.wake ['b'], .beat ['b'] ['a']])
      booted_a (by decide +kernel)
  rcases hrun with ⟨c, hreach, b, hb, hup, hfail, d, hd, hdown⟩
  exact ⟨c, b, d, hreach, hb, hup, hfail, hd, hdown⟩

end Cluster
end Config
end Yfs

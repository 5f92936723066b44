import Yfs.Rpc.AtMostOnce

/-!
# Outstanding — what the server remembers of a call that is waiting

A client that waits for the reply to `x` has not acknowledged `x`, and the numbers below the front
of its window are all acknowledged, so the front stays below `x`.  No request therefore carries an
`xid_rep` from which the server could conclude that the reply to `x` is not needed any more: the
purge loop keeps the entry of `x`, whatever it skips, and every copy of `x` is answered from it.

* `AckOk` — the client's window: in order, and below every call that is waiting;
* `ServerOk` — the server's windows: in order, with an entry for every handler that is running;
* `Remembered` — the two together;
* `outstanding_remembered` — the result, as long as no counter wraps around;
* `wrapped_xid_forgets` — after 2³² calls the acknowledgements are ahead of every new call.
-/

namespace Yfs
namespace Rpc

open Lib

/-- A call for which no reply has been taken and which has not timed out. -/
def Outstanding (s : State) (c x : UInt32) : Prop :=
  ∃ ca ∈ (s.client c).calls, ca.xid = x ∧ ca.done = none

instance (s : State) (c x : UInt32) : Decidable (Outstanding s c x) :=
  inferInstanceAs (Decidable (∃ ca ∈ (s.client c).calls, ca.xid = x ∧ ca.done = none))

/-! ## The client -/

structure AckOk (k : Rpcc) : Prop where
  sorted : k.xidRepWindow.Pairwise (· ≤ ·)
  missing : ∀ ca ∈ k.calls, ca.done = none → ca.xid ∉ k.xidRepWindow
  above : ∀ ca ∈ k.calls, ca.done = none → k.xidRepWindow.headD 0 < ca.xid

theorem ackOk_init : AckOk Rpcc.init := by
  constructor <;> simp [Rpcc.init]

/-- Acknowledging `y` is no harm to the calls that still wait if none of them is `y`. -/
theorem AckOk.update {k k' : Rpcc} (h : AckOk k) (hk : ClientOk k) {y : UInt32}
    (hw : k'.xidRepWindow = updateXidRep k.xidRepWindow y)
    (hcalls : ∀ ca ∈ k'.calls, ca.done = none → ca ∈ k.calls ∧ ca.xid ≠ y) : AckOk k' := by
  constructor
  · rw [hw]
    exact sorted_updateXidRep h.sorted y
  · intro ca hca hdone hmem
    rcases hcalls ca hca hdone with ⟨hold, hne⟩
    rw [hw] at hmem
    rcases mem_updateXidRep hmem with heq | hmem
    · exact hne heq
    · exact h.missing ca hold hdone hmem
  · intro ca hca hdone
    rcases hcalls ca hca hdone with ⟨hold, hne⟩
    rw [hw]
    exact updateXidRep_headD_lt h.sorted hk.nonempty (h.missing ca hold hdone)
      (h.above ca hold hdone) hne

theorem AckOk.call1 {k k' : Rpcc} {c proc : UInt32} {hd : ReqHeader} (h : AckOk k)
    (hk : ClientOk k) (hcall : k.call1 c proc = some (k', hd)) : AckOk k' := by
  rcases call1_eq hcall with ⟨_, hw, hcalls, _⟩
  constructor
  · rw [hw]
    exact h.sorted
  · rw [hw, hcalls]
    intro ca hca hdone
    rcases List.mem_cons.1 hca with rfl | hca
    · exact fun hmem => UInt32.lt_irrefl _ (hk.acked _ hmem)
    · exact h.missing ca hca hdone
  · rw [hw, hcalls]
    intro ca hca hdone
    rcases List.mem_cons.1 hca with rfl | hca
    · exact hk.headD_lt
    · exact h.above ca hca hdone

/-- A caller that still waits after a reply was waiting before, for another one. -/
theorem waiting_take {r : Rep} {ca : Caller} (h : (ca.take r).done = none) :
    ca.take r = ca ∧ ca.xid ≠ r.xid := by
  unfold Caller.take at h ⊢
  split at h
  · cases h
  next hne =>
    rw [if_neg hne]
    exact ⟨rfl, fun hx => hne ⟨hx, h⟩⟩

theorem waiting_gotPdu {k : Rpcc} {r : Rep} {ca : Caller} (hca : ca ∈ (k.gotPdu r).calls)
    (hdone : ca.done = none) : ca ∈ k.calls ∧ ca.xid ≠ r.xid := by
  rcases List.mem_map.1 hca with ⟨ca₀, hmem, rfl⟩
  rcases waiting_take hdone with ⟨heq, hne⟩
  rw [heq]
  exact ⟨hmem, hne⟩

theorem waiting_finish {k k' : Rpcc} {xid : UInt32} (h : k.finish xid = some k') {ca : Caller}
    (hca : ca ∈ k'.calls) : ca ∈ k.calls ∧ ca.xid ≠ xid := by
  rcases finish_eq h with ⟨_, _, _, hcalls⟩
  rw [hcalls] at hca
  simpa using List.mem_filter.1 hca

theorem waiting_cancel {k : Rpcc} {ca : Caller} (hca : ca ∈ k.cancel.calls) : ca.done ≠ none := by
  rcases List.mem_map.1 hca with ⟨ca₀, _, rfl⟩
  simp

theorem AckOk.cancel {k : Rpcc} (h : AckOk k) : AckOk k.cancel where
  sorted := h.sorted
  missing := fun _ hca hdone => absurd hdone (waiting_cancel hca)
  above := fun _ hca hdone => absurd hdone (waiting_cancel hca)

/-- What a step does to the client `c`. -/
theorem AckOk.step {s t : State} {a : Action} (h : ∀ c, AckOk (s.client c)) (hw : Wf s)
    (hst : Rpc.step s a = some t) (c : UInt32) : AckOk (t.client c) := by
  have hset : ∀ {d : UInt32} {k : Rpcc}, AckOk k → AckOk ((s.setClient d k).client c) := by
    intro d k hk
    by_cases hc : c = d
    · subst hc
      simpa using hk
    · simpa [hc] using h c
  cases step_move hst with
  | @call d proc k hd hcall => exact hset ((h d).call1 (hw.client d) hcall)
  | @gotPdu d r _ =>
      exact hset ((h d).update (hw.client d) rfl fun ca hca hdone => waiting_gotPdu hca hdone)
  | @finish d xid k hfin =>
      rcases finish_eq hfin with ⟨_, _, hacked, _⟩
      exact hset ((h d).update (hw.client d) hacked fun ca hca _ => waiting_finish hfin hca)
  | @cancel d => exact hset (h d).cancel
  | _ => exact h c

/-! ## The server -/

def InProgress (w : List Reply) (x : UInt32) : Prop :=
  ∃ e ∈ w, e.xid = x ∧ e.cbPresent = false

theorem InProgress.hasXid {w : List Reply} {x : UInt32} (h : InProgress w x) : HasXid w x := by
  rcases h with ⟨e, he, hx, _⟩
  exact ⟨e, he, hx⟩

/-- Both headers are of one call that asks for at-most-once. -/
def SameCall (h h' : ReqHeader) : Prop :=
  h.cltNonce ≠ 0 ∧ h.cltNonce = h'.cltNonce ∧ h.xid = h'.xid

theorem SameCall.symm {h h' : ReqHeader} (hs : SameCall h h') : SameCall h' h :=
  ⟨hs.2.1 ▸ hs.1, hs.2.1.symm, hs.2.2.symm⟩

structure ServerOk (s : State) : Prop where
  sorted : ∀ c, SortedWindow (s.windowOf c)
  stored : ∀ c, ∀ e ∈ s.windowOf c, e.cbPresent = e.buf.isSome
  running : ∀ h ∈ s.running, h.cltNonce ≠ 0 → InProgress (s.windowOf h.cltNonce) h.xid
  distinct : s.running.Pairwise fun h h' => ¬ SameCall h h'

theorem serverOk_init {s : State} (h : Init s) : ServerOk s := by
  rcases h with ⟨nonce, procs, rfl⟩
  constructor <;> simp [init, State.windowOf, SortedWindow]

theorem ServerOk.setWindow {s : State} (h : ServerOk s) {c : UInt32} {w : List Reply}
    (hw : SortedWindow w) (hstored : ∀ e ∈ w, e.cbPresent = e.buf.isSome) {rs : List ReqHeader}
    (hsub : rs.Sublist s.running)
    (hrun : ∀ h ∈ rs, h.cltNonce = c → c ≠ 0 → InProgress w h.xid) :
    ServerOk { s.setWindow c w with running := rs } := by
  have hself : State.windowOf { s.setWindow c w with running := rs } c = w :=
    setWindow_windowOf_self s c w
  have hother : ∀ d, d ≠ c →
      State.windowOf { s.setWindow c w with running := rs } d = s.windowOf d :=
    fun d hd => setWindow_windowOf_of_ne s w hd
  refine ⟨fun d => ?_, fun d => ?_, fun hd hmem hnz => ?_, h.distinct.sublist hsub⟩
  · by_cases hd : d = c
    · rw [hd, hself]
      exact hw
    · rw [hother d hd]
      exact h.sorted d
  · by_cases hd : d = c
    · rw [hd, hself]
      exact hstored
    · rw [hother d hd]
      exact h.stored d
  · by_cases hc : hd.cltNonce = c
    · rw [hc, hself]
      exact hrun hd hmem hc (hc ▸ hnz)
    · rw [hother _ hc]
      exact h.running hd (hsub.subset hmem) hnz

/-- An entry in progress is not purged. -/
theorem InProgress.check {w : List Reply} {x : UInt32} (h : InProgress w x) (xid xidRep : UInt32) :
    InProgress (checkduplicateAndUpdate (some w) xid xidRep).window x := by
  rcases h with ⟨e, he, hx, hcb⟩
  rcases (check_window w xid xidRep).1 e he with hkeep | hpurge
  · exact ⟨e, hkeep, hx, hcb⟩
  · simp [Reply.purgeable, hcb] at hpurge

theorem stored_check {w : List Reply} (h : ∀ e ∈ w, e.cbPresent = e.buf.isSome)
    (xid xidRep : UInt32) :
    ∀ e ∈ (checkduplicateAndUpdate (some w) xid xidRep).window, e.cbPresent = e.buf.isSome := by
  intro e he
  rcases mem_check_window w xid xidRep he with rfl | he
  · rfl
  · exact h e he

/-- The duplicate check of a request, whatever its answer. -/
theorem ServerOk.check {s : State} (h : ServerOk s) (hd : ReqHeader) :
    ServerOk (s.setWindow hd.cltNonce (checkOf s hd).window) := by
  refine h.setWindow (sorted_check (h.sorted _) _ _) (stored_check (h.stored _) _ _)
    (List.Sublist.refl _) fun hd' hmem hc hnz => ?_
  rw [← hc] at hnz
  exact (hc ▸ h.running hd' hmem hnz).check _ _

theorem ServerOk.enter {s : State} (h : ServerOk s) {hd : ReqHeader}
    (hentry : hd.cltNonce ≠ 0 → InProgress (s.windowOf hd.cltNonce) hd.xid)
    (hnew : ∀ hd' ∈ s.running, ¬ SameCall hd hd') : ServerOk (s.enter hd) := by
  refine ⟨h.sorted, h.stored, ?_, List.pairwise_cons.2 ⟨hnew, h.distinct⟩⟩
  intro hd' hmem hnz
  rcases List.mem_cons.1 hmem with rfl | hmem
  · exact hentry hnz
  · exact h.running hd' hmem hnz

theorem ServerOk.accept {s : State} (h : ServerOk s) (hw : Wf s) {hd : ReqHeader}
    (hmem : hd ∈ s.reqs) (hnew : (checkOf s hd).state = .new) :
    ServerOk ((s.setWindow hd.cltNonce (checkOf s hd).window).enter hd) := by
  refine (h.check hd).enter ?_ ?_
  · intro _
    rw [setWindow_windowOf_self]
    exact ⟨_, (check_window _ _ _).2 hnew, rfl, rfl⟩
  · -- a running copy would have its entry in the window
    intro hd' hrun hsame
    have hentry := (h.running hd' hrun hsame.symm.1).hasXid
    rw [← hsame.2.1, ← hsame.2.2] at hentry
    exact check_state_ne_new hentry (hw.req hd hmem).1 hnew

theorem ServerOk.ret {s : State} (h : ServerOk s) {hd : ReqHeader} (hmem : hd ∈ s.running)
    (hc : hd.cltNonce ≠ 0) (b : Rep) :
    ServerOk { s.setWindow hd.cltNonce (addReply hd.xid b (s.windowOf hd.cltNonce)) with
      running := s.running.erase hd } := by
  have hperm := List.perm_cons_erase hmem
  have hdistinct : (hd :: s.running.erase hd).Pairwise fun h h' => ¬ SameCall h h' :=
    (hperm.pairwise_iff fun hn hs => hn hs.symm).1 h.distinct
  refine h.setWindow ?_ ?_ List.erase_sublist ?_
  · unfold SortedWindow
    rw [addReply_xids b (h.running hd hmem hc).hasXid]
    exact h.sorted hd.cltNonce
  · intro e he
    rcases mem_addReply he with he | ⟨_, hcb, hbuf⟩
    · exact h.stored _ e he
    · simp [hcb, hbuf]
  · -- another handler of this client is not of the same call, so its entry is left alone
    intro hd' hmem' hc' _
    have hne : hd'.xid ≠ hd.xid := fun hx =>
      (List.pairwise_cons.1 hdistinct).1 hd' hmem' ⟨hc, hc'.symm, hx.symm⟩
    rcases h.running hd' (List.mem_of_mem_erase hmem') (hc' ▸ hc) with ⟨e, he, hx, hcb⟩
    rw [hc'] at he
    exact ⟨e, mem_addReply_of_ne b he (hx ▸ hne), hx, hcb⟩

theorem ServerOk.step {s t : State} {a : Action} (h : ServerOk s) (hw : Wf s)
    (hst : Rpc.step s a = some t) : ServerOk t := by
  cases step_move hst with
  | call _ | gotPdu _ | finish _ | cancel | stale _ | abort =>
      exact ⟨h.sorted, h.stored, h.running, h.distinct⟩
  | plain _ hc => exact h.enter (fun hnz => absurd hc hnz) fun _ _ hsame => hsame.1 hc
  | accept hmem _ hnew => exact h.accept hw hmem hnew
  | @silent hd _ _ _ => exact h.check hd
  | @resend hd _ _ _ _ _ =>
      have hcheck := h.check hd
      exact ⟨hcheck.sorted, hcheck.stored, hcheck.running, hcheck.distinct⟩
  | @forgotten hd _ _ _ =>
      have hcheck := h.check hd
      exact ⟨hcheck.sorted, hcheck.stored, hcheck.running, hcheck.distinct⟩
  | @plainRet hd _ _ _ _ =>
      exact ⟨h.sorted, h.stored, fun hd' hmem' => h.running hd' (List.mem_of_mem_erase hmem'),
        h.distinct.sublist List.erase_sublist⟩
  | @ret hd _ _ b hmem hc _ =>
      have hret := h.ret hmem hc b
      exact ⟨hret.sorted, hret.stored, hret.running, hret.distinct⟩

/-! ## Requests and admissions -/

/-- The checks of `dispatch` before the reply window is looked at. -/
def Admissible (s : State) (h : ReqHeader) : Prop :=
  (h.srvNonce = 0 ∨ h.srvNonce = s.nonce) ∧ h.proc ∈ s.procs

/-- A call has one header, and a handler was entered for a request that was sent. -/
structure Numbered (s : State) : Prop where
  unique : ∀ h ∈ s.reqs, ∀ h' ∈ s.reqs, h.cltNonce = h'.cltNonce → h.xid = h'.xid → h = h'
  admitted : ∀ c x, (c, x) ∈ s.ran → ∃ h ∈ s.reqs, h.cltNonce = c ∧ h.xid = x ∧ Admissible s h

theorem numbered_init {s : State} (h : Init s) : Numbered s := by
  rcases h with ⟨nonce, procs, rfl⟩
  constructor <;> simp [init]

theorem dispatch_ran (s : State) (h : ReqHeader) :
    (dispatch s h).ran = s.ran ∨
      (Admissible s h ∧ (dispatch s h).ran = (h.cltNonce, h.xid) :: s.ran) := by
  unfold dispatch
  split
  · exact Or.inl rfl
  next hsrv =>
    split
    · exact Or.inl rfl
    next hproc =>
      have hadm : Admissible s h := by
        refine ⟨?_, not_not.1 hproc⟩
        by_contra hne
        exact hsrv (not_or.1 hne)
      split
      · exact Or.inr ⟨hadm, rfl⟩
      · unfold answer
        cases (checkOf s h).state with
        | new => exact Or.inr ⟨hadm, rfl⟩
        | inprogress => exact Or.inl rfl
        | done => cases (checkOf s h).buf <;> exact Or.inl rfl
        | forgotten => exact Or.inl rfl

/-- A handler is entered only by a `dispatch` that gets to the reply window. -/
theorem ran_step {s t : State} {a : Action} (hst : step s a = some t) :
    t.ran = s.ran ∨ ∃ h ∈ s.reqs, Admissible s h ∧ t.ran = (h.cltNonce, h.xid) :: s.ran := by
  cases a with
  | call c proc =>
      rcases Option.map_eq_some_iff.1 hst with ⟨_, _, rfl⟩
      exact Or.inl rfl
  | gotPdu c r =>
      rcases Option.ite_none_right_eq_some.1 hst with ⟨_, ⟨⟩⟩
      exact Or.inl rfl
  | finish c xid =>
      rcases Option.map_eq_some_iff.1 hst with ⟨_, _, rfl⟩
      exact Or.inl rfl
  | cancel c =>
      cases hst
      exact Or.inl rfl
  | dispatch h =>
      rcases Option.ite_none_right_eq_some.1 hst with ⟨hmem, heq⟩
      rw [← Option.some.inj heq]
      exact (dispatch_ran s h).imp_right fun hran => ⟨h, hmem.1, hran⟩
  | ret h ret body =>
      rcases Option.ite_none_right_eq_some.1 hst with ⟨_, heq⟩
      rw [← Option.some.inj heq]
      unfold handlerRet
      repeat' split
      all_goals exact Or.inl rfl

/-- The server keeps its nonce and its procedures; a request is added by a call only. -/
theorem reqs_step {s t : State} {a : Action} (hst : step s a = some t) :
    t.nonce = s.nonce ∧ t.procs = s.procs ∧
      (t.reqs = s.reqs ∨
        ∃ c h, t.reqs = h :: s.reqs ∧ h.cltNonce = c ∧ h.xid = (s.client c).xid) := by
  cases step_move hst with
  | @call c proc k hd hcall =>
      rcases call1_eq hcall with ⟨_, _, _, hxid, hc, _⟩
      exact ⟨rfl, rfl, Or.inr ⟨c, hd, rfl, hc, hxid⟩⟩
  | _ => exact ⟨rfl, rfl, Or.inl rfl⟩

theorem Numbered.step {s t : State} {a : Action} (h : Numbered s) (hw : Wf s)
    (hst : Rpc.step s a = some t) : Numbered t := by
  rcases reqs_step hst with ⟨hnonce, hprocs, hreqs⟩
  have hadm : ∀ hd, Admissible s hd → Admissible t hd := by
    intro hd hs
    rw [Admissible, hnonce, hprocs]
    exact hs
  have hsub : ∀ hd ∈ s.reqs, hd ∈ t.reqs := by
    intro hd hmem
    rcases hreqs with heq | ⟨_, _, heq, _⟩
    · exact heq ▸ hmem
    · exact heq ▸ List.mem_cons_of_mem _ hmem
  constructor
  · rcases hreqs with heq | ⟨c, hd, heq, rfl, hxid⟩
    · rw [heq]
      exact h.unique
    · -- the number of the new header is above those of the others
      have hne : ∀ hd' ∈ s.reqs, hd.cltNonce = hd'.cltNonce → hd.xid ≠ hd'.xid := by
        intro hd' hmem hc hx
        have hlt := (hw.req hd' hmem).2
        rw [← hx, hxid, hc] at hlt
        exact UInt32.lt_irrefl _ hlt
      rw [heq]
      intro h₁ hmem₁ h₂ hmem₂ hc hx
      rcases List.mem_cons.1 hmem₁ with rfl | hold₁
      · rcases List.mem_cons.1 hmem₂ with rfl | hold₂
        · rfl
        · exact absurd hx (hne h₂ hold₂ hc)
      · rcases List.mem_cons.1 hmem₂ with rfl | hold₂
        · exact absurd hx.symm (hne h₁ hold₁ hc.symm)
        · exact h.unique h₁ hold₁ h₂ hold₂ hc hx
  · intro c x hran
    rcases ran_step hst with heq | ⟨hd, hmem, hadm', heq⟩
    · rcases h.admitted c x (heq ▸ hran) with ⟨hd, hmem, hc, hx, ha⟩
      exact ⟨hd, hsub hd hmem, hc, hx, hadm hd ha⟩
    · rw [heq] at hran
      rcases List.mem_cons.1 hran with hnew | hran
      · cases hnew
        exact ⟨hd, hsub hd hmem, rfl, rfl, hadm hd hadm'⟩
      · rcases h.admitted c x hran with ⟨hd', hmem', hc, hx, ha⟩
        exact ⟨hd', hsub hd' hmem', hc, hx, hadm hd' ha⟩

/-! ## Both sides -/

/-- No acknowledgement has reached a call that is waiting, and if it was run, its entry is there
and it was run once. -/
structure Remembered (s : State) : Prop where
  below : ∀ h ∈ s.reqs, ∀ x, Outstanding s h.cltNonce x → h.xidRep < x
  kept : ∀ c x, c ≠ 0 → Outstanding s c x → (c, x) ∈ s.ran →
    HasXid (s.windowOf c) x ∧ s.ran.count (c, x) = 1

theorem remembered_init {s : State} (h : Init s) : Remembered s := by
  rcases h with ⟨nonce, procs, rfl⟩
  constructor <;> simp [init]

/-- Fewer calls wait. -/
theorem Remembered.setClient {s : State} (h : Remembered s) {c : UInt32} {k : Rpcc}
    (hk : ∀ ca ∈ k.calls, ca.done = none → ca ∈ (s.client c).calls) :
    Remembered (s.setClient c k) := by
  have hout : ∀ d x, Outstanding (s.setClient c k) d x → Outstanding s d x := by
    rintro d x ⟨ca, hca, hx, hdone⟩
    by_cases hd : d = c
    · subst hd
      rw [setClient_client_self] at hca
      exact ⟨ca, hk ca hca hdone, hx, hdone⟩
    · rw [setClient_client_of_ne s k hd] at hca
      exact ⟨ca, hca, hx, hdone⟩
  exact ⟨fun hd hmem x ho => h.below hd hmem x (hout _ x ho),
    fun d x hd ho => h.kept d x hd (hout d x ho)⟩

theorem Remembered.call {s : State} (h : Remembered s) (hw : Wf s)
    (hack : ∀ c, AckOk (s.client c)) (hn : Numbered s) {c proc : UInt32} {k : Rpcc}
    {hd : ReqHeader} (hcall : (s.client c).call1 c proc = some (k, hd)) :
    Remembered { s.setClient c k with reqs := hd :: s.reqs } := by
  rcases call1_eq hcall with ⟨_, _, hcalls, hxid, hc, hrep⟩
  -- a call that waits did so before, or it is the new one
  have hout : ∀ d x, Outstanding { s.setClient c k with reqs := hd :: s.reqs } d x →
      Outstanding s d x ∨ (d = c ∧ x = (s.client c).xid) := by
    rintro d x ⟨ca, hca, hx, hdone⟩
    change ca ∈ ((s.setClient c k).client d).calls at hca
    by_cases hd : d = c
    · subst hd
      rw [setClient_client_self, hcalls] at hca
      rcases List.mem_cons.1 hca with rfl | hca
      · exact Or.inr ⟨rfl, hx.symm⟩
      · exact Or.inl ⟨ca, hca, hx, hdone⟩
    · rw [setClient_client_of_ne s k hd] at hca
      exact Or.inl ⟨ca, hca, hx, hdone⟩
  constructor
  · intro hd' hmem x ho
    rcases hout _ x ho with hwait | ⟨hc', rfl⟩
    · rcases List.mem_cons.1 hmem with rfl | hold
      · rcases hwait with ⟨ca, hca, rfl, hdone⟩
        rw [hrep]
        rw [hc] at hca
        exact (hack c).above ca hca hdone
      · exact h.below hd' hold x hwait
    · -- the new call has the highest number of all
      rcases List.mem_cons.1 hmem with rfl | hold
      · rw [hrep]
        exact (hw.client c).headD_lt
      · have hreq := hw.req hd' hold
        rw [hc'] at hreq
        exact UInt32.lt_trans hreq.1 hreq.2
  · intro d x hd0 ho hran
    rcases hout d x ho with ho | ⟨rfl, rfl⟩
    · exact h.kept d x hd0 ho hran
    · -- the new number was not run yet
      rcases hn.admitted _ _ hran with ⟨hd', hmem', hc', hx', _⟩
      have hlt := (hw.req hd' hmem').2
      rw [hx', hc'] at hlt
      exact absurd hlt (UInt32.lt_irrefl _)

/-- The duplicate check of a request keeps the entries of the calls that wait. -/
theorem Remembered.hasXid_check {s : State} (h : Remembered s) {hd : ReqHeader}
    (hmem : hd ∈ s.reqs) {c x : UInt32} (ho : Outstanding s c x) (hx : HasXid (s.windowOf c) x) :
    HasXid ((s.setWindow hd.cltNonce (checkOf s hd).window).windowOf c) x := by
  by_cases hc : c = hd.cltNonce
  · subst hc
    rw [setWindow_windowOf_self]
    rcases hx with ⟨e, he, rfl⟩
    rcases (check_window _ hd.xid hd.xidRep).1 e he with hkeep | hpurge
    · exact ⟨e, hkeep, rfl⟩
    · -- it is purged only below `xid_rep`, and that is below every call that waits
      have hlt : e.xid < hd.xidRep := by
        simp only [Reply.purgeable, Bool.and_eq_true, decide_eq_true_eq] at hpurge
        exact hpurge.1
      exact absurd (UInt32.lt_trans hlt (h.below hd hmem _ ho)) (UInt32.lt_irrefl _)
  · rw [setWindow_windowOf_of_ne _ _ hc]
    exact hx

theorem Remembered.check {s : State} (h : Remembered s) {hd : ReqHeader} (hmem : hd ∈ s.reqs) :
    Remembered (s.setWindow hd.cltNonce (checkOf s hd).window) where
  below := h.below
  kept := by
    intro c x hc ho hran
    have hkept := h.kept c x hc ho hran
    exact ⟨h.hasXid_check hmem ho hkept.1, hkept.2⟩

theorem Remembered.accept {s : State} (h : Remembered s) (hw : Wf s) {hd : ReqHeader}
    (hmem : hd ∈ s.reqs) (hnew : (checkOf s hd).state = .new) :
    Remembered ((s.setWindow hd.cltNonce (checkOf s hd).window).enter hd) := by
  refine ⟨h.below, fun c x hc ho hran => ?_⟩
  by_cases heq : (hd.cltNonce, hd.xid) = (c, x)
  · cases heq
    -- a request that was run would have its entry, and would not be admitted
    have hnot : (hd.cltNonce, hd.xid) ∉ s.ran := fun hold =>
      check_state_ne_new (h.kept _ _ hc ho hold).1 (hw.req hd hmem).1 hnew
    refine ⟨⟨Reply.fresh hd.xid, ?_, rfl⟩, ?_⟩
    · exact (setWindow_windowOf_self s _ _).symm ▸ (check_window _ _ _).2 hnew
    · change ((hd.cltNonce, hd.xid) :: s.ran).count (hd.cltNonce, hd.xid) = 1
      rw [List.count_cons_self, List.count_eq_zero.2 hnot]
  · have hold : (c, x) ∈ s.ran := (List.mem_cons.1 hran).resolve_left (Ne.symm heq)
    have hkept := h.kept c x hc ho hold
    exact ⟨h.hasXid_check hmem ho hkept.1, (List.count_cons_of_ne heq).trans hkept.2⟩

theorem Remembered.plain {s : State} (h : Remembered s) {hd : ReqHeader} (hc : hd.cltNonce = 0) :
    Remembered (s.enter hd) := by
  refine ⟨h.below, fun c x hc0 ho hran => ?_⟩
  have hne : (hd.cltNonce, hd.xid) ≠ (c, x) := fun heq => hc0 ((Prod.mk.inj heq).1.symm.trans hc)
  have hkept := h.kept c x hc0 ho ((List.mem_cons.1 hran).resolve_left (Ne.symm hne))
  exact ⟨hkept.1, (List.count_cons_of_ne hne).trans hkept.2⟩

theorem Remembered.ret {s : State} (h : Remembered s) (hd : ReqHeader) (b : Rep) :
    Remembered (s.setWindow hd.cltNonce (addReply hd.xid b (s.windowOf hd.cltNonce))) := by
  refine ⟨h.below, fun c x hc ho hran => ?_⟩
  have hkept := h.kept c x hc ho hran
  refine ⟨?_, hkept.2⟩
  by_cases hcd : c = hd.cltNonce
  · subst hcd
    rw [setWindow_windowOf_self]
    exact hasXid_addReply _ _ hkept.1
  · rw [setWindow_windowOf_of_ne _ _ hcd]
    exact hkept.1

theorem Remembered.step {s t : State} {a : Action} (h : Remembered s) (hw : Wf s)
    (hack : ∀ c, AckOk (s.client c)) (hn : Numbered s) (hst : Rpc.step s a = some t) :
    Remembered t := by
  cases step_move hst with
  | call hcall => exact h.call hw hack hn hcall
  | gotPdu _ => exact h.setClient fun ca hca hdone => (waiting_gotPdu hca hdone).1
  | finish hfin => exact h.setClient fun ca hca _ => (waiting_finish hfin hca).1
  | cancel => exact h.setClient fun ca hca hdone => absurd hdone (waiting_cancel hca)
  | stale _ | abort => exact ⟨h.below, h.kept⟩
  | plain _ hc => exact h.plain hc
  | accept hmem _ hnew => exact h.accept hw hmem hnew
  | silent hmem _ _ => exact h.check hmem
  | resend hmem _ _ _ | forgotten hmem _ _ => exact ⟨(h.check hmem).below, (h.check hmem).kept⟩
  | plainRet _ _ => exact ⟨h.below, h.kept⟩
  | @ret hd _ _ b _ _ _ => exact ⟨(h.ret hd b).below, (h.ret hd b).kept⟩

/-! ## Results -/

/-- A copy of a request is answered from its entry: not at all while the handler is running, and
with the stored reply afterwards.  The handler is not entered. -/
def Answered (s : State) (h : ReqHeader) : Prop :=
  ∃ e ∈ s.windowOf h.cltNonce, e.xid = h.xid ∧ (dispatch s h).ran = s.ran ∧
    match e.buf with
    | none => (checkOf s h).state = .inprogress ∧ (dispatch s h).reps = s.reps
    | some b => (checkOf s h).state = .done ∧ (dispatch s h).reps = (h.cltNonce, b) :: s.reps

theorem dispatch_of_admissible {s : State} {h : ReqHeader} (ha : Admissible s h)
    (hc : h.cltNonce ≠ 0) :
    dispatch s h = answer (s.setWindow h.cltNonce (checkOf s h).window) h (checkOf s h) := by
  have hsrv : ¬ (h.srvNonce ≠ 0 ∧ h.srvNonce ≠ s.nonce) := fun hne =>
    ha.1.elim hne.1 hne.2
  have hproc : ¬ h.proc ∉ s.procs := not_not.2 ha.2
  rw [dispatch, if_neg hsrv, if_neg hproc, if_neg hc]

theorem answered_of_hasXid {s : State} (hs : ServerOk s) {h : ReqHeader} (ha : Admissible s h)
    (hc : h.cltNonce ≠ 0) (hlt : h.xidRep < h.xid) (hx : HasXid (s.windowOf h.cltNonce) h.xid) :
    Answered s h := by
  rcases check_of_hasXid (hs.sorted h.cltNonce) hx hlt with ⟨e, he, hxid, hstate, hbuf⟩
  have hstored := hs.stored _ e he
  have hstate' : (checkOf s h).state = if e.cbPresent then .done else .inprogress := hstate
  have hbuf' : (checkOf s h).buf = if e.cbPresent then e.buf else none := hbuf
  refine ⟨e, he, hxid, ?_⟩
  rw [dispatch_of_admissible ha hc]
  cases hb : e.buf with
  | none =>
      have hcb : e.cbPresent = false := by simp [hstored, hb]
      simp [answer, hstate', hcb, State.setWindow]
  | some b =>
      have hcb : e.cbPresent = true := by simp [hstored, hb]
      simp [answer, hstate', hbuf', hcb, hb, State.setWindow, State.reply]

/-- What holds in every reached state while no counter wraps around. -/
structure Kept (s : State) : Prop where
  wf : Wf s
  acks : ∀ c, AckOk (s.client c)
  server : ServerOk s
  numbered : Numbered s
  remembered : Remembered s

theorem kept_reach {s : State} (h : Reach Init step NoWrap s) : Kept s := by
  refine Reach.invariant (I := Kept) ?_ ?_ h
  · intro s hs
    refine ⟨wf_init hs, fun c => ?_, serverOk_init hs, numbered_init hs, remembered_init hs⟩
    rcases hs with ⟨nonce, procs, rfl⟩
    exact ackOk_init
  · intro s a t hI hok hst
    exact ⟨hI.wf.step hok hst, AckOk.step hI.acks hI.wf hst, hI.server.step hI.wf hst,
      hI.numbered.step hI.wf hst, hI.remembered.step hI.wf hI.acks hI.numbered hst⟩

/-- While a call is waiting no request acknowledges it.  Once the server has run it, its entry is
in the reply window, it was run once, and every further copy is answered from the entry. -/
theorem outstanding_remembered {s : State} (h : Reach Init step NoWrap s) {c x : UInt32}
    (hc : c ≠ 0) (hout : Outstanding s c x) :
    (∀ hd ∈ s.reqs, hd.cltNonce = c → hd.xidRep < x) ∧
      ((c, x) ∈ s.ran → HasXid (s.windowOf c) x ∧ s.ran.count (c, x) = 1 ∧
        ∀ hd ∈ s.reqs, hd.cltNonce = c → hd.xid = x → Answered s hd) := by
  have hK := kept_reach h
  refine ⟨?_, fun hran => ?_⟩
  · rintro hd hmem rfl
    exact hK.remembered.below hd hmem x hout
  · rcases hK.remembered.kept c x hc hout hran with ⟨hentry, hcount⟩
    refine ⟨hentry, hcount, ?_⟩
    rintro hd hmem rfl rfl
    -- the copy is the request that was admitted
    rcases hK.numbered.admitted _ _ hran with ⟨hd', hmem', hc', hx', ha⟩
    obtain rfl := hK.numbered.unique hd' hmem' hd hmem hc' hx'
    exact answered_of_hasXid hK.server ha hc (hK.wf.req hd' hmem').1 hentry

/-- Calls 2 and 3 are under way at the same time; 2 was handled, its reply is delayed, and a copy
of it arrives. -/
theorem outstanding_remembered_two :
    ∃ s, Reach Init step NoWrap s ∧
      (Outstanding s 7 2 ∧ ((7 : UInt32), (2 : UInt32)) ∈ s.ran ∧ request 7 2 1 ∈ s.reqs) ∧
      HasXid (s.windowOf 7) 2 ∧ Answered s (request 7 2 1) := by
  have hrun : ∃ s, Reach Init step NoWrap s ∧
      Outstanding s 7 2 ∧ ((7 : UInt32), (2 : UInt32)) ∈ s.ran ∧ request 7 2 1 ∈ s.reqs :=
    Reach.exists_of_runFrom
      [.call 7 bind, .dispatch (bindReq 7), .ret (bindReq 7) 0 [0, 0, 0, 9],
        .gotPdu 7 (okReply 1 [0, 0, 0, 9]), .finish 7 1, .call 7 100, .call 7 100,
        .dispatch (request 7 2 1), .ret (request 7 2 1) 0 [], .dispatch (request 7 3 1)]
      ⟨9, [1, 100], rfl⟩ (by decide +kernel)
  rcases hrun with ⟨s, hs, hout, hran, hmem⟩
  rcases (outstanding_remembered hs (by decide) hout).2 hran with ⟨hentry, _, hcopies⟩
  exact ⟨s, hs, ⟨hout, hran, hmem⟩, hentry, hcopies _ hmem rfl rfl⟩

/-! ## A whole lap of `xid_` -/

def boundClient (xid : UInt32) (calls : List Caller) (acked : List UInt32) : Rpcc where
  srvNonce := 9
  bindDone := true
  xid := xid
  calls := calls
  xidRepWindow := acked
  destroyWait := false

/-- A reached state of the client 7 and the server with nonce 9. -/
structure Scene (k : Rpcc) (w : List Reply) (s : State) : Prop where
  reach : Reach Init step anyStep s
  client : s.client 7 = k
  nonce : s.nonce = 9
  procs : s.procs = [1, 100]
  window : s.windowOf 7 = w
  aborted : s.aborted = false

/-- The entry of the bind request. -/
def bindEntry : Reply where
  xid := 1
  cbPresent := true
  buf := some (okReply 1 [0, 0, 0, 9])

theorem scene_bind : ∃ s, Scene (boundClient 2 [] [1]) [bindEntry] s := by
  have hrun : ∃ s, Reach Init step anyStep s ∧ s.client 7 = boundClient 2 [] [1] ∧ s.nonce = 9 ∧
      s.procs = [1, 100] ∧ s.windowOf 7 = [bindEntry] ∧ s.aborted = false :=
    Reach.exists_of_runFrom
      [.call 7 bind, .dispatch (bindReq 7), .ret (bindReq 7) 0 [0, 0, 0, 9],
        .gotPdu 7 (okReply 1 [0, 0, 0, 9]), .finish 7 1]
      ⟨9, [1, 100], rfl⟩ (by decide +kernel)
  rcases hrun with ⟨s, hs, hclient, hnonce, hprocs, hwindow, haborted⟩
  exact ⟨s, hs, hclient, hnonce, hprocs, hwindow, haborted⟩

section Scene

variable {s : State} {k : Rpcc} {w : List Reply} {calls : List Caller} {acked : List UInt32}
  {x y : UInt32}

theorem Scene.call (h : Scene (boundClient x calls acked) w s) :
    ∃ t, Scene (boundClient (x + 1) (⟨x, 100, none⟩ :: calls) acked) w t ∧
      t.reqs = request 7 x (acked.headD 0) :: s.reqs ∧ t.ran = s.ran := by
  let k' := boundClient (x + 1) (⟨x, 100, none⟩ :: calls) acked
  have hst : step s (.call 7 100) = some
      { s.setClient 7 k' with reqs := request 7 x (acked.headD 0) :: s.reqs } := by
    simp [step, Rpcc.call1, h.client, boundClient, bind, request, k']
  exact ⟨_, ⟨h.reach.next trivial hst, setClient_client_self s 7 k', h.nonce, h.procs, h.window,
    h.aborted⟩, rfl, rfl⟩

/-- The last call times out. -/
theorem Scene.finish (h : Scene (boundClient y [⟨x, 100, none⟩] acked) w s) :
    ∃ t, Scene (boundClient y [] (updateXidRep acked x)) w t := by
  let k' := boundClient y [] (updateXidRep acked x)
  have hst : step s (.finish 7 x) = some (s.setClient 7 k') := by
    simp [step, Rpcc.finish, h.client, boundClient, Rpcc.bound, k']
  exact ⟨_, h.reach.next trivial hst, setClient_client_self s 7 k', h.nonce, h.procs, h.window,
    h.aborted⟩

/-- A request that is new to the server. -/
theorem Scene.accept (h : Scene k w s) (hmem : request 7 x y ∈ s.reqs)
    (hnew : (checkduplicateAndUpdate (some w) x y).state = .new) :
    ∃ t, Scene k (checkduplicateAndUpdate (some w) x y).window t ∧ t.reqs = s.reqs ∧
      t.ran = (7, x) :: s.ran ∧ request 7 x y ∈ t.running := by
  have hadm : Admissible s (request 7 x y) := by
    refine ⟨Or.inr h.nonce.symm, ?_⟩
    simp [h.procs, request]
  have hcheck : checkOf s (request 7 x y) = checkduplicateAndUpdate (some w) x y := by
    rw [← h.window]
    rfl
  have hst : step s (.dispatch (request 7 x y)) = some
      ((s.setWindow 7 (checkduplicateAndUpdate (some w) x y).window).enter (request 7 x y)) := by
    have hnonce : (7 : UInt32) ≠ 0 := by decide
    have hdisp := dispatch_of_admissible hadm hnonce
    simp only [step, hmem, h.aborted, hdisp, hcheck, answer, hnew, and_self, if_true]
    rfl
  exact ⟨_, ⟨h.reach.next trivial hst, h.client, h.nonce, h.procs, setWindow_windowOf_self s 7 _,
    h.aborted⟩, rfl, rfl, List.mem_cons_self⟩

/-- Its handler returns. -/
theorem Scene.ret (h : Scene k w s) (hmem : request 7 x y ∈ s.running) :
    ∃ t, Scene k (addReply x (okReply x []) w) t ∧ t.reqs = s.reqs ∧ t.ran = s.ran := by
  have hst : step s (.ret (request 7 x y) 0 []) = some
      { (s.setWindow 7 (addReply x (okReply x []) w)).reply 7 (okReply x []) with
        running := s.running.erase (request 7 x y) } := by
    have hnonce : (7 : UInt32) > 0 := by decide
    have hpos : (request 7 x y).cltNonce > 0 := hnonce
    simp only [step, hmem, h.aborted, handlerRet, hpos, and_self, if_true]
    rw [← h.window]
    rfl
  exact ⟨_, ⟨h.reach.next trivial hst, h.client, h.nonce, h.procs, setWindow_windowOf_self s 7 _,
    h.aborted⟩, rfl, rfl⟩

/-- A call that times out before its request has got to the server. -/
theorem Scene.timeout (h : Scene (boundClient x [] acked) w s) :
    ∃ t, Scene (boundClient (x + 1) [] (updateXidRep acked x)) w t := by
  rcases h.call with ⟨t, ht, _⟩
  exact ht.finish

end Scene

theorem updateXidRep_succ {w : UInt32} (h : w < w + 1) : updateXidRep [w] (w + 1) = [w + 1] := by
  have hle : ¬ w + 1 ≤ w := UInt32.not_le.2 h
  have hgt : ¬ w > w + 1 := fun h' => UInt32.lt_irrefl _ (UInt32.lt_trans h h')
  simp [updateXidRep, insertXid, compress, compressLoop, hle, hgt]

theorem lap (k : ℕ) (hk : k + 2 ≤ UInt32.size) :
    ∃ s, Scene (boundClient (UInt32.ofNat (k + 2)) [] [UInt32.ofNat (k + 1)]) [bindEntry] s := by
  induction k with
  | zero => exact scene_bind
  | succ k ih =>
      rcases ih (by omega) with ⟨s, h⟩
      rcases h.timeout with ⟨t, ht⟩
      have hsucc : ∀ n, UInt32.ofNat (n + 1) = UInt32.ofNat n + 1 := fun n => UInt32.ofNat_add n 1
      -- short of the end of the lap the acknowledged front can still move on by one
      have hlt : UInt32.ofNat (k + 1) < UInt32.ofNat (k + 1) + 1 := by
        refine lt_succ_of_ne_zero fun h0 => ?_
        have hnat := congrArg UInt32.toNat (hsucc (k + 1) ▸ h0)
        rw [UInt32.toNat_ofNat_of_lt' (by omega)] at hnat
        cases hnat
      rw [hsucc (k + 1), updateXidRep_succ hlt, ← hsucc, ← hsucc] at ht
      exact ⟨t, ht⟩

/-- After 2³² calls the client's numbers start again, while its acknowledgements do not: the
request of call 3 tells the server that the reply to 2 is not needed, although it is. -/
theorem wrapped_xid_forgets :
    ∃ s, Reach Init step anyStep s ∧
      (Outstanding s 7 2 ∧ ((7 : UInt32), (2 : UInt32)) ∈ s.ran) ∧
      (∃ hd ∈ s.reqs, hd.cltNonce = 7 ∧ 2 ≤ hd.xidRep) ∧ ¬ HasXid (s.windowOf 7) 2 ∧
      ∃ hd ∈ s.reqs, hd.cltNonce = 7 ∧ hd.xid = 2 ∧ (checkOf s hd).state = .forgotten := by
  -- the numbers 0 and 1 are used up as well
  rcases lap 4294967294 (by decide) with ⟨s₀, h₀⟩
  rcases h₀.timeout with ⟨s₁, h₁⟩
  rcases h₁.timeout with ⟨s₂, h₂⟩
  have h₂' : Scene (boundClient 2 [] [4294967295]) [bindEntry] s₂ := h₂
  -- calls 2 and 3; call 2 is handled and its reply is lost
  rcases h₂'.call with ⟨s₃, h₃, hreqs₃, _⟩
  rcases h₃.call with ⟨s₄, h₄, hreqs₄, _⟩
  have hmem : request 7 2 4294967295 ∈ s₄.reqs := by simp [hreqs₄, hreqs₃]
  rcases h₄.accept hmem rfl with ⟨s₅, h₅, hreqs₅, hran₅, hrunning₅⟩
  rcases h₅.ret hrunning₅ with ⟨s₆, h₆, hreqs₆, hran₆⟩
  -- the request of call 3 has the entry of 2 purged
  have hmem' : request 7 3 4294967295 ∈ s₆.reqs := by simp [hreqs₆, hreqs₅, hreqs₄]
  rcases h₆.accept hmem' rfl with ⟨s₇, h₇, hreqs₇, hran₇, _⟩
  have hwindow : s₇.windowOf 7 = [Reply.fresh 3] := h₇.window
  have hcopy : request 7 2 4294967295 ∈ s₇.reqs := by
    rw [hreqs₇, hreqs₆, hreqs₅]
    exact hmem
  refine ⟨s₇, h₇.reach, ⟨?_, ?_⟩, ⟨_, hcopy, rfl, by decide⟩, ?_, _, hcopy, rfl, rfl, ?_⟩
  · rw [Outstanding, h₇.client]
    decide
  · simp [hran₇, hran₆, hran₅]
  · rw [hwindow]
    decide
  · change (checkduplicateAndUpdate (some (s₇.windowOf 7)) 2 4294967295).state = _
    rw [hwindow]
    rfl

end Rpc
end Yfs

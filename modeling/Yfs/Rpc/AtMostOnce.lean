import Yfs.Rpc.Session

/-!
# AtMostOnce — how often a handler runs for one call

`dispatch` recognises a copy of a request by its entry in the reply window, or by an xid below
the front of the window.  An entry that has been dropped is covered by the second test only
while no smaller entry is left: one that is still in progress, or one that the purge loop
stepped over, keeps the front low, and a late copy of a dropped request is then run again.

* `Wf` — the numbering: `xid_rep` of every request is below its xid, and no reply or entry is
  ahead of the client's counter;
* `at_most_once` — under `InOrder`, no handler is entered twice for one call;
* `late_copy_runs_twice` — the run that breaks it.
-/

namespace Yfs
namespace Rpc

open Lib

/-! ## Numbering -/

/-- The client's counter is ahead of everything it has acknowledged or is waiting for. -/
structure ClientOk (k : Rpcc) : Prop where
  nonempty : k.xidRepWindow ≠ []
  acked : ∀ x ∈ k.xidRepWindow, x < k.xid
  call : ∀ ca ∈ k.calls, ca.xid < k.xid

theorem clientOk_init : ClientOk Rpcc.init where
  nonempty := by simp [Rpcc.init]
  acked := by simp [Rpcc.init]
  call := by simp [Rpcc.init]

theorem lt_succ_of_ne_zero {x : UInt32} (h : x + 1 ≠ 0) : x < x + 1 := by
  have hne : (x + 1).toNat ≠ 0 := fun h0 => h (UInt32.toNat_inj.1 h0)
  rw [UInt32.lt_iff_toNat_lt]
  rw [UInt32.toNat_add] at hne ⊢
  have hlt := x.toNat_lt
  have hone : UInt32.toNat 1 = 1 := rfl
  omega

theorem ClientOk.headD_lt {k : Rpcc} (h : ClientOk k) : k.xidRepWindow.headD 0 < k.xid := by
  cases hw : k.xidRepWindow with
  | nil => exact absurd hw h.nonempty
  | cons f ys => exact h.acked f (by simp [hw])

theorem ClientOk.update {k : Rpcc} (h : ClientOk k) {x : UInt32} (hx : x < k.xid) :
    updateXidRep k.xidRepWindow x ≠ [] ∧ ∀ y ∈ updateXidRep k.xidRepWindow x, y < k.xid := by
  refine ⟨updateXidRep_ne_nil h.nonempty x, fun y hy => ?_⟩
  rcases mem_updateXidRep hy with rfl | hy
  · exact hx
  · exact h.acked y hy

/-- The client and the header after `call1`. -/
theorem call1_eq {k k' : Rpcc} {c proc : UInt32} {hd : ReqHeader}
    (h : k.call1 c proc = some (k', hd)) :
    k'.xid = k.xid + 1 ∧ k'.xidRepWindow = k.xidRepWindow ∧
      k'.calls = ⟨k.xid, proc, none⟩ :: k.calls ∧
      hd.xid = k.xid ∧ hd.cltNonce = c ∧ hd.xidRep = k.xidRepWindow.headD 0 := by
  unfold Rpcc.call1 at h
  split at h
  · cases h
  · split at h
    · cases h
    · cases h
      exact ⟨rfl, rfl, rfl, rfl, rfl, rfl⟩

theorem ClientOk.call1 {k k' : Rpcc} {c proc : UInt32} {hd : ReqHeader} (h : ClientOk k)
    (hwrap : k.xid + 1 ≠ 0) (hcall : k.call1 c proc = some (k', hd)) :
    ClientOk k' ∧ k.xid < k'.xid ∧ hd.cltNonce = c ∧ hd.xidRep < hd.xid ∧ hd.xid < k'.xid := by
  rcases call1_eq hcall with ⟨hxid, hw, hcalls, hd_xid, hc, hrep⟩
  have hlt : k.xid < k'.xid := by
    rw [hxid]
    exact lt_succ_of_ne_zero hwrap
  refine ⟨⟨?_, ?_, ?_⟩, hlt, hc, ?_, ?_⟩
  · rw [hw]
    exact h.nonempty
  · rw [hw]
    exact fun x hx => UInt32.lt_trans (h.acked x hx) hlt
  · rw [hcalls]
    intro ca hca
    rcases List.mem_cons.1 hca with rfl | hca
    · exact hlt
    · exact UInt32.lt_trans (h.call ca hca) hlt
  · rw [hrep, hd_xid]
    exact h.headD_lt
  · rw [hd_xid]
    exact hlt

theorem ClientOk.gotPdu {k : Rpcc} {r : Rep} (h : ClientOk k) (hr : r.xid < k.xid) :
    ClientOk (k.gotPdu r) := by
  refine ⟨(h.update hr).1, (h.update hr).2, ?_⟩
  intro ca hca
  rcases List.mem_map.1 hca with ⟨ca₀, hca₀, rfl⟩
  have hxid : (Caller.take r ca₀).xid = ca₀.xid := by
    unfold Caller.take
    split <;> rfl
  rw [hxid]
  exact h.call ca₀ hca₀

theorem bound_fields (k : Rpcc) (ca : Caller) :
    (k.bound ca).xidRepWindow = k.xidRepWindow ∧ (k.bound ca).calls = k.calls ∧
      (k.bound ca).xid = k.xid := by
  unfold Rpcc.bound
  repeat' split
  all_goals exact ⟨rfl, rfl, rfl⟩

/-- The client after the end of a call. -/
theorem finish_eq {k k' : Rpcc} {xid : UInt32} (h : k.finish xid = some k') :
    (∃ ca ∈ k.calls, ca.xid = xid) ∧ k'.xid = k.xid ∧
      k'.xidRepWindow = updateXidRep k.xidRepWindow xid ∧
      k'.calls = k.calls.filter fun ca => decide (ca.xid ≠ xid) := by
  rcases Option.map_eq_some_iff.1 h with ⟨ca, hfind, rfl⟩
  rcases bound_fields _ ca with ⟨hw, hcalls, hxid⟩
  have hx : ca.xid = xid := by simpa using List.find?_some hfind
  exact ⟨⟨ca, List.mem_of_find?_eq_some hfind, hx⟩, hxid, hw, hcalls⟩

theorem ClientOk.finish {k k' : Rpcc} {xid : UInt32} (h : ClientOk k)
    (hfin : k.finish xid = some k') : ClientOk k' ∧ k'.xid = k.xid := by
  rcases finish_eq hfin with ⟨⟨ca, hca, rfl⟩, hxid, hw, hcalls⟩
  rcases h.update (h.call ca hca) with ⟨hnonempty, hacked⟩
  refine ⟨⟨?_, ?_, ?_⟩, hxid⟩
  · rw [hw]
    exact hnonempty
  · rw [hw, hxid]
    exact hacked
  · rw [hcalls, hxid]
    exact fun ca' hca' => h.call ca' (List.mem_filter.1 hca').1

theorem ClientOk.cancel {k : Rpcc} (h : ClientOk k) : ClientOk k.cancel := by
  refine ⟨h.nonempty, h.acked, ?_⟩
  intro ca hca
  rcases List.mem_map.1 hca with ⟨ca₀, hca₀, rfl⟩
  exact h.call ca₀ hca₀

/-- An entry of the reply window of a client whose counter is `n`. -/
structure EntryOk (n : UInt32) (e : Reply) : Prop where
  xid : e.xid < n
  buf : ∀ b, e.buf = some b → b.xid = e.xid

structure Wf (s : State) : Prop where
  client : ∀ c, ClientOk (s.client c)
  req : ∀ h ∈ s.reqs, h.xidRep < h.xid ∧ h.xid < (s.client h.cltNonce).xid
  rep : ∀ c r, (c, r) ∈ s.reps → r.xid < (s.client c).xid
  entry : ∀ c, ∀ e ∈ s.windowOf c, EntryOk (s.client c).xid e
  running : ∀ h ∈ s.running, h ∈ s.reqs

theorem wf_init {s : State} (h : Init s) : Wf s := by
  rcases h with ⟨nonce, procs, rfl⟩
  refine ⟨fun _ => clientOk_init, ?_, ?_, ?_, ?_⟩ <;> simp [init, State.windowOf]

/-- Only the counter of the client matters to the rest of the state, and it never goes back. -/
theorem Wf.setClient {s : State} (h : Wf s) {c : UInt32} {k : Rpcc} (hk : ClientOk k)
    (hle : (s.client c).xid ≤ k.xid) : Wf (s.setClient c k) := by
  have hup : ∀ d, (s.client d).xid ≤ ((s.setClient c k).client d).xid := by
    intro d
    by_cases hd : d = c
    · subst hd
      simpa using hle
    · simp [hd]
  constructor
  · intro d
    by_cases hd : d = c
    · subst hd
      simpa using hk
    · simpa [hd] using h.client d
  · intro hd hmem
    exact ⟨(h.req hd hmem).1, UInt32.lt_of_lt_of_le (h.req hd hmem).2 (hup _)⟩
  · intro d r hmem
    exact UInt32.lt_of_lt_of_le (h.rep d r hmem) (hup d)
  · intro d e he
    have he' := h.entry d e he
    exact ⟨UInt32.lt_of_lt_of_le he'.xid (hup d), he'.buf⟩
  · exact h.running

theorem Wf.reply {s : State} (h : Wf s) {c : UInt32} {r : Rep} (hr : r.xid < (s.client c).xid) :
    Wf (s.reply c r) where
  client := h.client
  req := h.req
  rep := by
    intro d r' hmem
    rcases List.mem_cons.1 hmem with heq | hmem
    · cases heq
      exact hr
    · exact h.rep d r' hmem
  entry := h.entry
  running := h.running

theorem Wf.enter {s : State} (h : Wf s) {hd : ReqHeader} (hmem : hd ∈ s.reqs) :
    Wf (s.enter hd) where
  client := h.client
  req := h.req
  rep := h.rep
  entry := h.entry
  running := by
    intro hd' hmem'
    rcases List.mem_cons.1 hmem' with rfl | hmem'
    · exact hmem
    · exact h.running hd' hmem'

theorem Wf.setWindow {s : State} (h : Wf s) {c : UInt32} {w : List Reply}
    (hw : ∀ e ∈ w, EntryOk (s.client c).xid e) : Wf (s.setWindow c w) where
  client := h.client
  req := h.req
  rep := h.rep
  entry := by
    intro d e he
    by_cases hd : d = c
    · subst hd
      exact hw e (by simpa using he)
    · exact h.entry d e (by simpa [hd] using he)
  running := h.running

theorem Wf.eraseRunning {s : State} (h : Wf s) (hd : ReqHeader) :
    Wf { s with running := s.running.erase hd } where
  client := h.client
  req := h.req
  rep := h.rep
  entry := h.entry
  running := fun hd' hmem => h.running hd' (List.mem_of_mem_erase hmem)

/-- The entries after a check are the old ones and perhaps the one of the request. -/
theorem Wf.checkOf {s : State} (h : Wf s) {hd : ReqHeader} (hmem : hd ∈ s.reqs) :
    ∀ e ∈ (checkOf s hd).window, EntryOk (s.client hd.cltNonce).xid e := by
  intro e he
  rcases mem_check_window (s.windowOf hd.cltNonce) hd.xid hd.xidRep he with rfl | he
  · exact ⟨(h.req hd hmem).2, fun b hb => by cases hb⟩
  · exact h.entry hd.cltNonce e he

theorem Wf.addReply {s : State} (h : Wf s) {hd : ReqHeader} (hmem : hd ∈ s.reqs) {b : Rep}
    (hb : b.xid = hd.xid) :
    ∀ e ∈ addReply hd.xid b (s.windowOf hd.cltNonce), EntryOk (s.client hd.cltNonce).xid e := by
  intro e he
  rcases mem_addReply he with he | ⟨hx, _, hbuf⟩
  · exact h.entry hd.cltNonce e he
  · refine ⟨hx ▸ (h.req hd hmem).2, fun b' hb' => ?_⟩
    rw [hbuf] at hb'
    cases hb'
    rw [hb, hx]

/-- The counter of a client has not run over. -/
def NoWrap (s : State) : Action → Prop
  | .call c _ => (s.client c).xid + 1 ≠ 0
  | _ => True

theorem Wf.step {s t : State} {a : Action} (h : Wf s) (hok : NoWrap s a)
    (hst : step s a = some t) : Wf t := by
  cases step_move hst with
  | @call c proc k hd hcall =>
      rcases (h.client c).call1 hok hcall with ⟨hk, hlt, hc, hrep, hxid⟩
      have hset := h.setClient hk (UInt32.le_of_lt hlt)
      refine ⟨hset.client, ?_, hset.rep, hset.entry, ?_⟩
      · intro hd' hmem
        rcases List.mem_cons.1 hmem with rfl | hmem
        · exact ⟨hrep, by simpa [hc] using hxid⟩
        · exact hset.req hd' hmem
      · intro hd' hmem
        exact List.mem_cons_of_mem _ (h.running hd' hmem)
  | @gotPdu c r hmem =>
      exact h.setClient ((h.client c).gotPdu (h.rep c r hmem)) (UInt32.le_refl _)
  | @finish c xid k hfin =>
      rcases (h.client c).finish hfin with ⟨hk, hx⟩
      exact h.setClient hk (by simp [hx])
  | @cancel c => exact h.setClient (h.client c).cancel (UInt32.le_refl _)
  | stale hmem => exact h.reply (h.req _ hmem).2
  | abort => exact ⟨h.client, h.req, h.rep, h.entry, h.running⟩
  | plain hmem _ => exact h.enter hmem
  | accept hmem _ _ => exact (h.setWindow (h.checkOf hmem)).enter hmem
  | silent hmem _ _ => exact h.setWindow (h.checkOf hmem)
  | @resend hd b hmem _ _ hbuf =>
      -- the reply sent again is one of the stored ones
      rcases check_buf _ _ _ hbuf with ⟨e, he, _, hb⟩
      have heok := h.entry hd.cltNonce e he
      refine (h.setWindow (h.checkOf hmem)).reply ?_
      have hlt : b.xid < (s.client hd.cltNonce).xid := by
        rw [heok.buf b hb]
        exact heok.xid
      exact hlt
  | forgotten hmem _ _ => exact (h.setWindow (h.checkOf hmem)).reply (h.req _ hmem).2
  | plainRet hmem _ => exact (h.reply (h.req _ (h.running _ hmem)).2).eraseRunning _
  | @ret hd ret body b hmem _ hb =>
      have hreq := h.running hd hmem
      have hw := h.setWindow (h.addReply hreq hb)
      have hlt : b.xid < (s.client hd.cltNonce).xid := by
        rw [hb]
        exact (h.req hd hreq).2
      exact (hw.reply hlt).eraseRunning hd

/-! ## Entering a handler -/

/-- A copy of a request whose entry was dropped arrives only while the front of the window is
above it. -/
def Covered (s : State) : Action → Prop
  | .dispatch h =>
      (h.cltNonce, h.xid) ∈ s.erased → frontAbove (s.windowOf h.cltNonce) h.xid = true
  | _ => True

/-- The purge loop does not erase the last entry of a window, after which it would go on behind
the end of the list. -/
def Inside (s : State) : Action → Prop
  | .dispatch h => (checkOf s h).pastEnd = false
  | _ => True

def InOrder (s : State) (a : Action) : Prop :=
  NoWrap s a ∧ Covered s a ∧ Inside s a

instance (s : State) : (a : Action) → Decidable (NoWrap s a)
  | .call c _ => inferInstanceAs (Decidable ((s.client c).xid + 1 ≠ 0))
  | .gotPdu _ _ | .finish _ _ | .cancel _ | .dispatch _ | .ret _ _ _ => isTrue trivial

instance (s : State) : (a : Action) → Decidable (Covered s a)
  | .dispatch h =>
      inferInstanceAs (Decidable ((h.cltNonce, h.xid) ∈ s.erased →
        frontAbove (s.windowOf h.cltNonce) h.xid = true))
  | .call _ _ | .gotPdu _ _ | .finish _ _ | .cancel _ | .ret _ _ _ => isTrue trivial

instance (s : State) : (a : Action) → Decidable (Inside s a)
  | .dispatch h => inferInstanceAs (Decidable ((checkOf s h).pastEnd = false))
  | .call _ _ | .gotPdu _ _ | .finish _ _ | .cancel _ | .ret _ _ _ => isTrue trivial

instance (s : State) (a : Action) : Decidable (InOrder s a) :=
  inferInstanceAs (Decidable (NoWrap s a ∧ Covered s a ∧ Inside s a))

/-- Every call that was run is still remembered or was dropped, and was run once. -/
structure Once (s : State) : Prop where
  count : ∀ c x, c ≠ 0 → s.ran.count (c, x) ≤ 1
  kept : ∀ c x, c ≠ 0 → (c, x) ∈ s.ran → HasXid (s.windowOf c) x ∨ (c, x) ∈ s.erased

theorem once_init {s : State} (h : Init s) : Once s := by
  rcases h with ⟨nonce, procs, rfl⟩
  constructor <;> simp [init]

theorem Once.setWindow {s : State} (h : Once s) (c : UInt32) (w : List Reply) :
    Once (s.setWindow c w) where
  count := h.count
  kept := fun d x hd hmem => hasXid_or_erased s c w (h.kept d x hd hmem)

/-- A handler that is entered for a client without duplicate detection. -/
theorem Once.enter_plain {s : State} (h : Once s) {hd : ReqHeader} (hc : hd.cltNonce = 0) :
    Once (s.enter hd) := by
  have hne : ∀ {c x : UInt32}, c ≠ 0 → (c, x) ≠ (hd.cltNonce, hd.xid) := by
    intro c x hc0 heq
    exact hc0 ((Prod.mk.inj heq).1.trans hc)
  constructor
  · intro c x hc0
    have : (s.enter hd).ran.count (c, x) = s.ran.count (c, x) :=
      List.count_cons_of_ne (hne hc0).symm
    rw [this]
    exact h.count c x hc0
  · intro c x hc0 hmem
    exact h.kept c x hc0 ((List.mem_cons.1 hmem).resolve_left (hne hc0))

/-- The admitted request is new: a copy of one that was run is either still in the window, or
dropped and then below its front. -/
theorem Once.not_mem_ran {s : State} (h : Once s) (hw : Wf s) {hd : ReqHeader}
    (hmem : hd ∈ s.reqs) (hc : hd.cltNonce ≠ 0) (hcov : Covered s (.dispatch hd))
    (hnew : (checkOf s hd).state = .new) : (hd.cltNonce, hd.xid) ∉ s.ran := by
  intro hran
  rcases h.kept _ _ hc hran with hin | hdrop
  · exact check_state_ne_new hin (hw.req hd hmem).1 hnew
  · have hfront := ((check_state_eq_new_iff _ _ _).1 hnew).1
    rw [hcov hdrop] at hfront
    cases hfront

theorem Once.accept {s : State} (h : Once s) (hw : Wf s) {hd : ReqHeader} (hmem : hd ∈ s.reqs)
    (hc : hd.cltNonce ≠ 0) (hcov : Covered s (.dispatch hd))
    (hnew : (checkOf s hd).state = .new) :
    Once ((s.setWindow hd.cltNonce (checkOf s hd).window).enter hd) := by
  have hset := h.setWindow hd.cltNonce (checkOf s hd).window
  have hnot := h.not_mem_ran hw hmem hc hcov hnew
  constructor
  · intro c x hc0
    change ((hd.cltNonce, hd.xid) :: s.ran).count (c, x) ≤ 1
    by_cases heq : (hd.cltNonce, hd.xid) = (c, x)
    · rw [← heq, List.count_cons_self, List.count_eq_zero.2 hnot]
    · rw [List.count_cons_of_ne heq]
      exact h.count c x hc0
  · intro c x hc0 hran
    rcases List.mem_cons.1 hran with heq | hran
    · cases heq
      refine Or.inl ?_
      change HasXid ((s.setWindow hd.cltNonce (checkOf s hd).window).windowOf hd.cltNonce) hd.xid
      rw [setWindow_windowOf_self]
      exact ⟨_, (check_window _ _ _).2 hnew, rfl⟩
    · exact hset.kept c x hc0 hran

theorem Once.step {s t : State} {a : Action} (h : Once s) (hw : Wf s) (hcov : Covered s a)
    (hst : step s a = some t) : Once t := by
  cases step_move hst with
  | call _ | gotPdu _ | finish _ | cancel | stale _ | abort => exact ⟨h.count, h.kept⟩
  | plain _ hc => exact h.enter_plain hc
  | accept hmem hc hnew => exact h.accept hw hmem hc hcov hnew
  | @silent hd _ _ _ =>
      have hset := h.setWindow hd.cltNonce (checkOf s hd).window
      exact ⟨hset.count, hset.kept⟩
  | @resend hd _ _ _ _ _ =>
      have hset := h.setWindow hd.cltNonce (checkOf s hd).window
      exact ⟨hset.count, hset.kept⟩
  | @forgotten hd _ _ _ =>
      have hset := h.setWindow hd.cltNonce (checkOf s hd).window
      exact ⟨hset.count, hset.kept⟩
  | plainRet _ _ => exact ⟨h.count, h.kept⟩
  | @ret hd _ _ b _ _ _ =>
      have hset := h.setWindow hd.cltNonce (addReply hd.xid b (s.windowOf hd.cltNonce))
      exact ⟨hset.count, hset.kept⟩

theorem wf_once_reach {s : State} (h : Reach Init step InOrder s) : Wf s ∧ Once s := by
  refine Reach.invariant (I := fun s => Wf s ∧ Once s) ?_ ?_ h
  · intro s hs
    exact ⟨wf_init hs, once_init hs⟩
  · intro s a t hI hok hst
    exact ⟨hI.1.step hok.1 hst, hI.2.step hI.1 hok.2.1 hst⟩

/-! ## Results -/

/-- No handler is entered twice for one call of a client that asks for at-most-once. -/
theorem at_most_once {s : State} (h : Reach Init step InOrder s) (c x : UInt32) (hc : c ≠ 0) :
    s.ran.count (c, x) ≤ 1 :=
  (wf_once_reach h).2.count c x hc

def bindReq (c : UInt32) : ReqHeader where
  xid := 1
  proc := bind
  cltNonce := c
  srvNonce := 0
  xidRep := 0

def request (c xid xidRep : UInt32) : ReqHeader where
  xid := xid
  proc := 100
  cltNonce := c
  srvNonce := 9
  xidRep := xidRep

def okReply (xid : UInt32) (body : List UInt8) : Rep where
  xid := xid
  ret := 0
  body := body

/-- A client binds and makes a number of calls at the same time; all of them are answered. -/
def concurrentCalls (c : UInt32) (xids : List UInt32) : List Action :=
  [.call c bind, .dispatch (bindReq c), .ret (bindReq c) 0 [0, 0, 0, 9],
    .gotPdu c (okReply 1 [0, 0, 0, 9]), .finish c 1] ++
    xids.map (fun _ => .call c 100) ++ xids.map (fun x => .dispatch (request c x 1)) ++
    xids.map (fun x => .ret (request c x 1) 0 []) ++
    xids.map (fun x => .gotPdu c (okReply x [])) ++ xids.map (fun x => .finish c x)

/-- One more call, which acknowledges the earlier ones, and then a late copy. -/
def callThenCopy (c xid : UInt32) (copy : ReqHeader) : List Action :=
  [.call c 100, .dispatch (request c xid (xid - 1)), .dispatch copy]

/-- A late copy of the bind request, whose entry is gone, is below the front of the window. -/
theorem at_most_once_bind :
    ∃ s, Reach Init step InOrder s ∧ (7, 1) ∈ s.erased ∧ s.ran.count (7, 1) ≤ 1 := by
  have hrun : ∃ s, Reach Init step InOrder s ∧ (7, 1) ∈ s.erased :=
    Reach.exists_of_runFrom (P := fun s : State => (7, 1) ∈ s.erased)
      (concurrentCalls 7 [2, 3] ++ callThenCopy 7 4 (bindReq 7)) ⟨9, [1, 100], rfl⟩
      (by decide +kernel)
  rcases hrun with ⟨s, hs, hdrop⟩
  exact ⟨s, hs, hdrop, at_most_once hs 7 1 (by decide)⟩

/-- Four calls are answered and acknowledged; the purge loop drops every second of them.  A
late copy of one that was dropped is above the front of the window and runs again. -/
theorem late_copy_runs_twice :
    ∃ s, Reach Init step Inside s ∧ s.ran.count ((7 : UInt32), (3 : UInt32)) = 2 :=
  Reach.exists_of_runFrom (P := fun s : State => s.ran.count ((7 : UInt32), (3 : UInt32)) = 2)
    (concurrentCalls 7 [2, 3, 4, 5] ++ callThenCopy 7 6 (request 7 3 1)) ⟨9, [1, 100], rfl⟩
    (by decide +kernel)

/-- The condition is needed at every dispatch: a copy that it excludes enters the handler a
second time. -/
theorem uncovered_copy_runs_again {s : State} {hd : ReqHeader} (hmem : hd ∈ s.reqs)
    (hup : s.aborted = false) (hsrv : hd.srvNonce = s.nonce) (hproc : hd.proc ∈ s.procs)
    (hc : hd.cltNonce ≠ 0) (hran : (hd.cltNonce, hd.xid) ∈ s.ran)
    (hgone : ¬ HasXid (s.windowOf hd.cltNonce) hd.xid)
    (hfront : frontAbove (s.windowOf hd.cltNonce) hd.xid = false) :
    ∃ t, step s (.dispatch hd) = some t ∧ 2 ≤ t.ran.count (hd.cltNonce, hd.xid) := by
  have hnew : (checkOf s hd).state = .new := check_state_eq_new hfront hgone
  refine ⟨dispatch s hd, by simp [step, hmem, hup], ?_⟩
  have hran' : (dispatch s hd).ran = (hd.cltNonce, hd.xid) :: s.ran := by
    simp [dispatch, hsrv, hproc, hc, answer, hnew, State.enter, State.setWindow]
  rw [hran', List.count_cons_self]
  exact Nat.succ_le_succ (List.count_pos_iff.2 hran)

end Rpc
end Yfs

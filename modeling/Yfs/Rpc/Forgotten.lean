import Mathlib.Data.Finset.Max
import Yfs.Rpc.Contract
import Yfs.Rpc.Outstanding

/-!
# Forgotten — which requests the server calls forgotten

`checkduplicate_and_update` calls a request forgotten if its xid is below the first entry of the
reply window.  That is right as long as the entries below the first were all acknowledged *and* the
numbers in between had entries at all.  A call that is lost and times out counts as acknowledged on
the client, though no entry was ever made for it.  Then the front of the window can jump over a
call that is still waiting (`live_request_forgotten`).

`Session` does not record what the server has received, so the system here is `Session` with the
list of the requests that have come to the duplicate check.  If the number that a request
acknowledges was itself checked before, the test is right (`forgotten_acknowledged`).
-/

namespace Yfs
namespace Rpc

open Lib

/-- The request gets past the checks of `dispatch` to `checkduplicate_and_update`. -/
def Reaches (s : State) (h : ReqHeader) : Prop :=
  Admissible s h ∧ h.cltNonce ≠ 0

instance (s : State) (h : ReqHeader) : Decidable (Admissible s h) :=
  inferInstanceAs (Decidable ((h.srvNonce = 0 ∨ h.srvNonce = s.nonce) ∧ h.proc ∈ s.procs))

instance (s : State) (h : ReqHeader) : Decidable (Reaches s h) :=
  inferInstanceAs (Decidable (Admissible s h ∧ h.cltNonce ≠ 0))

/-- A session and the requests that the duplicate check has been called for. -/
structure Recorded where
  session : State
  checked : List ReqHeader

namespace Recorded

def record (r : Recorded) : Action → List ReqHeader
  | .dispatch h => if Reaches r.session h then h :: r.checked else r.checked
  | _ => r.checked

def step (r : Recorded) (a : Action) : Option Recorded :=
  (Rpc.step r.session a).map fun s =>
    { session := s
      checked := r.record a }

def Init (r : Recorded) : Prop :=
  Rpc.Init r.session ∧ r.checked = []

/-- The number that stands for what `xid_rep` acknowledges; the first call has nothing to
acknowledge and stands for itself. -/
def anchor (xidRep : UInt32) : UInt32 :=
  if xidRep = 0 then 1 else xidRep

/-- No counter wraps around, and a request is received after the one it acknowledges. -/
def Arrived (r : Recorded) (a : Action) : Prop :=
  NoWrap r.session a ∧
    match a with
    | .dispatch h => h.xid = anchor h.xidRep ∨
        ∃ h' ∈ r.checked, h'.cltNonce = h.cltNonce ∧ h'.xid = anchor h.xidRep
    | _ => True

instance (r : Recorded) (a : Action) : Decidable (r.Arrived a) :=
  match a with
  | .dispatch h => inferInstanceAs (Decidable (NoWrap r.session (.dispatch h) ∧
      (h.xid = anchor h.xidRep ∨
        ∃ h' ∈ r.checked, h'.cltNonce = h.cltNonce ∧ h'.xid = anchor h.xidRep)))
  | .call c proc => inferInstanceAs (Decidable (NoWrap r.session (.call c proc) ∧ True))
  | .gotPdu _ _ | .finish _ _ | .cancel _ | .ret _ _ _ => isTrue ⟨trivial, trivial⟩

/-! ## The invariant -/

/-- What the windows and the record have to do with each other. -/
structure Linked (r : Recorded) : Prop where
  entry : ∀ c, ∀ e ∈ r.session.windowOf c, ∃ h ∈ r.checked, h.cltNonce = c
  running : ∀ h ∈ r.session.running, h.cltNonce ≠ 0 → h ∈ r.checked
  kept : ∀ h ∈ r.checked, HasXid (r.session.windowOf h.cltNonce) h.xid ∨
    ∃ h' ∈ r.checked, h'.cltNonce = h.cltNonce ∧ h.xid < h'.xidRep
  anchored : ∀ h ∈ r.checked,
    ∃ h' ∈ r.checked, h'.cltNonce = h.cltNonce ∧ h'.xid = anchor h.xidRep

theorem linked_init {r : Recorded} (h : Init r) : Linked r := by
  rcases h with ⟨⟨nonce, procs, hs⟩, hc⟩
  constructor <;> simp [hs, hc, init, State.windowOf]

theorem exists_max_xidRep (c : UInt32) (l : List ReqHeader) (h : ∃ hd ∈ l, hd.cltNonce = c) :
    ∃ hd ∈ l, hd.cltNonce = c ∧ ∀ hd' ∈ l, hd'.cltNonce = c → hd'.xidRep ≤ hd.xidRep := by
  rcases h with ⟨hd₀, hmem₀, hc₀⟩
  have hne : (l.filter fun hd => decide (hd.cltNonce = c)).toFinset.Nonempty :=
    ⟨hd₀, by simp [hmem₀, hc₀]⟩
  rcases Finset.exists_max_image _ (fun hd => hd.xidRep.toNat) hne with ⟨hd, hmem, hmax⟩
  simp only [List.mem_toFinset, List.mem_filter, decide_eq_true_eq] at hmem hmax
  refine ⟨hd, hmem.1, hmem.2, fun hd' hmem' hc' => ?_⟩
  rw [UInt32.le_iff_toNat_le]
  exact hmax hd' ⟨hmem', hc'⟩

theorem le_anchor (xidRep : UInt32) : xidRep ≤ anchor xidRep := by
  unfold anchor
  split
  next h => exact h ▸ UInt32.zero_le
  · exact UInt32.le_refl _

theorem lt_of_lt_anchor {x xidRep : UInt32} (hpos : 0 < x) (h : x < anchor xidRep) :
    x < xidRep := by
  unfold anchor at h
  split at h
  · rw [UInt32.lt_iff_toNat_lt] at hpos h
    simp only [UInt32.toNat_zero, UInt32.toNat_one] at hpos h
    omega
  · exact h

/-- The front of the window is not above what has been acknowledged: the number with the highest
acknowledgement has its own entry. -/
theorem Linked.acknowledged {r : Recorded} (hl : Linked r)
    (hsorted : ∀ c, SortedWindow (r.session.windowOf c)) {h : ReqHeader} (hlt : h.xidRep < h.xid)
    (hf : (checkOf r.session h).state = .forgotten) :
    ∃ h' ∈ r.checked, h'.cltNonce = h.cltNonce ∧ h.xid < h'.xidRep := by
  have hfront : frontAbove (r.session.windowOf h.cltNonce) h.xid = true := by
    revert hf
    refine check_cases (motive := fun c => c.state = .forgotten → _) _ h.xid h.xidRep ?_ ?_ ?_
    · exact fun hf _ => hf
    · intro e _ _ hst
      cases hc : e.cbPresent <;> simp [hc] at hst
    · intro _ _ hst
      cases hst
  cases hw : r.session.windowOf h.cltNonce with
  | nil =>
      rw [hw] at hfront
      cases hfront
  | cons e es =>
      have he : h.xid < e.xid := by simpa [hw, frontAbove] using hfront
      have hmem : e ∈ r.session.windowOf h.cltNonce := hw ▸ List.mem_cons_self
      rcases exists_max_xidRep h.cltNonce r.checked (hl.entry _ e hmem) with ⟨m, hm, hmc, hmax⟩
      rcases hl.anchored m hm with ⟨m', hm', hmc', hmx⟩
      -- no request acknowledges more than `m`, so the entry `m` is anchored at was never purged
      have hanchor : HasXid (r.session.windowOf h.cltNonce) (anchor m.xidRep) := by
        have hkept := hl.kept m' hm'
        rw [hmc', hmc, hmx] at hkept
        rcases hkept with hkept | ⟨m'', hm'', hmc'', hgt⟩
        · exact hkept
        · have hle := UInt32.le_trans (hmax m'' hm'' hmc'') (le_anchor m.xidRep)
          exact absurd hgt (UInt32.not_lt.2 hle)
      refine ⟨m, hm, hmc, lt_of_lt_anchor ?_ ?_⟩
      · exact UInt32.lt_of_le_of_lt UInt32.zero_le hlt
      · -- and it is at or behind the front `e`, which is above the request
        rcases hanchor with ⟨a, ha, hax⟩
        rw [← hax]
        rw [hw] at ha
        refine UInt32.lt_of_lt_of_le he ?_
        rcases List.mem_cons.1 ha with rfl | ha
        · exact UInt32.le_refl _
        · have hs := hsorted h.cltNonce
          rw [hw] at hs
          exact (List.pairwise_cons.1 hs).1 _ (List.mem_map_of_mem ha)

/-! ## Steps -/

theorem windowOf_answer (s : State) (h : ReqHeader) (c : Check) (d : UInt32) :
    (answer s h c).windowOf d = s.windowOf d := by
  unfold answer
  cases c.state with
  | new | inprogress => rfl
  | done => cases c.buf <;> rfl
  | forgotten => rfl

theorem running_answer {s : State} {h : ReqHeader} {c : Check} {h' : ReqHeader}
    (hmem : h' ∈ (answer s h c).running) : h' = h ∨ h' ∈ s.running := by
  unfold answer at hmem
  cases hst : c.state with
  | new =>
      rw [hst] at hmem
      exact List.mem_cons.1 hmem
  | inprogress =>
      rw [hst] at hmem
      exact Or.inr hmem
  | done => cases hb : c.buf <;> simp only [hst, hb] at hmem <;> exact Or.inr hmem
  | forgotten =>
      rw [hst] at hmem
      exact Or.inr hmem

/-- A request that does not get to the duplicate check leaves the windows alone. -/
theorem dispatch_outside {s : State} {h : ReqHeader} (hr : ¬ Reaches s h) :
    (∀ c, (dispatch s h).windowOf c = s.windowOf c) ∧
      ∀ h' ∈ (dispatch s h).running, h'.cltNonce ≠ 0 → h' ∈ s.running := by
  unfold dispatch
  split
  · exact ⟨fun _ => rfl, fun _ hmem _ => hmem⟩
  next hsrv =>
    split
    · exact ⟨fun _ => rfl, fun _ hmem _ => hmem⟩
    next hproc =>
      split
      next hc =>
        -- the handler of a client without a window runs at once
        refine ⟨fun _ => rfl, fun h' hmem hc' => ?_⟩
        rcases List.mem_cons.1 hmem with rfl | hmem
        · exact absurd hc hc'
        · exact hmem
      next hc =>
        refine absurd ⟨⟨?_, not_not.1 hproc⟩, hc⟩ hr
        by_contra hne
        exact hsrv (not_or.1 hne)

/-- A request that is not called forgotten has its entry afterwards. -/
theorem hasXid_check {w : List Reply} {xid xidRep : UInt32} (hlt : xidRep < xid) :
    (checkduplicateAndUpdate (some w) xid xidRep).state ≠ .forgotten →
      HasXid (checkduplicateAndUpdate (some w) xid xidRep).window xid := by
  refine check_cases (motive := fun c => c.state ≠ .forgotten → HasXid c.window xid) w xid xidRep
    ?_ ?_ ?_
  · intro _ h
    exact absurd rfl h
  · intro e _ hl _
    rcases purgeLoop_found xid xidRep w hl with ⟨he, hx⟩
    rcases mem_purgeLoop_or xid xidRep w he with hkeep | hpurge
    · exact ⟨e, hkeep, hx⟩
    · rw [not_purgeable_of_le (hx ▸ UInt32.le_of_lt hlt)] at hpurge
      cases hpurge
  · intro _ _ _
    exact ⟨Reply.fresh xid, mem_insertReply.2 (Or.inl rfl), rfl⟩

/-- An entry stays, or the request has it purged. -/
theorem HasXid.check {w : List Reply} {x : UInt32} (hx : HasXid w x) (xid xidRep : UInt32) :
    HasXid (checkduplicateAndUpdate (some w) xid xidRep).window x ∨ x < xidRep := by
  rcases hx with ⟨e, he, rfl⟩
  rcases (check_window w xid xidRep).1 e he with hkeep | hpurge
  · exact Or.inl ⟨e, hkeep, rfl⟩
  · simp only [Reply.purgeable, Bool.and_eq_true, decide_eq_true_eq] at hpurge
    exact Or.inr hpurge.1

/-- Windows and running handlers change, the record does not. -/
theorem Linked.session {r : Recorded} (hl : Linked r) {s : State}
    (hw : ∀ c, s.windowOf c = r.session.windowOf c)
    (hrun : ∀ h ∈ s.running, h.cltNonce ≠ 0 → h ∈ r.session.running) :
    Linked { r with session := s } := by
  refine ⟨?_, fun h hmem hc => hl.running h (hrun h hmem hc) hc, ?_, hl.anchored⟩
  · intro c e he
    exact hl.entry c e (hw c ▸ he)
  · intro h hmem
    rw [hw]
    exact hl.kept h hmem

theorem Linked.check {r : Recorded} (hl : Linked r)
    (hsorted : ∀ c, SortedWindow (r.session.windowOf c)) {h : ReqHeader}
    (hr : Reaches r.session h) (hlt : h.xidRep < h.xid)
    (ha : h.xid = anchor h.xidRep ∨
      ∃ h' ∈ r.checked, h'.cltNonce = h.cltNonce ∧ h'.xid = anchor h.xidRep) :
    Linked
      { session := dispatch r.session h
        checked := h :: r.checked } := by
  have hself : (dispatch r.session h).windowOf h.cltNonce = (checkOf r.session h).window := by
    rw [dispatch_of_admissible hr.1 hr.2, windowOf_answer, setWindow_windowOf_self]
  have hother : ∀ d, d ≠ h.cltNonce → (dispatch r.session h).windowOf d = r.session.windowOf d := by
    intro d hd
    rw [dispatch_of_admissible hr.1 hr.2, windowOf_answer, setWindow_windowOf_of_ne _ _ hd]
  -- the record only grows
  have hmono : ∀ {P : ReqHeader → Prop}, (∃ h' ∈ r.checked, P h') → ∃ h' ∈ h :: r.checked, P h' :=
    fun ⟨h', hmem, hP⟩ => ⟨h', List.mem_cons_of_mem _ hmem, hP⟩
  refine ⟨?_, ?_, ?_, ?_⟩
  · intro d e he
    by_cases hd : d = h.cltNonce
    · exact ⟨h, List.mem_cons_self, hd.symm⟩
    · exact hmono (hl.entry d e (hother d hd ▸ he))
  · intro h' hmem hc
    change h' ∈ (dispatch r.session h).running at hmem
    rw [dispatch_of_admissible hr.1 hr.2] at hmem
    rcases running_answer hmem with rfl | hold
    · exact List.mem_cons_self
    · exact List.mem_cons_of_mem _ (hl.running h' hold hc)
  · intro h' hmem
    change HasXid ((dispatch r.session h).windowOf h'.cltNonce) h'.xid ∨ _
    rcases List.mem_cons.1 hmem with rfl | hmem
    · rw [hself]
      by_cases hf : (checkOf r.session h').state = .forgotten
      · exact Or.inr (hmono (hl.acknowledged hsorted hlt hf))
      · exact Or.inl (hasXid_check hlt hf)
    · by_cases hd : h'.cltNonce = h.cltNonce
      · rcases hl.kept h' hmem with hx | hgone
        · rw [hd] at hx ⊢
          rw [hself]
          -- if the entry goes, it is `h` that acknowledges it
          exact (HasXid.check hx h.xid h.xidRep).imp_right
            fun hpurge => ⟨h, List.mem_cons_self, rfl, hpurge⟩
        · exact Or.inr (hmono hgone)
      · rw [hother _ hd]
        exact (hl.kept h' hmem).imp_right hmono
  · intro h' hmem
    rcases List.mem_cons.1 hmem with rfl | hmem
    · rcases ha with ha | ha
      · exact ⟨h', List.mem_cons_self, rfl, ha⟩
      · exact hmono ha
    · exact hmono (hl.anchored h' hmem)

theorem Linked.ret {r : Recorded} (hl : Linked r) {h : ReqHeader} (hmem : h ∈ r.session.running)
    (hc : h.cltNonce ≠ 0) (b : Rep) :
    Linked
      { r with
        session :=
          { (r.session.setWindow h.cltNonce
              (addReply h.xid b (r.session.windowOf h.cltNonce))).reply h.cltNonce b with
            running := r.session.running.erase h } } := by
  let s := r.session.setWindow h.cltNonce (addReply h.xid b (r.session.windowOf h.cltNonce))
  have hself : s.windowOf h.cltNonce = addReply h.xid b (r.session.windowOf h.cltNonce) :=
    setWindow_windowOf_self _ _ _
  have hother : ∀ d, d ≠ h.cltNonce → s.windowOf d = r.session.windowOf d :=
    fun d hd => setWindow_windowOf_of_ne _ _ hd
  refine ⟨?_, fun h' hmem' hc' => hl.running h' (List.mem_of_mem_erase hmem') hc', ?_, hl.anchored⟩
  · intro d e he
    change e ∈ s.windowOf d at he
    by_cases hd : d = h.cltNonce
    · exact ⟨h, hl.running h hmem hc, hd.symm⟩
    · exact hl.entry d e (hother d hd ▸ he)
  · intro h' hmem'
    change HasXid (s.windowOf h'.cltNonce) h'.xid ∨ _
    refine (hl.kept h' hmem').imp_left fun hx => ?_
    by_cases hd : h'.cltNonce = h.cltNonce
    · rw [hd] at hx ⊢
      rw [hself]
      exact hasXid_addReply _ _ hx
    · rw [hother _ hd]
      exact hx

theorem Linked.step {r r' : Recorded} {a : Action} (hl : Linked r) (hw : Wf r.session)
    (hsorted : ∀ c, SortedWindow (r.session.windowOf c)) (hok : r.Arrived a)
    (hst : r.step a = some r') : Linked r' := by
  rcases Option.map_eq_some_iff.1 hst with ⟨t, ht, rfl⟩
  cases a with
  | dispatch h =>
      rcases Option.ite_none_right_eq_some.1 ht with ⟨hmem, heq⟩
      rw [← Option.some.inj heq]
      by_cases hr : Reaches r.session h
      · rw [record, if_pos hr]
        exact hl.check hsorted hr (hw.req h hmem.1).1 hok.2
      · rw [record, if_neg hr]
        rcases dispatch_outside hr with ⟨hwin, hrun⟩
        exact hl.session hwin hrun
  | ret h ret body =>
      cases step_move ht with
      | abort => exact hl.session (fun _ => rfl) fun _ hmem _ => hmem
      | plainRet hmem hc =>
          exact hl.session (fun _ => rfl) fun _ hmem' _ => List.mem_of_mem_erase hmem'
      | ret hmem hc _ => exact hl.ret hmem hc _
  | call c proc =>
      cases step_move ht with
      | call _ | abort => exact hl.session (fun _ => rfl) fun _ hmem _ => hmem
  | gotPdu c rep =>
      cases step_move ht with
      | gotPdu _ | abort => exact hl.session (fun _ => rfl) fun _ hmem _ => hmem
  | finish c xid =>
      cases step_move ht with
      | finish _ | abort => exact hl.session (fun _ => rfl) fun _ hmem _ => hmem
  | cancel c =>
      cases step_move ht with
      | cancel | abort => exact hl.session (fun _ => rfl) fun _ hmem _ => hmem

/-! ## Results -/

theorem reach_session {r : Recorded} (h : Reach Init step Arrived r) :
    Reach Rpc.Init Rpc.step NoWrap r.session := by
  induction h with
  | start hr => exact .start hr.1
  | next _ hok hst ih =>
      rcases Option.map_eq_some_iff.1 hst with ⟨t, ht, rfl⟩
      exact ih.next hok.1 ht

theorem linked_reach {r : Recorded} (h : Reach Init step Arrived r) : Linked r := by
  refine Reach.invariant_with (J := fun r => Kept r.session) (I := Linked)
    (fun h => kept_reach (reach_session h)) (fun _ => linked_init) ?_ h
  intro r a r' hJ _ hl hok hst
  exact hl.step hJ.wf hJ.server.sorted hok hst

/-- If every acknowledged number has come to the duplicate check before the request that
acknowledges it, a request is called forgotten only after its own number was acknowledged. -/
theorem forgotten_acknowledged {r : Recorded} (h : Reach Init step Arrived r) {hd : ReqHeader}
    (hmem : hd ∈ r.session.reqs) (hf : (checkOf r.session hd).state = .forgotten) :
    ∃ hd' ∈ r.checked, hd'.cltNonce = hd.cltNonce ∧ hd.xid ≤ hd'.xidRep := by
  have hK := kept_reach (reach_session h)
  rcases (linked_reach h).acknowledged hK.server.sorted (hK.wf.req hd hmem).1 hf with
    ⟨hd', hmem', hc, hlt⟩
  exact ⟨hd', hmem', hc, UInt32.le_of_lt hlt⟩

/-- After call 3 has acknowledged call 2 the entry of the bind request is gone, and a late copy of
that request is forgotten. -/
theorem forgotten_acknowledged_bind :
    ∃ r, Reach Init step Arrived r ∧
      (bindReq 7 ∈ r.session.reqs ∧ (checkOf r.session (bindReq 7)).state = .forgotten) ∧
      ∃ hd' ∈ r.checked, hd'.cltNonce = 7 ∧ 1 ≤ hd'.xidRep := by
  have hinit : Init ⟨init 9 [1, 100], []⟩ := ⟨⟨9, [1, 100], rfl⟩, rfl⟩
  have hrun : ∃ r, Reach Init step Arrived r ∧ bindReq 7 ∈ r.session.reqs ∧
      (checkOf r.session (bindReq 7)).state = .forgotten :=
    Reach.exists_of_runFrom (bindSeven ++ [.call 7 100] ++ callSeven 2 1 ++
      [.call 7 100, .dispatch (request 7 3 2)]) hinit (by decide +kernel)
  rcases hrun with ⟨r, hr, hmem, hf⟩
  exact ⟨r, hr, ⟨hmem, hf⟩, forgotten_acknowledged hr hmem hf⟩

end Recorded

/-- The calls 2, 3 and 4 are made at once.  Call 2 is lost and times out, so call 5 acknowledges 2.
The server receives 4 and then 5, which has the entry of the bind request purged: the first entry
is now that of 4.  Call 3 arrives last and is called forgotten, while its caller is waiting and no
request has acknowledged more than 2. -/
theorem live_request_forgotten :
    ∃ s, Reach Init step NoWrap s ∧ Outstanding s 7 3 ∧ request 7 3 1 ∈ s.reqs ∧
      (checkOf s (request 7 3 1)).state = .forgotten ∧
      ∀ hd ∈ s.reqs, hd.cltNonce = 7 → hd.xidRep < 3 :=
  Reach.exists_of_runFrom (bindSeven ++ [.call 7 100, .call 7 100, .call 7 100, .finish 7 2,
    .call 7 100, .dispatch (request 7 4 1), .dispatch (request 7 5 2)]) ⟨9, [1, 100], rfl⟩
    (by decide +kernel)

end Rpc
end Yfs

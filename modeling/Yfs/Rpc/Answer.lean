import Yfs.Rpc.Outstanding

/-!
# Answer — what a client may conclude from the answer to a call

`rpcc::call1` returns what some reply with its xid said: a result of the handler, or one of the
errors that `rpcs::dispatch` answers by itself.  The replies come late, often, or from an entry of
the reply window that a copy of the request has met.  The question is whether the answer tells how
often the handler was run.

`Session` does not record what handlers return, so the system here is `Session` with a log of that.

* `Event` — a step of a session, with the handler that returned in it;
* `Truthful` — every stored and every sent reply is one of the log, or an error;
* `answer_tells_execution` — a waiting call that takes an answer of the handler was run once so
  far, and that is what was returned; one that takes an error was not run at all.

The errors are `oldsrv_failure`, for which no window is looked at, and `atmostonce_failure`: a
number below the front of the window stays there (`frontAbove_check`), so a call that was once
called forgotten is never run.
-/

namespace Yfs
namespace Rpc

open Lib

/-! ## The front of a reply window -/

theorem frontAbove_of_forall {w : List Reply} {x : UInt32} (hne : w ≠ [])
    (h : ∀ e ∈ w, x < e.xid) : frontAbove w x = true := by
  cases w with
  | nil => exact absurd rfl hne
  | cons e es => exact decide_eq_true (h e List.mem_cons_self)

theorem lt_of_frontAbove {w : List Reply} {x : UInt32} (hs : SortedWindow w)
    (h : frontAbove w x = true) : w ≠ [] ∧ ∀ e ∈ w, x < e.xid := by
  cases w with
  | nil => cases h
  | cons e es =>
      have hfront : x < e.xid := of_decide_eq_true h
      refine ⟨List.cons_ne_nil e es, fun e' he' => ?_⟩
      rcases List.mem_cons.1 he' with rfl | he'
      · exact hfront
      · have hlt := (List.pairwise_cons.1 hs).1 e'.xid (List.mem_map_of_mem he')
        exact UInt32.lt_of_lt_of_le hfront hlt

theorem purgeLoop_ne_nil (xid xidRep : UInt32) (w : List Reply)
    (h : (purgeLoop xid xidRep w).found ≠ none) : (purgeLoop xid xidRep w).window ≠ [] := by
  revert h
  refine purgeLoop_cases (motive := fun _ p => p.found ≠ none → p.window ≠ []) xid xidRep
    ?_ ?_ ?_ ?_ ?_ ?_ w
  · exact fun h => absurd rfl h
  · exact fun _ _ h => absurd rfl h
  · exact fun _ _ _ _ _ _ => List.cons_ne_nil _ _
  · exact fun _ _ _ _ _ _ _ _ => List.cons_ne_nil _ _
  · exact fun _ _ _ _ _ => List.cons_ne_nil _ _
  · exact fun _ _ _ _ _ _ _ => List.cons_ne_nil _ _

/-- What is below the front stays below it: a window is never emptied, and nothing is inserted
before its front. -/
theorem frontAbove_check {w : List Reply} {x : UInt32} (hs : SortedWindow w)
    (h : frontAbove w x = true) (xid xidRep : UInt32) :
    frontAbove (checkduplicateAndUpdate (some w) xid xidRep).window x = true := by
  rcases lt_of_frontAbove hs h with ⟨hne, hall⟩
  have hsub := (purgeLoop_sublist xid xidRep w).subset
  refine check_cases (motive := fun c => frontAbove c.window x = true) w xid xidRep ?_ ?_ ?_
  · exact fun _ => h
  · intro e _ hfound
    refine frontAbove_of_forall (purgeLoop_ne_nil xid xidRep w ?_) fun e' he' => hall e' (hsub he')
    rw [hfound]
    exact Option.some_ne_none e
  · intro hbelow _
    refine frontAbove_of_forall (List.ne_nil_of_mem (mem_insertReply.2 (Or.inl rfl)))
      fun e' he' => ?_
    rcases mem_insertReply.1 he' with rfl | he'
    · -- the new entry is not below the front, which is above `x`
      cases w with
      | nil => exact absurd rfl hne
      | cons f fs =>
          have hf : ¬ f.xid > xid := of_decide_eq_false hbelow
          exact UInt32.lt_of_lt_of_le (hall f List.mem_cons_self) (UInt32.not_lt.1 hf)
    · exact hall e' (hsub he')

theorem frontAbove_addReply {w : List Reply} {x : UInt32} (h : frontAbove w x = true)
    (xid : UInt32) (b : Rep) : frontAbove (addReply xid b w) x = true := by
  cases w with
  | nil => cases h
  | cons e es =>
      unfold addReply
      split <;> exact h

/-! ## Sessions with a log -/

structure Returned where
  req : ReqHeader
  ret : Int
  body : List UInt8
  deriving DecidableEq, Repr

/-- A session and the handlers that have returned, the latest first. -/
structure Logged where
  session : State
  returned : List Returned

/-- The request is for call `x` of client `c`. -/
def ReqHeader.isOf (c x : UInt32) (h : ReqHeader) : Bool :=
  decide (h.cltNonce = c ∧ h.xid = x)

/-- A negative result ends the server (`VERIFY(rh.ret >= 0)`). -/
def returnedBy : Action → Option Returned
  | .ret h ret body => if ret < 0 then none else some ⟨h, ret, body⟩
  | _ => none

namespace Logged

def step (l : Logged) (a : Action) : Option Logged :=
  (Rpc.step l.session a).map fun s =>
    { session := s
      returned := (returnedBy a).toList ++ l.returned }

def Init (l : Logged) : Prop :=
  Rpc.Init l.session ∧ l.returned = []

def NoWrap (l : Logged) (a : Action) : Prop :=
  Rpc.NoWrap l.session a

instance (l : Logged) (a : Action) : Decidable (l.NoWrap a) :=
  inferInstanceAs (Decidable (Rpc.NoWrap l.session a))

theorem reach_session {l : Logged} (h : Reach Init step NoWrap l) :
    Reach Rpc.Init Rpc.step Rpc.NoWrap l.session := by
  induction h with
  | start hs => exact .start hs.1
  | next _ hok hst ih =>
      rcases Option.map_eq_some_iff.1 hst with ⟨s, hs, rfl⟩
      exact .next ih hok hs

end Logged

/-- A step of a session, with what its replies and windows are made from. -/
inductive Event (s : State) : Action → State → Prop
  | client {a : Action} {t : State} (hst : Rpc.step s a = some t) (hret : returnedBy a = none)
      (hreps : t.reps = s.reps) (hwindow : t.window = s.window) (hrunning : t.running = s.running)
      (hran : t.ran = s.ran) : Event s a t
  | abort {a : Action} (hret : returnedBy a = none) : Event s a { s with aborted := true }
  | stale {h : ReqHeader} (hmem : h ∈ s.reqs) (hne : ¬ Admissible s h) :
      Event s (.dispatch h) (s.reply h.cltNonce (errorReply h oldsrvFailure))
  | plain {h : ReqHeader} (hmem : h ∈ s.reqs) (hc : h.cltNonce = 0) :
      Event s (.dispatch h) (s.enter h)
  | accept {h : ReqHeader} (hmem : h ∈ s.reqs) (hc : h.cltNonce ≠ 0)
      (hnew : (checkOf s h).state = .new) :
      Event s (.dispatch h) ((s.setWindow h.cltNonce (checkOf s h).window).enter h)
  | silent {h : ReqHeader} (hmem : h ∈ s.reqs) (hc : h.cltNonce ≠ 0) :
      Event s (.dispatch h) (s.setWindow h.cltNonce (checkOf s h).window)
  | resend {h : ReqHeader} {b : Rep} (hmem : h ∈ s.reqs) (hc : h.cltNonce ≠ 0)
      (hbuf : (checkOf s h).buf = some b) :
      Event s (.dispatch h) ((s.setWindow h.cltNonce (checkOf s h).window).reply h.cltNonce b)
  | forgotten {h : ReqHeader} (hmem : h ∈ s.reqs) (hc : h.cltNonce ≠ 0)
      (hfront : frontAbove (s.windowOf h.cltNonce) h.xid = true) :
      Event s (.dispatch h) ((s.setWindow h.cltNonce (checkOf s h).window).reply h.cltNonce
        (errorReply h atmostonceFailure))
  | ret {h : ReqHeader} {ret : Int} {body : List UInt8} {t : State} (hmem : h ∈ s.running)
      (hret : ¬ ret < 0) (hreps : t.reps = (h.cltNonce, ⟨h.xid, ret, body⟩) :: s.reps)
      (hrunning : t.running = s.running.erase h) (hran : t.ran = s.ran)
      (hwindow : ∀ c, t.windowOf c = s.windowOf c ∨ c = h.cltNonce ∧
        t.windowOf c = addReply h.xid ⟨h.xid, ret, body⟩ (s.windowOf c)) :
      Event s (.ret h ret body) t

theorem check_forgotten {w : List Reply} {xid xidRep : UInt32}
    (h : (checkduplicateAndUpdate (some w) xid xidRep).state = .forgotten) :
    frontAbove w xid = true := by
  revert h
  refine check_cases (motive := fun c => c.state = .forgotten → _) w xid xidRep ?_ ?_ ?_
  · exact fun hfront _ => hfront
  · intro e _ _
    cases e.cbPresent <;> simp
  · intro _ _ h
    cases h

theorem event_of_dispatch {s : State} {h : ReqHeader} (hmem : h ∈ s.reqs) :
    Event s (.dispatch h) (dispatch s h) := by
  unfold dispatch
  split
  next hsrv =>
    exact .stale hmem fun hadm => hadm.1.elim hsrv.1 hsrv.2
  next =>
    split
    · exact .abort rfl
    next =>
      split
      next hc => exact .plain hmem hc
      next hc =>
        unfold answer
        cases hstate : (checkOf s h).state with
        | new => exact .accept hmem hc hstate
        | inprogress => exact .silent hmem hc
        | done =>
            cases hbuf : (checkOf s h).buf with
            | none => exact .silent hmem hc
            | some b => exact .resend hmem hc hbuf
        | forgotten => exact .forgotten hmem hc (check_forgotten hstate)

theorem event_of_ret {s : State} {h : ReqHeader} {ret : Int} {body : List UInt8}
    (hmem : h ∈ s.running) : Event s (.ret h ret body) (handlerRet s h ret body) := by
  unfold handlerRet
  split
  next hneg => exact .abort (if_pos hneg)
  next hneg =>
    dsimp only
    split
    · refine .ret hmem hneg rfl rfl rfl fun c => ?_
      by_cases hc : c = h.cltNonce
      · subst hc
        exact Or.inr ⟨rfl, setWindow_windowOf_self ..⟩
      · exact Or.inl (setWindow_windowOf_of_ne s _ hc)
    · exact .ret hmem hneg rfl rfl rfl fun _ => Or.inl rfl

theorem event_of_step {s t : State} {a : Action} (hst : Rpc.step s a = some t) : Event s a t := by
  cases a with
  | call c proc =>
      have hst' := hst
      rcases Option.map_eq_some_iff.1 hst with ⟨_, _, rfl⟩
      exact .client hst' rfl rfl rfl rfl rfl
  | gotPdu c r =>
      have hst' := hst
      rcases Option.ite_none_right_eq_some.1 hst with ⟨_, ⟨⟩⟩
      exact .client hst' rfl rfl rfl rfl rfl
  | finish c xid =>
      have hst' := hst
      rcases Option.map_eq_some_iff.1 hst with ⟨_, _, rfl⟩
      exact .client hst' rfl rfl rfl rfl rfl
  | cancel c =>
      have hst' := hst
      cases hst
      exact .client hst' rfl rfl rfl rfl rfl
  | dispatch h =>
      rcases Option.ite_none_right_eq_some.1 hst with ⟨hmem, heq⟩
      rw [← Option.some.inj heq]
      exact event_of_dispatch hmem.1
  | ret h ret body =>
      rcases Option.ite_none_right_eq_some.1 hst with ⟨hmem, heq⟩
      rw [← Option.some.inj heq]
      exact event_of_ret hmem.1

/-- A call that waits after a step waited before it, or is new. -/
theorem outstanding_of_step {s t : State} {a : Action} (hst : Rpc.step s a = some t)
    {c x : UInt32} (h : Outstanding t c x) (hx : x ≠ (s.client c).xid) : Outstanding s c x := by
  rcases h with ⟨ca, hca, rfl, hdone⟩
  refine ⟨ca, ?_, rfl, hdone⟩
  -- only one client changes, and it does not take up a caller that waits but a new one
  have hset : ∀ {d : UInt32} {k : Rpcc},
      (∀ ca ∈ k.calls, ca.done = none → ca ∈ (s.client d).calls ∨ ca.xid = (s.client d).xid) →
      ca ∈ ((s.setClient d k).client c).calls → ca ∈ (s.client c).calls := by
    intro d k hk hmem
    by_cases hc : c = d
    · subst hc
      rw [setClient_client_self] at hmem
      exact (hk ca hmem hdone).resolve_right hx
    · rwa [setClient_client_of_ne s k hc] at hmem
  cases step_move hst with
  | @call d proc k hd hcall =>
      refine hset (fun ca' hca' _ => ?_) hca
      rw [(call1_eq hcall).2.2.1] at hca'
      rcases List.mem_cons.1 hca' with rfl | hold
      · exact Or.inr rfl
      · exact Or.inl hold
  | gotPdu => exact hset (fun ca' hca' hd' => Or.inl (waiting_gotPdu hca' hd').1) hca
  | finish hfin => exact hset (fun ca' hca' _ => Or.inl (waiting_finish hfin hca').1) hca
  | cancel => exact hset (fun ca' hca' hd' => absurd hd' (waiting_cancel hca')) hca
  | _ => exact hca

/-- Every call has its request. -/
def Asked (s : State) : Prop :=
  ∀ c, ∀ ca ∈ (s.client c).calls, ∃ h ∈ s.reqs, h.cltNonce = c ∧ h.xid = ca.xid ∧ h.proc = ca.proc

theorem Asked.step {s t : State} {a : Action} (h : Asked s) (hst : Rpc.step s a = some t) :
    Asked t := by
  have hset : ∀ {d : UInt32} {k : Rpcc},
      (∀ ca ∈ k.calls, ∃ ca₀ ∈ (s.client d).calls, ca₀.xid = ca.xid ∧ ca₀.proc = ca.proc) →
      ∀ c, ∀ ca ∈ ((s.setClient d k).client c).calls,
        ∃ h ∈ s.reqs, h.cltNonce = c ∧ h.xid = ca.xid ∧ h.proc = ca.proc := by
    intro d k hk c ca hca
    by_cases hc : c = d
    · subst hc
      rw [setClient_client_self] at hca
      rcases hk ca hca with ⟨ca₀, hca₀, hxid, hproc⟩
      rw [← hxid, ← hproc]
      exact h c ca₀ hca₀
    · rw [setClient_client_of_ne s k hc] at hca
      exact h c ca hca
  cases step_move hst with
  | @call d proc k hd hcall =>
      rcases call1_eq hcall with ⟨-, -, hcalls, hxid, hc, -⟩
      have hproc : hd.proc = proc := by
        unfold Rpcc.call1 at hcall
        split at hcall
        · cases hcall
        · split at hcall
          · cases hcall
          · cases hcall
            rfl
      intro c ca hca
      change ca ∈ ((s.setClient d k).client c).calls at hca
      by_cases hcd : c = d
      · subst hcd
        rw [setClient_client_self, hcalls] at hca
        rcases List.mem_cons.1 hca with rfl | hold
        · exact ⟨hd, List.mem_cons_self, hc, hxid, hproc⟩
        · rcases h c ca hold with ⟨h', hmem, hh'⟩
          exact ⟨h', List.mem_cons_of_mem _ hmem, hh'⟩
      · rw [setClient_client_of_ne s k hcd] at hca
        rcases h c ca hca with ⟨h', hmem, hh'⟩
        exact ⟨h', List.mem_cons_of_mem _ hmem, hh'⟩
  | @gotPdu d r =>
      refine hset fun ca hca => ?_
      rcases List.mem_map.1 hca with ⟨ca₀, hca₀, rfl⟩
      refine ⟨ca₀, hca₀, ?_⟩
      unfold Caller.take
      split <;> exact ⟨rfl, rfl⟩
  | finish hfin => exact hset fun ca hca => ⟨ca, (waiting_finish hfin hca).1, rfl, rfl⟩
  | cancel =>
      refine hset fun ca hca => ?_
      rcases List.mem_map.1 hca with ⟨ca₀, hca₀, rfl⟩
      exact ⟨ca₀, hca₀, rfl, rfl⟩
  | _ => exact h

/-! ## The replies -/

/-- What a handler has returned for call `x` of client `c`. -/
def Logged.Given (l : Logged) (c x : UInt32) (r : Rep) : Prop :=
  r.xid = x ∧ 0 ≤ r.ret ∧
    ∃ h ∈ l.session.reqs, h.cltNonce = c ∧ h.xid = x ∧ ⟨h, r.ret, r.body⟩ ∈ l.returned

/-- An error that `dispatch` answers by itself. -/
inductive Refused (s : State) (c : UInt32) (r : Rep) : Prop
  | oldsrv (hret : r.ret = oldsrvFailure)
      (hreq : ∃ h ∈ s.reqs, h.cltNonce = c ∧ h.xid = r.xid ∧ ¬ Admissible s h)
  | forgotten (hret : r.ret = atmostonceFailure) (hc : c ≠ 0)
      (hfront : frontAbove (s.windowOf c) r.xid = true)
      (hran : Outstanding s c r.xid → (c, r.xid) ∉ s.ran)

structure Truthful (l : Logged) : Prop where
  asked : Asked l.session
  entry : ∀ c, ∀ e ∈ l.session.windowOf c, ∀ b, e.buf = some b → l.Given c e.xid b
  reply : ∀ c r, (c, r) ∈ l.session.reps → l.Given c r.xid r ∨ Refused l.session c r
  counted : ∀ c x, (l.returned.countP fun e => e.req.isOf c x) +
    l.session.running.countP (ReqHeader.isOf c x) = l.session.ran.count (c, x)

theorem truthful_init {l : Logged} (h : l.Init) : Truthful l := by
  rcases h with ⟨⟨nonce, procs, hs⟩, hnil⟩
  constructor <;> simp [hs, hnil, init, State.windowOf, Asked, Rpcc.init]

section Steps

variable {l : Logged} {t : State} {a : Action}

theorem admissible_of_step (hst : Rpc.step l.session a = some t) (h : ReqHeader) :
    Admissible t h ↔ Admissible l.session h := by
  rcases reqs_step hst with ⟨hnonce, hprocs, -⟩
  rw [Admissible, hnonce, hprocs]
  exact Iff.rfl

theorem reqs_subset (hst : Rpc.step l.session a = some t) {h : ReqHeader}
    (hmem : h ∈ l.session.reqs) : h ∈ t.reqs := by
  rcases (reqs_step hst).2.2 with heq | ⟨_, _, heq, _⟩
  · exact heq ▸ hmem
  · exact heq ▸ List.mem_cons_of_mem _ hmem

theorem Logged.Given.later (hst : Rpc.step l.session a = some t) {c x : UInt32} {r : Rep}
    (h : l.Given c x r) (log : List Returned) : Logged.Given ⟨t, log ++ l.returned⟩ c x r := by
  rcases h with ⟨hxid, hpos, hd, hmem, hc, hx, hlog⟩
  exact ⟨hxid, hpos, hd, reqs_subset hst hmem, hc, hx, List.mem_append_right _ hlog⟩

/-- A number below the front is not admitted. -/
theorem frontAbove_of_step (hok : ServerOk l.session) (hst : Rpc.step l.session a = some t)
    {c x : UInt32} (h : frontAbove (l.session.windowOf c) x = true) :
    frontAbove (t.windowOf c) x = true := by
  have hcheck : ∀ hd : ReqHeader, frontAbove
      ((l.session.setWindow hd.cltNonce (checkOf l.session hd).window).windowOf c) x = true := by
    intro hd
    by_cases hc : c = hd.cltNonce
    · subst hc
      rw [setWindow_windowOf_self]
      exact frontAbove_check (hok.sorted _) h _ _
    · rw [setWindow_windowOf_of_ne _ _ hc]
      exact h
  cases event_of_step hst with
  | client _ _ _ hwindow =>
      rw [State.windowOf, hwindow]
      exact h
  | abort | stale | plain => exact h
  | accept | silent | resend | forgotten => exact hcheck _
  | ret _ _ _ _ _ hwindow =>
      rcases hwindow c with heq | ⟨-, heq⟩
      · rw [heq]
        exact h
      · rw [heq]
        exact frontAbove_addReply h _ _

theorem notMem_ran_of_step (hst : Rpc.step l.session a = some t) {c x : UInt32} (hc : c ≠ 0)
    (hfront : frontAbove (l.session.windowOf c) x = true) (h : (c, x) ∉ l.session.ran) :
    (c, x) ∉ t.ran := by
  cases event_of_step hst with
  | client _ _ _ _ _ hran =>
      rw [hran]
      exact h
  | @plain hd _ hc0 =>
      intro hmem
      rcases List.mem_cons.1 hmem with heq | hold
      · exact hc ((Prod.mk.inj heq).1.trans hc0)
      · exact h hold
  | @accept hd _ _ hnew =>
      intro hmem
      rcases List.mem_cons.1 hmem with heq | hold
      · cases heq
        rw [((check_state_eq_new_iff _ _ _).1 hnew).1] at hfront
        cases hfront
      · exact h hold
  | ret _ _ _ _ hran =>
      rw [hran]
      exact h
  | _ => exact h

theorem Refused.later (hK : Kept l.session) (hst : Rpc.step l.session a = some t) {c : UInt32}
    {r : Rep} (hmem : (c, r) ∈ l.session.reps) (h : Refused l.session c r) : Refused t c r := by
  cases h with
  | oldsrv hret hreq =>
      rcases hreq with ⟨hd, hmem, hc, hx, hne⟩
      exact .oldsrv hret ⟨hd, reqs_subset hst hmem, hc, hx,
        fun hadm => hne ((admissible_of_step hst hd).1 hadm)⟩
  | forgotten hret hc hfront hran =>
      refine .forgotten hret hc (frontAbove_of_step hK.server hst hfront) fun hout => ?_
      have hlt := hK.wf.rep c r hmem
      have hold := outstanding_of_step hst hout fun hx => by
        rw [hx] at hlt
        exact UInt32.lt_irrefl _ hlt
      exact notMem_ran_of_step hst hc hfront (hran hold)

theorem returnedBy_ret {h : ReqHeader} {ret : Int} (body : List UInt8) (hret : ¬ ret < 0) :
    returnedBy (.ret h ret body) = some ⟨h, ret, body⟩ :=
  if_neg hret

/-- The handler that returns is the one of the log. -/
theorem given_of_ret (hw : Wf l.session) (hst : Rpc.step l.session a = some t) {h : ReqHeader}
    {ret : Int} {body : List UInt8} (ha : a = .ret h ret body) (hmem : h ∈ l.session.running)
    (hret : ¬ ret < 0) :
    Logged.Given ⟨t, (returnedBy a).toList ++ l.returned⟩ h.cltNonce h.xid ⟨h.xid, ret, body⟩ := by
  refine ⟨rfl, Int.not_lt.1 hret, h, reqs_subset hst (hw.running h hmem), rfl, rfl, ?_⟩
  rw [ha, returnedBy_ret body hret]
  exact List.mem_cons_self

theorem Truthful.entry_step (h : Truthful l) (hw : Wf l.session)
    (hst : Rpc.step l.session a = some t) {c : UInt32} {e : Reply} (he : e ∈ t.windowOf c)
    {b : Rep} (hb : e.buf = some b) :
    Logged.Given ⟨t, (returnedBy a).toList ++ l.returned⟩ c e.xid b := by
  have hold : e ∈ l.session.windowOf c →
      Logged.Given ⟨t, (returnedBy a).toList ++ l.returned⟩ c e.xid b :=
    fun hmem => (h.entry c e hmem b hb).later hst _
  -- the duplicate check only drops entries, and its new one has no reply yet
  have hcheck : ∀ hd : ReqHeader,
      e ∈ (l.session.setWindow hd.cltNonce (checkOf l.session hd).window).windowOf c →
      Logged.Given ⟨t, (returnedBy a).toList ++ l.returned⟩ c e.xid b := by
    intro hd hmem
    by_cases hc : c = hd.cltNonce
    · subst hc
      rw [setWindow_windowOf_self] at hmem
      rcases mem_check_window _ _ _ hmem with rfl | hmem
      · cases hb
      · exact hold hmem
    · rw [setWindow_windowOf_of_ne _ _ hc] at hmem
      exact hold hmem
  cases event_of_step hst with
  | client _ _ _ hwindow =>
      rw [State.windowOf, hwindow] at he
      exact hold he
  | abort | stale | plain => exact hold he
  | accept | silent | resend | forgotten => exact hcheck _ he
  | @ret hd ret body _ hmem hret _ _ _ hwindow =>
      rcases hwindow c with heq | ⟨rfl, heq⟩
      · rw [heq] at he
        exact hold he
      · rw [heq] at he
        rcases mem_addReply he with he | ⟨hx, -, hbuf⟩
        · exact hold he
        · rw [hb] at hbuf
          cases hbuf
          rw [hx]
          exact given_of_ret hw hst rfl hmem hret

theorem Truthful.reply_step (h : Truthful l) (hK : Kept l.session)
    (hst : Rpc.step l.session a = some t) {c : UInt32} {r : Rep} (hr : (c, r) ∈ t.reps) :
    Logged.Given ⟨t, (returnedBy a).toList ++ l.returned⟩ c r.xid r ∨ Refused t c r := by
  have hold : (c, r) ∈ l.session.reps →
      Logged.Given ⟨t, (returnedBy a).toList ++ l.returned⟩ c r.xid r ∨ Refused t c r :=
    fun hmem => (h.reply c r hmem).imp (fun hg => hg.later hst _) (Refused.later hK hst hmem)
  cases event_of_step hst with
  | client _ _ hreps =>
      rw [hreps] at hr
      exact hold hr
  | @stale hd hmem hne =>
      rcases List.mem_cons.1 hr with heq | hr
      · cases heq
        exact Or.inr (.oldsrv rfl ⟨hd, hmem, rfl, rfl, hne⟩)
      · exact hold hr
  | @resend hd b hmem hc hbuf =>
      rcases List.mem_cons.1 hr with heq | hr
      · cases heq
        rcases check_buf _ _ _ hbuf with ⟨e, he, -, hb⟩
        have hgiven := h.entry _ e he r hb
        rw [← hgiven.1] at hgiven
        exact Or.inl (hgiven.later hst _)
      · exact hold hr
  | @forgotten hd hmem hc hfront =>
      rcases List.mem_cons.1 hr with heq | hr
      · cases heq
        refine Or.inr (.forgotten rfl hc (frontAbove_of_step hK.server hst hfront) ?_)
        -- a waiting call that was run has its entry, which is not below the front
        intro hout hran
        have hentry : HasXid _ hd.xid := (hK.remembered.kept _ _ hc hout hran).1
        rw [frontAbove_of_hasXid (hK.server.sorted _) hentry] at hfront
        cases hfront
      · exact hold hr
  | @ret hd ret body _ hmem hret hreps =>
      rw [hreps] at hr
      rcases List.mem_cons.1 hr with heq | hr
      · cases heq
        exact Or.inl (given_of_ret hK.wf hst rfl hmem hret)
      · exact hold hr
  | _ => exact hold hr

theorem count_cons_isOf (c x : UInt32) (h : ReqHeader) (ran : List (UInt32 × UInt32)) :
    ((h.cltNonce, h.xid) :: ran).count (c, x) = ran.count (c, x) + if h.isOf c x then 1 else 0 := by
  simp [List.count_cons, ReqHeader.isOf]

theorem Truthful.counted_step (h : Truthful l) (hst : Rpc.step l.session a = some t)
    (c x : UInt32) :
    (((returnedBy a).toList ++ l.returned).countP fun e => e.req.isOf c x) +
      t.running.countP (ReqHeader.isOf c x) = t.ran.count (c, x) := by
  have hcount := h.counted c x
  cases event_of_step hst with
  | client _ hret _ _ hrunning hran =>
      rw [hret, hrunning, hran]
      exact hcount
  | abort hret =>
      rw [hret]
      exact hcount
  | @plain hd | @accept hd =>
      -- a handler starts: the call runs and is counted once more
      show (l.returned.countP fun e => e.req.isOf c x) +
        (hd :: l.session.running).countP (ReqHeader.isOf c x) =
          ((hd.cltNonce, hd.xid) :: l.session.ran).count (c, x)
      rw [List.countP_cons, count_cons_isOf, ← hcount]
      omega
  | @ret hd ret body _ hmem hret _ hrunning hran =>
      have hperm := (List.perm_cons_erase hmem).countP_eq (ReqHeader.isOf c x)
      rw [List.countP_cons] at hperm
      rw [returnedBy_ret body hret, hrunning, hran, ← hcount, hperm]
      show (⟨hd, ret, body⟩ :: l.returned).countP (fun e => e.req.isOf c x) + _ = _
      rw [List.countP_cons]
      dsimp only
      omega
  | _ => exact hcount

end Steps

theorem truthful_reach {l : Logged} (h : Reach Logged.Init Logged.step Logged.NoWrap l) :
    Truthful l := by
  refine Reach.invariant_with (J := fun l => Kept l.session) (I := Truthful)
    (fun hl => kept_reach (Logged.reach_session hl)) (fun _ => truthful_init) ?_ h
  intro l a l' hK _ hl _ hst
  rcases Option.map_eq_some_iff.1 hst with ⟨t, ht, rfl⟩
  exact ⟨hl.asked.step ht, fun c e he b hb => hl.entry_step hK.wf ht he hb,
    fun c r hr => hl.reply_step hK ht hr, hl.counted_step ht⟩

/-! ## Results -/

/-- The only execution of a call is the one that was logged. -/
theorem filter_returned_of_count {l : Logged} (h : Truthful l) {c x : UInt32}
    (hone : l.session.ran.count (c, x) = 1) {e : Returned} (he : e ∈ l.returned)
    (hof : e.req.isOf c x = true) :
    (l.returned.filter fun e => e.req.isOf c x) = [e] ∧
      ∀ hd ∈ l.session.running, hd.isOf c x = false := by
  have hcount := h.counted c x
  have hpos : 0 < l.returned.countP fun e => e.req.isOf c x :=
    List.countP_pos_iff.2 ⟨e, he, hof⟩
  have hmem : e ∈ l.returned.filter fun e => e.req.isOf c x := List.mem_filter.2 ⟨he, hof⟩
  constructor
  · have hlen : (l.returned.filter fun e => e.req.isOf c x).length = 1 := by
      rw [← List.countP_eq_length_filter]
      omega
    rcases List.length_eq_one_iff.1 hlen with ⟨e', heq⟩
    rw [heq] at hmem ⊢
    rw [List.mem_singleton.1 hmem]
  · intro hd hrun
    by_contra hne
    have hrunning : 0 < l.session.running.countP (ReqHeader.isOf c x) :=
      List.countP_pos_iff.2 ⟨hd, hrun, Bool.of_not_eq_false hne⟩
    omega

/-- A reply for a call that waits.  If it is an answer of the handler, the handler of the procedure
that was called has been run once, is not running now, and has returned just that.  Otherwise it is
one of two errors and the call was not run. -/
theorem answer_tells_execution {l : Logged} (h : Reach Logged.Init Logged.step Logged.NoWrap l)
    {c : UInt32} (hc : c ≠ 0) {ca : Caller} (hca : ca ∈ (l.session.client c).calls)
    (hwait : ca.done = none) {r : Rep} (hr : (c, r) ∈ l.session.reps) (hx : r.xid = ca.xid) :
    (0 ≤ r.ret ∧ l.session.ran.count (c, ca.xid) = 1 ∧
      (∀ hd ∈ l.session.running, hd.isOf c ca.xid = false) ∧
      ∃ hd ∈ l.session.reqs, hd.cltNonce = c ∧ hd.xid = ca.xid ∧ hd.proc = ca.proc ∧
        (l.returned.filter fun e => e.req.isOf c ca.xid) = [⟨hd, r.ret, r.body⟩]) ∨
    ((r.ret = oldsrvFailure ∨ r.ret = atmostonceFailure) ∧
      l.session.ran.count (c, ca.xid) = 0) := by
  have hK := kept_reach (Logged.reach_session h)
  have htrue := truthful_reach h
  have hout : Outstanding l.session c ca.xid := ⟨ca, hca, rfl, hwait⟩
  rcases htrue.reply c r hr with ⟨-, hpos, hd, hmem, hcd, hxd, hlog⟩ | href
  · rw [hx] at hxd
    have hof : hd.isOf c ca.xid = true := decide_eq_true ⟨hcd, hxd⟩
    -- what returned was entered before
    have hran : (c, ca.xid) ∈ l.session.ran := by
      rw [← List.count_pos_iff, ← htrue.counted]
      exact Nat.add_pos_left (List.countP_pos_iff.2 ⟨_, hlog, hof⟩) _
    have hone := (hK.remembered.kept c ca.xid hc hout hran).2
    rcases filter_returned_of_count htrue hone hlog hof with ⟨hfilter, hidle⟩
    -- a call has one header
    rcases htrue.asked c ca hca with ⟨hd', hmem', hcd', hxd', hproc⟩
    have heq := hK.numbered.unique hd hmem hd' hmem' (hcd.trans hcd'.symm) (hxd.trans hxd'.symm)
    exact Or.inl ⟨hpos, hone, hidle, hd, hmem, hcd, hxd, heq ▸ hproc, hfilter⟩
  · refine Or.inr ?_
    cases href with
    | oldsrv hret hreq =>
        refine ⟨Or.inl hret, List.count_eq_zero.2 fun hran => ?_⟩
        rcases hreq with ⟨hd, hmem, hcd, hxd, hne⟩
        rcases hK.numbered.admitted c ca.xid hran with ⟨hd', hmem', hcd', hxd', hadm⟩
        have heq := hK.numbered.unique hd hmem hd' hmem' (hcd.trans hcd'.symm)
          ((hxd.trans hx).trans hxd'.symm)
        exact hne (heq ▸ hadm)
    | forgotten hret _ _ hran =>
        rw [hx] at hran
        exact ⟨Or.inr hret, List.count_eq_zero.2 (hran hout)⟩

/-- Calls 2 and 3 wait; 2 was run, and its reply was sent twice. -/
def repliedTwice : List Action :=
  [.call 7 bind, .dispatch (bindReq 7), .ret (bindReq 7) 0 [0, 0, 0, 9],
    .gotPdu 7 (okReply 1 [0, 0, 0, 9]), .finish 7 1, .call 7 100, .call 7 100,
    .dispatch (request 7 2 1), .dispatch (request 7 2 1), .ret (request 7 2 1) 0 [5],
    .dispatch (request 7 2 1)]

theorem answer_tells_execution_repliedTwice :
    ∃ l : Logged, Reach Logged.Init Logged.step Logged.NoWrap l ∧
      ⟨2, 100, none⟩ ∈ (l.session.client 7).calls ∧ (7, okReply 2 [5]) ∈ l.session.reps ∧
      l.session.ran.count (7, 2) = 1 := by
  have hrun : ∃ l : Logged, Reach Logged.Init Logged.step Logged.NoWrap l ∧
      (⟨2, 100, none⟩ ∈ (l.session.client 7).calls ∧ (7, okReply 2 [5]) ∈ l.session.reps) :=
    Reach.exists_of_runFrom (s := ⟨init 9 [1, 100], []⟩) repliedTwice
      ⟨⟨9, [1, 100], rfl⟩, rfl⟩ (by decide +kernel)
  rcases hrun with ⟨l, hl, hca, hr⟩
  refine ⟨l, hl, hca, hr, ?_⟩
  rcases answer_tells_execution hl (by decide) hca rfl hr rfl with h | ⟨hret, -⟩
  · exact h.2.1
  · rcases hret with hret | hret <;> cases hret

end Rpc
end Yfs

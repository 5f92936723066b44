import Mathlib.Logic.Function.Basic
import Yfs.Lib.Run
import Yfs.Rpc.Window

/-!
# Session — clients and a server that exchange calls over a lossy network

Any number of `rpcc` clients, one per `clt_nonce`, talk to one `rpcs`.  Every request header
ever packed stays in `reqs` and every reply in `reps`: the network may deliver each of them
late, often or never, which covers retransmissions on a new connection and the `dup_req_` that
the lossy test sends again.

A call is split where the code releases its mutex: `call1` up to the first send, `got_pdu`, and
the end of `call1`, which is reached with a reply or by the deadline.  A `dispatch` that finds a
new request enters the handler; the handler returns in a step of its own.

`ran` and `erased` record which handlers were entered and which entries the reply windows have
dropped; no step reads them.
-/

namespace Yfs
namespace Rpc

/-! ## Requests, clients, the server -/

def bind : UInt32 := 1

def atmostonceFailure : Int := -4

def oldsrvFailure : Int := -5

def cancelFailure : Int := -7

structure ReqHeader where
  xid : UInt32
  proc : UInt32
  cltNonce : UInt32
  srvNonce : UInt32
  xidRep : UInt32
  deriving DecidableEq, Repr

/-- A `caller`; `done` holds the reply it has taken. -/
structure Caller where
  xid : UInt32
  proc : UInt32
  done : Option Rep
  deriving DecidableEq, Repr

structure Rpcc where
  srvNonce : UInt32
  bindDone : Bool
  xid : UInt32
  calls : List Caller
  xidRepWindow : List UInt32
  destroyWait : Bool
  deriving DecidableEq, Repr

def Rpcc.init : Rpcc where
  srvNonce := 0
  bindDone := false
  xid := 1
  calls := []
  xidRepWindow := [0]
  destroyWait := false

/-- `call1` up to the first transmission. -/
def Rpcc.call1 (k : Rpcc) (cltNonce proc : UInt32) : Option (Rpcc × ReqHeader) :=
  if (proc ≠ bind ∧ k.bindDone = false) ∨ (proc = bind ∧ k.bindDone = true) then
    none
  else if k.destroyWait then
    none
  else
    some
      ({ k with
          xid := k.xid + 1
          calls :=
            { xid := k.xid
              proc := proc
              done := none } :: k.calls },
        { xid := k.xid
          proc := proc
          cltNonce := cltNonce
          srvNonce := k.srvNonce
          xidRep := k.xidRepWindow.headD 0 })

def Caller.take (r : Rep) (ca : Caller) : Caller :=
  if ca.xid = r.xid ∧ ca.done = none then { ca with done := some r } else ca

def Rpcc.gotPdu (k : Rpcc) (r : Rep) : Rpcc :=
  { k with
    xidRepWindow := updateXidRep k.xidRepWindow r.xid
    calls := k.calls.map (Caller.take r) }

/-- The single `int` that the reply to `bind` carries, in network order. -/
def Rep.int? (r : Rep) : Option UInt32 :=
  match r.body with
  | [b₀, b₁, b₂, b₃] => some (((b₀.toUInt32 * 256 + b₁.toUInt32) * 256 + b₂.toUInt32) * 256 +
      b₃.toUInt32)
  | _ => none

/-- `rpcc::bind` after its call has come back. -/
def Rpcc.bound (k : Rpcc) (ca : Caller) : Rpcc :=
  match ca.done with
  | some r =>
      match r.int? with
      | some n =>
          if ca.proc = bind ∧ r.ret = 0 then
            { k with
              bindDone := true
              srvNonce := n }
          else
            k
      | none => k
  | none => k

/-- The end of `call1`, with or without a reply: the xid counts as replied either way. -/
def Rpcc.finish (k : Rpcc) (xid : UInt32) : Option Rpcc :=
  (k.calls.find? fun ca => decide (ca.xid = xid)).map fun ca =>
    Rpcc.bound
      { k with
        calls := k.calls.filter fun ca => decide (ca.xid ≠ xid)
        xidRepWindow := updateXidRep k.xidRepWindow xid } ca

def Rpcc.cancel (k : Rpcc) : Rpcc :=
  { k with
    calls := k.calls.map fun ca =>
      { ca with
        done := some
          { xid := ca.xid
            ret := cancelFailure
            body := [] } }
    destroyWait := k.destroyWait || !k.calls.isEmpty }

structure State where
  client : UInt32 → Rpcc
  reqs : List ReqHeader
  reps : List (UInt32 × Rep)
  nonce : UInt32
  procs : List UInt32
  window : UInt32 → Option (List Reply)
  running : List ReqHeader
  aborted : Bool
  ran : List (UInt32 × UInt32)
  erased : List (UInt32 × UInt32)

def State.setClient (s : State) (c : UInt32) (k : Rpcc) : State :=
  { s with client := Function.update s.client c k }

def State.reply (s : State) (c : UInt32) (r : Rep) : State :=
  { s with reps := (c, r) :: s.reps }

def State.enter (s : State) (h : ReqHeader) : State :=
  { s with
    running := h :: s.running
    ran := (h.cltNonce, h.xid) :: s.ran }

/-- `reply_window_[clt_nonce]`, which creates the empty window of a client not seen before. -/
def State.windowOf (s : State) (c : UInt32) : List Reply :=
  (s.window c).getD []

def State.setWindow (s : State) (c : UInt32) (w : List Reply) : State :=
  { s with
    window := Function.update s.window c (some w)
    erased := ((s.windowOf c).filter fun e => decide (¬ HasXid w e.xid)).map
      (fun e => (c, e.xid)) ++ s.erased }

inductive Action
  | call (c proc : UInt32)
  | gotPdu (c : UInt32) (r : Rep)
  | finish (c xid : UInt32)
  | cancel (c : UInt32)
  | dispatch (h : ReqHeader)
  | ret (h : ReqHeader) (ret : Int) (body : List UInt8)
  deriving DecidableEq, Repr

/-! ## Steps -/

def errorReply (h : ReqHeader) (ret : Int) : Rep :=
  { xid := h.xid
    ret := ret
    body := [] }

/-- The `switch` of `dispatch` after the duplicate check. -/
def answer (s : State) (h : ReqHeader) (c : Check) : State :=
  match c.state with
  | .new => s.enter h
  | .inprogress => s
  | .done =>
      match c.buf with
      | some b => s.reply h.cltNonce b
      | none => s
  | .forgotten => s.reply h.cltNonce (errorReply h atmostonceFailure)

def checkOf (s : State) (h : ReqHeader) : Check :=
  checkduplicateAndUpdate (some (s.windowOf h.cltNonce)) h.xid h.xidRep

def dispatch (s : State) (h : ReqHeader) : State :=
  if h.srvNonce ≠ 0 ∧ h.srvNonce ≠ s.nonce then
    s.reply h.cltNonce (errorReply h oldsrvFailure)
  else if h.proc ∉ s.procs then
    -- `VERIFY(0)`
    { s with aborted := true }
  else if h.cltNonce = 0 then
    s.enter h
  else
    answer (s.setWindow h.cltNonce (checkOf s h).window) h (checkOf s h)

/-- The rest of `dispatch` when the handler of `h` has returned. -/
def handlerRet (s : State) (h : ReqHeader) (ret : Int) (body : List UInt8) : State :=
  if ret < 0 then
    -- `VERIFY(rh.ret >= 0)`
    { s with aborted := true }
  else
    let b : Rep :=
      { xid := h.xid
        ret := ret
        body := body }
    let s₁ :=
      if h.cltNonce > 0 then
        s.setWindow h.cltNonce (addReply h.xid b (s.windowOf h.cltNonce))
      else
        s
    { s₁.reply h.cltNonce b with running := s.running.erase h }

def step (s : State) : Action → Option State
  | .call c proc =>
      ((s.client c).call1 c proc).map fun kh =>
        { s.setClient c kh.1 with reqs := kh.2 :: s.reqs }
  | .gotPdu c r =>
      if (c, r) ∈ s.reps then some (s.setClient c ((s.client c).gotPdu r)) else none
  | .finish c xid => ((s.client c).finish xid).map fun k => s.setClient c k
  | .cancel c => some (s.setClient c (s.client c).cancel)
  | .dispatch h =>
      if h ∈ s.reqs ∧ s.aborted = false then some (dispatch s h) else none
  | .ret h ret body =>
      if h ∈ s.running ∧ s.aborted = false then some (handlerRet s h ret body) else none

def init (nonce : UInt32) (procs : List UInt32) : State where
  client _ := Rpcc.init
  reqs := []
  reps := []
  nonce := nonce
  procs := procs
  window _ := none
  running := []
  aborted := false
  ran := []
  erased := []

def Init (s : State) : Prop :=
  ∃ nonce procs, s = init nonce procs

/-! ## What a step can do -/

inductive Move (s : State) : Action → State → Prop where
  | call {c proc : UInt32} {k : Rpcc} {h : ReqHeader} :
      (s.client c).call1 c proc = some (k, h) →
        Move s (.call c proc) { s.setClient c k with reqs := h :: s.reqs }
  | gotPdu {c : UInt32} {r : Rep} :
      (c, r) ∈ s.reps → Move s (.gotPdu c r) (s.setClient c ((s.client c).gotPdu r))
  | finish {c xid : UInt32} {k : Rpcc} :
      (s.client c).finish xid = some k → Move s (.finish c xid) (s.setClient c k)
  | cancel {c : UInt32} : Move s (.cancel c) (s.setClient c (s.client c).cancel)
  | stale {h : ReqHeader} :
      h ∈ s.reqs →
        Move s (.dispatch h) (s.reply h.cltNonce (errorReply h oldsrvFailure))
  | abort {a : Action} : Move s a { s with aborted := true }
  | plain {h : ReqHeader} :
      h ∈ s.reqs → h.cltNonce = 0 → Move s (.dispatch h) (s.enter h)
  | accept {h : ReqHeader} :
      h ∈ s.reqs → h.cltNonce ≠ 0 → (checkOf s h).state = .new →
        Move s (.dispatch h) ((s.setWindow h.cltNonce (checkOf s h).window).enter h)
  | silent {h : ReqHeader} :
      h ∈ s.reqs → h.cltNonce ≠ 0 → (checkOf s h).state ≠ .new →
        Move s (.dispatch h) (s.setWindow h.cltNonce (checkOf s h).window)
  | resend {h : ReqHeader} {b : Rep} :
      h ∈ s.reqs → h.cltNonce ≠ 0 → (checkOf s h).state = .done → (checkOf s h).buf = some b →
        Move s (.dispatch h) ((s.setWindow h.cltNonce (checkOf s h).window).reply h.cltNonce b)
  | forgotten {h : ReqHeader} :
      h ∈ s.reqs → h.cltNonce ≠ 0 → (checkOf s h).state = .forgotten →
        Move s (.dispatch h) ((s.setWindow h.cltNonce (checkOf s h).window).reply h.cltNonce
          (errorReply h atmostonceFailure))
  | plainRet {h : ReqHeader} {ret : Int} {body : List UInt8} :
      h ∈ s.running → h.cltNonce = 0 →
        Move s (.ret h ret body)
          { s.reply h.cltNonce
              { xid := h.xid
                ret := ret
                body := body } with
            running := s.running.erase h }
  | ret {h : ReqHeader} {ret : Int} {body : List UInt8} {b : Rep} :
      h ∈ s.running → h.cltNonce ≠ 0 → b.xid = h.xid →
        Move s (.ret h ret body)
          { (s.setWindow h.cltNonce (addReply h.xid b (s.windowOf h.cltNonce))).reply h.cltNonce b
            with running := s.running.erase h }

theorem answer_move {s : State} {h : ReqHeader} (hmem : h ∈ s.reqs) (hc : h.cltNonce ≠ 0) :
    Move s (.dispatch h)
      (answer (s.setWindow h.cltNonce (checkOf s h).window) h (checkOf s h)) := by
  unfold answer
  cases hst : (checkOf s h).state with
  | new => exact .accept hmem hc hst
  | inprogress => exact .silent hmem hc (by simp [hst])
  | done =>
      cases hb : (checkOf s h).buf with
      | none => exact .silent hmem hc (by simp [hst])
      | some b => exact .resend hmem hc hst hb
  | forgotten => exact .forgotten hmem hc hst

theorem dispatch_move {s : State} {h : ReqHeader} (hmem : h ∈ s.reqs) :
    Move s (.dispatch h) (dispatch s h) := by
  unfold dispatch
  split
  · exact .stale hmem
  · split
    · exact .abort
    · split
      next hc => exact .plain hmem hc
      next hc => exact answer_move hmem hc

theorem handlerRet_move {s : State} {h : ReqHeader} {ret : Int} {body : List UInt8}
    (hmem : h ∈ s.running) : Move s (.ret h ret body) (handlerRet s h ret body) := by
  unfold handlerRet
  split
  · exact .abort
  · by_cases hc : h.cltNonce = 0
    · have hpos : ¬ h.cltNonce > 0 := by simp [hc]
      simpa only [hpos, if_false] using Move.plainRet hmem hc
    · have hpos : h.cltNonce > 0 := UInt32.pos_iff_ne_zero.2 hc
      simpa only [hpos, if_true] using Move.ret hmem hc rfl

theorem step_move {s t : State} {a : Action} (h : step s a = some t) : Move s a t := by
  cases a with
  | call c proc =>
      rcases Option.map_eq_some_iff.1 h with ⟨⟨k, hd⟩, hcall, rfl⟩
      exact .call hcall
  | gotPdu c r =>
      rcases Option.ite_none_right_eq_some.1 h with ⟨hmem, ⟨⟩⟩
      exact .gotPdu hmem
  | finish c xid =>
      rcases Option.map_eq_some_iff.1 h with ⟨k, hfin, rfl⟩
      exact .finish hfin
  | cancel c =>
      cases h
      exact .cancel
  | dispatch hd =>
      rcases Option.ite_none_right_eq_some.1 h with ⟨hmem, hst⟩
      rw [← Option.some.inj hst]
      exact dispatch_move hmem.1
  | ret hd ret body =>
      rcases Option.ite_none_right_eq_some.1 h with ⟨hmem, hst⟩
      rw [← Option.some.inj hst]
      exact handlerRet_move hmem.1

/-! ## Field lemmas -/

@[simp] theorem setClient_client_self (s : State) (c : UInt32) (k : Rpcc) :
    (s.setClient c k).client c = k := by
  simp [State.setClient]

@[simp] theorem setClient_client_of_ne (s : State) {c d : UInt32} (k : Rpcc) (h : d ≠ c) :
    (s.setClient c k).client d = s.client d := by
  simp [State.setClient, h]

@[simp] theorem setWindow_windowOf_self (s : State) (c : UInt32) (w : List Reply) :
    (s.setWindow c w).windowOf c = w := by
  simp [State.setWindow, State.windowOf]

@[simp] theorem setWindow_windowOf_of_ne (s : State) {c d : UInt32} (w : List Reply)
    (h : d ≠ c) : (s.setWindow c w).windowOf d = s.windowOf d := by
  simp [State.setWindow, State.windowOf, h]

/-- An xid that leaves a window is recorded as erased. -/
theorem hasXid_or_erased (s : State) (c : UInt32) (w : List Reply) {d x : UInt32}
    (h : HasXid (s.windowOf d) x ∨ (d, x) ∈ s.erased) :
    HasXid ((s.setWindow c w).windowOf d) x ∨ (d, x) ∈ (s.setWindow c w).erased := by
  rcases h with ⟨e, he, rfl⟩ | h
  · by_cases hd : d = c
    · subst hd
      by_cases hw : HasXid w e.xid
      · exact Or.inl (by simpa using hw)
      · refine Or.inr (List.mem_append_left _ (List.mem_map.2 ⟨e, ?_, rfl⟩))
        simp [he, hw]
    · exact Or.inl ⟨e, by simpa [hd] using he, rfl⟩
  · exact Or.inr (List.mem_append_right _ h)

end Rpc
end Yfs

import Yfs.Rsm.Replica

/-!
# Refused — what a refused `client_invoke` leaves behind

`client_invoke` sets its status to `BUSY` or `NOTPRIMARY` if the node is in a view change or not the
primary, and goes on.  The loop over the slaves overwrites the status, and with no slave to call the
request is executed and the refusal returned.

Here the function is taken as a whole, with what comes of each slave given; `reach_clientInvoke`
replays it in the steps of `Replica`.  `refusal_iff` says when a refusal is what it should be.
-/

namespace Yfs
namespace Rsm

open Lib

variable {N R : Type}

/-- What comes of one slave in the loop of `client_invoke`. -/
inductive SlaveResult
  /-- `safebind()` returned `NULL`. -/
  | unbound
  /-- The call did not get an answer. -/
  | failed
  | answered (ret : Status)
  deriving DecidableEq, Repr

/-- How the loop ends: at its end, or with a `return` in it.  `sent` are the slaves that an
`invoke` was sent to. -/
structure Loop (N : Type) where
  finished : Bool
  ret : Status
  sent : List N
  deriving DecidableEq

/-- The message to `m` is sent, and the rest of the loop is `l`. -/
def Loop.after (m : N) (l : Loop N) : Loop N :=
  { l with sent := m :: l.sent }

/-- The loop over the slaves; `result i` is what comes of the one at position `i`. -/
def callSlaves (ret : Status) : List N → (ℕ → SlaveResult) → Loop N
  | [], _ =>
      { finished := true
        ret := ret
        sent := [] }
  | m :: ms, result =>
      match result 0 with
      | .unbound =>
          { finished := false
            ret := .busy
            sent := [] }
      | .answered .ok => (callSlaves .ok ms fun i => result (i + 1)).after m
      | _ =>
          { finished := false
            ret := .busy
            sent := [m] }

/-- The outcome of a `client_invoke`. -/
structure Invocation (N R : Type) where
  ret : Status
  sent : List N
  executed : Bool
  replica : Replica N R
  deriving DecidableEq

section

variable [DecidableEq N]

def clientInvoke (V : Views N) (n : N) (r : Replica N R) (q : R) (result : ℕ → SlaveResult) :
    Invocation N R :=
  let loop := callSlaves (clientRet n r) (slaves V n r.myvs.vid) result
  { ret := loop.ret
    sent := loop.sent
    executed := loop.finished
    replica := if loop.finished then r.execute q else r }

/-- A refused request changes nothing, and a node that may not serve it refuses it without asking
the others. -/
def RefusesCleanly (V : Views N) (n : N) (r : Replica N R) (q : R) (result : ℕ → SlaveResult) :
    Prop :=
  ((clientInvoke V n r q result).ret ≠ .ok →
    (clientInvoke V n r q result).executed = false ∧
      (clientInvoke V n r q result).replica.myvs = r.myvs ∧
      (clientInvoke V n r q result).replica.lastMyvs = r.lastMyvs ∧
      (clientInvoke V n r q result).replica.state = r.state) ∧
  (r.inviewchange = true ∨ r.primary ≠ n →
    ((clientInvoke V n r q result).ret = .busy ∨ (clientInvoke V n r q result).ret = .notprimary) ∧
      (clientInvoke V n r q result).sent = [])

end

/-! ## The loop -/

/-- A loop that comes to its end has called somebody, or the status is that from before. -/
theorem callSlaves_finished {ret : Status} (ms : List N) (result : ℕ → SlaveResult)
    (h : (callSlaves ret ms result).finished = true) :
    (callSlaves ret ms result).ret = if ms = [] then ret else .ok := by
  induction ms generalizing ret result with
  | nil => rfl
  | cons m ms ih =>
      rw [if_neg (List.cons_ne_nil m ms)]
      unfold callSlaves at h ⊢
      split at h
      · cases h
      · have hrest := ih _ h
        rw [Loop.after, hrest]
        split <;> rfl
      · cases h

/-- Nothing is sent only if there is nobody to call or the first slave cannot be bound. -/
theorem callSlaves_sent_eq_nil {ret : Status} (ms : List N) (result : ℕ → SlaveResult) :
    (callSlaves ret ms result).sent = [] ↔ ms = [] ∨ result 0 = .unbound := by
  cases ms with
  | nil => simp [callSlaves]
  | cons m ms =>
      unfold callSlaves
      split
      next h => simp [h]
      next h => simp [h, Loop.after]
      next h _ => simpa using h

variable [DecidableEq N]

theorem clientRet_eq_ok {n : N} {r : Replica N R} :
    clientRet n r = .ok ↔ amiprimary n r = true := by
  by_cases h : amiprimary n r = true
  · have hopen : r.inviewchange = false := (amiprimary_iff.1 h).2
    simp [clientRet, h, hopen]
  · simp [clientRet, h]

/-! ## When a refusal is clean -/

theorem not_amiprimary {n : N} {r : Replica N R} :
    (r.inviewchange = true ∨ r.primary ≠ n) ↔ amiprimary n r = false := by
  rw [← Bool.not_eq_true, amiprimary_iff, not_and_or, or_comm]
  simp

/-- The primary of an open view executes a request only if it returns `OK`. -/
theorem refusesCleanly_of_amiprimary {V : Views N} {n : N} {r : Replica N R} {q : R}
    {result : ℕ → SlaveResult} (h : amiprimary n r = true) : RefusesCleanly V n r q result := by
  refine ⟨fun hret => ?_, fun hnot => ?_⟩
  · cases hfin : (callSlaves (clientRet n r) (slaves V n r.myvs.vid) result).finished with
    | true =>
        -- the loop has come to its end, so the status is `OK`
        have hend := callSlaves_finished _ _ hfin
        have hok : clientRet n r = .ok := clientRet_eq_ok.2 h
        refine absurd (hend.trans ?_) hret
        split
        · exact hok
        · rfl
    | false => simp [clientInvoke, hfin]
  · rw [not_amiprimary, h] at hnot
    cases hnot

/-- A call that cannot bind its first slave returns `BUSY` and has done nothing. -/
theorem refusesCleanly_of_unbound {V : Views N} {n : N} {r : Replica N R} {q : R}
    {result : ℕ → SlaveResult} (hne : slaves V n r.myvs.vid ≠ []) (h : result 0 = .unbound) :
    RefusesCleanly V n r q result := by
  have hloop : callSlaves (clientRet n r) (slaves V n r.myvs.vid) result =
      { finished := false
        ret := .busy
        sent := [] } := by
    cases hms : slaves V n r.myvs.vid with
    | nil => exact absurd hms hne
    | cons m ms => simp [callSlaves, h]
  simp [RefusesCleanly, clientInvoke, hloop]

/-- For every node state, request and result of the calls to the slaves: the refusal is clean
exactly if the node is the primary of an open view or its first slave cannot be bound. -/
theorem refusal_iff (V : Views N) (n : N) (r : Replica N R) (q : R) (result : ℕ → SlaveResult) :
    RefusesCleanly V n r q result ↔
      (r.primary = n ∧ r.inviewchange = false) ∨
        (slaves V n r.myvs.vid ≠ [] ∧ result 0 = .unbound) := by
  rw [← amiprimary_iff]
  constructor
  · intro h
    by_contra hcond
    rw [not_or, Bool.not_eq_true, not_and] at hcond
    rcases h.2 (not_amiprimary.2 hcond.1) with ⟨hret, hsent⟩
    -- nothing was sent, so there is nobody to call, and the request is executed all the same
    have hnil : slaves V n r.myvs.vid = [] := by
      by_contra hne
      exact hcond.2 hne (((callSlaves_sent_eq_nil _ _).1 hsent).resolve_left hne)
    have hexec : (clientInvoke V n r q result).executed = true := by
      simp [clientInvoke, hnil, callSlaves]
    have hrefused : (clientInvoke V n r q result).ret ≠ .ok := by
      rcases hret with hret | hret <;> simp [hret]
    rw [(h.1 hrefused).1] at hexec
    cases hexec
  · rintro (h | ⟨hne, h⟩)
    · exact refusesCleanly_of_amiprimary h
    · exact refusesCleanly_of_unbound hne h

/-- Node 2 has joined node 1 and is a backup of the open view 2. -/
def backupOpen : List (Action ℕ ℕ) :=
  [.top 1, .barrier 1, .fill 1, .syncEnd 1, .commitChange 1 2, .wake 1, .top 1, .barrier 1, .fill 1,
    .top 2, .joinOk 2 2, .top 2, .transferSend 2, .transferreq ⟨0, 2, 1, ⟨0, 0⟩, 2⟩,
    .transferOk 2 ⟨⟨0, 2, 1, ⟨0, 0⟩, 2⟩, ⟨0, 0⟩, none⟩, .transferdone ⟨1, 2, 1, 2⟩, .doneOk 2,
    .exitSync 2]

/-- A node that boots executes a request during the view change and answers `NOTPRIMARY`; a
backup passes a request on to the primary, and if that executes it, so does the backup, and
answers `OK`. -/
theorem refused_but_executed :
    (∃ s : State ℕ ℕ, Reach (Init growing) (step growing) anyStep s ∧
      (s.rep 1).inviewchange = true ∧
      (clientInvoke growing 1 (s.rep 1) 5 fun _ => .failed).ret = .notprimary ∧
      (clientInvoke growing 1 (s.rep 1) 5 fun _ => .failed).executed = true ∧
      (s.rep 1).state = [] ∧
      (clientInvoke growing 1 (s.rep 1) 5 fun _ => .failed).replica.state = [5]) ∧
    ∃ s : State ℕ ℕ, Reach (Init growing) (step growing) anyStep s ∧
      (s.rep 2).primary = 1 ∧ (s.rep 2).inviewchange = false ∧
      (clientInvoke growing 2 (s.rep 2) 5 fun _ => .answered .ok).ret = .ok ∧
      (clientInvoke growing 2 (s.rep 2) 5 fun _ => .answered .ok).sent = [1] := by
  constructor
  · exact Reach.exists_of_runFrom [] init_boot (by decide +kernel)
  · exact Reach.exists_of_runFrom backupOpen init_boot (by decide +kernel)

/-! ## The same in steps -/

/-- The state after the message to `m` is sent. -/
def afterSend (s : State N R) (n m : N) (c : ClientCall N R) : State N R :=
  (s.setRep n ((s.rep n).setInvoking (.client (c.send (invokeMsg s n m c.req))))).sendInvoke
    (invokeMsg s n m c.req)

section Steps

variable (V : Views N) {s : State N R} {n m : N} {c : ClientCall N R} {ms : List N}

theorem afterSend_rep :
    (afterSend s n m c).rep n =
      (s.rep n).setInvoking (.client (c.send (invokeMsg s n m c.req))) := by
  simp [afterSend]

variable [DecidableEq R]

theorem reach_send (hc : (s.rep n).invoking = .client c) (hsent : c.sent = none)
    (htodo : c.todo = m :: ms) :
    Reach (fun x => x = s) (step V) anyStep (afterSend s n m c) := by
  refine .next (a := .clientSend n) (.start rfl) trivial ?_
  simp only [step, clientSend, hc, hsent, htodo]
  rfl

theorem reach_fail (hc : (s.rep n).invoking = .client c) (htodo : c.todo ≠ []) :
    Reach (fun x => x = s) (step V) anyStep (s.setRep n ((s.rep n).setInvoking .free)) := by
  refine .next (a := .clientFail n) (.start rfl) trivial ?_
  simp only [step, clientFail, hc]
  exact if_pos htodo

/-- The slave `m` is sent the message and answers `OK`. -/
theorem reach_slave (hc : (s.rep n).invoking = .client c) (hsent : c.sent = none)
    (htodo : c.todo = m :: ms) (hrep : (invokeMsg s n m c.req, .ok) ∈ s.invokeReps) :
    ∃ t, Reach (fun x => x = s) (step V) anyStep t ∧
      t.rep n = (s.rep n).setInvoking
        (.client
          { req := c.req
            todo := ms
            ret := .ok
            sent := none }) ∧
      t.nextId = s.nextId + 1 ∧ t.invokeReps = s.invokeReps ∧
      t.invokes = invokeMsg s n m c.req :: s.invokes := by
  have hok : step V (afterSend s n m c) (.clientOk n) =
      some ((afterSend s n m c).setRep n (((afterSend s n m c).rep n).setInvoking
        (.client (c.send (invokeMsg s n m c.req)).next))) := by
    simp only [step, clientOk, afterSend_rep, Replica.setInvoking_invoking, ClientCall.send_sent]
    exact if_pos hrep
  refine ⟨_, .next (reach_send V hc hsent htodo) trivial hok, ?_, rfl, rfl, rfl⟩
  simp [afterSend_rep, ClientCall.next, ClientCall.send, htodo, Replica.setInvoking]

end Steps

variable [DecidableEq R]

/-- The steps that go through the loop give the result of the loop, if the answers that it counts on
are there. -/
theorem reach_callSlaves (V : Views N) {n : N} (todo : List N) :
    ∀ (s : State N R) (c : ClientCall N R) (result : ℕ → SlaveResult),
      (s.rep n).invoking = .client c → c.sent = none → c.todo = todo →
      (∀ i m, todo[i]? = some m → result i = .answered .ok →
        (⟨s.nextId + i, n, m, (s.rep n).myvs, c.req⟩, .ok) ∈ s.invokeReps) →
      ∃ t, Reach (fun x => x = s) (step V) anyStep t ∧
        t.rep n = (if (callSlaves c.ret todo result).finished then (s.rep n).execute c.req
          else (s.rep n).setInvoking .free) ∧
        t.invokes.map InvokeMsg.dst =
          (callSlaves c.ret todo result).sent.reverse ++ s.invokes.map InvokeMsg.dst := by
  induction todo with
  | nil =>
      intro s c result hc _ htodo _
      have hfinish : step V s (.clientFinish n) =
          some ((s.exec n c.req).ack c.ret (s.rep n).myvs.vid c.req) := by
        simp only [step, clientFinish, hc]
        exact if_pos htodo
      refine ⟨_, .next (.start rfl) trivial hfinish, ?_, rfl⟩
      simp [callSlaves]
  | cons m ms ih =>
      intro s c result hc hsent htodo hreps
      have hne : c.todo ≠ [] := by simp [htodo]
      unfold callSlaves
      split
      -- the slave could not be bound
      next => exact ⟨_, reach_fail V hc hne, by simp, by simp⟩
      next hres =>
        rcases reach_slave V hc hsent htodo (hreps 0 m rfl hres) with
          ⟨t, ht, hrep, hid, hinvokeReps, hinvokes⟩
        have hmyvs : (t.rep n).myvs = (s.rep n).myvs := by rw [hrep]; rfl
        have hrest : ∀ i m', ms[i]? = some m' → result (i + 1) = .answered .ok →
            (⟨t.nextId + i, n, m', (t.rep n).myvs, c.req⟩, .ok) ∈ t.invokeReps := by
          intro i m' hm' hres'
          have hmem := hreps (i + 1) m' hm' hres'
          rw [hid, hmyvs, hinvokeReps, Nat.add_assoc, Nat.add_comm 1 i]
          exact hmem
        rcases ih t ⟨c.req, ms, .ok, none⟩ (fun i => result (i + 1)) (by rw [hrep]; rfl) rfl rfl
          hrest with ⟨t', ht', hrep', hinvokes'⟩
        refine ⟨t', ht.trans ht', ?_, ?_⟩
        · rw [hrep', hrep]
          rfl
        · rw [hinvokes', hinvokes, Loop.after]
          simp [invokeMsg]
      next =>
        -- the message was sent, and its answer is no `OK`
        have hfail := reach_fail V (s := afterSend s n m c) (n := n)
          (c := c.send (invokeMsg s n m c.req)) (by rw [afterSend_rep]; rfl) hne
        refine ⟨_, (reach_send V hc hsent htodo).trans hfail, ?_, rfl⟩
        simp [afterSend_rep, Replica.setInvoking]

/-- Whatever comes of the slaves, the steps of a call end with the node as `clientInvoke` leaves
it and with the same messages sent. -/
theorem reach_clientInvoke (V : Views N) {s : State N R} {n : N} (q : R)
    (result : ℕ → SlaveResult) (hfree : (s.rep n).invoking = .free)
    (hpc : (s.rep n).pc.locked = false)
    (hreps : ∀ i m, (slaves V n (s.rep n).myvs.vid)[i]? = some m → result i = .answered .ok →
      (⟨s.nextId + i, n, m, (s.rep n).myvs, q⟩, .ok) ∈ s.invokeReps) :
    ∃ t, Reach (fun x => x = s) (step V) anyStep t ∧
      t.rep n = (clientInvoke V n (s.rep n) q result).replica ∧
      t.invokes.map InvokeMsg.dst =
        (clientInvoke V n (s.rep n) q result).sent.reverse ++ s.invokes.map InvokeMsg.dst := by
  let c : ClientCall N R := ⟨q, slaves V n (s.rep n).myvs.vid, clientRet n (s.rep n), none⟩
  let s₁ := s.setRep n ((s.rep n).setInvoking (.client c))
  have hstart : step V s (.clientStart n q) = some s₁ := if_pos ⟨hfree, hpc⟩
  have hrep₁ : s₁.rep n = (s.rep n).setInvoking (.client c) := by simp [s₁]
  rcases reach_callSlaves V c.todo s₁ c result (by rw [hrep₁]; rfl) rfl rfl
    (by rw [hrep₁]; exact hreps) with ⟨t, ht, hrep, hinvokes⟩
  refine ⟨t, Reach.trans (.next (.start rfl) trivial hstart) ht, ?_, hinvokes⟩
  have hsame : (s.rep n).setInvoking .free = s.rep n := by
    rw [← hfree]
    rfl
  have hreplica : (clientInvoke V n (s.rep n) q result).replica =
      if (callSlaves c.ret c.todo result).finished then (s.rep n).execute q else s.rep n := rfl
  rw [hrep, hrep₁, hreplica]
  split
  · rfl
  · exact hsame

end Rsm
end Yfs

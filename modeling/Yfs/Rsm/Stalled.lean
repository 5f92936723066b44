import Yfs.Rsm.Transfer

/-!
# Stalled — a backup that asks too late

A backup in `sync_with_primary` asks for the state and then reports with `transferdonereq`.  If the
answer to the report is lost it asks again, but the primary has taken it off its list: it may have
opened the view in the meantime, and then `insync` is off and every `transferreq` is answered with
`BUSY`.  The backup does not open the view, and answers `BUSY` to every `invoke` of the primary.

* `Asking` — the backup has still to get an answer with the state;
* `lost_answer_stalls_view` — with the primary open this goes on until one of the two commits a
  later view or is restarted, and no request of the view is acknowledged.
-/

namespace Yfs
namespace Rsm

open Lib

variable {N R : Type}

/-- No node of `ns` commits a view later than `v` or is restarted. -/
def Remain (v : ℕ) (ns : List N) : Action N R → Prop
  | .commitChange n vid => n ∈ ns → vid ≤ v
  | .joinOk n vid => n ∈ ns → vid ≤ v
  | .restart n _ => n ∉ ns
  | _ => True

/-- At the head of the loop of `sync_with_primary`, or waiting for an answer that nobody gave. -/
def Asking (s : State N R) (n : N) : Prop :=
  match (s.rep n).pc with
  | .transfer _ => True
  | .transferWait m => ∀ rep ∈ s.transferReps, rep.req ≠ m
  | _ => False

/-! ## The numbers of the messages -/

structure Fresh (s : State N R) : Prop where
  transfers : ∀ m ∈ s.transfers, m.id < s.nextId
  reps : ∀ rep ∈ s.transferReps, rep.req.id < s.nextId

section Numbers

variable {V : Views N} {s t : State N R} {a : Action N R}

theorem Fresh.grow (h : Fresh s) (htransfers : t.transfers = s.transfers)
    (hreps : t.transferReps = s.transferReps) (hnext : s.nextId ≤ t.nextId) : Fresh t where
  transfers m hm := (h.transfers m (htransfers ▸ hm)).trans_le hnext
  reps rep hrep := (h.reps rep (hreps ▸ hrep)).trans_le hnext

variable [DecidableEq N] [DecidableEq R]

theorem Fresh.step (h : Fresh s) (hst : step V s a = some t) : Fresh t := by
  cases step_move hst with
  | clientSend => exact h.grow rfl rfl (Nat.le_succ _)
  | @transferSend n m =>
      refine ⟨fun x hx => ?_, fun rep hrep => Nat.lt_succ_of_lt (h.reps rep hrep)⟩
      rcases List.mem_cons.1 hx with rfl | hx
      · exact Nat.lt_succ_self _
      · exact Nat.lt_succ_of_lt (h.transfers x hx)
  | @transferreq m =>
      rcases Option.ite_none_right_eq_some.1 hst with ⟨⟨hm, _⟩, _⟩
      refine ⟨h.transfers, fun rep hrep => ?_⟩
      rcases List.mem_cons.1 hrep with rfl | hrep
      · exact h.transfers m hm
      · exact h.reps rep hrep
  | transferOk => exact h.grow rfl rfl (Nat.le_succ _)
  | _ => exact h.grow rfl rfl (Nat.le_refl _)

theorem fresh_of_reach {ok : State N R → Action N R → Prop}
    (h : Reach (Init V) (Rsm.step V) ok s) : Fresh s := by
  refine Reach.invariant (I := Fresh) ?_ (fun _ _ _ hs _ hst => hs.step hst) h
  rintro s ⟨rep, rfl, _⟩
  exact ⟨by simp [State.start], by simp [State.start]⟩

end Numbers

/-! ## The primary -/

/-- The primary has opened the view, and its recovery thread sleeps. -/
structure AtRest (v : ℕ) (r : Replica N R) : Prop where
  commit : r.vidCommit = v
  insync : r.vidInsync = v
  off : r.insync = false
  pc : r.pc = .asleep
  opened : r.inviewchange = false

section Primary

variable {V : Views N} {s t : State N R} {a : Action N R} {v : ℕ} {p : N}

/-- A node that is not asleep is another one. -/
theorem AtRest.ne {n : N} (h : AtRest v (s.rep p)) {pc : Pc N} (hpc : (s.rep n).pc = pc)
    (hne : pc ≠ .asleep) : p ≠ n := by
  rintro rfl
  exact hne (hpc.symm.trans h.pc)

variable [DecidableEq N]

theorem NodeOk.atRest {r : Replica N R} {w : Row N R} (h : NodeOk V p r w)
    (hopen : r.inviewchange = false) (hv : r.vidCommit = v) : AtRest v r where
  commit := hv
  insync := (h.vidInsync_eq hopen).trans hv
  off := (h.at (h.asleep hopen)).1
  pc := h.asleep hopen
  opened := hopen

/-- The recovery thread of `n` does not move. -/
theorem AtRest.request {rep : N → Replica N R} {n : N} {r : Replica N R} (h : AtRest v (rep p))
    (hcommit : r.vidCommit = (rep n).vidCommit) (hinsync : r.vidInsync = (rep n).vidInsync)
    (hoff : r.insync = (rep n).insync) (hpc : r.pc = (rep n).pc)
    (hopen : r.inviewchange = (rep n).inviewchange) : AtRest v (Function.update rep n r p) := by
  by_cases hn : p = n
  · subst hn
    rw [Function.update_self]
    exact ⟨hcommit.trans h.commit, hinsync.trans h.insync, hoff.trans h.off, hpc.trans h.pc,
      hopen.trans h.opened⟩
  · rw [Function.update_of_ne hn]
    exact h

theorem AtRest.elsewhere {rep : N → Replica N R} {n : N} {r : Replica N R} (h : AtRest v (rep p))
    (hn : p ≠ n) : AtRest v (Function.update rep n r p) := by
  rw [Function.update_of_ne hn]
  exact h

theorem AtRest.move {ns : List N} (h : AtRest v (s.rep p)) (hp : p ∈ ns) (hord : Orderly s a)
    (hstay : Remain v ns a) (hmove : Move V s a t) : AtRest v (t.rep p) := by
  cases hmove with
  | clientStart | clientSend | clientOk | clientFail | clientFinish =>
      exact h.request rfl rfl rfl rfl rfl
  | refuse => exact h
  | invoke | invokeExec => exact h.request rfl rfl rfl rfl rfl
  | @commitChange n _ vid _ hlt _ =>
      have hn : p ≠ n := by
        rintro rfl
        have hle := hstay hp
        rw [h.commit] at hlt
        exact absurd hle (Nat.not_le_of_lt hlt)
      exact h.elsewhere hn
  | toJoin hpc | toPrim hpc | toBackup hpc | joinOk hpc | rejoin hpc | barrier hpc | fill hpc
  | syncFail hpc | openPrim hpc | transferStop hpc | transferSend hpc =>
      exact h.elsewhere (h.ne hpc (by simp))
  | transferreq | stay => exact h
  | transferOk hpc | transferFail hpc => exact h.elsewhere (h.ne hpc (by simp))
  | transferdone => exact h.request rfl rfl rfl rfl rfl
  | doneOk hpc | doneFail hpc | exitFail hpc | openBackup hpc =>
      exact h.elsewhere (h.ne hpc (by simp))
  | @wake n _ =>
      -- the thread is signalled for another view only
      have hn : p ≠ n := by
        rintro rfl
        exact hord (h.insync.trans h.commit.symm)
      exact h.elsewhere hn
  | @restart n _ _ =>
      have hn : p ≠ n := by
        rintro rfl
        exact hstay hp
      exact h.elsewhere hn
  | reboot => exact absurd rfl hord

end Primary

/-! ## The backup -/

/-- The backup asks `p` for the state for `v`. -/
structure Loops (p : N) (v : ℕ) (s : State N R) (b : N) : Prop where
  commit : (s.rep b).vidCommit = v
  insync : (s.rep b).vidInsync = v
  asking : Asking s b
  aim : ∀ m, (s.rep b).pc = .transfer m → m = p
  wait : ∀ m, (s.rep b).pc = .transferWait m → m.dst = p ∧ m.vid = v

section Backup

variable {V : Views N} {s t : State N R} {a : Action N R} {v : ℕ} {p b : N}

/-- Where the recovery thread is then. -/
theorem Asking.cases (h : Asking s b) : (∃ m, (s.rep b).pc = .transfer m) ∨
    ∃ m, (s.rep b).pc = .transferWait m ∧ ∀ rep ∈ s.transferReps, rep.req ≠ m := by
  unfold Asking at h
  split at h
  next m hpc => exact Or.inl ⟨m, hpc⟩
  next m hpc => exact Or.inr ⟨m, hpc, h⟩
  next => exact h.elim

theorem asking_of_transfer {m : N} (hpc : (s.rep b).pc = .transfer m) : Asking s b := by
  unfold Asking
  rw [hpc]
  trivial

theorem asking_of_wait {m : TransferMsg N} (hpc : (s.rep b).pc = .transferWait m)
    (hnone : ∀ rep ∈ s.transferReps, rep.req ≠ m) : Asking s b := by
  unfold Asking
  rw [hpc]
  exact hnone

/-- The recovery thread of `b` stays where it is, and no answer comes. -/
theorem Loops.same (h : Loops p v s b) (hcommit : (t.rep b).vidCommit = (s.rep b).vidCommit)
    (hinsync : (t.rep b).vidInsync = (s.rep b).vidInsync) (hpc : (t.rep b).pc = (s.rep b).pc)
    (hreps : ∀ rep ∈ t.transferReps, rep ∈ s.transferReps ∨ rep.req.dst ≠ p) :
    Loops p v t b where
  commit := hcommit.trans h.commit
  insync := hinsync.trans h.insync
  asking := by
    rcases h.asking.cases with ⟨m, hm⟩ | ⟨m, hm, hnone⟩
    · exact asking_of_transfer (hpc.trans hm)
    · refine asking_of_wait (hpc.trans hm) fun rep hrep heq => ?_
      rcases hreps rep hrep with hold | hother
      · exact hnone rep hold heq
      · exact hother (heq ▸ (h.wait m hm).1)
  aim m hm := h.aim m (hpc.symm.trans hm)
  wait m hm := h.wait m (hpc.symm.trans hm)

/-- A node that is not in the loop is another one. -/
theorem Loops.ne (h : Loops p v s b) {n : N} {pc : Pc N} (hpc : (s.rep n).pc = pc)
    (htransfer : ∀ m, pc ≠ .transfer m) (hwait : ∀ m, pc ≠ .transferWait m) : b ≠ n := by
  rintro rfl
  rcases h.asking.cases with ⟨m, hm⟩ | ⟨m, hm, _⟩
  · exact htransfer m (hpc.symm.trans hm)
  · exact hwait m (hpc.symm.trans hm)

variable [DecidableEq N]

theorem Loops.request (h : Loops p v s b) {n : N} {r : Replica N R}
    (hrep : t.rep = Function.update s.rep n r) (hcommit : r.vidCommit = (s.rep n).vidCommit)
    (hinsync : r.vidInsync = (s.rep n).vidInsync) (hpc : r.pc = (s.rep n).pc)
    (hreps : t.transferReps = s.transferReps) : Loops p v t b := by
  by_cases hn : b = n
  · subst hn
    have hself : t.rep b = r := by rw [hrep, Function.update_self]
    refine h.same (hself ▸ hcommit) (hself ▸ hinsync) (hself ▸ hpc) fun rep hr => ?_
    exact Or.inl (hreps ▸ hr)
  · have hself : t.rep b = s.rep b := by rw [hrep, Function.update_of_ne hn]
    exact h.same (by rw [hself]) (by rw [hself]) (by rw [hself]) fun rep hr => Or.inl (hreps ▸ hr)

theorem Loops.elsewhere (h : Loops p v s b) {n : N} {r : Replica N R} (hn : b ≠ n)
    (hrep : t.rep = Function.update s.rep n r) (hreps : t.transferReps = s.transferReps) :
    Loops p v t b := by
  have hself : t.rep b = s.rep b := by rw [hrep, Function.update_of_ne hn]
  exact h.same (by rw [hself]) (by rw [hself]) (by rw [hself]) fun rep hr => Or.inl (hreps ▸ hr)

theorem Loops.move {ns : List N} (h : Loops p v s b) (hb : b ∈ ns) (hfresh : Fresh s)
    (hrest : AtRest v (s.rep p)) (hord : Orderly s a) (hstay : Remain v ns a)
    (hmove : Move V s a t) : Loops p v t b := by
  cases hmove with
  | clientStart | clientSend | clientOk | clientFail | clientFinish =>
      exact h.request rfl rfl rfl rfl rfl
  | refuse => exact h.same rfl rfl rfl fun _ => Or.inl
  | invoke | invokeExec => exact h.request rfl rfl rfl rfl rfl
  | @commitChange n _ vid _ hlt _ =>
      have hn : b ≠ n := by
        rintro rfl
        have hle := hstay hb
        rw [h.commit] at hlt
        exact absurd hle (Nat.not_le_of_lt hlt)
      exact h.elsewhere hn rfl rfl
  | toJoin hpc | toPrim hpc | toBackup hpc | joinOk hpc | rejoin hpc | barrier hpc | fill hpc
  | syncFail hpc | openPrim hpc => exact h.elsewhere (h.ne hpc (by simp) (by simp)) rfl rfl
  | @transferStop n m _ hne =>
      have hn : b ≠ n := by
        rintro rfl
        exact hne (h.insync.trans h.commit.symm)
      exact h.elsewhere hn rfl rfl
  | @transferSend n m hpc _ =>
      by_cases hn : b = n
      · subst hn
        -- the message is new, so there is no answer to it
        have hpc' : ((s.setRep b ((s.rep b).setPc (.transferWait (transferMsg s b m)))).sendTransfer
            (transferMsg s b m)).rep b = (s.rep b).setPc (.transferWait (transferMsg s b m)) :=
          Function.update_self ..
        refine ⟨?_, ?_, asking_of_wait (m := transferMsg s b m) ?_ fun rep hrep heq => ?_,
          fun m' hm' => ?_, fun m' hm' => ?_⟩
        · rw [hpc']
          exact h.commit
        · rw [hpc']
          exact h.insync
        · rw [hpc']
          rfl
        · have hlt := hfresh.reps rep hrep
          rw [heq] at hlt
          exact absurd hlt (Nat.lt_irrefl _)
        · rw [hpc'] at hm'
          cases hm'
        · rw [hpc'] at hm'
          cases hm'
          exact ⟨h.aim m hpc, h.insync⟩
      · exact h.elsewhere hn rfl rfl
  | @transferreq m hinsync _ =>
      -- the primary does not answer
      refine h.same rfl rfl rfl fun rep hrep => ?_
      rcases List.mem_cons.1 hrep with rfl | hold
      · refine Or.inr fun hdst : m.dst = p => ?_
        rw [hdst, hrest.off] at hinsync
        cases hinsync
      · exact Or.inl hold
  | stay => exact h
  | @transferOk n m rep hpc hrep hreq =>
      have hn : b ≠ n := by
        rintro rfl
        rcases h.asking.cases with ⟨m', hm'⟩ | ⟨m', hm', hnone⟩
        · rw [hm'] at hpc
          cases hpc
        · rw [hm'] at hpc
          cases hpc
          exact hnone rep hrep hreq
      exact h.elsewhere hn rfl rfl
  | @transferFail n m hpc =>
      by_cases hn : b = n
      · subst hn
        have hself : (s.setRep b ((s.rep b).setPc (.transfer m.dst))).rep b =
            (s.rep b).setPc (.transfer m.dst) := Function.update_self ..
        refine ⟨?_, ?_, asking_of_transfer (m := m.dst) ?_, fun m' hm' => ?_, fun m' hm' => ?_⟩
        · rw [hself]
          exact h.commit
        · rw [hself]
          exact h.insync
        · rw [hself]
          rfl
        · rw [hself] at hm'
          cases hm'
          exact (h.wait m hpc).1
        · rw [hself] at hm'
          cases hm'
      · exact h.elsewhere hn rfl rfl
  | transferdone => exact h.request rfl rfl rfl rfl rfl
  | doneOk hpc | doneFail hpc | exitFail hpc | openBackup hpc | wake hpc =>
      exact h.elsewhere (h.ne hpc (by simp) (by simp)) rfl rfl
  | @restart n _ _ =>
      have hn : b ≠ n := by
        rintro rfl
        exact hstay hb
      exact h.elsewhere hn rfl rfl
  | reboot => exact absurd rfl hord

end Backup

/-! ## Acknowledgements -/

/-- Every member has executed a request of the view. -/
def AckedByAll (V : Views N) (s : State N R) : Prop :=
  ∀ v q, (v, q) ∈ s.acked → ∀ y ∈ V.view v, 0 < s.book.cnt y v

section Acked

variable {V : Views N} {s t : State N R} {a : Action N R}

theorem AckedByAll.grow (h : AckedByAll V s) (hacked : t.acked = s.acked)
    (hcnt : ∀ y v, s.book.cnt y v ≤ t.book.cnt y v) : AckedByAll V t := by
  intro v q hq y hy
  rw [hacked] at hq
  exact (h v q hq y hy).trans_le (hcnt y v)

variable [DecidableEq N]

/-- The slaves have executed the request before the primary, at the same viewstamp. -/
theorem InView.executed_by_all (hI : InView V s) {n : N} {c : ClientCall N R}
    (hc : (s.rep n).invoking = .client c) (htodo : c.todo = []) {y : N}
    (hy : y ∈ V.view (s.rep n).myvs.vid) : 0 < (s.exec n c.req).book.cnt y (s.rep n).myvs.vid := by
  by_cases hn : y = n
  · subst hn
    simp
  · have hcall := (hI.node n).call c hc
    rcases hcall.passed with ⟨before, hchain, hdone⟩
    rw [htodo] at hchain
    have hbefore : slaves V n (s.rep n).myvs.vid = before :=
      List.append_cancel_right (show _ ++ [n] = _ ++ [n] from hchain)
    have hmem : y ∈ before := by
      rw [← hbefore]
      exact List.mem_filter.2 ⟨hy, by simpa using hn⟩
    have hle := (hdone y hmem).1
    have hseq := (hI.node n).seq
    calc 0 < (s.rep n).myvs.seqno.toNat := by omega
      _ ≤ s.book.cnt y (s.rep n).myvs.vid := hle
      _ ≤ _ := (s.book.le_exec n _ c.req).cnt y _

variable [DecidableEq R]

theorem AckedByAll.step (h : AckedByAll V s) (hI : InView V s) (hst : step V s a = some t) :
    AckedByAll V t := by
  cases step_move hst with
  | @clientFinish n c hc htodo =>
      intro v q hq y hy
      have hmem : (v, q) = ((s.rep n).myvs.vid, c.req) ∨ (v, q) ∈ s.acked := by
        rw [State.ack_acked] at hq
        split at hq
        · exact List.mem_cons.1 hq
        · exact Or.inr hq
      rcases hmem with heq | hold
      · cases heq
        exact hI.executed_by_all hc htodo hy
      · exact (h v q hold y hy).trans_le ((s.book.le_exec n _ c.req).cnt y v)
  | @invokeExec n m _ =>
      exact h.grow rfl fun y v => (s.book.le_exec n (s.rep n).myvs.vid m.req).cnt y v
  | _ => exact h.grow rfl fun _ _ => Nat.le_refl _

theorem ackedByAll_of_reach {ok : State N R → Action N R → Prop}
    (hok : ∀ s a, ok s a → Serial s a ∧ Orderly s a) (h : Reach (Init V) (Rsm.step V) ok s) :
    AckedByAll V s := by
  refine Reach.invariant_with (J := Inv V) (I := AckedByAll V) (Inv.reach hok) ?_
    (fun _ _ _ hJ _ hs _ hst => hs.step hJ.inView hst) h
  rintro s ⟨rep, rfl, _⟩ v q hq
  cases hq

end Acked

/-! ## Results -/

variable [DecidableEq N] [DecidableEq R]

/-- The primary `p` has opened view `v`, and the backup `b` has still to ask it for the state.  Then
`b` goes on asking, and no request of the view is acknowledged. -/
theorem lost_answer_stalls_view {V : Views N} {s s' : State N R} {p b : N} {v : ℕ}
    (h : Reach (Init V) (step V) (fun s a => Serial s a ∧ Orderly s a) s)
    (hp : (s.rep p).vidCommit = v) (hopen : (s.rep p).inviewchange = false)
    (hb : (s.rep b).vidCommit = v) (hinsync : (s.rep b).vidInsync = v)
    (hpc : (s.rep b).pc = .transfer p)
    (hlater : Reach (fun x => x = s) (step V)
      (fun s a => (Serial s a ∧ Orderly s a) ∧ Remain v [p, b] a) s') :
    (s'.rep p).inviewchange = false ∧ Asking s' b ∧ (s'.rep b).inviewchange = true ∧
      ∀ q, (v, q) ∉ s'.acked := by
  have hreach : ∀ {x}, Reach (fun y => y = s) (step V)
      (fun s a => (Serial s a ∧ Orderly s a) ∧ Remain v [p, b] a) x →
      Reach (Init V) (step V) (fun s a => Serial s a ∧ Orderly s a) x :=
    fun hx => h.trans (hx.mono fun _ _ ha => ha.1)
  have hkept : AtRest v (s'.rep p) ∧ Loops p v s' b := by
    refine Reach.invariant_with (J := Fresh) (I := fun x => AtRest v (x.rep p) ∧ Loops p v x b)
      (fun hx => fresh_of_reach (hreach hx)) ?_ (fun x a y hfresh _ hx ha hst => ?_) hlater
    · rintro x rfl
      refine ⟨((Inv.reach (fun _ _ ha => ha) h).nodes p).atRest hopen hp, hb, hinsync,
        asking_of_transfer hpc, fun m hm => ?_, fun m hm => ?_⟩
      · rw [hpc] at hm
        exact (Pc.transfer.inj hm).symm
      · rw [hpc] at hm
        cases hm
    · have hmove := step_move hst
      exact ⟨hx.1.move (by simp) ha.1.2 ha.2 hmove,
        hx.2.move (by simp) hfresh hx.1 ha.1.2 ha.2 hmove⟩
  rcases hkept with ⟨hrest, hloops⟩
  have hI : Inv V s' := Inv.reach (fun _ _ ha => ha) (hreach hlater)
  -- what the phase of the backup says
  have hback : ∃ m, AsBackup V b (s'.rep b) (s'.row b) m := by
    rcases hloops.asking.cases with ⟨m, hm⟩ | ⟨m, hm, _⟩
    · exact ⟨m, (hI.nodes b).at hm⟩
    · exact ⟨m.dst, ((hI.nodes b).at hm).1⟩
  rcases hback with ⟨m, hview, -, hmem, -⟩
  refine ⟨hrest.opened, hloops.asking, hview, fun q hq => ?_⟩
  have hcnt := ackedByAll_of_reach (fun _ _ ha => ha) (hreach hlater) v q hq b
    (hloops.insync ▸ hmem)
  -- a member executes requests of a view only when it has opened it
  have hopened := ((hI.nodes b).base.cnt v (Nat.pos_iff_ne_zero.1 hcnt)).2 hloops.commit.symm
  rw [hview] at hopened
  cases hopened

/-- Node 2 reports to node 1, which opens view 2; the answer to the report is lost. -/
def reportedOnce : List (Action ℕ ℕ) :=
  openFirst ++ joinSecond ++
    [.transferOk 2 ⟨⟨0, 2, 1, ⟨0, 0⟩, 2⟩, ⟨0, 0⟩, none⟩, .transferdone ⟨1, 2, 1, 2⟩, .doneFail 2,
      .syncEnd 1]

theorem lost_answer_stalls_view_reportedOnce :
    ∃ s : State ℕ ℕ,
      Reach (Init growing) (step growing) (fun s a => Serial s a ∧ Orderly s a) s ∧
        (s.rep 1).inviewchange = false ∧ (s.rep 2).vidCommit = 2 ∧
        (s.rep 2).inviewchange = true ∧ ∀ q, (2, q) ∉ s.acked := by
  have hrun : ∃ s : State ℕ ℕ,
      Reach (Init growing) (step growing) (fun s a => Serial s a ∧ Orderly s a) s ∧
        ((s.rep 1).vidCommit = 2 ∧ (s.rep 1).inviewchange = false ∧ (s.rep 2).vidCommit = 2 ∧
          (s.rep 2).vidInsync = 2 ∧ (s.rep 2).pc = .transfer 1) :=
    Reach.exists_of_runFrom reportedOnce init_boot (by decide +kernel)
  rcases hrun with ⟨s, hs, hp, hopen, hb, hinsync, hpc⟩
  have hstall := lost_answer_stalls_view hs hp hopen hb hinsync hpc (.start rfl)
  exact ⟨s, hs, hopen, hb, hstall.2.2⟩

end Rsm
end Yfs

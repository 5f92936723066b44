import Yfs.Rsm.Transfer

/-!
# Survive — acknowledged requests survive view changes

A request is acknowledged when every member of its view has executed it.  A later primary has
it, because for every earlier view `v` its state covers what *some* member of `v` has executed
there: the primary itself, or a member that is done with `v` for good (`Gone`).  Such a state is
handed on in three ways: a primary keeps it from view to view, a backup gets it by a download,
and a backup that was open becomes the primary of the next view.

`Succession` restricts the runs to these three.  The source has nothing like it: `set_primary`
takes the first member of the previous view that is left, whether it has downloaded the state of
that view or not, and `transferreq` is answered by any node with `insync`.
-/

namespace Yfs
namespace Rsm

open Lib

variable {N R : Type}

section

variable [DecidableEq N] [DecidableEq R]

/-- A node becomes its own primary only for the view after its last one, and only if it was the
primary or had that view open; only a primary in `sync_with_backups` hands out its state. -/
def Succession (V : Views N) (s : State N R) : Action N R → Prop
  | .commitChange n vid => (s.rep n).vidCommit < vid →
      setPrimary V (s.rep n).primary vid = some n →
        (s.rep n).vidCommit + 1 = vid ∧
          ((s.rep n).primary = n ∨ (s.rep n).inviewchange = false)
  | .joinOk n vid => (s.rep n).vidCommit < vid →
      setPrimary V (s.rep n).primary vid = some n →
        (s.rep n).vidCommit + 1 = vid ∧
          ((s.rep n).primary = n ∨ (s.rep n).inviewchange = false)
  | .transferreq m => (s.rep m.dst).insync = true → m.vid = (s.rep m.dst).vidInsync →
      (s.rep m.dst).pc = .waitBackups
  | _ => True

instance (V : Views N) (s : State N R) : DecidablePred (Succession V s)
  | .commitChange n vid | .joinOk n vid => inferInstanceAs (Decidable
      ((s.rep n).vidCommit < vid → setPrimary V (s.rep n).primary vid = some n →
        (s.rep n).vidCommit + 1 = vid ∧
          ((s.rep n).primary = n ∨ (s.rep n).inviewchange = false)))
  | .transferreq m => inferInstanceAs (Decidable ((s.rep m.dst).insync = true →
      m.vid = (s.rep m.dst).vidInsync → (s.rep m.dst).pc = .waitBackups))
  | .clientStart _ _ | .clientSend _ | .clientOk _ | .clientFail _ | .clientFinish _ | .invoke _
  | .invokeExec _ | .top _ | .joinFail _ | .barrier _ | .fill _ | .syncEnd _ | .transferSend _
  | .transferOk _ _ | .transferFail _ | .transferdone _ | .doneOk _ | .doneFail _ | .exitSync _
  | .wake _ | .restart _ _ => isTrue trivial

end

/-! ## The invariant -/

/-- `y` will not execute another request of view `v`. -/
def Gone (rep : N → Replica N R) (g : Ghost N R) (y : N) (v : ℕ) : Prop :=
  v < g.seen y ∧ ((rep y).invoking ≠ .free → (rep y).myvs.vid ≠ v)

/-- For every view before `w`, the state `st` has all that one of the members `who` has executed
in that view. -/
def Covers (V : Views N) (b : Book N R) (who : N → ℕ → Prop) (st : List R) (w : ℕ) : Prop :=
  ∀ v, v ≠ 0 → v < w → ∃ y ∈ V.view v, who y v ∧ ∀ q ∈ (b.log v).take (b.cnt y v), q ∈ st

/-- `x` itself, or a member that is gone. -/
def Trusted (rep : N → Replica N R) (g : Ghost N R) (x y : N) (v : ℕ) : Prop :=
  y = x ∨ Gone rep g y v

/-- The recovery thread is at a place where the node has the state for `vid_insync`. -/
def Replica.synchronised (r : Replica N R) : Prop :=
  match r.pc with
  | .barrier | .fill | .waitBackups | .doneWait _ => True
  | .exitSync => r.vidInsync = r.vidCommit
  | _ => False

/-- The views up to which the state of `n` counts. -/
def Entitled (n : N) (r : Replica N R) (w : ℕ) : Prop :=
  (w = r.vidCommit ∧ ((w ≠ 0 ∧ r.primary = n) ∨ r.inviewchange = false)) ∨
    (w = r.vidInsync ∧ r.synchronised)

def Pc.asBackup : Pc N → Bool
  | .transfer _ | .transferWait _ | .doneWait _ | .exitSync => true
  | _ => false

structure Carry (V : Views N) (rep : N → Replica N R) (b : Book N R) (g : Ghost N R)
    (reps : List (TransferRep N R)) (acked : List (ℕ × R)) : Prop where
  acked : ∀ v q, (v, q) ∈ acked → v ≠ 0 ∧ ∀ y ∈ V.view v, q ∈ (b.log v).take (b.cnt y v)
  snap : ∀ n v p, g.snap n v = some p → Covers V b (Gone rep g) p.2 v
  node : ∀ n w, Entitled n (rep n) w → Covers V b (Trusted rep g n) (rep n).state w
  backup : ∀ n, (rep n).pc.asBackup = true → (rep n).primary ≠ n
  reps : ∀ p ∈ reps, g.role p.req.dst p.req.vid = some .prim

theorem Covers.mono {V : Views N} {b b' : Book N R} {who who' : N → ℕ → Prop}
    {st st' : List R} {w : ℕ} (h : Covers V b who st w) (hst : ∀ q ∈ st, q ∈ st')
    (hwho : ∀ y v, who y v → who' y v ∧
      ∀ q ∈ (b'.log v).take (b'.cnt y v), q ∈ (b.log v).take (b.cnt y v) ∨ q ∈ st') :
    Covers V b' who' st' w := by
  intro v hv hlt
  rcases h v hv hlt with ⟨y, hy, hw, hcov⟩
  rcases hwho y v hw with ⟨hw', htake⟩
  refine ⟨y, hy, hw', fun q hq => ?_⟩
  rcases htake q hq with hq | hq
  · exact hst q (hcov q hq)
  · exact hq

/-- As `mono`, when only the nodes move. -/
theorem Covers.imp {V : Views N} {b : Book N R} {who who' : N → ℕ → Prop} {st : List R} {w : ℕ}
    (h : Covers V b who st w) (hwho : ∀ y v, who y v → who' y v) : Covers V b who' st w :=
  h.mono (fun _ hq => hq) fun y v hw => ⟨hwho y v hw, fun _ hq => Or.inl hq⟩

/-- The node stays in its view; it remains to look at what it has synchronised for. -/
theorem Entitled.of_sync {n : N} {r r' : Replica N R} (hvid : r'.vidCommit = r.vidCommit)
    (hprim : r'.primary = r.primary)
    (hview : r'.inviewchange = r.inviewchange)
    (hsync : r'.synchronised → Entitled n r r'.vidInsync) {w : ℕ} (hw : Entitled n r' w) :
    Entitled n r w := by
  rcases hw with ⟨rfl, hw⟩ | ⟨rfl, hw⟩
  · rw [hprim, hview, hvid] at hw
    exact Or.inl ⟨hvid, hvid ▸ hw⟩
  · exact hsync hw

namespace Carry

variable {V : Views N} {rep : N → Replica N R} {b b' : Book N R} {g g' : Ghost N R}
  {reps : List (TransferRep N R)} {acked : List (ℕ × R)} {n : N} {r : Replica N R}

theorem ghost (h : Carry V rep b g reps acked) (hg : g.Le g') (hseen : ∀ y, g.seen y ≤ g'.seen y)
    (hsnap : ∀ n v p, g'.snap n v = some p →
      g.snap n v = some p ∨ Covers V b (Gone rep g) p.2 v) :
    Carry V rep b g' reps acked := by
  have hgone : ∀ {y v}, Gone rep g y v → Gone rep g' y v :=
    fun hy => ⟨hy.1.trans_le (hseen _), hy.2⟩
  refine ⟨h.acked, fun x v p hp => ?_, fun x w hw => ?_, h.backup,
    fun p hp => hg.role _ _ _ (h.reps p hp)⟩
  · have hcov : Covers V b (Gone rep g) p.2 v := by
      rcases hsnap x v p hp with hold | hnew
      · exact h.snap x v p hold
      · exact hnew
    exact hcov.imp fun _ _ => hgone
  · exact (h.node x w hw).imp fun _ _ ht => ht.imp id hgone

theorem book (h : Carry V rep b g reps acked) (hcnt : b'.cnt = b.cnt) (hlog : b'.log = b.log) :
    Carry V rep b' g reps acked := by
  refine ⟨?_, ?_, ?_, h.backup, h.reps⟩
  · rw [hcnt, hlog]
    exact h.acked
  · unfold Covers
    rw [hcnt, hlog]
    exact h.snap
  · unfold Covers
    rw [hcnt, hlog]
    exact h.node

theorem replyTransfer (h : Carry V rep b g reps acked) {p : TransferRep N R}
    (hp : g.role p.req.dst p.req.vid = some .prim) : Carry V rep b g (p :: reps) acked := by
  refine ⟨h.acked, h.snap, h.node, h.backup, fun p' hp' => ?_⟩
  rcases List.mem_cons.1 hp' with rfl | hp'
  · exact hp
  · exact h.reps p' hp'

theorem ack (h : Carry V rep b g reps acked) {v : ℕ} {q : R} (hv : v ≠ 0)
    (hall : ∀ y ∈ V.view v, q ∈ (b.log v).take (b.cnt y v)) (ret : Status) :
    Carry V rep b g reps (if ret = .ok then (v, q) :: acked else acked) := by
  split
  · refine ⟨fun v' q' hq' => ?_, h.snap, h.node, h.backup, h.reps⟩
    rcases List.mem_cons.1 hq' with heq | hold
    · cases heq
      exact ⟨hv, hall⟩
    · exact h.acked v' q' hold
  · exact h

variable [DecidableEq N]

/-- A node that becomes busy is open, in a view that is the last it has seen. -/
theorem gone_update {w : Row N R} (hseen : w.seen = g.seen n) (hN : NodeOk V n (rep n) w)
    (hbusy : r.invoking ≠ .free → r.myvs.vid = (rep n).myvs.vid ∧
      ((rep n).invoking ≠ .free ∨ (rep n).inviewchange = false)) {y : N} {v : ℕ}
    (h : Gone rep g y v) : Gone (Function.update rep n r) g y v := by
  refine ⟨h.1, fun hinv => ?_⟩
  by_cases hy : y = n
  · subst hy
    rw [Function.update_self] at hinv ⊢
    rcases hbusy hinv with ⟨hvs, hold | hopen⟩
    · rw [hvs]
      exact h.2 hold
    · have hrole := hN.role_opened hopen
      have hvid := (hN.base.opened hopen).1
      have hpos := (hN.base.role _ hrole).1
      rw [hvid] at hpos
      have hlast := (hN.base.commit hpos).1
      have hlt := h.1
      omega
  · rw [Function.update_of_ne hy] at hinv ⊢
    exact h.2 hinv

/-- The frame for steps that execute nothing: `n` moves to `r`. -/
theorem update (h : Carry V rep b g reps acked) {w : Row N R} (hseen : w.seen = g.seen n)
    (hN : NodeOk V n (rep n) w)
    (hbusy : r.invoking ≠ .free → r.myvs.vid = (rep n).myvs.vid ∧
      ((rep n).invoking ≠ .free ∨ (rep n).inviewchange = false))
    (hnode : ∀ w, Entitled n r w → Covers V b (Trusted rep g n) r.state w)
    (hback : r.pc.asBackup = true → r.primary ≠ n) :
    Carry V (Function.update rep n r) b g reps acked := by
  have hgone : ∀ {y v}, Gone rep g y v → Gone (Function.update rep n r) g y v :=
    fun hg => gone_update hseen hN hbusy hg
  refine ⟨h.acked, fun x v p hp => ?_, fun x w hw => ?_, ?_, h.reps⟩
  · exact (h.snap x v p hp).imp fun _ _ => hgone
  · by_cases hx : x = n
    · subst hx
      rw [Function.update_self] at hw ⊢
      exact (hnode w hw).imp fun _ _ ht => ht.imp id hgone
    · rw [Function.update_of_ne hx] at hw ⊢
      exact (h.node x w hw).imp fun _ _ ht => ht.imp id hgone
  · exact (Function.forall_update_iff _
      (fun x (r : Replica N R) => r.pc.asBackup = true → r.primary ≠ x)).2
      ⟨hback, fun x _ => h.backup x⟩

/-- A step after which `n` is entitled to no view that it was not entitled to before. -/
theorem move (h : Carry V rep b g reps acked) {w : Row N R} (hseen : w.seen = g.seen n)
    (hN : NodeOk V n (rep n) w)
    (hbusy : r.invoking ≠ .free → r.myvs.vid = (rep n).myvs.vid ∧
      ((rep n).invoking ≠ .free ∨ (rep n).inviewchange = false))
    (hstate : r.state = (rep n).state) (hent : ∀ w, Entitled n r w → Entitled n (rep n) w)
    (hback : r.pc.asBackup = true → r.primary ≠ n) :
    Carry V (Function.update rep n r) b g reps acked :=
  h.update hseen hN hbusy (fun w hw => hstate ▸ h.node n w (hent w hw)) hback

/-- A step of the recovery thread inside its view. -/
theorem recover (h : Carry V rep b g reps acked) {w : Row N R} (hN : NodeOk V n (rep n) w)
    (hseen : w.seen = g.seen n) (hvs : r.myvs = (rep n).myvs)
    (hinv : r.invoking = (rep n).invoking) (hstate : r.state = (rep n).state)
    (hvid : r.vidCommit = (rep n).vidCommit) (hprim : r.primary = (rep n).primary)
    (hview : r.inviewchange = (rep n).inviewchange)
    (hsync : r.synchronised → Entitled n (rep n) r.vidInsync)
    (hback : r.pc.asBackup = true → (rep n).primary ≠ n) :
    Carry V (Function.update rep n r) b g reps acked := by
  refine h.move hseen hN (fun hb => ⟨by rw [hvs], Or.inl (hinv ▸ hb)⟩) hstate
    (fun _ => Entitled.of_sync hvid hprim hview hsync) fun hpc => ?_
  rw [hprim]
  exact hback hpc

/-- The recovery thread moves on and changes nothing else. -/
theorem setPc (h : Carry V rep b g reps acked) {w : Row N R} (hN : NodeOk V n (rep n) w)
    (hseen : w.seen = g.seen n) {pc : Pc N}
    (hsync : ((rep n).setPc pc).synchronised → (rep n).synchronised)
    (hback : pc.asBackup = true → (rep n).primary ≠ n) :
    Carry V (Function.update rep n ((rep n).setPc pc)) b g reps acked :=
  h.recover hN hseen rfl rfl rfl rfl rfl rfl (fun hs => Or.inr ⟨rfl, hsync hs⟩) hback

theorem setRole (h : Carry V rep b g reps acked) {v : ℕ} (hnone : g.role n v = none)
    (role : Role N) : Carry V rep b (g.setRole n v role) reps acked :=
  h.ghost (le_setRole hnone role) (fun _ => Nat.le_refl _) fun _ _ _ hp => Or.inl hp

theorem see (h : Carry V rep b g reps acked) (n : N) (vid : ℕ) :
    Carry V rep b (g.see n vid) reps acked := by
  refine h.ghost (le_see g n vid) (fun y => ?_) fun _ _ _ hp => Or.inl hp
  by_cases hy : y = n
  · subst hy
    simp
  · simp [hy]

/-- The primary offers its state: it is idle, and so gone from all earlier views. -/
theorem setSnap (h : Carry V rep b g reps acked) {w : Row N R} (hseen : w.seen = g.seen n)
    (hN : NodeOk V n (rep n) w) (hfree : (rep n).invoking = .free)
    (hsync : (rep n).synchronised) (hnone : g.snap n (rep n).vidInsync = none) :
    Carry V rep b (g.setSnap n (rep n).vidInsync (rep n).lastMyvs (rep n).state) reps acked := by
  refine h.ghost (le_setSnap hnone _ _) (fun _ => Nat.le_refl _) fun x v p hp => ?_
  by_cases hxv : x = n ∧ v = (rep n).vidInsync
  · rcases hxv with ⟨rfl, rfl⟩
    obtain rfl : ((rep x).lastMyvs, (rep x).state) = p := by simpa using hp
    refine Or.inr fun v hv hlt => ?_
    rcases h.node x _ (Or.inr ⟨rfl, hsync⟩) v hv hlt with ⟨y, hy, htrust, hcov⟩
    refine ⟨y, hy, ?_, hcov⟩
    rcases htrust with rfl | hgone
    · have hvid := hN.base.insync.trans hN.base.vidCommit_le
      exact ⟨by omega, fun hinv => absurd hfree hinv⟩
    · exact hgone
  · left
    rcases not_and_or.1 hxv with hx | hv
    · rw [Ghost.setSnap_snap, set2_of_node_ne _ hx] at hp
      exact hp
    · rw [Ghost.setSnap_snap, set2_of_vid_ne _ hv] at hp
      exact hp

end Carry

/-! ## Executing a request -/

section Exec

variable {V : Views N} {s : State N R} {n : N} {q : R}

theorem mem_take_mono {b b' : Book N R} (hle : b.Le b') {y : N} {v : ℕ} {a : R}
    (hlen : b.cnt y v ≤ (b.log v).length) (ha : a ∈ (b.log v).take (b.cnt y v)) :
    a ∈ (b'.log v).take (b'.cnt y v) := by
  rw [← take_of_isPrefix (hle.log v) hlen] at ha
  exact List.take_subset_take_left _ (hle.cnt y v) ha

theorem Done.mem_take {b : Book N R} {vs : ViewStamp} {y : N} (h : Done b vs q y)
    (hpos : vs.seqno.toNat ≠ 0) : q ∈ (b.log vs.vid).take (b.cnt y vs.vid) := by
  have hcnt := h.1
  exact mem_take_of_getElem? h.2 (by omega)

variable [DecidableEq N]

/-- An execution by `n` adds to what `n` has executed in its view, and to nothing else. -/
theorem take_exec (hI : InView V s) (ht : Turn V s.book n (s.rep n).myvs.vid q) {y : N} {v : ℕ}
    {a : R} (ha : a ∈ ((s.exec n q).book.log v).take ((s.exec n q).book.cnt y v)) :
    a ∈ (s.book.log v).take (s.book.cnt y v) ∨
      (y = n ∧ v = (s.rep n).myvs.vid ∧ a = q) := by
  by_cases hyv : y = n ∧ v = (s.rep n).myvs.vid
  · rcases hyv with ⟨rfl, rfl⟩
    have htake := take_grow_succ (hI.book.follows ht)
    simp only [State.exec_book, Book.exec_cnt, Book.exec_log, set2_self, Function.update_self,
      htake] at ha
    rcases List.mem_append.1 ha with ha | ha
    · exact Or.inl ha
    · exact Or.inr ⟨rfl, rfl, List.mem_singleton.1 ha⟩
  · have hcnt : (s.exec n q).book.cnt y v = s.book.cnt y v := by
      rcases not_and_or.1 hyv with hy | hv
      · exact congrFun (set2_of_node_ne _ hy _ _) v
      · exact set2_of_vid_ne _ hv _ _ _
    have hlog : s.book.log v <+: (s.exec n q).book.log v := (s.book.le_exec n _ q).log v
    rw [hcnt, take_of_isPrefix hlog (hI.book.le y v)] at ha
    exact Or.inl ha

theorem Carry.exec (h : Carry V s.rep s.book s.ghost s.transferReps s.acked) (hI : InView V s)
    (hbusy : (s.rep n).invoking ≠ .free) (ht : Turn V s.book n (s.rep n).myvs.vid q) :
    Carry V (s.exec n q).rep (s.exec n q).book s.ghost s.transferReps s.acked := by
  have hgone : ∀ {y v}, Gone s.rep s.ghost y v → Gone (s.exec n q).rep s.ghost y v := by
    intro y v hy
    refine ⟨hy.1, fun hinv => ?_⟩
    by_cases hn : y = n
    · subst hn
      simp at hinv
    · rw [State.exec_rep, Function.update_of_ne hn] at hinv ⊢
      exact hy.2 hinv
  have htake : ∀ {y v}, Gone s.rep s.ghost y v →
      ∀ a ∈ ((s.exec n q).book.log v).take ((s.exec n q).book.cnt y v),
        a ∈ (s.book.log v).take (s.book.cnt y v) := by
    intro y v hy a ha
    rcases take_exec hI ht ha with ha | ⟨rfl, rfl, _⟩
    · exact ha
    · -- a member that is gone does not execute
      exact absurd rfl (hy.2 hbusy)
  refine ⟨fun v a ha => ?_, fun x v p hp => ?_, fun x w hw => ?_, ?_, h.reps⟩
  · refine ⟨(h.acked v a ha).1, fun y hy => ?_⟩
    exact mem_take_mono (s.book.le_exec n _ q) (hI.book.le y v) ((h.acked v a ha).2 y hy)
  · exact (h.snap x v p hp).mono (fun _ hq => hq)
      fun y u hy => ⟨hgone hy, fun a ha => Or.inl (htake hy a ha)⟩
  · by_cases hx : x = n
    · subst hx
      have hw' : Entitled x (s.rep x) w := by simpa [Entitled, Replica.synchronised] using hw
      refine (h.node x w hw').mono (fun a ha => by simp [ha]) fun y u hy => ?_
      refine ⟨hy.imp id hgone, fun a ha => ?_⟩
      rcases take_exec hI ht ha with ha | ⟨_, _, rfl⟩
      · exact Or.inl ha
      · exact Or.inr (by simp)
    · rw [State.exec_rep, Function.update_of_ne hx] at hw ⊢
      refine (h.node x w hw).mono (fun _ hq => hq) fun y u hy => ⟨hy.imp id hgone, fun a ha => ?_⟩
      rcases hy with rfl | hy
      · rcases take_exec hI ht ha with ha | ⟨hn, _, _⟩
        · exact Or.inl ha
        · exact absurd hn hx
      · exact Or.inl (htake hy a ha)
  · exact (Function.forall_update_iff _
      (fun x (r : Replica N R) => r.pc.asBackup = true → r.primary ≠ x)).2
      ⟨h.backup n, fun x _ => h.backup x⟩

/-- When `client_invoke` executes its request, every member of the view has it. -/
theorem executed_by_all (hI : InView V s) {c : ClientCall N R}
    (hc : (s.rep n).invoking = .client c) (htodo : c.todo = []) :
    (s.rep n).myvs.vid ≠ 0 ∧ ∀ y ∈ V.view (s.rep n).myvs.vid,
      c.req ∈ ((s.exec n c.req).book.log (s.rep n).myvs.vid).take
        ((s.exec n c.req).book.cnt y (s.rep n).myvs.vid) := by
  have hcall := (hI.node n).call c hc
  have hseq := (hI.node n).seq
  have ht := hI.turn_client hc htodo
  have hle := s.book.le_exec n (s.rep n).myvs.vid c.req
  refine ⟨fun h0 => ?_, fun y hy => ?_⟩
  · rcases hcall.opener with ⟨o, ho, _⟩
    rw [h0, hI.book.zero] at ho
    cases ho
  · have hdone : Done (s.exec n c.req).book (s.rep n).myvs c.req y := by
      by_cases hyn : y = n
      · subst hyn
        exact hI.book.done_exec hseq ht
      · rcases hcall.passed with ⟨before, hchain, hdone⟩
        have hin : y ∈ before := by
          have hslave : y ∈ chain V n (s.rep n).myvs.vid :=
            List.mem_append_left _ (List.mem_filter.2 ⟨hy, by simpa using hyn⟩)
          rw [hchain, htodo] at hslave
          simpa [hyn] using hslave
        exact (hdone y hin).mono hle
    exact hdone.mem_take (by omega)

end Exec

/-! ## Steps -/

section Steps

variable {V : Views N} {s t : State N R} {a : Action N R} {n : N} {r r' : Replica N R}

theorem Replica.synchronised.of_commit {vid : ℕ} {p : N} (h : (r.commit vid p).synchronised)
    (hne : r.vidInsync ≠ vid) : r.synchronised := by
  unfold Replica.synchronised at h ⊢
  rw [Replica.commit_pc] at h
  cases hpc : r.pc <;> rw [hpc] at h <;> first | exact h | exact absurd h hne

variable [DecidableEq N]

/-- A member that is open, or has not executed anything in its view, covers that view itself. -/
theorem covers_own (hI : Inv V s) {q : R}
    (hq : q ∈ (s.book.log (s.rep n).vidCommit).take (s.book.cnt n (s.rep n).vidCommit)) :
    q ∈ (s.rep n).state := by
  by_cases hopen : (s.rep n).inviewchange = false
  · have hvs := ((hI.nodes n).base.opened hopen).1
    rw [← hvs] at hq
    cases ho : s.book.opened (s.rep n).myvs.vid with
    | none =>
        rw [(hI.inView.book.unopened _ ho).1] at hq
        simp at hq
    | some o =>
        rw [hI.states.live n (Or.inl hopen) o ho]
        exact List.mem_append_right _ hq
  · have hcnt : s.book.cnt n (s.rep n).vidCommit = 0 := by
      by_contra hne
      exact hopen (((hI.nodes n).base.cnt _ hne).2 rfl)
    rw [hcnt] at hq
    cases hq

/-- A new primary was the primary of the view before, or had it open. -/
theorem Carry.commitTo (h : Carry V s.rep s.book s.ghost s.transferReps s.acked) (hI : Inv V s)
    {vid : ℕ} {p : N}
    (hsucc : p = n → (s.rep n).vidCommit + 1 = vid ∧
      ((s.rep n).primary = n ∨ (s.rep n).inviewchange = false))
    (hsync : r.synchronised → Entitled n (s.rep n) r.vidInsync)
    (hback : r.pc.asBackup = true → (s.rep n).pc.asBackup = true)
    (hvs : r.myvs = (s.rep n).myvs) (hinv : r.invoking = (s.rep n).invoking)
    (hstate : r.state = (s.rep n).state) (hvid : r.vidCommit = vid) (hprim : r.primary = p)
    (hview : r.inviewchange = true) :
    Carry V (Function.update s.rep n r) s.book s.ghost s.transferReps s.acked := by
  refine h.update rfl (hI.nodes n) (fun hb => ⟨by rw [hvs], Or.inl (hinv ▸ hb)⟩) ?_ fun hpc hp => ?_
  · rintro w (⟨rfl, hw⟩ | ⟨rfl, hw⟩)
    · rw [hview, hprim, hvid] at hw
      have hn : p = n := (hw.resolve_right (by simp)).2
      rcases hsucc hn with ⟨hnext, hold⟩
      intro v hv hlt'
      rw [hvid] at hlt'
      have hpos : (s.rep n).vidCommit ≠ 0 := by omega
      rw [hstate]
      by_cases hlast : v = (s.rep n).vidCommit
      · -- the view before: `n` is one of its members
        subst hlast
        have hmem : n ∈ V.view (s.rep n).vidCommit := by
          rcases hold with hprim' | hopen
          · have hmem := ((hI.nodes n).base.commit hpos).2
            rw [hprim'] at hmem
            exact hmem
          · exact ((hI.nodes n).base.opened hopen).2.1
        exact ⟨n, hmem, Or.inl rfl, fun q hq => covers_own hI hq⟩
      · have hent : Entitled n (s.rep n) (s.rep n).vidCommit :=
          Or.inl ⟨rfl, hold.imp (fun hp => ⟨hpos, hp⟩) id⟩
        exact h.node n _ hent v hv (by omega)
    · rw [hstate]
      exact h.node n _ (hsync hw)
  · -- a node that downloads is neither a primary nor open
    rw [hprim] at hp
    have hpc' := hback hpc
    rcases (hsucc hp).2 with hold | hopen
    · exact h.backup n hpc' hold
    · rw [(hI.nodes n).asleep hopen] at hpc'
      cases hpc'

theorem Carry.transferOk (h : Carry V s.rep s.book s.ghost s.transferReps s.acked) (hI : Inv V s)
    {m : TransferMsg N} {p : TransferRep N R} (hpc : (s.rep n).pc = .transferWait m)
    (hp : p ∈ s.transferReps) (hreq : p.req = m) (d : DoneMsg N) :
    Carry V (Function.update s.rep n (((s.rep n).install p).setPc (.doneWait d))) s.book s.ghost
      s.transferReps s.acked := by
  have hnotprim := h.backup n (by rw [hpc]; rfl)
  rcases (hI.nodes n).at hpc with ⟨⟨hview, _, _, _⟩, _, _, hvid, hlast⟩
  rcases hI.states.reps p hp with ⟨st, hstate, hst, role, hrole, hoffer⟩
  have hprim := h.reps p hp
  rw [hreq] at hrole hoffer hprim
  have hsnap := hoffer (Option.some.inj (hrole.symm.trans hprim))
  have hinstall : ((s.rep n).install p).state = st :=
    install_state hI.inView.book.zero (hI.states.stamp n) (by rw [hreq]; exact hlast) hstate hst
  refine h.update rfl (hI.nodes n) (fun hb => ⟨rfl, Or.inl hb⟩) ?_ fun _ => hnotprim
  rintro w (⟨rfl, hw⟩ | ⟨rfl, hw⟩)
  · rcases hw with ⟨_, hn⟩ | hopen
    · exact absurd hn hnotprim
    · exact absurd (hview.symm.trans hopen) (by simp)
  · change Covers V s.book (Trusted s.rep s.ghost n) ((s.rep n).install p).state (s.rep n).vidInsync
    rw [hinstall, ← hvid]
    exact (h.snap _ _ _ hsnap).imp fun _ _ hgone => Or.inr hgone

/-- The state for which the node has synchronised is that of the view it opens. -/
theorem Carry.openView (h : Carry V s.rep s.book s.ghost s.transferReps s.acked) (hI : Inv V s)
    (heq : (s.rep n).vidInsync = (s.rep n).vidCommit) (hsync : (s.rep n).synchronised)
    (hfree : (s.rep n).invoking = .free) :
    Carry V (Function.update s.rep n (s.rep n).open) s.book s.ghost s.transferReps s.acked := by
  refine h.move rfl (hI.nodes n) (fun hb => absurd hfree hb) rfl ?_ (by simp [Pc.asBackup])
  rintro w (⟨rfl, _⟩ | ⟨_, hw⟩)
  · exact Or.inr ⟨heq.symm, hsync⟩
  · exact hw.elim

variable [DecidableEq R]

theorem Carry.step (h : Carry V s.rep s.book s.ghost s.transferReps s.acked) (hI : Inv V s)
    (hser : Serial s a) (hord : Orderly s a) (hsucc : Succession V s a)
    (hst : Rsm.step V s a = some t) :
    Carry V t.rep t.book t.ghost t.transferReps t.acked := by
  cases step_move hst with
  | @clientStart n _ _ =>
      exact h.move rfl (hI.nodes n) (fun _ => ⟨rfl, Or.inr (amiprimary_iff.1 hser).2⟩) rfl
        (fun _ hw => hw) (h.backup n)
  | @clientSend n _ _ _ hc _ _ =>
      exact h.move rfl (hI.nodes n) (fun _ => ⟨rfl, Or.inl (by simp [hc])⟩) rfl
        (fun _ hw => hw) (h.backup n)
  | @clientOk n _ _ hc _ _ =>
      exact h.move rfl (hI.nodes n) (fun _ => ⟨rfl, Or.inl (by simp [hc])⟩) rfl
        (fun _ hw => hw) (h.backup n)
  | @clientFail n =>
      exact h.move rfl (hI.nodes n) (fun hne => absurd rfl hne) rfl (fun _ hw => hw) (h.backup n)
  | clientFinish hc htodo =>
      rcases executed_by_all hI.inView hc htodo with ⟨hpos, hall⟩
      exact (h.exec hI.inView (by simp [hc]) (hI.inView.turn_client hc htodo)).ack hpos hall _
  | refuse _ => exact h
  | @invoke m _ hopen _ =>
      exact h.move rfl (hI.nodes m.dst) (fun _ => ⟨rfl, Or.inr hopen⟩) rfl (fun _ hw => hw)
        (h.backup m.dst)
  | invokeExec hm => exact h.exec hI.inView (by simp [hm]) (hI.inView.turn_handler hm)
  | @commitChange n p vid _ hlt hp =>
      refine Carry.see ?_ n vid
      refine h.commitTo hI (fun hn => hsucc hlt (hp.trans (congrArg some hn)))
        (fun hsync => Or.inr ⟨rfl, ?_⟩) id rfl rfl rfl rfl rfl rfl
      have hne : (s.rep n).vidInsync ≠ vid := (Nat.lt_of_le_of_lt (hI.nodes n).base.insync hlt).ne
      exact hsync.of_commit hne
  | @toJoin n _ =>
      exact h.setPc (hI.nodes n) rfl False.elim (by simp [Pc.asBackup])
  | @toPrim n hpc hmem hprim =>
      refine Carry.setRole ?_ ((hI.nodes n).at hpc).2.2 _
      refine h.recover (hI.nodes n) rfl rfl rfl rfl rfl rfl rfl (fun _ => ?_)
        (by simp [Pc.asBackup])
      refine Or.inl ⟨rfl, Or.inl ⟨fun (h0 : (s.rep n).vidCommit = 0) => ?_, hprim⟩⟩
      rw [h0, V.zero] at hmem
      cases hmem
  | @toBackup n hpc _ hprim =>
      refine Carry.setRole ?_ ((hI.nodes n).at hpc).2.2 _
      exact h.recover (hI.nodes n) rfl rfl rfl rfl rfl rfl rfl False.elim fun _ => hprim
  | @joinOk n p vid _ hlt hp =>
      refine Carry.see ?_ n vid
      exact h.commitTo hI (fun hn => hsucc hlt (hp.trans (congrArg some hn))) False.elim
        (by simp [Pc.asBackup]) rfl rfl rfl rfl rfl rfl
  | @rejoin _ n _ =>
      exact h.setPc (hI.nodes n) rfl False.elim (by simp [Pc.asBackup])
  | @barrier n hpc _ =>
      exact h.setPc (hI.nodes n) rfl (fun _ => by simp [Replica.synchronised, hpc])
        (by simp [Pc.asBackup])
  | @fill n hpc =>
      rcases (hI.nodes n).at hpc with ⟨_, _, hsnap, hfree⟩
      have hsync : (s.rep n).synchronised := by simp [Replica.synchronised, hpc]
      refine Carry.recover (h.setSnap rfl (hI.nodes n) hfree hsync hsnap) (hI.nodes n) rfl rfl rfl
        rfl rfl rfl rfl (fun _ => Or.inr ⟨rfl, hsync⟩) (by simp [Pc.asBackup])
  | @syncFail n _ _ =>
      exact h.recover (hI.nodes n) rfl rfl rfl rfl rfl rfl rfl False.elim (by simp [Pc.asBackup])
  | @openPrim n hpc _ heq =>
      have hsync : (s.rep n).synchronised := by simp [Replica.synchronised, hpc]
      exact Carry.book (h.openView hI heq hsync ((hI.nodes n).at hpc).2.1) rfl rfl
  | @transferStop n m hpc hne =>
      exact h.setPc (hI.nodes n) rfl (fun heq => absurd heq hne)
        fun _ => h.backup n (by rw [hpc]; rfl)
  | @transferSend n m hpc _ =>
      exact h.setPc (hI.nodes n) rfl False.elim fun _ => h.backup n (by rw [hpc]; rfl)
  | @transferreq m hinsync hvid =>
      have hphase := (hI.nodes m.dst).at (hsucc hinsync hvid)
      have hrole := hphase.1.2.1
      rw [← hvid] at hrole
      exact h.replyTransfer hrole
  | stay => exact h
  | transferOk hpc hp hreq => exact h.transferOk hI hpc hp hreq _
  | @transferFail n m hpc =>
      exact h.setPc (hI.nodes n) rfl False.elim fun _ => h.backup n (by rw [hpc]; rfl)
  | @transferdone m _ _ =>
      exact h.move rfl (hI.nodes m.dst) (fun hb => ⟨rfl, Or.inl hb⟩) rfl (fun _ hw => hw)
        (h.backup m.dst)
  | @doneOk n m hpc =>
      exact h.setPc (hI.nodes n) rfl (fun _ => by simp [Replica.synchronised, hpc])
        fun _ => h.backup n (by rw [hpc]; rfl)
  | @doneFail n m hpc =>
      exact h.setPc (hI.nodes n) rfl False.elim fun _ => h.backup n (by rw [hpc]; rfl)
  | @exitFail n _ _ =>
      exact h.recover (hI.nodes n) rfl rfl rfl rfl rfl rfl rfl False.elim (by simp [Pc.asBackup])
  | @openBackup n hpc heq =>
      have hsync : (s.rep n).synchronised := by simp [Replica.synchronised, hpc, heq]
      exact h.openView hI heq hsync (((hI.nodes n).at hpc).2 heq)
  | @wake n _ =>
      exact h.setPc (hI.nodes n) rfl False.elim (by simp [Pc.asBackup])
  | @restart n first _ =>
      refine h.update rfl (hI.nodes n) (fun hne => absurd rfl hne) ?_
        (by simp [Replica.fresh, Pc.asBackup])
      rintro w (⟨rfl, hw⟩ | ⟨_, hw⟩)
      · simp [Replica.fresh] at hw
      · exact hw.elim
  | reboot _ => exact absurd rfl hord

end Steps

/-! ## Runs -/

section Run

variable {V : Views N} {s : State N R} [DecidableEq N]

theorem Init.carry (h : Init V s) : Carry V s.rep s.book s.ghost s.transferReps s.acked := by
  rcases h with ⟨rep, rfl, hrep⟩
  refine ⟨by simp [State.start], by simp [State.start, Ghost.init], fun n w hw => ?_,
    fun n hpc => ?_, by simp [State.start]⟩
  · -- only the bootstrap node is in a view, and no view is before that
    intro v hv hlt
    exfalso
    rcases hrep n with ⟨first, _, hcons⟩
    rcases construct_cases hcons with ⟨_, hr⟩ | ⟨p, _, _, hr⟩ <;>
      simp [State.start, hr, Entitled, Replica.synchronised, Replica.fresh] at hw <;> omega
  · rcases hrep n with ⟨first, _, hcons⟩
    rcases construct_cases hcons with ⟨_, hr⟩ | ⟨p, _, _, hr⟩ <;>
      simp [State.start, hr, Pc.asBackup, Replica.fresh] at hpc

variable [DecidableEq R]

/-- A node that has a later view open has every request that was acknowledged, whether it is
the primary or not. -/
theorem acked_survive
    (h : Reach (Init V) (step V) (fun s a => Serial s a ∧ Orderly s a ∧ Succession V s a) s)
    {v : ℕ} {q : R} {n : N} (hack : (v, q) ∈ s.acked) (hopen : (s.rep n).inviewchange = false)
    (hlater : v < (s.rep n).vidCommit) : q ∈ (s.rep n).state := by
  have hI : ∀ {s : State N R}, Reach (Init V) (step V)
      (fun s a => Serial s a ∧ Orderly s a ∧ Succession V s a) s → Inv V s :=
    fun hs => Inv.reach (fun _ _ ha => ⟨ha.1, ha.2.1⟩) hs
  have hC : Carry V s.rep s.book s.ghost s.transferReps s.acked :=
    h.invariant_with (I := fun s => Carry V s.rep s.book s.ghost s.transferReps s.acked) hI
      (fun _ h₀ => h₀.carry)
      fun _ _ _ hI _ hC ha hst => hC.step hI ha.1 ha.2.1 ha.2.2 hst
  rcases hC.acked v q hack with ⟨hv, hall⟩
  rcases hC.node n _ (Or.inl ⟨rfl, Or.inr hopen⟩) v hv hlater with ⟨y, hy, _, hcov⟩
  exact hcov q (hall y hy)

end Run

/-- Node 2 joins node 1 and is left alone. -/
def handover : Views ℕ where
  view
    | 0 => []
    | 1 => [1]
    | 2 => [1, 2]
    | _ => [2]
  boot := 1
  zero := rfl
  one := rfl

theorem init_handover : Init handover boot := by
  refine ⟨_, rfl, fun n => ⟨1, eq_comm, ?_⟩⟩
  by_cases hn : n = 1
  · subst hn
    decide
  · simp [construct, hn, Ne.symm hn]

/-- A request is acknowledged in view 1, node 2 downloads it for view 2 and is the primary of
view 3. -/
theorem acked_survive_handover :
    ∃ s : State ℕ ℕ, (1, 10) ∈ s.acked ∧ (s.rep 2).primary = 2 ∧ (s.rep 2).inviewchange = false ∧
      (s.rep 2).vidCommit = 3 ∧ 10 ∈ (s.rep 2).state := by
  have hrun : ∃ s : State ℕ ℕ, Reach (Init handover) (step handover)
      (fun s a => Serial s a ∧ Orderly s a ∧ Succession handover s a) s ∧
        (1, 10) ∈ s.acked ∧ (s.rep 2).primary = 2 ∧ (s.rep 2).inviewchange = false ∧
          (s.rep 2).vidCommit = 3 :=
    Reach.exists_of_runFrom
      (openFirst ++ [.clientStart 1 10, .clientFinish 1] ++ joinSecond ++
        [.transferOk 2 ⟨⟨0, 2, 1, ⟨0, 0⟩, 2⟩, ⟨1, 1⟩, some [10]⟩, .transferdone ⟨1, 2, 1, 2⟩,
          .doneOk 2, .exitSync 2, .syncEnd 1, .commitChange 2 3, .wake 2, .top 2, .barrier 2,
          .fill 2, .syncEnd 2])
      init_handover (by decide +kernel)
  rcases hrun with ⟨s, hs, hack, hprim, hopen, hvid⟩
  exact ⟨s, hack, hprim, hopen, hvid, acked_survive hs hack hopen (by omega)⟩

/-- Node 1 acknowledges a request in view 1.  Nodes 2 and 3 join, but node 1 fails before they
have asked it for the state.  View 4 is that of nodes 2 and 3: `set_primary` takes node 2, node 3
downloads its empty state, and the view opens without the request. -/
theorem joined_majority_forgets :
    ∃ s : State ℕ ℕ, Reach (Init growing) (step growing) anyStep s ∧
      (1, 10) ∈ s.acked ∧ (s.rep 2).primary = 2 ∧ (s.rep 2).inviewchange = false ∧
      (s.rep 2).vidCommit = 4 ∧ 10 ∉ (s.rep 2).state :=
  Reach.exists_of_runFrom
    (openFirst ++ [.clientStart 1 10, .clientFinish 1, .commitChange 1 2, .top 2, .joinOk 2 2,
      .commitChange 1 3, .commitChange 2 3, .top 3, .joinOk 3 3, .commitChange 2 4,
      .commitChange 3 4, .top 2, .barrier 2, .fill 2, .top 3, .transferSend 3,
      .transferreq ⟨0, 3, 2, ⟨0, 0⟩, 4⟩, .transferOk 3 ⟨⟨0, 3, 2, ⟨0, 0⟩, 4⟩, ⟨0, 0⟩, none⟩,
      .transferdone ⟨1, 3, 2, 4⟩, .syncEnd 2])
    init_boot (by decide +kernel)

end Rsm
end Yfs

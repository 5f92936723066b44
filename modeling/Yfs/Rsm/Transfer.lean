import Yfs.Rsm.Sync

/-!
# Transfer — the state of a view when it opens

A viewstamp determines the state (`StateAt`), which is why `statetransfer` may keep its own state
when the viewstamps are equal.  The state that a primary offers does not change until the view is
open, and a member that has told the primary that it is done keeps what it has downloaded until
it executes a request of the view (`DoneOk`).  A node that is open, or is still executing a
request of an old view, has the state of the view when it opened and after it the requests that
it has executed (`Live`).
-/

namespace Yfs
namespace Rsm

open Lib

variable {N R : Type}

/-! ## The invariant -/

/-- `st` is the state after the request at `vs`. -/
def StateAt (b : Book N R) (vs : ViewStamp) (st : List R) : Prop :=
  (vs = ⟨0, 0⟩ ∧ st = []) ∨
    ∃ o, b.opened vs.vid = some o ∧ vs.seqno.toNat ≤ (b.log vs.vid).length ∧
      st = o.state ++ (b.log vs.vid).take vs.seqno.toNat

def Live (b : Book N R) (n : N) (r : Replica N R) : Prop :=
  r.inviewchange = false ∨ r.invoking ≠ .free →
    ∀ o, b.opened r.myvs.vid = some o →
      r.state = o.state ++ (b.log r.myvs.vid).take (b.cnt n r.myvs.vid)

/-- The answer is the state of its sender, and the one that was offered if that is a primary. -/
def RepOk (b : Book N R) (g : Ghost N R) (p : TransferRep N R) : Prop :=
  ∃ st, p.state = (if p.req.last ≠ p.last then some st else none) ∧ StateAt b p.last st ∧
    ∃ role, g.role p.req.dst p.req.vid = some role ∧
      (role = .prim → g.snap p.req.dst p.req.vid = some (p.last, st))

/-- What a `transferdonereq` says about its sender `r`, as long as that stays in the view. -/
structure DoneOk (b : Book N R) (g : Ghost N R) (r : Replica N R) (m : DoneMsg N) : Prop where
  quiet : r.vidCommit = m.vid → r.inviewchange = true → r.invoking = .free
  settled : ∃ role, g.role m.dst m.vid = some role ∧
    (role = .prim → ∃ p, g.snap m.dst m.vid = some p)
  same : r.vidCommit = m.vid → b.cnt m.src m.vid = 0 →
    ∀ p, g.snap m.dst m.vid = some p → r.lastMyvs = p.1 ∧ r.state = p.2

structure States (rep : N → Replica N R) (b : Book N R) (g : Ghost N R) (dones : List (DoneMsg N))
    (reps : List (TransferRep N R)) : Prop where
  stamp : ∀ n, StateAt b (rep n).lastMyvs (rep n).state
  live : ∀ n, Live b n (rep n)
  reps : ∀ p ∈ reps, RepOk b g p
  dones : ∀ m ∈ dones, DoneOk b g (rep m.src) m

section Parts

variable {b b' : Book N R} {g g' : Ghost N R}

theorem StateAt.mono (hle : b.Le b') {vs : ViewStamp} {st : List R} (h : StateAt b vs st) :
    StateAt b' vs st := by
  rcases h with h | ⟨o, ho, hlen, hst⟩
  · exact Or.inl h
  · have hlog := hle.log vs.vid
    exact Or.inr ⟨o, hle.opened _ o ho, hlen.trans hlog.length_le, by
      rw [take_of_isPrefix hlog hlen]; exact hst⟩

theorem StateAt.unique (hzero : b.opened 0 = none) {vs : ViewStamp} {st st' : List R}
    (h : StateAt b vs st) (h' : StateAt b vs st') : st = st' := by
  rcases h with ⟨rfl, rfl⟩ | ⟨o, ho, _, rfl⟩
  · rcases h' with ⟨_, rfl⟩ | ⟨o', ho', _⟩
    · rfl
    · rw [hzero] at ho'
      cases ho'
  · rcases h' with ⟨rfl, _⟩ | ⟨o', ho', _, rfl⟩
    · rw [hzero] at ho
      cases ho
    · obtain rfl : o = o' := Option.some.inj (ho.symm.trans ho')
      rfl

theorem RepOk.mono (hb : b.Le b') (hg : g.Le g') {p : TransferRep N R} (h : RepOk b g p) :
    RepOk b' g' p := by
  rcases h with ⟨st, hstate, hat, role, hrole, hprim⟩
  exact ⟨st, hstate, hat.mono hb, role, hg.role _ _ _ hrole,
    fun hp => hg.snap _ _ _ (hprim hp)⟩

/-- An offered state that is new is not one that the sender could have downloaded before. -/
theorem DoneOk.mono (hg : g.Le g')
    (hsnap : ∀ n v, g'.snap n v ≠ none → g'.role n v = some .prim) {r : Replica N R}
    {m : DoneMsg N} (hcnt : b'.cnt m.src m.vid = 0 → b.cnt m.src m.vid = 0)
    (h : DoneOk b g r m) : DoneOk b' g' r m := by
  rcases h.settled with ⟨role, hrole, hprim⟩
  refine ⟨h.quiet, ⟨role, hg.role _ _ _ hrole, fun hp => ?_⟩, fun hvid hc p hp => ?_⟩
  · rcases hprim hp with ⟨p, hp⟩
    exact ⟨p, hg.snap _ _ _ hp⟩
  · have hrole' := hsnap _ _ (Option.ne_none_iff_exists'.2 ⟨p, hp⟩)
    rw [hg.role _ _ _ hrole] at hrole'
    rcases hprim (Option.some.inj hrole') with ⟨p₀, hp₀⟩
    obtain rfl : p₀ = p := Option.some.inj ((hg.snap _ _ _ hp₀).symm.trans hp)
    exact h.same hvid (hcnt hc) p₀ hp₀

/-- The execution of a request of the view by another member. -/
theorem Live.mono (hb : b.Le b') {n : N} {r : Replica N R} (h : Live b n r)
    (hopened : b'.opened r.myvs.vid = b.opened r.myvs.vid)
    (hcnt : b'.cnt n r.myvs.vid = b.cnt n r.myvs.vid)
    (hlen : b.cnt n r.myvs.vid ≤ (b.log r.myvs.vid).length) : Live b' n r := by
  intro hl o ho
  rw [hopened] at ho
  rw [hcnt, take_of_isPrefix (hb.log _) hlen]
  exact h hl o ho

end Parts

namespace States

variable {rep : N → Replica N R} {b : Book N R} {g g' : Ghost N R} {dones : List (DoneMsg N)}
  {reps : List (TransferRep N R)} {n : N} {r : Replica N R}

theorem ghost (h : States rep b g dones reps) (hg : g.Le g')
    (hsnap : ∀ n v, g'.snap n v ≠ none → g'.role n v = some .prim) :
    States rep b g' dones reps where
  stamp := h.stamp
  live := h.live
  reps := fun p hp => (h.reps p hp).mono ⟨fun _ _ => Nat.le_refl _, fun _ => List.prefix_refl _,
    fun _ _ ho => ho⟩ hg
  dones := fun m hm => (h.dones m hm).mono hg hsnap id

theorem sendDone (h : States rep b g dones reps) {m : DoneMsg N} (hm : DoneOk b g (rep m.src) m) :
    States rep b g (m :: dones) reps := by
  refine ⟨h.stamp, h.live, h.reps, fun d hd => ?_⟩
  rcases List.mem_cons.1 hd with rfl | hd
  · exact hm
  · exact h.dones d hd

theorem replyTransfer (h : States rep b g dones reps) {p : TransferRep N R} (hp : RepOk b g p) :
    States rep b g dones (p :: reps) := by
  refine ⟨h.stamp, h.live, fun d hd => ?_, h.dones⟩
  rcases List.mem_cons.1 hd with rfl | hd
  · exact hp
  · exact h.reps d hd

variable [DecidableEq N]

theorem update (h : States rep b g dones reps) (hat : StateAt b r.lastMyvs r.state)
    (hlive : Live b n r) (hdone : ∀ m ∈ dones, m.src = n → DoneOk b g r m) :
    States (Function.update rep n r) b g dones reps where
  stamp := (Function.forall_update_iff _
      (fun _ (r : Replica N R) => StateAt b r.lastMyvs r.state)).2
    ⟨hat, fun x _ => h.stamp x⟩
  live := (Function.forall_update_iff _ (fun x r => Live b x r)).2 ⟨hlive, fun x _ => h.live x⟩
  reps := h.reps
  dones := by
    intro m hm
    by_cases hsrc : m.src = n
    · rw [hsrc, Function.update_self]
      exact hdone m hm hsrc
    · rw [Function.update_of_ne hsrc]
      exact h.dones m hm

/-- `n` enters a view that it has not synchronised for, or is restarted. -/
theorem leaveView (h : States rep b g dones reps) (hat : StateAt b r.lastMyvs r.state)
    (hlive : Live b n r) (hdone : ∀ m ∈ dones, m.src = n → r.vidCommit ≠ m.vid) :
    States (Function.update rep n r) b g dones reps := by
  refine h.update hat hlive fun m hm hsrc => ?_
  have hne := hdone m hm hsrc
  exact ⟨fun hv => absurd hv hne, (h.dones m hm).settled, fun hv => absurd hv hne⟩

variable [DecidableEq R]

/-- `n` keeps its state and its view, and does not become busy in a view change. -/
theorem move (h : States rep b g dones reps) (hlast : r.lastMyvs = (rep n).lastMyvs)
    (hstate : r.state = (rep n).state) (hvs : r.myvs = (rep n).myvs)
    (hvid : r.vidCommit = (rep n).vidCommit) (hview : r.inviewchange = (rep n).inviewchange)
    (hbusy : r.invoking ≠ .free → (rep n).inviewchange = false ∨ (rep n).invoking ≠ .free) :
    States (Function.update rep n r) b g dones reps := by
  refine h.update ?_ ?_ fun m hm hsrc => ?_
  · rw [hlast, hstate]
    exact h.stamp n
  · intro hl
    rw [hvs, hstate]
    refine h.live n ?_
    rcases hl with hopen | hinv
    · exact Or.inl (hview ▸ hopen)
    · exact hbusy hinv
  · have hok := h.dones m hm
    rw [hsrc] at hok
    refine ⟨fun hv hchg => ?_, hok.settled, fun hv hc p hp => ?_⟩
    · by_contra hinv
      have hfree := hok.quiet (hvid ▸ hv) (hview ▸ hchg)
      rcases hbusy hinv with hopen | hinv'
      · rw [← hview, hchg] at hopen
        cases hopen
      · exact hinv' hfree
    · rw [hlast, hstate]
      exact hok.same (hvid ▸ hv) hc p hp

end States

/-! ## Executing a request -/

section Exec

variable {V : Views N} {s : State N R} {n : N} {q : R} [DecidableEq N]

/-- The state after the execution, at the viewstamp of the request. -/
theorem state_execute (hI : InView V s) (hlive : Live s.book n (s.rep n))
    (hbusy : (s.rep n).invoking ≠ .free) (ht : Turn V s.book n (s.rep n).myvs.vid q) :
    ∃ o, s.book.opened (s.rep n).myvs.vid = some o ∧
      (s.rep n).state ++ [q] = o.state ++
        ((s.exec n q).book.log (s.rep n).myvs.vid).take (s.book.cnt n (s.rep n).myvs.vid + 1) := by
  have hfollows := hI.book.follows ht
  rcases ht with ⟨o, ho, _⟩
  refine ⟨o, ho, ?_⟩
  calc
    (s.rep n).state ++ [q]
        = o.state ++ (s.book.log _).take (s.book.cnt n (s.rep n).myvs.vid) ++ [q] := by
          rw [← hlive (Or.inr hbusy) o ho]
    _ = o.state ++
          (grow (s.book.log _) (s.book.cnt n (s.rep n).myvs.vid) q).take
            (s.book.cnt n (s.rep n).myvs.vid + 1) := by
          rw [take_grow_succ hfollows, List.append_assoc]
    _ = _ := by simp

theorem States.exec (h : States s.rep s.book s.ghost s.dones s.transferReps) (hI : InView V s)
    (hN : Nodes V s) (hbusy : (s.rep n).invoking ≠ .free)
    (ht : Turn V s.book n (s.rep n).myvs.vid q) :
    States (s.exec n q).rep (s.exec n q).book s.ghost s.dones s.transferReps := by
  have hle := s.book.le_exec n (s.rep n).myvs.vid q
  rcases state_execute hI (h.live n) hbusy ht with ⟨o, ho, hstate⟩
  have hseq := (hI.node n).seq
  have hlen := (hI.book.exec ht).le n (s.rep n).myvs.vid
  rw [Book.exec_cnt, set2_self] at hlen
  have hcnt : ∀ x, x ≠ n → ∀ v, (s.exec n q).book.cnt x v = s.book.cnt x v :=
    fun x hx v => congrFun (set2_of_node_ne _ hx _ _) v
  refine ⟨?_, ?_, ?_, fun m hm => ?_⟩
  · refine (Function.forall_update_iff _
      (fun _ (r : Replica N R) => StateAt (s.exec n q).book r.lastMyvs r.state)).2
      ⟨Or.inr ⟨o, ho, ?_, ?_⟩, fun x _ => (h.stamp x).mono hle⟩
    · rw [Replica.execute_lastMyvs, hseq]
      exact hlen
    · rw [Replica.execute_lastMyvs, hseq]
      exact hstate
  · refine (Function.forall_update_iff _ (fun x r => Live (s.exec n q).book x r)).2
      ⟨?_, fun x hx => (h.live x).mono hle rfl (hcnt x hx _) (hI.book.le x _)⟩
    intro _ o' ho'
    obtain rfl : o = o' := Option.some.inj (ho.symm.trans ho')
    simpa using hstate
  · exact fun p hp => (h.reps p hp).mono hle ⟨fun _ _ _ hr => hr, fun _ _ _ hp => hp⟩
  · have hok := h.dones m hm
    by_cases hsrc : m.src = n
    · rw [hsrc] at hok
      -- the sender is open in the view of the message: it executes a request of it
      refine ⟨fun _ _ => ?_, hok.settled, fun hv hc => ?_⟩
      · simp [hsrc]
      · have hv' : (s.rep n).vidCommit = m.vid := by simpa [hsrc] using hv
        have hopen : (s.rep n).inviewchange = false := by
          by_contra hchg
          exact hbusy (hok.quiet hv' (by simpa using hchg))
        have hvs := (hN n).base.opened hopen
        rw [hsrc, ← hv', ← hvs.1] at hc
        simp at hc
    · have hrep : (s.exec n q).rep m.src = s.rep m.src := Function.update_of_ne hsrc _ _
      rw [hrep]
      exact ⟨hok.quiet, hok.settled, fun hv hc => hok.same hv (hcnt _ hsrc _ ▸ hc)⟩

end Exec

/-! ## Downloading the state -/

section Install

variable {V : Views N} {s : State N R} {n : N}

/-- After `statetransfer` the node has the state of the answer, whether it came with it or
not. -/
theorem install_state {b : Book N R} {r : Replica N R} (hzero : b.opened 0 = none)
    (hat : StateAt b r.lastMyvs r.state) {p : TransferRep N R} {st : List R}
    (hlast : p.req.last = r.lastMyvs)
    (hstate : p.state = if p.req.last ≠ p.last then some st else none)
    (hst : StateAt b p.last st) : (r.install p).state = st := by
  by_cases heq : r.lastMyvs = p.last
  · rw [heq] at hat
    simpa [heq] using hat.unique hzero hst
  · simp [heq, hstate, hlast]

/-- The state that a node answers with. -/
theorem States.transferRes (h : States s.rep s.book s.ghost s.dones s.transferReps)
    (hN : Nodes V s) {m : TransferMsg N} (hinsync : (s.rep m.dst).insync = true)
    (hvid : m.vid = (s.rep m.dst).vidInsync) :
    RepOk s.book s.ghost (transferRes (s.rep m.dst) m) := by
  refine ⟨(s.rep m.dst).state, rfl, h.stamp m.dst, ?_⟩
  have hoffer := (hN m.dst).phase.offer hinsync
  rw [← hvid] at hoffer
  exact hoffer

variable [DecidableEq N]

theorem States.transferOk (h : States s.rep s.book s.ghost s.dones s.transferReps)
    (hzero : s.book.opened 0 = none) (hN : Nodes V s)
    (hH : Handshake V s.rep s.book.opened s.ghost s.dones) {m : TransferMsg N}
    {p : TransferRep N R} (hpc : (s.rep n).pc = .transferWait m) (hp : p ∈ s.transferReps)
    (hreq : p.req = m) :
    States
      (Function.update s.rep n (((s.rep n).install p).setPc (.doneWait (doneMsg s n m.dst))))
      s.book s.ghost (doneMsg s n m.dst :: s.dones) s.transferReps := by
  rcases (hN n).at hpc with ⟨⟨hview, hrole, _, _⟩, hfree, hsrc, hvid, hlast⟩
  rcases h.reps p hp with ⟨st, hstate, hst, role, hdst, hprim⟩
  rw [hreq] at hdst hprim
  have hinstall : ((s.rep n).install p).state = st :=
    install_state hzero (h.stamp n) (by rw [hreq]; exact hlast) hstate hst
  have hrole' : s.ghost.role n (s.rep n).vidInsync = some (.backup m.dst) := hrole
  -- a message of `n` for its view goes to the node it has downloaded from
  have hdone : ∀ d : DoneMsg N, d.src = n → s.ghost.role d.src d.vid = some (.backup d.dst) →
      (∃ ro, s.ghost.role d.dst d.vid = some ro ∧
        (ro = .prim → ∃ p, s.ghost.snap d.dst d.vid = some p)) →
      DoneOk s.book s.ghost (((s.rep n).install p).setPc (.doneWait (doneMsg s n m.dst))) d := by
    intro d hd hback hset
    refine ⟨fun _ _ => hfree, hset, fun hv _ p' hp' => ?_⟩
    have hv' : (s.rep n).vidCommit = d.vid := hv
    have hins : (s.rep n).vidInsync = d.vid := by
      by_contra hne
      have hnone : s.ghost.role n (s.rep n).vidCommit = none :=
        (hN n).base.unsynced (hv' ▸ hne)
      rw [hd, ← hv', hnone] at hback
      cases hback
    have hto : m.dst = d.dst := by
      rw [hd, ← hins, hrole'] at hback
      simpa using hback
    have hrole_dst : s.ghost.role m.dst m.vid = some .prim := by
      rw [hto, hvid, hins]
      exact (hN d.dst).base.snap _ (Option.ne_none_iff_exists'.2 ⟨p', hp'⟩)
    have hoffer := hprim (Option.some.inj (hdst.symm.trans hrole_dst))
    rw [hto, hvid, hins, hp'] at hoffer
    cases hoffer
    exact ⟨rfl, hinstall⟩
  refine States.sendDone (h.update ?_ ?_ fun d hd hd' => ?_) ?_
  · change StateAt s.book p.last ((s.rep n).install p).state
    rw [hinstall]
    exact hst
  · rintro (hopen | hbusy)
    · rw [show (((s.rep n).install p).setPc (.doneWait (doneMsg s n m.dst))).inviewchange
        = (s.rep n).inviewchange from rfl, hview] at hopen
      cases hopen
    · exact absurd hfree hbusy
  · exact hdone d hd' (hH.done d hd) (h.dones d hd).settled
  · rw [show (doneMsg s n m.dst).src = n from rfl, Function.update_self]
    rw [hvid] at hdst hprim
    exact hdone _ rfl hrole ⟨role, hdst, fun hr => ⟨_, hprim hr⟩⟩

end Install

/-! ## Opening a view -/

section Open

variable {V : Views N} {s : State N R} {n : N} [DecidableEq N]

/-- A busy node works on a request of a view that is open. -/
theorem InView.opened_of_busy (hI : InView V s) {x : N} (hbusy : (s.rep x).invoking ≠ .free) :
    s.book.opened (s.rep x).myvs.vid ≠ none := by
  cases hinv : (s.rep x).invoking with
  | free => exact absurd hinv hbusy
  | client c =>
      rcases ((hI.node x).call c hinv).opener with ⟨o, ho, _⟩
      simp [ho]
  | handler m =>
      rcases (hI.node x).handler m hinv with ⟨hmsg, _, hvs⟩
      rcases hmsg.opener with ⟨o, ho, _⟩
      simp [← hvs, ho]

/-- A member that has told the primary of its view keeps the state that was offered, as long as
the view is not open. -/
theorem States.same_of_waiting (h : States s.rep s.book s.ghost s.dones s.transferReps)
    (hI : InView V s) (hN : Nodes V s) (hH : Handshake V s.rep s.book.opened s.ghost s.dones)
    (hpc : (s.rep n).pc = .waitBackups) (hback : (s.rep n).backups = [])
    (heq : (s.rep n).vidInsync = (s.rep n).vidCommit) {x : N}
    (hx : x ∈ V.view (s.rep n).vidCommit) (hvid : (s.rep x).vidCommit = (s.rep n).vidCommit) :
    (s.rep x).lastMyvs = (s.rep n).lastMyvs ∧ (s.rep x).state = (s.rep n).state := by
  by_cases hne : x = n
  · rw [hne]
    exact ⟨rfl, rfl⟩
  rcases hH.waiting n hpc heq x hx hne with hin | ⟨m, hm, hsrc, hdst, hmvid⟩
  · rw [hback] at hin
    cases hin
  · have hok := h.dones m hm
    rcases (hN n).at hpc with ⟨_, _, hsnap⟩
    have hcnt := (hI.book.unopened _ (hH.opened_eq_none hN hpc heq)).2 x
    rw [heq] at hsnap
    rw [← hsrc, ← hmvid] at hcnt
    rw [← hsrc] at hvid ⊢
    exact hok.same (hvid.trans hmvid.symm) hcnt _ (by rw [hdst, hmvid]; exact hsnap)

theorem States.openPrim (h : States s.rep s.book s.ghost s.dones s.transferReps)
    (hI : InView V s) (hN : Nodes V s) (hH : Handshake V s.rep s.book.opened s.ghost s.dones)
    (hpc : (s.rep n).pc = .waitBackups) (hback : (s.rep n).backups = [])
    (heq : (s.rep n).vidInsync = (s.rep n).vidCommit) :
    States (Function.update s.rep n (s.rep n).open)
      (s.book.setOpened (s.rep n).vidCommit (openedBy n (s.rep n))) s.ghost s.dones
      s.transferReps := by
  have hnone := hH.opened_eq_none hN hpc heq
  have hempty := hI.book.unopened _ hnone
  have hle := s.book.le_setOpened (openedBy n (s.rep n)) hnone
  refine ⟨?_, ?_, ?_, fun m hm => ?_⟩
  · exact (Function.forall_update_iff _ (fun _ (r : Replica N R) => StateAt _ r.lastMyvs r.state)).2
      ⟨(h.stamp n).mono hle, fun x _ => (h.stamp x).mono hle⟩
  · refine (Function.forall_update_iff _ (fun x r => Live _ x r)).2 ⟨?_, fun x _ => ?_⟩
    · intro _ o ho
      obtain rfl : openedBy n (s.rep n) = o := by simpa using ho
      simp [openedBy, hempty.1]
    · by_cases hv : (s.rep x).myvs.vid = (s.rep n).vidCommit
      · intro hl o ho
        rw [hv] at ho
        obtain rfl : openedBy n (s.rep n) = o := by simpa using ho
        rcases hl with hopen | hbusy
        · -- a backup that has opened the view before its primary
          rcases (hN x).base.opened hopen with ⟨hvs, hmem, _⟩
          have hvid := hvs.symm.trans hv
          rw [hvid] at hmem
          simpa [openedBy, hv, hempty.1] using
            (h.same_of_waiting hI hN hH hpc hback heq hmem hvid).2
        · exact absurd (hv ▸ hnone) (hI.opened_of_busy hbusy)
      · exact (h.live x).mono hle (by simp [hv]) rfl (hI.book.le x _)
  · exact fun p hp => (h.reps p hp).mono hle ⟨fun _ _ _ hr => hr, fun _ _ _ hp => hp⟩
  · have hok := h.dones m hm
    by_cases hsrc : m.src = n
    · rw [hsrc] at hok
      rw [hsrc, Function.update_self]
      exact ⟨fun _ hchg => Bool.noConfusion hchg, hok.settled, hok.same⟩
    · rw [Function.update_of_ne hsrc]
      exact ⟨hok.quiet, hok.settled, hok.same⟩

/-- A backup that opens a view after its primary has the state of the primary. -/
theorem States.openBackup (h : States s.rep s.book s.ghost s.dones s.transferReps)
    (hN : Nodes V s) (hH : Handshake V s.rep s.book.opened s.ghost s.dones)
    (hcnt : s.book.cnt n (s.rep n).vidCommit = 0)
    (hpc : (s.rep n).pc = .exitSync) (heq : (s.rep n).vidInsync = (s.rep n).vidCommit) :
    States (Function.update s.rep n (s.rep n).open) s.book s.ghost s.dones s.transferReps := by
  rcases (hN n).at hpc with ⟨⟨p, _, hrole, hmem, _⟩, _⟩
  rw [heq] at hrole hmem
  refine h.update (h.stamp n) ?_ fun m hm hsrc => ?_
  · intro _ o ho
    have hok := hH.opened _ o ho
    have hne : n ≠ o.primary := by
      intro hn
      have hprim := hok.role
      rw [← hn, Replica.open_myvs_vid] at hprim
      cases hrole.symm.trans hprim
    rcases hok.dones n hmem hne with ⟨m, hm, hsrc, hdst, hvid⟩
    have hdone := h.dones m hm
    have hsame := hdone.same (by rw [hsrc, hvid]; rfl) (by rw [hsrc, hvid]; exact hcnt) _
      (by rw [hdst, hvid]; exact hok.snap)
    rw [hsrc] at hsame
    simpa [hcnt] using hsame.2
  · have hok := h.dones m hm
    rw [hsrc] at hok
    exact ⟨fun _ hchg => Bool.noConfusion hchg, hok.settled, hok.same⟩

end Open

/-! ## Runs -/

variable [DecidableEq N]

/-- The invariant of the replicated state machine. -/
structure Inv (V : Views N) (s : State N R) : Prop where
  nodes : Nodes V s
  handshake : Handshake V s.rep s.book.opened s.ghost s.dones
  inView : InView V s
  states : States s.rep s.book s.ghost s.dones s.transferReps

section Run

variable {V : Views N} {s t : State N R} {a : Action N R}

theorem Init.inv (h : Init V s) : Inv V s := by
  have hN := h.nodes
  rcases h with ⟨rep, rfl, hrep⟩
  have hnode : ∀ n, (rep n).myvs = ⟨0, 1⟩ ∧ (rep n).invoking = .free ∧
      (rep n).inviewchange = true ∧ (rep n).lastMyvs = ⟨0, 0⟩ ∧ (rep n).state = [] ∧
      (rep n).pc = .top := by
    intro n
    rcases hrep n with ⟨first, _, hcons⟩
    rcases construct_cases hcons with ⟨_, hr⟩ | ⟨p, _, _, hr⟩ <;> rw [hr] <;>
      exact ⟨rfl, rfl, rfl, rfl, rfl, rfl⟩
  refine ⟨hN, ⟨by simp [State.start], fun n hpc => ?_, fun v o ho => by cases ho⟩, ?_, ?_⟩
  · exact absurd (hpc.symm.trans (hnode n).2.2.2.2.2) (by simp)
  · refine ⟨⟨rfl, fun _ _ => ⟨rfl, fun _ => rfl⟩, fun _ _ => Nat.le_refl 0,
      fun _ _ _ ho => by cases ho⟩, fun n => ?_, by simp [State.start], by simp [State.start],
      by simp [State.start]⟩
    have hn := hnode n
    refine NodeIn.free hn.2.1 ?_ fun hp => ?_
    · change (rep n).myvs.seqno.toNat = 0 + 1
      rw [hn.1]
      rfl
    · exact absurd (hn.2.2.1.symm.trans (amiprimary_iff.1 hp).2) (by simp)
  · refine ⟨fun n => Or.inl ⟨(hnode n).2.2.2.1, (hnode n).2.2.2.2.1⟩, fun n hl => ?_,
      by simp [State.start], by simp [State.start]⟩
    have hn := hnode n
    rcases hl with hopen | hbusy
    · exact absurd (hn.2.2.1.symm.trans hopen) (by simp)
    · exact absurd hn.2.1 hbusy

variable [DecidableEq R]

theorem Inv.states_step (h : Inv V s) (hNt : Nodes V t) (hser : Serial s a) (hord : Orderly s a)
    (hst : step V s a = some t) : States t.rep t.book t.ghost t.dones t.transferReps := by
  have hS := h.states
  have hleave : ∀ {n : N} {vid : ℕ}, (s.rep n).vidCommit < vid →
      (vid ≤ (s.rep n).vidCommit ∨ s.ghost.seen n < vid) →
      ∀ m ∈ s.dones, m.src = n → vid ≠ m.vid := by
    intro n vid hlt ha m hm hsrc heq
    have hrole := h.handshake.done m hm
    have hnone := (h.nodes n).base.role_eq_none (seen_lt hlt ha)
    rw [hsrc, ← heq] at hrole
    exact Option.some_ne_none _ (hrole.symm.trans hnone)
  cases step_move hst with
  | clientStart _ => exact hS.move rfl rfl rfl rfl rfl fun _ => Or.inl (amiprimary_iff.1 hser).2
  | clientSend hc _ _ | clientOk hc _ _ =>
      exact hS.move rfl rfl rfl rfl rfl fun _ => Or.inr (by simp [hc])
  | clientFail => exact hS.move rfl rfl rfl rfl rfl fun hne => absurd rfl hne
  | clientFinish hc htodo =>
      exact hS.exec h.inView h.nodes (by simp [hc]) (h.inView.turn_client hc htodo)
  | refuse _ => exact hS
  | invoke _ hopen _ => exact hS.move rfl rfl rfl rfl rfl fun _ => Or.inl hopen
  | invokeExec hm => exact hS.exec h.inView h.nodes (by simp [hm]) (h.inView.turn_handler hm)
  | @commitChange n p vid _ hlt _ =>
      refine States.ghost ?_ (le_see s.ghost n vid) fun x v => (hNt x).base.snap v
      exact hS.leaveView (hS.stamp n)
        (fun hl => hS.live n (Or.inr (hl.resolve_left (by simp)))) (hleave hlt hord)
  | toJoin _ => exact hS.move rfl rfl rfl rfl rfl Or.inr
  | @toPrim n hpc _ _ =>
      refine States.ghost ?_ (le_setRole ((h.nodes n).at hpc).2.2 _) fun x v => (hNt x).base.snap v
      exact hS.move rfl rfl rfl rfl rfl Or.inr
  | @toBackup n hpc _ _ =>
      refine States.ghost ?_ (le_setRole ((h.nodes n).at hpc).2.2 _) fun x v => (hNt x).base.snap v
      exact hS.move rfl rfl rfl rfl rfl Or.inr
  | @joinOk n p vid _ hlt _ =>
      refine States.ghost ?_ (le_see s.ghost n vid) fun x v => (hNt x).base.snap v
      exact hS.leaveView (hS.stamp n)
        (fun hl => hS.live n (Or.inr (hl.resolve_left (by simp)))) (hleave hlt hord)
  | rejoin _ | barrier _ _ => exact hS.move rfl rfl rfl rfl rfl Or.inr
  | @fill n hpc =>
      refine States.ghost ?_ (le_setSnap ((h.nodes n).at hpc).2.2.1 _ _)
        fun x v => (hNt x).base.snap v
      exact hS.move rfl rfl rfl rfl rfl Or.inr
  | syncFail _ _ => exact hS.move rfl rfl rfl rfl rfl Or.inr
  | openPrim hpc hback heq => exact hS.openPrim h.inView h.nodes h.handshake hpc hback heq
  | transferStop _ _ | transferSend _ _ => exact hS.move rfl rfl rfl rfl rfl Or.inr
  | transferreq hinsync hvid => exact hS.replyTransfer (hS.transferRes h.nodes hinsync hvid)
  | stay => exact hS
  | transferOk hpc hp hreq =>
      exact hS.transferOk h.inView.book.zero h.nodes h.handshake hpc hp hreq
  | transferFail _ | transferdone _ _ | doneOk _ | doneFail _ | exitFail _ _ =>
      exact hS.move rfl rfl rfl rfl rfl Or.inr
  | openBackup hpc heq =>
      have hcnt := (h.handshake.opens h.nodes hst heq).2.1
      exact hS.openBackup h.nodes h.handshake hcnt hpc heq
  | wake _ => exact hS.move rfl rfl rfl rfl rfl Or.inr
  | @restart n first _ =>
      refine hS.leaveView (Or.inl ⟨rfl, rfl⟩) (fun hl => ?_) fun m hm hsrc heq => ?_
      · simp [Replica.fresh] at hl
      · have hrole := h.handshake.done m hm
        exact ((h.nodes m.src).base.role m.vid (Option.ne_none_iff_exists'.2 ⟨_, hrole⟩)).1 heq.symm
  | reboot _ => exact absurd rfl hord

theorem Inv.step (h : Inv V s) (hser : Serial s a) (hord : Orderly s a)
    (hst : Rsm.step V s a = some t) : Inv V t := by
  have hNt := h.nodes.step hser hord hst
  exact ⟨hNt, h.handshake.step h.nodes hord hst,
    h.inView.step hser (h.handshake.opens h.nodes hst) hst, h.states_step hNt hser hord hst⟩

/-- Along a run with serial requests and orderly steps the invariant holds. -/
theorem Inv.reach {ok : State N R → Action N R → Prop}
    (hok : ∀ s a, ok s a → Serial s a ∧ Orderly s a) (h : Reach (Init V) (Rsm.step V) ok s) :
    Inv V s :=
  h.invariant (fun _ h₀ => h₀.inv) fun s a _ hI ha hst => hI.step (hok s a ha).1 (hok s a ha).2 hst

end Run

/-! ## The moment a view opens -/

/-- When a primary opens its view, all members are in it. -/
def Together (V : Views N) (s : State N R) : Action N R → Prop
  | .syncEnd n => (s.rep n).vidInsync = (s.rep n).vidCommit →
      ∀ x ∈ V.view (s.rep n).vidCommit, (s.rep x).vidCommit = (s.rep n).vidCommit
  | _ => True

section

variable [DecidableEq R]

instance (V : Views N) (s : State N R) : DecidablePred (Together V s)
  | .syncEnd n => inferInstanceAs (Decidable ((s.rep n).vidInsync = (s.rep n).vidCommit →
      ∀ x ∈ V.view (s.rep n).vidCommit, (s.rep x).vidCommit = (s.rep n).vidCommit))
  | .clientStart _ _ | .clientSend _ | .clientOk _ | .clientFail _ | .clientFinish _ | .invoke _
  | .invokeExec _ | .commitChange _ _ | .top _ | .joinOk _ _ | .joinFail _ | .barrier _ | .fill _
  | .transferSend _ | .transferreq _ | .transferOk _ _ | .transferFail _ | .transferdone _
  | .doneOk _ | .doneFail _ | .exitSync _ | .wake _ | .restart _ _ => isTrue trivial

end

section Moment

variable {V : Views N} {s t : State N R} {a : Action N R} {n : N}

theorem inviewchange_update {rep : N → Replica N R} {m : N} {r : Replica N R}
    (hr : (rep m).inviewchange = true → r.inviewchange = true)
    (h : (rep n).inviewchange = true) : (Function.update rep m r n).inviewchange = true := by
  by_cases hn : n = m
  · subst hn
    rw [Function.update_self]
    exact hr h
  · rw [Function.update_of_ne hn]
    exact h

variable [DecidableEq R]

/-- A view is opened by the end of a synchronisation only. -/
theorem opened_by (hst : step V s a = some t) (hchg : (s.rep n).inviewchange = true) :
    (t.rep n).inviewchange = true ∨
      (s.rep n).vidInsync = (s.rep n).vidCommit ∧
        ((a = .syncEnd n ∧ (s.rep n).pc = .waitBackups ∧ (s.rep n).backups = []) ∨
          (s.rep n).pc = .exitSync) ∧ t.rep = Function.update s.rep n (s.rep n).open := by
  cases step_move hst with
  | clientStart _ | clientSend _ _ _ | clientOk _ _ _ | clientFail | clientFinish _ _ =>
      exact Or.inl (inviewchange_update id hchg)
  | refuse _ => exact Or.inl hchg
  | invoke _ _ _ | invokeExec _ => exact Or.inl (inviewchange_update id hchg)
  | commitChange _ _ _ => exact Or.inl (inviewchange_update (fun _ => rfl) hchg)
  | toJoin _ | toPrim _ _ _ | toBackup _ _ _ => exact Or.inl (inviewchange_update id hchg)
  | joinOk _ _ _ => exact Or.inl (inviewchange_update (fun _ => rfl) hchg)
  | rejoin _ | barrier _ _ | fill _ | syncFail _ _ => exact Or.inl (inviewchange_update id hchg)
  | @openPrim m hpc hback heq =>
      by_cases hm : n = m
      · subst hm
        exact Or.inr ⟨heq, Or.inl ⟨rfl, hpc, hback⟩, rfl⟩
      · exact Or.inl (by simpa [hm] using hchg)
  | transferStop _ _ | transferSend _ _ => exact Or.inl (inviewchange_update id hchg)
  | transferreq _ _ | stay => exact Or.inl hchg
  | transferOk _ _ _ | transferFail _ | transferdone _ _ | doneOk _ | doneFail _ | exitFail _ _ =>
      exact Or.inl (inviewchange_update id hchg)
  | @openBackup m hpc heq =>
      by_cases hm : n = m
      · subst hm
        exact Or.inr ⟨heq, Or.inr hpc, rfl⟩
      · exact Or.inl (by simpa [hm] using hchg)
  | wake _ => exact Or.inl (inviewchange_update id hchg)
  | restart _ | reboot _ => exact Or.inl (inviewchange_update (fun _ => rfl) hchg)

theorem state_equal_when_view_opens
    (h : Reach (Init V) (step V) (fun s a => Serial s a ∧ Orderly s a ∧ Together V s a) s)
    (ha : Serial s a ∧ Orderly s a ∧ Together V s a) (hst : step V s a = some t)
    (hchg : (s.rep n).inviewchange = true) (hopen : (t.rep n).inviewchange = false)
    (hprim : (t.rep n).primary = n) :
    ∀ x ∈ V.view (t.rep n).vidCommit,
      (t.rep x).lastMyvs = (t.rep n).lastMyvs ∧ (t.rep x).state = (t.rep n).state := by
  have hI : Inv V s := Inv.reach (fun _ _ ha => ⟨ha.1, ha.2.1⟩) h
  intro x hx
  rcases opened_by hst hchg with hstill | ⟨heq, hhow, hrep⟩
  · exact absurd (hstill.symm.trans hopen) (by simp)
  rw [hrep, Function.update_self] at hx hprim
  -- opening a view changes neither `last_myvs` nor the state
  have hkeep : ∀ y, (t.rep y).lastMyvs = (s.rep y).lastMyvs ∧
      (t.rep y).state = (s.rep y).state := by
    rw [hrep]
    exact (Function.forall_update_iff _ (fun y (r : Replica N R) =>
      r.lastMyvs = (s.rep y).lastMyvs ∧ r.state = (s.rep y).state)).2
      ⟨⟨rfl, rfl⟩, fun _ _ => ⟨rfl, rfl⟩⟩
  rw [(hkeep x).1, (hkeep x).2, (hkeep n).1, (hkeep n).2]
  rcases hhow with ⟨rfl, hpc, hback⟩ | hpc
  · exact hI.states.same_of_waiting hI.inView hI.nodes hI.handshake hpc hback heq hx
      (ha.2.2 heq x hx)
  · rcases (hI.nodes n).at hpc with ⟨⟨m, _, _, _, hne⟩, _⟩
    exact absurd hprim (hne heq)

end Moment

/-- Node 1 opens view 1. -/
def openFirst : List (Action ℕ ℕ) :=
  [.top 1, .barrier 1, .fill 1, .syncEnd 1]

/-- Node 1 commits view 2, and node 2 joins and asks it for the state. -/
def joinSecond : List (Action ℕ ℕ) :=
  [.commitChange 1 2, .wake 1, .top 1, .barrier 1, .fill 1, .top 2, .joinOk 2 2, .top 2,
    .transferSend 2, .transferreq ⟨0, 2, 1, ⟨0, 0⟩, 2⟩]

/-- View 2 opens with the request of view 1 at both members. -/
theorem state_equal_when_second_view_opens :
    ∃ s t : State ℕ ℕ, step growing s (.syncEnd 1) = some t ∧ (s.rep 1).inviewchange = true ∧
      (t.rep 1).inviewchange = false ∧ (t.rep 1).state = [10] ∧ (t.rep 2).state = [10] := by
  have hrun : ∃ s : State ℕ ℕ, Reach (Init growing) (step growing)
      (fun s a => Serial s a ∧ Orderly s a ∧ Together growing s a) s ∧
        (Serial s (.syncEnd 1) ∧ Orderly s (.syncEnd 1) ∧ Together growing s (.syncEnd 1)) ∧
        (s.rep 1).inviewchange = true ∧
        ∃ t ∈ step growing s (.syncEnd 1), (t.rep 1).inviewchange = false ∧
          (t.rep 1).primary = 1 ∧ 2 ∈ growing.view (t.rep 1).vidCommit ∧
          (t.rep 1).state = [10] :=
    Reach.exists_of_runFrom
      (openFirst ++ [.clientStart 1 10, .clientFinish 1] ++ joinSecond ++
        [.transferOk 2 ⟨⟨0, 2, 1, ⟨0, 0⟩, 2⟩, ⟨1, 1⟩, some [10]⟩, .transferdone ⟨1, 2, 1, 2⟩])
      init_boot (by decide +kernel)
  rcases hrun with ⟨s, hs, ha, hchg, t, hst, hopen, hprim, hmem, hstate⟩
  have hsame := state_equal_when_view_opens hs ha hst hchg hopen hprim 2 hmem
  exact ⟨s, t, hst, hchg, hopen, hstate, hsame.2.trans hstate⟩

/-- Node 2 has downloaded the state for view 2 when a `client_invoke` arrives at node 1.  It
sees `inviewchange`, but goes on with the members of view 1, which is node 1 alone, and executes
the request.  Then view 2 opens, and node 2 does not have it. -/
theorem request_during_view_change :
    ∃ s t : State ℕ ℕ, Reach (Init growing) (step growing) anyStep s ∧
      step growing s (.syncEnd 1) = some t ∧ (s.rep 1).inviewchange = true ∧
      (t.rep 1).inviewchange = false ∧ (t.rep 1).primary = 1 ∧
      2 ∈ growing.view (t.rep 1).vidCommit ∧
      (t.rep 2).lastMyvs ≠ (t.rep 1).lastMyvs ∧ (t.rep 2).state ≠ (t.rep 1).state := by
  have hrun : ∃ s : State ℕ ℕ, Reach (Init growing) (step growing) anyStep s ∧
      ∃ t ∈ step growing s (.syncEnd 1), (s.rep 1).inviewchange = true ∧
        (t.rep 1).inviewchange = false ∧ (t.rep 1).primary = 1 ∧
        2 ∈ growing.view (t.rep 1).vidCommit ∧
        (t.rep 2).lastMyvs ≠ (t.rep 1).lastMyvs ∧ (t.rep 2).state ≠ (t.rep 1).state :=
    Reach.exists_of_runFrom
      (openFirst ++ joinSecond ++
        [.transferOk 2 ⟨⟨0, 2, 1, ⟨0, 0⟩, 2⟩, ⟨0, 0⟩, none⟩, .clientStart 1 10, .clientFinish 1,
          .transferdone ⟨1, 2, 1, 2⟩])
      init_boot (by decide +kernel)
  rcases hrun with ⟨s, hs, t, hst, h⟩
  exact ⟨s, t, hs, hst, h⟩

end Rsm
end Yfs

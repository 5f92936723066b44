import Yfs.Rsm.Node

/-!
# Sync — one primary opens a view

`Handshake` follows the messages of `statetransferdone`: a primary opens its view only after
every other member has sent it one, and a member sends them to one node only.  So a view is
opened once, which is what replication inside the view needs (`Handshake.opens`).
-/

namespace Yfs
namespace Rsm

open Lib

variable {N R : Type}

/-! ## The handshake -/

/-- `x` has told `p` that it is synchronised for view `v`. -/
def SentDone (dones : List (DoneMsg N)) (x p : N) (v : ℕ) : Prop :=
  ∃ m ∈ dones, m.src = x ∧ m.dst = p ∧ m.vid = v

structure OpenOk (V : Views N) (rep : N → Replica N R) (g : Ghost N R) (dones : List (DoneMsg N))
    (v : ℕ) (o : Opened N R) : Prop where
  role : g.role o.primary v = some .prim
  mem : o.primary ∈ V.view v
  live : (rep o.primary).vidCommit = v → (rep o.primary).inviewchange = false
  snap : g.snap o.primary v = some (o.last, o.state)
  dones : ∀ x ∈ V.view v, x ≠ o.primary → SentDone dones x o.primary v

/-- A primary waits for the members that have not told it yet. -/
def Waiting (V : Views N) (dones : List (DoneMsg N)) (n : N) (r : Replica N R) : Prop :=
  r.pc = .waitBackups → r.vidInsync = r.vidCommit →
    ∀ x ∈ V.view r.vidCommit, x ≠ n → x ∈ r.backups ∨ SentDone dones x n r.vidCommit

structure Handshake (V : Views N) (rep : N → Replica N R) (opened : ℕ → Option (Opened N R))
    (g : Ghost N R) (dones : List (DoneMsg N)) : Prop where
  done : ∀ m ∈ dones, g.role m.src m.vid = some (.backup m.dst)
  waiting : ∀ n, Waiting V dones n (rep n)
  opened : ∀ v o, opened v = some o → OpenOk V rep g dones v o

/-- Roles and offered states are never taken back. -/
structure Ghost.Le (g g' : Ghost N R) : Prop where
  role : ∀ n v ro, g.role n v = some ro → g'.role n v = some ro
  snap : ∀ n v p, g.snap n v = some p → g'.snap n v = some p

section Write

variable {g : Ghost N R} {n : N} {v : ℕ} [DecidableEq N]

theorem le_see (g : Ghost N R) (n : N) (vid : ℕ) : g.Le (g.see n vid) :=
  ⟨fun _ _ _ h => h, fun _ _ _ h => h⟩

theorem set2_of_some {α : Type} {f : N → ℕ → Option α} {a b : α} {x : N} {u : ℕ}
    (hnone : f n v = none) (h : f x u = some b) : set2 f n v (some a) x u = some b := by
  by_cases hx : x = n
  · by_cases hu : u = v
    · rw [hx, hu, hnone] at h
      cases h
    · rw [set2_of_vid_ne f hu]
      exact h
  · rw [set2_of_node_ne f hx]
    exact h

theorem le_setRole (h : g.role n v = none) (role : Role N) : g.Le (g.setRole n v role) :=
  ⟨fun _ _ _ hro => set2_of_some h hro, fun _ _ _ hp => hp⟩

theorem le_setSnap (h : g.snap n v = none) (last : ViewStamp) (state : List R) :
    g.Le (g.setSnap n v last state) :=
  ⟨fun _ _ _ hro => hro, fun _ _ _ hp => set2_of_some h hp⟩

end Write

namespace Handshake

variable {V : Views N} {rep : N → Replica N R} {opened : ℕ → Option (Opened N R)}
  {g g' : Ghost N R} {dones : List (DoneMsg N)} {n : N} {r : Replica N R}

theorem mono (h : Handshake V rep opened g dones) (hle : g.Le g') :
    Handshake V rep opened g' dones where
  done := fun m hm => hle.role _ _ _ (h.done m hm)
  waiting := h.waiting
  opened := by
    intro v o ho
    have hok := h.opened v o ho
    exact ⟨hle.role _ _ _ hok.role, hok.mem, hok.live, hle.snap _ _ _ hok.snap, hok.dones⟩

theorem live (h : Handshake V rep opened g dones) {v : ℕ} {o : Opened N R}
    (ho : opened v = some o) (hn : o.primary = n) (hvid : (rep n).vidCommit = v) :
    (rep n).inviewchange = false := by
  subst hn
  exact (h.opened v o ho).live hvid

theorem sendDone (h : Handshake V rep opened g dones) {m : DoneMsg N}
    (hrole : g.role m.src m.vid = some (.backup m.dst)) :
    Handshake V rep opened g (m :: dones) := by
  have hsent : ∀ {x p v}, SentDone dones x p v → SentDone (m :: dones) x p v := by
    rintro x p v ⟨d, hd, heq⟩
    exact ⟨d, List.mem_cons_of_mem m hd, heq⟩
  refine ⟨fun d hd => ?_, fun x hpc heq y hy hne => ?_, fun v o ho => ?_⟩
  · rcases List.mem_cons.1 hd with rfl | hd
    · exact hrole
    · exact h.done d hd
  · exact (h.waiting x hpc heq y hy hne).imp id hsent
  · have hok := h.opened v o ho
    exact ⟨hok.role, hok.mem, hok.live, hok.snap, fun x hx hne => hsent (hok.dones x hx hne)⟩

variable [DecidableEq N]

/-- The general frame: `n` moves so that what `OpenOk` and `Waiting` say about it stays true. -/
theorem update (h : Handshake V rep opened g dones) (hwait : Waiting V dones n r)
    (hlive : ∀ v o, opened v = some o → o.primary = n → r.vidCommit = v →
      r.inviewchange = false) :
    Handshake V (Function.update rep n r) opened g dones where
  done := h.done
  waiting := (Function.forall_update_iff _ (fun x r => Waiting V dones x r)).2
    ⟨hwait, fun x _ => h.waiting x⟩
  opened := by
    intro v o ho
    have hok := h.opened v o ho
    refine ⟨hok.role, hok.mem, fun hvid => ?_, hok.snap, hok.dones⟩
    by_cases hn : o.primary = n
    · rw [hn, Function.update_self] at hvid ⊢
      exact hlive v o ho hn hvid
    · rw [Function.update_of_ne hn] at hvid ⊢
      exact hok.live hvid

/-- `n` does not wait, and its view and `inviewchange` stay as they are. -/
theorem move (h : Handshake V rep opened g dones) (hpc : r.pc ≠ .waitBackups)
    (hvid : r.vidCommit = (rep n).vidCommit)
    (hview : (rep n).inviewchange = false → r.inviewchange = false) :
    Handshake V (Function.update rep n r) opened g dones :=
  h.update (fun hwait => absurd hwait hpc) fun _ _ ho hn hv => hview (h.live ho hn (hvid ▸ hv))

/-- The recovery thread does not move. -/
theorem request (h : Handshake V rep opened g dones) (hpc : r.pc = (rep n).pc)
    (hvidc : r.vidCommit = (rep n).vidCommit) (hvidi : r.vidInsync = (rep n).vidInsync)
    (hback : r.backups = (rep n).backups) (hview : r.inviewchange = (rep n).inviewchange) :
    Handshake V (Function.update rep n r) opened g dones := by
  refine h.update ?_ fun _ _ ho hn hv => hview.trans (h.live ho hn (hvidc ▸ hv))
  unfold Waiting
  rw [hpc, hvidc, hvidi, hback]
  exact h.waiting n

theorem fill (h : Handshake V rep opened g dones) :
    Handshake V (Function.update rep n ((rep n).fillBackups (slaves V n (rep n).vidInsync)))
      opened g dones := by
  refine h.update ?_ fun _ _ ho hn hv => h.live ho hn hv
  intro _ heq x hx hne
  refine Or.inl (List.mem_filter.2 ⟨?_, by simpa using hne⟩)
  exact heq.symm ▸ hx

theorem eraseBackup (h : Handshake V rep opened g dones) {m : DoneMsg N} (hm : m ∈ dones)
    (hvid : m.vid = (rep m.dst).vidCommit) :
    Handshake V (Function.update rep m.dst ((rep m.dst).eraseBackup m.src)) opened g dones := by
  refine h.update ?_ fun _ _ ho hn hv => h.live ho hn hv
  intro hpc heq x hx hne
  rcases h.waiting m.dst hpc heq x hx hne with hback | hdone
  · by_cases hsrc : x = m.src
    · exact Or.inr ⟨m, hm, hsrc.symm, rfl, hvid⟩
    · exact Or.inl ((List.mem_erase_of_ne hsrc).2 hback)
  · exact Or.inr hdone

/-- A new view, or none after a restart, is not one that `n` has opened. -/
theorem leaveView (h : Handshake V rep opened g dones) (hne : r.vidInsync ≠ r.vidCommit ∨
    r.pc ≠ .waitBackups) (hrole : g.role n r.vidCommit = none) :
    Handshake V (Function.update rep n r) opened g dones := by
  refine h.update (fun hpc heq => ?_) fun v o ho hn hv => ?_
  · rcases hne with hne | hne
    · exact absurd heq hne
    · exact absurd hpc hne
  · have hprim := (h.opened v o ho).role
    rw [hn, ← hv, hrole] at hprim
    cases hprim

/-- The other members have all told the primary: it opens the view. -/
theorem openPrim (h : Handshake V rep opened g dones) (hpc : (rep n).pc = .waitBackups)
    (hback : (rep n).backups = []) (heq : (rep n).vidInsync = (rep n).vidCommit)
    (hrole : g.role n (rep n).vidInsync = some .prim) (hmem : n ∈ V.view (rep n).vidInsync)
    (hsnap : g.snap n (rep n).vidInsync = some ((rep n).lastMyvs, (rep n).state)) :
    Handshake V (Function.update rep n (rep n).open)
      (Function.update opened (rep n).vidCommit (some (openedBy n (rep n)))) g dones := by
  have hmove : Handshake V (Function.update rep n (rep n).open) opened g dones :=
    h.move (by simp) rfl fun _ => rfl
  refine ⟨hmove.done, hmove.waiting, fun v o ho => ?_⟩
  by_cases hv : v = (rep n).vidCommit
  · subst hv
    obtain rfl : openedBy n (rep n) = o := by simpa using ho
    refine ⟨heq ▸ hrole, heq ▸ hmem, fun _ => ?_, heq ▸ hsnap, fun x hx hne => ?_⟩
    · simp [openedBy]
    · rcases h.waiting n hpc heq x hx hne with hin | hdone
      · rw [hback] at hin
        cases hin
      · exact hdone
  · exact hmove.opened v o (by simpa [hv] using ho)

end Handshake

section HandshakeStep

variable {V : Views N} {s t : State N R} [DecidableEq N]

/-- Of the members of a view only one waits as primary. -/
theorem Handshake.opened_eq_none (h : Handshake V s.rep s.book.opened s.ghost s.dones)
    (hN : Nodes V s) {n : N} (hpc : (s.rep n).pc = .waitBackups)
    (heq : (s.rep n).vidInsync = (s.rep n).vidCommit) :
    s.book.opened (s.rep n).vidCommit = none := by
  rcases (hN n).at hpc with ⟨⟨hview, hrole, hmem, _⟩, _, _⟩
  rw [heq] at hrole hmem
  cases ho : s.book.opened (s.rep n).vidCommit with
  | none => rfl
  | some o =>
      exfalso
      have hok := h.opened _ o ho
      by_cases hn : n = o.primary
      · -- it has opened the view itself, and not committed another one since
        have hopen := h.live ho hn.symm rfl
        rw [hview] at hopen
        cases hopen
      · -- it is a backup in this view
        rcases hok.dones n hmem hn with ⟨m, hm, hsrc, _, hvid⟩
        have hback := h.done m hm
        have hrole' : s.ghost.role n (s.rep n).vidCommit = some .prim := hrole
        rw [hsrc, hvid, hrole'] at hback
        cases hback

variable [DecidableEq R]

theorem Handshake.step (h : Handshake V s.rep s.book.opened s.ghost s.dones) (hN : Nodes V s)
    {a : Action N R} (hord : Orderly s a) (hst : step V s a = some t) :
    Handshake V t.rep t.book.opened t.ghost t.dones := by
  cases step_move hst with
  | clientStart _ | clientSend _ _ _ | clientOk _ _ _ | clientFail | clientFinish _ _ =>
      exact h.request rfl rfl rfl rfl rfl
  | refuse _ => exact h
  | invoke _ _ _ | invokeExec _ => exact h.request rfl rfl rfl rfl rfl
  | @commitChange n p vid _ hlt hp =>
      have hnone := (hN n).base.role_eq_none (seen_lt hlt hord)
      have hne : (s.rep n).vidInsync ≠ vid := (Nat.lt_of_le_of_lt (hN n).base.insync hlt).ne
      refine Handshake.mono ?_ (le_see s.ghost n vid)
      exact h.leaveView (Or.inl hne) hnone
  | toJoin _ => exact h.move (by simp) rfl id
  | @toPrim n hpc _ _ =>
      refine Handshake.mono ?_ (le_setRole ((hN n).at hpc).2.2 _)
      exact h.move (by simp) rfl id
  | @toBackup n hpc _ _ =>
      refine Handshake.mono ?_ (le_setRole ((hN n).at hpc).2.2 _)
      exact h.move (by simp) rfl id
  | @joinOk n p vid _ hlt hp =>
      have hnone := (hN n).base.role_eq_none (seen_lt hlt hord)
      refine Handshake.mono ?_ (le_see s.ghost n vid)
      exact h.leaveView (Or.inr (by simp)) hnone
  | rejoin _ | barrier _ _ => exact h.move (by simp) rfl id
  | @fill n hpc => exact h.fill.mono (le_setSnap ((hN n).at hpc).2.2.1 _ _)
  | syncFail _ _ => exact h.move (by simp) rfl id
  | @openPrim n hpc hback heq =>
      rcases (hN n).at hpc with ⟨⟨_, hrole, hmem, _⟩, _, hsnap⟩
      exact h.openPrim hpc hback heq hrole hmem hsnap
  | transferStop _ _ | transferSend _ _ => exact h.move (by simp) rfl id
  | transferreq _ _ | stay => exact h
  | @transferOk n m rep hpc _ _ =>
      have hrole := ((hN n).at hpc).1.2.1
      refine Handshake.sendDone ?_ hrole
      exact h.move (by simp) rfl id
  | transferFail _ => exact h.move (by simp) rfl id
  | transferdone hm hvid => exact h.eraseBackup hm hvid
  | doneOk _ | doneFail _ | exitFail _ _ => exact h.move (by simp) rfl id
  | openBackup _ _ => exact h.move (by simp) rfl fun _ => rfl
  | wake _ => exact h.move (by simp) rfl id
  | @restart n first _ =>
      have hnone : s.ghost.role n 0 = none := by
        by_contra hne
        exact ((hN n).base.role 0 hne).1 rfl
      exact h.leaveView (Or.inr (by simp [Replica.fresh])) hnone
  | reboot _ => exact absurd rfl hord

theorem Handshake.opens (h : Handshake V s.rep s.book.opened s.ghost s.dones) (hN : Nodes V s)
    {a : Action N R} (hst : Rsm.step V s a = some t) : Opens s a := by
  cases a with
  | syncEnd n =>
      rcases Option.ite_none_right_eq_some.1 hst with ⟨⟨hpc, _⟩, _⟩
      intro heq
      rcases (hN n).at hpc with ⟨⟨_, hrole, _, _⟩, hfree, _⟩
      have hpos := ((hN n).base.role _ (Option.ne_none_iff_exists'.2 ⟨_, hrole⟩)).1
      exact ⟨heq ▸ hpos, hfree, h.opened_eq_none hN hpc heq⟩
  | exitSync n =>
      rcases Option.ite_none_right_eq_some.1 hst with ⟨hpc, _⟩
      intro heq
      rcases (hN n).at hpc with ⟨⟨m, hview, _, _, hprim⟩, hfree⟩
      refine ⟨hfree heq, ?_, hprim heq⟩
      by_contra hcnt
      have hopen := ((hN n).base.cnt _ hcnt).2 rfl
      rw [hview] at hopen
      cases hopen
  | _ => exact trivial

end HandshakeStep
end Rsm
end Yfs

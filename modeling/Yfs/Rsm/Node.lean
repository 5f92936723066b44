import Yfs.Rsm.InView

/-!
# Node — the local invariant of a replica

What a node knows about itself while views come and go.  `Base` relates `vid_commit`,
`vid_insync`, `inviewchange` and the viewstamp; `Phase` says what holds at each place of the
recovery thread.  Both read the replica and the node's own row of the ghost state, so a step has
to be checked at one node only (`NodeOk` is one lemma for each kind of step).

The code keeps this invariant only in runs whose steps are `Orderly`.  Nothing in the source
ensures that: `sync_with_primary` does not wait for `invoke_mutex`, `pthread_cond_wait` may
return without a signal, and a node that was restarted can be given views again that it has
already taken part in.
-/

namespace Yfs
namespace Rsm

open Lib

variable {N R : Type}

/-- The steps that the proofs about several views rely on: a node is idle when it asks for the
state, the recovery thread wakes up for a new view only, a restarted node does not bootstrap,
and it enters only views that are later than all it has seen. -/
def Orderly (s : State N R) : Action N R → Prop
  | .transferSend n => (s.rep n).invoking = .free
  | .wake n => (s.rep n).vidInsync ≠ (s.rep n).vidCommit
  | .restart n first => first ≠ n
  | .commitChange n vid => vid ≤ (s.rep n).vidCommit ∨ s.ghost.seen n < vid
  | .joinOk n vid => vid ≤ (s.rep n).vidCommit ∨ s.ghost.seen n < vid
  | _ => True

section

variable [DecidableEq N] [DecidableEq R]

instance (s : State N R) : DecidablePred (Orderly s)
  | .transferSend n => inferInstanceAs (Decidable ((s.rep n).invoking = .free))
  | .wake n => inferInstanceAs (Decidable ((s.rep n).vidInsync ≠ (s.rep n).vidCommit))
  | .restart n first => inferInstanceAs (Decidable (first ≠ n))
  | .commitChange n vid | .joinOk n vid =>
      inferInstanceAs (Decidable (vid ≤ (s.rep n).vidCommit ∨ s.ghost.seen n < vid))
  | .clientStart _ _ | .clientSend _ | .clientOk _ | .clientFail _ | .clientFinish _ | .invoke _
  | .invokeExec _ | .top _ | .joinFail _ | .barrier _ | .fill _ | .syncEnd _ | .transferreq _
  | .transferOk _ _ | .transferFail _ | .transferdone _ | .doneOk _ | .doneFail _
  | .exitSync _ => isTrue trivial

/-- The part of the ghost state about one node. -/
@[ext]
structure Row (N R : Type) where
  role : ℕ → Option (Role N)
  snap : ℕ → Option (ViewStamp × List R)
  seen : ℕ
  cnt : ℕ → ℕ

@[simps -fullyApplied]
def State.row (s : State N R) (n : N) : Row N R where
  role := s.ghost.role n
  snap := s.ghost.snap n
  seen := s.ghost.seen n
  cnt := s.book.cnt n

end

namespace Row

@[simps]
def setRole (w : Row N R) (v : ℕ) (role : Role N) : Row N R :=
  { w with role := Function.update w.role v (some role) }

@[simps]
def setSnap (w : Row N R) (v : ℕ) (last : ViewStamp) (state : List R) : Row N R :=
  { w with snap := Function.update w.snap v (some (last, state)) }

@[simps]
def see (w : Row N R) (vid : ℕ) : Row N R :=
  { w with seen := max w.seen vid }

@[simps]
def count (w : Row N R) (v : ℕ) : Row N R :=
  { w with cnt := Function.update w.cnt v (w.cnt v + 1) }

end Row

/-! ## The invariant -/

structure Base (V : Views N) (n : N) (r : Replica N R) (w : Row N R) : Prop where
  commit : r.vidCommit ≠ 0 → r.vidCommit = w.seen ∧ r.primary ∈ V.view r.vidCommit
  insync : r.vidInsync ≤ r.vidCommit
  role : ∀ v, w.role v ≠ none → v ≠ 0 ∧ v ≤ w.seen
  unsynced : r.vidInsync ≠ r.vidCommit → w.role r.vidCommit = none
  opened : r.inviewchange = false → r.myvs.vid = r.vidCommit ∧ n ∈ V.view r.vidCommit ∧
    ((w.role r.vidCommit = some .prim ∧ r.primary = n) ∨
      ∃ m, w.role r.vidCommit = some (.backup m) ∧ r.primary ≠ n)
  busy : r.invoking ≠ .free → w.role r.myvs.vid ≠ none ∧
    (r.myvs.vid = r.vidCommit → r.inviewchange = false)
  cnt : ∀ v, w.cnt v ≠ 0 → w.role v ≠ none ∧ (v = r.vidCommit → r.inviewchange = false)
  snap : ∀ v, w.snap v ≠ none → w.role v = some .prim

/-- The node synchronises for `vid_insync` as primary. -/
def AsPrim (V : Views N) (n : N) (r : Replica N R) (w : Row N R) : Prop :=
  r.inviewchange = true ∧ w.role r.vidInsync = some .prim ∧ n ∈ V.view r.vidInsync ∧
    (r.vidInsync = r.vidCommit → r.primary = n)

/-- The node synchronises for `vid_insync` with `m`. -/
def AsBackup (V : Views N) (n : N) (r : Replica N R) (w : Row N R) (m : N) : Prop :=
  r.inviewchange = true ∧ w.role r.vidInsync = some (.backup m) ∧ n ∈ V.view r.vidInsync ∧
    (r.vidInsync = r.vidCommit → r.primary ≠ n)

def Phase (V : Views N) (n : N) (r : Replica N R) (w : Row N R) : Pc N → Prop
  | .top => r.inviewchange = true ∧ r.insync = false ∧ w.role r.vidCommit = none
  | .join => r.inviewchange = true ∧ r.insync = false ∧ w.role r.vidCommit = none
  | .barrier => AsPrim V n r w ∧ r.insync = false ∧ w.snap r.vidInsync = none
  | .fill => AsPrim V n r w ∧ r.insync = false ∧ w.snap r.vidInsync = none ∧ r.invoking = .free
  | .waitBackups => AsPrim V n r w ∧ r.invoking = .free ∧
      -- the state that is offered to the backups does not change
      w.snap r.vidInsync = some (r.lastMyvs, r.state)
  | .transfer m => AsBackup V n r w m
  | .transferWait m => AsBackup V n r w m.dst ∧ r.invoking = .free ∧
      m.src = n ∧ m.vid = r.vidInsync ∧ m.last = r.lastMyvs
  | .doneWait m => AsBackup V n r w m.dst ∧ r.invoking = .free ∧ m.src = n ∧ m.vid = r.vidInsync
  | .exitSync => (∃ m, AsBackup V n r w m) ∧ (r.vidInsync = r.vidCommit → r.invoking = .free)
  | .asleep => r.insync = false ∧ (r.vidInsync = r.vidCommit → r.inviewchange = false)

structure NodeOk (V : Views N) (n : N) (r : Replica N R) (w : Row N R) : Prop where
  base : Base V n r w
  phase : Phase V n r w r.pc

section Local

variable {V : Views N} {n : N} {r : Replica N R} {w : Row N R}

theorem Phase.inviewchange {pc : Pc N} (h : Phase V n r w pc) (hpc : pc ≠ .asleep) :
    r.inviewchange = true := by
  cases pc with
  | top | join => exact h.1
  | barrier | fill | waitBackups => exact h.1.1
  | transfer m => exact h.1
  | transferWait m | doneWait m => exact h.1.1
  | exitSync =>
      rcases h.1 with ⟨m, hm⟩
      exact hm.1
  | asleep => exact absurd rfl hpc

/-- A node that answers `transferreq` has a role, and offers its own state as primary. -/
theorem Phase.offer {pc : Pc N} (h : Phase V n r w pc) (hinsync : r.insync = true) :
    ∃ role, w.role r.vidInsync = some role ∧
      (role = .prim → w.snap r.vidInsync = some (r.lastMyvs, r.state)) := by
  cases pc with
  | top | join | barrier | fill => exact absurd (hinsync.symm.trans h.2.1) (by simp)
  | waitBackups => exact ⟨.prim, h.1.2.1, fun _ => h.2.2⟩
  | transfer x => exact ⟨.backup x, h.2.1, fun hr => by cases hr⟩
  | transferWait x | doneWait x => exact ⟨.backup x.dst, h.1.2.1, fun hr => by cases hr⟩
  | exitSync =>
      rcases h.1 with ⟨x, hx⟩
      exact ⟨.backup x, hx.2.1, fun hr => by cases hr⟩
  | asleep => exact absurd (hinsync.symm.trans h.1) (by simp)

theorem NodeOk.vidInsync_eq (h : NodeOk V n r w) (hopen : r.inviewchange = false) :
    r.vidInsync = r.vidCommit := by
  by_contra hne
  have hnone := h.base.unsynced hne
  rcases (h.base.opened hopen).2.2 with ⟨hrole, _⟩ | ⟨m, hrole, _⟩ <;>
  · rw [hnone] at hrole
    cases hrole

theorem NodeOk.role_opened (h : NodeOk V n r w) (hopen : r.inviewchange = false) :
    w.role r.myvs.vid ≠ none := by
  rw [(h.base.opened hopen).1]
  rcases (h.base.opened hopen).2.2 with ⟨hrole, _⟩ | ⟨m, hrole, _⟩ <;> simp [hrole]

/-- No view that a node has committed is later than the ones it has seen. -/
theorem Base.vidCommit_le (h : Base V n r w) : r.vidCommit ≤ w.seen := by
  by_cases h0 : r.vidCommit = 0
  · omega
  · exact (h.commit h0).1.le

theorem Base.role_eq_none (h : Base V n r w) {v : ℕ} (hv : w.seen < v) : w.role v = none := by
  by_contra hne
  exact absurd (h.role v hne).2 (by omega)

section

variable [DecidableEq N]

theorem NodeOk.asleep (h : NodeOk V n r w) (hopen : r.inviewchange = false) : r.pc = .asleep := by
  by_contra hpc
  rw [h.phase.inviewchange hpc] at hopen
  cases hopen

end

/-! ## Requests -/

/-- A node that is busy is at none of the places where the recovery thread needs it idle. -/
theorem Phase.busy {r' : Replica N R} {w' : Row N R} {pc : Pc N} (h : Phase V n r w pc)
    (hbusy : r.invoking ≠ .free) (hview : r'.inviewchange = r.inviewchange)
    (hinsync : r'.insync = r.insync) (hvidi : r'.vidInsync = r.vidInsync)
    (hvidc : r'.vidCommit = r.vidCommit) (hprim : r'.primary = r.primary)
    (hrole : w'.role = w.role) (hsnap : w'.snap = w.snap) : Phase V n r' w' pc := by
  simp only [Phase, AsPrim, AsBackup] at h
  simp only [Phase, AsPrim, AsBackup, hview, hinsync, hvidi, hvidc, hprim, hrole, hsnap]
  cases pc with
  | fill => exact absurd h.2.2.2 hbusy
  | waitBackups | transferWait m | doneWait m => exact absurd h.2.1 hbusy
  | exitSync => exact ⟨h.1, fun heq => absurd (h.2 heq) hbusy⟩
  | top | join | barrier | transfer m | asleep => exact h

theorem Phase.leave {pc : Pc N} (h : Phase V n r w pc) :
    Phase V n (r.setInvoking .free) w pc := by
  cases pc with
  | fill => exact ⟨h.1, h.2.1, h.2.2.1, rfl⟩
  | waitBackups | transferWait m | doneWait m => exact ⟨h.1, rfl, h.2.2⟩
  | exitSync => exact ⟨h.1, fun _ => rfl⟩
  | top | join | barrier | transfer m | asleep => exact h

theorem NodeOk.keep (h : NodeOk V n r w) (hbusy : r.invoking ≠ .free) (i : Invoking N R) :
    NodeOk V n (r.setInvoking i) w := by
  refine ⟨?_, h.phase.busy hbusy rfl rfl rfl rfl rfl rfl rfl⟩
  exact ⟨h.base.commit, h.base.insync, h.base.role, h.base.unsynced, h.base.opened,
    fun _ => h.base.busy hbusy, h.base.cnt, h.base.snap⟩

theorem NodeOk.leave (h : NodeOk V n r w) : NodeOk V n (r.setInvoking .free) w := by
  refine ⟨?_, h.phase.leave⟩
  exact ⟨h.base.commit, h.base.insync, h.base.role, h.base.unsynced, h.base.opened,
    fun hne => absurd rfl hne, h.base.cnt, h.base.snap⟩

theorem NodeOk.execute (h : NodeOk V n r w) (hbusy : r.invoking ≠ .free) (q : R) :
    NodeOk V n (r.execute q) (w.count r.myvs.vid) := by
  refine ⟨?_, h.phase.busy hbusy rfl rfl rfl rfl rfl rfl rfl⟩
  refine ⟨h.base.commit, h.base.insync, h.base.role, h.base.unsynced, h.base.opened,
    fun hne => absurd rfl hne, fun v hv => ?_, h.base.snap⟩
  by_cases heq : v = r.myvs.vid
  · subst heq
    exact h.base.busy hbusy
  · exact h.base.cnt v (by simpa [heq] using hv)

section

variable [DecidableEq N]

theorem NodeOk.enter (h : NodeOk V n r w) (hopen : r.inviewchange = false) (i : Invoking N R) :
    NodeOk V n (r.setInvoking i) w := by
  refine ⟨?_, ?_⟩
  · exact ⟨h.base.commit, h.base.insync, h.base.role, h.base.unsynced, h.base.opened,
      fun _ => ⟨h.role_opened hopen, fun _ => hopen⟩, h.base.cnt, h.base.snap⟩
  · have hphase := h.phase
    rw [h.asleep hopen] at hphase
    change Phase V n (r.setInvoking i) w r.pc
    rw [h.asleep hopen]
    exact hphase

end

/-! ## View changes -/

theorem Base.commitTo (h : Base V n r w) {vid : ℕ} {p : N} (hvid : r.vidCommit < vid)
    (hseen : w.seen < vid) (hp : p ∈ V.view vid) : Base V n (r.commit vid p) (w.see vid) where
  commit := fun _ => ⟨(max_eq_right hseen.le).symm, hp⟩
  insync := h.insync.trans hvid.le
  role := fun v hv => ⟨(h.role v hv).1, (h.role v hv).2.trans (le_max_left _ _)⟩
  unsynced := fun _ => h.role_eq_none hseen
  opened := fun hopen => by cases hopen
  busy := by
    intro hbusy
    -- the request belongs to an earlier view
    have hrole := (h.busy hbusy).1
    refine ⟨hrole, fun (heq : r.myvs.vid = vid) => ?_⟩
    rw [heq] at hrole
    exact absurd (h.role_eq_none hseen) hrole
  cnt := by
    intro v hv
    have hrole := (h.cnt v hv).1
    refine ⟨hrole, fun (heq : v = vid) => ?_⟩
    rw [heq] at hrole
    exact absurd (h.role_eq_none hseen) hrole
  snap := h.snap

theorem Phase.commitTo {pc : Pc N} (h : Phase V n r w pc) (hb : Base V n r w) {vid : ℕ} {p : N}
    (hvid : r.vidCommit < vid) (hseen : w.seen < vid) :
    Phase V n (r.commit vid p) (w.see vid) pc := by
  have hne : r.vidInsync ≠ vid := (Nat.lt_of_le_of_lt hb.insync hvid).ne
  have hasPrim : AsPrim V n r w → AsPrim V n (r.commit vid p) (w.see vid) :=
    fun ha => ⟨rfl, ha.2.1, ha.2.2.1, fun heq => absurd heq hne⟩
  have hasBackup : ∀ m, AsBackup V n r w m → AsBackup V n (r.commit vid p) (w.see vid) m :=
    fun m ha => ⟨rfl, ha.2.1, ha.2.2.1, fun heq => absurd heq hne⟩
  cases pc with
  | top | join => exact ⟨rfl, h.2.1, hb.role_eq_none hseen⟩
  | barrier | fill | waitBackups => exact ⟨hasPrim h.1, h.2⟩
  | transfer m => exact hasBackup m h
  | transferWait m | doneWait m => exact ⟨hasBackup m.dst h.1, h.2⟩
  | exitSync =>
      rcases h.1 with ⟨m, hm⟩
      exact ⟨⟨m, hasBackup m hm⟩, fun heq => absurd heq hne⟩
  | asleep => exact ⟨h.1, fun heq => absurd heq hne⟩

theorem NodeOk.restart (h : NodeOk V n r w) (first : N) :
    NodeOk V n (Replica.fresh first) w := by
  have hzero : w.role 0 = none := by
    by_contra hne
    exact (h.base.role 0 hne).1 rfl
  refine ⟨?_, rfl, rfl, hzero⟩
  refine
    { commit := fun hne => absurd rfl hne
      insync := Nat.le_refl 0
      role := h.base.role
      unsynced := fun hne => absurd rfl hne
      opened := fun hopen => by cases hopen
      busy := fun hne => absurd rfl hne
      cnt := fun v hv => ⟨(h.base.cnt v hv).1, fun hv0 => ?_⟩
      snap := h.base.snap }
  exact absurd (hv0 ▸ hzero) (h.base.cnt v hv).1

section

variable [DecidableEq N]

theorem setPrimary_mem {primary p : N} {vid : ℕ} (h : setPrimary V primary vid = some p) :
    p ∈ V.view vid := by
  unfold setPrimary at h
  split at h
  · cases h
  · split at h
    next hmem =>
      cases h
      exact hmem
    next =>
      have hp := List.find?_some h
      simpa using hp

theorem NodeOk.commitTo (h : NodeOk V n r w) {vid : ℕ} {p : N} (hvid : r.vidCommit < vid)
    (hseen : w.seen < vid) (hp : setPrimary V r.primary vid = some p) :
    NodeOk V n (r.commit vid p) (w.see vid) :=
  ⟨h.base.commitTo hvid hseen (setPrimary_mem hp), h.phase.commitTo h.base hvid hseen⟩

end

/-! ## The recovery thread -/

/-- The recovery thread moves, and nothing else changes. -/
theorem NodeOk.setPc (h : NodeOk V n r w) {pc : Pc N} (hphase : Phase V n r w pc) :
    NodeOk V n (r.setPc pc) w := by
  refine ⟨?_, ?_⟩
  · exact ⟨h.base.commit, h.base.insync, h.base.role, h.base.unsynced, h.base.opened, h.base.busy,
      h.base.cnt, h.base.snap⟩
  · cases pc <;> exact hphase

theorem NodeOk.at (h : NodeOk V n r w) {pc : Pc N} (hpc : r.pc = pc) : Phase V n r w pc :=
  hpc ▸ h.phase

/-- A synchronisation starts: the role of the node in this view is new. -/
theorem Base.startSync (h : Base V n r w) (hview : r.inviewchange = true)
    (hrole : w.role r.vidCommit = none) (hmem : n ∈ V.view r.vidCommit) (insync : Bool)
    (pc : Pc N) (role : Role N) :
    Base V n (r.startSync insync pc) (w.setRole r.vidCommit role) := by
  have hpos : r.vidCommit ≠ 0 := by
    intro h0
    rw [h0, V.zero] at hmem
    cases hmem
  have hset : ∀ v, w.role v ≠ none → (w.setRole r.vidCommit role).role v = w.role v := by
    intro v hv
    have hne : v ≠ r.vidCommit := fun heq => hv (heq ▸ hrole)
    simp [hne]
  refine ⟨h.commit, Nat.le_refl _, fun v hv => ?_, fun hne => absurd rfl hne, fun hopen => ?_,
    fun hbusy => ?_, fun v hv => ?_, fun v hv => ?_⟩
  · by_cases heq : v = r.vidCommit
    · subst heq
      exact ⟨hpos, (h.commit hpos).1.le⟩
    · exact h.role v (by simpa [heq] using hv)
  · exact absurd (hview.symm.trans hopen) (by simp)
  · have hb := h.busy hbusy
    exact ⟨by rw [show (r.startSync insync pc).myvs = r.myvs from rfl, hset _ hb.1]; exact hb.1,
      hb.2⟩
  · have hc := h.cnt v hv
    exact ⟨by rw [hset _ hc.1]; exact hc.1, hc.2⟩
  · have hs := h.snap v hv
    rw [hset v (by simp [hs])]
    exact hs

theorem NodeOk.toPrim (h : NodeOk V n r w) (hpc : r.pc = .top) (hmem : n ∈ V.view r.vidCommit)
    (hprim : r.primary = n) :
    NodeOk V n (r.startSync r.insync .barrier) (w.setRole r.vidCommit .prim) := by
  rcases h.at hpc with ⟨hview, hinsync, hrole⟩
  have hsnap : w.snap r.vidCommit = none := by
    by_contra hne
    rw [h.base.snap _ hne] at hrole
    cases hrole
  exact ⟨h.base.startSync hview hrole hmem _ _ _,
    ⟨hview, Function.update_self _ _ _, hmem, fun _ => hprim⟩, hinsync, hsnap⟩

theorem NodeOk.toBackup (h : NodeOk V n r w) (hpc : r.pc = .top) (hmem : n ∈ V.view r.vidCommit)
    (hprim : r.primary ≠ n) :
    NodeOk V n (r.startSync true (.transfer r.primary))
      (w.setRole r.vidCommit (.backup r.primary)) := by
  rcases h.at hpc with ⟨hview, _, hrole⟩
  exact ⟨h.base.startSync hview hrole hmem _ _ _, hview, Function.update_self _ _ _, hmem,
    fun _ => hprim⟩

theorem NodeOk.barrier (h : NodeOk V n r w) (hpc : r.pc = .barrier) (hfree : r.invoking = .free) :
    NodeOk V n (r.setPc .fill) w := by
  rcases h.at hpc with ⟨hprim, hinsync, hsnap⟩
  exact h.setPc ⟨hprim, hinsync, hsnap, hfree⟩

theorem NodeOk.fill (h : NodeOk V n r w) (hpc : r.pc = .fill) (backups : List N) :
    NodeOk V n (r.fillBackups backups) (w.setSnap r.vidInsync r.lastMyvs r.state) := by
  rcases h.at hpc with ⟨hprim, _, _, hfree⟩
  refine ⟨?_, hprim, hfree, Function.update_self _ _ _⟩
  refine ⟨h.base.commit, h.base.insync, h.base.role, h.base.unsynced, h.base.opened, h.base.busy,
    h.base.cnt, fun v hv => ?_⟩
  by_cases heq : v = r.vidInsync
  · subst heq
    exact hprim.2.1
  · exact h.base.snap v (by simpa [heq] using hv)

theorem NodeOk.resync (h : NodeOk V n r w) (hview : r.inviewchange = true)
    (hne : r.vidInsync ≠ r.vidCommit) : NodeOk V n r.resync w := by
  refine ⟨?_, hview, rfl, h.base.unsynced hne⟩
  exact ⟨h.base.commit, h.base.insync, h.base.role, h.base.unsynced, h.base.opened, h.base.busy,
    h.base.cnt, h.base.snap⟩

/-- The view opens; the node must be idle, because `myvs` is set without `invoke_mutex`. -/
theorem NodeOk.open (h : NodeOk V n r w) (hfree : r.invoking = .free)
    (hmem : n ∈ V.view r.vidCommit) (heq : r.vidInsync = r.vidCommit)
    (hrole : (w.role r.vidCommit = some .prim ∧ r.primary = n) ∨
      ∃ m, w.role r.vidCommit = some (.backup m) ∧ r.primary ≠ n) :
    NodeOk V n r.open w := by
  refine ⟨?_, rfl, fun _ => rfl⟩
  exact
    { commit := h.base.commit
      insync := h.base.insync
      role := h.base.role
      unsynced := fun hne => absurd heq hne
      opened := fun _ => ⟨rfl, hmem, hrole⟩
      busy := fun hne => absurd hfree hne
      cnt := fun v hv => ⟨(h.base.cnt v hv).1, fun _ => rfl⟩
      snap := h.base.snap }

theorem NodeOk.openPrim (h : NodeOk V n r w) (hpc : r.pc = .waitBackups)
    (heq : r.vidInsync = r.vidCommit) : NodeOk V n r.open w := by
  rcases h.at hpc with ⟨⟨_, hrole, hmem, hprim⟩, hfree, _⟩
  rw [heq] at hrole hmem
  exact h.open hfree hmem heq (Or.inl ⟨hrole, hprim heq⟩)

theorem NodeOk.openBackup (h : NodeOk V n r w) (hpc : r.pc = .exitSync)
    (heq : r.vidInsync = r.vidCommit) : NodeOk V n r.open w := by
  rcases h.at hpc with ⟨⟨m, _, hrole, hmem, hprim⟩, hfree⟩
  rw [heq] at hrole hmem
  exact h.open (hfree heq) hmem heq (Or.inr ⟨m, hrole, hprim heq⟩)

theorem NodeOk.transferOk (h : NodeOk V n r w) {m : TransferMsg N}
    (hpc : r.pc = .transferWait m) (rep : TransferRep N R) {d : DoneMsg N} (hsrc : d.src = n)
    (hdst : d.dst = m.dst) (hvid : d.vid = r.vidInsync) :
    NodeOk V n ((r.install rep).setPc (.doneWait d)) w := by
  rcases h.at hpc with ⟨hback, hfree, _⟩
  refine ⟨?_, hdst ▸ hback, hfree, hsrc, hvid⟩
  exact ⟨h.base.commit, h.base.insync, h.base.role, h.base.unsynced, h.base.opened, h.base.busy,
    h.base.cnt, h.base.snap⟩

variable [DecidableEq N]

theorem NodeOk.eraseBackup (h : NodeOk V n r w) (m : N) : NodeOk V n (r.eraseBackup m) w := by
  refine ⟨?_, ?_⟩
  · exact ⟨h.base.commit, h.base.insync, h.base.role, h.base.unsynced, h.base.opened, h.base.busy,
      h.base.cnt, h.base.snap⟩
  · have hphase := h.phase
    change Phase V n (r.eraseBackup m) w r.pc
    cases hpc : r.pc <;> rw [hpc] at hphase <;> exact hphase

end Local

/-! ## The system -/

def Nodes (V : Views N) (s : State N R) : Prop :=
  ∀ n, NodeOk V n (s.rep n) (s.row n)

section System

variable {V : Views N} {s t : State N R}

/-- A commit that is not skipped is one of a view that the node has never seen. -/
theorem seen_lt {n : N} {vid : ℕ} (hlt : (s.rep n).vidCommit < vid)
    (ha : vid ≤ (s.rep n).vidCommit ∨ s.ghost.seen n < vid) : (s.row n).seen < vid :=
  ha.resolve_left (Nat.not_le_of_lt hlt)

def Row.init : Row N R where
  role _ := none
  snap _ := none
  seen := 0
  cnt _ := 0

theorem NodeOk.fresh (n first : N) : NodeOk V n (Replica.fresh first) (Row.init : Row N R) := by
  refine ⟨?_, rfl, rfl, rfl⟩
  exact
    { commit := fun hne => absurd rfl hne
      insync := Nat.le_refl 0
      role := fun _ hne => absurd rfl hne
      unsynced := fun hne => absurd rfl hne
      opened := fun hopen => by cases hopen
      busy := fun hne => absurd rfl hne
      cnt := fun _ hne => absurd rfl hne
      snap := fun _ hne => absurd rfl hne }

variable [DecidableEq N]

theorem row_exec (s : State N R) (n : N) (q : R) :
    (s.exec n q).row n = (s.row n).count (s.rep n).myvs.vid := by
  ext v : 2 <;> simp [set2]

theorem row_exec_of_ne {x n : N} (h : x ≠ n) (q : R) : (s.exec n q).row x = s.row x := by
  ext v : 2 <;> simp [set2_of_node_ne _ h]

theorem row_see (s : State N R) (n : N) (vid : ℕ) :
    (s.setGhost (s.ghost.see n vid)).row n = (s.row n).see vid := by
  ext v : 2 <;> simp

theorem row_see_of_ne {x n : N} (h : x ≠ n) (vid : ℕ) :
    (s.setGhost (s.ghost.see n vid)).row x = s.row x := by
  ext v : 2 <;> simp [h]

theorem row_setRole (s : State N R) (n : N) (v : ℕ) (role : Role N) :
    (s.setGhost (s.ghost.setRole n v role)).row n = (s.row n).setRole v role := by
  ext v : 2 <;> simp [set2]

theorem row_setRole_of_ne {x n : N} (h : x ≠ n) (v : ℕ) (role : Role N) :
    (s.setGhost (s.ghost.setRole n v role)).row x = s.row x := by
  ext v : 2 <;> simp [set2_of_node_ne _ h]

theorem row_setSnap (s : State N R) (n : N) (v : ℕ) (last : ViewStamp) (state : List R) :
    (s.setGhost (s.ghost.setSnap n v last state)).row n = (s.row n).setSnap v last state := by
  ext v : 2 <;> simp [set2]

theorem row_setSnap_of_ne {x n : N} (h : x ≠ n) (v : ℕ) (last : ViewStamp) (state : List R) :
    (s.setGhost (s.ghost.setSnap n v last state)).row x = s.row x := by
  ext v : 2 <;> simp [set2_of_node_ne _ h]

/-- Only node `n` has moved. -/
theorem Nodes.move (h : Nodes V s) {n : N} {r : Replica N R}
    (hrep : t.rep = Function.update s.rep n r) (hrow : ∀ x, x ≠ n → t.row x = s.row x)
    (hn : NodeOk V n r (t.row n)) : Nodes V t := by
  intro x
  by_cases hx : x = n
  · subst hx
    rw [hrep, Function.update_self]
    exact hn
  · rw [hrep, Function.update_of_ne hx, hrow x hx]
    exact h x

theorem Nodes.setRep (h : Nodes V s) {n : N} {r : Replica N R} (hn : NodeOk V n r (s.row n)) :
    Nodes V (s.setRep n r) :=
  h.move rfl (fun _ _ => rfl) hn

theorem Nodes.exec (h : Nodes V s) {n : N} (hbusy : (s.rep n).invoking ≠ .free) (q : R) :
    Nodes V (s.exec n q) :=
  h.move rfl (fun _ hx => row_exec_of_ne hx q) (row_exec s n q ▸ (h n).execute hbusy q)

theorem Nodes.see (h : Nodes V s) {n : N} {r : Replica N R} {vid : ℕ}
    (hn : NodeOk V n r ((s.row n).see vid)) :
    Nodes V ((s.setRep n r).setGhost (s.ghost.see n vid)) :=
  h.move rfl (fun _ hx => row_see_of_ne hx vid) (row_see s n vid ▸ hn)

theorem Nodes.setRole (h : Nodes V s) {n : N} {r : Replica N R} {v : ℕ} {role : Role N}
    (hn : NodeOk V n r ((s.row n).setRole v role)) :
    Nodes V ((s.setRep n r).setGhost (s.ghost.setRole n v role)) :=
  h.move rfl (fun _ hx => row_setRole_of_ne hx v role) (row_setRole s n v role ▸ hn)

theorem Nodes.setSnap (h : Nodes V s) {n : N} {r : Replica N R} {v : ℕ} {last : ViewStamp}
    {state : List R} (hn : NodeOk V n r ((s.row n).setSnap v last state)) :
    Nodes V ((s.setRep n r).setGhost (s.ghost.setSnap n v last state)) :=
  h.move rfl (fun _ hx => row_setSnap_of_ne hx v last state) (row_setSnap s n v last state ▸ hn)

theorem Init.nodes (h : Init V s) : Nodes V s := by
  rcases h with ⟨rep, rfl, hrep⟩
  intro n
  rcases hrep n with ⟨first, _, hcons⟩
  change NodeOk V n (rep n) { (Row.init : Row N R) with seen := (rep n).vidCommit }
  rcases construct_cases hcons with ⟨_, hr⟩ | ⟨p, _, hp, hr⟩
  · rw [hr]
    exact NodeOk.fresh n first
  · rw [hr]
    exact (NodeOk.fresh n n).commitTo Nat.one_pos Nat.one_pos hp

variable [DecidableEq R]

theorem Nodes.step (h : Nodes V s) {a : Action N R} (hser : Serial s a) (hord : Orderly s a)
    (hst : step V s a = some t) : Nodes V t := by
  cases step_move hst with
  | @clientStart n _ _ => exact h.setRep ((h n).enter (amiprimary_iff.1 hser).2 _)
  | @clientSend n _ _ _ hc _ _ | @clientOk n _ _ hc _ _ =>
      exact h.setRep ((h n).keep (by simp [hc]) _)
  | @clientFail n => exact h.setRep (h n).leave
  | clientFinish hc _ => exact h.exec (by simp [hc]) _
  | refuse _ => exact h
  | @invoke m _ hopen _ => exact h.setRep ((h m.dst).enter hopen _)
  | invokeExec hm => exact h.exec (by simp [hm]) _
  | @commitChange n _ _ _ hlt hp =>
      exact h.see ((h n).commitTo hlt (seen_lt hlt hord) hp)
  | @toJoin n hpc =>
      have hphase := (h n).at hpc
      exact h.setRep ((h n).setPc hphase)
  | @toPrim n hpc hmem hprim => exact h.setRole ((h n).toPrim hpc hmem hprim)
  | @toBackup n hpc hmem hprim => exact h.setRole ((h n).toBackup hpc hmem hprim)
  | @joinOk n _ _ hpc hlt hp =>
      have hn := (h n).commitTo hlt (seen_lt hlt hord) hp
      have hphase := hn.at hpc
      exact h.see (hn.setPc hphase)
  | @rejoin _ n hpc =>
      have hphase := (h n).at hpc
      exact h.setRep ((h n).setPc hphase)
  | @barrier n hpc hfree => exact h.setRep ((h n).barrier hpc hfree)
  | @fill n hpc => exact h.setSnap ((h n).fill hpc _)
  | @syncFail n hpc hne => exact h.setRep ((h n).resync ((h n).at hpc).1.1 hne)
  | @openPrim n hpc _ heq => exact h.setRep ((h n).openPrim hpc heq)
  | @transferStop n m hpc hne =>
      exact h.setRep ((h n).setPc ⟨⟨m, (h n).at hpc⟩, fun heq => absurd heq hne⟩)
  | @transferSend n m hpc _ =>
      exact h.setRep ((h n).setPc ⟨(h n).at hpc, hord, rfl, rfl, rfl⟩)
  | transferreq _ _ | stay => exact h
  | @transferOk n m rep hpc _ _ => exact h.setRep ((h n).transferOk hpc rep rfl rfl rfl)
  | @transferFail n m hpc => exact h.setRep ((h n).setPc ((h n).at hpc).1)
  | @transferdone m _ _ => exact h.setRep ((h m.dst).eraseBackup _)
  | @doneOk n m hpc =>
      have hphase := (h n).at hpc
      exact h.setRep ((h n).setPc ⟨⟨m.dst, hphase.1⟩, fun _ => hphase.2.1⟩)
  | @doneFail n m hpc => exact h.setRep ((h n).setPc ((h n).at hpc).1)
  | @exitFail n hpc hne =>
      rcases (h n).at hpc with ⟨⟨m, hback⟩, _⟩
      exact h.setRep ((h n).resync hback.1 hne)
  | @openBackup n hpc heq => exact h.setRep ((h n).openBackup hpc heq)
  | @wake n hpc =>
      rcases (h n).at hpc with ⟨hinsync, _⟩
      have hview : (s.rep n).inviewchange = true := by
        by_contra hopen
        exact hord ((h n).vidInsync_eq (by simpa using hopen))
      exact h.setRep ((h n).setPc ⟨hview, hinsync, (h n).base.unsynced hord⟩)
  | @restart n first _ => exact h.setRep ((h n).restart first)
  | reboot _ => exact absurd rfl hord

end System
end Rsm
end Yfs

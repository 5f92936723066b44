import Mathlib.Data.Finset.Basic
import Mathlib.Order.Bounds.Basic
import Yfs.Lib.Run

/-!
# Select — `SelectAIO` of `pollmgr.cc`

The descriptors that are watched are kept in two `fd_set`s, with the highest of them in `highfds_`:
`select` only looks at descriptors up to the one it is given.  A pipe, whose reading end is always
watched, wakes up a `select` that waits for an old set.

`watch_fd` and `unwatch_fd` run under a mutex.  `wait_ready` copies the sets under it and calls
`select` with the copies, while others go on changing the sets.
-/

namespace Yfs
namespace Rpc
namespace Select

open Lib

/-! ## The code -/

/-- `poll_flag`. -/
inductive PollFlag
  | cbNone
  | cbRdonly
  | cbWronly
  | cbRdwr
  | cbMask
  deriving DecidableEq, Repr

/-- `pipefd` are the two ends of the pipe and `unread` is the number of bytes in it. -/
structure SelectAio where
  rfds : Finset ℕ
  wfds : Finset ℕ
  highfds : ℕ
  pipefd : ℕ × ℕ
  unread : ℕ
  deriving DecidableEq

namespace SelectAio

def new (pipefd : ℕ × ℕ) : SelectAio where
  rfds := {pipefd.1}
  wfds := ∅
  highfds := pipefd.1
  pipefd := pipefd
  unread := 0

/-- Every flag but the first two watches for both. -/
def watchFd (s : SelectAio) (fd : ℕ) (flag : PollFlag) : SelectAio :=
  { s with
    highfds := if s.highfds ≤ fd then fd else s.highfds
    rfds := if flag = .cbWronly then s.rfds else insert fd s.rfds
    wfds := if flag = .cbRdonly then s.wfds else insert fd s.wfds
    unread := s.unread + 1 }

def isWatched (s : SelectAio) (fd : ℕ) : PollFlag → Bool
  | .cbRdonly => decide (fd ∈ s.rfds)
  | .cbWronly => decide (fd ∈ s.wfds)
  | _ => decide (fd ∈ s.rfds) && decide (fd ∈ s.wfds)

/-- `newh` after the first `n` turns of the loop of `unwatch_fd`. -/
def newh (s : SelectAio) : ℕ → ℕ
  | 0 => s.pipefd.1
  | n + 1 => if n ∈ s.rfds then n else if n ∈ s.wfds then n else s.newh n

/-- The `FD_CLR`s; another flag fails a `VERIFY`. -/
def clear (s : SelectAio) (fd : ℕ) : PollFlag → Option SelectAio
  | .cbRdonly => some { s with rfds := s.rfds.erase fd }
  | .cbWronly => some { s with wfds := s.wfds.erase fd }
  | .cbRdwr => some { s with rfds := s.rfds.erase fd, wfds := s.wfds.erase fd }
  | _ => none

/-- The sets after the `FD_CLR`s give a new `highfds_` if `fd` was the highest. -/
def lower (s : SelectAio) (fd : ℕ) : SelectAio :=
  if fd ∉ s.rfds ∧ fd ∉ s.wfds then
    if fd = s.highfds then { s with highfds := s.newh (s.highfds + 1) } else s
  else
    s

def unwatchFd (s : SelectAio) (fd : ℕ) (flag : PollFlag) : Option (SelectAio × Bool) :=
  (s.clear fd flag).map fun s =>
    ({ s.lower fd with unread := if flag = .cbRdwr then s.unread + 1 else s.unread },
      decide (fd ∉ s.rfds ∧ fd ∉ s.wfds))

end SelectAio

/-- The local variables of `wait_ready` while it is in `select`. -/
structure Copy where
  trfds : Finset ℕ
  twfds : Finset ℕ
  high : ℕ
  deriving DecidableEq

/-- `select(high + 1, &trfds, &twfds, NULL, NULL)`: what is left of the sets when these descriptors
are ready. -/
def Copy.select (c : Copy) (canRead canWrite : Finset ℕ) : Finset ℕ × Finset ℕ :=
  (c.trfds.filter fun fd => fd < c.high + 1 ∧ fd ∈ canRead,
    c.twfds.filter fun fd => fd < c.high + 1 ∧ fd ∈ canWrite)

/-- What the loop of `wait_ready` has collected, and what is left in the pipe. -/
structure Ready where
  readable : List ℕ
  writable : List ℕ
  unread : ℕ
  deriving DecidableEq, Repr

/-- One turn of the loop, for `trfds` and `twfds` as `select` has left them.  `none`: a `read` from
the empty pipe fails its `VERIFY`. -/
def Ready.turn (pipe : ℕ) (trfds twfds : Finset ℕ) (r : Ready) (fd : ℕ) : Option Ready :=
  -- the pipe is not reported, its byte is taken out
  if fd = pipe ∧ fd ∈ trfds then
    if r.unread = 0 then none else some { r with unread := r.unread - 1 }
  else
    some
      { r with
        writable := if fd ∈ twfds then r.writable ++ [fd] else r.writable
        readable := if fd ∈ trfds then r.readable ++ [fd] else r.readable }

/-- The loop over all descriptors up to `high`. -/
def Copy.collect (c : Copy) (s : SelectAio) (canRead canWrite : Finset ℕ) : Option Ready :=
  (List.range (c.high + 1)).foldlM
    (Ready.turn s.pipefd.1 (c.select canRead canWrite).1 (c.select canRead canWrite).2)
    ⟨[], [], s.unread⟩

/-- `T` are the threads that call `wait_ready`, `returned` is what it last gave them. -/
structure System (T : Type) where
  aio : SelectAio
  selecting : T → Option Copy
  returned : T → List ℕ × List ℕ

inductive Act (T : Type)
  | watchFd (fd : ℕ) (flag : PollFlag)
  | unwatchFd (fd : ℕ) (flag : PollFlag)
  /-- `wait_ready` up to `select`. -/
  | waitReady (t : T)
  /-- `select` returns, and these descriptors are ready. -/
  | ready (t : T) (canRead canWrite : Finset ℕ)
  /-- `select` is interrupted: `EINTR`. -/
  | interrupted (t : T)

variable {T : Type} [DecidableEq T]

def step (s : System T) : Act T → Option (System T)
  | .watchFd fd flag => some { s with aio := s.aio.watchFd fd flag }
  | .unwatchFd fd flag => (s.aio.unwatchFd fd flag).map fun r => { s with aio := r.1 }
  | .waitReady t =>
      match s.selecting t with
      | none =>
          -- the sets may change as soon as they are copied
          some
            { s with
              selecting := Function.update s.selecting t
                (some ⟨s.aio.rfds, s.aio.wfds, s.aio.highfds⟩) }
      | some _ => none
  | .ready t canRead canWrite =>
      match s.selecting t with
      | none => none
      | some c =>
          (c.collect s.aio canRead canWrite).map fun r =>
            { aio := { s.aio with unread := r.unread }
              selecting := Function.update s.selecting t none
              returned := Function.update s.returned t (r.readable, r.writable) }
  | .interrupted t =>
      match s.selecting t with
      | none => none
      | some _ =>
          some
            { s with
              selecting := Function.update s.selecting t none
              returned := Function.update s.returned t ([], []) }

def boot (pipefd : ℕ × ℕ) : System T where
  aio := SelectAio.new pipefd
  selecting := fun _ => none
  returned := fun _ => ([], [])

/-! ## The highest descriptor -/

namespace SelectAio

/-- What `select` has to look at. -/
def Watched (s : SelectAio) (fd : ℕ) : Prop :=
  fd ∈ s.rfds ∨ fd ∈ s.wfds

/-- The pipe is watched and `highfds_` is right. -/
structure Highest (s : SelectAio) : Prop where
  pipe : s.pipefd.1 ∈ s.rfds
  mem : s.Watched s.highfds
  le : ∀ fd, s.Watched fd → fd ≤ s.highfds

theorem highest_new (pipefd : ℕ × ℕ) : (new pipefd).Highest where
  pipe := Finset.mem_singleton_self _
  mem := Or.inl (Finset.mem_singleton_self _)
  le := by
    rintro fd (hr | hw)
    · exact Nat.le_of_eq (Finset.mem_singleton.1 hr)
    · exact absurd hw (Finset.notMem_empty fd)

/-- `watch_fd` adds one descriptor, whatever the flag. -/
theorem watched_watchFd (s : SelectAio) (fd : ℕ) (flag : PollFlag) (x : ℕ) :
    (s.watchFd fd flag).Watched x ↔ x = fd ∨ s.Watched x := by
  simp only [Watched, watchFd]
  cases flag <;> simp <;> tauto

theorem Highest.watchFd {s : SelectAio} (h : s.Highest) (fd : ℕ) (flag : PollFlag) :
    (s.watchFd fd flag).Highest where
  pipe := by
    simp only [SelectAio.watchFd]
    split
    · exact h.pipe
    · exact Finset.mem_insert_of_mem h.pipe
  mem := by
    rw [watched_watchFd]
    simp only [SelectAio.watchFd]
    split
    · exact Or.inl rfl
    · exact Or.inr h.mem
  le := by
    intro x hx
    simp only [SelectAio.watchFd]
    rcases (watched_watchFd s fd flag x).1 hx with rfl | hold
    · split <;> omega
    · have hle := h.le x hold
      split <;> omega

/-- The last set bit below `n`, as soon as there is one. -/
theorem newh_spec (s : SelectAio) (n : ℕ) (h : ∃ fd, fd < n ∧ s.Watched fd) :
    s.Watched (s.newh n) ∧ ∀ fd, fd < n → s.Watched fd → fd ≤ s.newh n := by
  induction n with
  | zero =>
      rcases h with ⟨fd, hlt, _⟩
      omega
  | succ n ih =>
      -- the last turn wins if its bit is set, and changes nothing otherwise
      by_cases hn : s.Watched n
      · have heq : s.newh (n + 1) = n := by
          rcases hn with hr | hw
          · rw [newh, if_pos hr]
          · rw [newh, if_pos hw, ite_self]
        rw [heq]
        exact ⟨hn, fun fd hlt _ => by omega⟩
      · have heq : s.newh (n + 1) = s.newh n := by
          rw [newh, if_neg fun hr => hn (Or.inl hr), if_neg fun hw => hn (Or.inr hw)]
        have hbelow : ∀ fd, fd < n + 1 → s.Watched fd → fd < n := by
          intro fd hlt hfd
          have hne : fd ≠ n := fun hfn => hn (hfn ▸ hfd)
          omega
        rcases h with ⟨fd, hlt, hfd⟩
        have hrest := ih ⟨fd, hbelow fd hlt hfd, hfd⟩
        rw [heq]
        exact ⟨hrest.1, fun fd hlt hfd => hrest.2 fd (hbelow fd hlt hfd) hfd⟩

/-- `FD_CLR` takes away at most `fd`. -/
theorem clear_spec {s s' : SelectAio} {fd : ℕ} {flag : PollFlag} (h : s.clear fd flag = some s') :
    s'.highfds = s.highfds ∧ s'.pipefd = s.pipefd ∧
      (∀ x, s'.Watched x → s.Watched x) ∧ (∀ x, x ≠ fd → (x ∈ s'.rfds ↔ x ∈ s.rfds)) ∧
      ∀ x, x ≠ fd → s.Watched x → s'.Watched x := by
  cases flag <;> cases h <;> refine ⟨rfl, rfl, ?_, ?_, ?_⟩ <;> intro x <;>
    simp only [Watched, Finset.mem_erase] <;> tauto

/-- The highest descriptor is looked for again only if `fd` was the highest and is gone. -/
theorem Highest.lower {s c : SelectAio} {fd : ℕ} {flag : PollFlag} (h : s.Highest)
    (hfd : fd ≠ s.pipefd.1) (hclear : s.clear fd flag = some c) : (c.lower fd).Highest := by
  rcases clear_spec hclear with ⟨hhigh, hpipefd, hsub, hrfds, hkeep⟩
  have hpipe : c.pipefd.1 ∈ c.rfds := by
    rw [hpipefd]
    exact (hrfds _ (Ne.symm hfd)).2 h.pipe
  have hle : ∀ x, c.Watched x → x ≤ c.highfds := by
    intro x hx
    rw [hhigh]
    exact h.le x (hsub x hx)
  -- where `highfds_` stays as it is, it is still watched
  have hstay : c.highfds ≠ fd ∨ c.Watched fd → c.Highest := by
    intro hor
    refine ⟨hpipe, ?_, hle⟩
    by_cases heq : c.highfds = fd
    · rcases hor with hne | hwatched
      · exact absurd heq hne
      · rwa [heq]
    · refine hkeep _ heq ?_
      rw [hhigh]
      exact h.mem
  unfold SelectAio.lower
  split
  next hgone =>
    split
    next heq =>
      -- the pipe is always set, so the loop finds something
      have hnewh := newh_spec c (c.highfds + 1)
        ⟨c.pipefd.1, Nat.lt_succ_of_le (hle _ (Or.inl hpipe)), Or.inl hpipe⟩
      exact ⟨hpipe, hnewh.1, fun x hx => hnewh.2 x (Nat.lt_succ_of_le (hle x hx)) hx⟩
    next hne => exact hstay (Or.inl (Ne.symm hne))
  next hleft =>
    refine hstay (Or.inr ?_)
    unfold Watched
    tauto

/-- `lower` does not touch the sets. -/
theorem lower_sets (s : SelectAio) (fd : ℕ) :
    (s.lower fd).rfds = s.rfds ∧ (s.lower fd).wfds = s.wfds ∧
      (s.lower fd).pipefd = s.pipefd := by
  unfold lower
  split
  · split <;> exact ⟨rfl, rfl, rfl⟩
  · exact ⟨rfl, rfl, rfl⟩

theorem Highest.unwatchFd {s s' : SelectAio} {fd : ℕ} {flag : PollFlag} {b : Bool} (h : s.Highest)
    (hfd : fd ≠ s.pipefd.1) (hun : s.unwatchFd fd flag = some (s', b)) :
    s'.Highest ∧ s'.pipefd = s.pipefd := by
  rcases Option.map_eq_some_iff.1 hun with ⟨c, hclear, heq⟩
  have hlower := h.lower hfd hclear
  have hpipefd := (lower_sets c fd).2.2.trans (clear_spec hclear).2.1
  cases heq
  exact ⟨⟨hlower.pipe, hlower.mem, hlower.le⟩, hpipefd⟩

/-- With one of the three flags `unwatch_fd` returns, and says whether `fd` is in neither set. -/
theorem unwatchFd_returns (s : SelectAio) (fd : ℕ) {flag : PollFlag}
    (hflag : flag = .cbRdonly ∨ flag = .cbWronly ∨ flag = .cbRdwr) :
    ∃ s' b, s.unwatchFd fd flag = some (s', b) ∧
      (b = true ↔ fd ∉ s'.rfds ∧ fd ∉ s'.wfds) := by
  have hclear : ∃ c, s.clear fd flag = some c := by
    rcases hflag with rfl | rfl | rfl <;> exact ⟨_, rfl⟩
  rcases hclear with ⟨c, hclear⟩
  refine ⟨_, _, by rw [unwatchFd, hclear, Option.map_some], ?_⟩
  rw [decide_eq_true_iff, (lower_sets c fd).1, (lower_sets c fd).2.1]

theorem Highest.isGreatest {s : SelectAio} (h : s.Highest) :
    IsGreatest {fd | fd = s.pipefd.1 ∨ fd ∈ s.rfds ∨ fd ∈ s.wfds} s.highfds := by
  refine ⟨Or.inr h.mem, ?_⟩
  rintro fd (rfl | hfd)
  · exact h.le _ (Or.inl h.pipe)
  · exact h.le fd hfd

end SelectAio

/-! ## Runs -/

/-- Nobody watches or unwatches the pipe. -/
def LeavesPipe (s : System T) : Act T → Prop
  | .watchFd fd _ => fd ≠ s.aio.pipefd.1
  | .unwatchFd fd _ => fd ≠ s.aio.pipefd.1
  | _ => True

instance (s : System T) (a : Act T) : Decidable (LeavesPipe s a) :=
  match a with
  | .watchFd _ _ => inferInstanceAs (Decidable (_ ≠ _))
  | .unwatchFd _ _ => inferInstanceAs (Decidable (_ ≠ _))
  | .waitReady _ => isTrue trivial
  | .ready _ _ _ => isTrue trivial
  | .interrupted _ => isTrue trivial

/-- The sets and every copy of them. -/
structure Sound (pipefd : ℕ × ℕ) (s : System T) : Prop where
  pipefd_eq : s.aio.pipefd = pipefd
  highest : s.aio.Highest
  copies : ∀ t c, s.selecting t = some c →
    IsGreatest {fd | fd = pipefd.1 ∨ fd ∈ c.trfds ∨ fd ∈ c.twfds} c.high

/-- A thread that begins or ends a `select` leaves the copies of the others alone. -/
theorem Sound.select {pipefd : ℕ × ℕ} {s : System T} (h : Sound pipefd s) (t : T)
    {new : Option Copy} (hnew : ∀ c, new = some c →
      IsGreatest {fd | fd = pipefd.1 ∨ fd ∈ c.trfds ∨ fd ∈ c.twfds} c.high) :
    ∀ x c, Function.update s.selecting t new x = some c →
      IsGreatest {fd | fd = pipefd.1 ∨ fd ∈ c.trfds ∨ fd ∈ c.twfds} c.high := by
  intro x c hx
  by_cases hxt : x = t
  · subst hxt
    rw [Function.update_self] at hx
    exact hnew c hx
  · rw [Function.update_of_ne hxt] at hx
    exact h.copies x c hx

theorem Sound.step {pipefd : ℕ × ℕ} {s s' : System T} {a : Act T} (h : Sound pipefd s)
    (hok : LeavesPipe s a) (hst : step s a = some s') : Sound pipefd s' := by
  cases a with
  | watchFd fd flag =>
      cases hst
      exact ⟨h.pipefd_eq, h.highest.watchFd fd flag, h.copies⟩
  | unwatchFd fd flag =>
      rcases Option.map_eq_some_iff.1 hst with ⟨⟨aio, b⟩, hun, rfl⟩
      rcases h.highest.unwatchFd hok hun with ⟨hhighest, hpipefd⟩
      exact ⟨hpipefd.trans h.pipefd_eq, hhighest, h.copies⟩
  | waitReady t =>
      simp only [Select.step] at hst
      split at hst
      · cases hst
        refine ⟨h.pipefd_eq, h.highest, h.select t fun c hc => ?_⟩
        cases hc
        rw [← h.pipefd_eq]
        exact h.highest.isGreatest
      · cases hst
  | ready t canRead canWrite =>
      simp only [Select.step] at hst
      split at hst
      · cases hst
      · rcases Option.map_eq_some_iff.1 hst with ⟨r, _, rfl⟩
        refine ⟨h.pipefd_eq, ⟨h.highest.pipe, h.highest.mem, h.highest.le⟩, h.select t ?_⟩
        intro c hc
        cases hc
  | interrupted t =>
      simp only [Select.step] at hst
      split at hst
      · cases hst
      · cases hst
        refine ⟨h.pipefd_eq, h.highest, h.select t ?_⟩
        intro c hc
        cases hc

theorem sound_of_reach {pipefd : ℕ × ℕ} {s : System T}
    (h : Reach (fun s => s = boot pipefd) step LeavesPipe s) : Sound pipefd s := by
  refine h.invariant (I := Sound pipefd) ?_ fun s a t hs hok hst => hs.step hok hst
  rintro s rfl
  exact ⟨rfl, SelectAio.highest_new pipefd, fun t c hc => by cases hc⟩

/-- In every run `highfds_` is the highest descriptor, for the sets and for every `select` that is
under way, and `unwatch_fd` says whether the descriptor is left in neither set. -/
theorem highfds_greatest (pipefd : ℕ × ℕ) (s : System T)
    (h : Reach (fun s => s = boot pipefd) step LeavesPipe s) :
    IsGreatest {fd | fd = pipefd.1 ∨ fd ∈ s.aio.rfds ∨ fd ∈ s.aio.wfds} s.aio.highfds ∧
      (∀ t c, s.selecting t = some c →
        IsGreatest {fd | fd = pipefd.1 ∨ fd ∈ c.trfds ∨ fd ∈ c.twfds} c.high) ∧
      ∀ fd flag, flag = .cbRdonly ∨ flag = .cbWronly ∨ flag = .cbRdwr →
        ∃ aio b, s.aio.unwatchFd fd flag = some (aio, b) ∧
          (b = true ↔ fd ∉ aio.rfds ∧ fd ∉ aio.wfds) := by
  have hsound := sound_of_reach h
  refine ⟨?_, hsound.copies, fun fd flag hflag => s.aio.unwatchFd_returns fd hflag⟩
  rw [← hsound.pipefd_eq]
  exact hsound.highest.isGreatest

/-- The highest descriptor is unwatched during a `select`, and there is a gap below it. -/
def topUnwatched : List (Act ℕ) :=
  [.watchFd 9 .cbRdwr, .watchFd 6 .cbRdonly, .waitReady 0, .unwatchFd 9 .cbRdonly,
    .unwatchFd 9 .cbRdwr, .ready 0 {3, 6} {9}]

theorem highfds_greatest_topUnwatched :
    ∃ s : System ℕ, Reach (fun s => s = boot (3, 4)) step LeavesPipe s ∧ s.aio.highfds = 6 ∧
      s.returned 0 = ([6], [9]) ∧
      IsGreatest {fd | fd = 3 ∨ fd ∈ s.aio.rfds ∨ fd ∈ s.aio.wfds} s.aio.highfds := by
  have hrun : ∃ s : System ℕ, Reach (fun s => s = boot (3, 4)) step LeavesPipe s ∧
      s.aio.highfds = 6 ∧ s.returned 0 = ([6], [9]) :=
    Reach.exists_of_runFrom topUnwatched rfl (by decide +kernel)
  rcases hrun with ⟨s, hs, hhigh, hreturned⟩
  exact ⟨s, hs, hhigh, hreturned, (highfds_greatest (3, 4) s hs).1⟩

/-! ## What `wait_ready` returns -/

/-- After `n` turns: the descriptors below `n`, without the byte in the pipe. -/
theorem mem_turns {pipe unread : ℕ} {trfds twfds : Finset ℕ} (n : ℕ) :
    ∀ {r : Ready},
      (List.range n).foldlM (Ready.turn pipe trfds twfds) ⟨[], [], unread⟩ = some r →
      ∀ fd, (fd ∈ r.readable ↔ fd < n ∧ fd ∈ trfds ∧ fd ≠ pipe) ∧
        (fd ∈ r.writable ↔ fd < n ∧ fd ∈ twfds ∧ ¬ (fd = pipe ∧ fd ∈ trfds)) := by
  induction n with
  | zero =>
      intro r h fd
      cases h
      simp
  | succ n ih =>
      intro r h fd
      rw [List.range_succ, List.foldlM_append] at h
      rcases Option.bind_eq_some_iff.1 h with ⟨q, hq, hlast⟩
      have hold := ih hq fd
      simp only [List.foldlM_cons, List.foldlM_nil, Option.bind_eq_bind] at hlast
      rcases Option.bind_eq_some_iff.1 hlast with ⟨q', hturn, hr⟩
      cases hr
      have hlt : fd < n + 1 ↔ fd < n ∨ fd = n := Nat.lt_succ_iff_lt_or_eq
      unfold Ready.turn at hturn
      split at hturn
      next hpipe =>
        split at hturn
        · cases hturn
        · cases hturn
          simp only [hold, hlt]
          grind
      next hother =>
        cases hturn
        simp only [hlt]
        grind

/-- No watched descriptor is missed: `wait_ready` returns those of its copies that are ready. -/
theorem waitReady_complete {pipefd : ℕ × ℕ} {s s' : System T}
    (h : Reach (fun s => s = boot pipefd) step LeavesPipe s) {t : T} {c : Copy}
    (hc : s.selecting t = some c) {canRead canWrite : Finset ℕ}
    (hst : step s (.ready t canRead canWrite) = some s') {fd : ℕ} (hfd : fd ≠ pipefd.1) :
    (fd ∈ (s'.returned t).1 ↔ fd ∈ c.trfds ∧ fd ∈ canRead) ∧
      (fd ∈ (s'.returned t).2 ↔ fd ∈ c.twfds ∧ fd ∈ canWrite) := by
  have hsound := sound_of_reach h
  have hhigh := (hsound.copies t c hc).2
  rw [step, hc] at hst
  rcases Option.map_eq_some_iff.1 hst with ⟨r, hr, rfl⟩
  have hmem := mem_turns (c.high + 1) hr fd
  rw [hsound.pipefd_eq] at hmem
  -- everything in the copies is below `high + 1`
  have hread : fd ∈ c.trfds → fd < c.high + 1 := fun hmem =>
    Nat.lt_succ_of_le (hhigh (Or.inr (Or.inl hmem)))
  have hwrite : fd ∈ c.twfds → fd < c.high + 1 := fun hmem =>
    Nat.lt_succ_of_le (hhigh (Or.inr (Or.inr hmem)))
  simp only [Copy.select, Finset.mem_filter] at hmem
  simp only [Function.update_self]
  constructor
  · rw [hmem.1]
    exact ⟨fun hr => ⟨hr.2.1.1, hr.2.1.2.2⟩,
      fun hr => ⟨hread hr.1, ⟨hr.1, hread hr.1, hr.2⟩, hfd⟩⟩
  · rw [hmem.2]
    exact ⟨fun hw => ⟨hw.2.1.1, hw.2.1.2.2⟩,
      fun hw => ⟨hwrite hw.1, ⟨hw.1, hwrite hw.1, hw.2⟩, fun hpipe => hfd hpipe.1⟩⟩

end Select
end Rpc
end Yfs

import Yfs.Rpc.Callbacks

/-!
# Wakeup — the wait of `block_remove_fd` ends

`block_remove_fd` waits for the poll thread to come round, and the poll thread may be in `select`
with nothing to do.  `unwatch_fd` writes a byte to the pipe for that.  The byte cannot be used up
too early: the loop takes one out only on its way to the broadcast.  The pipe has room for every
byte here; a `write` to a full pipe would block with `m_` held, and nobody could empty it.

* `Woken` — a thread that waits has left a byte in the pipe, or the loop is past `select`;
* `Loop.distance` — how many steps the poll thread makes at most until its next broadcast.
-/

namespace Yfs
namespace Rpc
namespace Poll

open Lib

open Select

variable {C T : Type}

/-- The poll thread is about to call `select`, or in it. -/
def Loop.Blocking : Loop C → Prop
  | .entering => True
  | .selecting _ => True
  | _ => False

/-- No descriptor that is watched is above this one. -/
def topFd (pipefd : ℕ × ℕ) : ℕ := max pipefd.1 (maxPollFds - 1)

/-- A thread that waits has left a byte in the pipe, which `select` looks at. -/
structure Woken (pipefd : ℕ × ℕ) (s : PollMgr C T) : Prop where
  pipefd_eq : s.aio.pipefd = pipefd
  highest : s.aio.Highest
  bounded : ∀ fd, s.aio.Watched fd → fd ≤ topFd pipefd
  copied : ∀ c, s.loop = .selecting c →
    pipefd.1 ∈ c.trfds ∧ pipefd.1 ≤ c.high ∧ c.high ≤ topFd pipefd
  unread : ∀ t fd, s.removing t = .waiting fd → s.loop.Blocking → 0 < s.aio.unread

theorem woken_new (pipefd : ℕ × ℕ) : Woken pipefd (PollMgr.new pipefd : PollMgr C T) where
  pipefd_eq := rfl
  highest := SelectAio.highest_new pipefd
  bounded fd hw := by
    rcases hw with hr | hw
    · rw [Finset.mem_singleton.1 hr]
      exact Nat.le_max_left _ _
    · exact absurd hw (Finset.notMem_empty fd)
  copied _ h := by cases h
  unread _ _ h := by cases h

/-- The loop goes on. -/
theorem Woken.onward {pipefd : ℕ × ℕ} {s : PollMgr C T} (h : Woken pipefd s) {l : Loop C}
    {unread : ℕ} {pending : Bool} {removing : T → Removing} {seen : ℕ → Option C}
    (hcopied : ∀ c, l = .selecting c →
      pipefd.1 ∈ c.trfds ∧ pipefd.1 ≤ c.high ∧ c.high ≤ topFd pipefd)
    (hunread : ∀ t fd, removing t = .waiting fd → l.Blocking → 0 < unread) :
    Woken pipefd (⟨{ s.aio with unread := unread }, s.callbacks, pending, l, removing, seen⟩ :
      PollMgr C T) where
  pipefd_eq := h.pipefd_eq
  highest := ⟨h.highest.pipe, h.highest.mem, h.highest.le⟩
  bounded := h.bounded
  copied := hcopied
  unread := hunread

theorem Woken.addCallback {pipefd : ℕ × ℕ} {s : PollMgr C T} {fd : ℕ} {flag : PollFlag} {ch : C}
    (h : Woken pipefd s) (hfd : fd < maxPollFds) :
    Woken pipefd { s with
      aio := s.aio.watchFd fd flag
      callbacks := Function.update s.callbacks fd (some ch) } where
  pipefd_eq := h.pipefd_eq
  highest := h.highest.watchFd fd flag
  bounded x hw := by
    rcases (SelectAio.watched_watchFd ..).1 hw with rfl | hold
    · exact Nat.le_trans (Nat.le_sub_one_of_lt hfd) (Nat.le_max_right _ _)
    · exact h.bounded x hold
  copied := h.copied
  unread _ _ _ _ := Nat.succ_pos _

theorem Woken.unwatchFd {pipefd : ℕ × ℕ} {s : PollMgr C T} {fd : ℕ} {flag : PollFlag}
    {aio : SelectAio} {b pending : Bool} {callbacks : ℕ → Option C} {removing : T → Removing}
    (h : Woken pipefd s) (hfd : fd ≠ s.aio.pipefd.1)
    (hun : s.aio.unwatchFd fd flag = some (aio, b))
    (hremoving : flag = .cbRdwr ∨ removing = s.removing) :
    Woken pipefd (⟨aio, callbacks, pending, s.loop, removing, s.seen⟩ : PollMgr C T) := by
  rcases unwatchFd_watched hun with ⟨-, hsub, -, -, -, hle, hlt⟩
  rcases h.highest.unwatchFd hfd hun with ⟨hhighest, hpipe⟩
  refine ⟨hpipe.trans h.pipefd_eq, hhighest, fun x hw => h.bounded x (hsub x hw), h.copied,
    fun t x ht hblocking => ?_⟩
  rcases hremoving with hflag | hremoving
  · exact Nat.lt_of_le_of_lt (Nat.zero_le _) (hlt hflag)
  · have ht' : s.removing t = .waiting x := by
      rw [← hremoving]
      exact ht
    exact Nat.lt_of_lt_of_le (h.unread t x ht' hblocking) hle

/-- A bound on the steps that the poll thread makes until the broadcast. -/
def Loop.distance (pipefd : ℕ × ℕ) : Loop C → ℕ
  | .top => 1
  | .turning readable writable => 3 * (readable.length + writable.length) + 2
  | .calling _ _ _ readable writable => 3 * (readable.length + writable.length) + 3
  | .checked _ _ readable writable => 3 * (readable.length + writable.length) + 4
  | .selecting _ => 6 * (topFd pipefd + 1) + 3
  | .entering => 6 * (topFd pipefd + 1) + 4

variable [DecidableEq T]

theorem Woken.move {pipefd : ℕ × ℕ} {s s' : PollMgr C T} {a : Act C T} (hset : Settled s)
    (h : Woken pipefd s) (hok : Orderly s a) (hmove : Move s a s') : Woken pipefd s' := by
  cases hmove with
  | addCallback hfd => exact h.addCallback hfd
  | delCallback hun => exact h.unwatchFd hok.1 hun (Or.inr rfl)
  | blockRemoveFd _ hun => exact h.unwatchFd hok hun (Or.inl rfl)
  | removed =>
      refine ⟨h.pipefd_eq, h.highest, h.bounded, h.copied, fun t fd ht => ?_⟩
      rcases of_update ht with ⟨-, heq⟩ | hold
      · cases heq
      · exact h.unread t fd hold
  | wakeUp => exact hok.elim
  | broadcast =>
      exact h.onward (fun _ hc => by cases hc) fun t fd ht => absurd ht Removing.of_wake.1
  | pass _ hpending =>
      -- a thread that waits has asked for a broadcast
      refine h.onward (fun _ hc => by cases hc) fun t fd ht => ?_
      rw [hset.pending t fd ht] at hpending
      cases hpending
  | waitReady hloop =>
      refine h.onward (fun c hc => ?_) fun t fd ht _ => h.unread t fd ht (hloop ▸ trivial)
      cases hc
      have hpipe := h.highest.pipe
      rw [h.pipefd_eq] at hpipe
      exact ⟨hpipe, h.highest.le _ (Or.inl hpipe), h.bounded _ h.highest.mem⟩
  | ready | interrupted | skipRead | skipWrite | checkRead | checkWrite | comeRound | call | ret =>
      exact h.onward (fun _ hc => by cases hc) fun _ _ _ hc => hc.elim

theorem distance_of_move {pipefd : ℕ × ℕ} {s s' : PollMgr C T} {a : Act C T} (h : Woken pipefd s)
    (hmove : Move s a s') (hlock : a ≠ .lock) :
    s'.loop.distance pipefd + (if a.isLoop then 1 else 0) ≤ s.loop.distance pipefd := by
  cases hmove with
  | addCallback | delCallback | blockRemoveFd | removed | wakeUp => exact Nat.le_refl _
  | broadcast | pass => exact absurd rfl hlock
  | @ready c canRead canWrite r hloop hcollect =>
      have hlen := (turns_nodup _ hcollect).2
      have hhigh := (h.copied _ hloop).2.2
      simp only [hloop, Loop.distance, Act.isLoop, if_true]
      omega
  | waitReady hloop | interrupted hloop | comeRound hloop | call hloop | ret hloop =>
      simp [hloop, Loop.distance, Act.isLoop]
  | skipRead hloop =>
      simp only [hloop, Loop.distance, Act.isLoop, if_true, List.length_cons]
      omega
  | skipWrite hloop =>
      simp only [hloop, Loop.distance, Act.isLoop, if_true, List.length_cons]
      omega
  | checkRead hloop =>
      simp only [hloop, Loop.distance, Act.isLoop, if_true, List.length_cons]
      omega
  | checkWrite hloop =>
      simp only [hloop, Loop.distance, Act.isLoop, if_true, List.length_cons]
      omega

/-- Nothing but the broadcast ends the wait of a thread. -/
theorem waiting_of_move {s s' : PollMgr C T} {a : Act C T} (hset : Settled s) (hok : Orderly s a)
    (hmove : Move s a s') {t : T} {fd : ℕ} (ht : s.removing t = .waiting fd) :
    a = .lock ∧ s'.removing t = .woken fd ∨ a ≠ .lock ∧ s'.removing t = .waiting fd := by
  -- a thread that begins or ends a removal is another one
  have hother : ∀ t' r, s.removing t' ≠ .waiting fd →
      Function.update s.removing t' r t = .waiting fd := by
    intro t' r ht'
    have hne : t ≠ t' := by
      rintro rfl
      exact ht' ht
    rw [Function.update_of_ne hne, ht]
  cases hmove with
  | blockRemoveFd ht' =>
      exact Or.inr ⟨(fun hc => by cases hc), hother _ _ (by simp [ht'])⟩
  | removed ht' =>
      exact Or.inr ⟨(fun hc => by cases hc), hother _ _ (by simp [ht'])⟩
  | wakeUp => exact hok.elim
  | broadcast =>
      refine Or.inl ⟨rfl, ?_⟩
      simp only [ht, Removing.wake]
  | pass _ hpending =>
      rw [hset.pending t fd ht] at hpending
      cases hpending
  | _ => exact Or.inr ⟨(fun hc => by cases hc), ht⟩

variable [DecidableEq C]

theorem woken_of_reach {pipefd : ℕ × ℕ} {s : PollMgr C T} (h : Polled pipefd s) :
    Woken pipefd s := by
  refine Reach.invariant_with (J := Settled) settled_of_reach ?_
    (fun s a s' hset _ hs hok hst => hs.move hset hok (move_of_step hst)) h
  rintro s rfl
  exact woken_new pipefd

/-- The loop of `wait_ready` takes at most one byte out of the pipe, so it does not fail when there
is one. -/
theorem turns_some (trfds twfds : Finset ℕ) (pipe : ℕ) {unread : ℕ} (hunread : 0 < unread) (n : ℕ) :
    ∃ r, (List.range n).foldlM (Ready.turn pipe trfds twfds) ⟨[], [], unread⟩ = some r ∧
      (n ≤ pipe → r.unread = unread) := by
  induction n with
  | zero => exact ⟨_, rfl, fun _ => rfl⟩
  | succ n ih =>
      rcases ih with ⟨q, hq, hkeep⟩
      rw [List.range_succ, List.foldlM_append, hq]
      simp only [List.foldlM_cons, List.foldlM_nil, Option.bind_eq_bind, Option.bind_some]
      unfold Ready.turn
      split
      next hpipe =>
        have hq' : q.unread = unread := hkeep (Nat.le_of_eq hpipe.1)
        rw [if_neg (by omega)]
        exact ⟨_, rfl, fun hle => absurd hle (by omega)⟩
      next => exact ⟨_, rfl, fun hle => hkeep (Nat.le_of_succ_le hle)⟩

/-- While somebody waits, the poll thread is not stuck: in `select` there is the byte in the
pipe. -/
theorem loop_moves {pipefd : ℕ × ℕ} {s : PollMgr C T} (hset : Settled s) (h : Woken pipefd s)
    {t : T} {fd : ℕ} (ht : s.removing t = .waiting fd) :
    ∃ a, a.isLoop = true ∧ a ≠ .interrupted ∧ Orderly s a ∧ (step s a).isSome = true := by
  cases hloop : s.loop with
  | top =>
      refine ⟨.lock, rfl, by simp, trivial, ?_⟩
      simp only [step, PollMgr.lock, hloop]
      split <;> rfl
  | entering =>
      refine ⟨.waitReady, rfl, by simp, trivial, ?_⟩
      simp only [step, PollMgr.waitReady, hloop, Option.isSome_some]
  | selecting c =>
      have hunread := h.unread t fd ht (hloop ▸ trivial)
      rcases h.copied c hloop with ⟨hpipe, hhigh, -⟩
      rw [← h.pipefd_eq] at hpipe hhigh
      -- `select` with nothing ready but the pipe
      have hselect : c.select {s.aio.pipefd.1} ∅ ≠ (∅, ∅) := by
        intro heq
        have hmem : s.aio.pipefd.1 ∈ (c.select {s.aio.pipefd.1} ∅).1 := by
          simp only [Copy.select, Finset.mem_filter, Finset.mem_singleton]
          exact ⟨hpipe, Nat.lt_succ_of_le hhigh, trivial⟩
        rw [heq] at hmem
        exact absurd hmem (Finset.notMem_empty _)
      rcases turns_some (c.select {s.aio.pipefd.1} ∅).1 (c.select {s.aio.pipefd.1} ∅).2
        s.aio.pipefd.1 hunread (c.high + 1) with ⟨r, hcollect, -⟩
      refine ⟨.ready {s.aio.pipefd.1} ∅, rfl, by simp, trivial, ?_⟩
      simp only [step, PollMgr.ready, hloop]
      rw [if_pos ⟨hselect, by simp [hunread]⟩, Copy.collect, hcollect]
      rfl
  | turning readable writable =>
      refine ⟨.check, rfl, by simp, trivial, ?_⟩
      simp only [step, PollMgr.check, hloop]
      rcases readable with _ | ⟨x, readable⟩
      · rcases writable with _ | ⟨x, writable⟩
        · rfl
        · dsimp only
          split <;> rfl
      · dsimp only
        split <;> rfl
  | checked kind x readable writable =>
      refine ⟨.call, rfl, by simp, trivial, ?_⟩
      have hcb := hset.checked kind x readable writable hloop
      simp only [step, PollMgr.call, hloop, Option.isSome_map]
      exact Option.isSome_iff_ne_none.2 hcb
  | calling kind x ch readable writable =>
      refine ⟨.ret, rfl, by simp, trivial, ?_⟩
      simp only [step, PollMgr.ret, hloop, Option.isSome_some]

/-- Along a run, the thread is woken or the poll thread has not used up its distance. -/
theorem woken_or_counted [Fintype T] {pipefd : ℕ × ℕ} {t : T} {fd : ℕ} :
    ∀ (as : List (Act C T)) {s s' : PollMgr C T}, Settled s → Woken pipefd s →
      s.removing t = .waiting fd → runFrom step Orderly s as = some s' →
      (∃ as₁ as₂ s₁, as = as₁ ++ as₂ ∧ runFrom step Orderly s as₁ = some s₁ ∧
        s₁.removing t = .woken fd) ∨
      as.countP Act.isLoop < s.loop.distance pipefd
  | [], s, s', _, _, _, _ => by
      refine Or.inr ?_
      cases s.loop <;> simp [Loop.distance]
  | a :: as, s, s', hset, hwok, ht, hrun => by
      rcases runFrom_cons hrun with ⟨hok, m, hst, hrest⟩
      have hmove := move_of_step hst
      -- the first step alone is a run to `m`
      have hfirst : ∀ as₁, runFrom step Orderly s (a :: as₁) = runFrom step Orderly m as₁ := by
        intro as₁
        rw [runFrom, if_pos hok, hst]
      rcases waiting_of_move hset hok hmove ht with ⟨rfl, hwoken⟩ | ⟨hlock, hwaiting⟩
      · exact Or.inl ⟨[.lock], as, m, rfl, hfirst [], hwoken⟩
      · have hdist := distance_of_move hwok hmove hlock
        rcases woken_or_counted as (hset.move hok hmove) (hwok.move hset hok hmove) hwaiting hrest
          with ⟨as₁, as₂, s₁, rfl, hrun₁, hwoken⟩ | hcount
        · exact Or.inl ⟨a :: as₁, as₂, s₁, rfl, (hfirst as₁).trans hrun₁, hwoken⟩
        · refine Or.inr ?_
          rw [List.countP_cons]
          omega

theorem distance_bounded {pipefd : ℕ × ℕ} {s : PollMgr C T} (h : Polled pipefd s) :
    s.loop.distance pipefd ≤ 6 * (topFd pipefd + 1) + 4 := by
  refine Reach.invariant_with (J := Woken pipefd)
    (I := fun s => s.loop.distance pipefd ≤ 6 * (topFd pipefd + 1) + 4) woken_of_reach ?_ ?_ h
  · rintro s rfl
    simp [PollMgr.new, Loop.distance]
  · intro s a s' hwok _ hle _ hst
    have hmove := move_of_step hst
    by_cases hlock : a = .lock
    · subst hlock
      cases hmove <;> exact Nat.le_refl _
    · have hdist := distance_of_move hwok hmove hlock
      omega

/-- `block_remove_fd` returns: while a thread waits in it, the poll thread always has a step to
make, and by the time it has made `6 * (topFd + 1) + 4` of them the thread has been woken. -/
theorem block_remove_fd_woken [Fintype T] (pipefd : ℕ × ℕ) {s : PollMgr C T} {t : T} {fd : ℕ}
    (h : Polled pipefd s) (ht : s.removing t = .waiting fd) :
    (∃ a, a.isLoop = true ∧ a ≠ .interrupted ∧ Orderly s a ∧ (step s a).isSome = true) ∧
    ∀ as s', runFrom step Orderly s as = some s' →
      6 * (topFd pipefd + 1) + 4 ≤ as.countP Act.isLoop →
      ∃ as₁ as₂ s₁, as = as₁ ++ as₂ ∧ runFrom step Orderly s as₁ = some s₁ ∧
        s₁.removing t = .woken fd := by
  have hset := settled_of_reach h
  have hwok := woken_of_reach h
  refine ⟨loop_moves hset hwok ht, fun as s' hrun hcount => ?_⟩
  rcases woken_or_counted as hset hwok ht hrun with hwoken | hlt
  · exact hwoken
  · have hbound := distance_bounded h
    omega

/-- The removal begins while the poll thread is in `select`. -/
def removedInSelect : List (Act Bool Unit) :=
  [.addCallback 5 .cbRdonly true, .lock, .waitReady, .ready {3} ∅, .check, .lock, .waitReady,
    .blockRemoveFd () 5]

theorem block_remove_fd_woken_removedInSelect :
    ∃ s : PollMgr Bool Unit, Polled (3, 4) s ∧ s.removing () = .waiting 5 ∧
      (∃ a, a.isLoop = true ∧ a ≠ .interrupted ∧ Orderly s a ∧ (step s a).isSome = true) := by
  have hrun : ∃ s : PollMgr Bool Unit, Reach (fun s => s = PollMgr.new (3, 4)) step Orderly s ∧
      s.removing () = .waiting 5 :=
    Reach.exists_of_runFrom removedInSelect rfl (by decide +kernel)
  rcases hrun with ⟨s, hs, hwaiting⟩
  exact ⟨s, hs, hwaiting, (block_remove_fd_woken (3, 4) hs hwaiting).1⟩

end Poll
end Rpc
end Yfs

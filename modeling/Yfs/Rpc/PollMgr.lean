import Mathlib.Data.Fintype.Basic
import Yfs.Rpc.Select

/-!
# PollMgr — the thread that runs the callbacks of all connections

`wait_loop` waits for descriptors to become ready and calls `read_cb` or `write_cb` of the object
that is registered for each of them.  It does so without `m_`; what keeps it from calling an object
that is about to be deleted is `block_remove_fd`, which takes the descriptor out of the sets and
then waits until the loop has come round once.

* `step` — the loop and the calls of other threads, cut where `m_` is given up and between the test
  of `callbacks_[fd]` and its use;
* `Settled` — what is known of a descriptor that is being removed, at each place of the loop;
* `block_remove_fd_returns` — the promise of `block_remove_fd`, with what it takes (`Orderly`).

The pipe of `SelectAIO` is taken to have room for every byte that is written to it.
-/

namespace Yfs
namespace Rpc
namespace Poll

open Lib

open Select

/-! ## The code -/

/-- `MAX_POLL_FDS`. -/
def maxPollFds : ℕ := 128

/-- Which callback of an object is called. -/
inductive Kind
  | read
  | write
  deriving DecidableEq, Repr

/-- Where the thread of `wait_loop` is.  The lists are what its two `for` loops have not come to. -/
inductive Loop (C : Type)
  /-- Before the section under `m_`. -/
  | top
  /-- After it, and before `wait_ready` has copied the sets. -/
  | entering
  | selecting (c : Copy)
  | turning (readable writable : List ℕ)
  /-- `callbacks_[fd]` was not `NULL`. -/
  | checked (kind : Kind) (fd : ℕ) (readable writable : List ℕ)
  /-- In a callback of `ch`. -/
  | calling (kind : Kind) (fd : ℕ) (ch : C) (readable writable : List ℕ)

/-- Where a thread is in `block_remove_fd`. -/
inductive Removing
  | idle
  /-- In `pthread_cond_wait`. -/
  | waiting (fd : ℕ)
  /-- The wait is over, and `m_` not yet taken again. -/
  | woken (fd : ℕ)
  deriving DecidableEq, Repr

def Removing.wake : Removing → Removing
  | .waiting fd => .woken fd
  | r => r

/-- `seen` are the callbacks at the time the sets were last copied; no step reads it. -/
structure PollMgr (C T : Type) where
  aio : SelectAio
  callbacks : ℕ → Option C
  pendingChange : Bool
  loop : Loop C
  removing : T → Removing
  seen : ℕ → Option C

variable {C T : Type}

namespace PollMgr

def new (pipefd : ℕ × ℕ) : PollMgr C T where
  aio := SelectAio.new pipefd
  callbacks _ := none
  pendingChange := false
  loop := .top
  removing _ := .idle
  seen _ := none

variable [DecidableEq C] [DecidableEq T]

def addCallback (s : PollMgr C T) (fd : ℕ) (flag : PollFlag) (ch : C) : Option (PollMgr C T) :=
  if fd < maxPollFds ∧ (s.callbacks fd = none ∨ s.callbacks fd = some ch) then
    some
      { s with
        aio := s.aio.watchFd fd flag
        callbacks := Function.update s.callbacks fd (some ch) }
  else
    none

/-- A descriptor from `MAX_POLL_FDS` on is outside of `callbacks_`. -/
def delCallback (s : PollMgr C T) (fd : ℕ) (flag : PollFlag) : Option (PollMgr C T) :=
  if fd < maxPollFds then
    (s.aio.unwatchFd fd flag).map fun r =>
      { s with
        aio := r.1
        callbacks := if r.2 then Function.update s.callbacks fd none else s.callbacks }
  else
    none

/-- `block_remove_fd` up to its wait. -/
def blockRemoveFd (s : PollMgr C T) (t : T) (fd : ℕ) : Option (PollMgr C T) :=
  if s.removing t = .idle ∧ fd < maxPollFds then
    (s.aio.unwatchFd fd .cbRdwr).map fun r =>
      { s with
        aio := r.1
        pendingChange := true
        removing := Function.update s.removing t (.waiting fd) }
  else
    none

/-- The end of `block_remove_fd`. -/
def removed (s : PollMgr C T) (t : T) : Option (PollMgr C T) :=
  match s.removing t with
  | .woken fd =>
      some
        { s with
          callbacks := Function.update s.callbacks fd none
          removing := Function.update s.removing t .idle }
  | _ => none

/-- `pthread_cond_wait` returns without a broadcast, as POSIX allows. -/
def wakeUp (s : PollMgr C T) (t : T) : Option (PollMgr C T) :=
  match s.removing t with
  | .waiting fd => some { s with removing := Function.update s.removing t (.woken fd) }
  | _ => none

/-! ### `wait_loop` -/

/-- The section under `m_`; the broadcast wakes all who wait. -/
def lock (s : PollMgr C T) : Option (PollMgr C T) :=
  match s.loop with
  | .top =>
      if s.pendingChange then
        some
          { s with
            pendingChange := false
            removing := fun t => (s.removing t).wake
            loop := .entering }
      else
        some { s with loop := .entering }
  | _ => none

def waitReady (s : PollMgr C T) : Option (PollMgr C T) :=
  match s.loop with
  | .entering =>
      some
        { s with
          loop := .selecting ⟨s.aio.rfds, s.aio.wfds, s.aio.highfds⟩
          seen := s.callbacks }
  | _ => none

/-- `select` returns when a descriptor of its sets is ready; the pipe is if there is a byte in
it. -/
def ready (s : PollMgr C T) (canRead canWrite : Finset ℕ) : Option (PollMgr C T) :=
  match s.loop with
  | .selecting c =>
      if c.select canRead canWrite ≠ (∅, ∅) ∧ (s.aio.pipefd.1 ∈ canRead ↔ 0 < s.aio.unread) then
        (c.collect s.aio canRead canWrite).map fun r =>
          { s with
            aio := { s.aio with unread := r.unread }
            loop := .turning r.readable r.writable }
      else
        none
  | _ => none

/-- `EINTR`: both vectors stay empty. -/
def interrupted (s : PollMgr C T) : Option (PollMgr C T) :=
  match s.loop with
  | .selecting _ => some { s with loop := .turning [] [] }
  | _ => none

/-- `if (callbacks_[fd])` for the next descriptor, all readable ones first. -/
def check (s : PollMgr C T) : Option (PollMgr C T) :=
  match s.loop with
  | .turning (fd :: readable) writable =>
      if s.callbacks fd = none then
        some { s with loop := .turning readable writable }
      else
        some { s with loop := .checked .read fd readable writable }
  | .turning [] (fd :: writable) =>
      if s.callbacks fd = none then
        some { s with loop := .turning [] writable }
      else
        some { s with loop := .checked .write fd [] writable }
  | .turning [] [] => some { s with loop := .top }
  | _ => none

/-- `callbacks_[fd]` is read a second time for the call; `none` if it is `NULL` by now. -/
def call (s : PollMgr C T) : Option (PollMgr C T) :=
  match s.loop with
  | .checked kind fd readable writable =>
      (s.callbacks fd).map fun ch => { s with loop := .calling kind fd ch readable writable }
  | _ => none

def ret (s : PollMgr C T) : Option (PollMgr C T) :=
  match s.loop with
  | .calling _ _ _ readable writable => some { s with loop := .turning readable writable }
  | _ => none

end PollMgr

inductive Act (C T : Type)
  | addCallback (fd : ℕ) (flag : PollFlag) (ch : C)
  | delCallback (fd : ℕ) (flag : PollFlag)
  | blockRemoveFd (t : T) (fd : ℕ)
  | removed (t : T)
  | wakeUp (t : T)
  | lock
  | waitReady
  | ready (canRead canWrite : Finset ℕ)
  | interrupted
  | check
  | call
  | ret

section

variable [DecidableEq C] [DecidableEq T]

def step (s : PollMgr C T) : Act C T → Option (PollMgr C T)
  | .addCallback fd flag ch => s.addCallback fd flag ch
  | .delCallback fd flag => s.delCallback fd flag
  | .blockRemoveFd t fd => s.blockRemoveFd t fd
  | .removed t => s.removed t
  | .wakeUp t => s.wakeUp t
  | .lock => s.lock
  | .waitReady => s.waitReady
  | .ready canRead canWrite => s.ready canRead canWrite
  | .interrupted => s.interrupted
  | .check => s.check
  | .call => s.call
  | .ret => s.ret

/-- The steps of the poll thread. -/
def Act.isLoop : Act C T → Bool
  | .lock | .waitReady | .ready _ _ | .interrupted | .check | .call | .ret => true
  | _ => false

/-- The loop is in a callback for `fd`. -/
def Loop.InCallback (fd : ℕ) : Loop C → Prop
  | .calling _ fd' _ _ _ => fd = fd'
  | _ => False

/-- How `connection.cc` uses it: nobody touches the pipe, no callback is added for a descriptor that
is being removed, and `del_callback` is called by the poll thread in a callback of the descriptor.
Waits do not end by themselves. -/
def Orderly (s : PollMgr C T) : Act C T → Prop
  | .addCallback fd _ _ =>
      fd ≠ s.aio.pipefd.1 ∧ ∀ t, s.removing t ≠ .waiting fd ∧ s.removing t ≠ .woken fd
  | .delCallback fd _ => fd ≠ s.aio.pipefd.1 ∧ s.loop.InCallback fd
  | .blockRemoveFd _ fd => fd ≠ s.aio.pipefd.1
  | .wakeUp _ => False
  | _ => True

instance (fd : ℕ) (l : Loop C) : Decidable (l.InCallback fd) :=
  match l with
  | .calling _ fd' _ _ _ => inferInstanceAs (Decidable (fd = fd'))
  | .top => isFalse id
  | .entering => isFalse id
  | .selecting _ => isFalse id
  | .turning _ _ => isFalse id
  | .checked _ _ _ _ => isFalse id

instance [Fintype T] (s : PollMgr C T) (a : Act C T) : Decidable (Orderly s a) :=
  match a with
  | .addCallback fd _ _ =>
      inferInstanceAs (Decidable (fd ≠ s.aio.pipefd.1 ∧
        ∀ t, s.removing t ≠ .waiting fd ∧ s.removing t ≠ .woken fd))
  | .delCallback fd _ =>
      inferInstanceAs (Decidable (fd ≠ s.aio.pipefd.1 ∧ s.loop.InCallback fd))
  | .blockRemoveFd _ fd => inferInstanceAs (Decidable (fd ≠ s.aio.pipefd.1))
  | .removed _ => isTrue trivial
  | .wakeUp _ => isFalse id
  | .lock => isTrue trivial
  | .waitReady => isTrue trivial
  | .ready _ _ => isTrue trivial
  | .interrupted => isTrue trivial
  | .check => isTrue trivial
  | .call => isTrue trivial
  | .ret => isTrue trivial

end

/-! ## What a step does -/

section

variable [DecidableEq T]

inductive Move (s : PollMgr C T) : Act C T → PollMgr C T → Prop
  | addCallback {fd : ℕ} {flag : PollFlag} {ch : C} (hfd : fd < maxPollFds)
      (hcb : s.callbacks fd = none ∨ s.callbacks fd = some ch) :
      Move s (.addCallback fd flag ch)
        { s with
          aio := s.aio.watchFd fd flag
          callbacks := Function.update s.callbacks fd (some ch) }
  | delCallback {fd : ℕ} {flag : PollFlag} {aio : SelectAio} {b : Bool}
      (hun : s.aio.unwatchFd fd flag = some (aio, b)) :
      Move s (.delCallback fd flag)
        { s with
          aio := aio
          callbacks := if b then Function.update s.callbacks fd none else s.callbacks }
  | blockRemoveFd {t : T} {fd : ℕ} {aio : SelectAio} {b : Bool} (ht : s.removing t = .idle)
      (hun : s.aio.unwatchFd fd .cbRdwr = some (aio, b)) :
      Move s (.blockRemoveFd t fd)
        { s with
          aio := aio
          pendingChange := true
          removing := Function.update s.removing t (.waiting fd) }
  | removed {t : T} {fd : ℕ} (ht : s.removing t = .woken fd) :
      Move s (.removed t)
        { s with
          callbacks := Function.update s.callbacks fd none
          removing := Function.update s.removing t .idle }
  | wakeUp {t : T} {fd : ℕ} (ht : s.removing t = .waiting fd) :
      Move s (.wakeUp t) { s with removing := Function.update s.removing t (.woken fd) }
  | broadcast (hloop : s.loop = .top) (hpending : s.pendingChange = true) :
      Move s .lock
        { s with
          pendingChange := false
          removing := fun t => (s.removing t).wake
          loop := .entering }
  | pass (hloop : s.loop = .top) (hpending : s.pendingChange = false) :
      Move s .lock { s with loop := .entering }
  | waitReady (hloop : s.loop = .entering) :
      Move s .waitReady
        { s with
          loop := .selecting ⟨s.aio.rfds, s.aio.wfds, s.aio.highfds⟩
          seen := s.callbacks }
  | ready {c : Copy} {canRead canWrite : Finset ℕ} {r : Ready} (hloop : s.loop = .selecting c)
      (hcollect : c.collect s.aio canRead canWrite = some r) :
      Move s (.ready canRead canWrite)
        { s with
          aio := { s.aio with unread := r.unread }
          loop := .turning r.readable r.writable }
  | interrupted {c : Copy} (hloop : s.loop = .selecting c) :
      Move s .interrupted { s with loop := .turning [] [] }
  | skipRead {fd : ℕ} {readable writable : List ℕ}
      (hloop : s.loop = .turning (fd :: readable) writable) :
      Move s .check { s with loop := .turning readable writable }
  | skipWrite {fd : ℕ} {writable : List ℕ} (hloop : s.loop = .turning [] (fd :: writable)) :
      Move s .check { s with loop := .turning [] writable }
  | checkRead {fd : ℕ} {readable writable : List ℕ}
      (hloop : s.loop = .turning (fd :: readable) writable) (hcb : s.callbacks fd ≠ none) :
      Move s .check { s with loop := .checked .read fd readable writable }
  | checkWrite {fd : ℕ} {writable : List ℕ} (hloop : s.loop = .turning [] (fd :: writable))
      (hcb : s.callbacks fd ≠ none) :
      Move s .check { s with loop := .checked .write fd [] writable }
  | comeRound (hloop : s.loop = .turning [] []) : Move s .check { s with loop := .top }
  | call {kind : Kind} {fd : ℕ} {readable writable : List ℕ} {ch : C}
      (hloop : s.loop = .checked kind fd readable writable) (hcb : s.callbacks fd = some ch) :
      Move s .call { s with loop := .calling kind fd ch readable writable }
  | ret {kind : Kind} {fd : ℕ} {readable writable : List ℕ} {ch : C}
      (hloop : s.loop = .calling kind fd ch readable writable) :
      Move s .ret { s with loop := .turning readable writable }

/-- The section at the top and the tests of `callbacks_[fd]` have two outcomes each. -/
theorem move_of_loop {s s' : PollMgr C T} :
    (s.lock = some s' → Move s .lock s') ∧ (s.check = some s' → Move s .check s') := by
  constructor
  · intro h
    unfold PollMgr.lock at h
    split at h
    next hloop =>
      split at h
      next hpending =>
        cases h
        exact .broadcast hloop hpending
      next hpending =>
        cases h
        exact .pass hloop (Bool.eq_false_iff.2 hpending)
    next => cases h
  · intro h
    unfold PollMgr.check at h
    split at h
    next hloop =>
      split at h <;> cases h
      · exact .skipRead hloop
      · exact .checkRead hloop ‹_›
    next hloop =>
      split at h <;> cases h
      · exact .skipWrite hloop
      · exact .checkWrite hloop ‹_›
    next hloop =>
      cases h
      exact .comeRound hloop
    next => cases h

variable [DecidableEq C]

theorem move_of_step {s s' : PollMgr C T} {a : Act C T} (h : step s a = some s') : Move s a s' := by
  cases a with
  | addCallback fd flag ch =>
      simp only [step, PollMgr.addCallback] at h
      split at h
      next hok =>
        cases h
        exact .addCallback hok.1 hok.2
      next => cases h
  | delCallback fd flag =>
      simp only [step, PollMgr.delCallback] at h
      split at h
      next =>
        rcases Option.map_eq_some_iff.1 h with ⟨⟨aio, b⟩, hun, rfl⟩
        exact .delCallback hun
      next => cases h
  | blockRemoveFd t fd =>
      simp only [step, PollMgr.blockRemoveFd] at h
      split at h
      next hok =>
        rcases Option.map_eq_some_iff.1 h with ⟨⟨aio, b⟩, hun, rfl⟩
        exact .blockRemoveFd hok.1 hun
      next => cases h
  | removed t =>
      simp only [step, PollMgr.removed] at h
      split at h
      next ht =>
        cases h
        exact .removed ht
      next => cases h
  | wakeUp t =>
      simp only [step, PollMgr.wakeUp] at h
      split at h
      next ht =>
        cases h
        exact .wakeUp ht
      next => cases h
  | lock => exact move_of_loop.1 h
  | waitReady =>
      simp only [step, PollMgr.waitReady] at h
      split at h
      next hloop =>
        cases h
        exact .waitReady hloop
      next => cases h
  | ready canRead canWrite =>
      simp only [step, PollMgr.ready] at h
      split at h
      next hloop =>
        split at h
        next =>
          rcases Option.map_eq_some_iff.1 h with ⟨r, hcollect, rfl⟩
          exact .ready hloop hcollect
        next => cases h
      next => cases h
  | interrupted =>
      simp only [step, PollMgr.interrupted] at h
      split at h
      next hloop =>
        cases h
        exact .interrupted hloop
      next => cases h
  | check => exact move_of_loop.2 h
  | call =>
      simp only [step, PollMgr.call] at h
      split at h
      next hloop =>
        rcases Option.map_eq_some_iff.1 h with ⟨ch, hcb, rfl⟩
        exact .call hloop hcb
      next => cases h
  | ret =>
      simp only [step, PollMgr.ret] at h
      split at h
      next hloop =>
        cases h
        exact .ret hloop
      next => cases h

/-- What `unwatch_fd` does to the sets. -/
theorem unwatchFd_watched {a a' : SelectAio} {fd : ℕ} {flag : PollFlag} {b : Bool}
    (h : a.unwatchFd fd flag = some (a', b)) :
    a'.pipefd = a.pipefd ∧ (∀ x, a'.Watched x → a.Watched x) ∧
      (b = true → ¬ a'.Watched fd) ∧ (flag = .cbRdwr → ¬ a'.Watched fd) ∧
      (∀ x, x ≠ fd → a.Watched x → a'.Watched x) ∧ a.unread ≤ a'.unread ∧
      (flag = .cbRdwr → a.unread < a'.unread) := by
  rcases Option.map_eq_some_iff.1 h with ⟨c, hclear, heq⟩
  rcases SelectAio.clear_spec hclear with ⟨-, hpipefd, hsub, -, hkeep⟩
  rcases SelectAio.lower_sets c fd with ⟨hrfds, hwfds, hpipe⟩
  have hunread : c.unread = a.unread := by
    cases flag <;> cases hclear <;> rfl
  cases heq
  have hwatched : ∀ x, SelectAio.Watched
      { c.lower fd with unread := if flag = .cbRdwr then c.unread + 1 else c.unread } x ↔
      c.Watched x := by
    intro x
    simp only [SelectAio.Watched, hrfds, hwfds]
  refine ⟨hpipe.trans hpipefd, fun x hx => hsub x ((hwatched x).1 hx), fun hb => ?_,
    fun hflag => ?_, fun x hx hw => (hwatched x).2 (hkeep x hx hw), ?_, fun hflag => ?_⟩
  · rw [hwatched, SelectAio.Watched, not_or]
    exact of_decide_eq_true hb
  · rw [hwatched]
    subst hflag
    cases hclear
    simp [SelectAio.Watched]
  · show a.unread ≤ if flag = .cbRdwr then c.unread + 1 else c.unread
    split <;> omega
  · show a.unread < if flag = .cbRdwr then c.unread + 1 else c.unread
    rw [if_pos hflag]
    omega

/-- What is collected was in the copies. -/
theorem mem_of_collect {c : Copy} {a : SelectAio} {canRead canWrite : Finset ℕ} {r : Ready}
    (h : c.collect a canRead canWrite = some r) (fd : ℕ) :
    (fd ∈ r.readable → fd ∈ c.trfds ∧ fd ≠ a.pipefd.1) ∧ (fd ∈ r.writable → fd ∈ c.twfds) := by
  have hmem := mem_turns (c.high + 1) h fd
  simp only [Copy.select, Finset.mem_filter] at hmem
  exact ⟨fun hr => ⟨(hmem.1.1 hr).2.1.1, (hmem.1.1 hr).2.2⟩, fun hw => (hmem.2.1 hw).2.1.1⟩

end

/-! ## Removal -/

/-- The loop may still look at `fd` before it comes round. -/
def Loop.Ahead (fd : ℕ) : Loop C → Prop
  | .top => False
  | .entering => False
  | .selecting c => fd ∈ c.trfds ∨ fd ∈ c.twfds
  | .turning readable writable => fd ∈ readable ∨ fd ∈ writable
  | .checked _ fd' readable writable => fd = fd' ∨ fd ∈ readable ∨ fd ∈ writable
  | .calling _ fd' _ readable writable => fd = fd' ∨ fd ∈ readable ∨ fd ∈ writable

/-- Neither watched nor, for this round, in the hands of the loop. -/
structure Quiet (s : PollMgr C T) (fd : ℕ) : Prop where
  unwatched : ¬ s.aio.Watched fd
  passed : ¬ s.loop.Ahead fd

/-- What is known of the descriptors that are being removed, and of the one that the loop has
tested. -/
structure Settled (s : PollMgr C T) : Prop where
  waiting : ∀ t fd, s.removing t = .waiting fd → ¬ s.aio.Watched fd
  pending : ∀ t fd, s.removing t = .waiting fd → s.pendingChange = true
  woken : ∀ t fd, s.removing t = .woken fd → Quiet s fd
  checked : ∀ kind fd readable writable, s.loop = .checked kind fd readable writable →
    s.callbacks fd ≠ none

theorem settled_new (pipefd : ℕ × ℕ) : Settled (PollMgr.new pipefd : PollMgr C T) where
  waiting _ _ h := by cases h
  pending _ _ h := by cases h
  woken _ _ h := by cases h
  checked _ _ _ _ h := by cases h

/-- A descriptor that is being removed is not added. -/
theorem Orderly.not_adds {s : PollMgr C T} {a : Act C T} (hok : Orderly s a) {t : T} {fd : ℕ}
    (ht : s.removing t = .waiting fd ∨ s.removing t = .woken fd) (flag : PollFlag) (ch : C) :
    a ≠ .addCallback fd flag ch := by
  rintro rfl
  rcases ht with ht | ht
  · exact (hok.2 t).1 ht
  · exact (hok.2 t).2 ht

theorem Removing.of_wake {r : Removing} {fd : ℕ} :
    r.wake ≠ .waiting fd ∧ (r.wake = .woken fd → r = .waiting fd ∨ r = .woken fd) := by
  cases r <;> simp [Removing.wake]

/-- The broadcast comes when the loop has nothing in its hands. -/
theorem Settled.broadcast {s : PollMgr C T} (h : Settled s) :
    Settled { s with
      pendingChange := false
      removing := fun t => (s.removing t).wake
      loop := .entering } where
  waiting _ _ ht := absurd ht Removing.of_wake.1
  pending _ _ ht := absurd ht Removing.of_wake.1
  woken t fd ht := by
    rcases Removing.of_wake.2 ht with hold | hold
    · exact ⟨h.waiting t fd hold, id⟩
    · exact ⟨(h.woken t fd hold).unwatched, id⟩
  checked _ _ _ _ hc := by cases hc

variable [DecidableEq T]

/-- The poll thread goes on to what it had before it. -/
theorem ahead_of_move {s s' : PollMgr C T} {a : Act C T} (h : Move s a s') {fd : ℕ}
    (hfd : s'.loop.Ahead fd) : s.loop.Ahead fd ∨ s.loop = .entering ∧ s.aio.Watched fd := by
  cases h with
  | addCallback | delCallback | blockRemoveFd | removed | wakeUp => exact Or.inl hfd
  | broadcast | pass => exact hfd.elim
  | waitReady hloop => exact Or.inr ⟨hloop, hfd⟩
  | ready hloop hcollect =>
      rw [hloop]
      have hmem := mem_of_collect hcollect fd
      exact Or.inl (hfd.imp (fun hr => (hmem.1 hr).1) hmem.2)
  | interrupted hloop =>
      rcases hfd with hfd | hfd <;> cases hfd
  | skipRead hloop =>
      rw [hloop]
      exact Or.inl (hfd.imp_left (List.mem_cons_of_mem _))
  | skipWrite hloop =>
      rw [hloop]
      exact Or.inl (hfd.imp_right (List.mem_cons_of_mem _))
  | checkRead hloop =>
      rw [hloop]
      rcases hfd with rfl | hr | hw
      · exact Or.inl (Or.inl List.mem_cons_self)
      · exact Or.inl (Or.inl (List.mem_cons_of_mem _ hr))
      · exact Or.inl (Or.inr hw)
  | checkWrite hloop =>
      rw [hloop]
      rcases hfd with rfl | hr | hw
      · exact Or.inl (Or.inr List.mem_cons_self)
      · cases hr
      · exact Or.inl (Or.inr (List.mem_cons_of_mem _ hw))
  | comeRound => exact hfd.elim
  | call hloop =>
      rw [hloop]
      exact Or.inl hfd
  | ret hloop =>
      rw [hloop]
      exact Or.inl (Or.inr hfd)

/-- Only `add_callback` watches a descriptor. -/
theorem watched_of_move {s s' : PollMgr C T} {a : Act C T} (h : Move s a s') {fd : ℕ}
    (hfd : s'.aio.Watched fd) : s.aio.Watched fd ∨ ∃ flag ch, a = .addCallback fd flag ch := by
  cases h with
  | @addCallback fd' flag ch =>
      rcases (SelectAio.watched_watchFd _ _ _ _).1 hfd with rfl | hold
      · exact Or.inr ⟨flag, ch, rfl⟩
      · exact Or.inl hold
  | delCallback hun | blockRemoveFd _ hun => exact Or.inl ((unwatchFd_watched hun).2.1 fd hfd)
  | _ => exact Or.inl hfd

theorem Quiet.move {s s' : PollMgr C T} {a : Act C T} {fd : ℕ} (h : Quiet s fd)
    (hadd : ∀ flag ch, a ≠ .addCallback fd flag ch) (hmove : Move s a s') : Quiet s' fd where
  unwatched hw := by
    rcases watched_of_move hmove hw with hold | ⟨flag, ch, ha⟩
    · exact h.unwatched hold
    · exact hadd flag ch ha
  passed hahead := by
    rcases ahead_of_move hmove hahead with hold | ⟨-, hw⟩
    · exact h.passed hold
    · exact h.unwatched hw

/-- A step that no removal takes part in. -/
theorem Settled.frame {s s' : PollMgr C T} {a : Act C T} (h : Settled s) (hok : Orderly s a)
    (hmove : Move s a s') (hremoving : s'.removing = s.removing)
    (hpending : s'.pendingChange = s.pendingChange)
    (hchecked : ∀ kind fd readable writable, s'.loop = .checked kind fd readable writable →
      s'.callbacks fd ≠ none) : Settled s' where
  waiting t fd ht hw := by
    rw [hremoving] at ht
    rcases watched_of_move hmove hw with hold | ⟨flag, ch, ha⟩
    · exact h.waiting t fd ht hold
    · exact hok.not_adds (Or.inl ht) flag ch ha
  pending t fd ht := by
    rw [hremoving] at ht
    rw [hpending]
    exact h.pending t fd ht
  woken t fd ht := by
    rw [hremoving] at ht
    exact (h.woken t fd ht).move (hok.not_adds (Or.inr ht)) hmove
  checked := hchecked

/-- One entry of a table is written. -/
theorem of_update {f : T → Removing} {t t' : T} {r v : Removing}
    (h : Function.update f t r t' = v) : t' = t ∧ r = v ∨ f t' = v := by
  by_cases htt : t' = t
  · subst htt
    rw [Function.update_self] at h
    exact Or.inl ⟨rfl, h⟩
  · rw [Function.update_of_ne htt] at h
    exact Or.inr h

theorem Settled.blockRemoveFd {s : PollMgr C T} {t : T} {fd : ℕ} {aio : SelectAio} {b : Bool}
    (h : Settled s) (hun : s.aio.unwatchFd fd .cbRdwr = some (aio, b)) :
    Settled { s with
      aio := aio
      pendingChange := true
      removing := Function.update s.removing t (.waiting fd) } := by
  rcases unwatchFd_watched hun with ⟨-, hsub, -, hgone, -⟩
  refine ⟨fun t' fd' ht' => ?_, fun _ _ _ => rfl, fun t' fd' ht' => ?_, h.checked⟩
  · rcases of_update ht' with ⟨-, heq⟩ | hold
    · cases heq
      exact hgone rfl
    · exact fun hw => h.waiting t' fd' hold (hsub fd' hw)
  · rcases of_update ht' with ⟨-, heq⟩ | hold
    · cases heq
    · have hquiet := h.woken t' fd' hold
      exact ⟨fun hw => hquiet.unwatched (hsub fd' hw), hquiet.passed⟩

/-- The entry of the removed descriptor is cleared; the loop has not tested it. -/
theorem Settled.removed {s : PollMgr C T} {t : T} {fd : ℕ} (h : Settled s)
    (ht : s.removing t = .woken fd) :
    Settled { s with
      callbacks := Function.update s.callbacks fd none
      removing := Function.update s.removing t .idle } := by
  refine ⟨fun t' fd' ht' => ?_, fun t' fd' ht' => ?_, fun t' fd' ht' => ?_,
    fun kind fd' readable writable hloop => ?_⟩
  · rcases of_update ht' with ⟨-, heq⟩ | hold
    · cases heq
    · exact h.waiting t' fd' hold
  · rcases of_update ht' with ⟨-, heq⟩ | hold
    · cases heq
    · exact h.pending t' fd' hold
  · rcases of_update ht' with ⟨-, heq⟩ | hold
    · cases heq
    · exact ⟨(h.woken t' fd' hold).unwatched, (h.woken t' fd' hold).passed⟩
  · have hloop' : s.loop = .checked kind fd' readable writable := hloop
    have hne : fd' ≠ fd := by
      rintro rfl
      apply (h.woken t fd' ht).passed
      rw [hloop']
      exact Or.inl rfl
    simp only [Function.update_of_ne hne]
    exact h.checked kind fd' readable writable hloop'

theorem Settled.move {s s' : PollMgr C T} {a : Act C T} (h : Settled s) (hok : Orderly s a)
    (hmove : Move s a s') : Settled s' := by
  have hframe := fun hr hp => h.frame hok hmove hr hp
  cases hmove with
  | @addCallback fd flag ch =>
      refine hframe rfl rfl fun kind fd' readable writable hloop => ?_
      have hold := h.checked kind fd' readable writable hloop
      by_cases hfd : fd' = fd
      · subst hfd
        simp
      · simpa only [Function.update_of_ne hfd] using hold
  | delCallback hun =>
      -- in a callback, so nothing has been tested
      refine hframe rfl rfl fun kind fd' readable writable hloop => ?_
      have hin := hok.2
      rw [show s.loop = _ from hloop] at hin
      exact hin.elim
  | blockRemoveFd ht hun => exact h.blockRemoveFd hun
  | removed ht => exact h.removed ht
  | wakeUp ht => exact hok.elim
  | broadcast hloop => exact h.broadcast
  | pass | waitReady | ready | interrupted | skipRead | skipWrite =>
      exact hframe rfl rfl fun _ _ _ _ hc => by cases hc
  | checkRead hloop hcb =>
      refine hframe rfl rfl fun _ _ _ _ hc => ?_
      cases hc
      exact hcb
  | checkWrite hloop hcb =>
      refine hframe rfl rfl fun _ _ _ _ hc => ?_
      cases hc
      exact hcb
  | comeRound | call | ret => exact hframe rfl rfl fun _ _ _ _ hc => by cases hc

/-- An entry that is `NULL` stays so until a callback is added. -/
theorem callbacks_of_move {s s' : PollMgr C T} {a : Act C T} {fd : ℕ}
    (hadd : ∀ flag ch, a ≠ .addCallback fd flag ch) (h : Move s a s')
    (hnone : s.callbacks fd = none) : s'.callbacks fd = none := by
  cases h with
  | @addCallback fd' flag ch =>
      have hne : fd ≠ fd' := by
        rintro rfl
        exact hadd flag ch rfl
      simpa only [Function.update_of_ne hne] using hnone
  | @delCallback fd' flag aio b =>
      by_cases hfd : fd = fd'
      · subst hfd
        cases b <;> simp [hnone]
      · cases b <;> simp [Function.update_of_ne hfd, hnone]
  | @removed t fd' =>
      by_cases hfd : fd = fd'
      · subst hfd
        simp
      · simpa only [Function.update_of_ne hfd] using hnone
  | _ => exact hnone

variable [DecidableEq C]

/-- `Orderly` runs of a poll manager with these ends of its pipe. -/
def Polled (pipefd : ℕ × ℕ) : PollMgr C T → Prop :=
  Reach (fun s => s = PollMgr.new pipefd) step Orderly

theorem Polled.step {pipefd : ℕ × ℕ} {s s' : PollMgr C T} {a : Act C T} (h : Polled pipefd s)
    (hst : step s a = some s') (hok : Orderly s a) : Polled pipefd s' :=
  Reach.next h hok hst

theorem settled_of_reach {pipefd : ℕ × ℕ} {s : PollMgr C T} (h : Polled pipefd s) : Settled s := by
  refine Reach.invariant (I := Settled) ?_ (fun s a s' hs hok hst => hs.move hok (move_of_step hst))
    h
  rintro s rfl
  exact settled_new pipefd

/-- When `block_remove_fd(fd)` returns, the poll thread is in no callback of `fd`, and until the
next `add_callback(fd, ..)` it does not begin one. -/
theorem block_remove_fd_returns (pipefd : ℕ × ℕ) {s s' s'' : PollMgr C T} {t : T} {fd : ℕ}
    (h : Polled pipefd s) (ht : s.removing t = .woken fd) (hret : step s (.removed t) = some s')
    (hlater : Reach (fun x => x = s') step
      (fun _ a => ∀ flag ch, a ≠ .addCallback fd flag ch) s'') :
    ¬ s''.loop.InCallback fd ∧ s''.callbacks fd = none ∧ ¬ s''.aio.Watched fd := by
  have hquiet := (settled_of_reach h).woken t fd ht
  have hmove := move_of_step hret
  have hinv : Quiet s'' fd ∧ s''.callbacks fd = none := by
    refine Reach.invariant (I := fun s => Quiet s fd ∧ s.callbacks fd = none) ?_ ?_ hlater
    · rintro s' rfl
      refine ⟨hquiet.move (fun flag ch hc => by cases hc) hmove, ?_⟩
      cases hmove with
      | removed ht' =>
          rw [ht] at ht'
          cases ht'
          exact Function.update_self ..
    · rintro s a s' ⟨hq, hnone⟩ hadd hst
      exact ⟨hq.move hadd (move_of_step hst), callbacks_of_move hadd (move_of_step hst) hnone⟩
  refine ⟨fun hin => hinv.1.passed ?_, hinv.2, hinv.1.unwatched⟩
  cases hloop : s''.loop with
  | calling kind fd' ch readable writable =>
      rw [hloop] at hin
      exact Or.inl hin
  | _ =>
      rw [hloop] at hin
      exact hin.elim

/-- A descriptor is removed while its callback runs. -/
def removedInCallback : List (Act Bool Unit) :=
  [.addCallback 5 .cbRdonly true, .lock, .waitReady, .ready {3, 5} ∅, .check, .call,
    .blockRemoveFd () 5, .ret, .check, .lock]

theorem block_remove_fd_returns_removedInCallback :
    ∃ s s' : PollMgr Bool Unit, Polled (3, 4) s ∧ s.removing () = .woken 5 ∧
      s.callbacks 5 = some true ∧ step s (.removed ()) = some s' ∧ ¬ s'.loop.InCallback 5 ∧
      s'.callbacks 5 = none ∧ ¬ s'.aio.Watched 5 := by
  have hrun : ∃ s : PollMgr Bool Unit, Reach (fun s => s = PollMgr.new (3, 4)) step Orderly s ∧
      (s.removing () = .woken 5 ∧ s.callbacks 5 = some true) :=
    Reach.exists_of_runFrom removedInCallback rfl (by decide +kernel)
  rcases hrun with ⟨s, hs, hwoken, hcb⟩
  have hret : ∃ s', step s (.removed ()) = some s' :=
    ⟨_, by simp only [step, PollMgr.removed, hwoken]; rfl⟩
  rcases hret with ⟨s', hret⟩
  exact ⟨s, s', hs, hwoken, hcb, hret,
    block_remove_fd_returns (3, 4) hs hwoken hret (Reach.start rfl)⟩

end Poll
end Rpc
end Yfs

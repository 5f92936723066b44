import Yfs.Rpc.PollMgr

/-!
# EPoll — `EPollAIO` in the place of `SelectAIO`

`aio_mgr` is the interface of both; `PollMgr` makes a `SelectAIO`, and a line that makes an
`EPollAIO` is commented out.  `EPollAIO` keeps its flags in `fdstatus_` and registers what they say
with the kernel, whose answers it verifies.  What `epoll_wait` then reports is not modelled: the
registrations are edge-triggered, those of `SelectAIO` are not.

* `EPollAio` — the flags, with the interest list of the kernel;
* `Agrees` — the flags, the interest list and the two sets of `SelectAIO` say the same;
* `epoll_agrees_iff` — the two are interchangeable for `watch_fd` and `unwatch_fd`, exactly as long
  as nobody unwatches a descriptor that is not watched, and never for `is_watched`.
-/

namespace Yfs
namespace Rpc
namespace Poll

open Lib
open Select

/-! ## The code -/

/-- The values of `poll_flag`. -/
def flagBits : PollFlag → BitVec 32
  | .cbNone => 0x0#32
  | .cbRdonly => 0x1#32
  | .cbWronly => 0x10#32
  | .cbRdwr => 0x11#32
  | .cbMask => ~~~0x11#32

/-- `epoll_event::events`. -/
structure Events where
  epollin : Bool
  epollout : Bool
  epollet : Bool
  deriving DecidableEq, Repr

inductive CtlOp
  | add
  | mod
  | del
  deriving DecidableEq, Repr

/-- `epoll_ctl` on the interest list; `none` is a result of -1. -/
def epollCtl (interest : ℕ → Option Events) (op : CtlOp) (fd : ℕ) (ev : Events) :
    Option (ℕ → Option Events) :=
  match op, interest fd with
  | .add, none => some (Function.update interest fd (some ev))
  | .mod, some _ => some (Function.update interest fd (some ev))
  | .del, some _ => some (Function.update interest fd none)
  | _, _ => none

/-- `interest` is what the kernel has for `pollfd_`. -/
structure EPollAio where
  fdstatus : ℕ → BitVec 32
  interest : ℕ → Option Events

namespace EPollAio

def new : EPollAio where
  fdstatus _ := 0
  interest _ := none

/-- `ev.events` for the flags of a descriptor. -/
def events (status : BitVec 32) : Events where
  epollin := status &&& flagBits .cbRdonly != 0
  epollout := status &&& flagBits .cbWronly != 0
  epollet := true

def watchFd (s : EPollAio) (fd : ℕ) (flag : PollFlag) : Option EPollAio :=
  if fd < maxPollFds then
    let op := if s.fdstatus fd ≠ 0 then CtlOp.mod else CtlOp.add
    let status := s.fdstatus fd ||| flagBits flag
    if flag = .cbRdwr ∧ events status ≠ ⟨true, true, true⟩ then
      none
    else
      (epollCtl s.interest op fd (events status)).map fun interest =>
        { fdstatus := Function.update s.fdstatus fd status
          interest := interest }
  else
    none

def unwatchFd (s : EPollAio) (fd : ℕ) (flag : PollFlag) : Option (EPollAio × Bool) :=
  if fd < maxPollFds then
    let status := s.fdstatus fd &&& ~~~flagBits flag
    let op := if status ≠ 0 then CtlOp.mod else CtlOp.del
    if flag = .cbRdwr ∧ op ≠ .del then
      none
    else
      (epollCtl s.interest op fd (events status)).map fun interest =>
        ({ fdstatus := Function.update s.fdstatus fd status
           interest := interest }, decide (op = .del))
  else
    none

/-- `CB_MASK` has every bit but those of the flags. -/
def isWatched (s : EPollAio) (fd : ℕ) (flag : PollFlag) : Option Bool :=
  if fd < maxPollFds then
    some (s.fdstatus fd &&& flagBits .cbMask == flagBits flag)
  else
    none

/-- The loop of `wait_ready` over what `epoll_wait` has left in `ready_`. -/
def waitReady (ready : List (ℕ × Events)) : List ℕ × List ℕ :=
  ready.foldl
    (fun r ev =>
      (if ev.2.epollin then r.1 ++ [ev.1] else r.1, if ev.2.epollout then r.2 ++ [ev.1] else r.2))
    ([], [])

end EPollAio

/-- The methods of `aio_mgr` that change or ask what is watched. -/
structure AioMgr (σ : Type) where
  watchFd : σ → ℕ → PollFlag → Option σ
  unwatchFd : σ → ℕ → PollFlag → Option (σ × Bool)
  isWatched : σ → ℕ → PollFlag → Option Bool

def selectAio : AioMgr SelectAio where
  watchFd s fd flag := some (s.watchFd fd flag)
  unwatchFd s fd flag := s.unwatchFd fd flag
  isWatched s fd flag := some (s.isWatched fd flag)

def epollAio : AioMgr EPollAio where
  watchFd := EPollAio.watchFd
  unwatchFd := EPollAio.unwatchFd
  isWatched := EPollAio.isWatched

inductive AioCall
  | watchFd (fd : ℕ) (flag : PollFlag)
  | unwatchFd (fd : ℕ) (flag : PollFlag)
  deriving DecidableEq, Repr

/-- A sequence of calls, with what the calls of `unwatch_fd` return. -/
def AioMgr.run {σ : Type} (m : AioMgr σ) : σ → List AioCall → Option (σ × List Bool)
  | s, [] => some (s, [])
  | s, .watchFd fd flag :: calls => (m.watchFd s fd flag).bind fun s' => m.run s' calls
  | s, .unwatchFd fd flag :: calls =>
      (m.unwatchFd s fd flag).bind fun r => (m.run r.1 calls).map fun q => (q.1, r.2 :: q.2)

/-- The flags that are passed, and descriptors that `callbacks_` and `fdstatus_` have room for. -/
def AioCall.Proper (pipe : ℕ) : AioCall → Prop
  | .watchFd fd flag | .unwatchFd fd flag =>
      fd < maxPollFds ∧ fd ≠ pipe ∧ (flag = .cbRdonly ∨ flag = .cbWronly ∨ flag = .cbRdwr)

/-- Nobody unwatches a descriptor that is not watched. -/
def Covered : SelectAio → List AioCall → Prop
  | _, [] => True
  | s, .watchFd fd flag :: calls => Covered (s.watchFd fd flag) calls
  | s, .unwatchFd fd flag :: calls =>
      s.Watched fd ∧ ∀ r, s.unwatchFd fd flag = some r → Covered r.1 calls

/-! ## Flags -/

/-- The flags of a descriptor that is in these sets. -/
def bitsOf (r w : Bool) : BitVec 32 :=
  (if r then flagBits .cbRdonly else 0) ||| (if w then flagBits .cbWronly else 0)

theorem bitsOf_or (r w : Bool) {flag : PollFlag}
    (hflag : flag = .cbRdonly ∨ flag = .cbWronly ∨ flag = .cbRdwr) :
    bitsOf r w ||| flagBits flag =
      bitsOf (r || decide (flag ≠ .cbWronly)) (w || decide (flag ≠ .cbRdonly)) := by
  rcases hflag with rfl | rfl | rfl <;> cases r <;> cases w <;> decide

theorem bitsOf_and_not (r w : Bool) {flag : PollFlag}
    (hflag : flag = .cbRdonly ∨ flag = .cbWronly ∨ flag = .cbRdwr) :
    bitsOf r w &&& ~~~flagBits flag =
      bitsOf (r && decide (flag = .cbWronly)) (w && decide (flag = .cbRdonly)) := by
  rcases hflag with rfl | rfl | rfl <;> cases r <;> cases w <;> decide

theorem bitsOf_eq_zero (r w : Bool) : bitsOf r w = 0 ↔ r = false ∧ w = false := by
  cases r <;> cases w <;> decide

theorem events_bitsOf (r w : Bool) : EPollAio.events (bitsOf r w) = ⟨r, w, true⟩ := by
  cases r <;> cases w <;> decide

theorem bitsOf_and_mask (r w : Bool) : bitsOf r w &&& flagBits .cbMask = 0 := by
  cases r <;> cases w <;> decide

/-- What is registered with the kernel for these flags. -/
def interestOf (r w : Bool) : Option Events :=
  if bitsOf r w = 0 then none else some ⟨r, w, true⟩

/-! ## Agreement -/

/-- The flags and the interest list say what the sets say; the pipe is only in the sets. -/
structure Agrees (e : EPollAio) (s : SelectAio) : Prop where
  fdstatus : ∀ fd, fd ≠ s.pipefd.1 →
    e.fdstatus fd = bitsOf (decide (fd ∈ s.rfds)) (decide (fd ∈ s.wfds))
  interest : ∀ fd, fd ≠ s.pipefd.1 →
    e.interest fd = interestOf (decide (fd ∈ s.rfds)) (decide (fd ∈ s.wfds))

theorem agrees_new (pipefd : ℕ × ℕ) : Agrees .new (.new pipefd) where
  fdstatus fd hfd := by
    have hne : fd ≠ pipefd.1 := hfd
    simp [EPollAio.new, SelectAio.new, hne, bitsOf]
  interest fd hfd := by
    have hne : fd ≠ pipefd.1 := hfd
    simp [EPollAio.new, SelectAio.new, hne, interestOf, bitsOf]

/-- One descriptor gets new flags and is registered accordingly. -/
theorem Agrees.set {e : EPollAio} {s s' : SelectAio} {fd : ℕ} (h : Agrees e s)
    (hpipe : s'.pipefd = s.pipefd)
    (hother : ∀ x, x ≠ fd → (x ∈ s'.rfds ↔ x ∈ s.rfds) ∧ (x ∈ s'.wfds ↔ x ∈ s.wfds)) :
    Agrees
      { fdstatus := Function.update e.fdstatus fd
          (bitsOf (decide (fd ∈ s'.rfds)) (decide (fd ∈ s'.wfds)))
        interest := Function.update e.interest fd
          (interestOf (decide (fd ∈ s'.rfds)) (decide (fd ∈ s'.wfds))) } s' := by
  refine ⟨fun x hx => ?_, fun x hx => ?_⟩
  · rw [hpipe] at hx
    by_cases hxfd : x = fd
    · subst hxfd
      exact Function.update_self ..
    · simp only [Function.update_of_ne hxfd, hother x hxfd]
      exact h.fdstatus x hx
  · rw [hpipe] at hx
    by_cases hxfd : x = fd
    · subst hxfd
      exact Function.update_self ..
    · simp only [Function.update_of_ne hxfd, hother x hxfd]
      exact h.interest x hx

/-- `epoll_ctl` succeeds if the operation fits what is registered. -/
theorem epollCtl_eq {interest : ℕ → Option Events} {fd : ℕ} (r w r' w' : Bool)
    (hinterest : interest fd = interestOf r w) :
    (bitsOf r' w' ≠ 0 →
      epollCtl interest (if bitsOf r w ≠ 0 then .mod else .add) fd ⟨r', w', true⟩ =
        some (Function.update interest fd (interestOf r' w'))) ∧
    (bitsOf r w ≠ 0 →
      epollCtl interest (if bitsOf r' w' ≠ 0 then .mod else .del) fd ⟨r', w', true⟩ =
        some (Function.update interest fd (interestOf r' w'))) ∧
    (bitsOf r w = 0 → ∀ op, op ≠ .add → epollCtl interest op fd ⟨r', w', true⟩ = none) := by
  refine ⟨fun h' => ?_, fun h => ?_, fun h op hop => ?_⟩
  · by_cases h : bitsOf r w = 0
    · simp only [epollCtl, hinterest, interestOf, h, h', ne_eq, not_true_eq_false, if_true,
        if_false]
    · simp only [epollCtl, hinterest, interestOf, h, h', ne_eq, not_false_eq_true, if_true,
        if_false]
  · by_cases h' : bitsOf r' w' = 0
    · simp only [epollCtl, hinterest, interestOf, h, h', ne_eq, not_true_eq_false, if_true,
        if_false]
    · simp only [epollCtl, hinterest, interestOf, h, h', ne_eq, not_false_eq_true, if_true,
        if_false]
  · cases op with
    | add => exact absurd rfl hop
    | mod | del => simp only [epollCtl, hinterest, interestOf, h, if_true]

theorem Agrees.watchFd {e : EPollAio} {s : SelectAio} {fd : ℕ} {flag : PollFlag} (h : Agrees e s)
    (hfd : fd < maxPollFds) (hpipe : fd ≠ s.pipefd.1)
    (hflag : flag = .cbRdonly ∨ flag = .cbWronly ∨ flag = .cbRdwr) :
    ∃ e', e.watchFd fd flag = some e' ∧ Agrees e' (s.watchFd fd flag) := by
  have hsets : decide (fd ∈ (s.watchFd fd flag).rfds) =
        (decide (fd ∈ s.rfds) || decide (flag ≠ .cbWronly)) ∧
      decide (fd ∈ (s.watchFd fd flag).wfds) =
        (decide (fd ∈ s.wfds) || decide (flag ≠ .cbRdonly)) := by
    rcases hflag with rfl | rfl | rfl <;> simp [SelectAio.watchFd]
  have hother : ∀ x, x ≠ fd → (x ∈ (s.watchFd fd flag).rfds ↔ x ∈ s.rfds) ∧
      (x ∈ (s.watchFd fd flag).wfds ↔ x ∈ s.wfds) := by
    intro x hx
    rcases hflag with rfl | rfl | rfl <;> simp [SelectAio.watchFd, hx]
  have hstatus : e.fdstatus fd ||| flagBits flag =
      bitsOf (decide (fd ∈ (s.watchFd fd flag).rfds))
        (decide (fd ∈ (s.watchFd fd flag).wfds)) := by
    rw [h.fdstatus fd hpipe, bitsOf_or _ _ hflag, hsets.1, hsets.2]
  have hnew : bitsOf (decide (fd ∈ (s.watchFd fd flag).rfds))
      (decide (fd ∈ (s.watchFd fd flag).wfds)) ≠ 0 := by
    rw [hsets.1, hsets.2, ne_eq, bitsOf_eq_zero]
    rcases hflag with rfl | rfl | rfl <;> simp
  have hrdwr : ¬ (flag = .cbRdwr ∧
      EPollAio.events (e.fdstatus fd ||| flagBits flag) ≠ ⟨true, true, true⟩) := by
    rintro ⟨rfl, hne⟩
    rw [hstatus, hsets.1, hsets.2, events_bitsOf] at hne
    simp at hne
  refine ⟨_, ?_, h.set rfl hother⟩
  rw [EPollAio.watchFd, if_pos hfd]
  dsimp only
  rw [if_neg hrdwr, hstatus, events_bitsOf, h.fdstatus fd hpipe,
    (epollCtl_eq _ _ _ _ (h.interest fd hpipe)).1 hnew, Option.map_some]

/-- The sets after `unwatch_fd`, and its result. -/
theorem unwatchFd_sets (s : SelectAio) (fd : ℕ) {flag : PollFlag}
    (hflag : flag = .cbRdonly ∨ flag = .cbWronly ∨ flag = .cbRdwr) :
    ∃ s', s.unwatchFd fd flag =
        some (s', decide (bitsOf (decide (fd ∈ s'.rfds)) (decide (fd ∈ s'.wfds)) = 0)) ∧
      decide (fd ∈ s'.rfds) = (decide (fd ∈ s.rfds) && decide (flag = .cbWronly)) ∧
      decide (fd ∈ s'.wfds) = (decide (fd ∈ s.wfds) && decide (flag = .cbRdonly)) ∧
      (∀ x, x ≠ fd → (x ∈ s'.rfds ↔ x ∈ s.rfds) ∧ (x ∈ s'.wfds ↔ x ∈ s.wfds)) ∧
      s'.pipefd = s.pipefd := by
  have hclear : ∃ c, s.clear fd flag = some c := by
    rcases hflag with rfl | rfl | rfl <;> exact ⟨_, rfl⟩
  rcases hclear with ⟨c, hclear⟩
  rcases SelectAio.lower_sets c fd with ⟨hrfds, hwfds, hpipe⟩
  have hpipefd := (SelectAio.clear_spec hclear).2.1
  refine ⟨{ c.lower fd with
    unread := if flag = .cbRdwr then c.unread + 1 else c.unread }, ?_, ?_, ?_, fun x hx => ?_, ?_⟩
  · simp only [SelectAio.unwatchFd, hclear, Option.map_some, hrfds, hwfds, bitsOf_eq_zero,
      decide_eq_false_iff_not]
  · dsimp only
    rw [hrfds]
    rcases hflag with rfl | rfl | rfl <;> cases hclear <;> simp
  · dsimp only
    rw [hwfds]
    rcases hflag with rfl | rfl | rfl <;> cases hclear <;> simp
  · dsimp only
    rw [hrfds, hwfds]
    rcases hflag with rfl | rfl | rfl <;> cases hclear <;> simp [hx]
  · exact hpipe.trans hpipefd

theorem watched_iff (s : SelectAio) (fd : ℕ) :
    s.Watched fd ↔ bitsOf (decide (fd ∈ s.rfds)) (decide (fd ∈ s.wfds)) ≠ 0 := by
  rw [ne_eq, bitsOf_eq_zero, SelectAio.Watched, decide_eq_false_iff_not, decide_eq_false_iff_not]
  tauto

theorem Agrees.unwatchFd {e : EPollAio} {s : SelectAio} {fd : ℕ} {flag : PollFlag} (h : Agrees e s)
    (hfd : fd < maxPollFds) (hpipe : fd ≠ s.pipefd.1)
    (hflag : flag = .cbRdonly ∨ flag = .cbWronly ∨ flag = .cbRdwr) :
    (s.Watched fd → ∃ e' s' b, e.unwatchFd fd flag = some (e', b) ∧
      s.unwatchFd fd flag = some (s', b) ∧ Agrees e' s' ∧ s'.pipefd = s.pipefd) ∧
    (¬ s.Watched fd → e.unwatchFd fd flag = none) := by
  rcases unwatchFd_sets s fd hflag with ⟨s', hun, hr, hw, hother, hpipefd⟩
  have hstatus : e.fdstatus fd &&& ~~~flagBits flag =
      bitsOf (decide (fd ∈ s'.rfds)) (decide (fd ∈ s'.wfds)) := by
    rw [h.fdstatus fd hpipe, bitsOf_and_not _ _ hflag, hr, hw]
  -- with `CB_RDWR` no flag is left
  have hrdwr : ¬ (flag = .cbRdwr ∧
      (if bitsOf (decide (fd ∈ s'.rfds)) (decide (fd ∈ s'.wfds)) ≠ 0 then CtlOp.mod
        else CtlOp.del) ≠ .del) := by
    rintro ⟨rfl, hne⟩
    rw [hr, hw] at hne
    simp [bitsOf] at hne
  have hcall : e.unwatchFd fd flag =
      (epollCtl e.interest
        (if bitsOf (decide (fd ∈ s'.rfds)) (decide (fd ∈ s'.wfds)) ≠ 0 then .mod else .del) fd
        ⟨decide (fd ∈ s'.rfds), decide (fd ∈ s'.wfds), true⟩).map fun interest =>
          ({ fdstatus := Function.update e.fdstatus fd
               (bitsOf (decide (fd ∈ s'.rfds)) (decide (fd ∈ s'.wfds)))
             interest := interest },
            decide (bitsOf (decide (fd ∈ s'.rfds)) (decide (fd ∈ s'.wfds)) = 0)) := by
    rw [EPollAio.unwatchFd, if_pos hfd]
    dsimp only
    rw [hstatus, if_neg hrdwr, events_bitsOf]
    congr 1
    funext interest
    by_cases hz : bitsOf (decide (fd ∈ s'.rfds)) (decide (fd ∈ s'.wfds)) = 0 <;> simp [hz]
  have hctl := epollCtl_eq _ _ (decide (fd ∈ s'.rfds)) (decide (fd ∈ s'.wfds))
    (h.interest fd hpipe)
  refine ⟨fun hwatched => ?_, fun hwatched => ?_⟩
  · refine ⟨_, s', _, ?_, hun, h.set hpipefd hother, hpipefd⟩
    rw [hcall, hctl.2.1 ((watched_iff s fd).1 hwatched), Option.map_some]
  · rw [watched_iff, ne_eq, not_not] at hwatched
    rw [hcall, hctl.2.2 hwatched _ (by split <;> simp), Option.map_none]

theorem mem_waitReady (ready : List (ℕ × Events)) (fd : ℕ) :
    (fd ∈ (EPollAio.waitReady ready).1 ↔ ∃ ev, (fd, ev) ∈ ready ∧ ev.epollin = true) ∧
      (fd ∈ (EPollAio.waitReady ready).2 ↔ ∃ ev, (fd, ev) ∈ ready ∧ ev.epollout = true) := by
  unfold EPollAio.waitReady
  induction ready using List.reverseRecOn with
  | nil => simp
  | append_singleton ready last ih =>
      rw [List.foldl_append]
      rcases last with ⟨x, ev⟩
      simp only [List.foldl_cons, List.foldl_nil, List.mem_append, List.mem_singleton,
        Prod.mk.injEq]
      constructor
      · split <;> simp only [List.mem_append, List.mem_singleton, ih.1] <;> grind
      · split <;> simp only [List.mem_append, List.mem_singleton, ih.2] <;> grind

/-- If `epoll_wait` reports registered events only, the descriptors that are handed out are in the
sets. -/
theorem Agrees.waitReady {e : EPollAio} {s : SelectAio} (h : Agrees e s)
    {ready : List (ℕ × Events)}
    (hready : ∀ fd ev, (fd, ev) ∈ ready → fd ≠ s.pipefd.1 ∧ ∃ i, e.interest fd = some i ∧
      (ev.epollin = true → i.epollin = true) ∧ (ev.epollout = true → i.epollout = true)) :
    (∀ fd ∈ (EPollAio.waitReady ready).1, fd ∈ s.rfds) ∧
      ∀ fd ∈ (EPollAio.waitReady ready).2, fd ∈ s.wfds := by
  have hregistered : ∀ fd i, fd ≠ s.pipefd.1 → e.interest fd = some i →
      i = ⟨decide (fd ∈ s.rfds), decide (fd ∈ s.wfds), true⟩ := by
    intro fd i hfd hi
    rw [h.interest fd hfd, interestOf] at hi
    split at hi
    · cases hi
    · cases hi
      rfl
  constructor
  · intro fd hfd
    rcases (mem_waitReady ready fd).1.1 hfd with ⟨ev, hmem, hin⟩
    rcases hready fd ev hmem with ⟨hpipe, i, hi, himp, -⟩
    have hset := himp hin
    rw [hregistered fd i hpipe hi] at hset
    exact of_decide_eq_true hset
  · intro fd hfd
    rcases (mem_waitReady ready fd).2.1 hfd with ⟨ev, hmem, hout⟩
    rcases hready fd ev hmem with ⟨hpipe, i, hi, -, himp⟩
    have hset := himp hout
    rw [hregistered fd i hpipe hi] at hset
    exact of_decide_eq_true hset

theorem Agrees.run (pipefd : ℕ × ℕ) :
    ∀ (calls : List AioCall) {e : EPollAio} {s : SelectAio}, Agrees e s → s.pipefd = pipefd →
      (∀ c ∈ calls, c.Proper pipefd.1) →
      (Covered s calls → ∃ e' s' rs, epollAio.run e calls = some (e', rs) ∧
        selectAio.run s calls = some (s', rs) ∧ Agrees e' s' ∧ s'.pipefd = pipefd) ∧
      (¬ Covered s calls → epollAio.run e calls = none)
  | [], e, s, h, hpipefd, _ => ⟨fun _ => ⟨e, s, [], rfl, rfl, h, hpipefd⟩,
      fun hnot => absurd trivial hnot⟩
  | .watchFd fd flag :: calls, e, s, h, hpipefd, hproper => by
      rcases hproper _ List.mem_cons_self with ⟨hfd, hpipe, hflag⟩
      rw [← hpipefd] at hpipe
      rcases h.watchFd hfd hpipe hflag with ⟨e', hwatch, h'⟩
      have hstep : epollAio.run e (.watchFd fd flag :: calls) = epollAio.run e' calls := by
        simp only [AioMgr.run, epollAio, hwatch, Option.bind_some]
      rw [hstep]
      exact Agrees.run pipefd calls h' hpipefd fun c hc => hproper c (List.mem_cons_of_mem _ hc)
  | .unwatchFd fd flag :: calls, e, s, h, hpipefd, hproper => by
      rcases hproper _ List.mem_cons_self with ⟨hfd, hpipe, hflag⟩
      rw [← hpipefd] at hpipe
      by_cases hwatched : s.Watched fd
      · rcases (h.unwatchFd hfd hpipe hflag).1 hwatched with ⟨e', s', b, he, hs, h', hpipefd'⟩
        have hrest := Agrees.run pipefd calls h' (hpipefd'.trans hpipefd) fun c hc =>
          hproper c (List.mem_cons_of_mem _ hc)
        refine ⟨fun hcov => ?_, fun hcov => ?_⟩
        · rcases hrest.1 (hcov.2 _ hs) with ⟨e'', s'', rs, hrunE, hrunS, h'', hpipefd''⟩
          refine ⟨e'', s'', b :: rs, ?_, ?_, h'', hpipefd''⟩
          · rw [AioMgr.run, show epollAio.unwatchFd e fd flag = _ from he, Option.bind_some, hrunE,
              Option.map_some]
          · rw [AioMgr.run, show selectAio.unwatchFd s fd flag = _ from hs, Option.bind_some, hrunS,
              Option.map_some]
        · have hnot : ¬ Covered s' calls := by
            intro hcov'
            refine hcov ⟨hwatched, fun r hr => ?_⟩
            rw [hs] at hr
            cases hr
            exact hcov'
          rw [AioMgr.run, show epollAio.unwatchFd e fd flag = _ from he, Option.bind_some,
            hrest.2 hnot, Option.map_none]
      · refine ⟨fun hcov => absurd hcov.1 hwatched, fun _ => ?_⟩
        rw [AioMgr.run, show epollAio.unwatchFd e fd flag = _ from
          (h.unwatchFd hfd hpipe hflag).2 hwatched, Option.bind_none]

/-- An `EPollAIO` gets through a sequence of calls without a failed `VERIFY` exactly if nobody
unwatches a descriptor that is not watched.  It then returns what a `SelectAIO` returns and has
registered what that has in its sets; but `is_watched` of a flag is always false. -/
theorem epoll_agrees_iff (pipefd : ℕ × ℕ) (calls : List AioCall)
    (hproper : ∀ c ∈ calls, c.Proper pipefd.1) :
    ((epollAio.run .new calls).isSome = true ↔ Covered (.new pipefd) calls) ∧
      ∀ e rs, epollAio.run .new calls = some (e, rs) →
        ∃ s, selectAio.run (.new pipefd) calls = some (s, rs) ∧ Agrees e s ∧
          ∀ fd flag, fd < maxPollFds → fd ≠ pipefd.1 → flag ≠ .cbNone →
            epollAio.isWatched e fd flag = some false := by
  have hrun := Agrees.run pipefd calls (agrees_new pipefd) rfl hproper
  refine ⟨⟨fun hsome => ?_, fun hcov => ?_⟩, fun e rs he => ?_⟩
  · by_contra hcov
    rw [hrun.2 hcov] at hsome
    cases hsome
  · rcases hrun.1 hcov with ⟨e', s', rs, he, -⟩
    rw [he]
    rfl
  · by_cases hcov : Covered (.new pipefd) calls
    · rcases hrun.1 hcov with ⟨e', s', rs', he', hs', h', hpipefd'⟩
      rw [he] at he'
      cases he'
      refine ⟨s', hs', h', fun fd flag hfd hpipe hflag => ?_⟩
      rw [← hpipefd'] at hpipe
      -- the mask leaves nothing of the flags
      have hmask : e.fdstatus fd &&& flagBits .cbMask = 0 := by
        rw [h'.fdstatus fd hpipe, bitsOf_and_mask]
      show EPollAio.isWatched e fd flag = some false
      rw [EPollAio.isWatched, if_pos hfd, hmask]
      cases flag with
      | cbNone => exact absurd rfl hflag
      | _ => rfl
    · rw [hrun.2 hcov] at he
      cases he

/-- A descriptor is watched in two calls and unwatched in two. -/
def watchedTwice : List AioCall :=
  [.watchFd 5 .cbRdonly, .watchFd 5 .cbWronly, .unwatchFd 5 .cbRdonly, .unwatchFd 5 .cbRdwr]

theorem epoll_agrees_iff_watchedTwice :
    (∀ c ∈ watchedTwice, c.Proper 3) ∧
      ∃ e s, epollAio.run .new watchedTwice = some (e, [false, true]) ∧
        selectAio.run (.new (3, 4)) watchedTwice = some (s, [false, true]) ∧ Agrees e s := by
  have hproper : ∀ c ∈ watchedTwice, c.Proper (3, 4).1 := by
    intro c hc
    simp only [watchedTwice, List.mem_cons, List.not_mem_nil, or_false] at hc
    rcases hc with rfl | rfl | rfl | rfl <;> simp [AioCall.Proper, maxPollFds]
  have hrun : ∃ e, epollAio.run .new watchedTwice = some (e, [false, true]) := ⟨_, rfl⟩
  rcases hrun with ⟨e, he⟩
  rcases (epoll_agrees_iff (3, 4) watchedTwice hproper).2 e _ he with ⟨s, hs, h, -⟩
  exact ⟨hproper, e, s, he, hs, h⟩

end Poll
end Rpc
end Yfs

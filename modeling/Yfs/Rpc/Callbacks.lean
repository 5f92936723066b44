import Yfs.Rpc.PollMgr

/-!
# Callbacks — which object the poll thread calls

Between the time the sets are copied for `select` and the time a ready descriptor gets its callback,
descriptors are closed, reused and registered again.  A `read_cb` that went to the wrong object
would find nothing to read and fail a `VERIFY` in `readpdu`.

* `Fresh` — a descriptor that is still to be read has the object that it had when the sets were
  copied: the entry of a removed one is cleared only when the loop is past it, and a callback
  deletes no entry but its own.
-/

namespace Yfs
namespace Rpc
namespace Poll

open Lib

open Select

variable {C T : Type}

/-- The descriptors whose `read_cb` is still to come in this round. -/
def Loop.toRead : Loop C → List ℕ
  | .turning readable _ => readable
  | .checked .read fd readable _ => fd :: readable
  | .checked .write _ readable _ => readable
  | .calling _ _ _ readable _ => readable
  | _ => []

/-- Every descriptor is read at most once, and all of them before the first is written. -/
def Loop.Shaped : Loop C → Prop
  | .turning readable _ => readable.Nodup
  | .checked kind fd readable _ => (fd :: readable).Nodup ∧ (kind = .write → readable = [])
  | .calling _ fd _ readable _ => (fd :: readable).Nodup
  | _ => True

theorem ahead_of_toRead {l : Loop C} {fd : ℕ} (h : fd ∈ l.toRead) : l.Ahead fd := by
  cases l with
  | turning readable writable => exact Or.inl h
  | checked kind fd' readable writable =>
      cases kind with
      | read => exact (List.mem_cons.1 h).imp_right Or.inl
      | write => exact Or.inr (Or.inl h)
  | calling kind fd' ch readable writable => exact Or.inr (Or.inl h)
  | _ => cases h

/-- What `wait_ready` collects: each descriptor once, and no more than there are. -/
theorem turns_nodup {pipe unread : ℕ} {trfds twfds : Finset ℕ} (n : ℕ) :
    ∀ {r : Ready},
      (List.range n).foldlM (Ready.turn pipe trfds twfds) ⟨[], [], unread⟩ = some r →
      r.readable.Nodup ∧ r.readable.length ≤ n ∧ r.writable.length ≤ n := by
  induction n with
  | zero =>
      intro r h
      cases h
      simp
  | succ n ih =>
      intro r h
      rw [List.range_succ, List.foldlM_append] at h
      rcases Option.bind_eq_some_iff.1 h with ⟨q, hq, hlast⟩
      rcases ih hq with ⟨hnodup, hreadable, hwritable⟩
      have hmem := (mem_turns n hq n).1
      simp only [List.foldlM_cons, List.foldlM_nil, Option.bind_eq_bind] at hlast
      rcases Option.bind_eq_some_iff.1 hlast with ⟨q', hturn, hr⟩
      cases hr
      unfold Ready.turn at hturn
      split at hturn
      · split at hturn <;> cases hturn
        exact ⟨hnodup, Nat.le_succ_of_le hreadable, Nat.le_succ_of_le hwritable⟩
      · cases hturn
        -- `n` is above everything collected so far
        have hfresh : n ∉ q.readable := fun hn => Nat.lt_irrefl n (hmem.1 hn).1
        refine ⟨?_, ?_, ?_⟩
        · show (if n ∈ trfds then q.readable ++ [n] else q.readable).Nodup
          split
          · simpa [List.nodup_append] using ⟨hnodup, fun x hx hxn => hfresh (hxn ▸ hx)⟩
          · exact hnodup
        · show (if n ∈ trfds then q.readable ++ [n] else q.readable).length ≤ n + 1
          split
          · simpa using hreadable
          · omega
        · show (if n ∈ twfds then q.writable ++ [n] else q.writable).length ≤ n + 1
          split
          · simpa using hwritable
          · omega

/-- What is still to be read has the object that it had when the sets were copied. -/
structure Fresh (s : PollMgr C T) : Prop where
  registered : ∀ fd, fd ≠ s.aio.pipefd.1 → s.aio.Watched fd → s.callbacks fd ≠ none
  copied : ∀ c fd, s.loop = .selecting c → fd ∈ c.trfds → fd ≠ s.aio.pipefd.1 →
    s.seen fd ≠ none ∧ s.callbacks fd = s.seen fd
  toRead : ∀ fd ∈ s.loop.toRead, s.seen fd ≠ none ∧ s.callbacks fd = s.seen fd
  calling : ∀ fd ch readable writable, s.loop = .calling .read fd ch readable writable →
    s.seen fd = some ch
  shaped : s.loop.Shaped

theorem fresh_new (pipefd : ℕ × ℕ) : Fresh (PollMgr.new pipefd : PollMgr C T) where
  registered fd hfd hw := by
    rcases hw with hr | hw
    · exact absurd (Finset.mem_singleton.1 hr) hfd
    · exact absurd hw (Finset.notMem_empty fd)
  copied _ _ h := by cases h
  toRead _ h := by cases h
  calling _ _ _ _ h := by cases h
  shaped := trivial

/-- The sets and the entries change, but no entry that matters for the reads of this round. -/
theorem Fresh.change {s : PollMgr C T} (h : Fresh s) {aio : SelectAio} {callbacks : ℕ → Option C}
    {pending : Bool} {removing : T → Removing} (hpipe : aio.pipefd = s.aio.pipefd)
    (hregistered : ∀ fd, fd ≠ s.aio.pipefd.1 → aio.Watched fd → callbacks fd ≠ none)
    (hcopied : ∀ c fd, s.loop = .selecting c → fd ∈ c.trfds → s.callbacks fd ≠ none →
      callbacks fd = s.callbacks fd)
    (htoRead : ∀ fd ∈ s.loop.toRead, s.callbacks fd ≠ none → callbacks fd = s.callbacks fd) :
    Fresh (⟨aio, callbacks, pending, s.loop, removing, s.seen⟩ : PollMgr C T) where
  registered fd hfd := by
    rw [hpipe] at hfd
    exact hregistered fd hfd
  copied c fd hloop hmem hfd := by
    rw [hpipe] at hfd
    have hold := h.copied c fd hloop hmem hfd
    exact ⟨hold.1, (hcopied c fd hloop hmem (hold.2 ▸ hold.1)).trans hold.2⟩
  toRead fd hmem := by
    have hold := h.toRead fd hmem
    exact ⟨hold.1, (htoRead fd hmem (hold.2 ▸ hold.1)).trans hold.2⟩
  calling := h.calling
  shaped := h.shaped

theorem Fresh.addCallback {s : PollMgr C T} {fd : ℕ} {flag : PollFlag} {ch : C} (h : Fresh s)
    (hcb : s.callbacks fd = none ∨ s.callbacks fd = some ch) :
    Fresh { s with
      aio := s.aio.watchFd fd flag
      callbacks := Function.update s.callbacks fd (some ch) } := by
  -- an entry that is there already is not changed
  have hsame : ∀ x, s.callbacks x ≠ none →
      Function.update s.callbacks fd (some ch) x = s.callbacks x := by
    intro x hx
    by_cases hxfd : x = fd
    · subst hxfd
      rw [Function.update_self, hcb.resolve_left hx]
    · exact Function.update_of_ne hxfd _ _
  refine h.change rfl (fun x hx hw => ?_) (fun _ x _ _ hx => hsame x hx) fun x _ hx => hsame x hx
  by_cases hxfd : x = fd
  · subst hxfd
    simp
  · rw [Function.update_of_ne hxfd]
    exact h.registered x hx (((SelectAio.watched_watchFd ..).1 hw).resolve_left hxfd)

/-- A callback only deletes entries of its own descriptor, which has been read. -/
theorem Fresh.delCallback {s : PollMgr C T} {fd : ℕ} {flag : PollFlag} {aio : SelectAio} {b : Bool}
    (h : Fresh s) (hin : s.loop.InCallback fd) (hun : s.aio.unwatchFd fd flag = some (aio, b)) :
    Fresh { s with
      aio := aio
      callbacks := if b then Function.update s.callbacks fd none else s.callbacks } := by
  rcases unwatchFd_watched hun with ⟨hpipe, hsub, hgone, -⟩
  have hother : ∀ x, x ≠ fd →
      (if b then Function.update s.callbacks fd none else s.callbacks) x = s.callbacks x := by
    intro x hx
    cases b
    · rfl
    · exact Function.update_of_ne hx _ _
  have hcalling : ∃ kind ch readable writable,
      s.loop = .calling kind fd ch readable writable := by
    cases hloop : s.loop with
    | calling kind fd' ch readable writable =>
        rw [hloop] at hin
        cases hin
        exact ⟨_, _, _, _, rfl⟩
    | _ =>
        rw [hloop] at hin
        exact hin.elim
  rcases hcalling with ⟨kind, ch, readable, writable, hloop⟩
  have hnodup : (fd :: readable).Nodup := by
    have hshaped := h.shaped
    rwa [hloop] at hshaped
  refine h.change hpipe (fun x hx hw => ?_) (fun c x hc => ?_) fun x hmem _ => ?_
  · by_cases hxfd : x = fd
    · subst hxfd
      cases b with
      | false => exact h.registered x hx (hsub x hw)
      | true => exact absurd hw (hgone rfl)
    · rw [hother x hxfd]
      exact h.registered x hx (hsub x hw)
  · rw [hloop] at hc
    cases hc
  · rw [hloop] at hmem
    refine hother x ?_
    rintro rfl
    exact (List.nodup_cons.1 hnodup).1 hmem

/-- The loop goes on, and the entries stay. -/
theorem Fresh.onward {s : PollMgr C T} (h : Fresh s) {l : Loop C} {unread : ℕ}
    {pending : Bool} {removing : T → Removing} (hcopied : ∀ c, l ≠ .selecting c)
    (htoRead : ∀ fd ∈ l.toRead, s.seen fd ≠ none ∧ s.callbacks fd = s.seen fd)
    (hcalling : ∀ fd ch readable writable, l = .calling .read fd ch readable writable →
      s.seen fd = some ch) (hshaped : l.Shaped) :
    Fresh (⟨{ s.aio with unread := unread }, s.callbacks, pending, l, removing, s.seen⟩ :
      PollMgr C T) where
  registered := h.registered
  copied c _ hloop := absurd hloop (hcopied c)
  toRead := htoRead
  calling := hcalling
  shaped := hshaped

variable [DecidableEq T]

theorem Fresh.removed {s : PollMgr C T} {t : T} {fd : ℕ} (h : Fresh s) (hquiet : Quiet s fd) :
    Fresh { s with
      callbacks := Function.update s.callbacks fd none
      removing := Function.update s.removing t .idle } := by
  refine h.change rfl (fun x hx hw => ?_) (fun c x hloop hmem _ => ?_) fun x hmem _ => ?_
  · have hne : x ≠ fd := by
      rintro rfl
      exact hquiet.unwatched hw
    rw [Function.update_of_ne hne]
    exact h.registered x hx hw
  · refine Function.update_of_ne ?_ _ _
    rintro rfl
    apply hquiet.passed
    rw [hloop]
    exact Or.inl hmem
  · refine Function.update_of_ne ?_ _ _
    rintro rfl
    exact hquiet.passed (ahead_of_toRead hmem)

theorem Fresh.move {s s' : PollMgr C T} {a : Act C T} (hset : Settled s) (h : Fresh s)
    (hok : Orderly s a) (hmove : Move s a s') : Fresh s' := by
  have htoRead := h.toRead
  have hshaped := h.shaped
  cases hmove with
  | addCallback _ hcb => exact h.addCallback hcb
  | delCallback hun => exact h.delCallback hok.2 hun
  | blockRemoveFd _ hun =>
      rcases unwatchFd_watched hun with ⟨hpipe, hsub, -⟩
      exact h.change hpipe (fun x hx hw => h.registered x hx (hsub x hw)) (fun _ _ _ _ _ => rfl)
        fun _ _ _ => rfl
  | removed ht => exact h.removed (hset.woken _ _ ht)
  | wakeUp => exact hok.elim
  | broadcast =>
      exact h.onward (fun _ hc => by cases hc) (fun _ hc => by cases hc)
        (fun _ _ _ _ hc => by cases hc) trivial
  | pass =>
      exact h.onward (fun _ hc => by cases hc) (fun _ hc => by cases hc)
        (fun _ _ _ _ hc => by cases hc) trivial
  | waitReady hloop =>
      refine ⟨h.registered, fun c fd hc hmem hfd => ?_, fun _ hc => ?_, fun _ _ _ _ hc => ?_,
        trivial⟩
      · cases hc
        exact ⟨h.registered fd hfd (Or.inl hmem), rfl⟩
      · cases hc
      · cases hc
  | ready hloop hcollect =>
      refine h.onward (fun _ hc => by cases hc) (fun fd hmem => ?_)
        (fun _ _ _ _ hc => by cases hc) (turns_nodup _ hcollect).1
      have hcopied := (mem_of_collect hcollect fd).1 hmem
      exact h.copied _ fd hloop hcopied.1 hcopied.2
  | interrupted =>
      exact h.onward (fun _ hc => by cases hc) (fun _ hc => by cases hc)
        (fun _ _ _ _ hc => by cases hc) List.nodup_nil
  | skipRead hloop =>
      rw [hloop] at htoRead hshaped
      exact h.onward (fun _ hc => by cases hc)
        (fun fd hmem => htoRead fd (List.mem_cons_of_mem _ hmem)) (fun _ _ _ _ hc => by cases hc)
        (List.nodup_cons.1 hshaped).2
  | skipWrite =>
      exact h.onward (fun _ hc => by cases hc) (fun _ hc => by cases hc)
        (fun _ _ _ _ hc => by cases hc) List.nodup_nil
  | checkRead hloop =>
      rw [hloop] at htoRead hshaped
      exact h.onward (fun _ hc => by cases hc) htoRead (fun _ _ _ _ hc => by cases hc)
        ⟨hshaped, fun hc => by cases hc⟩
  | checkWrite =>
      exact h.onward (fun _ hc => by cases hc) (fun _ hc => by cases hc)
        (fun _ _ _ _ hc => by cases hc) ⟨List.nodup_singleton _, fun _ => rfl⟩
  | comeRound =>
      exact h.onward (fun _ hc => by cases hc) (fun _ hc => by cases hc)
        (fun _ _ _ _ hc => by cases hc) trivial
  | @call kind fd readable writable ch hloop hcb =>
      rw [hloop] at htoRead hshaped
      refine h.onward (fun _ hc => by cases hc) (fun fd hmem => htoRead fd ?_)
        (fun _ _ _ _ hc => ?_) hshaped.1
      · cases kind with
        | read => exact List.mem_cons_of_mem _ hmem
        | write => exact hmem
      · cases hc
        rw [← (htoRead fd List.mem_cons_self).2]
        exact hcb
  | ret hloop =>
      rw [hloop] at htoRead hshaped
      exact h.onward (fun _ hc => by cases hc) htoRead (fun _ _ _ _ hc => by cases hc)
        (List.nodup_cons.1 hshaped).2

variable [DecidableEq C]

theorem fresh_of_reach {pipefd : ℕ × ℕ} {s : PollMgr C T} (h : Polled pipefd s) : Fresh s := by
  refine Reach.invariant_with (J := Settled) settled_of_reach ?_
    (fun s a s' hset _ hs hok hst => hs.move hset hok (move_of_step hst)) h
  rintro s rfl
  exact fresh_new pipefd

/-- The poll thread never calls through an empty entry, and a `read_cb` goes to the object that was
registered for the descriptor when the sets were copied, whatever was added, deleted and removed in
the meantime. -/
theorem read_cb_registered (pipefd : ℕ × ℕ) {s : PollMgr C T} (h : Polled pipefd s) :
    (∀ kind fd readable writable, s.loop = .checked kind fd readable writable →
      ∃ s', step s .call = some s') ∧
    (∀ fd ch readable writable, s.loop = .calling .read fd ch readable writable →
      s.seen fd = some ch) ∧
    ∀ fd, fd ≠ s.aio.pipefd.1 → s.aio.Watched fd → s.callbacks fd ≠ none := by
  have hfresh := fresh_of_reach h
  refine ⟨fun kind fd readable writable hloop => ?_, hfresh.calling, hfresh.registered⟩
  have hcb := (settled_of_reach h).checked kind fd readable writable hloop
  rcases Option.ne_none_iff_exists'.1 hcb with ⟨ch, hch⟩
  refine ⟨{ s with loop := .calling kind fd ch readable writable }, ?_⟩
  simp only [step, PollMgr.call, hloop, hch, Option.map_some]

/-- The objects of two descriptors are called, and the first deletes its own entry meanwhile. -/
def deletedInCallback : List (Act Bool Unit) :=
  [.addCallback 5 .cbRdwr true, .addCallback 6 .cbRdonly false, .lock, .waitReady,
    .ready {3, 5, 6} {5}, .check, .call, .delCallback 5 .cbRdwr, .ret, .check, .call]

theorem read_cb_registered_deletedInCallback :
    ∃ s : PollMgr Bool Unit, Polled (3, 4) s ∧ s.callbacks 5 = none ∧ s.loop.InCallback 6 ∧
      ∀ fd, fd ≠ s.aio.pipefd.1 → s.aio.Watched fd → s.callbacks fd ≠ none := by
  have hrun : ∃ s : PollMgr Bool Unit, Reach (fun s => s = PollMgr.new (3, 4)) step Orderly s ∧
      (s.callbacks 5 = none ∧ s.loop.InCallback 6) :=
    Reach.exists_of_runFrom deletedInCallback rfl (by decide +kernel)
  rcases hrun with ⟨s, hs, hnone, hin⟩
  exact ⟨s, hs, hnone, hin, (read_cb_registered (3, 4) hs).2.2⟩

end Poll
end Rpc
end Yfs

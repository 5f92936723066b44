import Yfs.Rpc.Wired

/-!
# Tended — a connection is registered until it is dead, and then out of reach

A `connection` object may be deleted as soon as it is dead and nobody refers to it any more; the
poll manager does not count as a reference.  So the poll thread must not come back to an object
that is dead, whichever way it died:

* in a callback, which deletes both entries before it sets `dead_`;
* in `send` or `closeconn`, which set `dead_` first and then wait in `block_remove_fd`.

`Tended` follows both, and shows on the way that a connection uses the poll manager as `Orderly`
demands.
-/

namespace Yfs
namespace Rpc

open Lib

open Wire

open Select

open Poll

variable {C T : Type}

/-! ## Frames of the poll manager -/

theorem unwatchFd_mem {a a' : SelectAio} {fd : ℕ} {flag : PollFlag} {b : Bool}
    (h : a.unwatchFd fd flag = some (a', b)) :
    (∀ x, x ≠ fd → (x ∈ a'.rfds ↔ x ∈ a.rfds) ∧ (x ∈ a'.wfds ↔ x ∈ a.wfds)) ∧
      (flag = .cbWronly → (fd ∈ a'.rfds ↔ fd ∈ a.rfds)) ∧ (b = true ↔ ¬ a'.Watched fd) := by
  rcases Option.map_eq_some_iff.1 h with ⟨c, hclear, heq⟩
  rcases SelectAio.lower_sets c fd with ⟨hrfds, hwfds, -⟩
  cases heq
  simp only [SelectAio.Watched, hrfds, hwfds, not_or, decide_eq_true_iff]
  refine ⟨fun x hx => ?_, fun hflag => ?_, trivial⟩
  · cases flag <;> cases hclear <;> simp [hx]
  · subst hflag
    cases hclear
    exact Iff.rfl

/-- What the poll manager has for one descriptor is left alone. -/
structure Untouched (fd : ℕ) (p p' : PollMgr C T) : Prop where
  callbacks : p'.callbacks fd = p.callbacks fd
  rfds : fd ∈ p'.aio.rfds ↔ fd ∈ p.aio.rfds
  wfds : fd ∈ p'.aio.wfds ↔ fd ∈ p.aio.wfds
  removing : ∀ t, (p'.removing t = .waiting fd ∨ p'.removing t = .woken fd) ↔
    (p.removing t = .waiting fd ∨ p.removing t = .woken fd)

theorem Untouched.watched {fd : ℕ} {p p' : PollMgr C T} (h : Untouched fd p p') :
    p'.aio.Watched fd ↔ p.aio.Watched fd :=
  or_congr h.rfds h.wfds

theorem wake_removing (r : Removing) (fd : ℕ) :
    (r.wake = .waiting fd ∨ r.wake = .woken fd) ↔ (r = .waiting fd ∨ r = .woken fd) := by
  cases r <;> simp [Removing.wake]

section

variable [DecidableEq T]

/-- A removal of another descriptor begins or ends. -/
theorem removing_update {f : T → Removing} {t : T} {r : Removing} {fd : ℕ}
    (hold : f t ≠ .waiting fd ∧ f t ≠ .woken fd) (hnew : r ≠ .waiting fd ∧ r ≠ .woken fd) (x : T) :
    (Function.update f t r x = .waiting fd ∨ Function.update f t r x = .woken fd) ↔
      (f x = .waiting fd ∨ f x = .woken fd) := by
  by_cases hx : x = t
  · subst hx
    rw [Function.update_self]
    exact ⟨fun hr => (hr.elim hnew.1 hnew.2).elim, fun hr => (hr.elim hold.1 hold.2).elim⟩
  · rw [Function.update_of_ne hx]

theorem untouched_of_foreign {fd : ℕ} {p p' : PollMgr C T} {a : Act C T} (hok : Orderly p a)
    (hforeign : Foreign fd p a) (hmove : Poll.Move p a p') : Untouched fd p p' := by
  cases hmove with
  | @addCallback x flag ch =>
      have hne : fd ≠ x := Ne.symm hforeign
      refine ⟨Function.update_of_ne hne _ _, ?_, ?_, fun _ => Iff.rfl⟩
      · simp only [SelectAio.watchFd]
        split <;> simp [hne]
      · simp only [SelectAio.watchFd]
        split <;> simp [hne]
  | @delCallback x flag aio b hun =>
      have hne : fd ≠ x := Ne.symm hforeign
      have hmem := (unwatchFd_mem hun).1 fd hne
      refine ⟨?_, hmem.1, hmem.2, fun _ => Iff.rfl⟩
      cases b
      · rfl
      · exact Function.update_of_ne hne _ _
  | @blockRemoveFd t x aio b ht hun =>
      have hne : x ≠ fd := hforeign
      have hmem := (unwatchFd_mem hun).1 fd (Ne.symm hne)
      exact ⟨rfl, hmem.1, hmem.2,
        removing_update (by simp [ht]) ⟨fun hc => hne (Removing.waiting.inj hc), by simp⟩⟩
  | @removed t x ht =>
      have hne : fd ≠ x := by
        rintro rfl
        exact hforeign ht
      refine ⟨Function.update_of_ne hne _ _, Iff.rfl, Iff.rfl, removing_update ?_ (by simp)⟩
      rw [ht]
      exact ⟨by simp, fun hc => hne (Removing.woken.inj hc).symm⟩
  | wakeUp => exact hok.elim
  | broadcast => exact ⟨rfl, Iff.rfl, Iff.rfl, fun t => wake_removing _ fd⟩
  | _ => exact ⟨rfl, Iff.rfl, Iff.rfl, fun _ => Iff.rfl⟩

/-- Without an entry no callback is begun. -/
theorem not_inCallback_of_move {fd : ℕ} {p p' : PollMgr C T} {a : Act C T}
    (hmove : Poll.Move p a p') (hnone : p.callbacks fd = none)
    (hout : ¬ p.loop.InCallback fd) : ¬ p'.loop.InCallback fd := by
  cases hmove with
  | @call kind x readable writable ch hloop hcb =>
      rintro rfl
      rw [hnone] at hcb
      cases hcb
  | addCallback | delCallback | blockRemoveFd | removed | wakeUp => exact hout
  | _ => exact id

variable [DecidableEq C]

/-- A callback of `fd` returns. -/
theorem Left.spec {fd : ℕ} {pipefd : ℕ × ℕ} {p p' : PollMgr C T} {del : Option PollFlag}
    (h : Left fd p del p') (hpolled : Polled pipefd p) (hfd : fd ≠ pipefd.1)
    (hin : p.loop.InCallback fd) :
    Polled pipefd p' ∧ p'.removing = p.removing ∧ ¬ p'.loop.InCallback fd ∧
      (del = none → p'.callbacks = p.callbacks ∧ p'.aio = p.aio) ∧
      (del = some .cbWronly → fd ∈ p.aio.rfds →
        fd ∈ p'.aio.rfds ∧ p'.callbacks fd = p.callbacks fd) ∧
      (del = some .cbRdwr → ¬ p'.aio.Watched fd ∧ p'.callbacks fd = none) := by
  have hpipe := (woken_of_reach hpolled).pipefd_eq
  cases h with
  | ret hret =>
      refine ⟨hpolled.step hret trivial, ?_⟩
      cases Poll.move_of_step hret
      exact ⟨rfl, id, fun _ => ⟨rfl, rfl⟩, (fun hc => by cases hc), fun hc => by cases hc⟩
  | @del flag q p' hdel hret =>
      have hq : Polled pipefd q := hpolled.step hdel ⟨by rwa [hpipe], hin⟩
      refine ⟨hq.step hret trivial, ?_⟩
      cases Poll.move_of_step hret
      cases Poll.move_of_step hdel with
      | @delCallback _ _ aio b hun =>
          rcases unwatchFd_mem hun with ⟨-, hwronly, hgone⟩
          refine ⟨rfl, id, (fun hc => by cases hc), fun hc hr => ?_, fun hc => ?_⟩
          · cases hc
            have hr' := (hwronly rfl).2 hr
            refine ⟨hr', ?_⟩
            have hb : b = false := by
              by_contra hb
              exact hgone.1 (Bool.of_not_eq_false hb) (Or.inl hr')
            rw [hb]
            rfl
          · cases hc
            have hun' := (unwatchFd_watched hun).2.2.2.1 rfl
            refine ⟨hun', ?_⟩
            rw [hgone.2 hun']
            exact Function.update_self ..

end

/-! ## The invariant -/

/-- Nothing leads the poll thread to the connection any more. -/
structure Unreachable (fd : ℕ) (p : PollMgr C T) : Prop where
  callbacks : p.callbacks fd = none
  unwatched : ¬ p.aio.Watched fd
  outside : ¬ p.loop.InCallback fd

section

variable [DecidableEq C] [DecidableEq T]

structure Tended (pipefd : ℕ × ℕ) (fd : ℕ) (me : C) (s : Wired C T) : Prop where
  polled : Polled pipefd s.poll
  fd_ne : fd ≠ pipefd.1
  removing : ∀ t, s.remover t = .inside ↔
    (s.poll.removing t = .waiting fd ∨ s.poll.removing t = .woken fd)
  alive : s.conn.dead = false →
    s.poll.callbacks fd = some me ∧ fd ∈ s.poll.aio.rfds ∧ ∀ t, s.remover t = .none
  dead : s.conn.dead = true →
    (∃ t, s.remover t = .begun ∨ s.remover t = .inside) ∨ Unreachable fd s.poll

end

section Steps

variable {pipefd : ℕ × ℕ} {fd : ℕ} {me : C} {s : Wired C T}

theorem broadcast_eq (s : Wired C T) :
    ∃ asleep, s.broadcast = { s with asleep := asleep } := by
  unfold Wired.broadcast
  split
  · exact ⟨_, rfl⟩
  · exact ⟨s.asleep, rfl⟩

variable [DecidableEq T]

theorem Unreachable.move {p p' : PollMgr C T} {a : Act C T} (h : Unreachable fd p)
    (hok : Orderly p a) (hforeign : Foreign fd p a) (hmove : Poll.Move p a p') :
    Unreachable fd p' where
  callbacks := (untouched_of_foreign hok hforeign hmove).callbacks.trans h.callbacks
  unwatched := fun hw => h.unwatched ((untouched_of_foreign hok hforeign hmove).watched.1 hw)
  outside := not_inCallback_of_move hmove h.callbacks h.outside

/-- A thread moves on outside of `block_remove_fd`. -/
theorem inside_update {f : T → Remover} {P : T → Prop} (h : ∀ x, f x = .inside ↔ P x) {t : T}
    {r : Remover} (ht : f t ≠ .inside) (hr : r ≠ .inside) (x : T) :
    Function.update f t r x = .inside ↔ P x := by
  rw [← h x]
  by_cases hxt : x = t
  · subst hxt
    rw [Function.update_self]
    exact ⟨fun hc => absurd hc hr, fun hc => absurd hc ht⟩
  · rw [Function.update_of_ne hxt]

variable [DecidableEq C]

theorem tended_init (h : WiredInit pipefd fd me s) : Tended pipefd fd me s := by
  rcases h with ⟨p, hp, hfd, hnone, hquiet, hremoving, hadd, hconn, -, hremover⟩
  have hpipe := (woken_of_reach hp).pipefd_eq
  have hst : Poll.step p (.addCallback fd .cbRdonly me) = some s.poll := hadd
  have hpolled : Polled pipefd s.poll := hp.step hst ⟨by rwa [hpipe], hremoving⟩
  have hmove := Poll.move_of_step hst
  refine ⟨hpolled, hfd, fun t => ?_, fun _ => ⟨?_, ?_, hremover⟩, fun hdead => ?_⟩
  · rw [hremover t]
    have hsame : s.poll.removing t = p.removing t := by
      generalize s.poll = q at hmove
      cases hmove
      rfl
    rw [hsame]
    exact ⟨(fun hc => by cases hc), fun hc => (hc.elim (hremoving t).1 (hremoving t).2).elim⟩
  · generalize s.poll = q at hmove
    cases hmove
    exact Function.update_self ..
  · generalize s.poll = q at hmove
    cases hmove
    simp [SelectAio.watchFd]
  · rw [hconn] at hdead
    cases hdead

/-- Others use the poll manager. -/
theorem Tended.poll (h : Tended pipefd fd me s) {a : Act C T} {p : PollMgr C T}
    (hok : Orderly s.poll a) (hforeign : Foreign fd s.poll a)
    (hst : Poll.step s.poll a = some p) : Tended pipefd fd me { s with poll := p } := by
  have hmove := Poll.move_of_step hst
  have hsame := untouched_of_foreign hok hforeign hmove
  refine ⟨h.polled.step hst hok, h.fd_ne, fun t => ?_, fun halive => ?_, fun hdead => ?_⟩
  · rw [show (({ s with poll := p } : Wired C T).poll.removing t = .waiting fd ∨
      ({ s with poll := p } : Wired C T).poll.removing t = .woken fd) ↔ _ from hsame.removing t]
    exact h.removing t
  · rcases h.alive halive with ⟨hcb, hr, hremover⟩
    exact ⟨hsame.callbacks.trans hcb, hsame.rfds.2 hr, hremover⟩
  · exact (h.dead hdead).imp_right fun hun => hun.move hok hforeign hmove

/-- The connection changes and the poll manager does not. -/
theorem Tended.conn (h : Tended pipefd fd me s) {c : Connection T} {asleep : T → Bool}
    (hdead : c.dead = s.conn.dead) :
    Tended pipefd fd me ⟨s.poll, c, asleep, s.remover⟩ where
  polled := h.polled
  fd_ne := h.fd_ne
  removing := h.removing
  alive halive := h.alive (hdead.symm.trans halive)
  dead hd := h.dead (hdead.symm.trans hd)

/-- A thread has set `dead_` and is going to call `block_remove_fd`. -/
theorem Tended.begin (h : Tended pipefd fd me s) (halive : s.conn.dead = false) {c : Connection T}
    {asleep : T → Bool} (hdead : c.dead = true) (t : T) :
    Tended pipefd fd me ⟨s.poll, c, asleep, Function.update s.remover t .begun⟩ where
  polled := h.polled
  fd_ne := h.fd_ne
  removing := inside_update h.removing (by rw [(h.alive halive).2.2 t]; simp) (by simp)
  alive hc := by
    rw [hdead] at hc
    cases hc
  dead _ := Or.inl ⟨t, Or.inl (Function.update_self ..)⟩

/-- `send` asks for a `write_cb`. -/
theorem Tended.addCallback (h : Tended pipefd fd me s) (halive : s.conn.dead = false)
    {p : PollMgr C T} (hadd : s.poll.addCallback fd .cbWronly me = some p) {c : Connection T}
    {asleep : T → Bool} (halive' : c.dead = false) :
    Tended pipefd fd me ⟨p, c, asleep, s.remover⟩ := by
  rcases h.alive halive with ⟨hcb, hr, hremover⟩
  have hpipe := (woken_of_reach h.polled).pipefd_eq
  have hfree : ∀ t, s.poll.removing t ≠ .waiting fd ∧ s.poll.removing t ≠ .woken fd := by
    intro t
    have ht := h.removing t
    rw [hremover t] at ht
    exact ⟨(fun hc => by cases ht.2 (Or.inl hc)), fun hc => by cases ht.2 (Or.inr hc)⟩
  have hst : Poll.step s.poll (.addCallback fd .cbWronly me) = some p := hadd
  have hpolled : Polled pipefd p := h.polled.step hst ⟨by rw [hpipe]; exact h.fd_ne, hfree⟩
  cases Poll.move_of_step hst
  refine ⟨hpolled, h.fd_ne, h.removing, fun _ => ⟨Function.update_self .., ?_, hremover⟩,
    fun hdead => ?_⟩
  · simpa [SelectAio.watchFd] using hr
  · rw [halive'] at hdead
    cases hdead

/-- A callback returns and the connection lives on, or is dead as before. -/
theorem Tended.callback (h : Tended pipefd fd me s) (hin : s.poll.loop.InCallback fd)
    {del : Option PollFlag} {p : PollMgr C T} (hleft : Left fd s.poll del p)
    (hdel : del = none ∨ del = some .cbWronly ∧ s.conn.dead = false) {c : Connection T}
    {asleep : T → Bool} (hdead : c.dead = s.conn.dead) :
    Tended pipefd fd me ⟨p, c, asleep, s.remover⟩ := by
  rcases hleft.spec h.polled h.fd_ne hin with ⟨hpolled, hremoving, hout, hnone, hwronly, -⟩
  refine ⟨hpolled, h.fd_ne, fun t => ?_, fun halive => ?_, fun hd => ?_⟩
  · rw [hremoving]
    exact h.removing t
  · rcases h.alive (hdead.symm.trans halive) with ⟨hcb, hr, hremover⟩
    rcases hdel with rfl | ⟨rfl, -⟩
    · rw [(hnone rfl).1, (hnone rfl).2]
      exact ⟨hcb, hr, hremover⟩
    · rcases hwronly rfl hr with ⟨hr', hcb'⟩
      exact ⟨hcb'.trans hcb, hr', hremover⟩
  · rcases hdel with rfl | ⟨-, halive⟩
    · refine (h.dead (hdead.symm.trans hd)).imp_right fun hun => ?_
      exact absurd hin hun.outside
    · rw [show c.dead = true from hd, halive] at hdead
      cases hdead

/-- A callback fails: both entries are deleted. -/
theorem Tended.dies (h : Tended pipefd fd me s) (hin : s.poll.loop.InCallback fd)
    {p : PollMgr C T} (hleft : Left fd s.poll (some .cbRdwr) p) {c : Connection T}
    {asleep : T → Bool} (hdead : c.dead = true) :
    Tended pipefd fd me ⟨p, c, asleep, s.remover⟩ := by
  rcases hleft.spec h.polled h.fd_ne hin with ⟨hpolled, hremoving, hout, -, -, hrdwr⟩
  refine ⟨hpolled, h.fd_ne, fun t => ?_, fun halive => ?_, fun _ => ?_⟩
  · rw [hremoving]
    exact h.removing t
  · rw [show c.dead = false from halive] at hdead
    cases hdead
  · exact Or.inr ⟨(hrdwr rfl).2, (hrdwr rfl).1, hout⟩

/-- Whoever is on the way to `block_remove_fd` has found the connection dead. -/
theorem Tended.dead_of_remover (h : Tended pipefd fd me s) {t : T} (ht : s.remover t ≠ .none) :
    s.conn.dead = true := by
  by_contra halive
  exact ht ((h.alive (Bool.of_not_eq_true halive)).2.2 t)

theorem Tended.blockRemove (h : Tended pipefd fd me s) {t : T} {p : PollMgr C T}
    (ht : s.remover t = .begun) (hst : Poll.step s.poll (.blockRemoveFd t fd) = some p) :
    Tended pipefd fd me
      { s with
        poll := p
        remover := Function.update s.remover t .inside } := by
  have hpipe := (woken_of_reach h.polled).pipefd_eq
  have hpolled : Polled pipefd p := h.polled.step hst (by rw [Orderly, hpipe]; exact h.fd_ne)
  have hdead : s.conn.dead = true := h.dead_of_remover (by rw [ht]; simp)
  cases Poll.move_of_step hst with
  | blockRemoveFd hidle hun =>
      refine ⟨hpolled, h.fd_ne, fun x => ?_, fun halive => ?_, fun _ => ?_⟩
      · by_cases hxt : x = t
        · subst hxt
          simp only [Function.update_self]
          simp
        · simp only [Function.update_of_ne hxt]
          exact h.removing x
      · rw [show s.conn.dead = false from halive] at hdead
        cases hdead
      · exact Or.inl ⟨t, Or.inr (Function.update_self ..)⟩

/-- `block_remove_fd` returns: the poll thread is past the descriptor. -/
theorem Tended.removed (h : Tended pipefd fd me s) {t : T} {p : PollMgr C T}
    (ht : s.remover t = .inside) (hst : Poll.step s.poll (.removed t) = some p) :
    Tended pipefd fd me
      { s with
        poll := p
        remover := Function.update s.remover t .back } := by
  have hpolled : Polled pipefd p := h.polled.step hst trivial
  have hdead : s.conn.dead = true := h.dead_of_remover (by rw [ht]; simp)
  cases Poll.move_of_step hst with
  | @removed t' x hwoken =>
      have hx : x = fd := by
        rcases (h.removing t).1 ht with hc | hc
        · rw [hwoken] at hc
          cases hc
        · rw [hwoken] at hc
          exact Removing.woken.inj hc
      subst hx
      have hquiet := (settled_of_reach h.polled).woken t x hwoken
      refine ⟨hpolled, h.fd_ne, fun y => ?_, fun halive => ?_, fun _ => Or.inr ⟨?_, ?_, ?_⟩⟩
      · by_cases hyt : y = t
        · subst hyt
          simp only [Function.update_self]
          simp
        · simp only [Function.update_of_ne hyt]
          exact h.removing y
      · rw [show s.conn.dead = false from halive] at hdead
        cases hdead
      · exact Function.update_self ..
      · exact hquiet.unwatched
      · intro hin
        apply hquiet.passed
        have hin' : s.poll.loop.InCallback x := hin
        cases hloop : s.poll.loop with
        | calling kind y ch readable writable =>
            rw [hloop] at hin'
            exact Or.inl hin'
        | _ =>
            rw [hloop] at hin'
            exact hin'.elim

/-- A thread that is through with `block_remove_fd` goes on. -/
theorem Tended.leave (h : Tended pipefd fd me s) {t : T} (ht : s.remover t = .back)
    {c : Connection T} {asleep : T → Bool} (hdead : c.dead = s.conn.dead) :
    Tended pipefd fd me ⟨s.poll, c, asleep, Function.update s.remover t .none⟩ := by
  have hd : s.conn.dead = true := by
    by_contra halive
    have hnone := (h.alive (Bool.of_not_eq_true halive)).2.2 t
    rw [ht] at hnone
    cases hnone
  have hother : ∀ x r, r = .begun ∨ r = .inside → s.remover x = r →
      Function.update s.remover t .none x = r := by
    intro x r hr hx
    have hxt : x ≠ t := by
      rintro rfl
      rw [ht] at hx
      subst hx
      simp at hr
    rw [Function.update_of_ne hxt, hx]
  refine ⟨h.polled, h.fd_ne, inside_update h.removing (by simp [ht]) (by simp),
    fun halive => ?_, fun _ => ?_⟩
  · rw [show c.dead = false from halive, hd] at hdead
    cases hdead
  · refine (h.dead hd).imp_left ?_
    rintro ⟨x, hx⟩
    exact ⟨x, hx.imp (hother x _ (Or.inl rfl)) (hother x _ (Or.inr rfl))⟩

theorem Tended.entered (h : Tended pipefd fd me s) {t : T} {c₀ c : Connection T} {s' : Wired C T}
    (hc₀ : Entering s.conn t c₀) (hawait : c₀.Awaited t c)
    (hent : s.entered fd me t c = some s') : Tended pipefd fd me s' := by
  have hdead₀ : c₀.dead = s.conn.dead := by
    rcases hc₀ with ⟨-, rfl⟩ | ⟨-, rfl⟩ <;> rfl
  unfold Wired.entered at hent
  cases hawait with
  | waits b halive hbusy =>
      simp only [Function.update_self] at hent
      cases hent
      exact h.conn hdead₀
  | refused hdead =>
      simp only [Function.update_self] at hent
      rw [if_pos (hdead₀ ▸ hdead)] at hent
      cases hent
      exact h.conn hdead₀
  | sent ret halive hfree halive' hbuf hcount hthreads =>
      rw [hthreads, Function.update_self] at hent
      dsimp only at hent
      rw [if_neg (by simp [← hdead₀, halive])] at hent
      cases hent
      rcases broadcast_eq { s with conn := c } with ⟨asleep, heq⟩
      rw [heq]
      exact h.conn (halive'.trans (halive.symm.trans hdead₀))
  | part halive hfree halive' hbuf hnonneg hlt hcount hthreads =>
      rw [hthreads, Function.update_self] at hent
      rcases Option.map_eq_some_iff.1 hent with ⟨p, hadd, rfl⟩
      exact h.addCallback (hdead₀ ▸ halive) hadd halive'
  | failed halive hfree hdead' hbuf hcount hthreads =>
      rw [hthreads, Function.update_self] at hent
      cases hent
      exact h.begin (hdead₀ ▸ halive) hdead' t

theorem Tended.move (h : Tended pipefd fd me s) {a : WiredAct C T} {s' : Wired C T}
    (hok : OthersOrderly s a) (hmove : WiredMove fd me s a s') : Tended pipefd fd me s' := by
  cases hmove with
  | poll hforeign hst => exact h.poll hok hforeign hst
  | enter _ hc₀ _ hawait hent => exact h.entered hc₀ hawait hent
  | resleep => exact h.conn rfl
  | complete ht =>
      rcases broadcast_eq { s with conn := s.conn.finish _ } with ⟨asleep, heq⟩
      rw [heq]
      exact h.conn rfl
  | spurious => exact h.conn rfl
  | unused hin halive hsz hleft => exact h.callback hin hleft (Or.inr ⟨rfl, halive⟩) rfl
  | callback _ hin _ hdead _ hleft => exact h.callback hin hleft (Or.inl rfl) hdead
  | signalled _ hin halive _ hdel hleft =>
      rcases hdel with ⟨rfl, halive'⟩ | ⟨rfl, hdead'⟩
      · exact h.callback hin hleft (Or.inl rfl) (halive'.trans halive.symm)
      · exact h.dies hin hleft hdead'
  | closed => exact h
  | closeconn _ halive => exact h.begin halive rfl _
  | blockRemove ht hst => exact h.blockRemove ht hst
  | removed ht hst => exact h.removed ht hst
  | @finish t w ht hthread =>
      rcases broadcast_eq { s with
        conn := s.conn.finish t
        remover := Function.update s.remover t .none } with ⟨asleep, heq⟩
      rw [heq]
      exact h.leave ht rfl
  | leave ht => exact h.leave ht rfl

theorem tended_of_reach
    (h : Reach (WiredInit pipefd fd me) (wiredStep fd me) OthersOrderly s) :
    Tended pipefd fd me s :=
  Reach.invariant (I := Tended pipefd fd me) (fun _ hs => tended_init hs)
    (fun _ _ _ hs hok hst => hs.move hok (wiredMove_of_step hst)) h

/-- Once a connection is dead and nobody is on the way to or in `block_remove_fd`, the poll thread
is in no callback of it and has no way to get into one; until it is dead, it is registered and its
descriptor is watched for reading. -/
theorem dead_connection_unreachable (pipefd : ℕ × ℕ) (fd : ℕ) (me : C) (s : Wired C T)
    (h : Reach (WiredInit pipefd fd me) (wiredStep fd me) OthersOrderly s) :
    (s.conn.dead = true → (∀ t, s.remover t ≠ .begun ∧ s.remover t ≠ .inside) →
      s.poll.callbacks fd = none ∧ ¬ s.poll.aio.Watched fd ∧ ¬ s.poll.loop.InCallback fd) ∧
    (s.conn.dead = false → s.poll.callbacks fd = some me ∧ fd ∈ s.poll.aio.rfds) := by
  have htended := tended_of_reach h
  refine ⟨fun hdead hfree => ?_, fun halive => ?_⟩
  · rcases htended.dead hdead with ⟨t, ht⟩ | hun
    · exact (ht.elim (hfree t).1 (hfree t).2).elim
    · exact ⟨hun.callbacks, hun.unwatched, hun.outside⟩
  · rcases htended.alive halive with ⟨hcb, hr, -⟩
    exact ⟨hcb, hr⟩

end Steps

/-- The first connection of a process. -/
def Wired.first (pipefd : ℕ × ℕ) (fd : ℕ) (me : C) : Wired C T where
  poll :=
    { (PollMgr.new pipefd : PollMgr C T) with
      aio := (SelectAio.new pipefd).watchFd fd .cbRdonly
      callbacks := Function.update (fun _ => none) fd (some me) }
  conn := .new
  asleep _ := false
  remover _ := .none

variable [DecidableEq C] [DecidableEq T]

theorem wiredInit_first {pipefd : ℕ × ℕ} {fd : ℕ} (me : C) (hfd : fd < maxPollFds)
    (hpipe : fd ≠ pipefd.1) : WiredInit pipefd fd me (Wired.first pipefd fd me : Wired C T) := by
  refine ⟨PollMgr.new pipefd, .start rfl, hpipe, rfl, ⟨?_, id⟩, fun t => ⟨?_, ?_⟩, ?_, rfl,
    fun _ => rfl, fun _ => rfl⟩
  · rintro (hr | hw)
    · exact hpipe (Finset.mem_singleton.1 hr)
    · exact absurd hw (Finset.notMem_empty fd)
  · simp [PollMgr.new]
  · simp [PollMgr.new]
  · rw [PollMgr.addCallback, if_pos ⟨hfd, Or.inl rfl⟩]
    rfl

/-- The connection is closed while the poll thread is about to call `read_cb`. -/
def closedWhileCalled : List (WiredAct Unit Unit) :=
  [.poll .lock, .poll .waitReady, .poll (.ready {3, 5} ∅), .poll .check, .poll .call, .closeconn (),
    .blockRemove (), .readCb [] .error .error false, .poll .check, .poll .lock, .removed (),
    .finish () .again]

theorem dead_connection_unreachable_closedWhileCalled :
    ∃ s : Wired Unit Unit,
      Reach (WiredInit (3, 4) 5 ()) (wiredStep 5 ()) OthersOrderly s ∧ s.conn.dead = true ∧
      (∀ t, s.remover t ≠ .begun ∧ s.remover t ≠ .inside) ∧ s.poll.callbacks 5 = none ∧
      ¬ s.poll.aio.Watched 5 ∧ ¬ s.poll.loop.InCallback 5 := by
  have hrun : ∃ s : Wired Unit Unit,
      Reach (WiredInit (3, 4) 5 ()) (wiredStep 5 ()) OthersOrderly s ∧
      (s.conn.dead = true ∧ ∀ t, s.remover t ≠ .begun ∧ s.remover t ≠ .inside) :=
    Reach.exists_of_runFrom closedWhileCalled (wiredInit_first () (by decide) (by decide))
      (by decide +kernel)
  rcases hrun with ⟨s, hs, hdead, hfree⟩
  exact ⟨s, hs, hdead, hfree, (dead_connection_unreachable (3, 4) 5 () s hs).1 hdead hfree⟩

end Rpc
end Yfs

import Yfs.Rpc.Tended

/-!
# Served — who wakes a thread that sleeps in `send`

Threads sleep in `send` at two places: on `send_wait_` while another PDU is in `wpdu_`, and on
`send_complete_` while their own PDU is not written.

* `Owned` — `wpdu_` is in use exactly while one thread is behind the first loop, and `waiters_`
  counts those in it;
* `Served` — a sleeping thread waits for that one thread, or for a `write_cb` that is registered;
* `sender_served` — so nobody sleeps for good, as long as `closeconn` is not called;
* `closeconn_strands_sender` — `closeconn` sets `dead_` without a signal, and after that nothing
  signals `send_complete_` any more.
-/

namespace Yfs
namespace Rpc

open Lib

open Wire

open Select

open Poll

variable {C T : Type}

/-! ## `wpdu_` has one owner -/

/-- Behind the first loop of `send`, with its PDU in `wpdu_`. -/
def Sender.Owns : Sender → Prop
  | .sending => True
  | .removing => True
  | _ => False

def Sender.weight (p : Sender) : ℕ :=
  if p.isWaiting then 1 else 0

theorem Sender.Owns.weight {p : Sender} (h : p.Owns) : p.weight = 0 := by
  cases p with
  | idle | waiting => exact h.elim
  | sending | removing => rfl

structure Owned [Fintype T] (c : Connection T) : Prop where
  buf : ∀ t, (c.threads t).Owns → c.wpdu.buf ≠ none
  unique : ∀ t t', (c.threads t).Owns → (c.threads t').Owns → t = t'
  owner : c.wpdu.buf ≠ none → ∃ t, (c.threads t).Owns
  counted : c.waiters = total Sender.weight c.threads

section

variable [Fintype T]

theorem owned_new : Owned (Connection.new : Connection T) where
  buf _ h := h.elim
  unique _ _ h := h.elim
  owner h := absurd rfl h
  counted := by simp [Connection.new, total, Sender.weight, Sender.isWaiting]

theorem Owned.same {c c' : Connection T} (h : Owned c) (hsame : c.SameSenders c') : Owned c' where
  buf t ht := by
    rw [hsame.threads] at ht
    rw [ne_eq, hsame.buf]
    exact h.buf t ht
  unique := by
    rw [hsame.threads]
    exact h.unique
  owner hbuf := by
    rw [ne_eq, hsame.buf] at hbuf
    rw [hsame.threads]
    exact h.owner hbuf
  counted := by
    rw [hsame.waiters, hsame.threads]
    exact h.counted

variable [DecidableEq T]

/-- A thread that does not own `wpdu_`, before and after. -/
theorem Owned.aside {c c' : Connection T} (h : Owned c) {t : T} {p : Sender}
    (hold : ¬ (c.threads t).Owns) (hnew : ¬ p.Owns) (hbuf : c'.wpdu.buf = none ↔ c.wpdu.buf = none)
    (hthreads : c'.threads = Function.update c.threads t p)
    (hcount : c'.waiters = total Sender.weight c'.threads) : Owned c' := by
  have howns : ∀ x, (c'.threads x).Owns ↔ (c.threads x).Owns := by
    intro x
    rw [hthreads]
    by_cases hx : x = t
    · subst hx
      rw [Function.update_self]
      exact ⟨fun hc => absurd hc hnew, fun hc => absurd hc hold⟩
    · rw [Function.update_of_ne hx]
  refine ⟨fun x hx => ?_, fun x y hx hy => ?_, fun hb => ?_, hcount⟩
  · rw [ne_eq, hbuf]
    exact h.buf x ((howns x).1 hx)
  · exact h.unique x y ((howns x).1 hx) ((howns y).1 hy)
  · rw [ne_eq, hbuf] at hb
    rcases h.owner hb with ⟨x, hx⟩
    exact ⟨x, (howns x).2 hx⟩

/-- A thread takes `wpdu_`, which was free. -/
theorem Owned.take {c c' : Connection T} (h : Owned c) {t : T} {p : Sender}
    (hfree : c.wpdu.buf = none) (hp : p.Owns) (hbuf : c'.wpdu.buf ≠ none)
    (hthreads : c'.threads = Function.update c.threads t p)
    (hcount : c'.waiters = total Sender.weight c'.threads) : Owned c' := by
  have hone : ∀ x, (c'.threads x).Owns → x = t := by
    intro x hx
    by_contra hne
    rw [hthreads, Function.update_of_ne hne] at hx
    exact h.buf x hx hfree
  refine ⟨fun _ _ => hbuf, fun x y hx hy => (hone x hx).trans (hone y hy).symm, fun _ => ⟨t, ?_⟩,
    hcount⟩
  rw [hthreads, Function.update_self]
  exact hp

theorem Owned.finish {c : Connection T} (h : Owned c) {t : T} (ht : (c.threads t).Owns) :
    Owned (c.finish t) := by
  have hnone : ∀ x, ¬ ((c.finish t).threads x).Owns := by
    intro x hx
    by_cases hxt : x = t
    · subst hxt
      rw [show (c.finish x).threads x = _ from Function.update_self ..] at hx
      exact hx
    · rw [show (c.finish t).threads x = _ from Function.update_of_ne hxt _ _] at hx
      exact hxt (h.unique x t hx ht)
  refine ⟨fun x hx => absurd hx (hnone x), fun x _ hx => absurd hx (hnone x),
    fun hc => absurd rfl hc, ?_⟩
  have htotal := total_update Sender.weight c.threads t
    (.idle (!c.dead && decide (c.wpdu.solong = c.wpdu.sz)))
  rw [ht.weight] at htotal
  show c.waiters = _
  rw [h.counted]
  exact htotal.symm

/-- `waiters_` when `await` is entered: one more than the others who wait. -/
theorem Entering.count {c c₀ : Connection T} {t : T} (h : Owned c) (hc₀ : Entering c t c₀)
    (p : Sender) :
    c₀.waiters + p.weight = total Sender.weight (Function.update c.threads t p) + 1 ∧
      ¬ (c.threads t).Owns ∧ c₀.threads = c.threads ∧ c₀.wpdu = c.wpdu ∧ c₀.dead = c.dead := by
  have htotal := total_update Sender.weight c.threads t p
  have hcount := h.counted
  rcases hc₀ with ⟨⟨r, ht⟩, rfl⟩ | ⟨⟨b, ht⟩, rfl⟩
  · rw [ht] at htotal ⊢
    refine ⟨?_, id, rfl, rfl, rfl⟩
    have hzero : (Sender.idle r).weight = 0 := rfl
    show c.waiters + 1 + p.weight = _
    omega
  · rw [ht] at htotal ⊢
    refine ⟨?_, id, rfl, rfl, rfl⟩
    have hone : (Sender.waiting b).weight = 1 := rfl
    omega

theorem Owned.awaited {c c₀ c' : Connection T} {t : T} (h : Owned c) (hc₀ : Entering c t c₀)
    (hawait : c₀.Awaited t c') : Owned c' := by
  have hthreads₀ := (hc₀.count h (.idle false)).2.2.1
  have hwpdu₀ := (hc₀.count h (.idle false)).2.2.2.1
  have hold := (hc₀.count h (.idle false)).2.1
  -- the count that is left when `t` does not wait any more
  have hleft : ∀ p : Sender, p.weight = 0 →
      c₀.waiters - 1 = total Sender.weight (Function.update c₀.threads t p) := by
    intro p hp
    have hcount := (hc₀.count h p).1
    rw [hthreads₀]
    omega
  cases hawait with
  | waits b =>
      refine h.aside hold (p := .waiting b) id ?_ ?_ ?_
      · rw [show ({ c₀ with threads := _ } : Connection T).wpdu = _ from hwpdu₀]
      · rw [hthreads₀]
      · have hcount := (hc₀.count h (.waiting b)).1
        have hone : (Sender.waiting b).weight = 1 := rfl
        show c₀.waiters = total Sender.weight (Function.update c₀.threads t (.waiting b))
        rw [hthreads₀]
        omega
  | refused =>
      refine h.aside hold (p := .idle false) id ?_ ?_ (hleft _ rfl)
      · rw [show ({ c₀ with waiters := _, threads := _ } : Connection T).wpdu = _ from hwpdu₀]
      · rw [hthreads₀]
  | sent ret _ hfree _ hbuf hcount hthreads =>
      refine h.aside hold (p := .idle ret) id ?_ (hthreads.trans (by rw [hthreads₀])) ?_
      · rw [← hwpdu₀, hbuf, hfree]
      · rw [hcount, hthreads]
        exact hleft _ rfl
  | part _ hfree _ hbuf _ _ hcount hthreads =>
      refine h.take (hwpdu₀ ▸ hfree) (p := .sending) trivial hbuf
        (hthreads.trans (by rw [hthreads₀])) ?_
      rw [hcount, hthreads]
      exact hleft _ rfl
  | failed _ hfree _ hbuf hcount hthreads =>
      refine h.take (hwpdu₀ ▸ hfree) (p := .removing) trivial hbuf
        (hthreads.trans (by rw [hthreads₀])) ?_
      rw [hcount, hthreads]
      exact hleft _ rfl

variable [DecidableEq C]

/-- What a step does to the connection. -/
theorem Owned.move {fd : ℕ} {me : C} {s s' : Wired C T} {a : WiredAct C T} (h : Owned s.conn)
    (hmove : WiredMove fd me s a s') : Owned s'.conn := by
  have hbroadcast : ∀ s : Wired C T, s.broadcast.conn = s.conn := by
    intro s
    rcases broadcast_eq s with ⟨asleep, heq⟩
    rw [heq]
  cases hmove with
  | poll => exact h
  | enter _ hc₀ _ hawait hent =>
      have hc := h.awaited hc₀ hawait
      unfold Wired.entered at hent
      split at hent
      · split at hent
        · cases hent
          exact hc
        · cases hent
          rw [hbroadcast]
          exact hc
      · cases hent
        exact hc
      · rcases Option.map_eq_some_iff.1 hent with ⟨p, -, rfl⟩
        exact hc
      · cases hent
        exact hc
  | resleep => exact h
  | complete ht =>
      rw [hbroadcast]
      exact h.finish (by rw [ht]; trivial)
  | spurious | unused => exact h
  | callback _ _ hsame | signalled _ _ _ hsame => exact h.same hsame
  | closed => exact h
  | closeconn => exact ⟨h.buf, h.unique, h.owner, h.counted⟩
  | blockRemove | removed => exact h
  | finish _ hthread =>
      rw [hbroadcast]
      exact h.finish (by rw [hthread]; trivial)
  | leave => exact h

theorem owned_of_reach {pipefd : ℕ × ℕ} {fd : ℕ} {me : C} {s : Wired C T}
    (h : Reach (WiredInit pipefd fd me) (wiredStep fd me) OthersOrderly s) : Owned s.conn := by
  refine Reach.invariant (I := fun s : Wired C T => Owned s.conn) ?_
    (fun _ _ _ hs _ hst => hs.move (wiredMove_of_step hst)) h
  rintro s ⟨p, -, -, -, -, -, -, hconn, -⟩
  rw [hconn]
  exact owned_new

end

/-! ## Who is asleep -/

structure Served (fd : ℕ) (s : Wired C T) : Prop where
  awake : ∀ t, s.asleep t = true →
    s.conn.threads t = .sending ∨ (s.conn.threads t).isWaiting = true
  watched : ∀ t, s.conn.threads t = .sending → s.conn.dead = false →
    s.conn.wpdu.sz ≠ 0 ∧ fd ∈ s.poll.aio.wfds
  sending : ∀ t, s.asleep t = true → s.conn.threads t = .sending →
    s.conn.dead = false ∧ 0 ≤ s.conn.wpdu.solong ∧ s.conn.wpdu.solong < s.conn.wpdu.sz
  waiting : ∀ t, s.asleep t = true → (s.conn.threads t).isWaiting = true → s.conn.wpdu.buf ≠ none

section

variable {fd : ℕ} {me : C} {s : Wired C T}

theorem served_of_awake (hawake : ∀ t, s.asleep t = false)
    (hnone : ∀ t, s.conn.threads t ≠ .sending) : Served fd s where
  awake t ht := by
    rw [hawake t] at ht
    cases ht
  watched t ht := absurd ht (hnone t)
  sending t _ ht := absurd ht (hnone t)
  waiting t ht := by
    rw [hawake t] at ht
    cases ht

theorem asleep_of_broadcast {t : T} (h : s.broadcast.asleep t = true) :
    s.asleep t = true ∧ ((s.conn.threads t).isWaiting = true → s.conn.waiters = 0) := by
  unfold Wired.broadcast at h
  split at h
  · dsimp only at h
    split at h
    · cases h
    next hnot => exact ⟨h, fun hw => absurd hw hnot⟩
  next hzero => exact ⟨h, fun _ => Nat.eq_zero_of_not_pos hzero⟩

/-- A callback after which the same threads sleep, or fewer. -/
theorem Served.callback (h : Served fd s) {p : PollMgr C T} {c : Connection T} {asleep : T → Bool}
    (hsame : s.conn.SameSenders c)
    (hwatched : c.dead = false → ∀ t, s.conn.threads t = .sending →
      c.wpdu.sz ≠ 0 ∧ fd ∈ p.aio.wfds)
    (hfewer : ∀ t, asleep t = true → s.asleep t = true)
    (hsending : ∀ t, asleep t = true → s.conn.threads t = .sending →
      c.dead = false ∧ 0 ≤ c.wpdu.solong ∧ c.wpdu.solong < c.wpdu.sz) :
    Served fd ⟨p, c, asleep, s.remover⟩ where
  awake t ht := by
    simp only [hsame.threads]
    exact h.awake t (hfewer t ht)
  watched t ht halive := hwatched halive t (by rw [← hsame.threads]; exact ht)
  sending t hasleep ht := hsending t hasleep (by rw [← hsame.threads]; exact ht)
  waiting t hasleep ht := by
    rw [ne_eq, hsame.buf]
    exact h.waiting t (hfewer t hasleep) (by rw [← hsame.threads]; exact ht)

/-- The poll manager and the remover change, or a thread is woken. -/
theorem Served.frame (h : Served fd s) {p : PollMgr C T} {asleep : T → Bool}
    {remover : T → Remover} (hwfds : s.conn.dead = false → fd ∈ s.poll.aio.wfds → fd ∈ p.aio.wfds)
    (hfewer : ∀ t, asleep t = true → s.asleep t = true) :
    Served fd ⟨p, s.conn, asleep, remover⟩ where
  awake t ht := h.awake t (hfewer t ht)
  watched t ht halive := (h.watched t ht halive).imp_right (hwfds halive)
  sending t ht := h.sending t (hfewer t ht)
  waiting t ht := h.waiting t (hfewer t ht)

/-- `closeconn` is not called. -/
def Unclosed (s : Wired C T) (a : WiredAct C T) : Prop :=
  OthersOrderly s a ∧ ∀ t, a ≠ .closeconn t

section

variable [DecidableEq T]

/-- One thread moves without touching `wpdu_`. -/
theorem Served.aside (h : Served fd s) {t : T} {p : Sender} {c : Connection T} {asleep : T → Bool}
    (hdead : c.dead = s.conn.dead) (hwpdu : c.wpdu = s.conn.wpdu)
    (hthreads : c.threads = Function.update s.conn.threads t p) (hp : p ≠ .sending)
    (hself : asleep t = true → p.isWaiting = true ∧ s.conn.wpdu.buf ≠ none)
    (hother : ∀ x, x ≠ t → asleep x = s.asleep x) :
    Served fd ⟨s.poll, c, asleep, s.remover⟩ := by
  have hthread : ∀ x, x ≠ t → c.threads x = s.conn.threads x := by
    intro x hx
    rw [hthreads, Function.update_of_ne hx]
  have hself' : c.threads t = p := by rw [hthreads, Function.update_self]
  refine ⟨fun x hx => ?_, fun x hx => ?_, fun x hx ht => ?_, fun x hx ht => ?_⟩
  · by_cases hxt : x = t
    · subst hxt
      rw [hself']
      exact Or.inr (hself hx).1
    · rw [hthread x hxt]
      exact h.awake x ((hother x hxt).symm.trans hx)
  · have hxt : x ≠ t := by
      rintro rfl
      exact hp (hself'.symm.trans hx)
    rw [hwpdu, hdead]
    exact h.watched x ((hthread x hxt).symm.trans hx)
  · have hxt : x ≠ t := by
      rintro rfl
      exact hp (hself'.symm.trans ht)
    rw [hwpdu, hdead]
    exact h.sending x ((hother x hxt).symm.trans hx) ((hthread x hxt).symm.trans ht)
  · rw [hwpdu]
    by_cases hxt : x = t
    · subst hxt
      exact (hself hx).2
    · exact h.waiting x ((hother x hxt).symm.trans hx) (by rw [← hthread x hxt]; exact ht)

end

section

variable [Fintype T]

/-- Nobody sleeps in `send` while `wpdu_` is free. -/
theorem Served.nobody (h : Served fd s) (howned : Owned s.conn) (hfree : s.conn.wpdu.buf = none)
    (t : T) : s.asleep t = false := by
  by_contra hasleep
  have hasleep' := Bool.of_not_eq_false hasleep
  rcases h.awake t hasleep' with ht | ht
  · exact howned.buf t (by rw [ht]; trivial) hfree
  · exact h.waiting t hasleep' ht hfree

end

section

variable [DecidableEq C] [DecidableEq T]

theorem Unclosed.reach {pipefd : ℕ × ℕ}
    (h : Reach (WiredInit pipefd fd me) (wiredStep fd me) Unclosed s) :
    Reach (WiredInit pipefd fd me) (wiredStep fd me) OthersOrderly s :=
  h.mono fun _ _ hok => hok.1

end

variable [DecidableEq T] [Fintype T]

/-- The owner of `wpdu_` ends, and wakes those who wait for it. -/
theorem Served.finish (h : Served fd s) (howned : Owned s.conn) {t : T}
    (ht : (s.conn.threads t).Owns) (hawake : s.asleep t = false) (remover : T → Remover) :
    Served fd ({ s with conn := s.conn.finish t, remover := remover } : Wired C T).broadcast := by
  have hother : ∀ x, x ≠ t → (s.conn.finish t).threads x = s.conn.threads x :=
    fun x hx => Function.update_of_ne hx _ _
  have hlast : ∀ x, (s.conn.finish t).threads x ≠ .sending := by
    intro x hx
    by_cases hxt : x = t
    · subst hxt
      rw [show (s.conn.finish x).threads x = _ from Function.update_self ..] at hx
      cases hx
    · rw [hother x hxt] at hx
      exact hxt (howned.unique x t (by rw [hx]; trivial) ht)
  have hnobody : ∀ x, ({ s with conn := s.conn.finish t, remover := remover } :
      Wired C T).broadcast.asleep x = false := by
    intro x
    by_contra hasleep
    rcases asleep_of_broadcast (Bool.of_not_eq_false hasleep) with ⟨hold, hzero⟩
    have hxt : x ≠ t := by
      rintro rfl
      rw [show s.asleep x = true from hold] at hawake
      cases hawake
    rcases h.awake x hold with hx | hx
    · exact hxt (howned.unique x t (by rw [hx]; trivial) ht)
    · -- `x` waits and is counted, so the broadcast was made
      have hcount : s.conn.waiters = 0 := hzero (by
        rw [show ({ s with conn := s.conn.finish t, remover := remover } :
          Wired C T).conn.threads x = _ from hother x hxt]
        exact hx)
      have hle := le_total Sender.weight s.conn.threads x
      rw [← howned.counted, hcount, Sender.weight, if_pos hx] at hle
      omega
  rcases broadcast_eq { s with conn := s.conn.finish t, remover := remover } with ⟨asleep, heq⟩
  rw [heq] at hnobody ⊢
  exact served_of_awake hnobody hlast

variable [DecidableEq C]

theorem Served.entered (h : Served fd s) (howned : Owned s.conn) {t : T} {c₀ c : Connection T}
    {s' : Wired C T} (hc₀ : Entering s.conn t c₀)
    (hawake : (∃ r, s.conn.threads t = .idle r) ∨ s.asleep t = false) (hawait : c₀.Awaited t c)
    (hent : s.entered fd me t c = some s') : Served fd s' := by
  rcases (hc₀.count howned (.idle false)).2.2 with ⟨hthreads₀, hwpdu₀, hdead₀⟩
  have hself : s.asleep t = false := by
    refine hawake.elim (fun hidle => ?_) id
    rcases hidle with ⟨r, ht⟩
    by_contra hasleep
    have hcase := h.awake t (Bool.of_not_eq_false hasleep)
    rw [ht] at hcase
    exact hcase.elim (fun hc => by cases hc) (fun hc => by cases hc)
  -- with `wpdu_` free, no other thread is behind the first loop
  have hnone : c₀.wpdu.buf = none → ∀ x, s.conn.threads x ≠ .sending := by
    intro hfree x hx
    exact howned.buf x (by rw [hx]; trivial) (hwpdu₀ ▸ hfree)
  have hothers : c₀.wpdu.buf = none → ∀ p : Sender, p ≠ .sending →
      c.threads = Function.update c₀.threads t p → ∀ x, c.threads x ≠ .sending := by
    intro hfree p hp hthreads x
    rw [hthreads, hthreads₀]
    by_cases hxt : x = t
    · subst hxt
      rw [Function.update_self]
      exact hp
    · rw [Function.update_of_ne hxt]
      exact hnone hfree x
  unfold Wired.entered at hent
  cases hawait with
  | waits b halive hbusy =>
      simp only [Function.update_self] at hent
      cases hent
      refine h.aside (p := .waiting b) hdead₀ hwpdu₀ (congrArg (Function.update · t _) hthreads₀)
        (by simp) (fun _ => ⟨rfl, hwpdu₀ ▸ hbusy⟩) (fun x hx => Function.update_of_ne hx _ _)
  | refused hdead =>
      simp only [Function.update_self] at hent
      rw [if_pos (hdead₀ ▸ hdead)] at hent
      cases hent
      refine h.aside (p := .idle false) hdead₀ hwpdu₀ (congrArg (Function.update · t _) hthreads₀)
        (by simp) (fun hc => ?_) (fun x _ => rfl)
      rw [hself] at hc
      cases hc
  | sent ret halive hfree halive' hbuf hcount hthreads =>
      rw [hthreads, Function.update_self] at hent
      dsimp only at hent
      rw [if_neg (by simp [← hdead₀, halive])] at hent
      cases hent
      have hnobody : ∀ x, ({ s with conn := c } : Wired C T).broadcast.asleep x = false := by
        intro x
        by_contra hasleep
        have hold := (asleep_of_broadcast (Bool.of_not_eq_false hasleep)).1
        rw [show s.asleep x = _ from h.nobody howned (hwpdu₀ ▸ hfree) x] at hold
        cases hold
      rcases broadcast_eq { s with conn := c } with ⟨asleep, heq⟩
      rw [heq] at hnobody ⊢
      exact served_of_awake hnobody (hothers hfree _ (by simp) hthreads)
  | part halive hfree halive' hbuf hnonneg hlt hcount hthreads =>
      rw [hthreads, Function.update_self] at hent
      rcases Option.map_eq_some_iff.1 hent with ⟨p, hadd, rfl⟩
      have hwfds : fd ∈ p.aio.wfds := by
        have hstep : Poll.step s.poll (.addCallback fd .cbWronly me) = some p := hadd
        cases Poll.move_of_step hstep
        simp [SelectAio.watchFd]
      have honly : ∀ x, Function.update s.asleep t true x = true → x = t := by
        intro x hx
        by_contra hxt
        rw [Function.update_of_ne hxt, h.nobody howned (hwpdu₀ ▸ hfree) x] at hx
        cases hx
      have hself' : c.threads t = .sending := by rw [hthreads, Function.update_self]
      refine ⟨fun x hx => ?_, fun _ _ _ => ⟨?_, hwfds⟩, fun _ _ _ => ⟨halive', hnonneg, hlt⟩,
        fun _ _ _ => hbuf⟩
      swap
      · exact (lt_of_le_of_lt hnonneg hlt).ne'
      rw [honly x hx]
      exact Or.inl hself'
  | failed halive hfree hdead' hbuf hcount hthreads =>
      rw [hthreads, Function.update_self] at hent
      cases hent
      exact served_of_awake (h.nobody howned (hwpdu₀ ▸ hfree))
        (hothers hfree _ (by simp) hthreads)

theorem Served.move {pipefd : ℕ × ℕ} (h : Served fd s) (howned : Owned s.conn)
    (htended : Tended pipefd fd me s) {a : WiredAct C T} {s' : Wired C T} (hok : Unclosed s a)
    (hmove : WiredMove fd me s a s') : Served fd s' := by
  cases hmove with
  | poll hforeign hst =>
      have hsame := untouched_of_foreign hok.1 hforeign (Poll.move_of_step hst)
      exact h.frame (fun _ => hsame.wfds.2) (fun _ => id)
  | enter _ hc₀ hawake hawait hent => exact h.entered howned hc₀ hawake hawait hent
  | @resleep t w ht halive hnonneg hlt =>
      refine ⟨fun x hx => ?_, h.watched, fun _ _ _ => ⟨halive, hnonneg, hlt⟩, fun x hx hw => ?_⟩
      · by_cases hxt : x = t
        · subst hxt
          exact Or.inl ht
        · simp only [Function.update_of_ne hxt] at hx
          exact h.awake x hx
      · exact howned.buf t (by rw [ht]; trivial)
  | complete ht hawake => exact h.finish howned (by rw [ht]; trivial) hawake _
  | @spurious t =>
      refine h.frame (fun _ => id) (fun x hx => ?_)
      by_cases hxt : x = t
      · subst hxt
        rw [Function.update_self] at hx
        cases hx
      · rwa [Function.update_of_ne hxt] at hx
  | unused hin halive hsz hleft =>
      refine h.callback ⟨rfl, rfl, Iff.rfl, fun _ => rfl⟩ (fun _ t ht => ?_) (fun _ => id) h.sending
      exact absurd hsz (h.watched t ht halive).1
  | callback _ hin hsame hdead hmore hleft =>
      have haio := ((hleft.spec htended.polled htended.fd_ne hin).2.2.2.1 rfl).2
      refine h.callback hsame (fun halive t ht => ?_) (fun _ => id) (fun t hasleep ht => ?_)
      · rw [haio, hsame.sz halive]
        exact h.watched t ht (hdead.symm.trans halive)
      · have hold := h.sending t hasleep ht
        rw [hdead]
        refine ⟨hold.1, ?_⟩
        rcases hmore with heq | hmore
        · rw [heq]
          exact hold.2
        · exact hmore
  | signalled _ hin halive hsame hdel hleft =>
      refine h.callback hsame (fun halive' t ht => ?_) (fun t hasleep => ?_)
        (fun t hasleep ht => ?_)
      · rcases hdel with ⟨rfl, -⟩ | ⟨-, hdead'⟩
        · rw [((hleft.spec htended.polled htended.fd_ne hin).2.2.2.1 rfl).2, hsame.sz halive']
          exact h.watched t ht halive
        · rw [hdead'] at halive'
          cases halive'
      · dsimp only at hasleep
        split at hasleep
        · cases hasleep
        · exact hasleep
      · simp only [hsame.threads, ht, if_true] at hasleep
        cases hasleep
  | closed => exact h
  | closeconn => exact absurd rfl (hok.2 _)
  | @blockRemove t p ht hst =>
      refine h.frame (fun halive => ?_) (fun _ => id)
      have hnone := (htended.alive halive).2.2 t
      rw [ht] at hnone
      cases hnone
  | removed ht hst =>
      cases Poll.move_of_step hst
      exact h.frame (fun _ => id) (fun _ => id)
  | @finish t w ht hthread =>
      refine h.finish howned (by rw [hthread]; trivial) ?_ _
      by_contra hasleep
      have hcase := h.awake t (Bool.of_not_eq_false hasleep)
      rw [hthread] at hcase
      exact hcase.elim (fun hc => by cases hc) (fun hc => by cases hc)
  | leave => exact h.frame (fun _ => id) (fun _ => id)

theorem served_of_reach {pipefd : ℕ × ℕ}
    (h : Reach (WiredInit pipefd fd me) (wiredStep fd me) Unclosed s) : Served fd s := by
  refine Reach.invariant_with
    (J := fun s : Wired C T => Owned s.conn ∧ Tended pipefd fd me s) (I := Served fd)
    (fun hs => ⟨owned_of_reach (Unclosed.reach hs), tended_of_reach (Unclosed.reach hs)⟩) ?_
    (fun _ _ _ hJ _ hs hok hst => hs.move hJ.1 hJ.2 hok (wiredMove_of_step hst)) h
  rintro s ⟨p, -, -, -, -, -, -, hconn, hawake, -⟩
  refine served_of_awake hawake fun t => ?_
  rw [hconn]
  simp [Connection.new]

/-- As long as `closeconn` is not called, a thread that sleeps in `send` is either in the middle of
its own PDU, with a `write_cb` registered for the rest, or waits for the one thread that has a PDU
in `wpdu_`; with no PDU there, nobody sleeps. -/
theorem sender_served (pipefd : ℕ × ℕ) (fd : ℕ) (me : C) (s : Wired C T)
    (h : Reach (WiredInit pipefd fd me) (wiredStep fd me) Unclosed s) :
    (s.conn.wpdu.buf = none → ∀ t, s.asleep t = false) ∧
    s.conn.waiters = total Sender.weight s.conn.threads ∧
    ∀ t, s.asleep t = true →
      (s.conn.threads t = .sending ∧ s.conn.dead = false ∧ 0 ≤ s.conn.wpdu.solong ∧
        s.conn.wpdu.solong < s.conn.wpdu.sz ∧ s.poll.callbacks fd = some me ∧
        fd ∈ s.poll.aio.wfds) ∨
      ((s.conn.threads t).isWaiting = true ∧
        ∃ o, o ≠ t ∧ (s.conn.threads o).Owns ∧ ∀ x, (s.conn.threads x).Owns → x = o) := by
  have hserved := served_of_reach h
  have howned := owned_of_reach (Unclosed.reach h)
  have htended := tended_of_reach (Unclosed.reach h)
  refine ⟨hserved.nobody howned, howned.counted, fun t hasleep => ?_⟩
  rcases hserved.awake t hasleep with ht | ht
  · rcases hserved.sending t hasleep ht with ⟨halive, hnonneg, hlt⟩
    exact Or.inl ⟨ht, halive, hnonneg, hlt, (htended.alive halive).1,
      (hserved.watched t ht halive).2⟩
  · rcases howned.owner (hserved.waiting t hasleep ht) with ⟨o, ho⟩
    refine Or.inr ⟨ht, o, ?_, ho, fun x hx => howned.unique x o hx ho⟩
    rintro rfl
    cases hthread : s.conn.threads o with
    | waiting b =>
        rw [hthread] at ho
        exact ho
    | _ =>
        rw [hthread] at ht
        cases ht

end

section

variable [DecidableEq C] [DecidableEq T]

instance [Fintype T] (s : Wired C T) (a : WiredAct C T) : Decidable (Unclosed s a) :=
  match a with
  | .closeconn t => isFalse fun h => h.2 t rfl
  | .poll a => decidable_of_iff (Orderly s.poll a) ⟨fun h => ⟨h, by simp⟩, fun h => h.1⟩
  | .send _ _ _ => isTrue ⟨trivial, by simp⟩
  | .wake _ _ => isTrue ⟨trivial, by simp⟩
  | .spurious _ => isTrue ⟨trivial, by simp⟩
  | .writeCb _ => isTrue ⟨trivial, by simp⟩
  | .readCb _ _ _ _ => isTrue ⟨trivial, by simp⟩
  | .blockRemove _ => isTrue ⟨trivial, by simp⟩
  | .removed _ => isTrue ⟨trivial, by simp⟩
  | .finish _ _ => isTrue ⟨trivial, by simp⟩

/-- The socket is full, and a second thread wants to send. -/
def socketFull : List (WiredAct Unit Bool) :=
  [.send false (List.replicate 8 0) .again, .send true (List.replicate 8 1) .again]

theorem sender_served_socketFull :
    ∃ s : Wired Unit Bool,
      Reach (WiredInit (3, 4) 5 ()) (wiredStep 5 ()) Unclosed s ∧ s.asleep false = true ∧
      s.asleep true = true ∧ s.conn.waiters = total Sender.weight s.conn.threads := by
  have hrun : ∃ s : Wired Unit Bool,
      Reach (WiredInit (3, 4) 5 ()) (wiredStep 5 ()) Unclosed s ∧
      (s.asleep false = true ∧ s.asleep true = true) :=
    Reach.exists_of_runFrom socketFull (wiredInit_first () (by decide) (by decide))
      (by decide +kernel)
  rcases hrun with ⟨s, hs, h₀, h₁⟩
  exact ⟨s, hs, h₀, h₁, (sender_served (3, 4) 5 () s hs).2.1⟩

end

/-! ## `closeconn` -/

/-- Dead, with a thread asleep on `send_complete_`. -/
structure Stranded (t : T) (s : Wired C T) : Prop where
  dead : s.conn.dead = true
  sending : s.conn.threads t = .sending
  asleep : s.asleep t = true

/-- The wait of a thread does not end by itself. -/
def NotSpurious (t : T) : Wired C T → WiredAct C T → Prop
  | _, .spurious u => u ≠ t
  | _, _ => True

section

variable [DecidableEq T]

instance (t : T) (s : Wired C T) (a : WiredAct C T) : Decidable (NotSpurious t s a) :=
  match a with
  | .spurious u => inferInstanceAs (Decidable (u ≠ t))
  | .poll _ => isTrue trivial
  | .send _ _ _ => isTrue trivial
  | .wake _ _ => isTrue trivial
  | .writeCb _ => isTrue trivial
  | .readCb _ _ _ _ => isTrue trivial
  | .closeconn _ => isTrue trivial
  | .blockRemove _ => isTrue trivial
  | .removed _ => isTrue trivial
  | .finish _ _ => isTrue trivial

end

section

variable {fd : ℕ} {me : C} {s : Wired C T} {t : T}

theorem Stranded.broadcast (h : Stranded t s) : Stranded t s.broadcast := by
  unfold Wired.broadcast
  split
  · refine ⟨h.dead, h.sending, ?_⟩
    dsimp only
    rw [if_neg (by simp [h.sending, Sender.isWaiting])]
    exact h.asleep
  · exact h

variable [DecidableEq T]

/-- Another thread moves on. -/
theorem Stranded.other (h : Stranded t s) {u : T} (hne : t ≠ u) {p : PollMgr C T}
    {c : Connection T} {r : Sender} {remover : T → Remover} (hdead : c.dead = true)
    (hthreads : c.threads = Function.update s.conn.threads u r) :
    Stranded t ⟨p, c, s.asleep, remover⟩ := by
  refine ⟨hdead, ?_, h.asleep⟩
  rw [hthreads, Function.update_of_ne hne]
  exact h.sending

variable [DecidableEq C]

theorem Stranded.move (h : Stranded t s) {a : WiredAct C T} {s' : Wired C T}
    (ha : NotSpurious t s a) (hmove : WiredMove fd me s a s') : Stranded t s' := by
  have hnot : ∀ {b : Bool}, s.conn.dead = b → b = true := fun hb => hb.symm.trans h.dead
  cases hmove with
  | poll => exact ⟨h.dead, h.sending, h.asleep⟩
  | @enter a u c₀ c s' _ hc₀ _ hawait hent =>
      have hne : t ≠ u := by
        rintro rfl
        rcases hc₀ with ⟨⟨r, ht⟩, -⟩ | ⟨⟨b, ht⟩, -⟩
        · rw [h.sending] at ht
          cases ht
        · rw [h.sending] at ht
          cases ht
      have hsame : c₀.dead = s.conn.dead ∧ c₀.threads = s.conn.threads := by
        rcases hc₀ with ⟨-, rfl⟩ | ⟨-, rfl⟩ <;> exact ⟨rfl, rfl⟩
      have hdead₀ := hsame.1.trans h.dead
      cases hawait with
      | refused hdead =>
          unfold Wired.entered at hent
          simp only [Function.update_self] at hent
          rw [if_pos h.dead] at hent
          cases hent
          exact h.other hne hdead₀ (congrArg (Function.update · u _) hsame.2)
      | waits _ halive | sent _ halive | part halive | failed halive =>
          cases hdead₀.symm.trans halive
  | resleep _ halive => cases hnot halive
  | @complete u w hu hawake =>
      have hne : t ≠ u := by
        rintro rfl
        rw [h.asleep] at hawake
        cases hawake
      exact Stranded.broadcast (h.other hne h.dead rfl)
  | @spurious u =>
      refine ⟨h.dead, h.sending, ?_⟩
      simp only [Function.update_of_ne (Ne.symm ha)]
      exact h.asleep
  | unused _ halive => cases hnot halive
  | callback _ _ hsame hdead =>
      refine ⟨hdead.trans h.dead, ?_, h.asleep⟩
      rw [hsame.threads]
      exact h.sending
  | signalled _ _ halive => cases hnot halive
  | closed => exact h
  | closeconn _ halive => cases hnot halive
  | blockRemove | removed => exact ⟨h.dead, h.sending, h.asleep⟩
  | @finish u w _ hthread =>
      have hne : t ≠ u := by
        rintro rfl
        rw [h.sending] at hthread
        cases hthread
      exact Stranded.broadcast (h.other hne h.dead rfl)
  | leave => exact ⟨h.dead, h.sending, h.asleep⟩

/-- A thread that sleeps on `send_complete_` when another one calls `closeconn` is not woken by
anything the program does from then on. -/
theorem closeconn_strands_sender (fd : ℕ) (me : C) (s s₁ s₂ : Wired C T) (t u : T)
    (ht : s.conn.threads t = .sending) (hasleep : s.asleep t = true)
    (hclose : wiredStep fd me s (.closeconn u) = some s₁)
    (hlater : Reach (fun x => x = s₁) (wiredStep fd me) (NotSpurious t) s₂) :
    s₂.asleep t = true ∧ s₂.conn.threads t = .sending ∧ s₂.conn.dead = true := by
  have hstart : Stranded t s₁ := by
    cases wiredMove_of_step hclose with
    | closed hdead => exact ⟨hdead, ht, hasleep⟩
    | closeconn => exact ⟨rfl, ht, hasleep⟩
    | enter ha => rcases ha with ⟨_, _, ha⟩ | ⟨_, ha⟩ <;> cases ha
    | callback ha | signalled ha => rcases ha with ⟨_, ha⟩ | ⟨_, _, _, _, ha⟩ <;> cases ha
  have hlast : Stranded t s₂ := by
    refine Reach.invariant (I := Stranded t) ?_
      (fun _ _ _ hs ha hst => hs.move ha (wiredMove_of_step hst)) hlater
    rintro s rfl
    exact hstart
  exact ⟨hlast.asleep, hlast.sending, hlast.dead⟩

end

/-- The connection is closed while the socket is full, up to the end of `closeconn`. -/
def closedWhenFull : List (WiredAct Unit Bool) :=
  [.blockRemove true, .poll .lock, .removed true, .finish true .again, .send true [] .again]

theorem closeconn_strands_sender_closedWhenFull :
    ∃ s s₁ s₂ : Wired Unit Bool,
      Reach (WiredInit (3, 4) 5 ()) (wiredStep 5 ()) OthersOrderly s ∧
      s.conn.threads false = .sending ∧ s.asleep false = true ∧
      wiredStep 5 () s (.closeconn true) = some s₁ ∧
      Reach (fun x => x = s₁) (wiredStep 5 ()) (NotSpurious false) s₂ ∧
      s₂.conn.threads true = .idle false ∧ s₂.asleep false = true ∧
      s₂.conn.threads false = .sending ∧ s₂.conn.dead = true := by
  have hrun : ∃ s : Wired Unit Bool,
      Reach (WiredInit (3, 4) 5 ()) (wiredStep 5 ()) OthersOrderly s ∧
      (s.conn.threads false = .sending ∧ s.asleep false = true ∧
        ((wiredStep 5 () s (.closeconn true)).bind fun s₁ =>
          (runFrom (wiredStep 5 ()) (NotSpurious false) s₁ closedWhenFull).map fun s₂ =>
            s₂.conn.threads true) = some (.idle false)) :=
    Reach.exists_of_runFrom [.send false (List.replicate 8 0) .again]
      (wiredInit_first () (by decide) (by decide)) (by decide +kernel)
  rcases hrun with ⟨s, hs, ht, hasleep, hafter⟩
  rcases Option.bind_eq_some_iff.1 hafter with ⟨s₁, hs₁, hmap⟩
  rcases Option.map_eq_some_iff.1 hmap with ⟨s₂, hs₂, hidle⟩
  have hlater : Reach (fun x => x = s₁) (wiredStep 5 ()) (NotSpurious false) s₂ :=
    Reach.of_runFrom closedWhenFull (.start rfl) hs₂
  exact ⟨s, s₁, s₂, hs, ht, hasleep, hs₁, hlater, hidle,
    closeconn_strands_sender 5 () s s₁ s₂ false true ht hasleep hs₁ hlater⟩

end Rpc
end Yfs

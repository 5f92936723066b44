import Yfs.Lib.Weight
import Yfs.Rpc.Delivery
import Yfs.Rpc.Wakeup

/-!
# Wired — a connection and the poll manager that serves it

`Connection` lets a waiting thread go on at any time and runs callbacks whenever it likes.  Here a
connection is one of the objects of a `PollMgr`: its callbacks run when the loop calls them, `send`
asks for a `write_cb` when it has to wait, and a thread that waits sleeps until it is signalled.

* `wiredStep` — the functions of `connection.cc` with what they do to the poll manager and to the
  condition variables; whatever else goes on there is `poll a`;
* `WiredMove` — what one step does to the two of them.

What holds along all runs is in `Tended`, for the poll thread, and in `Served`, for the threads that
sleep in `send`.
-/

namespace Yfs
namespace Rpc

open Lib

open Wire

open Select

open Poll

/-! ## The code -/

/-- Where a thread is in `block_remove_fd(fd_)`, called by `send` or `closeconn`. -/
inductive Remover
  | none
  /-- `dead_` is set and `m_` released. -/
  | begun
  | inside
  /-- `block_remove_fd` has returned. -/
  | back
  deriving DecidableEq, Repr

/-- `asleep`: in `pthread_cond_wait` on `send_wait_` or `send_complete_`, and not woken. -/
structure Wired (C T : Type) where
  poll : PollMgr C T
  conn : Connection T
  asleep : T → Bool
  remover : T → Remover

variable {C T : Type}

def Sender.isWaiting : Sender → Bool
  | .waiting _ => true
  | _ => false

namespace Wired

/-- `if (waiters_ > 0) pthread_cond_broadcast(&send_wait_)`. -/
def broadcast (s : Wired C T) : Wired C T :=
  if 0 < s.conn.waiters then
    { s with asleep := fun t => if (s.conn.threads t).isWaiting then false else s.asleep t }
  else
    s

/-- `pthread_cond_signal(&send_complete_)`; no two threads wait there (`Owned.unique`). -/
def signal (s : Wired C T) : Wired C T :=
  { s with asleep := fun t => if s.conn.threads t = .sending then false else s.asleep t }

variable (fd : ℕ) (me : C) [DecidableEq C] [DecidableEq T]

/-- `send` has got as far as `c` and gives up `m_`, or returns. -/
def entered (s : Wired C T) (t : T) (c : Connection T) : Option (Wired C T) :=
  match c.threads t with
  | .idle _ =>
      -- on a dead connection it returns at once
      if s.conn.dead then some { s with conn := c } else some { s with conn := c }.broadcast
  | .waiting _ => some { s with conn := c, asleep := Function.update s.asleep t true }
  | .sending =>
      (s.poll.addCallback fd .cbWronly me).map fun p =>
        { s with
          poll := p
          conn := c
          asleep := Function.update s.asleep t true }
  | .removing => some { s with conn := c, remover := Function.update s.remover t .begun }

def send (s : Wired C T) (t : T) (b : Bytes) (w : Write) : Option (Wired C T) :=
  if s.remover t = .none then (s.conn.send t b w).bind (s.entered fd me t) else none

/-- A thread that is awake takes `m_` again and goes on in its loop. -/
def wake (s : Wired C T) (t : T) (w : Write) : Option (Wired C T) :=
  if s.asleep t = false then
    match s.conn.threads t with
    | .waiting _ => (s.conn.wake t w).bind (s.entered fd me t)
    | .sending =>
        (s.conn.wake t w).map fun c =>
          if c.threads t = .sending then
            { s with conn := c, asleep := Function.update s.asleep t true }
          else
            { s with conn := c }.broadcast
    | _ => none
  else
    none

/-- A wait that ends without a signal. -/
def spurious (s : Wired C T) (t : T) : Option (Wired C T) :=
  if s.asleep t = true then some { s with asleep := Function.update s.asleep t false } else none

/-- The poll thread is in this callback of the connection. -/
def calledBack (s : Wired C T) (kind : Kind) : Bool :=
  match s.poll.loop with
  | .calling k x _ _ _ => decide (k = kind ∧ x = fd)
  | _ => false

/-- The callback returns, with or without a `del_callback`. -/
def leave (s : Wired C T) (del : Option PollFlag) (c : Connection T) : Option (Wired C T) :=
  ((match del with
    | none => some s.poll
    | some flag => s.poll.delCallback fd flag).bind PollMgr.ret).map fun p =>
      { s with poll := p, conn := c }

def writeCb (s : Wired C T) (w : Write) : Option (Wired C T) :=
  if s.calledBack fd .write then
    (s.conn.writeCb w).bind fun c =>
      if s.conn.wpdu.sz = 0 then
        s.leave fd (some .cbWronly) c
      else if c.dead then
        (s.leave fd (some .cbRdwr) c).map signal
      else if c.wpdu.solong < c.wpdu.sz then
        s.leave fd none c
      else
        (s.leave fd none c).map signal
  else
    none

def readCb (s : Wired C T) (inp : Bytes) (size body : Read) (accept : Bool) :
    Option (Wired C T) :=
  if s.calledBack fd .read then
    (s.conn.readCb inp size body accept).bind fun r =>
      if s.conn.dead = false ∧ r.1.dead = true then
        (s.leave fd (some .cbRdwr) r.1).map signal
      else
        s.leave fd none r.1
  else
    none

/-- Nothing is signalled here. -/
def closeconn (s : Wired C T) (t : T) : Option (Wired C T) :=
  match s.conn.threads t, s.remover t with
  | .idle _, .none =>
      if s.conn.dead then
        some s
      else
        some
          { s with
            conn := s.conn.closeconn
            remover := Function.update s.remover t .begun }
  | _, _ => none

def blockRemove (s : Wired C T) (t : T) : Option (Wired C T) :=
  if s.remover t = .begun then
    (s.poll.blockRemoveFd t fd).map fun p =>
      { s with
        poll := p
        remover := Function.update s.remover t .inside }
  else
    none

def removed (s : Wired C T) (t : T) : Option (Wired C T) :=
  if s.remover t = .inside then
    (s.poll.removed t).map fun p =>
      { s with
        poll := p
        remover := Function.update s.remover t .back }
  else
    none

/-- `closeconn` returns; `send` takes `m_` again and ends. -/
def finish (s : Wired C T) (t : T) (w : Write) : Option (Wired C T) :=
  if s.remover t = .back then
    if s.conn.threads t = .removing then
      (s.conn.wake t w).map fun c =>
        { s with
          conn := c
          remover := Function.update s.remover t .none }.broadcast
    else
      some { s with remover := Function.update s.remover t .none }
  else
    none

end Wired

inductive WiredAct (C T : Type)
  /-- A step of the poll manager that is not about this connection. -/
  | poll (a : Act C T)
  | send (t : T) (b : Bytes) (w : Write)
  | wake (t : T) (w : Write)
  | spurious (t : T)
  | writeCb (w : Write)
  | readCb (inp : Bytes) (size body : Read) (accept : Bool)
  | closeconn (t : T)
  | blockRemove (t : T)
  | removed (t : T)
  | finish (t : T) (w : Write)

/-- The poll manager does something for others, or goes on to the next descriptor. -/
def Foreign (fd : ℕ) (p : PollMgr C T) : Act C T → Prop
  | .addCallback x _ _ => x ≠ fd
  | .delCallback x _ => x ≠ fd
  | .blockRemoveFd _ x => x ≠ fd
  | .removed t => p.removing t ≠ .woken fd
  | .wakeUp t => p.removing t ≠ .waiting fd
  | .ret => ¬ p.loop.InCallback fd
  | _ => True

section

variable [DecidableEq C] [DecidableEq T]

instance (fd : ℕ) (p : PollMgr C T) (a : Act C T) : Decidable (Foreign fd p a) :=
  match a with
  | .addCallback x _ _ => inferInstanceAs (Decidable (x ≠ fd))
  | .delCallback x _ => inferInstanceAs (Decidable (x ≠ fd))
  | .blockRemoveFd _ x => inferInstanceAs (Decidable (x ≠ fd))
  | .removed t => inferInstanceAs (Decidable (p.removing t ≠ .woken fd))
  | .wakeUp t => inferInstanceAs (Decidable (p.removing t ≠ .waiting fd))
  | .ret => inferInstanceAs (Decidable (¬ p.loop.InCallback fd))
  | .lock => isTrue trivial
  | .waitReady => isTrue trivial
  | .ready _ _ => isTrue trivial
  | .interrupted => isTrue trivial
  | .check => isTrue trivial
  | .call => isTrue trivial

def wiredStep (fd : ℕ) (me : C) (s : Wired C T) : WiredAct C T → Option (Wired C T)
  | .poll a =>
      if Foreign fd s.poll a then (Poll.step s.poll a).map fun p => { s with poll := p } else none
  | .send t b w => s.send fd me t b w
  | .wake t w => s.wake fd me t w
  | .spurious t => s.spurious t
  | .writeCb w => s.writeCb fd w
  | .readCb inp size body accept => s.readCb fd inp size body accept
  | .closeconn t => s.closeconn t
  | .blockRemove t => s.blockRemove fd t
  | .removed t => s.removed t
  | .finish t w => s.finish t w

/-- The constructor: a descriptor that the poll manager has nothing to do with is registered for
reading. -/
def WiredInit (pipefd : ℕ × ℕ) (fd : ℕ) (me : C) (s : Wired C T) : Prop :=
  ∃ p, Polled pipefd p ∧ fd ≠ pipefd.1 ∧ p.callbacks fd = none ∧ Quiet p fd ∧
    (∀ t, p.removing t ≠ .waiting fd ∧ p.removing t ≠ .woken fd) ∧
    p.addCallback fd .cbRdonly me = some s.poll ∧ s.conn = .new ∧ (∀ t, s.asleep t = false) ∧
    ∀ t, s.remover t = .none

/-- The others use the poll manager as `connection.cc` does. -/
def OthersOrderly (s : Wired C T) : WiredAct C T → Prop
  | .poll a => Orderly s.poll a
  | _ => True

instance [Fintype T] (s : Wired C T) (a : WiredAct C T) : Decidable (OthersOrderly s a) :=
  match a with
  | .poll a => inferInstanceAs (Decidable (Orderly s.poll a))
  | .send _ _ _ => isTrue trivial
  | .wake _ _ => isTrue trivial
  | .spurious _ => isTrue trivial
  | .writeCb _ => isTrue trivial
  | .readCb _ _ _ _ => isTrue trivial
  | .closeconn _ => isTrue trivial
  | .blockRemove _ => isTrue trivial
  | .removed _ => isTrue trivial
  | .finish _ _ => isTrue trivial

end

/-! ## The connection -/

namespace Connection

/-- What `writepdu` leaves alone, and where it gets with a PDU that is not finished. -/
theorem writepdu_frame {c c' : Connection T} {w : Write} {ok : Bool}
    (h : c.writepdu w = some (c', ok)) :
    c'.dead = c.dead ∧ c'.waiters = c.waiters ∧ c'.threads = c.threads ∧
      (c'.wpdu.buf = none ↔ c.wpdu.buf = none) ∧
      (ok = true → c'.wpdu.sz = c.wpdu.sz) ∧
      (ok = true → 0 ≤ c.wpdu.solong → c.wpdu.solong ≤ c.wpdu.sz →
        0 ≤ c'.wpdu.solong ∧ c'.wpdu.solong ≤ c'.wpdu.sz) := by
  rcases writepdu_cases h with ⟨rfl, rfl⟩ | ⟨b, hb, hcase⟩
  · exact ⟨rfl, rfl, rfl, Iff.rfl, fun _ => rfl, fun _ h0 hle => ⟨h0, hle⟩⟩
  · rcases hcase with ⟨n, hn, rfl, rfl⟩ | ⟨rfl, rfl⟩ | ⟨rfl, rfl⟩
    · refine ⟨rfl, rfl, rfl, by simp [hb], fun _ => rfl, fun _ h0 hle => ⟨?_, ?_⟩⟩
      · show 0 ≤ c.wpdu.solong + n
        omega
      · show c.wpdu.solong + n ≤ c.wpdu.sz
        omega
    · exact ⟨rfl, rfl, rfl, by simp [hb], fun _ => rfl, fun _ h0 hle => ⟨h0, hle⟩⟩
    · exact ⟨rfl, rfl, rfl, by simp [hb], (fun hok => by cases hok), fun hok => by cases hok⟩

/-- What the callbacks leave alone. -/
structure SameSenders (c c' : Connection T) : Prop where
  waiters : c'.waiters = c.waiters
  threads : c'.threads = c.threads
  buf : c'.wpdu.buf = none ↔ c.wpdu.buf = none
  sz : c'.dead = false → c'.wpdu.sz = c.wpdu.sz

theorem writeCb_cases {c c' : Connection T} {w : Write} (h : c.writeCb w = some c') :
    c.dead = false ∧ SameSenders c c' ∧
      (c.wpdu.sz = 0 ∧ c' = c ∨ c.wpdu.sz ≠ 0 ∧ (c'.dead = true ∨ 0 ≤ c'.wpdu.solong)) := by
  unfold writeCb at h
  split at h
  · cases h
  next hdead =>
    have halive := Bool.of_not_eq_true hdead
    split at h
    next hsz =>
      cases h
      exact ⟨halive, ⟨rfl, rfl, Iff.rfl, fun _ => rfl⟩, Or.inl ⟨hsz, rfl⟩⟩
    next hsz =>
      rcases Option.bind_eq_some_iff.1 h with ⟨⟨c₁, ok⟩, hwrite, hcase⟩
      rcases writepdu_frame hwrite with ⟨hdead₁, hcount₁, hthreads₁, hbuf₁, hsz₁, -⟩
      cases ok with
      | true =>
          simp only [if_true] at hcase
          split at hcase
          · cases hcase
          next hnonneg =>
            cases hcase
            exact ⟨halive, ⟨hcount₁, hthreads₁, hbuf₁, fun _ => hsz₁ rfl⟩,
              Or.inr ⟨hsz, Or.inr (not_lt.1 hnonneg)⟩⟩
      | false =>
          cases hcase
          exact ⟨halive, ⟨hcount₁, hthreads₁, hbuf₁, fun hc => by cases hc⟩,
            Or.inr ⟨hsz, Or.inl rfl⟩⟩

/-- `read_cb` does not touch what is being sent. -/
structure SameOut (c c' : Connection T) : Prop where
  wpdu : c'.wpdu = c.wpdu
  waiters : c'.waiters = c.waiters
  threads : c'.threads = c.threads

theorem SameOut.senders {c c' : Connection T} (h : SameOut c c') : SameSenders c c' :=
  ⟨h.waiters, h.threads, by rw [h.wpdu], fun _ => by rw [h.wpdu]⟩

theorem readBody_out {c c' : Connection T} {inp inp' : Bytes} {body : Read} {ok : Bool}
    (h : c.readBody inp body = some (c', inp', ok)) : SameOut c c' ∧ c'.dead = c.dead := by
  unfold readBody at h
  split at h
  · split at h
    · cases h
      exact ⟨⟨rfl, rfl, rfl⟩, rfl⟩
    · cases h
  · cases h
    exact ⟨⟨rfl, rfl, rfl⟩, rfl⟩
  · cases h
    exact ⟨⟨rfl, rfl, rfl⟩, rfl⟩

theorem readpdu_out {c c' : Connection T} {inp inp' : Bytes} {size body : Read} {ok : Bool}
    (h : c.readpdu inp size body = some (c', inp', ok)) : SameOut c c' ∧ c'.dead = c.dead := by
  unfold readpdu at h
  split at h
  · split at h
    · split at h
      · split at h
        · cases h
          exact ⟨⟨rfl, rfl, rfl⟩, rfl⟩
        · split at h
          · cases h
            exact ⟨⟨rfl, rfl, rfl⟩, rfl⟩
          · split at h
            · cases h
            · have hbody := readBody_out h
              exact ⟨⟨hbody.1.wpdu, hbody.1.waiters, hbody.1.threads⟩, hbody.2⟩
      · cases h
    · cases h
    · cases h
      exact ⟨⟨rfl, rfl, rfl⟩, rfl⟩
  · exact readBody_out h

theorem offer_out (c : Connection T) (accept : Bool) :
    SameOut c (c.offer accept) ∧ (c.offer accept).dead = c.dead := by
  unfold offer
  split
  · split <;> exact ⟨⟨rfl, rfl, rfl⟩, rfl⟩
  · exact ⟨⟨rfl, rfl, rfl⟩, rfl⟩

theorem readCb_out {c c' : Connection T} {inp inp' : Bytes} {size body : Read} {accept : Bool}
    (h : c.readCb inp size body accept = some (c', inp')) :
    SameOut c c' ∧ (c.dead = true → c'.dead = true) := by
  unfold readCb at h
  split at h
  · cases h
    exact ⟨⟨rfl, rfl, rfl⟩, id⟩
  next hdead =>
    rcases Option.map_eq_some_iff.1 h with ⟨⟨c₁, inp₁, ok⟩, hcollect, heq⟩
    have hcollected : SameOut c c₁ := by
      unfold collect at hcollect
      split at hcollect
      · exact (readpdu_out hcollect).1
      · cases hcollect
        exact ⟨rfl, rfl, rfl⟩
    cases heq
    refine ⟨?_, fun hd => absurd hd hdead⟩
    have hoffer := (offer_out (if ok then c₁ else { c₁ with dead := true }) accept).1
    cases ok
    · exact ⟨hoffer.wpdu.trans hcollected.wpdu, hoffer.waiters.trans hcollected.waiters,
        hoffer.threads.trans hcollected.threads⟩
    · exact ⟨hoffer.wpdu.trans hcollected.wpdu, hoffer.waiters.trans hcollected.waiters,
        hoffer.threads.trans hcollected.threads⟩

variable [DecidableEq T]

/-- What `send` has done when it leaves its first loop or goes to sleep in it. -/
inductive Awaited (c : Connection T) (t : T) : Connection T → Prop
  | waits (b : Bytes) (halive : c.dead = false) (hbusy : c.wpdu.buf ≠ none) :
      Awaited c t { c with threads := Function.update c.threads t (.waiting b) }
  | refused (hdead : c.dead = true) :
      Awaited c t
        { c with
          waiters := c.waiters - 1
          threads := Function.update c.threads t (.idle false) }
  | sent {c' : Connection T} (ret : Bool) (halive : c.dead = false) (hfree : c.wpdu.buf = none)
      (halive' : c'.dead = false) (hbuf : c'.wpdu.buf = none) (hcount : c'.waiters = c.waiters - 1)
      (hthreads : c'.threads = Function.update c.threads t (.idle ret)) : Awaited c t c'
  | part {c' : Connection T} (halive : c.dead = false) (hfree : c.wpdu.buf = none)
      (halive' : c'.dead = false) (hbuf : c'.wpdu.buf ≠ none) (hnonneg : 0 ≤ c'.wpdu.solong)
      (hlt : c'.wpdu.solong < c'.wpdu.sz) (hcount : c'.waiters = c.waiters - 1)
      (hthreads : c'.threads = Function.update c.threads t .sending) : Awaited c t c'
  | failed {c' : Connection T} (halive : c.dead = false) (hfree : c.wpdu.buf = none)
      (hdead' : c'.dead = true) (hbuf : c'.wpdu.buf ≠ none) (hcount : c'.waiters = c.waiters - 1)
      (hthreads : c'.threads = Function.update c.threads t .removing) : Awaited c t c'

theorem awaited {c c' : Connection T} {t : T} {b : Bytes} {w : Write}
    (h : c.await t b w = some c') : Awaited c t c' := by
  unfold await at h
  split at h
  next hbusy =>
    cases h
    exact .waits b hbusy.1 hbusy.2
  next hbusy =>
    split at h
    next hdead =>
      cases h
      exact .refused hdead
    next hdead =>
      have halive : c.dead = false := Bool.of_not_eq_true hdead
      have hfree : c.wpdu.buf = none := by
        by_contra hbuf
        exact hbusy ⟨halive, hbuf⟩
      rcases Option.bind_eq_some_iff.1 h with ⟨⟨c₁, ok⟩, hwrite, hcase⟩
      rcases writepdu_frame hwrite with ⟨hdead₁, hcount₁, hthreads₁, hbuf₁, -, hrange⟩
      have hbuf : c₁.wpdu.buf ≠ none := by
        rw [ne_eq, hbuf₁]
        exact Option.some_ne_none b
      cases ok with
      | true =>
          have hle := hrange rfl (Int.le_refl 0) (Int.natCast_nonneg _)
          simp only [if_true] at hcase
          split at hcase
          next hdone =>
            cases hcase
            exact .sent _ halive hfree (hdead₁.trans halive) rfl hcount₁
              (congrArg (fun f => Function.update f t _) hthreads₁)
          next hmore =>
            cases hcase
            exact .part halive hfree (hdead₁.trans halive) hbuf hle.1
              (lt_of_le_of_ne hle.2 hmore) hcount₁
              (congrArg (fun f => Function.update f t _) hthreads₁)
      | false =>
          cases hcase
          exact .failed halive hfree rfl hbuf hcount₁
            (congrArg (fun f => Function.update f t _) hthreads₁)

end Connection

/-! ## What a step does -/

/-- The connection with which `await` is entered: by a new `send`, or by a thread that has been
waiting for its turn. -/
def Entering (c : Connection T) (t : T) (c₀ : Connection T) : Prop :=
  (∃ r, c.threads t = .idle r) ∧ c₀ = { c with waiters := c.waiters + 1 } ∨
    (∃ b, c.threads t = .waiting b) ∧ c₀ = c

theorem inCallback_of_calledBack {fd : ℕ} {s : Wired C T} {kind : Kind}
    (h : s.calledBack fd kind = true) : s.poll.loop.InCallback fd := by
  unfold Wired.calledBack at h
  split at h
  next hloop =>
    rw [hloop]
    exact (of_decide_eq_true h).2.symm
  next => cases h

variable [DecidableEq C] [DecidableEq T]

/-- The poll manager when a callback of `fd` returns. -/
inductive Left (fd : ℕ) (p : PollMgr C T) : Option PollFlag → PollMgr C T → Prop
  | ret {p' : PollMgr C T} (hret : Poll.step p .ret = some p') : Left fd p none p'
  | del {flag : PollFlag} {q p' : PollMgr C T} (hdel : Poll.step p (.delCallback fd flag) = some q)
      (hret : Poll.step q .ret = some p') : Left fd p (some flag) p'

inductive WiredMove (fd : ℕ) (me : C) (s : Wired C T) : WiredAct C T → Wired C T → Prop
  | poll {a : Act C T} {p : PollMgr C T} (hforeign : Foreign fd s.poll a)
      (hst : Poll.step s.poll a = some p) : WiredMove fd me s (.poll a) { s with poll := p }
  | enter {a : WiredAct C T} {t : T} {c₀ c : Connection T} {s' : Wired C T}
      (ha : (∃ b w, a = .send t b w) ∨ ∃ w, a = .wake t w) (hc₀ : Entering s.conn t c₀)
      (hawake : (∃ r, s.conn.threads t = .idle r) ∨ s.asleep t = false)
      (hawait : c₀.Awaited t c) (hent : s.entered fd me t c = some s') : WiredMove fd me s a s'
  | resleep {t : T} {w : Write} (ht : s.conn.threads t = .sending) (halive : s.conn.dead = false)
      (hnonneg : 0 ≤ s.conn.wpdu.solong) (hlt : s.conn.wpdu.solong < s.conn.wpdu.sz) :
      WiredMove fd me s (.wake t w) { s with asleep := Function.update s.asleep t true }
  | complete {t : T} {w : Write} (ht : s.conn.threads t = .sending) (hawake : s.asleep t = false) :
      WiredMove fd me s (.wake t w) { s with conn := s.conn.finish t }.broadcast
  | spurious {t : T} :
      WiredMove fd me s (.spurious t) { s with asleep := Function.update s.asleep t false }
  /-- `write_cb` with nothing to write. -/
  | unused {w : Write} {p : PollMgr C T} (hin : s.poll.loop.InCallback fd)
      (halive : s.conn.dead = false) (hsz : s.conn.wpdu.sz = 0)
      (hleft : Left fd s.poll (some .cbWronly) p) :
      WiredMove fd me s (.writeCb w) { s with poll := p }
  /-- A callback after which nobody has to be woken. -/
  | callback {a : WiredAct C T} {p : PollMgr C T} {c : Connection T}
      (ha : (∃ w, a = .writeCb w) ∨ ∃ inp size body accept, a = .readCb inp size body accept)
      (hin : s.poll.loop.InCallback fd) (hsame : s.conn.SameSenders c)
      (hdead : c.dead = s.conn.dead)
      (hmore : c.wpdu = s.conn.wpdu ∨ 0 ≤ c.wpdu.solong ∧ c.wpdu.solong < c.wpdu.sz)
      (hleft : Left fd s.poll none p) : WiredMove fd me s a { s with poll := p, conn := c }
  /-- The last byte of a PDU is written, or the connection dies. -/
  | signalled {a : WiredAct C T} {del : Option PollFlag} {p : PollMgr C T} {c : Connection T}
      (ha : (∃ w, a = .writeCb w) ∨ ∃ inp size body accept, a = .readCb inp size body accept)
      (hin : s.poll.loop.InCallback fd) (halive : s.conn.dead = false)
      (hsame : s.conn.SameSenders c)
      (hdel : del = none ∧ c.dead = false ∨ del = some .cbRdwr ∧ c.dead = true)
      (hleft : Left fd s.poll del p) :
      WiredMove fd me s a { s with poll := p, conn := c }.signal
  | closed {t : T} (hdead : s.conn.dead = true) : WiredMove fd me s (.closeconn t) s
  | closeconn {t : T} {r : Bool} (ht : s.conn.threads t = .idle r) (halive : s.conn.dead = false) :
      WiredMove fd me s (.closeconn t)
        { s with
          conn := s.conn.closeconn
          remover := Function.update s.remover t .begun }
  | blockRemove {t : T} {p : PollMgr C T} (ht : s.remover t = .begun)
      (hst : Poll.step s.poll (.blockRemoveFd t fd) = some p) :
      WiredMove fd me s (.blockRemove t)
        { s with
          poll := p
          remover := Function.update s.remover t .inside }
  | removed {t : T} {p : PollMgr C T} (ht : s.remover t = .inside)
      (hst : Poll.step s.poll (.removed t) = some p) :
      WiredMove fd me s (.removed t)
        { s with
          poll := p
          remover := Function.update s.remover t .back }
  | finish {t : T} {w : Write} (ht : s.remover t = .back) (hthread : s.conn.threads t = .removing) :
      WiredMove fd me s (.finish t w)
        { s with
          conn := s.conn.finish t
          remover := Function.update s.remover t .none }.broadcast
  | leave {t : T} {w : Write} (ht : s.remover t = .back) :
      WiredMove fd me s (.finish t w) { s with remover := Function.update s.remover t .none }

theorem left_of_leave {fd : ℕ} {s s' : Wired C T} {del : Option PollFlag} {c : Connection T}
    (h : s.leave fd del c = some s') :
    ∃ p, Left fd s.poll del p ∧ s' = { s with poll := p, conn := c } := by
  rcases Option.map_eq_some_iff.1 h with ⟨p, hp, rfl⟩
  rcases Option.bind_eq_some_iff.1 hp with ⟨q, hq, hret⟩
  refine ⟨p, ?_, rfl⟩
  cases del with
  | none =>
      cases hq
      exact .ret hret
  | some flag => exact .del hq hret

theorem wiredMove_of_writeCb {fd : ℕ} {me : C} {s s' : Wired C T} {w : Write}
    (h : s.writeCb fd w = some s') : WiredMove fd me s (.writeCb w) s' := by
  unfold Wired.writeCb at h
  split at h
  next hin =>
    have hin' := inCallback_of_calledBack hin
    rcases Option.bind_eq_some_iff.1 h with ⟨c, hc, hcase⟩
    rcases Connection.writeCb_cases hc with ⟨halive, hsame, hout⟩
    split at hcase
    next hsz =>
      rcases left_of_leave hcase with ⟨p, hleft, rfl⟩
      rcases hout with ⟨-, rfl⟩ | ⟨hne, -⟩
      · exact .unused hin' halive hsz hleft
      · exact absurd hsz hne
    next hsz =>
      have hnonneg := (hout.resolve_left fun hout => hsz hout.1).2
      split at hcase
      next hdead =>
        rcases Option.map_eq_some_iff.1 hcase with ⟨s₁, hs₁, rfl⟩
        rcases left_of_leave hs₁ with ⟨p, hleft, rfl⟩
        exact .signalled (Or.inl ⟨w, rfl⟩) hin' halive hsame (Or.inr ⟨rfl, hdead⟩) hleft
      next hdead =>
        have halive' : c.dead = false := Bool.of_not_eq_true hdead
        have hnonneg' := hnonneg.resolve_left hdead
        split at hcase
        next hlt =>
          rcases left_of_leave hcase with ⟨p, hleft, rfl⟩
          exact .callback (Or.inl ⟨w, rfl⟩) hin' hsame (halive'.trans halive.symm)
            (Or.inr ⟨hnonneg', hlt⟩) hleft
        next hlt =>
          rcases Option.map_eq_some_iff.1 hcase with ⟨s₁, hs₁, rfl⟩
          rcases left_of_leave hs₁ with ⟨p, hleft, rfl⟩
          exact .signalled (Or.inl ⟨w, rfl⟩) hin' halive hsame (Or.inl ⟨rfl, halive'⟩) hleft
  next => cases h

theorem wiredMove_of_readCb {fd : ℕ} {me : C} {s s' : Wired C T} {inp : Bytes} {size body : Read}
    {accept : Bool} (h : s.readCb fd inp size body accept = some s') :
    WiredMove fd me s (.readCb inp size body accept) s' := by
  unfold Wired.readCb at h
  split at h
  next hin =>
    have hin' := inCallback_of_calledBack hin
    rcases Option.bind_eq_some_iff.1 h with ⟨⟨c, inp'⟩, hc, hcase⟩
    rcases Connection.readCb_out hc with ⟨hout, hdead⟩
    split at hcase
    next hdies =>
      rcases Option.map_eq_some_iff.1 hcase with ⟨s₁, hs₁, rfl⟩
      rcases left_of_leave hs₁ with ⟨p, hleft, rfl⟩
      exact .signalled (Or.inr ⟨_, _, _, _, rfl⟩) hin' hdies.1 hout.senders (Or.inr ⟨rfl, hdies.2⟩)
        hleft
    next hlives =>
      rcases left_of_leave hcase with ⟨p, hleft, rfl⟩
      have hsame : c.dead = s.conn.dead := by
        cases hold : s.conn.dead with
        | true => exact hdead hold
        | false =>
            by_contra hnew
            exact hlives ⟨hold, Bool.of_not_eq_false hnew⟩
      exact .callback (Or.inr ⟨_, _, _, _, rfl⟩) hin' hout.senders hsame (Or.inl hout.wpdu) hleft
  next => cases h

theorem wiredMove_of_wake {fd : ℕ} {me : C} {s s' : Wired C T} {t : T} {w : Write}
    (h : s.wake fd me t w = some s') : WiredMove fd me s (.wake t w) s' := by
  unfold Wired.wake at h
  split at h
  next hawake =>
    split at h
    next b ht =>
      rcases Option.bind_eq_some_iff.1 h with ⟨c, hc, hent⟩
      rw [Connection.wake, ht] at hc
      exact .enter (Or.inr ⟨w, rfl⟩) (Or.inr ⟨⟨b, ht⟩, rfl⟩) (Or.inr hawake)
        (Connection.awaited hc) hent
    next ht =>
      rcases Option.map_eq_some_iff.1 h with ⟨c, hc, rfl⟩
      rw [Connection.wake, ht] at hc
      dsimp only at hc
      split at hc
      next hmore =>
        cases hc
        rw [if_pos ht]
        exact .resleep ht hmore.1 hmore.2.1 hmore.2.2
      next =>
        cases hc
        rw [if_neg (by simp [Connection.finish])]
        exact .complete ht hawake
    next => cases h
  next => cases h

theorem wiredMove_of_step {fd : ℕ} {me : C} {s s' : Wired C T} {a : WiredAct C T}
    (h : wiredStep fd me s a = some s') : WiredMove fd me s a s' := by
  cases a with
  | poll a =>
      simp only [wiredStep] at h
      split at h
      next hforeign =>
        rcases Option.map_eq_some_iff.1 h with ⟨p, hst, rfl⟩
        exact .poll hforeign hst
      next => cases h
  | send t b w =>
      simp only [wiredStep, Wired.send] at h
      split at h
      next =>
        rcases Option.bind_eq_some_iff.1 h with ⟨c, hc, hent⟩
        unfold Connection.send at hc
        split at hc
        next r ht =>
          exact .enter (Or.inl ⟨b, w, rfl⟩) (Or.inl ⟨⟨r, ht⟩, rfl⟩) (Or.inl ⟨r, ht⟩)
            (Connection.awaited hc) hent
        next => cases hc
      next => cases h
  | wake t w => exact wiredMove_of_wake h
  | spurious t =>
      simp only [wiredStep, Wired.spurious] at h
      split at h
      next =>
        cases h
        exact .spurious
      next => cases h
  | writeCb w => exact wiredMove_of_writeCb h
  | readCb inp size body accept => exact wiredMove_of_readCb h
  | closeconn t =>
      simp only [wiredStep, Wired.closeconn] at h
      split at h
      next r ht _ =>
        split at h
        next hdead =>
          cases h
          exact .closed hdead
        next hdead =>
          cases h
          exact .closeconn ht (Bool.of_not_eq_true hdead)
      next => cases h
  | blockRemove t =>
      simp only [wiredStep, Wired.blockRemove] at h
      split at h
      next ht =>
        rcases Option.map_eq_some_iff.1 h with ⟨p, hst, rfl⟩
        exact .blockRemove ht hst
      next => cases h
  | removed t =>
      simp only [wiredStep, Wired.removed] at h
      split at h
      next ht =>
        rcases Option.map_eq_some_iff.1 h with ⟨p, hst, rfl⟩
        exact .removed ht hst
      next => cases h
  | finish t w =>
      simp only [wiredStep, Wired.finish] at h
      split at h
      next ht =>
        split at h
        next hthread =>
          rcases Option.map_eq_some_iff.1 h with ⟨c, hc, rfl⟩
          rw [Connection.wake, hthread] at hc
          cases hc
          exact .finish ht hthread
        next =>
          cases h
          exact .leave ht
      next => cases h

end Rpc
end Yfs

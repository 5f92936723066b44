import Mathlib.Data.Fintype.Basic
import Yfs.Rpc.RefCount

/-!
# Calling — the threads in one `rpcc`

Any number of threads are in `rpcc::call1` at the same time, each with a `caller` on its stack that
`calls_` points to, and each with a reference `ch` to the connection it has used last.  They share
`chan_`, which `get_refconn` replaces when it is dead.  The poll thread comes in by `got_pdu`;
others call `rpcc::cancel`, and in the end there is the destructor.

`call1` is cut where it takes or releases a mutex: `call` is its first section, `connect` is
`get_refconn`, `sent` the sends on `ch`, `check` and `timeout` the two ways in which a wait on
`ca.c` goes on, `erase` the section after the loop, `leave` the last `decref`.  When a wait times
out is left open (`Retry` follows the clock), and what is sent as well (`Session`).

Who refers to which connection is in `Referred`, and who is woken by whom in `Cancelled`.

`none` is the use of a connection that has been freed, a failed `VERIFY`, or an event that does not
occur in that state.  A call that is refused because of `bind_done_` returns before it touches
anything and is left out.
-/

namespace Yfs
namespace Rpc
namespace Calling

open Lib

def timeoutFailure : Int := -1

/-- Where a thread is; `ch` is the connection it refers to, and `last` says that the final deadline
has passed. -/
inductive Pc
  /-- Not in the object; the result of the last call. -/
  | out (ret : Int)
  | transmit (xid : ℕ) (ch : Option ℕ) (last : Bool)
  | sending (xid : ℕ) (ch : Option ℕ) (last : Bool)
  | waiting (xid : ℕ) (ch : Option ℕ)
  | leaving (xid : ℕ) (ch : Option ℕ)
  | erased (ch : Option ℕ)
  /-- In the loop of `cancel`. -/
  | cancelling
  deriving DecidableEq, Repr

def Pc.isOut : Pc → Bool
  | .out _ => true
  | _ => false

/-- `done t` is `ca.intret` of the `caller` of `t` once `ca.done` is set; `asleep` is set in a wait
on `ca.c` or `destroy_wait_c_`. -/
structure Clt (T : Type) where
  heap : ConnHeap
  next : ℕ
  chan : Option ℕ
  xid : ℕ
  calls : OrderedMap ℕ T
  destroyWait : Bool
  pc : T → Pc
  done : T → Option Int
  asleep : T → Bool
  destroyed : Bool

variable {T : Type} [DecidableEq T]

/-- `if (ch) ch->decref()`. -/
def release (H : ConnHeap) : Option ℕ → Option ConnHeap
  | none => some H
  | some c => H.decref c

/-- The same after a `closeconn`. -/
def close (H : ConnHeap) : Option ℕ → Option ConnHeap
  | none => some H
  | some c => (H.die c).bind (ConnHeap.decref · c)

namespace Clt

def init : Clt T where
  heap _ := none
  next := 0
  chan := none
  xid := 1
  calls := .empty
  destroyWait := false
  pc _ := .out 0
  done _ := none
  asleep _ := false
  destroyed := false

def setPc (s : Clt T) (t : T) (p : Pc) : Clt T :=
  { s with pc := Function.update s.pc t p }

/-! ### `call1` -/

def call (s : Clt T) (t : T) : Option (Clt T) :=
  match s.pc t, s.destroyed with
  | .out _, false =>
      if s.destroyWait then
        some (s.setPc t (.out cancelFailure))
      else
        some
          { s.setPc t (.transmit s.xid none false) with
            xid := (s.xid + 1) % 2 ^ 32
            calls := s.calls.insert s.xid t
            done := Function.update s.done t none }
  | _, _ => none

/-- `chan_ = connect_to_dst(..)`, which may fail; the channel and the creation time of a new
connection are given. -/
def reconnect (s : Clt T) (H : ConnHeap) : Option (ℕ × ℕ × ℕ) → Clt T
  | none =>
      { s with
        heap := H
        chan := none }
  | some (fd, sec, usec) =>
      { s with
        heap := Function.update H s.next (some ⟨1, false, fd, sec, usec⟩)
        next := s.next + 1
        chan := some s.next }

/-- `get_refconn` up to the point where `chan_` is as good as it gets. -/
def freshChan (s : Clt T) (new : Option (ℕ × ℕ × ℕ)) : Option (Clt T) :=
  match s.chan with
  | none => some (s.reconnect s.heap new)
  | some c =>
      (s.heap c).bind fun k =>
        if k.dead then (s.heap.decref c).map fun H => s.reconnect H new else some s

/-- The rest of `get_refconn`: `*ch` is made to refer to `chan_`. -/
def takeChan (s : Clt T) (ch : Option ℕ) : Option (ConnHeap × Option ℕ) :=
  match s.chan with
  | none => some (s.heap, ch)
  | some c =>
      ((release s.heap ch).bind (ConnHeap.incref · c)).map fun H => (H, some c)

def connect (s : Clt T) (t : T) (new : Option (ℕ × ℕ × ℕ)) : Option (Clt T) :=
  match s.pc t with
  | .transmit xid ch last =>
      (s.freshChan new).bind fun s₁ =>
        (s₁.takeChan ch).map fun r =>
          { s₁.setPc t (.sending xid r.2 last) with heap := r.1 }
  | _ => none

/-- `ch->send`, on a connection that must be there. -/
def usable (s : Clt T) (ch : Option ℕ) : Bool :=
  ch.all fun c => (s.heap c).isSome

def sent (s : Clt T) (t : T) : Option (Clt T) :=
  match s.pc t with
  | .sending xid ch last =>
      if s.usable ch then
        some (s.setPc t (if last then .leaving xid ch else .waiting xid ch))
      else
        none
  | _ => none

/-- The test of `ca.done` by a thread that is awake. -/
def check (s : Clt T) (t : T) : Option (Clt T) :=
  match s.pc t, s.asleep t with
  | .waiting xid ch, false =>
      if (s.done t).isSome then
        some (s.setPc t (.leaving xid ch))
      else
        some { s with asleep := Function.update s.asleep t true }
  | _, _ => none

/-- `!ch || ch->isdead()`. -/
def lost (s : Clt T) : Option ℕ → Option Bool
  | none => some true
  | some c => (s.heap c).map Conn.dead

/-- The wait times out. -/
def timeout (retrans : Bool) (s : Clt T) (t : T) (last : Bool) : Option (Clt T) :=
  match s.pc t, s.asleep t with
  | .waiting xid ch, true =>
      (if (s.done t).isSome then
        some (Pc.leaving xid ch)
      else
        (if retrans then s.lost ch else some false).map fun again =>
          if again then .transmit xid ch last
          else if last then .leaving xid ch
          else .waiting xid ch).map fun p =>
        { s.setPc t p with asleep := Function.update s.asleep t false }
  | _, _ => none

/-- A thread that waits on `destroy_wait_c_`. -/
def Dozing (s : Clt T) (u : T) : Prop :=
  s.pc u = .cancelling ∧ s.asleep u = true

instance (s : Clt T) (u : T) : Decidable (s.Dozing u) :=
  inferInstanceAs (Decidable (s.pc u = .cancelling ∧ s.asleep u = true))

/-- `if (destroy_wait_) pthread_cond_signal(&destroy_wait_c_)`: one of those who wait is woken. -/
def signal [Fintype T] (s : Clt T) : Option T → Option (Clt T)
  | some u =>
      if s.destroyWait ∧ s.Dozing u then
        some { s with asleep := Function.update s.asleep u false }
      else
        none
  | none => if s.destroyWait = true ∧ ∃ u, s.Dozing u then none else some s

def erase [Fintype T] (s : Clt T) (t : T) (woken : Option T) : Option (Clt T) :=
  match s.pc t with
  | .leaving xid ch =>
      { s.setPc t (.erased ch) with calls := s.calls.erase xid }.signal woken
  | _ => none

def leave (s : Clt T) (t : T) : Option (Clt T) :=
  match s.pc t with
  | .erased ch =>
      (release s.heap ch).map fun H =>
        { s.setPc t (.out ((s.done t).getD timeoutFailure)) with heap := H }
  | _ => none

/-! ### The others -/

/-- A reply with this xid. -/
def gotPdu (s : Clt T) (xid : ℕ) (ret : Int) : Clt T :=
  match s.calls.lookup xid with
  | none => s
  | some u =>
      { s with
        done := if (s.done u).isSome then s.done else Function.update s.done u (some ret)
        asleep := Function.update s.asleep u false }

/-- `while (calls_.size() > 0)`. -/
def cancelLoop (s : Clt T) (t : T) : Clt T :=
  if 0 < s.calls.size then
    { s.setPc t .cancelling with
      destroyWait := true
      asleep := Function.update s.asleep t true }
  else
    s.setPc t (.out 0)

/-- All callers are made to fail, also those that have their reply. -/
def failAll (s : Clt T) : Clt T :=
  { s with
    done := fun u => if u ∈ s.calls.values then some cancelFailure else s.done u
    asleep := fun u => if u ∈ s.calls.values then false else s.asleep u }

def cancel (s : Clt T) (t : T) : Option (Clt T) :=
  match s.pc t, s.destroyed with
  | .out _, false => some (s.failAll.cancelLoop t)
  | _, _ => none

def cancelCheck (s : Clt T) (t : T) : Option (Clt T) :=
  match s.pc t, s.asleep t with
  | .cancelling, false => some (s.cancelLoop t)
  | _, _ => none

def spurious (s : Clt T) (t : T) : Option (Clt T) :=
  if s.asleep t then some { s with asleep := Function.update s.asleep t false } else none

/-- `~rpcc`, with no thread in the object as its comment demands. -/
def destroy [Fintype T] (s : Clt T) : Option (Clt T) :=
  if (∀ t, (s.pc t).isOut = true) ∧ s.destroyed = false then
    (close s.heap s.chan).bind fun H =>
      if s.calls.size = 0 then
        some
          { s with
            heap := H
            chan := none
            destroyed := true }
      else
        none
  else
    none

end Clt

inductive Act (T : Type)
  | call (t : T)
  | connect (t : T) (new : Option (ℕ × ℕ × ℕ))
  | sent (t : T)
  | check (t : T)
  | timeout (t : T) (last : Bool)
  | erase (t : T) (woken : Option T)
  | leave (t : T)
  | gotPdu (xid : ℕ) (ret : Int)
  | cancel (t : T)
  | cancelCheck (t : T)
  | spurious (t : T)
  /-- A connection dies, in a `send` or a callback. -/
  | die (c : ℕ)
  | destroy
  deriving DecidableEq, Repr

section

variable [Fintype T]

def step (retrans : Bool) (s : Clt T) : Act T → Option (Clt T)
  | .call t => s.call t
  | .connect t new => s.connect t new
  | .sent t => s.sent t
  | .check t => s.check t
  | .timeout t last => s.timeout retrans t last
  | .erase t woken => s.erase t woken
  | .leave t => s.leave t
  | .gotPdu xid ret => some (s.gotPdu xid ret)
  | .cancel t => s.cancel t
  | .cancelCheck t => s.cancelCheck t
  | .spurious t => s.spurious t
  | .die c => (s.heap.die c).map fun H => { s with heap := H }
  | .destroy => s.destroy

end

/-! ## What a step does -/

inductive Move (retrans : Bool) (s : Clt T) : Act T → Clt T → Prop
  | refused {t : T} {r : Int} (ht : s.pc t = .out r) (hwait : s.destroyWait = true) :
      Move retrans s (.call t) (s.setPc t (.out cancelFailure))
  | call {t : T} {r : Int} (ht : s.pc t = .out r) (hlive : s.destroyed = false)
      (hwait : s.destroyWait = false) :
      Move retrans s (.call t)
        { s.setPc t (.transmit s.xid none false) with
          xid := (s.xid + 1) % 2 ^ 32
          calls := s.calls.insert s.xid t
          done := Function.update s.done t none }
  | connect {t : T} {new : Option (ℕ × ℕ × ℕ)} {xid : ℕ} {ch : Option ℕ} {last : Bool}
      {s₁ : Clt T} {r : ConnHeap × Option ℕ} (ht : s.pc t = .transmit xid ch last)
      (hfresh : s.freshChan new = some s₁) (htake : s₁.takeChan ch = some r) :
      Move retrans s (.connect t new) { s₁.setPc t (.sending xid r.2 last) with heap := r.1 }
  | sent {t : T} {xid : ℕ} {ch : Option ℕ} {last : Bool} (ht : s.pc t = .sending xid ch last) :
      Move retrans s (.sent t) (s.setPc t (if last then .leaving xid ch else .waiting xid ch))
  | ready {t : T} {xid : ℕ} {ch : Option ℕ} (ht : s.pc t = .waiting xid ch)
      (hawake : s.asleep t = false) (hdone : (s.done t).isSome = true) :
      Move retrans s (.check t) (s.setPc t (.leaving xid ch))
  | sleep {t : T} {xid : ℕ} {ch : Option ℕ} (ht : s.pc t = .waiting xid ch)
      (hdone : s.done t = none) :
      Move retrans s (.check t) { s with asleep := Function.update s.asleep t true }
  | timeout {t : T} {last : Bool} {xid : ℕ} {ch : Option ℕ} {p : Pc}
      (ht : s.pc t = .waiting xid ch)
      (hp : p = .leaving xid ch ∨
        s.done t = none ∧ (p = .transmit xid ch last ∨ p = .waiting xid ch)) :
      Move retrans s (.timeout t last)
        { s.setPc t p with asleep := Function.update s.asleep t false }
  | erase {t : T} {xid : ℕ} {ch : Option ℕ} (ht : s.pc t = .leaving xid ch)
      (hquiet : s.destroyWait = true → ∀ u, u ≠ t → ¬ s.Dozing u) :
      Move retrans s (.erase t none)
        { s.setPc t (.erased ch) with calls := s.calls.erase xid }
  | signal {t u : T} {xid : ℕ} {ch : Option ℕ} (ht : s.pc t = .leaving xid ch) (hne : u ≠ t)
      (hu : s.Dozing u) :
      Move retrans s (.erase t (some u))
        { s.setPc t (.erased ch) with
          calls := s.calls.erase xid
          asleep := Function.update s.asleep u false }
  | leave {t : T} {ch : Option ℕ} {H : ConnHeap} (ht : s.pc t = .erased ch)
      (hH : release s.heap ch = some H) :
      Move retrans s (.leave t)
        { s.setPc t (.out ((s.done t).getD timeoutFailure)) with heap := H }
  | unknown {xid : ℕ} {ret : Int} (hx : s.calls.lookup xid = none) :
      Move retrans s (.gotPdu xid ret) s
  | gotPdu {xid : ℕ} {ret : Int} {u : T} (hu : s.calls.lookup xid = some u) :
      Move retrans s (.gotPdu xid ret)
        { s with
          done := if (s.done u).isSome then s.done else Function.update s.done u (some ret)
          asleep := Function.update s.asleep u false }
  | cancel {t : T} {r : Int} (ht : s.pc t = .out r) (hlive : s.destroyed = false)
      (hsize : 0 < s.calls.size) :
      Move retrans s (.cancel t)
        { s.failAll.setPc t .cancelling with
          destroyWait := true
          asleep := Function.update s.failAll.asleep t true }
  | cancelIdle {t : T} {r : Int} (ht : s.pc t = .out r) (hsize : s.calls.size = 0) :
      Move retrans s (.cancel t) (s.failAll.setPc t (.out 0))
  | recancel {t : T} (ht : s.pc t = .cancelling) (hsize : 0 < s.calls.size)
      (hawake : s.asleep t = false) :
      Move retrans s (.cancelCheck t)
        { s.setPc t .cancelling with
          destroyWait := true
          asleep := Function.update s.asleep t true }
  | cancelled {t : T} (ht : s.pc t = .cancelling) (hsize : s.calls.size = 0)
      (hawake : s.asleep t = false) : Move retrans s (.cancelCheck t) (s.setPc t (.out 0))
  | spurious {t : T} (ht : s.asleep t = true) :
      Move retrans s (.spurious t) { s with asleep := Function.update s.asleep t false }
  | die {c : ℕ} {H : ConnHeap} (hH : s.heap.die c = some H) :
      Move retrans s (.die c) { s with heap := H }
  | destroy {H : ConnHeap} (hout : ∀ t, (s.pc t).isOut = true)
      (hH : close s.heap s.chan = some H) :
      Move retrans s .destroy
        { s with
          heap := H
          chan := none
          destroyed := true }

variable {retrans : Bool} {s s' : Clt T}

theorem move_of_call {t : T} (h : s.call t = some s') : Move retrans s (.call t) s' := by
  unfold Clt.call at h
  split at h
  next r ht hlive =>
    split at h
    next hwait =>
      cases h
      exact .refused ht hwait
    next hwait =>
      cases h
      exact .call ht hlive (Bool.of_not_eq_true hwait)
  next => cases h

theorem move_of_timeout {t : T} {last : Bool} (h : s.timeout retrans t last = some s') :
    Move retrans s (.timeout t last) s' := by
  unfold Clt.timeout at h
  split at h
  next xid ch ht hasleep =>
    rcases Option.map_eq_some_iff.1 h with ⟨p, hp, rfl⟩
    refine .timeout ht ?_
    split at hp
    next =>
      cases hp
      exact Or.inl rfl
    next hdone =>
      rcases Option.map_eq_some_iff.1 hp with ⟨again, -, rfl⟩
      have hnone : s.done t = none := Option.not_isSome_iff_eq_none.1 hdone
      cases again
      · cases last
        · exact Or.inr ⟨hnone, Or.inr rfl⟩
        · exact Or.inl rfl
      · exact Or.inr ⟨hnone, Or.inl rfl⟩
  next => cases h

/-- The thread that ends its call is not one that waits in `cancel`. -/
theorem dozing_setPc {t u : T} {xid : ℕ} {ch : Option ℕ} (ht : s.pc t = .leaving xid ch)
    {calls : OrderedMap ℕ T} :
    ({ s.setPc t (.erased ch) with calls := calls } : Clt T).Dozing u ↔ u ≠ t ∧ s.Dozing u := by
  unfold Clt.Dozing Clt.setPc
  by_cases hut : u = t
  · subst hut
    simp [ht]
  · simp [hut]

theorem move_of_cancel {t : T} (h : s.cancel t = some s') : Move retrans s (.cancel t) s' := by
  unfold Clt.cancel at h
  split at h
  next r ht hlive =>
    cases h
    unfold Clt.cancelLoop
    split
    next hsize => exact .cancel ht hlive hsize
    next hsize => exact .cancelIdle ht (Nat.eq_zero_of_not_pos hsize)
  next => cases h

theorem move_of_cancelCheck {t : T} (h : s.cancelCheck t = some s') :
    Move retrans s (.cancelCheck t) s' := by
  unfold Clt.cancelCheck at h
  split at h
  next ht hawake =>
    cases h
    unfold Clt.cancelLoop
    split
    next hsize => exact .recancel ht hsize hawake
    next hsize => exact .cancelled ht (Nat.eq_zero_of_not_pos hsize) hawake
  next => cases h

theorem move_of_check {t : T} (h : s.check t = some s') : Move retrans s (.check t) s' := by
  unfold Clt.check at h
  split at h
  next xid ch ht hawake =>
    split at h
    next hdone =>
      cases h
      exact .ready ht hawake hdone
    next hdone =>
      cases h
      exact .sleep ht (Option.not_isSome_iff_eq_none.1 hdone)
  next => cases h

variable [Fintype T]

theorem move_of_erase {t : T} {woken : Option T} (h : s.erase t woken = some s') :
    Move retrans s (.erase t woken) s' := by
  unfold Clt.erase at h
  split at h
  next xid ch ht =>
    cases woken with
    | none =>
        simp only [Clt.signal] at h
        split at h
        next => cases h
        next hquiet =>
          cases h
          refine .erase ht fun hwait u hu hdoze => ?_
          exact hquiet ⟨hwait, u, (dozing_setPc ht).2 ⟨hu, hdoze⟩⟩
    | some u =>
        simp only [Clt.signal] at h
        split at h
        next hu =>
          cases h
          have hdoze := (dozing_setPc ht).1 hu.2
          exact .signal ht hdoze.1 hdoze.2
        next => cases h
  next => cases h

theorem move_of_destroy (h : s.destroy = some s') : Move retrans s .destroy s' := by
  unfold Clt.destroy at h
  split at h
  next hout =>
    rcases Option.bind_eq_some_iff.1 h with ⟨H, hH, hcase⟩
    split at hcase
    next =>
      cases hcase
      exact .destroy hout.1 hH
    next => cases hcase
  next => cases h

theorem move_of_step {a : Act T} (h : step retrans s a = some s') : Move retrans s a s' := by
  cases a with
  | call t => exact move_of_call h
  | connect t new =>
      simp only [step, Clt.connect] at h
      split at h
      next xid ch last ht =>
        rcases Option.bind_eq_some_iff.1 h with ⟨s₁, hfresh, hmap⟩
        rcases Option.map_eq_some_iff.1 hmap with ⟨r, htake, rfl⟩
        exact .connect ht hfresh htake
      next => cases h
  | sent t =>
      simp only [step, Clt.sent] at h
      split at h
      next xid ch last ht =>
        split at h
        next =>
          cases h
          exact .sent ht
        next => cases h
      next => cases h
  | check t => exact move_of_check h
  | timeout t last => exact move_of_timeout h
  | erase t woken => exact move_of_erase h
  | leave t =>
      simp only [step, Clt.leave] at h
      split at h
      next ch ht =>
        rcases Option.map_eq_some_iff.1 h with ⟨H, hH, rfl⟩
        exact .leave ht hH
      next => cases h
  | gotPdu xid ret =>
      cases h
      unfold Clt.gotPdu
      split
      next hx => exact .unknown hx
      next u hu => exact .gotPdu hu
  | cancel t => exact move_of_cancel h
  | cancelCheck t => exact move_of_cancelCheck h
  | spurious t =>
      simp only [step, Clt.spurious] at h
      split at h
      next ht =>
        cases h
        exact .spurious ht
      next => cases h
  | die c =>
      rcases Option.map_eq_some_iff.1 h with ⟨H, hH, rfl⟩
      exact .die hH
  | destroy => exact move_of_destroy h

end Calling
end Rpc
end Yfs

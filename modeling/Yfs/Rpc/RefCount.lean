import Yfs.Lib.OrderedMap
import Yfs.Lib.Run
import Yfs.Lib.Weight
import Yfs.Rpc.Session

/-!
# RefCount — who keeps a connection of the server alive

A `connection` counts in `refno_` those who use it and is freed when it is dead and the last of
them gives it back.  On a server these are the listener, which keeps every connection in
`tcpsconn::conns_`, the jobs that `rpcs::got_pdu` queues for `rpcs::dispatch`, and
`rpcs::conns_`, the latest connection of each client.

`dispatch` is cut where it takes or releases a mutex that matters for a count: `start` up to the
test of `clt_nonce`, `save` for the section that keeps the latest connection, `check` for
`checkduplicate_and_update`, `reply` for the section after the handler that looks for a better
connection, and `leave` for the last `send` and `decref`.  Any number of jobs may be anywhere in
between.  `got_pdu` is cut between its two tests of `reachable_`; `process_accept` between its
tests of a connection and the `decref`.  What `checkduplicate_and_update` answers is left open
here; `Session` follows it.

`none` is the use of a connection that has been freed, a failed `VERIFY`, or an event that does
not occur in that state.
-/

namespace Yfs
namespace Rpc

open Lib

/-! ## Connections -/

structure Conn where
  refno : ℤ
  dead : Bool
  fd : ℕ
  sec : ℕ
  usec : ℕ
  deriving DecidableEq, Repr

/-- `connection::compare`: the creation times. -/
def Conn.compare (k another : Conn) : ℤ :=
  if k.sec > another.sec then 1
  else if k.sec < another.sec then -1
  else if k.usec > another.usec then 1
  else if k.usec < another.usec then -1
  else 0

/-- Connections are numbered in the order in which they are created; one that has been freed is
gone. -/
abbrev ConnHeap : Type := ℕ → Option Conn

namespace ConnHeap

def incref (H : ConnHeap) (c : ℕ) : Option ConnHeap :=
  (H c).map fun k => Function.update H c (some { k with refno := k.refno + 1 })

def decref (H : ConnHeap) (c : ℕ) : Option ConnHeap :=
  match H c with
  | none => none
  | some k =>
      if k.refno - 1 < 0 then
        -- `VERIFY(refno_ >= 0)`
        none
      else if k.refno - 1 = 0 ∧ k.dead = true then
        -- `delete this`; a connection that is not dead stays, with a count of 0
        some (Function.update H c none)
      else
        some (Function.update H c (some { k with refno := k.refno - 1 }))

/-- `dead_` is set, by `closeconn` or after a failed read or write. -/
def die (H : ConnHeap) (c : ℕ) : Option ConnHeap :=
  (H c).map fun k => Function.update H c (some { k with dead := true })

def refno (H : ConnHeap) (c : ℕ) : ℤ :=
  (H c).elim 0 Conn.refno

end ConnHeap

/-! ## The server -/

/-- A place for a `djob_t` and the `dispatch` that works on it. -/
inductive Djob
  | free
  /-- `none`: no header can be unmarshalled from the PDU. -/
  | queued (c : ℕ) (pdu : Option ReqHeader)
  | saving (c : ℕ) (h : ReqHeader)
  | checking (c : ℕ) (h : ReqHeader)
  | serving (c : ℕ) (h : ReqHeader)
  | leaving (c : ℕ)
  /-- `c` is `NULL`. -/
  | null
  deriving DecidableEq, Repr

def Djob.holds (x : ℕ) : Djob → ℕ
  | .queued c _ => if c = x then 1 else 0
  | .saving c _ => if c = x then 1 else 0
  | .checking c _ => if c = x then 1 else 0
  | .serving c _ => if c = x then 1 else 0
  | .leaving c => if c = x then 1 else 0
  | .free => 0
  | .null => 0

/-- Where `process_accept` is, with the new connection `ch` and the channels it has not looked
at yet. -/
inductive Accepting
  | idle
  | sweeping (ch : ℕ) (todo : List ℕ)
  /-- The connection `c` on channel `fd` was found dead, with a count of one. -/
  | collecting (ch fd c : ℕ) (todo : List ℕ)
  deriving DecidableEq, Repr

def Accepting.ch : Accepting → Option ℕ
  | .idle => none
  | .sweeping ch _ => some ch
  | .collecting ch _ _ _ => some ch

structure Server (T : Type) where
  heap : ConnHeap
  next : ℕ
  /-- `tcpsconn::conns_`, by channel. -/
  tcpsConns : OrderedMap ℕ ℕ
  accepting : Accepting
  /-- `rpcs::conns_`, by client nonce. -/
  conns : OrderedMap ℕ ℕ
  job : T → Djob
  reachable : Bool
  /-- The connection of a `got_pdu` that has queued its job and not looked at `reachable_`
  again. -/
  rechecking : Option ℕ

variable {T : Type} [DecidableEq T]

namespace Server

def init : Server T where
  heap _ := none
  next := 0
  tcpsConns := .empty
  accepting := .idle
  conns := .empty
  job _ := .free
  reachable := true
  rechecking := none

def setJob (s : Server T) (t : T) (j : Djob) : Server T :=
  { s with job := Function.update s.job t j }

/-- `process_accept` up to its loop.  A channel is closed when its connection is freed, so
`accept` answers one that no other connection has. -/
def accept (s : Server T) (fd sec usec : ℕ) : Option (Server T) :=
  match s.accepting with
  | .idle =>
      if ∀ c < s.next, (s.heap c).map Conn.fd ≠ some fd then
        some
          { s with
            heap := Function.update s.heap s.next (some
              { refno := 1
                dead := false
                fd := fd
                sec := sec
                usec := usec })
            next := s.next + 1
            accepting := .sweeping s.next s.tcpsConns.keys }
      else
        none
  | _ => none

/-- The next step of `process_accept`: a round of its loop, or the end. -/
def processAccept (s : Server T) : Option (Server T) :=
  match s.accepting with
  | .idle => none
  | .sweeping ch (fd :: todo) =>
      match s.tcpsConns.lookup fd with
      | none => none
      | some c =>
          match s.heap c with
          | none => none
          | some k =>
              if k.dead = true ∧ k.refno = 1 then
                some { s with accepting := .collecting ch fd c todo }
              else
                some { s with accepting := .sweeping ch todo }
  | .collecting ch fd c todo =>
      (s.heap.decref c).map fun H =>
        { s with
          heap := H
          tcpsConns := s.tcpsConns.erase fd
          accepting := .sweeping ch todo }
  | .sweeping ch [] =>
      (s.heap ch).map fun k =>
        { s with
          tcpsConns := s.tcpsConns.insert k.fd ch
          accepting := .idle }

/-- `got_pdu` up to its second test of `reachable_`; `succ` is the answer of `addObjJob`.  The
poll thread calls it for one PDU at a time, on a connection that is not dead. -/
def gotPdu (s : Server T) (c : ℕ) (pdu : Option ReqHeader) (t : T) (succ : Bool) :
    Option (Server T) :=
  match s.heap c, s.rechecking with
  | some k, none =>
      if k.dead = true then
        none
      else if s.reachable = false then
        -- the PDU is dropped
        some s
      else if succ = true then
        if s.job t = .free then
          (s.heap.incref c).map fun H =>
            { s with
              heap := H
              job := Function.update s.job t (.queued c pdu)
              rechecking := some c }
        else
          none
      else
        -- no room in the queue of the pool
        (s.heap.incref c).bind fun H => (H.decref c).map fun H' => { s with heap := H' }
  | _, _ => none

/-- The rest of `got_pdu` for a PDU whose job was queued. -/
def recheck (s : Server T) : Option (Server T) :=
  match s.rechecking with
  | none => none
  | some c =>
      if s.reachable = true then
        some { s with rechecking := none }
      else
        -- but the job is in the queue, and will be dispatched
        (s.heap.decref c).map fun H =>
          { s with
            heap := H
            rechecking := none }

/-! ### `dispatch` -/

def start (nonce : UInt32) (procs : List UInt32) (s : Server T) (t : T) : Option (Server T) :=
  match s.job t with
  | .queued c none => (s.heap.decref c).map fun H => { s.setJob t .free with heap := H }
  | .queued c (some h) =>
      if h.srvNonce ≠ 0 ∧ h.srvNonce ≠ nonce then
        -- `oldsrv_failure` is sent, and `dispatch` returns
        some (s.setJob t .free)
      else if h.proc ∉ procs then
        -- `VERIFY(0)`
        none
      else if h.cltNonce ≠ 0 then
        some (s.setJob t (.saving c h))
      else
        -- no at-most-once for a client without a nonce, and no entry in `conns_`
        some (s.setJob t (.serving c h))
  | _ => none

def save (s : Server T) (t : T) : Option (Server T) :=
  match s.job t with
  | .saving c h =>
      match s.conns.lookup h.cltNonce.toNat with
      | none =>
          (s.heap.incref c).map fun H =>
            { s.setJob t (.checking c h) with
              heap := H
              conns := s.conns.insert h.cltNonce.toNat c }
      | some old =>
          match s.heap old, s.heap c with
          | some k, some k' =>
              if k.compare k' < 0 then
                -- `c` was created after the connection in the entry
                (s.heap.decref old).bind fun H => (H.incref c).map fun H' =>
                  { s.setJob t (.checking c h) with
                    heap := H'
                    conns := s.conns.insert h.cltNonce.toNat c }
              else
                some (s.setJob t (.checking c h))
          | _, _ => none
  | _ => none

def check (s : Server T) (t : T) (stat : RpcState) : Option (Server T) :=
  match s.job t with
  | .checking c h =>
      match stat with
      | .new => some (s.setJob t (.serving c h))
      | .inprogress => some (s.setJob t (.leaving c))
      | .done => some (s.setJob t (.leaving c))
      | .forgotten => some (s.setJob t (.leaving c))
  | _ => none

/-- The handler has returned; `conns_[h.clt_nonce]` is `NULL` when there is no entry. -/
def reply (s : Server T) (t : T) : Option (Server T) :=
  match s.job t with
  | .serving c h =>
      match s.heap c with
      | none => none
      | some k =>
          if k.dead = true ∧ s.conns.lookup h.cltNonce.toNat ≠ some c then
            (s.heap.decref c).bind fun H =>
              match s.conns.lookup h.cltNonce.toNat with
              -- the next thing is `c->incref()`
              | none => some { s.setJob t .null with heap := H }
              | some c' => (H.incref c').map fun H' => { s.setJob t (.leaving c') with heap := H' }
          else
            some (s.setJob t (.leaving c))
  | _ => none

def leave (s : Server T) (t : T) : Option (Server T) :=
  match s.job t with
  | .leaving c => (s.heap.decref c).map fun H => { s.setJob t .free with heap := H }
  | _ => none

end Server

inductive ServerAction (T : Type)
  | accept (fd sec usec : ℕ)
  | processAccept
  | die (c : ℕ)
  | setReachable (r : Bool)
  | gotPdu (c : ℕ) (pdu : Option ReqHeader) (t : T) (succ : Bool)
  | recheck
  | start (t : T)
  | save (t : T)
  | check (t : T) (stat : RpcState)
  | reply (t : T)
  | leave (t : T)

def serverStep (nonce : UInt32) (procs : List UInt32) (s : Server T) :
    ServerAction T → Option (Server T)
  | .accept fd sec usec => s.accept fd sec usec
  | .processAccept => s.processAccept
  | .die c => (s.heap.die c).map fun H => { s with heap := H }
  | .setReachable r => some { s with reachable := r }
  | .gotPdu c pdu t succ => s.gotPdu c pdu t succ
  | .recheck => s.recheck
  | .start t => s.start nonce procs t
  | .save t => s.save t
  | .check t stat => s.check t stat
  | .reply t => s.reply t
  | .leave t => s.leave t

def ServerInit (s : Server T) : Prop :=
  s = .init

/-! ## What happens to the counts -/

namespace ConnHeap

/-- From `H` to `H'` every count changes by `d`, no connection is created, and none comes back to
life. -/
structure Shift (H H' : ConnHeap) (d : ℕ → ℤ) : Prop where
  refno : ∀ x, H'.refno x = H.refno x + d x
  old : ∀ x k', H' x = some k' →
    ∃ k, H x = some k ∧ k'.fd = k.fd ∧ (k.dead = true → k'.dead = true)

theorem refno_of_some {H : ConnHeap} {c : ℕ} {k : Conn} (h : H c = some k) :
    H.refno c = k.refno := by
  rw [refno, h, Option.elim_some]

theorem refno_of_none {H : ConnHeap} {c : ℕ} (h : H c = none) : H.refno c = 0 := by
  rw [refno, h, Option.elim_none]

theorem refno_update (H : ConnHeap) (c : ℕ) (o : Option Conn) (x : ℕ) :
    refno (Function.update H c o) x = if c = x then o.elim 0 Conn.refno else H.refno x := by
  by_cases hx : c = x
  · subst hx
    rw [if_pos rfl, refno, Function.update_self]
  · rw [if_neg hx, refno, Function.update_of_ne (Ne.symm hx), refno]

/-- No two connections have the same channel. -/
def Distinct (H : ConnHeap) : Prop :=
  ∀ x y k k', H x = some k → H y = some k' → k.fd = k'.fd → x = y

theorem Shift.none {H H' : ConnHeap} {d : ℕ → ℤ} (h : Shift H H' d) {x : ℕ} (hx : H x = none) :
    H' x = none := by
  cases hk : H' x with
  | none => rfl
  | some k' =>
      obtain ⟨k, hk, -⟩ := h.old x k' hk
      rw [hx] at hk
      cases hk

theorem Shift.distinct {H H' : ConnHeap} {d : ℕ → ℤ} (h : Shift H H' d) (hH : H.Distinct) :
    H'.Distinct := by
  intro x y k k' hx hy hfd
  obtain ⟨k₀, hk₀, hfd₀, -⟩ := h.old x k hx
  obtain ⟨k₁, hk₁, hfd₁, -⟩ := h.old y k' hy
  exact hH x y k₀ k₁ hk₀ hk₁ (by rw [← hfd₀, ← hfd₁, hfd])

theorem Shift.refl (H : ConnHeap) : Shift H H fun _ => 0 where
  refno _ := (add_zero _).symm
  old _ k' h := ⟨k', h, rfl, id⟩

theorem Shift.trans {H H' H'' : ConnHeap} {d d' : ℕ → ℤ} (h : Shift H H' d)
    (h' : Shift H' H'' d') : Shift H H'' fun x => d x + d' x where
  refno x := by rw [h'.refno, h.refno, add_assoc]
  old x k'' hk'' := by
    obtain ⟨k', hk', hfd', hdead'⟩ := h'.old x k'' hk''
    obtain ⟨k, hk, hfd, hdead⟩ := h.old x k' hk'
    exact ⟨k, hk, hfd'.trans hfd, fun hd => hdead' (hdead hd)⟩

/-- A connection is put in the place of `k`; its count may differ. -/
theorem shift_update {H : ConnHeap} {c : ℕ} {k : Conn} (k' : Conn) (h : H c = some k)
    (hfd : k'.fd = k.fd) (hdead : k.dead = true → k'.dead = true) :
    Shift H (Function.update H c (some k')) fun x =>
      if c = x then k'.refno - k.refno else 0 where
  refno x := by
    rw [refno_update]
    by_cases hx : c = x
    · rw [if_pos hx, if_pos hx, ← hx, refno_of_some h, Option.elim_some]
      omega
    · rw [if_neg hx, if_neg hx, add_zero]
  old x k'' hk'' := by
    by_cases hx : x = c
    · subst hx
      rw [Function.update_self] at hk''
      cases hk''
      exact ⟨k, h, hfd, hdead⟩
    · rw [Function.update_of_ne hx] at hk''
      exact ⟨k'', hk'', rfl, id⟩

theorem shift_incref {H H' : ConnHeap} {c : ℕ} (h : H.incref c = some H') :
    Shift H H' fun x => if c = x then 1 else 0 := by
  obtain ⟨k, hk, rfl⟩ := Option.map_eq_some_iff.1 h
  have hshift := shift_update { k with refno := k.refno + 1 } hk rfl id
  simpa only [add_sub_cancel_left] using hshift

theorem shift_decref {H H' : ConnHeap} {c : ℕ} (h : H.decref c = some H') :
    Shift H H' fun x => if c = x then -1 else 0 := by
  unfold decref at h
  split at h
  · cases h
  next k hk =>
    split at h
    · cases h
    · split at h
      next hlast =>
        -- the connection is freed, and its count was one
        cases h
        refine ⟨fun x => ?_, fun x k' hk' => ?_⟩
        · rw [refno_update]
          by_cases hx : c = x
          · rw [if_pos hx, if_pos hx, ← hx, refno_of_some hk, Option.elim_none]
            omega
          · rw [if_neg hx, if_neg hx, add_zero]
        · by_cases hx : x = c
          · subst hx
            rw [Function.update_self] at hk'
            cases hk'
          · rw [Function.update_of_ne hx] at hk'
            exact ⟨k', hk', rfl, id⟩
      · cases h
        have hshift := shift_update { k with refno := k.refno - 1 } hk rfl id
        simpa only [sub_sub_cancel_left] using hshift

theorem shift_die {H H' : ConnHeap} {c : ℕ} (h : H.die c = some H') :
    Shift H H' fun _ => 0 := by
  obtain ⟨k, hk, rfl⟩ := Option.map_eq_some_iff.1 h
  have hshift := shift_update { k with dead := true } hk rfl fun _ => rfl
  simpa only [sub_self, ite_self] using hshift

end ConnHeap

end Rpc
end Yfs

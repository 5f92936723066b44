import Mathlib.Logic.Function.Basic
import Yfs.Lib.Framing
import Yfs.Lib.Run
import Yfs.Rpc.Format

/-!
# Connection — `connection.cc`, PDUs over a byte stream

A `connection` is one end of a TCP connection.  `send` puts a PDU in `wpdu_` and writes as much of
it as the socket takes; the rest is written by `write_cb`.  `read_cb` collects the next PDU in
`rpdu_` and offers it to the channel manager until `got_pdu` takes it.

A step is what happens between two points where a thread may lose the mutex `m_`.  Actions carry
what is not up to the program: how many bytes a `write` or `read` moves or how it fails, and
whether `got_pdu` takes the PDU.  Any thread that waits for a condition variable may wake up at any
time.  `none` is a `VERIFY` that fails, or something the operating system does not do.
-/

namespace Yfs
namespace Rpc

open Lib
open Wire

/-- `connection::charbuf`; of a `buf` that is read only the bytes so far. -/
structure Charbuf where
  buf : Option Bytes
  sz : ℤ
  solong : ℤ
  deriving DecidableEq, Repr

def Charbuf.null : Charbuf where
  buf := none
  sz := 0
  solong := 0

/-- Where a thread is in `send`. -/
inductive Sender
  /-- Not in `send`, or it has returned. -/
  | idle (ret : Bool)
  /-- In the loop on `send_wait_`. -/
  | waiting (b : Bytes)
  /-- In the loop on `send_complete_`. -/
  | sending
  /-- In `block_remove_fd`, without the mutex. -/
  | removing
  deriving DecidableEq, Repr

/-- One end.  `out` is what it has written and the other end has not read; `handed` are the PDUs
that have been in `wpdu_` and `accepted` those that `got_pdu` has taken. -/
structure Connection (T : Type) where
  dead : Bool
  waiters : ℕ
  wpdu : Charbuf
  rpdu : Charbuf
  threads : T → Sender
  out : Bytes
  handed : List Bytes
  accepted : List Bytes

/-- What a `write` does. -/
inductive Write
  | wrote (n : ℕ)
  | again
  | error
  deriving DecidableEq, Repr

/-- What a `read` does.  `again` is a result of 0 or less with `EAGAIN` in `errno`, which the end of
the stream may find there from before; every other such result is an `error`. -/
inductive Read
  | got (n : ℕ)
  | again
  | error
  deriving DecidableEq, Repr

/-- The buffer with its first four bytes overwritten by `htonl(sz)`. -/
def setSize (sz : ℤ) (b : Bytes) : Bytes :=
  wordBytes (UInt32.ofNat sz.toNat) ++ b.drop rpcSzSize

/-- A PDU as it is written. -/
def frame (b : Bytes) : Bytes :=
  setSize b.length b

/-- `ntohl` into an `int`. -/
def ntohl : Bytes → ℤ
  | [a, b, c, d] => (word a b c d).toInt32.toInt
  | _ => 0

namespace Connection

variable {T : Type} [DecidableEq T]

def new : Connection T where
  dead := false
  waiters := 0
  wpdu := .null
  rpdu := .null
  threads _ := .idle false
  out := []
  handed := []
  accepted := []

/-! ## Writing -/

def writepdu (c : Connection T) (w : Write) : Option (Connection T × Bool) := do
  if c.wpdu.solong < 0 then none
  else if c.wpdu.solong = c.wpdu.sz then some (c, true)
  else
    let b ← c.wpdu.buf
    -- the size goes into the buffer before the first byte is written
    let b := if c.wpdu.solong = 0 then setSize c.wpdu.sz b else b
    match w with
    | .wrote n =>
        if (n : ℤ) ≤ c.wpdu.sz - c.wpdu.solong then
          some
            ({ c with
                wpdu := ⟨some b, c.wpdu.sz, c.wpdu.solong + n⟩
                out := c.out ++ (b.drop c.wpdu.solong.toNat).take n }, true)
        else
          none
    | .again => some ({ c with wpdu := { c.wpdu with buf := some b } }, true)
    -- the source marks the error with `solong = -1` and the size 0
    | .error => some ({ c with wpdu := ⟨some b, 0, -1⟩ }, false)

/-- The end of `send`. -/
def finish (c : Connection T) (t : T) : Connection T :=
  { c with
    wpdu := .null
    threads := Function.update c.threads t
      (.idle (!c.dead && decide (c.wpdu.solong = c.wpdu.sz))) }

/-- `send` from where `wpdu_` is free.  `lossy_` shuts the socket down, so that `write` fails. -/
def start (c : Connection T) (t : T) (b : Bytes) (w : Write) : Option (Connection T) := do
  let r ← writepdu
    { c with
      wpdu := ⟨some b, b.length, 0⟩
      handed := c.handed ++ [b] } w
  if r.2 then
    if r.1.wpdu.solong = r.1.wpdu.sz then
      -- all of it went out at once
      pure (r.1.finish t)
    else
      pure { r.1 with threads := Function.update r.1.threads t .sending }
  else
    pure { r.1 with dead := true, threads := Function.update r.1.threads t .removing }

/-- `send` from the test of its first loop on. -/
def await (c : Connection T) (t : T) (b : Bytes) (w : Write) : Option (Connection T) :=
  if c.dead = false ∧ c.wpdu.buf ≠ none then
    some { c with threads := Function.update c.threads t (.waiting b) }
  else if c.dead then
    some
      { c with
        waiters := c.waiters - 1
        threads := Function.update c.threads t (.idle false) }
  else
    start { c with waiters := c.waiters - 1 } t b w

def send (c : Connection T) (t : T) (b : Bytes) (w : Write) : Option (Connection T) :=
  match c.threads t with
  | .idle _ => await { c with waiters := c.waiters + 1 } t b w
  | _ => none

/-- A thread comes back from `pthread_cond_wait` or from `block_remove_fd`. -/
def wake (c : Connection T) (t : T) (w : Write) : Option (Connection T) :=
  match c.threads t with
  | .idle _ => none
  | .waiting b => await c t b w
  | .sending =>
      if c.dead = false ∧ 0 ≤ c.wpdu.solong ∧ c.wpdu.solong < c.wpdu.sz then
        some c
      else
        some (c.finish t)
  | .removing => some (c.finish t)

def writeCb (c : Connection T) (w : Write) : Option (Connection T) := do
  if c.dead then none
  else if c.wpdu.sz = 0 then some c
  else
    let r ← c.writepdu w
    if r.2 then
      if r.1.wpdu.solong < 0 then none else some r.1
    else
      some { r.1 with dead := true }

def closeconn (c : Connection T) : Connection T :=
  { c with dead := true }

/-! ## Reading

`inp` is what the other end has written and this one has not read. -/

/-- `readpdu` from where the size of the PDU is known. -/
def readBody (c : Connection T) (inp : Bytes) (body : Read) :
    Option (Connection T × Bytes × Bool) :=
  match body with
  | .got n =>
      -- for a negative size `read` is asked for almost everything
      if 0 < n ∧ n ≤ inp.length ∧
          ((n : ℤ) ≤ c.rpdu.sz - c.rpdu.solong ∨ c.rpdu.sz < c.rpdu.solong) then
        some
          ({ c with
              rpdu := ⟨c.rpdu.buf.map (· ++ inp.take n), c.rpdu.sz, c.rpdu.solong + n⟩ },
            inp.drop n, true)
      else
        none
  | .again => some (c, inp, true)
  | .error => some ({ c with rpdu := .null }, inp, false)

def readpdu (c : Connection T) (inp : Bytes) (size body : Read) :
    Option (Connection T × Bytes × Bool) :=
  if c.rpdu.sz = 0 then
    match size with
    | .got n =>
        if 0 < n ∧ n ≤ rpcSzSize ∧ n ≤ inp.length then
          -- part of a size is thrown away, and the connection with it
          if n ≠ rpcSzSize then
            some (c, inp.drop n, false)
          else if (maxPdu : ℤ) < ntohl (inp.take n) then
            some (c, inp.drop n, false)
          else if c.rpdu.buf ≠ none then
            -- `VERIFY(rpdu_.buf == NULL)`
            none
          else
            readBody { c with rpdu := ⟨some (inp.take n), ntohl (inp.take n), n⟩ } (inp.drop n) body
        else
          none
    -- `VERIFY(errno != EAGAIN)`; the end of the stream is an `error` here, whatever `errno` is
    | .again => none
    | .error => some (c, inp, false)
  else
    readBody c inp body

/-- The end of `read_cb`: a PDU that is complete is offered. -/
def offer (c : Connection T) (accept : Bool) : Connection T :=
  match c.rpdu.buf with
  | some p =>
      if c.rpdu.sz = c.rpdu.solong ∧ accept = true then
        { c with
          rpdu := .null
          accepted := c.accepted ++ [p] }
      else
        c
  | none => c

/-- The beginning of `read_cb`: nothing is read while a PDU waits to be taken. -/
def collect (c : Connection T) (inp : Bytes) (size body : Read) :
    Option (Connection T × Bytes × Bool) :=
  if c.rpdu.buf = none ∨ c.rpdu.solong < c.rpdu.sz then
    c.readpdu inp size body
  else
    some (c, inp, true)

def readCb (c : Connection T) (inp : Bytes) (size body : Read) (accept : Bool) :
    Option (Connection T × Bytes) :=
  if c.dead then
    some (c, inp)
  else
    (c.collect inp size body).map fun r =>
      ((if r.2.2 then r.1 else { r.1 with dead := true }).offer accept, r.2.1)

end Connection

/-! ## Two ends -/

variable {T : Type} [DecidableEq T]

/-- What happens at one end. -/
inductive ConnectionAction (T : Type)
  | send (t : T) (b : Bytes) (w : Write)
  | wake (t : T) (w : Write)
  | writeCb (w : Write)
  | readCb (size body : Read) (accept : Bool)
  | closeconn

/-- The ends are `false` and `true`; each reads what the other has written. -/
def connectionStep (s : Bool → Connection T) (a : Bool × ConnectionAction T) :
    Option (Bool → Connection T) :=
  match a.2 with
  | .send t b w => ((s a.1).send t b w).map (Function.update s a.1)
  | .wake t w => ((s a.1).wake t w).map (Function.update s a.1)
  | .writeCb w => ((s a.1).writeCb w).map (Function.update s a.1)
  | .readCb size body accept =>
      ((s a.1).readCb (s !a.1).out size body accept).map fun r =>
        Function.update (Function.update s a.1 r.1) (!a.1) { s !a.1 with out := r.2 }
  | .closeconn => some (Function.update s a.1 (s a.1).closeconn)

def ConnectionInit (s : Bool → Connection T) : Prop :=
  s = fun _ => .new

/-- The PDUs that are sent have room for the header and are not too large. -/
def SizedPdu (_ : Bool → Connection T) (a : Bool × ConnectionAction T) : Prop :=
  match a.2 with
  | .send _ b _ => headerSz ≤ b.length ∧ b.length ≤ maxPdu
  | _ => True

instance (s : Bool → Connection T) (a : Bool × ConnectionAction T) : Decidable (SizedPdu s a) :=
  match a with
  | (_, .send _ b _) => inferInstanceAs (Decidable (headerSz ≤ b.length ∧ b.length ≤ maxPdu))
  | (_, .wake _ _) => isTrue trivial
  | (_, .writeCb _) => isTrue trivial
  | (_, .readCb _ _ _) => isTrue trivial
  | (_, .closeconn) => isTrue trivial

end Rpc
end Yfs

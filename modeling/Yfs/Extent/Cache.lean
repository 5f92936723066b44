import Mathlib.Data.UInt
import Mathlib.Logic.Function.Basic

/-!
# Cache — `extent_client_cache`

A write-back cache of extents.  An entry is `DIRTY` after a `put`, `REMOVE` after a `remove`,
`CONSISTENT` when its bytes came from the server, and `NONE` when only the attributes did.

The calls that need the server give up `mutex_` for the time of the RPC and are split there:
`getStart` and `getFill`, `getattrStart` and `getattrFill`.  `flushStart` says which RPC a `flush`
makes before it drops the entry.
`operator[]` on an absent id creates a zeroed entry, whose state is `DIRTY`.
-/

namespace Yfs
namespace Extent

abbrev ExtentId := UInt64

abbrev Bytes := List UInt8

/-- The codes of `extent_protocol::xxstatus`. -/
inductive Status
  | ok
  | rpcerr
  | noent
  | ioerr
  deriving DecidableEq, Repr

structure Attr where
  atime : UInt32
  mtime : UInt32
  ctime : UInt32
  size : UInt32
  deriving DecidableEq, Repr

inductive ExtentState
  | dirty
  | remove
  | none
  | consistent
  deriving DecidableEq, Repr

structure EidContent where
  buf : Bytes
  attr : Attr
  state : ExtentState
  deriving DecidableEq, Repr

def EidContent.zero : EidContent where
  buf := []
  attr :=
    { atime := 0
      mtime := 0
      ctime := 0
      size := 0 }
  state := .dirty

/-- `attr_.atime = time(nullptr)`. -/
def EidContent.touch (e : EidContent) (now : UInt32) : EidContent :=
  { e with attr := { e.attr with atime := now } }

abbrev Cache := ExtentId → Option EidContent

namespace Cache

/-- `extent_cache_[eid]`. -/
def entry (c : Cache) (eid : ExtentId) : EidContent :=
  (c eid).getD EidContent.zero

def set (c : Cache) (eid : ExtentId) (e : EidContent) : Cache :=
  Function.update c eid (some e)

def erase (c : Cache) (eid : ExtentId) : Cache :=
  Function.update c eid none

/-- The attributes that `put` and `get` make up for a buffer. -/
def attrAt (now : UInt32) (buf : Bytes) : Attr where
  atime := now
  mtime := now
  ctime := now
  size := UInt32.ofNat buf.length

def put (c : Cache) (eid : ExtentId) (buf : Bytes) (now : UInt32) : Cache × Status :=
  if (c eid).map EidContent.state = some .remove then
    (c, .noent)
  else
    (c.set eid
      { buf := buf
        attr := attrAt now buf
        state := .dirty },
      .ok)

def remove (c : Cache) (eid : ExtentId) : Cache × Status :=
  if (c.entry eid).state = .remove then
    (c, .noent)
  else
    (c.set eid { c.entry eid with state := .remove }, .ok)

inductive GetStart
  | call
  | noent
  | hit (c : Cache) (buf : Bytes)

def getStart (c : Cache) (eid : ExtentId) (now : UInt32) : GetStart :=
  match c eid with
  | none => .call
  | some e =>
      match e.state with
      | .none => .call
      | .remove => .noent
      | .dirty => .hit (c.set eid (e.touch now)) e.buf
      | .consistent => .hit (c.set eid (e.touch now)) e.buf

def getFill (c : Cache) (eid : ExtentId) (buf : Bytes) (now : UInt32) : Cache :=
  c.set eid
    { buf := buf
      attr := attrAt now buf
      state := .consistent }

inductive GetattrStart
  | call
  | noent
  | hit (a : Attr)

def getattrStart (c : Cache) (eid : ExtentId) : GetattrStart :=
  match c eid with
  | none => .call
  | some e => if e.state = .remove then .noent else .hit e.attr

def getattrFill (c : Cache) (eid : ExtentId) (a : Attr) : Cache :=
  c.set eid
    { buf := (c.entry eid).buf
      attr := a
      state := .none }

inductive FlushStart
  | noent
  | put (buf : Bytes)
  | remove
  | drop

def flushStart (c : Cache) (eid : ExtentId) : FlushStart :=
  match c eid with
  | none => .noent
  | some e =>
      match e.state with
      | .dirty => .put e.buf
      | .remove => .remove
      | .none => .drop
      | .consistent => .drop

@[simp] theorem set_self (c : Cache) (eid : ExtentId) (e : EidContent) :
    c.set eid e eid = some e := by
  simp [set]

@[simp] theorem set_of_ne (c : Cache) {eid i : ExtentId} (e : EidContent) (h : i ≠ eid) :
    c.set eid e i = c i := by
  simp [set, h]

@[simp] theorem erase_self (c : Cache) (eid : ExtentId) : c.erase eid eid = none := by
  simp [erase]

@[simp] theorem erase_of_ne (c : Cache) {eid i : ExtentId} (h : i ≠ eid) :
    c.erase eid i = c i := by
  simp [erase, h]

end Cache
end Extent
end Yfs

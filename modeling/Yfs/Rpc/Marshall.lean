import Mathlib.Logic.Function.Basic
import Yfs.Lib.BigEndian
import Yfs.Lib.OrderedMap

/-!
# Marshall — `marshall.h` and the operators of `rpc.cc`

`marshall` appends to a buffer that grows, `unmarshall` reads one from front to back; the first
`RPC_HEADER_SZ` bytes are left for the size of the PDU and a header, which is written and read by
moving the index there and back.

A type with its `<<` and `>>` is a `Codec`.  The operators of `std::vector` and `std::map` are
functions from codecs to codecs, and those of the protocol structs are sequences of fields.

`none` is undefined behaviour of a `marshall`: an `int` that overflows, or a write past the end of
the buffer.  What an `unmarshall` reads is not checked; it is written down in `trace`.
-/

namespace Yfs
namespace Rpc
namespace Wire

open Lib

/-- `std::string`. -/
abbrev Bytes := List UInt8

/-- `RPC_HEADER_SZ`: a `req_header` and the size of the PDU.  `RPC_CHECKSUMMING` is not defined. -/
def headerSz : ℕ := 24

/-- `sizeof(rpc_sz_t)`. -/
def rpcSzSize : ℕ := 4

def defaultRpcSz : ℕ := 1024

/-- `MAX_PDU` of `connection.cc`. -/
def maxPdu : ℕ := 10485760

/-- The number of values that an `int` has from 0 on. -/
def intSize : ℕ := 2147483648

structure ReqHeader where
  xid : Int32
  proc : Int32
  cltNonce : UInt32
  srvNonce : UInt32
  xidRep : Int32
  deriving DecidableEq, Repr

structure ReplyHeader where
  xid : Int32
  ret : Int32
  deriving DecidableEq, Repr

/-! ## class marshall -/

/-- `buf` has contents also beyond `capa`: what `malloc` and `realloc` return is not zeroed. -/
structure Marshall where
  buf : ℕ → UInt8
  capa : ℕ
  ind : ℕ

/-- `memcpy(buf + i, bs)`. -/
def writeAt (buf : ℕ → UInt8) : ℕ → Bytes → ℕ → UInt8
  | _, [] => buf
  | i, x :: xs => writeAt (Function.update buf i x) (i + 1) xs

namespace Marshall

def new (junk : ℕ → UInt8) : Marshall where
  buf := junk
  capa := defaultRpcSz
  ind := headerSz

/-- Give the buffer `capa` bytes and append to it. -/
def store (m : Marshall) (capa : ℕ) (bs : Bytes) : Option Marshall :=
  if m.ind + bs.length ≤ capa ∧ capa < intSize then
    some
      { buf := writeAt m.buf m.ind bs
        capa := capa
        ind := m.ind + bs.length }
  else
    none

def rawbyte (m : Marshall) (x : UInt8) : Option Marshall :=
  m.store (if m.capa ≤ m.ind then 2 * m.capa else m.capa) [x]

def rawbytes (m : Marshall) (p : Bytes) : Option Marshall :=
  m.store
    (if m.capa < m.ind + p.length then
      if p.length < m.capa then 2 * m.capa else m.capa + p.length
    else
      m.capa)
    p

def pack (m : Marshall) (x : Int32) : Option Marshall := do
  let m ← m.rawbyte (lowByteInt (x >>> 24))
  let m ← m.rawbyte (lowByteInt (x >>> 16))
  let m ← m.rawbyte (lowByteInt (x >>> 8))
  m.rawbyte (lowByteInt x)

/-- Run `f` with the index behind the size of the PDU and put the index back. -/
def inHeader (m : Marshall) (f : Marshall → Option Marshall) : Option Marshall := do
  let m' ← f { m with ind := rpcSzSize }
  pure { m' with ind := m.ind }

def packReqHeader (m : Marshall) (h : ReqHeader) : Option Marshall :=
  m.inHeader fun m => do
    let m ← m.pack h.xid
    let m ← m.pack h.proc
    let m ← m.pack h.cltNonce.toInt32
    let m ← m.pack h.srvNonce.toInt32
    m.pack h.xidRep

def packReplyHeader (m : Marshall) (h : ReplyHeader) : Option Marshall :=
  m.inHeader fun m => do
    let m ← m.pack h.xid
    m.pack h.ret

/-- `get_content` and `str`: the contents without the header. -/
def str (m : Marshall) : Bytes :=
  (List.range (m.ind - headerSz)).map fun j => m.buf (headerSz + j)

end Marshall

/-! ## class unmarshall -/

/-- `_buf` and `_sz` of an `unmarshall`, which no operator changes. -/
structure Buffer where
  byte : ℕ → UInt8
  sz : ℕ

/-- What the operators have done so far: a byte read at `i`, a string made of the `n` bytes at `i`
and after, a copy of such bytes that runs on behind the buffer, a vector or a map of `n`
elements. -/
inductive Event
  | byte (i : ℕ)
  | string (i n : ℕ)
  | overrun (i n : ℕ)
  | vector (n : ℕ)
  | map (n : ℕ)
  deriving DecidableEq, Repr

structure Unmarshall where
  ind : ℕ
  ok : Bool
  trace : List Event
  deriving DecidableEq, Repr

namespace Buffer

/-- The `n` bytes at `i`, whether they lie in the buffer or not. -/
def slice (b : Buffer) (i n : ℕ) : Bytes :=
  (List.range n).map fun j => b.byte (i + j)

end Buffer

namespace Unmarshall

/-- `unmarshall(char *b, int sz)`. -/
def start : Unmarshall where
  ind := 0
  ok := true
  trace := []

/-- `unmarshall(const std::string &s)`: the contents without a header. -/
def startContent : Unmarshall where
  ind := headerSz
  ok := true
  trace := []

/-- The buffer of `take_content`; `junk` is what stands in the place of the header. -/
def contentBuffer (junk : ℕ → UInt8) (s : Bytes) : Buffer where
  byte := writeAt junk headerSz s
  sz := s.length + headerSz

def okdone (b : Buffer) (u : Unmarshall) : Bool :=
  u.ok && u.ind == b.sz

/-- The byte is read through a `char`, so it comes sign-extended. -/
def rawbyte (b : Buffer) (u : Unmarshall) : Unmarshall × UInt32 :=
  if b.sz ≤ u.ind then
    ({ u with ok := false }, 0)
  else
    ({ u with
        ind := u.ind + 1
        trace := .byte u.ind :: u.trace },
      signExtend (b.byte u.ind))

/-- `_ind + n` is computed in `unsigned`.  When it wraps around, nearly 4 GiB are copied from the
buffer on: no string is made and the process ends. -/
def rawbytes (b : Buffer) (u : Unmarshall) (ss : Bytes) (n : UInt32) : Unmarshall × Bytes :=
  if b.sz < (u.ind + n.toNat) % UInt32.size then
    ({ u with ok := false }, ss)
  else if UInt32.size ≤ u.ind + n.toNat then
    ({ u with
        ok := false
        trace := .overrun u.ind n.toNat :: u.trace },
      ss)
  else
    ({ u with
        ind := u.ind + n.toNat
        trace := .string u.ind n.toNat :: u.trace },
      b.slice u.ind n.toNat)

/-- Four bytes, each of them masked. -/
def unsigned (b : Buffer) (u : Unmarshall) : Unmarshall × UInt32 :=
  let r₁ := u.rawbyte b
  let r₂ := r₁.1.rawbyte b
  let r₃ := r₂.1.rawbyte b
  let r₄ := r₃.1.rawbyte b
  (r₄.1, (r₁.2 &&& 0xff) <<< 24 ||| (r₂.2 &&& 0xff) <<< 16 ||| (r₃.2 &&& 0xff) <<< 8 |||
    (r₄.2 &&& 0xff))

/-- The same through an `int`, which every `|=` converts to `unsigned` and back. -/
def unpack (b : Buffer) (u : Unmarshall) : Unmarshall × Int32 :=
  let r₁ := u.rawbyte b
  let r₂ := r₁.1.rawbyte b
  let r₃ := r₂.1.rawbyte b
  let r₄ := r₃.1.rawbyte b
  let x := ((r₁.2 &&& 0xff) <<< 24).toInt32
  let x := (x.toUInt32 ||| (r₂.2 &&& 0xff) <<< 16).toInt32
  let x := (x.toUInt32 ||| (r₃.2 &&& 0xff) <<< 8).toInt32
  (r₄.1, (x.toUInt32 ||| (r₄.2 &&& 0xff)).toInt32)

def unpackReqHeader (b : Buffer) (u : Unmarshall) : Unmarshall × ReqHeader :=
  let r₁ := unpack b { u with ind := rpcSzSize }
  let r₂ := unpack b r₁.1
  let r₃ := unpack b r₂.1
  let r₄ := unpack b r₃.1
  let r₅ := unpack b r₄.1
  ({ r₅.1 with ind := headerSz },
    { xid := r₁.2
      proc := r₂.2
      cltNonce := r₃.2.toUInt32
      srvNonce := r₄.2.toUInt32
      xidRep := r₅.2 })

def unpackReplyHeader (b : Buffer) (u : Unmarshall) : Unmarshall × ReplyHeader :=
  let r₁ := unpack b { u with ind := rpcSzSize }
  let r₂ := unpack b r₁.1
  ({ r₂.1 with ind := headerSz },
    { xid := r₁.2
      ret := r₂.2 })

end Unmarshall

/-! ## Operators -/

/-- A type with `operator<<` and `operator>>`.  `get` is given the old value of the variable, which
a failing `>>` may leave in place; `dflt` is what a variable declared without a value holds. -/
structure Codec (α : Type) where
  dflt : α
  put : Marshall → α → Option Marshall
  get : Buffer → Unmarshall → α → Unmarshall × α

namespace Codec

def bool : Codec Bool where
  dflt := false
  put m x := m.rawbyte x.toUInt8
  get b u _ := ((u.rawbyte b).1, (u.rawbyte b).2 != 0)

def uchar : Codec UInt8 where
  dflt := 0
  put m x := m.rawbyte x
  get b u _ := ((u.rawbyte b).1, (u.rawbyte b).2.toUInt8)

def char : Codec Int8 where
  dflt := 0
  put m x := uchar.put m x.toUInt8
  get b u _ := ((u.rawbyte b).1, (u.rawbyte b).2.toUInt8.toInt8)

def ushort : Codec UInt16 where
  dflt := 0
  put m x := do
    let m ← m.rawbyte (lowByte (x.toUInt32 >>> 8))
    m.rawbyte (lowByte x.toUInt32)
  get b u _ :=
    let r₁ := u.rawbyte b
    let r₂ := r₁.1.rawbyte b
    let x := ((r₁.2 &&& 0xff) <<< 8).toUInt16
    (r₂.1, (x.toUInt32 ||| (r₂.2 &&& 0xff)).toUInt16)

def short : Codec Int16 where
  dflt := 0
  put m x := ushort.put m x.toUInt16
  get b u _ :=
    let r₁ := u.rawbyte b
    let r₂ := r₁.1.rawbyte b
    let x := ((r₁.2 &&& 0xff) <<< 8).toUInt16.toInt16
    (r₂.1, (x.toInt32.toUInt32 ||| (r₂.2 &&& 0xff)).toUInt16.toInt16)

def uint : Codec UInt32 where
  dflt := 0
  put m x := do
    let m ← m.rawbyte (lowByte (x >>> 24))
    let m ← m.rawbyte (lowByte (x >>> 16))
    let m ← m.rawbyte (lowByte (x >>> 8))
    m.rawbyte (lowByte x)
  get b u _ := u.unsigned b

def int : Codec Int32 where
  dflt := 0
  put m x := uint.put m x.toUInt32
  get b u _ := u.unpack b

def ulonglong : Codec UInt64 where
  dflt := 0
  put m x := do
    let m ← uint.put m (x >>> 32).toUInt32
    uint.put m x.toUInt32
  get b u _ :=
    let r₁ := uint.get b u 0
    let r₂ := uint.get b r₁.1 0
    (r₂.1, long r₁.2 r₂.2)

def string : Codec Bytes where
  dflt := []
  put m s := do
    let m ← uint.put m (UInt32.ofNat s.length)
    m.rawbytes s
  get b u s :=
    let r := uint.get b u 0
    if r.1.ok then r.1.rawbytes b s r.2 else (r.1, s)

variable {α β : Type}

def putElems (c : Codec α) : Marshall → List α → Option Marshall
  | m, [] => some m
  | m, x :: xs => do
      let m ← c.put m x
      putElems c m xs

/-- The loop runs `n` times, also when reading has failed. -/
def getElems (c : Codec α) (b : Buffer) : ℕ → Unmarshall → List α → Unmarshall × List α
  | 0, u, v => (u, v)
  | n + 1, u, v =>
      let r := c.get b u c.dflt
      getElems c b n r.1 (v ++ [r.2])

def vector (c : Codec α) : Codec (List α) where
  dflt := []
  put m v := do
    let m ← uint.put m (UInt32.ofNat v.length)
    putElems c m v
  get b u _ :=
    let r := uint.get b u 0
    let r' := getElems c b r.2.toNat r.1 []
    ({ r'.1 with trace := .vector r'.2.length :: r'.1.trace }, r'.2)

/-- Two values one after the other. -/
def pair (c : Codec α) (d : Codec β) : Codec (α × β) where
  dflt := (c.dflt, d.dflt)
  put m p := do
    let m ← c.put m p.1
    d.put m p.2
  get b u p :=
    let r := c.get b u p.1
    let r' := d.get b r.1 p.2
    (r'.1, (r.2, r'.2))

def getEntries [LinearOrder α] (c : Codec α) (d : Codec β) (b : Buffer) :
    ℕ → Unmarshall → OrderedMap α β → Unmarshall × OrderedMap α β
  | 0, u, m => (u, m)
  | n + 1, u, m =>
      let r := (c.pair d).get b u (c.dflt, d.dflt)
      getEntries c d b n r.1 (m.insert r.2.1 r.2.2)

def map [LinearOrder α] (c : Codec α) (d : Codec β) : Codec (OrderedMap α β) where
  dflt := OrderedMap.empty
  put m v := do
    let m ← uint.put m (UInt32.ofNat v.size)
    putElems (c.pair d) m v.entries
  get b u _ :=
    let r := uint.get b u 0
    let r' := getEntries c d b r.2.toNat r.1 OrderedMap.empty
    ({ r'.1 with trace := .map r'.2.size :: r'.1.trace }, r'.2)

/-- The operators of a struct, given as a sequence of its fields. -/
def struct (c : Codec β) (fields : α → β) (make : β → α) : Codec α where
  dflt := make c.dflt
  put m a := c.put m (fields a)
  get b u a :=
    let r := c.get b u (fields a)
    (r.1, make r.2)

/-- No value at all. -/
def unit : Codec Unit where
  dflt := ()
  put m _ := some m
  get _ u _ := (u, ())

end Codec

/-! ## The structs of `paxos_protocol.h` and `rsm_protocol.h` -/

/-- `prop_t`. -/
structure PropT where
  n : UInt32
  m : Bytes
  deriving DecidableEq, Repr

structure PrepareArg where
  inst : UInt32
  n : PropT
  deriving DecidableEq, Repr

structure PrepareRes where
  oldinstance : Bool
  accept : Bool
  nA : PropT
  vA : Bytes
  deriving DecidableEq, Repr

structure AcceptArg where
  inst : UInt32
  n : PropT
  v : Bytes
  deriving DecidableEq, Repr

structure DecideArg where
  inst : UInt32
  v : Bytes
  deriving DecidableEq, Repr

structure Viewstamp where
  vid : UInt32
  seqno : UInt32
  deriving DecidableEq, Repr

structure TransferRes where
  state : Bytes
  last : Viewstamp
  deriving DecidableEq, Repr

structure JoinRes where
  log : Bytes
  deriving DecidableEq, Repr

namespace Codec

def propT : Codec PropT :=
  (uint.pair string).struct (fun a => (a.n, a.m)) fun p => ⟨p.1, p.2⟩

def prepareArg : Codec PrepareArg :=
  (uint.pair propT).struct (fun a => (a.inst, a.n)) fun p => ⟨p.1, p.2⟩

def prepareRes : Codec PrepareRes :=
  (bool.pair (bool.pair (propT.pair string))).struct
    (fun r => (r.oldinstance, r.accept, r.nA, r.vA)) fun p => ⟨p.1, p.2.1, p.2.2.1, p.2.2.2⟩

def acceptArg : Codec AcceptArg :=
  (uint.pair (propT.pair string)).struct (fun a => (a.inst, a.n, a.v)) fun p => ⟨p.1, p.2.1, p.2.2⟩

def decideArg : Codec DecideArg :=
  (uint.pair string).struct (fun a => (a.inst, a.v)) fun p => ⟨p.1, p.2⟩

def viewstamp : Codec Viewstamp :=
  (uint.pair uint).struct (fun v => (v.vid, v.seqno)) fun p => ⟨p.1, p.2⟩

def transferRes : Codec TransferRes :=
  (string.pair viewstamp).struct (fun r => (r.state, r.last)) fun p => ⟨p.1, p.2⟩

def joinRes : Codec JoinRes :=
  string.struct (fun r => r.log) fun log => ⟨log⟩

end Codec

end Wire
end Rpc
end Yfs

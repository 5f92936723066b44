import Yfs.Lib.Register
import Yfs.Rpc.Format

/-!
# Growth — the `int`s of `marshall`

`Marshall` counts in natural numbers, and what is undefined in the class is `none` there.
`IntMarshall` is the class with `int`s that wrap around, so it always goes on; every `int` that is
computed is written down with its exact value, and every byte with the index that it is written to
and the capacity at that time.

`Sim` relates the two.  It is kept by all operations as long as the message stays below 2^30 bytes,
so that there every computation is exact and every byte is inside the buffer.
-/

namespace Yfs
namespace Rpc
namespace Wire

open Lib

/-! ## The class -/

/-- The exact value of an `int` that is computed, or a byte that is written. -/
inductive IntEvent
  | computed (exact : ℤ)
  | wrote (ind capa : ℤ)
  deriving DecidableEq, Repr

/-- No overflow, and no write outside the buffer. -/
def IntEvent.Ok : IntEvent → Prop
  | .computed x => FitsInt x
  | .wrote ind capa => 0 ≤ ind ∧ ind < capa

/-- `_buf`, `_capa` and `_ind`; `log` is not read by the code. -/
structure IntMarshall where
  buf : ℕ → UInt8
  capa : Int32
  ind : Int32
  log : List IntEvent

namespace IntMarshall

def new (junk : ℕ → UInt8) : IntMarshall where
  buf := junk
  capa := 1024
  ind := 24
  log := []

def computed (m : IntMarshall) (x : ℤ) : IntMarshall :=
  { m with log := m.log ++ [.computed x] }

/-- `realloc` to a capacity whose exact value is `x`. -/
def grow (m : IntMarshall) (capa : Int32) (x : ℤ) : IntMarshall :=
  { m.computed x with capa := capa }

/-- `memcpy(_buf + _ind, p, n)` and `_ind += n`. -/
def put (m : IntMarshall) (p : Bytes) : IntMarshall where
  buf := writeAt m.buf m.ind.toInt.toNat p
  capa := m.capa
  ind := m.ind + Int32.ofInt p.length
  log := m.log ++ (List.range p.length).map (fun j => .wrote (m.ind.toInt + j) m.capa.toInt) ++
    [.computed (m.ind.toInt + (Int32.ofInt p.length).toInt)]

/-- The buffer is doubled when it is full. -/
def roomForByte (m : IntMarshall) : IntMarshall :=
  if m.capa ≤ m.ind then m.grow (m.capa * 2) (m.capa.toInt * 2) else m

/-- The buffer grows once, in one of two ways. -/
def roomFor (m : IntMarshall) (n : Int32) : IntMarshall :=
  -- the sum is computed whether the buffer grows or not
  let m' := m.computed (m.ind.toInt + n.toInt)
  if m.capa < m.ind + n then
    if n < m.capa then
      m'.grow (2 * m.capa) (2 * m.capa.toInt)
    else
      m'.grow (m.capa + n) (m.capa.toInt + n.toInt)
  else
    m'

def rawbyte (m : IntMarshall) (x : UInt8) : IntMarshall :=
  m.roomForByte.put [x]

def rawbytes (m : IntMarshall) (p : Bytes) : IntMarshall :=
  (m.roomFor (Int32.ofInt p.length)).put p

def pack (m : IntMarshall) (x : Int32) : IntMarshall :=
  let m := m.rawbyte (lowByteInt (x >>> 24))
  let m := m.rawbyte (lowByteInt (x >>> 16))
  let m := m.rawbyte (lowByteInt (x >>> 8))
  m.rawbyte (lowByteInt x)

/-- Run `f` with the index behind the size of the PDU and put the index back. -/
def inHeader (m : IntMarshall) (f : IntMarshall → IntMarshall) : IntMarshall :=
  { f { m with ind := 4 } with ind := m.ind }

def packReqHeader (m : IntMarshall) (h : ReqHeader) : IntMarshall :=
  m.inHeader fun m =>
    ((((m.pack h.xid).pack h.proc).pack h.cltNonce.toInt32).pack h.srvNonce.toInt32).pack h.xidRep

def packReplyHeader (m : IntMarshall) (h : ReplyHeader) : IntMarshall :=
  m.inHeader fun m => (m.pack h.xid).pack h.ret

end IntMarshall

inductive MarshallOp
  | rawbyte (x : UInt8)
  | rawbytes (p : Bytes)
  | packReqHeader (h : ReqHeader)
  | packReplyHeader (h : ReplyHeader)
  deriving DecidableEq, Repr

namespace MarshallOp

/-- By how much the message gets longer. -/
def size : MarshallOp → ℕ
  | rawbyte _ => 1
  | rawbytes p => p.length
  | packReqHeader _ => 0
  | packReplyHeader _ => 0

def apply (m : IntMarshall) : MarshallOp → IntMarshall
  | rawbyte x => m.rawbyte x
  | rawbytes p => m.rawbytes p
  | packReqHeader h => m.packReqHeader h
  | packReplyHeader h => m.packReplyHeader h

/-- The same in natural numbers. -/
def applyNat (m : Marshall) : MarshallOp → Option Marshall
  | rawbyte x => m.rawbyte x
  | rawbytes p => m.rawbytes p
  | packReqHeader h => m.packReqHeader h
  | packReplyHeader h => m.packReplyHeader h

end MarshallOp

/-- The size of a message after these operations. -/
def sizeAfter (ops : List MarshallOp) : ℕ :=
  headerSz + (ops.map MarshallOp.size).sum

/-! ## Exact as long as it fits -/

/-- The same buffer, and all that was done is defined. -/
structure Sim (M : IntMarshall) (m : Marshall) : Prop where
  buf : M.buf = m.buf
  capa : M.capa.toInt = m.capa
  ind : M.ind.toInt = m.ind
  log : ∀ e ∈ M.log, e.Ok

theorem sim_new (junk : ℕ → UInt8) : Sim (.new junk) (.new junk) :=
  ⟨rfl, rfl, rfl, fun e he => by cases he⟩

theorem Sim.computed {M : IntMarshall} {m : Marshall} (h : Sim M m) {x : ℤ} (hx : FitsInt x) :
    Sim (M.computed x) m where
  buf := h.buf
  capa := h.capa
  ind := h.ind
  log := by
    intro e he
    rcases List.mem_append.1 he with hold | hnew
    · exact h.log e hold
    · cases List.mem_singleton.1 hnew
      exact hx

theorem Sim.grow {M : IntMarshall} {m : Marshall} (h : Sim M m) {capa : Int32} {c : ℕ} {x : ℤ}
    (hc : capa.toInt = c) (hx : FitsInt x) : Sim (M.grow capa x) { m with capa := c } :=
  ⟨h.buf, hc, h.ind, (h.computed hx).log⟩

theorem Sim.put {M : IntMarshall} {m : Marshall} (h : Sim M m) {p : Bytes}
    (hroom : m.ind + p.length ≤ m.capa) (hlt : m.capa < intSize) :
    Sim (M.put p) { m with buf := writeAt m.buf m.ind p, ind := m.ind + p.length } := by
  simp only [intSize] at hlt
  have hlen : (Int32.ofInt (p.length : ℤ)).toInt = p.length :=
    FitsInt.toInt_ofInt ⟨by omega, by omega⟩
  have hfits : FitsInt (M.ind.toInt + (Int32.ofInt (p.length : ℤ)).toInt) := by
    rw [hlen, h.ind]
    exact ⟨by omega, by omega⟩
  refine ⟨?_, h.capa, ?_, ?_⟩
  · show writeAt M.buf M.ind.toInt.toNat p = writeAt m.buf m.ind p
    rw [h.buf, h.ind, Int.toNat_natCast]
  · show (M.ind + Int32.ofInt p.length).toInt = ((m.ind + p.length : ℕ) : ℤ)
    rw [hfits.toInt_add, hlen, h.ind]
    rfl
  · intro e he
    rcases List.mem_append.1 he with hold | hlast
    · rcases List.mem_append.1 hold with hold | hbyte
      · exact h.log e hold
      · -- the byte `j` of `p`
        rcases List.mem_map.1 hbyte with ⟨j, hj, rfl⟩
        have hj := List.mem_range.1 hj
        show 0 ≤ M.ind.toInt + j ∧ M.ind.toInt + j < M.capa.toInt
        rw [h.ind, h.capa]
        omega
    · cases List.mem_singleton.1 hlast
      exact hfits

/-- A doubled capacity is exact as long as it was below 2^30. -/
theorem Sim.double {M : IntMarshall} {m : Marshall} (h : Sim M m) (hlt : m.capa < sizeLimit) :
    FitsInt (M.capa.toInt * 2) ∧ (M.capa * 2).toInt = ((2 * m.capa : ℕ) : ℤ) := by
  simp only [sizeLimit] at hlt
  have htwo : (2 : Int32).toInt = 2 := by decide
  have hfits : FitsInt (M.capa.toInt * 2) := by
    rw [h.capa]
    exact ⟨by omega, by omega⟩
  refine ⟨hfits, ?_⟩
  rw [FitsInt.toInt_mul (by rwa [htwo]), htwo, h.capa]
  omega

theorem Sim.roomForByte {M : IntMarshall} {m : Marshall} (h : Sim M m)
    (hlen : m.ind + 1 < sizeLimit) :
    Sim M.roomForByte { m with capa := if m.capa ≤ m.ind then 2 * m.capa else m.capa } := by
  have hcond : M.capa ≤ M.ind ↔ m.capa ≤ m.ind := by
    rw [Int32.le_iff_toInt_le, h.capa, h.ind]
    omega
  unfold IntMarshall.roomForByte
  by_cases hfull : m.capa ≤ m.ind
  · have hdouble := h.double (by omega)
    rw [if_pos (hcond.2 hfull), if_pos hfull]
    exact h.grow hdouble.2 hdouble.1
  · rw [if_neg fun hle => hfull (hcond.1 hle), if_neg hfull]
    exact h

/-- Of the two ways, `2 * _capa` is taken for less than `_capa` bytes, and `_capa + n` is at most
`2 * n`. -/
theorem Sim.roomFor {M : IntMarshall} {m : Marshall} (h : Sim M m) {n : Int32} {k : ℕ}
    (hn : n.toInt = k) (hlen : m.ind + k < sizeLimit) :
    Sim (M.roomFor n)
      { m with
        capa := if m.capa < m.ind + k then
          if k < m.capa then 2 * m.capa else m.capa + k else m.capa } := by
  have hlimit := hlen
  simp only [sizeLimit] at hlimit
  have hsum : FitsInt (M.ind.toInt + n.toInt) := by
    rw [hn, h.ind]
    exact ⟨by omega, by omega⟩
  have hcond : M.capa < M.ind + n ↔ m.capa < m.ind + k := by
    rw [Int32.lt_iff_toInt_lt, hsum.toInt_add, h.capa, h.ind, hn]
    omega
  have hsmall : n < M.capa ↔ k < m.capa := by
    rw [Int32.lt_iff_toInt_lt, h.capa, hn]
    omega
  have hcomputed := h.computed hsum
  by_cases hfull : m.capa < m.ind + k
  · have hgrow : M.roomFor n = _ := if_pos (hcond.2 hfull)
    rw [hgrow, if_pos hfull]
    by_cases hshort : k < m.capa
    · have hdouble := h.double (by omega)
      rw [if_pos (hsmall.2 hshort), if_pos hshort, Int32.mul_comm, Int.mul_comm]
      exact hcomputed.grow hdouble.2 hdouble.1
    · have hfits : FitsInt (M.capa.toInt + n.toInt) := by
        rw [h.capa, hn]
        exact ⟨by omega, by omega⟩
      have hcapa : (M.capa + n).toInt = ((m.capa + k : ℕ) : ℤ) := by
        rw [hfits.toInt_add, h.capa, hn]
        rfl
      rw [if_neg fun hlt => hshort (hsmall.1 hlt), if_neg hshort]
      exact hcomputed.grow hcapa hfits
  · have hkeep : M.roomFor n = _ := if_neg fun hlt => hfull (hcond.1 hlt)
    rw [hkeep, if_neg hfull]
    exact hcomputed

/-! ## Operations -/

/-- `F` does with `int`s what `f` does, and `f` appends `bs`. -/
structure Follows (F : IntMarshall → IntMarshall) (f : Marshall → Option Marshall) (bs : Bytes) :
    Prop where
  writes : Writes f bs
  grows : ∀ m m', f m = some m' → m.capa ≤ m'.capa
  sim : ∀ M m m', Sim M m → m.Wf → m.ind + bs.length < sizeLimit → f m = some m' → Sim (F M) m'

theorem Follows.bind {F G : IntMarshall → IntMarshall} {f g : Marshall → Option Marshall}
    {bs cs : Bytes} (hf : Follows F f bs) (hg : Follows G g cs) :
    Follows (fun M => G (F M)) (fun m => (f m).bind g) (bs ++ cs) where
  writes := hf.writes.bind hg.writes
  grows := by
    intro m m' h
    rcases Option.bind_eq_some_iff.1 h with ⟨q, hq, hm'⟩
    exact Nat.le_trans (hf.grows m q hq) (hg.grows q m' hm')
  sim := by
    intro M m m' hsim hm hlen h
    rw [List.length_append] at hlen
    rcases Option.bind_eq_some_iff.1 h with ⟨q, hq, hm'⟩
    rcases hf.writes m hm (by omega) with ⟨q', hq', hwf, _, hind⟩
    cases hq.symm.trans hq'
    exact hg.sim _ q m' (hf.sim M m q hsim hm (by omega) hq) hwf (by omega) hm'

/-- Make room, and then write. -/
theorem follows_store {room : IntMarshall → IntMarshall} {capa : Marshall → ℕ} {bs : Bytes}
    (hwrites : Writes (fun m => m.store (capa m) bs) bs) (hmono : ∀ m, m.capa ≤ capa m)
    (hroom : ∀ M m, Sim M m → m.ind + bs.length < sizeLimit →
      Sim (room M) { m with capa := capa m }) :
    Follows (fun M => (room M).put bs) (fun m => m.store (capa m) bs) bs where
  writes := hwrites
  grows := by
    intro m m' h
    unfold Marshall.store at h
    split at h <;> cases h
    exact hmono m
  sim := by
    intro M m m' hsim _ hlen h
    unfold Marshall.store at h
    split at h
    next hfits =>
      cases h
      exact (hroom M m hsim hlen).put hfits.1 hfits.2
    next => cases h

theorem follows_rawbyte (x : UInt8) :
    Follows (fun M => M.rawbyte x) (fun m => m.rawbyte x) [x] := by
  refine follows_store (writes_rawbyte x) (fun m => ?_) fun M m hsim hlen => hsim.roomForByte hlen
  split <;> omega

theorem follows_rawbytes (p : Bytes) :
    Follows (fun M => M.rawbytes p) (fun m => m.rawbytes p) p := by
  refine follows_store (writes_rawbytes p) (fun m => ?_) fun M m hsim hlen => ?_
  · split
    · split <;> omega
    · exact Nat.le_refl _
  · have hlimit := hlen
    simp only [sizeLimit] at hlimit
    exact hsim.roomFor (FitsInt.toInt_ofInt ⟨by omega, by omega⟩) hlen

theorem follows_pack (x : Int32) :
    Follows (fun M => M.pack x) (fun m => m.pack x) (wordBytes x.toUInt32) := by
  have hbytes := (follows_rawbyte (lowByteInt (x >>> 24))).bind
    ((follows_rawbyte (lowByteInt (x >>> 16))).bind
      ((follows_rawbyte (lowByteInt (x >>> 8))).bind (follows_rawbyte (lowByteInt x))))
  exact ⟨writes_pack x, hbytes.grows, hbytes.sim⟩

/-- A header is written into bytes that are always there, and the index is put back. -/
theorem Follows.inHeader {F : IntMarshall → IntMarshall} {f : Marshall → Option Marshall}
    {bs : Bytes} (hf : Follows F f bs) (hlen : rpcSzSize + bs.length ≤ headerSz)
    {M : IntMarshall} {m : Marshall} (h : Sim M m) (hm : m.Wf) :
    ∃ m', m.inHeader f = some m' ∧ Sim (M.inHeader F) m' ∧ m'.Wf ∧ m'.ind = m.ind := by
  have hlimit : rpcSzSize + bs.length < sizeLimit := Nat.lt_of_le_of_lt hlen (by decide)
  -- the index goes back to the header, where the buffer is large enough without growing
  have hmoved : Sim { M with ind := 4 } { m with ind := rpcSzSize } := ⟨h.buf, h.capa, rfl, h.log⟩
  have hwf : Marshall.Wf { m with ind := rpcSzSize } :=
    ⟨Nat.le_trans (show rpcSzSize ≤ headerSz by decide) hm.header_le, hm.header_le, hm.capa_lt⟩
  rcases hf.writes _ hwf hlimit with ⟨q, hq, hqwf, _, _⟩
  have hsim := hf.sim _ _ q hmoved hwf hlimit hq
  have hgrows := hf.grows _ q hq
  refine ⟨{ q with ind := m.ind }, ?_, ⟨hsim.buf, hsim.capa, h.ind, hsim.log⟩, ?_, rfl⟩
  · rw [Marshall.inHeader, hq]
    rfl
  · exact ⟨Nat.le_trans hm.ind_le hgrows, hqwf.header_le, hqwf.capa_lt⟩

/-- Every operation is exact as long as the message stays below the limit. -/
theorem MarshallOp.follows (op : MarshallOp) {M : IntMarshall} {m : Marshall} (h : Sim M m)
    (hm : m.Wf) (hlen : m.ind + op.size < sizeLimit) :
    ∃ m', op.applyNat m = some m' ∧ Sim (op.apply M) m' ∧ m'.Wf ∧ m'.ind = m.ind + op.size := by
  cases op with
  | rawbyte x =>
      rcases writes_rawbyte x m hm hlen with ⟨m', hm', hwf, _, hind⟩
      exact ⟨m', hm', (follows_rawbyte x).sim M m m' h hm hlen hm', hwf, hind⟩
  | rawbytes p =>
      rcases writes_rawbytes p m hm hlen with ⟨m', hm', hwf, _, hind⟩
      exact ⟨m', hm', (follows_rawbytes p).sim M m m' h hm hlen hm', hwf, hind⟩
  | packReqHeader hd =>
      have hfields := (follows_pack hd.xid).bind ((follows_pack hd.proc).bind
        ((follows_pack hd.cltNonce.toInt32).bind ((follows_pack hd.srvNonce.toInt32).bind
          (follows_pack hd.xidRep))))
      exact hfields.inHeader (by simp [rpcSzSize, headerSz]) h hm
  | packReplyHeader hd =>
      have hfields := (follows_pack hd.xid).bind (follows_pack hd.ret)
      exact hfields.inHeader (by simp [rpcSzSize, headerSz]) h hm

/-- A sequence of operations on a fresh object, with `int`s. -/
def runOps (junk : ℕ → UInt8) (ops : List MarshallOp) : IntMarshall :=
  ops.foldl MarshallOp.apply (.new junk)

/-- The same in natural numbers. -/
def runOpsNat (junk : ℕ → UInt8) (ops : List MarshallOp) : Option Marshall :=
  ops.foldlM MarshallOp.applyNat (.new junk)

theorem foldl_follows (ops : List MarshallOp) :
    ∀ {M : IntMarshall} {m : Marshall}, Sim M m → m.Wf →
      m.ind + (ops.map MarshallOp.size).sum < sizeLimit →
      ∃ m', ops.foldlM MarshallOp.applyNat m = some m' ∧ Sim (ops.foldl MarshallOp.apply M) m' ∧
        m'.Wf ∧ m'.ind = m.ind + (ops.map MarshallOp.size).sum := by
  induction ops with
  | nil => exact fun h hm _ => ⟨_, rfl, h, hm, rfl⟩
  | cons op ops ih =>
      intro M m h hm hlen
      -- the sizes only add up, so a prefix of the operations is below the limit too
      rw [List.map_cons, List.sum_cons] at hlen ⊢
      rcases op.follows h hm (by omega) with ⟨q, hq, hsim, hwf, hind⟩
      rcases ih hsim hwf (by omega) with ⟨m', hm', hsim', hwf', hind'⟩
      refine ⟨m', ?_, hsim', hwf', by omega⟩
      rw [List.foldlM_cons, hq]
      exact hm'

/-- The class with `int`s computes what the one with natural numbers computes. -/
theorem runOps_refines (junk : ℕ → UInt8) (ops : List MarshallOp)
    (h : sizeAfter ops < sizeLimit) :
    ∃ m, runOpsNat junk ops = some m ∧ Sim (runOps junk ops) m ∧ m.Wf ∧ m.ind = sizeAfter ops :=
  foldl_follows ops (sim_new junk) (Marshall.wf_new junk) h

theorem sizeAfter_le_of_prefix {ops' ops : List MarshallOp} (h : ops' <+: ops) :
    sizeAfter ops' ≤ sizeAfter ops := by
  rcases h with ⟨rest, rfl⟩
  simp only [sizeAfter, List.map_append, List.sum_append]
  omega

/-- A message that stays below 2^30 bytes always has room in its buffer: after each operation the
index is between the header and the capacity, every byte is written below the capacity, and no
`int` overflows. -/
theorem marshall_has_room (junk : ℕ → UInt8) (ops : List MarshallOp)
    (h : sizeAfter ops < 1073741824) :
    (∀ ops', ops' <+: ops →
      (runOps junk ops').ind.toInt = sizeAfter ops' ∧ headerSz ≤ (runOps junk ops').ind.toInt ∧
        (runOps junk ops').ind.toInt ≤ (runOps junk ops').capa.toInt) ∧
      ∀ e ∈ (runOps junk ops).log, e.Ok := by
  constructor
  · intro ops' hprefix
    have hle := sizeAfter_le_of_prefix hprefix
    rcases runOps_refines junk ops' (Nat.lt_of_le_of_lt hle h) with ⟨m, _, hsim, hwf, hind⟩
    have hcapa := hwf.ind_le
    have hheader : headerSz ≤ sizeAfter ops' := Nat.le_add_right _ _
    rw [hsim.ind, hsim.capa, hind]
    omega
  · rcases runOps_refines junk ops h with ⟨m, _, hsim, _, _⟩
    exact hsim.log

/-- Longer than the first buffer, and a header after it. -/
def longReply : List MarshallOp :=
  [.rawbytes (List.replicate 1500 7), .rawbyte 1, .packReplyHeader ⟨3, 0⟩]

theorem marshall_has_room_longReply :
    (runOps (fun _ => 0) longReply).ind.toInt = 1525 ∧
      1525 ≤ (runOps (fun _ => 0) longReply).capa.toInt := by
  have hsize : sizeAfter longReply = 1525 := by
    simp only [sizeAfter, longReply, headerSz, MarshallOp.size, List.map_cons, List.map_nil,
      List.length_replicate, List.sum_cons, List.sum_nil, Nat.reduceAdd]
  rcases (marshall_has_room (fun _ => 0) longReply (by omega)).1 longReply
    (List.prefix_refl _) with ⟨hind, _, hle⟩
  omega

end Wire
end Rpc
end Yfs

import Yfs.Rpc.Marshall

/-!
# Format — the bytes of marshalled values

`Format α c e` says that `α` is one of the types that the program marshals, with the operators `c`
and the format `e`: which bytes stand for a value.  `Format.coded` is proved by induction on it and
says that the operators implement the format: `<<` appends the bytes, `>>` takes them back, and on
a buffer that ends too early `>>` either clears `ok()` or has left the buffer (`Stuck`).

`marshalling_round_trip` puts headers and sequences of values together.
-/

namespace Yfs
namespace Rpc
namespace Wire

open Lib

/-! ## Formats -/

def wordBytes (x : UInt32) : Bytes :=
  [lowByte (x >>> 24), lowByte (x >>> 16), lowByte (x >>> 8), lowByte x]

def halfBytes (x : UInt16) : Bytes :=
  [lowByte (x.toUInt32 >>> 8), lowByte x.toUInt32]

def longBytes (x : UInt64) : Bytes :=
  wordBytes (x >>> 32).toUInt32 ++ wordBytes x.toUInt32

def stringBytes (s : Bytes) : Bytes :=
  wordBytes (UInt32.ofNat s.length) ++ s

variable {α β : Type}

def pairBytes (e : α → Bytes) (f : β → Bytes) (p : α × β) : Bytes :=
  e p.1 ++ f p.2

def listBytes (e : α → Bytes) (v : List α) : Bytes :=
  wordBytes (UInt32.ofNat v.length) ++ v.flatMap e

def propTBytes (a : PropT) : Bytes :=
  wordBytes a.n ++ stringBytes a.m

def viewstampBytes (v : Viewstamp) : Bytes :=
  wordBytes v.vid ++ wordBytes v.seqno

/-- The types that can be marshalled.  The keys of a map may have any order. -/
inductive Format : (α : Type) → Codec α → (α → Bytes) → Prop where
  | bool : Format Bool .bool fun x => [x.toUInt8]
  | uchar : Format UInt8 .uchar fun x => [x]
  | char : Format Int8 .char fun x => [x.toUInt8]
  | ushort : Format UInt16 .ushort halfBytes
  | short : Format Int16 .short fun x => halfBytes x.toUInt16
  | uint : Format UInt32 .uint wordBytes
  | int : Format Int32 .int fun x => wordBytes x.toUInt32
  | ulonglong : Format UInt64 .ulonglong longBytes
  | string : Format Bytes .string stringBytes
  | vector {α : Type} {c : Codec α} {e : α → Bytes} :
      Format α c e → Format (List α) c.vector (listBytes e)
  | map {α β : Type} [LinearOrder α] {c : Codec α} {d : Codec β} {e : α → Bytes} {f : β → Bytes} :
      Format α c e → Format β d f →
        Format (OrderedMap α β) (c.map d) fun m => listBytes (pairBytes e f) m.entries
  | propT : Format PropT .propT propTBytes
  | prepareArg : Format PrepareArg .prepareArg fun a => wordBytes a.inst ++ propTBytes a.n
  | prepareRes :
      Format PrepareRes .prepareRes fun r =>
        [r.oldinstance.toUInt8] ++ ([r.accept.toUInt8] ++ (propTBytes r.nA ++ stringBytes r.vA))
  | acceptArg :
      Format AcceptArg .acceptArg fun a => wordBytes a.inst ++ (propTBytes a.n ++ stringBytes a.v)
  | decideArg : Format DecideArg .decideArg fun a => wordBytes a.inst ++ stringBytes a.v
  | viewstamp : Format Viewstamp .viewstamp viewstampBytes
  | transferRes :
      Format TransferRes .transferRes fun r => stringBytes r.state ++ viewstampBytes r.last
  | joinRes : Format JoinRes .joinRes fun r => stringBytes r.log

@[simp] theorem length_wordBytes (x : UInt32) : (wordBytes x).length = 4 := rfl

@[simp] theorem length_halfBytes (x : UInt16) : (halfBytes x).length = 2 := rfl

theorem length_stringBytes (s : Bytes) : (stringBytes s).length = 4 + s.length := by
  simp [stringBytes]

/-- No value is marshalled to nothing. -/
theorem Format.length_pos {c : Codec α} {e : α → Bytes} (h : Format α c e) (v : α) :
    0 < (e v).length := by
  cases h <;>
    simp only [longBytes, stringBytes, listBytes, propTBytes, viewstampBytes, List.length_append,
      length_wordBytes, length_halfBytes, List.length_singleton] <;>
    omega

/-! ## Writing -/

/-- Messages of `sizeLimit` bytes and more are not looked at. -/
def sizeLimit : ℕ := 1073741824

theorem writeAt_append (buf : ℕ → UInt8) (bs : Bytes) :
    ∀ (i : ℕ) (cs : Bytes),
      writeAt buf i (bs ++ cs) = writeAt (writeAt buf i bs) (i + bs.length) cs := by
  induction bs generalizing buf with
  | nil => exact fun i cs => rfl
  | cons x xs ih =>
      intro i cs
      rw [List.cons_append, writeAt, ih, writeAt, List.length_cons, Nat.add_right_comm,
        Nat.add_assoc]

theorem writeAt_of_lt (bs : Bytes) :
    ∀ (buf : ℕ → UInt8) {i k : ℕ}, k < i → writeAt buf i bs k = buf k := by
  induction bs with
  | nil => exact fun buf i k _ => rfl
  | cons x xs ih =>
      intro buf i k hk
      rw [writeAt, ih _ (Nat.lt_succ_of_lt hk), Function.update_of_ne (Nat.ne_of_lt hk)]

theorem writeAt_getElem? (bs : Bytes) :
    ∀ (buf : ℕ → UInt8) (i : ℕ) {j : ℕ} {x : UInt8}, bs[j]? = some x →
      writeAt buf i bs (i + j) = x := by
  induction bs with
  | nil => exact fun buf i j x h => nomatch h
  | cons y ys ih =>
      intro buf i j x h
      cases j with
      | zero =>
          rw [writeAt, writeAt_of_lt ys _ (by omega)]
          simpa using h
      | succ j =>
          rw [writeAt, ← Nat.add_assoc, Nat.add_right_comm]
          exact ih _ _ (by simpa using h)

theorem writeAt_update (cs : Bytes) (x : UInt8) :
    ∀ (buf : ℕ → UInt8) {i j : ℕ}, i < j →
      writeAt (Function.update buf i x) j cs = Function.update (writeAt buf j cs) i x := by
  induction cs with
  | nil => exact fun buf i j _ => rfl
  | cons y ys ih =>
      intro buf i j hij
      rw [writeAt, Function.update_comm (Nat.ne_of_lt hij), ih _ (Nat.lt_succ_of_lt hij), writeAt]

/-- Writes to places apart commute. -/
theorem writeAt_comm {j : ℕ} {cs : Bytes} (bs : Bytes) :
    ∀ (buf : ℕ → UInt8) {i : ℕ}, i + bs.length ≤ j →
      writeAt (writeAt buf i bs) j cs = writeAt (writeAt buf j cs) i bs := by
  induction bs with
  | nil => exact fun buf i _ => rfl
  | cons x xs ih =>
      intro buf i hle
      rw [List.length_cons] at hle
      rw [writeAt, ih _ (by omega), writeAt_update cs x buf (by omega), writeAt]

/-- The index is inside the buffer and the header fits. -/
structure Marshall.Wf (m : Marshall) : Prop where
  ind_le : m.ind ≤ m.capa
  header_le : headerSz ≤ m.capa
  capa_lt : m.capa < intSize

theorem Marshall.wf_new (junk : ℕ → UInt8) : (Marshall.new junk).Wf :=
  ⟨show headerSz ≤ defaultRpcSz by decide, show headerSz ≤ defaultRpcSz by decide,
    show defaultRpcSz < intSize by decide⟩

/-- `f` appends the bytes `bs`, as long as the message stays below the limit. -/
def Writes (f : Marshall → Option Marshall) (bs : Bytes) : Prop :=
  ∀ m : Marshall, m.Wf → m.ind + bs.length < sizeLimit →
    ∃ m', f m = some m' ∧ m'.Wf ∧ m'.buf = writeAt m.buf m.ind bs ∧ m'.ind = m.ind + bs.length

theorem Writes.nil : Writes (fun m => some m) [] :=
  fun m hm _ => ⟨m, rfl, hm, rfl, rfl⟩

theorem Writes.bind {f g : Marshall → Option Marshall} {bs cs : Bytes} (hf : Writes f bs)
    (hg : Writes g cs) : Writes (fun m => (f m).bind g) (bs ++ cs) := by
  intro m hm hlen
  rw [List.length_append] at hlen
  rcases hf m hm (by omega) with ⟨m₁, hm₁, hwf₁, hbuf₁, hind₁⟩
  rcases hg m₁ hwf₁ (by omega) with ⟨m₂, hm₂, hwf₂, hbuf₂, hind₂⟩
  refine ⟨m₂, ?_, hwf₂, ?_, ?_⟩
  · show (f m).bind g = some m₂
    rw [hm₁, Option.bind_some, hm₂]
  · rw [hbuf₂, hbuf₁, hind₁, writeAt_append]
  · rw [hind₂, hind₁, List.length_append, Nat.add_assoc]

/-- The two ways of growing give enough room without an overflow. -/
theorem writes_store {f : Marshall → Option Marshall} {bs : Bytes} {grow : Marshall → ℕ}
    (hf : ∀ m, f m = m.store (grow m) bs)
    (hgrow : ∀ m : Marshall, m.Wf → m.ind + bs.length < sizeLimit →
      m.ind + bs.length ≤ grow m ∧ m.capa ≤ grow m ∧ grow m < intSize) : Writes f bs := by
  intro m hm hlen
  rcases hgrow m hm hlen with ⟨hroom, hmono, hlt⟩
  refine ⟨_, (hf m).trans (if_pos ⟨hroom, hlt⟩), ?_, rfl, rfl⟩
  exact ⟨hroom, Nat.le_trans hm.header_le hmono, hlt⟩

theorem writes_rawbyte (x : UInt8) : Writes (fun m => m.rawbyte x) [x] := by
  refine writes_store (fun m => rfl) fun m hm hlen => ?_
  rcases hm with ⟨hind, hheader, hcapa⟩
  simp only [List.length_singleton, sizeLimit, headerSz, intSize] at *
  split <;> omega

theorem writes_rawbytes (p : Bytes) : Writes (fun m => m.rawbytes p) p := by
  refine writes_store (fun m => rfl) fun m hm hlen => ?_
  rcases hm with ⟨hind, hheader, hcapa⟩
  simp only [sizeLimit, headerSz, intSize] at *
  split
  · split <;> omega
  · omega

theorem writes_word (x : UInt32) : Writes (fun m => Codec.uint.put m x) (wordBytes x) :=
  (writes_rawbyte _).bind ((writes_rawbyte _).bind ((writes_rawbyte _).bind (writes_rawbyte _)))

/-! ## Reading -/

/-- As far as the buffer goes, it has the bytes `bs` from `i` on. -/
def Buffer.Holds (b : Buffer) (i : ℕ) (bs : Bytes) : Prop :=
  ∀ j x, bs[j]? = some x → i + j < b.sz → b.byte (i + j) = x

theorem Buffer.Holds.left {b : Buffer} {i : ℕ} {bs cs : Bytes} (h : b.Holds i (bs ++ cs)) :
    b.Holds i bs := by
  intro j x hx
  have hj : j < bs.length := (List.getElem?_eq_some_iff.1 hx).1
  exact h j x (by rwa [List.getElem?_append_left hj])

theorem Buffer.Holds.right {b : Buffer} {i : ℕ} {bs cs : Bytes} (h : b.Holds i (bs ++ cs)) :
    b.Holds (i + bs.length) cs := by
  intro j x hx
  rw [Nat.add_assoc]
  refine h (bs.length + j) x ?_
  rw [List.getElem?_append_right (Nat.le_add_right _ _), Nat.add_sub_cancel_left, hx]

/-- Reading has failed, or the index has been moved out of the buffer. -/
def Stuck (b : Buffer) (u : Unmarshall) : Prop :=
  u.ok = false ∨ b.sz < u.ind

/-- The outcome of a read that found the bytes of `v`. -/
structure Got (u : Unmarshall) (n : ℕ) (v : α) (r : Unmarshall × α) : Prop where
  value : r.2 = v
  ind : r.1.ind = u.ind + n
  ok : r.1.ok = true

/-- `get` takes the bytes `bs` for the value `v`, and notices when some of them are missing. -/
structure Takes (get : Buffer → Unmarshall → Unmarshall × α) (v : α) (bs : Bytes) : Prop where
  full : ∀ b u, u.ok = true → b.Holds u.ind bs → u.ind + bs.length ≤ b.sz → b.sz < sizeLimit →
    Got u bs.length v (get b u)
  short : ∀ b u, u.ok = true → b.Holds u.ind bs → u.ind ≤ b.sz → b.sz < u.ind + bs.length →
    b.sz < sizeLimit → bs.length < sizeLimit → Stuck b (get b u).1

/-- It also leaves a stuck stream stuck. -/
structure Reads (get : Buffer → Unmarshall → Unmarshall × α) (v : α) (bs : Bytes) : Prop extends
    Takes get v bs where
  stuck : ∀ b u, Stuck b u → Stuck b (get b u).1

theorem rawbyte_of_lt {b : Buffer} {u : Unmarshall} (h : u.ind < b.sz) :
    u.rawbyte b = ({ u with ind := u.ind + 1, trace := .byte u.ind :: u.trace },
      signExtend (b.byte u.ind)) :=
  if_neg (Nat.not_le_of_lt h)

theorem rawbyte_of_le {b : Buffer} {u : Unmarshall} (h : b.sz ≤ u.ind) :
    u.rawbyte b = ({ u with ok := false }, 0) :=
  if_pos h

theorem ok_rawbyte {b : Buffer} {u : Unmarshall} (h : u.ok = false) :
    (u.rawbyte b).1.ok = false := by
  unfold Unmarshall.rawbyte
  split
  · rfl
  · exact h

/-- On a stuck stream a byte clears `ok()`. -/
theorem ok_rawbyte_of_stuck {b : Buffer} {u : Unmarshall} (h : Stuck b u) :
    (u.rawbyte b).1.ok = false := by
  rcases h with h | h
  · exact ok_rawbyte h
  · rw [rawbyte_of_le (Nat.le_of_lt h)]

theorem reads_rawbyte (x : UInt8) :
    Reads (fun b u => u.rawbyte b) (signExtend x) [x] where
  full b u hok hb hlen _ := by
    have hlt : u.ind < b.sz := hlen
    have hbyte : b.byte u.ind = x := hb 0 x rfl hlt
    exact ⟨by rw [rawbyte_of_lt hlt, hbyte], by rw [rawbyte_of_lt hlt]; rfl,
      by rw [rawbyte_of_lt hlt]; exact hok⟩
  short b u _ _ _ hlen _ _ := by
    have hle : b.sz ≤ u.ind := Nat.le_of_lt_succ hlen
    exact Or.inl (by rw [rawbyte_of_le hle])
  stuck b u h := Or.inl (ok_rawbyte_of_stuck h)

/-- Two reads one after the other. -/
theorem Reads.bind {get : Buffer → Unmarshall → Unmarshall × α}
    {g : α → Buffer → Unmarshall → Unmarshall × β} {v : α} {w : β} {bs cs : Bytes}
    (h : Reads get v bs) (h' : Takes (g v) w cs)
    (hstuck : ∀ b u, Stuck b (get b u).1 → Stuck b (g (get b u).2 b (get b u).1).1) :
    Reads (fun b u => g (get b u).2 b (get b u).1) w (bs ++ cs) where
  full b u hok hb hlen hlim := by
    rw [List.length_append] at hlen ⊢
    have hfirst := h.full b u hok hb.left (by omega) hlim
    have hright := hb.right
    rw [← hfirst.ind] at hright
    have hsecond := h'.full b (get b u).1 hfirst.ok hright (by rw [hfirst.ind]; omega) hlim
    rw [hfirst.value]
    exact ⟨hsecond.value, by rw [hsecond.ind, hfirst.ind, Nat.add_assoc], hsecond.ok⟩
  short b u hok hb hle hlen hlim hbs := by
    rw [List.length_append] at hlen hbs
    -- the buffer ends in the first value or in the second
    by_cases hcut : b.sz < u.ind + bs.length
    · exact hstuck b u (h.short b u hok hb.left hle hcut hlim (by omega))
    · have hfirst := h.full b u hok hb.left (by omega) hlim
      have hright := hb.right
      rw [← hfirst.ind] at hright
      rw [hfirst.value]
      exact h'.short b (get b u).1 hfirst.ok hright (by rw [hfirst.ind]; omega)
        (by rw [hfirst.ind]; omega) hlim (by omega)
  stuck b u hu := hstuck b u (h.stuck b u hu)

/-- What is done with the value afterwards does not move the index. -/
theorem Reads.map {get : Buffer → Unmarshall → Unmarshall × α} {v : α} {bs : Bytes}
    (h : Reads get v bs) (f : α → β) :
    Reads (fun b u => ((get b u).1, f (get b u).2)) (f v) bs where
  full b u hok hb hlen hlim := by
    have hgot := h.full b u hok hb hlen hlim
    exact ⟨by rw [hgot.value], hgot.ind, hgot.ok⟩
  short := h.short
  stuck := h.stuck

/-! ## Bytes of numbers -/

theorem reads_two (f : UInt32 → UInt32 → α) (x y : UInt8) :
    Reads
      (fun b u =>
        let r₁ := u.rawbyte b
        let r₂ := r₁.1.rawbyte b
        (r₂.1, f r₁.2 r₂.2))
      (f (signExtend x) (signExtend y)) [x, y] :=
  Reads.bind (g := fun r b u => ((u.rawbyte b).1, f r (u.rawbyte b).2)) (reads_rawbyte x)
    ((reads_rawbyte y).map (f (signExtend x))).toTakes
    fun b u => ((reads_rawbyte y).map (f (u.rawbyte b).2)).stuck b _

theorem reads_four (f : UInt32 → UInt32 → UInt32 → UInt32 → α) (x₁ x₂ x₃ x₄ : UInt8) :
    Reads
      (fun b u =>
        let r₁ := u.rawbyte b
        let r₂ := r₁.1.rawbyte b
        let r₃ := r₂.1.rawbyte b
        let r₄ := r₃.1.rawbyte b
        (r₄.1, f r₁.2 r₂.2 r₃.2 r₄.2))
      (f (signExtend x₁) (signExtend x₂) (signExtend x₃) (signExtend x₄)) [x₁, x₂, x₃, x₄] := by
  have hlast := fun r₁ r₂ => reads_two (f r₁ r₂) x₃ x₄
  have hnext := fun r₁ =>
    Reads.bind (g := fun r₂ b u =>
        let r₃ := u.rawbyte b
        let r₄ := r₃.1.rawbyte b
        (r₄.1, f r₁ r₂ r₃.2 r₄.2)) (reads_rawbyte x₂) (hlast r₁ (signExtend x₂)).toTakes
      fun b u => (hlast r₁ (u.rawbyte b).2).stuck b _
  exact Reads.bind (g := fun r₁ b u =>
      let r₂ := u.rawbyte b
      let r₃ := r₂.1.rawbyte b
      let r₄ := r₃.1.rawbyte b
      (r₄.1, f r₁ r₂.2 r₃.2 r₄.2)) (reads_rawbyte x₁) (hnext (signExtend x₁)).toTakes
    fun b u => (hnext (u.rawbyte b).2).stuck b _

theorem reads_unsigned (x : UInt32) : Reads (fun b u => u.unsigned b) x (wordBytes x) := by
  have h := reads_four
    (fun r₁ r₂ r₃ r₄ => (r₁ &&& 0xff) <<< 24 ||| (r₂ &&& 0xff) <<< 16 ||| (r₃ &&& 0xff) <<< 8 |||
      (r₄ &&& 0xff))
    (lowByte (x >>> 24)) (lowByte (x >>> 16)) (lowByte (x >>> 8)) (lowByte x)
  -- the mask undoes the sign extension of `rawbyte`
  have hvalue := word_lowByte x
  unfold word at hvalue
  simp only [signExtend_and, hvalue] at h
  exact h

theorem reads_unpack (x : Int32) : Reads (fun b u => u.unpack b) x (wordBytes x.toUInt32) := by
  have h := reads_four
    (fun r₁ r₂ r₃ r₄ =>
      let y := ((r₁ &&& 0xff) <<< 24).toInt32
      let y := (y.toUInt32 ||| (r₂ &&& 0xff) <<< 16).toInt32
      let y := (y.toUInt32 ||| (r₃ &&& 0xff) <<< 8).toInt32
      (y.toUInt32 ||| (r₄ &&& 0xff)).toInt32)
    (lowByte (x.toUInt32 >>> 24)) (lowByte (x.toUInt32 >>> 16)) (lowByte (x.toUInt32 >>> 8))
    (lowByte x.toUInt32)
  -- going through an `int` changes nothing in the bits
  have hvalue := word_lowByte x.toUInt32
  unfold word at hvalue
  simp only [signExtend_and, UInt32.toUInt32_toInt32, hvalue, Int32.toInt32_toUInt32] at h
  exact h

theorem writes_pack (x : Int32) : Writes (fun m => m.pack x) (wordBytes x.toUInt32) := by
  -- an arithmetic shift has the same low byte as a logical one
  have hpack : (fun m : Marshall => m.pack x) = fun m => Codec.uint.put m x.toUInt32 := by
    rcases lowByteInt_shiftRight x with ⟨h24, h16, h8⟩
    funext m
    simp only [Marshall.pack, Codec.uint, h24, h16, h8]
    rfl
  rw [hpack]
  exact writes_word x.toUInt32

/-! ## The operators implement the formats -/

/-- `<<` appends the bytes of a value and `>>` takes them back, whatever the variable held. -/
structure Coded (c : Codec α) (e : α → Bytes) : Prop where
  writes : ∀ v, Writes (fun m => c.put m v) (e v)
  reads : ∀ v old, Reads (fun b u => c.get b u old) v (e v)

/-- A sequence of two values. -/
theorem Coded.pair {c : Codec α} {d : Codec β} {e : α → Bytes} {f : β → Bytes} (hc : Coded c e)
    (hd : Coded d f) : Coded (c.pair d) (pairBytes e f) where
  writes p := (hc.writes p.1).bind (hd.writes p.2)
  reads p old :=
    Reads.bind (g := fun x b u => ((d.get b u old.2).1, (x, (d.get b u old.2).2)))
      (hc.reads p.1 old.1) ((hd.reads p.2 old.2).map fun y => (p.1, y)).toTakes
      fun b u => ((hd.reads p.2 old.2).map fun y => ((c.get b u old.1).2, y)).stuck b _

theorem Coded.struct {c : Codec β} {e : β → Bytes} (hc : Coded c e) {fields : α → β} {make : β → α}
    (hmake : ∀ a, make (fields a) = a) : Coded (c.struct fields make) fun a => e (fields a) where
  writes a := hc.writes (fields a)
  reads a old := by
    have h := (hc.reads (fields a) (fields old)).map make
    rw [hmake] at h
    exact h

theorem coded_bool : Coded .bool fun x => [x.toUInt8] where
  writes x := writes_rawbyte x.toUInt8
  reads x _ := by
    have h := (reads_rawbyte x.toUInt8).map (· != 0)
    -- any byte but 0 is read as `true`; only 0 and 1 are written
    have hvalue : (signExtend x.toUInt8 != 0) = x := by cases x <;> rfl
    rw [hvalue] at h
    exact h

theorem coded_uchar : Coded .uchar fun x => [x] where
  writes := writes_rawbyte
  reads x _ := by
    have h := (reads_rawbyte x).map UInt32.toUInt8
    rw [toUInt8_signExtend] at h
    exact h

theorem coded_char : Coded .char fun x => [x.toUInt8] where
  writes x := writes_rawbyte x.toUInt8
  reads x _ := by
    have h := (reads_rawbyte x.toUInt8).map fun r => r.toUInt8.toInt8
    rw [toUInt8_signExtend, Int8.toInt8_toUInt8] at h
    exact h

theorem writes_half (x : UInt16) : Writes (fun m => Codec.ushort.put m x) (halfBytes x) :=
  (writes_rawbyte _).bind (writes_rawbyte _)

theorem coded_ushort : Coded .ushort halfBytes where
  writes := writes_half
  reads x _ := by
    have h := reads_two
      (fun r₁ r₂ => (((r₁ &&& 0xff) <<< 8).toUInt16.toUInt32 ||| (r₂ &&& 0xff)).toUInt16)
      (lowByte (x.toUInt32 >>> 8)) (lowByte x.toUInt32)
    have hvalue := half_lowByte x
    unfold half at hvalue
    simp only [signExtend_and, hvalue] at h
    exact h

theorem coded_short : Coded .short fun x => halfBytes x.toUInt16 where
  writes x := writes_half x.toUInt16
  reads x _ := by
    have h := reads_two
      (fun r₁ r₂ => (((r₁ &&& 0xff) <<< 8).toUInt16.toInt16.toInt32.toUInt32 |||
        (r₂ &&& 0xff)).toUInt16.toInt16)
      (lowByte (x.toUInt16.toUInt32 >>> 8)) (lowByte x.toUInt16.toUInt32)
    simp only [signExtend_and, half_signed, half_lowByte, Int16.toInt16_toUInt16] at h
    exact h

theorem coded_uint : Coded .uint wordBytes where
  writes := writes_word
  reads x _ := reads_unsigned x

theorem coded_int : Coded .int fun x => wordBytes x.toUInt32 where
  writes x := writes_word x.toUInt32
  reads x _ := reads_unpack x

/-- Two words, the high one first. -/
theorem coded_ulonglong : Coded .ulonglong longBytes where
  writes x := (writes_word (x >>> 32).toUInt32).bind (writes_word x.toUInt32)
  reads x _ := by
    have h := ((coded_uint.pair coded_uint).reads ((x >>> 32).toUInt32, x.toUInt32) (0, 0)).map
      fun p => long p.1 p.2
    rw [long_split] at h
    exact h

/-! ## Strings -/

theorem ind_le_of_ok_rawbyte {b : Buffer} {u : Unmarshall} (h : (u.rawbyte b).1.ok = true) :
    (u.rawbyte b).1.ind ≤ b.sz := by
  by_cases hlt : u.ind < b.sz
  · rw [rawbyte_of_lt hlt]
    exact hlt
  · rw [rawbyte_of_le (Nat.le_of_not_lt hlt)] at h
    cases h

/-- After a word that was read the index is inside the buffer. -/
theorem ok_unsigned_of_stuck {b : Buffer} {u : Unmarshall} (h : Stuck b (u.unsigned b).1) :
    (u.unsigned b).1.ok = false := by
  rcases h with h | h
  · exact h
  · by_contra hok
    have hle : (u.unsigned b).1.ind ≤ b.sz := ind_le_of_ok_rawbyte (Bool.of_not_eq_false hok)
    omega

theorem slice_of_holds {b : Buffer} {i : ℕ} {s : Bytes} (h : b.Holds i s)
    (hlen : i + s.length ≤ b.sz) : b.slice i s.length = s := by
  apply List.ext_getElem
  · simp [Buffer.slice]
  · intro j hj hj'
    have hbyte := h j s[j] (List.getElem?_eq_getElem hj') (by omega)
    simpa [Buffer.slice] using hbyte

theorem toNat_length {n : ℕ} (h : n < sizeLimit) : (UInt32.ofNat n).toNat = n := by
  rw [UInt32.toNat_ofNat']
  simp only [sizeLimit] at h
  omega

theorem mod_size_of_lt {n : ℕ} (h : n < 2 * sizeLimit) : n % UInt32.size = n := by
  simp only [sizeLimit, UInt32.size] at *
  omega

theorem takes_rawbytes (s old : Bytes) :
    Takes (fun b u => if u.ok then u.rawbytes b old (UInt32.ofNat s.length) else (u, old)) s s where
  full b u hok hb hlen hlim := by
    have hn : (UInt32.ofNat s.length).toNat = s.length := toNat_length (by omega)
    have hwrap : ¬ UInt32.size ≤ u.ind + s.length := by
      simp only [sizeLimit, UInt32.size] at *
      omega
    rw [if_pos hok, Unmarshall.rawbytes, hn, mod_size_of_lt (by omega),
      if_neg (Nat.not_lt_of_le hlen), if_neg hwrap]
    exact ⟨slice_of_holds hb hlen, rfl, hok⟩
  short b u hok _ hle hlen hlim hs := by
    have hn : (UInt32.ofNat s.length).toNat = s.length := toNat_length hs
    rw [if_pos hok, Unmarshall.rawbytes, hn, mod_size_of_lt (by omega), if_pos hlen]
    exact Or.inl rfl

theorem coded_string : Coded .string stringBytes where
  writes s := (writes_word _).bind (writes_rawbytes s)
  reads s old := by
    refine Reads.bind (g := fun n b u => if u.ok then u.rawbytes b old n else (u, old))
      (reads_unsigned (UInt32.ofNat s.length)) (takes_rawbytes s old) fun b u h => ?_
    -- the bytes are only looked at after a length that could be read
    have hok : (Codec.uint.get b u 0).1.ok = false := ok_unsigned_of_stuck h
    rw [if_neg (by simp [hok])]
    exact h

/-! ## Vectors and maps -/

theorem length_le_flatMap {e : α → Bytes} (hpos : ∀ v, 0 < (e v).length) (xs : List α) :
    xs.length ≤ (xs.flatMap e).length := by
  induction xs with
  | nil => exact Nat.le_refl _
  | cons x xs ih =>
      have hx := hpos x
      rw [List.flatMap_cons, List.length_append, List.length_cons]
      omega

theorem writes_elems {c : Codec α} {e : α → Bytes} (hc : Coded c e) (xs : List α) :
    Writes (fun m => c.putElems m xs) (xs.flatMap e) := by
  induction xs with
  | nil => exact Writes.nil
  | cons x xs ih => exact (hc.writes x).bind ih

/-- The trace is not looked at by anyone. -/
theorem Reads.trace {get : Buffer → Unmarshall → Unmarshall × α} {v : α} {bs : Bytes}
    (h : Reads get v bs) (f : Unmarshall × α → List Event) :
    Reads (fun b u => ({ (get b u).1 with trace := f (get b u) }, (get b u).2)) v bs where
  full b u hok hb hlen hlim := by
    have hgot := h.full b u hok hb hlen hlim
    exact ⟨hgot.value, hgot.ind, hgot.ok⟩
  short := h.short
  stuck := h.stuck

theorem Reads.nil (v : α) : Reads (fun _ u => (u, v)) v [] where
  full _ _ hok _ _ _ := ⟨rfl, rfl, hok⟩
  short _ _ _ _ hle hlen _ _ := absurd hlen (Nat.not_lt_of_le hle)
  stuck _ _ h := h

theorem stuck_elems {c : Codec α} {e : α → Bytes} (hc : Coded c e) (n : ℕ) :
    ∀ (b : Buffer) (u : Unmarshall) (v : List α), Stuck b u → Stuck b (c.getElems b n u v).1 := by
  induction n with
  | zero => exact fun b u v h => h
  | succ n ih => exact fun b u v h => ih b _ _ ((hc.reads c.dflt c.dflt).stuck b u h)

theorem reads_elems {c : Codec α} {e : α → Bytes} (hc : Coded c e) (xs : List α) :
    ∀ v, Reads (fun b u => c.getElems b xs.length u v) (v ++ xs) (xs.flatMap e) := by
  induction xs with
  | nil =>
      intro v
      rw [List.append_nil]
      exact Reads.nil v
  | cons x xs ih =>
      intro v
      have hrest := ih (v ++ [x])
      rw [List.append_assoc, List.singleton_append] at hrest
      exact Reads.bind (g := fun y b u => c.getElems b xs.length u (v ++ [y]))
        (hc.reads x c.dflt) hrest.toTakes fun b u => stuck_elems hc xs.length b _ _

/-- A count and as many elements. -/
theorem reads_counted {g : ℕ → Buffer → Unmarshall → Unmarshall × α} {n : ℕ} {v : α} {bs : Bytes}
    (hn : n ≤ bs.length) (h : Reads (g n) v bs)
    (hstuck : ∀ k b u, Stuck b u → Stuck b (g k b u).1) :
    Reads (fun b u => g (u.unsigned b).2.toNat b (u.unsigned b).1) v
      (wordBytes (UInt32.ofNat n) ++ bs) := by
  refine Reads.bind (g := fun k b u => g k.toNat b u) (reads_unsigned (UInt32.ofNat n)) ?_
    fun b u => hstuck _ b _
  -- `n ≤ bs.length`, so a count that is cut off to 32 bits belongs to too many bytes
  by_cases hlt : bs.length < sizeLimit
  · rw [toNat_length (Nat.lt_of_le_of_lt hn hlt)]
    exact h.toTakes
  · refine ⟨fun b u _ _ hlen hlim => ?_, fun b u _ _ _ _ _ hbs => absurd hbs hlt⟩
    omega

theorem Coded.vector {c : Codec α} {e : α → Bytes} (hc : Coded c e)
    (hpos : ∀ v, 0 < (e v).length) : Coded c.vector (listBytes e) where
  writes v := (writes_word _).bind (writes_elems hc v)
  reads v old := by
    have helems := reads_counted (g := fun n b u => c.getElems b n u [])
      (length_le_flatMap hpos v) (reads_elems hc v []) fun n b u => stuck_elems hc n b u []
    exact helems.trace fun r => .vector r.2.length :: r.1.trace

theorem stuck_entries [LinearOrder α] {c : Codec α} {d : Codec β} {e : α × β → Bytes}
    (hcd : Coded (c.pair d) e) (n : ℕ) :
    ∀ (b : Buffer) (u : Unmarshall) (m : OrderedMap α β), Stuck b u →
      Stuck b (c.getEntries d b n u m).1 := by
  induction n with
  | zero => exact fun b u m h => h
  | succ n ih =>
      exact fun b u m h => ih b _ _ ((hcd.reads (c.dflt, d.dflt) (c.dflt, d.dflt)).stuck b u h)

/-- Entries that arrive in the order of their keys are appended. -/
theorem reads_entries [LinearOrder α] {c : Codec α} {d : Codec β} {e : α × β → Bytes}
    (hcd : Coded (c.pair d) e) (es : List (α × β)) :
    ∀ m m' : OrderedMap α β, m'.entries = m.entries ++ es →
      Reads (fun b u => c.getEntries d b es.length u m) m' (es.flatMap e) := by
  induction es with
  | nil =>
      intro m m' h
      have hm : m = m' := OrderedMap.ext (by simpa using h.symm)
      rw [hm]
      exact Reads.nil m'
  | cons p es ih =>
      intro m m' h
      -- the key of `p` is above all keys in `m`, so `insert` puts it last
      have hbefore : ∀ q ∈ m.entries, q.1 < p.1 := by
        have hsorted := m'.sorted
        rw [h, List.pairwise_append] at hsorted
        exact fun q hq => hsorted.2.2 q hq p List.mem_cons_self
      have hinsert : (m.insert p.1 p.2).entries = m.entries ++ [p] := insertEntry_last p.2 hbefore
      have hrest := ih (m.insert p.1 p.2) m' (by rw [h, hinsert]; simp)
      exact Reads.bind (g := fun q b u => c.getEntries d b es.length u (m.insert q.1 q.2))
        (hcd.reads p (c.dflt, d.dflt)) hrest.toTakes fun b u => stuck_entries hcd es.length b _ _

theorem Coded.map [LinearOrder α] {c : Codec α} {d : Codec β} {e : α → Bytes} {f : β → Bytes}
    (hc : Coded c e) (hd : Coded d f) (hpos : ∀ v, 0 < (e v).length) :
    Coded (c.map d) fun m => listBytes (pairBytes e f) m.entries where
  writes m := (writes_word _).bind (writes_elems (hc.pair hd) m.entries)
  reads m old := by
    have hpos' : ∀ p, 0 < (pairBytes e f p).length := fun p => by
      have := hpos p.1
      rw [pairBytes, List.length_append]
      omega
    have hentries := reads_counted (g := fun n b u => c.getEntries d b n u OrderedMap.empty)
      (length_le_flatMap hpos' m.entries)
      (reads_entries (hc.pair hd) m.entries OrderedMap.empty m rfl)
      fun n b u => stuck_entries (hc.pair hd) n b u OrderedMap.empty
    exact hentries.trace fun r => .map r.2.size :: r.1.trace

/-- The operators of every type implement its format. -/
theorem Format.coded {c : Codec α} {e : α → Bytes} (h : Format α c e) : Coded c e := by
  have hpropT : Coded .propT propTBytes := (coded_uint.pair coded_string).struct fun _ => rfl
  have hviewstamp : Coded .viewstamp viewstampBytes :=
    (coded_uint.pair coded_uint).struct fun _ => rfl
  induction h with
  | bool => exact coded_bool
  | uchar => exact coded_uchar
  | char => exact coded_char
  | ushort => exact coded_ushort
  | short => exact coded_short
  | uint => exact coded_uint
  | int => exact coded_int
  | ulonglong => exact coded_ulonglong
  | string => exact coded_string
  | vector hc ihc => exact ihc.vector hc.length_pos
  | map hc hd ihc ihd => exact ihc.map ihd hc.length_pos
  | propT => exact hpropT
  | prepareArg => exact (coded_uint.pair hpropT).struct fun _ => rfl
  | prepareRes =>
      exact (coded_bool.pair (coded_bool.pair (hpropT.pair coded_string))).struct fun _ => rfl
  | acceptArg => exact (coded_uint.pair (hpropT.pair coded_string)).struct fun _ => rfl
  | decideArg => exact (coded_uint.pair coded_string).struct fun _ => rfl
  | viewstamp => exact hviewstamp
  | transferRes => exact (coded_string.pair hviewstamp).struct fun _ => rfl
  | joinRes => exact coded_string.struct fun _ => rfl

/-! ## Strings as buffers

The contents of a `marshall` travel as a string and are put in a buffer again. -/

theorem str_writeAt {m : Marshall} {buf : ℕ → UInt8} {bs : Bytes}
    (hbuf : m.buf = writeAt buf headerSz bs) (hind : m.ind = headerSz + bs.length) :
    m.str = bs := by
  apply List.ext_getElem
  · simp [Marshall.str, hind]
  · intro j hj hj'
    have hbyte := writeAt_getElem? bs buf headerSz (List.getElem?_eq_getElem hj')
    simpa [Marshall.str, hbuf] using hbyte

/-- What `str()` returns after a value has been marshalled. -/
theorem Coded.put_new {c : Codec α} {e : α → Bytes} (hc : Coded c e) (junk : ℕ → UInt8) (v : α)
    (hsize : headerSz + (e v).length < sizeLimit) :
    ∃ m, c.put (Marshall.new junk) v = some m ∧ m.str = e v := by
  rcases hc.writes v (Marshall.new junk) (Marshall.wf_new junk) hsize with ⟨m, hm, -, hbuf, hind⟩
  exact ⟨m, hm, str_writeAt hbuf hind⟩

theorem holds_content (junk : ℕ → UInt8) (s : Bytes) :
    (Unmarshall.contentBuffer junk s).Holds headerSz s :=
  fun _ _ hx _ => writeAt_getElem? s junk headerSz hx

theorem sz_content (junk : ℕ → UInt8) (s : Bytes) :
    (Unmarshall.contentBuffer junk s).sz = headerSz + s.length :=
  Nat.add_comm _ _

theorem Got.okdone {b : Buffer} {u : Unmarshall} {n : ℕ} {v : α} {r : Unmarshall × α}
    (h : Got u n v r) : r.1.okdone b = true ↔ u.ind + n = b.sz := by
  simp [Unmarshall.okdone, h.ok, h.ind]

/-- A value is taken from the front of a string. -/
theorem Coded.get_content {c : Codec α} {e : α → Bytes} (hc : Coded c e) (junk : ℕ → UInt8)
    (v old : α) (rest : Bytes) (hsize : headerSz + (e v ++ rest).length < sizeLimit) :
    Got Unmarshall.startContent (e v).length v
      (c.get (Unmarshall.contentBuffer junk (e v ++ rest)) Unmarshall.startContent old) := by
  have hsz := sz_content junk (e v ++ rest)
  refine (hc.reads v old).full _ _ rfl (holds_content junk _).left ?_ (hsz ▸ hsize)
  rw [hsz, List.length_append]
  exact Nat.add_le_add_left (Nat.le_add_right _ _) _

/-! ## Messages -/

/-- A sequence of values, each of a type that can be marshalled, as a value of a product. -/
inductive Sequence : (α : Type) → Codec α → (α → Bytes) → Prop where
  | nil : Sequence Unit .unit fun _ => []
  | cons {α β : Type} {c : Codec α} {d : Codec β} {e : α → Bytes} {f : β → Bytes} :
      Format α c e → Sequence β d f → Sequence (α × β) (c.pair d) (pairBytes e f)

theorem Sequence.coded {c : Codec α} {e : α → Bytes} (h : Sequence α c e) : Coded c e := by
  induction h with
  | nil => exact ⟨fun _ => Writes.nil, fun _ _ => Reads.nil ()⟩
  | cons hc _ ih => exact hc.coded.pair ih

inductive Header
  | req (h : ReqHeader)
  | reply (h : ReplyHeader)
  deriving DecidableEq, Repr

/-- Which of the two headers a reader expects. -/
inductive HeaderKind
  | req
  | reply
  deriving DecidableEq, Repr

namespace Header

def kind : Header → HeaderKind
  | req _ => .req
  | reply _ => .reply

def pack (m : Marshall) : Header → Option Marshall
  | req h => m.packReqHeader h
  | reply h => m.packReplyHeader h

def unpack (b : Buffer) (u : Unmarshall) : HeaderKind → Unmarshall × Header
  | .req => ((u.unpackReqHeader b).1, req (u.unpackReqHeader b).2)
  | .reply => ((u.unpackReplyHeader b).1, reply (u.unpackReplyHeader b).2)

end Header

/-- A message: the header is packed before or after the body. -/
def marshal (junk : ℕ → UInt8) (h : Header) (first : Bool) (c : Codec α) (v : α) :
    Option Marshall :=
  if first then
    (h.pack (Marshall.new junk)).bind fun m => c.put m v
  else
    (c.put (Marshall.new junk) v).bind fun m => h.pack m

/-- Take a message apart into variables that hold `old`. -/
def unmarshal (b : Buffer) (kind : HeaderKind) (c : Codec α) (old : α) : Unmarshall × Header × α :=
  let r := Header.unpack b Unmarshall.start kind
  let r' := c.get b r.1 old
  (r'.1, r.2, r'.2)

/-- The buffer has the bytes that were marshalled, as far as it goes.  The size of the PDU, which
the connection fills in, may differ. -/
def Buffer.Agrees (b : Buffer) (buf : ℕ → UInt8) : Prop :=
  ∀ i, rpcSzSize ≤ i → i < b.sz → b.byte i = buf i

/-- The words of a header in the order in which they are packed. -/
def Header.words : Header → List UInt32
  | .req h =>
      [h.xid.toUInt32, h.proc.toUInt32, h.cltNonce, h.srvNonce, h.xidRep.toUInt32]
  | .reply h => [h.xid.toUInt32, h.ret.toUInt32]

def Header.bytes (h : Header) : Bytes :=
  h.words.flatMap wordBytes

theorem Header.length_bytes (h : Header) : rpcSzSize + h.bytes.length ≤ headerSz := by
  cases h <;> simp [Header.bytes, Header.words, rpcSzSize, headerSz]

theorem Header.writes (h : Header) :
    ∃ f, Writes f h.bytes ∧ ∀ m, h.pack m = m.inHeader f := by
  cases h with
  | req h =>
      -- the nonces are packed through a cast to `int`
      have hclt := writes_pack h.cltNonce.toInt32
      have hsrv := writes_pack h.srvNonce.toInt32
      rw [UInt32.toUInt32_toInt32] at hclt hsrv
      exact ⟨_, (writes_pack h.xid).bind ((writes_pack h.proc).bind
        (hclt.bind (hsrv.bind (writes_pack h.xidRep)))), fun m => rfl⟩
  | reply h =>
      exact ⟨_, (writes_pack h.xid).bind (writes_pack h.ret), fun m => rfl⟩

/-- A header goes to its place behind the size, wherever the index stands. -/
theorem Header.pack_spec (h : Header) {m : Marshall} (hm : m.Wf) :
    ∃ m', h.pack m = some m' ∧ m'.buf = writeAt m.buf rpcSzSize h.bytes ∧ m'.ind = m.ind ∧
      headerSz ≤ m'.capa ∧ m'.capa < intSize := by
  rcases h.writes with ⟨f, hf, hpack⟩
  have hlen := h.length_bytes
  have hwf : Marshall.Wf { m with ind := rpcSzSize } :=
    ⟨Nat.le_trans (show rpcSzSize ≤ headerSz by decide) hm.header_le, hm.header_le, hm.capa_lt⟩
  -- the header fits in the 24 bytes that are always there, so the buffer does not grow
  rcases hf _ hwf (Nat.lt_of_le_of_lt hlen (by decide)) with ⟨m', hm', hwf', hbuf, _⟩
  refine ⟨{ m' with ind := m.ind }, ?_, hbuf, rfl, hwf'.header_le, hwf'.capa_lt⟩
  rw [hpack, Marshall.inHeader, hm']
  rfl

/-- The index is behind the header also when the buffer is shorter. -/
theorem Header.ind_unpack (b : Buffer) (u : Unmarshall) (k : HeaderKind) :
    (Header.unpack b u k).1.ind = headerSz := by
  cases k <;> rfl

theorem Header.unpack_spec (h : Header) {b : Buffer} {u : Unmarshall} (hok : u.ok = true)
    (hb : b.Holds rpcSzSize h.bytes) (hsz : headerSz ≤ b.sz) (hlim : b.sz < sizeLimit) :
    (Header.unpack b u h.kind).2 = h ∧ (Header.unpack b u h.kind).1.ok = true := by
  have hlen := h.length_bytes
  cases h with
  | req h =>
      have hwords := coded_int.pair (coded_int.pair (coded_int.pair (coded_int.pair coded_int)))
      have hgot := (hwords.reads
        (h.xid, h.proc, h.cltNonce.toInt32, h.srvNonce.toInt32, h.xidRep) (0, 0, 0, 0, 0)).full b
        { u with ind := rpcSzSize } hok hb (Nat.le_trans hlen hsz) hlim
      refine ⟨?_, hgot.ok⟩
      exact congrArg (fun p => Header.req ⟨p.1, p.2.1, p.2.2.1.toUInt32, p.2.2.2.1.toUInt32,
        p.2.2.2.2⟩) hgot.value
  | reply h =>
      have hgot := ((coded_int.pair coded_int).reads (h.xid, h.ret) (0, 0)).full b
        { u with ind := rpcSzSize } hok hb (Nat.le_trans hlen hsz) hlim
      refine ⟨?_, hgot.ok⟩
      exact congrArg (fun p => Header.reply ⟨p.1, p.2⟩) hgot.value

theorem Buffer.Agrees.holds {b : Buffer} {buf : ℕ → UInt8} {i : ℕ} {bs : Bytes}
    (h : b.Agrees (writeAt buf i bs)) (hi : rpcSzSize ≤ i) : b.Holds i bs := by
  intro j x hx hlt
  rw [h (i + j) (Nat.le_trans hi (Nat.le_add_right i j)) hlt, writeAt_getElem? bs buf i hx]

/-- Where the pieces of a message end up, in whichever order they were written. -/
theorem marshal_spec {c : Codec α} {e : α → Bytes} (hc : Coded c e) (junk : ℕ → UInt8) (h : Header)
    (first : Bool) (v : α) (hsize : headerSz + (e v).length < sizeLimit) :
    ∃ m, marshal junk h first c v = some m ∧ m.ind = headerSz + (e v).length ∧
      ∀ b : Buffer, b.Agrees m.buf → b.Holds rpcSzSize h.bytes ∧ b.Holds headerSz (e v) := by
  have hnew := Marshall.wf_new junk
  have hlen := h.length_bytes
  cases first with
  | true =>
      rcases h.pack_spec hnew with ⟨m₁, hm₁, hbuf₁, hind₁, hheader, hcapa⟩
      have hwf₁ : m₁.Wf := ⟨hind₁ ▸ hheader, hheader, hcapa⟩
      rcases hc.writes v m₁ hwf₁ (by rw [hind₁]; exact hsize) with ⟨m₂, hm₂, _, hbuf₂, hind₂⟩
      refine ⟨m₂, ?_, by rw [hind₂, hind₁]; rfl, fun b hb => ?_⟩
      · rw [marshal, if_pos rfl, hm₁, Option.bind_some]
        exact hm₂
      · have hind : m₁.ind = headerSz := hind₁
        rw [hbuf₂, hbuf₁, hind] at hb
        refine ⟨?_, hb.holds (by decide)⟩
        -- look at the header as if it had been written last
        rw [writeAt_comm _ _ hlen] at hb
        exact hb.holds (Nat.le_refl _)
  | false =>
      rcases hc.writes v (Marshall.new junk) hnew hsize with ⟨m₁, hm₁, hwf₁, hbuf₁, hind₁⟩
      have hput : c.put (Marshall.new junk) v = some m₁ := hm₁
      rcases h.pack_spec hwf₁ with ⟨m₂, hm₂, hbuf₂, hind₂, _⟩
      refine ⟨m₂, ?_, by rw [hind₂, hind₁]; rfl, fun b hb => ?_⟩
      · rw [marshal, if_neg (by decide), hput, Option.bind_some, hm₂]
      · have hind : (Marshall.new junk).ind = headerSz := rfl
        rw [hbuf₂, hbuf₁, hind] at hb
        refine ⟨hb.holds (Nat.le_refl _), ?_⟩
        rw [← writeAt_comm _ _ hlen] at hb
        exact hb.holds (by decide)

/-- Nobody finds the end of a message on a stuck stream. -/
theorem okdone_of_stuck {b : Buffer} {u : Unmarshall} (h : Stuck b u) : u.okdone b = false := by
  rcases h with h | h
  · simp [Unmarshall.okdone, h]
  · simp [Unmarshall.okdone, Nat.ne_of_gt h]

/-- Every message comes back as it was sent: the header and the values, whichever was written
first, and the reader ends with `okdone()`.  From a buffer that was cut off anywhere it ends
without. -/
theorem marshalling_round_trip {c : Codec α} {e : α → Bytes} (hc : Sequence α c e)
    (junk : ℕ → UInt8) (h : Header) (first : Bool) (v : α)
    (hsize : headerSz + (e v).length < sizeLimit) :
    ∃ m, marshal junk h first c v = some m ∧ m.ind = headerSz + (e v).length ∧
      (∀ (b : Buffer) (old : α), b.sz = m.ind → b.Agrees m.buf →
        (unmarshal b h.kind c old).2 = (h, v) ∧
          (unmarshal b h.kind c old).1.okdone b = true) ∧
      (∀ (b : Buffer) (old : α), b.sz < m.ind → b.Agrees m.buf →
        (unmarshal b h.kind c old).1.okdone b = false) := by
  rcases marshal_spec hc.coded junk h first v hsize with ⟨m, hm, hind, hholds⟩
  refine ⟨m, hm, hind, fun b old hsz hb => ?_, fun b old hsz hb => ?_⟩
  · rcases hholds b hb with ⟨hheader, hbody⟩
    rw [hind] at hsz
    rcases h.unpack_spec (u := .start) rfl hheader (by omega) (by omega) with ⟨hvalue, hok⟩
    have hat := Header.ind_unpack b .start h.kind
    have hgot := (hc.coded.reads v old).full b _ hok (hat ▸ hbody) (by omega) (by omega)
    exact ⟨Prod.ext hvalue hgot.value, hgot.okdone.2 (by rw [hat, hsz])⟩
  · apply okdone_of_stuck
    have hat := Header.ind_unpack b .start h.kind
    rcases hholds b hb with ⟨hheader, hbody⟩
    rw [hind] at hsz
    by_cases hcut : b.sz < headerSz
    · -- the header was skipped, so the index is already outside
      exact (hc.coded.reads v old).stuck b _ (Or.inr (hat ▸ hcut))
    · rcases h.unpack_spec (u := .start) rfl hheader (by omega) (by omega) with ⟨-, hok⟩
      exact (hc.coded.reads v old).short b _ hok (hat ▸ hbody) (by omega) (by omega) (by omega)
        (by omega)

/-- A `short`, a `vector<string>` and an `unsigned long long`, with the header packed last. -/
theorem marshalling_round_trip_reply :
    ∃ m, marshal (fun _ => 0xa5) (.reply ⟨7, -1⟩) false
        (Codec.short.pair (Codec.string.vector.pair (Codec.ulonglong.pair .unit)))
        (-2, [[0xff, 0x41], []], 0x8000000000000001, ()) = some m ∧ m.ind = 48 ∧
      (∀ (b : Buffer) (old : Int16 × List Bytes × UInt64 × Unit), b.sz = m.ind →
        b.Agrees m.buf →
        (unmarshal b .reply
            (Codec.short.pair (Codec.string.vector.pair (Codec.ulonglong.pair .unit))) old).2 =
          (.reply ⟨7, -1⟩, -2, [[0xff, 0x41], []], 0x8000000000000001, ()) ∧
        (unmarshal b .reply
            (Codec.short.pair (Codec.string.vector.pair (Codec.ulonglong.pair .unit)))
            old).1.okdone b = true) ∧
      (∀ (b : Buffer) (old : Int16 × List Bytes × UInt64 × Unit), b.sz < m.ind →
        b.Agrees m.buf →
        (unmarshal b .reply
            (Codec.short.pair (Codec.string.vector.pair (Codec.ulonglong.pair .unit)))
            old).1.okdone b = false) :=
  marshalling_round_trip (.cons .short (.cons (.vector .string) (.cons .ulonglong .nil)))
    (fun _ => 0xa5) (.reply ⟨7, -1⟩) false (-2, [[0xff, 0x41], []], 0x8000000000000001, ())
    (by decide)

end Wire
end Rpc
end Yfs

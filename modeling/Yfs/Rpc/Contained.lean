import Mathlib.Logic.Function.Iterate
import Yfs.Rpc.Format

/-!
# Contained — decoding bytes that nobody has marshalled

A server takes apart whatever arrives.  `Op` is one operation on an `unmarshall`: one of the two
headers, or `>>` of any type.  A sequence of them is looked at through the trace: which bytes were
read, and how large the strings, vectors and maps became (`InBounds`).

Two things leave the buffer.  `rawbytes` adds the length of a string to the index in `unsigned`, so
a large length wraps around and passes the check; and a vector gets as many elements as its count
says, whether they are there or not.  Both are matters of four bytes of the buffer, and `Sound`
says of these what they have to be: it walks over the buffer along the `Layout` of the types, with
no decoder in it.  `decoding_contained` says that decoding stays inside exactly if the lengths on
its way are sound.
-/

namespace Yfs
namespace Rpc
namespace Wire

open Lib

variable {α β : Type}

/-! ## Layouts -/

/-- What `>>` of a type takes from a buffer. -/
inductive Layout
  | byte
  | string
  | vector (elem : Layout)
  | map (entry : Layout)
  | seq (first second : Layout)
  deriving DecidableEq, Repr

def Layout.word : Layout :=
  .seq .byte (.seq .byte (.seq .byte .byte))

/-- The layout of the types that can be marshalled. -/
inductive Laid : {α : Type} → Codec α → Layout → Prop where
  | bool : Laid .bool .byte
  | uchar : Laid .uchar .byte
  | char : Laid .char .byte
  | ushort : Laid .ushort (.seq .byte .byte)
  | short : Laid .short (.seq .byte .byte)
  | uint : Laid .uint .word
  | int : Laid .int .word
  | ulonglong : Laid .ulonglong (.seq .word .word)
  | string : Laid .string .string
  | vector {α : Type} {c : Codec α} {l : Layout} : Laid c l → Laid c.vector (.vector l)
  | map {α β : Type} [LinearOrder α] {c : Codec α} {d : Codec β} {l l' : Layout} :
      Laid c l → Laid d l' → Laid (c.map d) (.map (.seq l l'))
  | pair {α β : Type} {c : Codec α} {d : Codec β} {l l' : Layout} :
      Laid c l → Laid d l' → Laid (c.pair d) (.seq l l')
  | struct {α β : Type} {c : Codec β} {l : Layout} (fields : α → β) (make : β → α) :
      Laid c l → Laid (c.struct fields make) l

theorem Format.laid {c : Codec α} {e : α → Bytes} (h : Format α c e) : ∃ l, Laid c l := by
  have hpropT : Laid Codec.propT (.seq .word .string) := .struct _ _ (.pair .uint .string)
  have hviewstamp : Laid Codec.viewstamp (.seq .word .word) := .struct _ _ (.pair .uint .uint)
  induction h with
  | bool => exact ⟨_, .bool⟩
  | uchar => exact ⟨_, .uchar⟩
  | char => exact ⟨_, .char⟩
  | ushort => exact ⟨_, .ushort⟩
  | short => exact ⟨_, .short⟩
  | uint => exact ⟨_, .uint⟩
  | int => exact ⟨_, .int⟩
  | ulonglong => exact ⟨_, .ulonglong⟩
  | string => exact ⟨_, .string⟩
  | vector _ ih => exact ih.imp' _ fun _ => .vector
  | map _ _ ihc ihd =>
      rcases ihc with ⟨l, hl⟩
      rcases ihd with ⟨l', hl'⟩
      exact ⟨_, .map hl hl'⟩
  | propT => exact ⟨_, hpropT⟩
  | prepareArg => exact ⟨_, .struct _ _ (.pair .uint hpropT)⟩
  | prepareRes => exact ⟨_, .struct _ _ (.pair .bool (.pair .bool (.pair hpropT .string)))⟩
  | acceptArg => exact ⟨_, .struct _ _ (.pair .uint (.pair hpropT .string))⟩
  | decideArg => exact ⟨_, .struct _ _ (.pair .uint .string)⟩
  | viewstamp => exact ⟨_, hviewstamp⟩
  | transferRes => exact ⟨_, .struct _ _ (.pair .string hviewstamp)⟩
  | joinRes => exact ⟨_, .struct _ _ .string⟩

/-! ## Walking over the buffer -/

/-- The byte at `i`; behind the end there are zeros. -/
def Buffer.padded (b : Buffer) (i : ℕ) : UInt32 :=
  if i < b.sz then (b.byte i).toUInt32 else 0

/-- The number that the four bytes at `i` stand for. -/
def Buffer.word (b : Buffer) (i : ℕ) : UInt32 :=
  b.padded i <<< 24 ||| b.padded (i + 1) <<< 16 ||| b.padded (i + 2) <<< 8 ||| b.padded (i + 3)

/-- `_ind` and `_ok`. -/
structure Cursor where
  ind : ℕ
  ok : Bool
  deriving DecidableEq, Repr

namespace Cursor

def byte (b : Buffer) (p : Cursor) : Cursor :=
  if b.sz ≤ p.ind then { p with ok := false } else { p with ind := p.ind + 1 }

def word (b : Buffer) (p : Cursor) : Cursor :=
  (((p.byte b).byte b).byte b).byte b

/-- A string is skipped if it is all there. -/
def string (b : Buffer) (p : Cursor) : Cursor :=
  let q := p.word b
  let stop := q.ind + (b.word p.ind).toNat
  if q.ok = true ∧ stop ≤ b.sz ∧ stop < UInt32.size then { q with ind := stop }
  else { q with ok := false }

end Cursor

namespace Layout

/-- Where a value that starts at the cursor ends. -/
def skip (b : Buffer) : Layout → Cursor → Cursor
  | .byte, p => p.byte b
  | .string, p => p.string b
  | .vector l, p => (l.skip b)^[(b.word p.ind).toNat] (p.word b)
  | .map l, p => (l.skip b)^[(b.word p.ind).toNat] (p.word b)
  | .seq l l', p => l'.skip b (l.skip b p)

/-- The lengths in a value that starts at the cursor do no harm.  That of a string, which counts as
long as all went well, may be too large for the buffer but not so large that the end of the string
wraps around; a vector may have at most as many elements as the buffer has bytes. -/
def Sound (b : Buffer) : Layout → Cursor → Prop
  | .byte, _ => True
  | .string, p =>
      p.ok = true → p.ind + 4 ≤ b.sz → p.ind + 4 + (b.word p.ind).toNat < UInt32.size
  | .vector l, p =>
      (b.word p.ind).toNat ≤ b.sz ∧
        ∀ k < (b.word p.ind).toNat, l.Sound b ((l.skip b)^[k] (p.word b))
  | .map l, p => ∀ k < (b.word p.ind).toNat, l.Sound b ((l.skip b)^[k] (p.word b))
  | .seq l l', p => l.Sound b p ∧ l'.Sound b (l.skip b p)

end Layout

/-- The cursor stays in the buffer, or out of it. -/
structure Within (b : Buffer) (p q : Cursor) : Prop where
  stays : b.sz ≤ p.ind → q.ind = p.ind
  moves : p.ind ≤ b.sz → p.ind ≤ q.ind ∧ q.ind ≤ b.sz
  ok : q.ok = true → p.ok = true

theorem Within.refl (b : Buffer) (p : Cursor) : Within b p p :=
  ⟨fun _ => rfl, fun h => ⟨Nat.le_refl _, h⟩, id⟩

theorem Within.fail (b : Buffer) (p : Cursor) : Within b p { p with ok := false } :=
  ⟨fun _ => rfl, fun h => ⟨Nat.le_refl _, h⟩, fun h => nomatch h⟩

theorem Within.trans {b : Buffer} {p q r : Cursor} (h : Within b p q) (h' : Within b q r) :
    Within b p r where
  stays hle := (h'.stays (by rw [h.stays hle]; exact hle)).trans (h.stays hle)
  moves hle := by
    rcases h.moves hle with ⟨hmono, hin⟩
    rcases h'.moves hin with ⟨hmono', hin'⟩
    exact ⟨Nat.le_trans hmono hmono', hin'⟩
  ok hok := h.ok (h'.ok hok)

theorem Within.iterate {b : Buffer} {f : Cursor → Cursor} (h : ∀ p, Within b p (f p)) (n : ℕ) :
    ∀ p, Within b p (f^[n] p) := by
  induction n with
  | zero => exact Within.refl b
  | succ n ih => exact fun p => (h p).trans (ih (f p))

/-- At least one byte is taken; at the end of the buffer that fails. -/
structure Taken (b : Buffer) (p q : Cursor) : Prop extends Within b p q where
  strict : p.ind < b.sz → p.ind < q.ind
  ended : b.sz ≤ p.ind → q.ok = false

theorem Taken.then {b : Buffer} {p q r : Cursor} (h : Taken b p q) (h' : Within b q r) :
    Taken b p r where
  toWithin := h.toWithin.trans h'
  strict hlt :=
    Nat.lt_of_lt_of_le (h.strict hlt) (h'.moves (h.moves (Nat.le_of_lt hlt)).2).1
  ended hle := by
    by_contra hok
    rw [Bool.not_eq_false] at hok
    have hfirst := h'.ok hok
    rw [h.ended hle] at hfirst
    cases hfirst

theorem Cursor.taken_byte (b : Buffer) (p : Cursor) : Taken b p (p.byte b) := by
  unfold Cursor.byte
  split
  · rename_i hle
    exact ⟨Within.fail b p, fun hlt => absurd hle (Nat.not_le_of_lt hlt), fun _ => rfl⟩
  · rename_i hlt
    exact ⟨⟨fun hle => absurd hle hlt, fun _ => ⟨Nat.le_succ _, Nat.lt_of_not_le hlt⟩, id⟩,
      fun _ => Nat.lt_succ_self _, fun hle => absurd hle hlt⟩

theorem Cursor.taken_word (b : Buffer) (p : Cursor) : Taken b p (p.word b) :=
  (((taken_byte b _).then (taken_byte b _).toWithin).then (taken_byte b _).toWithin).then
    (taken_byte b _).toWithin

theorem Cursor.taken_string (b : Buffer) (p : Cursor) : Taken b p (p.string b) := by
  refine (taken_word b p).then ?_
  simp only [Cursor.string]
  split
  · rename_i h
    rcases h with ⟨-, hstop, -⟩
    refine ⟨fun hle => ?_, fun _ => ⟨Nat.le_add_right _ _, hstop⟩, id⟩
    show (p.word b).ind + (b.word p.ind).toNat = (p.word b).ind
    omega
  · exact Within.fail b _

theorem Layout.taken (b : Buffer) (l : Layout) : ∀ p, Taken b p (l.skip b p) := by
  induction l with
  | byte => exact Cursor.taken_byte b
  | string => exact Cursor.taken_string b
  | vector l ih | map l ih =>
      exact fun p => (Cursor.taken_word b p).then (Within.iterate (fun q => (ih q).toWithin) _ _)
  | seq l l' ih ih' => exact fun p => (ih p).then (ih' _).toWithin

/-- Four bytes are read with success if they are there. -/
theorem Cursor.word_ok (b : Buffer) (p : Cursor) :
    (p.word b).ok = true ↔ p.ok = true ∧ p.ind + 4 ≤ b.sz := by
  simp only [Cursor.word, Cursor.byte]
  grind

theorem Cursor.word_ind {b : Buffer} {p : Cursor} (h : p.ind + 4 ≤ b.sz) :
    (p.word b).ind = p.ind + 4 := by
  simp only [Cursor.word, Cursor.byte]
  grind

/-! ## Decoding along a layout -/

/-- What the operators did lies in the buffer. -/
def Fits (b : Buffer) : Event → Prop
  | .byte i => i < b.sz
  | .string i n => i + n ≤ b.sz
  | .overrun _ _ => False
  | .vector n => n ≤ b.sz
  | .map n => n ≤ b.sz

def Clean (b : Buffer) (u : Unmarshall) : Prop :=
  ∀ ev ∈ u.trace, Fits b ev

theorem clean_event {b : Buffer} {u u' : Unmarshall} {ev : Event} (h : u'.trace = ev :: u.trace) :
    Clean b u' ↔ Clean b u ∧ Fits b ev := by
  rw [Clean, h, List.forall_mem_cons]
  exact and_comm

def Unmarshall.cursor (u : Unmarshall) : Cursor :=
  ⟨u.ind, u.ok⟩

/-- `get` walks along the layout `l`, and what it does fits if the lengths there are sound.  At the
end of the buffer it returns `z`. -/
structure Decodes (get : Buffer → Unmarshall → Unmarshall × α) (l : Layout) (z : α) : Prop where
  cursor : ∀ b u, (get b u).1.cursor = l.skip b u.cursor
  clean : ∀ b u, Clean b (get b u).1 ↔ Clean b u ∧ l.Sound b u.cursor
  ended : ∀ b u, b.sz ≤ u.ind → (get b u).2 = z

theorem decodes_rawbyte : Decodes (fun b u => u.rawbyte b) .byte 0 where
  cursor b u := by
    by_cases hlt : u.ind < b.sz
    · rw [rawbyte_of_lt hlt]
      exact (if_neg (Nat.not_le_of_lt hlt)).symm
    · rw [rawbyte_of_le (Nat.le_of_not_lt hlt)]
      exact (if_pos (Nat.le_of_not_lt hlt)).symm
  clean b u := by
    by_cases hlt : u.ind < b.sz
    · rw [rawbyte_of_lt hlt]
      refine (clean_event rfl).trans (and_congr_right fun _ => ?_)
      exact iff_of_true hlt trivial
    · rw [rawbyte_of_le (Nat.le_of_not_lt hlt)]
      exact (and_iff_left trivial).symm
  ended b u h := by rw [rawbyte_of_le h]

/-- At the end of the buffer nothing moves. -/
theorem Decodes.ind_ended {get : Buffer → Unmarshall → Unmarshall × α} {l : Layout} {z : α}
    (h : Decodes get l z) {b : Buffer} {u : Unmarshall} (hle : b.sz ≤ u.ind) :
    (get b u).1.ind = u.ind := by
  have hind := congrArg Cursor.ind (h.cursor b u)
  exact hind.trans ((l.taken b u.cursor).stays hle)

theorem Decodes.seq {get : Buffer → Unmarshall → Unmarshall × α}
    {g : α → Buffer → Unmarshall → Unmarshall × β} {l l' : Layout} {z : α} {w : α → β}
    (h : Decodes get l z) (h' : ∀ a, Decodes (g a) l' (w a)) :
    Decodes (fun b u => g (get b u).2 b (get b u).1) (.seq l l') (w z) where
  cursor b u := by rw [(h' _).cursor, h.cursor, Layout.skip]
  clean b u := by rw [(h' _).clean, h.clean, h.cursor, Layout.Sound, and_assoc]
  ended b u hle := by
    rw [(h' _).ended b _ (by rw [h.ind_ended hle]; exact hle), h.ended b u hle]

theorem Decodes.map {get : Buffer → Unmarshall → Unmarshall × α} {l : Layout} {z : α}
    (h : Decodes get l z) (f : α → β) :
    Decodes (fun b u => ((get b u).1, f (get b u).2)) l (f z) where
  cursor := h.cursor
  clean := h.clean
  ended b u hle := by rw [h.ended b u hle]

theorem decodes_two (f : UInt32 → UInt32 → α) :
    Decodes
      (fun b u =>
        let r₁ := u.rawbyte b
        let r₂ := r₁.1.rawbyte b
        (r₂.1, f r₁.2 r₂.2))
      (.seq .byte .byte) (f 0 0) :=
  decodes_rawbyte.seq (g := fun r b u => ((u.rawbyte b).1, f r (u.rawbyte b).2))
    (w := fun r => f r 0) fun r => decodes_rawbyte.map (f r)

theorem decodes_four (f : UInt32 → UInt32 → UInt32 → UInt32 → α) :
    Decodes
      (fun b u =>
        let r₁ := u.rawbyte b
        let r₂ := r₁.1.rawbyte b
        let r₃ := r₂.1.rawbyte b
        let r₄ := r₃.1.rawbyte b
        (r₄.1, f r₁.2 r₂.2 r₃.2 r₄.2))
      .word (f 0 0 0 0) := by
  refine decodes_rawbyte.seq (g := fun r₁ b u =>
      let r₂ := u.rawbyte b
      let r₃ := r₂.1.rawbyte b
      let r₄ := r₃.1.rawbyte b
      (r₄.1, f r₁ r₂.2 r₃.2 r₄.2)) (w := fun r₁ => f r₁ 0 0 0) fun r₁ => ?_
  exact decodes_rawbyte.seq (g := fun r₂ b u =>
      let r₃ := u.rawbyte b
      let r₄ := r₃.1.rawbyte b
      (r₄.1, f r₁ r₂ r₃.2 r₄.2)) (w := fun r₂ => f r₁ r₂ 0 0) fun r₂ => decodes_two (f r₁ r₂)

theorem decodes_unsigned : Decodes (fun b u => u.unsigned b) .word 0 :=
  decodes_four fun r₁ r₂ r₃ r₄ =>
    (r₁ &&& 0xff) <<< 24 ||| (r₂ &&& 0xff) <<< 16 ||| (r₃ &&& 0xff) <<< 8 ||| (r₄ &&& 0xff)

theorem decodes_unpack : Decodes (fun b u => u.unpack b) .word 0 :=
  decodes_four fun r₁ r₂ r₃ r₄ =>
    let x := ((r₁ &&& 0xff) <<< 24).toInt32
    let x := (x.toUInt32 ||| (r₂ &&& 0xff) <<< 16).toInt32
    let x := (x.toUInt32 ||| (r₃ &&& 0xff) <<< 8).toInt32
    (x.toUInt32 ||| (r₄ &&& 0xff)).toInt32

theorem cursor_unsigned (b : Buffer) (u : Unmarshall) :
    (u.unsigned b).1.cursor = u.cursor.word b :=
  decodes_unsigned.cursor b u

theorem clean_unsigned (b : Buffer) (u : Unmarshall) : Clean b (u.unsigned b).1 ↔ Clean b u := by
  rw [decodes_unsigned.clean b u]
  exact and_iff_left ⟨trivial, trivial, trivial, trivial⟩

/-- After a length that was all there. -/
theorem unsigned_of_ok {b : Buffer} {u : Unmarshall} (h : (u.unsigned b).1.ok = true) :
    u.ok = true ∧ u.ind + 4 ≤ b.sz ∧ (u.unsigned b).1.ind = u.ind + 4 := by
  have hcursor := cursor_unsigned b u
  have hok : (u.cursor.word b).ok = true := hcursor ▸ h
  rcases (Cursor.word_ok b u.cursor).1 hok with ⟨hstart, hlen⟩
  exact ⟨hstart, hlen, (congrArg Cursor.ind hcursor).trans (Cursor.word_ind hlen)⟩

/-! ### The value of a word -/

theorem rawbyte_and (b : Buffer) (u : Unmarshall) :
    (u.rawbyte b).2 &&& 0xff = b.padded u.ind := by
  by_cases hlt : u.ind < b.sz
  · rw [rawbyte_of_lt hlt, Buffer.padded, if_pos hlt, signExtend_and]
  · rw [rawbyte_of_le (Nat.le_of_not_lt hlt), Buffer.padded, if_neg hlt]
    exact UInt32.zero_and

/-- A read at the end of the buffer does not move on, but there are only zeros anyway. -/
theorem padded_rawbyte (b : Buffer) (u : Unmarshall) (k : ℕ) :
    b.padded ((u.rawbyte b).1.ind + k) = b.padded (u.ind + 1 + k) := by
  by_cases hlt : u.ind < b.sz
  · rw [rawbyte_of_lt hlt]
  · rw [rawbyte_of_le (Nat.le_of_not_lt hlt)]
    simp only [Buffer.padded]
    rw [if_neg (by omega), if_neg (by omega)]

theorem unsigned_value (b : Buffer) (u : Unmarshall) : (u.unsigned b).2 = b.word u.ind := by
  have hnext : ∀ v : Unmarshall, b.padded (v.rawbyte b).1.ind = b.padded (v.ind + 1) :=
    fun v => padded_rawbyte b v 0
  simp only [Unmarshall.unsigned, rawbyte_and, hnext, padded_rawbyte, Buffer.word, Nat.add_assoc,
    Nat.reduceAdd]

/-! ## The operators -/

theorem Decodes.pair {c : Codec α} {d : Codec β} {old : α × β} {l l' : Layout} {z : α} {w : β}
    (hc : Decodes (fun b u => c.get b u old.1) l z)
    (hd : Decodes (fun b u => d.get b u old.2) l' w) :
    Decodes (fun b u => (c.pair d).get b u old) (.seq l l') (z, w) :=
  hc.seq (g := fun x b u => ((d.get b u old.2).1, (x, (d.get b u old.2).2)))
    (w := fun x => (x, w)) fun x => hd.map fun y => (x, y)

/-- `rawbytes` goes on if the string is all there, and leaves the buffer if its end wraps around. -/
theorem rawbytes_spec {b : Buffer} {u : Unmarshall} (hok : u.ok = true) (hle : u.ind ≤ b.sz)
    (ss : Bytes) (n : UInt32) :
    ((u.rawbytes b ss n).1.cursor =
      if u.ind + n.toNat ≤ b.sz ∧ u.ind + n.toNat < UInt32.size then ⟨u.ind + n.toNat, true⟩
      else ⟨u.ind, false⟩) ∧
    (Clean b (u.rawbytes b ss n).1 ↔ Clean b u ∧ u.ind + n.toNat < UInt32.size) := by
  have hn := n.toNat_lt_size
  unfold Unmarshall.rawbytes
  by_cases hwrap : UInt32.size ≤ u.ind + n.toNat
  · -- the sum comes out too small for the check to notice
    have hmod : (u.ind + n.toNat) % UInt32.size ≤ b.sz := by
      by_cases hind : u.ind < UInt32.size
      · rw [Nat.mod_eq_sub_mod hwrap, Nat.mod_eq_of_lt (by omega)]
        omega
      · exact Nat.le_trans (Nat.le_of_lt (Nat.mod_lt _ (by decide))) (by omega)
    rw [if_neg (Nat.not_lt_of_le hmod), if_pos hwrap, if_neg (by omega)]
    refine ⟨rfl, (clean_event rfl).trans (and_congr_right fun _ => ?_)⟩
    exact iff_of_false id (Nat.not_lt_of_le hwrap)
  · rw [Nat.mod_eq_of_lt (Nat.lt_of_not_le hwrap)]
    by_cases hlong : b.sz < u.ind + n.toNat
    · rw [if_pos hlong, if_neg (by omega)]
      exact ⟨rfl, (and_iff_left (Nat.lt_of_not_le hwrap)).symm⟩
    · rw [if_neg hlong, if_neg hwrap, if_pos (by omega)]
      refine ⟨congrArg (Cursor.mk _) hok, (clean_event rfl).trans (and_congr_right fun _ => ?_)⟩
      exact iff_of_true (Nat.le_of_not_lt hlong) (Nat.lt_of_not_le hwrap)

theorem decodes_string (old : Bytes) :
    Decodes (fun b u => Codec.string.get b u old) .string old := by
  have hget : ∀ b u, Codec.string.get b u old =
      if (u.unsigned b).1.ok = true then (u.unsigned b).1.rawbytes b old (b.word u.ind)
      else ((u.unsigned b).1, old) := fun b u => by
    rw [← unsigned_value b u]
    rfl
  have hok : ∀ b (u : Unmarshall), (u.unsigned b).1.ok = (u.cursor.word b).ok :=
    fun b u => congrArg Cursor.ok (cursor_unsigned b u)
  refine ⟨fun b u => ?_, fun b u => ?_, fun b u hle => ?_⟩
  · rw [hget, Layout.skip, Cursor.string]
    by_cases h : (u.unsigned b).1.ok = true
    · rcases unsigned_of_ok h with ⟨-, hlen, hind⟩
      rw [if_pos h, (rawbytes_spec h (hind.trans_le hlen) old _).1, ← cursor_unsigned]
      simp only [Unmarshall.cursor, h, true_and]
    · rw [if_neg h]
      show (u.unsigned b).1.cursor = _
      rw [hok] at h
      rw [if_neg (fun hc => h hc.1), cursor_unsigned, ← Bool.eq_false_of_not_eq_true h]
  · rw [hget, Layout.Sound]
    by_cases h : (u.unsigned b).1.ok = true
    · rcases unsigned_of_ok h with ⟨hstart, hlen, hind⟩
      rw [if_pos h, (rawbytes_spec h (hind.trans_le hlen) old _).2, hind, clean_unsigned]
      exact and_congr_right fun _ => ⟨fun hlt _ _ => hlt, fun hlt => hlt hstart hlen⟩
    · rw [if_neg h]
      show Clean b (u.unsigned b).1 ↔ _
      rw [clean_unsigned, and_iff_left]
      intro hok' hlen
      exact absurd ((hok b u).trans ((Cursor.word_ok b u.cursor).2 ⟨hok', hlen⟩)) h
  · rw [hget, if_neg]
    rw [hok, (Cursor.taken_word b u.cursor).ended hle]
    decide

/-- The rounds of a loop walk over one element after the other. -/
theorem cursor_elems {c : Codec α} {l : Layout} {z : α}
    (hc : Decodes (fun b u => c.get b u c.dflt) l z) (b : Buffer) (n : ℕ) :
    ∀ u v, (c.getElems b n u v).1.cursor = (l.skip b)^[n] u.cursor := by
  induction n with
  | zero => exact fun u v => rfl
  | succ n ih =>
      intro u v
      rw [Codec.getElems, ih, hc.cursor, Function.iterate_succ_apply]

theorem clean_elems {c : Codec α} {l : Layout} {z : α}
    (hc : Decodes (fun b u => c.get b u c.dflt) l z) (b : Buffer) (n : ℕ) :
    ∀ u v, Clean b (c.getElems b n u v).1 ↔
      Clean b u ∧ ∀ k < n, l.Sound b ((l.skip b)^[k] u.cursor) := by
  induction n with
  | zero => exact fun u v => (and_iff_left fun k hk => absurd hk (Nat.not_lt_zero k)).symm
  | succ n ih =>
      intro u v
      rw [Codec.getElems, ih, hc.clean, hc.cursor, Nat.forall_lt_succ_left, and_assoc]
      simp only [Function.iterate_succ_apply, Function.iterate_zero_apply]

theorem length_elems (c : Codec α) (b : Buffer) (n : ℕ) :
    ∀ u v, (c.getElems b n u v).2.length = v.length + n := by
  induction n with
  | zero => exact fun u v => rfl
  | succ n ih =>
      intro u v
      rw [Codec.getElems, ih, List.length_append, List.length_singleton]
      omega

theorem word_ended {b : Buffer} {u : Unmarshall} (hle : b.sz ≤ u.ind) : b.word u.ind = 0 := by
  rw [← unsigned_value]
  exact decodes_unsigned.ended b u hle

theorem decodes_vector {c : Codec α} {l : Layout} {z : α}
    (hc : Decodes (fun b u => c.get b u c.dflt) l z) (old : List α) :
    Decodes (fun b u => c.vector.get b u old) (.vector l) [] := by
  have hget : ∀ b u, c.vector.get b u old =
      let r := c.getElems b (b.word u.ind).toNat (u.unsigned b).1 []
      ({ r.1 with trace := .vector r.2.length :: r.1.trace }, r.2) := fun b u => by
    rw [← unsigned_value b u]
    rfl
  refine ⟨fun b u => ?_, fun b u => ?_, fun b u hle => ?_⟩
  · rw [hget, Layout.skip, ← cursor_unsigned]
    exact cursor_elems hc b _ _ []
  · rw [hget]
    refine (clean_event rfl).trans ?_
    rw [clean_elems hc, clean_unsigned, cursor_unsigned, length_elems, Layout.Sound, and_assoc]
    refine and_congr_right fun _ => ?_
    rw [and_comm, List.length_nil, Nat.zero_add]
    rfl
  · rw [hget, word_ended hle]
    rfl

/-! ### Maps -/

/-- The loop over the entries of a map reads as the one over a vector of pairs does. -/
theorem getEntries_fst [LinearOrder α] (c : Codec α) (d : Codec β) (n : ℕ) :
    ∀ b u m v, (c.getEntries d b n u m).1 = ((c.pair d).getElems b n u v).1 := by
  induction n with
  | zero => exact fun b u m v => rfl
  | succ n ih => exact fun b u m v => ih b _ _ _

/-- At the end of the buffer every round gives the same key. -/
theorem size_entries_ended [LinearOrder α] {c : Codec α} {d : Codec β} {l : Layout} {z : α × β}
    (h : Decodes (fun b u => (c.pair d).get b u (c.dflt, d.dflt)) l z) (n : ℕ) :
    ∀ (b : Buffer) (u : Unmarshall) (m : OrderedMap α β), b.sz ≤ u.ind → z.1 ∈ m.keys →
      (c.getEntries d b n u m).2.size = m.size := by
  induction n with
  | zero => exact fun b u m _ _ => rfl
  | succ n ih =>
      intro b u m hle hmem
      have hind : b.sz ≤ ((c.pair d).get b u (c.dflt, d.dflt)).1.ind := by
        rw [h.ind_ended hle]
        exact hle
      rw [Codec.getEntries, h.ended b u hle, ih b _ _ hind (m.mem_keys_insert z.1 z.2),
        OrderedMap.size_insert_of_mem z.2 hmem]

/-- Every entry has taken a byte, but for the one that is made at the end of the buffer. -/
theorem size_entries_le [LinearOrder α] {c : Codec α} {d : Codec β} {l : Layout} {z : α × β}
    (h : Decodes (fun b u => (c.pair d).get b u (c.dflt, d.dflt)) l z) (n : ℕ) :
    ∀ (b : Buffer) (u : Unmarshall) (m : OrderedMap α β), u.ind ≤ b.sz →
      (c.getEntries d b n u m).2.size ≤ m.size + (b.sz - u.ind) + 1 := by
  induction n with
  | zero =>
      intro b u m _
      show m.size ≤ m.size + (b.sz - u.ind) + 1
      omega
  | succ n ih =>
      intro b u m hle
      have hinsert := m.size_insert_le ((c.pair d).get b u (c.dflt, d.dflt)).2.1
        ((c.pair d).get b u (c.dflt, d.dflt)).2.2
      have hind := congrArg Cursor.ind (h.cursor b u)
      rcases Nat.lt_or_eq_of_le hle with hlt | heq
      · -- there is something to read: the entry is paid for
        have hstrict := (l.taken b u.cursor).strict hlt
        have hmoves := (l.taken b u.cursor).moves hle
        rw [← hind] at hstrict hmoves
        have hbound := ih b _ (m.insert ((c.pair d).get b u (c.dflt, d.dflt)).2.1
          ((c.pair d).get b u (c.dflt, d.dflt)).2.2) hmoves.2
        simp only [Unmarshall.cursor] at hstrict
        rw [Codec.getEntries]
        omega
      · -- the buffer is used up: this round may add an entry, the later ones only overwrite it
        have hle' : b.sz ≤ ((c.pair d).get b u (c.dflt, d.dflt)).1.ind := by
          rw [h.ind_ended heq.ge]
          exact heq.ge
        rw [h.ended b u heq.ge] at hinsert
        rw [Codec.getEntries, h.ended b u heq.ge,
          size_entries_ended h n b _ _ hle' (m.mem_keys_insert z.1 z.2)]
        omega

/-- A map has no more entries than the buffer has bytes: the count itself takes a byte, which makes
up for the entry at the end of the buffer. -/
theorem size_map_le [LinearOrder α] {c : Codec α} {d : Codec β} {l : Layout} {z : α × β}
    (h : Decodes (fun b u => (c.pair d).get b u (c.dflt, d.dflt)) l z) (b : Buffer)
    (u : Unmarshall) :
    (c.getEntries d b (b.word u.ind).toNat (u.unsigned b).1 OrderedMap.empty).2.size ≤ b.sz := by
  by_cases hlt : u.ind < b.sz
  · have hword := Cursor.taken_word b u.cursor
    have hstrict := hword.strict hlt
    have hmoves := hword.moves (Nat.le_of_lt hlt)
    rw [← cursor_unsigned] at hstrict hmoves
    have hbound := size_entries_le h (b.word u.ind).toNat b _ OrderedMap.empty hmoves.2
    have hempty : (OrderedMap.empty : OrderedMap α β).size = 0 := rfl
    simp only [Unmarshall.cursor] at hstrict
    omega
  · -- no count was there, so no entry is made
    rw [word_ended (Nat.le_of_not_lt hlt)]
    exact Nat.zero_le _

theorem decodes_map [LinearOrder α] {c : Codec α} {d : Codec β} {l : Layout} {z : α × β}
    (h : Decodes (fun b u => (c.pair d).get b u (c.dflt, d.dflt)) l z) (old : OrderedMap α β) :
    Decodes (fun b u => (c.map d).get b u old) (.map l) OrderedMap.empty := by
  have hget : ∀ b u, (c.map d).get b u old =
      let r := c.getEntries d b (b.word u.ind).toNat (u.unsigned b).1 OrderedMap.empty
      ({ r.1 with trace := .map r.2.size :: r.1.trace }, r.2) := fun b u => by
    rw [← unsigned_value b u]
    rfl
  refine ⟨fun b u => ?_, fun b u => ?_, fun b u hle => ?_⟩
  · rw [hget, Layout.skip, ← cursor_unsigned, ← cursor_elems h b _ _ [],
      ← getEntries_fst c d _ b _ OrderedMap.empty]
    rfl
  · rw [hget]
    refine (clean_event rfl).trans ((and_iff_left (size_map_le h b u)).trans ?_)
    rw [getEntries_fst c d _ b _ _ [], clean_elems h, clean_unsigned, cursor_unsigned]
    rfl
  · rw [hget, word_ended hle]
    rfl

/-- `>>` of a type walks along its layout, whatever the variable held. -/
theorem Laid.decodes {c : Codec α} {l : Layout} (h : Laid c l) :
    ∀ old, ∃ z, Decodes (fun b u => c.get b u old) l z := by
  induction h with
  | bool => exact fun _ => ⟨_, decodes_rawbyte.map (· != 0)⟩
  | uchar => exact fun _ => ⟨_, decodes_rawbyte.map UInt32.toUInt8⟩
  | char => exact fun _ => ⟨_, decodes_rawbyte.map fun r => r.toUInt8.toInt8⟩
  | ushort =>
      exact fun _ => ⟨_, decodes_two fun r₁ r₂ =>
        (((r₁ &&& 0xff) <<< 8).toUInt16.toUInt32 ||| (r₂ &&& 0xff)).toUInt16⟩
  | short =>
      exact fun _ => ⟨_, decodes_two fun r₁ r₂ =>
        (((r₁ &&& 0xff) <<< 8).toUInt16.toInt16.toInt32.toUInt32 |||
          (r₂ &&& 0xff)).toUInt16.toInt16⟩
  | uint => exact fun _ => ⟨0, decodes_unsigned⟩
  | int => exact fun _ => ⟨0, decodes_unpack⟩
  | ulonglong =>
      intro _
      have hpair : Decodes (fun b u => (Codec.uint.pair Codec.uint).get b u (0, 0)) _ _ :=
        Decodes.pair decodes_unsigned decodes_unsigned
      exact ⟨_, hpair.map fun p => long p.1 p.2⟩
  | string => exact fun old => ⟨old, decodes_string old⟩
  | vector _ ih =>
      rcases ih _ with ⟨z, hz⟩
      exact fun old => ⟨[], decodes_vector hz old⟩
  | map _ _ ihc ihd =>
      rcases ihc _ with ⟨z, hz⟩
      rcases ihd _ with ⟨w, hw⟩
      exact fun old => ⟨OrderedMap.empty, decodes_map (Decodes.pair hz hw) old⟩
  | pair _ _ ihc ihd =>
      intro old
      rcases ihc old.1 with ⟨z, hz⟩
      rcases ihd old.2 with ⟨w, hw⟩
      exact ⟨(z, w), hz.pair hw⟩
  | struct fields make _ ih =>
      intro old
      rcases ih (fields old) with ⟨z, hz⟩
      exact ⟨make z, hz.map make⟩

/-! ## Operations -/

/-- `take_in`: the buffer of another `unmarshall`, with the header left out. -/
def Unmarshall.takeIn (b : Buffer) : Unmarshall where
  ind := headerSz
  ok := decide (headerSz ≤ b.sz)
  trace := []

/-- The states in which an `unmarshall` is made. -/
inductive Fresh (b : Buffer) : Unmarshall → Prop where
  | pdu : Fresh b Unmarshall.start
  | content : Fresh b Unmarshall.startContent
  | takeIn : Fresh b (Unmarshall.takeIn b)

/-- An operation, with the old value of the variable that is read. -/
inductive Op : Type 1 where
  | header (kind : HeaderKind)
  | get {α : Type} {c : Codec α} {l : Layout} (h : Laid c l) (old : α)

namespace Op

def exec (b : Buffer) (u : Unmarshall) : Op → Unmarshall
  | .header kind => (Header.unpack b u kind).1
  | @Op.get _ c _ _ old => (c.get b u old).1

/-- A header has no lengths. -/
def Sound (b : Buffer) (p : Cursor) : Op → Prop
  | .header _ => True
  | @Op.get _ _ l _ _ => l.Sound b p

/-- The words of a header, which is read from behind the size of the PDU. -/
def headerLayout : HeaderKind → Layout
  | .req => .seq .word (.seq .word (.seq .word (.seq .word .word)))
  | .reply => .seq .word .word

def skip (b : Buffer) (p : Cursor) : Op → Cursor
  | .header kind => { (headerLayout kind).skip b { p with ind := rpcSzSize } with ind := headerSz }
  | @Op.get _ _ l _ _ => l.skip b p

end Op

def execOps (b : Buffer) (u : Unmarshall) (ops : List Op) : Unmarshall :=
  ops.foldl (Op.exec b) u

/-- The lengths that the operations come to are sound. -/
def SoundOps (b : Buffer) : Cursor → List Op → Prop
  | _, [] => True
  | p, op :: ops => op.Sound b p ∧ SoundOps b (op.skip b p) ops

/-- A header is a sequence of words. -/
theorem Op.header_spec {c : Codec α} {l : Layout} (h : Laid c l) (old : α) (b : Buffer)
    (u : Unmarshall) :
    let u' := { (c.get b { u with ind := rpcSzSize } old).1 with ind := headerSz }
    u'.cursor = { l.skip b { u.cursor with ind := rpcSzSize } with ind := headerSz } ∧
      (Clean b u' ↔ Clean b u ∧ l.Sound b { u.cursor with ind := rpcSzSize }) := by
  rcases h.decodes old with ⟨z, hz⟩
  refine ⟨?_, hz.clean b { u with ind := rpcSzSize }⟩
  exact congrArg (fun p : Cursor => { p with ind := headerSz })
    (hz.cursor b { u with ind := rpcSzSize })

theorem Op.exec_spec (b : Buffer) (u : Unmarshall) (op : Op) :
    (op.exec b u).cursor = op.skip b u.cursor ∧
      (Clean b (op.exec b u) ↔ Clean b u ∧ op.Sound b u.cursor) := by
  cases op with
  | header kind =>
      cases kind with
      | req =>
          have h := header_spec (.pair .int (.pair .int (.pair .int (.pair .int .int))))
            (0, 0, 0, 0, 0) b u
          refine ⟨h.1, h.2.trans (and_congr_right fun _ => ?_)⟩
          exact iff_of_true (by simp [Layout.word, Layout.Sound]) trivial
      | reply =>
          have h := header_spec (.pair .int .int) (0, 0) b u
          refine ⟨h.1, h.2.trans (and_congr_right fun _ => ?_)⟩
          exact iff_of_true (by simp [Layout.word, Layout.Sound]) trivial
  | get h old =>
      rcases h.decodes old with ⟨z, hz⟩
      exact ⟨hz.cursor b u, hz.clean b u⟩

theorem clean_run (b : Buffer) (ops : List Op) :
    ∀ u, Clean b (execOps b u ops) ↔ Clean b u ∧ SoundOps b u.cursor ops := by
  induction ops with
  | nil => exact fun u => (and_iff_left trivial).symm
  | cons op ops ih =>
      intro u
      rw [execOps, List.foldl_cons, ← execOps, ih, (op.exec_spec b u).1, (op.exec_spec b u).2,
        SoundOps, and_assoc]

/-- Only a header takes the index out of the buffer. -/
def Placed (b : Buffer) (u : Unmarshall) : Prop :=
  u.ind ≤ b.sz ∨ u.ind = headerSz

theorem Fresh.placed {b : Buffer} {u : Unmarshall} (h : Fresh b u) : Placed b u := by
  cases h with
  | pdu => exact Or.inl (Nat.zero_le _)
  | content | takeIn => exact Or.inr rfl

theorem Placed.exec {b : Buffer} {u : Unmarshall} (h : Placed b u) (op : Op) :
    Placed b (op.exec b u) := by
  have hind := congrArg Cursor.ind (op.exec_spec b u).1
  unfold Placed
  cases op with
  | header kind => exact Or.inr hind
  | @get _ _ l _ _ =>
      have htaken := (l.taken b u.cursor).toWithin
      by_cases hle : u.ind ≤ b.sz
      · exact Or.inl (Nat.le_trans (Nat.le_of_eq hind) (htaken.moves hle).2)
      · -- outside nothing moves
        exact Or.inr ((hind.trans (htaken.stays (Nat.le_of_not_le hle))).trans
          (h.resolve_left hle))

theorem Placed.run {b : Buffer} (ops : List Op) :
    ∀ {u : Unmarshall}, Placed b u → Placed b (execOps b u ops) := by
  induction ops with
  | nil => exact id
  | cons op ops ih => exact fun h => ih (h.exec op)

/-- Everything that was done lies in the buffer, and the index is outside only behind a header that
is not all there, where `okdone()` is false. -/
structure InBounds (b : Buffer) (u : Unmarshall) : Prop where
  byte : ∀ i, .byte i ∈ u.trace → i < b.sz
  string : ∀ i n, .string i n ∈ u.trace → i + n ≤ b.sz
  overrun : ∀ i n, .overrun i n ∉ u.trace
  vector : ∀ n, .vector n ∈ u.trace → n ≤ b.sz
  map : ∀ n, .map n ∈ u.trace → n ≤ b.sz
  ind : b.sz < u.ind → u.ind = headerSz ∧ u.okdone b = false

theorem Placed.inBounds_iff {b : Buffer} {u : Unmarshall} (h : Placed b u) :
    InBounds b u ↔ Clean b u := by
  refine ⟨fun hin ev hev => ?_, fun hclean => ?_⟩
  · cases ev with
    | byte i => exact hin.byte i hev
    | string i n => exact hin.string i n hev
    | overrun i n => exact hin.overrun i n hev
    | vector n => exact hin.vector n hev
    | map n => exact hin.map n hev
  · exact ⟨fun i => hclean _, fun i n => hclean _, fun i n => hclean _, fun n => hclean _,
      fun n => hclean _, fun hlt =>
        ⟨h.resolve_left (Nat.not_le_of_lt hlt), okdone_of_stuck (Or.inr hlt)⟩⟩

/-- Whatever the bytes are and whatever is asked for: every byte is read from the buffer, every
string, vector and map has at most as many elements as the buffer has bytes and the index stays in
the buffer or behind the header, exactly if no length that the operations come to wraps around and
no count of a vector is larger than the buffer. -/
theorem decoding_contained {b : Buffer} {u₀ : Unmarshall} (hfresh : Fresh b u₀) (ops : List Op) :
    InBounds b (execOps b u₀ ops) ↔ SoundOps b u₀.cursor ops := by
  rw [(hfresh.placed.run ops).inBounds_iff, clean_run]
  refine and_iff_right fun ev hev => ?_
  cases hfresh <;> exact nomatch hev

/-- A buffer of `bs`. -/
def bufferOf (bs : Bytes) : Buffer where
  byte i := bs.getD i 0
  sz := bs.length

/-- A string, and then a header that is not all there. -/
def shortOps : List Op :=
  [.get .string [], .header .reply]

theorem decoding_contained_shortOps :
    InBounds (bufferOf [0, 0, 0, 2, 0x61, 0x62])
      (execOps (bufferOf [0, 0, 0, 2, 0x61, 0x62]) Unmarshall.start shortOps) := by
  refine (decoding_contained .pdu shortOps).2 ⟨fun _ _ => ?_, trivial, trivial⟩
  decide +kernel

/-- The check of a length can wrap around, and the count of a vector is not checked at all. -/
theorem decoding_escapes :
    (∃ b, b.sz ≤ maxPdu ∧
      .overrun 4 4294967292 ∈ (execOps b Unmarshall.start [.get .string []]).trace) ∧
    ∃ b, b.sz ≤ maxPdu ∧ b.sz < 200 ∧
      .vector 200 ∈ (execOps b Unmarshall.start [.get (.vector .char) []]).trace := by
  refine ⟨⟨bufferOf [0xff, 0xff, 0xff, 0xfc], by decide, ?_⟩,
    ⟨bufferOf [0, 0, 0, 200], by decide, by decide, ?_⟩⟩
  · -- the index 4 and the length add up to 0
    decide +kernel
  · decide +kernel

end Wire
end Rpc
end Yfs

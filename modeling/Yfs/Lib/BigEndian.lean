import Mathlib.Data.UInt
import Mathlib.Data.Nat.Bitwise

/-!
# BigEndian — words and their bytes, most significant byte first

`lowByte (x >>> k)` is how a byte is cut out of a word and `word`, `half` and `long` put bytes
together again, with the conversions that C makes on the way: a byte that is read through a
signed `char` comes sign-extended and is masked, and a `short` is widened to `int` for every `|`.
The round trips are `word_lowByte`, `half_lowByte` and `long_split`.
-/

namespace Yfs
namespace Lib

/-- `x & 0xff`, as a byte. -/
def lowByte (x : UInt32) : UInt8 :=
  (x &&& 0xff).toUInt8

/-- A signed `char` converted to `unsigned int`. -/
def signExtend (b : UInt8) : UInt32 :=
  b.toInt8.toInt32.toUInt32

theorem signExtend_and (b : UInt8) : signExtend b &&& 0xff = b.toUInt32 := by
  rcases b with ⟨v⟩
  revert v
  decide +kernel

theorem toUInt8_signExtend (b : UInt8) : (signExtend b).toUInt8 = b := by
  rcases b with ⟨v⟩
  revert v
  decide +kernel

/-- `x & 0xff` of a signed word. -/
def lowByteInt (x : Int32) : UInt8 :=
  (x &&& 0xff).toUInt32.toUInt8

/-- The bits that an arithmetic shift fills in lie above the byte. -/
theorem sshiftRight_and (x : BitVec 32) {k : ℕ} (hk : k ≤ 24) :
    x.sshiftRight k &&& 255#32 = x >>> k &&& 255#32 := by
  have hmask : ∀ j, j < 32 → (255#32).getLsbD j = decide (j < 8) := by decide
  apply BitVec.eq_of_getLsbD_eq
  intro i hi
  rw [BitVec.getLsbD_and, BitVec.getLsbD_and, hmask i hi, BitVec.getLsbD_sshiftRight,
    BitVec.getLsbD_ushiftRight]
  by_cases h8 : i < 8
  · have hlt : k + i < 32 := by omega
    simp [h8, hlt, hi]
  · simp [h8]

theorem lowByteInt_shiftRight (x : Int32) :
    lowByteInt (x >>> 24) = lowByte (x.toUInt32 >>> 24) ∧
      lowByteInt (x >>> 16) = lowByte (x.toUInt32 >>> 16) ∧
      lowByteInt (x >>> 8) = lowByte (x.toUInt32 >>> 8) := by
  have h24 : (x >>> 24 &&& 0xff).toUInt32 = x.toUInt32 >>> 24 &&& 0xff :=
    UInt32.toBitVec_inj.1 (sshiftRight_and x.toBitVec (by decide : 24 ≤ 24))
  have h16 : (x >>> 16 &&& 0xff).toUInt32 = x.toUInt32 >>> 16 &&& 0xff :=
    UInt32.toBitVec_inj.1 (sshiftRight_and x.toBitVec (by decide : 16 ≤ 24))
  have h8 : (x >>> 8 &&& 0xff).toUInt32 = x.toUInt32 >>> 8 &&& 0xff :=
    UInt32.toBitVec_inj.1 (sshiftRight_and x.toBitVec (by decide : 8 ≤ 24))
  exact ⟨congrArg UInt32.toUInt8 h24, congrArg UInt32.toUInt8 h16, congrArg UInt32.toUInt8 h8⟩

/-! ## Arithmetic of the parts -/

theorem mul_two_pow_or {b k : ℕ} (hb : b < 2 ^ k) (a : ℕ) : a * 2 ^ k ||| b = a * 2 ^ k + b := by
  rw [← Nat.shiftLeft_eq, Nat.shiftLeft_add_eq_or_of_lt hb]

theorem mul_add_mul_two_pow (x c j k : ℕ) :
    (x * 2 ^ j + c) * 2 ^ k = x * 2 ^ (j + k) + c * 2 ^ k := by
  rw [Nat.add_mul, Nat.mul_assoc, ← Nat.pow_add]

theorem toNat_lowByte (x : UInt32) : (lowByte x).toNat = x.toNat % 256 := by
  have hmask : (0xff : UInt32).toNat = 2 ^ 8 - 1 := rfl
  rw [lowByte, UInt32.toNat_toUInt8, UInt32.toNat_and, hmask, Nat.and_two_pow_sub_one_eq_mod,
    Nat.mod_mod]

theorem toNat_shiftRight (x : UInt32) {k : UInt32} (hk : k.toNat < 32) :
    (x >>> k).toNat = x.toNat / 2 ^ k.toNat := by
  rw [UInt32.toNat_shiftRight, Nat.mod_eq_of_lt hk, Nat.shiftRight_eq_div_pow]

theorem toNat_shiftLeft_byte (a : UInt8) {k : UInt32} (hk : k.toNat ≤ 24) :
    (a.toUInt32 <<< k).toNat = a.toNat * 2 ^ k.toNat := by
  have hlt : a.toNat * 2 ^ k.toNat < 2 ^ 32 :=
    calc a.toNat * 2 ^ k.toNat
        < 2 ^ 8 * 2 ^ k.toNat := Nat.mul_lt_mul_of_pos_right a.toNat_lt (Nat.two_pow_pos _)
      _ = 2 ^ (8 + k.toNat) := (Nat.pow_add 2 8 k.toNat).symm
      _ ≤ 2 ^ 32 := Nat.pow_le_pow_right (by decide) (by omega)
  rw [UInt32.toNat_shiftLeft, UInt8.toNat_toUInt32, Nat.mod_eq_of_lt (by omega : k.toNat < 32),
    Nat.shiftLeft_eq, Nat.mod_eq_of_lt hlt]

/-! ## Four bytes -/

def word (a b c d : UInt8) : UInt32 :=
  a.toUInt32 <<< 24 ||| b.toUInt32 <<< 16 ||| c.toUInt32 <<< 8 ||| d.toUInt32

theorem toNat_word (a b c d : UInt8) :
    (word a b c d).toNat = a.toNat * 2 ^ 24 + b.toNat * 2 ^ 16 + c.toNat * 2 ^ 8 + d.toNat := by
  have hb := b.toNat_lt
  have hc := c.toNat_lt
  have hd := d.toNat_lt
  have ha' : (a.toUInt32 <<< 24).toNat = a.toNat * 2 ^ 24 := toNat_shiftLeft_byte a (by decide)
  have hb' : (b.toUInt32 <<< 16).toNat = b.toNat * 2 ^ 16 := toNat_shiftLeft_byte b (by decide)
  have hc' : (c.toUInt32 <<< 8).toNat = c.toNat * 2 ^ 8 := toNat_shiftLeft_byte c (by decide)
  -- each `|` meets a number whose low bits are still free
  have hab : a.toNat * 2 ^ 24 ||| b.toNat * 2 ^ 16 = (a.toNat * 2 ^ 8 + b.toNat) * 2 ^ 16 := by
    rw [mul_two_pow_or (by omega), mul_add_mul_two_pow]
  have habc : (a.toNat * 2 ^ 8 + b.toNat) * 2 ^ 16 ||| c.toNat * 2 ^ 8 =
      ((a.toNat * 2 ^ 8 + b.toNat) * 2 ^ 8 + c.toNat) * 2 ^ 8 := by
    rw [mul_two_pow_or (by omega), mul_add_mul_two_pow (a.toNat * 2 ^ 8 + b.toNat)]
  rw [word, UInt32.toNat_or, UInt32.toNat_or, UInt32.toNat_or, ha', hb', hc',
    UInt8.toNat_toUInt32, hab, habc, mul_two_pow_or (by omega), mul_add_mul_two_pow,
    mul_add_mul_two_pow]

theorem word_lowByte (x : UInt32) :
    word (lowByte (x >>> 24)) (lowByte (x >>> 16)) (lowByte (x >>> 8)) (lowByte x) = x := by
  have hx := x.toNat_lt
  have h24 : (x >>> 24).toNat = x.toNat / 2 ^ 24 := toNat_shiftRight x (by decide)
  have h16 : (x >>> 16).toNat = x.toNat / 2 ^ 16 := toNat_shiftRight x (by decide)
  have h8 : (x >>> 8).toNat = x.toNat / 2 ^ 8 := toNat_shiftRight x (by decide)
  apply UInt32.toNat_inj.1
  rw [toNat_word, toNat_lowByte, toNat_lowByte, toNat_lowByte, toNat_lowByte, h24, h16, h8]
  omega

/-! ## Two bytes -/

/-- The two assignments `x = a << 8; x |= b` to an `unsigned short`. -/
def half (a b : UInt8) : UInt16 :=
  ((a.toUInt32 <<< 8).toUInt16.toUInt32 ||| b.toUInt32).toUInt16

theorem toUInt16_toInt16 (y : UInt16) : y.toInt16.toInt32.toUInt32.toUInt16 = y := by
  have hbits : y.toInt16.toInt32.toUInt32.toUInt16.toBitVec =
      (y.toBitVec.signExtend 32).setWidth 16 := rfl
  apply UInt16.toBitVec_inj.1
  rw [hbits]
  apply BitVec.eq_of_getLsbD_eq
  intro i hi
  rw [BitVec.getLsbD_setWidth, BitVec.getLsbD_signExtend]
  simp [hi, Nat.lt_trans hi (by decide : 16 < 32)]

/-- The same to a `short`, which is sign-extended before the second one. -/
theorem half_signed (a b : UInt8) :
    ((a.toUInt32 <<< 8).toUInt16.toInt16.toInt32.toUInt32 ||| b.toUInt32).toUInt16 = half a b := by
  rw [half, UInt32.toUInt16_or, UInt32.toUInt16_or, toUInt16_toInt16, UInt16.toUInt16_toUInt32]

theorem half_lowByte (x : UInt16) :
    half (lowByte (x.toUInt32 >>> 8)) (lowByte x.toUInt32) = x := by
  have hx := x.toNat_lt
  have h8 : (x.toUInt32 >>> 8).toNat = x.toNat / 2 ^ 8 := by
    rw [toNat_shiftRight _ (by decide), UInt16.toNat_toUInt32]
    rfl
  have hhigh := toNat_lowByte (x.toUInt32 >>> 8)
  have hlow := toNat_lowByte x.toUInt32
  rw [h8] at hhigh
  rw [UInt16.toNat_toUInt32] at hlow
  generalize lowByte (x.toUInt32 >>> 8) = a at hhigh ⊢
  generalize lowByte x.toUInt32 = b at hlow ⊢
  have hb := b.toNat_lt
  have ha' : (a.toUInt32 <<< 8).toNat = a.toNat * 2 ^ 8 := toNat_shiftLeft_byte a (by decide)
  apply UInt16.toNat_inj.1
  rw [half, UInt32.toNat_toUInt16, UInt32.toNat_or, UInt16.toNat_toUInt32, UInt32.toNat_toUInt16,
    ha', UInt8.toNat_toUInt32, Nat.mod_eq_of_lt (by omega : a.toNat * 2 ^ 8 < 2 ^ 16),
    mul_two_pow_or (by omega)]
  omega

/-! ## Two words -/

def long (h l : UInt32) : UInt64 :=
  l.toUInt64 ||| h.toUInt64 <<< 32

theorem long_split (x : UInt64) : long (x >>> 32).toUInt32 x.toUInt32 = x := by
  have hx := x.toNat_lt
  have hshift : (x >>> 32).toNat = x.toNat / 2 ^ 32 := by
    rw [UInt64.toNat_shiftRight, Nat.shiftRight_eq_div_pow]
    rfl
  have hhigh : ((x >>> 32).toUInt32.toUInt64 <<< 32).toNat = x.toNat / 2 ^ 32 * 2 ^ 32 := by
    have h32 : (32 : UInt64).toNat % 64 = 32 := rfl
    rw [UInt64.toNat_shiftLeft, h32, Nat.shiftLeft_eq, UInt32.toNat_toUInt64,
      UInt64.toNat_toUInt32, hshift]
    omega
  apply UInt64.toNat_inj.1
  rw [long, UInt64.toNat_or, hhigh, UInt32.toNat_toUInt64, UInt64.toNat_toUInt32, Nat.or_comm,
    mul_two_pow_or (Nat.mod_lt _ (by decide))]
  omega

end Lib
end Yfs

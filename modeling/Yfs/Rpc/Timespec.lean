import Mathlib.Tactic.SplitIfs
import Yfs.Lib.Register

/-!
# Timespec — `cmp_timespec`, `add_timespec` and `diff_timespec`

`call1` computes its deadlines with `add_timespec`, in milliseconds, and hands them to
`pthread_cond_timedwait`, which wants `tv_nsec` below 10^9.  The loop that carries nanoseconds over
into seconds stops at 10^9 and not below it.

`int` is `Int32`.  `time_t` and `long` are integers, and `Timespec.Fits` says that the seconds are
those of a 64-bit `time_t`.
-/

namespace Yfs
namespace Rpc

open Lib

structure Timespec where
  tvSec : ℤ
  tvNsec : ℤ
  deriving DecidableEq, Repr

namespace Timespec

/-- A time in nanoseconds. -/
def total (t : Timespec) : ℤ :=
  t.tvSec * 1000000000 + t.tvNsec

/-- `pthread_cond_timedwait` takes such a time, and `clock_gettime` returns one. -/
def Valid (t : Timespec) : Prop :=
  0 ≤ t.tvNsec ∧ t.tvNsec < 1000000000

instance (t : Timespec) : Decidable t.Valid :=
  inferInstanceAs (Decidable (_ ∧ _))

/-- The seconds have not overflowed. -/
def Fits (t : Timespec) : Prop :=
  -9223372036854775808 ≤ t.tvSec ∧ t.tvSec < 9223372036854775808

instance (t : Timespec) : Decidable t.Fits :=
  inferInstanceAs (Decidable (_ ∧ _))

/-- The `while` of `add_timespec`. -/
def carry (t : Timespec) : Timespec :=
  if 1000000000 < t.tvNsec then
    carry
      { tvSec := t.tvSec + 1
        tvNsec := t.tvNsec - 1000000000 }
  else
    t
termination_by t.tvNsec.toNat
decreasing_by omega

end Timespec

def cmpTimespec (a b : Timespec) : ℤ :=
  if b.tvSec < a.tvSec then
    1
  else if a.tvSec < b.tvSec then
    -1
  else if b.tvNsec < a.tvNsec then
    1
  else if a.tvNsec < b.tvNsec then
    -1
  else
    0

/-- `none` is a failed `VERIFY`. -/
def addTimespec (a : Timespec) (b : Int32) : Option Timespec :=
  let result : Timespec :=
    { tvSec := a.tvSec + (b / 1000).toInt
      tvNsec := a.tvNsec + (b % 1000 * 1000000).toInt }
  if 0 ≤ result.tvNsec then some result.carry else none

/-- `diff` is an `int`, also between its two assignments. -/
def diffTimespec (stop start : Timespec) : Option Int32 :=
  let diff : Int32 :=
    if start.tvSec < stop.tvSec then Int32.ofInt ((stop.tvSec - start.tvSec) * 1000) else 0
  if diff ≠ 0 ∨ stop.tvSec = start.tvSec then
    if start.tvNsec < stop.tvNsec then
      some (Int32.ofInt (diff.toInt + (stop.tvNsec - start.tvNsec).tdiv 1000000))
    else
      some (Int32.ofInt (diff.toInt - (start.tvNsec - stop.tvNsec).tdiv 1000000))
  else
    none

/-! ## The order of times -/

theorem cmpTimespec_pos_iff {a b : Timespec} :
    0 < cmpTimespec a b ↔ b.tvSec < a.tvSec ∨ a.tvSec = b.tvSec ∧ b.tvNsec < a.tvNsec := by
  unfold cmpTimespec
  split_ifs <;> omega

/-- A time that does not compare as later is not later.  The nanoseconds may be 10^9. -/
theorem total_le_of_cmpTimespec {a b : Timespec} (ha : a.tvNsec ≤ 1000000000) (hb : 0 ≤ b.tvNsec)
    (h : ¬ 0 < cmpTimespec a b) : a.total ≤ b.total := by
  rw [cmpTimespec_pos_iff] at h
  unfold Timespec.total
  omega

/-! ## Sums -/

namespace Timespec

theorem carry_of_le {t : Timespec} (h : t.tvNsec ≤ 1000000000) : t.carry = t := by
  rw [carry, if_neg (by omega)]

theorem carry_of_lt {t : Timespec} (h : 1000000000 < t.tvNsec) :
    t.carry = carry ⟨t.tvSec + 1, t.tvNsec - 1000000000⟩ := by
  rw [carry, if_pos h]

/-- What the loop leaves, and that it only moves nanoseconds into seconds. -/
theorem carry_spec (t : Timespec) (h : 0 ≤ t.tvNsec) :
    t.carry.total = t.total ∧ 0 ≤ t.carry.tvNsec ∧ t.carry.tvNsec ≤ 1000000000 := by
  fun_induction carry t with
  | case1 t hlt ih =>
      have hrest := ih (show 0 ≤ t.tvNsec - 1000000000 by omega)
      refine ⟨hrest.1.trans ?_, hrest.2⟩
      simp only [total]
      omega
  | case2 t hle => exact ⟨rfl, h, by omega⟩

end Timespec

/-- Seconds and milliseconds of an interval. -/
theorem toInt_div_thousand {b : Int32} (hb : 0 ≤ b.toInt) : (b / 1000).toInt = b.toInt / 1000 := by
  have hthousand : (1000 : Int32).toInt = 1000 := by decide
  have hlt := b.toInt_lt
  have hdiv : FitsInt (b.toInt.tdiv (1000 : Int32).toInt) := by
    rw [hthousand, Int.tdiv_eq_ediv_of_nonneg hb]
    constructor <;> omega
  rw [hdiv.toInt_div, hthousand, Int.tdiv_eq_ediv_of_nonneg hb]

theorem toInt_mod_thousand {b : Int32} (hb : 0 ≤ b.toInt) :
    (b % 1000 * 1000000).toInt = b.toInt % 1000 * 1000000 := by
  have hmod : (b % 1000).toInt = b.toInt % 1000 := by
    rw [Int32.toInt_mod, show (1000 : Int32).toInt = 1000 by decide, Int.tmod_eq_emod_of_nonneg hb]
  have hmillion : (1000000 : Int32).toInt = 1000000 := by decide
  have hmul : FitsInt ((b % 1000).toInt * (1000000 : Int32).toInt) := by
    rw [hmod, hmillion]
    constructor <;> omega
  rw [hmul.toInt_mul, hmod, hmillion]

/-- The two ways the sum can end: without a carry, and with one. -/
theorem addTimespec_eq {a : Timespec} {b : Int32} (ha : a.Valid) (hb : 0 ≤ b.toInt) :
    addTimespec a b = some
      (if a.tvNsec + b.toInt % 1000 * 1000000 ≤ 1000000000 then
        ⟨a.tvSec + b.toInt / 1000, a.tvNsec + b.toInt % 1000 * 1000000⟩
      else
        ⟨a.tvSec + b.toInt / 1000 + 1, a.tvNsec + b.toInt % 1000 * 1000000 - 1000000000⟩) := by
  rcases ha with ⟨hlo, hhi⟩
  rw [addTimespec, toInt_div_thousand hb, toInt_mod_thousand hb]
  simp only
  rw [if_pos (by omega)]
  congr 1
  -- the sum is below two seconds, so the loop turns at most once
  split
  next h => exact Timespec.carry_of_le h
  next h =>
    rw [Timespec.carry_of_lt (by simpa using h), Timespec.carry_of_le]
    simp only
    omega

/-- The sum is the right time, but its nanoseconds may be 10^9. -/
theorem addTimespec_spec {a : Timespec} {b : Int32} (ha : a.Valid) (hb : 0 ≤ b.toInt) :
    ∃ r, addTimespec a b = some r ∧ r.total = a.total + b.toInt * 1000000 ∧ 0 ≤ r.tvNsec ∧
      r.tvNsec ≤ 1000000000 := by
  have hnsec : 0 ≤ a.tvNsec + b.toInt % 1000 * 1000000 := by
    have hlo := ha.1
    omega
  have hcarry := Timespec.carry_spec
    ⟨a.tvSec + b.toInt / 1000, a.tvNsec + b.toInt % 1000 * 1000000⟩ hnsec
  refine ⟨_, ?_, hcarry.1.trans ?_, hcarry.2⟩
  · rw [addTimespec, toInt_div_thousand hb, toInt_mod_thousand hb]
    exact if_pos hnsec
  · simp only [Timespec.total]
    omega

/-! ## Differences -/

/-- An `int` that is a multiple of 1000 and not zero is not zero after it has overflowed once. -/
theorem ofInt_thousand_ne_zero {d : ℤ} (hpos : 0 < d) (hlt : d * 1000 < 4294967296) :
    Int32.ofInt (d * 1000) ≠ 0 := by
  intro h
  have hzero : (Int32.ofInt (d * 1000)).toInt = 0 := by
    rw [h]
    rfl
  rw [Int32.toInt_ofInt] at hzero
  have hdvd := Int.dvd_of_bmod_eq_zero hzero
  have hle := Int.le_of_dvd (by omega) hdvd
  simp only [Int32.size] at hle
  omega

/-- Times that are whole milliseconds apart. -/
theorem diffTimespec_eq {stop start : Timespec} {d n : ℤ} (hd : 0 ≤ d)
    (hlt : d * 1000 < 4294967296) (hsec : stop.tvSec = start.tvSec + d)
    (hnsec : stop.tvNsec = start.tvNsec + n * 1000000) :
    diffTimespec stop start = some (Int32.ofInt (d * 1000 + n)) := by
  have hdiff : (if start.tvSec < stop.tvSec then
      Int32.ofInt ((stop.tvSec - start.tvSec) * 1000) else 0) = Int32.ofInt (d * 1000) := by
    split
    · rw [hsec, Int.add_comm, Int.add_sub_cancel]
    · have hzero : d = 0 := by omega
      rw [hzero]
      rfl
  have hverify : Int32.ofInt (d * 1000) ≠ 0 ∨ stop.tvSec = start.tvSec := by
    rcases Int.le_iff_eq_or_lt.1 hd with rfl | hpos
    · exact Or.inr (by omega)
    · exact Or.inl (ofInt_thousand_ne_zero hpos hlt)
  simp only [diffTimespec, hdiff, if_pos hverify]
  -- `diff` may have overflowed; what is added to it brings it back
  split
  · have hms : (stop.tvNsec - start.tvNsec).tdiv 1000000 = n := by
      rw [hnsec, Int.add_comm, Int.add_sub_cancel, Int.mul_tdiv_cancel _ (by decide)]
    rw [hms, Int32.ofInt_add, Int32.ofInt_toInt, ← Int32.ofInt_add]
  · have hms : (start.tvNsec - stop.tvNsec).tdiv 1000000 = -n := by
      rw [show start.tvNsec - stop.tvNsec = -n * 1000000 by omega,
        Int.mul_tdiv_cancel _ (by decide)]
    rw [hms, Int.sub_neg, Int32.ofInt_add, Int32.ofInt_toInt, ← Int32.ofInt_add]

/-- The difference is right also where the sum is not a valid time. -/
theorem diffTimespec_addTimespec {a r : Timespec} {b : Int32} (ha : a.Valid) (hb : 0 ≤ b.toInt)
    (hadd : addTimespec a b = some r) : diffTimespec r a = some b := by
  have hlt := b.toInt_lt
  have hr := Option.some.inj ((addTimespec_eq ha hb).symm.trans hadd)
  -- with a carry the second that was added is taken back by the nanoseconds
  split at hr
  · have hdiff : diffTimespec r a = _ := diffTimespec_eq (d := b.toInt / 1000)
      (n := b.toInt % 1000) (by omega) (by omega) (by rw [← hr]) (by rw [← hr])
    rw [hdiff, show b.toInt / 1000 * 1000 + b.toInt % 1000 = b.toInt by omega, Int32.ofInt_toInt]
  · have hdiff : diffTimespec r a = _ := diffTimespec_eq (d := b.toInt / 1000 + 1)
      (n := b.toInt % 1000 - 1000) (by omega) (by omega) (by rw [← hr, Int.add_assoc])
      (by rw [← hr]; simp only; omega)
    rw [hdiff, show (b.toInt / 1000 + 1) * 1000 + (b.toInt % 1000 - 1000) = b.toInt by omega,
      Int32.ofInt_toInt]

/-- What a deadline `b` milliseconds after `a` has to be. -/
def IsDeadline (a : Timespec) (b : Int32) (r : Timespec) : Prop :=
  r.Valid ∧ r.Fits ∧ r.total = a.total + b.toInt * 1000000 ∧ diffTimespec r a = some b

/-- `add_timespec` gives a deadline unless the nanoseconds add up to just one second, or the seconds
overflow. -/
theorem addTimespec_isDeadline_iff (a : Timespec) (b : Int32) (ha : a.Valid) (hfits : a.Fits)
    (hb : 0 ≤ b.toInt) :
    (∃ r, addTimespec a b = some r ∧ IsDeadline a b r) ↔
      a.tvNsec + b.toInt % 1000 * 1000000 ≠ 1000000000 ∧
        (a.total + b.toInt * 1000000) / 1000000000 < 9223372036854775808 := by
  rcases addTimespec_spec ha hb with ⟨r, hadd, htotal, hlo, hhi⟩
  have hdiff := diffTimespec_addTimespec ha hb hadd
  have hr := Option.some.inj ((addTimespec_eq ha hb).symm.trans hadd)
  -- `r` is given, so both sides speak of its two fields
  have hvalid : r.Valid ↔ a.tvNsec + b.toInt % 1000 * 1000000 ≠ 1000000000 := by
    rcases ha with ⟨_, _⟩
    unfold Timespec.Valid
    split at hr <;> subst hr <;> simp only <;> omega
  have hsec : r.Valid → (r.Fits ↔
      (a.total + b.toInt * 1000000) / 1000000000 < 9223372036854775808) := by
    intro ⟨_, hlt⟩
    have hquot : (a.total + b.toInt * 1000000) / 1000000000 = r.tvSec := by
      rw [← htotal, Timespec.total]
      omega
    have hle : a.tvSec ≤ r.tvSec := by
      split at hr <;> subst hr <;> simp only <;> omega
    rw [hquot]
    unfold Timespec.Fits at hfits ⊢
    omega
  rw [← hvalid]
  constructor
  · rintro ⟨r', hadd', hval, hfit, _⟩
    cases hadd.symm.trans hadd'
    exact ⟨hval, (hsec hval).1 hfit⟩
  · rintro ⟨hval, hlt⟩
    exact ⟨r, hadd, hval, (hsec hval).2 hlt, htotal, hdiff⟩

theorem addTimespec_isDeadline_carried :
    ∃ r, addTimespec ⟨7, 900000000⟩ 2147483647 = some r ∧
      IsDeadline ⟨7, 900000000⟩ 2147483647 r :=
  (addTimespec_isDeadline_iff _ _ (by decide) (by decide) (by decide)).2 (by decide)

/-- Half a second after a half: the carry is left out. -/
theorem addTimespec_not_carried :
    (⟨7, 500000000⟩ : Timespec).Valid ∧ (⟨7, 500000000⟩ : Timespec).Fits ∧
      addTimespec ⟨7, 500000000⟩ 500 = some ⟨7, 1000000000⟩ ∧
      ¬ IsDeadline ⟨7, 500000000⟩ 500 ⟨7, 1000000000⟩ := by
  refine ⟨by decide, by decide, (addTimespec_eq (by decide) (by decide)).trans rfl, fun h => ?_⟩
  exact absurd h.1 (by decide)

end Rpc
end Yfs

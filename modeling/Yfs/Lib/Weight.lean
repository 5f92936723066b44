import Mathlib.Algebra.BigOperators.Group.Finset.Basic
import Mathlib.Algebra.Order.BigOperators.Group.Finset

/-!
# Weight — how much the members of a finite family carry together

`total w f` adds up `w (f i)`.  When one member changes, the total changes by what that member
gained or lost; a total of at most one leaves at most one member with anything.
-/

namespace Yfs
namespace Lib

variable {ι β : Type*} [Fintype ι] [DecidableEq ι]

def total (w : β → ℕ) (f : ι → β) : ℕ :=
  ∑ i, w (f i)

theorem total_update (w : β → ℕ) (f : ι → β) (i : ι) (b : β) :
    total w (Function.update f i b) + w (f i) = total w f + w b := by
  have hsplit : ∀ g : ι → β, total w g = w (g i) + ∑ j ∈ Finset.univ.erase i, w (g j) := by
    intro g
    exact (Finset.add_sum_erase Finset.univ (fun j => w (g j)) (Finset.mem_univ i)).symm
  have hrest : ∑ j ∈ Finset.univ.erase i, w (Function.update f i b j) =
      ∑ j ∈ Finset.univ.erase i, w (f j) := by
    refine Finset.sum_congr rfl fun j hj => ?_
    rw [Function.update_of_ne (Finset.ne_of_mem_erase hj)]
  rw [hsplit, hsplit f, hrest, Function.update_self]
  omega

omit [DecidableEq ι] in
theorem le_total (w : β → ℕ) (f : ι → β) (i : ι) : w (f i) ≤ total w f :=
  Finset.single_le_sum (f := fun j => w (f j)) (fun _ _ => Nat.zero_le _) (Finset.mem_univ i)

theorem add_le_total (w : β → ℕ) (f : ι → β) {i j : ι} (h : i ≠ j) :
    w (f i) + w (f j) ≤ total w f := by
  have hpair : ∑ k ∈ {i, j}, w (f k) = w (f i) + w (f j) := Finset.sum_pair h
  rw [← hpair]
  exact Finset.sum_le_univ_sum_of_nonneg fun _ => Nat.zero_le _

theorem eq_of_total_le_one {w : β → ℕ} {f : ι → β} (h : total w f ≤ 1) {i j : ι}
    (hi : 0 < w (f i)) (hj : 0 < w (f j)) : i = j := by
  by_contra hne
  have := add_le_total w f hne
  omega

end Lib
end Yfs

import Mathlib.Data.List.Basic

/-!
# Replay — an append-only log that several readers replay

The first reader that reaches the end of the log appends to it, every later one finds its entry
there already.  `grow` does both: `k` is the number of entries the reader has replayed, and `q`
what it replays next.
-/

namespace Yfs
namespace Lib

variable {α : Type}

def grow (log : List α) (k : ℕ) (q : α) : List α :=
  if k = log.length then log ++ [q] else log

/-- The reader that has replayed `k` entries may go on with `q`. -/
def Follows (log : List α) (k : ℕ) (q : α) : Prop :=
  k = log.length ∨ log[k]? = some q

variable {log : List α} {k j : ℕ} {q : α}

theorem grow_length (log : List α) (q : α) : grow log log.length q = log ++ [q] := if_pos rfl

theorem grow_of_getElem? {a : α} (h : log[k]? = some a) : grow log k q = log := by
  have hlt : k < log.length := (List.getElem?_eq_some_iff.1 h).1
  exact if_neg (Nat.ne_of_lt hlt)

theorem prefix_grow (log : List α) (k : ℕ) (q : α) : log <+: grow log k q := by
  unfold grow
  split
  · exact List.prefix_append log [q]
  · exact List.prefix_refl log

theorem getElem?_grow (h : Follows log k q) : (grow log k q)[k]? = some q := by
  rcases h with rfl | h
  · simp [grow_length]
  · rw [grow_of_getElem? h]
    exact h

/-- An entry stays where it is when the log grows. -/
theorem getElem?_of_isPrefix {log' : List α} (hp : log <+: log') (h : log[k]? = some q) :
    log'[k]? = some q := by
  rcases List.getElem?_eq_some_iff.1 h with ⟨hlt, rfl⟩
  exact List.prefix_iff_getElem?.1 hp k hlt

theorem take_of_isPrefix {log' : List α} (hp : log <+: log') (hj : j ≤ log.length) :
    log'.take j = log.take j := by
  rcases hp with ⟨rest, rfl⟩
  exact List.take_append_of_le_length hj

theorem mem_take_of_getElem? (h : log[k]? = some q) (hlt : k < j) : q ∈ log.take j := by
  have htake : (log.take j)[k]? = some q := by
    rw [List.getElem?_take_of_lt hlt]
    exact h
  exact List.mem_of_getElem? htake

theorem take_grow_succ (h : Follows log k q) :
    (grow log k q).take (k + 1) = log.take k ++ [q] := by
  rcases h with rfl | h
  · rw [grow_length, List.take_of_length_le (by simp), List.take_length]
  · rw [grow_of_getElem? h, List.take_add_one, h]
    rfl

end Lib
end Yfs

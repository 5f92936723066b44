import Mathlib.Data.Char
import Mathlib.Data.List.Lex
import Mathlib.Data.Nat.Basic
import Mathlib.Data.Prod.Lex

/-!
# Protocol — proposal numbers, messages and majorities of the Paxos module

The data of `paxos_protocol.h` and the two pure functions that `paxos.cc` applies to member
lists.  A `std::string` is the list of its characters, an `unsigned` is a `UInt32`.
-/

namespace Yfs

/-- `std::string`. -/
abbrev Str := List Char

namespace Paxos

/-! ## Proposal numbers -/

/-- `prop_t`: the round number and the name of the node that proposes. -/
structure PropT where
  n : UInt32
  m : Str
  deriving DecidableEq, Repr

namespace PropT

/-- `operator>` on proposal numbers. -/
def gt (a b : PropT) : Bool :=
  decide (b.n < a.n) || (decide (a.n = b.n) && decide (b.m < a.m))

/-- `operator>=` on proposal numbers. -/
def ge (a b : PropT) : Bool :=
  decide (b.n < a.n) || (decide (a.n = b.n) && decide (b.m ≤ a.m))

/-- The lexicographic key behind the two operators. -/
def key (a : PropT) : ℕ ×ₗ Str := toLex (a.n.toNat, a.m)

theorem key_injective : Function.Injective key := by
  intro a b h
  have hpair : (a.n.toNat, a.m) = (b.n.toNat, b.m) := toLex.injective h
  have hn : a.n = b.n := UInt32.toNat_inj.mp (congrArg Prod.fst hpair)
  have hm : a.m = b.m := congrArg Prod.snd hpair
  cases a
  cases b
  simp_all

instance : LinearOrder PropT := LinearOrder.lift' key key_injective

theorem lt_iff {a b : PropT} : a < b ↔ a.n < b.n ∨ (a.n = b.n ∧ a.m < b.m) := by
  have h : a < b ↔ key a < key b := Iff.rfl
  rw [h, key, key, Prod.Lex.toLex_lt_toLex, UInt32.lt_iff_toNat_lt, ← UInt32.toNat_inj]

theorem le_iff {a b : PropT} : a ≤ b ↔ a.n < b.n ∨ (a.n = b.n ∧ a.m ≤ b.m) := by
  have h : a ≤ b ↔ key a ≤ key b := Iff.rfl
  rw [h, key, key, Prod.Lex.toLex_le_toLex, UInt32.lt_iff_toNat_lt, ← UInt32.toNat_inj]

@[simp] theorem gt_iff {a b : PropT} : a.gt b = true ↔ b < a := by
  rw [lt_iff, gt, Bool.or_eq_true, Bool.and_eq_true, decide_eq_true_iff, decide_eq_true_iff,
    decide_eq_true_iff, eq_comm]

@[simp] theorem ge_iff {a b : PropT} : a.ge b = true ↔ b ≤ a := by
  rw [le_iff, ge, Bool.or_eq_true, Bool.and_eq_true, decide_eq_true_iff, decide_eq_true_iff,
    decide_eq_true_iff, eq_comm]

/-- A number of round 0 is below every number of a later round. -/
theorem lt_of_n {a b : PropT} (ha : a.n = 0) (hb : b.n ≠ 0) : a < b := by
  refine lt_iff.mpr (Or.inl ?_)
  rw [ha, UInt32.lt_iff_toNat_lt]
  exact Nat.pos_of_ne_zero fun h => hb (UInt32.toNat_inj.mp h)

end PropT

/-! ## Messages -/

/-- `paxos_protocol::status`. -/
inductive Status
  | OK
  | ERR
  deriving DecidableEq, Repr

structure PrepareArg where
  inst : UInt32
  n : PropT
  deriving DecidableEq, Repr

/-- `prepareres`.  The handler leaves `nA` and `vA` as they are in a fresh object when it has
nothing to report in them. -/
structure PrepareRes where
  oldinstance : Bool
  accept : Bool
  nA : PropT
  vA : Str
  deriving DecidableEq, Repr

structure AcceptArg where
  inst : UInt32
  n : PropT
  v : Str
  deriving DecidableEq, Repr

structure DecideArg where
  inst : UInt32
  v : Str
  deriving DecidableEq, Repr

/-! ## Member lists -/

def isamember (m : Str) (nodes : List Str) : Bool :=
  nodes.any fun x => decide (x = m)

@[simp] theorem isamember_iff {m : Str} {nodes : List Str} :
    isamember m nodes = true ↔ m ∈ nodes := by
  simp [isamember]

/-- `proposer::majority`: the servers in `l2` contain a majority of the servers in `l1`. -/
def majority (l1 l2 : List Str) : Bool :=
  decide (l1.length / 2 + 1 ≤ l1.countP fun m => isamember m l2)

/-- The empty list is a majority of no list. -/
theorem majority_of_nil (l : List Str) : majority l [] = false := by
  have h : (l.countP fun m => isamember m []) = 0 := List.countP_eq_zero.mpr (by simp [isamember])
  simp [majority, h]

theorem countP_add_countP_le {α : Type} (p q : α → Bool) (l : List α)
    (h : ∀ x ∈ l, ¬ (p x = true ∧ q x = true)) : l.countP p + l.countP q ≤ l.length := by
  induction l with
  | nil => simp
  | cons x xs ih =>
      have hx := h x (by simp)
      have hxs := ih fun y hy => h y (by simp [hy])
      rw [List.countP_cons, List.countP_cons, List.length_cons]
      cases hp : p x <;> cases hq : q x <;> simp_all <;> omega

/-- Two lists that both pass `majority` share a member. -/
theorem majority_inter {l a b : List Str} (ha : majority l a = true) (hb : majority l b = true) :
    ∃ m, m ∈ a ∧ m ∈ b := by
  by_contra hno
  have hdisj : ∀ m ∈ l, ¬ (isamember m a = true ∧ isamember m b = true) := by
    rintro m _ ⟨h₁, h₂⟩
    exact hno ⟨m, isamember_iff.mp h₁, isamember_iff.mp h₂⟩
  have hsum := countP_add_countP_le _ _ l hdisj
  have h₁ := of_decide_eq_true ha
  have h₂ := of_decide_eq_true hb
  omega

end Paxos
end Yfs

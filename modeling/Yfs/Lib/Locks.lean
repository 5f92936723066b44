import Mathlib.Data.Fintype.Defs
import Mathlib.Data.Set.Basic
import Mathlib.Logic.Function.Basic
import Yfs.Lib.Run

/-!
# Locks — threads, mutexes and lock orders

Threads run calls, and of a call only its lock operations count: `code` gives them as a list.
A thread whose next operation is `lock m` waits until `m` is free.

* `Nested ok h p h'` — a thread that holds the mutexes `h` can run `p` and holds `h'`
  afterwards, and whenever it asks for `m'` while holding `m`, the pair is one of `ok`;
* `Locks.Heads m m' p` — `p` asks for `m'` before it gives up `m`;
* `not_deadlock_of_rank` — if every thread asks for mutexes of smaller rank than those it holds,
  no set of threads wait for each other;
* `Apart` — a guard under which no two threads head for each other's mutex.
-/

namespace Yfs
namespace Lib
namespace Locks

inductive Op (M : Type)
  | lock (m : M)
  | unlock (m : M)
  deriving DecidableEq, Repr

structure State (T M : Type) where
  owner : M → Option T
  todo : T → List (Op M)

inductive Action (T C : Type)
  | call (t : T) (c : C)
  | exec (t : T)
  deriving DecidableEq, Repr

variable {T M C : Type}

/-! ## Steps -/

section

variable [DecidableEq T] [DecidableEq M]

def exec (s : State T M) (t : T) : Option (State T M) :=
  match s.todo t with
  | [] => none
  | .lock m :: p =>
      if s.owner m = none then
        some
          { owner := Function.update s.owner m (some t)
            todo := Function.update s.todo t p }
      else
        none
  | .unlock m :: p =>
      if s.owner m = some t then
        some
          { owner := Function.update s.owner m none
            todo := Function.update s.todo t p }
      else
        none

def step (code : C → List (Op M)) (s : State T M) : Action T C → Option (State T M)
  | .call t c =>
      if s.todo t = [] then some { s with todo := Function.update s.todo t (code c) } else none
  | .exec t => exec s t

/-- No thread has started, and all mutexes are free. -/
def Init (s : State T M) : Prop :=
  (∀ m, s.owner m = none) ∧ ∀ t, s.todo t = []

inductive Move (code : C → List (Op M)) (s : State T M) : Action T C → State T M → Prop
  | call {t : T} {c : C} (h : s.todo t = []) :
      Move code s (.call t c) { s with todo := Function.update s.todo t (code c) }
  | lock {t : T} {m : M} {p : List (Op M)} (h : s.todo t = .lock m :: p)
      (hfree : s.owner m = none) :
      Move code s (.exec t)
        { owner := Function.update s.owner m (some t)
          todo := Function.update s.todo t p }
  | unlock {t : T} {m : M} {p : List (Op M)} (h : s.todo t = .unlock m :: p)
      (hown : s.owner m = some t) :
      Move code s (.exec t)
        { owner := Function.update s.owner m none
          todo := Function.update s.todo t p }

theorem step_move {code : C → List (Op M)} {s s' : State T M} {a : Action T C}
    (h : step code s a = some s') : Move code s a s' := by
  cases a with
  | call t c =>
      rcases Option.ite_none_right_eq_some.1 h with ⟨hnil, ⟨⟩⟩
      exact .call hnil
  | exec t =>
      simp only [step, exec] at h
      split at h
      · cases h
      next m p htodo =>
        rcases Option.ite_none_right_eq_some.1 h with ⟨hfree, ⟨⟩⟩
        exact .lock htodo hfree
      next m p htodo =>
        rcases Option.ite_none_right_eq_some.1 h with ⟨hown, ⟨⟩⟩
        exact .unlock htodo hown

end

/-! ## Nesting -/

section

variable [DecidableEq M]

/-- What a piece of code does to the list of mutexes that its thread holds. -/
def Nested (ok : M → M → Prop) : List M → List (Op M) → List M → Prop
  | h, [], h' => h = h'
  | h, .lock m :: p, h' => (∀ k ∈ h, ok k m) ∧ m ∉ h ∧ Nested ok (m :: h) p h'
  | h, .unlock m :: p, h' => m ∈ h ∧ Nested ok (h.erase m) p h'

instance decidableNested (ok : M → M → Prop) [DecidableRel ok] :
    ∀ (h : List M) (p : List (Op M)) (h' : List M), Decidable (Nested ok h p h')
  | h, [], h' => inferInstanceAs (Decidable (h = h'))
  | h, .lock m :: p, h' =>
      have := decidableNested ok (m :: h) p h'
      inferInstanceAs (Decidable ((∀ k ∈ h, ok k m) ∧ m ∉ h ∧ Nested ok (m :: h) p h'))
  | h, .unlock m :: p, h' =>
      have := decidableNested ok (h.erase m) p h'
      inferInstanceAs (Decidable (m ∈ h ∧ Nested ok (h.erase m) p h'))

end

variable {ok : M → M → Prop}

section

variable [DecidableEq M]

theorem Nested.append {p q : List (Op M)} {h' h'' : List M} :
    ∀ {h : List M}, Nested ok h p h' → Nested ok h' q h'' → Nested ok h (p ++ q) h'' := by
  induction p with
  | nil =>
      intro h hp hq
      cases hp
      exact hq
  | cons o p ih =>
      intro h hp hq
      cases o with
      | lock m => exact ⟨hp.1, hp.2.1, ih hp.2.2 hq⟩
      | unlock m => exact ⟨hp.1, ih hp.2 hq⟩

/-- A loop whose body gives back what it takes. -/
theorem Nested.replicate {p : List (Op M)} {h : List M} (hp : Nested ok h p h) (n : ℕ) :
    Nested ok h (List.replicate n p).flatten h := by
  induction n with
  | zero => exact rfl
  | succ n ih =>
      rw [List.replicate_succ, List.flatten_cons]
      exact hp.append ih

/-- Each thread holds what its code says. -/
def Consistent (ok : M → M → Prop) (s : State T M) : Prop :=
  ∀ t, ∃ h : List M, h.Nodup ∧ (∀ m, m ∈ h ↔ s.owner m = some t) ∧ Nested ok h (s.todo t) []

theorem consistent_init {s : State T M} (h : Init s) : Consistent ok s := by
  intro t
  refine ⟨[], List.nodup_nil, ?_, ?_⟩
  · intro m
    simp [h.1 m]
  · rw [h.2 t]
    exact rfl

/-- The owner of one mutex changes. -/
theorem mem_iff_update {owner : M → Option T} {u : T} {h h' : List M} {m : M} {o : Option T}
    (hown : ∀ k, k ∈ h ↔ owner k = some u) (hm : m ∈ h' ↔ o = some u)
    (hne : ∀ k, k ≠ m → (k ∈ h' ↔ k ∈ h)) :
    ∀ k, k ∈ h' ↔ Function.update owner m o k = some u := by
  intro k
  by_cases hk : k = m
  · subst hk
    rw [Function.update_self]
    exact hm
  · rw [Function.update_of_ne hk, hne k hk]
    exact hown k

variable [DecidableEq T]

theorem Consistent.step {code : C → List (Op M)} (hcode : ∀ c, Nested ok [] (code c) [])
    {s s' : State T M} {a : Action T C} (hs : Consistent ok s)
    (hst : Locks.step code s a = some s') : Consistent ok s' := by
  intro u
  rcases hs u with ⟨h, hnodup, hown, hnest⟩
  cases step_move hst with
  | @call t c hnil =>
      by_cases hu : u = t
      · subst hu
        rw [hnil] at hnest
        cases hnest
        refine ⟨[], hnodup, hown, ?_⟩
        simp only [Function.update_self]
        exact hcode c
      · refine ⟨h, hnodup, hown, ?_⟩
        simp only [Function.update_of_ne hu]
        exact hnest
  | @lock t m p htodo hfree =>
      by_cases hu : u = t
      · subst hu
        rw [htodo] at hnest
        rcases hnest with ⟨_, hm, hp⟩
        refine ⟨m :: h, List.nodup_cons.mpr ⟨hm, hnodup⟩, mem_iff_update hown (by simp) ?_, ?_⟩
        · intro k hk
          simp [hk]
        · simp only [Function.update_self]
          exact hp
      · have hm : m ∉ h := by
          rw [hown, hfree]
          simp
        refine ⟨h, hnodup, mem_iff_update hown ?_ fun _ _ => Iff.rfl, ?_⟩
        · simp [hm, Ne.symm hu]
        · simp only [Function.update_of_ne hu]
          exact hnest
  | @unlock t m p htodo hm =>
      by_cases hu : u = t
      · subst hu
        rw [htodo] at hnest
        refine ⟨h.erase m, hnodup.erase m, mem_iff_update hown ?_ ?_, ?_⟩
        · simp [hnodup.mem_erase_iff]
        · intro k hk
          simp [hnodup.mem_erase_iff, hk]
        · simp only [Function.update_self]
          exact hnest.2
      · have hm' : m ∉ h := by
          rw [hown, hm]
          simp [Ne.symm hu]
        refine ⟨h, hnodup, mem_iff_update hown ?_ fun _ _ => Iff.rfl, ?_⟩
        · simp [hm']
        · simp only [Function.update_of_ne hu]
          exact hnest

end

/-! ## Waiting -/

/-- The thread has to wait for `m`, or is about to take it. -/
def Asks (s : State T M) (t : T) (m : M) : Prop := (s.todo t).head? = some (.lock m)

/-- Each thread of the set waits for a mutex that another one of them holds. -/
def Deadlock (s : State T M) (D : Set T) : Prop :=
  D.Nonempty ∧ ∀ t ∈ D, ∃ m, Asks s t m ∧ ∃ u ∈ D, u ≠ t ∧ s.owner m = some u

/-- If a thread that holds `m` asks for mutexes of smaller rank only, there is no deadlock. -/
theorem not_deadlock_of_rank {s : State T M} (rank : M → ℕ)
    (hrank : ∀ t m m', s.owner m = some t → Asks s t m' → rank m' < rank m) (D : Set T) :
    ¬ Deadlock s D := by
  rintro ⟨⟨t₀, ht₀⟩, hD⟩
  -- by induction on the rank, no thread of `D` waits for a mutex of that rank
  have hnone : ∀ k, ∀ t ∈ D, ∀ m, Asks s t m → rank m ≠ k := by
    intro k
    induction k using Nat.strong_induction_on with
    | _ k ih =>
        rintro t ht m hask rfl
        rcases hD t ht with ⟨m', hask', u, hu, _, hown⟩
        have hm : m = m' := by
          have heq := Option.some.inj (hask.symm.trans hask')
          cases heq
          rfl
        subst hm
        rcases hD u hu with ⟨m', hask', _⟩
        exact ih (rank m') (hrank u m m' hown hask') u hu m' hask' rfl
  rcases hD t₀ ht₀ with ⟨m, hask, _⟩
  exact hnone (rank m) t₀ ht₀ m hask rfl

variable [DecidableEq M]

/-- A thread that holds `m` asks only for mutexes that may be taken inside `m`. -/
theorem Consistent.ok_of_asks {s : State T M} (hs : Consistent ok s) {t : T} {m m' : M}
    (hm : s.owner m = some t) (hask : Asks s t m') : ok m m' := by
  rcases hs t with ⟨h, _, hown, hnest⟩
  rcases List.head?_eq_some_iff.mp hask with ⟨p, hp⟩
  rw [hp] at hnest
  exact hnest.1 m ((hown m).mpr hm)

section

variable [DecidableEq T]

instance (s : State T M) (t : T) (m : M) : Decidable (Asks s t m) :=
  inferInstanceAs (Decidable ((s.todo t).head? = some (.lock m)))

end

/-! ## Keeping two orders apart -/

/-- The code asks for `m'` before it gives up `m`. -/
def Heads (m m' : M) : List (Op M) → Bool
  | [] => false
  | .lock k :: p => decide (k = m') || Heads m m' p
  | .unlock k :: p => decide (k ≠ m) && Heads m m' p

theorem heads_of_asks {s : State T M} {t : T} {m' : M} (h : Asks s t m') (m : M) :
    Heads m m' (s.todo t) = true := by
  rcases List.head?_eq_some_iff.mp h with ⟨p, hp⟩
  simp [hp, Heads]

/-- If the code starts with taking `m` and will then ask for `m'` inside, the owner of `m'` will
not ask for `m` before it gives up `m'`. -/
def ApartCode (s : State T M) : List (Op M) → Prop
  | .lock m :: p => ∀ m', ∀ u ∈ s.owner m', Heads m m' p = true → Heads m' m (s.todo u) = false
  | _ => True

def Apart (s : State T M) : Action T C → Prop
  | .call _ _ => True
  | .exec t => ApartCode s (s.todo t)

/-- No two owners head for each other's mutex. -/
def Parted (s : State T M) : Prop :=
  ∀ m m' t u, m ≠ m' → s.owner m = some t → s.owner m' = some u → Heads m m' (s.todo t) = true →
    Heads m' m (s.todo u) = false

/-- The owner of a mutex after a step: it had the mutex before, and where it heads now it headed
before, or the step was the one by which it took the mutex. -/
inductive Owns (s s' : State T M) (a : Action T C) (m : M) (u : T) : Prop
  | old (h : s.owner m = some u)
      (hmono : ∀ m', Heads m m' (s'.todo u) = true → Heads m m' (s.todo u) = true)
  | new {p : List (Op M)} (ha : a = .exec u) (h : s.todo u = .lock m :: p) (h' : s'.todo u = p)

theorem parted_init {s : State T M} (h : Init s) : Parted s := by
  intro m m' t u _ hm
  rw [h.1 m] at hm
  cases hm

variable [DecidableEq T]

instance [Fintype M] (s : State T M) (p : List (Op M)) : Decidable (ApartCode s p) :=
  match p with
  | .lock m :: p =>
      inferInstanceAs (Decidable (∀ m', ∀ u ∈ s.owner m', Heads m m' p = true →
        Heads m' m (s.todo u) = false))
  | [] | .unlock _ :: _ => isTrue trivial

instance [Fintype M] (s : State T M) (a : Action T C) : Decidable (Apart s a) :=
  match a with
  | .call _ _ => isTrue trivial
  | .exec t => inferInstanceAs (Decidable (ApartCode s (s.todo t)))

theorem owns_step {code : C → List (Op M)} {s s' : State T M} {a : Action T C}
    (hc : Consistent ok s) (hst : step code s a = some s') {m : M} {u : T}
    (hm : s'.owner m = some u) : Owns s s' a m u := by
  cases step_move hst with
  | @call t c hnil =>
      refine .old hm fun m' hh => ?_
      by_cases hu : u = t
      · -- a thread between two calls holds nothing
        subst hu
        rcases hc u with ⟨h, _, hown, hnest⟩
        rw [hnil] at hnest
        cases hnest
        exact absurd ((hown m).mpr hm) List.not_mem_nil
      · simpa only [Function.update_of_ne hu] using hh
  | @lock t k p htodo hfree =>
      by_cases hk : m = k
      · subst hk
        simp only [Function.update_self, Option.some.injEq] at hm
        subst hm
        exact .new rfl htodo (Function.update_self _ _ _)
      · simp only [Function.update_of_ne hk] at hm
        refine .old hm fun m' hh => ?_
        by_cases hu : u = t
        · subst hu
          simp only [Function.update_self] at hh
          simp [htodo, Heads, hh]
        · simpa only [Function.update_of_ne hu] using hh
  | @unlock t k p htodo hown =>
      by_cases hk : m = k
      · subst hk
        simp at hm
      · simp only [Function.update_of_ne hk] at hm
        refine .old hm fun m' hh => ?_
        by_cases hu : u = t
        · subst hu
          simp only [Function.update_self] at hh
          simp [htodo, Heads, hh, Ne.symm hk]
        · simpa only [Function.update_of_ne hu] using hh

theorem parted_step {code : C → List (Op M)} {s s' : State T M} {a : Action T C}
    (hc : Consistent ok s) (hs : Parted s) (hok : Apart s a) (hst : step code s a = some s') :
    Parted s' := by
  intro m m' t u hne hm hm' hheads
  refine Bool.eq_false_iff.mpr fun hheads' => ?_
  cases owns_step hc hst hm with
  | old hold hmono =>
      cases owns_step hc hst hm' with
      | old hold' hmono' =>
          have hfalse := hs m m' t u hne hold hold' (hmono m' hheads)
          exact Bool.eq_false_iff.mp hfalse (hmono' m hheads')
      | new ha htodo hp =>
          subst ha
          simp only [Apart, htodo, ApartCode] at hok
          have hfalse := hok m t hold (hp ▸ hheads')
          exact Bool.eq_false_iff.mp hfalse (hmono m' hheads)
  | new ha htodo hp =>
      subst ha
      cases owns_step hc hst hm' with
      | old hold' hmono' =>
          simp only [Apart, htodo, ApartCode] at hok
          have hfalse := hok m' u hold' (hp ▸ hheads)
          exact Bool.eq_false_iff.mp hfalse (hmono' m hheads')
      | new ha htodo' _ =>
          cases ha
          rw [htodo] at htodo'
          cases htodo'
          exact hne rfl

/-- In every run whose steps keep two orders apart. -/
theorem reach_parted {code : C → List (Op M)} (hcode : ∀ c, Nested ok [] (code c) [])
    {s : State T M} (h : Reach Init (step code) Apart s) : Consistent ok s ∧ Parted s := by
  refine Reach.invariant (I := fun s => Consistent ok s ∧ Parted s) ?_ ?_ h
  · exact fun s hs => ⟨consistent_init hs, parted_init hs⟩
  · rintro s a s' ⟨hc, hp⟩ hok hst
    exact ⟨hc.step hcode hst, parted_step hc hp hok hst⟩

end Locks
end Lib
end Yfs

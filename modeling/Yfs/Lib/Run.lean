import Mathlib.Init

/-!
# Run — guarded runs of a partial step function

Every concurrent component of the development is an executable step function
`step : σ → α → Option σ` on an explicit state: the action names which party moves and which
message it takes, and `none` means that the action is not possible in that state.

* `Reach init step ok s` — `s` is reached from an initial state by steps that all meet the
  guard `ok`, which is read in the state *before* the step;
* `runFrom step ok s as` — the executable counterpart, used to replay a concrete schedule.
-/

namespace Yfs
namespace Lib

universe u v

variable {σ : Type u} {α : Type v}

/-- States reached from `init` by steps that all meet the guard `ok`. -/
inductive Reach (init : σ → Prop) (step : σ → α → Option σ) (ok : σ → α → Prop) : σ → Prop where
  | start {s : σ} : init s → Reach init step ok s
  | next {s t : σ} {a : α} :
      Reach init step ok s → ok s a → step s a = some t → Reach init step ok t

/-- The guard that allows every step. -/
def anyStep (_ : σ) (_ : α) : Prop := True

namespace Reach

variable {init : σ → Prop} {step : σ → α → Option σ} {ok ok' : σ → α → Prop}

/-- A property that holds initially and is kept by every guarded step holds along every run. -/
theorem invariant {I : σ → Prop} (h₀ : ∀ s, init s → I s)
    (hstep : ∀ s a t, I s → ok s a → step s a = some t → I t) :
    ∀ {s : σ}, Reach init step ok s → I s := by
  intro s h
  induction h with
  | start hs => exact h₀ _ hs
  | next _ hok hst ih => exact hstep _ _ _ ih hok hst

/-- As `invariant`, for an invariant whose preservation needs one that is already known. -/
theorem invariant_with {J I : σ → Prop} (hJ : ∀ {s : σ}, Reach init step ok s → J s)
    (h₀ : ∀ s, init s → I s)
    (hstep : ∀ s a t, J s → J t → I s → ok s a → step s a = some t → I t) :
    ∀ {s : σ}, Reach init step ok s → I s := by
  intro s h
  induction h with
  | start hs => exact h₀ _ hs
  | next hr hok hst ih => exact hstep _ _ _ (hJ hr) (hJ (.next hr hok hst)) ih hok hst

/-- A run may be continued by one that starts where it ends. -/
theorem trans {s t : σ} (hs : Reach init step ok s) (ht : Reach (fun x => x = s) step ok t) :
    Reach init step ok t := by
  induction ht with
  | start heq => exact heq ▸ hs
  | next _ hok hst ih => exact .next ih hok hst

/-- Weakening the guard keeps reachability. -/
theorem mono (hle : ∀ s a, ok s a → ok' s a) {s : σ} (h : Reach init step ok s) :
    Reach init step ok' s := by
  induction h with
  | start hs => exact .start hs
  | next _ hok hst ih => exact .next ih (hle _ _ hok) hst

end Reach

/-- Replay a schedule; `none` as soon as one of its actions is not possible or breaks the
guard. -/
def runFrom (step : σ → α → Option σ) (ok : σ → α → Prop) [∀ s a, Decidable (ok s a)] :
    σ → List α → Option σ
  | s, [] => some s
  | s, a :: as =>
      if ok s a then
        match step s a with
        | some t => runFrom step ok t as
        | none => none
      else
        none

instance (s : σ) (a : α) : Decidable (anyStep s a) := isTrue trivial

/-- A schedule that can be replayed begins with a step that meets the guard. -/
theorem runFrom_cons {step : σ → α → Option σ} {ok : σ → α → Prop} [∀ s a, Decidable (ok s a)]
    {s t : σ} {a : α} {as : List α} (h : runFrom step ok s (a :: as) = some t) :
    ok s a ∧ ∃ m, step s a = some m ∧ runFrom step ok m as = some t := by
  unfold runFrom at h
  split at h
  next hok =>
    split at h
    next m hst => exact ⟨hok, m, hst, h⟩
    next => cases h
  next => cases h

/-- A schedule that can be replayed from a reachable state ends in a reachable state. -/
theorem Reach.of_runFrom {init : σ → Prop} {step : σ → α → Option σ} {ok : σ → α → Prop}
    [∀ s a, Decidable (ok s a)] :
    ∀ (as : List α) {s t : σ}, Reach init step ok s → runFrom step ok s as = some t →
      Reach init step ok t
  | [], s, t, hs, h => by
      cases h
      exact hs
  | a :: as, s, t, hs, h => by
      rcases runFrom_cons h with ⟨hok, m, hst, hrest⟩
      exact Reach.of_runFrom as (.next hs hok hst) hrest

/-- What no step of a schedule changes is the same at its end. -/
theorem runFrom_frame {β : Type v} {step : σ → α → Option σ} {ok : σ → α → Prop}
    [∀ s a, Decidable (ok s a)] {p : α → Prop} {f : σ → β}
    (hstep : ∀ ⦃s t a⦄, step s a = some t → p a → f t = f s) :
    ∀ (as : List α) {s t : σ}, runFrom step ok s as = some t → (∀ a ∈ as, p a) → f t = f s
  | [], s, t, h, _ => by
      cases h
      rfl
  | a :: as, s, t, h, hp => by
      rcases runFrom_cons h with ⟨_, m, hst, hrest⟩
      have hrest' := runFrom_frame hstep as hrest fun b hb => hp b (List.mem_cons_of_mem a hb)
      exact hrest'.trans (hstep hst (hp a List.mem_cons_self))

/-- Steps that lower a measure: a run is no longer than the measure of its start. -/
theorem length_le_of_runFrom {step : σ → α → Option σ} {ok : σ → α → Prop}
    [∀ s a, Decidable (ok s a)] {I : σ → Prop} {m : σ → Nat}
    (hstep : ∀ s a t, I s → ok s a → step s a = some t → I t ∧ m t < m s) :
    ∀ (as : List α) {s t : σ}, I s → runFrom step ok s as = some t →
      I t ∧ as.length + m t ≤ m s
  | [], s, t, hs, h => by
      cases h
      exact ⟨hs, by simp⟩
  | a :: as, s, t, hs, h => by
      rcases runFrom_cons h with ⟨hok, q, hst, hrest⟩
      have hq := hstep s a q hs hok hst
      have hlen := length_le_of_runFrom hstep as hq.1 hrest
      refine ⟨hlen.1, ?_⟩
      have hlt := hq.2
      have hle := hlen.2
      simp only [List.length_cons]
      omega

theorem exists_runFrom {step : σ → α → Option σ} {ok : σ → α → Prop}
    [∀ s a, Decidable (ok s a)] {P : σ → Prop} [DecidablePred P] {as : List α} {s : σ}
    (h : (runFrom step ok s as).any (fun t => decide (P t)) = true) :
    ∃ t, runFrom step ok s as = some t ∧ P t := by
  cases hrun : runFrom step ok s as with
  | none => simp [hrun] at h
  | some t =>
      rw [hrun] at h
      exact ⟨t, rfl, of_decide_eq_true h⟩

/-- A schedule whose replay ends in a state with a property shows that such a state is
reachable. -/
theorem Reach.exists_of_runFrom {init : σ → Prop} {step : σ → α → Option σ} {ok : σ → α → Prop}
    [∀ s a, Decidable (ok s a)] {P : σ → Prop} [DecidablePred P] (as : List α) {s : σ}
    (hs : init s) (h : (runFrom step ok s as).any (fun t => decide (P t)) = true) :
    ∃ t, Reach init step ok t ∧ P t := by
  rcases exists_runFrom h with ⟨t, hrun, hP⟩
  exact ⟨t, Reach.of_runFrom as (.start hs) hrun, hP⟩

end Lib
end Yfs

import Yfs.Lib.Run

/-!
# Simulation — one system follows the runs of another

Two step functions with their guards.  A relation between their states is a forward simulation if
it relates the initial states and if, whenever the first system makes a guarded step from a
related state, the second can make a guarded run (of any length, none included) to a related
state.  Then every reachable state of the first is related to a reachable state of the second,
and what holds of all of these can be read there.
-/

namespace Yfs
namespace Lib

universe u v u' v'

variable {σ : Type u} {α : Type v} {τ : Type u'} {β : Type v'}
variable {init : σ → Prop} {step : σ → α → Option σ} {ok : σ → α → Prop}
variable {init' : τ → Prop} {step' : τ → β → Option τ} {ok' : τ → β → Prop}

theorem Reach.refl (s : σ) : Reach (fun x => x = s) step ok s :=
  .start rfl

theorem Reach.single {s t : σ} {a : α} (hok : ok s a) (hst : step s a = some t) :
    Reach (fun x => x = s) step ok t :=
  .next (.refl s) hok hst

/-- Forward simulation; `J` is an invariant of the first system that is already known. -/
theorem Reach.simulation {R : σ → τ → Prop} {J : σ → Prop}
    (hJ : ∀ {s : σ}, Reach init step ok s → J s)
    (h₀ : ∀ s, init s → ∃ x, init' x ∧ R s x)
    (hstep : ∀ s a t x, J s → J t → R s x → ok s a → step s a = some t →
      ∃ y, Reach (fun z => z = x) step' ok' y ∧ R t y) :
    ∀ {s : σ}, Reach init step ok s → ∃ x, Reach init' step' ok' x ∧ R s x := by
  intro s h
  induction h with
  | start hs =>
      rcases h₀ _ hs with ⟨x, hx, hR⟩
      exact ⟨x, .start hx, hR⟩
  | next hr hok hst ih =>
      rcases ih with ⟨x, hx, hR⟩
      rcases hstep _ _ _ x (hJ hr) (hJ (.next hr hok hst)) hR hok hst with ⟨y, hy, hRy⟩
      exact ⟨y, hx.trans hy, hRy⟩

/-- A part of the state that every step either leaves alone or moves as the second system does. -/
theorem Reach.project (f : σ → τ) (h₀ : ∀ s, init s → init' (f s))
    (hstep : ∀ s a t, ok s a → step s a = some t →
      f t = f s ∨ ∃ b, ok' (f s) b ∧ step' (f s) b = some (f t)) :
    ∀ {s : σ}, Reach init step ok s → Reach init' step' ok' (f s) := by
  intro s h
  induction h with
  | start hs => exact .start (h₀ _ hs)
  | next _ hok hst ih =>
      rcases hstep _ _ _ hok hst with heq | ⟨b, hb, hst'⟩
      · exact heq ▸ ih
      · exact .next ih hb hst'

end Lib
end Yfs

import Mathlib.Data.Finset.Card
import Mathlib.Order.Defs.LinearOrder

/-!
# Ballot — what promises, proposals and votes must satisfy for at most one value to be chosen

A round-based consensus history, with nothing said about how it came about: acceptors `α`
promise rounds `ρ`, a round may propose one value, acceptors vote for rounds, and every round
has a number in a linear order `β`.  Two rounds may carry the same number; what replaces the
uniqueness of numbers is that one acceptor promises one number to one round only.

* `History` — the record of promises (with the vote reported), proposals and votes;
* `History.Sound` — the local conditions, each about one acceptor or about one round;
* `History.proposal_eq_of_chosen` — from the local conditions, the global law: once a quorum has
  voted for a round, every proposal with a number at least as large proposes the same value.
-/

namespace Yfs
namespace Lib

universe u v w x

/-- What was promised, proposed and voted so far.  A promise reports the number and the value of
the acceptor's last vote, if it had one. -/
structure History (α : Type u) (ρ : Type v) (β : Type w) (ν : Type x) where
  number : ρ → β
  promise : α → ρ → Option (β × ν) → Prop
  proposal : ρ → ν → Prop
  vote : α → ρ → Prop

namespace History

variable {α : Type u} {ρ : Type v} {β : Type w} {ν : Type x} [LinearOrder β]

/-- A proposal's value rests on a quorum of promises: it is the reported value with the largest
number, and free when nothing was reported. -/
def Backed (H : History α ρ β ν) (quorum : Set α → Prop) (r : ρ) (v : ν) : Prop :=
  ∃ q : Set α, quorum q ∧ (∀ a ∈ q, ∃ rep, H.promise a r rep) ∧
    ((∀ a ∈ q, H.promise a r none) ∨
      ∃ b, (∃ a ∈ q, H.promise a r (some (b, v))) ∧
        ∀ a ∈ q, ∀ b' v', H.promise a r (some (b', v')) → b' ≤ b)

/-- The local conditions of a history.  `rounds` bounds the rounds that propose. -/
structure Sound (H : History α ρ β ν) (quorum : Set α → Prop) (rounds : Finset ρ) : Prop where
  quorum_inter : ∀ p q, quorum p → quorum q → ∃ a, a ∈ p ∧ a ∈ q
  proposal_mem : ∀ r v, H.proposal r v → r ∈ rounds
  proposal_inj : ∀ r v v', H.proposal r v → H.proposal r v' → v = v'
  proposal_backed : ∀ r v, H.proposal r v → H.Backed quorum r v
  /-- An acceptor gives one number to one round, and with one report. -/
  promise_inj : ∀ a r r' rep rep', H.promise a r rep → H.promise a r' rep' →
    H.number r = H.number r' → r = r' ∧ rep = rep'
  /-- A promise that reports nothing rules out every vote below it. -/
  promise_none : ∀ a r r', H.promise a r none → H.vote a r' → H.number r ≤ H.number r'
  /-- A promise that reports a vote rules out every vote between that vote and itself. -/
  promise_some : ∀ a r b v, H.promise a r (some (b, v)) →
    b < H.number r ∧ (∃ r', H.number r' = b ∧ H.proposal r' v) ∧
      ∀ r', H.vote a r' → H.number r' < H.number r → H.number r' ≤ b

/-- A quorum voted for round `r`, which proposed `v`. -/
def Chosen (H : History α ρ β ν) (quorum : Set α → Prop) (r : ρ) (v : ν) : Prop :=
  H.proposal r v ∧ ∃ q, quorum q ∧ ∀ a ∈ q, H.vote a r

variable {H : History α ρ β ν} {quorum : Set α → Prop} {rounds : Finset ρ}

/-- Two rounds that both propose under one number are the same round. -/
theorem Sound.round_eq_of_number_eq (h : H.Sound quorum rounds) {r r' : ρ} {v v' : ν}
    (hr : H.proposal r v) (hr' : H.proposal r' v') (hn : H.number r = H.number r') : r = r' := by
  rcases h.proposal_backed r v hr with ⟨p, hp, hpp, _⟩
  rcases h.proposal_backed r' v' hr' with ⟨q, hq, hqq, _⟩
  rcases h.quorum_inter p q hp hq with ⟨a, hap, haq⟩
  rcases hpp a hap with ⟨rep, hrep⟩
  rcases hqq a haq with ⟨rep', hrep'⟩
  exact (h.promise_inj a r r' rep rep' hrep hrep' hn).1

/-- A proposal above a chosen round copies its value from a proposal that lies below it and not
below the chosen round. -/
theorem Sound.exists_proposal_below (h : H.Sound quorum rounds) {r r' : ρ} {v v' : ν}
    (hc : H.Chosen quorum r v) (hr' : H.proposal r' v') (hlt : H.number r < H.number r') :
    ∃ m, H.proposal m v' ∧ H.number r ≤ H.number m ∧ H.number m < H.number r' := by
  rcases hc with ⟨_, q, hq, hvote⟩
  rcases h.proposal_backed r' v' hr' with ⟨p, hp, hprom, hval⟩
  rcases h.quorum_inter p q hp hq with ⟨a, hap, haq⟩
  have hva : H.vote a r := hvote a haq
  rcases hval with hnone | ⟨b, ⟨a', ha', hrep'⟩, hmax⟩
  · -- `a` voted below the new round, so it cannot have reported nothing.
    exact absurd (h.promise_none a r' r (hnone a hap) hva) (not_le.mpr hlt)
  · rcases hprom a hap with ⟨rep, hrep⟩
    cases rep with
    | none => exact absurd (h.promise_none a r' r hrep hva) (not_le.mpr hlt)
    | some bv =>
        rcases bv with ⟨b₀, v₀⟩
        have h₀ : H.number r ≤ b₀ := (h.promise_some a r' b₀ v₀ hrep).2.2 r hva hlt
        have hb : b₀ ≤ b := hmax a hap b₀ v₀ hrep
        rcases h.promise_some a' r' b v' hrep' with ⟨hbr, ⟨m, hm, hprop⟩, _⟩
        refine ⟨m, hprop, ?_, ?_⟩
        · exact hm ▸ le_trans h₀ hb
        · exact hm ▸ hbr

/-- A proposal below another one has fewer proposing rounds below it. -/
theorem Sound.card_below_lt (h : H.Sound quorum rounds) {m r : ρ} {v : ν} (hm : H.proposal m v)
    (hlt : H.number m < H.number r) :
    (rounds.filter fun x => H.number x < H.number m).card <
      (rounds.filter fun x => H.number x < H.number r).card := by
  refine Finset.card_lt_card (Finset.ssubset_iff_of_subset ?_ |>.mpr ⟨m, ?_, ?_⟩)
  · intro x hx
    rcases Finset.mem_filter.mp hx with ⟨hx, hxm⟩
    exact Finset.mem_filter.mpr ⟨hx, lt_trans hxm hlt⟩
  · exact Finset.mem_filter.mpr ⟨h.proposal_mem m v hm, hlt⟩
  · intro hmem
    exact lt_irrefl _ (Finset.mem_filter.mp hmem).2

/-- The global law: a proposal whose number is not below that of a chosen round proposes the
chosen value. -/
theorem Sound.proposal_eq_of_chosen (h : H.Sound quorum rounds) {r : ρ} {v : ν}
    (hc : H.Chosen quorum r v) :
    ∀ {r' : ρ} {v' : ν}, H.proposal r' v' → H.number r ≤ H.number r' → v' = v := by
  -- induction on how many proposing rounds lie below `r'`: numbers need not be well ordered
  have hmain : ∀ (k : ℕ) (r' : ρ) (v' : ν),
      (rounds.filter fun m => H.number m < H.number r').card = k →
        H.proposal r' v' → H.number r ≤ H.number r' → v' = v := by
    intro k
    induction k using Nat.strong_induction_on with
    | _ k ih =>
        rintro r' v' rfl hr' hle
        rcases lt_or_eq_of_le hle with hlt | heq
        · rcases h.exists_proposal_below hc hr' hlt with ⟨m, hm, hrm, hmr⟩
          exact ih _ (h.card_below_lt hm hmr) m v' rfl hm hrm
        · have hrr : r = r' := h.round_eq_of_number_eq hc.1 hr' heq
          exact (h.proposal_inj r v v' hc.1 (hrr ▸ hr')).symm
  intro r' v' hr' hle
  exact hmain _ r' v' rfl hr' hle

/-- At most one value is chosen. -/
theorem Sound.chosen_unique (h : H.Sound quorum rounds) {r r' : ρ} {v v' : ν}
    (hc : H.Chosen quorum r v) (hc' : H.Chosen quorum r' v') : v = v' := by
  rcases le_total (H.number r) (H.number r') with hle | hle
  · exact (h.proposal_eq_of_chosen hc hc'.1 hle).symm
  · exact h.proposal_eq_of_chosen hc' hc.1 hle

end History

end Lib
end Yfs

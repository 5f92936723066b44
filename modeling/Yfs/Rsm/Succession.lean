import Mathlib.Data.List.Basic
import Yfs.Rsm.Replica

/-!
# Succession — who follows a primary that has left

The views change by one node at a time: `config::add` puts a new node at the end, and
`config::remove_wo` leaves one out and keeps the order of the others.  So the members of a view
stand in the order in which they have come, and `set_primary`, which goes through the previous view
from the front, takes the one that has been there longest (`primary_succession`).
-/

namespace Yfs
namespace Rsm

variable {N R : Type}

section

variable [DecidableEq N]

/-- The view after `c`, as `add` or `remove_wo` proposes it. -/
inductive Changed (c : List N) : List N → Prop where
  | add {m : N} : m ∉ c → Changed c (c ++ [m])
  | remove {m : N} : m ∈ c → Changed c (c.filter fun x => decide (x ≠ m))

/-- `commit_change` for the views `1` to `vid`. -/
def commitInOrder (V : Views N) (r : Replica N R) : ℕ → Option (Replica N R)
  | 0 => some r
  | vid + 1 => (commitInOrder V r vid).bind fun r => commitChangeWo V r (vid + 1)

/-- `m` is a member of all views from `u` to `vid`. -/
def Stays (V : Views N) (m : N) (u vid : ℕ) : Prop :=
  ∀ w, u ≤ w → w ≤ vid → m ∈ V.view w

/-- There is a view since which `a` has always been a member and `b` has not. -/
def Older (V : Views N) (vid : ℕ) (a b : N) : Prop :=
  ∃ u, Stays V a u vid ∧ ¬ Stays V b u vid

end

/-! ## The order of a view -/

variable {V : Views N}

theorem Stays.next {m : N} {u vid : ℕ} (h : Stays V m u vid) (hm : m ∈ V.view (vid + 1)) :
    Stays V m u (vid + 1) := by
  intro w hu hw
  rcases Nat.lt_or_eq_of_le hw with hlt | rfl
  · exact h w hu (Nat.le_of_lt_succ hlt)
  · exact hm

theorem Older.next {a b : N} {vid : ℕ} (h : Older V vid a b) (ha : a ∈ V.view (vid + 1)) :
    Older V (vid + 1) a b := by
  rcases h with ⟨u, hstay, hnot⟩
  exact ⟨u, hstay.next ha, fun hb => hnot fun w hu hw => hb w hu (Nat.le_succ_of_le hw)⟩

/-- A node that has just come is younger than those that were there. -/
theorem older_of_new {a b : N} {vid : ℕ} (ha : a ∈ V.view vid) (ha' : a ∈ V.view (vid + 1))
    (hb : b ∉ V.view vid) : Older V (vid + 1) a b := by
  have hstay : Stays V a vid vid := by
    intro w hu hw
    rw [Nat.le_antisymm hw hu]
    exact ha
  exact ⟨vid, hstay.next ha', fun h => hb (h vid (Nat.le_refl _) (Nat.le_succ _))⟩

variable [DecidableEq N]

theorem pairwise_older_next {vid : ℕ} (h : (V.view vid).Pairwise (Older V vid))
    (hc : Changed (V.view vid) (V.view (vid + 1))) :
    (V.view (vid + 1)).Pairwise (Older V (vid + 1)) := by
  generalize hnext : V.view (vid + 1) = c at hc
  cases hc with
  | add hm =>
      -- the new one stands last and is the youngest
      have hmem : ∀ a ∈ V.view vid, a ∈ V.view (vid + 1) :=
        fun a ha => hnext ▸ List.mem_append_left _ ha
      refine List.pairwise_append.2 ⟨?_, List.pairwise_singleton _ _, ?_⟩
      · exact h.imp_of_mem fun ha _ hold => hold.next (hmem _ ha)
      · intro a ha b hb
        rw [List.mem_singleton.1 hb]
        exact older_of_new ha (hmem a ha) hm
  | remove hm =>
      refine (h.filter _).imp_of_mem fun ha _ hold => hold.next ?_
      rw [hnext]
      exact ha

theorem pairwise_older {last : ℕ}
    (hviews : ∀ vid, 1 ≤ vid → vid < last → Changed (V.view vid) (V.view (vid + 1))) :
    ∀ vid, 1 ≤ vid → vid ≤ last → (V.view vid).Pairwise (Older V vid) := by
  intro vid hpos
  induction vid, hpos using Nat.le_induction with
  | base =>
      intro _
      rw [V.one]
      exact List.pairwise_singleton _ _
  | succ vid hpos ih =>
      intro hle
      exact pairwise_older_next (ih (Nat.le_of_succ_le hle)) (hviews vid hpos hle)

/-! ## The choice -/

/-- What `set_primary` makes of the primary `p` of the view before. -/
theorem setPrimary_of_changed {vid : ℕ} {p : N} (hne : V.view (vid + 1) ≠ [])
    (hc : Changed (V.view vid) (V.view (vid + 1))) (hp : p ∈ V.view vid) :
    ∃ q, setPrimary V p (vid + 1) = some q ∧ q ∈ V.view (vid + 1) ∧ q ∈ V.view vid ∧
      (p ∈ V.view (vid + 1) → q = p) ∧
      (p ∉ V.view (vid + 1) → (V.view (vid + 1)).head? = some q) := by
  by_cases hstay : p ∈ V.view (vid + 1)
  · exact ⟨p, by simp [setPrimary, hne, hstay], hstay, hp, fun _ => rfl, fun h => absurd hstay h⟩
  · generalize hnext : V.view (vid + 1) = c at hc
    cases hc with
    | add hm =>
        -- nobody leaves
        rw [hnext] at hstay
        exact absurd (List.mem_append_left _ hp) hstay
    | @remove m hm =>
        rw [hnext] at hne hstay
        -- whoever is left stands in the previous view in the same order
        have hfind : (V.view vid).find? (fun x => decide (x ∈ V.view (vid + 1))) =
            ((V.view vid).filter fun x => decide (x ≠ m)).head? := by
          rw [← List.head?_filter]
          refine congrArg List.head? (List.filter_congr fun x hx => ?_)
          simp [hnext, hx]
        cases hhead : ((V.view vid).filter fun x => decide (x ≠ m)).head? with
        | none => exact absurd (List.head?_eq_none_iff.1 hhead) hne
        | some q =>
            have hq : q ∈ (V.view vid).filter fun x => decide (x ≠ m) :=
              List.mem_of_mem_head? hhead
            refine ⟨q, ?_, hq, (List.mem_filter.1 hq).1, fun h => absurd h hstay, fun _ => rfl⟩
            rw [setPrimary, hnext, if_neg hne, if_neg hstay, Nat.add_sub_cancel, ← hhead, ← hfind,
              hnext]

theorem commitChangeWo_of_setPrimary {r : Replica N R} {vid : ℕ} {p : N} (h : r.vidCommit < vid)
    (hp : setPrimary V r.primary vid = some p) :
    commitChangeWo V r vid = some (r.commit vid p) := by
  rw [commitChangeWo, if_neg (Nat.not_le_of_lt h), hp]
  rfl

/-- The replica after view `vid`, with one of its members as primary. -/
structure Leads (V : Views N) (r : Replica N R) (vid : ℕ) : Prop where
  vidCommit : r.vidCommit = vid
  primary : r.primary ∈ V.view vid

theorem leads_one {r : Replica N R} (hvid : r.vidCommit = 0) (hprim : r.primary = V.boot) :
    commitChangeWo V r 1 = some (r.commit 1 V.boot) := by
  refine commitChangeWo_of_setPrimary (by omega) ?_
  simp [setPrimary, V.one, hprim]

theorem Leads.next {r : Replica N R} {vid : ℕ} (h : Leads V r vid) (hne : V.view (vid + 1) ≠ [])
    (hc : Changed (V.view vid) (V.view (vid + 1))) :
    ∃ q, commitChangeWo V r (vid + 1) = some (r.commit (vid + 1) q) ∧
      q ∈ V.view (vid + 1) ∧ q ∈ V.view vid ∧ (r.primary ∈ V.view (vid + 1) → q = r.primary) ∧
      (r.primary ∉ V.view (vid + 1) → (V.view (vid + 1)).head? = some q) := by
  rcases setPrimary_of_changed hne hc h.primary with ⟨q, hset, hrest⟩
  exact ⟨q, commitChangeWo_of_setPrimary (by rw [h.vidCommit]; omega) hset, hrest⟩

theorem leads_commitInOrder {last : ℕ}
    (hviews : ∀ vid, 1 ≤ vid → vid < last → Changed (V.view vid) (V.view (vid + 1)))
    (hne : ∀ vid, 1 ≤ vid → vid ≤ last → V.view vid ≠ []) {r : Replica N R}
    (hvid : r.vidCommit = 0) (hprim : r.primary = V.boot) :
    ∀ vid, 1 ≤ vid → vid ≤ last → ∃ r', commitInOrder V r vid = some r' ∧ Leads V r' vid := by
  intro vid hpos
  induction vid, hpos using Nat.le_induction with
  | base =>
      intro _
      refine ⟨r.commit 1 V.boot, leads_one hvid hprim, rfl, ?_⟩
      rw [V.one]
      exact List.mem_singleton_self _
  | succ vid hpos ih =>
      intro hle
      rcases ih (Nat.le_of_succ_le hle) with ⟨r₁, hr₁, hleads⟩
      rcases hleads.next (hne _ (Nat.le_succ_of_le hpos) hle) (hviews vid hpos hle) with
        ⟨q, hcommit, hq, _⟩
      refine ⟨r₁.commit (vid + 1) q, ?_, rfl, hq⟩
      rw [commitInOrder, hr₁, Option.bind_some, hcommit]

/-- The views `1` to `last` are committed one after the other, by a node that starts with the
bootstrap node as its primary.  No `VERIFY` fails, the primary is a member of the new view and of
the one before, and it stays primary as long as it is a member; its successor was there before
every other member. -/
theorem primary_succession {last : ℕ}
    (hviews : ∀ vid, 1 ≤ vid → vid < last → Changed (V.view vid) (V.view (vid + 1)))
    (hne : ∀ vid, 1 ≤ vid → vid ≤ last → V.view vid ≠ []) {r₀ : Replica N R}
    (hvid : r₀.vidCommit = 0) (hprim : r₀.primary = V.boot) (vid : ℕ) (hpos : 1 ≤ vid)
    (hle : vid ≤ last) :
    ∃ r r', commitInOrder V r₀ (vid - 1) = some r ∧ commitChangeWo V r vid = some r' ∧
      commitInOrder V r₀ vid = some r' ∧ r'.primary ∈ V.view vid ∧
      (2 ≤ vid → r'.primary ∈ V.view (vid - 1)) ∧
      (r'.primary ≠ r.primary → r.primary ∈ V.view (vid - 1) ∧ r.primary ∉ V.view vid) ∧
      (r.primary ∉ V.view vid →
        ∀ m ∈ V.view vid, m ≠ r'.primary → Older V vid r'.primary m) := by
  rcases Nat.lt_or_eq_of_le hpos with hlt | rfl
  · obtain ⟨v, rfl⟩ : ∃ v, vid = v + 1 := ⟨vid - 1, by omega⟩
    have hv : 1 ≤ v := Nat.le_of_lt_succ hlt
    rcases leads_commitInOrder hviews hne hvid hprim v hv (Nat.le_of_succ_le hle) with
      ⟨r, hr, hleads⟩
    rcases hleads.next (hne _ hpos hle) (hviews v hv hle) with ⟨q, hcommit, hq, hq', hsame, hhead⟩
    refine ⟨r, r.commit (v + 1) q, hr, hcommit, ?_, hq, fun _ => hq', fun hchange => ?_,
      fun hgone m hm hother => ?_⟩
    · rw [commitInOrder, hr, Option.bind_some, hcommit]
    · exact ⟨hleads.primary, fun hstay => hchange (hsame hstay)⟩
    · -- the successor is the first of the view, and the view is ordered by age
      have hold := pairwise_older hviews (v + 1) hpos hle
      rcases List.head?_eq_some_iff.1 (hhead hgone) with ⟨rest, hview⟩
      rw [hview] at hold hm
      exact (List.pairwise_cons.1 hold).1 m ((List.mem_cons.1 hm).resolve_left hother)
  · have hone : V.boot ∈ V.view 1 := by
      rw [V.one]
      exact List.mem_singleton_self _
    refine ⟨r₀, r₀.commit 1 V.boot, rfl, leads_one hvid hprim, leads_one hvid hprim, hone,
      fun h => absurd h (by decide), fun h => absurd hprim.symm h, fun h => absurd ?_ h⟩
    rw [hprim]
    exact hone

/-- Nodes 2 and 3 join node 1, which then leaves: node 2 has been there longer than node 3. -/
theorem primary_succession_growing :
    ∃ r r' : Replica ℕ ℕ, commitInOrder growing (Replica.fresh 1) 3 = some r ∧
      commitChangeWo growing r 4 = some r' ∧
      commitInOrder growing (Replica.fresh 1) 4 = some r' ∧ r'.primary ∈ growing.view 4 ∧
      (2 ≤ 4 → r'.primary ∈ growing.view 3) ∧
      (r'.primary ≠ r.primary → r.primary ∈ growing.view 3 ∧ r.primary ∉ growing.view 4) ∧
      (r.primary ∉ growing.view 4 →
        ∀ m ∈ growing.view 4, m ≠ r'.primary → Older growing 4 r'.primary m) := by
  have hviews : ∀ vid, 1 ≤ vid → vid < 4 → Changed (growing.view vid) (growing.view (vid + 1)) := by
    intro vid hpos hlt
    obtain rfl | rfl | rfl : vid = 1 ∨ vid = 2 ∨ vid = 3 := by omega
    · exact .add (by decide : 2 ∉ [1])
    · exact .add (by decide : 3 ∉ [1, 2])
    · exact .remove (by decide : 1 ∈ [1, 2, 3])
  have hne : ∀ vid, 1 ≤ vid → vid ≤ 4 → growing.view vid ≠ [] := by
    intro vid hpos hle
    obtain rfl | rfl | rfl | rfl : vid = 1 ∨ vid = 2 ∨ vid = 3 ∨ vid = 4 := by omega
    all_goals decide
  exact primary_succession hviews hne rfl rfl 4 (by decide) (by decide)

end Rsm
end Yfs

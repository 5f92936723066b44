import Mathlib.Order.Bounds.Basic
import Yfs.Rpc.Window

/-!
# Ack — what the acknowledgement window says

`update_xid_rep` is called for every xid whose reply has been taken, often twice, and in any order.
The list it keeps is a set written down economically: its front `r` stands for all of 1..`r`, and
what has been reported above `r` is listed.

* `compressLoop_spec` — one pass of the loop at the label `compress`;
* `Reports` — what a window says about the numbers reported so far, and that every call keeps it;
* `ack_window_exact` — the window after any sequence of calls.
-/

namespace Yfs
namespace Rpc

/-- The window of a client that has reported `xids`, in this order. -/
def reported (xids : List UInt32) : List UInt32 :=
  xids.foldl updateXidRep [0]

/-! ## One pass of `compress` -/

theorem toNat_succ_of_lt {f y : UInt32} (hle : f ≤ y) (h : f + 1 = y) :
    y.toNat = f.toNat + 1 := by
  rw [UInt32.le_iff_toNat_le] at hle
  have hy := congrArg UInt32.toNat h
  rw [UInt32.toNat_add, UInt32.toNat_one] at hy
  have hf := f.toNat_lt
  omega

/-- Where the front is popped at `y`, all that is left up to the iterator is `y`. -/
theorem eq_of_mem_popped {f y : UInt32} {fs : List UInt32}
    (hsorted : (f :: fs ++ [y]).Pairwise (· ≤ ·)) (hf : f + 1 = y) {z : UInt32}
    (hz : z ∈ (f :: fs).dropWhile (fun f => f + 1 == y) ++ [y]) : z = y := by
  rcases List.pairwise_append.1 hsorted with ⟨hseen, _, hlast⟩
  have hle : ∀ z ∈ f :: fs, z ≤ y := fun z hz => hlast z hz y List.mem_cons_self
  have hsucc := toNat_succ_of_lt (hle f List.mem_cons_self) hf
  rcases List.mem_append.1 hz with hz | hz
  · cases hdrop : (f :: fs).dropWhile (fun f => f + 1 == y) with
    | nil =>
        rw [hdrop] at hz
        cases hz
    | cons g gs =>
        -- the first that is not popped is above `f`, and all others are above it
        have hsub : (g :: gs).Sublist (f :: fs) := hdrop ▸ List.dropWhile_sublist _
        have hg : g + 1 ≠ y := by
          have := List.head?_dropWhile_not (fun f => f + 1 == y) (f :: fs)
          simpa [hdrop] using this
        have hfg : f ≤ g := by
          rcases List.mem_cons.1 (hsub.subset List.mem_cons_self) with heq | hmem
          · exact heq ▸ UInt32.le_refl _
          · exact (List.pairwise_cons.1 hseen).1 g hmem
        have hne : g ≠ f := fun heq => hg (heq ▸ hf)
        have hgz : g ≤ z := by
          rw [hdrop] at hz
          rcases List.mem_cons.1 hz with heq | hmem
          · exact heq ▸ UInt32.le_refl _
          · exact (List.pairwise_cons.1 (hseen.sublist hsub)).1 z hmem
        have hzy : z ≤ y := hle z (hsub.subset (hdrop ▸ hz))
        rw [Ne, ← UInt32.toNat_inj] at hne
        rw [UInt32.le_iff_toNat_le] at hfg hgz hzy
        exact UInt32.toNat_inj.1 (by omega)
  · exact List.mem_singleton.1 hz

/-- What is kept of a list: its front stands for the numbers that were dropped. -/
structure Compressed (l w : List UInt32) : Prop where
  le : l.headD 0 ≤ w.headD 0
  sub : w.Sublist l
  above : ∀ x ∈ l, w.headD 0 < x → x ∈ w
  filled : ∀ x, l.headD 0 < x → x ≤ w.headD 0 → x ∈ l

namespace Compressed

theorem refl (l : List UInt32) : Compressed l l where
  le := UInt32.le_refl _
  sub := List.Sublist.refl l
  above := fun _ hx _ => hx
  filled := fun _ hlt hle => absurd hlt (UInt32.not_lt.2 hle)

theorem trans {l m w : List UInt32} (h : Compressed l m) (h' : Compressed m w) :
    Compressed l w where
  le := UInt32.le_trans h.le h'.le
  sub := h'.sub.trans h.sub
  above := fun x hx hlt =>
    h'.above x (h.above x hx (UInt32.lt_of_le_of_lt h'.le hlt)) hlt
  filled := fun x hlt hle => by
    by_cases hm : x ≤ m.headD 0
    · exact h.filled x hlt hm
    · exact h.sub.subset (h'.filled x (UInt32.not_le.1 hm) hle)

end Compressed

/-- The front moves from `f` to its successor `y`, which nothing before `y` exceeds. -/
theorem compressed_succ {f y : UInt32} {fs ys zs : List UInt32} (hle : ∀ z ∈ f :: fs, z ≤ y)
    (hsucc : y.toNat = f.toNat + 1) (hsub : (y :: zs ++ ys).Sublist (f :: fs ++ y :: ys)) :
    Compressed (f :: fs ++ y :: ys) (y :: zs ++ ys) := by
  refine ⟨hle f List.mem_cons_self, hsub, fun x hx hlt => ?_, fun x hlt hle' => ?_⟩
  · rcases List.mem_append.1 hx with hx | hx
    · exact absurd hlt (UInt32.not_lt.2 (hle x hx))
    · rcases List.mem_cons.1 hx with rfl | hx
      · exact absurd hlt (UInt32.lt_irrefl _)
      · exact List.mem_append_right _ hx
  · -- only the successor of the old front is between the two
    have hxy : x = y := by
      change f < x at hlt
      change x ≤ y at hle'
      rw [UInt32.lt_iff_toNat_lt] at hlt
      rw [UInt32.le_iff_toNat_le] at hle'
      exact UInt32.toNat_inj.1 (by omega)
    rw [hxy]
    exact List.mem_append_right _ List.mem_cons_self

/-- The iterator moves on to `y`. -/
theorem compressed_popped {seen ys : List UInt32} {y : UInt32}
    (hsorted : (seen ++ y :: ys).Pairwise (· ≤ ·)) (hne : seen ≠ [])
    (hnext : seen.headD 0 + 1 ∉ seen) :
    Compressed (seen ++ y :: ys) (seen.dropWhile (fun f => f + 1 == y) ++ [y] ++ ys) ∧
      (seen.dropWhile (fun f => f + 1 == y) ++ [y]).headD 0 + 1 ∉
        seen.dropWhile (fun f => f + 1 == y) ++ [y] := by
  cases seen with
  | nil => exact absurd rfl hne
  | cons f fs =>
      by_cases hf : f + 1 = y
      · have hupto : (f :: fs ++ [y]).Pairwise (· ≤ ·) := by
          refine hsorted.sublist ?_
          exact List.Sublist.append_left (by simp) _
        have hle : ∀ z ∈ f :: fs, z ≤ y :=
          fun z hz => (List.pairwise_append.1 hupto).2.2 z hz y List.mem_cons_self
        have hsucc := toNat_succ_of_lt (hle f List.mem_cons_self) hf
        have hsub := popped_sublist (f :: fs) ys y
        cases hpop : (f :: fs).dropWhile (fun f => f + 1 == y) ++ [y] with
        | nil => simp at hpop
        | cons z zs =>
            -- everything that is left up to the iterator equals `y`
            have hall : ∀ x ∈ z :: zs, x = y := fun x hx => eq_of_mem_popped hupto hf (hpop ▸ hx)
            obtain rfl : z = y := hall z List.mem_cons_self
            rw [hpop] at hsub
            refine ⟨compressed_succ hle hsucc hsub, fun hmem => ?_⟩
            have heq : z + 1 = z := hall _ hmem
            have := toNat_succ_of_lt (UInt32.le_refl z) heq
            omega
      · -- the front stays, and `y` is not its successor
        have hkeep : (f :: fs).dropWhile (fun f => f + 1 == y) = f :: fs := by simp [hf]
        rw [hkeep, List.append_assoc]
        refine ⟨Compressed.refl _, ?_⟩
        intro hmem
        rcases List.mem_append.1 hmem with hmem | hmem
        · exact hnext hmem
        · exact hf (List.mem_singleton.1 hmem)

/-- The loop drops what its front stands for, and leaves no gap closed. -/
theorem compressLoop_spec (ys : List UInt32) :
    ∀ seen, (seen ++ ys).Pairwise (· ≤ ·) → seen ≠ [] → seen.headD 0 + 1 ∉ seen →
      Compressed (seen ++ ys) (compressLoop seen ys) ∧
        (compressLoop seen ys).headD 0 + 1 ∉ compressLoop seen ys := by
  induction ys with
  | nil =>
      intro seen _ _ hnext
      rw [List.append_nil]
      exact ⟨Compressed.refl seen, hnext⟩
  | cons y ys ih =>
      intro seen hsorted hne hnext
      rcases compressed_popped hsorted hne hnext with ⟨hpop, hnext'⟩
      have hloop := ih _ (hsorted.sublist hpop.sub) (by simp) hnext'
      exact ⟨hpop.trans hloop.1, hloop.2⟩

/-! ## The window as a set -/

/-- The window `w` says of the numbers above 0 which of them are in `xids`. -/
structure Reports (xids w : List UInt32) : Prop where
  nonempty : w ≠ []
  sorted : w.Pairwise (· ≤ ·)
  sub : ∀ x ∈ w, x = 0 ∨ x ∈ xids
  filled : ∀ x, 0 < x → x ≤ w.headD 0 → x ∈ xids
  above : ∀ x ∈ xids, w.headD 0 < x → x ∈ w
  next : w.headD 0 + 1 ∉ w

theorem reports_nil : Reports [] [0] := by
  constructor
  · simp
  · simp
  · intro x hx
    exact Or.inl (List.mem_singleton.1 hx)
  · intro x hlt hle
    exact absurd hlt (UInt32.not_lt.2 hle)
  · intro x hx
    cases hx
  · decide

/-- What is inserted above the front stands behind it. -/
theorem insertXid_cons {f xid : UInt32} (h : f < xid) (ys : List UInt32) :
    insertXid xid (f :: ys) = f :: insertXid xid ys :=
  if_neg fun hgt => UInt32.lt_irrefl _ (UInt32.lt_trans h hgt)

/-- An xid that the front stands for is not written down. -/
theorem Reports.skip {xids w : List UInt32} (h : Reports xids w) {xid : UInt32}
    (hle : xid ≤ w.headD 0) : Reports (xids ++ [xid]) w where
  nonempty := h.nonempty
  sorted := h.sorted
  sub := fun x hx => (h.sub x hx).imp_right fun hx => List.mem_append_left _ hx
  filled := fun x hpos hx => List.mem_append_left _ (h.filled x hpos hx)
  above := fun x hx hlt => by
    rcases List.mem_append.1 hx with hx | hx
    · exact h.above x hx hlt
    · rw [List.mem_singleton.1 hx] at hlt
      exact absurd hlt (UInt32.not_lt.2 hle)
  next := h.next

theorem Reports.insert {xids ys : List UInt32} {f xid : UInt32} (h : Reports xids (f :: ys))
    (hlt : f < xid) : Reports (xids ++ [xid]) (compress (insertXid xid (f :: ys))) := by
  have hsorted : (insertXid xid (f :: ys)).Pairwise (· ≤ ·) := sorted_insertXid h.sorted
  have hmem : ∀ x, x ∈ insertXid xid (f :: ys) ↔ x = xid ∨ x ∈ f :: ys := fun x => mem_insertXid
  rw [insertXid_cons hlt] at hsorted hmem ⊢
  have hfirst : f + 1 ∉ [f] := by
    intro hf
    have := toNat_succ_of_lt (UInt32.le_refl f) (List.mem_singleton.1 hf)
    omega
  rcases compressLoop_spec (insertXid xid ys) [f] hsorted (by simp) hfirst with ⟨hc, hnext⟩
  refine ⟨compressLoop_ne_nil _ _ (by simp), hsorted.sublist hc.sub, ?_, ?_, ?_, hnext⟩
  · intro x hx
    rcases (hmem x).1 (hc.sub.subset hx) with rfl | hx
    · exact Or.inr (by simp)
    · exact (h.sub x hx).imp_right fun hx => List.mem_append_left _ hx
  · intro x hpos hx
    by_cases hf : x ≤ f
    · exact List.mem_append_left _ (h.filled x hpos hf)
    · -- the front has moved past `x`, so `x` was in the list
      rcases (hmem x).1 (hc.filled x (UInt32.not_le.1 hf) hx) with rfl | hx
      · simp
      · rcases h.sub x hx with rfl | hx
        · exact absurd hpos (UInt32.lt_irrefl _)
        · exact List.mem_append_left _ hx
  · intro x hx hgt
    refine hc.above x ((hmem x).2 ?_) hgt
    rcases List.mem_append.1 hx with hx | hx
    · exact Or.inr (h.above x hx (UInt32.lt_of_le_of_lt hc.le hgt))
    · exact Or.inl (List.mem_singleton.1 hx)

theorem Reports.update {xids w : List UInt32} (h : Reports xids w) (xid : UInt32) :
    Reports (xids ++ [xid]) (updateXidRep w xid) := by
  unfold updateXidRep
  split
  next hle => exact h.skip hle
  next hle =>
    cases w with
    | nil => exact absurd rfl h.nonempty
    | cons f ys => exact h.insert (UInt32.not_le.1 hle)

theorem reports_reported (xids : List UInt32) : Reports xids (reported xids) := by
  induction xids using List.reverseRecOn with
  | nil => exact reports_nil
  | append_singleton xids xid ih =>
      rw [reported, List.foldl_append]
      exact ih.update xid

/-- Whatever the order and the repetitions, the front is the greatest number up to which all xids
have been reported, and the rest of the list is what has been reported above it. -/
theorem ack_window_exact (xids : List UInt32) :
    ∃ r rest, reported xids = r :: rest ∧
      IsGreatest {n : ℕ | ∀ k, 1 ≤ k → k ≤ n → ∃ x ∈ xids, x.toNat = k} r.toNat ∧
      (reported xids).Pairwise (· ≤ ·) ∧
      ∀ x, r < x → (x ∈ reported xids ↔ x ∈ xids) := by
  have h := reports_reported xids
  cases hw : reported xids with
  | nil => exact absurd hw h.nonempty
  | cons r rest =>
      rw [hw] at h
      refine ⟨r, rest, rfl, ⟨?_, ?_⟩, h.sorted, ?_⟩
      · intro k hpos hle
        have hk : (UInt32.ofNat k).toNat = k :=
          UInt32.toNat_ofNat_of_lt' (Nat.lt_of_le_of_lt hle r.toNat_lt)
        refine ⟨UInt32.ofNat k, h.filled _ ?_ ?_, hk⟩
        · rw [UInt32.lt_iff_toNat_lt, hk]
          exact hpos
        · rw [UInt32.le_iff_toNat_le, hk]
          exact hle
      · -- a longer run of reports would have its first number in the list, next to the front
        intro n hn
        by_contra hlt
        rcases hn (r.toNat + 1) (by omega) (by omega) with ⟨x, hx, hxr⟩
        have hgt : r < x := by
          rw [UInt32.lt_iff_toNat_lt]
          omega
        have hsucc : r + 1 = x := by
          apply UInt32.toNat_inj.1
          have hlt := x.toNat_lt
          rw [UInt32.toNat_add, UInt32.toNat_one, Nat.mod_eq_of_lt (by omega), hxr]
        exact h.next (hsucc ▸ h.above x hx hgt)
      · intro x hgt
        refine ⟨fun hx => ?_, fun hx => h.above x hx hgt⟩
        rcases h.sub x hx with rfl | hx
        · exact absurd hgt (UInt32.not_lt.2 UInt32.zero_le)
        · exact hx

example : reported [2, 4, 2, 1, 1, 6] = [2, 2, 4, 6] := by decide

end Rpc
end Yfs

import Yfs.Rpc.Handle

/-!
# Safebind — one handle, one answer

The comment on `safebind` promises that all calls on one `handle` answer alike: with the same
client if the first one did, and with `NULL` otherwise.  Callers rely on it and dereference what
the second call returns.

A handle that has once been answered with `NULL` keeps that answer, because `del` is never taken
back.  One that has got a client loses it when another thread calls `delete_handle` for the name,
which sets `del` under the hands of whoever uses the client.  `delete_handle` during the `bind` of a
handle does the same: the `bind` still returns the client.
-/

namespace Yfs
namespace Rpc

open Lib

variable {M H : Type}

def HandleObj.isBinding : HandleObj → Bool
  | .binding _ _ => true
  | _ => false

/-- `delete_handle` is not called for a name while a handle for it is in `bind` or has been
answered with a client. -/
def DeletesUnanswered [Fintype H] (s : Handles M H) : HandleAction M H → Prop
  | .deleteHandle m => ∀ id ∈ s.hmap m, ∀ x, 0 < (s.handle x).holds id →
      (s.handle x).isBinding = false ∧ ∀ a ∈ s.answers x, a = none
  | _ => True

instance [Fintype H] (s : Handles M H) : ∀ a, Decidable (DeletesUnanswered s a)
  | .deleteHandle m =>
      inferInstanceAs (Decidable (∀ id ∈ s.hmap m, ∀ x, 0 < (s.handle x).holds id →
        (s.handle x).isBinding = false ∧ ∀ a ∈ s.answers x, a = none))
  | .construct _ _ => isTrue trivial
  | .destroy _ => isTrue trivial
  | .safebind _ => isTrue trivial
  | .bound _ _ => isTrue trivial

namespace Handles

/-- What the answers of a handle and a `bind` that is going on say about the `hinfo`. -/
structure Fits (h : Hinfo M) (o : HandleObj) (answers : List (Option ℕ)) : Prop where
  client : ∀ c, some c ∈ answers → h.cl = some c ∧ h.del = false
  null : none ∈ answers → h.del = true
  binding : o.isBinding = true → h.cl = none ∧ h.del = false ∧ h.locked = true

structure Agreed (s : Handles M H) : Prop where
  equal : ∀ x, ∀ a ∈ s.answers x, ∀ b ∈ s.answers x, a = b
  null : ∀ x, s.handle x = .live none → ∀ a ∈ s.answers x, a = none
  fits : ∀ x id h, 0 < (s.handle x).holds id → s.heap id = some h →
    Fits h (s.handle x) (s.answers x)
  alone : ∀ x y id c c', s.handle x = .binding id c → s.handle y = .binding id c' → x = y

variable {s s' : Handles M H} {id : ℕ} {h h' : Hinfo M} {m : M} {x : H} {o : HandleObj}
  {as : List (Option ℕ)}

/-! ## What is in memory -/

theorem heap_setHinfo_cases {i : ℕ} {k : Hinfo M} (hk : (s.setHinfo id h).heap i = some k) :
    (i = id ∧ h = k) ∨ (i ≠ id ∧ s.heap i = some k) := by
  by_cases hi : i = id
  · subst hi
    refine .inl ⟨rfl, ?_⟩
    simpa [setHinfo] using hk
  · refine .inr ⟨hi, ?_⟩
    simpa [setHinfo, hi] using hk

section

variable [DecidableEq M]

theorem heap_of_free {i : ℕ} {k : Hinfo M} (hk : (s.free m id).heap i = some k) :
    i ≠ id ∧ s.heap i = some k := by
  by_cases hi : i = id
  · subst hi
    simp [free] at hk
  · refine ⟨hi, ?_⟩
    simpa [free, hi] using hk

theorem heap_of_newHinfo {i : ℕ} {k : Hinfo M} (hi : i ≠ s.next)
    (hk : (s.newHinfo m).heap i = some k) : s.heap i = some k := by
  simpa [newHinfo, hi] using hk

end

/-! ## Answers -/

theorem Fits.congr (hfits : Fits h o as) (hcl : h'.cl = h.cl) (hdel : h'.del = h.del)
    (hlocked : h'.locked = h.locked) : Fits h' o as where
  client c hc := by rw [hcl, hdel]; exact hfits.client c hc
  null hnone := by rw [hdel]; exact hfits.null hnone
  binding hb := by rw [hcl, hdel, hlocked]; exact hfits.binding hb

/-- A handle without a client and without an answer says nothing. -/
theorem fits_nil (hb : o.isBinding = false) : Fits h o [] where
  client _ hc := nomatch hc
  null hnone := nomatch hnone
  binding hb' := nomatch hb.symm.trans hb'

theorem Fits.all_none (hfits : Fits h o as) (hdel : h.del = true) : ∀ a ∈ as, a = none := by
  intro a ha
  cases a with
  | none => rfl
  | some c => exact nomatch hdel.symm.trans (hfits.client c ha).2

theorem Fits.all_client (hfits : Fits h o as) (hdel : h.del = false) {c : ℕ}
    (hc : ∀ c', h.cl = some c' → c' = c) : ∀ a ∈ as, a = some c := by
  intro a ha
  cases a with
  | none => exact nomatch hdel.symm.trans (hfits.null ha)
  | some c' => rw [hc c' (hfits.client c' ha).1]

/-- While a handle is in `bind` no handle for the same `hinfo` has an answer. -/
theorem Fits.eq_nil (hfits : Fits h o as) (hcl : h.cl = none) (hdel : h.del = false) :
    as = [] := by
  cases as with
  | nil => rfl
  | cons a as =>
      cases a with
      | none => exact nomatch hdel.symm.trans (hfits.null List.mem_cons_self)
      | some c => exact nomatch hcl.symm.trans (hfits.client c List.mem_cons_self).1

theorem equal_append {a : Option ℕ} (has : ∀ b ∈ as, b = a) :
    ∀ b ∈ as ++ [a], ∀ b' ∈ as ++ [a], b = b' := by
  have hall : ∀ b ∈ as ++ [a], b = a := by
    intro b hb
    rcases List.mem_append.1 hb with hb | hb
    · exact has b hb
    · exact List.mem_singleton.1 hb
  exact fun b hb b' hb' => (hall b hb).trans (hall b' hb').symm

theorem holds_pos_live {i : ℕ} (hpos : 0 < (HandleObj.live (some i)).holds id) : i = id := by
  by_contra hne
  simp [HandleObj.holds, hne] at hpos

theorem holds_pos_binding {i c : ℕ} (hpos : 0 < (HandleObj.binding i c).holds id) : i = id := by
  by_contra hne
  simp [HandleObj.holds, hne] at hpos

/-- An `hinfo` is written without what the answers are about. -/
theorem Agreed.fits_write (hs : s.Agreed) (hid : s.heap id = some h) (hcl : h'.cl = h.cl)
    (hdel : h'.del = h.del) (hlocked : h'.locked = h.locked) (y : H) (i : ℕ) (k : Hinfo M)
    (hpos : 0 < (s.handle y).holds i) (hk : (s.setHinfo id h').heap i = some k) :
    Fits k (s.handle y) (s.answers y) := by
  rcases heap_setHinfo_cases hk with ⟨rfl, rfl⟩ | ⟨-, hk'⟩
  · exact (hs.fits y i h hpos hid).congr hcl hdel hlocked
  · exact hs.fits y i k hpos hk'

section

variable [DecidableEq H]

/-- One handle moves. -/
theorem Agreed.move (hs : s.Agreed) (hhandle : s'.handle = Function.update s.handle x o)
    (hanswers : s'.answers = Function.update s.answers x as)
    (hequal : ∀ a ∈ as, ∀ b ∈ as, a = b) (hnull : o = .live none → ∀ a ∈ as, a = none)
    (hself : ∀ i k, 0 < o.holds i → s'.heap i = some k → Fits k o as)
    (hother : ∀ y i k, y ≠ x → 0 < (s.handle y).holds i → s'.heap i = some k →
      Fits k (s.handle y) (s.answers y))
    (halone : ∀ y i c c', y ≠ x → o = .binding i c → s.handle y ≠ .binding i c') :
    s'.Agreed := by
  have hx : s'.handle x = o := by rw [hhandle, Function.update_self]
  have hxa : s'.answers x = as := by rw [hanswers, Function.update_self]
  have hy : ∀ y, y ≠ x → s'.handle y = s.handle y := fun y hne => by
    rw [hhandle, Function.update_of_ne hne]
  have hya : ∀ y, y ≠ x → s'.answers y = s.answers y := fun y hne => by
    rw [hanswers, Function.update_of_ne hne]
  constructor
  · intro y
    by_cases hne : y = x
    · rw [hne, hxa]
      exact hequal
    · rw [hya y hne]
      exact hs.equal y
  · intro y
    by_cases hne : y = x
    · rw [hne, hx, hxa]
      exact hnull
    · rw [hy y hne, hya y hne]
      exact hs.null y
  · intro y i k
    by_cases hne : y = x
    · rw [hne, hx, hxa]
      exact hself i k
    · rw [hy y hne, hya y hne]
      exact hother y i k hne
  · intro y z i c c' hyb hzb
    by_cases hne : y = x
    · by_cases hne' : z = x
      · rw [hne, hne']
      · rw [hne, hx] at hyb
        rw [hy z hne'] at hzb
        exact absurd hzb (halone z i c c' hne' hyb)
    · by_cases hne' : z = x
      · rw [hne', hx] at hzb
        rw [hy y hne] at hyb
        exact absurd hyb (halone y i c' c hne hzb)
      · rw [hy y hne] at hyb
        rw [hy z hne'] at hzb
        exact hs.alone y z i c c' hyb hzb

end

/-! ## Steps -/

theorem fits_append {a : Option ℕ} (hfits : Fits h o as)
    (hclient : ∀ c, a = some c → h.cl = some c ∧ h.del = false) (hnull : a = none → h.del = true) :
    Fits h o (as ++ [a]) where
  client c hc := by
    rcases List.mem_append.1 hc with hc | hc
    · exact hfits.client c hc
    · exact hclient c (List.mem_singleton.1 hc).symm
  null hn := by
    rcases List.mem_append.1 hn with hn | hn
    · exact hfits.null hn
    · exact hnull (List.mem_singleton.1 hn).symm
  binding := hfits.binding

theorem agreed_init : (init : Handles M H).Agreed where
  equal _ _ ha := nomatch ha
  null _ h := nomatch h
  fits _ _ _ hpos := nomatch hpos
  alone _ _ _ _ _ h := nomatch h

section

variable [DecidableEq H]

/-- `safebind` answers `a` from the `hinfo` as it is. -/
theorem agreed_answer {a : Option ℕ} (hs : s.Agreed) (hid : s.heap id = some h)
    (has : ∀ b ∈ s.answers x, b = a)
    (hfits : Fits h (.live (some id)) (s.answers x ++ [a])) : (s.answer x id a).Agreed := by
  refine hs.move rfl rfl (equal_append has) (fun ho => nomatch ho) (fun i k hpos hk => ?_)
    (fun y i k _ hpos hk => hs.fits y i k hpos hk) (fun _ _ _ _ _ h => nomatch h)
  obtain rfl := holds_pos_live hpos
  rwa [← Option.some.inj (hid.symm.trans hk)]

/-- `safebind` goes into `bind`.  Nobody else is there, because the mutex was free. -/
theorem agreed_bind (hs : s.Agreed) (hid : s.heap id = some h)
    (hfits : Fits h (.live (some id)) (s.answers x)) (hlocked : ¬ h.locked = true)
    (hdel : h.del = false) (hc : h.cl = none) :
    Agreed
      { (s.setHinfo id { h with locked := true }).setHandle x (.binding id s.rpccs) with
        rpccs := s.rpccs + 1 } := by
  have hfree : ∀ y, 0 < (s.handle y).holds id → (s.handle y).isBinding = false := by
    intro y hpos
    by_contra hb
    exact hlocked ((hs.fits y id h hpos hid).binding (by simpa using hb)).2.2
  refine hs.move (o := .binding id s.rpccs) rfl (Function.update_eq_self x s.answers).symm
    (hs.equal x) (fun ho => by cases ho) (fun i k hpos hk => ?_) (fun y i k _ hpos hk => ?_)
    (fun y i c c' _ ho hy => ?_)
  · obtain rfl := holds_pos_binding hpos
    rcases heap_setHinfo_cases hk with ⟨-, rfl⟩ | ⟨hne, -⟩
    · exact ⟨hfits.client, hfits.null, fun _ => ⟨hc, hdel, rfl⟩⟩
    · exact absurd rfl hne
  · rcases heap_setHinfo_cases hk with ⟨rfl, rfl⟩ | ⟨-, hk'⟩
    · have hy := hs.fits y i h hpos hid
      refine ⟨hy.client, hy.null, fun hb => ?_⟩
      rw [hfree y hpos] at hb
      cases hb
    · exact hs.fits y i k hpos hk'
  · obtain ⟨rfl, -⟩ := HandleObj.binding.inj ho
    have hpos : 0 < (s.handle y).holds id := by rw [hy]; simp [HandleObj.holds]
    have hb := hfree y hpos
    rw [hy] at hb
    cases hb

theorem agreed_safebind (hs : s.Agreed) (hstep : s.safebind x = some s') : s'.Agreed := by
  unfold safebind at hstep
  split at hstep
  · rename_i hlive
    cases hstep
    have hnone := hs.null x hlive
    refine hs.move (o := .live none) ?_ rfl (equal_append hnone) (fun _ a ha => ?_)
      (fun i k hpos _ => by cases hpos) (fun y i k _ hpos hk => hs.fits y i k hpos hk)
      (fun _ _ _ _ _ h => by cases h)
    · rw [← hlive, Function.update_eq_self]
    · rcases List.mem_append.1 ha with ha | ha
      · exact hnone a ha
      · exact List.mem_singleton.1 ha
  · rename_i id hlive
    split at hstep
    · cases hstep
    · rename_i h hid
      have hfits : Fits h (.live (some id)) (s.answers x) := by
        have hpos : 0 < (s.handle x).holds id := by rw [hlive]; simp [HandleObj.holds]
        rw [← hlive]
        exact hs.fits x id h hpos hid
      split at hstep
      · cases hstep
      · rename_i hlocked
        split at hstep
        · rename_i hdel
          cases hstep
          exact agreed_answer hs hid (hfits.all_none hdel)
            (fits_append hfits (fun c hc => by cases hc) fun _ => hdel)
        · rename_i hdel
          have hdel' : h.del = false := by simpa using hdel
          split at hstep
          · rename_i c hc
            cases hstep
            refine agreed_answer hs hid (hfits.all_client hdel' fun c' hc' => ?_)
              (fits_append hfits (fun c' hc' => ?_) fun hn => by cases hn)
            · exact Option.some.inj (hc'.symm.trans hc)
            · exact ⟨hc.trans hc', hdel'⟩
          · rename_i hc
            cases hstep
            exact agreed_bind hs hid hfits hlocked hdel' hc
  · cases hstep

theorem agreed_bound {ok : Bool} (hs : s.Agreed) (hstep : s.bound x ok = some s') : s'.Agreed := by
  unfold bound at hstep
  split at hstep
  · rename_i id c hbinding
    split at hstep
    · cases hstep
    · rename_i h hid
      have hholds : ∀ y i c', s.handle y = .binding i c' → 0 < (s.handle y).holds i := by
        intro y i c' hy
        rw [hy]
        simp [HandleObj.holds]
      have hfits := hs.fits x id h (hholds x id c hbinding) hid
      obtain ⟨hcl, hdel, -⟩ := hfits.binding (by rw [hbinding]; rfl)
      have hnil := hfits.eq_nil hcl hdel
      -- no handle has an answer from this `hinfo`, and no other one is in `bind`
      have hmove : ∀ (k : Hinfo M) (a : Option ℕ),
          (∀ c, a = some c → k.cl = some c ∧ k.del = false) → (a = none → k.del = true) →
          ((s.setHinfo id k).answer x id a).Agreed := by
        intro k a hclient hnull
        refine hs.move rfl rfl (equal_append ?_) (fun ho => by cases ho) (fun i k' hpos hk' => ?_)
          (fun y i k' hne hpos hk' => ?_) (fun _ _ _ _ _ h => by cases h)
        · intro b hb
          have hempty : b ∈ ([] : List (Option ℕ)) := hnil ▸ hb
          cases hempty
        · obtain rfl := holds_pos_live hpos
          rcases heap_setHinfo_cases hk' with ⟨-, rfl⟩ | ⟨hne, -⟩
          · have hempty : (s.setHinfo id k).answers x = [] := hnil
            rw [hempty]
            exact fits_append (fits_nil rfl) hclient hnull
          · exact absurd rfl hne
        · rcases heap_setHinfo_cases hk' with ⟨rfl, rfl⟩ | ⟨-, hk'⟩
          · have hy := hs.fits y i h hpos hid
            rw [hy.eq_nil hcl hdel]
            refine fits_nil ?_
            cases ho : s.handle y with
            | binding i' c' =>
                rw [ho] at hpos
                obtain rfl := holds_pos_binding hpos
                exact absurd (hs.alone y x _ c' c ho hbinding) hne
            | dead | live _ => rfl
          · exact hs.fits y i k' hpos hk'
      split at hstep
      · cases hstep
        exact hmove _ _ (fun c' hc' => ⟨hc', hdel⟩) fun hn => by cases hn
      · cases hstep
        refine hmove _ _ (fun c' hc' => ?_) fun _ => rfl
        rw [hcl] at hc'
        cases hc'
  · cases hstep

end

variable [Fintype H]

/-- Nobody holds what is not in memory. -/
theorem Managed.ne_of_holds (hs : s.Managed) {y : H} {i : ℕ} (hpos : 0 < (s.handle y).holds i)
    (hnone : s.heap id = none) : i ≠ id := by
  rintro rfl
  have hcount := holds_le_count s y i
  have hzero := hs.absent i hnone
  omega

variable [DecidableEq M]

theorem agreed_deleteHandleWo (hs : s.Agreed) (hok : DeletesUnanswered s (.deleteHandle m))
    (hstep : s.deleteHandleWo m = some s') : s'.Agreed := by
  unfold deleteHandleWo at hstep
  split at hstep
  · cases hstep
    exact hs
  · rename_i id hmap
    split at hstep
    · cases hstep
    · rename_i h hid
      split at hstep
      · cases hstep
        exact ⟨hs.equal, hs.null,
          fun x i k hpos hk => hs.fits x i k hpos (heap_of_free hk).2, hs.alone⟩
      · cases hstep
        refine ⟨hs.equal, hs.null, fun x i k hpos hk => ?_, hs.alone⟩
        rcases heap_setHinfo_cases hk with ⟨rfl, rfl⟩ | ⟨-, hk'⟩
        · -- nobody has an answer that `del` would contradict
          rcases hok i hmap x hpos with ⟨hb, hnone⟩
          refine ⟨fun c hc => ?_, fun _ => rfl, fun hb' => nomatch hb.symm.trans hb'⟩
          exact nomatch hnone _ hc
        · exact hs.fits x i k hpos hk'

variable [DecidableEq H]

theorem agreed_construct (hm : s.Managed) (hs : s.Agreed) (hstep : s.construct x m = some s') :
    s'.Agreed := by
  unfold construct at hstep
  split at hstep
  · rcases Option.map_eq_some_iff.1 hstep with ⟨⟨s₁, o⟩, hget, rfl⟩
    -- the other handles keep what they have
    have hkeep : s₁.handle = s.handle ∧ s₁.answers = s.answers ∧
        ∀ y i k, 0 < (s.handle y).holds i → s₁.heap i = some k →
          Fits k (s.handle y) (s.answers y) := by
      unfold getHandle at hget
      split at hget
      · obtain ⟨rfl, -⟩ := Prod.mk.inj (Option.some.inj hget)
        refine ⟨rfl, rfl, fun y i k hpos hk => hs.fits y i k hpos ?_⟩
        exact heap_of_newHinfo (hm.ne_of_holds hpos (hm.fresh _ (Nat.le_refl _))) hk
      · split at hget
        · cases hget
        · rename_i id _ h hid
          split at hget
          · obtain ⟨rfl, -⟩ := Prod.mk.inj (Option.some.inj hget)
            exact ⟨rfl, rfl, hs.fits⟩
          · obtain ⟨rfl, -⟩ := Prod.mk.inj (Option.some.inj hget)
            exact ⟨rfl, rfl, hs.fits_write hid rfl rfl rfl⟩
    obtain ⟨hhandle, hanswers, hfits⟩ := hkeep
    have hhandle' :
        Function.update s₁.handle x (.live o) = Function.update s.handle x (.live o) := by
      rw [hhandle]
    have hanswers' : Function.update s₁.answers x [] = Function.update s.answers x [] := by
      rw [hanswers]
    exact hs.move hhandle' hanswers' (fun a ha => nomatch ha) (fun _ a ha => nomatch ha)
      (fun i k _ _ => fits_nil rfl) (fun y i k _ hpos hk => hfits y i k hpos hk)
      (fun _ _ _ _ _ h => nomatch h)
  · cases hstep

theorem agreed_destroy (hm : s.Managed) (hs : s.Agreed) (hstep : s.destroy x = some s') :
    s'.Agreed := by
  -- whatever the object was, it holds nothing any more
  have hdead : ∀ s₁ : Handles M H, s₁.handle = s.handle → s₁.answers = s.answers →
      (∀ y i k, 0 < (s.handle y).holds i → s₁.heap i = some k →
        Fits k (s.handle y) (s.answers y)) →
      (s₁.setHandle x .dead).Agreed := by
    intro s₁ hhandle hanswers hfits
    refine hs.move (x := x) (o := .dead) ?_ ?_ (hs.equal x) (fun h => nomatch h)
      (fun i k hpos _ => nomatch hpos) (fun y i k _ hpos hk => hfits y i k hpos hk)
      (fun _ _ _ _ _ h => nomatch h)
    · rw [setHandle, hhandle]
    · rw [Function.update_eq_self]
      exact hanswers
  unfold destroy at hstep
  split at hstep
  · cases hstep
    exact hdead s rfl rfl hs.fits
  · rename_i id hlive
    cases hid : s.heap id with
    | none =>
        rw [doneHandle, hid] at hstep
        cases hstep
    | some h =>
        rw [doneHandle_eq hm hid, Option.map_some] at hstep
        cases hstep
        split
        · refine hdead _ rfl rfl fun y i k hpos hk => ?_
          exact hs.fits_write hid (by rfl) (by rfl) (by rfl) y i k hpos (heap_of_free hk).2
        · exact hdead _ rfl rfl (hs.fits_write hid rfl rfl rfl)
  · cases hstep

theorem Agreed.step {a : HandleAction M H} (hm : s.Managed) (hs : s.Agreed)
    (hok : DeletesUnanswered s a) (hstep : handleStep s a = some s') : s'.Agreed := by
  cases a with
  | construct x m => exact agreed_construct hm hs hstep
  | destroy x => exact agreed_destroy hm hs hstep
  | safebind x => exact agreed_safebind hs hstep
  | bound x ok => exact agreed_bound hs hstep
  | deleteHandle m => exact agreed_deleteHandleWo hs hok hstep

end Handles

variable [DecidableEq M] [DecidableEq H]

/-- As long as `delete_handle` is not called for a name while a handle for it is in `bind` or has
got a client, all answers of `safebind` on one object are the same. -/
theorem safebind_constant [Fintype H] {s : Handles M H}
    (h : Reach HandleInit handleStep DeletesUnanswered s) (x : H) :
    ∀ a ∈ s.answers x, ∀ b ∈ s.answers x, a = b := by
  have hagreed : s.Agreed := by
    refine Reach.invariant_with (J := Handles.Managed) (I := Handles.Agreed)
      Handles.managed_of_reach ?_ (fun s a t hm _ hs hok hst => hs.step hm hok hst) h
    rintro s rfl
    exact Handles.agreed_init
  exact hagreed.equal x

/-- Two handles bind, ask again, and the name is deleted when they are gone. -/
theorem safebind_constant_twice :
    ∃ s : Handles ℕ (Fin 2), Reach HandleInit handleStep DeletesUnanswered s ∧
      s.answers 0 = [some 0, some 0] ∧ s.hmap 7 = none ∧
      ∀ a ∈ s.answers 0, ∀ b ∈ s.answers 0, a = b := by
  obtain ⟨s, hreach, hanswers, hmap⟩ :
      ∃ s : Handles ℕ (Fin 2), Reach HandleInit handleStep DeletesUnanswered s ∧
        s.answers 0 = [some 0, some 0] ∧ s.hmap 7 = none :=
    Reach.exists_of_runFrom
      (P := fun s : Handles ℕ (Fin 2) => s.answers 0 = [some 0, some 0] ∧ s.hmap 7 = none)
      [.construct 0 7, .safebind 0, .bound 0 true, .construct 1 7, .safebind 1, .safebind 0,
        .destroy 1, .destroy 0, .deleteHandle 7] rfl (by decide +kernel)
  exact ⟨s, hreach, hanswers, hmap, safebind_constant hreach 0⟩

/-- `delete_handle` between two calls of `safebind`: the second one answers `NULL`.  So it does when
`delete_handle` comes during the `bind` of the first call. -/
theorem safebind_changes :
    (∃ s : Handles ℕ (Fin 1), Reach HandleInit handleStep anyStep s ∧
      s.answers 0 = [some 0, none]) ∧
    (∃ s : Handles ℕ (Fin 1), runFrom handleStep anyStep .init
        [.construct 0 7, .safebind 0, .deleteHandle 7, .bound 0 true, .safebind 0] = some s ∧
      s.answers 0 = [some 0, none]) := by
  constructor
  · exact Reach.exists_of_runFrom
      (P := fun s : Handles ℕ (Fin 1) => s.answers 0 = [some 0, none])
      [.construct 0 7, .safebind 0, .bound 0 true, .deleteHandle 7, .safebind 0] rfl
      (by decide +kernel)
  · exact exists_runFrom (P := fun s : Handles ℕ (Fin 1) => s.answers 0 = [some 0, none])
      (by decide +kernel)

end Rpc
end Yfs

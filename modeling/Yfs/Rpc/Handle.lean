import Yfs.Lib.Run
import Yfs.Lib.Weight

/-!
# Handle — `handle.cc`, the cache of RPC clients

`handle_mgr` keeps one `hinfo` for each name.  The `handle` objects for that name share it and
count themselves in `refcnt`; it is freed when it is to be deleted and nobody uses it any more.
Three places ask for a deletion: a `bind` that failed, `delete_handle`, and the last
`done_handle`.

The functions of the manager run under `handle_mutex`, `safebind` only under the `cl_mutex` of the
`hinfo`.  It is cut in two at `bind`, which may block and during which `cl_mutex` stays taken
(`locked`); everything of the manager may happen in between.

`none` is the use of an `hinfo` that has been freed, a wait for a mutex, or something that a program
does not do with an object, such as destroying it twice or in the middle of `safebind`.
-/

namespace Yfs
namespace Rpc

open Lib

/-- `rpcc` objects are numbered in the order in which they are created. -/
structure Hinfo (M : Type) where
  cl : Option ℕ
  refcnt : ℤ
  del : Bool
  m : M
  locked : Bool
  deriving DecidableEq, Repr

inductive HandleObj
  /-- Not constructed, or destroyed. -/
  | dead
  /-- With its `h`, which may be `NULL`. -/
  | live (h : Option ℕ)
  /-- In the `bind` of `safebind`, for the new client `cl`. -/
  | binding (h cl : ℕ)
  deriving DecidableEq, Repr

/-- The number of references to `id` that the object has. -/
def HandleObj.holds (id : ℕ) : HandleObj → ℕ
  | .dead => 0
  | .live none => 0
  | .live (some i) => if i = id then 1 else 0
  | .binding i _ => if i = id then 1 else 0

/-- The manager, the memory it allocates, the `handle` objects, and what `safebind` has answered
for each of them since it was constructed. -/
structure Handles (M H : Type) where
  hmap : M → Option ℕ
  heap : ℕ → Option (Hinfo M)
  next : ℕ
  rpccs : ℕ
  handle : H → HandleObj
  answers : H → List (Option ℕ)

variable {M H : Type}

namespace Handles

def init : Handles M H where
  hmap _ := none
  heap _ := none
  next := 0
  rpccs := 0
  handle _ := .dead
  answers _ := []

def setHinfo (s : Handles M H) (id : ℕ) (h : Hinfo M) : Handles M H :=
  { s with heap := Function.update s.heap id (some h) }

variable [DecidableEq H]

def setHandle (s : Handles M H) (x : H) (o : HandleObj) : Handles M H :=
  { s with handle := Function.update s.handle x o }

/-- `safebind` returns `a`. -/
def answer (s : Handles M H) (x : H) (id : ℕ) (a : Option ℕ) : Handles M H :=
  { s with
    handle := Function.update s.handle x (.live (some id))
    answers := Function.update s.answers x (s.answers x ++ [a]) }

/-! ## The manager -/

variable [DecidableEq M]

def newHinfo (s : Handles M H) (m : M) : Handles M H :=
  { s with
    hmap := Function.update s.hmap m (some s.next)
    heap := Function.update s.heap s.next (some
      { cl := none
        refcnt := 1
        del := false
        m := m
        locked := false })
    next := s.next + 1 }

def getHandle (s : Handles M H) (m : M) : Option (Handles M H × Option ℕ) :=
  match s.hmap m with
  | none => some (s.newHinfo m, some s.next)
  | some id =>
      match s.heap id with
      | none => none
      | some h =>
          if h.del then
            some (s, none)
          else
            some (s.setHinfo id { h with refcnt := h.refcnt + 1 }, some id)

def free (s : Handles M H) (m : M) (id : ℕ) : Handles M H :=
  { s with
    hmap := Function.update s.hmap m none
    heap := Function.update s.heap id none }

def deleteHandleWo (s : Handles M H) (m : M) : Option (Handles M H) :=
  match s.hmap m with
  | none => some s
  | some id =>
      match s.heap id with
      | none => none
      | some h =>
          if h.refcnt = 0 then
            some (s.free m id)
          else
            some (s.setHinfo id { h with del := true })

def doneHandle (s : Handles M H) (id : ℕ) : Option (Handles M H) :=
  match s.heap id with
  | none => none
  | some h =>
      if h.refcnt - 1 = 0 ∧ h.del = true then
        (s.setHinfo id { h with refcnt := h.refcnt - 1 }).deleteHandleWo h.m
      else
        some (s.setHinfo id { h with refcnt := h.refcnt - 1 })

/-! ## The objects -/

def construct (s : Handles M H) (x : H) (m : M) : Option (Handles M H) :=
  match s.handle x with
  | .dead =>
      (s.getHandle m).map fun r =>
        { r.1.setHandle x (.live r.2) with answers := Function.update r.1.answers x [] }
  | _ => none

def destroy (s : Handles M H) (x : H) : Option (Handles M H) :=
  match s.handle x with
  | .live none => some (s.setHandle x .dead)
  | .live (some id) => (s.doneHandle id).map fun s' => s'.setHandle x .dead
  | _ => none

/-- `safebind` up to its return or its `bind`. -/
def safebind (s : Handles M H) (x : H) : Option (Handles M H) :=
  match s.handle x with
  | .live none =>
      some { s with answers := Function.update s.answers x (s.answers x ++ [none]) }
  | .live (some id) =>
      match s.heap id with
      | none => none
      | some h =>
          if h.locked then
            none
          else if h.del then
            some (s.answer x id none)
          else
            match h.cl with
            | some c => some (s.answer x id (some c))
            | none =>
                some
                  { (s.setHinfo id { h with locked := true }).setHandle x
                      (.binding id s.rpccs) with
                    rpccs := s.rpccs + 1 }
  | _ => none

/-- `bind` returns, `ok` or not. -/
def bound (s : Handles M H) (x : H) (ok : Bool) : Option (Handles M H) :=
  match s.handle x with
  | .binding id c =>
      match s.heap id with
      | none => none
      | some h =>
          if ok then
            some ((s.setHinfo id { h with cl := some c, locked := false }).answer x id (some c))
          else
            -- `delete cl; h->del = true`, and `h->cl` is returned
            some ((s.setHinfo id { h with del := true, locked := false }).answer x id h.cl)
  | _ => none

end Handles

inductive HandleAction (M H : Type)
  | construct (x : H) (m : M)
  | destroy (x : H)
  | safebind (x : H)
  | bound (x : H) (ok : Bool)
  | deleteHandle (m : M)

section

variable [DecidableEq M] [DecidableEq H]

def handleStep (s : Handles M H) : HandleAction M H → Option (Handles M H)
  | .construct x m => s.construct x m
  | .destroy x => s.destroy x
  | .safebind x => s.safebind x
  | .bound x ok => s.bound x ok
  | .deleteHandle m => s.deleteHandleWo m

def HandleInit (s : Handles M H) : Prop :=
  s = .init

end

/-! ## Counting references -/

variable [Fintype H]

namespace Handles

/-- The number of `handle` objects that hold `id`. -/
def count (s : Handles M H) (id : ℕ) : ℕ :=
  total (HandleObj.holds id) s.handle

theorem holds_le_count (s : Handles M H) (x : H) (id : ℕ) : (s.handle x).holds id ≤ s.count id :=
  le_total _ _ _

section

variable [DecidableEq H]

theorem count_of_update {s s' : Handles M H} {x : H} {o : HandleObj}
    (h : s'.handle = Function.update s.handle x o) (id : ℕ) :
    s'.count id + (s.handle x).holds id = s.count id + o.holds id := by
  rw [count, h]
  exact total_update _ _ _ _

theorem count_setHandle {s s₁ : Handles M H} (h : s₁.handle = s.handle) (x : H) (o : HandleObj)
    (id : ℕ) : (s₁.setHandle x o).count id + (s.handle x).holds id = s.count id + o.holds id :=
  count_of_update (by rw [setHandle, h]) id

/-- The map and the memory agree, and every `hinfo` counts its references. -/
structure Managed (s : Handles M H) : Prop where
  found : ∀ m id, s.hmap m = some id → ∃ h, s.heap id = some h ∧ h.m = m
  named : ∀ id h, s.heap id = some h → s.hmap h.m = some id
  refcnt : ∀ id h, s.heap id = some h → h.refcnt = s.count id
  absent : ∀ id, s.heap id = none → s.count id = 0
  del : ∀ id h, s.heap id = some h → h.del = true → 0 < h.refcnt
  fresh : ∀ id, s.next ≤ id → s.heap id = none

end

variable {s s' : Handles M H} {id : ℕ} {h h' : Hinfo M} {m : M} {x : H}

/-- Nothing but `handle` objects change, and none of them takes or drops a reference. -/
theorem Managed.same (hs : s.Managed) (hhmap : s'.hmap = s.hmap) (hheap : s'.heap = s.heap)
    (hnext : s'.next = s.next) (hcount : ∀ i, s'.count i = s.count i) : s'.Managed where
  found := by rw [hhmap, hheap]; exact hs.found
  named := by rw [hhmap, hheap]; exact hs.named
  refcnt i h := by rw [hheap, hcount]; exact hs.refcnt i h
  absent i := by rw [hheap, hcount]; exact hs.absent i
  del := by rw [hheap]; exact hs.del
  fresh := by rw [hheap, hnext]; exact hs.fresh

theorem Managed.lt_next (hs : s.Managed) (hid : s.heap id = some h) : id < s.next := by
  by_contra hlt
  exact nomatch hid.symm.trans (hs.fresh id (Nat.not_lt.mp hlt))

section

variable [DecidableEq M]

/-- The memory at `id` is written, which belongs to the name `m`, and the map with it. -/
theorem Managed.put {o : Option (Hinfo M)} (hs : s.Managed)
    (hm : s.hmap m = none ∨ s.hmap m = some id) (hold : ∀ h, s.heap id = some h → h.m = m)
    (hhmap : s'.hmap = Function.update s.hmap m (o.map fun _ => id))
    (hheap : s'.heap = Function.update s.heap id o)
    (hnew : ∀ h, o = some h →
      h.m = m ∧ h.refcnt = s'.count id ∧ (h.del = true → 0 < h.refcnt) ∧ id < s'.next)
    (hzero : o = none → s'.count id = 0) (hnext : s.next ≤ s'.next)
    (hcount : ∀ i, i ≠ id → s'.count i = s.count i) : s'.Managed := by
  have hself : s'.heap id = o := by rw [hheap, Function.update_self]
  have hother : ∀ i, i ≠ id → s'.heap i = s.heap i := fun i hi => by
    rw [hheap, Function.update_of_ne hi]
  have hmap : s'.hmap m = o.map fun _ => id := by rw [hhmap, Function.update_self]
  -- the other names have the other numbers
  have hname : ∀ i k, i ≠ id → s.heap i = some k → k.m ≠ m := by
    rintro i k hi hk rfl
    have hnamed := hs.named i k hk
    rcases hm with hm | hm
    · exact nomatch hm.symm.trans hnamed
    · exact hi (Option.some.inj (hnamed.symm.trans hm))
  constructor
  · intro m' i hmi
    by_cases hm' : m' = m
    · rw [hm', hmap] at hmi
      rcases Option.map_eq_some_iff.1 hmi with ⟨h, ho, rfl⟩
      exact ⟨h, hself.trans ho, hm' ▸ (hnew h ho).1⟩
    · rw [hhmap, Function.update_of_ne hm'] at hmi
      rcases hs.found m' i hmi with ⟨k, hk, hkm⟩
      have hi : i ≠ id := by
        rintro rfl
        exact hm' (hkm.symm.trans (hold k hk))
      exact ⟨k, (hother i hi).trans hk, hkm⟩
  · intro i k hk
    by_cases hi : i = id
    · subst hi
      have ho := hself.symm.trans hk
      rw [(hnew k ho).1, hmap, ho, Option.map_some]
    · have hk' := (hother i hi).symm.trans hk
      rw [hhmap, Function.update_of_ne (hname i k hi hk')]
      exact hs.named i k hk'
  · intro i k hk
    by_cases hi : i = id
    · subst hi
      exact (hnew k (hself.symm.trans hk)).2.1
    · rw [hcount i hi]
      exact hs.refcnt i k ((hother i hi).symm.trans hk)
  · intro i hi
    by_cases hne : i = id
    · subst hne
      exact hzero (hself.symm.trans hi)
    · rw [hcount i hne]
      exact hs.absent i ((hother i hne).symm.trans hi)
  · intro i k hk
    by_cases hi : i = id
    · subst hi
      exact (hnew k (hself.symm.trans hk)).2.2.1
    · exact hs.del i k ((hother i hi).symm.trans hk)
  · intro i hi
    by_cases hne : i = id
    · subst hne
      cases ho : o with
      | none => exact hself.trans ho
      | some h => exact absurd (hnew h ho).2.2.2 (Nat.not_lt.mpr hi)
    · exact (hother i hne).trans (hs.fresh i (Nat.le_trans hnext hi))

/-- An `hinfo` is written, and its counter is right again. -/
theorem Managed.write (hs : s.Managed) (hid : s.heap id = some h) (hhmap : s'.hmap = s.hmap)
    (hheap : s'.heap = Function.update s.heap id (some h')) (hm : h'.m = h.m)
    (hnext : s'.next = s.next) (hrefcnt : h'.refcnt = s'.count id)
    (hcount : ∀ i, i ≠ id → s'.count i = s.count i) (hdel : h'.del = true → 0 < h'.refcnt) :
    s'.Managed := by
  have hnamed := hs.named id h hid
  refine hs.put (m := h.m) (o := some h') (.inr hnamed) ?_ ?_ hheap ?_ (fun ho => nomatch ho)
    (Nat.le_of_eq hnext.symm) hcount
  · intro k hk
    rw [Option.some.inj (hk.symm.trans hid)]
  · rw [hhmap, Option.map_some, ← hnamed, Function.update_eq_self]
  · rintro k hk
    obtain rfl : h' = k := Option.some.inj hk
    exact ⟨hm, hrefcnt, hdel, hnext ▸ hs.lt_next hid⟩

end

/-! ## Steps -/

theorem managed_init : (init : Handles M H).Managed where
  found _ _ h := nomatch h
  named _ _ h := nomatch h
  refcnt _ _ h := nomatch h
  absent _ _ := Finset.sum_eq_zero fun _ _ => rfl
  del _ _ h := nomatch h
  fresh _ _ := rfl

section

variable [DecidableEq M]

/-- `delete_handle_wo` frees what has no reference and marks what has. -/
theorem managed_deleteHandleWo (hs : s.Managed) (hstep : s.deleteHandleWo m = some s') :
    s'.Managed := by
  unfold deleteHandleWo at hstep
  split at hstep
  · cases hstep
    exact hs
  · rename_i id hm
    split at hstep
    · cases hstep
    · rename_i h hid
      have hrefcnt := hs.refcnt id h hid
      split at hstep
      · rename_i hzero
        cases hstep
        refine hs.put (o := none) (.inr hm) ?_ rfl rfl (fun k hk => nomatch hk) (fun _ => ?_)
          (Nat.le_refl _) fun i _ => rfl
        · rintro k hk
          rcases hs.found m id hm with ⟨k', hk', hname⟩
          rwa [Option.some.inj (hk.symm.trans hk')]
        · rw [hzero] at hrefcnt
          exact_mod_cast hrefcnt.symm
      · rename_i hpos
        cases hstep
        -- a counter is never negative, so one that is not 0 leaves somebody to free the `hinfo`
        refine hs.write hid rfl rfl rfl rfl hrefcnt (fun i _ => rfl) fun _ => ?_
        show 0 < h.refcnt
        omega

/-- `done_handle` finds the `hinfo` under its name, and frees it with the last reference when it is
to be deleted. -/
theorem doneHandle_eq (hs : s.Managed) (hid : s.heap id = some h) :
    s.doneHandle id = some
      (if h.refcnt - 1 = 0 ∧ h.del = true then
        (s.setHinfo id { h with refcnt := h.refcnt - 1 }).free h.m id
      else
        s.setHinfo id { h with refcnt := h.refcnt - 1 }) := by
  have hnamed := hs.named id h hid
  unfold doneHandle
  rw [hid]
  dsimp only
  split
  · rename_i hlast
    simp [deleteHandleWo, setHinfo, hnamed, hlast.1]
  · rfl

end

variable [DecidableEq H]

/-- In `safebind` a handle keeps its reference. -/
theorem count_of_keep {o : HandleObj} (hhandle : s'.handle = Function.update s.handle x o)
    (hkeep : ∀ i, o.holds i = (s.handle x).holds i) (i : ℕ) : s'.count i = s.count i := by
  have hcount := count_of_update hhandle i
  rw [hkeep i] at hcount
  omega

variable [DecidableEq M]

/-- Constructing a handle adds its reference to `id`, if it gets one. -/
theorem managed_construct (hs : s.Managed) (hstep : s.construct x m = some s') : s'.Managed := by
  unfold construct at hstep
  split at hstep
  · rename_i hdead
    rcases Option.map_eq_some_iff.1 hstep with ⟨⟨s₁, o⟩, hget, rfl⟩
    have hcount : ∀ i, s₁.handle = s.handle →
        Handles.count
            { s₁.setHandle x (.live o) with answers := Function.update s₁.answers x [] } i =
          s.count i + (HandleObj.live o).holds i := by
      intro i hhandle
      have hupdate := count_setHandle hhandle x (.live o) i
      rwa [hdead] at hupdate
    unfold getHandle at hget
    split at hget
    · -- a new `hinfo`, with this handle as its only user
      rename_i hnone
      obtain ⟨rfl, rfl⟩ := Prod.mk.inj (Option.some.inj hget)
      have hheap : s.heap s.next = none := hs.fresh _ (Nat.le_refl _)
      refine hs.put (.inl hnone) (fun h hh => nomatch hheap.symm.trans hh) rfl rfl ?_
        (fun ho => nomatch ho) (Nat.le_succ _) ?_
      · rintro h hh
        obtain rfl := Option.some.inj hh
        refine ⟨rfl, ?_, (fun hdel => nomatch hdel), Nat.lt_succ_self _⟩
        rw [hcount _ rfl, hs.absent _ hheap]
        simp [HandleObj.holds]
      · intro i hi
        rw [hcount i rfl]
        simp [HandleObj.holds, hi.symm]
    · rename_i id hsome
      split at hget
      · cases hget
      · rename_i h hid
        split at hget
        · -- it is to be deleted: the handle gets `NULL`
          obtain ⟨rfl, rfl⟩ := Prod.mk.inj (Option.some.inj hget)
          exact hs.same rfl rfl rfl fun i => hcount i rfl
        · rename_i hdel
          obtain ⟨rfl, rfl⟩ := Prod.mk.inj (Option.some.inj hget)
          refine hs.write hid rfl rfl rfl rfl ?_ ?_ fun hd => absurd hd hdel
          · rw [hcount id rfl]
            simp [HandleObj.holds, hs.refcnt id h hid]
          · intro i hi
            rw [hcount i rfl]
            simp [HandleObj.holds, hi.symm]
  · cases hstep

theorem managed_destroy (hs : s.Managed) (hstep : s.destroy x = some s') : s'.Managed := by
  unfold destroy at hstep
  split at hstep
  · rename_i hlive
    cases hstep
    refine hs.same rfl rfl rfl fun i => ?_
    have hcount := count_setHandle (s := s) rfl x .dead i
    rwa [hlive] at hcount
  · rename_i id hlive
    have hcount : ∀ s₁ : Handles M H, s₁.handle = s.handle → ∀ i,
        (s₁.setHandle x .dead).count i + (HandleObj.live (some id)).holds i = s.count i := by
      intro s₁ hhandle i
      have hupdate := count_setHandle hhandle x .dead i
      rwa [hlive] at hupdate
    have hother : ∀ s₁ : Handles M H, s₁.handle = s.handle → ∀ i, i ≠ id →
        (s₁.setHandle x .dead).count i = s.count i := by
      intro s₁ hhandle i hi
      have hsum := hcount s₁ hhandle i
      rwa [HandleObj.holds, if_neg hi.symm] at hsum
    cases hid : s.heap id with
    | none =>
        rw [doneHandle, hid] at hstep
        cases hstep
    | some h =>
        rw [doneHandle_eq hs hid, Option.map_some] at hstep
        have hrefcnt := hs.refcnt id h hid
        cases hstep
        split
        · -- the counter was 1, so that no other handle has the `hinfo`
          rename_i hlast
          refine hs.put (o := none) (.inr (hs.named id h hid)) ?_ rfl ?_ (fun k hk => nomatch hk)
            (fun _ => ?_) (Nat.le_refl _) (hother _ rfl)
          · intro k hk
            rw [Option.some.inj (hk.symm.trans hid)]
          · exact Function.update_idem _ _ _
          · have hsum :=
              hcount ((s.setHinfo id { h with refcnt := h.refcnt - 1 }).free h.m id) rfl id
            rw [HandleObj.holds, if_pos rfl] at hsum
            omega
        · rename_i hkeep
          have hsum := hcount (s.setHinfo id { h with refcnt := h.refcnt - 1 }) rfl id
          rw [HandleObj.holds, if_pos rfl] at hsum
          refine hs.write hid rfl rfl rfl rfl ?_ (hother _ rfl) fun hdel => ?_
          · show h.refcnt - 1 = _
            omega
          · -- it was the last reference only if `del` is not set
            have hpos := hs.del id h hid hdel
            have hne : h.refcnt - 1 ≠ 0 := fun hzero => hkeep ⟨hzero, hdel⟩
            show 0 < h.refcnt - 1
            omega
  · cases hstep

theorem managed_safebind (hs : s.Managed) (hstep : s.safebind x = some s') : s'.Managed := by
  unfold safebind at hstep
  split at hstep
  · cases hstep
    exact hs.same rfl rfl rfl fun i => rfl
  · rename_i id hlive
    have hanswer : ∀ a, (s.answer x id a).Managed := fun a =>
      hs.same rfl rfl rfl (count_of_keep rfl fun i => by rw [hlive])
    split at hstep
    · cases hstep
    · rename_i h hid
      split at hstep
      · cases hstep
      · split at hstep
        · cases hstep
          exact hanswer none
        · split at hstep
          · rename_i c hc
            cases hstep
            exact hanswer (some c)
          · rename_i hdel hc
            cases hstep
            have hcount : ∀ i, Handles.count
                { (s.setHinfo id { h with locked := true }).setHandle x (.binding id s.rpccs) with
                  rpccs := s.rpccs + 1 } i = s.count i :=
              count_of_keep rfl fun i => by rw [hlive]; rfl
            refine hs.write hid rfl rfl rfl rfl ?_ (fun i _ => hcount i) (hs.del id h hid)
            rw [hcount id]
            exact hs.refcnt id h hid
  · cases hstep

theorem managed_bound {ok : Bool} (hs : s.Managed) (hstep : s.bound x ok = some s') :
    s'.Managed := by
  unfold bound at hstep
  split at hstep
  · rename_i id c hbinding
    split at hstep
    · cases hstep
    · rename_i h hid
      have hcount : ∀ h' a i, ((s.setHinfo id h').answer x id a).count i = s.count i :=
        fun h' a => count_of_keep rfl fun i => by rw [hbinding]; rfl
      have hrefcnt := hs.refcnt id h hid
      split at hstep
      · cases hstep
        refine hs.write hid rfl rfl rfl rfl ?_ (fun i _ => hcount _ _ i) (hs.del id h hid)
        rw [hcount]
        exact hrefcnt
      · cases hstep
        refine hs.write hid rfl rfl rfl rfl ?_ (fun i _ => hcount _ _ i) fun _ => ?_
        · rw [hcount]
          exact hrefcnt
        · -- the handle that binds has a reference itself
          have hholds := holds_le_count s x id
          rw [hbinding, HandleObj.holds, if_pos rfl] at hholds
          show 0 < h.refcnt
          omega
  · cases hstep

theorem Managed.step {a : HandleAction M H} (hs : s.Managed) (hstep : handleStep s a = some s') :
    s'.Managed := by
  cases a with
  | construct x m => exact managed_construct hs hstep
  | destroy x => exact managed_destroy hs hstep
  | safebind x => exact managed_safebind hs hstep
  | bound x ok => exact managed_bound hs hstep
  | deleteHandle m => exact managed_deleteHandleWo hs hstep

theorem managed_of_reach {ok : Handles M H → HandleAction M H → Prop}
    (h : Reach HandleInit handleStep ok s) : s.Managed := by
  refine Reach.invariant (I := Managed) ?_ (fun s a t hs _ hst => hs.step hst) h
  rintro s rfl
  exact managed_init

end Handles

variable [DecidableEq M] [DecidableEq H]

/-- In every reachable state each name in the map has an `hinfo` whose `refcnt` is the number of
objects that hold it, and which has a reference if it is to be deleted; the `hinfo` of an object is
in memory and in the map under its name; and a step frees only what no object holds then. -/
theorem handles_owned {s : Handles M H} (h : Reach HandleInit handleStep anyStep s) :
    (∀ m id, s.hmap m = some id → ∃ i, s.heap id = some i ∧ i.m = m ∧ i.refcnt = s.count id ∧
      (i.del = true → 0 < i.refcnt)) ∧
    (∀ x id, 0 < (s.handle x).holds id → ∃ i, s.heap id = some i ∧ s.hmap i.m = some id) ∧
    (∀ a s' id, handleStep s a = some s' → s.heap id ≠ none → s'.heap id = none →
      ∀ x, (s'.handle x).holds id = 0) := by
  have hs := Handles.managed_of_reach h
  refine ⟨fun m id hm => ?_, fun x id hx => ?_, fun a s' id hstep _ hfreed x => ?_⟩
  · rcases hs.found m id hm with ⟨i, hi, hname⟩
    exact ⟨i, hi, hname, hs.refcnt id i hi, hs.del id i hi⟩
  · have hcount := Handles.holds_le_count s x id
    cases hi : s.heap id with
    | none =>
        have hzero := hs.absent id hi
        omega
    | some i => exact ⟨i, rfl, hs.named id i hi⟩
  · have hzero := (hs.step hstep).absent id hfreed
    have hcount := Handles.holds_le_count s' x id
    omega

/-- Two handles share the client that the first one has bound; the name is to be deleted when the
first one is destroyed. -/
theorem handles_owned_shared :
    ∃ s : Handles ℕ (Fin 2), Reach HandleInit handleStep anyStep s ∧ s.hmap 7 = some 0 ∧
      s.count 0 = 1 ∧ (s.heap 0).map Hinfo.del = some true ∧
      ∃ i, s.heap 0 = some i ∧ i.m = 7 ∧ i.refcnt = s.count 0 ∧ (i.del = true → 0 < i.refcnt) := by
  obtain ⟨s, hreach, hm, hcount, hdel⟩ :
      ∃ s : Handles ℕ (Fin 2), Reach HandleInit handleStep anyStep s ∧ s.hmap 7 = some 0 ∧
        s.count 0 = 1 ∧ (s.heap 0).map Hinfo.del = some true :=
    Reach.exists_of_runFrom
      (P := fun s : Handles ℕ (Fin 2) => s.hmap 7 = some 0 ∧ s.count 0 = 1 ∧
        (s.heap 0).map Hinfo.del = some true)
      [.construct 0 7, .safebind 0, .bound 0 true, .construct 1 7, .safebind 1, .deleteHandle 7,
        .destroy 0] rfl (by decide +kernel)
  exact ⟨s, hreach, hm, hcount, hdel, (handles_owned hreach).1 7 0 hm⟩

end Rpc
end Yfs

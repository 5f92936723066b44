import Mathlib.Data.List.Basic
import Mathlib.Data.UInt

/-!
# Window — the acknowledgement window of `rpcc` and the reply window of `rpcs`

A client numbers its calls with `xid_` and tells the server, with `xid_rep` in every request
header, up to which xid it needs no reply any more.  The server remembers one `reply_t` per
request in `reply_window_[clt_nonce]` and drops those the client has acknowledged.

* `updateXidRep` — the client's side: insert the xid, then pop the front while the next number
  is there;
* `checkduplicateAndUpdate`, `addReply` — the server's side.

The purge loop of the server reads `ite->xid` right after `erase`.  When the entry erased was
the last one this reads the end of the list, and `++ite` then starts again at its beginning.
`purgeLoop` stops there and reports it (`pastEnd`): what it returns is the window of the code only
if `pastEnd` is false.  `front()` on an empty window is taken to match nothing.
-/

namespace Yfs
namespace Rpc

/-- The reply as it is packed and sent: `reply_header` and the marshalled results. -/
structure Rep where
  xid : UInt32
  ret : Int
  body : List UInt8
  deriving DecidableEq, Repr

/-! ## The client's acknowledgement window -/

/-- Insert before the first larger element, at the end if there is none. -/
def insertXid (xid : UInt32) : List UInt32 → List UInt32
  | [] => [xid]
  | y :: ys => if y > xid then xid :: y :: ys else y :: insertXid xid ys

/-- The loop at the label `compress`.  `seen` is the list from its front to the iterator: at
every `*it = y` the front is popped while its successor is `y`. -/
def compressLoop (seen : List UInt32) : List UInt32 → List UInt32
  | [] => seen
  | y :: ys => compressLoop (seen.dropWhile (fun f => f + 1 == y) ++ [y]) ys

def compress : List UInt32 → List UInt32
  | [] => []
  | f :: ys => compressLoop [f] ys

def updateXidRep (window : List UInt32) (xid : UInt32) : List UInt32 :=
  if xid ≤ window.headD 0 then window else compress (insertXid xid window)

theorem mem_insertXid {x xid : UInt32} {l : List UInt32} :
    x ∈ insertXid xid l ↔ x = xid ∨ x ∈ l := by
  induction l with
  | nil => simp [insertXid]
  | cons y ys ih =>
      unfold insertXid
      split
      · simp
      · simp [ih, or_left_comm]

theorem popped_sublist (seen ys : List UInt32) (y : UInt32) :
    (seen.dropWhile (fun f => f + 1 == y) ++ [y] ++ ys).Sublist (seen ++ y :: ys) := by
  rw [List.append_assoc]
  exact (List.dropWhile_sublist _).append_right _

/-- Nothing is added or moved. -/
theorem compressLoop_sublist (ys : List UInt32) :
    ∀ seen, (compressLoop seen ys).Sublist (seen ++ ys) := by
  induction ys with
  | nil =>
      intro seen
      simp [compressLoop]
  | cons y ys ih =>
      intro seen
      exact (ih _).trans (popped_sublist seen ys y)

theorem compressLoop_ne_nil (ys : List UInt32) :
    ∀ seen, seen ≠ [] → compressLoop seen ys ≠ [] := by
  induction ys with
  | nil =>
      intro seen h
      exact h
  | cons y ys ih =>
      intro seen _
      exact ih _ (by simp)

theorem compress_sublist (l : List UInt32) : (compress l).Sublist l := by
  cases l with
  | nil => exact List.Sublist.refl _
  | cons f ys => exact compressLoop_sublist ys [f]

theorem compress_ne_nil {l : List UInt32} (h : l ≠ []) : compress l ≠ [] := by
  cases l with
  | nil => exact absurd rfl h
  | cons f ys => exact compressLoop_ne_nil ys [f] (by simp)

theorem insertXid_ne_nil {xid : UInt32} {l : List UInt32} : insertXid xid l ≠ [] :=
  List.ne_nil_of_mem (mem_insertXid.2 (Or.inl rfl))

theorem updateXidRep_ne_nil {w : List UInt32} (h : w ≠ []) (xid : UInt32) :
    updateXidRep w xid ≠ [] := by
  unfold updateXidRep
  split
  · exact h
  · exact compress_ne_nil insertXid_ne_nil

theorem mem_updateXidRep {w : List UInt32} {x xid : UInt32} (h : x ∈ updateXidRep w xid) :
    x = xid ∨ x ∈ w := by
  unfold updateXidRep at h
  split at h
  · exact Or.inr h
  · exact mem_insertXid.1 ((compress_sublist _).subset h)

/-! ### An xid that is missing from the window -/

theorem sorted_insertXid {xid : UInt32} {l : List UInt32} (h : l.Pairwise (· ≤ ·)) :
    (insertXid xid l).Pairwise (· ≤ ·) := by
  induction l with
  | nil => exact List.pairwise_singleton _ _
  | cons y ys ih =>
      rw [List.pairwise_cons] at h
      unfold insertXid
      split
      next hlt =>
        have hle : xid ≤ y := UInt32.le_of_lt hlt
        refine List.pairwise_cons.2 ⟨fun z hz => ?_, List.pairwise_cons.2 h⟩
        rcases List.mem_cons.1 hz with rfl | hz
        · exact hle
        · exact UInt32.le_trans hle (h.1 z hz)
      next hlt =>
        refine List.pairwise_cons.2 ⟨fun z hz => ?_, ih h.2⟩
        rcases mem_insertXid.1 hz with rfl | hz
        · exact UInt32.not_lt.1 hlt
        · exact h.1 z hz

theorem sorted_updateXidRep {w : List UInt32} (h : w.Pairwise (· ≤ ·)) (xid : UInt32) :
    (updateXidRep w xid).Pairwise (· ≤ ·) := by
  unfold updateXidRep
  split
  · exact h
  · exact (sorted_insertXid h).sublist (compress_sublist _)

theorem succ_lt_of_ne {f x : UInt32} (hlt : f < x) (hne : f + 1 ≠ x) : f + 1 < x := by
  have hne' : (f + 1).toNat ≠ x.toNat := fun h => hne (UInt32.toNat_inj.1 h)
  rw [UInt32.lt_iff_toNat_lt, UInt32.toNat_add, UInt32.toNat_one] at *
  have hx := x.toNat_lt
  omega

/-- The front moves on through consecutive numbers, so it does not pass one that is missing. -/
theorem compressLoop_headD_lt {x : UInt32} (ys : List UInt32) :
    ∀ seen, (seen ++ ys).Pairwise (· ≤ ·) → seen ≠ [] → seen.headD 0 < x → x ∉ ys →
      (compressLoop seen ys).headD 0 < x := by
  -- the front of `seen` is the invariant of the loop; `x` may be in `seen` by then
  induction ys with
  | nil =>
      intro seen _ _ hlt _
      exact hlt
  | cons y ys ih =>
      intro seen hsorted hne hlt hx
      refine ih _ (hsorted.sublist (popped_sublist seen ys y)) (by simp) ?_
        fun h => hx (List.mem_cons_of_mem _ h)
      cases seen with
      | nil => exact absurd rfl hne
      | cons f fs =>
          by_cases hf : f + 1 = y
          · -- the front is popped: its successor is `y`, which is not `x`
            have hy : y < x := by
              rw [← hf]
              refine succ_lt_of_ne hlt fun h => hx ?_
              rw [← h, hf]
              exact List.mem_cons_self
            cases hdrop : (f :: fs).dropWhile (fun f => f + 1 == y) with
            | nil => exact hy
            | cons z zs =>
                have hz : z ∈ f :: fs :=
                  (List.dropWhile_sublist _).subset (hdrop ▸ List.mem_cons_self)
                have hzy := (List.pairwise_append.1 hsorted).2.2 z hz y List.mem_cons_self
                exact UInt32.lt_of_le_of_lt hzy hy
          · have hkeep : (f :: fs).dropWhile (fun f => f + 1 == y) = f :: fs := by simp [hf]
            rw [hkeep]
            exact hlt

theorem updateXidRep_headD_lt {w : List UInt32} {x xid : UInt32} (hw : w.Pairwise (· ≤ ·))
    (hnil : w ≠ []) (hx : x ∉ w) (hlt : w.headD 0 < x) (hne : x ≠ xid) :
    (updateXidRep w xid).headD 0 < x := by
  unfold updateXidRep
  split
  · exact hlt
  next hle =>
    cases w with
    | nil => exact absurd rfl hnil
    | cons f ys =>
        have hf : ¬ f > xid := fun h => hle (UInt32.le_of_lt h)
        have hins : insertXid xid (f :: ys) = f :: insertXid xid ys := if_neg hf
        have hsorted : (insertXid xid (f :: ys)).Pairwise (· ≤ ·) := sorted_insertXid hw
        rw [hins] at hsorted ⊢
        refine compressLoop_headD_lt _ [f] hsorted (by simp) hlt fun h => ?_
        rcases mem_insertXid.1 h with heq | h
        · exact hne heq
        · exact hx (List.mem_cons_of_mem _ h)

/-! ## The server's reply window -/

/-- `reply_t`: `buf` is null until the handler has returned. -/
structure Reply where
  xid : UInt32
  cbPresent : Bool
  buf : Option Rep
  deriving DecidableEq, Repr

def Reply.fresh (xid : UInt32) : Reply :=
  { xid := xid
    cbPresent := false
    buf := none }

inductive RpcState
  | new
  | inprogress
  | done
  | forgotten
  deriving DecidableEq, Repr

/-- What `checkduplicate_and_update` leaves behind: the window, the answer, `*b`, and whether
the iterator was read after the last entry had been erased. -/
structure Check where
  window : List Reply
  state : RpcState
  buf : Option Rep
  pastEnd : Bool
  deriving DecidableEq, Repr

/-- The result of the loop that purges and searches in one pass. -/
structure Purge where
  window : List Reply
  found : Option Reply
  pastEnd : Bool
  deriving DecidableEq, Repr

def Purge.cons (e : Reply) (p : Purge) : Purge :=
  { p with window := e :: p.window }

def Reply.purgeable (e : Reply) (xidRep : UInt32) : Bool :=
  decide (e.xid < xidRep) && e.cbPresent

def purgeLoop (xid xidRep : UInt32) : List Reply → Purge
  | [] =>
      { window := []
        found := none
        pastEnd := false }
  | e :: es =>
      if e.purgeable xidRep then
        -- `erase` moves the iterator on, so the next entry is compared but not purged
        match es with
        | [] =>
            { window := []
              found := none
              pastEnd := true }
        | e' :: es' =>
            if e'.xid = xid then
              { window := e' :: es'
                found := some e'
                pastEnd := false }
            else
              (purgeLoop xid xidRep es').cons e'
      else if e.xid = xid then
        { window := e :: es
          found := some e
          pastEnd := false }
      else
        (purgeLoop xid xidRep es).cons e

def insertReply (xid : UInt32) : List Reply → List Reply
  | [] => [Reply.fresh xid]
  | e :: es => if e.xid > xid then Reply.fresh xid :: e :: es else e :: insertReply xid es

/-- `clt_window.front().xid > xid`. -/
def frontAbove (w : List Reply) (xid : UInt32) : Bool :=
  match w with
  | [] => false
  | e :: _ => decide (e.xid > xid)

/-- `checkduplicate_and_update` on `reply_window_[clt_nonce]`; `none` is a client without an
entry in the map, for which the empty window is created and nothing remembered. -/
def checkduplicateAndUpdate (w : Option (List Reply)) (xid xidRep : UInt32) : Check :=
  match w with
  | none =>
      { window := []
        state := .new
        buf := none
        pastEnd := false }
  | some w =>
      if frontAbove w xid then
        -- what is below the front is taken to have been purged; nothing is inserted
        { window := w
          state := .forgotten
          buf := none
          pastEnd := false }
      else
        let p := purgeLoop xid xidRep w
        match p.found with
        | some e =>
            { window := p.window
              state := if e.cbPresent then .done else .inprogress
              buf := if e.cbPresent then e.buf else none
              pastEnd := p.pastEnd }
        | none =>
            -- `cb_present` is false until `add_reply`: a copy that arrives before finds this entry
            { window := insertReply xid p.window
              state := .new
              buf := none
              pastEnd := p.pastEnd }

def addReply (xid : UInt32) (b : Rep) : List Reply → List Reply
  | [] =>
      [{ xid := xid
         cbPresent := true
         buf := some b }]
  | e :: es =>
      if e.xid = xid then
        { e with
          cbPresent := true
          buf := some b } :: es
      else
        e :: addReply xid b es

/-! ### What the purge loop keeps and finds -/

/-- One case for each way round the loop, so that the erase and the skipped comparison are
treated together. -/
theorem purgeLoop_cases {motive : List Reply → Purge → Prop} (xid xidRep : UInt32)
    (nil : motive []
      { window := []
        found := none
        pastEnd := false })
    (last : ∀ e, e.purgeable xidRep = true → motive [e]
      { window := []
        found := none
        pastEnd := true })
    (eraseHit : ∀ e e' es, e.purgeable xidRep = true → e'.xid = xid → motive (e :: e' :: es)
      { window := e' :: es
        found := some e'
        pastEnd := false })
    (eraseMiss : ∀ e e' es p, e.purgeable xidRep = true → e'.xid ≠ xid → motive es p →
      motive (e :: e' :: es) (p.cons e'))
    (hit : ∀ e es, e.purgeable xidRep = false → e.xid = xid → motive (e :: es)
      { window := e :: es
        found := some e
        pastEnd := false })
    (miss : ∀ e es p, e.purgeable xidRep = false → e.xid ≠ xid → motive es p →
      motive (e :: es) (p.cons e)) :
    ∀ w, motive w (purgeLoop xid xidRep w)
  | [] => nil
  | [e] => by
      cases hp : e.purgeable xidRep with
      | true => simpa [purgeLoop, hp] using last e hp
      | false =>
          by_cases hx : e.xid = xid
          · simpa [purgeLoop, hp, hx] using hit e [] hp hx
          · simpa [purgeLoop, hp, hx] using miss e [] _ hp hx nil
  | e :: e' :: es => by
      cases hp : e.purgeable xidRep with
      | true =>
          by_cases hx : e'.xid = xid
          · simpa [purgeLoop, hp, hx] using eraseHit e e' es hp hx
          · have ih := purgeLoop_cases xid xidRep nil last eraseHit eraseMiss hit miss es
            simpa [purgeLoop, hp, hx] using eraseMiss e e' es _ hp hx ih
      | false =>
          by_cases hx : e.xid = xid
          · simpa [purgeLoop, hp, hx] using hit e (e' :: es) hp hx
          · have ih := purgeLoop_cases xid xidRep nil last eraseHit eraseMiss hit miss (e' :: es)
            have := miss e (e' :: es) _ hp hx ih
            rw [purgeLoop]
            simpa [hp, hx] using this

/-- Every entry stays or was purgeable. -/
theorem mem_purgeLoop_or (xid xidRep : UInt32) (w : List Reply) {e : Reply} (he : e ∈ w) :
    e ∈ (purgeLoop xid xidRep w).window ∨ e.purgeable xidRep = true := by
  revert he
  refine purgeLoop_cases
    (motive := fun w p => e ∈ w → e ∈ p.window ∨ e.purgeable xidRep = true) xid xidRep
    ?_ ?_ ?_ ?_ ?_ ?_ w
  · intro he
    cases he
  · intro e₀ hp he
    rw [List.mem_singleton.1 he]
    exact Or.inr hp
  · intro e₀ e₁ es hp _ he
    rcases List.mem_cons.1 he with rfl | he
    · exact Or.inr hp
    · exact Or.inl he
  · intro e₀ e₁ es p hp _ ih he
    rcases List.mem_cons.1 he with rfl | he
    · exact Or.inr hp
    · rcases List.mem_cons.1 he with rfl | he
      · exact Or.inl (by simp [Purge.cons])
      · exact (ih he).imp_left fun h => by simp [Purge.cons, h]
  · intro e₀ es _ _ he
    exact Or.inl he
  · intro e₀ es p _ _ ih he
    rcases List.mem_cons.1 he with rfl | he
    · exact Or.inl (by simp [Purge.cons])
    · exact (ih he).imp_left fun h => by simp [Purge.cons, h]

/-- The search compares every entry it does not purge. -/
theorem purgeLoop_found_ne_none (xid xidRep : UInt32) (w : List Reply) {e : Reply} (he : e ∈ w)
    (hx : e.xid = xid) (hp : e.purgeable xidRep = false) :
    (purgeLoop xid xidRep w).found ≠ none := by
  revert he
  refine purgeLoop_cases (motive := fun w p => e ∈ w → p.found ≠ none) xid xidRep
    ?_ ?_ ?_ ?_ ?_ ?_ w
  · intro he
    cases he
  · intro e₀ hp₀ he
    rw [List.mem_singleton.1 he, hp₀] at hp
    cases hp
  · intro e₀ e₁ es _ _ _
    simp
  · intro e₀ e₁ es p hp₀ hne ih he
    rcases List.mem_cons.1 he with rfl | he
    · rw [hp₀] at hp
      cases hp
    · rcases List.mem_cons.1 he with rfl | he
      · exact absurd hx hne
      · simpa [Purge.cons] using ih he
  · intro e₀ es _ _ _
    simp
  · intro e₀ es p _ hne ih he
    rcases List.mem_cons.1 he with rfl | he
    · exact absurd hx hne
    · simpa [Purge.cons] using ih he

theorem purgeLoop_found (xid xidRep : UInt32) (w : List Reply) {e : Reply}
    (h : (purgeLoop xid xidRep w).found = some e) : e ∈ w ∧ e.xid = xid := by
  revert h
  refine purgeLoop_cases (motive := fun w p => p.found = some e → e ∈ w ∧ e.xid = xid)
    xid xidRep ?_ ?_ ?_ ?_ ?_ ?_ w
  · intro h
    cases h
  · intro e₀ _ h
    cases h
  · intro e₀ e₁ es _ hx h
    cases h
    exact ⟨by simp, hx⟩
  · intro e₀ e₁ es p _ _ ih h
    exact ⟨by simp [(ih h).1], (ih h).2⟩
  · intro e₀ es _ hx h
    cases h
    exact ⟨by simp, hx⟩
  · intro e₀ es p _ _ ih h
    exact ⟨by simp [(ih h).1], (ih h).2⟩

theorem mem_insertReply {e : Reply} {xid : UInt32} {w : List Reply} :
    e ∈ insertReply xid w ↔ e = Reply.fresh xid ∨ e ∈ w := by
  induction w with
  | nil => simp [insertReply]
  | cons y ys ih =>
      unfold insertReply
      split
      · simp
      · simp [ih, or_left_comm]

/-! ### The two operations -/

def HasXid (w : List Reply) (xid : UInt32) : Prop :=
  ∃ e ∈ w, e.xid = xid

instance (w : List Reply) (xid : UInt32) : Decidable (HasXid w xid) :=
  List.decidableBEx _ _

/-- The three ways out of `checkduplicate_and_update` for a client that has a window. -/
theorem check_cases {motive : Check → Prop} (w : List Reply) (xid xidRep : UInt32)
    (forgotten : frontAbove w xid = true → motive
      { window := w
        state := .forgotten
        buf := none
        pastEnd := false })
    (found : ∀ e, frontAbove w xid = false → (purgeLoop xid xidRep w).found = some e → motive
      { window := (purgeLoop xid xidRep w).window
        state := if e.cbPresent then .done else .inprogress
        buf := if e.cbPresent then e.buf else none
        pastEnd := (purgeLoop xid xidRep w).pastEnd })
    (new : frontAbove w xid = false → (purgeLoop xid xidRep w).found = none → motive
      { window := insertReply xid (purgeLoop xid xidRep w).window
        state := .new
        buf := none
        pastEnd := (purgeLoop xid xidRep w).pastEnd }) :
    motive (checkduplicateAndUpdate (some w) xid xidRep) := by
  cases hf : frontAbove w xid with
  | true => simpa [checkduplicateAndUpdate, hf] using forgotten hf
  | false =>
      cases hl : (purgeLoop xid xidRep w).found with
      | none => simpa [checkduplicateAndUpdate, hf, hl] using new hf hl
      | some e => simpa [checkduplicateAndUpdate, hf, hl] using found e hf hl

/-- A request is admitted exactly if it is not below the front of the window and the purge
loop did not meet its xid. -/
theorem check_state_eq_new_iff (w : List Reply) (xid xidRep : UInt32) :
    (checkduplicateAndUpdate (some w) xid xidRep).state = .new ↔
      frontAbove w xid = false ∧ (purgeLoop xid xidRep w).found = none := by
  refine check_cases (motive := fun c => c.state = .new ↔ _) w xid xidRep ?_ ?_ ?_
  · intro hf
    simp [hf]
  · intro e _ hl
    cases hc : e.cbPresent <;> simp [hl]
  · intro hf hl
    simp [hf, hl]

/-- An xid that is in the window is not admitted again, whatever is purged in the same pass. -/
theorem check_state_ne_new {w : List Reply} {xid xidRep : UInt32} (h : HasXid w xid)
    (hlt : xidRep < xid) : (checkduplicateAndUpdate (some w) xid xidRep).state ≠ .new := by
  rcases h with ⟨e, he, hx⟩
  have hp : e.purgeable xidRep = false := by
    have hnot : ¬ e.xid < xidRep := by
      rw [hx]
      exact UInt32.not_lt.2 (UInt32.le_of_lt hlt)
    simp [Reply.purgeable, hnot]
  intro hnew
  exact purgeLoop_found_ne_none xid xidRep w he hx hp
    ((check_state_eq_new_iff w xid xidRep).1 hnew).2

/-- An xid that is not in the window and not below its front is admitted. -/
theorem check_state_eq_new {w : List Reply} {xid xidRep : UInt32}
    (hf : frontAbove w xid = false) (h : ¬ HasXid w xid) :
    (checkduplicateAndUpdate (some w) xid xidRep).state = .new := by
  refine (check_state_eq_new_iff w xid xidRep).2 ⟨hf, ?_⟩
  cases hl : (purgeLoop xid xidRep w).found with
  | none => rfl
  | some e => exact absurd ⟨e, purgeLoop_found xid xidRep w hl⟩ h

/-- The window after the check: an entry stays or was purgeable, and an admitted request gets a
fresh one. -/
theorem check_window (w : List Reply) (xid xidRep : UInt32) :
    (∀ e ∈ w, e ∈ (checkduplicateAndUpdate (some w) xid xidRep).window ∨
      e.purgeable xidRep = true) ∧
      ((checkduplicateAndUpdate (some w) xid xidRep).state = .new →
        Reply.fresh xid ∈ (checkduplicateAndUpdate (some w) xid xidRep).window) := by
  have hkeep := fun e (he : e ∈ w) => mem_purgeLoop_or xid xidRep w he
  refine check_cases (motive := fun c => (∀ e ∈ w, e ∈ c.window ∨ e.purgeable xidRep = true) ∧
    (c.state = .new → Reply.fresh xid ∈ c.window)) w xid xidRep ?_ ?_ ?_
  · intro _
    exact ⟨fun e he => Or.inl he, fun h => by cases h⟩
  · intro e _ _
    refine ⟨hkeep, ?_⟩
    cases e.cbPresent <;> simp
  · intro _ _
    exact ⟨fun e he => (hkeep e he).imp_left fun h => mem_insertReply.2 (Or.inr h),
      fun _ => mem_insertReply.2 (Or.inl rfl)⟩

theorem purgeLoop_sublist (xid xidRep : UInt32) (w : List Reply) :
    (purgeLoop xid xidRep w).window.Sublist w := by
  refine purgeLoop_cases (motive := fun w p => p.window.Sublist w) xid xidRep
    ?_ ?_ ?_ ?_ ?_ ?_ w
  · exact List.Sublist.refl _
  · intro e _
    exact List.nil_sublist _
  · intro e e' es _ _
    exact List.sublist_cons_self _ _
  · intro e e' es p _ _ ih
    exact (ih.cons_cons e').cons e
  · intro e es _ _
    exact List.Sublist.refl _
  · intro e es p _ _ ih
    exact ih.cons_cons e

theorem mem_check_window (w : List Reply) (xid xidRep : UInt32) {e : Reply}
    (h : e ∈ (checkduplicateAndUpdate (some w) xid xidRep).window) :
    e = Reply.fresh xid ∨ e ∈ w := by
  revert h
  refine check_cases (motive := fun c => e ∈ c.window → e = Reply.fresh xid ∨ e ∈ w) w xid xidRep
    ?_ ?_ ?_
  · intro _ h
    exact Or.inr h
  · intro _ _ _ h
    exact Or.inr ((purgeLoop_sublist xid xidRep w).subset h)
  · intro _ _ h
    exact (mem_insertReply.1 h).imp_right fun h => (purgeLoop_sublist xid xidRep w).subset h

/-- The reply that is sent again is the stored one. -/
theorem check_buf (w : List Reply) (xid xidRep : UInt32) {b : Rep}
    (h : (checkduplicateAndUpdate (some w) xid xidRep).buf = some b) :
    ∃ e ∈ w, e.xid = xid ∧ e.buf = some b := by
  revert h
  refine check_cases (motive := fun c => c.buf = some b → ∃ e ∈ w, e.xid = xid ∧ e.buf = some b)
    w xid xidRep ?_ ?_ ?_
  · intro _ h
    cases h
  · intro e _ hl h
    rcases purgeLoop_found xid xidRep w hl with ⟨he, hx⟩
    cases hc : e.cbPresent with
    | false => simp [hc] at h
    | true => exact ⟨e, he, hx, by simpa [hc] using h⟩
  · intro _ _ h
    cases h

theorem mem_addReply {xid : UInt32} {b : Rep} {w : List Reply} {e : Reply}
    (h : e ∈ addReply xid b w) :
    e ∈ w ∨ (e.xid = xid ∧ e.cbPresent = true ∧ e.buf = some b) := by
  induction w with
  | nil =>
      rw [List.mem_singleton.1 h]
      exact Or.inr ⟨rfl, rfl, rfl⟩
  | cons y ys ih =>
      unfold addReply at h
      split at h
      next hx =>
        rcases List.mem_cons.1 h with rfl | h
        · exact Or.inr ⟨hx, rfl, rfl⟩
        · exact Or.inl (List.mem_cons_of_mem _ h)
      next =>
        rcases List.mem_cons.1 h with rfl | h
        · exact Or.inl List.mem_cons_self
        · exact (ih h).imp_left (List.mem_cons_of_mem _)

theorem mem_addReply_of_ne {xid : UInt32} (b : Rep) {w : List Reply} {e : Reply} (he : e ∈ w)
    (hne : e.xid ≠ xid) : e ∈ addReply xid b w := by
  induction w with
  | nil => cases he
  | cons y ys ih =>
      unfold addReply
      rcases List.mem_cons.1 he with rfl | he
      · simp [hne]
      · split
        · exact List.mem_cons_of_mem _ he
        · exact List.mem_cons_of_mem _ (ih he)

theorem hasXid_addReply (xid : UInt32) (b : Rep) {w : List Reply} {x : UInt32}
    (h : HasXid w x) : HasXid (addReply xid b w) x := by
  rcases h with ⟨e, he, rfl⟩
  induction w with
  | nil => cases he
  | cons y ys ih =>
      unfold addReply
      rcases List.mem_cons.1 he with rfl | he
      · split
        · exact ⟨_, List.mem_cons_self, rfl⟩
        · exact ⟨_, List.mem_cons_self, rfl⟩
      · split
        · exact ⟨e, List.mem_cons_of_mem _ he, rfl⟩
        · rcases ih he with ⟨e', he', hx⟩
          exact ⟨e', List.mem_cons_of_mem _ he', hx⟩

/-! ### A window in order -/

def SortedWindow (w : List Reply) : Prop :=
  (w.map Reply.xid).Pairwise (· ≤ ·)

theorem sorted_insertReply {xid : UInt32} {w : List Reply} (h : SortedWindow w) :
    SortedWindow (insertReply xid w) := by
  have hmap : (insertReply xid w).map Reply.xid = insertXid xid (w.map Reply.xid) := by
    clear h
    induction w with
    | nil => rfl
    | cons e es ih =>
        simp only [insertReply, insertXid, List.map_cons]
        split
        · rfl
        · rw [List.map_cons, ih]
  unfold SortedWindow
  rw [hmap]
  exact sorted_insertXid h

theorem sorted_check {w : List Reply} (h : SortedWindow w) (xid xidRep : UInt32) :
    SortedWindow (checkduplicateAndUpdate (some w) xid xidRep).window := by
  have hpurge : SortedWindow (purgeLoop xid xidRep w).window :=
    h.sublist ((purgeLoop_sublist xid xidRep w).map Reply.xid)
  refine check_cases (motive := fun c => SortedWindow c.window) w xid xidRep ?_ ?_ ?_
  · exact fun _ => h
  · exact fun _ _ _ => hpurge
  · exact fun _ _ => sorted_insertReply hpurge

theorem addReply_xids {xid : UInt32} (b : Rep) {w : List Reply} (h : HasXid w xid) :
    (addReply xid b w).map Reply.xid = w.map Reply.xid := by
  induction w with
  | nil =>
      rcases h with ⟨e, he, _⟩
      cases he
  | cons e es ih =>
      unfold addReply
      split
      · rfl
      next hne =>
        rcases h with ⟨e', he', hx⟩
        rcases List.mem_cons.1 he' with rfl | he'
        · exact absurd hx hne
        · rw [List.map_cons, ih ⟨e', he', hx⟩, List.map_cons]

theorem frontAbove_of_hasXid {w : List Reply} {xid : UInt32} (hw : SortedWindow w)
    (h : HasXid w xid) : frontAbove w xid = false := by
  cases w with
  | nil => rfl
  | cons e es =>
      rcases h with ⟨e', he', rfl⟩
      have hle : e.xid ≤ e'.xid := by
        rcases List.mem_cons.1 he' with rfl | he'
        · exact UInt32.le_refl _
        · exact (List.pairwise_cons.1 hw).1 _ (List.mem_map_of_mem he')
      simpa [frontAbove] using hle

/-- A copy of a request that is in the window is answered from its entry. -/
theorem check_of_hasXid {w : List Reply} {xid xidRep : UInt32} (hw : SortedWindow w)
    (h : HasXid w xid) (hlt : xidRep < xid) :
    ∃ e ∈ w, e.xid = xid ∧
      (checkduplicateAndUpdate (some w) xid xidRep).state =
        (if e.cbPresent then .done else .inprogress) ∧
      (checkduplicateAndUpdate (some w) xid xidRep).buf =
        (if e.cbPresent then e.buf else none) := by
  have hfront := frontAbove_of_hasXid hw h
  have hnew := check_state_ne_new h hlt
  cases hl : (purgeLoop xid xidRep w).found with
  | none => exact absurd ((check_state_eq_new_iff w xid xidRep).2 ⟨hfront, hl⟩) hnew
  | some e =>
      rcases purgeLoop_found xid xidRep w hl with ⟨he, hx⟩
      exact ⟨e, he, hx, by simp [checkduplicateAndUpdate, hfront, hl],
        by simp [checkduplicateAndUpdate, hfront, hl]⟩

end Rpc
end Yfs

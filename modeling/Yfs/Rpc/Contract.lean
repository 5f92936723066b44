import Yfs.Rpc.AtMostOnce

/-!
# Contract — what `checkduplicate_and_update` promises

The comment above the function promises that the remembered requests up to `xid_rep` are deleted
and that a request is answered by what the window knows of it.  One loop purges and searches at
once: it moves on after an `erase`, so the neighbour of an erased entry is not purged, and when the
last entry is erased it reads the end of the list.  It also spares the entry of `xid_rep` itself.

* `Contract` — the promise;
* `check_contract` — it is kept exactly if the window is not empty and no entry that is due is
  last, next to another one, or `xid_rep`;
* `contract_broken` — the four ways to break it, each in a reachable window.
-/

namespace Yfs
namespace Rpc

open Lib

def Increasing (w : List Reply) : Prop :=
  (w.map Reply.xid).Pairwise (· < ·)

instance (w : List Reply) : Decidable (Increasing w) :=
  inferInstanceAs (Decidable ((w.map Reply.xid).Pairwise (· < ·)))

theorem Increasing.sorted {w : List Reply} (h : Increasing w) : SortedWindow w :=
  h.imp UInt32.le_of_lt

/-- What the check `c` of the request `xid`, `xid_rep` does to the window `w`. -/
structure Contract (w : List Reply) (xid xidRep : UInt32) (c : Check) : Prop where
  /-- `front()` is called on a window that is not empty, and the iterator is not read at the end. -/
  inside : w ≠ [] ∧ c.pastEnd = false
  increasing : Increasing c.window
  kept : ∀ e ∈ w, e.cbPresent = false → e ∈ c.window
  only : ∀ e ∈ c.window, e ∈ w ∨ (c.state = .new ∧ e = Reply.fresh xid)
  purged : ∀ e ∈ c.window, e.cbPresent = true → xidRep < e.xid
  known : ∀ e ∈ w, e.xid = xid →
    c.state = (if e.cbPresent then .done else .inprogress) ∧
      c.buf = (if e.cbPresent then e.buf else none)
  once : c.state = .new → c.window.filter (fun e => decide (e.xid = xid)) = [Reply.fresh xid]

/-! ## What holds of every window -/

theorem Increasing.eq_of_xid {w : List Reply} (h : Increasing w) {e e' : Reply} (he : e ∈ w)
    (he' : e' ∈ w) (hx : e.xid = e'.xid) : e = e' := by
  have hnodup : (w.map Reply.xid).Nodup := h.imp UInt32.ne_of_lt
  exact List.inj_on_of_nodup_map hnodup he he' hx

theorem HasXid.cons {w : List Reply} {xid : UInt32} (h : HasXid w xid) (e : Reply) :
    HasXid (e :: w) xid := by
  rcases h with ⟨e', he', hx⟩
  exact ⟨e', List.mem_cons_of_mem _ he', hx⟩

theorem increasing_insertReply {xid : UInt32} {w : List Reply} (h : Increasing w)
    (hx : ¬ HasXid w xid) : Increasing (insertReply xid w) := by
  induction w with
  | nil => exact List.pairwise_singleton _ _
  | cons y ys ih =>
      rcases List.pairwise_cons.1 h with ⟨hlt, hys⟩
      have hy : y.xid ≠ xid := fun heq => hx ⟨y, List.mem_cons_self, heq⟩
      unfold insertReply
      split
      next hgt =>
        refine List.pairwise_cons.2 ⟨?_, h⟩
        intro z hz
        rcases List.mem_cons.1 hz with rfl | hz
        · exact hgt
        · exact UInt32.lt_trans hgt (hlt z hz)
      next hle =>
        refine List.pairwise_cons.2 ⟨?_, ih hys fun hex => hx (hex.cons y)⟩
        intro z hz
        rcases List.mem_map.1 hz with ⟨e, he, rfl⟩
        rcases mem_insertReply.1 he with rfl | he
        · exact UInt32.lt_of_le_of_ne (UInt32.not_lt.1 hle) hy
        · exact hlt _ (List.mem_map_of_mem he)

theorem filter_insertReply {xid : UInt32} {w : List Reply} (hx : ¬ HasXid w xid) :
    (insertReply xid w).filter (fun e => decide (e.xid = xid)) = [Reply.fresh xid] := by
  have hnone : ∀ ys : List Reply, ¬ HasXid ys xid →
      ys.filter (fun e => decide (e.xid = xid)) = [] := by
    intro ys hys
    refine List.filter_eq_nil_iff.2 fun e he => ?_
    simpa using fun heq => hys ⟨e, he, heq⟩
  induction w with
  | nil => simp [insertReply, Reply.fresh]
  | cons y ys ih =>
      have hy : y.xid ≠ xid := fun heq => hx ⟨y, List.mem_cons_self, heq⟩
      unfold insertReply
      split
      · rw [List.filter_cons, hnone _ hx]
        simp [Reply.fresh]
      · rw [List.filter_cons, ih fun hex => hx (hex.cons y)]
        simp [hy]

/-! ## Entries that are due -/

/-- No entry that is due is next to another one or at the end, so the loop purges them all. -/
def Spaced (w : List Reply) (xidRep : UInt32) : Prop :=
  w.IsChain (fun e e' => ¬ (e.purgeable xidRep = true ∧ e'.purgeable xidRep = true)) ∧
    ∀ e ∈ w.getLast?, e.purgeable xidRep = false

instance (w : List Reply) (xidRep : UInt32) : Decidable (Spaced w xidRep) :=
  inferInstanceAs (Decidable (_ ∧ _))

theorem Spaced.tail {e : Reply} {w : List Reply} {xidRep : UInt32} (h : Spaced (e :: w) xidRep) :
    Spaced w xidRep := by
  cases w with
  | nil => exact ⟨.nil, fun e' he' => by cases he'⟩
  | cons y ys => exact ⟨(List.isChain_cons_cons.1 h.1).2, fun e' he' => h.2 e' he'⟩

theorem not_purgeable_of_le {e : Reply} {xidRep : UInt32} (h : xidRep ≤ e.xid) :
    e.purgeable xidRep = false := by
  simp [Reply.purgeable, UInt32.not_lt.2 h]

theorem not_purgeable_after {e : Reply} {es : List Reply} {xidRep : UInt32}
    (hw : Increasing (e :: es)) (hlt : xidRep < e.xid) :
    ∀ e' ∈ e :: es, e'.purgeable xidRep = false := by
  intro e' he'
  refine not_purgeable_of_le (UInt32.le_of_lt ?_)
  rcases List.mem_cons.1 he' with rfl | he'
  · exact hlt
  · exact UInt32.lt_trans hlt ((List.pairwise_cons.1 hw).1 _ (List.mem_map_of_mem he'))

/-- The loop reads no further than the last entry and leaves nothing that is due. -/
theorem purgeLoop_of_spaced {xid xidRep : UInt32} (hlt : xidRep < xid) (w : List Reply)
    (hw : Increasing w) (hs : Spaced w xidRep) :
    (purgeLoop xid xidRep w).pastEnd = false ∧
      ∀ e ∈ (purgeLoop xid xidRep w).window, e.purgeable xidRep = false := by
  revert hw hs
  refine purgeLoop_cases (motive := fun w p => Increasing w → Spaced w xidRep →
    p.pastEnd = false ∧ ∀ e ∈ p.window, e.purgeable xidRep = false) xid xidRep ?_ ?_ ?_ ?_ ?_ ?_ w
  · intro _ _
    simp
  · -- a single entry that is due would be last
    intro e hp _ hs
    have := hs.2 e rfl
    rw [hp] at this
    cases this
  · -- the loop stops at `xid`, which is above `xid_rep`, and so is what follows
    intro e e' es _ hx hw _
    exact ⟨rfl, not_purgeable_after (List.Pairwise.of_cons hw) (hx ▸ hlt)⟩
  · -- the neighbour of the erased entry is kept, and it is not due
    intro e e' es p hp _ ih hw hs
    rcases ih (List.Pairwise.of_cons (List.Pairwise.of_cons hw)) hs.tail.tail with ⟨hend, hall⟩
    refine ⟨hend, fun y hy => ?_⟩
    rcases List.mem_cons.1 hy with rfl | hy
    · have hnot : ¬ (e.purgeable xidRep = true ∧ y.purgeable xidRep = true) :=
        (List.isChain_cons_cons.1 hs.1).1
      exact Bool.eq_false_iff.2 fun hy => hnot ⟨hp, hy⟩
    · exact hall y hy
  · intro e es _ hx hw _
    exact ⟨rfl, not_purgeable_after hw (hx ▸ hlt)⟩
  · intro e es p hp _ ih hw hs
    rcases ih (List.Pairwise.of_cons hw) hs.tail with ⟨hend, hall⟩
    refine ⟨hend, fun y hy => ?_⟩
    rcases List.mem_cons.1 hy with rfl | hy
    · exact hp
    · exact hall y hy

theorem Spaced.cons {e : Reply} {w : List Reply} {xidRep : UInt32} (h : Spaced w xidRep)
    (he : e.purgeable xidRep = false) : Spaced (e :: w) xidRep := by
  cases w with
  | nil =>
      refine ⟨.singleton _, fun e' he' => ?_⟩
      cases he'
      exact he
  | cons y ys => exact ⟨List.isChain_cons_cons.2 ⟨by simp [he], h.1⟩, h.2⟩

/-- An entry may be due if its neighbour is not. -/
theorem Spaced.cons_cons {e e' : Reply} {w : List Reply} {xidRep : UInt32}
    (h : Spaced (e' :: w) xidRep) (he' : e'.purgeable xidRep = false) :
    Spaced (e :: e' :: w) xidRep :=
  ⟨List.isChain_cons_cons.2 ⟨by simp [he'], h.1⟩, h.2⟩

theorem spaced_of_none {w : List Reply} {xidRep : UInt32}
    (h : ∀ e ∈ w, e.purgeable xidRep = false) : Spaced w xidRep := by
  induction w with
  | nil => exact ⟨.nil, fun e he => by cases he⟩
  | cons e es ih =>
      exact (ih fun e' he' => h e' (List.mem_cons_of_mem _ he')).cons (h e List.mem_cons_self)

/-- If the loop stays inside the list and leaves nothing that is due, the entries were spaced. -/
theorem spaced_of_purgeLoop {xid xidRep : UInt32} (w : List Reply)
    (hend : (purgeLoop xid xidRep w).pastEnd = false)
    (hall : ∀ e ∈ (purgeLoop xid xidRep w).window, e.purgeable xidRep = false) :
    Spaced w xidRep := by
  revert hend hall
  refine purgeLoop_cases (motive := fun w p => p.pastEnd = false →
    (∀ e ∈ p.window, e.purgeable xidRep = false) → Spaced w xidRep) xid xidRep ?_ ?_ ?_ ?_ ?_ ?_ w
  · exact fun _ _ => spaced_of_none fun e he => by cases he
  · intro e _ hend
    cases hend
  · intro e e' es _ _ _ hall
    exact (spaced_of_none hall).cons_cons (hall e' List.mem_cons_self)
  · intro e e' es p _ _ ih hend hall
    have he' := hall e' List.mem_cons_self
    exact ((ih hend fun y hy => hall y (List.mem_cons_of_mem _ hy)).cons he').cons_cons he'
  · exact fun e es _ _ _ hall => spaced_of_none hall
  · intro e es p he _ ih hend hall
    exact (ih hend fun y hy => hall y (List.mem_cons_of_mem _ hy)).cons he

/-! ## The contract -/

theorem Increasing.purgeLoop {w : List Reply} (h : Increasing w) (xid xidRep : UInt32) :
    Increasing (purgeLoop xid xidRep w).window :=
  h.sublist ((purgeLoop_sublist xid xidRep w).map Reply.xid)

/-- If the loop did not meet the xid, no entry has it: the entries it purges are below. -/
theorem not_hasXid_of_found {w : List Reply} {xid xidRep : UInt32} (hlt : xidRep < xid)
    (hl : (Rpc.purgeLoop xid xidRep w).found = none) :
    ¬ HasXid (Rpc.purgeLoop xid xidRep w).window xid := by
  rintro ⟨e, he, hx⟩
  have hmem := (purgeLoop_sublist xid xidRep w).subset he
  have hp : e.purgeable xidRep = false := not_purgeable_of_le (hx ▸ UInt32.le_of_lt hlt)
  exact purgeLoop_found_ne_none xid xidRep w hmem hx hp hl

theorem increasing_check {w : List Reply} {xid xidRep : UInt32} (hw : Increasing w)
    (hlt : xidRep < xid) : Increasing (checkduplicateAndUpdate (some w) xid xidRep).window := by
  have hpurge := hw.purgeLoop xid xidRep
  refine check_cases (motive := fun c => Increasing c.window) w xid xidRep ?_ ?_ ?_
  · exact fun _ => hw
  · exact fun _ _ _ => hpurge
  · exact fun _ hl => increasing_insertReply hpurge (not_hasXid_of_found hlt hl)

theorem once_check {w : List Reply} {xid xidRep : UInt32} (hlt : xidRep < xid) :
    (checkduplicateAndUpdate (some w) xid xidRep).state = .new →
      (checkduplicateAndUpdate (some w) xid xidRep).window.filter
        (fun e => decide (e.xid = xid)) = [Reply.fresh xid] := by
  refine check_cases (motive := fun c => c.state = .new →
    c.window.filter (fun e => decide (e.xid = xid)) = [Reply.fresh xid]) w xid xidRep ?_ ?_ ?_
  · intro _ h
    cases h
  · intro e _ _ h
    cases hc : e.cbPresent <;> simp [hc] at h
  · exact fun _ hl _ => filter_insertReply (not_hasXid_of_found hlt hl)

/-- With nothing due at the front, nothing at all is due. -/
theorem not_purgeable_of_frontAbove {w : List Reply} {xid xidRep : UInt32} (hw : Increasing w)
    (hlt : xidRep < xid) (hf : frontAbove w xid = true) : ∀ e ∈ w, e.purgeable xidRep = false := by
  cases w with
  | nil => cases hf
  | cons e es =>
      have hgt : xid < e.xid := by simpa [frontAbove] using hf
      exact not_purgeable_after hw (UInt32.lt_trans hlt hgt)

theorem due_check {w : List Reply} {xid xidRep : UInt32} (hw : Increasing w) (hlt : xidRep < xid)
    (hs : Spaced w xidRep) :
    (checkduplicateAndUpdate (some w) xid xidRep).pastEnd = false ∧
      ∀ e ∈ (checkduplicateAndUpdate (some w) xid xidRep).window, e.purgeable xidRep = false := by
  rcases purgeLoop_of_spaced hlt w hw hs with ⟨hend, hall⟩
  refine check_cases (motive := fun c => c.pastEnd = false ∧
    ∀ e ∈ c.window, e.purgeable xidRep = false) w xid xidRep ?_ ?_ ?_
  · exact fun hf => ⟨rfl, not_purgeable_of_frontAbove hw hlt hf⟩
  · exact fun _ _ _ => ⟨hend, hall⟩
  · intro _ _
    refine ⟨hend, fun e he => ?_⟩
    rcases mem_insertReply.1 he with rfl | he
    · simp [Reply.purgeable, Reply.fresh]
    · exact hall e he

/-- The entry of a known xid gives the answer. -/
theorem known_check {w : List Reply} {xid xidRep : UInt32} (hw : Increasing w)
    (hlt : xidRep < xid) {e : Reply} (he : e ∈ w) (hx : e.xid = xid) :
    (checkduplicateAndUpdate (some w) xid xidRep).state =
        (if e.cbPresent then .done else .inprogress) ∧
      (checkduplicateAndUpdate (some w) xid xidRep).buf =
        (if e.cbPresent then e.buf else none) := by
  rcases check_of_hasXid hw.sorted ⟨e, he, hx⟩ hlt with ⟨e', he', hx', hanswer⟩
  obtain rfl : e = e' := hw.eq_of_xid he he' (hx.trans hx'.symm)
  exact hanswer

theorem only_check (w : List Reply) (xid xidRep : UInt32) :
    ∀ e ∈ (checkduplicateAndUpdate (some w) xid xidRep).window,
      e ∈ w ∨ ((checkduplicateAndUpdate (some w) xid xidRep).state = .new ∧
        e = Reply.fresh xid) := by
  have hsub := (purgeLoop_sublist xid xidRep w).subset
  refine check_cases (motive := fun c => ∀ e ∈ c.window,
    e ∈ w ∨ (c.state = .new ∧ e = Reply.fresh xid)) w xid xidRep ?_ ?_ ?_
  · exact fun _ e he => Or.inl he
  · exact fun _ _ _ e he => Or.inl (hsub he)
  · intro _ _ e he
    rcases mem_insertReply.1 he with heq | he
    · exact Or.inr ⟨rfl, heq⟩
    · exact Or.inl (hsub he)

theorem spaced_of_check {w : List Reply} {xid xidRep : UInt32}
    (hend : (checkduplicateAndUpdate (some w) xid xidRep).pastEnd = false)
    (hall : ∀ e ∈ (checkduplicateAndUpdate (some w) xid xidRep).window,
      e.purgeable xidRep = false) : Spaced w xidRep := by
  revert hend hall
  refine check_cases (motive := fun c => c.pastEnd = false →
    (∀ e ∈ c.window, e.purgeable xidRep = false) → Spaced w xidRep) w xid xidRep ?_ ?_ ?_
  · exact fun _ _ hall => spaced_of_none hall
  · exact fun _ _ _ hend hall => spaced_of_purgeLoop w hend hall
  · exact fun _ _ hend hall =>
      spaced_of_purgeLoop w hend fun e he => hall e (mem_insertReply.2 (Or.inr he))

/-- The contract holds exactly of the windows that are not empty, in which no completed entry has
the xid `xid_rep`, and in which no entry that is due is last or next to another one. -/
theorem check_contract {w : List Reply} {xid xidRep : UInt32} (hw : Increasing w)
    (hlt : xidRep < xid) :
    Contract w xid xidRep (checkduplicateAndUpdate (some w) xid xidRep) ↔
      w ≠ [] ∧ (∀ e ∈ w, e.cbPresent = true → e.xid ≠ xidRep) ∧ Spaced w xidRep := by
  constructor
  · intro hc
    refine ⟨hc.inside.1, ?_, spaced_of_check hc.inside.2 fun e he => ?_⟩
    · rintro e he hcb rfl
      -- the entry of `xid_rep` is not below it, so it stays
      rcases (check_window w xid e.xid).1 e he with hkeep | hpurge
      · exact UInt32.lt_irrefl _ (hc.purged e hkeep hcb)
      · simp [Reply.purgeable] at hpurge
    · cases hcb : e.cbPresent with
      | true => exact not_purgeable_of_le (UInt32.le_of_lt (hc.purged e he hcb))
      | false => simp [Reply.purgeable, hcb]
  · rintro ⟨hne, hrep, hs⟩
    rcases due_check hw hlt hs with ⟨hend, hdue⟩
    refine ⟨⟨hne, hend⟩, increasing_check hw hlt, ?_, only_check w xid xidRep, ?_,
      fun e he hx => known_check hw hlt he hx, once_check hlt⟩
    · intro e he hcb
      rcases (check_window w xid xidRep).1 e he with hkeep | hpurge
      · exact hkeep
      · simp [Reply.purgeable, hcb] at hpurge
    · intro e he hcb
      -- the loop compares with `<`, so only the entry of `xid_rep` itself is in question
      have hle : xidRep ≤ e.xid := by simpa [Reply.purgeable, hcb] using hdue e he
      rcases only_check w xid xidRep e he with hold | ⟨_, rfl⟩
      · exact UInt32.lt_of_le_of_ne hle (hrep e hold hcb).symm
      · exact hlt

/-- Call 4 acknowledges the calls up to 2, of which 1 is still in the window, and finds its
neighbour 3 in progress. -/
theorem check_contract_four :
    Contract [⟨1, true, some (okReply 1 [])⟩, Reply.fresh 3] 4 2
      (checkduplicateAndUpdate (some [⟨1, true, some (okReply 1 [])⟩, Reply.fresh 3]) 4 2) :=
  (check_contract (by decide) (by decide)).2 ⟨by decide, by decide, by decide⟩

/-! ## Windows that break it -/

/-- The client 7 binds to the server with nonce 9. -/
def bindSeven : List Action :=
  [.call 7 bind, .dispatch (bindReq 7), .ret (bindReq 7) 0 [0, 0, 0, 9],
    .gotPdu 7 (okReply 1 [0, 0, 0, 9]), .finish 7 1]

/-- A whole call of the client 7. -/
def callSeven (xid xidRep : UInt32) : List Action :=
  [.dispatch (request 7 xid xidRep), .ret (request 7 xid xidRep) 0 [],
    .gotPdu 7 (okReply xid []), .finish 7 xid]

/-- Some request meets a window of which `P` holds, and breaks the contract. -/
def Breaks (P : List Reply → ReqHeader → Check → Prop) : Prop :=
  ∃ s, Reach Init step NoWrap s ∧ ∃ h ∈ s.reqs, Increasing (s.windowOf h.cltNonce) ∧
    h.xidRep < h.xid ∧ P (s.windowOf h.cltNonce) h (checkOf s h) ∧
    ¬ Contract (s.windowOf h.cltNonce) h.xid h.xidRep (checkOf s h)

/-- The first request of a client reads the front of an empty window.  When call 2 is lost and
times out, call 3 has the only entry erased and the end of the list read.  The entry of `xid_rep`
stays, and so does the second of two neighbours that are both due. -/
theorem contract_broken :
    Breaks (fun w _ _ => w = []) ∧ Breaks (fun _ _ c => c.pastEnd = true) ∧
      Breaks (fun _ h c => ∃ e ∈ c.window, e.cbPresent = true ∧ e.xid = h.xidRep) ∧
      Breaks (fun _ h c => ∃ e ∈ c.window, e.cbPresent = true ∧ e.xid < h.xidRep) := by
  refine ⟨?_, ?_, ?_, ?_⟩
  · have hrun : ∃ s, Reach Init step NoWrap s ∧ bindReq 7 ∈ s.reqs ∧ s.windowOf 7 = [] :=
      Reach.exists_of_runFrom [.call 7 bind] ⟨9, [1, 100], rfl⟩ (by decide +kernel)
    rcases hrun with ⟨s, hs, hmem, hw⟩
    have hw' : s.windowOf (bindReq 7).cltNonce = [] := hw
    refine ⟨s, hs, bindReq 7, hmem, ?_, by decide, hw, fun hc => hc.inside.1 hw⟩
    rw [hw']
    decide
  · have hrun : ∃ s, Reach Init step NoWrap s ∧ request 7 3 2 ∈ s.reqs ∧
        Increasing (s.windowOf 7) ∧ (checkOf s (request 7 3 2)).pastEnd = true :=
      Reach.exists_of_runFrom (bindSeven ++ [.call 7 100, .finish 7 2, .call 7 100])
        ⟨9, [1, 100], rfl⟩ (by decide +kernel)
    rcases hrun with ⟨s, hs, hmem, hw, hend⟩
    refine ⟨s, hs, request 7 3 2, hmem, hw, by decide, hend, fun hc => ?_⟩
    rw [hc.inside.2] at hend
    cases hend
  · have hrun : ∃ s, Reach Init step NoWrap s ∧ request 7 2 1 ∈ s.reqs ∧
        Increasing (s.windowOf 7) ∧
        ∃ e ∈ (checkOf s (request 7 2 1)).window, e.cbPresent = true ∧ e.xid = 1 :=
      Reach.exists_of_runFrom (bindSeven ++ [.call 7 100]) ⟨9, [1, 100], rfl⟩ (by decide +kernel)
    rcases hrun with ⟨s, hs, hmem, hw, e, he, hcb, hx⟩
    refine ⟨s, hs, request 7 2 1, hmem, hw, by decide, ⟨e, he, hcb, hx⟩, fun hc => ?_⟩
    exact UInt32.lt_irrefl _ (hx ▸ hc.purged e he hcb)
  · -- calls 2 and 3 are made at once, so both are due when call 4 comes
    have hrun : ∃ s, Reach Init step NoWrap s ∧ request 7 4 3 ∈ s.reqs ∧
        Increasing (s.windowOf 7) ∧
        ∃ e ∈ (checkOf s (request 7 4 3)).window, e.cbPresent = true ∧ e.xid < 3 :=
      Reach.exists_of_runFrom (bindSeven ++ [.call 7 100, .call 7 100] ++ callSeven 2 1 ++
        callSeven 3 1 ++ [.call 7 100]) ⟨9, [1, 100], rfl⟩ (by decide +kernel)
    rcases hrun with ⟨s, hs, hmem, hw, e, he, hcb, hx⟩
    refine ⟨s, hs, request 7 4 3, hmem, hw, by decide, ⟨e, he, hcb, hx⟩, fun hc => ?_⟩
    exact UInt32.lt_irrefl _ (UInt32.lt_trans hx (hc.purged e he hcb))

end Rpc
end Yfs

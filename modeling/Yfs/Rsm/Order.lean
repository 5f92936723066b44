import Yfs.Rsm.InView

/-!
# Order — how far the members of a view are

In one view every member has executed an initial part of the same list of requests, and the parts
get shorter along the chain: the first backup is ahead of all others, and the primary is last
(`executed_prefix`).  A message that arrives late does not change this, because the viewstamp of
its receiver has moved on.  It does once `seqno` has wrapped around: an old message then carries
the current viewstamp again, and a backup executes it out of turn (`wrapped_seqno_breaks_order`).
-/

namespace Yfs
namespace Rsm

open Lib

variable {N R : Type}

section

variable [DecidableEq N] [DecidableEq R]

/-- The requests that `n` has executed in view `v`, in their order. -/
def executed (s : State N R) (n : N) (v : ℕ) : List R :=
  ((s.execs.filter fun e => decide (e.1 = n ∧ e.2.1.vid = v)).map fun e => e.2.2).reverse

def SyncedBy (V : Views N) (v : ℕ) (p : N) (s : State N R) : Prop :=
  v ≠ 0 ∧ p ∈ V.view v ∧ ∃ last state, s = synced V v p last state

/-- `client_invoke` arrives only at the primary. -/
def AtPrimary (s : State N R) : Action N R → Prop
  | .clientStart n _ => amiprimary n (s.rep n) = true
  | _ => True

instance (s : State N R) : DecidablePred (AtPrimary s)
  | .clientStart n _ => inferInstanceAs (Decidable (amiprimary n (s.rep n) = true))
  | .clientSend _ | .clientOk _ | .clientFail _ | .clientFinish _ | .invoke _ | .invokeExec _
  | .commitChange _ _ | .top _ | .joinOk _ _ | .joinFail _ | .barrier _ | .fill _ | .syncEnd _
  | .transferSend _ | .transferreq _ | .transferOk _ _ | .transferFail _ | .transferdone _
  | .doneOk _ | .doneFail _ | .exitSync _ | .wake _ | .restart _ _ => isTrue trivial

end

section Order

variable {V : Views N} {s t : State N R} {v : ℕ} {p : N}

/-! ## One step -/

variable [DecidableEq N]

/-- What a step inside a view does to the record of executions. -/
inductive ExecStep (V : Views N) (s t : State N R) : Prop
  | keep (hexecs : t.execs = s.execs) (hbook : t.book = s.book)
  | exec {n : N} {q : R}
      (hpassed : ∃ p after, s.book.OpenedBy (s.rep n).myvs.vid p ∧
        Passed V s.book p (s.rep n).myvs q (n :: after))
      (hexecs : t.execs = (n, (s.rep n).myvs, q) :: s.execs)
      (hbook : t.book = s.book.exec n (s.rep n).myvs.vid q)

theorem executed_congr (hexecs : t.execs = s.execs) (n : N) (w : ℕ) :
    executed t n w = executed s n w := by
  rw [executed, hexecs, executed]

theorem executed_self {n : N} {vs : ViewStamp} {q : R} (hexecs : t.execs = (n, vs, q) :: s.execs) :
    executed t n vs.vid = executed s n vs.vid ++ [q] := by
  simp [executed, hexecs]

theorem executed_of_ne {n m : N} {vs : ViewStamp} {q : R} {w : ℕ}
    (hexecs : t.execs = (n, vs, q) :: s.execs) (hne : ¬ (m = n ∧ w = vs.vid)) :
    executed t m w = executed s m w := by
  have hneg : ¬ (n = m ∧ vs.vid = w) := fun h => hne ⟨h.1.symm, h.2.symm⟩
  simp [executed, hexecs, hneg]

section

variable [DecidableEq R]

theorem InView.execStep (h : InView V s) {a : Action N R} (ha : Inside s a)
    (hst : Rsm.step V s a = some t) : ExecStep V s t := by
  cases step_move hst with
  | clientStart _ | clientSend _ _ _ | clientOk _ _ _ | clientFail => exact .keep rfl rfl
  | clientFinish hc htodo => exact .exec (h.passed_client hc htodo) rfl rfl
  | refuse _ | invoke _ _ _ => exact .keep rfl rfl
  | invokeExec hm => exact .exec (h.passed_handler hm) rfl rfl
  | rejoin _ | stay => exact .keep rfl rfl
  | _ => exact ha.elim

end

/-! ## The invariant -/

/-- Members earlier in the chain of view `v` have executed at least as much of its log. -/
structure Ordered (V : Views N) (v : ℕ) (p : N) (s : State N R) : Prop where
  inView : InView V s
  opener : s.book.OpenedBy v p
  executed : ∀ n, executed s n v = (s.book.log v).take (s.book.cnt n v)
  cnt : ∀ x y, (chain V p v).idxOf x < (chain V p v).idxOf y →
    s.book.cnt y v ≤ s.book.cnt x v

theorem mem_of_idxOf_lt {x y : N} {before after : List N}
    (h : (before ++ y :: after).idxOf x < (before ++ y :: after).idxOf y) : x ∈ before := by
  by_contra hx
  have hy : (before ++ y :: after).idxOf y ≤ before.length := by
    by_cases hy : y ∈ before
    · rw [List.idxOf_append_of_mem hy]
      exact List.idxOf_le_length
    · rw [List.idxOf_append_of_notMem hy]
      simp
  rw [List.idxOf_append_of_notMem hx] at h
  omega

theorem Ordered.exec (h : Ordered V v p s) (hI : InView V t) {n : N} {q : R}
    (hpassed : ∃ p after, s.book.OpenedBy (s.rep n).myvs.vid p ∧
      Passed V s.book p (s.rep n).myvs q (n :: after))
    (hexecs : t.execs = (n, (s.rep n).myvs, q) :: s.execs)
    (hbook : t.book = s.book.exec n (s.rep n).myvs.vid q) : Ordered V v p t := by
  have hle : s.book.Le t.book := hbook ▸ s.book.le_exec n (s.rep n).myvs.vid q
  rcases hpassed with ⟨p', after, hopener', hpassed⟩
  have hseq := (h.inView.node n).seq
  have hfollows := h.inView.book.follows (hpassed.turn hopener' hseq)
  have hcnt_ne : ∀ m, ¬ (m = n ∧ v = (s.rep n).myvs.vid) → t.book.cnt m v = s.book.cnt m v := by
    intro m hne
    rw [hbook, Book.exec_cnt]
    rcases not_and_or.1 hne with hm | hv
    · rw [set2_of_node_ne _ hm]
    · rw [set2_of_vid_ne _ hv]
  refine ⟨hI, h.opener.mono hle, ?_, ?_⟩
  · intro m
    by_cases hmv : m = n ∧ v = (s.rep n).myvs.vid
    · -- the request is the one that follows in the log
      rcases hmv with ⟨rfl, rfl⟩
      rw [executed_self hexecs, h.executed, hbook, Book.exec_log, Book.exec_cnt,
        Function.update_self, set2_self, take_grow_succ hfollows]
    · rw [executed_of_ne hexecs hmv, h.executed, hcnt_ne m hmv,
        take_of_isPrefix (hle.log v) (h.inView.book.le m v)]
  · intro x y hxy
    by_cases hy : y = n ∧ v = (s.rep n).myvs.vid
    · -- all members before `n` have executed the request already
      rcases hy with ⟨rfl, rfl⟩
      rcases h.opener with ⟨o, ho, rfl⟩
      rcases hopener' with ⟨o', ho', rfl⟩
      obtain rfl : o = o' := Option.some.inj (ho.symm.trans ho')
      rcases hpassed with ⟨before, hsplit, hdone⟩
      rw [hsplit] at hxy
      have hx := (hdone x (mem_of_idxOf_lt hxy)).1
      calc
        t.book.cnt y (s.rep y).myvs.vid = s.book.cnt y (s.rep y).myvs.vid + 1 := by
          rw [hbook, Book.exec_cnt, set2_self]
        _ = (s.rep y).myvs.seqno.toNat := hseq.symm
        _ ≤ s.book.cnt x (s.rep y).myvs.vid := hx
        _ ≤ t.book.cnt x (s.rep y).myvs.vid := hle.cnt x _
    · rw [hcnt_ne y hy]
      exact (h.cnt x y hxy).trans (hle.cnt x v)

theorem SyncedBy.ordered (h : SyncedBy V v p s) : Ordered V v p s := by
  rcases h with ⟨hv, hp, last, state, rfl⟩
  have hI : InView V (synced V v p last state) :=
    Synced.inView ⟨hv, p, hp, last, state, rfl⟩
  exact ⟨hI, ⟨_, Function.update_self _ _ _, rfl⟩, fun _ => rfl, fun _ _ _ => Nat.le_refl 0⟩

theorem Ordered.isPrefix (h : Ordered V v p s) {x y : N}
    (hxy : (chain V p v).idxOf x < (chain V p v).idxOf y) :
    Rsm.executed s y v <+: Rsm.executed s x v := by
  rw [h.executed, h.executed]
  exact List.take_prefix_take_left (h.cnt x y hxy)

theorem not_mem_slaves (V : Views N) (p : N) (v : ℕ) : p ∉ slaves V p v := by
  simp [slaves]

variable [DecidableEq R]

theorem Ordered.step {a : Action N R} (h : Ordered V v p s) (ha : Inside s a) (hs : Serial s a)
    (hst : Rsm.step V s a = some t) : Ordered V v p t := by
  have hI := h.inView.step hs ha.opens hst
  cases h.inView.execStep ha hst with
  | keep hexecs hbook =>
      refine ⟨hI, hbook ▸ h.opener, fun n => ?_, ?_⟩
      · rw [executed_congr hexecs, hbook]
        exact h.executed n
      · rw [hbook]
        exact h.cnt
  | exec hpassed hexecs hbook => exact h.exec hI hpassed hexecs hbook

theorem ordered_reach
    (h : Reach (SyncedBy V v p) (step V) (fun s a => Inside s a ∧ Serial s a) s) :
    Ordered V v p s :=
  h.invariant (fun _ h₀ => h₀.ordered) fun _ _ _ hI hok hst => hI.step hok.1 hok.2 hst

/-- A backup has executed an initial part of what any backup before it in the view has, and the
primary an initial part of what every backup has. -/
theorem executed_prefix
    (h : Reach (SyncedBy V v p) (step V) (fun s a => Inside s a ∧ Serial s a) s) :
    (∀ x ∈ slaves V p v, ∀ y ∈ slaves V p v,
        (slaves V p v).idxOf x < (slaves V p v).idxOf y → executed s y v <+: executed s x v) ∧
      ∀ x ∈ slaves V p v, executed s p v <+: executed s x v := by
  have hO := ordered_reach h
  have hidx : ∀ x ∈ slaves V p v, (chain V p v).idxOf x = (slaves V p v).idxOf x :=
    fun x hx => List.idxOf_append_of_mem hx
  refine ⟨fun x hx y hy hxy => hO.isPrefix ?_, fun x hx => hO.isPrefix ?_⟩
  · rw [hidx x hx, hidx y hy]
    exact hxy
  · have hp : (chain V p v).idxOf p = (slaves V p v).length := by
      rw [chain, List.idxOf_append_of_notMem (not_mem_slaves V p v)]
      simp
    rw [hidx x hx, hp]
    exact List.idxOf_lt_length_of_mem hx

end Order

/-- The first backup has executed a request that the second one has not got yet. -/
theorem executed_prefix_first :
    ∃ s : State ℕ ℕ, Reach (SyncedBy growing 3 1) (step growing)
        (fun s a => Inside s a ∧ Serial s a) s ∧
      (executed s 2 3 = [10] ∧ executed s 3 3 = []) ∧
      executed s 3 3 <+: executed s 2 3 ∧ executed s 1 3 <+: executed s 3 3 := by
  have hrun : ∃ s : State ℕ ℕ, Reach (SyncedBy growing 3 1) (step growing)
      (fun s a => Inside s a ∧ Serial s a) s ∧ executed s 2 3 = [10] ∧ executed s 3 3 = [] :=
    Reach.exists_of_runFrom
      [.clientStart 1 10, .clientSend 1, .invoke ⟨0, 1, 2, ⟨3, 1⟩, 10⟩, .invokeExec 2]
      ⟨by decide, by decide, ⟨2, 1⟩, [], rfl⟩ (by decide +kernel)
  rcases hrun with ⟨s, hs, hexecuted⟩
  rcases executed_prefix hs with ⟨hbackups, hprimary⟩
  exact ⟨s, hs, hexecuted, hbackups 2 (by decide) 3 (by decide) (by decide),
    hprimary 3 (by decide)⟩

/-! ## A whole lap of `seqno` -/

section Lap

variable {V : Views N} {s : State N R} {init : State N R → Prop} {p m : N}

/-- An idle member of the view `vs.vid` whose next viewstamp is `vs`. -/
structure Ready (p : N) (vs : ViewStamp) (r : Replica N R) : Prop where
  myvs : r.myvs = vs
  free : r.invoking = .free
  inviewchange : r.inviewchange = false
  unlocked : r.pc.locked = false
  primary : r.primary = p

theorem Ready.execute {vs : ViewStamp} {r : Replica N R} (h : Ready p vs r) (q : R) :
    Ready p ⟨vs.vid, vs.seqno + 1⟩ (r.execute q) where
  myvs := by rw [← h.myvs]; rfl
  free := rfl
  inviewchange := h.inviewchange
  unlocked := h.unlocked
  primary := h.primary

variable [DecidableEq N] [DecidableEq R]

/-- The next backup gets the message of a `client_invoke`, executes it and is heard. -/
theorem serve (hs : Reach init (step V) (fun s a => Inside s a ∧ AtPrimary s a) s)
    {c : ClientCall N R} {ms : List N} (hc : (s.rep p).invoking = .client c)
    (hsent : c.sent = none) (htodo : c.todo = m :: ms) (hne : m ≠ p)
    (hm : Ready p (s.rep p).myvs (s.rep m)) :
    ∃ t, Reach init (step V) (fun s a => Inside s a ∧ AtPrimary s a) t ∧
      t.rep p = (s.rep p).setInvoking (.client c.next) ∧ t.rep m = (s.rep m).execute c.req ∧
      (∀ x, x ≠ p → x ≠ m → t.rep x = s.rep x) ∧
      t.execs = (m, (s.rep p).myvs, c.req) :: s.execs ∧
      t.invokes = invokeMsg s p m c.req :: s.invokes := by
  let msg := invokeMsg s p m c.req
  let s₁ := (s.setRep p ((s.rep p).setInvoking (.client (c.send msg)))).sendInvoke msg
  let s₂ := s₁.setRep m ((s₁.rep m).setInvoking (.handler msg))
  let s₃ := (s₂.exec m msg.req).replyInvoke msg .ok
  let s₄ := s₃.setRep p ((s₃.rep p).setInvoking (.client (c.send msg).next))
  have hrep₁ : s₁.rep m = s.rep m := by simp [s₁, hne]
  have hrep₃ : s₃.rep p = (s.rep p).setInvoking (.client (c.send msg)) := by
    simp [s₃, s₂, s₁, hne.symm]
  -- the message is sent, arrives with the current viewstamp, is executed, and the reply is heard
  have h₁ : step V s (.clientSend p) = some s₁ := by
    simp [step, clientSend, hc, hsent, htodo, s₁, msg]
  have h₂ : step V s₁ (.invoke msg) = some s₂ := by
    have hdst : msg.dst = m := rfl
    have hvs : msg.vs = (s.rep m).myvs := hm.myvs.symm
    have hmem : msg ∈ s₁.invokes := List.mem_cons_self
    simp [step, invoke, hdst, hrep₁, hm.free, hm.inviewchange, hvs, hmem, s₂]
  have h₃ : step V s₂ (.invokeExec m) = some s₃ := by
    simp [step, invokeExec, s₃, s₂]
  have h₄ : step V s₃ (.clientOk p) = some s₄ := by
    have hmem : (msg, .ok) ∈ s₃.invokeReps := List.mem_cons_self
    simp [step, clientOk, hrep₃, hmem, s₄]
  have hs₁ := hs.next (by exact ⟨trivial, trivial⟩) h₁
  have hs₂ := hs₁.next (by exact ⟨trivial, trivial⟩) h₂
  have hs₃ := hs₂.next (by exact ⟨trivial, trivial⟩) h₃
  have hs₄ := hs₃.next (by exact ⟨trivial, trivial⟩) h₄
  refine ⟨s₄, hs₄, ?_, ?_, ?_, ?_, rfl⟩
  · have hp : s₄.rep p = (s₃.rep p).setInvoking (.client (c.send msg).next) :=
      Function.update_self _ _ _
    rw [hp, hrep₃]
    rfl
  · have hp : s₄.rep m = ((s₁.rep m).setInvoking (.handler msg)).execute msg.req := by
      simp [s₄, s₃, s₂, hne]
    rw [hp, hrep₁]
    rfl
  · intro x hxp hxm
    simp [s₄, s₃, s₂, s₁, hxp, hxm]
  · have hvs : (s₂.rep m).myvs = (s.rep p).myvs := by simp [s₂, hrep₁, hm.myvs]
    rw [← hvs]
    rfl

end Lap

/-- All three members of view 3 execute a request. -/
theorem round {s : State ℕ ℕ} {init : State ℕ ℕ → Prop} {vs : ViewStamp} (hvid : vs.vid = 3)
    (hs : Reach init (step growing) (fun s a => Inside s a ∧ AtPrimary s a) s)
    (hready : ∀ n ∈ growing.view 3, Ready 1 vs (s.rep n)) :
    ∃ t, Reach init (step growing) (fun s a => Inside s a ∧ AtPrimary s a) t ∧
      (∀ n ∈ growing.view 3, t.rep n = (s.rep n).execute 10) ∧
      t.execs = [(1, vs, 10), (3, vs, 10), (2, vs, 10)] ++ s.execs ∧
      s.invokes ⊆ t.invokes ∧ ∃ m ∈ t.invokes, m.dst = 3 ∧ m.vs = vs := by
  have h1 := hready 1 (by decide)
  let c : ClientCall ℕ ℕ :=
    { req := 10
      todo := slaves growing 1 (s.rep 1).myvs.vid
      ret := clientRet 1 (s.rep 1)
      sent := none }
  have htodo : c.todo = [2, 3] := by
    simp only [c, h1.myvs, hvid]
    rfl
  let s₁ := s.setRep 1 ((s.rep 1).setInvoking (.client c))
  have hstart : step growing s (.clientStart 1 10) = some s₁ := by
    simp [step, clientStart, h1.free, h1.unlocked, s₁, c]
  have hs₁ := hs.next
    (by exact ⟨trivial, amiprimary_iff.2 ⟨h1.primary, h1.inviewchange⟩⟩) hstart
  have hvs₁ : (s₁.rep 1).myvs = vs := h1.myvs
  -- node 2 executes first
  have h2₁ : Ready 1 (s₁.rep 1).myvs (s₁.rep 2) := by
    rw [hvs₁]
    exact hready 2 (by decide)
  rcases serve hs₁ (c := c) (by simp [s₁]) rfl htodo (by decide) h2₁ with
    ⟨s₂, hs₂, hp₂, hm₂, hrest₂, hexecs₂, hinvokes₂⟩
  have hvs₂ : (s₂.rep 1).myvs = vs := by
    rw [hp₂]
    exact hvs₁
  -- then node 3
  have h3₂ : Ready 1 (s₂.rep 1).myvs (s₂.rep 3) := by
    rw [hvs₂, hrest₂ 3 (by decide) (by decide)]
    exact hready 3 (by decide)
  have hnext : c.next.todo = [3] := by simp [htodo]
  rcases serve hs₂ (c := c.next) (by simp [hp₂]) rfl hnext (by decide) h3₂ with
    ⟨s₃, hs₃, hp₃, hm₃, hrest₃, hexecs₃, hinvokes₃⟩
  have hvs₃ : (s₃.rep 1).myvs = vs := by
    rw [hp₃]
    exact hvs₂
  -- and the primary last
  have hfinish : step growing s₃ (.clientFinish 1) =
      some ((s₃.exec 1 10).ack .ok (s₃.rep 1).myvs.vid 10) := by
    have hc : (s₃.rep 1).invoking = .client c.next.next := by simp [hp₃]
    have hnil : c.next.next.todo = [] := by simp [htodo]
    simp only [step, clientFinish, hc, hnil, if_true]
    rfl
  refine ⟨_, hs₃.next (by exact ⟨trivial, trivial⟩) hfinish, ?_, ?_, ?_, ?_⟩
  · have hrep : ∀ n ∈ [1, 2, 3], Function.update s₃.rep 1 ((s₃.rep 1).execute 10) n =
        (s.rep n).execute 10 := by
      simp only [List.forall_mem_cons]
      refine ⟨?_, ?_, ?_, by simp⟩
      · rw [Function.update_self, hp₃, hp₂]
        rfl
      · rw [Function.update_of_ne (by decide), hrest₃ 2 (by decide) (by decide), hm₂]
        rfl
      · rw [Function.update_of_ne (by decide), hm₃, hrest₂ 3 (by decide) (by decide)]
        rfl
    exact hrep
  · simp only [State.ack_execs, State.exec_execs, hexecs₃, hexecs₂, hvs₁, hvs₂, hvs₃]
    rfl
  · simp only [State.ack_invokes, State.exec_invokes, hinvokes₃, hinvokes₂]
    exact fun m hm => List.mem_cons_of_mem _ (List.mem_cons_of_mem _ hm)
  · simp only [State.ack_invokes, State.exec_invokes, hinvokes₃]
    exact ⟨_, List.mem_cons_self, rfl, hvs₂⟩

/-- All three members of view 3 have executed `k` requests; a message of the first round is still
under way to node 3. -/
structure Lap (k : ℕ) (s : State ℕ ℕ) : Prop where
  reach : Reach (SyncedBy growing 3 1) (step growing) (fun s a => Inside s a ∧ AtPrimary s a) s
  ready : ∀ n ∈ growing.view 3, Ready 1 ⟨3, 1 + UInt32.ofNat k⟩ (s.rep n)
  length : ∀ n ∈ slaves growing 1 3, (executed s n 3).length = k
  first : k ≠ 0 → ∃ m ∈ s.invokes, m.dst = 3 ∧ m.vs = ⟨3, 1⟩

theorem lap_zero : ∃ s : State ℕ ℕ, Lap 0 s := by
  refine ⟨synced growing 3 1 ⟨2, 1⟩ [], .start ⟨by decide, by decide, _, _, rfl⟩, ?_, ?_, ?_⟩
  · intro n hn
    have hrep : (synced growing 3 1 ⟨2, 1⟩ []).rep n = (member 3 1 ⟨2, 1⟩ [] : Replica ℕ ℕ) :=
      if_pos hn
    rw [hrep]
    exact ⟨rfl, rfl, rfl, rfl, rfl⟩
  · exact fun _ _ => rfl
  · exact fun h => absurd rfl h

theorem Lap.next {k : ℕ} {s : State ℕ ℕ} (h : Lap k s) : ∃ t : State ℕ ℕ, Lap (k + 1) t := by
  rcases round rfl h.reach h.ready with ⟨t, ht, hrep, hexecs, hsub, hmsg⟩
  have hseq : 1 + UInt32.ofNat (k + 1) = 1 + UInt32.ofNat k + 1 := by
    rw [UInt32.ofNat_add, ← UInt32.add_assoc]
    rfl
  refine ⟨t, ht, ?_, ?_, ?_⟩
  · intro n hn
    rw [hrep n hn, hseq]
    exact (h.ready n hn).execute 10
  · have hlen : ∀ n ∈ [2, 3], (executed t n 3).length = (executed s n 3).length + 1 := by
      simp [executed, hexecs]
    intro n hn
    rw [hlen n hn, h.length n hn]
  · intro _
    cases k with
    -- the message of the first round is never taken off the network
    | zero => exact hmsg
    | succ k =>
        rcases h.first (Nat.succ_ne_zero k) with ⟨m, hm, hdst, hvs⟩
        exact ⟨m, hsub hm, hdst, hvs⟩

theorem lap (k : ℕ) : ∃ s : State ℕ ℕ, Lap k s := by
  induction k with
  | zero => exact lap_zero
  | succ k ih =>
      rcases ih with ⟨s, h⟩
      exact h.next

/-- After 2³² requests the viewstamp is (3, 1) again.  A second copy of the first message to node 3
arrives, and node 3 executes it ahead of node 2. -/
theorem wrapped_seqno_breaks_order :
    ∃ s : State ℕ ℕ, Reach (SyncedBy growing 3 1) (step growing)
        (fun s a => Inside s a ∧ AtPrimary s a) s ∧
      slaves growing 1 3 = [2, 3] ∧ ¬ executed s 3 3 <+: executed s 2 3 := by
  rcases lap UInt32.size with ⟨s, h⟩
  have h3 := h.ready 3 (by decide)
  have hmyvs : (s.rep 3).myvs = ⟨3, 1⟩ := h3.myvs
  rcases h.first (by decide) with ⟨m, hm, hdst, hvs⟩
  let s₁ := s.setRep 3 ((s.rep 3).setInvoking (.handler m))
  let s₂ := (s₁.exec 3 m.req).replyInvoke m .ok
  have hinvoke : step growing s (.invoke m) = some s₁ := by
    simp [step, invoke, hm, hdst, h3.free, h3.inviewchange, hmyvs, hvs, s₁]
  have hexec : step growing s₁ (.invokeExec 3) = some s₂ := by
    simp [step, invokeExec, s₂, s₁]
  have hs₁ := h.reach.next (by exact ⟨trivial, trivial⟩) hinvoke
  refine ⟨s₂, hs₁.next (by exact ⟨trivial, trivial⟩) hexec, rfl, fun hprefix => ?_⟩
  have hexecs : s₂.execs = (3, ⟨3, 1⟩, m.req) :: s.execs := by
    rw [← hmyvs]
    rfl
  have hlen : (executed s₂ 3 3).length = UInt32.size + 1 := by
    rw [executed_self hexecs, List.length_append, h.length 3 (by decide)]
    rfl
  -- node 3 has executed one request more than node 2, which is ahead of it in the chain
  have hle := hprefix.length_le
  rw [hlen, executed_of_ne hexecs (by decide), h.length 2 (by decide)] at hle
  omega

end Rsm
end Yfs

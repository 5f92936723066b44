import Yfs.Rsm.Replica

/-!
# InView — replication inside a view

In a view that is open the requests travel along a fixed chain: the slaves in the order of the
view, then the primary itself.  A member executes a request at its next viewstamp only after all
members before it in the chain have.  So the first of the chain decides which request gets a
viewstamp, and `log` is what it has executed.

`InView.step` is the step lemma for the whole system.  It asks for `Serial`, which the code does
not ensure (`client_invoke` goes on at a node that is not the primary, and `seqno` wraps
around), and for `Opens`, which says that a view is opened by one primary and with an idle node.
The latter is what the synchronisation has to provide; inside one view it is vacuous.
-/

namespace Yfs
namespace Rsm

open Lib

variable {N R : Type}

/-! ## The chain of a view -/

section

variable [DecidableEq N]

/-- The order in which the members of `vid` execute the requests of primary `p`. -/
def chain (V : Views N) (p : N) (vid : ℕ) : List N :=
  slaves V p vid ++ [p]

def Book.OpenedBy (b : Book N R) (vid : ℕ) (p : N) : Prop :=
  ∃ o, b.opened vid = some o ∧ o.primary = p

/-- `n` has executed `q` at `vs`. -/
def Done (b : Book N R) (vs : ViewStamp) (q : R) (n : N) : Prop :=
  vs.seqno.toNat ≤ b.cnt n vs.vid ∧ (b.log vs.vid)[vs.seqno.toNat - 1]? = some q

/-- All members before the rest `ns` of the chain have executed `q` at `vs`. -/
def Passed (V : Views N) (b : Book N R) (p : N) (vs : ViewStamp) (q : R) (ns : List N) : Prop :=
  ∃ before, chain V p vs.vid = before ++ ns ∧ ∀ x ∈ before, Done b vs q x

structure MsgOk (V : Views N) (b : Book N R) (m : InvokeMsg N R) : Prop where
  opener : b.OpenedBy m.vs.vid m.src
  passed : ∃ after, Passed V b m.src m.vs m.req (m.dst :: after)

structure CallOk (V : Views N) (b : Book N R) (n : N) (vs : ViewStamp)
    (c : ClientCall N R) : Prop where
  opener : b.OpenedBy vs.vid n
  passed : Passed V b n vs c.req (c.todo ++ [n])
  sent : ∀ m, c.sent = some m → m.vs = vs ∧ m.req = c.req ∧ c.todo.head? = some m.dst

structure NodeIn (V : Views N) (b : Book N R) (n : N) (r : Replica N R) : Prop where
  seq : r.myvs.seqno.toNat = b.cnt n r.myvs.vid + 1
  prim : amiprimary n r = true → b.OpenedBy r.myvs.vid n
  call : ∀ c, r.invoking = .client c → CallOk V b n r.myvs c
  handler : ∀ m, r.invoking = .handler m → MsgOk V b m ∧ m.dst = n ∧ m.vs = r.myvs

structure BookOk (V : Views N) (b : Book N R) : Prop where
  zero : b.opened 0 = none
  unopened : ∀ v, b.opened v = none → b.log v = [] ∧ ∀ n, b.cnt n v = 0
  le : ∀ n v, b.cnt n v ≤ (b.log v).length
  head : ∀ v o x, b.opened v = some o → (chain V o.primary v).head? = some x →
    b.cnt x v = (b.log v).length

structure InView (V : Views N) (s : State N R) : Prop where
  book : BookOk V s.book
  node : ∀ n, NodeIn V s.book n (s.rep n)
  sent : ∀ m ∈ s.invokes, MsgOk V s.book m
  replied : ∀ m, (m, .ok) ∈ s.invokeReps → Done s.book m.vs m.req m.dst
  execs : ∀ n vs q, (n, vs, q) ∈ s.execs → (s.book.log vs.vid)[vs.seqno.toNat - 1]? = some q

end

/-! ## The book only grows -/

structure Book.Le (b b' : Book N R) : Prop where
  cnt : ∀ n v, b.cnt n v ≤ b'.cnt n v
  log : ∀ v, b.log v <+: b'.log v
  opened : ∀ v o, b.opened v = some o → b'.opened v = some o

section Mono

variable {V : Views N} {b b' : Book N R}

theorem Book.OpenedBy.mono (hle : b.Le b') {v : ℕ} {p : N} (h : b.OpenedBy v p) :
    b'.OpenedBy v p := by
  rcases h with ⟨o, ho, hp⟩
  exact ⟨o, hle.opened v o ho, hp⟩

theorem Done.mono (hle : b.Le b') {vs : ViewStamp} {q : R} {n : N} (h : Done b vs q n) :
    Done b' vs q n :=
  ⟨h.1.trans (hle.cnt n vs.vid), getElem?_of_isPrefix (hle.log vs.vid) h.2⟩

theorem Book.le_setOpened {v : ℕ} (o : Opened N R) (hv : b.opened v = none) :
    b.Le (b.setOpened v o) where
  cnt := fun _ _ => Nat.le_refl _
  log := fun _ => List.prefix_refl _
  opened := by
    intro w o' ho
    have hne : w ≠ v := by
      intro heq
      rw [heq, hv] at ho
      cases ho
    simpa [hne] using ho

variable [DecidableEq N]

theorem Passed.mono (hle : b.Le b') {p : N} {vs : ViewStamp} {q : R} {ns : List N}
    (h : Passed V b p vs q ns) : Passed V b' p vs q ns := by
  rcases h with ⟨before, hsplit, hdone⟩
  exact ⟨before, hsplit, fun x hx => (hdone x hx).mono hle⟩

theorem MsgOk.mono (hle : b.Le b') {m : InvokeMsg N R} (h : MsgOk V b m) : MsgOk V b' m := by
  rcases h.passed with ⟨after, hpassed⟩
  exact ⟨h.opener.mono hle, after, hpassed.mono hle⟩

theorem CallOk.mono (hle : b.Le b') {n : N} {vs : ViewStamp} {c : ClientCall N R}
    (h : CallOk V b n vs c) : CallOk V b' n vs c :=
  ⟨h.opener.mono hle, h.passed.mono hle, h.sent⟩

theorem NodeIn.mono (hle : b.Le b') {n : N} {r : Replica N R} (h : NodeIn V b n r)
    (hcnt : b'.cnt n r.myvs.vid = b.cnt n r.myvs.vid) : NodeIn V b' n r where
  seq := by rw [hcnt]; exact h.seq
  prim := fun hprim => (h.prim hprim).mono hle
  call := fun c hc => (h.call c hc).mono hle
  handler := fun m hm => ⟨(h.handler m hm).1.mono hle, (h.handler m hm).2⟩

theorem Book.le_exec (b : Book N R) (n : N) (v : ℕ) (q : R) : b.Le (b.exec n v q) where
  cnt := by
    intro x w
    by_cases hxw : x = n ∧ w = v
    · rcases hxw with ⟨rfl, rfl⟩
      simp
    · rcases not_and_or.1 hxw with hx | hw
      · rw [Book.exec_cnt, set2_of_node_ne _ hx]
      · rw [Book.exec_cnt, set2_of_vid_ne _ hw]
  log := by
    intro w
    by_cases hw : w = v
    · subst hw
      simpa using prefix_grow (b.log w) (b.cnt n w) q
    · simp [hw]
  opened := fun _ _ ho => ho

end Mono

/-! ## One execution -/

section Exec

variable {V : Views N} {b : Book N R} [DecidableEq N]

/-- `n` may execute `q` next in view `v`: it decides on it, or finds it in the log. -/
def Turn (V : Views N) (b : Book N R) (n : N) (v : ℕ) (q : R) : Prop :=
  ∃ o, b.opened v = some o ∧
    ((chain V o.primary v).head? = some n ∨ (b.log v)[b.cnt n v]? = some q)

theorem Passed.turn {p n : N} {vs : ViewStamp} {q : R} {after : List N}
    (hpassed : Passed V b p vs q (n :: after)) (ho : b.OpenedBy vs.vid p)
    (hseq : vs.seqno.toNat = b.cnt n vs.vid + 1) : Turn V b n vs.vid q := by
  rcases ho with ⟨o, ho, rfl⟩
  rcases hpassed with ⟨before, hsplit, hdone⟩
  refine ⟨o, ho, ?_⟩
  cases before with
  | nil => exact Or.inl (by simp [hsplit])
  | cons x xs =>
      -- the head of the chain has executed `q` at `vs`, so the log has it
      have hx := (hdone x (by simp)).2
      rw [hseq] at hx
      exact Or.inr hx

theorem BookOk.follows (h : BookOk V b) {n : N} {v : ℕ} {q : R} (ht : Turn V b n v q) :
    Follows (b.log v) (b.cnt n v) q := by
  rcases ht with ⟨o, ho, hhead | hq⟩
  · exact Or.inl (h.head v o n ho hhead)
  · exact Or.inr hq

theorem BookOk.exec (h : BookOk V b) {n : N} {v : ℕ} {q : R} (ht : Turn V b n v q) :
    BookOk V (b.exec n v q) := by
  have hle := b.le_exec n v q
  have hget : (grow (b.log v) (b.cnt n v) q)[b.cnt n v]? = some q := getElem?_grow (h.follows ht)
  have hlt : b.cnt n v < (grow (b.log v) (b.cnt n v) q).length :=
    (List.getElem?_eq_some_iff.1 hget).1
  refine ⟨h.zero, ?_, ?_, ?_⟩
  · intro w hw
    have hne : w ≠ v := by
      rintro rfl
      rcases ht with ⟨o, ho, _⟩
      rw [Book.exec_opened, ho] at hw
      cases hw
    refine ⟨by simpa [hne] using (h.unopened w hw).1, fun x => ?_⟩
    rw [Book.exec_cnt, set2_of_vid_ne _ hne]
    exact (h.unopened w hw).2 x
  · intro x w
    by_cases hxw : x = n ∧ w = v
    · rcases hxw with ⟨rfl, rfl⟩
      simpa [Nat.succ_le_iff] using hlt
    · have hcnt : (b.exec n v q).cnt x w = b.cnt x w := by
        rcases not_and_or.1 hxw with hx | hw
        · rw [Book.exec_cnt, set2_of_node_ne _ hx]
        · rw [Book.exec_cnt, set2_of_vid_ne _ hw]
      rw [hcnt]
      exact (h.le x w).trans (hle.log w).length_le
  · intro w o x ho hx
    by_cases hw : w = v
    · subst hw
      have hcx := h.head w o x ho hx
      by_cases hxn : x = n
      · -- the head itself appends
        subst hxn
        simp [hcx, grow_length]
      · -- any other member finds its request in the log
        have hq : (b.log w)[b.cnt n w]? = some q := by
          rcases ht with ⟨o', ho', hhead | hq⟩
          · obtain rfl : o = o' := Option.some.inj (ho.symm.trans ho')
            exact absurd (Option.some.inj (hx.symm.trans hhead)) hxn
          · exact hq
        rw [Book.exec_cnt, set2_of_node_ne _ hxn, hcx, Book.exec_log, Function.update_self,
          grow_of_getElem? hq]
    · rw [Book.exec_cnt, set2_of_vid_ne _ hw]
      simpa [hw] using h.head w o x ho hx

theorem BookOk.done_exec (h : BookOk V b) {n : N} {vs : ViewStamp} {q : R}
    (hseq : vs.seqno.toNat = b.cnt n vs.vid + 1) (ht : Turn V b n vs.vid q) :
    Done (b.exec n vs.vid q) vs q n := by
  refine ⟨by simp [hseq], ?_⟩
  rw [hseq]
  simpa using getElem?_grow (h.follows ht)

end Exec

/-! ## Steps -/

section

variable [DecidableEq N] [DecidableEq R]

/-- `client_invoke` starts at a primary only, and `seqno` does not wrap around. -/
def Serial (s : State N R) : Action N R → Prop
  | .clientStart n _ => amiprimary n (s.rep n) = true
  | .clientFinish n => (s.rep n).myvs.seqno + 1 ≠ 0
  | .invokeExec n => (s.rep n).myvs.seqno + 1 ≠ 0
  | _ => True

instance (s : State N R) : DecidablePred (Serial s)
  | .clientStart n _ => inferInstanceAs (Decidable (amiprimary n (s.rep n) = true))
  | .clientFinish n | .invokeExec n => inferInstanceAs (Decidable ((s.rep n).myvs.seqno + 1 ≠ 0))
  | .clientSend _ | .clientOk _ | .clientFail _ | .invoke _ | .commitChange _ _ | .top _
  | .joinOk _ _ | .joinFail _ | .barrier _ | .fill _ | .syncEnd _ | .transferSend _
  | .transferreq _ | .transferOk _ _ | .transferFail _ | .transferdone _ | .doneOk _ | .doneFail _
  | .exitSync _ | .wake _ | .restart _ _ => isTrue trivial

/-- A view opens at an idle node, once by a primary and before any request of it. -/
def Opens (s : State N R) : Action N R → Prop
  | .syncEnd n => (s.rep n).vidInsync = (s.rep n).vidCommit →
      (s.rep n).vidCommit ≠ 0 ∧ (s.rep n).invoking = .free ∧
        s.book.opened (s.rep n).vidCommit = none
  | .exitSync n => (s.rep n).vidInsync = (s.rep n).vidCommit →
      (s.rep n).invoking = .free ∧ s.book.cnt n (s.rep n).vidCommit = 0 ∧ (s.rep n).primary ≠ n
  | _ => True

end

section Step

variable {V : Views N} {s t : State N R}

theorem toNat_succ {x : UInt32} (h : x + 1 ≠ 0) : (x + 1).toNat = x.toNat + 1 := by
  have hlt := x.toNat_lt
  have hne : (x + 1).toNat ≠ 0 := fun h0 => h (UInt32.toNat_inj.1 h0)
  rw [UInt32.toNat_add, UInt32.toNat_one] at hne ⊢
  omega

variable [DecidableEq N]

theorem NodeIn.congr {b : Book N R} {n : N} {r r' : Replica N R} (h : NodeIn V b n r)
    (hvs : r'.myvs = r.myvs) (hinv : r'.invoking = r.invoking)
    (hprim : amiprimary n r' = true → amiprimary n r = true) : NodeIn V b n r' where
  seq := by rw [hvs]; exact h.seq
  prim := fun hp => by rw [hvs]; exact h.prim (hprim hp)
  call := fun c hc => by rw [hvs]; exact h.call c (hinv ▸ hc)
  handler := fun m hm => by rw [hvs]; exact h.handler m (hinv ▸ hm)

theorem NodeIn.free {b : Book N R} {n : N} {r : Replica N R} (hfree : r.invoking = .free)
    (hseq : r.myvs.seqno.toNat = b.cnt n r.myvs.vid + 1)
    (hprim : amiprimary n r = true → b.OpenedBy r.myvs.vid n) : NodeIn V b n r where
  seq := hseq
  prim := hprim
  call := fun c hc => by rw [hfree] at hc; cases hc
  handler := fun m hm => by rw [hfree] at hm; cases hm

-- the parts of the state that `InView` does not read
theorem InView.setGhost (h : InView V s) (g : Ghost N R) : InView V (s.setGhost g) :=
  ⟨h.book, h.node, h.sent, h.replied, h.execs⟩

theorem InView.ack (h : InView V s) (ret : Status) (v : ℕ) (q : R) : InView V (s.ack ret v q) :=
  ⟨h.book, h.node, h.sent, h.replied, h.execs⟩

theorem InView.sendTransfer (h : InView V s) (m : TransferMsg N) : InView V (s.sendTransfer m) :=
  ⟨h.book, h.node, h.sent, h.replied, h.execs⟩

theorem InView.replyTransfer (h : InView V s) (rep : TransferRep N R) :
    InView V (s.replyTransfer rep) :=
  ⟨h.book, h.node, h.sent, h.replied, h.execs⟩

theorem InView.sendDone (h : InView V s) (m : DoneMsg N) : InView V (s.sendDone m) :=
  ⟨h.book, h.node, h.sent, h.replied, h.execs⟩

theorem InView.replyDone (h : InView V s) (m : DoneMsg N) : InView V (s.replyDone m) :=
  ⟨h.book, h.node, h.sent, h.replied, h.execs⟩

theorem InView.setRep (h : InView V s) {n : N} {r : Replica N R} (hr : NodeIn V s.book n r) :
    InView V (s.setRep n r) where
  book := h.book
  node := Function.forall_update_iff _ (fun x r => NodeIn V s.book x r) |>.2
    ⟨hr, fun x _ => h.node x⟩
  sent := h.sent
  replied := h.replied
  execs := h.execs

/-- A step of the recovery thread keeps `myvs` and `invoking`, and makes no node a primary. -/
theorem InView.setRep_congr (h : InView V s) {n : N} {r : Replica N R}
    (hvs : r.myvs = (s.rep n).myvs) (hinv : r.invoking = (s.rep n).invoking)
    (hprim : amiprimary n r = true → amiprimary n (s.rep n) = true) :
    InView V (s.setRep n r) :=
  h.setRep ((h.node n).congr hvs hinv hprim)

theorem InView.exec (h : InView V s) {n : N} {q : R} (hseq : (s.rep n).myvs.seqno + 1 ≠ 0)
    (ht : Turn V s.book n (s.rep n).myvs.vid q) : InView V (s.exec n q) := by
  have hle := s.book.le_exec n (s.rep n).myvs.vid q
  have hdone := h.book.done_exec (h.node n).seq ht
  refine ⟨h.book.exec ht, ?_, fun m hm => (h.sent m hm).mono hle,
    fun m hm => (h.replied m hm).mono hle, ?_⟩
  · refine (Function.forall_update_iff _ (fun x r => NodeIn V (s.exec n q).book x r)).2
      ⟨NodeIn.free rfl ?_ ?_, fun x hx => (h.node x).mono hle ?_⟩
    · simp [toNat_succ hseq, (h.node n).seq]
    · intro hprim
      exact ((h.node n).prim hprim).mono hle
    · exact congrFun (set2_of_node_ne _ hx _ _) _
  · intro x vs q' hmem
    rcases List.mem_cons.1 hmem with heq | hold
    · cases heq
      exact hdone.2
    · exact getElem?_of_isPrefix (hle.log vs.vid) (h.execs x vs q' hold)

theorem InView.passed_handler (h : InView V s) {n : N} {m : InvokeMsg N R}
    (hm : (s.rep n).invoking = .handler m) :
    ∃ p after, s.book.OpenedBy (s.rep n).myvs.vid p ∧
      Passed V s.book p (s.rep n).myvs m.req (n :: after) := by
  rcases (h.node n).handler m hm with ⟨hmsg, rfl, hvs⟩
  rcases hmsg.passed with ⟨after, hpassed⟩
  rw [← hvs]
  exact ⟨m.src, after, hmsg.opener, hpassed⟩

theorem InView.passed_client (h : InView V s) {n : N} {c : ClientCall N R}
    (hc : (s.rep n).invoking = .client c) (htodo : c.todo = []) :
    ∃ p after, s.book.OpenedBy (s.rep n).myvs.vid p ∧
      Passed V s.book p (s.rep n).myvs c.req (n :: after) := by
  have hcall := (h.node n).call c hc
  have hpassed := hcall.passed
  rw [htodo] at hpassed
  exact ⟨n, [], hcall.opener, hpassed⟩

theorem InView.turn_handler (h : InView V s) {n : N} {m : InvokeMsg N R}
    (hm : (s.rep n).invoking = .handler m) : Turn V s.book n (s.rep n).myvs.vid m.req := by
  rcases h.passed_handler hm with ⟨p, after, hopener, hpassed⟩
  exact hpassed.turn hopener (h.node n).seq

theorem InView.turn_client (h : InView V s) {n : N} {c : ClientCall N R}
    (hc : (s.rep n).invoking = .client c) (htodo : c.todo = []) :
    Turn V s.book n (s.rep n).myvs.vid c.req := by
  rcases h.passed_client hc htodo with ⟨p, after, hopener, hpassed⟩
  exact hpassed.turn hopener (h.node n).seq

theorem InView.clientStart (h : InView V s) {n : N} {q : R} {ret : Status}
    (hprim : amiprimary n (s.rep n) = true) :
    InView V (s.setRep n ((s.rep n).setInvoking (.client
      { req := q
        todo := slaves V n (s.rep n).myvs.vid
        ret := ret
        sent := none }))) := by
  refine h.setRep ⟨(h.node n).seq, (h.node n).prim, fun c hc => ?_, fun m hm => by cases hm⟩
  cases hc
  refine ⟨(h.node n).prim hprim, ⟨[], rfl, ?_⟩, ?_⟩
  · intro x hx
    cases hx
  · intro m hm
    cases hm

theorem InView.clientSend (h : InView V s) {n m : N} {c : ClientCall N R} {ms : List N}
    (hc : (s.rep n).invoking = .client c) (htodo : c.todo = m :: ms) :
    InView V ((s.setRep n
      ((s.rep n).setInvoking (.client (c.send (invokeMsg s n m c.req))))).sendInvoke
        (invokeMsg s n m c.req)) := by
  have hcall := (h.node n).call c hc
  have hmsg : MsgOk V s.book (invokeMsg s n m c.req) := by
    refine ⟨hcall.opener, ms ++ [n], ?_⟩
    have hpassed := hcall.passed
    rw [htodo] at hpassed
    exact hpassed
  have hset : InView V (s.setRep n
      ((s.rep n).setInvoking (.client (c.send (invokeMsg s n m c.req))))) := by
    refine h.setRep ⟨(h.node n).seq, (h.node n).prim, fun c' hc' => ?_, fun m hm => by cases hm⟩
    cases hc'
    refine ⟨hcall.opener, hcall.passed, fun m' hm' => ?_⟩
    cases hm'
    exact ⟨rfl, rfl, by simp [htodo, invokeMsg]⟩
  refine ⟨hset.book, hset.node, ?_, hset.replied, hset.execs⟩
  intro m' hm'
  rcases List.mem_cons.1 hm' with rfl | hold
  · exact hmsg
  · exact h.sent m' hold

theorem InView.clientOk (h : InView V s) {n : N} {c : ClientCall N R} {msg : InvokeMsg N R}
    (hc : (s.rep n).invoking = .client c) (hsent : c.sent = some msg)
    (hrep : (msg, .ok) ∈ s.invokeReps) :
    InView V (s.setRep n ((s.rep n).setInvoking (.client c.next))) := by
  have hcall := (h.node n).call c hc
  refine h.setRep ⟨(h.node n).seq, (h.node n).prim, fun c' hc' => ?_, fun m hm => by cases hm⟩
  cases hc'
  refine ⟨hcall.opener, ?_, fun m hm => by cases hm⟩
  rcases hcall.sent msg hsent with ⟨hvs, hreq, hhead⟩
  rcases hcall.passed with ⟨before, hsplit, hdone⟩
  have htodo : c.todo = msg.dst :: c.todo.tail := List.eq_cons_of_mem_head? hhead
  -- the slave that has answered moves to the part of the chain that is done
  refine ⟨before ++ [msg.dst], ?_, ?_⟩
  · rw [htodo] at hsplit
    simpa using hsplit
  · intro x hx
    rcases List.mem_append.1 hx with hx | hx
    · exact hdone x hx
    · have hdst := h.replied msg hrep
      rw [hvs, hreq] at hdst
      rw [List.mem_singleton.1 hx]
      exact hdst

theorem InView.replyInvoke (h : InView V s) {m : InvokeMsg N R} {ret : Status}
    (hok : ret = .ok → Done s.book m.vs m.req m.dst) : InView V (s.replyInvoke m ret) := by
  refine ⟨h.book, h.node, h.sent, ?_, h.execs⟩
  intro m' hm'
  rcases List.mem_cons.1 hm' with heq | hold
  · cases heq
    exact hok rfl
  · exact h.replied m' hold

theorem InView.invoke (h : InView V s) {m : InvokeMsg N R} (hm : m ∈ s.invokes)
    (hvs : m.vs = (s.rep m.dst).myvs) :
    InView V (s.setRep m.dst ((s.rep m.dst).setInvoking (.handler m))) := by
  refine h.setRep ⟨(h.node _).seq, (h.node _).prim, ?_, ?_⟩
  · intro c hc
    cases hc
  intro m' hm'
  cases hm'
  exact ⟨h.sent m hm, rfl, hvs⟩

theorem InView.invokeExec (h : InView V s) {n : N} {m : InvokeMsg N R}
    (hm : (s.rep n).invoking = .handler m) (hseq : (s.rep n).myvs.seqno + 1 ≠ 0) :
    InView V ((s.exec n m.req).replyInvoke m .ok) := by
  have ht := h.turn_handler hm
  refine (h.exec hseq ht).replyInvoke fun _ => ?_
  rcases (h.node n).handler m hm with ⟨_, rfl, hvs⟩
  have hdone := h.book.done_exec (h.node m.dst).seq ht
  rw [hvs]
  exact hdone

theorem InView.openPrim (h : InView V s) {n : N} (hpos : (s.rep n).vidCommit ≠ 0)
    (hfree : (s.rep n).invoking = .free) (hnone : s.book.opened (s.rep n).vidCommit = none) :
    InView V ((s.setRep n (s.rep n).open).setBook
      (s.book.setOpened (s.rep n).vidCommit (openedBy n (s.rep n)))) := by
  have hle := s.book.le_setOpened (openedBy n (s.rep n)) hnone
  have hempty := h.book.unopened _ hnone
  refine ⟨?_, ?_, fun m hm => (h.sent m hm).mono hle, fun m hm => (h.replied m hm).mono hle,
    h.execs⟩
  · refine ⟨?_, ?_, h.book.le, ?_⟩
    · simpa [hpos.symm] using h.book.zero
    · intro v hv
      by_cases hvid : v = (s.rep n).vidCommit
      · simp [hvid] at hv
      · exact h.book.unopened v (by simpa [hvid] using hv)
    · intro v o x ho hx
      by_cases hvid : v = (s.rep n).vidCommit
      · subst hvid
        simp [hempty.1, hempty.2]
      · exact h.book.head v o x (by simpa [hvid] using ho) hx
  · refine (Function.forall_update_iff _ (fun x r => NodeIn V _ x r)).2
      ⟨NodeIn.free hfree ?_ ?_, fun x _ => (h.node x).mono hle rfl⟩
    · simp [hempty.2]
    · intro _
      exact ⟨openedBy n (s.rep n), by simp, rfl⟩

theorem InView.openBackup (h : InView V s) {n : N} (hfree : (s.rep n).invoking = .free)
    (hcnt : s.book.cnt n (s.rep n).vidCommit = 0) (hprim : (s.rep n).primary ≠ n) :
    InView V (s.setRep n (s.rep n).open) := by
  refine h.setRep (NodeIn.free hfree ?_ ?_)
  · simp [hcnt]
  · intro hp
    exact absurd (amiprimary_iff.1 hp).1 hprim

theorem InView.restart (h : InView V s) {n : N} {r : Replica N R}
    (hvs : r.myvs = (Replica.fresh n : Replica N R).myvs) (hfree : r.invoking = .free)
    (hview : r.inviewchange = true) : InView V (s.setRep n r) := by
  refine h.setRep (NodeIn.free hfree ?_ ?_)
  · rw [hvs]
    simp [Replica.fresh, (h.book.unopened 0 h.book.zero).2]
  · intro hp
    simp [amiprimary_iff, hview] at hp

/-- Two members that execute a request at one viewstamp execute the same one. -/
theorem InView.unique (h : InView V s) {n n' : N} {vs : ViewStamp} {q q' : R}
    (hq : (n, vs, q) ∈ s.execs) (hq' : (n', vs, q') ∈ s.execs) : q = q' :=
  Option.some.inj ((h.execs n vs q hq).symm.trans (h.execs n' vs q' hq'))

variable [DecidableEq R]

theorem InView.step (h : InView V s) {a : Action N R} (ha : Serial s a) (ho : Opens s a)
    (hst : step V s a = some t) : InView V t := by
  cases step_move hst with
  | clientStart _ => exact h.clientStart ha
  | clientSend hc _ htodo => exact h.clientSend hc htodo
  | clientOk hc hsent hrep => exact h.clientOk hc hsent hrep
  | @clientFail n =>
      exact h.setRep (NodeIn.free rfl (h.node n).seq (h.node n).prim)
  | clientFinish hc htodo =>
      exact (h.exec ha (h.turn_client hc htodo)).ack _ _ _
  | refuse hret => exact h.replyInvoke fun hok => absurd hok hret
  | invoke hm _ hvs => exact h.invoke hm hvs
  | invokeExec hm => exact h.invokeExec hm ha
  | commitChange _ _ _ =>
      refine InView.setGhost ?_ _
      exact h.setRep_congr rfl rfl (by simp [amiprimary_iff])
  | toJoin _ => exact h.setRep_congr rfl rfl id
  | toPrim _ _ _ =>
      refine InView.setGhost ?_ _
      exact h.setRep_congr rfl rfl id
  | toBackup _ _ _ =>
      refine InView.setGhost ?_ _
      exact h.setRep_congr rfl rfl id
  | joinOk _ _ _ =>
      refine InView.setGhost ?_ _
      exact h.setRep_congr rfl rfl (by simp [amiprimary_iff])
  | rejoin _ | barrier _ _ => exact h.setRep_congr rfl rfl id
  | fill _ =>
      refine InView.setGhost ?_ _
      exact h.setRep_congr rfl rfl id
  | syncFail _ _ => exact h.setRep_congr rfl rfl id
  | openPrim _ _ heq =>
      rcases ho heq with ⟨hpos, hfree, hnone⟩
      exact h.openPrim hpos hfree hnone
  | transferStop _ _ => exact h.setRep_congr rfl rfl id
  | transferSend _ _ =>
      refine InView.sendTransfer ?_ _
      exact h.setRep_congr rfl rfl id
  | transferreq _ _ => exact h.replyTransfer _
  | stay => exact h
  | transferOk _ _ _ =>
      refine InView.sendDone ?_ _
      exact h.setRep_congr rfl rfl id
  | transferFail _ => exact h.setRep_congr rfl rfl id
  | transferdone _ _ =>
      refine InView.replyDone ?_ _
      exact h.setRep_congr rfl rfl id
  | doneOk _ | doneFail _ | exitFail _ _ => exact h.setRep_congr rfl rfl id
  | openBackup _ heq =>
      rcases ho heq with ⟨hfree, hcnt, hprim⟩
      exact h.openBackup hfree hcnt hprim
  | wake _ => exact h.setRep_congr rfl rfl id
  | restart _ => exact h.restart rfl rfl rfl
  | reboot _ =>
      refine InView.setGhost ?_ _
      exact h.restart rfl rfl rfl

end Step

/-! ## Runs in one view -/

/-- A member of view `v` right after the synchronisation with primary `p`. -/
def member (v : ℕ) (p : N) (last : ViewStamp) (state : List R) : Replica N R where
  myvs :=
    { vid := v
      seqno := 1 }
  lastMyvs := last
  primary := p
  insync := false
  inviewchange := false
  vidCommit := v
  vidInsync := v
  backups := []
  state := state
  invoking := .free
  pc := .asleep

section

variable [DecidableEq N] [DecidableEq R]

/-- All members of view `v` are synchronised, and no request was sent yet. -/
def synced (V : Views N) (v : ℕ) (p : N) (last : ViewStamp) (state : List R) : State N R :=
  (State.start fun n => if n ∈ V.view v then member v p last state else Replica.fresh p).setBook
    (Book.init.setOpened v (openedBy p (member v p last state)))

def Synced (V : Views N) (v : ℕ) (s : State N R) : Prop :=
  v ≠ 0 ∧ ∃ p ∈ V.view v, ∃ last state, s = synced V v p last state

/-- The steps of `client_invoke` and `invoke`. -/
def Inside (_ : State N R) : Action N R → Prop
  | .clientStart _ _ => True
  | .clientSend _ => True
  | .clientOk _ => True
  | .clientFail _ => True
  | .clientFinish _ => True
  | .invoke _ => True
  | .invokeExec _ => True
  | _ => False

instance (s : State N R) : DecidablePred (Inside s)
  | .clientStart _ _ | .clientSend _ | .clientOk _ | .clientFail _ | .clientFinish _ | .invoke _
  | .invokeExec _ => isTrue trivial
  | .commitChange _ _ | .top _ | .joinOk _ _ | .joinFail _ | .barrier _ | .fill _ | .syncEnd _
  | .transferSend _ | .transferreq _ | .transferOk _ _ | .transferFail _ | .transferdone _
  | .doneOk _ | .doneFail _ | .exitSync _ | .wake _ | .restart _ _ => isFalse id

end

section OneView

variable {V : Views N} {s : State N R}

theorem Inside.opens {a : Action N R} (h : Inside s a) : Opens s a := by
  cases a <;> first | exact trivial | exact h.elim

variable [DecidableEq N]

theorem Synced.inView {v : ℕ} (h : Synced V v s) : InView V s := by
  rcases h with ⟨hv, p, hp, last, state, rfl⟩
  have hbook : BookOk V (synced V v p last state).book :=
    { zero := by simp [synced, Book.init, hv.symm]
      unopened := fun _ _ => ⟨rfl, fun _ => rfl⟩
      le := fun _ _ => Nat.le_refl 0
      head := fun _ _ _ _ _ => rfl }
  refine ⟨hbook, fun n => ?_, by simp [synced, State.start], by simp [synced, State.start],
    by simp [synced, State.start]⟩
  by_cases hn : n ∈ V.view v
  · have hr : (synced V v p last state).rep n = member v p last state := if_pos hn
    rw [hr]
    refine NodeIn.free rfl rfl fun hprim => ?_
    exact ⟨openedBy p (member v p last state), Function.update_self _ _ _,
      (amiprimary_iff.1 hprim).1⟩
  · have hr : (synced V v p last state).rep n = Replica.fresh p := if_neg hn
    rw [hr]
    exact NodeIn.free rfl rfl fun hprim => by simp [amiprimary_iff, Replica.fresh] at hprim

variable [DecidableEq R]

theorem one_request_per_viewstamp {v : ℕ}
    (h : Reach (Synced V v) (step V) (fun s a => Inside s a ∧ Serial s a) s)
    {n n' : N} {vs : ViewStamp} {q q' : R} (hq : (n, vs, q) ∈ s.execs)
    (hq' : (n', vs, q') ∈ s.execs) : q = q' := by
  have hI : InView V s :=
    h.invariant (fun _ h₀ => h₀.inView) fun _ _ _ hI hok hst => hI.step hok.2 hok.1.opens hst
  exact hI.unique hq hq'

end OneView

/-- The first request of view 2 is executed by both members. -/
theorem one_request_per_viewstamp_pair :
    ∃ s : State ℕ ℕ, Reach (Synced growing 2) (step growing)
        (fun s a => Inside s a ∧ Serial s a) s ∧
      (1, ⟨2, 1⟩, 10) ∈ s.execs ∧ (2, ⟨2, 1⟩, 10) ∈ s.execs ∧
      ∀ q, (1, ⟨2, 1⟩, q) ∈ s.execs → q = 10 := by
  have hrun : ∃ s : State ℕ ℕ, Reach (Synced growing 2) (step growing)
      (fun s a => Inside s a ∧ Serial s a) s ∧
        (1, ⟨2, 1⟩, 10) ∈ s.execs ∧ (2, ⟨2, 1⟩, 10) ∈ s.execs :=
    Reach.exists_of_runFrom
      [.clientStart 1 10, .clientSend 1, .invoke ⟨0, 1, 2, ⟨2, 1⟩, 10⟩, .invokeExec 2, .clientOk 1,
        .clientFinish 1]
      ⟨by decide, 1, by decide, ⟨1, 1⟩, [], rfl⟩ (by decide +kernel)
  rcases hrun with ⟨s, hs, h₁, h₂⟩
  exact ⟨s, hs, h₁, h₂, fun q hq => one_request_per_viewstamp hs hq h₂⟩

/-- Both members are in `client_invoke` at viewstamp (2, 1) and wait for each other.  The calls
time out, and their messages are executed afterwards: node 2 executes the request of node 1,
and node 1 that of node 2. -/
theorem two_clients_share_viewstamp :
    ∃ s : State ℕ ℕ, Reach (Synced growing 2) (step growing) Inside s ∧
      (2, ⟨2, 1⟩, 10) ∈ s.execs ∧ (1, ⟨2, 1⟩, 20) ∈ s.execs :=
  Reach.exists_of_runFrom
    [.clientStart 1 10, .clientStart 2 20, .clientSend 1, .clientSend 2, .clientFail 1,
      .clientFail 2, .invoke ⟨0, 1, 2, ⟨2, 1⟩, 10⟩, .invokeExec 2,
      .invoke ⟨1, 2, 1, ⟨2, 1⟩, 20⟩, .invokeExec 1]
    ⟨by decide, 1, by decide, ⟨1, 1⟩, [], rfl⟩ (by decide +kernel)

end Rsm
end Yfs

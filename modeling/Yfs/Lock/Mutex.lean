import Yfs.Lib.Run
import Yfs.Lock.Client

/-!
# Mutex — caching clients and a lock server

Any number of `lock_client_cache_rsm` clients with any number of threads share one lock server.
The server is the assumed one: it grants a free lock, answers `RETRY` for any other, keeps the
holder until it processes a release from it, and executes each call at most once.  It may send
revoke and retry messages at any time, and calls and answers are delayed at will; a call may
also come back with an error, before or after the server has executed it.

`State.tokens s c lid` counts what stands for possession of `lid` at client `c`, on the client
and in the network.  No step of a client ever adds a token, and the server adds one only with
a grant: `State.Exclusive` is the invariant behind `mutual_exclusion`.
-/

namespace Yfs
namespace Lock

open Lib

/-- An acquire call that the server has not executed yet. -/
structure AcquireCall (Cid : Type) where
  client : Cid
  lid : LockId
  xid : Xid
  id : ℕ
  deriving DecidableEq

structure ReleaseCall (Cid : Type) where
  client : Cid
  entry : LockEntry
  deriving DecidableEq

structure AcquireReply (Cid : Type) where
  client : Cid
  lid : LockId
  id : ℕ
  ret : Status
  deriving DecidableEq

structure State (Cid Tid : Type) where
  client : Cid → Client Tid
  acquires : List (AcquireCall Cid)
  releases : List (ReleaseCall Cid)
  replies : List (AcquireReply Cid)
  calls : ℕ
  holder : LockId → Option (Cid × Xid)

inductive Action (Cid Tid : Type)
  | acquire (c : Cid) (t : Tid) (lid : LockId)
  | loop (c : Cid) (t : Tid)
  | sendAcquire (c : Cid) (t : Tid)
  | acquireRet (c : Cid) (t : Tid) (ret : Status)
  | wake (c : Cid) (t : Tid) (timeout : Bool)
  | release (c : Cid) (t : Tid) (lid : LockId)
  | sendRelease (c : Cid) (t : Tid)
  | releaseRet (c : Cid) (t : Tid)
  | releaserDeq (c : Cid)
  | releaserSend (c : Cid)
  | releaserRet (c : Cid)
  | revoke (c : Cid) (lid : LockId) (xid : Xid)
  | retry (c : Cid) (lid : LockId)
  | serveAcquire (m : AcquireCall Cid)
  | serveRelease (m : ReleaseCall Cid)

variable {Cid Tid : Type} [DecidableEq Cid]

/-! ## Steps -/

def State.setClient (s : State Cid Tid) (c : Cid) (k : Client Tid) : State Cid Tid :=
  { s with client := Function.update s.client c k }

section

variable [DecidableEq Tid]

def sendAcquire (s : State Cid Tid) (c : Cid) (t : Tid) : Option (State Cid Tid) :=
  ((s.client c).sendAcquire t s.calls).map fun ke =>
    { s.setClient c ke.1 with
      acquires :=
        { client := c
          lid := ke.2.lid
          xid := ke.2.xid
          id := s.calls } :: s.acquires
      calls := s.calls + 1 }

/-- The answer of the server is taken from the network; an error needs none. -/
def acquireRet (s : State Cid Tid) (c : Cid) (t : Tid) (ret : Status) : Option (State Cid Tid) :=
  match ((s.client c).thread t).pc with
  | .calling lid id =>
      let r : AcquireReply Cid :=
        { client := c
          lid := lid
          id := id
          ret := ret }
      if ret = .ok ∨ ret = .retry then
        if r ∈ s.replies then
          ((s.client c).acquireRet t ret).map fun k =>
            { s.setClient c k with replies := s.replies.erase r }
        else
          none
      else
        ((s.client c).acquireRet t ret).map fun k => s.setClient c k
  | _ => none

def sendRelease (s : State Cid Tid) (c : Cid) (ke : Client Tid × LockEntry) : State Cid Tid :=
  { s.setClient c ke.1 with
    releases :=
      { client := c
        entry := ke.2 } :: s.releases }

def serveAcquire (s : State Cid Tid) (m : AcquireCall Cid) : State Cid Tid :=
  match s.holder m.lid with
  | none =>
      { s with
        acquires := s.acquires.erase m
        holder := Function.update s.holder m.lid (some (m.client, m.xid))
        replies :=
          { client := m.client
            lid := m.lid
            id := m.id
            ret := .ok } :: s.replies }
  | some _ =>
      { s with
        acquires := s.acquires.erase m
        replies :=
          { client := m.client
            lid := m.lid
            id := m.id
            ret := .retry } :: s.replies }

def State.Owns (s : State Cid Tid) (c : Cid) (lid : LockId) : Prop :=
  (s.holder lid).map Prod.fst = some c

instance (s : State Cid Tid) (c : Cid) (lid : LockId) : Decidable (s.Owns c lid) :=
  inferInstanceAs (Decidable (_ = _))

/-- A release of a client that is not the holder changes nothing. -/
def serveRelease (s : State Cid Tid) (m : ReleaseCall Cid) : State Cid Tid :=
  { s with
    releases := s.releases.erase m
    holder :=
      if s.Owns m.client m.entry.lid then
        Function.update s.holder m.entry.lid none
      else
        s.holder }

def step (s : State Cid Tid) : Action Cid Tid → Option (State Cid Tid)
  | .acquire c t lid => ((s.client c).acquire t lid).map (s.setClient c)
  | .loop c t => ((s.client c).loop t).map (s.setClient c)
  | .sendAcquire c t => sendAcquire s c t
  | .acquireRet c t ret => acquireRet s c t ret
  | .wake c t timeout => ((s.client c).wake t timeout).map (s.setClient c)
  | .release c t lid => ((s.client c).release t lid).map (s.setClient c)
  | .sendRelease c t => ((s.client c).sendRelease t).map (sendRelease s c)
  | .releaseRet c t => ((s.client c).releaseRet t).map (s.setClient c)
  | .releaserDeq c => (s.client c).releaserDeq.map (s.setClient c)
  | .releaserSend c => (s.client c).releaserSend.map (sendRelease s c)
  | .releaserRet c => (s.client c).releaserRet.map (s.setClient c)
  | .revoke c lid xid => some (s.setClient c ((s.client c).revokeHandler lid xid).1)
  | .retry c lid => some (s.setClient c ((s.client c).retryHandler lid).1)
  | .serveAcquire m => if m ∈ s.acquires then some (serveAcquire s m) else none
  | .serveRelease m => if m ∈ s.releases then some (serveRelease s m) else none

def init : State Cid Tid where
  client _ := Client.init
  acquires := []
  releases := []
  replies := []
  calls := 0
  holder _ := none

def Init (s : State Cid Tid) : Prop :=
  s = init

end

/-! ## What a step can do -/

variable [Fintype Tid]

def releaseTokens (c : Cid) (lid : LockId) (ms : List (ReleaseCall Cid)) : ℕ :=
  ms.countP fun m => decide (m.client = c ∧ m.entry.lid = lid)

def replyTokens (c : Cid) (lid : LockId) (rs : List (AcquireReply Cid)) : ℕ :=
  rs.countP fun r => decide (r.ret = .ok ∧ r.client = c ∧ r.lid = lid)

def State.tokens (s : State Cid Tid) (c : Cid) (lid : LockId) : ℕ :=
  (s.client c).tokens lid + releaseTokens c lid s.releases + replyTokens c lid s.replies

/-- Steps of a client move tokens and lose some; only the server makes and takes them. -/
inductive TokenMove (s t : State Cid Tid) : Prop where
  | spend :
      t.holder = s.holder → (∀ c lid, t.tokens c lid ≤ s.tokens c lid) → TokenMove s t
  | grant {c : Cid} {lid : LockId} {xid : Xid} :
      s.holder lid = none → t.holder = Function.update s.holder lid (some (c, xid)) →
        (∀ d l, t.tokens d l ≤ s.tokens d l + if d = c ∧ l = lid then 1 else 0) → TokenMove s t
  | free {c : Cid} {lid : LockId} :
      s.Owns c lid → t.holder = Function.update s.holder lid none →
        (∀ d l, t.tokens d l + (if d = c ∧ l = lid then 1 else 0) ≤ s.tokens d l) → TokenMove s t

/-- A step that changes only one client, and there only moves or loses tokens. -/
theorem TokenMove.setClient {s : State Cid Tid} {c : Cid} {k : Client Tid}
    (h : ∀ l, k.tokens l ≤ (s.client c).tokens l) : TokenMove s (s.setClient c k) := by
  refine .spend rfl fun d l => ?_
  unfold State.tokens State.setClient
  by_cases hd : d = c
  · subst hd
    simpa using h l
  · simp [hd]

theorem TokenMove.sendRelease {s : State Cid Tid} {c : Cid} {ke : Client Tid × LockEntry}
    (h : ∀ l, ke.1.tokens l + (if ke.2.lid = l then 1 else 0) = (s.client c).tokens l) :
    TokenMove s (sendRelease s c ke) := by
  refine .spend rfl fun d l => ?_
  have hcons : releaseTokens d l ((Lock.sendRelease s c ke).releases) =
      releaseTokens d l s.releases + (if c = d ∧ ke.2.lid = l then 1 else 0) := by
    simp [releaseTokens, Lock.sendRelease, List.countP_cons]
  unfold State.tokens
  rw [hcons]
  by_cases hd : d = c
  · subst hd
    have hclient : (Lock.sendRelease s d ke).client d = ke.1 := by
      simp [Lock.sendRelease, State.setClient]
    have hreplies : (Lock.sendRelease s d ke).replies = s.replies := rfl
    have htok := h l
    rw [hclient, hreplies]
    simp only [true_and]
    omega
  · have hclient : (Lock.sendRelease s c ke).client d = s.client d := by
      simp [Lock.sendRelease, State.setClient, hd]
    have hreplies : (Lock.sendRelease s c ke).replies = s.replies := rfl
    rw [hclient, hreplies]
    simp [Ne.symm hd]

theorem releaseTokens_erase (c : Cid) (lid : LockId) {ms : List (ReleaseCall Cid)}
    {m : ReleaseCall Cid} (h : m ∈ ms) :
    releaseTokens c lid (ms.erase m) + (if m.client = c ∧ m.entry.lid = lid then 1 else 0) =
      releaseTokens c lid ms := by
  have hperm : releaseTokens c lid ms = releaseTokens c lid (m :: ms.erase m) :=
    (List.perm_cons_erase h).countP_eq _
  rw [hperm]
  simp [releaseTokens, List.countP_cons]

theorem TokenMove.serveAcquire (s : State Cid Tid) (m : AcquireCall Cid) :
    TokenMove s (serveAcquire s m) := by
  unfold Lock.serveAcquire
  cases hh : s.holder m.lid with
  | none =>
      refine .grant hh rfl fun d l => ?_
      simp only [State.tokens, replyTokens, List.countP_cons, true_and, eq_comm (b := d),
        eq_comm (b := l), decide_eq_true_eq]
      omega
  | some p =>
      refine .spend rfl fun d l => ?_
      simp [State.tokens, replyTokens]

theorem TokenMove.serveRelease {s : State Cid Tid} {m : ReleaseCall Cid} (h : m ∈ s.releases) :
    TokenMove s (serveRelease s m) := by
  have herase := fun d l => releaseTokens_erase d l h
  by_cases hown : s.Owns m.client m.entry.lid
  · refine .free hown (by simp [Lock.serveRelease, hown]) fun d l => ?_
    have hd := herase d l
    simp only [State.tokens, Lock.serveRelease, eq_comm (a := d), eq_comm (a := l)]
    omega
  · refine .spend (by simp [Lock.serveRelease, hown]) fun d l => ?_
    have hd := herase d l
    simp only [State.tokens, Lock.serveRelease]
    omega

section

variable [DecidableEq Tid]

theorem TokenMove.sendAcquire {s t : State Cid Tid} {c : Cid} {th : Tid}
    (h : sendAcquire s c th = some t) : TokenMove s t := by
  rcases Option.map_eq_some_iff.1 h with ⟨⟨k, e⟩, hsend, rfl⟩
  have hle : ∀ l, k.tokens l ≤ (s.client c).tokens l := by
    intro l
    unfold Client.sendAcquire at hsend
    split at hsend
    · cases hsend
      exact Client.tokens_setPc_le _ th rfl
    · cases hsend
  cases TokenMove.setClient hle with
  | spend hh htok => exact .spend hh htok
  | grant hnone hh htok => exact .grant hnone hh htok
  | free hown hh htok => exact .free hown hh htok

/-- Taking an answer out of the network takes its token along. -/
theorem replyTokens_erase (c : Cid) (lid : LockId) {rs : List (AcquireReply Cid)}
    {r : AcquireReply Cid} (h : r ∈ rs) :
    replyTokens c lid (rs.erase r) + (if r.ret = .ok ∧ r.client = c ∧ r.lid = lid then 1 else 0) =
      replyTokens c lid rs := by
  have hperm : replyTokens c lid rs = replyTokens c lid (r :: rs.erase r) :=
    (List.perm_cons_erase h).countP_eq _
  rw [hperm]
  simp [replyTokens, List.countP_cons]

theorem TokenMove.acquireRet {s t : State Cid Tid} {c : Cid} {th : Tid} {ret : Status}
    (h : acquireRet s c th ret = some t) : TokenMove s t := by
  unfold Lock.acquireRet at h
  split at h
  next lid id hpc =>
    split at h
    next hret =>
      dsimp only at h
      split at h
      next hmem =>
        rcases Option.map_eq_some_iff.1 h with ⟨k, hk, rfl⟩
        refine .spend rfl fun d l => ?_
        have herase := replyTokens_erase d l hmem
        have hclient := Client.tokens_acquireRet_le hpc hk l
        unfold State.tokens State.setClient
        by_cases hd : d = c
        · subst hd
          simp only [true_and, eq_comm (a := lid), Function.update_self] at herase ⊢
          omega
        · simp only [Function.update_of_ne hd]
          omega
      next => cases h
    next hret =>
      rcases Option.map_eq_some_iff.1 h with ⟨k, hk, rfl⟩
      refine TokenMove.setClient fun l => ?_
      have hclient := Client.tokens_acquireRet_le hpc hk l
      have hne : ret ≠ .ok := fun heq => hret (Or.inl heq)
      simpa [hne] using hclient
  next => cases h

theorem tokenMove_step {s t : State Cid Tid} {a : Action Cid Tid} (h : step s a = some t) :
    TokenMove s t := by
  cases a with
  | acquire c th lid =>
      rcases Option.map_eq_some_iff.1 h with ⟨k, hk, rfl⟩
      unfold Client.acquire at hk
      split at hk
      · cases hk
        exact .setClient fun l => Client.tokens_setPc_le _ th rfl
      · cases hk
  | loop c th =>
      rcases Option.map_eq_some_iff.1 h with ⟨k, hk, rfl⟩
      exact .setClient (Client.tokens_loop_le hk)
  | sendAcquire c th => exact .sendAcquire h
  | acquireRet c th ret => exact .acquireRet h
  | wake c th timeout =>
      rcases Option.map_eq_some_iff.1 h with ⟨k, hk, rfl⟩
      exact .setClient (Client.tokens_wake_le hk)
  | release c th lid =>
      rcases Option.map_eq_some_iff.1 h with ⟨k, hk, rfl⟩
      exact .setClient (Client.tokens_release_le hk)
  | sendRelease c th =>
      rcases Option.map_eq_some_iff.1 h with ⟨ke, hke, rfl⟩
      exact .sendRelease (Client.tokens_sendRelease hke)
  | releaseRet c th =>
      rcases Option.map_eq_some_iff.1 h with ⟨k, hk, rfl⟩
      exact .setClient (Client.tokens_releaseRet_le hk)
  | releaserDeq c =>
      rcases Option.map_eq_some_iff.1 h with ⟨k, hk, rfl⟩
      exact .setClient fun l => le_of_eq (Client.tokens_releaserDeq hk l)
  | releaserSend c =>
      rcases Option.map_eq_some_iff.1 h with ⟨ke, hke, rfl⟩
      exact .sendRelease (Client.tokens_releaserSend hke)
  | releaserRet c =>
      rcases Option.map_eq_some_iff.1 h with ⟨k, hk, rfl⟩
      exact .setClient (Client.tokens_releaserRet_le hk)
  | revoke c lid xid =>
      cases h
      exact .setClient (Client.tokens_revokeHandler_le _ lid xid)
  | retry c lid =>
      cases h
      exact .setClient (Client.tokens_retryHandler_le _ lid)
  | serveAcquire m =>
      rcases Option.ite_none_right_eq_some.1 h with ⟨_, ⟨⟩⟩
      exact .serveAcquire s m
  | serveRelease m =>
      rcases Option.ite_none_right_eq_some.1 h with ⟨hmem, ⟨⟩⟩
      exact .serveRelease hmem

end

/-! ## Mutual exclusion -/

/-- A client that is not the holder has no token of the lock, the holder at most one. -/
def State.Exclusive (s : State Cid Tid) : Prop :=
  ∀ c lid, s.tokens c lid ≤ if s.Owns c lid then 1 else 0

theorem exclusive_init : (init : State Cid Tid).Exclusive := by
  intro c lid
  have hzero : (init : State Cid Tid).tokens c lid = 0 := by
    simp [State.tokens, init, Client.tokens, Client.init, total, Thread.tokens, Pc.tokens,
      Client.lock, ClientLock.init, ClientLock.tokens, queueTokens, ReleaserPc.tokens,
      releaseTokens, replyTokens]
  rw [hzero]
  exact Nat.zero_le _

/-- Where the holder is the same and no token is new, nothing is to be shown. -/
theorem State.Exclusive.elsewhere {s t : State Cid Tid} (h : s.Exclusive) {d : Cid} {l : LockId}
    (hown : t.Owns d l ↔ s.Owns d l) (hle : t.tokens d l ≤ s.tokens d l) :
    t.tokens d l ≤ if t.Owns d l then 1 else 0 := by
  simp only [hown]
  exact le_trans hle (h d l)

theorem State.Exclusive.step {s t : State Cid Tid} (h : s.Exclusive) (hmove : TokenMove s t) :
    t.Exclusive := by
  intro d l
  cases hmove with
  | spend hh htok =>
      exact h.elsewhere (by simp [State.Owns, hh]) (htok d l)
  | @grant c lid xid hnone hh htok =>
      have hle := htok d l
      have hs := h d l
      by_cases hl : l = lid
      · -- the lock was free, so nobody had a token of it
        subst hl
        have hnot : ¬ s.Owns d l := by simp [State.Owns, hnone]
        have hown : t.Owns d l ↔ d = c := by simp [State.Owns, hh, eq_comm]
        simp only [hnot, hown, if_false, and_true] at hle hs ⊢
        omega
      · refine h.elsewhere (by simp [State.Owns, hh, hl]) ?_
        simpa [hl] using hle
  | @free c lid hc hh htok =>
      have hle := htok d l
      have hs := h d l
      by_cases hl : l = lid
      · subst hl
        have hown : s.Owns d l ↔ d = c := by
          unfold State.Owns at hc ⊢
          rw [hc]
          simp [eq_comm]
        have hnot : ¬ t.Owns d l := by simp [State.Owns, hh]
        simp only [hnot, hown, if_false, and_true] at hle hs ⊢
        omega
      · refine h.elsewhere (by simp [State.Owns, hh, hl]) ?_
        simpa [hl] using hle

theorem tokens_pos_of_mem_holds {th : Thread} {lid : LockId} (h : lid ∈ th.holds) :
    0 < th.tokens lid :=
  Nat.add_pos_left (List.count_pos_iff.2 h) _

theorem State.Exclusive.owns {s : State Cid Tid} (h : s.Exclusive) {c : Cid} {th : Tid}
    {lid : LockId} (hmem : lid ∈ ((s.client c).thread th).holds) :
    s.Owns c lid ∧ total (Thread.tokens lid) (s.client c).thread ≤ 1 := by
  have hpos := tokens_pos_of_mem_holds hmem
  have hle := h c lid
  have hthread : Thread.tokens lid ((s.client c).thread th) ≤
      total (Thread.tokens lid) (s.client c).thread := le_total _ _ th
  unfold State.tokens Client.tokens at hle
  split at hle
  next hown => exact ⟨hown, by omega⟩
  next => omega

variable [DecidableEq Tid]

theorem exclusive_reach {s : State Cid Tid} (h : Reach Init step anyStep s) : s.Exclusive := by
  refine Reach.invariant (I := State.Exclusive) ?_ ?_ h
  · intro s hs
    exact hs ▸ exclusive_init
  · intro s a t hI _ hst
    exact hI.step (tokenMove_step hst)

/-- At most one thread of all clients is between the return of `acquire(lid)` and its call of
`release(lid)`, and it is there once. -/
theorem mutual_exclusion {s : State Cid Tid} (h : Reach Init step anyStep s) {lid : LockId}
    {c₁ c₂ : Cid} {t₁ t₂ : Tid} (h₁ : lid ∈ ((s.client c₁).thread t₁).holds)
    (h₂ : lid ∈ ((s.client c₂).thread t₂).holds) :
    c₁ = c₂ ∧ t₁ = t₂ ∧ ((s.client c₁).thread t₁).holds.count lid = 1 := by
  have hex := exclusive_reach h
  rcases hex.owns h₁ with ⟨hown₁, htotal⟩
  rcases hex.owns h₂ with ⟨hown₂, _⟩
  have hc : c₁ = c₂ := Option.some.inj (hown₁.symm.trans hown₂)
  subst hc
  refine ⟨rfl, eq_of_total_le_one htotal (tokens_pos_of_mem_holds h₁) (tokens_pos_of_mem_holds h₂),
    ?_⟩
  have hle : Thread.tokens lid ((s.client c₁).thread t₁) ≤ 1 := le_trans (le_total _ _ t₁) htotal
  have hpos := List.count_pos_iff.2 h₁
  unfold Thread.tokens at hle
  omega

/-- A client acquires a lock; another one is told to retry. -/
def contendedAcquire : List (Action Bool Bool) :=
  [.acquire false true 5, .loop false true, .acquire true true 5, .loop true true,
    .sendAcquire true true, .sendAcquire false true,
    .serveAcquire
      { client := false
        lid := 5
        xid := 0
        id := 1 },
    .serveAcquire
      { client := true
        lid := 5
        xid := 0
        id := 0 },
    .acquireRet true true .retry, .acquireRet false true .ok, .revoke false 5 0]

theorem mutual_exclusion_contended :
    ∃ s : State Bool Bool, Reach Init step anyStep s ∧
      5 ∈ ((s.client false).thread true).holds ∧
      ((s.client false).thread true).holds.count 5 = 1 := by
  have hrun : ∃ s : State Bool Bool, Reach Init step anyStep s ∧
      5 ∈ ((s.client false).thread true).holds :=
    Reach.exists_of_runFrom
      (P := fun s : State Bool Bool => 5 ∈ ((s.client false).thread true).holds)
      contendedAcquire rfl (by decide +kernel)
  rcases hrun with ⟨s, hs, hmem⟩
  exact ⟨s, hs, hmem, (mutual_exclusion hs hmem hmem).2.2⟩

end Lock
end Yfs

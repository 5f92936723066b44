import Yfs.Lock.Mutex

/-!
# Workers — who has a lock in hand

The threads of a client and its `releaser` are the workers that may have a lock in hand: a thread
between the return of `acquire` and its `release`, and whoever is about to send a release, which is
where `dorelease` is called.  A step of one worker leaves the others where they are (`Moved`), and
only a worker that was in `dorelease` sends a release (`Effect`).

What a worker has in hand is one of the tokens of its client, so at most one worker of all clients
has a given lock in hand, and none while a release of it is under way.
-/

namespace Yfs
namespace Lock

open Lib

/-- The threads of a client that call `dorelease`. -/
inductive Worker (Tid : Type)
  | thread (t : Tid)
  | releaser
  deriving DecidableEq

variable {Cid Tid : Type}

/-- Who makes a step of a lock client. -/
def worker : Action Cid Tid → Option (Cid × Worker Tid)
  | .acquire c t _ => some (c, .thread t)
  | .loop c t => some (c, .thread t)
  | .sendAcquire c t => some (c, .thread t)
  | .acquireRet c t _ => some (c, .thread t)
  | .wake c t _ => some (c, .thread t)
  | .release c t _ => some (c, .thread t)
  | .sendRelease c t => some (c, .thread t)
  | .releaseRet c t => some (c, .thread t)
  | .releaserDeq c => some (c, .releaser)
  | .releaserSend c => some (c, .releaser)
  | .releaserRet c => some (c, .releaser)
  | .revoke _ _ _ => none
  | .retry _ _ => none
  | .serveAcquire _ => none
  | .serveRelease _ => none

/-- The steps with which a worker comes back from `dorelease` and sends the release. -/
def sends : Action Cid Tid → Bool
  | .sendRelease _ _ => true
  | .releaserSend _ => true
  | _ => false

def pcFlushing : Pc → Option LockId
  | .flushing lid _ => some lid
  | _ => none

def releaserFlushing : ReleaserPc → Option LockId
  | .flushing e => some e.lid
  | _ => none

/-- The argument of the `dorelease` that a worker has come to. -/
def flushing (l : State Cid Tid) (c : Cid) : Worker Tid → Option LockId
  | .thread t => pcFlushing ((l.client c).thread t).pc
  | .releaser => releaserFlushing (l.client c).releaser

/-! ## What a step of a lock client can do -/

/-- Only the worker `w` of the client has moved. -/
structure Only (k k' : Client Tid) (w : Option (Worker Tid)) : Prop where
  thread : ∀ t, w ≠ some (.thread t) → k'.thread t = k.thread t
  releaser : w ≠ some .releaser → k'.releaser = k.releaser

section Only

variable {k k' : Client Tid} {t : Tid}

theorem Only.refl (k : Client Tid) (w : Option (Worker Tid)) : Only k k w where
  thread _ _ := rfl
  releaser _ := rfl

theorem Only.setLock {w : Option (Worker Tid)} (h : Only k k' w) (lid : LockId) (v : ClientLock) :
    Only k (k'.setLock lid v) w where
  thread := h.thread
  releaser := h.releaser

theorem Only.releaserDeq (h : k.releaserDeq = some k') : Only k k' (some .releaser) := by
  unfold Client.releaserDeq at h
  split at h
  · cases h
    exact ⟨fun _ _ => rfl, fun hne => absurd rfl hne⟩
  · cases h

theorem Only.releaserRet (h : k.releaserRet = some k') : Only k k' (some .releaser) := by
  unfold Client.releaserRet at h
  split at h
  · cases h
    exact ⟨fun _ _ => rfl, fun hne => absurd rfl hne⟩
  · cases h

theorem Only.revokeHandler (k : Client Tid) (lid : LockId) (xid : Xid) :
    Only k (k.revokeHandler lid xid).1 none := by
  unfold Client.revokeHandler
  split
  · exact .refl k none
  · split
    · exact .refl k none
    · split
      · exact .refl k none
      · split
        · exact ⟨fun _ _ => rfl, fun _ => rfl⟩
        · exact (Only.refl k none).setLock _ _

theorem Only.retryHandler (k : Client Tid) (lid : LockId) :
    Only k (k.retryHandler lid).1 none := by
  unfold Client.retryHandler
  split
  · exact .refl k none
  · exact (Only.refl k none).setLock _ _

variable [DecidableEq Tid]

theorem Only.setThread (h : Only k k' (some (.thread t))) (th : Thread) :
    Only k (k'.setThread t th) (some (.thread t)) where
  thread u hu := by
    have hne : u ≠ t := fun heq => hu (by rw [heq])
    have hsame : (k'.setThread t th).thread u = k'.thread u := by simp [Client.setThread, hne]
    exact hsame.trans (h.thread u hu)
  releaser := h.releaser

theorem Only.setPc (h : Only k k' (some (.thread t))) (pc : Pc) :
    Only k (k'.setPc t pc) (some (.thread t)) :=
  h.setThread _

theorem Only.request (k : Client Tid) (t : Tid) (lid : LockId) :
    Only k (k.request t lid) (some (.thread t)) :=
  let h := ((Only.refl k (some (.thread t))).setLock lid _).setPc (.unlocked lid)
  ⟨h.thread, h.releaser⟩

theorem Only.take (k : Client Tid) (t : Tid) (lid : LockId) :
    Only k (k.take t lid) (some (.thread t)) :=
  ((Only.refl k _).setLock lid _).setThread _

theorem Only.acquire {lid : LockId} (h : k.acquire t lid = some k') :
    Only k k' (some (.thread t)) := by
  rcases Option.ite_none_right_eq_some.1 h with ⟨_, ⟨⟩⟩
  exact (Only.refl k _).setPc _

theorem Only.loop (h : k.loop t = some k') : Only k k' (some (.thread t)) := by
  have hwait : ∀ lid v, Only k ((k.setLock lid v).setPc t (.waiting lid)) (some (.thread t)) :=
    fun lid v => ((Only.refl k _).setLock lid v).setPc _
  unfold Client.loop at h
  split at h
  next lid hpc =>
    dsimp only at h
    split at h
    · exact Option.some.inj h ▸ .request k t lid
    · exact Option.some.inj h ▸ .take k t lid
    · exact Option.some.inj h ▸ hwait lid _
    · split at h
      · exact Option.some.inj h ▸ hwait lid _
      · exact Option.some.inj h ▸ .request k t lid
    · exact Option.some.inj h ▸ hwait lid _
  next => cases h

theorem Only.sendAcquire {id : ℕ} {e : LockEntry} (h : k.sendAcquire t id = some (k', e)) :
    Only k k' (some (.thread t)) := by
  unfold Client.sendAcquire at h
  split at h
  · cases h
    exact (Only.refl k _).setPc _
  · cases h

theorem Only.acquireRet {ret : Status} (h : k.acquireRet t ret = some k') :
    Only k k' (some (.thread t)) := by
  have hpc : ∀ pc, Only k (k.setPc t pc) (some (.thread t)) := fun pc => (Only.refl k _).setPc pc
  unfold Client.acquireRet at h
  split at h
  next lid id _ =>
    split at h
    · exact Option.some.inj h ▸ .take k t lid
    · split at h
      · exact Option.some.inj h ▸ hpc _
      · exact Option.some.inj h ▸ hpc _
    · exact Option.some.inj h ▸ hpc _
  next => cases h

theorem Only.wake {timeout : Bool} (h : k.wake t timeout = some k') :
    Only k k' (some (.thread t)) := by
  unfold Client.wake at h
  split at h
  · cases h
    exact (Only.refl k _).setPc _
  · split at h
    · cases h
      exact ((Only.refl k _).setLock _ _).setPc _
    · cases h
      exact (Only.refl k _).setPc _
  · cases h

theorem Only.release {lid : LockId} (h : k.release t lid = some k') :
    Only k k' (some (.thread t)) := by
  rcases Option.ite_none_right_eq_some.1 h with ⟨_, h⟩
  dsimp only at h
  split at h
  · cases h
    exact (Only.refl k _).setThread _
  · split at h
    · cases h
      exact ((Only.refl k _).setLock _ _).setThread _
    · cases h
      exact ((Only.refl k _).setLock _ _).setThread _

theorem Only.releaseRet (h : k.releaseRet t = some k') : Only k k' (some (.thread t)) := by
  unfold Client.releaseRet at h
  split at h
  · cases h
    exact ((Only.refl k _).setLock _ _).setPc _
  · cases h

end Only

/-- The server and the network after a step of a lock client: only a worker that has come back
from `dorelease` sends a release, and a release of the holder frees the lock. -/
inductive Effect (s : State Cid Tid) (a : Action Cid Tid) (t : State Cid Tid) : Prop
  | quiet : t.holder = s.holder → (∀ m ∈ t.releases, m ∈ s.releases) → Effect s a t
  | send {c : Cid} {w : Worker Tid} {lid : LockId} :
      worker a = some (c, w) → sends a = true → flushing s c w = some lid →
        t.holder = s.holder → (∀ m ∈ t.releases, m.entry.lid = lid ∨ m ∈ s.releases) → Effect s a t
  | grant {c : Cid} {lid : LockId} {xid : Xid} :
      s.holder lid = none → t.holder = Function.update s.holder lid (some (c, xid)) →
        (∀ m ∈ t.releases, m ∈ s.releases) → Effect s a t
  | free {m : ReleaseCall Cid} :
      m ∈ s.releases → s.Owns m.client m.entry.lid →
        t.holder = Function.update s.holder m.entry.lid none →
          (∀ m ∈ t.releases, m ∈ s.releases) → Effect s a t

/-- A step that changes the client `c` alone. -/
theorem effect_of_client {s t : State Cid Tid} {a : Action Cid Tid}
    (hholder : t.holder = s.holder) (hreleases : t.releases = s.releases) : Effect s a t :=
  .quiet hholder fun m hm => by rwa [hreleases] at hm

theorem only_releaserSend {k : Client Tid} {ke : Client Tid × LockEntry}
    (h : k.releaserSend = some ke) :
    Only k ke.1 (some .releaser) ∧ k.releaser = .flushing ke.2 := by
  unfold Client.releaserSend at h
  split at h
  next e hpc =>
    cases h
    exact ⟨⟨fun _ _ => rfl, fun hne => absurd rfl hne⟩, hpc⟩
  next => cases h

section

variable [DecidableEq Cid]

/-- Who moves in a step: the worker of the step, and nobody else of any client. -/
def Moved (s : State Cid Tid) (a : Action Cid Tid) (t : State Cid Tid) : Prop :=
  ∀ c, Only (s.client c) (t.client c)
    ((worker a).bind fun cw => if cw.1 = c then some cw.2 else none)

theorem moved_setClient {s t : State Cid Tid} {a : Action Cid Tid} {c : Cid}
    {k : Client Tid} {w : Option (Worker Tid)}
    (ht : t.client = Function.update s.client c k) (h : Only (s.client c) k w)
    (hw : ((worker a).bind fun cw => if cw.1 = c then some cw.2 else none) = w) : Moved s a t := by
  intro d
  rw [ht]
  by_cases hd : d = c
  · subst hd
    rw [Function.update_self, hw]
    exact h
  · rw [Function.update_of_ne hd]
    exact .refl _ _

theorem effect_serveAcquire (s : State Cid Tid) (a : Action Cid Tid)
    (m : AcquireCall Cid) : Effect s a (serveAcquire s m) := by
  unfold serveAcquire
  split
  next hnone => exact .grant hnone rfl fun _ hm => hm
  next => exact effect_of_client rfl rfl

theorem effect_serveRelease {s : State Cid Tid} (a : Action Cid Tid)
    {m : ReleaseCall Cid} (hm : m ∈ s.releases) : Effect s a (serveRelease s m) := by
  have hsub : ∀ m' ∈ s.releases.erase m, m' ∈ s.releases := fun m' h => List.mem_of_mem_erase h
  by_cases hown : s.Owns m.client m.entry.lid
  · exact .free hm hown (by simp [serveRelease, hown]) hsub
  · exact .quiet (by simp [serveRelease, hown]) hsub

theorem client_serveAcquire (s : State Cid Tid) (m : AcquireCall Cid) :
    (serveAcquire s m).client = s.client := by
  unfold serveAcquire
  split <;> rfl

end

section

variable [DecidableEq Tid]

theorem only_sendRelease {k : Client Tid} {t : Tid} {ke : Client Tid × LockEntry}
    (h : k.sendRelease t = some ke) :
    Only k ke.1 (some (.thread t)) ∧ ∃ xid, (k.thread t).pc = .flushing ke.2.lid xid := by
  unfold Client.sendRelease at h
  split at h
  next lid xid hpc =>
    cases h
    exact ⟨(Only.refl k _).setPc _, xid, hpc⟩
  next => cases h

variable [DecidableEq Cid]

theorem only_acquireRet {s t : State Cid Tid} {c : Cid} {th : Tid} {ret : Status}
    (h : acquireRet s c th ret = some t) :
    ∃ k, t.client = Function.update s.client c k ∧ Only (s.client c) k (some (.thread th)) ∧
      t.holder = s.holder ∧ t.releases = s.releases := by
  unfold acquireRet at h
  split at h
  · dsimp only at h
    split at h
    · split at h
      · rcases Option.map_eq_some_iff.1 h with ⟨k, hk, rfl⟩
        exact ⟨k, rfl, .acquireRet hk, rfl, rfl⟩
      · cases h
    · rcases Option.map_eq_some_iff.1 h with ⟨k, hk, rfl⟩
      exact ⟨k, rfl, .acquireRet hk, rfl, rfl⟩
  · cases h

theorem effect_step {s t : State Cid Tid} {a : Action Cid Tid}
    (h : step s a = some t) : Effect s a t := by
  cases a with
  | acquire c th lid | loop c th | wake c th timeout | release c th lid | releaseRet c th
  | releaserDeq c | releaserRet c | sendAcquire c th =>
      rcases Option.map_eq_some_iff.1 h with ⟨k, hk, rfl⟩
      exact effect_of_client rfl rfl
  | acquireRet c th ret =>
      rcases only_acquireRet h with ⟨k, _, _, hholder, hreleases⟩
      exact effect_of_client hholder hreleases
  | sendRelease c th =>
      rcases Option.map_eq_some_iff.1 h with ⟨ke, hke, rfl⟩
      rcases (only_sendRelease hke).2 with ⟨xid, hpc⟩
      have hflushing : flushing s c (.thread th) = some ke.2.lid := by
        simp [flushing, pcFlushing, hpc]
      refine .send rfl rfl hflushing rfl fun m hm => ?_
      rcases List.mem_cons.1 hm with rfl | hm
      · exact Or.inl rfl
      · exact Or.inr hm
  | releaserSend c =>
      rcases Option.map_eq_some_iff.1 h with ⟨ke, hke, rfl⟩
      have hpc := (only_releaserSend hke).2
      have hflushing : flushing s c .releaser = some ke.2.lid := by
        simp [flushing, releaserFlushing, hpc]
      refine .send rfl rfl hflushing rfl fun m hm => ?_
      rcases List.mem_cons.1 hm with rfl | hm
      · exact Or.inl rfl
      · exact Or.inr hm
  | revoke c lid xid | retry c lid =>
      cases h
      exact effect_of_client rfl rfl
  | serveAcquire m =>
      rcases Option.ite_none_right_eq_some.1 h with ⟨_, ⟨⟩⟩
      exact effect_serveAcquire s _ m
  | serveRelease m =>
      rcases Option.ite_none_right_eq_some.1 h with ⟨hm, ⟨⟩⟩
      exact effect_serveRelease _ hm

theorem moved_step {s t : State Cid Tid} {a : Action Cid Tid}
    (h : step s a = some t) : Moved s a t := by
  cases a with
  | acquire c th lid =>
      rcases Option.map_eq_some_iff.1 h with ⟨k, hk, rfl⟩
      exact moved_setClient rfl (.acquire hk) (by simp [worker])
  | loop c th =>
      rcases Option.map_eq_some_iff.1 h with ⟨k, hk, rfl⟩
      exact moved_setClient rfl (.loop hk) (by simp [worker])
  | sendAcquire c th =>
      rcases Option.map_eq_some_iff.1 h with ⟨⟨k, e⟩, hk, rfl⟩
      exact moved_setClient rfl (.sendAcquire hk) (by simp [worker])
  | acquireRet c th ret =>
      rcases only_acquireRet h with ⟨k, hclient, honly, _⟩
      exact moved_setClient hclient honly (by simp [worker])
  | wake c th timeout =>
      rcases Option.map_eq_some_iff.1 h with ⟨k, hk, rfl⟩
      exact moved_setClient rfl (.wake hk) (by simp [worker])
  | release c th lid =>
      rcases Option.map_eq_some_iff.1 h with ⟨k, hk, rfl⟩
      exact moved_setClient rfl (.release hk) (by simp [worker])
  | sendRelease c th =>
      rcases Option.map_eq_some_iff.1 h with ⟨ke, hke, rfl⟩
      exact moved_setClient rfl (only_sendRelease hke).1 (by simp [worker])
  | releaseRet c th =>
      rcases Option.map_eq_some_iff.1 h with ⟨k, hk, rfl⟩
      exact moved_setClient rfl (.releaseRet hk) (by simp [worker])
  | releaserDeq c =>
      rcases Option.map_eq_some_iff.1 h with ⟨k, hk, rfl⟩
      exact moved_setClient rfl (.releaserDeq hk) (by simp [worker])
  | releaserSend c =>
      rcases Option.map_eq_some_iff.1 h with ⟨ke, hke, rfl⟩
      exact moved_setClient rfl (only_releaserSend hke).1 (by simp [worker])
  | releaserRet c =>
      rcases Option.map_eq_some_iff.1 h with ⟨k, hk, rfl⟩
      exact moved_setClient rfl (.releaserRet hk) (by simp [worker])
  | revoke c lid xid =>
      cases h
      exact moved_setClient rfl (.revokeHandler _ lid xid) (by simp [worker])
  | retry c lid =>
      cases h
      exact moved_setClient rfl (.retryHandler _ lid) (by simp [worker])
  | serveAcquire m =>
      rcases Option.ite_none_right_eq_some.1 h with ⟨_, ⟨⟩⟩
      intro d
      rw [client_serveAcquire]
      exact .refl _ _
  | serveRelease m =>
      rcases Option.ite_none_right_eq_some.1 h with ⟨_, ⟨⟩⟩
      exact fun d => .refl _ _

end

/-! ## One worker for an extent -/

/-- What a worker carries of the client's tokens. -/
def Worker.tokens (k : Client Tid) (lid : LockId) : Worker Tid → ℕ
  | .thread t => (k.thread t).tokens lid
  | .releaser => k.releaser.tokens lid

/-- The worker may work on the extent: it holds the lock or is about to give it back. -/
def Carries (l : State Cid Tid) (c : Cid) (w : Worker Tid) (lid : LockId) : Prop :=
  0 < w.tokens (l.client c) lid

theorem carries_of_flushing {l : State Cid Tid} {c : Cid} {w : Worker Tid} {lid : LockId}
    (h : flushing l c w = some lid) : Carries l c w lid := by
  cases w with
  | thread t =>
      change 0 < ((l.client c).thread t).holds.count lid + ((l.client c).thread t).pc.tokens lid
      change pcFlushing ((l.client c).thread t).pc = some lid at h
      unfold pcFlushing at h
      split at h
      next lid xid hpc =>
        cases h
        simp [Pc.tokens, hpc]
      next => cases h
  | releaser =>
      change 0 < (l.client c).releaser.tokens lid
      change releaserFlushing (l.client c).releaser = some lid at h
      unfold releaserFlushing at h
      split at h
      next e hpc =>
        cases h
        simp [ReleaserPc.tokens, hpc]
      next => cases h

section

variable [Fintype Tid]

theorem tokens_le (k : Client Tid) (lid : LockId) (w : Worker Tid) :
    w.tokens k lid ≤ k.tokens lid := by
  cases w with
  | thread t =>
      have hle : (k.thread t).tokens lid ≤ total (Thread.tokens lid) k.thread := le_total _ _ t
      simp only [Worker.tokens, Client.tokens]
      omega
  | releaser => exact Nat.le_add_left _ _

variable [DecidableEq Tid]

theorem tokens_add_le (k : Client Tid) (lid : LockId) {v w : Worker Tid} (h : v ≠ w) :
    v.tokens k lid + w.tokens k lid ≤ k.tokens lid := by
  have hthread : ∀ t, (k.thread t).tokens lid ≤ total (Thread.tokens lid) k.thread :=
    fun t => le_total _ _ t
  unfold Client.tokens
  cases v with
  | thread t =>
      have ht := hthread t
      cases w with
      | thread u =>
          have hne : t ≠ u := fun heq => h (by rw [heq])
          have hadd : (k.thread t).tokens lid + (k.thread u).tokens lid ≤
              total (Thread.tokens lid) k.thread := add_le_total _ _ hne
          simp only [Worker.tokens]
          omega
      | releaser =>
          simp only [Worker.tokens]
          omega
  | releaser =>
      cases w with
      | thread u =>
          have hu := hthread u
          simp only [Worker.tokens]
          omega
      | releaser => exact absurd rfl h

end

section Exclusive

variable {l : State Cid Tid} {c d : Cid} {v w : Worker Tid} {lid : LockId}

theorem Owns.client_eq (hc : l.Owns c lid) (hd : l.Owns d lid) : d = c :=
  Option.some.inj (hd.symm.trans hc)

variable [DecidableEq Cid]

theorem releaseTokens_pos {m : ReleaseCall Cid} {ms : List (ReleaseCall Cid)} (hm : m ∈ ms) :
    0 < releaseTokens m.client m.entry.lid ms :=
  List.countP_pos_iff.2 ⟨m, hm, by simp⟩

variable [Fintype Tid]

theorem owns_of_tokens (h : l.Exclusive) (hpos : 0 < l.tokens c lid) : l.Owns c lid := by
  have hle := h c lid
  by_contra hnot
  rw [if_neg hnot] at hle
  omega

theorem tokens_le_one (h : l.Exclusive) (c : Cid) (lid : LockId) : l.tokens c lid ≤ 1 := by
  have hle := h c lid
  split at hle <;> omega

theorem Carries.owns (hw : Carries l c w lid) (h : l.Exclusive) : l.Owns c lid := by
  have hle := tokens_le (l.client c) lid w
  refine owns_of_tokens h ?_
  unfold Carries at hw
  unfold State.tokens
  omega

theorem owns_of_released (h : l.Exclusive) {m : ReleaseCall Cid} (hm : m ∈ l.releases) :
    l.Owns m.client m.entry.lid := by
  have hpos := releaseTokens_pos hm
  refine owns_of_tokens h ?_
  unfold State.tokens
  omega

/-- While a release is under way nobody works on the extent. -/
theorem Carries.not_released (hw : Carries l c w lid) (h : l.Exclusive) {m : ReleaseCall Cid}
    (hm : m ∈ l.releases) : m.entry.lid ≠ lid := by
  rintro rfl
  have hpos := releaseTokens_pos hm
  have hc : m.client = c := Owns.client_eq (hw.owns h) (owns_of_released h hm)
  subst hc
  have hle := tokens_le (l.client m.client) m.entry.lid w
  have hone := tokens_le_one h m.client m.entry.lid
  unfold Carries at hw
  unfold State.tokens at hone
  omega

theorem released_owned (h : l.Exclusive) {m : ReleaseCall Cid} (hm : m ∈ l.releases) :
    l.holder m.entry.lid ≠ none := by
  have hown := owns_of_released h hm
  intro hnone
  simp [State.Owns, hnone] at hown

variable [DecidableEq Tid]

theorem Carries.unique (hw : Carries l c w lid) (hv : Carries l d v lid) (h : l.Exclusive) :
    d = c ∧ v = w := by
  have hd : d = c := Owns.client_eq (hw.owns h) (hv.owns h)
  subst hd
  refine ⟨rfl, ?_⟩
  by_contra hne
  have hadd := tokens_add_le (l.client d) lid hne
  have hone := tokens_le_one h d lid
  unfold Carries at hw hv
  unfold State.tokens at hone
  omega

end Exclusive
end Lock
end Yfs

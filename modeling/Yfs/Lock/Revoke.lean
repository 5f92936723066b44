import Yfs.Lock.Mutex
import Yfs.Lock.Phase

/-!
# Revoke — the entry of a lock describes the grant of the server

A revoke names the xid of the grant, and `revoke_handler` drops it unless the entry has that xid.
`Tracked` relates the two: as long as a client has a lock, the entry's `xid_` is the xid that the
server granted, and so is the xid of every release.

It needs every client to ask once at a time (`OneAtATime`).  Without that a second thread can take
a new xid while the first one's call is under way; the server grants the first, and its revoke is
answered `RPCERR` (`revoke_dropped`).
-/

namespace Yfs
namespace Lock

open Lib

variable {Cid Tid : Type}

section

variable [Fintype Tid]

/-- A thread that finds `ACQUIRING` and `retry_` asks only when no other thread is asking. -/
def Client.MayLoop (k : Client Tid) : Pc → Prop
  | .loop lid => (k.lock lid).state = .acquiring ∧ (k.lock lid).retry = true → k.Alone lid
  | _ => True

def OneAtATime (s : State Cid Tid) : Action Cid Tid → Prop
  | .loop c t => (s.client c).MayLoop ((s.client c).thread t).pc
  | _ => True

/-- What the network and the server of `s` have to do with the state `k` of the client `c`.  An
`OK` on its way to a thread stands for the grant, and so does a release that the server has not
seen; `owed` says that a grant is always somewhere. -/
structure Tracks (s : State Cid Tid) (c : Cid) (k : Client Tid) : Prop where
  phased : k.Phased
  named : k.Named
  asked : ∀ m ∈ s.acquires, m.client = c →
    ∀ t, (k.thread t).pc = .calling m.lid m.id → m.xid = (k.lock m.lid).xid
  answered : ∀ r ∈ s.replies, r.ret = .ok → r.client = c →
    ∀ t, (k.thread t).pc = .calling r.lid r.id → s.holder r.lid = some (c, (k.lock r.lid).xid)
  held : ∀ lid, k.Has lid → s.holder lid = some (c, (k.lock lid).xid)
  released : ∀ m ∈ s.releases, m.client = c → s.holder m.entry.lid = some (c, m.entry.xid)
  owed : ∀ lid, s.Owns c lid → k.Has lid ∨
    (∃ r ∈ s.replies, r.ret = .ok ∧ r.client = c ∧ r.lid = lid) ∨
      ∃ m ∈ s.releases, m.client = c ∧ m.entry.lid = lid

structure Tracked (s : State Cid Tid) : Prop where
  freshCall : ∀ m ∈ s.acquires, m.id < s.calls
  freshReply : ∀ r ∈ s.replies, r.id < s.calls
  client : ∀ c, Tracks s c (s.client c)

theorem tracked_init : Tracked (init : State Cid Tid) := by
  have hzero : ∀ p lid, (Client.init : Client Tid).load p lid = 0 := by
    intro p lid
    simp [Client.load, Client.init, total, Thread.load, Pc.load, ReleaserPc.load, queueTokens]
  have hhas : ∀ lid, ¬ (Client.init : Client Tid).Has lid := by
    rintro lid (h | h | h)
    · cases h
    · exact absurd (hzero _ _) (Nat.ne_of_gt h)
    · exact absurd (hzero _ _) (Nat.ne_of_gt h)
  refine ⟨fun m hm => absurd hm List.not_mem_nil, fun r hr => absurd hr List.not_mem_nil,
    fun c => ?_⟩
  refine
    { phased := fun lid => ⟨hzero _ _, hzero _ _, hzero _ _, hzero _ _⟩
      named := ?_
      asked := fun m hm => absurd hm List.not_mem_nil
      answered := fun r hr => absurd hr List.not_mem_nil
      held := fun lid h => absurd h (hhas lid)
      released := fun m hm => absurd hm List.not_mem_nil
      owed := fun lid hown => absurd hown (by simp [State.Owns, init]) }
  rintro e (h | h | ⟨t, h⟩) <;> simp [init, Client.init] at h

variable [DecidableEq Cid] [DecidableEq Tid]

instance (k : Client Tid) (pc : Pc) : Decidable (k.MayLoop pc) := by
  cases pc
  case loop lid => exact inferInstanceAs (Decidable (_ → _))
  all_goals exact isTrue trivial

instance (s : State Cid Tid) (a : Action Cid Tid) : Decidable (OneAtATime s a) := by
  cases a
  case loop c t => exact inferInstanceAs (Decidable ((s.client c).MayLoop _))
  all_goals exact isTrue trivial

end

/-! ## Steps of one client -/

section

variable [Fintype Tid]

/-- What a client owes it still owes, as long as the messages about it are there. -/
theorem owed_mono {s s' : State Cid Tid} {c : Cid} {k k' : Client Tid} {l : LockId}
    (h : k.Has l ∨ (∃ r ∈ s.replies, r.ret = .ok ∧ r.client = c ∧ r.lid = l) ∨
      ∃ m ∈ s.releases, m.client = c ∧ m.entry.lid = l)
    (hhas : k.Has l → k'.Has l)
    (hreplies : ∀ r ∈ s.replies, r.ret = .ok → r.client = c → r.lid = l → r ∈ s'.replies)
    (hreleases : ∀ m ∈ s.releases, m.client = c → m.entry.lid = l → m ∈ s'.releases) :
    k'.Has l ∨ (∃ r ∈ s'.replies, r.ret = .ok ∧ r.client = c ∧ r.lid = l) ∨
      ∃ m ∈ s'.releases, m.client = c ∧ m.entry.lid = l := by
  rcases h with h | ⟨r, hr, hok, hc, hl⟩ | ⟨m, hm, hc, hl⟩
  · exact Or.inl (hhas h)
  · exact Or.inr (Or.inl ⟨r, hreplies r hr hok hc hl, hok, hc, hl⟩)
  · exact Or.inr (Or.inr ⟨m, hreleases m hm hc hl, hc, hl⟩)

/-- A step inside a client: possession stays, and an entry whose xid changes belongs to a lock
that the client neither has nor asks for. -/
theorem Tracks.client {s : State Cid Tid} {c : Cid} {k k' : Client Tid} (hk : Tracks s c k)
    (hphased : k'.Phased) (hnamed : k'.Named) (hhas : ∀ l, k'.Has l ↔ k.Has l)
    (hcalling : ∀ t l id, (k'.thread t).pc = .calling l id →
      (k.thread t).pc = .calling l id ∧ (k'.lock l).xid = (k.lock l).xid)
    (hxid : ∀ l, k'.Has l → (k'.lock l).xid = (k.lock l).xid) : Tracks s c k' where
  phased := hphased
  named := hnamed
  asked m hm hc t hpc := by
    rcases hcalling t _ _ hpc with ⟨hpc', hx⟩
    rw [hx]
    exact hk.asked m hm hc t hpc'
  answered r hr hok hc t hpc := by
    rcases hcalling t _ _ hpc with ⟨hpc', hx⟩
    rw [hx]
    exact hk.answered r hr hok hc t hpc'
  held lid hl := by
    rw [hxid lid hl]
    exact hk.held lid ((hhas lid).1 hl)
  released := hk.released
  owed lid hown := by
    rw [hhas]
    exact hk.owed lid hown

theorem load_asking_pos {k : Client Tid} {t : Tid} {lid : LockId} {id : ℕ}
    (h : (k.thread t).pc = .calling lid id) : 0 < k.load .asking lid := by
  have hle := le_total (Thread.load lid .asking) k.thread t
  have hpos : (k.thread t).load lid .asking = 1 := by simp [Thread.load, Pc.load, unit, h]
  unfold Client.load
  omega

variable [DecidableEq Cid]

/-- A step that changes the state of one client, and the network as it likes. -/
theorem client_of_update {s s' : State Cid Tid} {c : Cid} {k : Client Tid}
    (hclient : s'.client = Function.update s.client c k) (hself : Tracks s' c k)
    (hother : ∀ d, d ≠ c → Tracks s' d (s.client d)) (d : Cid) : Tracks s' d (s'.client d) := by
  rw [hclient]
  by_cases hd : d = c
  · subst hd
    rw [Function.update_self]
    exact hself
  · rw [Function.update_of_ne hd]
    exact hother d hd

theorem Tracked.setClient {s : State Cid Tid} (hs : Tracked s) {c : Cid} {k : Client Tid}
    (hk : Tracks s c k) : Tracked (s.setClient c k) where
  freshCall := hs.freshCall
  freshReply := hs.freshReply
  client := client_of_update rfl ⟨hk.1, hk.2, hk.3, hk.4, hk.5, hk.6, hk.7⟩ fun d _ =>
    have hd := hs.client d
    ⟨hd.1, hd.2, hd.3, hd.4, hd.5, hd.6, hd.7⟩

theorem Tracked.quiet {s : State Cid Tid} (hs : Tracked s) {c : Cid} {k : Client Tid}
    (h : Quiet (s.client c) k) : Tracked (s.setClient c k) :=
  hs.setClient ((hs.client c).client h.phased (h.named (hs.client c).named) h.has
    (fun t l id hpc => ⟨h.calling t l id hpc, h.xid l⟩) fun l _ => h.xid l)

end

section

variable [DecidableEq Tid] [Fintype Tid]

/-- A thread asks the server: no thread of the client does so already. -/
theorem Tracks.request {s : State Cid Tid} {c : Cid} {k : Client Tid} (hk : Tracks s c k) {t : Tid}
    {lid : LockId} (hpc : (k.thread t).pc = .loop lid)
    (hst : (k.lock lid).state = .none ∨ (k.lock lid).state = .acquiring) (halone : k.Alone lid) :
    Tracks s c (k.request t lid) := by
  rcases request_spec hk.phased hk.named hpc hst halone with ⟨hphased, hnamed, hhas, hnot⟩
  have hxid : ∀ l, l ≠ lid → ((k.request t lid).lock l).xid = (k.lock l).xid := by
    intro l hl
    have hlock : (k.request t lid).lock l = (k.setLock lid _).lock l := rfl
    rw [hlock, Client.lock_setLock, if_neg hl]
  refine hk.client hphased hnamed hhas (fun u l id hu => ?_) fun l hl => ?_
  · have hu' : (k.thread u).pc = .calling l id :=
      (Client.pc_setThread (k := k.setLock lid _) hu).resolve_right (by rintro ⟨⟩)
    refine ⟨hu', hxid l ?_⟩
    rintro rfl
    have := load_asking_pos hu'
    unfold Client.Alone at halone
    omega
  · refine hxid l ?_
    rintro rfl
    exact hnot ((hhas l).1 hl)

variable [DecidableEq Cid]

theorem Tracked.loop {s : State Cid Tid} (hs : Tracked s) {c : Cid} {t : Tid} {k : Client Tid}
    (hok : OneAtATime s (.loop c t)) (h : (s.client c).loop t = some k) :
    Tracked (s.setClient c k) := by
  have hk := hs.client c
  rcases loop_cases hk.phased h with ⟨lid, hpc, rfl, hst⟩ | hquiet
  · refine hs.setClient (hk.request hpc (hst.imp_right And.left) ?_)
    rcases hst with hst | hst
    · have hfits := hk.phased lid
      rw [hst] at hfits
      exact hfits.1
    · simp only [OneAtATime, hpc] at hok
      exact hok hst
  · exact hs.quiet hquiet

end

/-! ## Calls and answers -/

section

variable [Fintype Tid]

theorem has_of_pending {k : Client Tid} {e : LockEntry} (h : k.Pending e) : k.Has e.lid :=
  Or.inr (Or.inr (load_unsent_pos h))

variable [DecidableEq Cid]

theorem Tracked.dropReply {s : State Cid Tid} (hs : Tracked s) {r : AcquireReply Cid}
    (hr : r.ret ≠ .ok) : Tracked { s with replies := s.replies.erase r } where
  freshCall := hs.freshCall
  freshReply r' hr' := hs.freshReply r' (List.mem_of_mem_erase hr')
  client d := by
    have hd := hs.client d
    refine ⟨hd.1, hd.2, hd.3, fun r' hr' => hd.4 r' (List.mem_of_mem_erase hr'), hd.5, hd.6,
      fun l hown => owed_mono (hd.owed l hown) id (fun r' hr' hok _ _ => ?_) fun m hm _ _ => hm⟩
    refine (List.mem_erase_of_ne ?_).2 hr'
    rintro rfl
    exact hr hok

/-- A release leaves with the xid of the grant. -/
theorem Tracked.sendRelease {s : State Cid Tid} (hs : Tracked s) {c : Cid}
    {ke : Client Tid × LockEntry} (h : Sends (s.client c) ke.1 ke.2) :
    Tracked (sendRelease s c ke) := by
  have hk := hs.client c
  have hgrant : s.holder ke.2.lid = some (c, ke.2.xid) := by
    rw [hk.held _ (has_of_pending h.pending), hk.named _ h.pending]
  refine ⟨hs.freshCall, hs.freshReply, client_of_update rfl ?_ fun d hd => ?_⟩
  · refine
      { phased := h.phased
        named := fun e he => ?_
        asked := fun m hm hc t ht => ?_
        answered := fun r hr hok hc t ht => ?_
        held := fun l hl => ?_
        released := fun m hm hc => ?_
        owed := fun l hown => ?_ }
    · rw [h.xid]
      exact hk.named e (h.pendingOld e he)
    · rw [h.xid]
      exact hk.asked m hm hc t (h.calling t _ _ ht)
    · rw [h.xid]
      exact hk.answered r hr hok hc t (h.calling t _ _ ht)
    · rw [h.xid]
      exact hk.held l (h.hasOld l hl)
    · rcases List.mem_cons.1 hm with rfl | hm
      · exact hgrant
      · exact hk.released m hm hc
    · by_cases hl : l = ke.2.lid
      · exact Or.inr (Or.inr ⟨_, List.mem_cons_self, rfl, hl.symm⟩)
      · exact owed_mono (hk.owed l hown) (h.has l hl).2 (fun r hr _ _ _ => hr)
          fun m hm _ _ => List.mem_cons_of_mem _ hm
  · have hd' := hs.client d
    refine ⟨hd'.1, hd'.2, hd'.3, hd'.4, hd'.5, fun m hm hc => ?_, fun l hown =>
      owed_mono (hd'.owed l hown) id (fun r hr _ _ _ => hr)
        fun m hm _ _ => List.mem_cons_of_mem _ hm⟩
    rcases List.mem_cons.1 hm with rfl | hm
    · exact absurd hc.symm hd
    · exact hd'.released m hm hc

variable [DecidableEq Tid]

theorem Tracked.sendAcquire {s s' : State Cid Tid} (hs : Tracked s) {c : Cid} {t : Tid}
    (h : sendAcquire s c t = some s') : Tracked s' := by
  rcases Option.map_eq_some_iff.1 h with ⟨⟨k, e⟩, hsend, rfl⟩
  unfold Client.sendAcquire at hsend
  split at hsend
  next lid hpc =>
    cases hsend
    have hk := hs.client c
    have hmoves : Moves (s.client c) ((s.client c).setPc t (.calling lid s.calls)) lid none none
        ((s.client c).lock lid).state := Moves.setPc lid fun p l => by simp [Pc.load, hpc]
    rcases hmoves.legal hk.phased (.stay _) with ⟨hphased, hhas⟩
    -- an older call has a smaller number, so it is not the new one of `t`
    have hcalling : ∀ u l n, n < s.calls →
        (((s.client c).setPc t (.calling lid s.calls)).thread u).pc = .calling l n →
          ((s.client c).thread u).pc = .calling l n := by
      intro u l n hn hu
      refine (Client.pc_setThread hu).resolve_right ?_
      rintro ⟨⟩
      exact Nat.lt_irrefl _ hn
    refine ⟨fun m hm => ?_, fun r hr => Nat.lt_succ_of_lt (hs.freshReply r hr),
      client_of_update rfl ?_ fun d hd => ?_⟩
    · rcases List.mem_cons.1 hm with rfl | hm
      · exact Nat.lt_succ_self _
      · exact Nat.lt_succ_of_lt (hs.freshCall m hm)
    · refine
        { phased := hphased
          named := fun e he =>
            hk.named e ((Client.pending_setThread he).resolve_right (by rintro ⟨⟩))
          asked := fun m hm hc u hu => ?_
          answered := fun r hr hok hc u hu =>
            hk.answered r hr hok hc u (hcalling u _ _ (hs.freshReply r hr) hu)
          held := fun l hl => hk.held l ((hhas l).1 hl)
          released := hk.released
          owed := fun l hown => (hk.owed l hown).imp_left (hhas l).2 }
      rcases List.mem_cons.1 hm with rfl | hm
      · rfl
      · exact hk.asked m hm hc u (hcalling u _ _ (hs.freshCall m hm) hu)
    · have hother := hs.client d
      refine ⟨hother.1, hother.2, fun m hm hc => ?_, hother.4, hother.5, hother.6, hother.7⟩
      rcases List.mem_cons.1 hm with rfl | hm
      · exact absurd hc.symm hd
      · exact hother.asked m hm hc
  next => cases hsend

/-- The `OK` of the server reaches the thread that waits for it. -/
theorem Tracked.granted {s : State Cid Tid} (hs : Tracked s) {c : Cid} {t : Tid} {lid : LockId}
    {id : ℕ} (hpc : ((s.client c).thread t).pc = .calling lid id)
    (hr : { client := c, lid := lid, id := id, ret := .ok } ∈ s.replies) :
    Tracked { s.setClient c ((s.client c).take t lid) with
      replies := s.replies.erase { client := c, lid := lid, id := id, ret := .ok } } := by
  have hk := hs.client c
  rcases take_spec hk.phased hpc with ⟨hphased, hhas, hother⟩
  have hxid : ∀ l, (((s.client c).take t lid).lock l).xid = ((s.client c).lock l).xid :=
    Client.xid_setLock rfl
  have hcalling : ∀ u l id, (((s.client c).take t lid).thread u).pc = .calling l id →
      ((s.client c).thread u).pc = .calling l id :=
    fun u l id hu => (Client.pc_setThread hu).resolve_right (by rintro ⟨⟩)
  refine ⟨hs.freshCall, fun r hr' => hs.freshReply r (List.mem_of_mem_erase hr'),
    client_of_update rfl ?_ fun d hd => ?_⟩
  · refine
      { phased := hphased
        named := fun e he => ?_
        asked := fun m hm hc u hu => ?_
        answered := fun r hr' hok hc u hu => ?_
        held := fun l hl => ?_
        released := hk.released
        owed := fun l hown => ?_ }
    · rw [hxid]
      exact hk.named e ((Client.pending_setThread he).resolve_right (by rintro ⟨⟩))
    · rw [hxid]
      exact hk.asked m hm hc u (hcalling u _ _ hu)
    · rw [hxid]
      exact hk.answered r (List.mem_of_mem_erase hr') hok hc u (hcalling u _ _ hu)
    · rw [hxid]
      by_cases hl' : l = lid
      · rw [hl']
        exact hk.answered _ hr rfl rfl t hpc
      · exact hk.held l ((hother l hl').1 hl)
    · by_cases hl' : l = lid
      · rw [hl']
        exact Or.inl hhas
      · refine owed_mono (hk.owed l hown) (hother l hl').2 (fun r hr' _ _ hl => ?_)
          fun m hm _ _ => hm
        refine (List.mem_erase_of_ne ?_).2 hr'
        rintro rfl
        exact hl' hl.symm
  · have hother' := hs.client d
    refine ⟨hother'.1, hother'.2, hother'.3, fun r hr' => hother'.4 r (List.mem_of_mem_erase hr'),
      hother'.5, hother'.6, fun l hown => ?_⟩
    refine owed_mono (hother'.owed l hown) (fun h => h) (fun r hr' _ hc _ => ?_)
      fun m hm _ _ => hm
    refine (List.mem_erase_of_ne ?_).2 hr'
    rintro rfl
    exact hd hc.symm

theorem Tracked.acquireRet {s s' : State Cid Tid} (hs : Tracked s) {c : Cid} {t : Tid}
    {ret : Status} (h : acquireRet s c t ret = some s') : Tracked s' := by
  have hphased := (hs.client c).phased
  unfold Lock.acquireRet at h
  split at h
  next lid id hpc =>
    dsimp only at h
    split at h
    next hret =>
      split at h
      next hmem =>
        rcases Option.map_eq_some_iff.1 h with ⟨k, hk, rfl⟩
        rcases hret with rfl | rfl
        · have htake : (s.client c).take t lid = k := by
            simpa [Client.acquireRet, hpc] using hk
          rw [← htake]
          exact hs.granted hpc hmem
        · exact (hs.quiet (quiet_acquireRet hphased (by simp) hk)).dropReply (by simp)
      next => cases h
    next hret =>
      rcases Option.map_eq_some_iff.1 h with ⟨k, hk, rfl⟩
      exact hs.quiet (quiet_acquireRet hphased (fun heq => hret (Or.inl heq)) hk)
  next => cases h

end

/-! ## Steps of the server -/

section

variable [Fintype Tid]

theorem tokens_eq_load (k : Client Tid) (l : LockId) :
    k.tokens l = k.load .holding l + k.load .unsent l + (k.lock l).tokens := by
  have hthreads : total (Thread.tokens l) k.thread =
      total (Thread.load l .holding) k.thread + total (Thread.load l .unsent) k.thread := by
    unfold total
    rw [← Finset.sum_add_distrib]
    refine Finset.sum_congr rfl fun t _ => ?_
    cases hpc : (k.thread t).pc <;>
      simp [Thread.tokens, Thread.load, Pc.tokens, Pc.load, unit, hpc, eq_comm]
  have hreleaser :
      k.releaser.tokens l = k.releaser.load l .holding + k.releaser.load l .unsent := by
    cases hr : k.releaser <;> simp [ReleaserPc.tokens, ReleaserPc.load, unit, eq_comm]
  simp only [Client.tokens, Client.load, hthreads, hreleaser, reduceCtorEq, if_true, if_false]
  omega

theorem tokens_pos_of_has {k : Client Tid} {l : LockId} (h : k.Has l) : 0 < k.tokens l := by
  rw [tokens_eq_load]
  rcases h with h | h | h
  · simp [ClientLock.tokens, h]
  · omega
  · omega

variable [DecidableEq Cid]

/-- A grant is made only when the lock is free, so nobody has anything of it. -/
theorem Tracked.serveAcquire {s : State Cid Tid} (hs : Tracked s) {m : AcquireCall Cid}
    (hm : m ∈ s.acquires) : Tracked (serveAcquire s m) := by
  have hcalls : ∀ m' ∈ s.acquires.erase m, m'.id < s.calls := fun m' hm' =>
    hs.freshCall m' (List.mem_of_mem_erase hm')
  have hreplies : ∀ ret, ∀ r ∈ { client := m.client, lid := m.lid, id := m.id, ret := ret } ::
      s.replies, r.id < s.calls := by
    intro ret r hr
    rcases List.mem_cons.1 hr with rfl | hr
    · exact hs.freshCall m hm
    · exact hs.freshReply r hr
  unfold Lock.serveAcquire
  cases hfree : s.holder m.lid with
  | some p =>
      refine ⟨hcalls, hreplies _, fun d => ?_⟩
      have hd := hs.client d
      refine ⟨hd.1, hd.2, fun m' hm' => hd.3 m' (List.mem_of_mem_erase hm'),
        fun r hr hok hc => ?_, hd.5, hd.6, fun l hown => ?_⟩
      · rcases List.mem_cons.1 hr with rfl | hr
        · cases hok
        · exact hd.answered r hr hok hc
      · exact owed_mono (hd.owed l hown) id (fun r hr _ _ _ => List.mem_cons_of_mem _ hr)
          fun m hm _ _ => hm
  | none =>
      -- the lock had no holder, so what is known of a holder is about another lock
      have hne : ∀ {l : LockId} {p : Cid × Xid}, s.holder l = some p →
          Function.update s.holder m.lid (some (m.client, m.xid)) l = some p := by
        intro l p hl
        rw [Function.update_of_ne ?_, hl]
        rintro rfl
        rw [hfree] at hl
        cases hl
      refine ⟨hcalls, hreplies _, fun d => ?_⟩
      have hd := hs.client d
      refine
        { phased := hd.phased
          named := hd.named
          asked := fun m' hm' => hd.asked m' (List.mem_of_mem_erase hm')
          answered := fun r hr hok hc t ht => ?_
          held := fun l hl => hne (hd.held l hl)
          released := fun m' hm' hc => hne (hd.released m' hm' hc)
          owed := fun l hown => ?_ }
      · rcases List.mem_cons.1 hr with rfl | hr
        · -- the new `OK`: the call carried the xid that the entry of the waiting thread has
          rw [← hd.asked m hm hc t ht, ← hc]
          exact Function.update_self _ _ _
        · exact hne (hd.answered r hr hok hc t ht)
      · by_cases hl : l = m.lid
        · have hc : m.client = d := by simpa [State.Owns, hl] using hown
          exact Or.inr (Or.inl ⟨_, List.mem_cons_self, rfl, hc, hl.symm⟩)
        · have hown' : s.Owns d l := by simpa [State.Owns, hl] using hown
          exact owed_mono (hd.owed l hown') id (fun r hr _ _ _ => List.mem_cons_of_mem _ hr)
            fun m hm _ _ => hm

/-- The release that the server executes is all that there is of the lock. -/
theorem alone_of_release {s : State Cid Tid} (hex : s.Exclusive) {m : ReleaseCall Cid}
    (hm : m ∈ s.releases) :
    (s.client m.client).tokens m.entry.lid = 0 ∧
      releaseTokens m.client m.entry.lid (s.releases.erase m) = 0 ∧
      replyTokens m.client m.entry.lid s.replies = 0 := by
  have hle := hex m.client m.entry.lid
  have herase := releaseTokens_erase m.client m.entry.lid hm
  rw [if_pos ⟨rfl, rfl⟩] at herase
  unfold State.tokens at hle
  split at hle <;> omega

theorem Tracked.serveRelease {s : State Cid Tid} (hs : Tracked s) (hex : s.Exclusive)
    {m : ReleaseCall Cid} (hm : m ∈ s.releases) : Tracked (serveRelease s m) := by
  have hheld := (hs.client m.client).released m hm rfl
  have hown : s.Owns m.client m.entry.lid := by simp [State.Owns, hheld]
  rcases alone_of_release hex hm with ⟨hclient, hreleases, hreplies⟩
  unfold Lock.serveRelease
  rw [if_pos hown]
  have hne : ∀ {l : LockId} {p : Cid × Xid}, l ≠ m.entry.lid → s.holder l = some p →
      Function.update s.holder m.entry.lid none l = some p := by
    intro l p hl hp
    rw [Function.update_of_ne hl, hp]
  -- whoever has something of the lock is its holder, who sent the release
  have hholder : ∀ {d : Cid} {x : Xid}, s.holder m.entry.lid = some (d, x) → d = m.client := by
    intro d x h
    rw [hheld] at h
    cases h
    rfl
  refine ⟨hs.freshCall, hs.freshReply, fun d => ?_⟩
  have hd := hs.client d
  refine
    { phased := hd.phased
      named := hd.named
      asked := hd.asked
      answered := fun r hr hok hc t ht => ?_
      held := fun l hl => ?_
      released := fun m' hm' hc => ?_
      owed := fun l hown' => ?_ }
  · -- an unread `OK` of the lock would be a second token of its holder
    have hgrant := hd.answered r hr hok hc t ht
    refine hne (fun hl => ?_) hgrant
    rw [hl] at hgrant
    have hpos : 0 < replyTokens m.client m.entry.lid s.replies :=
      List.countP_pos_iff.2 ⟨r, hr, by simp [hok, hc, hl, hholder hgrant]⟩
    omega
  · have hgrant := hd.held l hl
    refine hne (fun heq => ?_) hgrant
    subst heq
    have hpos : 0 < (s.client d).tokens m.entry.lid := tokens_pos_of_has hl
    rw [hholder hgrant] at hpos
    omega
  · have hgrant := hd.released m' (List.mem_of_mem_erase hm') hc
    refine hne (fun hl => ?_) hgrant
    rw [hl] at hgrant
    have hpos : 0 < releaseTokens m.client m.entry.lid (s.releases.erase m) :=
      List.countP_pos_iff.2 ⟨m', hm', by simp [hc, hl, hholder hgrant]⟩
    omega
  · have hl : l ≠ m.entry.lid := by
      rintro rfl
      simp [State.Owns] at hown'
    have hown'' : s.Owns d l := by simpa [State.Owns, hl] using hown'
    refine owed_mono (hd.owed l hown'') id (fun r hr _ _ _ => hr) fun m' hm' _ hl' => ?_
    refine (List.mem_erase_of_ne ?_).2 hm'
    rintro rfl
    exact hl hl'.symm

variable [DecidableEq Tid]

theorem Tracked.step {s t : State Cid Tid} {a : Action Cid Tid} (hs : Tracked s)
    (hex : s.Exclusive) (hok : OneAtATime s a) (h : step s a = some t) : Tracked t := by
  have hphased := fun c => (hs.client c).phased
  cases a with
  | acquire c th lid =>
      rcases Option.map_eq_some_iff.1 h with ⟨k, hk, rfl⟩
      exact hs.quiet (quiet_acquire (hphased c) hk)
  | loop c th =>
      rcases Option.map_eq_some_iff.1 h with ⟨k, hk, rfl⟩
      exact hs.loop hok hk
  | sendAcquire c th => exact hs.sendAcquire h
  | acquireRet c th ret => exact hs.acquireRet h
  | wake c th timeout =>
      rcases Option.map_eq_some_iff.1 h with ⟨k, hk, rfl⟩
      exact hs.quiet (quiet_wake (hphased c) hk)
  | release c th lid =>
      rcases Option.map_eq_some_iff.1 h with ⟨k, hk, rfl⟩
      exact hs.quiet (quiet_release (hphased c) hk)
  | sendRelease c th =>
      rcases Option.map_eq_some_iff.1 h with ⟨ke, hke, rfl⟩
      exact hs.sendRelease (sends_sendRelease (hphased c) hke)
  | releaseRet c th =>
      rcases Option.map_eq_some_iff.1 h with ⟨k, hk, rfl⟩
      exact hs.quiet (quiet_releaseRet (hphased c) hk)
  | releaserDeq c =>
      rcases Option.map_eq_some_iff.1 h with ⟨k, hk, rfl⟩
      exact hs.quiet (quiet_releaserDeq (hphased c) hk)
  | releaserSend c =>
      rcases Option.map_eq_some_iff.1 h with ⟨ke, hke, rfl⟩
      exact hs.sendRelease (sends_releaserSend (hphased c) hke)
  | releaserRet c =>
      rcases Option.map_eq_some_iff.1 h with ⟨k, hk, rfl⟩
      exact hs.quiet (quiet_releaserRet (hphased c) hk)
  | revoke c lid xid =>
      cases h
      exact hs.quiet (quiet_revokeHandler (hphased c) lid xid)
  | retry c lid =>
      cases h
      exact hs.quiet (quiet_retryHandler (hphased c) lid)
  | serveAcquire m =>
      rcases Option.ite_none_right_eq_some.1 h with ⟨hmem, ⟨⟩⟩
      exact hs.serveAcquire hmem
  | serveRelease m =>
      rcases Option.ite_none_right_eq_some.1 h with ⟨hmem, ⟨⟩⟩
      exact hs.serveRelease hex hmem

theorem tracked_reach {s : State Cid Tid} (h : Reach Init step OneAtATime s) : Tracked s := by
  refine Reach.invariant_with (J := State.Exclusive) (I := Tracked) ?_ ?_ ?_ h
  · intro s hs
    exact exclusive_reach (hs.mono fun _ _ _ => trivial)
  · intro s hs
    exact hs ▸ tracked_init
  · intro s a t hex _ hI hok hst
    exact hI.step hex hok hst

end

/-! ## Revokes -/

/-- The `OK` of a grant of `lid` to `c` is not on its way any more.  A grant puts it into the
network, and only the call that it answers takes it out. -/
def State.Accepted (s : State Cid Tid) (c : Cid) (lid : LockId) : Prop :=
  ∀ r ∈ s.replies, r.ret = .ok → r.client = c → r.lid ≠ lid

/-- No release of `lid` by `c` is on its way.  The server frees the lock when it executes one. -/
def State.Unreleased (s : State Cid Tid) (c : Cid) (lid : LockId) : Prop :=
  ∀ m ∈ s.releases, m.client = c → m.entry.lid ≠ lid

/-- A revoke that finds the xid of the entry queues a free lock and marks any other. -/
theorem revokeHandler_of_xid {k : Client Tid} {lid : LockId}
    (hst : (k.lock lid).state ≠ .none) :
    (k.revokeHandler lid (k.lock lid).xid).2 = .ok ∧
      ((k.lock lid).state = .free → (k.revokeHandler lid (k.lock lid).xid).1.releaseQueue =
        k.releaseQueue ++ [{ lid := lid, xid := (k.lock lid).xid }]) ∧
      ((k.lock lid).state ≠ .free →
        ((k.revokeHandler lid (k.lock lid).xid).1.lock lid).revoked = true) := by
  have htab := table_of_lock hst
  by_cases hfree : (k.lock lid).state = .free
  · simp [Client.revokeHandler, htab, hfree, Client.enq, Client.setLock]
  · simp [Client.revokeHandler, htab, hst, hfree, Client.lock_setLock, ClientLock.setRevoked]

variable [Fintype Tid]

theorem Client.Phased.state_ne_none {k : Client Tid} (hk : k.Phased) {lid : LockId}
    (h : k.Has lid) : (k.lock lid).state ≠ .none := by
  intro hst
  have hfits := hk lid
  unfold Client.Has at h
  rw [hst] at hfits h
  rcases h with h | h | h
  · cases h
  · exact absurd hfits.2.1 (Nat.ne_of_gt h)
  · exact absurd hfits.2.2.1 (Nat.ne_of_gt h)

variable [DecidableEq Cid] [DecidableEq Tid]

instance (s : State Cid Tid) (c : Cid) (lid : LockId) : Decidable (s.Accepted c lid) :=
  inferInstanceAs (Decidable (∀ r ∈ s.replies, _))

instance (s : State Cid Tid) (c : Cid) (lid : LockId) : Decidable (s.Unreleased c lid) :=
  inferInstanceAs (Decidable (∀ m ∈ s.releases, _))

/-- As long as every client asks once at a time: a revoke for the grant that a client has is
accepted, and every release that it sends for the grant names it. -/
theorem revoke_not_dropped {s : State Cid Tid} (h : Reach Init step OneAtATime s) {c : Cid}
    {lid : LockId} {g : Xid} (hgrant : s.holder lid = some (c, g)) :
    (s.Accepted c lid → s.Unreleased c lid →
      ((s.client c).revokeHandler lid g).2 = .ok ∧
      (((s.client c).lock lid).state = .free →
        ((s.client c).revokeHandler lid g).1.releaseQueue =
          (s.client c).releaseQueue ++ [{ lid := lid, xid := g }]) ∧
      (((s.client c).lock lid).state ≠ .free →
        (((s.client c).revokeHandler lid g).1.lock lid).revoked = true)) ∧
      ∀ m ∈ s.releases, m.client = c → m.entry.lid = lid → m.entry.xid = g := by
  have hk := (tracked_reach h).client c
  refine ⟨fun haccepted hunreleased => ?_, fun m hm hc hl => ?_⟩
  · have hhas : (s.client c).Has lid := by
      rcases hk.owed lid (by simp [State.Owns, hgrant]) with hhas | ⟨r, hr, hok, hc, hl⟩ |
        ⟨m, hm, hc, hl⟩
      · exact hhas
      · exact absurd hl (haccepted r hr hok hc)
      · exact absurd hl (hunreleased m hm hc)
    have hxid : ((s.client c).lock lid).xid = g := by
      have hheld := hk.held lid hhas
      rw [hgrant] at hheld
      cases hheld
      rfl
    have hrevoke := revokeHandler_of_xid (hk.phased.state_ne_none hhas)
    rw [hxid] at hrevoke
    exact hrevoke
  · have hreleased := hk.released m hm hc
    rw [hl, hgrant] at hreleased
    cases hreleased
    rfl

/-- A thread gets a lock. -/
def grantedRun : List (Action Bool Bool) :=
  [.acquire false true 5, .loop false true, .sendAcquire false true,
    .serveAcquire { client := false, lid := 5, xid := 0, id := 0 }, .acquireRet false true .ok]

/-- The lock is revoked and its release is sent. -/
def releasedRun : List (Action Bool Bool) :=
  grantedRun ++ [.revoke false 5 0, .release false true 5, .sendRelease false true]

theorem revoke_not_dropped_granted :
    (∃ s : State Bool Bool, s.holder 5 = some (false, 0) ∧ s.Accepted false 5 ∧
        s.Unreleased false 5 ∧ ((s.client false).revokeHandler 5 0).2 = .ok) ∧
      ∃ s : State Bool Bool, s.holder 5 = some (false, 0) ∧
        ∃ m ∈ s.releases, m.client = false ∧ m.entry = { lid := 5, xid := 0 } := by
  have hgranted : ∃ s : State Bool Bool, Reach Init step OneAtATime s ∧
      s.holder 5 = some (false, 0) ∧ s.Accepted false 5 ∧ s.Unreleased false 5 :=
    Reach.exists_of_runFrom
      (P := fun s : State Bool Bool =>
        s.holder 5 = some (false, 0) ∧ s.Accepted false 5 ∧ s.Unreleased false 5)
      grantedRun rfl (by decide +kernel)
  have hreleased : ∃ s : State Bool Bool, Reach Init step OneAtATime s ∧
      s.holder 5 = some (false, 0) ∧ ∃ m ∈ s.releases, m.client = false ∧ m.entry.lid = 5 :=
    Reach.exists_of_runFrom
      (P := fun s : State Bool Bool =>
        s.holder 5 = some (false, 0) ∧ ∃ m ∈ s.releases, m.client = false ∧ m.entry.lid = 5)
      releasedRun rfl (by decide +kernel)
  rcases hgranted with ⟨s, hs, hgrant, haccepted, hunreleased⟩
  rcases hreleased with ⟨u, hu, hgrant', m, hm, hc, hl⟩
  refine ⟨⟨s, hgrant, haccepted, hunreleased, ?_⟩, u, hgrant', m, hm, hc, ?_⟩
  · exact ((revoke_not_dropped hs hgrant).1 haccepted hunreleased).1
  · have hxid := (revoke_not_dropped hu hgrant').2 m hm hc hl
    rcases m with ⟨d, l, x⟩
    cases hl
    cases hxid
    rfl

/-- While the call of one thread is under way, a retry message lets another thread of the client
ask as well. -/
def secondRequest : List (Action Bool Bool) :=
  [.acquire false true 5, .loop false true, .sendAcquire false true, .retry false 5,
    .acquire false false 5, .loop false false,
    .serveAcquire { client := false, lid := 5, xid := 0, id := 0 }, .acquireRet false true .ok]

/-- The client has the grant with xid 0 and holds the lock, but its entry has xid 1: the revoke is
dropped. -/
theorem revoke_dropped :
    ∃ s : State Bool Bool, Reach Init step anyStep s ∧ s.holder 5 = some (false, 0) ∧
      s.Accepted false 5 ∧ s.Unreleased false 5 ∧
      5 ∈ ((s.client false).thread true).holds ∧
      ((s.client false).revokeHandler 5 0).2 = .rpcerr ∧
      ((s.client false).lock 5).xid = 1 :=
  Reach.exists_of_runFrom
    (P := fun s : State Bool Bool => s.holder 5 = some (false, 0) ∧
      s.Accepted false 5 ∧ s.Unreleased false 5 ∧
      5 ∈ ((s.client false).thread true).holds ∧
      ((s.client false).revokeHandler 5 0).2 = .rpcerr ∧
      ((s.client false).lock 5).xid = 1)
    secondRequest rfl (by decide +kernel)

end Lock
end Yfs

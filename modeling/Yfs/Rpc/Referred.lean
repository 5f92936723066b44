import Yfs.Rpc.Calling

/-!
# Referred — the connections of a client are freed, and not before

On the client a connection is referred to by `chan_` and by the threads in `call1`.  `chan_` is
replaced only when it is dead, so a connection that only threads refer to is dead and goes with the
last of them; `decref` on one that is not dead would leave it behind with a count of 0.

* `Refs` — a heap whose counts are right, for `chan_` and a number of other references;
* `client_connections_referred` — in every state of the threads the counts are exact, just those
  connections exist that somebody refers to, and no thread ever uses one that has been freed;
  after the destructor none is left.
-/

namespace Yfs
namespace Rpc
namespace Calling

open Lib

/-! ## Counts -/

/-- `held x` references to `x`, besides that of `chan_`. -/
structure Refs (H : ConnHeap) (next : ℕ) (chan : Option ℕ) (held : ℕ → ℕ) : Prop where
  refno : ∀ x, H.refno x = (if chan = some x then 1 else 0) + (held x : ℤ)
  fresh : ∀ x, next ≤ x → H x = none
  referred : ∀ x k, H x = some k → 0 < k.refno
  dropped : ∀ x k, H x = some k → chan ≠ some x → k.dead = true

namespace Refs

variable {H H' : ConnHeap} {next c : ℕ} {chan chan' : Option ℕ} {held held' : ℕ → ℕ}

theorem exists_conn (h : Refs H next chan held) (hc : chan = some c ∨ 0 < held c) :
    ∃ k, H c = some k ∧ k.refno = (if chan = some c then 1 else 0) + (held c : ℤ) := by
  have hcount := h.refno c
  cases hk : H c with
  | none =>
      rw [ConnHeap.refno_of_none hk] at hcount
      rcases hc with hc | hc
      · rw [if_pos hc] at hcount
        omega
      · split at hcount <;> omega
  | some k =>
      rw [ConnHeap.refno_of_some hk] at hcount
      exact ⟨k, rfl, hcount⟩

/-- Only `c` and the references to it change. -/
theorem change (h : Refs H next chan held) (hheap : ∀ x, x ≠ c → H' x = H x)
    (hchan : ∀ x, x ≠ c → (chan' = some x ↔ chan = some x))
    (hheld : ∀ x, x ≠ c → held' x = held x)
    (hcount : H'.refno c = (if chan' = some c then 1 else 0) + (held' c : ℤ))
    (hfresh : next ≤ c → H' c = none)
    (hself : ∀ k, H' c = some k → 0 < k.refno ∧ (chan' ≠ some c → k.dead = true)) :
    Refs H' next chan' held' := by
  refine ⟨fun x => ?_, fun x hx => ?_, fun x k hk => ?_, fun x k hk hne => ?_⟩
  · by_cases hxc : x = c
    · rw [hxc]
      exact hcount
    · rw [ConnHeap.refno, hheap x hxc, hheld x hxc]
      simp only [hchan x hxc]
      exact h.refno x
  · by_cases hxc : x = c
    · subst hxc
      exact hfresh hx
    · rw [hheap x hxc]
      exact h.fresh x hx
  · by_cases hxc : x = c
    · subst hxc
      exact (hself k hk).1
    · rw [hheap x hxc] at hk
      exact h.referred x k hk
  · by_cases hxc : x = c
    · subst hxc
      exact (hself k hk).2 hne
    · rw [hheap x hxc] at hk
      exact h.dropped x k hk fun hc => hne ((hchan x hxc).2 hc)

theorem lt_next (h : Refs H next chan held) {k : Conn} (hk : H c = some k) : ¬ next ≤ c := by
  intro hle
  rw [h.fresh c hle] at hk
  cases hk

/-- A reference is given back; it is not the last one to a connection that is alive. -/
theorem decref (h : Refs H next chan held) {k : Conn} (hk : H c = some k)
    (hlast : k.dead = true ∨ 1 < k.refno)
    (hchan : ∀ x, x ≠ c → (chan' = some x ↔ chan = some x))
    (hheld : ∀ x, x ≠ c → held' x = held x)
    (hcount : (if chan' = some c then 1 else 0) + (held' c : ℤ) = k.refno - 1)
    (hdead : chan' ≠ some c → k.dead = true) :
    ∃ H', H.decref c = some H' ∧ Refs H' next chan' held' := by
  have hpos := h.referred c k hk
  unfold ConnHeap.decref
  rw [hk]
  dsimp only
  rw [if_neg (by omega)]
  split
  next hzero =>
    refine ⟨_, rfl, h.change (fun x hx => Function.update_of_ne hx _ _) hchan hheld ?_ ?_ ?_⟩
    · rw [ConnHeap.refno_of_none (Function.update_self ..), hcount]
      omega
    · exact fun _ => Function.update_self ..
    · intro k' hk'
      rw [Function.update_self] at hk'
      cases hk'
  next hzero =>
    refine ⟨_, rfl, h.change (fun x hx => Function.update_of_ne hx _ _) hchan hheld ?_ ?_ ?_⟩
    · rw [ConnHeap.refno_of_some (Function.update_self ..), hcount]
    · exact fun hle => absurd hle (h.lt_next hk)
    · intro k' hk'
      rw [Function.update_self] at hk'
      cases hk'
      refine ⟨?_, hdead⟩
      show 0 < k.refno - 1
      rcases hlast with hd | hlt
      · have hne : k.refno - 1 ≠ 0 := fun h0 => hzero ⟨h0, hd⟩
        omega
      · omega

/-- A thread gives its reference back. -/
theorem release (h : Refs H next chan held) (hpos : 0 < held c)
    (hheld : ∀ x, held' x + (if c = x then 1 else 0) = held x) :
    ∃ H', H.decref c = some H' ∧ Refs H' next chan held' := by
  rcases h.exists_conn (Or.inr hpos) with ⟨k, hk, hcount⟩
  have hself := hheld c
  rw [if_pos rfl] at hself
  refine h.decref hk ?_ (fun _ _ => Iff.rfl) (fun x hx => ?_) ?_ (h.dropped c k hk)
  · by_cases hc : chan = some c
    · rw [if_pos hc] at hcount
      exact Or.inr (by omega)
    · exact Or.inl (h.dropped c k hk hc)
  · have := hheld x
    rw [if_neg (Ne.symm hx)] at this
    exact this
  · rw [hcount]
    omega

/-- `chan_` is given up; it is dead. -/
theorem drop (h : Refs H next (some c) held) {k : Conn} (hk : H c = some k)
    (hdead : k.dead = true) : ∃ H', H.decref c = some H' ∧ Refs H' next none held := by
  rcases h.exists_conn (Or.inl rfl) with ⟨k', hk', hcount⟩
  rw [hk] at hk'
  cases hk'
  refine h.decref hk (Or.inl hdead) (fun x hx => ?_) (fun _ _ => rfl) ?_ (fun _ => hdead)
  · simp [Ne.symm hx]
  · rw [hcount, if_pos rfl, if_neg (by simp)]
    omega

/-- A thread takes a reference to `chan_`. -/
theorem take (h : Refs H next (some c) held)
    (hheld : ∀ x, held' x = held x + (if c = x then 1 else 0)) :
    ∃ H', H.incref c = some H' ∧ Refs H' next (some c) held' := by
  rcases h.exists_conn (Or.inl rfl) with ⟨k, hk, hcount⟩
  rw [if_pos rfl] at hcount
  have hself := hheld c
  rw [if_pos rfl] at hself
  refine ⟨_, Option.map_eq_some_iff.2 ⟨k, hk, rfl⟩,
    h.change (fun x hx => Function.update_of_ne hx _ _) (fun _ _ => Iff.rfl)
      (fun x hx => ?_) ?_ (fun hle => absurd hle (h.lt_next hk)) ?_⟩
  · rw [hheld x, if_neg (Ne.symm hx), add_zero]
  · rw [ConnHeap.refno_of_some (Function.update_self ..), if_pos rfl]
    show k.refno + 1 = _
    omega
  · intro k' hk'
    rw [Function.update_self] at hk'
    cases hk'
    refine ⟨?_, fun hne => absurd rfl hne⟩
    show 0 < k.refno + 1
    omega

/-- A connection is made, with one reference for `chan_`. -/
theorem create (h : Refs H next none held) (fd sec usec : ℕ) :
    Refs (Function.update H next (some ⟨1, false, fd, sec, usec⟩)) (next + 1) (some next) held := by
  have hzero : held next = 0 := by
    have hcount := h.refno next
    rw [ConnHeap.refno_of_none (h.fresh next (Nat.le_refl _)), if_neg (by simp)] at hcount
    omega
  have hlater : Refs H (next + 1) none held :=
    ⟨h.refno, fun x hx => h.fresh x (by omega), h.referred, h.dropped⟩
  refine hlater.change (c := next) (fun x hx => Function.update_of_ne hx _ _) (fun x hx => ?_)
    (fun _ _ => rfl) ?_ (fun hle => absurd hle (by omega)) ?_
  · simp [Ne.symm hx]
  · rw [ConnHeap.refno_of_some (Function.update_self ..), if_pos rfl, hzero]
    rfl
  · intro k hk
    rw [Function.update_self] at hk
    cases hk
    exact ⟨Int.one_pos, fun hne => absurd rfl hne⟩

theorem die (h : Refs H next chan held) (hH : H.die c = some H') : Refs H' next chan held := by
  rcases Option.map_eq_some_iff.1 hH with ⟨k, hk, rfl⟩
  refine h.change (fun x hx => Function.update_of_ne hx _ _) (fun _ _ => Iff.rfl) (fun _ _ => rfl)
    ?_ (fun hle => absurd hle (h.lt_next hk)) ?_
  · rw [ConnHeap.refno_of_some (Function.update_self ..), ← h.refno c, ConnHeap.refno_of_some hk]
  · intro k' hk'
    rw [Function.update_self] at hk'
    cases hk'
    exact ⟨h.referred c k hk, fun _ => rfl⟩

end Refs

/-! ## The threads -/

/-- The connection that a thread refers to. -/
def Pc.ch : Pc → Option ℕ
  | .transmit _ ch _ => ch
  | .sending _ ch _ => ch
  | .waiting _ ch => ch
  | .leaving _ ch => ch
  | .erased ch => ch
  | .out _ => none
  | .cancelling => none

def Pc.holds (x : ℕ) (p : Pc) : ℕ :=
  if p.ch = some x then 1 else 0

theorem Pc.holds_of_none {p : Pc} (h : p.ch = none) (x : ℕ) : p.holds x = 0 := by
  rw [Pc.holds, h, if_neg (Option.some_ne_none x).symm]

theorem Pc.holds_of_some {p : Pc} {c : ℕ} (h : p.ch = some c) (x : ℕ) :
    p.holds x = if c = x then 1 else 0 := by
  simp only [Pc.holds, h, Option.some.injEq]

variable {T : Type}

section

variable [Fintype T]

def Clt.Held (s : Clt T) : Prop :=
  Refs s.heap s.next s.chan fun x => total (Pc.holds x) s.pc

theorem held_init : (Clt.init : Clt T).Held := by
  refine ⟨fun x => ?_, fun _ _ => rfl, fun _ _ hk => ?_, fun _ _ hk => ?_⟩
  · simp [ConnHeap.refno, Clt.init, total, Pc.holds, Pc.ch]
  · cases hk
  · cases hk

end

variable {s s' : Clt T} {t : T}

/-- Nobody comes back after the destructor. -/
def Clt.Gone (s : Clt T) : Prop :=
  s.destroyed = true → s.chan = none ∧ ∀ t, (s.pc t).isOut = true

section

variable [DecidableEq T]

theorem Clt.Gone.move {retrans : Bool} {a : Act T} (h : s.Gone) (hmove : Move retrans s a s') :
    s'.Gone := by
  -- a thread that is in the object can go on only before the destructor
  have hin : ∀ {t : T} {p : Pc}, s.pc t = p → p.isOut = false → s.destroyed = false := by
    intro t p hp hout
    by_contra hd
    have ht := (h (Bool.of_not_eq_false hd)).2 t
    rw [hp, hout] at ht
    cases ht
  have hnot : ∀ {d : Bool}, d = false → d = true → s'.chan = none ∧ ∀ t, (s'.pc t).isOut = true :=
    fun hf ht => absurd (hf.symm.trans ht) (by simp)
  -- a thread that is outside stays there
  have hset : ∀ {t : T} {r : Int}, s.destroyed = true →
      s.chan = none ∧ ∀ u, (Function.update s.pc t (.out r) u).isOut = true := by
    intro t r hd
    refine ⟨(h hd).1, fun u => ?_⟩
    by_cases hut : u = t
    · subst hut
      rw [Function.update_self]
      rfl
    · rw [Function.update_of_ne hut]
      exact (h hd).2 u
  cases hmove with
  | refused => exact hset
  | call _ hlive => exact hnot hlive
  | @connect t new xid ch last s₁ r ht hfresh =>
      have hsame : s₁.destroyed = s.destroyed := by
        unfold Clt.freshChan at hfresh
        split at hfresh
        · cases hfresh
          cases new <;> rfl
        · rcases Option.bind_eq_some_iff.1 hfresh with ⟨k, -, hcase⟩
          split at hcase
          · rcases Option.map_eq_some_iff.1 hcase with ⟨H, -, rfl⟩
            cases new <;> rfl
          · cases hcase
            rfl
      exact hnot (hsame.trans (hin ht rfl))
  | sent ht | ready ht => exact hnot (hin ht rfl)
  | sleep => exact h
  | timeout ht | erase ht | signal ht | leave ht => exact hnot (hin ht rfl)
  | unknown | gotPdu => exact h
  | cancel _ hlive => exact hnot hlive
  | cancelIdle => exact hset
  | recancel ht | cancelled ht => exact hnot (hin ht rfl)
  | spurious | die => exact h
  | destroy hout => exact fun _ => ⟨rfl, hout⟩

end

variable [Fintype T]

theorem holds_pos {c : ℕ} (hch : (s.pc t).ch = some c) : 0 < total (Pc.holds c) s.pc := by
  have hle := le_total (Pc.holds c) s.pc t
  rw [Pc.holds, if_pos hch] at hle
  omega

/-- `get_refconn` finds a connection, or has none. -/
theorem Clt.Held.freshChan (h : s.Held) (new : Option (ℕ × ℕ × ℕ)) :
    ∃ s₁, s.freshChan new = some s₁ ∧ s₁.Held ∧ s₁.pc = s.pc := by
  have hconnect : ∀ H, Refs H s.next none (fun x => total (Pc.holds x) s.pc) →
      (s.reconnect H new).Held ∧ (s.reconnect H new).pc = s.pc := by
    intro H hH
    cases new with
    | none => exact ⟨hH, rfl⟩
    | some n =>
        rcases n with ⟨fd, sec, usec⟩
        exact ⟨hH.create fd sec usec, rfl⟩
  unfold Clt.freshChan
  unfold Clt.Held at h
  split
  next hchan =>
    rw [hchan] at h
    exact ⟨_, rfl, hconnect _ h⟩
  next c hchan =>
    rw [hchan] at h
    rcases h.exists_conn (Or.inl rfl) with ⟨k, hk, -⟩
    rw [hk]
    simp only [Option.bind_some]
    split
    next hdead =>
      rcases h.drop hk hdead with ⟨H, hH, hrefs⟩
      rw [hH]
      exact ⟨_, rfl, hconnect _ hrefs⟩
    next =>
      refine ⟨s, rfl, ?_, rfl⟩
      rw [Clt.Held, hchan]
      exact h

theorem Clt.Held.close (h : s.Held) :
    ∃ H, Calling.close s.heap s.chan = some H ∧
      Refs H s.next none fun x => total (Pc.holds x) s.pc := by
  unfold Clt.Held at h
  cases hchan : s.chan with
  | none =>
      rw [hchan] at h
      exact ⟨s.heap, rfl, h⟩
  | some c =>
      rw [hchan] at h
      rcases h.exists_conn (Or.inl rfl) with ⟨k, hk, -⟩
      have hdie : s.heap.die c = some (Function.update s.heap c (some { k with dead := true })) :=
        Option.map_eq_some_iff.2 ⟨k, hk, rfl⟩
      rcases (h.die hdie).drop (Function.update_self ..) rfl with ⟨H, hH, hrefs⟩
      refine ⟨H, ?_, hrefs⟩
      rw [Calling.close, hdie]
      exact hH

section

variable [DecidableEq T]

theorem holds_update (pc : T → Pc) (t : T) (p : Pc) (x : ℕ) :
    total (Pc.holds x) (Function.update pc t p) + (pc t).holds x =
      total (Pc.holds x) pc + p.holds x :=
  total_update (Pc.holds x) pc t p

/-- A thread moves on with the connection that it has. -/
theorem total_holds_of_ch {pc : T → Pc} {p : Pc} (hch : p.ch = (pc t).ch) (x : ℕ) :
    total (Pc.holds x) (Function.update pc t p) = total (Pc.holds x) pc := by
  have hupdate := holds_update pc t p x
  have hsame : p.holds x = (pc t).holds x := by rw [Pc.holds, Pc.holds, hch]
  omega

theorem Clt.Held.setPc (h : s.Held) {p : Pc} (hch : p.ch = (s.pc t).ch) :
    Refs s.heap s.next s.chan fun x => total (Pc.holds x) (Function.update s.pc t p) := by
  have heq : (fun x => total (Pc.holds x) (Function.update s.pc t p)) =
      fun x => total (Pc.holds x) s.pc := funext (total_holds_of_ch hch)
  rw [heq]
  exact h

/-- `if (ch) ch->decref()` by a thread that then refers to no connection. -/
theorem Clt.Held.release (h : s.Held) {p : Pc} (hp : p.ch = none) :
    ∃ H, Calling.release s.heap (s.pc t).ch = some H ∧
      Refs H s.next s.chan fun x => total (Pc.holds x) (Function.update s.pc t p) := by
  cases hch : (s.pc t).ch with
  | none => exact ⟨s.heap, rfl, h.setPc (hp.trans hch.symm)⟩
  | some c =>
      refine Refs.release h (holds_pos hch) fun x => ?_
      have hupdate := holds_update s.pc t p x
      rw [Pc.holds_of_some hch, Pc.holds_of_none hp, add_zero] at hupdate
      exact hupdate

theorem Clt.Held.takeChan (h : s.Held) (p : Option ℕ → Pc) (hp : ∀ ch, (p ch).ch = ch) :
    ∃ r, s.takeChan (s.pc t).ch = some r ∧
      Refs r.1 s.next s.chan fun x => total (Pc.holds x) (Function.update s.pc t (p r.2)) := by
  unfold Clt.takeChan
  cases hchan : s.chan with
  | none =>
      refine ⟨_, rfl, ?_⟩
      have hset := h.setPc (t := t) (p := p (s.pc t).ch) (hp _)
      rw [hchan] at hset
      exact hset
  | some c =>
      -- first the old reference goes, then the new one comes
      rcases h.release (t := t) (p := .out 0) rfl with ⟨H, hH, hrefs⟩
      rw [hchan] at hrefs
      have hsome : ∀ x, total (Pc.holds x) (Function.update s.pc t (p (some c))) =
          total (Pc.holds x) (Function.update s.pc t (.out 0)) + if c = x then 1 else 0 := by
        intro x
        have hnew := holds_update s.pc t (p (some c)) x
        have hold := holds_update s.pc t (.out 0) x
        rw [Pc.holds_of_some (hp (some c))] at hnew
        rw [Pc.holds_of_none (p := .out 0) rfl] at hold
        omega
      rcases hrefs.take hsome with ⟨H', hH', hrefs'⟩
      refine ⟨(H', some c), ?_, hrefs'⟩
      dsimp only
      rw [hH]
      simp [hH']

theorem Clt.Held.move {retrans : Bool} {a : Act T} (h : s.Held) (hmove : Move retrans s a s') :
    s'.Held := by
  cases hmove with
  | refused ht | call ht => exact h.setPc (by rw [ht]; rfl)
  | @connect t new xid ch last s₁ r ht hfresh htake =>
      rcases h.freshChan new with ⟨s₂, hfresh', hheld, hpc⟩
      rw [hfresh] at hfresh'
      cases hfresh'
      have hch : (s₁.pc t).ch = ch := by rw [hpc, ht]; rfl
      rcases hheld.takeChan (t := t) (fun ch => .sending xid ch last) (fun _ => rfl) with
        ⟨r', htake', hrefs⟩
      rw [hch, htake] at htake'
      cases htake'
      exact hrefs
  | @sent t xid ch last ht =>
      refine h.setPc ?_
      rw [ht]
      cases last <;> rfl
  | ready ht => exact h.setPc (by rw [ht]; rfl)
  | sleep => exact h
  | timeout ht hp =>
      refine h.setPc ?_
      rw [ht]
      rcases hp with rfl | ⟨-, rfl | rfl⟩ <;> rfl
  | erase ht | signal ht => exact h.setPc (by rw [ht]; rfl)
  | @leave t ch H ht hH =>
      rcases h.release (t := t) (p := .out ((s.done t).getD timeoutFailure)) rfl with
        ⟨H', hH', hrefs⟩
      have hch : (s.pc t).ch = ch := by rw [ht]; rfl
      rw [hch, hH] at hH'
      cases hH'
      exact hrefs
  | unknown | gotPdu => exact h
  | cancel ht | cancelIdle ht => exact h.setPc (s := s) (by rw [ht]; rfl)
  | recancel ht => exact h.setPc (by rw [ht])
  | cancelled ht => exact h.setPc (by rw [ht]; rfl)
  | spurious => exact h
  | die hH => exact Refs.die h hH
  | destroy _ hH =>
      rcases h.close with ⟨H', hH', hrefs⟩
      rw [hH] at hH'
      cases hH'
      exact hrefs

end

/-! ## Results -/

theorem Clt.Held.exists_iff (h : s.Held) (c : ℕ) :
    s.heap c ≠ none ↔ s.chan = some c ∨ ∃ t, (s.pc t).ch = some c := by
  constructor
  · intro hne
    rcases Option.ne_none_iff_exists'.1 hne with ⟨k, hk⟩
    have hpos := h.referred c k hk
    have hcount := h.refno c
    rw [ConnHeap.refno_of_some hk] at hcount
    by_contra hnone
    rw [not_or, not_exists] at hnone
    have hzero : total (Pc.holds c) s.pc = 0 := by
      refine Finset.sum_eq_zero fun t _ => ?_
      rw [Pc.holds, if_neg (hnone.2 t)]
    rw [if_neg hnone.1, hzero] at hcount
    omega
  · intro hc hnone
    rcases Refs.exists_conn h (hc.imp_right fun ⟨t, ht⟩ => holds_pos ht) with ⟨k, hk, -⟩
    rw [hnone] at hk
    cases hk

theorem Clt.Held.isSome (h : s.Held) {c : ℕ} (hch : (s.pc t).ch = some c) :
    (s.heap c).isSome = true := by
  rw [Option.isSome_iff_ne_none]
  exact (h.exists_iff c).2 (Or.inr ⟨t, hch⟩)

variable [DecidableEq T]

theorem held_of_reach {retrans : Bool}
    (h : Reach (fun s => s = Clt.init) (step retrans) anyStep s) : s.Held ∧ s.Gone := by
  refine Reach.invariant (I := fun s : Clt T => s.Held ∧ s.Gone) ?_ ?_ h
  · rintro s rfl
    refine ⟨held_init, fun hd => ?_⟩
    cases hd
  · intro s a s' hs _ hst
    exact ⟨hs.1.move (move_of_step hst), hs.2.move (move_of_step hst)⟩

theorem Clt.Held.connect_isSome (h : s.Held) {xid : ℕ} {ch : Option ℕ} {last : Bool}
    (ht : s.pc t = .transmit xid ch last) (new : Option (ℕ × ℕ × ℕ)) :
    (s.connect t new).isSome = true := by
  rcases h.freshChan new with ⟨s₁, hfresh, hheld, hpc⟩
  rcases hheld.takeChan (t := t) (fun ch => .sending xid ch last) (fun _ => rfl) with ⟨r, htake, -⟩
  have hch : (s₁.pc t).ch = ch := by rw [hpc, ht]; rfl
  rw [hch] at htake
  simp [Clt.connect, ht, hfresh, htake]

theorem Clt.Held.sent_isSome (h : s.Held) {xid : ℕ} {ch : Option ℕ} {last : Bool}
    (ht : s.pc t = .sending xid ch last) : (s.sent t).isSome = true := by
  have husable : s.usable ch = true := by
    cases hch : ch with
    | none => rfl
    | some c => exact h.isSome (t := t) (by rw [ht]; exact hch)
  simp [Clt.sent, ht, husable]

theorem Clt.Held.timeout_isSome (h : s.Held) {xid : ℕ} {ch : Option ℕ}
    (ht : s.pc t = .waiting xid ch) (hasleep : s.asleep t = true) (retrans last : Bool) :
    (s.timeout retrans t last).isSome = true := by
  have hlost : (s.lost ch).isSome = true := by
    cases hch : ch with
    | none => rfl
    | some c =>
        rw [Clt.lost, Option.isSome_map]
        exact h.isSome (t := t) (by rw [ht]; exact hch)
  rcases Option.isSome_iff_exists.1 hlost with ⟨b, hb⟩
  simp only [Clt.timeout, ht, hasleep, Option.isSome_map]
  split
  · rfl
  · cases retrans
    · rfl
    · simp [hb]

theorem Clt.Held.leave_isSome (h : s.Held) {ch : Option ℕ} (ht : s.pc t = .erased ch) :
    (s.leave t).isSome = true := by
  rcases h.release (t := t) (p := .out 0) rfl with ⟨H, hH, -⟩
  have hch : (s.pc t).ch = ch := by rw [ht]; rfl
  rw [hch] at hH
  simp [Clt.leave, ht, hH]

/-- The counts of the connections of a client are exact; a connection exists as long as `chan_` or
a thread in `call1` refers to it and no longer; and every step of a thread that uses a connection
can be made.  After the destructor no connection is left. -/
theorem client_connections_referred (retrans : Bool) (s : Clt T)
    (h : Reach (fun s => s = Clt.init) (step retrans) anyStep s) :
    (∀ c, s.heap.refno c = (if s.chan = some c then 1 else 0) + (total (Pc.holds c) s.pc : ℤ)) ∧
    (∀ c, s.heap c ≠ none ↔ s.chan = some c ∨ ∃ t, (s.pc t).ch = some c) ∧
    (∀ t, (∀ xid ch last, s.pc t = .transmit xid ch last →
        ∀ new, (step retrans s (.connect t new)).isSome = true) ∧
      (∀ xid ch last, s.pc t = .sending xid ch last → (step retrans s (.sent t)).isSome = true) ∧
      (∀ xid ch, s.pc t = .waiting xid ch → s.asleep t = true →
        ∀ last, (step retrans s (.timeout t last)).isSome = true) ∧
      (∀ ch, s.pc t = .erased ch → (step retrans s (.leave t)).isSome = true)) ∧
    (s.destroyed = true → ∀ c, s.heap c = none) := by
  rcases held_of_reach h with ⟨hheld, hgone⟩
  refine ⟨hheld.refno, hheld.exists_iff, fun t => ⟨?_, ?_, ?_, ?_⟩, ?_⟩
  · exact fun xid ch last ht new => hheld.connect_isSome ht new
  · exact fun xid ch last ht => hheld.sent_isSome ht
  · exact fun xid ch ht hasleep last => hheld.timeout_isSome ht hasleep retrans last
  · exact fun ch ht => hheld.leave_isSome ht
  · intro hd c
    by_contra hne
    rcases (hheld.exists_iff c).1 hne with hc | ⟨t, ht⟩
    · rw [(hgone hd).1] at hc
      cases hc
    · have hout := (hgone hd).2 t
      cases hpc : s.pc t with
      | out r =>
          rw [hpc] at ht
          cases ht
      | _ =>
          rw [hpc] at hout
          cases hout

/-- The connection dies while two calls wait; one of them goes on with a new one, the other one
still refers to the old one when it gets its reply. -/
def reconnected : List (Act Bool) :=
  [.call false, .connect false (some (5, 0, 0)), .sent false, .call true, .connect true none,
    .sent true, .check false, .die 0, .timeout false false, .connect false (some (6, 1, 0)),
    .sent false, .gotPdu 2 0, .check true, .erase true none, .leave true, .gotPdu 1 0, .check false,
    .erase false none, .leave false, .destroy]

theorem client_connections_referred_reconnected :
    ∃ s : Clt Bool, Reach (fun s => s = Clt.init) (step true) anyStep s ∧ s.destroyed = true ∧
      s.next = 2 ∧ ∀ c, s.heap c = none := by
  have hrun : ∃ s : Clt Bool, Reach (fun s => s = Clt.init) (step true) anyStep s ∧
      (s.destroyed = true ∧ s.next = 2) :=
    Reach.exists_of_runFrom reconnected rfl (by decide +kernel)
  rcases hrun with ⟨s, hs, hdestroyed, hnext⟩
  exact ⟨s, hs, hdestroyed, hnext, (client_connections_referred true s hs).2.2.2 hdestroyed⟩

end Calling
end Rpc
end Yfs

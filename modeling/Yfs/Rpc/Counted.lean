import Yfs.Rpc.RefCount

/-!
# Counted — the reference counts of the server are exact

`refno_` of a connection is the number of those who will give it back: the listener, the jobs and
the entries of `rpcs::conns_`.  Three steps break this.  A request for an old instance of the
server is answered without a `decref`.  For a client with nonce 0 there is no entry in
`rpcs::conns_`, so a reply that finds its connection dead goes on with `NULL`.  And a `got_pdu`
that sees `reachable_` fall gives back the reference of a job that it has queued.  Every run
without them keeps the counts exact.

The argument is an account for each connection, `Counted.refno`; `Counted.settle` says what a step
of a job has to do to it.
-/

namespace Yfs
namespace Rpc

open Lib

variable {T : Type}

/-! ## Who has a reference -/

/-- The state of a job agrees with `rpcs::conns_`: once `save` is over there is an entry for the
client. -/
def Djob.Saved (conns : OrderedMap ℕ ℕ) : Djob → Prop
  | .saving _ h => h.cltNonce ≠ 0
  | .checking _ h => (conns.lookup h.cltNonce.toNat).isSome = true
  | .serving _ h => h.cltNonce ≠ 0 → (conns.lookup h.cltNonce.toNat).isSome = true
  | .null => False
  | _ => True

theorem Djob.Saved.insert {conns : OrderedMap ℕ ℕ} {j : Djob} (h : j.Saved conns) (n c : ℕ) :
    j.Saved (conns.insert n c) := by
  have hkeep : ∀ m, (conns.lookup m).isSome = true →
      ((conns.insert n c).lookup m).isSome = true := by
    intro m hm
    rw [OrderedMap.lookup_insert]
    split
    · rfl
    · exact hm
  cases j with
  | checking => exact hkeep _ h
  | serving => exact fun hn => hkeep _ (h hn)
  | _ => exact h

namespace Server

section Counts

/-- One while the listener has the connection, in `tcpsconn::conns_` or in the `process_accept`
that is about to put it there. -/
def listed (s : Server T) (x : ℕ) : ℕ :=
  if x ∈ s.tcpsConns.values ∨ s.accepting.ch = some x then 1 else 0

/-- The entries of `rpcs::conns_` that point to the connection. -/
def pointing (s : Server T) (x : ℕ) : ℕ :=
  s.conns.values.count x

theorem listed_of_lookup {s : Server T} {fd x : ℕ} (h : s.tcpsConns.lookup fd = some x) :
    s.listed x = 1 :=
  if_pos (Or.inl (OrderedMap.mem_values_iff.2 ⟨fd, h⟩))

theorem listed_of_accepting {s : Server T} {x : ℕ} (h : s.accepting.ch = some x) :
    s.listed x = 1 :=
  if_pos (Or.inr h)

theorem listed_congr {s s' : Server T} {x : ℕ}
    (h : (x ∈ s'.tcpsConns.values ∨ s'.accepting.ch = some x) ↔
      (x ∈ s.tcpsConns.values ∨ s.accepting.ch = some x)) :
    s'.listed x = s.listed x :=
  if_congr h rfl rfl

/-- The only entry for `c` is erased. -/
theorem listed_erase {s s' : Server T} {fd c : ℕ} (hlookup : s.tcpsConns.lookup fd = some c)
    (honly : ∀ fd', s.tcpsConns.lookup fd' = some c → fd' = fd)
    (htcps : s'.tcpsConns = s.tcpsConns.erase fd) (hch : s'.accepting.ch = s.accepting.ch)
    (hother : s.accepting.ch ≠ some c) (x : ℕ) :
    s'.listed x = if c = x then 0 else s.listed x := by
  have hvalues := OrderedMap.mem_values_erase (x := x) hlookup honly
  by_cases hx : c = x
  · subst hx
    rw [if_pos rfl]
    refine if_neg ?_
    rw [htcps, hch]
    exact fun hor => hor.elim (fun hmem => (hvalues.1 hmem).2 rfl) hother
  · rw [if_neg hx]
    refine listed_congr ?_
    rw [htcps, hch, hvalues]
    simp [Ne.symm hx]

variable [Fintype T]

def jobs (s : Server T) (x : ℕ) : ℕ :=
  total (Djob.holds x) s.job

structure Counted (s : Server T) : Prop where
  refno : ∀ x, s.heap.refno x = s.listed x + s.jobs x + s.pointing x
  unborn : ∀ x, s.next ≤ x → s.heap x = none
  fds : s.heap.Distinct
  keyed : ∀ fd x k, s.tcpsConns.lookup fd = some x → s.heap x = some k → k.fd = fd
  unlisted : ∀ x k, s.accepting.ch = some x → s.heap x = some k →
    s.tcpsConns.lookup k.fd = none
  /-- A connection that is being collected stays as it was found. -/
  doomed : ∀ ch fd x todo, s.accepting = .collecting ch fd x todo →
    s.tcpsConns.lookup fd = some x ∧ (∀ k, s.heap x = some k → k.dead = true) ∧
      s.jobs x + s.pointing x = 0
  anonymous : s.conns.lookup 0 = none
  saved : ∀ t, (s.job t).Saved s.conns

theorem holds_le_jobs (s : Server T) (t : T) (x : ℕ) : (s.job t).holds x ≤ s.jobs x :=
  le_total _ _ t

section

variable [DecidableEq T]

theorem jobs_update {s s' : Server T} {t : T} {j : Djob}
    (h : s'.job = Function.update s.job t j) (x : ℕ) :
    s'.jobs x + (s.job t).holds x = s.jobs x + j.holds x := by
  rw [jobs, h]
  exact total_update _ _ _ _

end

namespace Counted

/-- Whoever is referred to has not been freed. -/
theorem alive {s : Server T} (hi : s.Counted) {x : ℕ}
    (h : 0 < s.listed x + s.jobs x + s.pointing x) : ∃ k, s.heap x = some k := by
  cases hk : s.heap x with
  | some k => exact ⟨k, rfl⟩
  | none =>
      have := hi.refno x
      rw [ConnHeap.refno_of_none hk] at this
      omega

/-- A step outside the listener: the counts follow the jobs and `rpcs::conns_`, and nobody takes
a dead connection that only the listener has. -/
theorem settle {s s' : Server T} (hi : s.Counted) {d : ℕ → ℤ}
    (hheap : ConnHeap.Shift s.heap s'.heap d) (hnext : s'.next = s.next)
    (htcps : s'.tcpsConns = s.tcpsConns) (hacc : s'.accepting = s.accepting)
    (hrefs : ∀ x, (s'.jobs x + s'.pointing x : ℤ) = s.jobs x + s.pointing x + d x)
    (htake : ∀ x k, s.heap x = some k → k.dead = true → s.jobs x + s.pointing x = 0 → d x ≤ 0)
    (hzero : s'.conns.lookup 0 = none) (hsaved : ∀ t, (s'.job t).Saved s'.conns) :
    s'.Counted where
  refno x := by
    have hlisted : s'.listed x = s.listed x := by rw [listed, listed, htcps, hacc]
    have hold := hi.refno x
    have hchange := hrefs x
    rw [hheap.refno, hlisted]
    omega
  unborn x hx := hheap.none (hi.unborn x (hnext ▸ hx))
  fds := hheap.distinct hi.fds
  keyed fd x k hlookup hk := by
    obtain ⟨k₀, hk₀, hfd₀, -⟩ := hheap.old x k hk
    rw [hfd₀]
    exact hi.keyed fd x k₀ (htcps ▸ hlookup) hk₀
  unlisted x k hch hk := by
    obtain ⟨k₀, hk₀, hfd₀, -⟩ := hheap.old x k hk
    rw [hfd₀, htcps]
    exact hi.unlisted x k₀ (hacc ▸ hch) hk₀
  doomed ch fd x todo hcollect := by
    obtain ⟨hlookup, hdead, hfree⟩ := hi.doomed ch fd x todo (hacc ▸ hcollect)
    refine ⟨htcps ▸ hlookup, fun k hk => ?_, ?_⟩
    · obtain ⟨k₀, hk₀, -, hdead₀⟩ := hheap.old x k hk
      exact hdead₀ (hdead k₀ hk₀)
    · -- the connection is dead and only the listener has it, so its count does not grow
      have hlisted := listed_of_lookup hlookup
      obtain ⟨k, hk⟩ := hi.alive (x := x) (by omega)
      have hless := htake x k hk (hdead k hk) hfree
      have hchange := hrefs x
      omega
  anonymous := hzero
  saved := hsaved

/-! ### The jobs -/

section

variable [DecidableEq T]

theorem saved_update {s : Server T} (hi : s.Counted) {t : T} {j : Djob} (hj : j.Saved s.conns)
    (t' : T) : (Function.update s.job t j t').Saved s.conns := by
  by_cases ht : t' = t
  · rw [ht, Function.update_self]
    exact hj
  · rw [Function.update_of_ne ht]
    exact hi.saved t'

/-- Only the job `t` changes, and the counts by what it takes and gives back. -/
theorem exchange {s s' : Server T} (hi : s.Counted) {t : T} {j : Djob} {d : ℕ → ℤ}
    (hjob : s'.job = Function.update s.job t j) (hheap : ConnHeap.Shift s.heap s'.heap d)
    (hnext : s'.next = s.next) (htcps : s'.tcpsConns = s.tcpsConns)
    (hacc : s'.accepting = s.accepting) (hconns : s'.conns = s.conns)
    (hd : ∀ x, (j.holds x : ℤ) = (s.job t).holds x + d x)
    (htake : ∀ x k, s.heap x = some k → k.dead = true → s.jobs x + s.pointing x = 0 → d x ≤ 0)
    (hj : j.Saved s.conns) : s'.Counted := by
  refine hi.settle hheap hnext htcps hacc (fun x => ?_) htake (hconns ▸ hi.anonymous) fun t' => ?_
  · have hjobs := jobs_update hjob x
    have hpointing : s'.pointing x = s.pointing x := by rw [pointing, pointing, hconns]
    have := hd x
    omega
  · rw [hjob, hconns]
    exact hi.saved_update hj t'

/-- A job goes on with the connection it has. -/
theorem goOn {s : Server T} (hi : s.Counted) {t : T} {j : Djob}
    (hsame : ∀ x, j.holds x = (s.job t).holds x) (hj : j.Saved s.conns) :
    (s.setJob t j).Counted :=
  hi.exchange rfl (.refl _) rfl rfl rfl rfl
    (fun x => by rw [hsame x, add_zero]) (fun _ _ _ _ _ => le_rfl) hj

/-- A job gives its connection back and ends. -/
theorem giveBack {s : Server T} (hi : s.Counted) {t : T} {c : ℕ} {H : ConnHeap}
    (hjob : ∀ x, (s.job t).holds x = if c = x then 1 else 0)
    (hdecref : s.heap.decref c = some H) : { s.setJob t .free with heap := H }.Counted := by
  refine hi.exchange rfl (ConnHeap.shift_decref hdecref) rfl rfl rfl rfl (fun x => ?_)
    (fun x _ _ _ _ => ?_) trivial
  · rw [hjob x]
    split <;> rfl
  · split <;> decide

theorem start {nonce : UInt32} {procs : List UInt32} {s s' : Server T} {t : T} (hi : s.Counted)
    (hcurrent : ∀ c h, s.job t = .queued c (some h) → h.srvNonce = 0 ∨ h.srvNonce = nonce)
    (h : s.start nonce procs t = some s') : s'.Counted := by
  unfold Server.start at h
  split at h
  next c hjob =>
    obtain ⟨H, hdecref, rfl⟩ := Option.map_eq_some_iff.1 h
    exact hi.giveBack (fun x => by rw [hjob]; rfl) hdecref
  next c hd hjob =>
    split at h
    next hold => exact absurd (hcurrent c hd hjob) fun hor => hor.elim hold.1 hold.2
    · split at h
      · cases h
      · split at h
        next hn =>
          cases h
          exact hi.goOn (fun x => by rw [hjob]; rfl) hn
        next hn =>
          cases h
          exact hi.goOn (fun x => by rw [hjob]; rfl) fun hne => absurd hne hn
  · cases h

theorem check {s s' : Server T} {t : T} {stat : RpcState} (hi : s.Counted)
    (h : s.check t stat = some s') : s'.Counted := by
  unfold Server.check at h
  split at h
  next c hd hjob =>
    have hsaved := hi.saved t
    rw [hjob] at hsaved
    cases stat with
    | new =>
        cases h
        exact hi.goOn (fun x => by rw [hjob]; rfl) fun _ => hsaved
    | _ =>
        cases h
        exact hi.goOn (fun x => by rw [hjob]; rfl) trivial
  · cases h

theorem leave {s s' : Server T} {t : T} (hi : s.Counted) (h : s.leave t = some s') :
    s'.Counted := by
  unfold Server.leave at h
  split at h
  next c hjob =>
    obtain ⟨H, hdecref, rfl⟩ := Option.map_eq_some_iff.1 h
    exact hi.giveBack (fun x => by rw [hjob]; rfl) hdecref
  · cases h

/-- `save` makes the entry of the client point to `c`; the entry takes a reference, and that of
the entry it replaces is given back. -/
theorem point {s : Server T} (hi : s.Counted) {t : T} {c : ℕ} {hd : ReqHeader} {H : ConnHeap}
    {d : ℕ → ℤ} (hjob : s.job t = .saving c hd) (hheap : ConnHeap.Shift s.heap H d)
    (hrefs : ∀ x, d x + (if s.conns.lookup hd.cltNonce.toNat = some x then 1 else 0) =
      if c = x then 1 else 0) :
    { s.setJob t (.checking c hd) with
      heap := H
      conns := s.conns.insert hd.cltNonce.toNat c }.Counted := by
  have hsaved := hi.saved t
  rw [hjob] at hsaved
  refine hi.settle hheap rfl rfl rfl (fun x => ?_) (fun x k _ _ hfree => ?_) ?_ fun t' => ?_
  · have hjobs : (s.setJob t (.checking c hd)).jobs x + (s.job t).holds x =
        s.jobs x + (Djob.checking c hd).holds x := jobs_update rfl x
    have hsame : (s.job t).holds x = (Djob.checking c hd).holds x := by rw [hjob]; rfl
    have hcount : ((s.conns.insert hd.cltNonce.toNat c).values.count x : ℤ) +
        (if s.conns.lookup hd.cltNonce.toNat = some x then 1 else 0) =
        s.pointing x + if c = x then 1 else 0 := by
      exact_mod_cast OrderedMap.count_values_insert s.conns hd.cltNonce.toNat c x
    have := hrefs x
    change ((s.setJob t (.checking c hd)).jobs x +
      (s.conns.insert hd.cltNonce.toNat c).values.count x : ℤ) = _
    omega
  · -- the job holds `c`, so `x` is another connection
    have hheld := s.holds_le_jobs t x
    have hne : c ≠ x := by
      rintro rfl
      rw [hjob, Djob.holds, if_pos rfl] at hheld
      omega
    have hless := hrefs x
    rw [if_neg hne] at hless
    split at hless <;> omega
  · rw [OrderedMap.lookup_insert, if_neg]
    · exact hi.anonymous
    · intro hzero
      exact hsaved (UInt32.toNat_inj.1 hzero.symm)
  · by_cases ht : t' = t
    · subst ht
      simp [setJob, Djob.Saved, OrderedMap.lookup_insert]
    · simp only [setJob, Function.update_of_ne ht]
      exact (hi.saved t').insert _ _

theorem save {s s' : Server T} {t : T} (hi : s.Counted) (h : s.save t = some s') :
    s'.Counted := by
  unfold Server.save at h
  split at h
  next c hd hjob =>
    split at h
    next hnone =>
      obtain ⟨H, hincref, rfl⟩ := Option.map_eq_some_iff.1 h
      refine hi.point hjob (ConnHeap.shift_incref hincref) fun x => ?_
      simp [hnone]
    next old hold =>
      split at h
      next k k' hk hk' =>
        split at h
        next hlt =>
          -- the two references cancel where the entry had one already
          obtain ⟨H, hdecref, h⟩ := Option.bind_eq_some_iff.1 h
          obtain ⟨H', hincref, rfl⟩ := Option.map_eq_some_iff.1 h
          have hshift := (ConnHeap.shift_decref hdecref).trans (ConnHeap.shift_incref hincref)
          refine hi.point hjob hshift fun x => ?_
          rw [hold]
          by_cases hx : old = x <;> simp [hx]
        next hge =>
          cases h
          refine hi.goOn (fun x => by rw [hjob]; rfl) ?_
          change (s.conns.lookup hd.cltNonce.toNat).isSome = true
          rw [hold]
          rfl
      · cases h
  · cases h

theorem reply {s s' : Server T} {t : T} (hi : s.Counted)
    (halive : ∀ c h k, s.job t = .serving c h → h.cltNonce = 0 → s.heap c = some k →
      k.dead = false)
    (h : s.reply t = some s') : s'.Counted := by
  unfold Server.reply at h
  split at h
  next c hd hjob =>
    split at h
    · cases h
    next k hk =>
      split at h
      next hdead =>
        obtain ⟨H, hdecref, h⟩ := Option.bind_eq_some_iff.1 h
        have hsaved := hi.saved t
        rw [hjob] at hsaved
        split at h
        next hnone =>
          -- without an entry the client has nonce 0, and then the connection is alive
          have hzero : hd.cltNonce = 0 := by
            by_contra hne
            have hsome := hsaved hne
            rw [hnone] at hsome
            cases hsome
          have := halive c hd k hjob hzero hk
          rw [this] at hdead
          cases hdead.1
        next c' hlookup =>
          obtain ⟨H', hincref, rfl⟩ := Option.map_eq_some_iff.1 h
          have hshift := (ConnHeap.shift_decref hdecref).trans (ConnHeap.shift_incref hincref)
          refine hi.exchange rfl hshift rfl rfl rfl rfl (fun x => ?_) (fun x _ _ _ hfree => ?_)
            trivial
          · rw [hjob]
            simp only [Djob.holds]
            split <;> split <;> simp
          · -- the entry that points to `c'` keeps it from being free
            have hpos : 0 < s.pointing c' := OrderedMap.count_values_pos hlookup
            have hne : c' ≠ x := by
              rintro rfl
              omega
            rw [if_neg hne]
            split <;> decide
      next hkeep =>
        cases h
        exact hi.goOn (fun x => by rw [hjob]; rfl) trivial
  · cases h

theorem gotPdu {s s' : Server T} {c : ℕ} {pdu : Option ReqHeader} {t : T} {succ : Bool}
    (hi : s.Counted) (h : s.gotPdu c pdu t succ = some s') : s'.Counted := by
  unfold Server.gotPdu at h
  split at h
  next k hk hnone =>
    split at h
    · cases h
    next hlive =>
      split at h
      · cases h
        exact hi
      · split at h
        · split at h
          next hfree =>
            obtain ⟨H, hincref, rfl⟩ := Option.map_eq_some_iff.1 h
            refine hi.exchange rfl (ConnHeap.shift_incref hincref) rfl rfl rfl rfl (fun x => ?_)
              (fun x k' hk' hdead _ => ?_) trivial
            · rw [hfree]
              simp only [Djob.holds]
              split <;> rfl
            · -- PDUs arrive on connections that are alive
              rw [if_neg]
              rintro rfl
              rw [hk] at hk'
              cases hk'
              exact hlive hdead
          · cases h
        · obtain ⟨H, hincref, h⟩ := Option.bind_eq_some_iff.1 h
          obtain ⟨H', hdecref, rfl⟩ := Option.map_eq_some_iff.1 h
          have hshift := (ConnHeap.shift_incref hincref).trans (ConnHeap.shift_decref hdecref)
          refine hi.settle hshift rfl rfl rfl (fun x => ?_) (fun x _ _ _ _ => ?_) hi.anonymous
            hi.saved
          · split <;> simp [jobs, pointing]
          · split <;> decide
  · cases h

end

/-! ### The listener -/

/-- A number that nobody has used yet belongs to nobody. -/
theorem unknown {s : Server T} (hi : s.Counted) :
    s.listed s.next + s.jobs s.next + s.pointing s.next = 0 := by
  have := hi.refno s.next
  rw [ConnHeap.refno_of_none (hi.unborn _ le_rfl)] at this
  omega

theorem lookup_alive {s : Server T} (hi : s.Counted) {fd x : ℕ}
    (h : s.tcpsConns.lookup fd = some x) : ∃ k, s.heap x = some k ∧ k.fd = fd := by
  obtain ⟨k, hk⟩ := hi.alive (x := x) (by rw [listed_of_lookup h]; omega)
  exact ⟨k, hk, hi.keyed fd x k h hk⟩

/-- `process_accept` makes a connection on a channel that no other one has. -/
theorem create {s s' : Server T} (hi : s.Counted) {k₀ : Conn} {todo : List ℕ}
    (hidle : s.accepting = .idle) (hunused : ∀ x k, s.heap x = some k → k.fd ≠ k₀.fd)
    (hone : k₀.refno = 1) (hheap : s'.heap = Function.update s.heap s.next (some k₀))
    (hnext : s'.next = s.next + 1) (htcps : s'.tcpsConns = s.tcpsConns)
    (hacc : s'.accepting = .sweeping s.next todo) (hconns : s'.conns = s.conns)
    (hjob : s'.job = s.job) : s'.Counted where
  refno x := by
    have hjobs : s'.jobs x = s.jobs x := by rw [jobs, jobs, hjob]
    have hpointing : s'.pointing x = s.pointing x := by rw [pointing, pointing, hconns]
    rw [hheap, ConnHeap.refno_update, hjobs, hpointing]
    by_cases hx : s.next = x
    · have hzero := hi.unknown
      have hlisted : s'.listed x = 1 := listed_of_accepting (by rw [hacc, ← hx]; rfl)
      rw [if_pos hx, Option.elim_some, hone, hlisted, ← hx]
      omega
    · have hlisted : s'.listed x = s.listed x := by
        refine listed_congr ?_
        rw [htcps, hacc, hidle]
        simp [Accepting.ch, hx]
      rw [if_neg hx, hi.refno x, hlisted]
  unborn x hx := by
    rw [hnext] at hx
    rw [hheap, Function.update_of_ne (by omega)]
    exact hi.unborn x (by omega)
  fds x y k k' hx hy hfd := by
    rw [hheap] at hx hy
    by_cases hxn : x = s.next
    · by_cases hyn : y = s.next
      · rw [hxn, hyn]
      · rw [hxn, Function.update_self] at hx
        rw [Function.update_of_ne hyn] at hy
        cases hx
        exact absurd hfd.symm (hunused y k' hy)
    · rw [Function.update_of_ne hxn] at hx
      by_cases hyn : y = s.next
      · rw [hyn, Function.update_self] at hy
        cases hy
        exact absurd hfd (hunused x k hx)
      · rw [Function.update_of_ne hyn] at hy
        exact hi.fds x y k k' hx hy hfd
  keyed fd x k hx hk := by
    rw [htcps] at hx
    -- the new connection is in no map
    have hne : x ≠ s.next := by
      rintro rfl
      have := hi.unknown
      rw [listed_of_lookup hx] at this
      omega
    rw [hheap, Function.update_of_ne hne] at hk
    exact hi.keyed fd x k hx hk
  unlisted x k hx hk := by
    rw [hacc] at hx
    cases hx
    rw [hheap, Function.update_self] at hk
    cases hk
    rw [htcps]
    cases hlookup : s.tcpsConns.lookup k₀.fd with
    | none => rfl
    | some y =>
        obtain ⟨k, hk, hfd⟩ := hi.lookup_alive hlookup
        exact absurd hfd (hunused y k hk)
  doomed ch fd x todo' hcollect := by
    rw [hacc] at hcollect
    cases hcollect
  anonymous := hconns ▸ hi.anonymous
  saved t := by
    rw [hjob, hconns]
    exact hi.saved t

theorem accept {s s' : Server T} {fd sec usec : ℕ} (hi : s.Counted)
    (h : s.accept fd sec usec = some s') : s'.Counted := by
  unfold Server.accept at h
  split at h
  next hidle =>
    split at h
    next hfresh =>
      cases h
      -- `accept` looked at the numbers below `next`; beyond them there is nothing
      refine hi.create hidle (fun x k hk hfd => ?_) rfl rfl rfl rfl rfl rfl rfl
      have hlt : x < s.next := by
        by_contra hge
        rw [hi.unborn x (not_lt.1 hge)] at hk
        cases hk
      exact hfresh x hlt (by rw [hk, Option.map_some, hfd])
    · cases h
  · cases h

/-- `process_accept` has looked at a connection. -/
theorem look {s : Server T} (hi : s.Counted) {a : Accepting} (hch : a.ch = s.accepting.ch)
    (hdoomed : ∀ ch fd x todo, a = .collecting ch fd x todo →
      s.tcpsConns.lookup fd = some x ∧ (∀ k, s.heap x = some k → k.dead = true) ∧
        s.jobs x + s.pointing x = 0) : { s with accepting := a }.Counted where
  refno x := by
    have hlisted : { s with accepting := a }.listed x = s.listed x :=
      listed_congr (by rw [hch])
    rw [hlisted]
    exact hi.refno x
  unborn := hi.unborn
  fds := hi.fds
  keyed := hi.keyed
  unlisted x k hx hk := hi.unlisted x k (hch ▸ hx) hk
  doomed := hdoomed
  anonymous := hi.anonymous
  saved := hi.saved

/-- The listener gives back a connection that nobody else has, and forgets it. -/
theorem collect {s : Server T} (hi : s.Counted) {ch fd c : ℕ} {todo : List ℕ} {H : ConnHeap}
    (hacc : s.accepting = .collecting ch fd c todo) (hdecref : s.heap.decref c = some H) :
    { s with
      heap := H
      tcpsConns := s.tcpsConns.erase fd
      accepting := .sweeping ch todo }.Counted := by
  obtain ⟨hlookup, -, -⟩ := hi.doomed ch fd c todo hacc
  obtain ⟨k, hk, hfd⟩ := hi.lookup_alive hlookup
  have hshift := ConnHeap.shift_decref hdecref
  have hkept : ∀ fd' x, (s.tcpsConns.erase fd).lookup fd' = some x →
      s.tcpsConns.lookup fd' = some x := by
    intro fd' x hx
    rw [OrderedMap.lookup_erase] at hx
    split at hx
    · cases hx
    · exact hx
  -- the new connection is not in the map yet, and this one is
  have hch : s.accepting.ch ≠ some c := by
    intro hnew
    have hnone := hi.unlisted c k hnew hk
    rw [hfd, hlookup] at hnone
    cases hnone
  have honly : ∀ fd', s.tcpsConns.lookup fd' = some c → fd' = fd :=
    fun fd' h' => (hi.keyed fd' c k h' hk).symm.trans hfd
  refine ⟨fun x => ?_, fun x hx => hshift.none (hi.unborn x hx), hshift.distinct hi.fds,
    fun fd' x k' hx hk' => ?_, fun x k' hx hk' => ?_, fun _ _ _ _ h => (nomatch h),
    hi.anonymous, hi.saved⟩
  · have hlisted : { s with
        heap := H
        tcpsConns := s.tcpsConns.erase fd
        accepting := .sweeping ch todo }.listed x = if c = x then 0 else s.listed x :=
      listed_erase hlookup honly rfl (by rw [hacc]; rfl) hch x
    rw [hshift.refno, hi.refno x, hlisted]
    by_cases hx : c = x
    · rw [if_pos hx, if_pos hx, ← hx, listed_of_lookup hlookup]
      change (1 + s.jobs c + s.pointing c + -1 : ℤ) = (0 : ℕ) + s.jobs c + s.pointing c
      omega
    · rw [if_neg hx, if_neg hx, add_zero]
      rfl
  · obtain ⟨k₀, hk₀, hfd₀, -⟩ := hshift.old x k' hk'
    rw [hfd₀]
    exact hi.keyed fd' x k₀ (hkept fd' x hx) hk₀
  · obtain ⟨k₀, hk₀, hfd₀, -⟩ := hshift.old x k' hk'
    have hnone := hi.unlisted x k₀ (by rw [hacc]; exact hx) hk₀
    change (s.tcpsConns.erase fd).lookup k'.fd = none
    rw [hfd₀, OrderedMap.lookup_erase, hnone, ite_self]

/-- `process_accept` is over: the new connection is in `tcpsconn::conns_`. -/
theorem enlist {s : Server T} (hi : s.Counted) {ch : ℕ} {k : Conn}
    (hacc : s.accepting = .sweeping ch []) (hk : s.heap ch = some k) :
    { s with
      tcpsConns := s.tcpsConns.insert k.fd ch
      accepting := .idle }.Counted := by
  have hnone := hi.unlisted ch k (by rw [hacc]; rfl) hk
  refine ⟨fun x => ?_, hi.unborn, hi.fds, fun fd' x k' hx hk' => ?_,
    fun _ _ h => (nomatch h), fun _ _ _ _ h => (nomatch h), hi.anonymous, hi.saved⟩
  · have hsame : { s with
        tcpsConns := s.tcpsConns.insert k.fd ch
        accepting := .idle }.listed x = s.listed x := by
      refine listed_congr ?_
      rw [OrderedMap.mem_values_insert ch hnone, hacc]
      simp [Accepting.ch, or_comm, eq_comm]
    rw [hsame]
    exact hi.refno x
  · change (s.tcpsConns.insert k.fd ch).lookup fd' = some x at hx
    rw [OrderedMap.lookup_insert] at hx
    split at hx
    next heq =>
      cases hx
      rw [hk] at hk'
      cases hk'
      exact heq.symm
    · exact hi.keyed fd' x k' hx hk'

theorem processAccept {s s' : Server T} (hi : s.Counted) (h : s.processAccept = some s') :
    s'.Counted := by
  unfold Server.processAccept at h
  split at h
  · cases h
  next ch fd todo hacc =>
    split at h
    · cases h
    next c hlookup =>
      split at h
      · cases h
      next k hk =>
        split at h
        next hdoomed =>
          cases h
          refine hi.look (by rw [hacc]; rfl) fun ch' fd' x todo' heq => ?_
          cases heq
          refine ⟨hlookup, fun k' hk' => ?_, ?_⟩
          · rw [hk] at hk'
            cases hk'
            exact hdoomed.1
          · -- the count is one, and the listener has that one
            have hcount := hi.refno c
            rw [ConnHeap.refno_of_some hk, hdoomed.2, listed_of_lookup hlookup] at hcount
            omega
        next =>
          cases h
          exact hi.look (by rw [hacc]; rfl) fun _ _ _ _ heq => (nomatch heq)
  next ch fd c todo hacc =>
    obtain ⟨H, hdecref, rfl⟩ := Option.map_eq_some_iff.1 h
    exact hi.collect hacc hdecref
  next ch hacc =>
    obtain ⟨k, hk, rfl⟩ := Option.map_eq_some_iff.1 h
    exact hi.enlist hacc hk

/-! ### Steps that touch nothing but the connections or the flags -/

theorem idleStep {s s' : Server T} (hi : s.Counted)
    (hheap : ConnHeap.Shift s.heap s'.heap fun _ => 0) (hnext : s'.next = s.next)
    (htcps : s'.tcpsConns = s.tcpsConns) (hacc : s'.accepting = s.accepting)
    (hconns : s'.conns = s.conns) (hjob : s'.job = s.job) : s'.Counted := by
  refine hi.settle hheap hnext htcps hacc (fun x => ?_) (fun _ _ _ _ _ => le_rfl)
    (hconns ▸ hi.anonymous) fun t => ?_
  · rw [jobs, pointing, hjob, hconns, add_zero]
    rfl
  · rw [hjob, hconns]
    exact hi.saved t

theorem recheck {s s' : Server T} (hi : s.Counted) (hreachable : s.reachable = true)
    (h : s.recheck = some s') : s'.Counted := by
  unfold Server.recheck at h
  split at h
  · cases h
  · rw [if_pos hreachable] at h
    cases h
    exact hi.idleStep (.refl _) rfl rfl rfl rfl rfl

end Counted
end Counts
end Server

/-! ## Runs -/

/-- A request is for this instance of the server. -/
def Djob.current (nonce : UInt32) : Djob → Bool
  | .queued _ (some h) => h.srvNonce = 0 || h.srvNonce = nonce
  | _ => true

/-- The connection of a client without a nonce is alive when the handler returns. -/
def Djob.answerable (H : ConnHeap) : Djob → Bool
  | .serving c h => h.cltNonce ≠ 0 || (H c).all fun k => !k.dead
  | _ => true

/-- None of the three steps that break the counts. -/
def GivesBack (nonce : UInt32) (s : Server T) : ServerAction T → Prop
  | .recheck => s.reachable = true
  | .start t => (s.job t).current nonce = true
  | .reply t => (s.job t).answerable s.heap = true
  | _ => True

section

variable [DecidableEq T] [Fintype T]

instance (nonce : UInt32) (s : Server T) : ∀ a, Decidable (GivesBack nonce s a)
  | .recheck => inferInstanceAs (Decidable (s.reachable = true))
  | .start t => inferInstanceAs (Decidable ((s.job t).current nonce = true))
  | .reply t => inferInstanceAs (Decidable ((s.job t).answerable s.heap = true))
  | .accept _ _ _ => isTrue trivial
  | .processAccept => isTrue trivial
  | .die _ => isTrue trivial
  | .setReachable _ => isTrue trivial
  | .gotPdu _ _ _ _ => isTrue trivial
  | .save _ => isTrue trivial
  | .check _ _ => isTrue trivial
  | .leave _ => isTrue trivial

end

namespace Server

variable [Fintype T]

theorem counted_init : (init : Server T).Counted where
  refno x := by
    have hjobs : (init : Server T).jobs x = 0 := Finset.sum_eq_zero fun _ _ => rfl
    have hlisted : (init : Server T).listed x = 0 := if_neg fun h => h.elim (nomatch ·) (nomatch ·)
    rw [hjobs, hlisted]
    rfl
  unborn _ _ := rfl
  fds _ _ _ _ h := nomatch h
  keyed _ _ _ h := nomatch h
  unlisted _ _ h := nomatch h
  doomed _ _ _ _ h := nomatch h
  anonymous := rfl
  saved _ := trivial

variable [DecidableEq T]

theorem Counted.step {nonce : UInt32} {procs : List UInt32} {s s' : Server T}
    {a : ServerAction T} (hi : s.Counted) (hok : GivesBack nonce s a)
    (h : serverStep nonce procs s a = some s') : s'.Counted := by
  cases a with
  | accept fd sec usec => exact hi.accept h
  | processAccept => exact hi.processAccept h
  | die c =>
      obtain ⟨H, hdie, rfl⟩ := Option.map_eq_some_iff.1 h
      exact hi.idleStep (ConnHeap.shift_die hdie) rfl rfl rfl rfl rfl
  | setReachable r =>
      cases h
      exact hi.idleStep (.refl _) rfl rfl rfl rfl rfl
  | gotPdu c pdu t succ => exact hi.gotPdu h
  | recheck => exact hi.recheck hok h
  | start t =>
      refine hi.start (fun c hd hjob => ?_) h
      have hcurrent : (s.job t).current nonce = true := hok
      rw [hjob] at hcurrent
      simpa [Djob.current] using hcurrent
  | save t => exact hi.save h
  | check t stat => exact hi.check h
  | reply t =>
      refine hi.reply (fun c hd k hjob hzero hk => ?_) h
      have hanswer : (s.job t).answerable s.heap = true := hok
      rw [hjob] at hanswer
      simpa [Djob.answerable, hzero, hk] using hanswer
  | leave t => exact hi.leave h

end Server

/-! ## The counts -/

/-- `refno_` is one while the listener has the connection, plus one for each job and one for each
entry of `rpcs::conns_`; a connection that has been freed is used by none of them, and no
`dispatch` has got `NULL`. -/
def Server.Exact [Fintype T] (s : Server T) : Prop :=
  (∀ c k, s.heap c = some k → k.refno = s.listed c + s.jobs c + s.pointing c) ∧
    (∀ c, s.heap c = none → s.listed c + s.jobs c + s.pointing c = 0) ∧
    ∀ t, s.job t ≠ .null

namespace Server

variable {s s' : Server T} [Fintype T]

theorem Exact.refno (h : s.Exact) (x : ℕ) :
    s.heap.refno x = s.listed x + s.jobs x + s.pointing x := by
  cases hk : s.heap x with
  | some k => rw [ConnHeap.refno_of_some hk, h.1 x k hk]
  | none =>
      have hzero := h.2.1 x hk
      rw [ConnHeap.refno_of_none hk]
      omega

theorem Counted.exact (hi : s.Counted) : s.Exact := by
  refine ⟨fun c k hk => ?_, fun c hnone => ?_, fun t hnull => ?_⟩
  · rw [← hi.refno c, ConnHeap.refno_of_some hk]
  · have hcount := hi.refno c
    rw [ConnHeap.refno_of_none hnone] at hcount
    omega
  · have hsaved := hi.saved t
    rw [hnull] at hsaved
    exact hsaved

/-! Each of the three steps breaks the counts, whenever it is taken. -/

theorem Counted.recheck_inexact (hi : s.Counted) (hreachable : ¬ s.reachable = true)
    (h : s.recheck = some s') : ¬ s'.Exact := by
  unfold Server.recheck at h
  split at h
  · cases h
  next c hc =>
    rw [if_neg hreachable] at h
    obtain ⟨H, hdecref, rfl⟩ := Option.map_eq_some_iff.1 h
    intro hexact
    have hless := (ConnHeap.shift_decref hdecref).refno c
    have hold := hi.refno c
    have hnew := hexact.refno c
    rw [if_pos rfl] at hless
    change ConnHeap.refno H c = s.listed c + s.jobs c + s.pointing c at hnew
    omega

variable [DecidableEq T]

theorem Counted.start_inexact {nonce : UInt32} {procs : List UInt32} {t : T} (hi : s.Counted)
    (hold : ¬ (s.job t).current nonce = true) (h : s.start nonce procs t = some s') :
    ¬ s'.Exact := by
  cases hjob : s.job t with
  | queued c pdu =>
      cases pdu with
      | none =>
          rw [hjob] at hold
          exact absurd rfl hold
      | some hd =>
          have hother : hd.srvNonce ≠ 0 ∧ hd.srvNonce ≠ nonce := by
            simpa [hjob, Djob.current] using hold
          simp only [Server.start, hjob, if_pos hother] at h
          cases h
          -- the job is gone and its reference is not
          intro hexact
          have hjobs : (s.setJob t .free).jobs c + (s.job t).holds c =
              s.jobs c + Djob.free.holds c := jobs_update rfl c
          rw [hjob, Djob.holds, if_pos rfl, Djob.holds] at hjobs
          have hbefore := hi.refno c
          have hafter := hexact.refno c
          change s.heap.refno c = s.listed c + (s.setJob t .free).jobs c + s.pointing c at hafter
          omega
  | _ =>
      rw [hjob] at hold
      exact absurd rfl hold

theorem Counted.reply_inexact {t : T} (hi : s.Counted)
    (hdead : ¬ (s.job t).answerable s.heap = true) (h : s.reply t = some s') : ¬ s'.Exact := by
  cases hjob : s.job t with
  | serving c hd =>
      obtain ⟨hzero, hall⟩ :
          hd.cltNonce = 0 ∧ (s.heap c).all (fun k => !k.dead) = false := by
        simpa [hjob, Djob.answerable] using hdead
      have hnone : s.conns.lookup hd.cltNonce.toNat = none := by
        rw [hzero]
        exact hi.anonymous
      cases hk : s.heap c with
      | none =>
          rw [hk] at hall
          cases hall
      | some k =>
          have hkdead : k.dead = true := by simpa [hk] using hall
          have hswap : k.dead = true ∧ s.conns.lookup hd.cltNonce.toNat ≠ some c := by
            rw [hnone]
            exact ⟨hkdead, by simp⟩
          simp only [Server.reply, hjob, hk, if_pos hswap] at h
          obtain ⟨H, -, h⟩ := Option.bind_eq_some_iff.1 h
          rw [hnone] at h
          cases h
          exact fun hexact => hexact.2.2 t (Function.update_self ..)
  | _ =>
      rw [hjob] at hdead
      exact absurd rfl hdead

theorem Counted.givesBack {nonce : UInt32} {procs : List UInt32} {a : ServerAction T}
    (hi : s.Counted) (h : serverStep nonce procs s a = some s') (hexact : s'.Exact) :
    GivesBack nonce s a := by
  cases a with
  | recheck => exact not_not.1 fun hno => hi.recheck_inexact hno h hexact
  | start t => exact not_not.1 fun hno => hi.start_inexact hno h hexact
  | reply t => exact not_not.1 fun hno => hi.reply_inexact hno h hexact
  | _ => trivial

end Server

variable [DecidableEq T]

/-- In every run without the three steps the counts are exact, and they stay so with the next step
exactly if it is none of the three. -/
theorem refno_exact [Fintype T] {nonce : UInt32} {procs : List UInt32} {s : Server T}
    (hs : Reach ServerInit (serverStep nonce procs) (GivesBack nonce) s) :
    s.Exact ∧ ∀ a s', serverStep nonce procs s a = some s' → (s'.Exact ↔ GivesBack nonce s a) := by
  have hi : s.Counted := by
    refine Reach.invariant (I := Server.Counted) ?_ (fun s a t hi hok h => hi.step hok h) hs
    rintro s rfl
    exact Server.counted_init
  exact ⟨hi.exact, fun a s' h => ⟨hi.givesBack h, fun hok => (hi.step hok h).exact⟩⟩

/-- A request of client `clt` for procedure 3. -/
def requestFor (clt srv : UInt32) : ReqHeader where
  xid := 1
  proc := 3
  cltNonce := clt
  srvNonce := srv
  xidRep := 0

/-- The connection of a request dies, the client comes back on a new one, the reply goes there,
and the next `process_accept` collects the old one. -/
theorem refno_exact_reconnected :
    ∃ s : Server (Fin 2), Reach ServerInit (serverStep 9 [3]) (GivesBack 9) s ∧
      s.heap 0 = none ∧ (s.heap 1).map Conn.refno = some 2 ∧ s.Exact := by
  obtain ⟨s, hreach, hold, hnew⟩ :
      ∃ s : Server (Fin 2), Reach ServerInit (serverStep 9 [3]) (GivesBack 9) s ∧
        s.heap 0 = none ∧ (s.heap 1).map Conn.refno = some 2 :=
    Reach.exists_of_runFrom
      (P := fun s : Server (Fin 2) => s.heap 0 = none ∧ (s.heap 1).map Conn.refno = some 2)
      [.accept 5 100 0, .processAccept, .gotPdu 0 (some (requestFor 7 9)) 0 true, .recheck,
        .start 0, .save 0, .check 0 .new, .die 0, .accept 6 101 0, .processAccept,
        .processAccept, .gotPdu 1 (some (requestFor 7 9)) 1 true, .recheck, .start 1, .save 1,
        .check 1 .inprogress, .leave 1, .reply 0, .leave 0, .accept 7 102 0, .processAccept,
        .processAccept, .processAccept, .processAccept] rfl (by decide +kernel)
  exact ⟨s, hreach, hold, hnew, (refno_exact hreach).1⟩

/-- A request for another instance of the server leaves its reference behind.  The reply to a
client with nonce 0 whose connection has died goes on with `NULL`.  A `got_pdu` during which
`reachable_` falls takes the reference of the job it has queued. -/
theorem refno_inexact :
    (∃ s : Server (Fin 1), Reach ServerInit (serverStep 9 [3]) anyStep s ∧
      (s.heap 0).map Conn.refno = some 2 ∧
      s.listed 0 = 1 ∧ s.jobs 0 = 0 ∧ s.pointing 0 = 0) ∧
    (∃ s : Server (Fin 1), Reach ServerInit (serverStep 9 [3]) anyStep s ∧ s.job 0 = .null) ∧
    (∃ s : Server (Fin 1), Reach ServerInit (serverStep 9 [3]) anyStep s ∧
      (s.heap 0).map Conn.refno = some 1 ∧
      s.listed 0 = 1 ∧ s.jobs 0 = 1 ∧ s.pointing 0 = 0) := by
  refine ⟨?_, ?_, ?_⟩
  · exact Reach.exists_of_runFrom
      (P := fun s : Server (Fin 1) => (s.heap 0).map Conn.refno = some 2 ∧
        s.listed 0 = 1 ∧ s.jobs 0 = 0 ∧ s.pointing 0 = 0)
      [.accept 5 100 0, .processAccept, .gotPdu 0 (some (requestFor 7 8)) 0 true, .recheck,
        .start 0] rfl (by decide +kernel)
  · exact Reach.exists_of_runFrom (P := fun s : Server (Fin 1) => s.job 0 = .null)
      [.accept 5 100 0, .processAccept, .gotPdu 0 (some (requestFor 0 9)) 0 true, .recheck,
        .start 0, .die 0, .reply 0] rfl (by decide +kernel)
  · exact Reach.exists_of_runFrom
      (P := fun s : Server (Fin 1) => (s.heap 0).map Conn.refno = some 1 ∧
        s.listed 0 = 1 ∧ s.jobs 0 = 1 ∧ s.pointing 0 = 0)
      [.accept 5 100 0, .processAccept, .gotPdu 0 (some (requestFor 7 9)) 0 true,
        .setReachable false, .recheck] rfl (by decide +kernel)

end Rpc
end Yfs

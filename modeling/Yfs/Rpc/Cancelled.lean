import Mathlib.Data.Fintype.Option
import Yfs.Rpc.Referred

/-!
# Cancelled — `rpcc::cancel` and the calls it makes fail

`cancel` marks every `caller` in `calls_` as done and then waits on `destroy_wait_c_` until `calls_`
is empty; `destroy_wait_` keeps new calls out.  A call signals that condition variable once when it
takes its entry out of `calls_`.  Every `send` returns here; `cancel` does not wake a thread that
sleeps in `connection::send`.

* `Called` — `calls_` points to the callers of those threads that are in `call1`, a thread that
  sleeps there is not done, and with `destroy_wait_` set they are all done;
* `cancel_returns` — as long as one thread at a time is in `cancel`, it is woken for the last call
  and returns after finitely many steps of the threads in the object;
* `second_cancel_stranded` — a signal wakes one thread, so of two threads in `cancel` one may sleep
  on when the last call has gone, and then nobody wakes it.
-/

namespace Yfs
namespace Rpc
namespace Calling

open Lib

variable {T : Type}

/-! ## The callers -/

/-- The entry that a thread has in `calls_`. -/
def Pc.xid : Pc → Option ℕ
  | .transmit xid _ _ => some xid
  | .sending xid _ _ => some xid
  | .waiting xid _ => some xid
  | .leaving xid _ => some xid
  | .erased _ => none
  | .out _ => none
  | .cancelling => none

/-- One thread: `wait` is `destroy_wait_`, `d` its `caller` and `z` whether it is asleep. -/
structure Pc.Ok (wait : Bool) (p : Pc) (d : Option Int) (z : Bool) : Prop where
  asleep : z = true → ((∃ xid ch, p = .waiting xid ch) ∧ d = none) ∨ p = .cancelling
  failed : wait = true → p.xid ≠ none → d.isSome = true
  waited : p = .cancelling → wait = true

structure Called (s : Clt T) : Prop where
  caller : ∀ x t, s.calls.lookup x = some t ↔ (s.pc t).xid = some x
  thread : ∀ t, (s.pc t).Ok s.destroyWait (s.done t) (s.asleep t)

/-- An xid is not used again while the call that has it is under way. -/
def FreshXid (s : Clt T) : Act T → Prop
  | .call _ => s.calls.lookup s.xid = none
  | _ => True

theorem called_init : Called (Clt.init : Clt T) where
  caller x t := by simp [Clt.init, OrderedMap.lookup, OrderedMap.empty, Pc.xid]
  thread t := by constructor <;> simp [Clt.init, Pc.xid]

section Steps

variable {retrans : Bool} {s s' : Clt T} {t : T}

theorem Pc.Ok.awake {wait z : Bool} {p : Pc} {d : Option Int} (h : p.Ok wait d z)
    (hp : p ≠ .cancelling) (hd : (∃ xid ch, p = .waiting xid ch) → d ≠ none) : z = false := by
  by_contra hz
  rcases h.asleep (Bool.of_not_eq_false hz) with ⟨hw, hnone⟩ | hc
  · exact hd hw hnone
  · exact hp hc

/-- A thread that is awake and not in `cancel`. -/
theorem Pc.ok_of_awake {wait : Bool} {p : Pc} {d : Option Int} (hp : p ≠ .cancelling)
    (hd : wait = true → p.xid ≠ none → d.isSome = true) : p.Ok wait d false :=
  ⟨(fun hz => by cases hz), hd, fun hc => absurd hc hp⟩

theorem Called.awake (h : Called s) (hp : s.pc t ≠ .cancelling)
    (hw : ∀ xid ch, s.pc t ≠ .waiting xid ch) : s.asleep t = false :=
  (h.thread t).awake hp fun ⟨xid, ch, hpc⟩ => absurd hpc (hw xid ch)

/-- `get_refconn` is about connections only. -/
theorem freshChan_frame {new : Option (ℕ × ℕ × ℕ)} {s₁ : Clt T} (h : s.freshChan new = some s₁) :
    ∃ H next chan, s₁ = { s with heap := H, next := next, chan := chan } := by
  have hreconnect : ∀ H, ∃ H' next chan,
      s.reconnect H new = { s with heap := H', next := next, chan := chan } := by
    intro H
    cases new with
    | none => exact ⟨H, s.next, none, rfl⟩
    | some n => exact ⟨_, _, _, rfl⟩
  unfold Clt.freshChan at h
  split at h
  · cases h
    exact hreconnect _
  · rcases Option.bind_eq_some_iff.1 h with ⟨k, -, hcase⟩
    split at hcase
    · rcases Option.map_eq_some_iff.1 hcase with ⟨H, -, rfl⟩
      exact hreconnect H
    · cases hcase
      exact ⟨s.heap, s.next, s.chan, rfl⟩

section

variable [DecidableEq T]

/-- Only the thread `t` changes. -/
theorem Called.one (h : Called s) (t : T) (hwait : s'.destroyWait = s.destroyWait)
    (hother : ∀ u, u ≠ t → s'.pc u = s.pc u ∧ s'.done u = s.done u ∧ s'.asleep u = s.asleep u)
    (hcaller : ∀ x u, s'.calls.lookup x = some u ↔ (s'.pc u).xid = some x)
    (hself : (s'.pc t).Ok s'.destroyWait (s'.done t) (s'.asleep t)) : Called s' := by
  refine ⟨hcaller, fun u => ?_⟩
  by_cases hut : u = t
  · subst hut
    exact hself
  · rcases hother u hut with ⟨hpc, hdone, hasleep⟩
    rw [hpc, hdone, hasleep, hwait]
    exact h.thread u

/-- A thread moves on with the entry that it has. -/
theorem Called.caller_update (h : Called s) {p : Pc} (hp : p.xid = (s.pc t).xid) (x : ℕ) (u : T) :
    s.calls.lookup x = some u ↔ (Function.update s.pc t p u).xid = some x := by
  rw [h.caller x u]
  by_cases hut : u = t
  · subst hut
    rw [Function.update_self, hp]
  · rw [Function.update_of_ne hut]

/-- A thread that is awake moves on, and is awake after that. -/
theorem Called.setPc (h : Called s) {p : Pc} (hp : p ≠ .cancelling) (hx : p.xid = (s.pc t).xid)
    {asleep : T → Bool} (hself : asleep t = false) (hasleep : ∀ u, u ≠ t → asleep u = s.asleep u)
    {H : ConnHeap} {next : ℕ} {chan : Option ℕ} :
    Called { s.setPc t p with
      heap := H
      next := next
      chan := chan
      asleep := asleep } := by
  refine h.one t rfl (fun u hu => ⟨Function.update_of_ne hu _ _, rfl, hasleep u hu⟩)
    (h.caller_update hx) ?_
  show (Function.update s.pc t p t).Ok s.destroyWait (s.done t) (asleep t)
  rw [Function.update_self, hself]
  refine Pc.ok_of_awake hp ?_
  rw [hx]
  exact (h.thread t).failed

theorem Called.wake (h : Called s) (u : T) :
    Called { s with asleep := Function.update s.asleep u false } := by
  refine h.one u rfl (fun v hv => ⟨rfl, rfl, Function.update_of_ne hv _ _⟩) h.caller ?_
  show (s.pc u).Ok s.destroyWait (s.done u) (Function.update s.asleep u false u)
  rw [Function.update_self]
  exact ⟨(fun hz => by cases hz), (h.thread u).failed, (h.thread u).waited⟩

theorem Called.call (h : Called s) {r : Int} (ht : s.pc t = .out r)
    (hwait : s.destroyWait = false) (hfresh : s.calls.lookup s.xid = none) :
    Called
      { s.setPc t (.transmit s.xid none false) with
        xid := (s.xid + 1) % 2 ^ 32
        calls := s.calls.insert s.xid t
        done := Function.update s.done t none } := by
  refine h.one t rfl
    (fun u hu => ⟨Function.update_of_ne hu _ _, Function.update_of_ne hu _ _, rfl⟩)
    (fun x u => ?_) ?_
  · show (s.calls.insert s.xid t).lookup x = some u ↔
      (Function.update s.pc t (.transmit s.xid none false) u).xid = some x
    rw [OrderedMap.lookup_insert]
    by_cases hut : u = t
    · subst hut
      rw [Function.update_self]
      split
      next hx => simp [Pc.xid, hx]
      next hx =>
        -- before its call the thread has no entry
        rw [h.caller, ht]
        simp [Pc.xid, Ne.symm hx]
    · rw [Function.update_of_ne hut, ← h.caller]
      split
      next hx =>
        rw [hx, hfresh]
        simp [Ne.symm hut]
      next => exact Iff.rfl
  · show (Function.update s.pc t (.transmit s.xid none false) t).Ok s.destroyWait
      (Function.update s.done t none t) (s.asleep t)
    rw [Function.update_self, h.awake (by simp [ht]) (by simp [ht]), hwait]
    exact Pc.ok_of_awake (by simp) (fun hc => by cases hc)

theorem Called.erase (h : Called s) {xid : ℕ} {ch : Option ℕ} (ht : s.pc t = .leaving xid ch) :
    Called { s.setPc t (.erased ch) with calls := s.calls.erase xid } := by
  refine h.one t rfl (fun u hu => ⟨Function.update_of_ne hu _ _, rfl, rfl⟩) (fun x u => ?_) ?_
  · show (s.calls.erase xid).lookup x = some u ↔
      (Function.update s.pc t (.erased ch) u).xid = some x
    rw [OrderedMap.lookup_erase]
    have hself : s.calls.lookup xid = some t := (h.caller xid t).2 (by rw [ht]; rfl)
    by_cases hut : u = t
    · subst hut
      rw [Function.update_self]
      split
      next => simp [Pc.xid]
      next hx =>
        rw [h.caller, ht]
        simp [Pc.xid, Ne.symm hx]
    · rw [Function.update_of_ne hut, ← h.caller]
      split
      next hx =>
        rw [hx, hself]
        simp [Ne.symm hut]
      next => exact Iff.rfl
  · show (Function.update s.pc t (.erased ch) t).Ok s.destroyWait (s.done t) (s.asleep t)
    rw [Function.update_self, h.awake (by simp [ht]) (by simp [ht])]
    exact Pc.ok_of_awake (by simp) (fun _ hx => absurd rfl hx)

theorem Called.gotPdu (h : Called s) (u : T) (ret : Int) :
    Called { s with
      done := if (s.done u).isSome then s.done else Function.update s.done u (some ret)
      asleep := Function.update s.asleep u false } := by
  have hsome : ((if (s.done u).isSome then s.done
      else Function.update s.done u (some ret)) u).isSome = true := by
    split
    next hd => exact hd
    next => rw [Function.update_self]; rfl
  refine h.one u rfl (fun v hv => ⟨rfl, ?_, Function.update_of_ne hv _ _⟩) h.caller ?_
  · dsimp only
    split
    · rfl
    · exact Function.update_of_ne hv _ _
  · dsimp only
    rw [Function.update_self]
    exact ⟨(fun hz => by cases hz), fun _ _ => hsome, (h.thread u).waited⟩

/-- Every `caller` is done after `failAll`. -/
theorem Called.failAll (h : Called s) (wait : Bool) (hwait : s.destroyWait = true → wait = true)
    (u : T) : (s.pc u).Ok wait (s.failAll.done u) (s.failAll.asleep u) := by
  have hmem : u ∈ s.calls.values ↔ (s.pc u).xid ≠ none := by
    rw [OrderedMap.mem_values_iff, Option.ne_none_iff_exists']
    exact exists_congr fun x => h.caller x u
  simp only [Clt.failAll]
  by_cases hu : u ∈ s.calls.values
  · rw [if_pos hu, if_pos hu]
    exact ⟨(fun hz => by cases hz), fun _ _ => rfl, fun hc => hwait ((h.thread u).waited hc)⟩
  · rw [if_neg hu, if_neg hu]
    exact ⟨(h.thread u).asleep, fun _ hx => absurd (hmem.2 hx) hu,
      fun hc => hwait ((h.thread u).waited hc)⟩

theorem Called.cancel (h : Called s) {r : Int} (ht : s.pc t = .out r) :
    Called
      { s.failAll.setPc t .cancelling with
        destroyWait := true
        asleep := Function.update s.failAll.asleep t true } := by
  refine ⟨h.caller_update (by rw [ht]; rfl), fun u => ?_⟩
  show (Function.update s.pc t .cancelling u).Ok true (s.failAll.done u)
    (Function.update s.failAll.asleep t true u)
  by_cases hut : u = t
  · subst hut
    rw [Function.update_self, Function.update_self]
    exact ⟨fun _ => Or.inr rfl, fun _ hx => absurd rfl hx, fun _ => rfl⟩
  · rw [Function.update_of_ne hut, Function.update_of_ne hut]
    exact h.failAll true (fun _ => rfl) u

theorem Called.cancelIdle (h : Called s) {r : Int} (ht : s.pc t = .out r) :
    Called (s.failAll.setPc t (.out 0)) := by
  refine ⟨h.caller_update (by rw [ht]; rfl), fun u => ?_⟩
  show (Function.update s.pc t (.out 0) u).Ok s.destroyWait (s.failAll.done u) (s.failAll.asleep u)
  by_cases hut : u = t
  · subst hut
    have hawake : s.failAll.asleep u = false :=
      (h.failAll s.destroyWait id u).awake (by simp [ht]) (by simp [ht])
    rw [Function.update_self, hawake]
    exact Pc.ok_of_awake (by simp) (fun _ hx => absurd rfl hx)
  · rw [Function.update_of_ne hut]
    exact h.failAll s.destroyWait id u

theorem Called.recancel (h : Called s) (ht : s.pc t = .cancelling) :
    Called
      { s.setPc t .cancelling with
        destroyWait := true
        asleep := Function.update s.asleep t true } := by
  have hwait := (h.thread t).waited ht
  refine h.one t hwait.symm
    (fun u hu => ⟨Function.update_of_ne hu _ _, rfl, Function.update_of_ne hu _ _⟩)
    (h.caller_update (by rw [ht])) ?_
  show (Function.update s.pc t .cancelling t).Ok true (s.done t) _
  rw [Function.update_self]
  exact ⟨fun _ => Or.inr rfl, fun _ hx => absurd rfl hx, fun _ => rfl⟩

theorem Called.move {a : Act T} (h : Called s) (hok : FreshXid s a) (hmove : Move retrans s a s') :
    Called s' := by
  cases hmove with
  | refused ht =>
      exact h.setPc (by simp) (by rw [ht]; rfl) (h.awake (by simp [ht]) (by simp [ht]))
        (fun _ _ => rfl)
  | call ht _ hwait => exact h.call ht hwait hok
  | connect ht hfresh _ =>
      rcases freshChan_frame hfresh with ⟨H, next, chan, rfl⟩
      exact h.setPc (by simp) (by rw [ht]; rfl) (h.awake (by simp [ht]) (by simp [ht]))
        (fun _ _ => rfl)
  | @sent t xid ch last ht =>
      refine h.setPc ?_ ?_ (h.awake (by simp [ht]) (by simp [ht])) (fun _ _ => rfl)
      · cases last <;> simp
      · rw [ht]
        cases last <;> rfl
  | ready ht hawake => exact h.setPc (by simp) (by rw [ht]; rfl) hawake (fun _ _ => rfl)
  | @sleep t xid ch ht hdone =>
      refine h.one t rfl (fun u hu => ⟨rfl, rfl, Function.update_of_ne hu _ _⟩) h.caller ?_
      exact ⟨fun _ => Or.inl ⟨⟨xid, ch, ht⟩, hdone⟩, (h.thread t).failed, (h.thread t).waited⟩
  | timeout ht hp =>
      refine h.setPc ?_ ?_ (Function.update_self ..) (fun u hu => Function.update_of_ne hu _ _)
      · rcases hp with rfl | ⟨-, rfl | rfl⟩ <;> simp
      · rw [ht]
        rcases hp with rfl | ⟨-, rfl | rfl⟩ <;> rfl
  | erase ht => exact h.erase ht
  | signal ht => exact (h.erase ht).wake _
  | leave ht =>
      exact h.setPc (by simp) (by rw [ht]; rfl) (h.awake (by simp [ht]) (by simp [ht]))
        (fun _ _ => rfl)
  | unknown => exact h
  | gotPdu => exact h.gotPdu _ _
  | cancel ht => exact h.cancel ht
  | cancelIdle ht => exact h.cancelIdle ht
  | recancel ht => exact h.recancel ht
  | cancelled ht _ hawake => exact h.setPc (by simp) (by rw [ht]; rfl) hawake (fun _ _ => rfl)
  | spurious => exact h.wake _
  | die | destroy => exact ⟨h.caller, h.thread⟩

end

/-! ## One thread in `cancel` -/

/-- No other thread is in `cancel` when one calls it. -/
def Sole (s : Clt T) (a : Act T) : Prop :=
  FreshXid s a ∧ ∀ t, a = .cancel t → ∀ u, s.pc u ≠ .cancelling

section

variable [DecidableEq T]

theorem cancelling_update {p : Pc} {u : T} (hp : p ≠ .cancelling)
    (hu : Function.update s.pc t p u = .cancelling) : u ≠ t ∧ s.pc u = .cancelling := by
  by_cases hut : u = t
  · subst hut
    rw [Function.update_self] at hu
    exact absurd hu hp
  · rw [Function.update_of_ne hut] at hu
    exact ⟨hut, hu⟩

theorem cancelling_of_move {a : Act T} (hmove : Move retrans s a s') {u : T}
    (hu : s'.pc u = .cancelling) : s.pc u = .cancelling ∨ a = .cancel u := by
  cases hmove with
  | refused | call => exact Or.inl (cancelling_update (by simp) hu).2
  | connect _ hfresh =>
      rcases freshChan_frame hfresh with ⟨H, next, chan, rfl⟩
      exact Or.inl (cancelling_update (s := s) (by simp) hu).2
  | @sent t xid ch last => exact Or.inl (cancelling_update (by cases last <;> simp) hu).2
  | ready => exact Or.inl (cancelling_update (by simp) hu).2
  | timeout _ hp =>
      exact Or.inl (cancelling_update (by rcases hp with rfl | ⟨-, rfl | rfl⟩ <;> simp) hu).2
  | erase | signal | leave => exact Or.inl (cancelling_update (by simp) hu).2
  | @cancel t r _ _ _ =>
      by_cases hut : u = t
      · exact Or.inr (by rw [hut])
      · exact Or.inl ((Function.update_of_ne hut _ _).symm.trans hu)
  | cancelIdle => exact Or.inl (cancelling_update (s := s) (by simp) hu).2
  | @recancel t ht _ _ =>
      by_cases hut : u = t
      · exact Or.inl (hut ▸ ht)
      · exact Or.inl ((Function.update_of_ne hut _ _).symm.trans hu)
  | cancelled => exact Or.inl (cancelling_update (by simp) hu).2
  | _ => exact Or.inl hu

/-- A thread that is not in `cancel` moves on and leaves the others asleep or awake. -/
theorem dozing_update {p : Pc} (hp : p ≠ .cancelling) {asleep : T → Bool}
    (hasleep : ∀ u, u ≠ t → asleep u = true → s.asleep u = true) {u : T}
    (hu : Function.update s.pc t p u = .cancelling ∧ asleep u = true) : s.Dozing u := by
  rcases cancelling_update hp hu.1 with ⟨hut, hpc⟩
  exact ⟨hpc, hasleep u hut hu.2⟩

/-- Waking one thread puts none to sleep. -/
theorem asleep_of_woken {asleep : T → Bool} {u v : T}
    (h : Function.update asleep v false u = true) : asleep u = true := by
  by_cases huv : u = v
  · subst huv
    rw [Function.update_self] at h
    cases h
  · rwa [Function.update_of_ne huv] at h

end

section

variable [Fintype T]

structure Single (s : Clt T) : Prop where
  held : s.Held
  called : Called s
  one : ∀ t u, s.pc t = .cancelling → s.pc u = .cancelling → t = u
  served : ∀ t, s.Dozing t → 0 < s.calls.size

variable [DecidableEq T]

theorem Single.served_move {a : Act T} (h : Single s) (hmove : Move retrans s a s') {u : T}
    (hu : s'.Dozing u) : 0 < s'.calls.size := by
  cases hmove with
  | refused => exact h.served u (dozing_update (by simp) (fun _ _ => id) hu)
  | call _ _ hwait =>
      have hdoze := dozing_update (by simp) (fun _ _ => id) hu
      rw [(h.called.thread u).waited hdoze.1] at hwait
      cases hwait
  | connect _ hfresh =>
      rcases freshChan_frame hfresh with ⟨H, next, chan, rfl⟩
      exact h.served u (dozing_update (s := s) (by simp) (fun _ _ => id) hu)
  | @sent t xid ch last =>
      exact h.served u (dozing_update (by cases last <;> simp) (fun _ _ => id) hu)
  | ready => exact h.served u (dozing_update (by simp) (fun _ _ => id) hu)
  | @sleep t xid ch ht _ =>
      have hut : u ≠ t := by
        rintro rfl
        rw [show s.pc u = .cancelling from hu.1] at ht
        cases ht
      exact h.served u ⟨hu.1, (Function.update_of_ne hut _ _).symm.trans hu.2⟩
  | timeout _ hp =>
      refine h.served u (dozing_update ?_ (fun v hv hz => ?_) hu)
      · rcases hp with rfl | ⟨-, rfl | rfl⟩ <;> simp
      · exact (Function.update_of_ne hv _ _).symm.trans hz
  | erase _ hquiet =>
      rcases cancelling_update (by simp) hu.1 with ⟨hut, hpc⟩
      exact absurd ⟨hpc, hu.2⟩ (hquiet ((h.called.thread u).waited hpc) u hut)
  | @signal t v xid ch _ _ hv =>
      -- the one that is woken is the only one
      rcases cancelling_update (by simp) hu.1 with ⟨-, hpc⟩
      rw [h.one u v hpc hv.1] at hu
      have hz : Function.update s.asleep v false v = true := hu.2
      rw [Function.update_self] at hz
      cases hz
  | leave => exact h.served u (dozing_update (by simp) (fun _ _ => id) hu)
  | unknown => exact h.served u hu
  | gotPdu => exact h.served u ⟨hu.1, asleep_of_woken hu.2⟩
  | cancel _ _ hsize => exact hsize
  | @cancelIdle t r ht hsize =>
      rcases cancelling_update (s := s) (by simp) hu.1 with ⟨-, hpc⟩
      refine h.served u ⟨hpc, ?_⟩
      have hz : (if u ∈ s.calls.values then false else s.asleep u) = true := hu.2
      split at hz
      · cases hz
      · exact hz
  | recancel _ hsize => exact hsize
  | cancelled => exact h.served u (dozing_update (by simp) (fun _ _ => id) hu)
  | spurious => exact h.served u ⟨hu.1, asleep_of_woken hu.2⟩
  | die | destroy => exact h.served u hu

theorem Single.move {a : Act T} (h : Single s) (hok : Sole s a) (hmove : Move retrans s a s') :
    Single s' := by
  refine ⟨h.held.move hmove, h.called.move hok.1 hmove, fun t u ht hu => ?_,
    fun u => h.served_move hmove⟩
  rcases cancelling_of_move hmove ht with ht | ht
  · rcases cancelling_of_move hmove hu with hu | hu
    · exact h.one t u ht hu
    · exact absurd ht (hok.2 u hu t)
  · rcases cancelling_of_move hmove hu with hu | hu
    · exact absurd hu (hok.2 t ht u)
    · exact Act.cancel.inj (ht.symm.trans hu)

theorem single_of_reach (h : Reach (fun s => s = Clt.init) (step retrans) Sole s) : Single s := by
  refine Reach.invariant (I := Single) ?_ (fun _ _ _ hs hok hst => hs.move hok (move_of_step hst)) h
  rintro s rfl
  refine ⟨held_init, called_init, fun t u ht => ?_, fun t ht => ?_⟩
  · cases ht
  · cases ht.1

end

/-! ## Progress -/

/-- A step of a thread that is in the object. -/
def Act.isInner : Act T → Bool
  | .connect _ _ | .sent _ | .check _ | .timeout _ _ | .erase _ _ | .leave _
  | .cancelCheck _ => true
  | _ => false

/-- How many steps a thread has before it, where waking another one counts as one. -/
def Pc.weight (v : Pc × Bool) : ℕ :=
  match v.1 with
  | .transmit _ _ _ => 10
  | .sending _ _ _ => 8
  | .waiting _ _ => 6
  | .leaving _ _ => 4
  | .erased _ => 2
  | .out _ => 0
  | .cancelling => if v.2 then 0 else 1

def Clt.view (s : Clt T) (t : T) : Pc × Bool :=
  (s.pc t, s.asleep t)

section

variable [DecidableEq T]

theorem view_update {p : Pc} {z : Bool} (hself : s'.pc t = p ∧ s'.asleep t = z)
    (hother : ∀ u, u ≠ t → s'.pc u = s.pc u ∧ s'.asleep u = s.asleep u) :
    s'.view = Function.update s.view t (p, z) := by
  funext u
  by_cases hut : u = t
  · subst hut
    rw [Function.update_self, Clt.view, hself.1, hself.2]
  · rw [Function.update_of_ne hut, Clt.view, (hother u hut).1, (hother u hut).2]
    rfl

end

section

variable [Fintype T]

def Clt.left (s : Clt T) : ℕ :=
  total Pc.weight s.view

theorem left_le (s : Clt T) : s.left ≤ 10 * Fintype.card T := by
  have hle : ∀ t ∈ Finset.univ, Pc.weight (s.view t) ≤ 10 := by
    intro t _
    unfold Pc.weight
    split <;> (try omega)
    split <;> omega
  calc
    s.left ≤ ∑ _t : T, 10 := Finset.sum_le_sum hle
    _ = Fintype.card T * 10 := Finset.sum_const_nat fun _ _ => rfl
    _ = 10 * Fintype.card T := Nat.mul_comm _ _

theorem view_congr (hpc : s'.pc = s.pc) (hasleep : s'.asleep = s.asleep) : s'.left = s.left := by
  have hview : s'.view = s.view := by
    funext u
    rw [Clt.view, Clt.view, hpc, hasleep]
  rw [Clt.left, Clt.left, hview]

variable [DecidableEq T]

/-- The thread `t` changes to `v`. -/
theorem left_update {v : Pc × Bool} (hview : s'.view = Function.update s.view t v) :
    s'.left + Pc.weight (s.view t) = s.left + Pc.weight v := by
  rw [Clt.left, hview]
  exact total_update Pc.weight s.view t v

/-- A thread moves on to a place with `k` steps less. -/
theorem left_setPc {p : Pc} {z : Bool} {k : ℕ} (hself : s'.pc t = p ∧ s'.asleep t = z)
    (hother : ∀ u, u ≠ t → s'.pc u = s.pc u ∧ s'.asleep u = s.asleep u)
    (hle : Pc.weight (p, z) + k ≤ Pc.weight (s.view t)) : s'.left + k ≤ s.left := by
  have hupdate := left_update (view_update hself hother)
  omega

/-- Once `destroy_wait_` is set, all steps of threads in the object lead out of it. -/
theorem left_of_inner {a : Act T} (h : Called s) (hwait : s.destroyWait = true)
    (hmove : Move retrans s a s') (ha : a.isInner = true) : s'.left < s.left := by
  have hdone : ∀ {t xid ch}, s.pc t = .waiting xid ch → s.done t ≠ none := by
    intro t xid ch ht hnone
    have hd := (h.thread t).failed hwait (by rw [ht]; exact Option.some_ne_none _)
    rw [hnone] at hd
    cases hd
  have hother : ∀ {t : T} {p : Pc}, ∀ u, u ≠ t →
      Function.update s.pc t p u = s.pc u ∧ s.asleep u = s.asleep u :=
    fun u hu => ⟨Function.update_of_ne hu _ _, rfl⟩
  cases hmove with
  | @connect t new xid ch last s₁ r ht hfresh _ =>
      rcases freshChan_frame hfresh with ⟨H, next, chan, rfl⟩
      refine left_setPc (t := t) (k := 1) ⟨Function.update_self .., rfl⟩ hother ?_
      simp [Pc.weight, Clt.view, ht]
  | @sent t xid ch last ht =>
      refine left_setPc (t := t) (k := 1) ⟨Function.update_self .., rfl⟩ hother ?_
      cases last <;> simp [Pc.weight, Clt.view, ht]
  | @ready t xid ch ht _ _ =>
      refine left_setPc (t := t) (k := 1) ⟨Function.update_self .., rfl⟩ hother ?_
      simp [Pc.weight, Clt.view, ht]
  | sleep ht hnone => exact absurd hnone (hdone ht)
  | @timeout t last xid ch p ht hp =>
      rcases hp with rfl | ⟨hnone, -⟩
      · refine left_setPc (t := t) (k := 1) ⟨Function.update_self .., Function.update_self ..⟩
          (fun u hu => ⟨Function.update_of_ne hu _ _, Function.update_of_ne hu _ _⟩) ?_
        simp [Pc.weight, Clt.view, ht]
      · exact absurd hnone (hdone ht)
  | @erase t xid ch ht _ =>
      refine left_setPc (t := t) (k := 1) ⟨Function.update_self .., rfl⟩ hother ?_
      simp [Pc.weight, Clt.view, ht]
  | @signal t u xid ch ht hne hu =>
      -- the erased entry counts two, the thread that is woken one
      have herased : ({ s.setPc t (.erased ch) with calls := s.calls.erase xid } : Clt T).view =
          Function.update s.view t (.erased ch, s.asleep t) :=
        view_update ⟨Function.update_self .., rfl⟩ hother
      have hfirst := left_update herased
      have hcancelling : ({ s.setPc t (.erased ch) with
          calls := s.calls.erase xid
          asleep := Function.update s.asleep u false } : Clt T).view =
          Function.update ({ s.setPc t (.erased ch) with calls := s.calls.erase xid } :
            Clt T).view u (.cancelling, false) :=
        view_update ⟨(Function.update_of_ne hne _ _).trans hu.1, Function.update_self ..⟩
          (fun v hv => ⟨rfl, Function.update_of_ne hv _ _⟩)
      have hwoken := left_update hcancelling
      rw [show Pc.weight (s.view t) = 4 by simp [Pc.weight, Clt.view, ht],
        show Pc.weight (Pc.erased ch, s.asleep t) = 2 from rfl] at hfirst
      rw [show Pc.weight (Pc.cancelling, false) = 1 from rfl] at hwoken
      omega
  | @leave t ch H ht _ =>
      refine left_setPc (t := t) (k := 1) ⟨Function.update_self .., rfl⟩ hother ?_
      simp [Pc.weight, Clt.view, ht]
  | @recancel t ht _ hawake =>
      refine left_setPc (t := t) (k := 1) ⟨Function.update_self .., Function.update_self ..⟩
        (fun u hu => ⟨Function.update_of_ne hu _ _, Function.update_of_ne hu _ _⟩) ?_
      simp [Pc.weight, Clt.view, ht, hawake]
  | @cancelled t ht _ hawake =>
      refine left_setPc (t := t) (k := 1) ⟨Function.update_self .., rfl⟩ hother ?_
      simp [Pc.weight, Clt.view, ht, hawake]
  | _ => cases ha

/-- The others change nothing. -/
theorem left_of_outer {a : Act T} (h : Called s) (hwait : s.destroyWait = true)
    (hmove : Move retrans s a s') (ha : a.isInner = false) (hspur : ∀ t, a ≠ .spurious t)
    (hcancel : ∀ t, a ≠ .cancel t) : s'.left ≤ s.left := by
  cases hmove with
  | @refused t r ht _ =>
      exact left_setPc (k := 0) (p := .out cancelFailure) (z := s.asleep t)
        ⟨Function.update_self .., rfl⟩ (fun u hu => ⟨Function.update_of_ne hu _ _, rfl⟩)
        (Nat.zero_le _)
  | call _ _ hfree =>
      rw [hwait] at hfree
      cases hfree
  | unknown => exact Nat.le_refl _
  | @gotPdu xid ret u hu =>
      -- a caller is not in `cancel`, so it does not matter whether it is asleep
      have hxid := (h.caller xid u).1 hu
      have hsame : Pc.weight (s.pc u, false) = Pc.weight (s.view u) := by
        unfold Clt.view
        cases hpc : s.pc u with
        | cancelling =>
            rw [hpc] at hxid
            cases hxid
        | _ => rfl
      exact left_setPc (k := 0) (p := s.pc u) (z := false) ⟨rfl, Function.update_self ..⟩
        (fun v hv => ⟨rfl, Function.update_of_ne hv _ _⟩) hsame.le
  | cancel | cancelIdle => exact absurd rfl (hcancel _)
  | spurious => exact absurd rfl (hspur _)
  | die | destroy => exact (view_congr rfl rfl).le
  | _ => cases ha

/-- Some thread in the object can go on: the one in `cancel` itself, or a caller, which is awake. -/
theorem Single.inner_isSome (h : Single s) (ht : s.pc t = .cancelling) (retrans : Bool) :
    ∃ a, Act.isInner a = true ∧ (step retrans s a).isSome = true := by
  cases hasleep : s.asleep t with
  | false => exact ⟨.cancelCheck t, rfl, by simp [step, Clt.cancelCheck, ht, hasleep]⟩
  | true =>
      have hwait := (h.called.thread t).waited ht
      have hsize := h.served t ⟨ht, hasleep⟩
      -- a call is left over
      have hne : s.calls.values ≠ [] := by
        intro hnil
        have hlen : s.calls.values.length = s.calls.size := List.length_map ..
        rw [hnil, List.length_nil] at hlen
        omega
      rcases List.exists_mem_of_ne_nil _ hne with ⟨u, hu⟩
      rcases OrderedMap.mem_values_iff.1 hu with ⟨x, hx⟩
      have hxid := (h.called.caller x u).1 hx
      cases hpc : s.pc u with
      | transmit xid ch last => exact ⟨.connect u none, rfl, h.held.connect_isSome hpc none⟩
      | sending xid ch last => exact ⟨.sent u, rfl, h.held.sent_isSome hpc⟩
      | waiting xid ch =>
          have hdone := (h.called.thread u).failed hwait (by rw [hxid]; exact Option.some_ne_none x)
          have hawake : s.asleep u = false := by
            refine (h.called.thread u).awake (by simp [hpc]) fun _ hnone => ?_
            rw [hnone] at hdone
            cases hdone
          exact ⟨.check u, rfl, by simp [step, Clt.check, hpc, hawake, hdone]⟩
      | leaving xid ch =>
          have hdoze : ({ s.setPc u (.erased ch) with calls := s.calls.erase xid } :
              Clt T).Dozing t := by
            refine (dozing_setPc hpc).2 ⟨?_, ht, hasleep⟩
            rintro rfl
            rw [ht] at hpc
            cases hpc
          refine ⟨.erase u (some t), rfl, ?_⟩
          simp only [step, Clt.erase, hpc, Clt.signal]
          rw [if_pos ⟨hwait, hdoze⟩]
          rfl
      | out r =>
          rw [hpc] at hxid
          cases hxid
      | erased ch =>
          rw [hpc] at hxid
          cases hxid
      | cancelling =>
          rw [hpc] at hxid
          cases hxid

/-- No wait ends without a signal. -/
def Signalled (s : Clt T) (a : Act T) : Prop :=
  Sole s a ∧ ∀ t, a ≠ .spurious t

instance (s : Clt T) (a : Act T) : Decidable (FreshXid s a) :=
  match a with
  | .call _ => inferInstanceAs (Decidable (s.calls.lookup s.xid = none))
  | .connect _ _ | .sent _ | .check _ | .timeout _ _ | .erase _ _ | .leave _ | .gotPdu _ _
  | .cancel _ | .cancelCheck _ | .spurious _ | .die _ | .destroy => isTrue trivial

instance (s : Clt T) (a : Act T) : Decidable (Sole s a) :=
  inferInstanceAs (Decidable (FreshXid s a ∧ ∀ t, a = .cancel t → ∀ u, s.pc u ≠ .cancelling))

instance (s : Clt T) (a : Act T) : Decidable (Signalled s a) :=
  inferInstanceAs (Decidable (Sole s a ∧ ∀ t, a ≠ .spurious t))

/-- A step with a thread in `cancel`: it is still there and less is left to do, or it has returned
with `calls_` empty. -/
theorem Single.cancel_step {a : Act T} (h : Single s) (ht : s.pc t = .cancelling)
    (hok : Signalled s a) (hmove : Move retrans s a s') :
    (s'.pc t = .out 0 ∧ s'.calls.size = 0) ∨
      (s'.pc t = .cancelling ∧ s'.left + (if a.isInner then 1 else 0) ≤ s.left) := by
  have hwait := (h.called.thread t).waited ht
  have hleft : s'.left + (if a.isInner then 1 else 0) ≤ s.left := by
    cases hin : a.isInner with
    | true =>
        have hlt := left_of_inner h.called hwait hmove hin
        rw [if_pos rfl]
        omega
    | false =>
        have hle := left_of_outer h.called hwait hmove hin hok.2
          fun u ha => hok.1.2 u ha t ht
        simpa using hle
  have hkeep : ∀ {u : T} {p : Pc}, s.pc u ≠ .cancelling →
      Function.update s.pc u p t = .cancelling := by
    intro u p hu
    have hne : t ≠ u := by
      rintro rfl
      exact hu ht
    rw [Function.update_of_ne hne]
    exact ht
  cases hmove with
  | refused hu | call hu => exact Or.inr ⟨hkeep (by simp [hu]), hleft⟩
  | connect hu hfresh =>
      rcases freshChan_frame hfresh with ⟨H, next, chan, rfl⟩
      exact Or.inr ⟨hkeep (by simp [hu]), hleft⟩
  | sent hu | ready hu | timeout hu | erase hu | signal hu | leave hu | cancel hu | cancelIdle hu =>
      exact Or.inr ⟨hkeep (by simp [hu]), hleft⟩
  | recancel hu =>
      rw [h.one _ t hu ht] at hleft ⊢
      exact Or.inr ⟨Function.update_self .., hleft⟩
  | cancelled hu hsize =>
      rw [h.one _ t hu ht]
      exact Or.inl ⟨Function.update_self .., hsize⟩
  | _ => exact Or.inr ⟨ht, hleft⟩

/-- Along a run the thread returns, or few steps are made. -/
theorem returned_or_counted : ∀ (as : List (Act T)) {s s' : Clt T}, Single s →
    s.pc t = .cancelling → runFrom (step retrans) Signalled s as = some s' →
    (∃ as₁ as₂ s₁, as = as₁ ++ as₂ ∧ runFrom (step retrans) Signalled s as₁ = some s₁ ∧
      s₁.pc t = .out 0 ∧ s₁.calls.size = 0) ∨ as.countP Act.isInner ≤ s.left
  | [], s, s', _, _, _ => Or.inr (Nat.zero_le _)
  | a :: as, s, s', h, ht, hrun => by
      rcases runFrom_cons hrun with ⟨hok, m, hst, hrest⟩
      have hmove := move_of_step hst
      have hfirst : ∀ as₁, runFrom (step retrans) Signalled s (a :: as₁) =
          runFrom (step retrans) Signalled m as₁ := by
        intro as₁
        rw [runFrom, if_pos hok, hst]
      rcases h.cancel_step ht hok hmove with hret | ⟨hpc, hleft⟩
      · exact Or.inl ⟨[a], as, m, rfl, hfirst [], hret⟩
      · rcases returned_or_counted as (h.move hok.1 hmove) hpc hrest with
          ⟨as₁, as₂, s₁, rfl, hrun₁, hret⟩ | hcount
        · exact Or.inl ⟨a :: as₁, as₂, s₁, rfl, (hfirst as₁).trans hrun₁, hret⟩
        · refine Or.inr ?_
          rw [List.countP_cons]
          omega

end

/-! ## Two threads in `cancel` -/

theorem Called.xid_eq_none (h : Called s) (hsize : s.calls.size = 0) (v : T) :
    (s.pc v).xid = none := by
  cases hx : (s.pc v).xid with
  | none => rfl
  | some x =>
      have hmem : v ∈ s.calls.values := OrderedMap.mem_values_iff.2 ⟨x, (h.caller x v).2 hx⟩
      have hpos : 0 < s.calls.values.length := List.length_pos_of_mem hmem
      have hlen : s.calls.values.length = s.calls.size := List.length_map ..
      omega

variable [DecidableEq T]

theorem Clt.Dozing.of_ne {u : T} (hu : s.Dozing u) {p : Pc} (hne : u ≠ t) {z : T → Bool}
    (hz : z u = s.asleep u) : Function.update s.pc t p u = .cancelling ∧ z u = true :=
  ⟨(Function.update_of_ne hne _ _).trans hu.1, hz.trans hu.2⟩

/-- With `calls_` empty there is nobody left who would signal. -/
theorem Called.dozing_move {a : Act T} {u : T} (h : Called s) (hu : s.Dozing u)
    (hsize : s.calls.size = 0) (hmove : Move retrans s a s') (ha : a ≠ .spurious u) :
    s'.Dozing u ∧ s'.calls.size = 0 := by
  have hgone : ∀ {v : T} {p : Pc} {x : ℕ}, s.pc v = p → p.xid ≠ some x := by
    rintro v p x rfl hx
    rw [h.xid_eq_none hsize v] at hx
    cases hx
  have hne : ∀ {v : T}, s.pc v ≠ .cancelling → u ≠ v := by
    rintro v hv rfl
    exact hv hu.1
  cases hmove with
  | refused ht => exact ⟨hu.of_ne (hne (by simp [ht])) rfl, hsize⟩
  | call _ _ hfree =>
      rw [(h.thread u).waited hu.1] at hfree
      cases hfree
  | connect ht | sent ht | ready ht | sleep ht | timeout ht | erase ht | signal ht =>
      exact absurd rfl (hgone ht)
  | leave ht => exact ⟨hu.of_ne (hne (by simp [ht])) rfl, hsize⟩
  | unknown => exact ⟨hu, hsize⟩
  | gotPdu hv => exact absurd ((h.caller _ _).1 hv) (hgone rfl)
  | cancel _ _ hpos => omega
  | cancelIdle ht =>
      refine ⟨hu.of_ne (s := s) (hne (by simp [ht])) (if_neg fun hmem => ?_), hsize⟩
      rcases OrderedMap.mem_values_iff.1 hmem with ⟨x, hx⟩
      exact hgone rfl ((h.caller x u).1 hx)
  | recancel _ hpos => omega
  | @cancelled t _ _ hawake =>
      have hut : u ≠ t := by
        rintro rfl
        rw [hu.2] at hawake
        cases hawake
      exact ⟨hu.of_ne hut rfl, hsize⟩
  | @spurious v =>
      have huv : u ≠ v := by
        rintro rfl
        exact ha rfl
      exact ⟨⟨hu.1, (Function.update_of_ne huv _ _).trans hu.2⟩, hsize⟩
  | die | destroy => exact ⟨hu, hsize⟩

end Steps

variable [DecidableEq T] [Fintype T]

theorem called_of_reach {retrans : Bool} {s : Clt T}
    (h : Reach (fun s => s = Clt.init) (step retrans) FreshXid s) : Called s := by
  refine Reach.invariant (I := Called) ?_ (fun _ _ _ hs hok hst => hs.move hok (move_of_step hst)) h
  rintro s rfl
  exact called_init

/-! ## Results -/

/-- A thread in `cancel`, with no other one there.  All callers are done and awake, some thread in
the object can make a step, and by the time they have made more than `10 * n` steps, with `n`
threads, `cancel` has returned with `calls_` empty. -/
theorem cancel_returns (retrans : Bool) (s : Clt T) (t : T)
    (h : Reach (fun s => s = Clt.init) (step retrans) Sole s) (ht : s.pc t = .cancelling) :
    (∀ u x, (s.pc u).xid = some x → (s.done u).isSome = true ∧ s.asleep u = false) ∧
    (∃ a, Act.isInner a = true ∧ (step retrans s a).isSome = true) ∧
    ∀ as s', runFrom (step retrans) Signalled s as = some s' →
      10 * Fintype.card T < as.countP Act.isInner →
      ∃ as₁ as₂ s₁, as = as₁ ++ as₂ ∧ runFrom (step retrans) Signalled s as₁ = some s₁ ∧
        s₁.pc t = .out 0 ∧ s₁.calls.size = 0 := by
  have hsingle := single_of_reach h
  refine ⟨fun u x hx => ?_, hsingle.inner_isSome ht retrans, fun as s' hrun hcount => ?_⟩
  · have hwait := (hsingle.called.thread t).waited ht
    have hdone := (hsingle.called.thread u).failed hwait (by rw [hx]; exact Option.some_ne_none x)
    refine ⟨hdone, (hsingle.called.thread u).awake ?_ fun _ hnone => ?_⟩
    · intro hpc
      rw [hpc] at hx
      cases hx
    · rw [hnone] at hdone
      cases hdone
  · rcases returned_or_counted as hsingle ht hrun with hret | hle
    · exact hret
    · have hbound := left_le s
      omega

/-- A call waits for its reply and is cancelled. -/
def cancelledCall : List (Act Bool) :=
  [.call false, .connect false (some (5, 0, 0)), .sent false, .check false, .cancel true]

theorem cancel_returns_cancelledCall :
    ∃ s : Clt Bool, Reach (fun s => s = Clt.init) (step true) Sole s ∧ s.pc true = .cancelling ∧
      s.asleep true = true ∧ ∃ a, Act.isInner a = true ∧ (step true s a).isSome = true := by
  have hrun : ∃ s : Clt Bool, Reach (fun s => s = Clt.init) (step true) Sole s ∧
      (s.pc true = .cancelling ∧ s.asleep true = true) :=
    Reach.exists_of_runFrom cancelledCall rfl (by decide +kernel)
  rcases hrun with ⟨s, hs, hpc, hasleep⟩
  exact ⟨s, hs, hpc, hasleep, (cancel_returns true s true hs hpc).2.1⟩

/-- A thread that sleeps in `cancel` when `calls_` is empty, and is not woken without a signal:
it stays there, all further calls are refused, and the object is never ready for its destructor. -/
theorem second_cancel_stranded (retrans : Bool) (s s' : Clt T) (u : T)
    (h : Reach (fun s => s = Clt.init) (step retrans) FreshXid s) (hu : s.Dozing u)
    (hsize : s.calls.size = 0)
    (hlater : Reach (fun x => x = s) (step retrans)
      (fun s a => FreshXid s a ∧ a ≠ .spurious u) s') :
    s'.Dozing u ∧ s'.calls.size = 0 ∧
      (∀ v m, step retrans s' (.call v) = some m → m = s'.setPc v (.out cancelFailure)) ∧
      step retrans s' .destroy = none := by
  have hkept : Called s' ∧ s'.Dozing u ∧ s'.calls.size = 0 := by
    refine Reach.invariant (I := fun x => Called x ∧ x.Dozing u ∧ x.calls.size = 0)
      ?_ (fun x a y hx hok hst => ?_) hlater
    · rintro x rfl
      exact ⟨called_of_reach h, hu, hsize⟩
    · have hmove := move_of_step hst
      exact ⟨hx.1.move hok.1 hmove, hx.1.dozing_move hx.2.1 hx.2.2 hmove hok.2⟩
  rcases hkept with ⟨hcalled, hdoze, hempty⟩
  have hwait := (hcalled.thread u).waited hdoze.1
  refine ⟨hdoze, hempty, fun v m hm => ?_, ?_⟩
  · cases move_of_step hm with
    | refused => rfl
    | call _ _ hfree =>
        rw [hwait] at hfree
        cases hfree
  · refine if_neg fun hout => ?_
    have hpc := hout.1 u
    rw [hdoze.1] at hpc
    cases hpc

/-- Two threads cancel the same call; it wakes the first one. -/
def cancelledTwice : List (Act (Option Bool)) :=
  [.call none, .cancel (some false), .cancel (some true), .connect none none, .sent none,
    .check none, .erase none (some (some false)), .cancelCheck (some false), .leave none]

theorem second_cancel_stranded_cancelledTwice :
    ∃ s : Clt (Option Bool), Reach (fun s => s = Clt.init) (step true) FreshXid s ∧
      s.Dozing (some true) ∧ s.calls.size = 0 ∧ s.pc (some false) = .out 0 ∧
      s.pc none = .out cancelFailure ∧ step true s .destroy = none := by
  have hrun : ∃ s : Clt (Option Bool), Reach (fun s => s = Clt.init) (step true) FreshXid s ∧
      (s.Dozing (some true) ∧ s.calls.size = 0 ∧ s.pc (some false) = .out 0 ∧
        s.pc none = .out cancelFailure) :=
    Reach.exists_of_runFrom cancelledTwice rfl (by decide +kernel)
  rcases hrun with ⟨s, hs, hdoze, hsize, hfirst, hcall⟩
  exact ⟨s, hs, hdoze, hsize, hfirst, hcall,
    (second_cancel_stranded true s s (some true) hs hdoze hsize (.start rfl)).2.2.2⟩

end Calling
end Rpc
end Yfs

import Mathlib.Data.List.Count
import Yfs.Lib.Weight
import Yfs.Rpc.ThrPool

/-!
# Shutdown — the destructor of the pool loses no job

* `Queued` — the queue holds the jobs that were accepted and not started, in their order, and
  behind them the pills; what is still to come of the pills, those in the queue and the workers
  that have exited add up;
* `Numbered`, `Ran` — every call is accepted or refused once, and every job that was started is
  running or has run;
* `Joined` — the workers that were joined have exited;
* `Awake` — no signal is lost: as long as a worker waits there are enough others that are about to
  look at the queue, and the destructor waits only for room.

The last one makes the destructor return: every step but a wake-up without a signal lowers
`Pool.weight`, and until it has returned there is one.  A pool without workers has no limit, no
pills and nobody who would run a job.
-/

namespace Yfs
namespace Rpc

open Lib

variable {n : ℕ} {C : Type}

/-- 1 for a worker in the given place. -/
def Worker.at (p st : Worker) : ℕ :=
  if st = p then 1 else 0

/-- The pills that the destructor has put in the queue. -/
def Dtor.pills (n : ℕ) : Dtor → ℕ
  | .notStarted => 0
  | .enq i => i
  | .waiting i => i
  | .join _ => n
  | .returned => n

/-- The workers that the destructor has joined. -/
def Dtor.joined (n : ℕ) : Dtor → ℕ
  | .join i => i
  | .returned => n
  | _ => 0

/-- What is left to do for a worker; to look at the queue in vain is something too. -/
def Worker.weight : Worker → ℕ
  | .idle => 1
  | .waiting => 0
  | .running _ => 2
  | .exited => 0

/-- What is left to do for the destructor, with what its pills still cause. -/
def Dtor.weight (n : ℕ) : Dtor → ℕ
  | .notStarted => 0
  | .enq i => 5 * (n - i) + n + 3
  | .waiting i => 5 * (n - i) + n + 2
  | .join i => n - i + 1
  | .returned => 0

/-- The call that the thread is in. -/
def PoolCaller.call : PoolCaller → Option ℕ
  | .idle => none
  | .trying id => some id
  | .waiting id => some id

namespace Pool

variable {s s' : Pool n C}

/-- The number of workers in the given place. -/
def count (p : Worker) (f : Fin n → Worker) : ℕ :=
  total (Worker.at p) f

theorem count_update (p : Worker) (f : Fin n → Worker) (w : Fin n) (q : Worker) :
    count p (Function.update f w q) + Worker.at p (f w) = count p f + Worker.at p q :=
  total_update _ _ _ _

theorem count_update_of_ne {p : Worker} {f : Fin n → Worker} {w : Fin n} {q : Worker}
    (hold : f w ≠ p) (hnew : q ≠ p) : count p (Function.update f w q) = count p f := by
  have hcount := count_update p f w q
  rwa [Worker.at, if_neg hold, Worker.at, if_neg hnew] at hcount

theorem count_wakes {p : Worker} {f f' : Fin n → Worker} (h : Wakes f f') (hwaiting : p ≠ .waiting)
    (hidle : p ≠ .idle) : count p f' = count p f := by
  rcases h with ⟨w, hw, rfl⟩ | ⟨-, rfl⟩
  · exact count_update_of_ne (by rw [hw]; exact hwaiting.symm) hidle.symm
  · rfl

theorem count_eq_zero {p : Worker} {f : Fin n → Worker} (h : ∀ w, f w ≠ p) : count p f = 0 := by
  unfold count total
  exact Finset.sum_eq_zero fun w _ => if_neg (h w)

theorem count_eq_card {p : Worker} {f : Fin n → Worker} (h : ∀ w, f w = p) : count p f = n := by
  have hone : ∀ w, Worker.at p (f w) = 1 := fun w => if_pos (h w)
  simp [count, total, hone]

theorem eq_of_card_le {p : Worker} {f : Fin n → Worker} (h : n ≤ count p f) (w : Fin n) :
    f w = p := by
  by_contra hw
  have hle : ∀ v, Worker.at p (f v) ≤ 1 := fun v => by
    unfold Worker.at
    split <;> omega
  have hlt : count p f < ∑ _v : Fin n, 1 :=
    Finset.sum_lt_sum (fun v _ => hle v)
      ⟨w, Finset.mem_univ w, by rw [Worker.at, if_neg hw]; decide⟩
  simp at hlt
  omega

/-! ## The queue -/

structure Queued (s : Pool n C) : Prop where
  shape : ∃ jobs k, s.queue = jobs.map some ++ List.replicate k none ∧
    s.accepted = s.started ++ jobs ∧ k + count .exited s.workers = s.dtor.pills n ∧
    (0 < count .exited s.workers → jobs = [])
  callers : s.dtor ≠ .notStarted → ∀ c, s.callers c = .idle
  le : s.dtor.pills n ≤ n

theorem Queued.notStarted (hs : s.Queued) {c : C} {q : PoolCaller} (hc : s.callers c = q)
    (hq : q ≠ .idle) : s.dtor = .notStarted := by
  by_contra hdtor
  exact hq (hc.symm.trans (hs.callers hdtor c))

/-- Nothing of the queue changes, and the callers only move before the destructor starts. -/
theorem Queued.same (hs : s.Queued) (hqueue : s'.queue = s.queue)
    (haccepted : s'.accepted = s.accepted) (hstarted : s'.started = s.started)
    (hexited : count .exited s'.workers = count .exited s.workers)
    (hpills : s'.dtor.pills n = s.dtor.pills n)
    (hcallers : s'.dtor ≠ .notStarted → ∀ c, s'.callers c = .idle) : s'.Queued where
  shape := by
    rw [hqueue, haccepted, hstarted, hexited, hpills]
    exact hs.shape
  callers := hcallers
  le := by
    rw [hpills]
    exact hs.le

/-- A job is accepted.  No pill is in the queue yet, so it goes behind the other jobs. -/
theorem Queued.accept {c : C} {id : ℕ} {f : Fin n → Worker} (hs : s.Queued)
    (hc : s.callers c = .trying id) (hf : Wakes s.workers f)
    (hqueue : s'.queue = s.queue ++ [some id]) (haccepted : s'.accepted = s.accepted ++ [id])
    (hstarted : s'.started = s.started) (hworkers : s'.workers = f)
    (hdtor' : s'.dtor = s.dtor) : s'.Queued := by
  have hdtor := hs.notStarted hc (by simp)
  obtain ⟨jobs, k, hold, haccepted', hpills, -⟩ := hs.shape
  have hexited := count_wakes hf (p := .exited) (fun h => nomatch h) fun h => nomatch h
  rw [hdtor] at hpills
  obtain ⟨rfl, hzero⟩ : k = 0 ∧ count .exited s.workers = 0 := Nat.add_eq_zero_iff.mp hpills
  refine ⟨⟨jobs ++ [id], 0, ?_, ?_, ?_, ?_⟩, fun h => absurd (hdtor'.trans hdtor) h, ?_⟩
  · rw [hqueue, hold]
    simp
  · rw [haccepted, haccepted', hstarted, List.append_assoc]
  · rw [hworkers, hexited, hzero, hdtor', hdtor]
    rfl
  · rw [hworkers, hexited]
    intro hpos
    omega
  · rw [hdtor']
    exact hs.le

/-- The destructor puts a pill in the queue. -/
theorem Queued.push {i : ℕ} {f : Fin n → Worker} (hs : s.Queued) (hdtor : s.dtor = .enq i)
    (hi : i < n) (hf : Wakes s.workers f) :
    Queued { s with workers := f, queue := s.queue ++ [none], dtor := .enq (i + 1) } := by
  obtain ⟨jobs, k, hqueue, haccepted, hpills, hjobs⟩ := hs.shape
  have hexited := count_wakes hf (p := .exited) (fun h => nomatch h) fun h => nomatch h
  rw [hdtor] at hpills
  have hpills' : k + count .exited s.workers = i := hpills
  refine ⟨⟨jobs, k + 1, ?_, haccepted, ?_, ?_⟩, fun _ => hs.callers (by simp [hdtor]), hi⟩
  · show s.queue ++ [none] = _
    rw [hqueue, List.append_assoc, List.replicate_succ']
  · show k + 1 + count .exited f = i + 1
    omega
  · show 0 < count .exited f → jobs = []
    rw [hexited]
    exact hjobs

/-- The destructor goes on without touching the queue. -/
theorem Queued.goOn {p q : Dtor} (hs : s.Queued) (hdtor : s.dtor = p) (hp : p ≠ .notStarted)
    (hpills : q.pills n = p.pills n) : Queued { s with dtor := q } :=
  hs.same rfl rfl rfl rfl (by rw [hdtor]; exact hpills) fun _ => hs.callers (by rwa [hdtor])

section

variable [DecidableEq C]

theorem Spaces.pills {callers : C → PoolCaller} {dtor : Dtor} (h : Spaces s callers dtor) :
    dtor.pills n = s.dtor.pills n := by
  cases h with
  | dtor hi => rw [hi]; rfl
  | _ => rfl

theorem Spaces.callers (hs : s.Queued) {callers : C → PoolCaller} {dtor : Dtor}
    (h : Spaces s callers dtor) (hdtor : dtor ≠ .notStarted) : ∀ c, callers c = .idle := by
  cases h with
  | caller hc => exact absurd (hs.notStarted hc (by simp)) hdtor
  | dtor hi => exact hs.callers (by simp [hi])
  | nobody _ _ | enough _ _ => exact hs.callers hdtor

/-- The head of the queue is taken: a job, or a pill when there are no jobs. -/
theorem Queued.take {w : Fin n} {j : Option ℕ} {rest : List (Option ℕ)} {callers : C → PoolCaller}
    {dtor : Dtor} (hs : s.Queued) (hw : s.workers w = .idle) (hq : s.queue = j :: rest)
    (hspace : Spaces s callers dtor) :
    Queued { s.dequeued w rest j with callers := callers, dtor := dtor } := by
  obtain ⟨jobs, k, hqueue, haccepted, hpills, hjobs⟩ := hs.shape
  have hle : dtor.pills n ≤ n := by
    rw [hspace.pills]
    exact hs.le
  rw [hq] at hqueue
  cases jobs with
  | cons id jobs =>
      obtain ⟨rfl, rfl⟩ := List.cons.inj hqueue
      have hexited : count .exited (Function.update s.workers w (.running id)) =
          count .exited s.workers :=
        count_update_of_ne (by simp [hw]) fun h => nomatch h
      refine ⟨⟨jobs, k, rfl, ?_, ?_, ?_⟩, hspace.callers hs, hle⟩
      · show s.accepted = (s.started ++ [id]) ++ jobs
        rw [haccepted, List.append_assoc]
        rfl
      · show k + count .exited (Function.update s.workers w (.running id)) = dtor.pills n
        rw [hexited, hspace.pills]
        exact hpills
      · intro hpos
        have hpos' : 0 < count .exited (Function.update s.workers w (.running id)) := hpos
        rw [hexited] at hpos'
        exact nomatch hjobs hpos'
  | nil =>
      cases k with
      | zero => exact nomatch hqueue
      | succ k =>
          obtain ⟨rfl, rfl⟩ := List.cons.inj hqueue
          refine ⟨⟨[], k, rfl, haccepted, ?_, fun _ => rfl⟩, hspace.callers hs, hle⟩
          show k + count .exited (Function.update s.workers w .exited) = dtor.pills n
          have hcount := count_update .exited s.workers w .exited
          rw [hw, Worker.at, if_neg (fun h => nomatch h), Worker.at, if_pos rfl] at hcount
          rw [hspace.pills]
          omega

theorem Queued.move (hs : s.Queued) (hmove : Move s s') : s'.Queued := by
  cases hmove with
  | call hc hdtor => exact hs.same rfl rfl rfl rfl rfl fun h => absurd hdtor h
  | block hc _ =>
      have hdtor := hs.notStarted hc (by simp)
      exact hs.same rfl rfl rfl rfl rfl fun h => absurd hdtor h
  | refuse hc _ =>
      have hdtor := hs.notStarted hc (by simp)
      exact hs.same rfl rfl rfl rfl rfl fun h => absurd hdtor h
  | accept hc _ hf => exact hs.accept hc hf rfl rfl rfl rfl rfl
  | sleep hw _ =>
      refine hs.same rfl rfl rfl ?_ rfl hs.callers
      exact count_update_of_ne (by simp [hw]) fun h => nomatch h
  | take hw hq hspace => exact hs.take hw hq hspace
  | complete hw =>
      refine hs.same rfl rfl rfl ?_ rfl hs.callers
      exact count_update_of_ne (by simp [hw]) fun h => nomatch h
  | begin hdtor hidle => exact hs.same rfl rfl rfl rfl (by rw [hdtor]; rfl) fun _ => hidle
  | wait hdtor _ _ => exact hs.goOn hdtor (by simp) rfl
  | push hdtor hi _ hf => exact hs.push hdtor hi hf
  | pushed hdtor hi =>
      have hle := hs.le
      rw [hdtor] at hle
      exact hs.goOn hdtor (by simp) (Nat.le_antisymm hi hle)
  | joined _ hdtor _ | finish hdtor _ => exact hs.goOn hdtor (by simp) rfl

theorem Queued.wake (hs : s.Queued) (hwake : Wake s s') : s'.Queued := by
  cases hwake with
  | worker hw =>
      refine hs.same rfl rfl rfl ?_ rfl hs.callers
      exact count_update_of_ne (by simp [hw]) fun h => nomatch h
  | caller hc =>
      have hdtor := hs.notStarted hc (by simp)
      exact hs.same rfl rfl rfl rfl rfl fun h => absurd hdtor h
  | dtor hdtor =>
      refine hs.same rfl rfl rfl rfl (by rw [hdtor]; rfl) fun _ => hs.callers ?_
      simp [hdtor]

end

/-! ## Calls and jobs -/

structure Numbered (s : Pool n C) : Prop where
  nodup : (s.accepted ++ s.refused).Nodup
  lt : ∀ id ∈ s.accepted ++ s.refused, id < s.calls
  caller : ∀ c id, (s.callers c).call = some id → id < s.calls ∧ id ∉ s.accepted ++ s.refused
  distinct : ∀ c c' id, (s.callers c).call = some id → (s.callers c').call = some id → c = c'

/-- No thread is in another call than before. -/
theorem Numbered.same (hs : s.Numbered) (haccepted : s'.accepted = s.accepted)
    (hrefused : s'.refused = s.refused) (hcalls : s'.calls = s.calls)
    (hcallers : ∀ c, (s'.callers c).call = (s.callers c).call) : s'.Numbered where
  nodup := by rw [haccepted, hrefused]; exact hs.nodup
  lt := by rw [haccepted, hrefused, hcalls]; exact hs.lt
  caller c id := by rw [haccepted, hrefused, hcalls, hcallers]; exact hs.caller c id
  distinct c c' id := by rw [hcallers, hcallers]; exact hs.distinct c c' id

/-- What was started is running or has run, and a worker has taken a pill when it has exited. -/
structure Ran (s : Pool n C) : Prop where
  started : ∀ id, s.started.count id = s.done.count id + count (.running id) s.workers
  pills : ∀ w, s.pills w = Worker.at .exited (s.workers w)

/-- A worker wakes up or falls asleep. -/
theorem Ran.same (hs : s.Ran) (hstarted : s'.started = s.started) (hdone : s'.done = s.done)
    (hpills : s'.pills = s.pills)
    (hcount : ∀ id, count (.running id) s'.workers = count (.running id) s.workers)
    (hexited : ∀ w, Worker.at .exited (s'.workers w) = Worker.at .exited (s.workers w)) :
    s'.Ran where
  started id := by rw [hstarted, hdone, hcount]; exact hs.started id
  pills w := by rw [hpills, hexited]; exact hs.pills w

theorem at_update_of_ne {p q : Worker} {f : Fin n → Worker} {w : Fin n} (hold : f w ≠ p)
    (hnew : q ≠ p) (v : Fin n) : Worker.at p (Function.update f w q v) = Worker.at p (f v) := by
  by_cases hv : v = w
  · rw [hv, Function.update_self, Worker.at, Worker.at, if_neg hold, if_neg hnew]
  · rw [Function.update_of_ne hv]

theorem at_running (i id : ℕ) : Worker.at (.running i) (.running id) = [id].count i := by
  by_cases h : id = i
  · subst h
    simp [Worker.at]
  · rw [Worker.at, if_neg fun heq => h (Worker.running.inj heq), List.count_singleton]
    simp [h]

theorem at_running_idle (i : ℕ) : Worker.at (.running i) .idle = 0 :=
  if_neg (by simp)

/-- A worker begins a job or ends it: what was started and what is done change with it. -/
theorem Ran.switch {w : Fin n} {after : Worker} (hs : s.Ran) (hbefore : s.workers w ≠ .exited)
    (hafter : after ≠ .exited) (hworkers : s'.workers = Function.update s.workers w after)
    (hpills : s'.pills = s.pills)
    (hcount : ∀ i, s'.started.count i + (s.done.count i + Worker.at (.running i) (s.workers w)) =
      s'.done.count i + (s.started.count i + Worker.at (.running i) after)) : s'.Ran where
  started i := by
    have hupdate := count_update (.running i) s.workers w after
    have hold := hs.started i
    have hnew := hcount i
    rw [hworkers]
    omega
  pills v := by
    rw [hpills, hworkers, at_update_of_ne hbefore hafter]
    exact hs.pills v

theorem Ran.take {w : Fin n} {j : Option ℕ} {rest : List (Option ℕ)} {callers : C → PoolCaller}
    {dtor : Dtor} (hs : s.Ran) (hw : s.workers w = .idle) :
    Ran { s.dequeued w rest j with callers := callers, dtor := dtor } := by
  cases j with
  | some id =>
      refine hs.switch (w := w) (by simp [hw]) (by simp) rfl rfl fun i => ?_
      show (s.started ++ [id]).count i + (s.done.count i + _) = s.done.count i + _
      rw [hw, at_running_idle, at_running, List.count_append]
      omega
  | none =>
      refine ⟨fun i => ?_, fun v => ?_⟩
      · show s.started.count i =
          s.done.count i + count (.running i) (Function.update s.workers w .exited)
        rw [count_update_of_ne (by simp [hw]) (by simp)]
        exact hs.started i
      · show Function.update s.pills w (s.pills w + 1) v =
          Worker.at .exited (Function.update s.workers w .exited v)
        by_cases hv : v = w
        · subst hv
          rw [Function.update_self, Function.update_self, hs.pills v, hw]
          rfl
        · rw [Function.update_of_ne hv, Function.update_of_ne hv]
          exact hs.pills v

section

variable [DecidableEq C]

theorem call_update {f : C → PoolCaller} {c : C} {q : PoolCaller} (h : q.call = (f c).call)
    (c' : C) : (Function.update f c q c').call = (f c').call := by
  by_cases hc : c' = c
  · rw [hc, Function.update_self, h]
  · rw [Function.update_of_ne hc]

/-- A call is over: its number joins the accepted or the refused ones. -/
theorem Numbered.decide {c : C} {id : ℕ} (hs : s.Numbered) (hc : s.callers c = .trying id)
    (hcallers : s'.callers = Function.update s.callers c .idle) (hcalls : s'.calls = s.calls)
    (hperm : (s'.accepted ++ s'.refused).Perm (id :: (s.accepted ++ s.refused))) :
    s'.Numbered := by
  have hid := hs.caller c id (by rw [hc]; rfl)
  have hmem : ∀ i, i ∈ s'.accepted ++ s'.refused ↔ i = id ∨ i ∈ s.accepted ++ s.refused := by
    intro i
    rw [hperm.mem_iff, List.mem_cons]
  -- the other callers are in other calls
  have hback : ∀ c' i, (s'.callers c').call = some i → (s.callers c').call = some i ∧ i ≠ id := by
    intro c' i hi
    rw [hcallers] at hi
    by_cases hc' : c' = c
    · rw [hc', Function.update_self] at hi
      exact nomatch hi
    · rw [Function.update_of_ne hc'] at hi
      refine ⟨hi, ?_⟩
      rintro rfl
      exact hc' (hs.distinct c' c i hi (by rw [hc]; rfl))
  constructor
  · exact hperm.nodup_iff.mpr (List.nodup_cons.mpr ⟨hid.2, hs.nodup⟩)
  · intro i hi
    rw [hcalls]
    rcases (hmem i).1 hi with rfl | hi
    · exact hid.1
    · exact hs.lt i hi
  · intro c' i hi
    rcases hback c' i hi with ⟨hi, hne⟩
    rw [hcalls, hmem]
    have hold := hs.caller c' i hi
    exact ⟨hold.1, fun h => h.elim hne hold.2⟩
  · intro c' c'' i hi hi'
    exact hs.distinct c' c'' i (hback c' i hi).1 (hback c'' i hi').1

theorem Spaces.call {callers : C → PoolCaller} {dtor : Dtor} (h : Spaces s callers dtor) (c : C) :
    (callers c).call = (s.callers c).call := by
  cases h with
  | caller hc => exact call_update (by rw [hc]; rfl) c
  | _ => rfl

theorem Numbered.move (hs : s.Numbered) (hmove : Move s s') : s'.Numbered := by
  cases hmove with
  | @call c hc _ =>
      -- the new number is larger than all before
      have hback : ∀ c' i, (Function.update s.callers c (.trying s.calls) c').call = some i →
          (c' = c ∧ i = s.calls) ∨ (s.callers c').call = some i := by
        intro c' i hi
        by_cases hc' : c' = c
        · rw [hc', Function.update_self] at hi
          exact .inl ⟨hc', (Option.some.inj hi).symm⟩
        · rw [Function.update_of_ne hc'] at hi
          exact .inr hi
      refine ⟨hs.nodup, fun i hi => Nat.lt_succ_of_lt (hs.lt i hi), fun c' i hi => ?_,
        fun c' c'' i hi hi' => ?_⟩
      · rcases hback c' i hi with ⟨-, rfl⟩ | hi
        · exact ⟨Nat.lt_succ_self _, fun hmem => Nat.lt_irrefl _ (hs.lt _ hmem)⟩
        · exact ⟨Nat.lt_succ_of_lt (hs.caller c' i hi).1, (hs.caller c' i hi).2⟩
      · rcases hback c' i hi with ⟨rfl, rfl⟩ | hold
        · rcases hback c'' _ hi' with ⟨rfl, -⟩ | hold'
          · rfl
          · exact absurd (hs.caller c'' _ hold').1 (Nat.lt_irrefl _)
        · rcases hback c'' i hi' with ⟨rfl, rfl⟩ | hold'
          · exact absurd (hs.caller c' _ hold).1 (Nat.lt_irrefl _)
          · exact hs.distinct c' c'' i hold hold'
  | block hc _ => exact hs.same rfl rfl rfl (call_update (by rw [hc]; rfl))
  | @refuse c id hc _ =>
      refine hs.decide hc rfl rfl ?_
      show (s.accepted ++ (s.refused ++ [id])).Perm (id :: (s.accepted ++ s.refused))
      rw [← List.append_assoc]
      exact List.perm_append_singleton _ _
  | @accept c id f hc _ _ =>
      refine hs.decide hc rfl rfl ?_
      show ((s.accepted ++ [id]) ++ s.refused).Perm (id :: (s.accepted ++ s.refused))
      rw [List.append_assoc]
      exact List.perm_middle
  | sleep _ _ => exact hs.same rfl rfl rfl fun _ => rfl
  | @take w j rest _ _ _ _ hspace => cases j <;> exact hs.same rfl rfl rfl hspace.call
  | complete _ | begin _ _ | wait _ _ _ | push _ _ _ _ | pushed _ _ | joined _ _ _ | finish _ _ =>
      exact hs.same rfl rfl rfl fun _ => rfl

theorem Numbered.wake (hs : s.Numbered) (hwake : Wake s s') : s'.Numbered := by
  cases hwake with
  | worker _ => exact hs.same rfl rfl rfl fun _ => rfl
  | caller hc => exact hs.same rfl rfl rfl (call_update (by rw [hc]; rfl))
  | dtor _ => exact hs.same rfl rfl rfl fun _ => rfl

theorem at_wakes {p : Worker} {f f' : Fin n → Worker} (h : Wakes f f') (hwaiting : p ≠ .waiting)
    (hidle : p ≠ .idle) (v : Fin n) : Worker.at p (f' v) = Worker.at p (f v) := by
  rcases h with ⟨w, hw, rfl⟩ | ⟨-, rfl⟩
  · exact at_update_of_ne (by rw [hw]; exact hwaiting.symm) hidle.symm v
  · rfl

theorem Ran.move (hs : s.Ran) (hmove : Move s s') : s'.Ran := by
  cases hmove with
  | accept _ _ hf =>
      exact hs.same rfl rfl rfl (fun id => count_wakes hf (by simp) (by simp))
        (at_wakes hf (by simp) (by simp))
  | sleep hw _ =>
      exact hs.same rfl rfl rfl (fun id => count_update_of_ne (by simp [hw]) (by simp))
        (at_update_of_ne (by simp [hw]) (by simp))
  | take hw _ _ => exact hs.take hw
  | @complete w id hw =>
      refine hs.switch (w := w) (by simp [hw]) (by simp) rfl rfl fun i => ?_
      show s.started.count i + _ = (s.done ++ [id]).count i + _
      rw [hw, at_running_idle, at_running, List.count_append]
      omega
  | push _ _ _ hf =>
      exact hs.same rfl rfl rfl (fun id => count_wakes hf (by simp) (by simp))
        (at_wakes hf (by simp) (by simp))
  | call _ _ | block _ _ | refuse _ _ | begin _ _ | wait _ _ _ | pushed _ _ | joined _ _ _
  | finish _ _ => exact hs.same rfl rfl rfl (fun _ => rfl) fun _ => rfl

theorem Ran.wake (hs : s.Ran) (hwake : Wake s s') : s'.Ran := by
  cases hwake with
  | worker hw =>
      exact hs.same rfl rfl rfl (fun id => count_update_of_ne (by simp [hw]) (by simp))
        (at_update_of_ne (by simp [hw]) (by simp))
  | caller _ | dtor _ => exact hs.same rfl rfl rfl (fun _ => rfl) fun _ => rfl

end

/-! ## Workers that have exited -/

def Joined (s : Pool n C) : Prop :=
  ∀ w : Fin n, (w : ℕ) < s.dtor.joined n → s.workers w = .exited

theorem exited_update {f : Fin n → Worker} {w v : Fin n} {q : Worker} (hw : f w ≠ .exited)
    (h : f v = .exited) : Function.update f w q v = .exited := by
  have hne : v ≠ w := by
    rintro rfl
    exact hw h
  rwa [Function.update_of_ne hne]

theorem exited_wakes {f f' : Fin n → Worker} (hf : Wakes f f') {v : Fin n} (h : f v = .exited) :
    f' v = .exited := by
  rcases hf with ⟨w, hw, rfl⟩ | ⟨-, rfl⟩
  · exact exited_update (by simp [hw]) h
  · exact h

section

variable [DecidableEq C]

theorem exited_move (hmove : Move s s') {v : Fin n} (h : s.workers v = .exited) :
    s'.workers v = .exited := by
  cases hmove with
  | accept _ _ hf => exact exited_wakes hf h
  | sleep hw _ => exact exited_update (by simp [hw]) h
  | @take w j rest _ _ hw _ _ =>
      cases j with
      | some id | none => exact exited_update (by simp [hw]) h
  | complete hw => exact exited_update (by simp [hw]) h
  | push _ _ _ hf => exact exited_wakes hf h
  | _ => exact h

theorem Spaces.joined {callers : C → PoolCaller} {dtor : Dtor} (h : Spaces s callers dtor) :
    dtor.joined n = s.dtor.joined n := by
  cases h with
  | dtor hi => rw [hi]; rfl
  | _ => rfl

theorem Joined.move (hs : s.Joined) (hmove : Move s s') : s'.Joined := by
  -- who has exited stays so; only `joined` and `finish` raise the bound
  have hkeep : s'.dtor.joined n ≤ s.dtor.joined n → s'.Joined := fun hle w hw =>
    exited_move hmove (hs w (Nat.lt_of_lt_of_le hw hle))
  cases hmove with
  | @take w j _ _ _ _ _ hspace =>
      refine hkeep (Nat.le_of_eq ?_)
      cases j <;> exact hspace.joined
  | begin _ _ | wait _ _ _ | push _ _ _ _ | pushed _ _ => exact hkeep (Nat.zero_le _)
  | @joined i h hdtor hexited =>
      intro w hw
      rcases Nat.lt_or_eq_of_le (Nat.le_of_lt_succ hw) with hlt | heq
      · exact hs w (by rw [hdtor]; exact hlt)
      · obtain rfl : w = ⟨i, h⟩ := Fin.ext heq
        exact hexited
  | @finish i hdtor hi =>
      intro w _
      exact hs w (by rw [hdtor]; exact Nat.lt_of_lt_of_le w.isLt hi)
  | _ => exact hkeep (Nat.le_refl _)

theorem Joined.wake (hs : s.Joined) (hwake : Wake s s') : s'.Joined := by
  cases hwake with
  | worker hw => exact fun v hv => exited_update (by simp [hw]) (hs v hv)
  | caller _ => exact hs
  | dtor _ => exact fun w hw => absurd hw (Nat.not_lt_zero _)

end

/-! ## No signal is lost -/

/-- Somebody waits for a job only if there are others for all entries of the queue, and the
destructor for space only if there is none. -/
structure Awake (s : Pool n C) : Prop where
  worker : ∀ w, s.workers w = .waiting → s.queue.length ≤ count .idle s.workers
  dtor : ∀ i, s.dtor = .waiting i → i < n ∧ s.full

theorem waiting_of_update {f : Fin n → Worker} {w v : Fin n} {q : Worker} (hq : q ≠ .waiting)
    (h : Function.update f w q v = .waiting) : f v = .waiting := by
  by_cases hv : v = w
  · rw [hv, Function.update_self] at h
    exact absurd h hq
  · rwa [Function.update_of_ne hv] at h

/-- One more in the queue, and one more who will look at it if there is somebody to wake. -/
theorem awake_of_wakes {f f' : Fin n → Worker} {len : ℕ} (hf : Wakes f f')
    (h : ∀ w, f w = .waiting → len ≤ count .idle f) {w : Fin n} (hw : f' w = .waiting) :
    len + 1 ≤ count .idle f' := by
  rcases hf with ⟨v, hv, rfl⟩ | ⟨hnone, rfl⟩
  · have hcount := count_update .idle f v .idle
    rw [hv, Worker.at, if_neg (fun h => nomatch h), Worker.at, if_pos rfl] at hcount
    have hle := h v hv
    omega
  · exact absurd hw (hnone w)

/-- A worker goes to look at the queue. -/
theorem Awake.look {w : Fin n} {p : Worker} (hs : s.Awake) (hw : s.workers w = p) (hp : p ≠ .idle)
    (hworkers : s'.workers = Function.update s.workers w .idle) (hqueue : s'.queue = s.queue)
    (hdtor : s'.dtor = s.dtor) : s'.Awake := by
  refine ⟨fun v hv => ?_, fun i hi => ?_⟩
  · rw [hworkers] at hv
    have hle := hs.worker v (waiting_of_update (by simp) hv)
    have hcount := count_update .idle s.workers w .idle
    rw [hw, Worker.at, if_neg hp] at hcount
    rw [hqueue, hworkers]
    omega
  · rw [full, hqueue]
    exact hs.dtor i (hdtor ▸ hi)

section

variable [DecidableEq C]

theorem Awake.take {w : Fin n} {j : Option ℕ} {rest : List (Option ℕ)} {callers : C → PoolCaller}
    {dtor : Dtor} (hq' : s.Queued) (hs : s.Awake) (hw : s.workers w = .idle)
    (hq : s.queue = j :: rest) (hspace : Spaces s callers dtor) :
    Awake { s.dequeued w rest j with callers := callers, dtor := dtor } := by
  have hworker : ∀ q : Worker, q ≠ .waiting → q ≠ .idle → ∀ v,
      Function.update s.workers w q v = .waiting →
        rest.length ≤ count .idle (Function.update s.workers w q) := by
    intro q hwaiting hidle v hv
    have hle := hs.worker v (waiting_of_update hwaiting hv)
    have hcount := count_update .idle s.workers w q
    rw [hw, Worker.at, if_pos rfl, Worker.at, if_neg hidle] at hcount
    rw [hq, List.length_cons] at hle
    omega
  have hdtor : ∀ i, dtor = .waiting i → i < n ∧ poolMax n ≠ 0 ∧ poolMax n ≤ rest.length := by
    intro i hi
    cases hspace with
    | caller hc =>
        have hnot := hq'.notStarted hc (by simp)
        exact nomatch hnot.symm.trans hi
    | dtor _ => exact nomatch hi
    | nobody _ hno =>
        rw [hi] at hno
        exact nomatch hno
    | enough hq₁ henough =>
        -- the destructor goes on waiting only while there is no room
        obtain ⟨rfl, rfl⟩ := List.cons.inj (hq.symm.trans hq₁)
        have hold := hs.dtor i hi
        refine ⟨hold.1, hold.2.1, ?_⟩
        by_contra hlt
        exact henough ⟨hold.2.1, Nat.not_le.mp hlt⟩
  cases j with
  | some id => exact ⟨hworker (.running id) (by simp) (by simp), hdtor⟩
  | none => exact ⟨hworker .exited (by simp) (by simp), hdtor⟩

theorem Awake.move (hq : s.Queued) (hs : s.Awake) (hmove : Move s s') : s'.Awake := by
  cases hmove with
  | call _ _ | block _ _ | refuse _ _ => exact ⟨hs.worker, hs.dtor⟩
  | @accept c id f hc _ hf =>
      refine ⟨fun w hw => ?_, fun i hi => ?_⟩
      · show (s.queue ++ [some id]).length ≤ count .idle f
        rw [List.length_append]
        exact awake_of_wakes hf hs.worker hw
      · exact nomatch (hq.notStarted hc (by simp)).symm.trans hi
  | sleep _ hempty =>
      refine ⟨fun w _ => ?_, hs.dtor⟩
      show s.queue.length ≤ _
      rw [hempty]
      exact Nat.zero_le _
  | take hw hq₁ hspace => exact Awake.take hq hs hw hq₁ hspace
  | complete hw => exact hs.look hw (by simp) rfl rfl rfl
  | begin _ _ => exact ⟨hs.worker, fun i hi => nomatch hi⟩
  | wait _ hi hfull =>
      refine ⟨hs.worker, fun i' hi' => ?_⟩
      obtain rfl := Dtor.waiting.inj hi'
      exact ⟨hi, hfull⟩
  | @push i f hdtor _ _ hf =>
      refine ⟨fun w hw => ?_, fun i' hi' => nomatch hi'⟩
      show (s.queue ++ [none]).length ≤ count .idle f
      rw [List.length_append]
      exact awake_of_wakes hf hs.worker hw
  | pushed _ _ | joined _ _ _ | finish _ _ => exact ⟨hs.worker, fun i hi => nomatch hi⟩

theorem Awake.wake (hs : s.Awake) (hwake : Wake s s') : s'.Awake := by
  cases hwake with
  | worker hw => exact hs.look hw (by simp) rfl rfl rfl
  | caller _ => exact ⟨hs.worker, hs.dtor⟩
  | dtor _ => exact ⟨hs.worker, fun i hi => nomatch hi⟩

end

/-! ## The destructor returns -/

def weight (s : Pool n C) : ℕ :=
  s.dtor.weight n + 3 * s.queue.length + total Worker.weight s.workers

/-- A worker goes from `p` to `q`. -/
theorem total_weight_update {f : Fin n → Worker} {w : Fin n} {p : Worker} (hw : f w = p)
    (q : Worker) :
    total Worker.weight (Function.update f w q) + p.weight = total Worker.weight f + q.weight := by
  rw [← hw]
  exact total_update Worker.weight f w q

theorem total_weight_wakes {f f' : Fin n → Worker} (h : Wakes f f') :
    total Worker.weight f' ≤ total Worker.weight f + 1 := by
  rcases h with ⟨w, hw, rfl⟩ | ⟨-, rfl⟩
  · have htotal := total_weight_update hw .idle
    simp only [Worker.weight] at htotal
    omega
  · exact Nat.le_succ _

section

variable [DecidableEq C]

theorem Spaces.weight {callers : C → PoolCaller} {dtor : Dtor} (h : Spaces s callers dtor) :
    dtor.weight n ≤ s.dtor.weight n + 1 := by
  cases h with
  | dtor hi => rw [hi, Dtor.weight, Dtor.weight]
  | _ => exact Nat.le_succ _

/-- Once the destructor has started every step lowers the weight. -/
theorem weight_move (hq : s.Queued) (hstart : s.dtor ≠ .notStarted) (hmove : Move s s') :
    s'.weight < s.weight := by
  have hcallers := hq.callers hstart
  cases hmove with
  | call _ hdtor => exact absurd hdtor hstart
  | block hc _ | refuse hc _ | accept hc _ _ => exact nomatch (hcallers _).symm.trans hc
  | sleep hw _ =>
      have htotal := total_weight_update hw .waiting
      simp only [weight, Worker.weight] at htotal ⊢
      omega
  | @take w j rest callers dtor hw hq₁ hspace =>
      -- the entry weighs three: one for the worker, one for the destructor that may wake up, and
      -- one is lost
      have hdtor := hspace.weight
      cases j with
      | some id =>
          have htotal := total_weight_update hw (.running id)
          simp only [weight, Worker.weight, dequeued, hq₁, List.length_cons] at htotal ⊢
          omega
      | none =>
          have htotal := total_weight_update hw .exited
          simp only [weight, Worker.weight, dequeued, hq₁, List.length_cons] at htotal ⊢
          omega
  | complete hw =>
      have htotal := total_weight_update hw .idle
      simp only [weight, Worker.weight] at htotal ⊢
      omega
  | begin hdtor _ => exact absurd hdtor hstart
  | wait hdtor _ _ =>
      simp only [weight, hdtor, Dtor.weight]
      omega
  | @push i f hdtor hi _ hf =>
      have htotal := total_weight_wakes hf
      simp only [weight, hdtor, Dtor.weight, List.length_append, List.length_singleton]
      omega
  | pushed hdtor _ =>
      simp only [weight, hdtor, Dtor.weight]
      omega
  | joined _ hdtor _ =>
      simp only [weight, hdtor, Dtor.weight]
      omega
  | finish hdtor _ =>
      simp only [weight, hdtor, Dtor.weight]
      omega

end

/-! Until the destructor has returned there is a step. -/

variable {blocking : Bool}

theorem exists_signalWork (s : Pool n C) : ∃ w s', s.signalWork w = some s' := by
  by_cases h : ∀ w, s.workers w ≠ .waiting
  · exact ⟨none, s, if_pos h⟩
  · obtain ⟨w, hw⟩ := not_forall.mp h
    exact ⟨some w, _, if_pos (not_not.mp hw)⟩

/-- If one of them waits then the queue is empty. -/
theorem Awake.queue_eq_nil (hs : s.Awake)
    (hasleep : ∀ w, s.workers w = .waiting ∨ s.workers w = .exited) {w : Fin n}
    (hw : s.workers w = .waiting) : s.queue = [] := by
  have hidle : count .idle s.workers = 0 := by
    refine count_eq_zero fun v hv => ?_
    rcases hasleep v with h | h <;> exact nomatch hv.symm.trans h
  have hle := hs.worker w hw
  rw [hidle] at hle
  exact List.eq_nil_of_length_eq_zero (Nat.le_zero.mp hle)

section

variable [DecidableEq C] [Fintype C]

/-- A step that does not need a wake-up without a signal. -/
def CanMove (blocking : Bool) (s : Pool n C) : Prop :=
  ∃ a : PoolAction n C, a.signalled = true ∧ ∃ s', poolStep blocking s a = some s'

theorem exists_signalSpace (s : Pool n C) : ∃ sig s', s.signalSpace sig = some s' := by
  by_cases hc : ∃ c id, s.callers c = .waiting id
  · obtain ⟨c, id, hc⟩ := hc
    exact ⟨.caller c, _, by rw [signalSpace, hc]⟩
  · by_cases hd : ∃ i, s.dtor = .waiting i
    · obtain ⟨i, hi⟩ := hd
      exact ⟨.dtor, _, by rw [signalSpace, hi]⟩
    · refine ⟨.nobody, s, if_pos ⟨fun c => ?_, ?_⟩⟩
      · cases h : s.callers c with
        | waiting id => exact absurd ⟨c, id, h⟩ hc
        | idle | trying id => rfl
      · cases h : s.dtor with
        | waiting i => exact absurd ⟨i, h⟩ hd
        | _ => rfl

theorem canMove_of_idle {w : Fin n} (hw : s.workers w = .idle) : s.CanMove blocking := by
  cases hq : s.queue with
  | nil => exact ⟨.takeJob w .nobody, rfl, _, by simp [poolStep, takeJob, hw, hq]; rfl⟩
  | cons j rest =>
      by_cases hroom : poolMax n ≠ 0 ∧ rest.length < poolMax n
      · obtain ⟨sig, s', hsig⟩ := exists_signalSpace (s.dequeued w rest j)
        refine ⟨.takeJob w sig, rfl, s', ?_⟩
        simp only [poolStep, takeJob, hw, hq]
        rw [if_pos hroom]
        exact hsig
      · refine ⟨.takeJob w .nobody, rfl, s.dequeued w rest j, ?_⟩
        simp only [poolStep, takeJob, hw, hq]
        rw [if_neg hroom]

theorem canMove_of_running {w : Fin n} {id : ℕ} (hw : s.workers w = .running id) :
    s.CanMove blocking :=
  ⟨.complete w, rfl, _, by simp [poolStep, Pool.complete, hw]; rfl⟩

/-- Every worker waits or has exited, or there is a step. -/
theorem canMove_or_asleep (blocking : Bool) (s : Pool n C) :
    s.CanMove blocking ∨ ∀ w, s.workers w = .waiting ∨ s.workers w = .exited := by
  by_cases h : ∀ w, s.workers w = .waiting ∨ s.workers w = .exited
  · exact .inr h
  · obtain ⟨w, hw⟩ := not_forall.mp h
    refine .inl ?_
    cases hst : s.workers w with
    | idle => exact canMove_of_idle hst
    | running id => exact canMove_of_running hst
    | waiting => exact absurd (.inl hst) hw
    | exited => exact absurd (.inr hst) hw

theorem canMove (hq : s.Queued) (hs : s.Awake) (hstart : s.dtor ≠ .notStarted)
    (hreturned : s.dtor ≠ .returned) : s.CanMove blocking := by
  obtain ⟨jobs, k, hqueue, -, hpills, -⟩ := hq.shape
  rcases canMove_or_asleep blocking s with hmove | hasleep
  · exact hmove
  · cases hdtor : s.dtor with
    | notStarted => exact absurd hdtor hstart
    | returned => exact absurd hdtor hreturned
    | enq i =>
        by_cases hi : i < n
        · by_cases hfull : s.full
          · exact ⟨.destroy none, rfl, _, by simp [poolStep, destroy, hdtor, hi, hfull]; rfl⟩
          · obtain ⟨w, s', hsig⟩ :=
              exists_signalWork { s with queue := s.queue ++ [none], dtor := .enq (i + 1) }
            refine ⟨.destroy w, rfl, s', ?_⟩
            simp only [poolStep, destroy, hdtor]
            rw [if_pos hi, if_neg hfull]
            exact hsig
        · exact ⟨.destroy none, rfl, _, by simp [poolStep, destroy, hdtor, hi]; rfl⟩
    | waiting i =>
        -- the queue is full, so that nobody waits for a job; then all have exited, and before
        -- the last pill that cannot be
        have hwait := hs.dtor i hdtor
        have hexited : ∀ w, s.workers w = .exited := by
          intro w
          rcases hasleep w with hw | hw
          · have hnil := hs.queue_eq_nil hasleep hw
            have hfull := hwait.2
            rw [full, hnil, List.length_nil] at hfull
            exact absurd (Nat.le_zero.mp hfull.2) hfull.1
          · exact hw
        have hcard := count_eq_card hexited
        rw [hdtor] at hpills
        have hpills' : k + count .exited s.workers = i := hpills
        omega
    | join i =>
        by_cases hi : i < n
        · rcases hasleep ⟨i, hi⟩ with hw | hw
          · -- the queue is empty, so that every pill was taken
            have hnil := hs.queue_eq_nil hasleep hw
            rw [hnil] at hqueue
            have hk : k = 0 := by
              have hlen := congrArg List.length hqueue
              simp at hlen
              omega
            rw [hdtor, hk] at hpills
            have hall : n ≤ count .exited s.workers := by
              have hpills' : 0 + count .exited s.workers = n := hpills
              omega
            have hexited := eq_of_card_le hall ⟨i, hi⟩
            rw [hw] at hexited
            cases hexited
          · exact ⟨.destroy none, rfl, _, by simp [poolStep, destroy, hdtor, hi, hw]; rfl⟩
        · exact ⟨.destroy none, rfl, _, by simp [poolStep, destroy, hdtor, hi]; rfl⟩

end

/-! ## Runs -/

structure Sound (s : Pool n C) : Prop where
  queued : s.Queued
  numbered : s.Numbered
  ran : s.Ran
  joined : s.Joined
  awake : s.Awake

theorem sound_init : (init : Pool n C).Sound where
  queued := by
    have hzero : count .exited (init : Pool n C).workers = 0 :=
      count_eq_zero fun _ h => nomatch h
    exact ⟨⟨[], 0, rfl, rfl, by rw [hzero]; rfl, fun _ => rfl⟩, fun _ _ => rfl, Nat.zero_le _⟩
  numbered :=
    ⟨List.nodup_nil, fun _ h => (nomatch h), fun _ _ h => (nomatch h), fun _ _ _ h => nomatch h⟩
  ran := by
    refine ⟨fun id => ?_, fun _ => rfl⟩
    have hzero : count (.running id) (init : Pool n C).workers = 0 :=
      count_eq_zero fun _ h => nomatch h
    rw [hzero]
    rfl
  joined _ h := absurd h (Nat.not_lt_zero _)
  awake := ⟨fun _ h => (nomatch h), fun _ h => nomatch h⟩

/-- At the end the jobs have run that were accepted, and the queue is empty. -/
theorem Sound.returned (hs : s.Sound) (hn : 0 < n) (hreturned : s.dtor = .returned) :
    s.started = s.accepted ∧ s.done.Perm s.accepted ∧ s.queue = [] ∧
      ∀ w, s.workers w = .exited ∧ s.pills w = 1 := by
  have hexited : ∀ w, s.workers w = .exited := fun w => by
    refine hs.joined w ?_
    rw [hreturned]
    exact w.isLt
  have hcard := count_eq_card hexited
  obtain ⟨jobs, k, hqueue, haccepted, hpills, hjobs⟩ := hs.queued.shape
  rw [hreturned, hcard] at hpills
  have hk : k = 0 := by
    have hpills' : k + n = n := hpills
    omega
  -- some worker has exited, so that no job was left before its pill
  have hnil : jobs = [] := hjobs (by rw [hcard]; exact hn)
  subst hnil hk
  have hstarted : s.started = s.accepted := by rw [haccepted, List.append_nil]
  refine ⟨hstarted, ?_, hqueue, fun w => ⟨hexited w, ?_⟩⟩
  · rw [← hstarted]
    refine List.perm_iff_count.mpr fun id => ?_
    have hrunning : count (.running id) s.workers = 0 :=
      count_eq_zero fun w hw => nomatch (hexited w).symm.trans hw
    rw [hs.ran.started id, hrunning]
    rfl
  · rw [hs.ran.pills w, hexited w]
    rfl

variable [DecidableEq C]

/-- The destructor does not start anew. -/
theorem started_move (hstart : s.dtor ≠ .notStarted) (hmove : Move s s') :
    s'.dtor ≠ .notStarted := by
  cases hmove with
  | @take w j rest callers dtor _ _ hspace =>
      have hdtor : dtor ≠ .notStarted := by
        cases hspace with
        | dtor _ => exact fun h => nomatch h
        | _ => exact hstart
      cases j <;> exact hdtor
  | begin _ _ | wait _ _ _ | push _ _ _ _ | pushed _ _ | joined _ _ _ | finish _ _ =>
      exact fun h => nomatch h
  | _ => exact hstart

variable [Fintype C]

theorem Sound.step {a : PoolAction n C} (hs : s.Sound) (hstep : poolStep blocking s a = some s') :
    s'.Sound := by
  cases ha : a.signalled with
  | true =>
      have hmove := move_of_step ha hstep
      exact ⟨hs.queued.move hmove, hs.numbered.move hmove, hs.ran.move hmove,
        hs.joined.move hmove, hs.awake.move hs.queued hmove⟩
  | false =>
      have hwake := wake_of_step ha hstep
      exact ⟨hs.queued.wake hwake, hs.numbered.wake hwake, hs.ran.wake hwake,
        hs.joined.wake hwake, hs.awake.wake hwake⟩

theorem sound_of_reach (h : Reach PoolInit (poolStep blocking) anyStep s) : s.Sound := by
  refine Reach.invariant (I := Sound) ?_ (fun s a t hs _ hst => hs.step hst) h
  rintro s rfl
  exact sound_init

end Pool

variable [DecidableEq C] [Fintype C]

/-- A pool with at least one worker.  Jobs are started in the order in which they were accepted,
each call at most once and those that were refused never.  When the destructor has returned the
jobs that were accepted have run, once each, the queue is empty and every worker has exited on one
pill.  And once the destructor has started it returns: whatever the steps are, wake-ups without a
signal apart, there are at most `weight` of them, and where there is no next one it has
returned. -/
theorem shutdown_runs_all {blocking : Bool} (hn : 0 < n) {s : Pool n C}
    (h : Reach PoolInit (poolStep blocking) anyStep s) :
    (s.started <+: s.accepted ∧ s.accepted.Nodup ∧ ∀ id ∈ s.refused, id ∉ s.started) ∧
    (s.dtor = .returned → s.started = s.accepted ∧ s.done.Perm s.accepted ∧ s.queue = [] ∧
      ∀ w, s.workers w = .exited ∧ s.pills w = 1) ∧
    (s.dtor ≠ .notStarted → ∀ as t,
      runFrom (poolStep blocking) (fun _ a => a.signalled = true) s as = some t →
        as.length ≤ s.weight ∧ (t.dtor = .returned ∨ t.CanMove blocking)) := by
  have hs := Pool.sound_of_reach h
  refine ⟨⟨?_, ?_, ?_⟩, hs.returned hn, fun hstart as t hrun => ?_⟩
  · obtain ⟨jobs, k, -, haccepted, -, -⟩ := hs.queued.shape
    exact ⟨jobs, haccepted.symm⟩
  · exact (List.nodup_append.mp hs.numbered.nodup).1
  · intro id hrefused hstarted
    obtain ⟨jobs, k, -, haccepted, -, -⟩ := hs.queued.shape
    have hmem : id ∈ s.accepted := by
      rw [haccepted]
      exact List.mem_append_left _ hstarted
    exact (List.nodup_append.mp hs.numbered.nodup).2.2 id hmem id hrefused rfl
  · have hbound := length_le_of_runFrom (I := fun s => s.Sound ∧ s.dtor ≠ .notStarted)
      (m := Pool.weight) (fun s a t hI ha hst => ?_) as ⟨hs, hstart⟩ hrun
    · refine ⟨Nat.le_of_add_right_le hbound.2, ?_⟩
      by_cases hreturned : t.dtor = .returned
      · exact .inl hreturned
      · exact .inr (Pool.canMove hbound.1.1.queued hbound.1.1.awake hbound.1.2 hreturned)
    · have hmove := Pool.move_of_step ha hst
      exact ⟨⟨hI.1.step hst, Pool.started_move hI.2 hmove⟩,
        Pool.weight_move hI.1.queued hI.2 hmove⟩

/-- One worker and two jobs; the worker waits in between. -/
theorem shutdown_runs_all_two :
    ∃ s : Pool 1 (Fin 1), Reach PoolInit (poolStep false) anyStep s ∧ s.dtor = .returned ∧
      s.accepted = [0, 1] ∧ s.started = s.accepted ∧ s.done.Perm s.accepted ∧ s.queue = [] ∧
      ∀ w, s.workers w = .exited ∧ s.pills w = 1 := by
  obtain ⟨s, hreach, hdtor, haccepted⟩ :
      ∃ s : Pool 1 (Fin 1), Reach PoolInit (poolStep false) anyStep s ∧ s.dtor = .returned ∧
        s.accepted = [0, 1] :=
    Reach.exists_of_runFrom
      (P := fun s : Pool 1 (Fin 1) => s.dtor = .returned ∧ s.accepted = [0, 1])
      [.addJob 0, .takeJob 0 .nobody, .enq 0 (some 0), .addJob 0, .enq 0 none,
        .takeJob 0 .nobody, .destroy none, .complete 0, .takeJob 0 .nobody, .complete 0,
        .takeJob 0 .nobody, .destroy (some 0), .destroy none, .takeJob 0 .nobody, .destroy none,
        .destroy none] rfl (by decide +kernel)
  exact ⟨s, hreach, hdtor, haccepted, (shutdown_runs_all (by decide) hreach).2.1 hdtor⟩

/-- A pool without workers accepts a job, and its destructor returns without having run it. -/
theorem empty_pool_loses_job :
    ∃ s : Pool 0 (Fin 1), Reach PoolInit (poolStep false) anyStep s ∧ s.dtor = .returned ∧
      s.accepted = [0] ∧ s.started = [] ∧ s.queue = [some 0] :=
  Reach.exists_of_runFrom
    (P := fun s : Pool 0 (Fin 1) => s.dtor = .returned ∧ s.accepted = [0] ∧ s.started = [] ∧
      s.queue = [some 0])
    [.addJob 0, .enq 0 none, .destroy none, .destroy none, .destroy none] rfl (by decide +kernel)

end Rpc
end Yfs

import Mathlib.Data.Fintype.Basic
import Yfs.Lib.Run

/-!
# ThrPool — `thr_pool.cc` and `fifo.h`

A pool of `n` workers that take jobs from a bounded queue.  `addJob` puts a job in the queue, or
blocks or refuses it when the queue is full; the destructor puts one poison pill for each worker
there and then joins them.

A step is what happens between two points where a thread may lose the mutex of the queue.
`pthread_cond_signal` wakes one of the threads that wait, which one is part of the action, and
nobody only when nobody waits; the actions `wakeWorker`, `wakeCaller` and `wakeDtor` are the
wake-ups without a signal that POSIX allows.

Calls of `addJob` are numbered.  The destructor starts when no thread is in `addJob`, and nobody
calls `addJob` after that, as the comment on it demands.
-/

namespace Yfs
namespace Rpc

open Lib

inductive Worker
  /-- About to look at the queue. -/
  | idle
  /-- On `non_empty_c_`. -/
  | waiting
  | running (id : ℕ)
  | exited
  deriving DecidableEq, Repr

/-- A thread that calls `addJob`. -/
inductive PoolCaller
  | idle
  /-- About to look at the queue. -/
  | trying (id : ℕ)
  /-- On `has_space_c_`. -/
  | waiting (id : ℕ)
  deriving DecidableEq, Repr

inductive Dtor
  | notStarted
  /-- About to look whether there is room for the pill `i`. -/
  | enq (i : ℕ)
  /-- On `has_space_c_`, with the pill `i`. -/
  | waiting (i : ℕ)
  /-- About to join the worker `i`. -/
  | join (i : ℕ)
  | returned
  deriving DecidableEq, Repr

def PoolCaller.isWaiting : PoolCaller → Bool
  | .waiting _ => true
  | _ => false

def Dtor.isWaiting : Dtor → Bool
  | .waiting _ => true
  | _ => false

/-- In the queue `none` is a pill.  `accepted` and `refused` are the calls of `addJob` for which
`enq` returned `true` and `false`, `started` those that a worker has taken from the queue and
`done` those that have run; `pills` counts the pills that a worker has taken. -/
structure Pool (n : ℕ) (C : Type) where
  queue : List (Option ℕ)
  workers : Fin n → Worker
  callers : C → PoolCaller
  dtor : Dtor
  calls : ℕ
  accepted : List ℕ
  refused : List ℕ
  started : List ℕ
  done : List ℕ
  pills : Fin n → ℕ

/-- `jobq_(100 * sz)`, where `max_` is an `unsigned int`; 0 stands for no limit. -/
def poolMax (n : ℕ) : ℕ :=
  (100 * n) % 4294967296

/-- Whom `pthread_cond_signal(&has_space_c_)` wakes. -/
inductive SpaceSignal (C : Type)
  | nobody
  | caller (c : C)
  | dtor
  deriving DecidableEq, Repr

variable {n : ℕ} {C : Type}

namespace Pool

def init : Pool n C where
  queue := []
  workers _ := .idle
  callers _ := .idle
  dtor := .notStarted
  calls := 0
  accepted := []
  refused := []
  started := []
  done := []
  pills _ := 0

/-- The test of `enq`: `!max_ || q_.size() < max_` is false. -/
def full (s : Pool n C) : Prop :=
  poolMax n ≠ 0 ∧ poolMax n ≤ s.queue.length

variable [DecidableEq C] [Fintype C]

instance (s : Pool n C) : Decidable s.full :=
  inferInstanceAs (Decidable (poolMax n ≠ 0 ∧ poolMax n ≤ s.queue.length))

/-- `pthread_cond_signal(&non_empty_c_)`. -/
def signalWork (s : Pool n C) : Option (Fin n) → Option (Pool n C)
  | some w =>
      if s.workers w = .waiting then
        some { s with workers := Function.update s.workers w .idle }
      else
        none
  | none => if ∀ w, s.workers w ≠ .waiting then some s else none

/-- `pthread_cond_signal(&has_space_c_)`. -/
def signalSpace (s : Pool n C) : SpaceSignal C → Option (Pool n C)
  | .caller c =>
      match s.callers c with
      | .waiting id => some { s with callers := Function.update s.callers c (.trying id) }
      | _ => none
  | .dtor =>
      match s.dtor with
      | .waiting i => some { s with dtor := .enq i }
      | _ => none
  | .nobody =>
      if (∀ c, (s.callers c).isWaiting = false) ∧ s.dtor.isWaiting = false then
        some s
      else
        none

/-! ## addJob -/

def addJob (s : Pool n C) (c : C) : Option (Pool n C) :=
  match s.callers c, s.dtor with
  | .idle, .notStarted =>
      some
        { s with
          callers := Function.update s.callers c (.trying s.calls)
          calls := s.calls + 1 }
  | _, _ => none

/-- One pass of the loop in `enq`. -/
def enq (blocking : Bool) (s : Pool n C) (c : C) (w : Option (Fin n)) : Option (Pool n C) :=
  match s.callers c with
  | .trying id =>
      if s.full then
        if blocking then
          some { s with callers := Function.update s.callers c (.waiting id) }
        else
          some
            { s with
              callers := Function.update s.callers c .idle
              refused := s.refused ++ [id] }
      else
        signalWork
          { s with
            queue := s.queue ++ [some id]
            accepted := s.accepted ++ [id]
            callers := Function.update s.callers c .idle } w
  | _ => none

/-! ## Workers -/

/-- What a worker does with what it has dequeued: `takeJob` returns false for a pill. -/
def dequeued (s : Pool n C) (w : Fin n) (rest : List (Option ℕ)) : Option ℕ → Pool n C
  | some id =>
      { s with
        queue := rest
        workers := Function.update s.workers w (.running id)
        started := s.started ++ [id] }
  | none =>
      { s with
        queue := rest
        workers := Function.update s.workers w .exited
        pills := Function.update s.pills w (s.pills w + 1) }

/-- `takeJob`: one pass of the loop in `deq`. -/
def takeJob (s : Pool n C) (w : Fin n) (sig : SpaceSignal C) : Option (Pool n C) :=
  match s.workers w with
  | .idle =>
      match s.queue with
      | [] => some { s with workers := Function.update s.workers w .waiting }
      | j :: rest =>
          if poolMax n ≠ 0 ∧ rest.length < poolMax n then
            (s.dequeued w rest j).signalSpace sig
          else
            some (s.dequeued w rest j)
  | _ => none

def complete (s : Pool n C) (w : Fin n) : Option (Pool n C) :=
  match s.workers w with
  | .running id =>
      some
        { s with
          workers := Function.update s.workers w .idle
          done := s.done ++ [id] }
  | _ => none

/-! ## The destructor -/

def destroy (s : Pool n C) (w : Option (Fin n)) : Option (Pool n C) :=
  match s.dtor with
  | .notStarted =>
      if ∀ c, s.callers c = .idle then some { s with dtor := .enq 0 } else none
  | .enq i =>
      if i < n then
        if s.full then
          some { s with dtor := .waiting i }
        else
          signalWork { s with queue := s.queue ++ [none], dtor := .enq (i + 1) } w
      else
        some { s with dtor := .join 0 }
  | .waiting _ => none
  | .join i =>
      if h : i < n then
        if s.workers ⟨i, h⟩ = .exited then some { s with dtor := .join (i + 1) } else none
      else
        some { s with dtor := .returned }
  | .returned => none

/-! ## Wake-ups without a signal -/

def wakeWorker (s : Pool n C) (w : Fin n) : Option (Pool n C) :=
  if s.workers w = .waiting then
    some { s with workers := Function.update s.workers w .idle }
  else
    none

def wakeCaller (s : Pool n C) (c : C) : Option (Pool n C) :=
  match s.callers c with
  | .waiting id => some { s with callers := Function.update s.callers c (.trying id) }
  | _ => none

def wakeDtor (s : Pool n C) : Option (Pool n C) :=
  match s.dtor with
  | .waiting i => some { s with dtor := .enq i }
  | _ => none

end Pool

inductive PoolAction (n : ℕ) (C : Type)
  | addJob (c : C)
  | enq (c : C) (w : Option (Fin n))
  | takeJob (w : Fin n) (sig : SpaceSignal C)
  | complete (w : Fin n)
  | destroy (w : Option (Fin n))
  | wakeWorker (w : Fin n)
  | wakeCaller (c : C)
  | wakeDtor

section

variable [DecidableEq C] [Fintype C]

def poolStep (blocking : Bool) (s : Pool n C) : PoolAction n C → Option (Pool n C)
  | .addJob c => s.addJob c
  | .enq c w => s.enq blocking c w
  | .takeJob w sig => s.takeJob w sig
  | .complete w => s.complete w
  | .destroy w => s.destroy w
  | .wakeWorker w => s.wakeWorker w
  | .wakeCaller c => s.wakeCaller c
  | .wakeDtor => s.wakeDtor

/-- The action is not a wake-up without a signal. -/
def PoolAction.signalled : PoolAction n C → Bool
  | .wakeWorker _ => false
  | .wakeCaller _ => false
  | .wakeDtor => false
  | _ => true

def PoolInit (s : Pool n C) : Prop :=
  s = .init

end

/-! ## What a step can do -/

namespace Pool

/-- Who is woken when something was put in the queue. -/
def Wakes (f f' : Fin n → Worker) : Prop :=
  (∃ w, f w = .waiting ∧ f' = Function.update f w .idle) ∨ ((∀ w, f w ≠ .waiting) ∧ f' = f)

section

variable [DecidableEq C]

/-- What a signal for space does to the callers and the destructor. -/
inductive Spaces (s : Pool n C) : (C → PoolCaller) → Dtor → Prop
  | caller {c : C} {id : ℕ} : s.callers c = .waiting id →
      Spaces s (Function.update s.callers c (.trying id)) s.dtor
  | dtor {i : ℕ} : s.dtor = .waiting i → Spaces s s.callers (.enq i)
  | nobody : (∀ c, (s.callers c).isWaiting = false) → s.dtor.isWaiting = false →
      Spaces s s.callers s.dtor
  | enough {rest : List (Option ℕ)} {j : Option ℕ} : s.queue = j :: rest →
      ¬ (poolMax n ≠ 0 ∧ rest.length < poolMax n) → Spaces s s.callers s.dtor

inductive Move (s : Pool n C) : Pool n C → Prop
  | call {c : C} : s.callers c = .idle → s.dtor = .notStarted →
      Move s { s with
        callers := Function.update s.callers c (.trying s.calls)
        calls := s.calls + 1 }
  | block {c : C} {id : ℕ} : s.callers c = .trying id → s.full →
      Move s { s with callers := Function.update s.callers c (.waiting id) }
  | refuse {c : C} {id : ℕ} : s.callers c = .trying id → s.full →
      Move s { s with
        callers := Function.update s.callers c .idle
        refused := s.refused ++ [id] }
  | accept {c : C} {id : ℕ} {f : Fin n → Worker} : s.callers c = .trying id → ¬ s.full →
      Wakes s.workers f →
      Move s { s with
        queue := s.queue ++ [some id]
        accepted := s.accepted ++ [id]
        callers := Function.update s.callers c .idle
        workers := f }
  | sleep {w : Fin n} : s.workers w = .idle → s.queue = [] →
      Move s { s with workers := Function.update s.workers w .waiting }
  | take {w : Fin n} {j : Option ℕ} {rest : List (Option ℕ)} {callers : C → PoolCaller}
      {dtor : Dtor} :
      s.workers w = .idle → s.queue = j :: rest → Spaces s callers dtor →
      Move s { s.dequeued w rest j with callers := callers, dtor := dtor }
  | complete {w : Fin n} {id : ℕ} : s.workers w = .running id →
      Move s { s with
        workers := Function.update s.workers w .idle
        done := s.done ++ [id] }
  | begin : s.dtor = .notStarted → (∀ c, s.callers c = .idle) → Move s { s with dtor := .enq 0 }
  | wait {i : ℕ} : s.dtor = .enq i → i < n → s.full → Move s { s with dtor := .waiting i }
  | push {i : ℕ} {f : Fin n → Worker} : s.dtor = .enq i → i < n → ¬ s.full → Wakes s.workers f →
      Move s { s with queue := s.queue ++ [none], dtor := .enq (i + 1), workers := f }
  | pushed {i : ℕ} : s.dtor = .enq i → n ≤ i → Move s { s with dtor := .join 0 }
  | joined {i : ℕ} (h : i < n) : s.dtor = .join i → s.workers ⟨i, h⟩ = .exited →
      Move s { s with dtor := .join (i + 1) }
  | finish {i : ℕ} : s.dtor = .join i → n ≤ i → Move s { s with dtor := .returned }

/-- A thread wakes up without a signal. -/
inductive Wake (s : Pool n C) : Pool n C → Prop
  | worker {w : Fin n} : s.workers w = .waiting →
      Wake s { s with workers := Function.update s.workers w .idle }
  | caller {c : C} {id : ℕ} : s.callers c = .waiting id →
      Wake s { s with callers := Function.update s.callers c (.trying id) }
  | dtor {i : ℕ} : s.dtor = .waiting i → Wake s { s with dtor := .enq i }

end

variable {s s' : Pool n C}

theorem signalWork_cases {w : Option (Fin n)} (h : s.signalWork w = some s') :
    ∃ f, Wakes s.workers f ∧ s' = { s with workers := f } := by
  cases w with
  | some w =>
      simp only [signalWork] at h
      split at h
      · rename_i hw
        cases h
        exact ⟨_, .inl ⟨w, hw, rfl⟩, rfl⟩
      · cases h
  | none =>
      simp only [signalWork] at h
      split at h
      · rename_i hw
        cases h
        exact ⟨s.workers, .inr ⟨hw, rfl⟩, rfl⟩
      · cases h

theorem dequeued_callers (s : Pool n C) (w : Fin n) (rest : List (Option ℕ)) (j : Option ℕ) :
    (s.dequeued w rest j).callers = s.callers ∧ (s.dequeued w rest j).dtor = s.dtor := by
  cases j <;> exact ⟨rfl, rfl⟩

variable [DecidableEq C]

theorem move_enq {blocking : Bool} {c : C} {w : Option (Fin n)}
    (h : s.enq blocking c w = some s') : Move s s' := by
  unfold enq at h
  split at h
  · rename_i id hc
    split at h
    · rename_i hfull
      split at h
      · cases h
        exact .block hc hfull
      · cases h
        exact .refuse hc hfull
    · rename_i hfull
      rcases signalWork_cases h with ⟨f, hf, rfl⟩
      exact .accept hc hfull hf
  · cases h

variable [Fintype C]

theorem signalSpace_cases {s₁ : Pool n C} {sig : SpaceSignal C} (hcallers : s₁.callers = s.callers)
    (hdtor : s₁.dtor = s.dtor) (h : s₁.signalSpace sig = some s') :
    ∃ callers dtor, Spaces s callers dtor ∧ s' = { s₁ with callers := callers, dtor := dtor } := by
  cases sig with
  | caller c =>
      simp only [signalSpace] at h
      split at h
      · rename_i id hc
        cases h
        rw [hcallers] at hc
        exact ⟨_, _, .caller hc, by rw [hcallers, hdtor]⟩
      · cases h
  | dtor =>
      simp only [signalSpace] at h
      split at h
      · rename_i i hi
        cases h
        rw [hdtor] at hi
        exact ⟨_, _, .dtor hi, by rw [hcallers]⟩
      · cases h
  | nobody =>
      simp only [signalSpace, hcallers, hdtor] at h
      split at h
      · rename_i hnobody
        cases h
        exact ⟨_, _, .nobody hnobody.1 hnobody.2, by rw [← hcallers, ← hdtor]⟩
      · cases h

theorem move_takeJob {w : Fin n} {sig : SpaceSignal C} (h : s.takeJob w sig = some s') :
    Move s s' := by
  unfold takeJob at h
  split at h
  · rename_i hw
    split at h
    · rename_i hq
      cases h
      exact .sleep hw hq
    · rename_i j rest hq
      have hsame := dequeued_callers s w rest j
      split at h
      · rcases signalSpace_cases hsame.1 hsame.2 h with ⟨callers, dtor, hspace, rfl⟩
        exact .take hw hq hspace
      · rename_i henough
        cases h
        have htake := Move.take hw hq (Spaces.enough hq henough)
        rw [← hsame.1, ← hsame.2] at htake
        exact htake
  · cases h

theorem move_destroy {w : Option (Fin n)} (h : s.destroy w = some s') : Move s s' := by
  unfold destroy at h
  split at h
  · rename_i hdtor
    split at h
    · rename_i hidle
      cases h
      exact .begin hdtor hidle
    · cases h
  · rename_i i hdtor
    split at h
    · rename_i hi
      split at h
      · rename_i hfull
        cases h
        exact .wait hdtor hi hfull
      · rename_i hfull
        rcases signalWork_cases h with ⟨f, hf, rfl⟩
        exact .push hdtor hi hfull hf
    · rename_i hi
      cases h
      exact .pushed hdtor (Nat.not_lt.mp hi)
  · cases h
  · rename_i i hdtor
    split at h
    · rename_i hi
      split at h
      · rename_i hexit
        cases h
        exact .joined hi hdtor hexit
      · cases h
    · rename_i hi
      cases h
      exact .finish hdtor (Nat.not_lt.mp hi)
  · cases h

theorem move_of_step {blocking : Bool} {a : PoolAction n C} (ha : a.signalled = true)
    (h : poolStep blocking s a = some s') : Move s s' := by
  cases a with
  | addJob c =>
      simp only [poolStep, addJob] at h
      split at h
      · rename_i hc hdtor
        cases h
        exact .call hc hdtor
      · cases h
  | enq c w => exact move_enq h
  | takeJob w sig => exact move_takeJob h
  | complete w =>
      simp only [poolStep, Pool.complete] at h
      split at h
      · rename_i id hw
        cases h
        exact .complete hw
      · cases h
  | destroy w => exact move_destroy h
  | wakeWorker w | wakeCaller c | wakeDtor => exact nomatch ha

theorem wake_of_step {blocking : Bool} {a : PoolAction n C} (ha : a.signalled = false)
    (h : poolStep blocking s a = some s') : Wake s s' := by
  cases a with
  | wakeWorker w =>
      simp only [poolStep, wakeWorker] at h
      split at h
      · rename_i hw
        cases h
        exact .worker hw
      · cases h
  | wakeCaller c =>
      simp only [poolStep, wakeCaller] at h
      split at h
      · rename_i id hc
        cases h
        exact .caller hc
      · cases h
  | wakeDtor =>
      simp only [poolStep, wakeDtor] at h
      split at h
      · rename_i i hi
        cases h
        exact .dtor hi
      · cases h
  | addJob c | enq c w | takeJob w sig | complete w | destroy w => exact nomatch ha

end Pool
end Rpc
end Yfs

import Mathlib.Algebra.Order.Ring.Int
import Yfs.Lib.Run
import Yfs.Rpc.Timespec

/-!
# Retry — the loop of `call1`

A call waits for its reply in rounds.  The first round is one second long and each further one twice
as long as the one before; a round that would go past the final deadline ends there and is the last.
That it is the last is remembered by setting `finaldeadline.tv_sec` to 0.

The clock readings are arguments of the steps, and so is what `pthread_cond_timedwait` returns.
`Punctual` is what is assumed of them: the clock does not go back, and a wait ends at its deadline
unless the call completes.

The waits are not all that takes time.  A round may also have to connect and to send, and both can
block: `connect` without a timeout, `connection::send` until the peer reads.  The call is then
`sending`, and `call1_blocks` says that it can stay so for ever.  If these calls return, however
late, the loop ends (`call1_ends_on_time`).
-/

namespace Yfs
namespace Rpc
namespace Retry

open Lib

/-! ## The code -/

/-- What `pthread_cond_timedwait` returns; `EINVAL` is for an invalid time. -/
inductive WaitResult
  | ok
  | etimedout
  | einval
  deriving DecidableEq, Repr

/-- A return of `pthread_cond_timedwait`, and `ca.done` at that time. -/
structure Wakeup where
  result : WaitResult
  done : Bool
  deriving DecidableEq, Repr

/-- `while (!ca.done)` around the wait, and `ca.done` behind it.  `none` is still waiting. -/
def waitLoop : Bool → List Wakeup → Option Bool
  | true, _ => some true
  | false, [] => none
  -- any result but `ETIMEDOUT`, an error too, goes back to the test of `ca.done`
  | false, w :: ws => if w.result = .etimedout then some w.done else waitLoop w.done ws

inductive Pdu
  /-- `dup_req_`, which the lossy test sends again. -/
  | forgot
  | req
  deriving DecidableEq, Repr

inductive Pc
  | loop
  /-- In `get_refconn` or in `connection::send`. -/
  | sending
  | waiting
  | ended
  deriving DecidableEq, Repr

/-- A round that is over: when the wait began, what it was given, when it ended. -/
structure Wait where
  since : Timespec
  deadline : Timespec
  till : Timespec
  deriving DecidableEq, Repr

/-- The variables of the loop; `ch` says that there is a connection, `clock` is the time at the last
step.  `sent`, `intervals` and `waits` are not read by the code. -/
structure Call where
  pc : Pc
  transmit : Bool
  ch : Bool
  finaldeadline : Timespec
  nextdeadline : Timespec
  currTo : Int32
  done : Bool
  clock : Timespec
  sent : List Pdu
  intervals : List Int32
  waits : List Wait
  deriving DecidableEq, Repr

/-- `to_min.to`. -/
def toMin : Int32 := 1000

/-- Before the loop.  `nextdeadline` is set before it is read. -/
def Call.start (now : Timespec) (timeout : Int32) : Option Call :=
  (addTimespec now timeout).map fun finaldeadline =>
    { pc := .loop
      transmit := true
      ch := false
      finaldeadline := finaldeadline
      nextdeadline := now
      currTo := toMin
      done := false
      clock := now
      sent := []
      intervals := []
      waits := [] }

inductive Act
  | transmit
  /-- At the time `now` the call is still asleep in `get_refconn` or in `send`. -/
  | asleep (now : Timespec)
  /-- They have returned: whether `get_refconn` found a connection, `reachable_`, and whether
  `dup_req_` was to be sent. -/
  | sent (connected reachable forgot : Bool) (now : Timespec)
  /-- The test of `finaldeadline`, and the next deadline from the time `now`. -/
  | deadline (now : Timespec)
  /-- The wait: `ca.done` when `ca.m` is taken, what the waits return, and `ch->isdead()`. -/
  | wait (done : Bool) (wakeups : List Wakeup) (dead : Bool) (since now : Timespec)
  deriving DecidableEq, Repr

namespace Call

/-- A connection that could not be made leaves `ch` as it is. -/
def send (s : Call) (connected reachable forgot : Bool) (now : Timespec) : Call :=
  { s with
    pc := .loop
    transmit := false
    clock := now
    ch := s.ch || connected
    -- `reachable_` is false only in tests; then nothing is sent and the call waits all the same
    sent :=
      if (s.ch || connected) && reachable then
        s.sent ++ (if forgot then [.forgot, .req] else [.req])
      else
        s.sent }

/-- `next` is `curr_to` after `now`. -/
def arm (s : Call) (now next : Timespec) : Call :=
  { s with
    pc := .waiting
    clock := now
    intervals := s.intervals ++ [s.currTo]
    -- past the final deadline: wait for that one, and let the next test leave the loop
    nextdeadline := if 0 < cmpTimespec next s.finaldeadline then s.finaldeadline else next
    finaldeadline :=
      if 0 < cmpTimespec next s.finaldeadline then
        { s.finaldeadline with tvSec := 0 }
      else
        s.finaldeadline }

/-- The wait is over; `transmit` is `false` during it. -/
def wake (s : Call) (retrans done dead : Bool) (since now : Timespec) : Call :=
  let s' : Call :=
    { s with
      done := done
      clock := now
      waits := s.waits ++ [⟨since, s.nextdeadline, now⟩] }
  if done then
    { s' with pc := .ended }
  else
    { s' with
      pc := .loop
      transmit := s.transmit || retrans && (!s.ch || dead)
      currTo := s.currTo <<< 1 }

end Call

/-- The steps of the loop, for an `rpcc` with this `retrans_`. -/
def step (retrans : Bool) (s : Call) : Act → Option Call
  | .transmit =>
      if s.pc = .loop ∧ s.transmit = true then
        some { s with pc := .sending }
      else
        none
  | .asleep now =>
      if s.pc = .sending then some { s with clock := now } else none
  | .sent connected reachable forgot now =>
      if s.pc = .sending then
        some (s.send connected reachable forgot now)
      else
        none
  | .deadline now =>
      if s.pc = .loop ∧ s.transmit = false then
        -- also true at once for a deadline in the first second of the epoch
        if s.finaldeadline.tvSec = 0 then
          some { s with pc := .ended }
        else
          (addTimespec now s.currTo).map (s.arm now)
      else
        none
  | .wait done wakeups dead since now =>
      if s.pc = .waiting then
        (waitLoop done wakeups).map fun d => s.wake retrans d dead since now
      else
        none

/-- It is this step's turn. -/
def Turn (s : Call) : Act → Prop
  | .transmit => s.pc = .loop ∧ s.transmit = true
  | .asleep _ | .sent _ _ _ _ => s.pc = .sending
  | .deadline _ => s.pc = .loop ∧ s.transmit = false
  | .wait _ _ _ _ _ => s.pc = .waiting

/-- The clock does not go back, and a wait ends: with the call, or at its deadline.  A deadline that
has passed when the wait begins ends it at once. -/
def Punctual (s : Call) : Act → Prop
  | .transmit => True
  | .asleep now | .sent _ _ _ now => s.clock.total ≤ now.total
  | .deadline now => now.Valid ∧ s.clock.total ≤ now.total
  | .wait done wakeups _ since now =>
      s.clock.total ≤ since.total ∧ since.total ≤ now.total ∧
        (waitLoop done wakeups).isSome ∧
        (waitLoop done wakeups = some false → s.nextdeadline.total ≤ now.total) ∧
        now.total ≤ max since.total s.nextdeadline.total

instance (s : Call) (a : Act) : Decidable (Punctual s a) :=
  match a with
  | .transmit => isTrue trivial
  | .asleep _ | .sent _ _ _ _ => inferInstanceAs (Decidable (_ ≤ _))
  | .deadline _ => inferInstanceAs (Decidable (_ ∧ _))
  | .wait _ _ _ _ _ => inferInstanceAs (Decidable (_ ∧ _ ∧ _ ∧ (_ → _) ∧ _))

def Act.isAsleep : Act → Bool
  | .asleep _ => true
  | _ => false

/-- Besides, every `get_refconn` and every `send` returns; it may take any time. -/
def Returning (s : Call) (a : Act) : Prop :=
  Punctual s a ∧ a.isAsleep = false

instance (s : Call) (a : Act) : Decidable (Returning s a) :=
  inferInstanceAs (Decidable (_ ∧ _))

/-! ## What a step does -/

/-- The steps with all that they ask for. -/
inductive Move (retrans : Bool) (s : Call) : Act → Call → Prop
  | transmit : s.pc = .loop → s.transmit = true → Move retrans s .transmit { s with pc := .sending }
  | asleep {now : Timespec} : s.pc = .sending → Move retrans s (.asleep now) { s with clock := now }
  | sent {connected reachable forgot : Bool} {now : Timespec} :
      s.pc = .sending →
        Move retrans s (.sent connected reachable forgot now)
          (s.send connected reachable forgot now)
  | expired {now : Timespec} :
      s.pc = .loop → s.transmit = false → s.finaldeadline.tvSec = 0 →
        Move retrans s (.deadline now) { s with pc := .ended }
  | armed {now next : Timespec} :
      s.pc = .loop → s.transmit = false → s.finaldeadline.tvSec ≠ 0 →
        addTimespec now s.currTo = some next →
        Move retrans s (.deadline now) (s.arm now next)
  | woken {done d dead : Bool} {wakeups : List Wakeup} {since now : Timespec} :
      s.pc = .waiting → waitLoop done wakeups = some d →
        Move retrans s (.wait done wakeups dead since now) (s.wake retrans d dead since now)

theorem move_of_step {retrans : Bool} {s t : Call} {a : Act} (h : step retrans s a = some t) :
    Move retrans s a t := by
  cases a with
  | transmit =>
      simp only [step] at h
      split at h
      next hturn =>
        cases h
        exact .transmit hturn.1 hturn.2
      next => cases h
  | asleep now =>
      simp only [step] at h
      split at h
      next hturn =>
        cases h
        exact .asleep hturn
      next => cases h
  | sent connected reachable forgot now =>
      simp only [step] at h
      split at h
      next hturn =>
        cases h
        exact .sent hturn
      next => cases h
  | deadline now =>
      simp only [step] at h
      split at h
      next hturn =>
        split at h
        next hzero =>
          cases h
          exact .expired hturn.1 hturn.2 hzero
        next hzero =>
          rcases Option.map_eq_some_iff.1 h with ⟨next, hadd, rfl⟩
          exact .armed hturn.1 hturn.2 hzero hadd
      next => cases h
  | wait done wakeups dead since now =>
      simp only [step] at h
      split at h
      next hturn =>
        rcases Option.map_eq_some_iff.1 h with ⟨d, hloop, rfl⟩
        exact .woken hturn hloop
      next => cases h

/-! ## Rounds that double -/

namespace Call

/-- The interval of the next round; during a wait it is still to be doubled. -/
def upcoming (s : Call) : ℤ :=
  if s.pc = .waiting then s.currTo.toInt * 2 else s.currTo.toInt

/-- No round begins before this time. -/
def due (s : Call) : Timespec :=
  if s.pc = .waiting then s.nextdeadline else s.clock

/-- The number of rounds that have begun. -/
def rounds (s : Call) : ℕ :=
  s.intervals.length

end Call

variable {start final : Timespec} {timeout : Int32} {s t : Call}

/-- The final deadline has not been reached: `r` rounds took at least `2 ^ r - 1` seconds, and there
was time for them. -/
structure Running (start final : Timespec) (timeout : Int32) (s : Call) : Prop where
  final_eq : s.finaldeadline = final
  upcoming_eq : s.upcoming = 1000 * 2 ^ s.rounds
  elapsed : start.total + 1000000000 * (2 ^ s.rounds - 1) ≤ s.due.total
  room : 1000 * (2 ^ s.rounds - 1) ≤ timeout.toInt

/-- What holds in every state of the loop. -/
structure OnTime (start final : Timespec) (timeout : Int32) (s : Call) : Prop where
  intervals : ∀ (k : ℕ) (i : Int32), s.intervals[k]? = some i → i.toInt = 1000 * 2 ^ k
  waits : ∀ w ∈ s.waits, w.deadline.total ≤ final.total ∧
    (w.till.total ≤ final.total ∨ w.till.total ≤ w.since.total)
  next : s.pc = .waiting → s.nextdeadline.total ≤ final.total
  rounds_le : s.rounds ≤ 22
  phase : s.pc = .ended ∨ Running start final timeout s ∨ s.finaldeadline.tvSec = 0

/-- The rounds of a timeout below 2^31 ms: `2 ^ 22` seconds are too many. -/
theorem rounds_le_of_room {r : ℕ} (h : 1000 * ((2 : ℤ) ^ r - 1) ≤ timeout.toInt) : r ≤ 21 := by
  by_contra hgt
  have hpow : (2 : ℤ) ^ 22 ≤ 2 ^ r := pow_le_pow_right₀ (by decide) (by omega)
  have hlt := timeout.toInt_lt
  omega

theorem Running.rounds_le (h : Running start final timeout s) : s.rounds ≤ 21 :=
  rounds_le_of_room h.room

/-- Between two rounds the interval has been doubled. -/
theorem Running.currTo_eq (h : Running start final timeout s) (hpc : s.pc = .loop) :
    s.currTo.toInt = 1000 * 2 ^ s.rounds := by
  have heq := h.upcoming_eq
  rwa [Call.upcoming, if_neg (by rw [hpc]; decide)] at heq

theorem OnTime.sending (h : OnTime start final timeout s) (hpc : s.pc = .loop) :
    OnTime start final timeout { s with pc := .sending } where
  intervals := h.intervals
  waits := h.waits
  next := fun hpc' => by cases hpc'
  rounds_le := h.rounds_le
  phase := by
    rcases h.phase with hover | hrun | hzero
    · rw [hpc] at hover
      cases hover
    · have hdue : s.due = s.clock := if_neg (by rw [hpc]; decide)
      have helapsed := hrun.elapsed
      rw [hdue] at helapsed
      exact Or.inr (Or.inl ⟨hrun.final_eq, hrun.currTo_eq hpc, helapsed, hrun.room⟩)
    · exact Or.inr (Or.inr hzero)

theorem OnTime.send (h : OnTime start final timeout s) (hpc : s.pc = .sending)
    (connected reachable forgot : Bool) {now : Timespec} (hnow : s.clock.total ≤ now.total) :
    OnTime start final timeout (s.send connected reachable forgot now) where
  intervals := h.intervals
  waits := h.waits
  next := fun hpc' => by cases hpc'
  rounds_le := h.rounds_le
  phase := by
    rcases h.phase with hover | hrun | hzero
    · rw [hpc] at hover
      cases hover
    · have hnot : s.pc ≠ .waiting := by rw [hpc]; decide
      have hupcoming := hrun.upcoming_eq
      rw [Call.upcoming, if_neg hnot] at hupcoming
      have helapsed := hrun.elapsed
      rw [Call.due, if_neg hnot] at helapsed
      exact Or.inr (Or.inl ⟨hrun.final_eq, hupcoming, Int.le_trans helapsed hnow, hrun.room⟩)
    · exact Or.inr (Or.inr hzero)

theorem OnTime.ended (h : OnTime start final timeout s) :
    OnTime start final timeout { s with pc := .ended } where
  intervals := h.intervals
  waits := h.waits
  next := fun hpc => by cases hpc
  rounds_le := h.rounds_le
  phase := Or.inl rfl

/-- A deadline that is whole seconds away keeps the nanoseconds. -/
theorem tvNsec_addTimespec {now next : Timespec} {b : Int32} {r : ℕ} (hnow : now.Valid)
    (hb : b.toInt = 1000 * 2 ^ r) (hadd : addTimespec now b = some next) :
    next.tvNsec = now.tvNsec := by
  have hpos : (0 : ℤ) < 2 ^ r := pow_pos (by decide) r
  have hnext := (addTimespec_eq hnow (by omega)).symm.trans hadd
  have hmod : b.toInt % 1000 = 0 := by omega
  rw [hmod, Int.zero_mul, Int.add_zero, if_pos (Int.le_of_lt hnow.2)] at hnext
  rw [← Option.some.inj hnext]

/-- The interval of a new round is twice the last one. -/
theorem doubling_concat {l : List Int32} {x : Int32}
    (h : ∀ (k : ℕ) (i : Int32), l[k]? = some i → i.toInt = 1000 * 2 ^ k)
    (hx : x.toInt = 1000 * 2 ^ l.length) (k : ℕ) (i : Int32) (hi : (l ++ [x])[k]? = some i) :
    i.toInt = 1000 * 2 ^ k := by
  rcases Nat.lt_or_ge k l.length with hlt | hge
  · rw [List.getElem?_append_left hlt] at hi
    exact h k i hi
  · rw [List.getElem?_append_right hge, List.getElem?_singleton] at hi
    split at hi
    next hzero =>
      cases hi
      rw [hx, Nat.le_antisymm (Nat.sub_eq_zero_iff_le.1 hzero) hge]
    next => cases hi

/-- The deadline of a new round is a valid time, and late enough. -/
theorem Running.next {now next : Timespec} (h : Running start final timeout s) (hpc : s.pc = .loop)
    (hnow : now.Valid) (hclock : s.clock.total ≤ now.total)
    (hadd : addTimespec now s.currTo = some next) :
    next.Valid ∧ start.total + 1000000000 * (2 ^ (s.rounds + 1) - 1) ≤ next.total := by
  have hpos : (0 : ℤ) < 2 ^ s.rounds := pow_pos (by decide) s.rounds
  have hinterval := h.currTo_eq hpc
  have helapsed : start.total + 1000000000 * (2 ^ s.rounds - 1) ≤ s.clock.total := by
    have hle := h.elapsed
    rwa [Call.due, if_neg (by rw [hpc]; decide)] at hle
  have htotal : next.total = now.total + 1000000000 * 2 ^ s.rounds := by
    rcases addTimespec_spec hnow (show 0 ≤ s.currTo.toInt by omega) with ⟨r, hr, htotal, _⟩
    cases hr.symm.trans hadd
    omega
  constructor
  · rw [Timespec.Valid, tvNsec_addTimespec hnow hinterval hadd]
    exact hnow
  · rw [pow_succ]
    omega

/-- A new round.  Either there was time for it, or it is the last one. -/
theorem OnTime.arm {now next : Timespec} (h : OnTime start final timeout s)
    (hrun : Running start final timeout s) (hpc : s.pc = .loop) (hnow : now.Valid)
    (hclock : s.clock.total ≤ now.total) (hadd : addTimespec now s.currTo = some next)
    (hfinal : final.total = start.total + timeout.toInt * 1000000) (hnsec : 0 ≤ final.tvNsec) :
    OnTime start final timeout (s.arm now next) := by
  rcases hrun.next hpc hnow hclock hadd with ⟨hvalid, hlate⟩
  have hinterval := hrun.currTo_eq hpc
  have hrounds : (s.arm now next).rounds = s.rounds + 1 := by
    simp [Call.arm, Call.rounds]
  have hle := hrun.rounds_le
  by_cases hpast : 0 < cmpTimespec next s.finaldeadline
  · -- the round is cut at the final deadline, and the next test of `tv_sec` leaves the loop
    have hnext : (s.arm now next).nextdeadline = final := (if_pos hpast).trans hrun.final_eq
    refine ⟨doubling_concat h.intervals hinterval, h.waits, fun _ => ?_, by omega, ?_⟩
    · rw [hnext]
    · refine Or.inr (Or.inr ?_)
      simp only [Call.arm, if_pos hpast]
  · have hnext : (s.arm now next).nextdeadline = next := if_neg hpast
    have hbefore : next.total ≤ final.total := by
      rw [hrun.final_eq] at hpast
      exact total_le_of_cmpTimespec (Int.le_of_lt hvalid.2) hnsec hpast
    refine ⟨doubling_concat h.intervals hinterval, h.waits, fun _ => ?_, by omega, ?_⟩
    · rw [hnext]
      exact hbefore
    · refine Or.inr (Or.inl ⟨(if_neg hpast).trans hrun.final_eq, ?_, ?_, ?_⟩)
      · show s.currTo.toInt * 2 = _
        rw [hrounds, pow_succ]
        omega
      · show _ ≤ (s.arm now next).nextdeadline.total
        rwa [hrounds, hnext]
      · rw [hrounds]
        omega

/-- `curr_to.to <<= 1` does not overflow: there are at most 21 rounds before the last one. -/
theorem Running.doubled (h : Running start final timeout s) (hpc : s.pc = .waiting) :
    (s.currTo <<< 1).toInt = 1000 * 2 ^ s.rounds := by
  have heq : s.currTo.toInt * 2 = 1000 * 2 ^ s.rounds := by
    have heq := h.upcoming_eq
    rwa [Call.upcoming, if_pos hpc] at heq
  have hpos : (0 : ℤ) < 2 ^ s.rounds := pow_pos (by decide) s.rounds
  have hpow : (2 : ℤ) ^ s.rounds ≤ 2 ^ 21 := pow_le_pow_right₀ (by decide) h.rounds_le
  have htwo : (2 : Int32).toInt = 2 := by decide
  have hfits : FitsInt (s.currTo.toInt * (2 : Int32).toInt) := by
    rw [htwo, heq]
    constructor <;> omega
  rw [shiftLeft_one, hfits.toInt_mul, htwo, heq]

/-- After a wait that timed out its deadline has passed, and the interval is doubled. -/
theorem OnTime.wake {retrans d dead : Bool} {since now : Timespec}
    (h : OnTime start final timeout s) (hpc : s.pc = .waiting)
    (hdue : d = false → s.nextdeadline.total ≤ now.total)
    (hnow : now.total ≤ max since.total s.nextdeadline.total) :
    OnTime start final timeout (s.wake retrans d dead since now) := by
  have hnext := h.next hpc
  -- a wait that ends after its deadline has begun after it
  have hwaits : ∀ w ∈ s.waits ++ [⟨since, s.nextdeadline, now⟩],
      w.deadline.total ≤ final.total ∧
        (w.till.total ≤ final.total ∨ w.till.total ≤ w.since.total) := by
    intro w hw
    rcases List.mem_append.1 hw with hold | hnew
    · exact h.waits w hold
    · cases List.mem_singleton.1 hnew
      refine ⟨hnext, ?_⟩
      show now.total ≤ final.total ∨ now.total ≤ since.total
      omega
  cases d with
  | true => exact ⟨h.intervals, hwaits, fun hpc' => (by cases hpc'), h.rounds_le, Or.inl rfl⟩
  | false =>
      refine ⟨h.intervals, hwaits, fun hpc' => (by cases hpc'), h.rounds_le, ?_⟩
      rcases h.phase with hover | hrun | hzero
      · rw [hpc] at hover
        cases hover
      · have hdouble := hrun.doubled hpc
        have helapsed : start.total + 1000000000 * (2 ^ s.rounds - 1) ≤ now.total := by
          have hle := hrun.elapsed
          rw [Call.due, if_pos hpc] at hle
          exact Int.le_trans hle (hdue rfl)
        exact Or.inr (Or.inl ⟨hrun.final_eq, hdouble, helapsed, hrun.room⟩)
      · exact Or.inr (Or.inr hzero)

/-! ## Runs -/

/-- What is left to do: up to four steps a round, and up to three to leave the loop. -/
def Call.weight (s : Call) : ℕ :=
  match s.pc with
  | .ended => 0
  | .loop => 4 * (22 - s.rounds) + if s.transmit then 3 else 1
  | .sending => 4 * (22 - s.rounds) + 2
  | .waiting => 4 * (22 - s.rounds) + 4

theorem OnTime.move {retrans : Bool} {a : Act} (h : OnTime start final timeout s)
    (hfinal : final.total = start.total + timeout.toInt * 1000000) (hnsec : 0 ≤ final.tvNsec)
    (hok : Returning s a) (hmove : Move retrans s a t) :
    OnTime start final timeout t ∧ t.weight < s.weight := by
  cases hmove with
  | transmit hpc htrans =>
      refine ⟨h.sending hpc, ?_⟩
      simp [Call.weight, Call.rounds, hpc, htrans]
  | asleep hpc => cases hok.2
  | sent hpc =>
      refine ⟨h.send hpc _ _ _ hok.1, ?_⟩
      simp [Call.weight, Call.send, Call.rounds, hpc]
  | expired hpc htrans hzero =>
      refine ⟨h.ended, ?_⟩
      simp [Call.weight, hpc, htrans]
  | armed hpc htrans hzero hadd =>
      -- the round is counted, so that the wait has four steps less to go
      rcases h.phase with hover | hrun | hexpired
      · rw [hpc] at hover
        cases hover
      · refine ⟨h.arm hrun hpc hok.1.1 hok.1.2 hadd hfinal hnsec, ?_⟩
        have hle := hrun.rounds_le
        simp only [Call.rounds] at hle
        simp only [Call.weight, Call.arm, Call.rounds, hpc, htrans, List.length_append,
          List.length_singleton]
        simp only [Bool.false_eq_true, if_false]
        omega
      · exact absurd hexpired hzero
  | @woken done d dead wakeups since now hpc hloop =>
      rcases hok.1 with ⟨_, _, _, hdue, hnow⟩
      refine ⟨h.wake hpc (fun hd => hdue (hd ▸ hloop)) hnow, ?_⟩
      cases d with
      | true => simp [Call.weight, Call.wake, hpc]
      | false =>
          simp only [Call.weight, Call.wake, Call.rounds, hpc, Bool.false_eq_true, if_false]
          split <;> omega

/-- Whatever the others do, the step whose turn it is can be made: no `VERIFY` fails. -/
theorem OnTime.enabled (retrans : Bool) {a : Act} (h : OnTime start final timeout s)
    (hturn : Turn s a) (hok : Punctual s a) : ∃ t, step retrans s a = some t := by
  cases a with
  | transmit | asleep now | sent connected reachable forgot now => exact ⟨_, if_pos hturn⟩
  | deadline now =>
      rcases hturn with ⟨hpc, htrans⟩
      rw [step, if_pos ⟨hpc, htrans⟩]
      rcases h.phase with hover | hrun | hzero
      · rw [hpc] at hover
        cases hover
      · have hinterval := hrun.currTo_eq hpc
        have hpos : (0 : ℤ) < 2 ^ s.rounds := pow_pos (by decide) s.rounds
        rcases addTimespec_spec hok.1 (show 0 ≤ s.currTo.toInt by omega) with ⟨next, hadd, _⟩
        split
        · exact ⟨_, rfl⟩
        · exact ⟨_, by rw [hadd, Option.map_some]⟩
      · exact ⟨_, if_pos hzero⟩
  | wait done wakeups dead since now =>
      rcases Option.isSome_iff_exists.1 hok.2.2.1 with ⟨d, hloop⟩
      exact ⟨_, (if_pos hturn).trans (by rw [hloop, Option.map_some])⟩

/-- As long as the loop is not over, somebody's turn comes in time. -/
theorem exists_turn (s : Call) (h : s.pc ≠ .ended) : ∃ a, Turn s a ∧ Returning s a := by
  cases hpc : s.pc with
  | ended => exact absurd hpc h
  | sending => exact ⟨.sent true true false s.clock, hpc, Int.le_refl _, rfl⟩
  | loop =>
      cases htrans : s.transmit with
      | true => exact ⟨.transmit, ⟨hpc, htrans⟩, trivial, rfl⟩
      | false =>
          -- the next full second of the clock
          refine ⟨.deadline ⟨s.clock.total / 1000000000 + 1, 0⟩, ⟨hpc, htrans⟩, ⟨?_, ?_⟩, rfl⟩
          · exact ⟨Int.le_refl 0, show (0 : ℤ) < 1000000000 by decide⟩
          show s.clock.total ≤ (s.clock.total / 1000000000 + 1) * 1000000000 + 0
          omega
  | waiting =>
      rcases Int.le_total s.clock.total s.nextdeadline.total with hle | hle
      · refine ⟨.wait false [⟨.etimedout, false⟩] false s.clock s.nextdeadline, hpc, ?_⟩
        exact ⟨⟨Int.le_refl _, hle, rfl, fun _ => Int.le_refl _, Int.le_max_right _ _⟩, rfl⟩
      · refine ⟨.wait false [⟨.etimedout, false⟩] false s.clock s.clock, hpc, ?_⟩
        exact ⟨⟨Int.le_refl _, Int.le_refl _, rfl, fun _ => hle, Int.le_max_left _ _⟩, rfl⟩

theorem onTime_start {s₀ : Call} (hstart : start.Valid) (hto : 0 ≤ timeout.toInt)
    (h : Call.start start timeout = some s₀) :
    s₀.finaldeadline.total = start.total + timeout.toInt * 1000000 ∧
      0 ≤ s₀.finaldeadline.tvNsec ∧ OnTime start s₀.finaldeadline timeout s₀ ∧
      s₀.weight = 91 := by
  rcases addTimespec_spec hstart hto with ⟨final, hadd, htotal, hlo, _⟩
  rw [Call.start, hadd, Option.map_some] at h
  cases h
  refine ⟨htotal, hlo, ⟨?_, ?_, ?_, Nat.zero_le _, Or.inr (Or.inl ⟨rfl, rfl, ?_, ?_⟩)⟩, rfl⟩
  · intro k i hi
    simp at hi
  · intro w hw
    cases hw
  · intro hpc
    cases hpc
  · show start.total + 1000000000 * (2 ^ 0 - 1) ≤ start.total
    omega
  · show 1000 * ((2 : ℤ) ^ 0 - 1) ≤ timeout.toInt
    omega

/-- Every run of the loop: its states are on time, and it is at most 91 steps long. -/
theorem onTime_run {retrans : Bool} {s₀ : Call} (hstart : start.Valid) (hto : 0 ≤ timeout.toInt)
    (h₀ : Call.start start timeout = some s₀) {as : List Act}
    (h : runFrom (step retrans) Returning s₀ as = some s) :
    OnTime start s₀.finaldeadline timeout s ∧ as.length ≤ 91 := by
  rcases onTime_start hstart hto h₀ with ⟨hfinal, hnsec, htime, hweight⟩
  have hrun := length_le_of_runFrom (m := Call.weight)
    (fun s a t hs hok hst => hs.move hfinal hnsec hok (move_of_step hst)) as htime h
  exact ⟨hrun.1, by omega⟩

-- half a second from the middle of one: the final deadline is invalid, and is waited for
example : (Call.start ⟨5, 500000000⟩ 500).any (fun s₀ =>
    (runFrom (step true) Punctual s₀
      [.transmit, .sent true true false ⟨5, 500000000⟩, .deadline ⟨5, 500000000⟩]).any
      fun s => decide (s.pc = .waiting ∧ ¬ s.nextdeadline.Valid)) = true := by
  decide +kernel

/-- The loop of `call1` ends if every `get_refconn` and every `send` returns: a run has at most 91
steps, and as long as the loop is not over it can go on, whatever comes.  The `k`-th interval is
`1000 * 2 ^ k` and no timed wait goes past the deadline. -/
theorem call1_ends_on_time (retrans : Bool) (start : Timespec) (timeout : Int32)
    (hstart : start.Valid) (hto : 0 ≤ timeout.toInt) :
    ∃ s₀, Call.start start timeout = some s₀ ∧
      ∀ as s, runFrom (step retrans) Returning s₀ as = some s →
        as.length ≤ 91 ∧
        (s.pc ≠ .ended → ∃ a, Turn s a ∧ Returning s a) ∧
        (∀ a, Turn s a → Punctual s a → ∃ t, step retrans s a = some t) ∧
        (∀ (k : ℕ) (i : Int32), s.intervals[k]? = some i →
          0 < i.toInt ∧ i.toInt = 1000 * 2 ^ k) ∧
        ∀ w ∈ s.waits, w.deadline.total ≤ start.total + timeout.toInt * 1000000 ∧
          (w.till.total ≤ start.total + timeout.toInt * 1000000 ∨
            w.till.total ≤ w.since.total) := by
  rcases addTimespec_spec hstart hto with ⟨final, hadd, htotal, _⟩
  have h₀ : ∃ s₀, Call.start start timeout = some s₀ := ⟨_, by rw [Call.start, hadd]; rfl⟩
  rcases h₀ with ⟨s₀, h₀⟩
  have hfinal := (onTime_start hstart hto h₀).1
  refine ⟨s₀, h₀, fun as s hrun => ?_⟩
  rcases onTime_run hstart hto h₀ hrun with ⟨htime, hlen⟩
  refine ⟨hlen, exists_turn s, fun a => htime.enabled retrans, fun k i hi => ?_, ?_⟩
  · have heq := htime.intervals k i hi
    have hpos : (0 : ℤ) < 2 ^ k := pow_pos (by decide) k
    exact ⟨by omega, heq⟩
  · rw [← hfinal]
    exact htime.waits

/-- Two rounds: the connection dies during the first, the second ends at the final deadline. -/
def twoRounds : List Act :=
  [.transmit, .sent true true false ⟨5, 5⟩, .deadline ⟨5, 7⟩,
    .wait false [⟨.ok, false⟩, ⟨.etimedout, false⟩] true ⟨5, 8⟩ ⟨6, 7⟩,
    .transmit, .sent true true false ⟨6, 8⟩, .deadline ⟨6, 9⟩,
    .wait false [⟨.etimedout, false⟩] false ⟨6, 9⟩ ⟨7, 500000000⟩, .deadline ⟨7, 500000000⟩]

theorem call1_ends_on_time_twoRounds :
    ∃ s₀ s, Call.start ⟨5, 0⟩ 2500 = some s₀ ∧
      runFrom (step true) Returning s₀ twoRounds = some s ∧ s.pc = .ended ∧
      s.intervals = [1000, 2000] ∧ ∀ w ∈ s.waits, w.deadline.total ≤ 7500000000 := by
  rcases call1_ends_on_time true ⟨5, 0⟩ 2500 (by decide) (by decide) with ⟨s₀, h₀, hall⟩
  have hany : (Call.start ⟨5, 0⟩ 2500).all (fun s₀ =>
      (runFrom (step true) Returning s₀ twoRounds).any fun s =>
        decide (s.pc = .ended ∧ s.intervals = [1000, 2000])) = true := by
    decide +kernel
  rw [h₀, Option.all_some] at hany
  rcases exists_runFrom hany with ⟨s, hrun, hover, hintervals⟩
  exact ⟨s₀, s, h₀, hrun, hover, hintervals, fun w hw => ((hall _ s hrun).2.2.2.2 w hw).1⟩

/-! ## A peer that does not read -/

/-- One more second in `send`, again and again. -/
theorem exists_asleep (n : ℕ) : ∀ {s : Call}, s.pc = .sending →
    ∃ as t, as.length = n ∧ runFrom (step true) Punctual s as = some t ∧ t.pc = .sending ∧
      t.waits = s.waits ∧ t.clock.total = s.clock.total + 1000000000 * n := by
  induction n with
  | zero => exact fun {s} hpc => ⟨[], s, rfl, rfl, hpc, rfl, by simp⟩
  | succ n ih =>
      intro s hpc
      let later : Timespec := ⟨s.clock.tvSec + 1, s.clock.tvNsec⟩
      have hlater : later.total = s.clock.total + 1000000000 := by
        simp only [later, Timespec.total]
        omega
      rcases ih (s := { s with clock := later }) hpc with ⟨as, t, hlen, hrun, hpc', hwaits, hclock⟩
      refine ⟨.asleep later :: as, t, by rw [List.length_cons, hlen], ?_, hpc', hwaits, ?_⟩
      · have hok : Punctual s (.asleep later) := by
          show s.clock.total ≤ later.total
          omega
        rw [runFrom, if_pos hok, step, if_pos hpc]
        exact hrun
      · rw [hclock, hlater]
        push_cast
        omega

/-- A call with a timeout of one second.  All its timed waits are punctual, for it has none, and
after any number of steps and seconds it is in its first `send`. -/
theorem call1_blocks :
    ∃ s₀, Call.start ⟨5, 0⟩ 1000 = some s₀ ∧ s₀.finaldeadline.total = 6000000000 ∧
      ∀ n : ℕ, ∃ as s, as.length = n + 1 ∧ runFrom (step true) Punctual s₀ as = some s ∧
        s.pc = .sending ∧ s.waits = [] ∧ s.clock.total = 5000000000 + 1000000000 * n := by
  have hstart : (Call.start ⟨5, 0⟩ 1000).any (fun s₀ => decide (s₀.finaldeadline.total = 6000000000
      ∧ s₀.pc = .loop ∧ s₀.transmit = true ∧ s₀.waits = [] ∧ s₀.clock = ⟨5, 0⟩)) = true := by
    decide +kernel
  rcases Option.any_eq_true _ _ |>.1 hstart with ⟨s₀, h₀, hs₀⟩
  rcases of_decide_eq_true hs₀ with ⟨hfinal, hpc, htrans, hwaits, hclock⟩
  refine ⟨s₀, h₀, hfinal, fun n => ?_⟩
  rcases exists_asleep n (s := { s₀ with pc := .sending }) rfl with
    ⟨as, s, hlen, hrun, hpc', hwaits', hclock'⟩
  refine ⟨.transmit :: as, s, by rw [List.length_cons, hlen], ?_, hpc', hwaits'.trans hwaits, ?_⟩
  · have hok : Punctual s₀ .transmit := trivial
    rw [runFrom, if_pos hok, step, if_pos ⟨hpc, htrans⟩]
    exact hrun
  · rw [hclock']
    show s₀.clock.total + _ = _
    rw [hclock]
    rfl

end Retry
end Rpc
end Yfs

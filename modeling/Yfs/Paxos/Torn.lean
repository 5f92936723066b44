import Mathlib.Tactic.IntervalCases
import Yfs.Paxos.Acceptor

/-!
# Torn — a log whose last line was cut by a crash

The writers of `log.cc` append a line in several pieces, so a crash can leave any prefix of it in
the file.  `logread` takes the pieces it finds at their face value: an unknown keyword fails
`VERIFY`, and a number that was cut in the middle is still a number (`torn_log_misread`).

`Record.cut` says which fields are left of a line, and `logreadLoop_cut` that `logread` goes by
them.  So it survives a cut exactly if the fields that are left say what the complete records have
said already (`torn_log_survives`).
-/

namespace Yfs
namespace Paxos

open Lib

namespace Record

/-- The call that appends the record to a log. -/
def write (file : Str) : Record → Str
  | done inst v => loginstance file inst v
  | propseen n => logprop file n
  | accepted n v => logaccept file n v

theorem write_eq (file : Str) (r : Record) : r.write file = file ++ r.text := by
  cases r <;> simp [write, text, loginstance, logprop, logaccept]

end Record

/-- The log that a sequence of calls has written. -/
def written (rs : List Record) : Str :=
  rs.foldl Record.write []

theorem written_eq_lines (rs : List Record) : written rs = lines rs := by
  have happend : ∀ file, rs.foldl Record.write file = file ++ lines rs := by
    induction rs with
    | nil => simp
    | cons r rs ih =>
        intro file
        rw [List.foldl_cons, ih, Record.write_eq, lines_cons, List.append_assoc]
  exact happend []

/-! ## Where the log is cut -/

/-- The records whose whole line is among the first `n` characters. -/
def complete : List Record → ℕ → List Record
  | [], _ => []
  | r :: rs, n => if r.text.length ≤ n then r :: complete rs (n - r.text.length) else []

/-- What is left of the line after them. -/
def remnant : List Record → ℕ → Str
  | [], _ => []
  | r :: rs, n => if r.text.length ≤ n then remnant rs (n - r.text.length) else r.text.take n

theorem take_lines (rs : List Record) :
    ∀ n, (lines rs).take n = lines (complete rs n) ++ remnant rs n := by
  induction rs with
  | nil => simp [complete, remnant]
  | cons r rs ih =>
      intro n
      rw [lines_cons, complete, remnant]
      -- the cut is behind the first line or inside it
      split
      next h => rw [lines_cons, List.take_append, List.take_of_length_le h, ih, List.append_assoc]
      next h => simp [List.take_append_of_le_length (Nat.le_of_not_le h)]

theorem mem_of_mem_complete {r : Record} (rs : List Record) :
    ∀ n, r ∈ complete rs n → r ∈ rs := by
  induction rs with
  | nil => simp [complete]
  | cons r' rs ih =>
      intro n h
      rw [complete] at h
      split at h
      · rcases List.mem_cons.1 h with rfl | h
        · exact List.mem_cons_self
        · exact List.mem_cons_of_mem _ (ih _ h)
      · cases h

/-! ## What is left of a line -/

/-- The fields that `logread` finds in a line that breaks off: a keyword that is cut, or the fields
as far as they go, where `none` is one of which nothing is there. -/
inductive Piece
  | nothing
  | keyword
  | done (inst : Option UInt32) (v : Str)
  | propseen (n : Option UInt32) (m : Option Str)
  | accepted (n : Option UInt32) (m : Option Str) (v : Str)
  deriving DecidableEq, Repr

/-- The first `k` characters of the line of a record. -/
def Record.cut (k : ℕ) : Record → Piece
  | done inst v =>
      if k = 0 then .nothing
      else if k < 4 then .keyword
      else .done (IStream.cutNumber inst (k - 5)) (v.take (k - 6 - (IStream.digits inst).length))
  | propseen n =>
      if k = 0 then .nothing
      else if k < 8 then .keyword
      else .propseen (IStream.cutNumber n.n (k - 9))
        (IStream.cutWord n.m (k - 10 - (IStream.digits n.n).length))
  | accepted n v =>
      if k = 0 then .nothing
      else if k < 8 then .keyword
      else .accepted (IStream.cutNumber n.n (k - 9))
        (IStream.cutWord n.m (k - 10 - (IStream.digits n.n).length))
        (v.take (k - 10 - (IStream.digits n.n).length - 1 - n.m.length))

namespace Piece

/-- What `logread` makes of it, with `inst` in its variable `instance`. -/
def read (inst : UInt32) (s : Acceptor) : Piece → Option Acceptor
  | nothing => some s
  | keyword => none
  | done i v => some (readDone s (i.getD inst) v)
  | propseen n m => some { s with nH := { n := n.getD s.nH.n, m := m.getD s.nH.m } }
  | accepted n m v =>
      some
        { s with
          nA := { n := n.getD s.nA.n, m := m.getD s.nA.m }
          vA := v }

/-- The fields that are there say what the acceptor knows already. -/
def Harmless (inst : UInt32) (s : Acceptor) : Piece → Prop
  | nothing => True
  | keyword => False
  | done i v =>
      s.instanceH = i.getD inst ∧ s.values (i.getD inst) = v ∧ s.vA = [] ∧ s.nH.n = 0 ∧ s.nA.n = 0
  | propseen n m => n.getD s.nH.n = s.nH.n ∧ m.getD s.nH.m = s.nH.m
  | accepted n m v => n.getD s.nA.n = s.nA.n ∧ m.getD s.nA.m = s.nA.m ∧ s.vA = v

instance (inst : UInt32) (s : Acceptor) (p : Piece) : Decidable (p.Harmless inst s) := by
  cases p <;> unfold Harmless <;> infer_instance

theorem read_eq_self_iff (inst : UInt32) (s : Acceptor) (p : Piece) :
    p.read inst s = some s ↔ p.Harmless inst s := by
  rcases s with ⟨me, ⟨nH, mH⟩, ⟨nA, mA⟩, vA, instanceH, values, file⟩
  cases p with
  | nothing | keyword => simp [read, Harmless]
  | done i v =>
      simp only [read, Harmless, readDone, Option.some.injEq, Acceptor.mk.injEq, PropT.mk.injEq,
        Function.update_eq_self_iff, true_and, and_true]
      constructor
      · rintro ⟨hn, hn', hv, hi, hval⟩
        exact ⟨hi.symm, hval.symm, hv.symm, hn.symm, hn'.symm⟩
      · rintro ⟨hi, hval, hv, hn, hn'⟩
        exact ⟨hn.symm, hn'.symm, hv.symm, hi.symm, hval.symm⟩
  | propseen n m => simp [read, Harmless]
  | accepted n m v => simp [read, Harmless, eq_comm, and_assoc]

end Piece

/-! ## Reading it -/

theorem logreadLoop_of_not_good {str : IStream} (h : str.good = false) (fuel : ℕ) (inst : UInt32)
    (s : Acceptor) : logreadLoop (fuel + 1) str inst s = some s := by
  rw [logreadLoop, IStream.word_of_not_good h]

/-- A cut inside a field, or behind it and the blank after it. -/
theorem take_field (f g : Str) (k : ℕ) :
    (f ++ ' ' :: g).take k =
      if k ≤ f.length then f.take k else f ++ ' ' :: g.take (k - 1 - f.length) := by
  split
  next h => exact List.take_append_of_le_length h
  next h =>
    rw [List.take_append, List.take_of_length_le (by omega)]
    have hk : k - f.length = (k - 1 - f.length) + 1 := by omega
    rw [hk, List.take_succ_cons]

/-- A line without its end. -/
theorem take_line {text l : Str} (h : text = l ++ ['\n']) {k : ℕ} (hk : k < text.length) :
    text.take k = l.take k := by
  rw [h, List.length_append, List.length_singleton] at hk
  rw [h, List.take_append_of_le_length (Nat.le_of_lt_succ hk)]

/-- The stream stands in front of a blank and the first `k` characters of `g`, or it has come to
the end before. -/
def Before (str : IStream) (g : Str) (k : ℕ) : Prop :=
  (str.good = false ∧ k = 0) ∨ str = IStream.ofText (' ' :: g.take k)

theorem word_before {kw : Str} (hkw : IStream.IsWord kw) (g : Str) {k : ℕ} (hk : kw.length ≤ k) :
    ∃ str, (IStream.ofText ((kw ++ ' ' :: g).take k)).word = (str, some kw) ∧
      str.fail = false ∧ Before str g (k - 1 - kw.length) := by
  rw [take_field]
  split
  next h =>
    rw [List.take_of_length_le hk, IStream.word_end hkw]
    exact ⟨_, rfl, rfl, Or.inl ⟨rfl, by omega⟩⟩
  next => exact ⟨_, word_line kw hkw _, rfl, Or.inr rfl⟩

theorem Before.number {str : IStream} {n : UInt32} {g : Str} {k : ℕ}
    (h : Before str (IStream.digits n ++ ' ' :: g) k) :
    ∃ str', str.number = (str', IStream.cutNumber n k) ∧
      Before str' g (k - 1 - (IStream.digits n).length) := by
  rcases h with ⟨hgood, rfl⟩ | rfl
  · exact ⟨_, IStream.number_of_not_good hgood, Or.inl ⟨IStream.good_fail _, Nat.zero_sub _⟩⟩
  · rw [take_field]
    split
    next hle =>
      rcases IStream.number_cut n k with ⟨str', hgood, hread⟩
      rw [IStream.number_cons_space (by decide), hread]
      exact ⟨_, rfl, Or.inl ⟨hgood, by omega⟩⟩
    next hlt =>
      rw [number_field, IStream.cutNumber_of_le (Nat.le_of_not_le hlt)]
      exact ⟨_, rfl, Or.inr rfl⟩

theorem Before.word {str : IStream} {m g : Str} (hm : IStream.IsWord m) {k : ℕ}
    (h : Before str (m ++ ' ' :: g) k) :
    ∃ str', str.word = (str', IStream.cutWord m k) ∧ Before str' g (k - 1 - m.length) := by
  rcases h with ⟨hgood, rfl⟩ | rfl
  · exact ⟨_, IStream.word_of_not_good hgood, Or.inl ⟨IStream.good_fail _, Nat.zero_sub _⟩⟩
  · rw [take_field]
    split
    next hle =>
      rcases IStream.word_cut hm k with ⟨str', hgood, hread⟩
      rw [IStream.word_cons_space (by decide), hread]
      exact ⟨_, rfl, Or.inl ⟨hgood, by omega⟩⟩
    next hlt =>
      rw [word_field hm (by decide), IStream.cutWord_of_le hm (Nat.le_of_not_le hlt)]
      exact ⟨_, rfl, Or.inr rfl⟩

/-- A name that ends the line. -/
theorem Before.last_word {str : IStream} {m : Str} (hm : IStream.IsWord m) {k : ℕ}
    (h : Before str m k) :
    ∃ str', str.word = (str', IStream.cutWord m k) ∧ str'.good = false := by
  rcases h with ⟨hgood, rfl⟩ | rfl
  · exact ⟨_, IStream.word_of_not_good hgood, IStream.good_fail _⟩
  · rcases IStream.word_cut hm k with ⟨str', hgood, hread⟩
    rw [IStream.word_cons_space (by decide), hread]
    exact ⟨_, rfl, hgood⟩

/-- A value that ends the line; if it is not reached, `v` is left empty. -/
theorem Before.value {str : IStream} {v : Str} (hv : '\n' ∉ v) {k : ℕ} (h : Before str v k) :
    ∃ str' l, str.get.getline = (str', l) ∧ l.getD [] = v.take k ∧ str'.good = false := by
  rcases h with ⟨hgood, rfl⟩ | rfl
  · rw [IStream.get_of_not_good hgood, IStream.getline_of_not_good (IStream.good_fail _)]
    exact ⟨_, _, rfl, rfl, IStream.good_fail _⟩
  · rcases IStream.getline_cut fun h : '\n' ∈ v.take k => hv (List.mem_of_mem_take h) with
      ⟨str', hgood, hread⟩
    rw [IStream.get_cons, hread]
    exact ⟨_, _, rfl, rfl, hgood⟩

/-- A line that breaks off is read as the piece that is left of it: one pass of the loop for the
fields and one that finds the stream at its end. -/
theorem logreadLoop_cut {r : Record} (hr : r.Wf) {k : ℕ} (hk : k < r.text.length) (fuel : ℕ)
    (inst : UInt32) (s : Acceptor) :
    logreadLoop (fuel + 2) (IStream.ofText (r.text.take k)) inst s = (r.cut k).read inst s := by
  cases r with
  | done i v =>
      have htext : (Record.done i v).text =
          ("done".toList ++ ' ' :: (IStream.digits i ++ ' ' :: v)) ++ ['\n'] := by
        simp [Record.text, loginstance]
      rw [take_line htext hk, Record.cut]
      by_cases hkw : k < 4
      · -- no prefix of a keyword is a keyword
        rw [List.take_append_of_le_length (Nat.le_of_lt hkw)]
        interval_cases k <;> rfl
      · rw [if_neg (by omega), if_neg hkw]
        rcases word_before isWord_done (IStream.digits i ++ ' ' :: v) (Nat.le_of_not_lt hkw) with
          ⟨str₁, hword, hfail, hbefore₁⟩
        rcases hbefore₁.number with ⟨str₂, hnumber, hbefore₂⟩
        rcases hbefore₂.value hr with ⟨str₃, l, hvalue, hl, hgood⟩
        rw [logreadLoop, hword]
        simp only [hfail, hnumber, hvalue, hl, logreadLoop_of_not_good hgood, Piece.read,
          Bool.false_eq_true, if_false, if_true, Nat.sub_sub]
        rfl
  | propseen n =>
      have htext : (Record.propseen n).text =
          ("propseen".toList ++ ' ' :: (IStream.digits n.n ++ ' ' :: n.m)) ++ ['\n'] := by
        simp [Record.text, logprop]
      rw [take_line htext hk, Record.cut]
      by_cases hkw : k < 8
      · rw [List.take_append_of_le_length (Nat.le_of_lt hkw)]
        interval_cases k <;> rfl
      · rw [if_neg (by omega), if_neg hkw]
        rcases word_before isWord_propseen (IStream.digits n.n ++ ' ' :: n.m)
          (Nat.le_of_not_lt hkw) with ⟨str₁, hword, hfail, hbefore₁⟩
        rcases hbefore₁.number with ⟨str₂, hnumber, hbefore₂⟩
        rcases hbefore₂.last_word hr with ⟨str₃, hname, hgood⟩
        rw [logreadLoop, hword]
        simp only [hfail, hnumber, hname, logreadLoop_of_not_good hgood, Piece.read,
          Bool.false_eq_true, if_false, if_true, Nat.sub_sub]
        rfl
  | accepted n v =>
      have htext : (Record.accepted n v).text =
          ("accepted".toList ++ ' ' :: (IStream.digits n.n ++ ' ' :: (n.m ++ ' ' :: v))) ++
            ['\n'] := by
        simp [Record.text, logaccept]
      rw [take_line htext hk, Record.cut]
      by_cases hkw : k < 8
      · rw [List.take_append_of_le_length (Nat.le_of_lt hkw)]
        interval_cases k <;> rfl
      · rw [if_neg (by omega), if_neg hkw]
        rcases word_before isWord_accepted (IStream.digits n.n ++ ' ' :: (n.m ++ ' ' :: v))
          (Nat.le_of_not_lt hkw) with ⟨str₁, hword, hfail, hbefore₁⟩
        rcases hbefore₁.number with ⟨str₂, hnumber, hbefore₂⟩
        rcases hbefore₂.word hr.1 with ⟨str₃, hname, hbefore₃⟩
        rcases hbefore₃.value hr.2 with ⟨str₄, l, hvalue, hl, hgood⟩
        rw [logreadLoop, hword]
        simp only [hfail, hnumber, hname, hvalue, hl, logreadLoop_of_not_good hgood, Piece.read,
          Bool.false_eq_true, if_false, if_true, Nat.sub_sub]
        rfl

/-! ## The whole log -/

/-- The acceptor that the records complete in the first `n` characters of the log stand for. -/
def replayed (s : Acceptor) (rs : List Record) (n : ℕ) : Acceptor :=
  (complete rs n).foldl Record.apply { s with file := (written rs).take n }

/-- What is left of the line after them. -/
def piece : List Record → ℕ → Piece
  | [], _ => .nothing
  | r :: rs, n => if r.text.length ≤ n then piece rs (n - r.text.length) else r.cut n

theorem logreadLoop_remnant (rs : List Record) (hrs : ∀ r ∈ rs, r.Wf) (fuel : ℕ) (inst : UInt32)
    (s : Acceptor) : ∀ n, logreadLoop (fuel + 2) (IStream.ofText (remnant rs n)) inst s =
      (piece rs n).read inst s := by
  induction rs with
  | nil => exact fun n => rfl
  | cons r rs ih =>
      intro n
      rw [remnant, piece]
      split
      next => exact ih (fun r' hr' => hrs r' (List.mem_cons_of_mem _ hr')) _
      next h => exact logreadLoop_cut (hrs r List.mem_cons_self) (Nat.lt_of_not_le h) fuel inst s

/-- A log cut after any number of characters is read back to the records complete in it exactly if
what is left of the line after them is harmless. -/
theorem torn_log_survives (junk : UInt32) (s : Acceptor) (rs : List Record)
    (hrs : ∀ r ∈ rs, r.Wf) (n : ℕ) :
    logread junk { s with file := (written rs).take n } = some (replayed s rs n) ↔
      (piece rs n).Harmless ((complete rs n).foldl Record.instanceAfter junk)
        (replayed s rs n) := by
  have hfile : (written rs).take n = lines (complete rs n) ++ remnant rs n := by
    rw [written_eq_lines, take_lines]
  have hwf : ∀ r ∈ complete rs n, r.Wf := fun r hr => hrs r (mem_of_mem_complete rs n hr)
  rcases logreadLoop_lines_append (complete rs n) hwf (remnant rs n)
      (((written rs).take n).length + 1) junk { s with file := (written rs).take n }
      (by rw [hfile]; exact Nat.lt_succ_self _) with ⟨fuel, hfuel, hloop⟩
  rw [← hfile] at hloop
  -- the loop has to see the end of the text, which one unit of fuel above it allows
  have hfuel' := logreadLoop_fuel fuel (fuel + 2) (IStream.ofText (remnant rs n))
    ((complete rs n).foldl Record.instanceAfter junk) (replayed s rs n) hfuel
    (Nat.lt_add_right 2 hfuel)
  rw [← Piece.read_eq_self_iff, ← logreadLoop_remnant rs hrs fuel, ← hfuel']
  exact Eq.congr_left hloop

/-- A promise, and the same round again of which the name was not written any more. -/
def tornPromise : List Record :=
  [.propseen { n := 12, m := "a".toList }, .propseen { n := 12, m := "b".toList }]

theorem tornPromise_survives :
    remnant tornPromise 25 = "propseen 12".toList ∧
      logread 0 (fresh "a".toList ((written tornPromise).take 25)) =
        some (replayed (fresh "a".toList []) tornPromise 25) := by
  refine ⟨by decide +kernel, ?_⟩
  have hwf : ∀ r ∈ tornPromise, r.Wf := by
    intro r hr
    rcases List.mem_pair.1 hr with rfl | rfl
    · exact (by decide : IStream.IsWord "a".toList)
    · exact (by decide : IStream.IsWord "b".toList)
  exact (torn_log_survives 0 (fresh "a".toList []) tornPromise hwf 25).2 (by decide +kernel)

/-- Three cuts inside the only line of a log, none of which leaves a complete record: a cut
keyword fails `VERIFY`, a cut instance number moves the acceptor to instance 1, and a cut round
number makes it promise round 1. -/
theorem torn_log_misread :
    (logread 0 (fresh "a".toList ((written [.done 12 "v".toList]).take 3))).isNone = true ∧
      (logread 0 (fresh "a".toList ((written [.done 12 "v".toList]).take 6))).map
        Acceptor.instanceH = some 1 ∧
      (replayed (fresh "a".toList []) [.done 12 "v".toList] 6).instanceH = 0 ∧
      (logread 0 (fresh "a".toList
        ((written [.propseen { n := 12, m := "b".toList }]).take 10))).map
        (fun s => s.nH.n) = some 1 ∧
      (replayed (fresh "a".toList []) [.propseen { n := 12, m := "b".toList }] 10).nH.n = 0 := by
  decide +kernel

end Paxos
end Yfs

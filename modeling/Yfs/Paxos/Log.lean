import Mathlib.Logic.Function.Basic
import Yfs.Lib.IStream
import Yfs.Paxos.Protocol

/-!
# Log — the durable log of an acceptor

`log.cc` keeps the durable state of Paxos in a text file of lines

```
done <instance> <value>
propseen <n> <m>
accepted <n> <m> <value>
```

This file has the acceptor's state, the three writers, `logread`, `dump` and `restore` as the
source has them, and above them the lines as data: a `Record` with its text and its effect.
`logread_lines` says that reading back a file of well-formed lines replays the records.
-/

namespace Yfs
namespace Paxos

open Lib

/-- The state of an `acceptor`, with the contents of its log file.  `values` is a `std::map`
that is only read through `operator[]`, so an absent key is the empty string. -/
structure Acceptor where
  me : Str
  nH : PropT
  nA : PropT
  vA : Str
  instanceH : UInt32
  values : UInt32 → Str
  file : Str

/-! ## Writers -/

def loginstance (file : Str) (inst : UInt32) (v : Str) : Str :=
  file ++ ("done".toList ++ ' ' :: (IStream.digits inst ++ ' ' :: (v ++ ['\n'])))

def logprop (file : Str) (nH : PropT) : Str :=
  file ++ ("propseen".toList ++ ' ' :: (IStream.digits nH.n ++ ' ' :: (nH.m ++ ['\n'])))

def logaccept (file : Str) (n : PropT) (v : Str) : Str :=
  file ++ ("accepted".toList ++ ' ' ::
    (IStream.digits n.n ++ ' ' :: (n.m ++ ' ' :: (v ++ ['\n']))))

/-! ## Reading the log -/

/-- What a `done` line does to the acceptor: the two round numbers fall back to 0, the names in
them stay. -/
def readDone (s : Acceptor) (inst : UInt32) (v : Str) : Acceptor :=
  { s with
    values := Function.update s.values inst v
    instanceH := inst
    vA := []
    nH := { s.nH with n := 0 }
    nA := { s.nA with n := 0 } }

/-- The loop of `logread`.  `inst` is the local variable `instance`, which keeps its value from
one line to the next; `none` is the failed `VERIFY(0)` on an unknown record.  Each pass extracts
at least one character, so `fuel` above the length of the text is never used up
(`logreadLoop_fuel`). -/
def logreadLoop : ℕ → IStream → UInt32 → Acceptor → Option Acceptor
  | 0, _, _, _ => none
  | fuel + 1, str, inst, s =>
      match str.word with
      | (_, none) => some s
      | (str, some type) =>
          if str.fail then
            some s
          else if type = "done".toList then
            let (str, i) := str.number
            let str := str.get
            let (str, v) := str.getline
            let inst := i.getD inst
            logreadLoop fuel str inst (readDone s inst (v.getD []))
          else if type = "propseen".toList then
            let (str, n) := str.number
            let (str, m) := str.word
            logreadLoop fuel str inst
              { s with nH := { n := n.getD s.nH.n, m := m.getD s.nH.m } }
          else if type = "accepted".toList then
            let (str, n) := str.number
            let (str, m) := str.word
            let str := str.get
            let (str, v) := str.getline
            logreadLoop fuel str inst
              { s with
                nA := { n := n.getD s.nA.n, m := m.getD s.nA.m }
                vA := v.getD [] }
          else
            none

/-- `log::logread`: replay the file on top of the acceptor's current state.  `junk` is what the
uninitialised local `instance` happens to hold. -/
def logread (junk : UInt32) (s : Acceptor) : Option Acceptor :=
  logreadLoop (s.file.length + 1) (IStream.ofText s.file) junk s

/-- The lines of `log::dump`: each line that `getline` yields, with its newline put back. -/
def dumpLoop : ℕ → IStream → Str
  | 0, _ => []
  | fuel + 1, str =>
      match str.getline with
      | (str, some v) => if str.fail then [] else v ++ '\n' :: dumpLoop fuel str
      | (_, none) => []

/-- `log::dump`. -/
def dump (s : Acceptor) : Str :=
  dumpLoop (s.file.length + 1) (IStream.ofText s.file)

/-- `acceptor::restore`: overwrite the file and replay it on top of the live state. -/
def restore (junk : UInt32) (s : Acceptor) (text : Str) : Option Acceptor :=
  logread junk { s with file := text }

/-- `logread` does not depend on the fuel: with more of it than there are characters, the loop
ends by itself. -/
theorem logreadLoop_fuel : ∀ (f g : ℕ) (str : IStream) (inst : UInt32) (s : Acceptor),
    str.rest.length < f → str.rest.length < g →
      logreadLoop f str inst s = logreadLoop g str inst s := by
  intro f
  induction f with
  | zero => intro g str inst s hf; omega
  | succ f ih =>
      intro g str inst s hf hg
      cases g with
      | zero => omega
      | succ g =>
          rw [logreadLoop, logreadLoop]
          rcases hw : str.word with ⟨str₁, w⟩
          cases w with
          | none => rfl
          | some type =>
              by_cases hfail : str₁.fail = true
              · simp [hfail]
              · -- the word is gone, so every recursive call is on a shorter stream
                have hlt : str₁.rest.length < str.rest.length := by
                  have := IStream.length_word_lt (s := str) (w := type) (by rw [hw])
                    (by rw [hw]; simpa using hfail)
                  simpa [hw] using this
                have h₁ := IStream.length_number_le str₁
                have h₂ := IStream.length_get_le str₁.number.1
                have h₃ := IStream.length_getline_le str₁.number.1.get
                have h₄ := IStream.length_word_le str₁.number.1
                have h₅ := IStream.length_get_le str₁.number.1.word.1
                have h₆ := IStream.length_getline_le str₁.number.1.word.1.get
                simp only [hfail, Bool.false_eq_true, if_false]
                split
                · exact ih g _ _ _ (by omega) (by omega)
                · split
                  · exact ih g _ _ _ (by omega) (by omega)
                  · split
                    · exact ih g _ _ _ (by omega) (by omega)
                    · rfl

/-! ## Lines as data -/

/-- A line of the log. -/
inductive Record
  | done (inst : UInt32) (v : Str)
  | propseen (n : PropT)
  | accepted (n : PropT) (v : Str)
  deriving DecidableEq, Repr

namespace Record

/-- The line a record is written as. -/
def text : Record → Str
  | done inst v => loginstance [] inst v
  | propseen n => logprop [] n
  | accepted n v => logaccept [] n v

/-- The names in a line are words and its value stays on the line. -/
def Wf : Record → Prop
  | done _ v => '\n' ∉ v
  | propseen n => IStream.IsWord n.m
  | accepted n v => IStream.IsWord n.m ∧ '\n' ∉ v

/-- What reading the line does to the acceptor. -/
def apply (s : Acceptor) : Record → Acceptor
  | done inst v => readDone s inst v
  | propseen n => { s with nH := n }
  | accepted n v => { s with nA := n, vA := v }

/-- What the local variable `instance` holds after the line. -/
def instanceAfter (inst : UInt32) : Record → UInt32
  | done i _ => i
  | propseen _ | accepted _ _ => inst

end Record

/-- The file that consists of these lines. -/
def lines (rs : List Record) : Str := (rs.map Record.text).flatten

@[simp] theorem lines_nil : lines [] = [] := rfl

@[simp] theorem lines_cons (r : Record) (rs : List Record) :
    lines (r :: rs) = r.text ++ lines rs := by
  simp [lines]

@[simp] theorem lines_append (rs rs' : List Record) :
    lines (rs ++ rs') = lines rs ++ lines rs' := by
  simp [lines]

theorem loginstance_lines (rs : List Record) (inst : UInt32) (v : Str) :
    loginstance (lines rs) inst v = lines (rs ++ [.done inst v]) := by
  simp [loginstance, Record.text]

theorem logprop_lines (rs : List Record) (n : PropT) :
    logprop (lines rs) n = lines (rs ++ [.propseen n]) := by
  simp [logprop, Record.text]

theorem logaccept_lines (rs : List Record) (n : PropT) (v : Str) :
    logaccept (lines rs) n v = lines (rs ++ [.accepted n v]) := by
  simp [logaccept, Record.text]

/-! ## Replaying a log -/

theorem isWord_done : IStream.IsWord "done".toList := by decide

theorem isWord_propseen : IStream.IsWord "propseen".toList := by decide

theorem isWord_accepted : IStream.IsWord "accepted".toList := by decide

theorem word_line (w : Str) (hw : IStream.IsWord w) (cs : Str) :
    (IStream.ofText (w ++ ' ' :: cs)).word = (IStream.ofText (' ' :: cs), some w) :=
  IStream.word_append hw (by decide) cs

theorem number_field (n : UInt32) (cs : Str) :
    (IStream.ofText (' ' :: (IStream.digits n ++ ' ' :: cs))).number =
      (IStream.ofText (' ' :: cs), some n) := by
  rw [IStream.number_cons_space (by decide), IStream.number_append n (by decide)]

theorem word_field {m : Str} (hm : IStream.IsWord m) {c : Char}
    (hc : isSpace c = true) (cs : Str) :
    (IStream.ofText (' ' :: (m ++ c :: cs))).word = (IStream.ofText (c :: cs), some m) := by
  rw [IStream.word_cons_space (by decide), IStream.word_append hm hc]

/-- A file whose next character is a newline that an earlier line left behind reads the same. -/
theorem logreadLoop_newline (fuel : ℕ) (cs : Str) (inst : UInt32) (s : Acceptor) :
    logreadLoop fuel (IStream.ofText ('\n' :: cs)) inst s =
      logreadLoop fuel (IStream.ofText cs) inst s := by
  cases fuel with
  | zero => rfl
  | succ fuel => simp only [logreadLoop, IStream.word_cons_space (by decide : isSpace '\n' = true)]

/-- Reading one line applies its record and goes on with the rest of the file. -/
theorem logreadLoop_record {r : Record} (hr : r.Wf) (fuel : ℕ) (cs : Str) (inst : UInt32)
    (s : Acceptor) :
    logreadLoop (fuel + 1) (IStream.ofText (r.text ++ cs)) inst s =
      logreadLoop fuel (IStream.ofText cs) (r.instanceAfter inst) (r.apply s) := by
  cases r with
  | done i v =>
      have htext : (Record.done i v).text ++ cs =
          "done".toList ++ ' ' :: (IStream.digits i ++ ' ' :: (v ++ '\n' :: cs)) := by
        simp [Record.text, loginstance]
      have hfail : (IStream.ofText (' ' :: (IStream.digits i ++ ' ' :: (v ++ '\n' :: cs)))).fail =
          false := rfl
      have hv : '\n' ∉ v := hr
      rw [htext, logreadLoop, word_line _ isWord_done]
      simp only [hfail, number_field, IStream.get_cons, IStream.getline_append hv,
        Option.getD_some, Record.apply]
      rfl
  | propseen n =>
      have htext : (Record.propseen n).text ++ cs =
          "propseen".toList ++ ' ' :: (IStream.digits n.n ++ ' ' :: (n.m ++ '\n' :: cs)) := by
        simp [Record.text, logprop]
      have hfail : (IStream.ofText (' ' :: (IStream.digits n.n ++ ' ' :: (n.m ++ '\n' :: cs)))).fail
          = false := rfl
      have hm : IStream.IsWord n.m := hr
      rw [htext, logreadLoop, word_line _ isWord_propseen]
      simp only [hfail, number_field, word_field hm (by decide : isSpace '\n' = true),
        Option.getD_some, logreadLoop_newline, Record.apply]
      rfl
  | accepted n v =>
      have htext : (Record.accepted n v).text ++ cs =
          "accepted".toList ++ ' ' ::
            (IStream.digits n.n ++ ' ' :: (n.m ++ ' ' :: (v ++ '\n' :: cs))) := by
        simp [Record.text, logaccept]
      have hfail : (IStream.ofText (' ' ::
          (IStream.digits n.n ++ ' ' :: (n.m ++ ' ' :: (v ++ '\n' :: cs))))).fail = false := rfl
      have hm : IStream.IsWord n.m := hr.1
      have hv : '\n' ∉ v := hr.2
      rw [htext, logreadLoop, word_line _ isWord_accepted]
      simp only [hfail, number_field, word_field hm (by decide : isSpace ' ' = true),
        IStream.get_cons, IStream.getline_append hv, Option.getD_some, Record.apply]
      rfl

theorem text_length_pos (r : Record) : 0 < r.text.length := by
  cases r <;> simp [Record.text, loginstance, logprop, logaccept]

/-- The whole lines are replayed before the rest of the text is looked at. -/
theorem logreadLoop_lines_append (rs : List Record) (hrs : ∀ r ∈ rs, r.Wf) (cs : Str) :
    ∀ (fuel : ℕ) (inst : UInt32) (s : Acceptor), (lines rs ++ cs).length < fuel →
      ∃ fuel', cs.length < fuel' ∧
        logreadLoop fuel (IStream.ofText (lines rs ++ cs)) inst s =
          logreadLoop fuel' (IStream.ofText cs) (rs.foldl Record.instanceAfter inst)
            (rs.foldl Record.apply s) := by
  induction rs with
  | nil =>
      intro fuel inst s hfuel
      exact ⟨fuel, hfuel, rfl⟩
  | cons r rs ih =>
      intro fuel inst s hfuel
      cases fuel with
      | zero => omega
      | succ fuel =>
          have hlen : (lines rs ++ cs).length < fuel := by
            have hpos := text_length_pos r
            rw [lines_cons, List.append_assoc, List.length_append] at hfuel
            omega
          rw [lines_cons, List.append_assoc, logreadLoop_record (hrs r (by simp)), List.foldl_cons,
            List.foldl_cons]
          exact ih (fun r' hr' => hrs r' (by simp [hr'])) fuel _ (r.apply s) hlen

/-- Reading back a file of well-formed lines replays the records, in order. -/
theorem logreadLoop_lines (rs : List Record) (hrs : ∀ r ∈ rs, r.Wf) (fuel : ℕ) (inst : UInt32)
    (s : Acceptor) (hfuel : (lines rs).length < fuel) :
    logreadLoop fuel (IStream.ofText (lines rs)) inst s = some (rs.foldl Record.apply s) := by
  rcases logreadLoop_lines_append rs hrs [] fuel inst s (by simpa using hfuel) with
    ⟨fuel', hpos, hloop⟩
  rw [List.append_nil] at hloop
  rw [hloop]
  cases fuel' with
  | zero => exact absurd hpos (Nat.not_lt_zero _)
  | succ fuel' => simp [logreadLoop, IStream.word_nil]

/-- `logread` of a file of well-formed lines replays the records on top of the live state. -/
theorem logread_lines {rs : List Record} (hrs : ∀ r ∈ rs, r.Wf) (junk : UInt32) {s : Acceptor}
    (hs : s.file = lines rs) : logread junk s = some (rs.foldl Record.apply s) := by
  rw [logread, hs]
  exact logreadLoop_lines rs hrs _ junk s (Nat.lt_succ_self _)

/-! ## Dumping a log -/

theorem newline_notMem_of_isWord {w : Str} (hw : IStream.IsWord w) : '\n' ∉ w := by
  intro h
  exact absurd (hw.2 _ h) (by decide)

/-- The text of a well-formed record is one line. -/
theorem Record.exists_line {r : Record} (hr : r.Wf) : ∃ l, r.text = l ++ ['\n'] ∧ '\n' ∉ l := by
  have hdigits : ∀ n : UInt32, '\n' ∉ IStream.digits n := fun n =>
    newline_notMem_of_isWord (IStream.isWord_digits n)
  cases r with
  | done inst v =>
      refine ⟨"done".toList ++ ' ' :: (IStream.digits inst ++ ' ' :: v), ?_, ?_⟩
      · simp [Record.text, loginstance]
      · simpa [hdigits, Record.Wf] using hr
  | propseen n =>
      refine ⟨"propseen".toList ++ ' ' :: (IStream.digits n.n ++ ' ' :: n.m), ?_, ?_⟩
      · simp [Record.text, logprop]
      · simpa [hdigits] using newline_notMem_of_isWord hr
  | accepted n v =>
      refine ⟨"accepted".toList ++ ' ' :: (IStream.digits n.n ++ ' ' :: (n.m ++ ' ' :: v)), ?_, ?_⟩
      · simp [Record.text, logaccept]
      · simpa [hdigits] using ⟨newline_notMem_of_isWord hr.1, hr.2⟩

theorem dumpLoop_lines (rs : List Record) (hrs : ∀ r ∈ rs, r.Wf) :
    ∀ fuel, (lines rs).length < fuel → dumpLoop fuel (IStream.ofText (lines rs)) = lines rs := by
  induction rs with
  | nil =>
      intro fuel hfuel
      cases fuel with
      | zero => omega
      | succ fuel => rfl
  | cons r rs ih =>
      intro fuel hfuel
      cases fuel with
      | zero => omega
      | succ fuel =>
          rcases Record.exists_line (hrs r (by simp)) with ⟨l, htext, hl⟩
          have hlen : (lines rs).length < fuel := by
            have := text_length_pos r
            rw [lines_cons, List.length_append] at hfuel
            omega
          have hrest := ih (fun r' hr' => hrs r' (by simp [hr'])) fuel hlen
          have hfail : (IStream.ofText (lines rs)).fail = false := rfl
          rw [lines_cons, htext, List.append_assoc, List.singleton_append, dumpLoop,
            IStream.getline_append hl]
          simp only [hfail, Bool.false_eq_true, if_false, hrest]

end Paxos
end Yfs

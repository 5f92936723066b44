import Mathlib.Data.List.Basic
import Mathlib.Data.List.TakeWhile

/-!
# IStream — formatted input from a character stream

The part of `std::istream` that a line-oriented text format needs: `>>` into a word, `>>` into
an unsigned number, `get` and `getline`, with the `eofbit` and the `failbit`.  An extraction on
a stream that is no longer good leaves its variable alone, which is what `none` stands for.

Besides the operations, this file has the rules by which text that was written with the
matching `<<` operators is read back: `word_append`, `number_append`, `getline_append`, and
`word_cut`, `number_cut` and `getline_cut` for a text that breaks off in a field.
-/

namespace Yfs
namespace Lib

/-- `isspace` of the C locale. -/
def isSpace (c : Char) : Bool :=
  c = ' ' || c = '\t' || c = '\n' || c = '\x0b' || c = '\x0c' || c = '\r'

/-- A stream: the characters not yet extracted and the two state bits. -/
structure IStream where
  rest : List Char
  eof : Bool
  fail : Bool
  deriving DecidableEq, Repr

namespace IStream

/-- A freshly opened stream over a text. -/
def ofText (cs : List Char) : IStream :=
  { rest := cs
    eof := false
    fail := false }

/-- `ios::good`. -/
def good (s : IStream) : Bool := !s.eof && !s.fail

/-- The sentry of a formatted extraction: skip white space, and fail at the end of the text. -/
def skipws (s : IStream) : IStream :=
  if s.good then
    match s.rest.dropWhile isSpace with
    | [] => { rest := [], eof := true, fail := true }
    | c :: cs => { s with rest := c :: cs }
  else
    { s with fail := true }

/-- `from >> w` for a string `w`. -/
def word (s : IStream) : IStream × Option (List Char) :=
  let s' := s.skipws
  if s'.good then
    let w := s'.rest.takeWhile fun c => !isSpace c
    let cs := s'.rest.dropWhile fun c => !isSpace c
    ({ rest := cs, eof := cs.isEmpty, fail := w.isEmpty }, some w)
  else
    (s', none)

/-- The optional sign that `num_get` accepts before the digits. -/
def splitSign : List Char → Bool × List Char
  | '-' :: cs => (true, cs)
  | '+' :: cs => (false, cs)
  | cs => (false, cs)

/-- `from >> n` for an unsigned `n` of `UInt32.size` values.  Without a digit the value read is 0,
past the range it is the largest one, and both fail. -/
def number (s : IStream) : IStream × Option UInt32 :=
  let s' := s.skipws
  if s'.good then
    let (neg, cs) := splitSign s'.rest
    let ds := cs.takeWhile Char.isDigit
    let cs' := cs.dropWhile Char.isDigit
    let v := Nat.ofDigitChars 10 ds 0
    if ds.isEmpty then
      ({ rest := cs', eof := cs'.isEmpty, fail := true }, some 0)
    else if UInt32.size ≤ v then
      ({ rest := cs', eof := cs'.isEmpty, fail := true }, some (UInt32.ofNat (UInt32.size - 1)))
    else if neg then
      ({ rest := cs', eof := cs'.isEmpty, fail := false }, some (0 - UInt32.ofNat v))
    else
      ({ rest := cs', eof := cs'.isEmpty, fail := false }, some (UInt32.ofNat v))
  else
    (s', none)

/-- `from.get()`, with the character thrown away. -/
def get (s : IStream) : IStream :=
  if s.good then
    match s.rest with
    | [] => { rest := [], eof := true, fail := true }
    | _ :: cs => { s with rest := cs }
  else
    { s with fail := true }

/-- `getline(from, l)`: the newline is extracted and thrown away. -/
def getline (s : IStream) : IStream × Option (List Char) :=
  if s.good then
    let l := s.rest.takeWhile fun c => c != '\n'
    match s.rest.dropWhile fun c => c != '\n' with
    | [] => ({ rest := [], eof := true, fail := l.isEmpty }, some l)
    | _ :: cs => ({ s with rest := cs }, some l)
  else
    ({ s with fail := true }, none)

/-! ## Reading back what was written -/

@[simp] theorem good_ofText (cs : List Char) : (ofText cs).good = true := rfl

@[simp] theorem rest_ofText (cs : List Char) : (ofText cs).rest = cs := rfl

theorem skipws_ofText_of_head {c : Char} {cs : List Char} (hc : isSpace c = false) :
    (ofText (c :: cs)).skipws = ofText (c :: cs) := by
  simp [skipws, ofText, good, hc]

/-- White space in front of a formatted extraction does not matter. -/
theorem skipws_ofText_cons_space {c : Char} {cs : List Char} (hc : isSpace c = true) :
    (ofText (c :: cs)).skipws = (ofText cs).skipws := by
  simp [skipws, ofText, good, hc]

theorem skipws_ofText_nil : (ofText []).skipws = { rest := [], eof := true, fail := true } := by
  simp [skipws, ofText, good]

/-- A word is a non-empty text without white space. -/
def IsWord (w : List Char) : Prop := w ≠ [] ∧ ∀ c ∈ w, isSpace c = false

-- by a pass over the text: `Char` has other instances that decide a bounded quantifier
instance (w : List Char) : Decidable (IsWord w) :=
  decidable_of_iff (w ≠ [] ∧ (w.all fun c => !isSpace c) = true) (by simp [IsWord])

theorem takeWhile_append_stop {p : Char → Bool} {w : List Char} {c : Char} (cs : List Char)
    (hw : ∀ d ∈ w, p d = true) (hc : p c = false) :
    (w ++ c :: cs).takeWhile p = w ∧ (w ++ c :: cs).dropWhile p = c :: cs := by
  induction w with
  | nil => simp [hc]
  | cons d ds ih =>
      have hd : p d = true := hw d (by simp)
      have hds : ∀ e ∈ ds, p e = true := fun e he => hw e (by simp [he])
      simp [hd, ih hds]

theorem word_append {w : List Char} (hw : IsWord w) {c : Char} (hc : isSpace c = true)
    (cs : List Char) : (ofText (w ++ c :: cs)).word = (ofText (c :: cs), some w) := by
  rcases hw with ⟨hne, hall⟩
  cases w with
  | nil => exact absurd rfl hne
  | cons d ds =>
      have hskip : (ofText (d :: ds ++ c :: cs)).skipws = ofText (d :: ds ++ c :: cs) :=
        skipws_ofText_of_head (hall d (by simp))
      have hsplit := takeWhile_append_stop (p := fun e => !isSpace e) (w := d :: ds) (c := c)
        cs (by intro e he; simp [hall e he]) (by simp [hc])
      have hword : (ofText (d :: ds ++ c :: cs)).word =
          ({ rest := (d :: ds ++ c :: cs).dropWhile fun e => !isSpace e
             eof := ((d :: ds ++ c :: cs).dropWhile fun e => !isSpace e).isEmpty
             fail := ((d :: ds ++ c :: cs).takeWhile fun e => !isSpace e).isEmpty },
            some ((d :: ds ++ c :: cs).takeWhile fun e => !isSpace e)) := by
        simp only [word, hskip, good_ofText, rest_ofText, if_true]
      rw [hword, hsplit.1, hsplit.2]
      rfl

/-- A word that ends the text is read with the `eofbit` set. -/
theorem word_end {w : List Char} (hw : IsWord w) :
    (ofText w).word = ({ rest := [], eof := true, fail := false }, some w) := by
  rcases hw with ⟨hne, hall⟩
  cases w with
  | nil => exact absurd rfl hne
  | cons d ds =>
      have hskip : (ofText (d :: ds)).skipws = ofText (d :: ds) :=
        skipws_ofText_of_head (hall d (by simp))
      have hall' : ∀ e ∈ d :: ds, (!isSpace e) = true := by
        intro e he
        simp [hall e he]
      have htake : ((d :: ds).takeWhile fun e => !isSpace e) = d :: ds :=
        List.takeWhile_eq_self_iff.mpr hall'
      have hdrop : ((d :: ds).dropWhile fun e => !isSpace e) = [] :=
        List.dropWhile_eq_nil_iff.mpr hall'
      simp only [word, hskip, good_ofText, rest_ofText, if_true, htake, hdrop]
      rfl

/-- What `>>` extracts without failing is a word. -/
theorem isWord_of_word {s s' : IStream} {w : List Char} (h : s.word = (s', some w))
    (hfail : s'.fail = false) : IsWord w := by
  unfold word at h
  simp only at h
  split at h
  · cases h
    refine ⟨?_, ?_⟩
    · intro hnil
      simp [hnil] at hfail
    · intro c hc
      have := List.mem_takeWhile_imp hc
      simpa using this
  · cases h

theorem word_cons_space {c : Char} (hc : isSpace c = true) (cs : List Char) :
    (ofText (c :: cs)).word = (ofText cs).word := by
  simp [word, skipws_ofText_cons_space hc]

theorem word_nil : (ofText []).word = ({ rest := [], eof := true, fail := true }, none) := by
  simp [word, skipws_ofText_nil, good]

/-- The decimal digits that `<<` writes for an unsigned number. -/
def digits (n : UInt32) : List Char := Nat.toDigits 10 n.toNat

theorem isDigit_of_mem_digits {n : UInt32} {c : Char} (h : c ∈ digits n) : c.isDigit = true :=
  Nat.isDigit_of_mem_toDigits (by decide) (by decide) h

theorem isSpace_eq_false_of_isDigit {c : Char} (h : c.isDigit = true) : isSpace c = false := by
  cases hs : isSpace c with
  | false => rfl
  | true =>
      have hcase : c = ' ' ∨ c = '\t' ∨ c = '\n' ∨ c = '\x0b' ∨ c = '\x0c' ∨ c = '\r' := by
        simpa [isSpace, or_assoc] using hs
      rcases hcase with rfl | rfl | rfl | rfl | rfl | rfl <;> exact absurd h (by decide)

theorem splitSign_of_isDigit {c : Char} (cs : List Char) (h : c.isDigit = true) :
    splitSign (c :: cs) = (false, c :: cs) := by
  have hm : c ≠ '-' := by rintro rfl; exact absurd h (by decide)
  have hp : c ≠ '+' := by rintro rfl; exact absurd h (by decide)
  unfold splitSign
  split
  · rename_i heq; exact absurd (List.cons.inj heq).1 hm
  · rename_i heq; exact absurd (List.cons.inj heq).1 hp
  · rfl

theorem isWord_digits (n : UInt32) : IsWord (digits n) :=
  ⟨Nat.toDigits_ne_nil, fun _ hc => isSpace_eq_false_of_isDigit (isDigit_of_mem_digits hc)⟩

theorem ofNat_ofDigitChars_digits (n : UInt32) :
    UInt32.ofNat (Nat.ofDigitChars 10 (digits n) 0) = n := by
  simp [digits]

/-- A number that `<<` wrote is read back, whatever non-digit follows it. -/
theorem number_append (n : UInt32) {c : Char} (hc : c.isDigit = false) (cs : List Char) :
    (ofText (digits n ++ c :: cs)).number = (ofText (c :: cs), some n) := by
  have hsplit := takeWhile_append_stop (p := Char.isDigit) (w := digits n) (c := c) cs
    (fun d hd => isDigit_of_mem_digits hd) hc
  have hlt : ¬ UInt32.size ≤ Nat.ofDigitChars 10 (digits n) 0 := by
    simpa [digits] using n.toNat_lt
  cases hds : digits n with
  | nil => exact absurd hds (isWord_digits n).1
  | cons d ds =>
      have hd : d.isDigit = true := isDigit_of_mem_digits (n := n) (by simp [hds])
      have hskip : (ofText (d :: (ds ++ c :: cs))).skipws = ofText (d :: (ds ++ c :: cs)) :=
        skipws_ofText_of_head (isSpace_eq_false_of_isDigit hd)
      have hne : ((d :: ds).isEmpty) = false := rfl
      rw [hds, List.cons_append] at hsplit
      rw [hds] at hlt
      simp only [number, List.cons_append, hskip, good_ofText, rest_ofText, if_true,
        splitSign_of_isDigit _ hd, hsplit.1, hsplit.2, hne, hlt, if_false, Bool.false_eq_true]
      rw [← hds, ofNat_ofDigitChars_digits]
      rfl

theorem number_cons_space {c : Char} (hc : isSpace c = true) (cs : List Char) :
    (ofText (c :: cs)).number = (ofText cs).number := by
  simp [number, skipws_ofText_cons_space hc]

theorem get_cons (c : Char) (cs : List Char) : (ofText (c :: cs)).get = ofText cs := rfl

/-- A line without a newline in it is read back up to the newline that ends it. -/
theorem getline_append {l : List Char} (hl : '\n' ∉ l) (cs : List Char) :
    (ofText (l ++ '\n' :: cs)).getline = (ofText cs, some l) := by
  have hsplit := takeWhile_append_stop (p := fun d => d != '\n') (w := l) (c := '\n') cs
    (by intro d hd; simpa using fun h : d = '\n' => hl (h ▸ hd)) (by decide)
  simp only [getline, good_ofText, rest_ofText, if_true, hsplit.1, hsplit.2]
  rfl

/-! ## A text that breaks off

The extraction that comes to the end leaves the stream no longer good, and from there on no other
one does anything. -/

theorem good_fail (s : IStream) : ({ s with fail := true } : IStream).good = false := by
  simp [good]

theorem word_of_not_good {s : IStream} (h : s.good = false) :
    s.word = ({ s with fail := true }, none) := by
  simp [word, skipws, h, good_fail]

theorem number_of_not_good {s : IStream} (h : s.good = false) :
    s.number = ({ s with fail := true }, none) := by
  simp [number, skipws, h, good_fail]

theorem get_of_not_good {s : IStream} (h : s.good = false) : s.get = { s with fail := true } := by
  simp [get, h]

theorem getline_of_not_good {s : IStream} (h : s.good = false) :
    s.getline = ({ s with fail := true }, none) := by
  simp [getline, h]

/-- The number that the first `k` digits of `n` stand for. -/
def cutNumber (n : UInt32) (k : ℕ) : Option UInt32 :=
  if k = 0 then none else some (UInt32.ofNat (Nat.ofDigitChars 10 ((digits n).take k) 0))

def cutWord (w : List Char) (k : ℕ) : Option (List Char) :=
  if k = 0 then none else some (w.take k)

theorem cutNumber_of_le {n : UInt32} {k : ℕ} (h : (digits n).length ≤ k) :
    cutNumber n k = some n := by
  have hpos := List.length_pos_iff.mpr (isWord_digits n).1
  rw [cutNumber, if_neg (by omega), List.take_of_length_le h, ofNat_ofDigitChars_digits]

theorem cutWord_of_le {w : List Char} (hw : IsWord w) {k : ℕ} (h : w.length ≤ k) :
    cutWord w k = some w := by
  have hpos := List.length_pos_iff.mpr hw.1
  rw [cutWord, if_neg (by omega), List.take_of_length_le h]

theorem ofDigitChars_le_append (ds es : List Char) :
    Nat.ofDigitChars 10 ds 0 ≤ Nat.ofDigitChars 10 (ds ++ es) 0 := by
  have hgrows : ∀ init, init ≤ Nat.ofDigitChars 10 es init := by
    induction es with
    | nil => exact fun init => Nat.le_refl _
    | cons c cs ih =>
        intro init
        rw [Nat.ofDigitChars_cons]
        exact Nat.le_trans (by omega) (ih _)
  rw [Nat.ofDigitChars_append]
  exact hgrows _

theorem number_cut (n : UInt32) (k : ℕ) :
    ∃ s, s.good = false ∧ (ofText ((digits n).take k)).number = (s, cutNumber n k) := by
  have hlt : ¬ UInt32.size ≤ Nat.ofDigitChars 10 ((digits n).take k) 0 := by
    have hle := ofDigitChars_le_append ((digits n).take k) ((digits n).drop k)
    rw [List.take_append_drop] at hle
    have hn : Nat.ofDigitChars 10 (digits n) 0 < UInt32.size := by
      simpa [digits] using n.toNat_lt
    omega
  have hdigit : ∀ c ∈ (digits n).take k, c.isDigit = true :=
    fun c hc => isDigit_of_mem_digits (List.mem_of_mem_take hc)
  cases k with
  | zero => exact ⟨_, rfl, rfl⟩
  | succ k =>
      refine ⟨{ rest := [], eof := true, fail := false }, rfl, ?_⟩
      rw [cutNumber, if_neg (Nat.succ_ne_zero k)]
      cases hds : (digits n).take (k + 1) with
      | nil => exact absurd hds (by simpa using (isWord_digits n).1)
      | cons d ds =>
          rw [hds] at hlt hdigit
          have hd : d.isDigit = true := hdigit d List.mem_cons_self
          have htake := List.takeWhile_eq_self_iff.mpr hdigit
          have hdrop := List.dropWhile_eq_nil_iff.mpr hdigit
          have hne : ((d :: ds).isEmpty) = false := rfl
          simp only [number, skipws_ofText_of_head (isSpace_eq_false_of_isDigit hd), good_ofText,
            rest_ofText, if_true, splitSign_of_isDigit _ hd, htake, hdrop, hne, hlt, if_false,
            Bool.false_eq_true]
          rfl

theorem word_cut {w : List Char} (hw : IsWord w) (k : ℕ) :
    ∃ s, s.good = false ∧ (ofText (w.take k)).word = (s, cutWord w k) := by
  cases k with
  | zero => exact ⟨_, rfl, word_nil⟩
  | succ k =>
      refine ⟨_, rfl, word_end ⟨?_, fun c hc => hw.2 c (List.mem_of_mem_take hc)⟩⟩
      simpa using hw.1

theorem getline_cut {l : List Char} (hl : '\n' ∉ l) :
    ∃ s, s.good = false ∧ (ofText l).getline = (s, some l) := by
  have hall : ∀ c ∈ l, (c != '\n') = true := by
    intro c hc
    simpa using fun h : c = '\n' => hl (h ▸ hc)
  refine ⟨{ rest := [], eof := true, fail := l.isEmpty }, by simp [good], ?_⟩
  simp only [getline, good_ofText, rest_ofText, if_true, List.takeWhile_eq_self_iff.mpr hall,
    List.dropWhile_eq_nil_iff.mpr hall]

/-! ## Extraction never lengthens what is left -/

theorem length_skipws_le (s : IStream) : s.skipws.rest.length ≤ s.rest.length := by
  have hdrop := (List.dropWhile_sublist isSpace (l := s.rest)).length_le
  unfold skipws
  split
  · split
    · simp
    · rename_i heq
      simpa [heq] using hdrop
  · exact Nat.le_refl _

theorem length_word_le (s : IStream) : s.word.1.rest.length ≤ s.rest.length := by
  have hskip := length_skipws_le s
  have hdrop := (List.dropWhile_sublist (fun c => !isSpace c) (l := s.skipws.rest)).length_le
  unfold word
  by_cases hg : s.skipws.good = true
  · simpa [hg] using Nat.le_trans hdrop hskip
  · simpa [hg] using hskip

/-- A word that was extracted is gone from the stream. -/
theorem length_word_lt {s : IStream} {w : List Char} (hw : s.word.2 = some w)
    (hf : s.word.1.fail = false) : s.word.1.rest.length < s.rest.length := by
  have hskip := length_skipws_le s
  unfold word at hw hf ⊢
  by_cases hg : s.skipws.good = true
  · have hne : (s.skipws.rest.takeWhile fun c => !isSpace c) ≠ [] := by
      simpa [hg] using hf
    have hsum : (s.skipws.rest.takeWhile fun c => !isSpace c).length +
        (s.skipws.rest.dropWhile fun c => !isSpace c).length = s.skipws.rest.length := by
      rw [← List.length_append, List.takeWhile_append_dropWhile]
    have hpos := List.length_pos_iff.mpr hne
    simp only [hg, if_true]
    omega
  · simp [hg] at hw

theorem length_splitSign_le (cs : List Char) : (splitSign cs).2.length ≤ cs.length := by
  unfold splitSign
  split <;> simp

theorem length_number_le (s : IStream) : s.number.1.rest.length ≤ s.rest.length := by
  have hskip := length_skipws_le s
  have hsign := length_splitSign_le s.skipws.rest
  have hdrop := (List.dropWhile_sublist Char.isDigit (l := (splitSign s.skipws.rest).2)).length_le
  have hall : ((splitSign s.skipws.rest).2.dropWhile Char.isDigit).length ≤ s.rest.length :=
    Nat.le_trans hdrop (Nat.le_trans hsign hskip)
  unfold number
  by_cases hg : s.skipws.good = true
  · simp only [hg, if_true]
    split
    · exact hall
    · split
      · exact hall
      · split <;> exact hall
  · simpa [hg] using hskip

theorem length_get_le (s : IStream) : s.get.rest.length ≤ s.rest.length := by
  unfold get
  split
  · split
    · simp
    · rename_i heq
      simp [heq]
  · exact Nat.le_refl _

theorem length_getline_le (s : IStream) : s.getline.1.rest.length ≤ s.rest.length := by
  have hdrop := (List.dropWhile_sublist (fun c => c != '\n') (l := s.rest)).length_le
  unfold getline
  split
  · simp only
    split
    · simp
    · rename_i heq
      rw [heq] at hdrop
      exact Nat.le_trans (Nat.le_succ _) hdrop
  · exact Nat.le_refl _

end IStream

end Lib
end Yfs

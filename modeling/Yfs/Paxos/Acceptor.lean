import Yfs.Paxos.Log

/-!
# Acceptor — the acceptor of `paxos.cc` and its recovery from the log

The handlers `preparereq`, `acceptreq` and `decidereq`, the two commits and the constructor, as
functions on the acceptor's state.  A failed `VERIFY` is `none`; the upcall
`cfg->paxos_commit(instance, value)` that a commit makes once its lock is dropped is an output.

`Durable s` is what links the state in memory to the text on disk: the file consists of
well-formed lines whose replay gives the state back, but for the proposer names in round
numbers that are 0.  Every handler keeps it (`durable_step`), and the constructor undoes a crash
(`acceptor_of_durable`).
-/

namespace Yfs
namespace Paxos

open Lib

/-- The state the constructor starts from, before it reads the log. -/
def fresh (me file : Str) : Acceptor :=
  { me := me
    nH := { n := 0, m := me }
    nA := { n := 0, m := me }
    vA := []
    instanceH := 0
    values := fun _ => []
    file := file }

/-- `acceptor::acceptor`, over a log file that may already be there. -/
def acceptor (junk : UInt32) (first : Bool) (me value file : Str) : Option Acceptor :=
  match logread junk (fresh me file) with
  | none => none
  | some s =>
      if s.instanceH = 0 ∧ first = true then
        some
          { s with
            values := Function.update s.values 1 value
            file := loginstance s.file 1 value
            instanceH := 1 }
      else
        some s

def preparereq (s : Acceptor) (a : PrepareArg) : Acceptor × PrepareRes :=
  if a.inst ≤ s.instanceH then
    (s,
      { oldinstance := true
        accept := false
        nA := { n := 0, m := [] }
        vA := s.values a.inst })
  else if a.n.gt s.nH then
    ({ s with
        nH := a.n
        file := logprop s.file a.n },
      { oldinstance := false
        accept := true
        nA := s.nA
        vA := s.vA })
  else
    (s,
      { oldinstance := false
        accept := false
        nA := { n := 0, m := [] }
        vA := [] })

def acceptreq (s : Acceptor) (a : AcceptArg) : Acceptor × Status × Bool :=
  -- neither the instance of the request nor `nH` plays a role beyond this comparison
  if a.n.ge s.nH then
    ({ s with
        nA := a.n
        vA := a.v
        file := logaccept s.file a.n a.v },
      .OK, true)
  else
    (s, .ERR, false)

/-- `acceptor::commit_wo` and `acceptor::commit`, with the upcall they make. -/
def commitWo (s : Acceptor) (inst : UInt32) (value : Str) : Acceptor × Option (UInt32 × Str) :=
  if s.instanceH < inst then
    ({ s with
        values := Function.update s.values inst value
        file := loginstance s.file inst value
        instanceH := inst
        nH := { n := 0, m := s.me }
        nA := { n := 0, m := s.me }
        vA := [] },
      some (inst, value))
  else
    (s, none)

def decidereq (s : Acceptor) (a : DecideArg) : Option (Acceptor × Option (UInt32 × Str)) :=
  if a.inst = s.instanceH + 1 then
    if s.vA = a.v then
      some (commitWo s a.inst s.vA)
    else
      -- VERIFY(v_a == a.v)
      none
  else if a.inst ≤ s.instanceH then
    some (s, none)
  else
    -- VERIFY(0): we are behind
    none

/-! ## What a handler does, by case -/

theorem preparereq_cases (s : Acceptor) (a : PrepareArg) :
    (a.inst ≤ s.instanceH ∧ (preparereq s a).1 = s ∧ (preparereq s a).2.oldinstance = true ∧
      (preparereq s a).2.accept = false ∧ (preparereq s a).2.vA = s.values a.inst) ∨
    (s.instanceH < a.inst ∧ s.nH < a.n ∧
      (preparereq s a).1 = { s with nH := a.n, file := logprop s.file a.n } ∧
      (preparereq s a).2 =
        { oldinstance := false, accept := true, nA := s.nA, vA := s.vA }) ∨
    (s.instanceH < a.inst ∧ a.n ≤ s.nH ∧ (preparereq s a).1 = s ∧
      (preparereq s a).2.oldinstance = false ∧ (preparereq s a).2.accept = false) := by
  by_cases hold : a.inst ≤ s.instanceH
  · left
    simp [preparereq, hold]
  · have hlt : s.instanceH < a.inst := UInt32.not_le.mp hold
    by_cases hgt : a.n.gt s.nH = true
    · right; left
      refine ⟨hlt, PropT.gt_iff.mp hgt, ?_, ?_⟩ <;> simp [preparereq, hold, hgt]
    · right; right
      have hle : a.n ≤ s.nH := not_lt.mp fun h => hgt (PropT.gt_iff.mpr h)
      refine ⟨hlt, hle, ?_, ?_, ?_⟩ <;> simp [preparereq, hold, hgt]

theorem acceptreq_cases (s : Acceptor) (a : AcceptArg) :
    (s.nH ≤ a.n ∧ acceptreq s a =
      ({ s with nA := a.n, vA := a.v, file := logaccept s.file a.n a.v }, .OK, true)) ∨
    (a.n < s.nH ∧ acceptreq s a = (s, .ERR, false)) := by
  by_cases hge : a.n.ge s.nH = true
  · left
    exact ⟨PropT.ge_iff.mp hge, by simp [acceptreq, hge]⟩
  · right
    exact ⟨not_le.mp fun h => hge (PropT.ge_iff.mpr h), by simp [acceptreq, hge]⟩

theorem commitWo_of_lt {s : Acceptor} {inst : UInt32} (h : s.instanceH < inst) (value : Str) :
    commitWo s inst value =
      ({ s with
          values := Function.update s.values inst value
          file := loginstance s.file inst value
          instanceH := inst
          nH := { n := 0, m := s.me }
          nA := { n := 0, m := s.me }
          vA := [] },
        some (inst, value)) := by
  simp [commitWo, h]

theorem commitWo_of_le {s : Acceptor} {inst : UInt32} (h : inst ≤ s.instanceH) (value : Str) :
    commitWo s inst value = (s, none) := by
  have : ¬ s.instanceH < inst := UInt32.not_lt.mpr h
  simp [commitWo, this]

/-- A decide that does not abort either commits the accepted value or changes nothing. -/
theorem decidereq_cases {s : Acceptor} {a : DecideArg} {r : Acceptor × Option (UInt32 × Str)}
    (h : decidereq s a = some r) :
    (a.inst = s.instanceH + 1 ∧ s.vA = a.v ∧ r = commitWo s a.inst a.v) ∨
      (a.inst ≤ s.instanceH ∧ r = (s, none)) := by
  by_cases hnext : a.inst = s.instanceH + 1
  · by_cases hv : s.vA = a.v
    · left
      refine ⟨hnext, hv, ?_⟩
      simpa [decidereq, ← hnext, hv] using h.symm
    · simp [decidereq, hnext, hv] at h
  · by_cases hle : a.inst ≤ s.instanceH
    · right
      refine ⟨hle, ?_⟩
      simpa [decidereq, hnext, hle] using h.symm
    · simp [decidereq, hnext, hle] at h

/-! ## The state and its log -/

/-- `r` is `s` as far as a restarted acceptor has to remember it. -/
structure SameState (r s : Acceptor) : Prop where
  instanceH : r.instanceH = s.instanceH
  values : r.values = s.values
  vA : r.vA = s.vA
  nH_n : r.nH.n = s.nH.n
  nA_n : r.nA.n = s.nA.n
  nH_m : s.nH.n ≠ 0 → r.nH.m = s.nH.m
  nA_m : s.nA.n ≠ 0 → r.nA.m = s.nA.m

/-- The log file of `s` consists of well-formed lines whose replay gives `s` back. -/
def Durable (s : Acceptor) : Prop :=
  ∃ rs : List Record, (∀ r ∈ rs, r.Wf) ∧ s.file = lines rs ∧
    ∀ file, SameState (rs.foldl Record.apply (fresh s.me file)) s

theorem foldl_apply_me_file (rs : List Record) (s : Acceptor) :
    (rs.foldl Record.apply s).me = s.me ∧ (rs.foldl Record.apply s).file = s.file := by
  induction rs generalizing s with
  | nil => exact ⟨rfl, rfl⟩
  | cons r rs ih =>
      have hr : (r.apply s).me = s.me ∧ (r.apply s).file = s.file := by
        cases r <;> exact ⟨rfl, rfl⟩
      rw [List.foldl_cons]
      exact ⟨(ih (r.apply s)).1.trans hr.1, (ih (r.apply s)).2.trans hr.2⟩

namespace SameState

variable {r s t : Acceptor}

theorem symm (h : SameState r s) : SameState s r where
  instanceH := h.instanceH.symm
  values := h.values.symm
  vA := h.vA.symm
  nH_n := h.nH_n.symm
  nA_n := h.nA_n.symm
  nH_m := fun hn => (h.nH_m (h.nH_n ▸ hn)).symm
  nA_m := fun hn => (h.nA_m (h.nA_n ▸ hn)).symm

theorem trans (h : SameState r s) (h' : SameState s t) : SameState r t where
  instanceH := h.instanceH.trans h'.instanceH
  values := h.values.trans h'.values
  vA := h.vA.trans h'.vA
  nH_n := h.nH_n.trans h'.nH_n
  nA_n := h.nA_n.trans h'.nA_n
  nH_m := fun hn => (h.nH_m (h'.nH_n ▸ hn)).trans (h'.nH_m hn)
  nA_m := fun hn => (h.nA_m (h'.nA_n ▸ hn)).trans (h'.nA_m hn)

/-- A round number that is not 0 is remembered as a whole. -/
theorem nH_eq (h : SameState r s) (hn : s.nH.n ≠ 0) : r.nH = s.nH := by
  have h₁ := h.nH_n
  have h₂ := h.nH_m hn
  cases hr : r.nH
  cases hs : s.nH
  simp_all

theorem nA_eq (h : SameState r s) (hn : s.nA.n ≠ 0) : r.nA = s.nA := by
  have h₁ := h.nA_n
  have h₂ := h.nA_m hn
  cases hr : r.nA
  cases hs : s.nA
  simp_all

theorem foldl_apply (rs : List Record) (h : SameState r s) :
    SameState (rs.foldl Record.apply r) (rs.foldl Record.apply s) := by
  induction rs generalizing r s with
  | nil => exact h
  | cons a rs ih =>
      refine ih ?_
      cases a with
      | done inst v =>
          refine ⟨rfl, ?_, rfl, rfl, rfl, ?_, ?_⟩
          · simp only [Record.apply, readDone, h.values]
          · intro hn; exact absurd rfl hn
          · intro hn; exact absurd rfl hn
      | propseen n => exact ⟨h.instanceH, h.values, h.vA, rfl, h.nA_n, fun _ => rfl, h.nA_m⟩
      | accepted n v => exact ⟨h.instanceH, h.values, rfl, h.nH_n, rfl, h.nH_m, fun _ => rfl⟩

end SameState

/-- A log is durable for every acceptor that agrees with the state it replays to. -/
theorem Durable.of_sameState {r s : Acceptor} (hs : Durable s) (h : SameState r s)
    (hfile : r.file = s.file) : Durable r := by
  rcases hs with ⟨rs, hwf, hlines, hst⟩
  refine ⟨rs, hwf, hfile.trans hlines, ?_⟩
  intro file
  have hfresh : SameState (fresh r.me file) (fresh s.me file) :=
    ⟨rfl, rfl, rfl, rfl, rfl, fun hn => absurd rfl hn, fun hn => absurd rfl hn⟩
  exact ((hfresh.foldl_apply rs).trans (hst file)).trans h.symm

/-- Appending the line for a record and making its change keeps the log durable. -/
theorem durable_append {s t : Acceptor} {r : Record} (hs : Durable s) (hr : r.Wf)
    (hme : t.me = s.me) (hfile : ∀ rs, s.file = lines rs → t.file = lines (rs ++ [r]))
    (hsame : ∀ u, SameState u s → SameState (r.apply u) t) : Durable t := by
  rcases hs with ⟨rs, hwf, hlines, hst⟩
  refine ⟨rs ++ [r], ?_, hfile rs hlines, ?_⟩
  · intro r' hr'
    rcases List.mem_append.mp hr' with h | h
    · exact hwf r' h
    · have : r' = r := by simpa using h
      exact this ▸ hr
  · intro file
    rw [List.foldl_append, List.foldl_cons, List.foldl_nil, hme]
    exact hsame _ (hst file)

theorem durable_fresh (me : Str) : Durable (fresh me []) :=
  ⟨[], by simp, rfl, fun _ => ⟨rfl, rfl, rfl, rfl, rfl, fun _ => rfl, fun _ => rfl⟩⟩

theorem durable_commitWo {s : Acceptor} (hs : Durable s) (inst : UInt32) {value : Str}
    (hv : '\n' ∉ value) : Durable (commitWo s inst value).1 := by
  by_cases hlt : s.instanceH < inst
  · rw [commitWo_of_lt hlt]
    refine durable_append (r := .done inst value) hs hv rfl ?_ ?_
    · intro rs hrs
      simp only [hrs, loginstance_lines]
    · intro u hu
      refine ⟨rfl, ?_, rfl, rfl, rfl, ?_, ?_⟩
      · simp only [Record.apply, readDone, hu.values]
      · intro hn; exact absurd rfl hn
      · intro hn; exact absurd rfl hn
  · rw [commitWo_of_le (UInt32.not_lt.mp hlt)]
    exact hs

theorem durable_preparereq {s : Acceptor} (hs : Durable s) {a : PrepareArg}
    (ha : IStream.IsWord a.n.m) : Durable (preparereq s a).1 := by
  rcases preparereq_cases s a with ⟨_, h, _⟩ | ⟨_, _, h, _⟩ | ⟨_, _, h, _⟩
  · rw [h]
    exact hs
  · rw [h]
    refine durable_append (r := .propseen a.n) hs ha rfl ?_ ?_
    · intro rs hrs
      simp only [hrs, logprop_lines]
    · intro u hu
      exact ⟨hu.instanceH, hu.values, hu.vA, rfl, hu.nA_n, fun _ => rfl, hu.nA_m⟩
  · rw [h]
    exact hs

theorem durable_acceptreq {s : Acceptor} (hs : Durable s) {a : AcceptArg}
    (ha : IStream.IsWord a.n.m) (hv : '\n' ∉ a.v) : Durable (acceptreq s a).1 := by
  rcases acceptreq_cases s a with ⟨_, h⟩ | ⟨_, h⟩
  · rw [h]
    refine durable_append (r := .accepted a.n a.v) hs ⟨ha, hv⟩ rfl ?_ ?_
    · intro rs hrs
      simp only [hrs, logaccept_lines]
    · intro u hu
      exact ⟨hu.instanceH, hu.values, rfl, hu.nH_n, rfl, hu.nH_m, fun _ => rfl⟩
  · rw [h]
    exact hs

/-- Replaying well-formed lines brings in no newline. -/
theorem newline_notMem_foldl : ∀ (rs : List Record) (t : Acceptor), (∀ r ∈ rs, r.Wf) →
    ('\n' ∉ t.vA ∧ ∀ inst, '\n' ∉ t.values inst) →
      '\n' ∉ (rs.foldl Record.apply t).vA ∧
        ∀ inst, '\n' ∉ (rs.foldl Record.apply t).values inst
  | [], _, _, ht => ht
  | r :: rs, t, hwf, ht => by
      refine newline_notMem_foldl rs (r.apply t) (fun r' hr' => hwf r' (by simp [hr'])) ?_
      have hr : r.Wf := hwf r (by simp)
      cases r with
      | done i v =>
          refine ⟨by simp [Record.apply, readDone], ?_⟩
          intro inst
          by_cases hi : inst = i
          · subst hi
            simpa [Record.apply, readDone, Record.Wf] using hr
          · simpa [Record.apply, readDone, hi] using ht.2 inst
      | propseen n => exact ht
      | accepted n v => exact ⟨hr.2, ht.2⟩

/-- The values an acceptor holds came from lines of its log, so each stays on its line. -/
theorem newline_notMem {s : Acceptor} (hs : Durable s) :
    '\n' ∉ s.vA ∧ ∀ inst, '\n' ∉ s.values inst := by
  rcases hs with ⟨rs, hwf, _, hst⟩
  have hsame := hst []
  rw [← hsame.vA, ← hsame.values]
  exact newline_notMem_foldl rs _ hwf ⟨by simp [fresh], by simp [fresh]⟩

theorem durable_decidereq {s : Acceptor} (hs : Durable s) {a : DecideArg}
    {r : Acceptor × Option (UInt32 × Str)} (h : decidereq s a = some r) : Durable r.1 := by
  rcases decidereq_cases h with ⟨_, hv, rfl⟩ | ⟨_, rfl⟩
  · exact durable_commitWo hs a.inst (hv ▸ (newline_notMem hs).1)
  · exact hs

/-! ## Recovery -/

/-- A durable acceptor that has left instance 0, or that does not bootstrap, is rebuilt from its
file; the file is left as it is. -/
theorem acceptor_of_durable {s : Acceptor} (hs : Durable s) (junk : UInt32) {first : Bool}
    (hfirst : first = true → s.instanceH ≠ 0) (value : Str) :
    ∃ r, acceptor junk first s.me value s.file = some r ∧ SameState r s ∧ r.me = s.me ∧
      r.file = s.file := by
  rcases hs with ⟨rs, hwf, hlines, hst⟩
  refine ⟨rs.foldl Record.apply (fresh s.me s.file), ?_, hst s.file, ?_, ?_⟩
  · have hread : logread junk (fresh s.me s.file) =
        some (rs.foldl Record.apply (fresh s.me s.file)) := logread_lines hwf junk hlines
    have hcond : ¬ ((rs.foldl Record.apply (fresh s.me s.file)).instanceH = 0 ∧ first = true) := by
      rintro ⟨h0, hf⟩
      exact hfirst hf ((hst s.file).instanceH ▸ h0)
    simp [acceptor, hread, hcond]
  · exact (foldl_apply_me_file rs _).1
  · exact (foldl_apply_me_file rs _).2

/-- The acceptor that a node builds over an empty log. -/
theorem acceptor_empty (junk : UInt32) (first : Bool) (me value : Str) :
    acceptor junk first me value [] =
      some (if first = true then
        { fresh me [] with
          values := Function.update (fun _ => []) 1 value
          file := loginstance [] 1 value
          instanceH := 1 }
      else fresh me []) := by
  have hread : logread junk (fresh me []) = some (fresh me []) :=
    @logread_lines [] (by simp) junk (fresh me []) rfl
  cases first with
  | false => simp [acceptor, hread]
  | true =>
      have h0 : (fresh me []).instanceH = 0 := rfl
      simp only [acceptor, hread, h0, and_self, if_true]
      rfl

theorem durable_acceptor_empty (junk : UInt32) (first : Bool) (me : Str) {value : Str}
    (hv : '\n' ∉ value) {s : Acceptor} (h : acceptor junk first me value [] = some s) :
    Durable s ∧ s.me = me ∧ (first = true → s.instanceH ≠ 0) := by
  rw [acceptor_empty] at h
  cases first with
  | false =>
      have hs : fresh me [] = s := by simpa using h
      subst hs
      exact ⟨durable_fresh me, rfl, by simp⟩
  | true =>
      have hs := Option.some.inj h
      rw [if_pos rfl] at hs
      subst hs
      refine ⟨?_, rfl, fun _ h => absurd (show (1 : UInt32) = 0 from h) (by decide)⟩
      refine durable_append (r := .done 1 value) (durable_fresh me) hv rfl ?_ ?_
      · intro rs hrs
        have hnil : lines rs = [] := hrs.symm
        rw [lines_append, hnil]
        simp [Record.text]
      · intro u hu
        refine ⟨rfl, ?_, rfl, rfl, rfl, ?_, ?_⟩
        · simp only [Record.apply, readDone, hu.values, fresh]
        · intro hn; exact absurd rfl hn
        · intro hn; exact absurd rfl hn

/-! ## Dump and restore -/

/-- A log of well-formed lines is dumped as it is. -/
theorem dump_of_lines {s : Acceptor} {rs : List Record} (hwf : ∀ r ∈ rs, r.Wf)
    (hlines : s.file = lines rs) : dump s = s.file := by
  rw [dump, hlines]
  exact dumpLoop_lines rs hwf _ (Nat.lt_succ_self _)

theorem dump_of_durable {s : Acceptor} (hs : Durable s) : dump s = s.file := by
  rcases hs with ⟨rs, hwf, hlines, _⟩
  exact dump_of_lines hwf hlines

theorem sameState_fresh_of_file_nil {s : Acceptor} (hs : Durable s) (h : s.file = []) :
    SameState (fresh s.me []) s := by
  rcases hs with ⟨rs, _, hlines, hst⟩
  cases rs with
  | nil => exact hst []
  | cons r rs =>
      have hpos := text_length_pos r
      rw [h, lines_cons] at hlines
      have := congrArg List.length hlines
      rw [List.length_append, List.length_nil] at this
      omega

/-- An acceptor that has logged nothing takes over the state whose log it restores. -/
theorem restore_of_durable {s d : Acceptor} (hs : Durable s) (hnil : s.file = [])
    (hd : Durable d) (junk : UInt32) :
    ∃ r, restore junk s d.file = some r ∧ SameState r d ∧ r.me = s.me ∧ Durable r := by
  have hd' := hd
  rcases hd with ⟨rs, hwf, hlines, hst⟩
  have hread : restore junk s d.file =
      some (rs.foldl Record.apply { s with file := d.file }) := logread_lines hwf junk hlines
  have hfresh : SameState (fresh d.me []) { s with file := d.file } := by
    have h := sameState_fresh_of_file_nil hs hnil
    exact ⟨h.instanceH, h.values, h.vA, h.nH_n, h.nA_n, fun hn => absurd h.nH_n.symm hn,
      fun hn => absurd h.nA_n.symm hn⟩
  have hsame : SameState (rs.foldl Record.apply { s with file := d.file }) d :=
    (hfresh.foldl_apply rs).symm.trans (hst [])
  have hkeep := foldl_apply_me_file rs { s with file := d.file }
  exact ⟨_, hread, hsame, hkeep.1, hd'.of_sameState hsame hkeep.2⟩

end Paxos
end Yfs

import Yfs.Paxos.Decide

/-!
# Gapless — the decided history in the log

`commit_wo` takes any instance above `instance_h`.  As long as it is called with the next one
only, the `done` lines of the log are the instances `1, 2, …, instance_h`, each once and in this
order, and `values` holds what they say and nothing else.

* `Logged rs s` — the records of the log of `s`, with the decided history as their `done` lines;
* `Replays rs s` — the records give back everything, the promised and accepted numbers as well;
* `Below b d` — the acceptor `d` has decided, promised and accepted all that `b` has;
* `restore_logged`, `restore_replays` — an acceptor that restores a log which is not behind its
  own state takes over the state of that log.
-/

namespace Yfs
namespace Paxos

open Lib

/-! ## The done lines -/

def Record.done? : Record → Option (UInt32 × Str)
  | .done inst v => some (inst, v)
  | .propseen _ => none
  | .accepted _ _ => none

/-- The instances and values of the `done` lines, in order. -/
def dones (rs : List Record) : List (UInt32 × Str) :=
  rs.filterMap Record.done?

theorem mem_dones {rs : List Record} {i : UInt32} {v : Str} :
    (i, v) ∈ dones rs ↔ Record.done i v ∈ rs := by
  rw [dones, List.mem_filterMap]
  constructor
  · rintro ⟨r, hr, hd⟩
    cases r with
    | done inst w =>
        cases hd
        exact hr
    | propseen n | accepted n w => cases hd
  · intro hr
    exact ⟨_, hr, rfl⟩

/-- The instances `1, …, instance_h` with the values held for them. -/
def decided (s : Acceptor) : List (UInt32 × Str) :=
  (List.range s.instanceH.toNat).map fun k =>
    (UInt32.ofNat (k + 1), s.values (UInt32.ofNat (k + 1)))

/-- `rs` are the records of the log of `s`. -/
structure Logged (rs : List Record) (s : Acceptor) : Prop where
  wf : ∀ r ∈ rs, r.Wf
  file : s.file = lines rs
  dones : dones rs = decided s
  rest : ∀ i, i = 0 ∨ s.instanceH < i → s.values i = []

def Gapless (s : Acceptor) : Prop := ∃ rs, Logged rs s

theorem toNat_ofNat_succ {k : ℕ} {n : UInt32} (h : k < n.toNat) :
    (UInt32.ofNat (k + 1)).toNat = k + 1 := by
  have := n.toNat_lt
  rw [UInt32.toNat_ofNat']
  omega

theorem mem_decided {s : Acceptor} {i : UInt32} {v : Str} :
    (i, v) ∈ decided s ↔ i ≠ 0 ∧ i ≤ s.instanceH ∧ s.values i = v := by
  rw [decided, List.mem_map]
  constructor
  · rintro ⟨k, hk, heq⟩
    have hlt := List.mem_range.mp hk
    have hk1 := toNat_ofNat_succ hlt
    cases heq
    refine ⟨?_, UInt32.le_iff_toNat_le.mpr (by omega), rfl⟩
    intro h0
    rw [h0] at hk1
    cases hk1
  · rintro ⟨h0, hle, rfl⟩
    have hpos : i.toNat ≠ 0 := fun h => h0 (UInt32.toNat_inj.mp h)
    have hle' := UInt32.le_iff_toNat_le.mp hle
    refine ⟨i.toNat - 1, List.mem_range.mpr (by omega), ?_⟩
    have hi : i.toNat - 1 + 1 = i.toNat := by omega
    rw [hi, UInt32.ofNat_toNat]

theorem decided_congr {s t : Acceptor} (hinst : t.instanceH = s.instanceH)
    (hvalues : ∀ i, i ≠ 0 → i ≤ s.instanceH → t.values i = s.values i) :
    decided t = decided s := by
  have hmem : ∀ k ∈ List.range s.instanceH.toNat, UInt32.ofNat (k + 1) ≠ 0 ∧
      UInt32.ofNat (k + 1) ≤ s.instanceH := by
    intro k hk
    have := mem_decided.mp (List.mem_map.mpr ⟨k, hk, rfl⟩)
    exact ⟨this.1, this.2.1⟩
  unfold decided
  rw [hinst]
  refine List.map_congr_left fun k hk => ?_
  rw [hvalues _ (hmem k hk).1 (hmem k hk).2]

/-- The decided history determines what is decided. -/
theorem decided_inj {s t : Acceptor} (h : decided s = decided t) :
    s.instanceH = t.instanceH ∧ ∀ i, i ≠ 0 → i ≤ s.instanceH → s.values i = t.values i := by
  have hlen := congrArg List.length h
  simp only [decided, List.length_map, List.length_range] at hlen
  refine ⟨UInt32.toNat_inj.mp hlen, ?_⟩
  intro i h0 hle
  have hmem : (i, s.values i) ∈ decided t := h ▸ mem_decided.mpr ⟨h0, hle, rfl⟩
  exact (mem_decided.mp hmem).2.2.symm

/-- Two acceptors with one decided history hold the same values. -/
theorem Logged.values_eq {rs rs' : List Record} {s t : Acceptor} (hs : Logged rs s)
    (ht : Logged rs' t) (h : decided s = decided t) : s.values = t.values := by
  rcases decided_inj h with ⟨hinst, hvalues⟩
  funext i
  by_cases hi : i = 0 ∨ s.instanceH < i
  · rw [hs.rest i hi, ht.rest i (hinst ▸ hi)]
  · rw [not_or] at hi
    exact hvalues i hi.1 (UInt32.not_lt.mp hi.2)

/-- Committing the next instance adds one entry. -/
theorem decided_commit {s t : Acceptor} {inst : UInt32} {v : Str}
    (hnext : inst.toNat = s.instanceH.toNat + 1) (hinst : t.instanceH = inst)
    (hvalues : t.values = Function.update s.values inst v) :
    decided t = decided s ++ [(inst, v)] := by
  have hlast : UInt32.ofNat (s.instanceH.toNat + 1) = inst := by
    rw [← hnext, UInt32.ofNat_toNat]
  unfold decided
  rw [hinst, hnext, List.range_succ, List.map_append, List.map_singleton, hlast, hvalues,
    Function.update_self]
  congr 1
  refine List.map_congr_left fun k hk => ?_
  have hlt := List.mem_range.mp hk
  have hk1 := toNat_ofNat_succ hlt
  have hne : UInt32.ofNat (k + 1) ≠ inst := by
    intro h
    rw [h] at hk1
    omega
  rw [Function.update_of_ne hne]

/-! ## Calls append to the log -/

/-- Appending the line for a record. -/
theorem Logged.append {rs : List Record} {s t : Acceptor} {r : Record} (hs : Logged rs s)
    (hr : r.Wf) (hfile : t.file = lines (rs ++ [r]))
    (hdec : decided t = decided s ++ r.done?.toList)
    (hrest : ∀ i, i = 0 ∨ t.instanceH < i → t.values i = []) : Logged (rs ++ [r]) t := by
  refine ⟨?_, hfile, ?_, hrest⟩
  · intro r' hr'
    rcases List.mem_append.mp hr' with h | h
    · exact hs.wf r' h
    · exact List.mem_singleton.mp h ▸ hr
  · rw [hdec, ← hs.dones]
    cases hd : r.done? <;> simp [Paxos.dones, hd]

theorem Logged.dump_eq {rs : List Record} {s : Acceptor} (hs : Logged rs s) : dump s = s.file :=
  dump_of_lines hs.wf hs.file

theorem logged_fresh (me : Str) : Logged [] (fresh me []) :=
  ⟨by simp, rfl, rfl, fun _ _ => rfl⟩

/-- The values outside the history stay empty when the next instance is committed. -/
theorem rest_commit {s : Acceptor} (hs : ∀ i, i = 0 ∨ s.instanceH < i → s.values i = [])
    {inst : UInt32} (v : Str) (hlt : s.instanceH < inst) :
    ∀ i, i = 0 ∨ inst < i → Function.update s.values inst v i = [] := by
  intro i hi
  have hne : i ≠ inst := by
    rintro rfl
    rcases hi with rfl | hi
    · exact absurd hlt (UInt32.not_lt.mpr UInt32.zero_le)
    · exact UInt32.lt_irrefl i hi
  rw [Function.update_of_ne hne]
  exact hs i (hi.imp id fun h => UInt32.lt_trans hlt h)

theorem gapless_commitWo {s : Acceptor} (hs : Gapless s) {inst : UInt32} {v : Str}
    (hv : '\n' ∉ v) (hle : inst.toNat ≤ s.instanceH.toNat + 1) :
    Gapless (commitWo s inst v).1 := by
  by_cases hlt : s.instanceH < inst
  · rcases hs with ⟨rs, hlog⟩
    have hnext : inst.toNat = s.instanceH.toNat + 1 := by
      have := UInt32.lt_iff_toNat_lt.mp hlt
      omega
    rw [commitWo_of_lt hlt]
    refine ⟨_, Logged.append (r := .done inst v) hlog hv ?_ (decided_commit hnext rfl rfl)
      (rest_commit hlog.rest v hlt)⟩
    rw [← loginstance_lines, ← hlog.file]
  · rw [commitWo_of_le (UInt32.not_lt.mp hlt)]
    exact hs

theorem gapless_preparereq {s : Acceptor} (hs : Gapless s) {a : PrepareArg}
    (ha : IStream.IsWord a.n.m) : Gapless (preparereq s a).1 := by
  rcases preparereq_cases s a with ⟨_, h, _⟩ | ⟨_, _, h, _⟩ | ⟨_, _, h, _⟩
  · rw [h]
    exact hs
  · rw [h]
    rcases hs with ⟨rs, hlog⟩
    refine ⟨_, Logged.append (r := .propseen a.n) hlog ha ?_ (List.append_nil _).symm hlog.rest⟩
    rw [← logprop_lines, ← hlog.file]
  · rw [h]
    exact hs

theorem gapless_acceptreq {s : Acceptor} (hs : Gapless s) {a : AcceptArg}
    (ha : IStream.IsWord a.n.m) (hv : '\n' ∉ a.v) : Gapless (acceptreq s a).1 := by
  rcases acceptreq_cases s a with ⟨_, h⟩ | ⟨_, h⟩
  · rw [h]
    rcases hs with ⟨rs, hlog⟩
    refine ⟨_, Logged.append (r := .accepted a.n a.v) hlog ⟨ha, hv⟩ ?_ (List.append_nil _).symm
      hlog.rest⟩
    rw [← logaccept_lines, ← hlog.file]
  · rw [h]
    exact hs

/-! ## Replaying a log -/

@[simp] theorem dones_nil : dones [] = [] := rfl

@[simp] theorem dones_done (inst : UInt32) (v : Str) (rs : List Record) :
    dones (.done inst v :: rs) = (inst, v) :: dones rs := rfl

@[simp] theorem dones_propseen (n : PropT) (rs : List Record) :
    dones (.propseen n :: rs) = dones rs := rfl

@[simp] theorem dones_accepted (n : PropT) (v : Str) (rs : List Record) :
    dones (.accepted n v :: rs) = dones rs := rfl

theorem dones_append (rs rs' : List Record) : dones (rs ++ rs') = dones rs ++ dones rs' :=
  List.filterMap_append

/-- The instances that a log has `done` lines for. -/
def doneInsts (rs : List Record) : List UInt32 := (dones rs).map Prod.fst

/-- Replaying leaves the values of all other instances alone. -/
theorem values_replay_of_notMem {i : UInt32} :
    ∀ (rs : List Record) (u : Acceptor), i ∉ doneInsts rs →
      (rs.foldl Record.apply u).values i = u.values i
  | [], _, _ => rfl
  | .done inst v :: rs, u, h => by
      have hne : i ≠ inst := fun heq => h (by simp [doneInsts, heq])
      have hrs : i ∉ doneInsts rs := fun hmem => h (List.mem_cons_of_mem _ hmem)
      rw [List.foldl_cons, values_replay_of_notMem rs _ hrs]
      exact Function.update_of_ne hne _ _
  | .propseen n :: rs, u, h => by
      rw [List.foldl_cons, values_replay_of_notMem rs _ h]
      rfl
  | .accepted n v :: rs, u, h => by
      rw [List.foldl_cons, values_replay_of_notMem rs _ h]
      rfl

/-- The value of an instance that has a `done` line comes from the log. -/
theorem values_replay_of_mem {i : UInt32} :
    ∀ (rs : List Record) (u w : Acceptor), i ∈ doneInsts rs →
      (rs.foldl Record.apply u).values i = (rs.foldl Record.apply w).values i
  | .done inst v :: rs, u, w, h => by
      rw [List.foldl_cons, List.foldl_cons]
      by_cases hrs : i ∈ doneInsts rs
      · exact values_replay_of_mem rs _ _ hrs
      · have hi : i = inst := (List.mem_cons.mp h).resolve_right hrs
        rw [values_replay_of_notMem rs _ hrs, values_replay_of_notMem rs _ hrs, hi]
        simp [Record.apply, readDone]
  | .propseen _ :: rs, _, _, h | .accepted _ _ :: rs, _, _, h => values_replay_of_mem rs _ _ h

/-- One number, as far as a restarted acceptor remembers it: the name in round 0 is lost. -/
def PropT.Same (p q : PropT) : Prop :=
  p.n = q.n ∧ (q.n ≠ 0 → p.m = q.m)

theorem PropT.Same.refl (p : PropT) : PropT.Same p p :=
  ⟨rfl, fun _ => rfl⟩

theorem PropT.Same.trans {p q r : PropT} (h : PropT.Same p q) (h' : PropT.Same q r) :
    PropT.Same p r :=
  ⟨h.1.trans h'.1, fun hn => (h.2 (h'.1 ▸ hn)).trans (h'.2 hn)⟩

theorem PropT.Same.of_zero {p q : PropT} (hp : p.n = 0) (hq : q.n = 0) : PropT.Same p q :=
  ⟨hp.trans hq.symm, fun hn => absurd hq hn⟩

theorem PropT.Same.eq {p q : PropT} (h : PropT.Same p q) (h0 : q.n ≠ 0) : p = q := by
  rcases p with ⟨pn, pm⟩
  rcases q with ⟨qn, qm⟩
  rcases h with ⟨rfl, hm⟩
  rw [show pm = qm from hm h0]

/-- `r` and `s` agree on everything but the values. -/
structure SameVotes (r s : Acceptor) : Prop where
  instanceH : r.instanceH = s.instanceH
  vA : r.vA = s.vA
  nH : PropT.Same r.nH s.nH
  nA : PropT.Same r.nA s.nA

theorem SameVotes.sameState {r s : Acceptor} (h : SameVotes r s) (hv : r.values = s.values) :
    SameState r s :=
  ⟨h.instanceH, hv, h.vA, h.nH.1, h.nA.1, h.nH.2, h.nA.2⟩

theorem SameState.sameVotes {r s : Acceptor} (h : SameState r s) : SameVotes r s :=
  ⟨h.instanceH, h.vA, ⟨h.nH_n, h.nH_m⟩, ⟨h.nA_n, h.nA_m⟩⟩

theorem SameVotes.trans {r s t : Acceptor} (h : SameVotes r s) (h' : SameVotes s t) :
    SameVotes r t :=
  ⟨h.instanceH.trans h'.instanceH, h.vA.trans h'.vA, h.nH.trans h'.nH, h.nA.trans h'.nA⟩

theorem sameVotes_done (u w : Acceptor) (inst : UInt32) (v : Str) :
    SameVotes (readDone u inst v) (readDone w inst v) :=
  ⟨rfl, rfl, .of_zero rfl rfl, .of_zero rfl rfl⟩

theorem SameVotes.foldl_apply : ∀ (rs : List Record) {u w : Acceptor}, SameVotes u w →
    SameVotes (rs.foldl Record.apply u) (rs.foldl Record.apply w)
  | [], _, _, h => h
  | .done inst v :: rs, u, w, _ => SameVotes.foldl_apply rs (sameVotes_done u w inst v)
  | .propseen n :: rs, _, _, h =>
      SameVotes.foldl_apply rs ⟨h.instanceH, h.vA, .refl n, h.nA⟩
  | .accepted n _ :: rs, _, _, h =>
      SameVotes.foldl_apply rs ⟨h.instanceH, rfl, h.nH, .refl n⟩

/-- A log with a `done` line says it all: what was there before does not matter. -/
theorem sameVotes_replay : ∀ (rs : List Record) (u w : Acceptor), dones rs ≠ [] →
    SameVotes (rs.foldl Record.apply u) (rs.foldl Record.apply w)
  | .done inst v :: rs, u, w, _ => SameVotes.foldl_apply rs (sameVotes_done u w inst v)
  | .propseen _ :: rs, _, _, h | .accepted _ _ :: rs, _, _, h => sameVotes_replay rs _ _ h

theorem instanceH_replay_of_nil : ∀ (rs : List Record) (u : Acceptor), dones rs = [] →
    (rs.foldl Record.apply u).instanceH = u.instanceH
  | [], _, _ => rfl
  | .propseen n :: rs, u, h => instanceH_replay_of_nil rs { u with nH := n } h
  | .accepted n v :: rs, u, h => instanceH_replay_of_nil rs { u with nA := n, vA := v } h

/-- Without a `done` line, the promised number comes from the log or is left as it was. -/
theorem nH_replay_of_nil : ∀ (rs : List Record) (u w : Acceptor), dones rs = [] →
    (rs.foldl Record.apply u).nH = (rs.foldl Record.apply w).nH ∨
      ((rs.foldl Record.apply u).nH = u.nH ∧ (rs.foldl Record.apply w).nH = w.nH)
  | [], _, _, _ => Or.inr ⟨rfl, rfl⟩
  | .propseen n :: rs, u, w, h => by
      rcases nH_replay_of_nil rs { u with nH := n } { w with nH := n } h with heq | ⟨hu, hw⟩
      · exact Or.inl heq
      · exact Or.inl (hu.trans hw.symm)
  | .accepted n v :: rs, u, w, h =>
      nH_replay_of_nil rs { u with nA := n, vA := v } { w with nA := n, vA := v } h

theorem pair_replay_of_nil : ∀ (rs : List Record) (u w : Acceptor), dones rs = [] →
    ((rs.foldl Record.apply u).nA = (rs.foldl Record.apply w).nA ∧
      (rs.foldl Record.apply u).vA = (rs.foldl Record.apply w).vA) ∨
      (((rs.foldl Record.apply u).nA = u.nA ∧ (rs.foldl Record.apply u).vA = u.vA) ∧
        (rs.foldl Record.apply w).nA = w.nA ∧ (rs.foldl Record.apply w).vA = w.vA)
  | [], _, _, _ => Or.inr ⟨⟨rfl, rfl⟩, rfl, rfl⟩
  | .propseen n :: rs, u, w, h =>
      pair_replay_of_nil rs { u with nH := n } { w with nH := n } h
  | .accepted n v :: rs, u, w, h => by
      rcases pair_replay_of_nil rs { u with nA := n, vA := v } { w with nA := n, vA := v } h with
        heq | ⟨hu, hw⟩
      · exact Or.inl heq
      · exact Or.inl ⟨hu.1.trans hw.1.symm, hu.2.trans hw.2.symm⟩

/-- The state that a log replays to has the history that its `done` lines tell, once those are
numbered `1, …, k`. -/
theorem decided_replay (me file : Str) (rs : List Record) :
    ∀ k : ℕ, k < UInt32.size → doneInsts rs = (List.range k).map (fun i => UInt32.ofNat (i + 1)) →
      (rs.foldl Record.apply (fresh me file)).instanceH.toNat = k ∧
        dones rs = decided (rs.foldl Record.apply (fresh me file)) := by
  induction rs using List.reverseRecOn with
  | nil =>
      intro k _ hk
      have : k = 0 := by simpa [doneInsts] using hk.symm
      subst this
      exact ⟨rfl, rfl⟩
  | append_singleton rs r ih =>
      intro k hlt hk
      rw [List.foldl_append, List.foldl_cons, List.foldl_nil]
      rw [doneInsts, dones_append] at hk
      rw [dones_append]
      cases r with
      | done inst v =>
          cases k with
          | zero => simp at hk
          | succ k =>
              rw [List.range_succ, List.map_append, List.map_append] at hk
              rcases List.append_inj' hk rfl with ⟨hrs, hlast⟩
              rcases ih k (Nat.lt_of_succ_lt hlt) hrs with ⟨hinst, hdec⟩
              have hi : inst = UInt32.ofNat (k + 1) := by simpa using hlast
              have hnext : inst.toNat = k + 1 := by
                rw [hi, UInt32.toNat_ofNat']
                exact Nat.mod_eq_of_lt hlt
              refine ⟨hnext, ?_⟩
              rw [hdec]
              exact (decided_commit (hnext.trans (by rw [hinst])) rfl rfl).symm
      | propseen n =>
          rw [dones_propseen, dones_nil, List.append_nil] at hk ⊢
          exact ih k hlt hk
      | accepted n v =>
          rw [dones_accepted, dones_nil, List.append_nil] at hk ⊢
          exact ih k hlt hk

theorem doneInsts_of_logged {rs : List Record} {s : Acceptor} (hs : Logged rs s) :
    doneInsts rs = (List.range s.instanceH.toNat).map (fun i => UInt32.ofNat (i + 1)) := by
  rw [doneInsts, hs.dones, decided, List.map_map]
  rfl

theorem Logged.instanceH_eq_zero {rs : List Record} {s : Acceptor} (hs : Logged rs s)
    (hnil : Paxos.dones rs = []) : s.instanceH = 0 := by
  have hlen := congrArg List.length (hs.dones.symm.trans hnil)
  simp only [decided, List.length_map, List.length_range, List.length_nil] at hlen
  exact UInt32.toNat_inj.mp hlen

theorem mem_doneInsts {rs : List Record} {s : Acceptor} (hs : Logged rs s) {i : UInt32} :
    i ∈ doneInsts rs ↔ i ≠ 0 ∧ i ≤ s.instanceH := by
  rw [doneInsts, hs.dones, List.mem_map]
  constructor
  · rintro ⟨⟨j, v⟩, hmem, rfl⟩
    exact ⟨(mem_decided.mp hmem).1, (mem_decided.mp hmem).2.1⟩
  · rintro ⟨h0, hle⟩
    exact ⟨(i, s.values i), mem_decided.mpr ⟨h0, hle, rfl⟩, rfl⟩

/-- Building an acceptor over a log whose `done` lines are `1, …, k`. -/
theorem logged_replay {rs : List Record} (hwf : ∀ r ∈ rs, r.Wf) {k : ℕ} (hk : k < UInt32.size)
    (hdones : doneInsts rs = (List.range k).map (fun i => UInt32.ofNat (i + 1))) (me : Str) :
    Logged rs (rs.foldl Record.apply (fresh me (lines rs))) := by
  rcases decided_replay me (lines rs) rs k hk hdones with ⟨_, hdec⟩
  refine ⟨hwf, (foldl_apply_me_file rs _).2, hdec, ?_⟩
  intro i hi
  refine values_replay_of_notMem rs (fresh me (lines rs)) ?_
  rw [doneInsts, hdec, List.mem_map]
  rintro ⟨⟨j, v⟩, hmem, rfl⟩
  rcases mem_decided.mp hmem with ⟨h0, hle, _⟩
  rcases hi with h | h
  · exact h0 h
  · exact UInt32.not_lt.mpr hle h

/-- The constructor, over a log whose `done` lines are `1, …, k`. -/
theorem gapless_acceptor {rs : List Record} (hwf : ∀ r ∈ rs, r.Wf) {k : ℕ} (hk : k < UInt32.size)
    (hdones : doneInsts rs = (List.range k).map (fun i => UInt32.ofNat (i + 1)))
    {junk : UInt32} {first : Bool} {me value : Str} (hvalue : first = true → '\n' ∉ value)
    {s : Acceptor} (hs : acceptor junk first me value (lines rs) = some s) :
    Gapless s ∧ s.me = me := by
  have hread : logread junk (fresh me (lines rs)) =
      some (rs.foldl Record.apply (fresh me (lines rs))) := logread_lines hwf junk rfl
  have hme := (foldl_apply_me_file rs (fresh me (lines rs))).1
  have hlog := logged_replay hwf hk hdones me
  generalize rs.foldl Record.apply (fresh me (lines rs)) = u at hread hme hlog
  simp only [acceptor, hread] at hs
  split at hs
  case isTrue h0 =>
    -- the bootstrap node logs its first view; the votes in memory stay, if there are any
    cases hs
    have hnext : (1 : UInt32).toNat = u.instanceH.toNat + 1 := by
      rw [h0.1]
      rfl
    have hlt : u.instanceH < 1 := by
      rw [h0.1]
      decide
    refine ⟨⟨rs ++ [.done 1 value], ?_, ?_, ?_, rest_commit hlog.rest value hlt⟩, hme⟩
    · intro r hr
      rcases List.mem_append.mp hr with h | h
      · exact hwf r h
      · exact List.mem_singleton.mp h ▸ hvalue h0.2
    · rw [← loginstance_lines, ← hlog.file]
    · rw [dones_append, hlog.dones]
      exact (decided_commit hnext rfl rfl).symm
  case isFalse h0 =>
    cases hs
    exact ⟨⟨rs, hlog⟩, hme⟩

/-- `t` has decided all that `s` has. -/
def Extends (s t : Acceptor) : Prop :=
  s.instanceH ≤ t.instanceH ∧ ∀ i, i ≤ s.instanceH → t.values i = s.values i

theorem Extends.refl (s : Acceptor) : Extends s s :=
  ⟨UInt32.le_refl _, fun _ _ => rfl⟩

theorem Extends.trans {s t u : Acceptor} (h : Extends s t) (h' : Extends t u) : Extends s u :=
  ⟨UInt32.le_trans h.1 h'.1,
    fun i hi => (h'.2 i (UInt32.le_trans hi h.1)).trans (h.2 i hi)⟩

theorem extends_commitWo (s : Acceptor) (inst : UInt32) (v : Str) :
    Extends s (commitWo s inst v).1 := by
  by_cases hlt : s.instanceH < inst
  · rw [commitWo_of_lt hlt]
    refine ⟨UInt32.le_of_lt hlt, ?_⟩
    intro i hi
    have hne : i ≠ inst := by
      rintro rfl
      exact UInt32.not_lt.mpr hi hlt
    exact Function.update_of_ne hne _ _
  · rw [commitWo_of_le (UInt32.not_lt.mp hlt)]
    exact .refl s

/-- A restarted acceptor has the history of the one that was lost. -/
theorem Logged.restart {rs : List Record} {s acc : Acceptor} (hs : Logged rs s) {junk : UInt32}
    {first : Bool} {me value : Str} (hvalue : first = true → '\n' ∉ value)
    (hacc : acceptor junk first me value s.file = some acc) :
    Gapless acc ∧ acc.me = me ∧ Extends s acc ∧
      (acc.instanceH = s.instanceH ∨ acc.instanceH = 1) := by
  have hk := s.instanceH.toNat_lt_size
  have hdones := doneInsts_of_logged hs
  rw [hs.file] at hacc
  rcases gapless_acceptor hs.wf hk hdones hvalue hacc with ⟨hgap, hme⟩
  refine ⟨hgap, hme, ?_⟩
  have hread : logread junk (fresh me (lines rs)) =
      some (rs.foldl Record.apply (fresh me (lines rs))) := logread_lines hs.wf junk rfl
  have hlog := logged_replay hs.wf hk hdones me
  generalize rs.foldl Record.apply (fresh me (lines rs)) = u at hread hlog
  -- the log replays to the history of `s`, whatever it does to the votes
  have hdec : decided u = decided s := hlog.dones.symm.trans hs.dones
  have hvalues := hlog.values_eq hs hdec
  have hinst : u.instanceH = s.instanceH := (decided_inj hdec).1
  have hext : Extends s u := ⟨hinst ▸ UInt32.le_refl _, fun i _ => by rw [hvalues]⟩
  simp only [acceptor, hread] at hacc
  split at hacc
  case isTrue h0 =>
    cases hacc
    refine ⟨hext.trans ⟨h0.1 ▸ UInt32.zero_le, ?_⟩, Or.inr rfl⟩
    intro i hi
    have hne : i ≠ 1 := by
      rintro rfl
      rw [h0.1] at hi
      exact absurd hi (by decide)
    exact Function.update_of_ne hne _ _
  case isFalse => exact Option.some.inj hacc ▸ ⟨hext, Or.inl hinst⟩

/-! ## Restoring a log -/

/-- A log whose history is at least as long as that of the acceptor that restores it. -/
theorem restore_logged {rs rs' : List Record} {b d : Acceptor} (hb : Logged rs' b)
    (hd : Logged rs d) (hle : b.instanceH ≤ d.instanceH) (junk : UInt32) :
    ∃ r, restore junk b d.file = some r ∧ Logged rs r ∧ r.me = b.me ∧
      r.instanceH = d.instanceH ∧ r.values = d.values ∧
      r = rs.foldl Record.apply { b with file := d.file } := by
  have hread : restore junk b d.file = some (rs.foldl Record.apply { b with file := d.file }) :=
    logread_lines hd.wf junk hd.file
  have hkeep := foldl_apply_me_file rs { b with file := d.file }
  have hfresh := logged_replay hd.wf d.instanceH.toNat_lt_size (doneInsts_of_logged hd) d.me
  have hdec : decided (rs.foldl Record.apply (fresh d.me (lines rs))) = decided d :=
    hfresh.dones.symm.trans hd.dones
  have hvalues : (rs.foldl Record.apply { b with file := d.file }).values = d.values := by
    rw [← hfresh.values_eq hd hdec]
    funext i
    by_cases hi : i ∈ doneInsts rs
    · exact values_replay_of_mem rs _ _ hi
    · -- not in the log that is restored, hence not in the shorter one either
      rw [values_replay_of_notMem rs _ hi, values_replay_of_notMem rs _ hi]
      refine hb.rest i ?_
      rw [mem_doneInsts hd, not_and_or, not_not, UInt32.not_le] at hi
      exact hi.imp id fun h => UInt32.lt_of_le_of_lt hle h
  have hinst : (rs.foldl Record.apply { b with file := d.file }).instanceH = d.instanceH := by
    rw [← (decided_inj hdec).1]
    by_cases hnil : dones rs = []
    · have h0 : d.instanceH = 0 := hd.instanceH_eq_zero hnil
      rw [instanceH_replay_of_nil rs _ hnil, instanceH_replay_of_nil rs _ hnil]
      exact UInt32.le_zero_iff.mp (h0 ▸ hle)
    · exact (sameVotes_replay rs _ _ hnil).instanceH
  refine ⟨_, hread, ⟨hd.wf, hkeep.2.trans hd.file, ?_, ?_⟩, hkeep.1, hinst, hvalues, rfl⟩
  · rw [hd.dones]
    exact (decided_congr hinst fun i _ _ => by rw [hvalues]).symm
  · rw [hinst, hvalues]
    exact hd.rest

/-- All that `b` has decided, promised and accepted, `d` has too.  A number in round 0 stands
for no promise, or for nothing accepted: every proposer's number is above it. -/
structure Below (b d : Acceptor) : Prop where
  instanceH : b.instanceH ≤ d.instanceH
  nH : d.instanceH = b.instanceH → b.nH.n = 0 ∨ b.nH ≤ d.nH
  nA : d.instanceH = b.instanceH → b.nA.n = 0 ∨ b.nA ≤ d.nA
  vA : d.instanceH = b.instanceH → b.vA = [] ∨ d.vA = b.vA ∨
    (d.nA.n ≠ 0 ∧ b.nA < d.nA ∧ d.vA ≠ [])

theorem PropT.n_ne_zero_of_le {a b : PropT} (h : a ≤ b) (ha : a.n ≠ 0) : b.n ≠ 0 := by
  rcases lt_or_eq_of_le h with hlt | rfl
  · exact PropT.n_ne_zero_of_lt hlt ha
  · exact ha

theorem PropT.Same.cover {p q r : PropT} (h : PropT.Same r q) (hle : p.n = 0 ∨ p ≤ q) :
    p.n = 0 ∨ p ≤ r := by
  by_cases hp : p.n = 0
  · exact Or.inl hp
  · have hle' := hle.resolve_left hp
    exact Or.inr (h.eq (PropT.n_ne_zero_of_le hle' hp) ▸ hle')

theorem Below.of_sameVotes {b d r : Acceptor} (h : Below b d) (hr : SameVotes r d) :
    Below b r := by
  refine ⟨hr.instanceH ▸ h.instanceH, fun hi => hr.nH.cover (h.nH (hr.instanceH ▸ hi)),
    fun hi => hr.nA.cover (h.nA (hr.instanceH ▸ hi)), ?_⟩
  intro hi
  rcases h.vA (hr.instanceH ▸ hi) with h0 | hv | ⟨hn, hlt, hne⟩
  · exact Or.inl h0
  · exact Or.inr (Or.inl (hr.vA.trans hv))
  · refine Or.inr (Or.inr ⟨hr.nA.1 ▸ hn, ?_, hr.vA ▸ hne⟩)
    rw [hr.nA.eq hn]
    exact hlt

theorem n_eq_zero_of_cover {p q : PropT} (h : p.n = 0 ∨ p ≤ q) (hq : q.n = 0) : p.n = 0 := by
  by_contra hp
  exact PropT.n_ne_zero_of_le (h.resolve_left hp) hp hq

/-- The votes of a log without `done` lines: what the log does not mention was not there before
either. -/
theorem sameVotes_replay_of_nil {rs : List Record} {b : Acceptor} {x text : Str}
    (hnil : dones rs = []) (hbelow : Below b (rs.foldl Record.apply (fresh x text))) :
    SameVotes (rs.foldl Record.apply b) (rs.foldl Record.apply (fresh x text)) := by
  have hu0 : (rs.foldl Record.apply (fresh x text)).instanceH = 0 :=
    instanceH_replay_of_nil rs _ hnil
  have hb0 : b.instanceH = 0 := UInt32.le_zero_iff.mp (hu0 ▸ hbelow.instanceH)
  have hinst := hu0.trans hb0.symm
  have hinst' := (instanceH_replay_of_nil rs b hnil).trans hinst.symm
  have hnH : PropT.Same (rs.foldl Record.apply b).nH (rs.foldl Record.apply (fresh x text)).nH := by
    rcases nH_replay_of_nil rs b (fresh x text) hnil with heq | ⟨hb, hu⟩
    · rw [heq]
      exact .refl _
    · have h0 : (rs.foldl Record.apply (fresh x text)).nH.n = 0 := congrArg PropT.n hu
      rw [hb]
      exact .of_zero (n_eq_zero_of_cover (hbelow.nH hinst) h0) h0
  rcases pair_replay_of_nil rs b (fresh x text) hnil with ⟨hA, hv⟩ | ⟨⟨hA, hv⟩, hA', hv'⟩
  · exact ⟨hinst', hv, hnH, hA ▸ .refl _⟩
  · have h0 : (rs.foldl Record.apply (fresh x text)).nA.n = 0 := congrArg PropT.n hA'
    have hbv : b.vA = [] := by
      rcases hbelow.vA hinst with hnone | hsame | ⟨hn, _⟩
      · exact hnone
      · exact hsame.symm.trans hv'
      · exact absurd h0 hn
    refine ⟨hinst', (hv.trans hbv).trans hv'.symm, hnH, ?_⟩
    rw [hA]
    exact .of_zero (n_eq_zero_of_cover (hbelow.nA hinst) h0) h0

/-- What a log with this history stands for has this history. -/
theorem Logged.replay {rs : List Record} {d : Acceptor} (hd : Logged rs d) (x : Str) :
    Logged rs (rs.foldl Record.apply (fresh x d.file)) ∧
      (rs.foldl Record.apply (fresh x d.file)).instanceH = d.instanceH ∧
      (rs.foldl Record.apply (fresh x d.file)).values = d.values := by
  have hu : Logged rs (rs.foldl Record.apply (fresh x d.file)) := by
    rw [hd.file]
    exact logged_replay hd.wf d.instanceH.toNat_lt_size (doneInsts_of_logged hd) x
  have hdec := hu.dones.symm.trans hd.dones
  exact ⟨hu, (decided_inj hdec).1, hu.values_eq hd hdec⟩

/-- A log that is not behind the acceptor which restores it gives back the state it stands
for. -/
theorem restore_sameState {rs rs' : List Record} {b d : Acceptor} {x : Str}
    (hb : Logged rs' b) (hd : Logged rs d)
    (hbelow : Below b (rs.foldl Record.apply (fresh x d.file))) (junk : UInt32) :
    ∃ r, restore junk b d.file = some r ∧ Logged rs r ∧ r.me = b.me ∧
      SameState r (rs.foldl Record.apply (fresh x d.file)) := by
  rcases hd.replay x with ⟨_, hinst, hvalues⟩
  have hle : b.instanceH ≤ d.instanceH := hinst ▸ hbelow.instanceH
  rcases restore_logged hb hd hle junk with ⟨r, hr, hlog, hme, _, hvalues', hfold⟩
  refine ⟨r, hr, hlog, hme, SameVotes.sameState ?_ (hvalues'.trans hvalues.symm)⟩
  rw [hfold]
  by_cases hnil : dones rs = []
  · exact sameVotes_replay_of_nil hnil ⟨hbelow.instanceH, hbelow.nH, hbelow.nA, hbelow.vA⟩
  · exact sameVotes_replay rs _ _ hnil

/-- The log of an acceptor stands for its state, whoever reads it. -/
theorem Logged.sameVotes {rs : List Record} {s : Acceptor} (hs : Logged rs s) (hd : Durable s)
    (x : Str) : SameVotes (rs.foldl Record.apply (fresh x s.file)) s := by
  rcases hd with ⟨rs', hwf, hfile, hsame⟩
  -- the two lists of records are read off the same text
  have hread := logread_lines (s := fresh x s.file) hs.wf 0 hs.file
  have hread' := logread_lines (s := fresh x s.file) hwf 0 hfile
  rw [hread] at hread'
  rw [Option.some.inj hread']
  have hfresh : SameVotes (fresh x s.file) (fresh s.me s.file) :=
    ⟨rfl, rfl, .of_zero rfl rfl, .of_zero rfl rfl⟩
  exact (hfresh.foldl_apply rs').trans (hsame s.file).sameVotes

end Paxos
end Yfs

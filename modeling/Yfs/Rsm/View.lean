import Yfs.Paxos.Acceptor

/-!
# View — member lists and the text they are agreed on as

Paxos agrees on strings.  `config::value` writes a member list as a string and
`config::members` reads one back, word by word; `getView` is the member list of a committed
instance.
-/

namespace Yfs
namespace Config

open Lib Paxos

/-- The loop `while (ist >> m) view.push_back(m)`; `fuel` above the length of the text is never
used up, since each pass extracts a word. -/
def membersLoop : ℕ → IStream → List Str
  | 0, _ => []
  | fuel + 1, str =>
      match str.word with
      | (_, none) => []
      | (str, some m) => if str.fail then [] else m :: membersLoop fuel str

def members (value : Str) : List Str :=
  membersLoop (value.length + 1) (IStream.ofText value)

def value (m : List Str) : Str :=
  (m.map fun x => x ++ [' ']).flatten

/-- `config::get_view`. -/
def getView (acc : Acceptor) (inst : UInt32) : List Str :=
  members (acc.values inst)

@[simp] theorem value_nil : value [] = [] := rfl

@[simp] theorem value_cons (x : Str) (m : List Str) : value (x :: m) = x ++ ' ' :: value m := by
  simp [value]

/-- The member list of the empty string is empty. -/
@[simp] theorem members_nil : members [] = [] := by decide

theorem membersLoop_space (fuel : ℕ) (cs : Str) :
    membersLoop fuel (IStream.ofText (' ' :: cs)) = membersLoop fuel (IStream.ofText cs) := by
  cases fuel with
  | zero => rfl
  | succ fuel => simp only [membersLoop, IStream.word_cons_space (by decide : isSpace ' ' = true)]

theorem membersLoop_value (m : List Str) (hm : ∀ x ∈ m, IStream.IsWord x) :
    ∀ fuel, (value m).length < fuel →
      membersLoop fuel (IStream.ofText (value m)) = m := by
  induction m with
  | nil =>
      intro fuel hfuel
      cases fuel with
      | zero => omega
      | succ fuel => simp [membersLoop, IStream.word_nil]
  | cons x m ih =>
      intro fuel hfuel
      cases fuel with
      | zero => omega
      | succ fuel =>
          have hx : IStream.IsWord x := hm x (by simp)
          have hlen : (value m).length < fuel := by
            have hpos := List.length_pos_iff.mpr hx.1
            rw [value_cons, List.length_append, List.length_cons] at hfuel
            omega
          have hfail : (IStream.ofText (' ' :: value m)).fail = false := rfl
          rw [value_cons, membersLoop, IStream.word_append hx (by decide)]
          simp only [hfail, Bool.false_eq_true, if_false, membersLoop_space,
            ih (fun y hy => hm y (by simp [hy])) fuel hlen]

/-- Reading back a written member list, as long as its names are words. -/
theorem members_value {m : List Str} (hm : ∀ x ∈ m, IStream.IsWord x) : members (value m) = m :=
  membersLoop_value m hm _ (Nat.lt_succ_self _)

/-- The bootstrap value is the node's bare name. -/
theorem members_name {x : Str} (hx : IStream.IsWord x) : members x = [x] := by
  have hword := IStream.word_end hx
  have hlen : x.length ≠ 0 := fun h => hx.1 (List.length_eq_zero_iff.mp h)
  cases hl : x.length with
  | zero => exact absurd hl hlen
  | succ k =>
      rw [members, hl, membersLoop, hword]
      simp [membersLoop, IStream.word, IStream.skipws, IStream.good]

/-- The names in a member list are words, whatever text it was read from. -/
theorem isWord_of_mem_membersLoop :
    ∀ (fuel : ℕ) (str : IStream) (x : Str), x ∈ membersLoop fuel str → IStream.IsWord x
  | 0, str, x, h => by simp [membersLoop] at h
  | fuel + 1, str, x, h => by
      cases hword : str.word with
      | mk str' w =>
          cases w with
          | none => simp [membersLoop, hword] at h
          | some m =>
              cases hfail : str'.fail with
              | true => simp [membersLoop, hword, hfail] at h
              | false =>
                  simp only [membersLoop, hword, hfail, Bool.false_eq_true, if_false,
                    List.mem_cons] at h
                  rcases h with rfl | h
                  · exact IStream.isWord_of_word hword hfail
                  · exact isWord_of_mem_membersLoop fuel str' x h

theorem isWord_of_mem_members {text x : Str} (h : x ∈ members text) : IStream.IsWord x :=
  isWord_of_mem_membersLoop _ _ x h

theorem newline_notMem_value {m : List Str} (hm : ∀ x ∈ m, IStream.IsWord x) :
    '\n' ∉ value m := by
  intro h
  rcases List.mem_flatten.mp h with ⟨line, hline, hc⟩
  rcases List.mem_map.mp hline with ⟨x, hx, rfl⟩
  rcases List.mem_append.mp hc with hc | hc
  · exact newline_notMem_of_isWord (hm x hx) hc
  · exact absurd hc (by decide)

end Config
end Yfs

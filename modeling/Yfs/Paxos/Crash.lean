import Yfs.Paxos.Cluster

/-!
# Crash — nodes that die in the middle of an append

The writers of `log.cc` hand a line to the file in pieces, and a comment there says that this
should be an atomic operation.  `step` appends a line as a whole.  Here a step may also be torn:
the node dies while it writes the line, a part of it stays in the file, and the node is restarted
with what is there.

`Interrupted ok` allows that in every step that meets `ok`, and `Whole ok` in none.
-/

namespace Yfs
namespace Paxos

open Lib

variable {σ α : Type}

/-! ## Torn steps -/

/-- A step, or the first `k` characters of the line that it appends to a log; `junk` is for the
restart that follows. -/
inductive Crash (α : Type)
  | whole (a : α)
  | torn (a : α) (k : ℕ) (junk : UInt32)
  deriving DecidableEq, Repr

/-- Every step that meets `ok` may be torn. -/
def Interrupted (ok : σ → α → Prop) (s : σ) : Crash α → Prop
  | .whole a | .torn a _ _ => ok s a

/-- No crash cuts an append. -/
def Whole (ok : σ → α → Prop) (s : σ) : Crash α → Prop
  | .whole a => ok s a
  | .torn _ _ _ => False

instance (ok : σ → α → Prop) [∀ s a, Decidable (ok s a)] (s : σ) (e : Crash α) :
    Decidable (Interrupted ok s e) :=
  match e with
  | .whole a | .torn a _ _ => inferInstanceAs (Decidable (ok s a))

instance (ok : σ → α → Prop) [∀ s a, Decidable (ok s a)] (s : σ) (e : Crash α) :
    Decidable (Whole ok s e) :=
  match e with
  | .whole a => inferInstanceAs (Decidable (ok s a))
  | .torn _ _ _ => isFalse id

/-- A schedule without torn steps. -/
def wholes (as : List α) : List (Crash α) :=
  as.map .whole

/-- A run in which no step is torn. -/
theorem reach_of_whole {init : σ → Prop} {step : σ → α → Option σ}
    {step' : σ → Crash α → Option σ} {ok : σ → α → Prop}
    (hstep : ∀ s a, step' s (.whole a) = step s a) {s : σ}
    (h : Reach init step' (Whole ok) s) : Reach init step ok s := by
  induction h with
  | start hs => exact .start hs
  | @next s t e _ hok hst ih =>
      cases e with
      | whole a => exact .next ih hok ((hstep s a).symm.trans hst)
      | torn a k junk => exact hok.elim

/-! ## The cluster with torn steps -/

/-- Of what `a` appends to the log of the node that takes it, `k` characters have been written and
nothing else was done. -/
def cutLog (s : State) (a : Action) (k : ℕ) : Option State :=
  let acc := (s.node a.actor).acc
  match step s a with
  | none => none
  | some t =>
      let file := (t.node a.actor).acc.file
      -- only an append can be cut; `restore` replaces the log
      if acc.file.isPrefixOf file = true ∧ 0 < k ∧ acc.file.length + k < file.length then
        some (s.setNode a.actor
          { s.node a.actor with acc := { acc with file := file.take (acc.file.length + k) } })
      else
        none

def stepCrash (s : State) : Crash Action → Option State
  | .whole a => step s a
  | .torn a k junk => (cutLog s a k).bind fun s' => step s' (.restart a.actor junk)

def Crash.actor : Crash Action → Str
  | .whole a | .torn a _ _ => a.actor

theorem stepCrash_frame {s t : State} {e : Crash Action} (h : stepCrash s e = some t) {x : Str}
    (hx : x ≠ e.actor) : t.node x = s.node x := by
  cases e with
  | whole a => exact step_frame h hx
  | torn a k junk =>
      rcases Option.bind_eq_some_iff.mp h with ⟨s', hcut, hrestart⟩
      rw [step_frame hrestart hx]
      -- the part that was written is in the file of the same node
      unfold cutLog at hcut
      split at hcut
      · cases hcut
      · simp only at hcut
        split at hcut
        · cases hcut
          exact State.setNode_node_of_ne _ _ hx
        · cases hcut

end Paxos
end Yfs

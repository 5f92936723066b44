import Mathlib.Init

/-!
# MapHistory — what a single map would have answered

A history lists the completed operations on a map, the latest first.  `lastPut k` is the content
of key `k` after the history; a history is `Legal` if every `get` in it answered what the
operations before it left there.
-/

namespace Yfs
namespace Lib

inductive MapEvent (κ β : Type)
  | put (k : κ) (v : β)
  | remove (k : κ)
  | get (k : κ) (r : Option β)
  deriving DecidableEq

variable {κ β : Type} [DecidableEq κ]

def lastPut (k : κ) : List (MapEvent κ β) → Option β
  | [] => none
  | .put j v :: h => if j = k then some v else lastPut k h
  | .remove j :: h => if j = k then none else lastPut k h
  | .get _ _ :: h => lastPut k h

def Legal : List (MapEvent κ β) → Prop
  | [] => True
  | .get k r :: h => r = lastPut k h ∧ Legal h
  | .put _ _ :: h => Legal h
  | .remove _ :: h => Legal h

@[simp] theorem lastPut_put_self (k : κ) (v : β) (h : List (MapEvent κ β)) :
    lastPut k (.put k v :: h) = some v := by
  simp [lastPut]

@[simp] theorem lastPut_put_of_ne {j k : κ} (hne : j ≠ k) (v : β) (h : List (MapEvent κ β)) :
    lastPut k (.put j v :: h) = lastPut k h := by
  simp [lastPut, hne]

@[simp] theorem lastPut_remove_self (k : κ) (h : List (MapEvent κ β)) :
    lastPut k (.remove k :: h) = none := by
  simp [lastPut]

@[simp] theorem lastPut_remove_of_ne {j k : κ} (hne : j ≠ k) (h : List (MapEvent κ β)) :
    lastPut k (.remove j :: h) = lastPut k h := by
  simp [lastPut, hne]

@[simp] theorem lastPut_get (j k : κ) (r : Option β) (h : List (MapEvent κ β)) :
    lastPut k (.get j r :: h) = lastPut k h :=
  rfl

theorem Legal.tail {e : MapEvent κ β} {h : List (MapEvent κ β)} (hl : Legal (e :: h)) :
    Legal h := by
  cases e with
  | put k v | remove k => exact hl
  | get k r => exact hl.2

/-- Every answer in a legal history is the content that the operations before it left. -/
theorem Legal.get_eq {k : κ} {r : Option β} {pre : List (MapEvent κ β)}
    (post : List (MapEvent κ β)) (hl : Legal (post ++ .get k r :: pre)) : r = lastPut k pre := by
  induction post with
  | nil => exact hl.1
  | cons e post ih => exact ih hl.tail

end Lib
end Yfs

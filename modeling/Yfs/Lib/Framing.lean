import Mathlib.Data.List.Infix

/-!
# Framing — a stream of frames between two ends

One end puts frames on a stream, the other takes the stream apart again.  At any time the frames
that were sent and not yet received are, one after the other,

* the bytes of a frame that has been received in part,
* the bytes on their way,
* the bytes that have not been written yet.

`Framed` says so, and the lemmas move bytes from one part to the next.
-/

namespace Yfs
namespace Lib

variable {β : Type*}

/-- The frames `sent`, of which `got` have been received. -/
structure Framed (sent got : List (List β)) (part wire rest : List β) : Prop where
  got_le : got <+: sent
  bytes : part ++ (wire ++ rest) = (sent.drop got.length).flatten

namespace Framed

variable {sent got : List (List β)} {part wire rest bs f : List β} {fs : List (List β)}

theorem nil : Framed ([] : List (List β)) [] [] [] [] :=
  ⟨List.prefix_rfl, rfl⟩

/-- New frames are to be written after all that is. -/
theorem push (h : Framed sent got part wire rest) (fs : List (List β)) :
    Framed (sent ++ fs) got part wire (rest ++ fs.flatten) where
  got_le := h.got_le.trans (List.prefix_append _ _)
  bytes := by
    rw [List.drop_append_of_le_length h.got_le.length_le, List.flatten_append, ← h.bytes]
    simp only [List.append_assoc]

theorem write (h : Framed sent got part wire (bs ++ rest)) :
    Framed sent got part (wire ++ bs) rest where
  got_le := h.got_le
  bytes := by rw [← h.bytes, List.append_assoc]

theorem read (h : Framed sent got part (bs ++ wire) rest) :
    Framed sent got (part ++ bs) wire rest where
  got_le := h.got_le
  bytes := by rw [← h.bytes, List.append_assoc, List.append_assoc]

/-- As long as bytes arrive there is a frame to receive. -/
theorem next (h : Framed sent got part wire rest) (hne : part ++ wire ≠ []) :
    ∃ f fs, sent.drop got.length = f :: fs := by
  cases hdrop : sent.drop got.length with
  | nil =>
      have hbytes := h.bytes
      rw [hdrop, List.flatten_nil, ← List.append_assoc, List.append_eq_nil_iff] at hbytes
      exact absurd hbytes.1 hne
  | cons f fs => exact ⟨f, fs, rfl⟩

/-- What has arrived of the next frame. -/
theorem take (h : Framed sent got part wire rest) (hnext : sent.drop got.length = f :: fs) {n : ℕ}
    (hn : n ≤ f.length) (hn' : n ≤ (part ++ wire).length) : (part ++ wire).take n = f.take n := by
  have hbytes := h.bytes
  rw [hnext, List.flatten_cons, ← List.append_assoc] at hbytes
  calc
    (part ++ wire).take n = ((part ++ wire) ++ rest).take n :=
      (List.take_append_of_le_length hn').symm
    _ = (f ++ fs.flatten).take n := by rw [hbytes]
    _ = f.take n := List.take_append_of_le_length hn

/-- A frame of which everything has arrived is received. -/
theorem accept (h : Framed sent got part wire rest) (hnext : sent.drop got.length = f :: fs)
    (hlen : part.length = f.length) : Framed sent (got ++ [part]) [] wire rest := by
  have hbytes := h.bytes
  rw [hnext, List.flatten_cons] at hbytes
  -- the part and the frame are equally long heads of the same bytes
  rcases List.append_inj hbytes hlen with ⟨rfl, hrest⟩
  rcases h.got_le with ⟨todo, rfl⟩
  rw [List.drop_left] at hnext
  subst hnext
  refine ⟨⟨fs, by simp⟩, ?_⟩
  rw [List.nil_append, hrest, ← List.singleton_append (l := fs), ← List.append_assoc,
    List.drop_left]

end Framed

end Lib
end Yfs

import Mathlib.Order.Lattice
import Mathlib.Data.List.Pairwise

/-!
# OrderedMap — a finite map in the order of its keys

`std::map` as what can be seen of it: its entries in the order of their keys.  `insert` is
`d[a] = b`, `lookup` is `find`, `erase` is `erase` of a key.  Entries that are inserted in order
end up as they were (`insertEntry_last`); an insertion takes away the value that was there and
adds its own (`count_values_insert`).
-/

namespace Yfs
namespace Lib

variable {α β : Type*} [LinearOrder α]

/-- `d[a] = b` on the list of entries. -/
def insertEntry (a : α) (b : β) : List (α × β) → List (α × β)
  | [] => [(a, b)]
  | e :: es =>
      if a < e.1 then
        (a, b) :: e :: es
      else if a = e.1 then
        (a, b) :: es
      else
        e :: insertEntry a b es

theorem mem_insertEntry {a : α} {b : β} {e : α × β} {es : List (α × β)}
    (h : e ∈ insertEntry a b es) : e = (a, b) ∨ e ∈ es := by
  induction es with
  | nil => exact Or.inl (List.mem_singleton.1 h)
  | cons e' es ih =>
      unfold insertEntry at h
      split at h
      · exact List.mem_cons.1 h
      · split at h
        · exact (List.mem_cons.1 h).imp_right (List.mem_cons_of_mem _)
        · rcases List.mem_cons.1 h with rfl | h
          · exact Or.inr List.mem_cons_self
          · exact (ih h).imp_right (List.mem_cons_of_mem _)

theorem pairwise_insertEntry (a : α) (b : β) {es : List (α × β)}
    (h : es.Pairwise fun e e' => e.1 < e'.1) :
    (insertEntry a b es).Pairwise fun e e' => e.1 < e'.1 := by
  induction es with
  | nil => exact List.pairwise_singleton _ _
  | cons e es ih =>
      rcases List.pairwise_cons.1 h with ⟨hlt, hes⟩
      unfold insertEntry
      split
      next hae =>
        refine List.pairwise_cons.2 ⟨fun e' he' => ?_, h⟩
        rcases List.mem_cons.1 he' with rfl | he'
        · exact hae
        · exact lt_trans hae (hlt e' he')
      next hae =>
        split
        next heq => exact List.pairwise_cons.2 ⟨fun e' he' => heq ▸ hlt e' he', hes⟩
        next hne =>
          refine List.pairwise_cons.2 ⟨fun e' he' => ?_, ih hes⟩
          rcases mem_insertEntry he' with rfl | he'
          · exact lt_of_le_of_ne (not_lt.1 hae) (Ne.symm hne)
          · exact hlt e' he'

/-- A key beyond all others goes to the end. -/
theorem insertEntry_last {a : α} (b : β) {es : List (α × β)} (h : ∀ e ∈ es, e.1 < a) :
    insertEntry a b es = es ++ [(a, b)] := by
  induction es with
  | nil => rfl
  | cons e es ih =>
      have he : e.1 < a := h e List.mem_cons_self
      rw [insertEntry, if_neg (not_lt.2 he.le), if_neg he.ne',
        ih fun e' he' => h e' (List.mem_cons_of_mem _ he'), List.cons_append]

theorem length_insertEntry_le (a : α) (b : β) (es : List (α × β)) :
    (insertEntry a b es).length ≤ es.length + 1 := by
  induction es with
  | nil => exact Nat.le_refl _
  | cons e es ih =>
      unfold insertEntry
      split
      · exact Nat.le_refl _
      · split
        · exact Nat.le_succ _
        · exact Nat.succ_le_succ ih

theorem key_mem_insertEntry (a : α) (b : β) (es : List (α × β)) :
    a ∈ (insertEntry a b es).map Prod.fst := by
  induction es with
  | nil => simp [insertEntry]
  | cons e es ih =>
      unfold insertEntry
      split
      · simp
      · split
        · simp
        · exact List.mem_cons_of_mem _ ih

/-- Overwriting an entry does not add one. -/
theorem length_insertEntry_of_mem {a : α} (b : β) {es : List (α × β)}
    (hsorted : es.Pairwise fun e e' => e.1 < e'.1) (h : a ∈ es.map Prod.fst) :
    (insertEntry a b es).length = es.length := by
  induction es with
  | nil => cases h
  | cons e es ih =>
      rcases List.pairwise_cons.1 hsorted with ⟨hlt, hes⟩
      rw [List.map_cons, List.mem_cons] at h
      by_cases heq : a = e.1
      · rw [insertEntry, if_neg (not_lt.2 heq.ge), if_pos heq]
        rfl
      · have hmem := h.resolve_left heq
        rcases List.mem_map.1 hmem with ⟨e', he', rfl⟩
        rw [insertEntry, if_neg (not_lt.2 (hlt e' he').le), if_neg heq, List.length_cons,
          ih hes hmem, List.length_cons]

theorem lookup_cons_entry (x : α) (e : α × β) (es : List (α × β)) :
    (e :: es).lookup x = if x = e.1 then some e.2 else es.lookup x := by
  rcases e with ⟨a, b⟩
  by_cases hx : x = a
  · rw [List.lookup_cons, if_pos hx, beq_iff_eq.2 hx]
  · rw [List.lookup_cons, if_neg hx, beq_eq_false_iff_ne.2 hx]

theorem lookup_insertEntry (a : α) (b : β) (es : List (α × β)) (x : α) :
    (insertEntry a b es).lookup x = if x = a then some b else es.lookup x := by
  induction es with
  | nil => exact lookup_cons_entry x (a, b) []
  | cons e es ih =>
      unfold insertEntry
      split
      · exact lookup_cons_entry x (a, b) (e :: es)
      · split
        next heq =>
          rw [lookup_cons_entry, lookup_cons_entry, ← heq]
          split <;> rfl
        next hne =>
          rw [lookup_cons_entry, lookup_cons_entry, ih]
          by_cases hx : x = e.1
          · rw [if_pos hx, if_pos hx, if_neg fun h => hne (h.symm.trans hx)]
          · rw [if_neg hx, if_neg hx]

theorem lookup_eq_none_of_lt {a : α} {es : List (α × β)} (h : ∀ e ∈ es, a < e.1) :
    es.lookup a = none :=
  List.lookup_eq_none_iff.2 fun e he => by simpa using (h e he).ne

/-- An insertion adds its own value and takes away the one that was there. -/
theorem count_insertEntry [DecidableEq β] (a : α) (b : β) {es : List (α × β)}
    (h : es.Pairwise fun e e' => e.1 < e'.1) (y : β) :
    ((insertEntry a b es).map Prod.snd).count y + (if es.lookup a = some y then 1 else 0) =
      (es.map Prod.snd).count y + if b = y then 1 else 0 := by
  induction es with
  | nil => simp [insertEntry, List.count_singleton]
  | cons e es ih =>
      rcases List.pairwise_cons.1 h with ⟨hlt, hes⟩
      unfold insertEntry
      split
      next hae =>
        have hnone : (e :: es).lookup a = none := by
          refine lookup_eq_none_of_lt fun e' he' => ?_
          rcases List.mem_cons.1 he' with rfl | he'
          · exact hae
          · exact lt_trans hae (hlt e' he')
        simp [hnone, List.count_cons]
      next hae =>
        split
        next heq =>
          simp only [lookup_cons_entry, if_pos heq, Option.some.injEq, List.map_cons,
            List.count_cons, beq_iff_eq]
          omega
        next hne =>
          have hrest := ih hes
          simp only [lookup_cons_entry, if_neg hne, List.map_cons, List.count_cons]
          omega

/-- A map; its entries are in the order of their keys and no key occurs twice. -/
@[ext] structure OrderedMap (α β : Type*) [LinearOrder α] where
  entries : List (α × β)
  sorted : entries.Pairwise fun e e' => e.1 < e'.1

namespace OrderedMap

def empty : OrderedMap α β where
  entries := []
  sorted := List.Pairwise.nil

def insert (m : OrderedMap α β) (a : α) (b : β) : OrderedMap α β where
  entries := insertEntry a b m.entries
  sorted := pairwise_insertEntry a b m.sorted

def size (m : OrderedMap α β) : ℕ :=
  m.entries.length

def keys (m : OrderedMap α β) : List α :=
  m.entries.map Prod.fst

theorem size_insert_le (m : OrderedMap α β) (a : α) (b : β) : (m.insert a b).size ≤ m.size + 1 :=
  length_insertEntry_le a b m.entries

theorem mem_keys_insert (m : OrderedMap α β) (a : α) (b : β) : a ∈ (m.insert a b).keys :=
  key_mem_insertEntry a b m.entries

theorem size_insert_of_mem {m : OrderedMap α β} {a : α} (b : β) (h : a ∈ m.keys) :
    (m.insert a b).size = m.size :=
  length_insertEntry_of_mem b m.sorted h

/-! ## Looking up, erasing, and the values -/

def lookup (m : OrderedMap α β) (a : α) : Option β :=
  m.entries.lookup a

def erase (m : OrderedMap α β) (a : α) : OrderedMap α β where
  entries := m.entries.filter fun e => decide (e.1 ≠ a)
  sorted := m.sorted.filter _

def values (m : OrderedMap α β) : List β :=
  m.entries.map Prod.snd

theorem lookup_insert (m : OrderedMap α β) (a : α) (b : β) (x : α) :
    (m.insert a b).lookup x = if x = a then some b else m.lookup x :=
  lookup_insertEntry a b m.entries x

theorem lookup_erase (m : OrderedMap α β) (a x : α) :
    (m.erase a).lookup x = if x = a then none else m.lookup x := by
  change (m.entries.filter fun e => decide (e.1 ≠ a)).lookup x =
    if x = a then none else m.entries.lookup x
  induction m.entries with
  | nil => exact (ite_self none).symm
  | cons e es ih =>
      by_cases he : e.1 = a
      · rw [List.filter_cons_of_neg (by simpa using he), ih, lookup_cons_entry, he]
        split <;> rfl
      · rw [List.filter_cons_of_pos (by simpa using he), lookup_cons_entry, lookup_cons_entry, ih]
        by_cases hx : x = e.1
        · rw [if_pos hx, if_pos hx, if_neg fun h => he (hx.symm.trans h)]
        · rw [if_neg hx, if_neg hx]

theorem mem_values_iff {m : OrderedMap α β} {b : β} :
    b ∈ m.values ↔ ∃ a, m.lookup a = some b := by
  constructor
  · intro h
    rcases List.mem_map.1 h with ⟨⟨a, _⟩, he, rfl⟩
    rcases List.append_of_mem he with ⟨l, l', hl⟩
    refine ⟨a, List.lookup_eq_some_iff.2 ⟨l, l', hl, fun e hel => ?_⟩⟩
    have hsorted := m.sorted
    rw [hl] at hsorted
    have := (List.pairwise_append.1 hsorted).2.2 e hel (a, _) List.mem_cons_self
    simpa using this.ne'
  · rintro ⟨a, ha⟩
    rcases List.lookup_eq_some_iff.1 ha with ⟨l, l', hl, -⟩
    refine List.mem_map.2 ⟨(a, b), ?_, rfl⟩
    rw [hl]
    exact List.mem_append_right _ List.mem_cons_self

theorem count_values_insert [DecidableEq β] (m : OrderedMap α β) (a : α) (b y : β) :
    (m.insert a b).values.count y + (if m.lookup a = some y then 1 else 0) =
      m.values.count y + if b = y then 1 else 0 :=
  count_insertEntry a b m.sorted y

theorem mem_values_insert [DecidableEq β] {m : OrderedMap α β} {a : α} (b : β) {x : β}
    (h : m.lookup a = none) : x ∈ (m.insert a b).values ↔ x = b ∨ x ∈ m.values := by
  have hcount := count_values_insert m a b x
  rw [h, if_neg (by simp)] at hcount
  rw [← List.count_pos_iff, ← List.count_pos_iff]
  by_cases hx : b = x
  · rw [if_pos hx] at hcount
    exact ⟨fun _ => Or.inl hx.symm, fun _ => by omega⟩
  · rw [if_neg hx] at hcount
    exact ⟨fun hpos => Or.inr (by omega), fun hor => by
      have := hor.resolve_left (Ne.symm hx)
      omega⟩

/-- Erasing the only entry with the value `b`. -/
theorem mem_values_erase {m : OrderedMap α β} {a : α} {b x : β} (h : m.lookup a = some b)
    (honly : ∀ a', m.lookup a' = some b → a' = a) :
    x ∈ (m.erase a).values ↔ x ∈ m.values ∧ x ≠ b := by
  simp only [mem_values_iff, lookup_erase]
  constructor
  · rintro ⟨a', ha'⟩
    split at ha'
    · cases ha'
    next hne => exact ⟨⟨a', ha'⟩, fun hx => hne (honly a' (hx ▸ ha'))⟩
  · rintro ⟨⟨a', ha'⟩, hx⟩
    refine ⟨a', ?_⟩
    rw [if_neg, ha']
    rintro rfl
    exact hx (Option.some.inj (ha'.symm.trans h))

theorem count_values_pos [DecidableEq β] {m : OrderedMap α β} {a : α} {b : β}
    (h : m.lookup a = some b) : 0 < m.values.count b :=
  List.count_pos_iff.2 (mem_values_iff.2 ⟨a, h⟩)

end OrderedMap

end Lib
end Yfs

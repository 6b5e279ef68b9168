import Mathlib.Data.List.Pairwise
import Mathlib.Order.Lattice
import Mathlib.Tactic.Common

/-!
# Ordered maps

A map as a list that is sorted by its keys, with at most one entry for a key.
-/

namespace Dots

namespace Library

variable {κ α : Type*} [LinearOrder κ]

/-- Entries in the order of their keys. -/
structure OrderedMap (κ α : Type*) [LinearOrder κ] where
  entries : List (κ × α)
  sorted : entries.Pairwise fun p q => p.1 < q.1

namespace OrderedMap

/-- An entry that is there already stays. -/
def insertEntry (k : κ) (a : α) : List (κ × α) → List (κ × α)
  | [] => [(k, a)]
  | p :: l =>
      if k < p.1 then (k, a) :: p :: l
      else if p.1 < k then p :: insertEntry k a l
      else p :: l

theorem mem_insertEntry {k : κ} {a : α} {l : List (κ × α)} {p : κ × α} :
    p ∈ insertEntry k a l → p = (k, a) ∨ p ∈ l := by
  induction l with
  | nil => simp [insertEntry]
  | cons q l ih =>
      rw [insertEntry]
      split_ifs
      · simp
      · intro h
        rcases List.mem_cons.mp h with rfl | h
        · exact Or.inr List.mem_cons_self
        · exact (ih h).imp_right (List.mem_cons_of_mem q)
      · exact Or.inr

theorem subset_insertEntry (k : κ) (a : α) (l : List (κ × α)) : l ⊆ insertEntry k a l := by
  induction l with
  | nil => simp
  | cons q l ih =>
      rw [insertEntry]
      split_ifs
      · exact List.subset_cons_self _ _
      · exact List.cons_subset_cons q ih
      · exact List.Subset.refl _

theorem sorted_insertEntry {k : κ} {a : α} {l : List (κ × α)}
    (h : l.Pairwise fun p q => p.1 < q.1) :
    (insertEntry k a l).Pairwise fun p q => p.1 < q.1 := by
  induction l with
  | nil => exact List.pairwise_singleton _ _
  | cons q l ih =>
      obtain ⟨hq, hl⟩ := List.pairwise_cons.mp h
      rw [insertEntry]
      split_ifs with hlt hgt
      · refine List.pairwise_cons.mpr ⟨fun p hp => ?_, h⟩
        rcases List.mem_cons.mp hp with rfl | hp
        · exact hlt
        · exact hlt.trans (hq p hp)
      · refine List.pairwise_cons.mpr ⟨fun p hp => ?_, ih hl⟩
        rcases mem_insertEntry hp with rfl | hp
        · exact hgt
        · exact hq p hp
      · exact h

def empty : OrderedMap κ α := ⟨[], .nil⟩

/-- `std::map::insert`. -/
def insert (m : OrderedMap κ α) (k : κ) (a : α) : OrderedMap κ α :=
  ⟨insertEntry k a m.entries, sorted_insertEntry m.sorted⟩

/-- `std::map::find`. -/
def find? (m : OrderedMap κ α) (k : κ) : Option α :=
  (m.entries.find? fun p => p.1 = k).map Prod.snd

/-- `std::map::erase`. -/
def erase (m : OrderedMap κ α) (k : κ) : OrderedMap κ α :=
  ⟨m.entries.filter fun p => p.1 ≠ k, m.sorted.filter _⟩

/-- An entry is added, unless its key has another one. -/
theorem mem_insert {m : OrderedMap κ α} {k : κ} {a : α} (hnew : ∀ b, (k, b) ∈ m.entries → b = a)
    {p : κ × α} : p ∈ (m.insert k a).entries ↔ p = (k, a) ∨ p ∈ m.entries := by
  constructor
  · exact mem_insertEntry
  · rintro (rfl | hp)
    · change (k, a) ∈ insertEntry k a m.entries
      generalize m.entries = l at hnew
      induction l with
      | nil => exact List.mem_singleton_self _
      | cons q l ih =>
          rw [insertEntry]
          split_ifs with hlt hgt
          · exact List.mem_cons_self
          · exact List.mem_cons_of_mem q (ih fun b hb => hnew b (List.mem_cons_of_mem q hb))
          · obtain ⟨k', b⟩ := q
            obtain rfl : k = k' := le_antisymm (not_lt.mp hgt) (not_lt.mp hlt)
            rw [hnew b List.mem_cons_self]
            exact List.mem_cons_self
    · exact subset_insertEntry k a m.entries hp

end OrderedMap

end Library

end Dots

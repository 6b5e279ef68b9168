import Mathlib.Algebra.GroupWithZero.Nat
import Mathlib.Data.List.Sort
import Mathlib.Order.Defs.LinearOrder
import Mathlib.Tactic.Common

/-!
# `core::database::set`

Sorted arrays as lists. Each two-cursor loop of the source recurses on the
left list and, inside it, on the right one, so that both cursors advance
structurally. The 16-bit cursors are not bounded here.
-/

namespace Dots.Set

variable {α : Type*} [LinearOrder α]

/-- The inner loop of `merge` at the left element `x`. -/
def mergeFrom (x : α) (rest : List α → List α) : List α → List α
  | [] => x :: rest []
  | y :: ys =>
      if y < x then y :: mergeFrom x rest ys
      else if x < y then x :: rest (y :: ys)
      else x :: rest ys

def merge : List α → List α → List α
  | [], ys => ys
  | x :: xs, ys => mergeFrom x (merge xs) ys

/-- The inner loop of `substract` at the left element `x`. -/
def substractFrom (x : α) (rest : List α → List α) : List α → List α
  | [] => x :: rest []
  | y :: ys =>
      if y < x then substractFrom x rest ys
      else if x < y then x :: rest (y :: ys)
      else rest ys

def substract : List α → List α → List α
  | [], _ => []
  | x :: xs, ys => substractFrom x (substract xs) ys

/-- The inner loop of `intersect` at the left element `x`. -/
def intersectFrom (x : α) (rest : List α → List α) : List α → List α
  | [] => []
  | y :: ys =>
      if y < x then intersectFrom x rest ys
      else if x < y then rest (y :: ys)
      else x :: rest ys

def intersect : List α → List α → List α
  | [], _ => []
  | x :: xs, ys => intersectFrom x (intersect xs) ys

/-- The inner loop of `any` at the left element `x`. -/
def anyFrom (x : α) (rest : List α → Bool) : List α → Bool
  | [] => false
  | y :: ys =>
      if y < x then anyFrom x rest ys
      else if x < y then rest (y :: ys)
      else true

/-- `xs.any(ys)`: the two sets meet. -/
def any : List α → List α → Bool
  | [], _ => false
  | x :: xs, ys => anyFrom x (any xs) ys

/-- `xs.all(ys)`: every element of `ys` is in `xs`. -/
def all : List α → List α → Bool
  | _, [] => true
  | [], _ :: _ => false
  | x :: xs, y :: ys =>
      if y < x then false
      else if x < y then all xs (y :: ys)
      else all xs ys

/-- The order invariant of a well-formed set. -/
abbrev Sorted (xs : List α) : Prop := xs.Pairwise (· < ·)

theorem merge_nil (xs : List α) : merge xs [] = xs := by
  induction xs with
  | nil => rfl
  | cons x xs ih => rw [merge, mergeFrom, ih]

theorem substract_nil (xs : List α) : substract xs [] = xs := by
  induction xs with
  | nil => rfl
  | cons x xs ih => rw [substract, substractFrom, ih]

theorem intersect_nil (xs : List α) : intersect xs [] = [] := by
  cases xs with
  | nil => rfl
  | cons x xs => rfl

theorem any_nil (xs : List α) : any xs [] = false := by
  cases xs with
  | nil => rfl
  | cons x xs => rfl

theorem all_nil (xs : List α) : all xs [] = true := by
  cases xs with
  | nil => rfl
  | cons x xs => rfl

theorem mem_mergeFrom {x : α} {rest : List α → List α} {xs : List α}
    (hr : ∀ ys a, a ∈ rest ys ↔ a ∈ xs ∨ a ∈ ys) (ys : List α) (a : α) :
    a ∈ mergeFrom x rest ys ↔ a ∈ x :: xs ∨ a ∈ ys := by
  induction ys with
  | nil => simp [mergeFrom, hr]
  | cons y ys ih =>
      simp only [mergeFrom]
      split_ifs with h1 h2
      · rw [List.mem_cons, ih]
        simp only [List.mem_cons]
        tauto
      · simp only [List.mem_cons, hr]
        tauto
      · obtain rfl : x = y := le_antisymm (not_lt.mp h1) (not_lt.mp h2)
        simp only [List.mem_cons, hr]
        tauto

/-- The merge of two arrays holds the elements of both. -/
theorem mem_merge (xs ys : List α) (a : α) :
    a ∈ merge xs ys ↔ a ∈ xs ∨ a ∈ ys := by
  induction xs generalizing ys a with
  | nil => simp [merge]
  | cons x xs ih => exact mem_mergeFrom ih ys a

section Pairwise

variable {R : α → α → Prop}

theorem pairwise_mergeFrom (hlt : ∀ {a b}, a < b → R a b)
    (htrans : ∀ {a b c}, R a b → R b c → R a c) {x : α} {rest : List α → List α} {xs ys : List α}
    (hm : ∀ ys a, a ∈ rest ys ↔ a ∈ xs ∨ a ∈ ys)
    (hr : ∀ ys, ys.Pairwise R → (rest ys).Pairwise R) (hx : (x :: xs).Pairwise R)
    (hy : ys.Pairwise R) : (mergeFrom x rest ys).Pairwise R := by
  obtain ⟨hxs, _⟩ := List.pairwise_cons.mp hx
  induction ys with
  | nil =>
      refine List.pairwise_cons.mpr ⟨?_, hr [] List.Pairwise.nil⟩
      intro a ha
      exact hxs a (by simpa using (hm [] a).mp ha)
  | cons y ys ih =>
      obtain ⟨hyt, hys⟩ := List.pairwise_cons.mp hy
      simp only [mergeFrom]
      split_ifs with h1 h2
      · refine List.pairwise_cons.mpr ⟨?_, ih hys⟩
        intro a ha
        rcases (mem_mergeFrom hm ys a).mp ha with ha | ha
        · rcases List.mem_cons.mp ha with rfl | ha
          · exact hlt h1
          · exact htrans (hlt h1) (hxs a ha)
        · exact hyt a ha
      · refine List.pairwise_cons.mpr ⟨?_, hr _ hy⟩
        intro a ha
        rcases (hm _ a).mp ha with ha | ha
        · exact hxs a ha
        · rcases List.mem_cons.mp ha with rfl | ha
          · exact hlt h2
          · exact htrans (hlt h2) (hyt a ha)
      · obtain rfl : x = y := le_antisymm (not_lt.mp h1) (not_lt.mp h2)
        refine List.pairwise_cons.mpr ⟨?_, hr _ hys⟩
        intro a ha
        rcases (hm _ a).mp ha with ha | ha
        · exact hxs a ha
        · exact hyt a ha

/-- The merge of two arrays in an order that extends `<` is in that order. -/
theorem pairwise_merge (hlt : ∀ {a b}, a < b → R a b)
    (htrans : ∀ {a b c}, R a b → R b c → R a c) {xs ys : List α} (hx : xs.Pairwise R)
    (hy : ys.Pairwise R) : (merge xs ys).Pairwise R := by
  induction xs generalizing ys with
  | nil => exact hy
  | cons x xs ih =>
      exact pairwise_mergeFrom hlt htrans (mem_merge xs)
        (fun _ hz => ih (List.pairwise_cons.mp hx).2 hz) hx hy

end Pairwise

/-- Merging well-formed sets gives a well-formed set. -/
theorem sorted_merge {xs ys : List α} (hx : Sorted xs) (hy : Sorted ys) :
    Sorted (merge xs ys) :=
  pairwise_merge id lt_trans hx hy

theorem substractFrom_sublist {x : α} {rest : List α → List α} {xs : List α}
    (hr : ∀ ys, (rest ys).Sublist xs) (ys : List α) :
    (substractFrom x rest ys).Sublist (x :: xs) := by
  induction ys with
  | nil => exact (hr []).cons_cons x
  | cons y ys ih =>
      simp only [substractFrom]
      split_ifs
      · exact ih
      · exact (hr _).cons_cons x
      · exact (hr _).cons x

/-- A difference keeps the order of the left array. -/
theorem substract_sublist (xs ys : List α) : (substract xs ys).Sublist xs := by
  induction xs generalizing ys with
  | nil => exact List.Sublist.refl _
  | cons x xs ih => exact substractFrom_sublist ih ys

theorem sorted_substract {xs : List α} (hx : Sorted xs) (ys : List α) :
    Sorted (substract xs ys) :=
  List.Pairwise.sublist (substract_sublist xs ys) hx

theorem mem_substractFrom {x : α} {rest : List α → List α} {xs ys : List α}
    (hr : ∀ ys, Sorted ys → ∀ a, a ∈ rest ys ↔ a ∈ xs ∧ a ∉ ys) (hx : Sorted (x :: xs))
    (hy : Sorted ys) (a : α) : a ∈ substractFrom x rest ys ↔ a ∈ x :: xs ∧ a ∉ ys := by
  obtain ⟨hlt, -⟩ := List.pairwise_cons.mp hx
  induction ys with
  | nil => simp [substractFrom, hr [] List.Pairwise.nil]
  | cons y ys ih =>
      obtain ⟨hys, hy'⟩ := List.pairwise_cons.mp hy
      simp only [substractFrom]
      split_ifs with h1 h2
      · -- `y` is below all that is left of the first array
        rw [ih hy']
        have hne : a ∈ x :: xs → a ≠ y := by
          rintro ha rfl
          rcases List.mem_cons.mp ha with rfl | ha
          · exact lt_irrefl _ h1
          · exact lt_irrefl _ (h1.trans (hlt _ ha))
        simp only [List.mem_cons] at hne ⊢
        tauto
      · -- `x` is below all that is left of the second array
        have hxy : x ∉ y :: ys := by
          intro hmem
          rcases List.mem_cons.mp hmem with rfl | hmem
          · exact lt_irrefl _ h2
          · exact lt_irrefl _ (h2.trans (hys x hmem))
        rw [List.mem_cons, hr _ hy]
        constructor
        · rintro (rfl | ⟨ha, hnot⟩)
          · exact ⟨List.mem_cons_self, hxy⟩
          · exact ⟨List.mem_cons_of_mem x ha, hnot⟩
        · rintro ⟨ha, hnot⟩
          exact (List.mem_cons.mp ha).imp_right fun ha => ⟨ha, hnot⟩
      · obtain rfl : x = y := le_antisymm (not_lt.mp h1) (not_lt.mp h2)
        rw [hr _ hy', List.mem_cons, List.mem_cons]
        constructor
        · rintro ⟨ha, hnot⟩
          exact ⟨Or.inr ha, fun h => h.elim (hlt a ha).ne' hnot⟩
        · rintro ⟨rfl | ha, hnot⟩
          · exact absurd (Or.inl rfl) hnot
          · exact ⟨ha, fun h => hnot (Or.inr h)⟩

/-- The difference of two sets. -/
theorem mem_substract {xs ys : List α} (hx : Sorted xs) (hy : Sorted ys) (a : α) :
    a ∈ substract xs ys ↔ a ∈ xs ∧ a ∉ ys := by
  induction xs generalizing ys a with
  | nil => simp [substract]
  | cons x xs ih =>
      exact mem_substractFrom (fun ys hy a => ih (List.pairwise_cons.mp hx).2 hy a) hx hy a

theorem intersect_cons_cons {x y : α} {xs ys : List α} : intersect (x :: xs) (y :: ys) =
    if y < x then intersect (x :: xs) ys
    else if x < y then intersect xs (y :: ys) else x :: intersect xs ys := rfl

/-- An intersection keeps the order of the left array. -/
theorem intersect_sublist (xs ys : List α) : (intersect xs ys).Sublist xs := by
  induction xs generalizing ys with
  | nil => exact List.Sublist.refl _
  | cons x xs ih =>
      induction ys with
      | nil => exact List.nil_sublist _
      | cons y ys ihy =>
          rw [intersect_cons_cons]
          split_ifs
          · exact ihy
          · exact (ih _).cons x
          · exact (ih _).cons_cons x

/-- And of the right one. -/
theorem intersect_sublist_right (xs ys : List α) : (intersect xs ys).Sublist ys := by
  induction xs generalizing ys with
  | nil => exact List.nil_sublist _
  | cons x xs ih =>
      induction ys with
      | nil => exact List.Sublist.refl _
      | cons y ys ihy =>
          rw [intersect_cons_cons]
          split_ifs with hlt hgt
          · exact ihy.cons y
          · exact ih _
          · obtain rfl : x = y := le_antisymm (not_lt.mp hlt) (not_lt.mp hgt)
            exact (ih _).cons_cons x

theorem sorted_intersect {xs : List α} (hx : Sorted xs) (ys : List α) :
    Sorted (intersect xs ys) :=
  List.Pairwise.sublist (intersect_sublist xs ys) hx

/-- The intersection of two sets. -/
theorem mem_intersect {xs ys : List α} (hx : Sorted xs) (hy : Sorted ys) (a : α) :
    a ∈ intersect xs ys ↔ a ∈ xs ∧ a ∈ ys := by
  constructor
  · intro ha
    exact ⟨(intersect_sublist xs ys).subset ha, (intersect_sublist_right xs ys).subset ha⟩
  rintro ⟨hxs, hys⟩
  induction xs generalizing ys with
  | nil => exact absurd hxs List.not_mem_nil
  | cons x xs ih =>
      obtain ⟨hlt, hx'⟩ := List.pairwise_cons.mp hx
      induction ys with
      | nil => exact absurd hys List.not_mem_nil
      | cons y ys ihy =>
          obtain ⟨hlty, hy'⟩ := List.pairwise_cons.mp hy
          rw [intersect_cons_cons]
          split_ifs with hyx hxy
          · -- `y` is below all that is left of the first array
            refine ihy hy' ((List.mem_cons.mp hys).resolve_left ?_)
            rintro rfl
            rcases List.mem_cons.mp hxs with rfl | ha
            · exact lt_irrefl _ hyx
            · exact lt_irrefl _ (hyx.trans (hlt _ ha))
          · -- `x` is below all that is left of the second array
            refine ih hx' hy ((List.mem_cons.mp hxs).resolve_left ?_) hys
            rintro rfl
            rcases List.mem_cons.mp hys with rfl | ha
            · exact lt_irrefl _ hxy
            · exact lt_irrefl _ (hxy.trans (hlty _ ha))
          · obtain rfl : x = y := le_antisymm (not_lt.mp hyx) (not_lt.mp hxy)
            rcases List.mem_cons.mp hxs with rfl | ha
            · exact List.mem_cons_self
            · refine List.mem_cons_of_mem x (ih hx' hy' ha ?_)
              exact (List.mem_cons.mp hys).resolve_left (hlt a ha).ne'

/-- What `any` tests. -/
theorem any_iff {xs ys : List α} (hx : Sorted xs) (hy : Sorted ys) :
    any xs ys = true ↔ ∃ a ∈ xs, a ∈ ys := by
  induction xs generalizing ys with
  | nil => simp [any]
  | cons x xs ih =>
      obtain ⟨hxs, hx'⟩ := List.pairwise_cons.mp hx
      induction ys with
      | nil => simp [any, anyFrom]
      | cons y ys ihy =>
          obtain ⟨hys, hy'⟩ := List.pairwise_cons.mp hy
          change (if y < x then any (x :: xs) ys
            else if x < y then any xs (y :: ys) else true) = true ↔ _
          split_ifs with hlt hgt
          · -- `y` is below all of the first array
            rw [ihy hy']
            refine exists_congr fun a => and_congr_right fun ha => ?_
            rw [List.mem_cons, or_iff_right]
            rintro rfl
            rcases List.mem_cons.mp ha with rfl | ha
            · exact lt_irrefl _ hlt
            · exact lt_irrefl _ (hlt.trans (hxs _ ha))
          · -- `x` is below all of the second array
            rw [ih hx' hy, List.exists_mem_cons_iff, or_iff_right]
            intro hmem
            rcases List.mem_cons.mp hmem with rfl | hmem
            · exact lt_irrefl _ hgt
            · exact lt_irrefl _ (hgt.trans (hys _ hmem))
          · obtain rfl : x = y := le_antisymm (not_lt.mp hlt) (not_lt.mp hgt)
            exact iff_of_true rfl ⟨x, List.mem_cons_self, List.mem_cons_self⟩

/-- What `all` tests. The left array may hold an element twice. -/
theorem all_iff {xs ys : List α} (hx : xs.Pairwise (· ≤ ·)) (hy : Sorted ys) :
    all xs ys = true ↔ ∀ y ∈ ys, y ∈ xs := by
  induction xs generalizing ys with
  | nil =>
      cases ys with
      | nil => simp [all]
      | cons y ys =>
          constructor
          · intro h
            simp [all] at h
          · intro h
            exact absurd (h y List.mem_cons_self) List.not_mem_nil
  | cons x xs ih =>
      cases ys with
      | nil => simp [all]
      | cons y ys =>
          obtain ⟨hxs, hx'⟩ := List.pairwise_cons.mp hx
          obtain ⟨hys, hy'⟩ := List.pairwise_cons.mp hy
          simp only [all]
          split_ifs with hlt hgt
          · constructor
            · intro h
              exact h.elim
            · intro h
              rcases List.mem_cons.mp (h y List.mem_cons_self) with rfl | hmem
              · exact absurd hlt (lt_irrefl y)
              · exact absurd hlt (not_lt.mpr (hxs y hmem))
          · rw [ih hx' hy]
            have hne : ∀ z ∈ y :: ys, z ≠ x := by
              intro z hz
              rcases List.mem_cons.mp hz with rfl | hz
              · exact hgt.ne'
              · exact (hgt.trans (hys z hz)).ne'
            refine forall₂_congr fun z hz => ?_
            rw [List.mem_cons, or_iff_right (hne z hz)]
          · obtain rfl : x = y := le_antisymm (not_lt.mp hlt) (not_lt.mp hgt)
            rw [ih hx' hy', List.forall_mem_cons]
            constructor
            · intro h
              exact ⟨List.mem_cons_self, fun z hz => List.mem_cons_of_mem x (h z hz)⟩
            · rintro ⟨-, h⟩ z hz
              exact (List.mem_cons.mp (h z hz)).resolve_left (hys z hz).ne'

end Dots.Set

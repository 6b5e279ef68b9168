import Mathlib.Algebra.BigOperators.Group.List.Basic
import Mathlib.Algebra.BigOperators.Group.Multiset.Basic

/-!
# Tables that are filled

Entries of a table are written one after the other, under keys that do not repeat. What a
list of parts holds together changes with one of its parts.
-/

namespace Dots.Library

variable {α β M : Type*}

/-! ## Entries -/

/-- The table after all writes. -/
def fill (writes : List (Nat × α)) (table : List α) : List α :=
  writes.foldl (fun table x => table.set x.1 x.2) table

@[simp] theorem fill_nil (table : List α) : fill [] table = table := rfl

@[simp] theorem fill_cons (k : Nat) (x : α) (writes : List (Nat × α)) (table : List α) :
    fill ((k, x) :: writes) table = fill writes (table.set k x) := rfl

theorem fill_append (writes writes' : List (Nat × α)) (table : List α) :
    fill (writes ++ writes') table = fill writes' (fill writes table) :=
  List.foldl_append ..

@[simp] theorem length_fill (writes : List (Nat × α)) (table : List α) :
    (fill writes table).length = table.length := by
  induction writes generalizing table with
  | nil => rfl
  | cons x writes ih => rw [fill_cons, ih, List.length_set]

theorem getElem?_fill_of_not_mem {writes : List (Nat × α)} {k : Nat}
    (h : k ∉ writes.map Prod.fst) (table : List α) : (fill writes table)[k]? = table[k]? := by
  induction writes generalizing table with
  | nil => rfl
  | cons x writes ih =>
      rw [List.map_cons, List.mem_cons, not_or] at h
      rw [fill_cons, ih h.2, List.getElem?_set_ne (Ne.symm h.1)]

/-- Each entry that was written holds what was written to it. -/
theorem getElem?_fill {writes : List (Nat × α)} (hkeys : (writes.map Prod.fst).Nodup)
    {table : List α} {k : Nat} {x : α} (hx : (k, x) ∈ writes) (hk : k < table.length) :
    (fill writes table)[k]? = some x := by
  induction writes generalizing table with
  | nil => simp at hx
  | cons y writes ih =>
      rw [List.map_cons, List.nodup_cons] at hkeys
      rw [fill_cons]
      rcases List.mem_cons.mp hx with rfl | hx
      · rw [getElem?_fill_of_not_mem hkeys.1, List.getElem?_set_self hk]
      · exact ih hkeys.2 hx (by rwa [List.length_set])

/-! ## Parts -/

/-- When one part is replaced, the sum changes by what it held and holds. -/
theorem sum_map_set [AddCommMonoid M] (f : α → M) {l : List α} {i : Nat} {x y : α}
    (hx : l[i]? = some x) : ((l.set i y).map f).sum + f x = (l.map f).sum + f y := by
  induction l generalizing i with
  | nil => simp at hx
  | cons z l ih =>
      cases i with
      | zero =>
          obtain rfl := Option.some.inj hx
          rw [List.set_cons_zero, List.map_cons, List.map_cons, List.sum_cons, List.sum_cons,
            add_comm (f y), add_comm (f z), add_right_comm]
      | succ i =>
          rw [List.set_cons_succ, List.map_cons, List.map_cons, List.sum_cons, List.sum_cons,
            add_assoc, ih hx, add_assoc]

theorem sum_flatMap_coe (f : α → List β) (l : List α) :
    (l.map fun x => (f x : Multiset β)).sum = (l.flatMap f : List β) := by
  induction l with
  | nil => rfl
  | cons x l ih => rw [List.map_cons, List.sum_cons, ih, Multiset.coe_add, List.flatMap_cons]

end Dots.Library

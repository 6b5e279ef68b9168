import Dots.Library.Partial
import Mathlib.Data.List.Perm.Basic
import Mathlib.Order.Basic
import Mathlib.Tactic.Common

/-!
# Split trees

Binary trees whose nodes split what is below them along an axis, and a search that leaves out the
half behind the split where nothing can be found.
-/

namespace Dots.Library

inductive SplitTree (ι α : Type*)
  | leaf
  | node (l : SplitTree ι α) (x : α) (a : ι) (r : SplitTree ι α)

namespace SplitTree

variable {ι α : Type*}

/-- What is in the tree, nodes before what is below them. -/
def elements : SplitTree ι α → List α
  | leaf => []
  | node l x _ r => x :: (l.elements ++ r.elements)

/-- At each node, what is on the left is `le` the node's element on its axis, which is `le` what is
on the right. -/
def Split (le : ι → α → α → Prop) : SplitTree ι α → Prop
  | leaf => True
  | node l x a r =>
      (∀ y ∈ l.elements, le a y x) ∧ (∀ y ∈ r.elements, le a x y) ∧ l.Split le ∧ r.Split le

/-- Search the half on the side of the search, and the other one when the search crosses. -/
def search (hit : α → Prop) (low cross : ι → α → Prop) [DecidablePred hit]
    [∀ a x, Decidable (low a x)] [∀ a x, Decidable (cross a x)] : SplitTree ι α → List α
  | leaf => []
  | node l x a r =>
      (if hit x then [x] else []) ++
        if low a x then
          l.search hit low cross ++ if cross a x then r.search hit low cross else []
        else r.search hit low cross ++ if cross a x then l.search hit low cross else []

variable {le : ι → α → α → Prop} {hit : α → Prop} {low cross : ι → α → Prop} [DecidablePred hit]
  [∀ a x, Decidable (low a x)] [∀ a x, Decidable (cross a x)]

/-- What lies behind a split that the search does not cross is no hit. -/
structure Prunes (le : ι → α → α → Prop) (hit : α → Prop) (low cross : ι → α → Prop) : Prop where
  right : ∀ {a x y}, low a x → ¬ cross a x → le a x y → ¬ hit y
  left : ∀ {a x y}, ¬ low a x → ¬ cross a x → le a y x → ¬ hit y

/-- The elements as a search that leaves nothing out comes to them. -/
def order (low : ι → α → Prop) [∀ a x, Decidable (low a x)] : SplitTree ι α → List α
  | leaf => []
  | node l x a r =>
      x :: if low a x then l.order low ++ r.order low else r.order low ++ l.order low

theorem order_perm (low : ι → α → Prop) [∀ a x, Decidable (low a x)] (t : SplitTree ι α) :
    (t.order low).Perm t.elements := by
  induction t with
  | leaf => exact List.Perm.refl _
  | node l x a r ihl ihr =>
      rw [order, elements]
      refine List.Perm.cons x ?_
      split_ifs
      · exact ihl.append ihr
      · exact List.perm_append_comm.trans (ihl.append ihr)

/-- The search finds the hits in the order in which it comes to them. -/
theorem Prunes.search_eq (h : Prunes le hit low cross) {t : SplitTree ι α} (ht : t.Split le) :
    t.search hit low cross = (t.order low).filter fun x => hit x := by
  induction t with
  | leaf => rfl
  | node l x a r ihl ihr =>
      obtain ⟨hl, hr, hsl, hsr⟩ := ht
      have hfilter : ∀ ys : List α, (x :: ys).filter (fun y => hit y) =
          (if hit x then [x] else []) ++ ys.filter fun y => hit y := by
        intro ys
        rw [List.filter_cons]
        by_cases hx : hit x <;> simp [hx]
      rw [search, order, hfilter, ihl hsl, ihr hsr]
      by_cases hlow : low a x
      · rw [if_pos hlow, if_pos hlow, List.filter_append]
        by_cases hcross : cross a x
        · rw [if_pos hcross]
        · have hnone : (r.order low).filter (fun y => hit y) = [] := by
            refine List.filter_eq_nil_iff.mpr fun y hy => ?_
            simpa using h.right hlow hcross (hr y ((r.order_perm low).mem_iff.mp hy))
          rw [if_neg hcross, hnone]
      · rw [if_neg hlow, if_neg hlow, List.filter_append]
        by_cases hcross : cross a x
        · rw [if_pos hcross]
        · have hnone : (l.order low).filter (fun y => hit y) = [] := by
            refine List.filter_eq_nil_iff.mpr fun y hy => ?_
            simpa using h.left hlow hcross (hl y ((l.order_perm low).mem_iff.mp hy))
          rw [if_neg hcross, hnone]

/-- The search finds each hit as often as it is in the tree. -/
theorem Prunes.search_perm (h : Prunes le hit low cross) {t : SplitTree ι α} (ht : t.Split le) :
    (t.search hit low cross).Perm (t.elements.filter fun x => hit x) := by
  rw [h.search_eq ht]
  exact (t.order_perm low).filter _

/-! ## A search that learns -/

variable {σ : Type*} {visit : σ → α → σ} {crossing : σ → ι → α → Prop}
  [∀ s a x, Decidable (crossing s a x)]

/-- Visit the node, then the half on the side of the search, and the other one when what is known
by then makes the search cross. -/
def explore (visit : σ → α → σ) (low : ι → α → Prop) (crossing : σ → ι → α → Prop)
    [∀ a x, Decidable (low a x)] [∀ s a x, Decidable (crossing s a x)] :
    SplitTree ι α → σ → σ
  | leaf, s => s
  | node l x a r, s =>
      if low a x then
        let s := l.explore visit low crossing (visit s x)
        if crossing s a x then r.explore visit low crossing s else s
      else
        let s := r.explore visit low crossing (visit s x)
        if crossing s a x then l.explore visit low crossing s else s

/-- What lies behind a split that the search does not cross would teach it nothing. -/
structure Idle (le : ι → α → α → Prop) (visit : σ → α → σ) (low : ι → α → Prop)
    (crossing : σ → ι → α → Prop) : Prop where
  right : ∀ {s a x y}, low a x → ¬ crossing s a x → le a x y → visit s y = s
  left : ∀ {s a x y}, ¬ low a x → ¬ crossing s a x → le a y x → visit s y = s

/-- The search learns what visiting every element in its order teaches. -/
theorem Idle.explore_eq (h : Idle le visit low crossing) {t : SplitTree ι α} (ht : t.Split le)
    (s : σ) : t.explore visit low crossing s = (t.order low).foldl visit s := by
  induction t generalizing s with
  | leaf => rfl
  | node l x a r ihl ihr =>
      obtain ⟨hl, hr, hsl, hsr⟩ := ht
      rw [explore, order, List.foldl_cons]
      by_cases hlow : low a x
      · rw [if_pos hlow, if_pos hlow, List.foldl_append, ihl hsl]
        dsimp only
        split_ifs with hcross
        · exact ihr hsr _
        · refine (foldl_stays fun y hy => ?_).symm
          exact h.right hlow hcross (hr y ((r.order_perm low).mem_iff.mp hy))
      · rw [if_neg hlow, if_neg hlow, List.foldl_append, ihr hsr]
        dsimp only
        split_ifs with hcross
        · exact ihl hsl _
        · refine (foldl_stays fun y hy => ?_).symm
          exact h.left hlow hcross (hl y ((l.order_perm low).mem_iff.mp hy))

end SplitTree

end Dots.Library

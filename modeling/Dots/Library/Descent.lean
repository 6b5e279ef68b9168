import Mathlib.Data.Set.Card
import Mathlib.Logic.Relation

/-!
# Recursion along a finite relation

A recursion that goes from an element to the elements below it, over a finite relation without
cycles. The height of an element bounds the depth of the recursion; with that much fuel, and
more, it returns the same result.
-/

namespace Dots.Library

variable {α β : Type*} {R : α → α → Prop} {s : Set α} {x y : α}

/-- The elements from which `R` leads to `x`. -/
def below (R : α → α → Prop) (x : α) : Set α := {y | Relation.TransGen R y x}

theorem below_subset (hs : ∀ y x, R y x → y ∈ s) (x : α) : below R x ⊆ s := by
  intro y h
  obtain ⟨z, hyz, -⟩ := Relation.TransGen.head'_iff.mp h
  exact hs y z hyz

/-- How many elements are below. -/
noncomputable def height (R : α → α → Prop) (x : α) : ℕ := (below R x).ncard

theorem height_lt (hfin : s.Finite) (hs : ∀ y x, R y x → y ∈ s)
    (hacyclic : ∀ x, ¬ Relation.TransGen R x x) (h : R y x) : height R y < height R x := by
  have hsub : below R y ⊆ below R x := fun z hz => Relation.TransGen.tail hz h
  apply Set.ncard_lt_ncard
  · exact (Set.ssubset_iff_of_subset hsub).mpr ⟨y, Relation.TransGen.single h, hacyclic y⟩
  · exact hfin.subset (below_subset hs x)

theorem height_le (hfin : s.Finite) (hs : ∀ y x, R y x → y ∈ s) (x : α) :
    height R x ≤ s.ncard :=
  Set.ncard_le_ncard (below_subset hs x) hfin

/-- A path that meets `g`, or one of `R` alone. -/
theorem transGen_or_through {R' : α → α → Prop} {g : α}
    (hold : ∀ x y, R' x y → x ≠ g → y ≠ g → R x y) (h : Relation.TransGen R' x y) :
    Relation.TransGen R x y ∨ Relation.ReflTransGen R' x g ∧ Relation.ReflTransGen R' g y := by
  have hedge : ∀ {x y}, R' x y →
      R x y ∨ Relation.ReflTransGen R' x g ∧ Relation.ReflTransGen R' g y := by
    intro x y hxy
    by_cases hx : x = g
    · exact Or.inr ⟨hx ▸ .refl, hx ▸ .single hxy⟩
    · by_cases hy : y = g
      · exact Or.inr ⟨hy ▸ .single hxy, hy ▸ .refl⟩
      · exact Or.inl (hold x y hxy hx hy)
  induction h with
  | single hxy => exact (hedge hxy).imp_left .single
  | tail hxy hyz ih =>
      rcases ih with hpath | ⟨hxg, hgy⟩
      · rcases hedge hyz with hR | ⟨hyg, hgz⟩
        · exact Or.inl (hpath.tail hR)
        · exact Or.inr ⟨hxy.to_reflTransGen.trans hyg, hgz⟩
      · exact Or.inr ⟨hxg, hgy.tail hyz⟩

/-- The edges at `g` are new. No cycle appears when what is below `g` now, `B`, is not above
it. -/
theorem acyclic_of_redirect {R' : α → α → Prop} {g : α} {B : α → Prop}
    (hacyclic : ∀ x, ¬ Relation.TransGen R x x)
    (hold : ∀ x y, R' x y → x ≠ g → y ≠ g → R x y) (hfirst : ∀ x, R' x g → B x)
    (hnext : ∀ x y, B y → R' x y → B x) (hg : ¬ B g) (x : α) : ¬ Relation.TransGen R' x x := by
  have hbelow : ∀ {y}, Relation.TransGen R' y g → B y := by
    intro y h
    induction h using Relation.TransGen.head_induction_on with
    | single hyg => exact hfirst _ hyg
    | head hyz _ ih => exact hnext _ _ ih hyz
  intro hcycle
  rcases transGen_or_through hold hcycle with hR | ⟨hxg, hgx⟩
  · exact hacyclic x hR
  · exact hg (hbelow ((Relation.TransGen.trans_right hgx hcycle).trans_left hxg))

/-- A computation with fuel has this result, whatever fuel is left over. -/
def Returns (f : ℕ → Option β) (r : β) : Prop := ∃ n, ∀ fuel, n ≤ fuel → f fuel = some r

theorem Returns.of_succ {f : ℕ → Option β} {r : β} (h : ∀ n, f (n + 1) = some r) : Returns f r := by
  refine ⟨1, fun fuel hfuel => ?_⟩
  obtain ⟨n, rfl⟩ := Nat.exists_eq_add_of_le' hfuel
  exact h n

theorem Returns.unique {f : ℕ → Option β} {r r' : β} (h : Returns f r) (h' : Returns f r') :
    r = r' := by
  obtain ⟨n, hn⟩ := h
  obtain ⟨n', hn'⟩ := h'
  have hmax := hn (max n n') (le_max_left n n')
  rw [hn' (max n n') (le_max_right n n')] at hmax
  exact (Option.some.inj hmax).symm

end Dots.Library

import Mathlib.Data.List.Basic
import Mathlib.Logic.Function.Basic

/-!
# Rows that close up

Items stand in rows, one behind the other. When one leaves, the last of its row takes its place;
some never leave. A list of items that leave one after the other is scattered when none of them
stands right behind the one before it.
-/

namespace Dots.Library

/-- Where each item stands, how long the rows are, and which items never leave. -/
structure Rows (κ α : Type*) where
  place : α → Option (κ × Nat)
  length : κ → Nat
  stays : α → Bool

namespace Rows

variable {κ α : Type*}

/-- `y` stands right behind `x`. -/
def Behind (r : Rows κ α) (x y : α) : Prop := ∃ p ∈ r.place x, r.place y = some (p.1, p.2 + 1)

instance [DecidableEq κ] (r : Rows κ α) (x y : α) : Decidable (r.Behind x y) :=
  inferInstanceAs (Decidable (∃ p ∈ r.place x, r.place y = some (p.1, p.2 + 1)))

variable {r r' r'' : Rows κ α} {x y : α} {xs ys : List α} {k : κ} {i : Nat}

/-- Two arrangements in which `xs` stand alike. -/
structure Agree (r r' : Rows κ α) (xs : List α) : Prop where
  place : ∀ x ∈ xs, r'.place x = r.place x
  stays : ∀ x ∈ xs, r'.stays x = r.stays x
  length : ∀ x ∈ xs, r.stays x = false → ∀ k i, r.place x = some (k, i) → r'.length k = r.length k

theorem Agree.refl (r : Rows κ α) (xs : List α) : r.Agree r xs :=
  ⟨fun _ _ => rfl, fun _ _ => rfl, fun _ _ _ _ _ _ => rfl⟩

theorem Agree.trans (h : r.Agree r' xs) (h' : r'.Agree r'' xs) : r.Agree r'' xs where
  place x hx := (h'.place x hx).trans (h.place x hx)
  stays x hx := (h'.stays x hx).trans (h.stays x hx)
  length x hx hs k i hi := by
    rw [h'.length x hx ((h.stays x hx).trans hs) k i ((h.place x hx).trans hi),
      h.length x hx hs k i hi]

theorem Agree.mono (h : r.Agree r' xs) (hsub : ∀ x ∈ ys, x ∈ xs) : r.Agree r' ys :=
  ⟨fun x hx => h.place x (hsub x hx), fun x hx => h.stays x (hsub x hx),
    fun x hx => h.length x (hsub x hx)⟩

theorem Agree.behind (h : r.Agree r' xs) (hx : x ∈ xs) (hy : y ∈ xs) :
    r'.Behind x y ↔ r.Behind x y := by
  rw [Behind, Behind, h.place x hx, h.place y hy]

variable [DecidableEq κ]

/-- The rows without the item in place `i` of row `k`. -/
def close (r : Rows κ α) (k : κ) (i : Nat) : Rows κ α where
  place y := if r.place y = some (k, r.length k - 1) then some (k, i) else r.place y
  length := Function.update r.length k (r.length k - 1)
  stays := r.stays

/-- `x` leaves. -/
def leave (r : Rows κ α) (x : α) : Rows κ α :=
  if r.stays x then r else
    match r.place x with
    | none => r
    | some (k, i) => r.close k i

/-- The items leave one after the other, and the next one never stands right behind. -/
def Scattered : Rows κ α → List α → Prop
  | _, [] => True
  | r, x :: xs => (∀ y ∈ xs.head?, ¬ r.Behind x y) ∧ (r.leave x).Scattered xs

/-- All of them left. -/
def leaveAll : Rows κ α → List α → Rows κ α
  | r, [] => r
  | r, x :: xs => (r.leave x).leaveAll xs

/-- The same for one list after the other; the last of a list and the first of the next one may
be neighbours. -/
def AllScattered : Rows κ α → List (List α) → Prop
  | _, [] => True
  | r, xs :: xss => r.Scattered xs ∧ (r.leaveAll xs).AllScattered xss

instance decidableScattered : (r : Rows κ α) → (xs : List α) → Decidable (r.Scattered xs)
  | _, [] => .isTrue trivial
  | r, x :: xs =>
      have := decidableScattered (r.leave x) xs
      inferInstanceAs (Decidable ((∀ y ∈ xs.head?, ¬ r.Behind x y) ∧ (r.leave x).Scattered xs))

instance decidableAllScattered :
    (r : Rows κ α) → (xss : List (List α)) → Decidable (r.AllScattered xss)
  | _, [] => .isTrue trivial
  | r, xs :: xss =>
      have := decidableAllScattered (r.leaveAll xs) xss
      inferInstanceAs (Decidable (r.Scattered xs ∧ (r.leaveAll xs).AllScattered xss))

theorem leave_of_stays (h : r.stays x = true) : r.leave x = r := if_pos h

theorem leave_of_place (h : r.stays x = false) (hx : r.place x = some (k, i)) :
    r.leave x = r.close k i := by
  rw [leave, h, if_neg Bool.false_ne_true, hx]

/-- An item stays in its row. -/
theorem row_of_close {j : Nat} {l : κ} (h : (r.close k i).place y = some (l, j)) :
    ∃ j', r.place y = some (l, j') := by
  simp only [close] at h
  split_ifs at h with hlast
  · obtain ⟨rfl, -⟩ := Prod.mk.inj (Option.some.inj h)
    exact ⟨_, hlast⟩
  · exact ⟨j, h⟩

theorem leaveAll_append (r : Rows κ α) (xs ys : List α) :
    r.leaveAll (xs ++ ys) = (r.leaveAll xs).leaveAll ys := by
  induction xs generalizing r with
  | nil => rfl
  | cons x xs ih => exact ih (r.leave x)

/-- They stand alike when one of them has left. -/
theorem Agree.leave (h : r.Agree r' (x :: xs)) : (r.leave x).Agree (r'.leave x) xs := by
  have hsub : ∀ y ∈ xs, y ∈ x :: xs := fun y => List.mem_cons_of_mem x
  have hx : x ∈ x :: xs := List.mem_cons_self
  cases hstays : r.stays x with
  | true =>
      rw [leave_of_stays hstays, leave_of_stays ((h.stays x hx).trans hstays)]
      exact h.mono hsub
  | false =>
      have hstays' := (h.stays x hx).trans hstays
      cases hplace : r.place x with
      | none =>
          rw [Rows.leave, Rows.leave, hstays, hstays', if_neg Bool.false_ne_true,
            if_neg Bool.false_ne_true, h.place x hx, hplace]
          exact h.mono hsub
      | some p =>
          obtain ⟨k, i⟩ := p
          have hlen := h.length x hx hstays k i hplace
          rw [leave_of_place hstays hplace,
            leave_of_place hstays' ((h.place x hx).trans hplace)]
          refine ⟨fun y hy => ?_, fun y hy => h.stays y (hsub y hy), fun y hy hs l j hj => ?_⟩
          · simp only [close, h.place y (hsub y hy), hlen]
          · obtain ⟨j', hj'⟩ := row_of_close hj
            have hrow := h.length y (hsub y hy) hs l j' hj'
            simp only [close, Function.update_apply, hlen, hrow]

theorem Agree.leaveAll (h : r.Agree r' (xs ++ ys)) : (r.leaveAll xs).Agree (r'.leaveAll xs) ys := by
  induction xs generalizing r r' with
  | nil => exact h
  | cons x xs ih => exact ih h.leave

theorem Agree.scattered (h : r.Agree r' xs) : r'.Scattered xs ↔ r.Scattered xs := by
  induction xs generalizing r r' with
  | nil => exact Iff.rfl
  | cons x xs ih =>
      refine and_congr (forall₂_congr fun y hy => not_congr ?_) (ih h.leave)
      exact h.behind List.mem_cons_self (List.mem_cons_of_mem x (List.mem_of_mem_head? hy))

theorem Agree.allScattered {xss : List (List α)} (h : r.Agree r' xss.flatten) :
    r'.AllScattered xss ↔ r.AllScattered xss := by
  induction xss generalizing r r' with
  | nil => exact Iff.rfl
  | cons xs xss ih =>
      have hfirst : r.Agree r' xs := h.mono fun x hx => List.mem_append_left _ hx
      exact and_congr hfirst.scattered (ih h.leaveAll)

end Rows

end Dots.Library

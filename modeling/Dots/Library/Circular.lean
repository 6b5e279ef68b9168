import Mathlib.Algebra.GroupWithZero.Nat
import Mathlib.Data.List.Basic
import Mathlib.Data.Nat.Basic
import Mathlib.Order.Basic
import Mathlib.Tactic.Common

/-!
# Circular arrays

Positions count up and stand for the slots of an array of `N` elements, the position modulo `N`.
A window is the run of elements from one position on. Elements are moved to and from it in
batches that end where the array ends.
-/

namespace Dots.Library

variable {α S : Type*}

/-! ## Windows -/

/-- The `n` elements from position `p` on. -/
def window (N : Nat) (data : Nat → α) (p n : Nat) : List α :=
  (List.range n).map fun i => data ((p + i) % N)

/-- The array with `xs` stored from slot `k` on. -/
def place (data : Nat → α) (k : Nat) (xs : List α) : Nat → α := fun i =>
  if k ≤ i then xs[i - k]?.getD (data i) else data i

@[simp] theorem length_window (N : Nat) (data : Nat → α) (p n : Nat) :
    (window N data p n).length = n := by
  rw [window, List.length_map, List.length_range]

theorem getElem?_window (N : Nat) (data : Nat → α) (p : Nat) {n i : Nat} (hi : i < n) :
    (window N data p n)[i]? = some (data ((p + i) % N)) := by
  rw [window, List.getElem?_map, List.getElem?_range hi, Option.map_some]

theorem getElem?_window_of_ge (N : Nat) (data : Nat → α) (p : Nat) {n i : Nat} (hi : n ≤ i) :
    (window N data p n)[i]? = none := by
  rw [List.getElem?_eq_none]
  rwa [length_window]

@[simp] theorem window_zero (N : Nat) (data : Nat → α) (p : Nat) : window N data p 0 = [] := rfl

theorem take_window (N : Nat) (data : Nat → α) (p : Nat) {n k : Nat} (hk : k ≤ n) :
    (window N data p n).take k = window N data p k := by
  rw [window, ← List.map_take, List.take_range, Nat.min_eq_left hk]
  rfl

theorem drop_window (N : Nat) (data : Nat → α) (p n k : Nat) :
    (window N data p n).drop k = window N data (p + k) (n - k) := by
  ext1 i
  rw [List.getElem?_drop]
  by_cases hi : i < n - k
  · rw [getElem?_window _ _ _ (by omega), getElem?_window _ _ _ hi, Nat.add_assoc]
  · rw [getElem?_window_of_ge _ _ _ (by omega), getElem?_window_of_ge _ _ _ (by omega)]

theorem place_of_lt (data : Nat → α) {k i : Nat} (xs : List α) (h : i < k) :
    place data k xs i = data i :=
  if_neg (Nat.not_le.mpr h)

theorem place_of_ge (data : Nat → α) {k i : Nat} {xs : List α} (h : k + xs.length ≤ i) :
    place data k xs i = data i := by
  rw [place, List.getElem?_eq_none (by omega)]
  exact ite_self _

theorem place_add (data : Nat → α) (k : Nat) {xs : List α} {i : Nat} {x : α}
    (hx : xs[i]? = some x) : place data k xs (k + i) = x := by
  rw [place, if_pos (Nat.le_add_right ..), Nat.add_sub_cancel_left, hx, Option.getD_some]

/-- Up to the end of the array, slots follow each other as positions do. -/
theorem add_mod_slot {N p i : Nat} (h : p % N + i < N) : (p + i) % N = p % N + i := by
  rw [Nat.add_mod, Nat.mod_eq_of_lt (by omega : i < N), Nat.mod_eq_of_lt h]

/-- Less than one turn apart, two positions have different slots. -/
theorem slot_ne {N p q : Nat} (hpq : p < q) (hq : q < p + N) : p % N ≠ q % N := by
  intro h
  have hmod : (q - p) % N = 0 := Nat.sub_mod_eq_zero_of_mod_eq h.symm
  rw [Nat.mod_eq_of_lt (by omega)] at hmod
  omega

/-- What is stored behind a window appends to it, if the window stays within one turn. -/
theorem window_place {N : Nat} (data : Nat → α) {p n : Nat} {xs : List α}
    (hfit : n + xs.length ≤ N) (hend : (p + n) % N + xs.length ≤ N) :
    window N (place data ((p + n) % N) xs) p (n + xs.length) = window N data p n ++ xs := by
  ext1 i
  by_cases hi : i < n + xs.length
  · rw [getElem?_window _ _ _ hi]
    by_cases hold : i < n
    · rw [List.getElem?_append_left (by rwa [length_window]), getElem?_window _ _ _ hold]
      refine congrArg some ?_
      by_cases hslot : (p + i) % N < (p + n) % N
      · exact place_of_lt _ _ hslot
      · refine place_of_ge _ (Nat.not_lt.mp fun hlt => ?_)
        -- the slot would be that of a position behind the window
        have hj := add_mod_slot (p := p + n) (i := (p + i) % N - (p + n) % N) (N := N) (by omega)
        exact slot_ne (N := N) (p := p + i) (q := p + n + ((p + i) % N - (p + n) % N))
          (by omega) (by omega) (by omega)
    · rw [List.getElem?_append_right (by rw [length_window]; omega), length_window,
        List.getElem?_eq_getElem (by omega), Option.some.injEq]
      have hslot := add_mod_slot (p := p + n) (i := i - n) (N := N) (by omega)
      rw [show p + i = p + n + (i - n) by omega, hslot]
      exact place_add _ _ (List.getElem?_eq_getElem (by omega))
  · rw [getElem?_window_of_ge _ _ _ (by omega), List.getElem?_eq_none]
    rw [List.length_append, length_window]
    omega

/-- The elements of a batch lie side by side in the array. -/
theorem window_batch {N : Nat} (data : Nat → α) {p n : Nat} (hend : p % N + n ≤ N) :
    (List.range n).map (fun i => data (p % N + i)) = window N data p n := by
  refine List.map_congr_left fun i hi => ?_
  have hi := List.mem_range.mp hi
  rw [add_mod_slot (by omega)]

/-! ## Batches -/

/-- Move `total` elements, `done` of which are moved: `clip` says where and how many of those that
remain can be moved at once. A batch of none ends the loop. `none` when the fuel runs out. -/
def batches (clip : S → Nat → Nat × Nat) (move : S → Nat → Nat → Nat → Option S) (total : Nat) :
    Nat → Nat → S → Option (Nat × S)
  | 0, _, _ => none
  | fuel + 1, done, s =>
      let (pos, batch) := clip s (total - done)
      if batch = 0 then some (done, s)
      else do
        let s ← move s pos batch done
        if done + batch ≠ total then batches clip move total fuel (done + batch) s
        else some (total, s)

/-- A transfer that begins at position `p`: what holds after `done` elements are moved, as long as
no more than `avail` are. -/
structure Transfers (clip : S → Nat → Nat × Nat) (move : S → Nat → Nat → Nat → Option S)
    (total N p avail : Nat) (I : Nat → S → Prop) : Prop where
  clip : ∀ {s done}, done ≤ min total avail → I done s → ∀ count,
    clip s count = ((p + done) % N, min count (min (avail - done) (N - (p + done) % N)))
  move : ∀ {s done batch}, done + batch ≤ min total avail → (p + done) % N + batch ≤ N →
    I done s → ∃ s', move s ((p + done) % N) batch done = some s' ∧ I (done + batch) s'

variable {clip : S → Nat → Nat × Nat} {move : S → Nat → Nat → Nat → Option S}
  {total N p avail : Nat} {I : Nat → S → Prop}

/-- Nothing is left to move. -/
theorem Transfers.halt (h : Transfers clip move total N p avail I) {s : S}
    (hI : I (min total avail) s) (fuel : Nat) :
    batches clip move total (fuel + 1) (min total avail) s = some (min total avail, s) := by
  rw [batches, h.clip (Nat.le_refl _) hI]
  exact if_pos (by omega)

/-- A batch that is not the last one goes on to the next. -/
theorem Transfers.batch (h : Transfers clip move total N p avail I) {s : S} {done batch : Nat}
    (hI : I done s) (hbatch : batch = min (total - done) (min (avail - done) (N - (p + done) % N)))
    (hpos : 0 < batch) : ∃ s', I (done + batch) s' ∧ ∀ fuel,
      batches clip move total (fuel + 1) done s =
        if done + batch ≠ total then batches clip move total fuel (done + batch) s'
        else some (total, s') := by
  have hdone : done + batch ≤ min total avail := by omega
  obtain ⟨s', hmove, hI'⟩ := h.move hdone (by omega) hI
  refine ⟨s', hI', fun fuel => ?_⟩
  rw [batches, h.clip (by omega) hI, ← hbatch]
  refine (if_neg (by omega)).trans ?_
  rw [hmove]
  rfl

/-- The rest fits before the end of the array: one batch moves it. -/
theorem Transfers.last (h : Transfers clip move total N p avail I) {s : S} {done : Nat}
    (hI : I done s) (hrest : (p + done) % N + (min total avail - done) ≤ N)
    (hdone : done ≤ min total avail) (fuel : Nat) :
    ∃ s', batches clip move total (fuel + 2) done s = some (min total avail, s') ∧
      I (min total avail) s' := by
  by_cases hnone : done = min total avail
  · rw [hnone] at hI ⊢
    exact ⟨s, h.halt hI _, hI⟩
  · have hbatch : min total avail - done =
        min (total - done) (min (avail - done) (N - (p + done) % N)) := by omega
    obtain ⟨s', hI', hrun⟩ := h.batch hI hbatch (by omega)
    rw [show done + (min total avail - done) = min total avail by omega] at hI' hrun
    refine ⟨s', ?_, hI'⟩
    rw [hrun]
    split_ifs with hmore
    · exact h.halt hI' _
    · rw [not_not.mp hmore]

/-- Two batches and the test for a third are enough: as many elements are moved as are asked for
and available. -/
theorem Transfers.batches_eq (h : Transfers clip move total N p avail I) (hN : 0 < N)
    (havail : avail ≤ N) {s : S} (hI : I 0 s) (fuel : Nat) :
    ∃ s', batches clip move total (fuel + 3) 0 s = some (min total avail, s') ∧
      I (min total avail) s' := by
  have hslot := Nat.mod_lt p hN
  by_cases hwrap : p % N + min total avail ≤ N
  · exact h.last hI (by omega) (Nat.zero_le _) _
  · -- the first batch ends where the array ends
    have hbatch : N - p % N = min (total - 0) (min (avail - 0) (N - (p + 0) % N)) := by
      rw [Nat.add_zero]
      omega
    obtain ⟨s₁, hI₁, hrun⟩ := h.batch hI hbatch (by omega)
    rw [Nat.zero_add] at hI₁ hrun
    have hstart : (p + (N - p % N)) % N = 0 := by
      have hsplit := Nat.div_add_mod p N
      rw [show p + (N - p % N) = N * (p / N) + N by omega, Nat.add_mod_right, Nat.mul_mod_right]
    obtain ⟨s', hlast, hI'⟩ := h.last hI₁ (by omega) (by omega) fuel
    refine ⟨s', ?_, hI'⟩
    rw [hrun, if_pos (by omega)]
    exact hlast

end Dots.Library

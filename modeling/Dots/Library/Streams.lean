import Dots.Library.Bytes

/-!
# Items on a stream

What was written item by item is read item by item. The reader knows the items that are to come,
or it goes on until it meets what ends them. A property of its state that each item keeps holds
when it is through.
-/

namespace Dots.Library

namespace Mem

variable {α : Type*}

theorem takeWord_append {n v : Nat} (hv : v < 256 ^ n) (rest : List UInt8) :
    takeWord n (wordBytes v n ++ rest) = some (v, rest) := by
  rw [takeWord, take_append (length_wordBytes v n), Option.map_some]
  dsimp only
  rw [ofBytes_wordBytes hv]

theorem takeMany_append {item : List UInt8 → Option (α × List UInt8)} {write : α → List UInt8}
    {xs : List α} (h : ∀ x ∈ xs, ∀ rest, item (write x ++ rest) = some (x, rest))
    (rest : List UInt8) :
    takeMany item xs.length (xs.flatMap write ++ rest) = some (xs, rest) := by
  induction xs with
  | nil => rfl
  | cons x xs ih =>
      have htail := ih fun y hy => h y (List.mem_cons_of_mem x hy)
      rw [List.length_cons, takeMany, List.flatMap_cons, List.append_assoc,
        h x List.mem_cons_self, Option.bind_eq_bind, Option.bind_some]
      dsimp only
      rw [htail]
      rfl

end Mem

namespace Stream

variable {α β σ : Type*} {write : α → List UInt8} {xs : List α} {s : σ}

theorem length_le_flatMap (h : ∀ x ∈ xs, write x ≠ []) :
    xs.length ≤ (xs.flatMap write).length := by
  induction xs with
  | nil => exact Nat.le_refl _
  | cons x xs ih =>
      have hx := List.length_pos_iff.mpr (h x List.mem_cons_self)
      have htail := ih fun y hy => h y (List.mem_cons_of_mem x hy)
      rw [List.flatMap_cons, List.length_append, List.length_cons]
      omega

/-- One item for each element of a list. -/
theorem foldlM_append {I : List α → σ → Prop} {f : σ × List UInt8 → α → Option (σ × List UInt8)}
    (hstep : ∀ done x later s rest, xs = done ++ x :: later → I done s →
      ∃ s', f (s, write x ++ rest) x = some (s', rest) ∧ I (done ++ [x]) s')
    (hs : I [] s) (rest : List UInt8) :
    ∃ s', xs.foldlM f (s, xs.flatMap write ++ rest) = some (s', rest) ∧ I xs s' := by
  suffices hall : ∀ later done s, xs = done ++ later → I done s →
      ∃ s', later.foldlM f (s, later.flatMap write ++ rest) = some (s', rest) ∧ I xs s' from
    hall xs [] s rfl hs
  intro later
  induction later with
  | nil =>
      intro done s hxs hdone
      rw [List.append_nil] at hxs
      exact ⟨s, rfl, hxs ▸ hdone⟩
  | cons x later ih =>
      intro done s hxs hdone
      obtain ⟨s₁, hrun, hnext⟩ := hstep done x later s (later.flatMap write ++ rest) hxs hdone
      obtain ⟨s', hrest, hend⟩ := ih (done ++ [x]) s₁ (by rw [hxs, List.append_assoc]; rfl) hnext
      refine ⟨s', ?_, hend⟩
      rw [List.flatMap_cons, List.append_assoc, List.foldlM_cons, hrun]
      exact hrest

/-- The loop of a reader that ends where an item is null. Each item is read off a stream that is
finite, and the number of its bytes is fuel enough. -/
def untilNull (turn : σ → List UInt8 → Option (σ × Option β × List UInt8)) :
    Nat → σ → List UInt8 → Option (σ × List β × List UInt8)
  | 0, _, _ => none
  | fuel + 1, s, bs => do
      let (s, b, bs) ← turn s bs
      match b with
      | none => some (s, [], bs)
      | some b => do
          let (s, out, bs) ← untilNull turn fuel s bs
          some (s, b :: out, bs)

/-- As many items as were written before the null. -/
theorem untilNull_append {I : List α → List β → σ → Prop}
    {turn : σ → List UInt8 → Option (σ × Option β × List UInt8)} {null : List UInt8}
    (hstep : ∀ done x later out s rest, xs = done ++ x :: later → I done out s →
      ∃ s' b, turn s (write x ++ rest) = some (s', some b, rest) ∧
        I (done ++ [x]) (out ++ [b]) s')
    (hnull : ∀ s rest, turn s (null ++ rest) = some (s, none, rest))
    (hs : I [] [] s) (rest : List UInt8) {fuel : Nat} (hfuel : xs.length < fuel) :
    ∃ s' out, untilNull turn fuel s (xs.flatMap write ++ (null ++ rest)) = some (s', out, rest) ∧
      I xs out s' := by
  suffices hall : ∀ later done out s fuel, xs = done ++ later → later.length < fuel →
      I done out s → ∃ s' more,
        untilNull turn fuel s (later.flatMap write ++ (null ++ rest)) = some (s', more, rest) ∧
          I xs (out ++ more) s' from
    hall xs [] [] s fuel rfl hfuel hs
  intro later
  induction later with
  | nil =>
      intro done out s fuel hxs hlt hdone
      rw [List.append_nil] at hxs
      obtain ⟨fuel, rfl⟩ := Nat.exists_eq_succ_of_ne_zero (Nat.ne_zero_of_lt hlt)
      refine ⟨s, [], ?_, by rwa [List.append_nil, hxs]⟩
      rw [List.flatMap_nil, List.nil_append, untilNull, hnull]
      rfl
  | cons x later ih =>
      intro done out s fuel hxs hlt hdone
      obtain ⟨fuel, rfl⟩ := Nat.exists_eq_succ_of_ne_zero (Nat.ne_zero_of_lt hlt)
      obtain ⟨s₁, b, hrun, hnext⟩ :=
        hstep done x later out s (later.flatMap write ++ (null ++ rest)) hxs hdone
      obtain ⟨s', more, hrest, hend⟩ := ih (done ++ [x]) (out ++ [b]) s₁ fuel
        (by rw [hxs, List.append_assoc]; rfl) (Nat.lt_of_succ_lt_succ hlt) hnext
      refine ⟨s', b :: more, ?_, by rwa [List.append_assoc] at hend⟩
      rw [List.flatMap_cons, List.append_assoc, untilNull, hrun, Option.bind_eq_bind,
        Option.bind_some]
      dsimp only
      rw [hrest]
      rfl

end Stream

end Dots.Library

import Dots.Library.Bytes
import Mathlib.Algebra.BigOperators.Group.List.Basic
import Mathlib.Data.List.Count
import Mathlib.Logic.Function.Iterate

/-!
# Loops over independent parts of a state

A step works on one part of the state and leaves the others alone. After a loop each part
was worked on as often as it occurs in the list of the loop, so that a loop that takes back
what a step does takes back the whole loop.
-/

namespace Dots.Library

variable {σ R V : Type*}

/-- On the states of `I`, `f r` does `F r` to the part `r` and nothing to other parts of `L`. -/
structure Separate (I : σ → Prop) (val : R → σ → V) (L : List R) (f : R → σ → σ) (F : R → V → V) :
    Prop where
  keeps : ∀ r ∈ L, ∀ s, I s → I (f r s)
  self : ∀ r ∈ L, ∀ s, I s → val r (f r s) = F r (val r s)
  other : ∀ r ∈ L, ∀ q ∈ L, r ≠ q → ∀ s, I s → val q (f r s) = val q s

namespace Separate

variable [DecidableEq R] {I : σ → Prop} {val : R → σ → V} {L M : List R} {f g : R → σ → σ}
  {F G : R → V → V} {s : σ}

/-- A loop over some of the parts. -/
theorem foldl (h : Separate I val L f F) (hM : ∀ r ∈ M, r ∈ L) (hs : I s) :
    I (M.foldl (fun s r => f r s) s) ∧
      ∀ q ∈ L, val q (M.foldl (fun s r => f r s) s) = (F q)^[M.count q] (val q s) := by
  induction M generalizing s with
  | nil => exact ⟨hs, fun _ _ => rfl⟩
  | cons r M ih =>
      have hr := hM r List.mem_cons_self
      obtain ⟨hend, hval⟩ := ih (fun q hq => hM q (List.mem_cons_of_mem r hq)) (h.keeps r hr s hs)
      refine ⟨hend, fun q hq => ?_⟩
      rw [List.foldl_cons, hval q hq]
      by_cases hrq : r = q
      · subst hrq
        rw [h.self r hr s hs, List.count_cons_self, Function.iterate_succ_apply]
      · rw [h.other r hr q hq hrq s hs, List.count_cons_of_ne hrq]

/-- The loop of `g` takes back the loop of `f`. -/
theorem undo (h : Separate I val L f F) (h' : Separate I val L g G) (hs : I s)
    (hback : ∀ r ∈ L, (G r)^[L.count r] ((F r)^[L.count r] (val r s)) = val r s) :
    I (L.foldl (fun s r => g r s) (L.foldl (fun s r => f r s) s)) ∧
      ∀ r ∈ L, val r (L.foldl (fun s r => g r s) (L.foldl (fun s r => f r s) s)) = val r s := by
  obtain ⟨hmid, hval⟩ := h.foldl (fun _ hr => hr) hs
  obtain ⟨hend, hval'⟩ := h'.foldl (fun _ hr => hr) hmid
  refine ⟨hend, fun r hr => ?_⟩
  rw [hval' r hr, hval r hr, hback r hr]

end Separate

/-- An element of the parts of one item alone occurs as often as that item. -/
theorem count_flatMap {α β : Type*} [DecidableEq α] [DecidableEq β] {l : List α} {f : α → List β}
    {a : α} {b : β} (hone : (f a).count b = 1) (hother : ∀ a' ∈ l, a' ≠ a → b ∉ f a') :
    (l.flatMap f).count b = l.count a := by
  induction l with
  | nil => rfl
  | cons a' l ih =>
      have htail := ih fun x hx => hother x (List.mem_cons_of_mem a' hx)
      rw [List.flatMap_cons, List.count_append, htail]
      by_cases ha : a' = a
      · subst ha
        rw [hone, List.count_cons_self, Nat.add_comm]
      · rw [List.count_cons_of_ne ha,
          List.count_eq_zero_of_not_mem (hother a' List.mem_cons_self ha), Nat.zero_add]

/-! ## Words as parts of a byte memory -/

namespace Mem

theorem readWord_inj {m m' : Mem} {a n : Nat} (h : m.readWord a n = m'.readWord a n) {x : Nat}
    (hlo : a ≤ x) (hhi : x < a + n) : m x = m' x := by
  induction n generalizing a with
  | zero => omega
  | succ n ih =>
      simp only [readWord] at h
      have hb := (m a).toNat_lt
      have hb' := (m' a).toNat_lt
      obtain rfl | hlt := Nat.eq_or_lt_of_le hlo
      · exact UInt8.toNat_inj.mp (by omega)
      · have hrest : m.readWord (a + 1) n = m'.readWord (a + 1) n := by omega
        exact ih hrest hlt (by omega)

/-- Writing back what is there changes nothing. -/
theorem writeWord_readWord (m : Mem) (a n : Nat) : m.writeWord a (m.readWord a n) n = m := by
  funext x
  by_cases hx : a ≤ x ∧ x < a + n
  · exact readWord_inj (readWord_write m a _ n (readWord_lt m a n)) hx.1 hx.2
  · rcases not_and_or.mp hx with hx | hx
    · exact writeWord_of_lt m _ n (Nat.lt_of_not_le hx)
    · exact writeWord_of_ge m _ (Nat.le_of_not_lt hx)

/-- A word that does not meet the one that is written. -/
theorem readWord_writeWord_apart (m : Mem) (v : Nat) {a b n k : Nat} (h : a + n ≤ b ∨ b + k ≤ a) :
    (m.writeWord a v n).readWord b k = m.readWord b k := by
  apply readWord_congr
  intro i hi
  rcases h with h | h
  · exact writeWord_of_ge m v (by omega)
  · exact writeWord_of_lt m v n (by omega)

/-- Rewrite the words of four bytes at some offsets behind `a`. -/
def mapWords (f : Nat → Nat) (m : Mem) (a : Nat) (rs : List Nat) : Mem :=
  rs.foldl (fun m r => m.writeWord (a + r) (f (m.readWord (a + r) 4)) 4) m

variable {f g : Nat → Nat} {m m' : Mem} {a b n : Nat} {rs : List Nat}

/-- It works on what lies behind `a`, wherever that is. -/
theorem mapWords_agree (hin : ∀ r ∈ rs, r + 4 ≤ n) (h : ∀ i < n, m (a + i) = m' (b + i)) :
    ∀ i < n, mapWords f m a rs (a + i) = mapWords f m' b rs (b + i) := by
  induction rs generalizing m m' with
  | nil => exact h
  | cons r rs ih =>
      have hr := hin r List.mem_cons_self
      refine ih (fun q hq => hin q (List.mem_cons_of_mem r hq)) fun i hi => ?_
      have hword : m.readWord (a + r) 4 = m'.readWord (b + r) 4 := by
        apply readWord_congr
        intro j hj
        simpa only [Nat.add_assoc] using h (r + j) (by omega)
      simp only [writeWord, hword, Nat.add_assoc, Nat.add_le_add_iff_left, Nat.add_lt_add_iff_left,
        Nat.add_sub_add_left, h i hi]

theorem sameOff_mapWords (f : Nat → Nat) (m : Mem) {W : Nat → Prop}
    (hW : ∀ r ∈ rs, ∀ x, a + r ≤ x → x < a + r + 4 → W x) : SameOff W m (mapWords f m a rs) :=
  .foldl (fun r hr _ => .writeWord _ (hW r hr)) m

theorem mapWords_fix (h : ∀ r ∈ rs, f (m.readWord (a + r) 4) = m.readWord (a + r) 4) :
    mapWords f m a rs = m := by
  induction rs with
  | nil => rfl
  | cons r rs ih =>
      rw [mapWords, List.foldl_cons, h r List.mem_cons_self, writeWord_readWord]
      exact ih fun q hq => h q (List.mem_cons_of_mem r hq)

/-- Offsets of words that do not overlap. -/
structure Apart (rs : List Nat) : Prop where
  nodup : rs.Nodup
  apart : ∀ r ∈ rs, ∀ q ∈ rs, r ≠ q → r + 4 ≤ q ∨ q + 4 ≤ r

theorem Apart.separate (h : Apart rs) (m : Mem) (a : Nat) (hf : ∀ v < 256 ^ 4, f v < 256 ^ 4) :
    Separate (SameOff (fun x => ∃ r ∈ rs, a + r ≤ x ∧ x < a + r + 4) m)
      (fun r m => m.readWord (a + r) 4) rs
      (fun r m => m.writeWord (a + r) (f (m.readWord (a + r) 4)) 4) fun _ => f where
  keeps r hr m' hm' := hm'.trans (.writeWord _ fun x hlo hhi => ⟨r, hr, hlo, hhi⟩)
  self r _ m' _ := readWord_write m' _ _ 4 (hf _ (readWord_lt m' _ 4))
  other r hr q hq hne m' _ := by
    apply readWord_writeWord_apart
    rcases h.apart r hr q hq hne with h | h
    · exact Or.inl (by omega)
    · exact Or.inr (by omega)

theorem Apart.readWord_mapWords (h : Apart rs) (m : Mem) (a : Nat)
    (hf : ∀ v < 256 ^ 4, f v < 256 ^ 4) {r : Nat} (hr : r ∈ rs) :
    (mapWords f m a rs).readWord (a + r) 4 = f (m.readWord (a + r) 4) := by
  have hval := ((h.separate m a hf).foldl (fun _ hq => hq) (.refl _ m)).2 r hr
  rwa [h.nodup.count, if_pos hr] at hval

theorem Apart.mapWords_undo (h : Apart rs) (hf : ∀ v < 256 ^ 4, f v < 256 ^ 4)
    (hg : ∀ v < 256 ^ 4, g v < 256 ^ 4)
    (hback : ∀ r ∈ rs, g (f (m.readWord (a + r) 4)) = m.readWord (a + r) 4) :
    mapWords g (mapWords f m a rs) a rs = m := by
  obtain ⟨hoff, hval⟩ := (h.separate m a hf).undo (h.separate m a hg) (.refl _ m) fun r hr => by
    rw [h.nodup.count, if_pos hr]
    exact hback r hr
  funext x
  by_cases hx : ∃ r ∈ rs, a + r ≤ x ∧ x < a + r + 4
  · obtain ⟨r, hr, hlo, hhi⟩ := hx
    exact readWord_inj (hval r hr) hlo hhi
  · exact hoff x hx

end Mem

end Dots.Library

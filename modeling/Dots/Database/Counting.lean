import Dots.Database.Integrity
import Dots.Database.Serialize
import Mathlib.Algebra.BigOperators.Group.Finset.Basic

/-!
# Entity counts

`archetype::size` against the entities its chunks hold. The counter is kept by each
function on its own; `cast_slice` takes the slice off twice, and so does `free_slice`
when it empties the chunk.
-/

namespace Dots

open Library

namespace Store

variable {ctx : Context} {st st' : Store} {g h : ArchetypeId} {a : Archetype} {c : ChunkId}

/-! ## The entities of an archetype -/

/-- The entities of `g` in the chunk `c`. -/
def held (st : Store) (g : ArchetypeId) (c : ChunkId) : Nat :=
  if st.type c = some g then st.count c else 0

/-- The entities in all chunks of `g`. -/
def total (st : Store) (g : ArchetypeId) : Nat := ∑ c ∈ Finset.range st.freshChunk, st.held g c

theorem held_fresh (hf : ∀ c, st.freshChunk ≤ c → st.type c = none) (hc : st.freshChunk ≤ c) :
    st.held g c = 0 := by
  simp [held, hf c hc]

theorem total_eq (hf : ∀ c, st.freshChunk ≤ c → st.type c = none) {n : Nat}
    (hn : st.freshChunk ≤ n) : st.total g = ∑ c ∈ Finset.range n, st.held g c := by
  apply Finset.sum_subset
  · exact Finset.range_mono hn
  · intro c _ hc
    exact held_fresh hf (Nat.le_of_not_lt fun hlt => hc (Finset.mem_range.mpr hlt))

/-- When one chunk changes, the sum changes by what it held and holds. -/
theorem total_change (hf : ∀ c, st.freshChunk ≤ c → st.type c = none)
    (hf' : ∀ c, st'.freshChunk ≤ c → st'.type c = none)
    (hheld : ∀ d, d ≠ c → st'.held g d = st.held g d) :
    st'.total g + st.held g c = st.total g + st'.held g c := by
  have hbound : ∀ x y z : Nat, ∃ n, x ≤ n ∧ y ≤ n ∧ z < n :=
    fun x y z => ⟨x + y + z + 1, by omega, by omega, by omega⟩
  obtain ⟨n, hn, hn', hc⟩ := hbound st.freshChunk st'.freshChunk c
  have hmem := Finset.mem_range.mpr hc
  have hrest : ∑ d ∈ (Finset.range n).erase c, st'.held g d =
      ∑ d ∈ (Finset.range n).erase c, st.held g d :=
    Finset.sum_congr rfl fun d hd => hheld d (Finset.ne_of_mem_erase hd)
  rw [total_eq hf hn, total_eq hf' hn', ← Finset.add_sum_erase _ _ hmem,
    ← Finset.add_sum_erase _ (st.held g) hmem, hrest]
  have hswap : ∀ x y z : Nat, x + z + y = y + z + x := by omega
  exact hswap _ _ _

theorem total_congr (htype : st'.type = st.type) (hcount : st'.count = st.count)
    (hfresh : st'.freshChunk = st.freshChunk) : st'.total g = st.total g := by
  simp only [total, held, htype, hcount, hfresh]

/-! ## The counter -/

theorem structuralChange_size (st : Store) (g : ArchetypeId) (a : Archetype) (c : ChunkId) :
    (st.structuralChange g a c).size = st.size := by
  unfold structuralChange
  split <;> rfl

theorem updateQueries_size {ents : Entities} {add : Bool}
    (hs : st.updateQueries ents g a add = some st') : st'.size = st.size := by
  simp only [updateQueries, Option.bind_eq_bind, Option.bind_eq_some_iff, Option.some.injEq] at hs
  obtain ⟨type, -, rfl⟩ := hs
  rfl

theorem splice_size (hs : st.splice g a c = some st') : st'.size = st.size := by
  unfold splice at hs
  cases hf : st.firstChunk g with
  | none =>
      rw [hf] at hs
      rw [← Option.some.inj hs]
  | some head =>
      simp only [hf] at hs
      by_cases hlt : st.count c < a.chunkCapacity (st.ct c)
      · rw [if_pos hlt] at hs
        cases hl : st.lastChunk g with
        | none => simp [hl] at hs
        | some last =>
            simp only [hl] at hs
            rw [← Option.some.inj hs]
      · rw [if_neg hlt] at hs
        rw [← Option.some.inj hs]

/-- `add_chunk` counts the entities of the chunk. -/
theorem addChunk_size (hs : st.addChunk g c = some st') :
    st'.size = Function.update st.size g ((st.size g + st.count c) % 2 ^ 32) := by
  simp only [Store.addChunk, Option.bind_eq_bind, Option.bind_eq_some_iff] at hs
  obtain ⟨a, -, hs⟩ := hs
  rw [splice_size hs]
  simp only [addSize, structuralChange_size]

/-- `remove_chunk` takes the entities of the chunk off. -/
theorem removeChunk_size {ents : Entities} (hs : st.removeChunk ents g c = some st') :
    st'.size = Function.update st.size g (sub32 (st.size g) (st.count c)) := by
  simp only [Store.removeChunk, Option.bind_eq_bind, Option.bind_eq_some_iff] at hs
  obtain ⟨a, -, hs⟩ := hs
  change (if (takeOut ((st.structuralChange g a c).subSize g (st.count c)) g c).firstChunk g = none
    then (takeOut ((st.structuralChange g a c).subSize g (st.count c)) g c).freeArchetype ents g a
    else some (takeOut ((st.structuralChange g a c).subSize g (st.count c)) g c)) = some st' at hs
  have hsize : (takeOut ((st.structuralChange g a c).subSize g (st.count c)) g c).size =
      Function.update st.size g (sub32 (st.size g) (st.count c)) := by
    simp only [takeOut, Store.remove, subSize, structuralChange_size]
  revert hs hsize
  generalize takeOut ((st.structuralChange g a c).subSize g (st.count c)) g c = st₂
  intro hs hsize
  split_ifs at hs
  · simp only [freeArchetype, Option.bind_eq_bind, Option.bind_eq_some_iff, Option.some.injEq] at hs
    obtain ⟨st₁, hup, rfl⟩ := hs
    exact (updateQueries_size hup).trans hsize
  · rw [← Option.some.inj hs]
    exact hsize

/-- `resize_chunk` leaves the counter to its callers. -/
theorem resizeChunk_size {ents : Entities} {n : Nat} (hn : n ≠ 0)
    (hs : st.resizeChunk ents c n = some st') : st'.size = st.size := by
  obtain ⟨links, firstChunk, lastChunk, firstFree, rfl⟩ := resizeChunk_lists hn hs
  rfl

/-- `allocate_slice` counts what it hands out. -/
theorem allocateSlice_size {ents : Entities} {n : Nat} {s : ChunkSlice}
    (hs : st.allocateSlice ents g n = some (st', s)) (hpos : 0 < s.start + s.count) :
    st'.size = Function.update st.size g ((st.size g + s.count) % 2 ^ 32) := by
  simp only [Store.allocateSlice, Option.bind_eq_bind, Option.bind_eq_some_iff] at hs
  obtain ⟨a, ha, hs⟩ := hs
  cases hf : st.firstFree g with
  | some c =>
      simp only [hf, Option.bind_eq_some_iff, Option.some.injEq, Prod.mk.injEq] at hs
      obtain ⟨_, rfl, st₂, hres, rfl, rfl⟩ := hs
      rw [resizeChunk_size (Nat.pos_iff_ne_zero.mp hpos) hres]
      simp only [addSize, structuralChange_size]
  | none =>
      simp only [hf, Option.bind_eq_some_iff, Option.some.injEq, Prod.mk.injEq] at hs
      obtain ⟨⟨st₁, c⟩, hchunk, st₂, hres, rfl, rfl⟩ := hs
      simp only [Store.newChunk, ha, Option.bind_eq_bind, Option.bind_some,
        Option.bind_eq_some_iff, Option.some.injEq, Prod.mk.injEq] at hchunk
      obtain ⟨st₃, hadd, rfl, rfl⟩ := hchunk
      have hzero : ∀ t, (st.mallocChunk t).1.count (st.mallocChunk t).2 = 0 :=
        fun t => Function.update_self ..
      have hsize := addChunk_size hadd
      rw [hzero, Nat.add_zero] at hsize
      rw [resizeChunk_size (Nat.pos_iff_ne_zero.mp hpos) hres]
      simp only [addSize, structuralChange_size]
      rw [hsize, Function.update_self, Function.update_idem, Nat.mod_add_mod]
      rfl

end Store

end Dots

import Dots.Database.Counting
import Mathlib.Algebra.Group.Pi.Basic
import Mathlib.Data.ZMod.Basic
import Mathlib.Tactic.LinearCombination
import Mathlib.Tactic.Ring

/-!
# Drift of the entity counts

How far `archetype::size` is ahead of the entities in the chunks of an archetype, in the 32
bits of the counter. Chunks that come and go and slots that are handed out leave it alone;
what else an operation adds or takes off stays in it.
-/

namespace Dots

open Library

namespace Store

variable {ctx : Context} {st st' : Store} {ents : Entities} {g h : ArchetypeId} {a : Archetype}
  {c : ChunkId} {n : Nat}

/-- The counter of `g` less the entities in its chunks. -/
def drift (st : Store) (g : ArchetypeId) : ZMod (2 ^ 32) := (st.size g : ZMod (2 ^ 32)) - st.total g

theorem cast_sub32 {x y : Nat} (hy : y ≤ 2 ^ 32) :
    ((sub32 x y : Nat) : ZMod (2 ^ 32)) = (x : ZMod (2 ^ 32)) - y := by
  rw [sub32, ZMod.natCast_mod, Nat.cast_sub (hy.trans (Nat.le_add_left _ x)), Nat.cast_add,
    ZMod.natCast_self, add_zero]

/-- A counter without drift is the number of the entities, as far as 32 bits hold it. -/
theorem size_eq_iff (hlt : st.size g < 2 ^ 32) :
    st.size g = st.total g % 2 ^ 32 ↔ st.drift g = 0 := by
  rw [drift, sub_eq_zero, ZMod.natCast_eq_natCast_iff', Nat.mod_eq_of_lt hlt]

/-! ## Single fields -/

theorem drift_congr (hsize : st'.size h = st.size h) (htype : st'.type = st.type)
    (hcount : st'.count = st.count) (hfresh : st'.freshChunk = st.freshChunk) :
    st'.drift h = st.drift h := by
  rw [drift, drift, hsize, total_congr htype hcount hfresh]

/-- The counter of `g` and what one chunk holds of `g` change. -/
theorem drift_change (hf : ∀ d, st.freshChunk ≤ d → st.type d = none)
    (hf' : ∀ d, st'.freshChunk ≤ d → st'.type d = none)
    (hsize : ∀ h, h ≠ g → st'.size h = st.size h)
    (hheld : ∀ h d, h ≠ g ∨ d ≠ c → st'.held h d = st.held h d) :
    st'.drift = st.drift + Pi.single g (((st'.size g : ZMod (2 ^ 32)) - st.size g) -
      ((st'.held g c : ZMod (2 ^ 32)) - st.held g c)) := by
  funext h
  have htotal := congrArg (Nat.cast (R := ZMod (2 ^ 32)))
    (total_change hf hf' fun d hd => hheld h d (Or.inr hd))
  rw [Nat.cast_add, Nat.cast_add] at htotal
  rw [Pi.add_apply, drift, drift]
  by_cases hg : h = g
  · subst hg
    rw [Pi.single_eq_same]
    linear_combination -htotal
  · rw [Pi.single_eq_of_ne hg, hsize h hg]
    rw [hheld h c (Or.inl hg)] at htotal
    linear_combination -htotal

theorem drift_addSize (st : Store) (g : ArchetypeId) (n : Nat) :
    (st.addSize g n).drift = st.drift + Pi.single g (n : ZMod (2 ^ 32)) := by
  funext h
  have htotal : (st.addSize g n).total h = st.total h := total_congr rfl rfl rfl
  rw [Pi.add_apply, drift, drift, htotal]
  by_cases hg : h = g
  · subst hg
    rw [Pi.single_eq_same, addSize]
    dsimp only
    rw [Function.update_self, ZMod.natCast_mod, Nat.cast_add]
    ring
  · rw [Pi.single_eq_of_ne hg, addSize]
    dsimp only
    rw [Function.update_of_ne hg, add_zero]

theorem drift_subSize (st : Store) (g : ArchetypeId) (hn : n ≤ 2 ^ 32) :
    (st.subSize g n).drift = st.drift - Pi.single g (n : ZMod (2 ^ 32)) := by
  funext h
  have htotal : (st.subSize g n).total h = st.total h := total_congr rfl rfl rfl
  rw [Pi.sub_apply, drift, drift, htotal]
  by_cases hg : h = g
  · subst hg
    rw [Pi.single_eq_same, subSize]
    dsimp only
    rw [Function.update_self, cast_sub32 hn]
    ring
  · rw [Pi.single_eq_of_ne hg, subSize]
    dsimp only
    rw [Function.update_of_ne hg, sub_zero]

theorem drift_structuralChange (st : Store) (g : ArchetypeId) (a : Archetype) (c : ChunkId) :
    (st.structuralChange g a c).drift = st.drift := by
  have hshape := structuralChange_shape st g a c
  funext h
  exact drift_congr (congrFun (structuralChange_size st g a c) h) hshape.type hshape.count
    hshape.freshChunk

/-! ## Chunks -/

theorem count_lt (hwf : Wf ctx st) (hc : st.type c = some g) (ha : st.archetype g = some a) :
    st.count c < 2 ^ 32 :=
  (hwf.count_le c g a hc ha).trans_lt (hwf.capacity_lt ha _)

theorem held_of_type (hc : st.type c = some g) : st.held g c = st.count c := if_pos hc

theorem held_of_none (hc : st.type c = none) : st.held g c = 0 :=
  if_neg (hc ▸ (Option.some_ne_none g).symm)

/-- Where the type and the number of entities of one chunk change, and the type to or from `g`,
the chunks hold the same of the others. -/
theorem held_congr {t : Option ArchetypeId} {n : Nat}
    (htype : st'.type = Function.update st.type c t)
    (hcount : st'.count = Function.update st.count c n) (ht : t = none ∨ t = some g)
    (hc : st.type c = none ∨ st.type c = some g) {d : ChunkId} (hd : h ≠ g ∨ d ≠ c) :
    st'.held h d = st.held h d := by
  rw [held, held, htype, hcount]
  by_cases hdc : d = c
  · subst hdc
    have hg := hd.resolve_right (not_not.mpr rfl)
    have hne : ∀ {t : Option ArchetypeId}, t = none ∨ t = some g → t ≠ some h := by
      rintro t (rfl | rfl) heq
      · simp at heq
      · exact hg (Option.some.inj heq).symm
    rw [Function.update_self, if_neg (hne ht), if_neg (hne hc)]
  · rw [Function.update_of_ne hdc, Function.update_of_ne hdc]

/-- A chunk of `g` gets another number of entities, and no counter moves. -/
theorem drift_resized (hwf : Wf ctx st) (hc : st.type c = some g) (hres : Resized st st' c n)
    (hsize : st'.size = st.size) :
    st'.drift = st.drift + Pi.single g ((st.count c : ZMod (2 ^ 32)) - n) := by
  have htype : st'.type = Function.update st.type c (some g) := by
    rw [hres.type, ← hc, Function.update_eq_self]
  have hf' : ∀ d, st'.freshChunk ≤ d → st'.type d = none := by
    rw [hres.freshChunk, hres.type]
    exact hwf.fresh
  have hc' : st'.type c = some g := hres.type ▸ hc
  rw [drift_change hwf.fresh hf' (fun h _ => congrFun hsize h) fun h d hd =>
    held_congr htype hres.count (Or.inr rfl) (Or.inr hc) hd]
  rw [hsize, held_of_type hc', held_of_type hc, hres.count, Function.update_self]
  congr 2
  ring

/-- `remove_chunk` takes the chunk and its entities off. -/
theorem drift_removeChunk (hwf : Wf ctx st) (hc : st.type c = some g)
    (hs : st.removeChunk ents g c = some st') : st'.drift = st.drift := by
  obtain ⟨hwf', hrem⟩ := hwf.removeChunk hc hs
  have hsize := removeChunk_size hs
  have hlt : st.count c < 2 ^ 32 := by
    simp only [Store.removeChunk, Option.bind_eq_bind, Option.bind_eq_some_iff] at hs
    obtain ⟨a, ha, -⟩ := hs
    exact count_lt hwf hc ha
  have hcount : st'.count = Function.update st.count c (st.count c) := by
    rw [hrem.count, Function.update_eq_self]
  have hc' : st'.type c = none := by rw [hrem.type, Function.update_self]
  rw [drift_change hwf.fresh hwf'.fresh
    (fun h hg => by rw [hsize, Function.update_of_ne hg]) fun h d hd =>
      held_congr hrem.type hcount (Or.inl rfl) (Or.inr hc) hd]
  rw [hsize, Function.update_self, cast_sub32 hlt.le, held_of_none hc', held_of_type hc,
    Nat.cast_zero]
  ring_nf
  rw [Pi.single_zero, add_zero]

/-- `add_chunk` counts the entities the chunk brings. -/
theorem drift_addChunk (hwf : Wf ctx st) (ha : st.archetype g = some a) (hc : st.type c = none)
    (hfresh : c < st.freshChunk) (hcap : st.count c ≤ a.chunkCapacity (st.ct c))
    (hs : st.addChunk g c = some st') : st'.drift = st.drift := by
  obtain ⟨hwf', hret, -⟩ := hwf.addChunk ha hc hfresh hcap hs
  have hsize := addChunk_size hs
  have hcount : st'.count = Function.update st.count c (st.count c) := by
    rw [hret.count, Function.update_eq_self]
  have hc' : st'.type c = some g := by rw [hret.type, Function.update_self]
  rw [drift_change hwf.fresh hwf'.fresh
    (fun h hg => by rw [hsize, Function.update_of_ne hg]) fun h d hd =>
      held_congr hret.type hcount (Or.inr rfl) (Or.inl hc) hd]
  rw [hsize, Function.update_self, ZMod.natCast_mod, Nat.cast_add, held_of_type hc',
    held_of_none hc, hret.count, Nat.cast_zero]
  ring_nf
  rw [Pi.single_zero, add_zero]

/-- `malloc_chunk`. -/
theorem drift_mallocChunk (hwf : Wf ctx st) (t : AllocType) :
    (st.mallocChunk t).1.drift = st.drift := by
  have hnone : st.type st.freshChunk = none := hwf.fresh _ le_rfl
  have htype : (st.mallocChunk t).1.type = Function.update st.type st.freshChunk none := by
    rw [← hnone, Function.update_eq_self]
    rfl
  have hc' : (st.mallocChunk t).1.type st.freshChunk = none := hnone
  have hsize : (st.mallocChunk t).1.size = st.size := rfl
  rw [drift_change (g := 0) hwf.fresh (hwf.mallocChunk t).fresh (fun h _ => congrFun hsize h)
    fun h d hd => held_congr htype rfl (Or.inl rfl) (Or.inl hnone) hd]
  rw [hsize, held_of_none hc', held_of_none hnone, sub_self, sub_self, sub_self, Pi.single_zero,
    add_zero]

/-! ## Slots and archetypes -/

/-- `allocate_slice` counts what it hands out. -/
theorem drift_allocateSlice {s : ChunkSlice} (hwf : Wf ctx st) (ha : st.archetype g = some a)
    (hs : st.allocateSlice ents g n = some (st', s)) (hty : st'.type s.c ≠ none) :
    st'.drift = st.drift := by
  obtain ⟨hwf', hall⟩ := hwf.allocateSlice ha hs hty
  have hsize := allocateSlice_size hs hall.pos
  have hheld : st.held g s.c = s.start := by
    rcases hall.old with ⟨htype, hstart⟩ | ⟨htype, hstart, -⟩
    · rw [held_of_type htype, hstart]
    · rw [held_of_none htype, hstart]
  have hc' : st'.type s.c = some g := by rw [hall.type, Function.update_self]
  rw [drift_change hwf.fresh hwf'.fresh
    (fun h hg => by rw [hsize, Function.update_of_ne hg]) fun h d hd =>
      held_congr hall.type hall.count (Or.inr rfl)
        (hall.old.elim (fun hold => Or.inr hold.1) fun hold => Or.inl hold.1) hd]
  rw [hsize, Function.update_self, ZMod.natCast_mod, Nat.cast_add, held_of_type hc', hheld,
    hall.count, Function.update_self, Nat.cast_add]
  ring_nf
  rw [Pi.single_zero, add_zero]

/-- The counter of an archetype that `get_archetype` makes starts at zero. -/
theorem getArchetype_size {key : EntityType}
    (hs : Store.getArchetype ctx st ents key = some (st', g)) :
    st'.size = st.size ∧ st'.archetype = st.archetype ∨
      st'.size = Function.update st.size st.freshArchetype 0 ∧
        ∀ h, h ≠ st.freshArchetype → st'.archetype h = st.archetype h := by
  unfold Store.getArchetype at hs
  cases hf : st.findArchetype key with
  | some g' =>
      simp only [hf, Option.some.injEq, Prod.mk.injEq] at hs
      obtain ⟨rfl, -⟩ := hs
      exact Or.inl ⟨rfl, rfl⟩
  | none =>
      simp only [hf, Option.bind_eq_bind, Option.bind_eq_some_iff, Option.some.injEq,
        Prod.mk.injEq, addArchetype] at hs
      obtain ⟨b, -, st₂, ⟨st₁, hup, rfl⟩, rfl, -⟩ := hs
      have hsize : st₁.size = Function.update st.size st.freshArchetype 0 := updateQueries_size hup
      have harch := (updateQueries_shape hup).archetype
      exact Or.inr ⟨hsize, fun h hh => (congrFun harch h).trans (update_ne hh)⟩

/-- `get_archetype` makes an archetype without entities, or none. -/
theorem drift_getArchetype {key : EntityType} (hwf : Wf ctx st)
    (hs : Store.getArchetype ctx st ents key = some (st', g)) (h : ArchetypeId) :
    st'.drift h = st.drift h ∧ st'.archetype h = st.archetype h ∨ st'.drift h = 0 := by
  obtain ⟨-, hext, -⟩ := hwf.getArchetype hs
  have htotal : st'.total h = st.total h := total_congr hext.type hext.count hext.freshChunk
  rcases getArchetype_size hs with ⟨hsize, harch⟩ | ⟨hsize, harch⟩
  · exact Or.inl ⟨drift_congr (congrFun hsize h) hext.type hext.count hext.freshChunk,
      congrFun harch h⟩
  · by_cases hg : h = st.freshArchetype
    · right
      have hnone : st.total h = 0 := Finset.sum_eq_zero fun d _ => if_neg fun hd =>
        (hwf.known d h hd).ne hg
      rw [drift, htotal, hnone, hsize, hg, Function.update_self, sub_self]
    · left
      refine ⟨?_, harch h hg⟩
      rw [drift, drift, htotal, hsize, Function.update_of_ne hg]

end Store

end Dots

import Dots.Database.Drift
import Dots.Database.Reading
import Dots.Library.Refinement

/-!
# Entity counts over runs

`archetype::size` is the number of entities as long as no call takes entities off twice or adds
more than it brings. `cast_slice` takes a slice off twice and `free_slice` takes off a whole
chunk twice, which nobody sees only where the archetype goes with the chunk; a load adds the
size of the archetype at the time it was saved.
-/

namespace Dots

open Library

namespace Store

variable {ctx : Context} {st st' : Store} {ents : Entities} {g h : ArchetypeId} {a : Archetype}
  {c : ChunkId} {n count : Nat} {D D' : ArchetypeId → ZMod (2 ^ 32)}

/-! ## Counters that are ahead -/

/-- The counters of the living archetypes are ahead of their entities by `D`. -/
structure Ahead (ctx : Context) (D : ArchetypeId → ZMod (2 ^ 32)) (st : Store) : Prop
    extends Wf ctx st where
  nonempty : ∀ c g, st.type c = some g → 0 < st.count c
  narrow : ∀ g, st.size g < 2 ^ 32
  ahead : ∀ g a, st.archetype g = some a → st.drift g = D g

/-- A counter that is not ahead is the number of the entities. -/
theorem Ahead.size_eq (hst : Ahead ctx 0 st) (ha : st.archetype g = some a) :
    st.size g = st.total g % 2 ^ 32 :=
  (size_eq_iff (hst.narrow g)).mpr (hst.ahead g a ha)

theorem ahead_initial (ctx : Context) (timestamp : Nat) (raw : Nat → Nat) (data : ChunkId → Mem)
    (guids : Nat → List UInt8) : Ahead ctx 0 (World.initial timestamp raw data guids).store where
  toWf := wf_initial ctx timestamp raw data guids
  nonempty := by simp [World.initial]
  narrow _ := Nat.two_pow_pos 32
  ahead := by simp [World.initial]

/-- Only the living archetypes matter. -/
theorem Ahead.of_eq (hst : Ahead ctx D st) (hD : ∀ g a, st.archetype g = some a → D g = D' g) :
    Ahead ctx D' st :=
  { hst with ahead := fun g a ha => (hst.ahead g a ha).trans (hD g a ha) }

theorem narrow_update (hst : Ahead ctx D st) (hn : n < 2 ^ 32) (h : ArchetypeId) :
    Function.update st.size g n h < 2 ^ 32 := by
  rw [Function.update_apply]
  split_ifs
  · exact hn
  · exact hst.narrow h

theorem sub32_lt (x y : Nat) : sub32 x y < 2 ^ 32 := Nat.mod_lt _ (Nat.two_pow_pos 32)

/-- Counters alone change. -/
theorem Ahead.counters (hst : Ahead ctx D st) (hs : SameShape st st')
    (hnarrow : ∀ g, st'.size g < 2 ^ 32) (hdrift : st'.drift - st.drift = D' - D) :
    Ahead ctx D' st' where
  toWf := hst.toWf.congr hs
  nonempty := by
    rw [hs.type, hs.count]
    exact hst.nonempty
  narrow := hnarrow
  ahead g a ha := by
    have hg := congrFun hdrift g
    rw [Pi.sub_apply, Pi.sub_apply, hst.ahead g a (hs.archetype ▸ ha)] at hg
    exact sub_left_inj.mp hg

theorem Ahead.structuralChange (hst : Ahead ctx D st) (g : ArchetypeId) (a : Archetype)
    (c : ChunkId) : Ahead ctx D (st.structuralChange g a c) := by
  refine hst.counters (structuralChange_shape st g a c) ?_ ?_
  · rw [structuralChange_size]
    exact hst.narrow
  · rw [drift_structuralChange, sub_self, sub_self]

theorem Ahead.addSize (hst : Ahead ctx D st) (g : ArchetypeId) (n : Nat) :
    Ahead ctx (D + Pi.single g (n : ZMod (2 ^ 32))) (st.addSize g n) := by
  refine hst.counters (addSize_shape st g n) (narrow_update hst (Nat.mod_lt _ (by decide))) ?_
  rw [drift_addSize, add_sub_cancel_left, add_sub_cancel_left]

theorem Ahead.subSize (hst : Ahead ctx D st) (g : ArchetypeId) (hn : n ≤ 2 ^ 32) :
    Ahead ctx (D - Pi.single g (n : ZMod (2 ^ 32))) (st.subSize g n) := by
  refine hst.counters (subSize_shape st g n) (narrow_update hst (sub32_lt _ n)) ?_
  rw [drift_subSize st g hn, sub_sub_cancel_left, sub_sub_cancel_left]

/-! ## Operations -/

/-- `get_archetype`. -/
theorem Ahead.getArchetype {key : EntityType} (hst : Ahead ctx 0 st)
    (hs : Store.getArchetype ctx st ents key = some (st', g)) : Ahead ctx 0 st' := by
  obtain ⟨hwf, hext, -⟩ := hst.toWf.getArchetype hs
  refine ⟨hwf, ?_, fun h => ?_, fun h b hb => ?_⟩
  · rw [hext.type, hext.count]
    exact hst.nonempty
  · rcases getArchetype_size hs with ⟨hsize, -⟩ | ⟨hsize, -⟩
    · rw [hsize]
      exact hst.narrow h
    · rw [hsize]
      exact narrow_update hst (Nat.two_pow_pos 32) h
  · rcases drift_getArchetype hst.toWf hs h with ⟨hdrift, harch⟩ | hzero
    · rw [hdrift]
      exact hst.ahead h b (harch ▸ hb)
    · exact hzero

/-- `allocate_slice`. -/
theorem Ahead.allocateSlice {s : ChunkSlice} (hst : Ahead ctx D st)
    (ha : st.archetype g = some a) (hs : st.allocateSlice ents g n = some (st', s))
    (hty : st'.type s.c ≠ none) : Ahead ctx D st' := by
  obtain ⟨hwf, hall⟩ := hst.toWf.allocateSlice ha hs hty
  refine ⟨hwf, fun d h hd => ?_, fun h => ?_, fun h b hb => ?_⟩
  · rw [hall.count, Function.update_apply]
    split_ifs with hds
    · exact hall.pos
    · rw [hall.type, Function.update_of_ne hds] at hd
      exact hst.nonempty d h hd
  · rw [allocateSlice_size hs hall.pos]
    exact narrow_update hst (Nat.mod_lt _ (by decide)) h
  · rw [drift_allocateSlice hst.toWf ha hs hty]
    exact hst.ahead h b (hall.archetype ▸ hb)

/-- `remove_chunk`. -/
theorem Ahead.removeChunk (hst : Ahead ctx D st) (hc : st.type c = some g)
    (hs : st.removeChunk ents g c = some st') : Ahead ctx D st' ∧ Removed st st' g c := by
  obtain ⟨hwf, hrem⟩ := hst.toWf.removeChunk hc hs
  refine ⟨⟨hwf, fun d h hd => ?_, fun h => ?_, fun h b hb => ?_⟩, hrem⟩
  · rw [hrem.type, Function.update_apply] at hd
    split_ifs at hd
    rw [hrem.count]
    exact hst.nonempty d h hd
  · rw [removeChunk_size hs]
    exact narrow_update hst (sub32_lt _ _) h
  · rw [drift_removeChunk hst.toWf hc hs]
    exact hst.ahead h b (hrem.alive hb)

/-- `add_chunk` on a chunk that holds entities. -/
theorem Ahead.addChunk (hst : Ahead ctx D st) (ha : st.archetype g = some a)
    (hc : st.type c = none) (hfresh : c < st.freshChunk) (hpos : 0 < st.count c)
    (hcap : st.count c ≤ a.chunkCapacity (st.ct c)) (hs : st.addChunk g c = some st') :
    Ahead ctx D st' := by
  obtain ⟨hwf, hret, harch⟩ := hst.toWf.addChunk ha hc hfresh hcap hs
  refine ⟨hwf, fun d h hd => ?_, fun h => ?_, fun h b hb => ?_⟩
  · rw [hret.count]
    rw [hret.type, Function.update_apply] at hd
    split_ifs at hd with hdc
    · exact hdc ▸ hpos
    · exact hst.nonempty d h hd
  · rw [addChunk_size hs]
    exact narrow_update hst (Nat.mod_lt _ (by decide)) h
  · rw [drift_addChunk hst.toWf ha hc hfresh hcap hs]
    exact hst.ahead h b (harch ▸ hb)

/-- A chunk that gets another number of entities, without a counter; it may have been empty. -/
theorem ahead_resized (hwf : Wf ctx st) (hwf' : Wf ctx st')
    (hnonempty : ∀ d h, d ≠ c → st.type d = some h → 0 < st.count d)
    (hnarrow : ∀ g, st.size g < 2 ^ 32)
    (hahead : ∀ g a, st.archetype g = some a → st.drift g = D g) (hc : st.type c = some g)
    (hn : n ≠ 0) (hres : Resized st st' c n) (hsize : st'.size = st.size) :
    Ahead ctx (D + Pi.single g ((st.count c : ZMod (2 ^ 32)) - n)) st' where
  toWf := hwf'
  nonempty d h hd := by
    rw [hres.count, Function.update_apply]
    split_ifs with hdc
    · exact Nat.pos_of_ne_zero hn
    · exact hnonempty d h hdc (hres.type ▸ hd)
  narrow := by
    rw [hsize]
    exact hnarrow
  ahead h b hb := by
    rw [drift_resized hwf hc hres hsize, Pi.add_apply, Pi.add_apply,
      hahead h b (hres.archetype ▸ hb)]

/-- `resize_chunk` that leaves entities in the chunk. -/
theorem Ahead.resizeChunk (hst : Ahead ctx D st) (hc : st.type c = some g)
    (ha : st.archetype g = some a) (hn0 : n ≠ 0) (hn : n ≤ a.chunkCapacity (st.ct c))
    (hfull : n = a.chunkCapacity (st.ct c) → Linked (st.unmarkFree g c))
    (hs : st.resizeChunk ents c n = some st') :
    Ahead ctx (D + Pi.single g ((st.count c : ZMod (2 ^ 32)) - n)) st' := by
  obtain ⟨hwf, ⟨hzero, -⟩ | ⟨-, hres⟩⟩ :=
    hst.toWf.resizeChunk_linked hc ha hn (fun _ => hfull) hs
  · exact absurd hzero hn0
  · exact ahead_resized hst.toWf hwf (fun d h _ => hst.nonempty d h) hst.narrow hst.ahead hc hn0
      hres (resizeChunk_size hn0 hs)

/-! ## The last chunk of an archetype -/

/-- No other chunk is in the list of `g`. -/
def Sole (st : Store) (g : ArchetypeId) (c : ChunkId) : Prop :=
  ∀ d, st.firstChunk g = some d → d = c ∧ st.links.next c = none

theorem Sole.apart (hsole : Sole st g c) (hap : Apart h st st') (hg : g ≠ h)
    (hc : st.type c = some g) : Sole st' g c := by
  intro d hd
  rw [hap.firstChunk g hg] at hd
  rw [hap.next c g hg hc]
  exact hsole d hd

theorem Sole.congr (hsole : Sole st g c) (hs : SameShape st st') : Sole st' g c := by
  intro d hd
  rw [hs.firstChunk] at hd
  rw [hs.links]
  exact hsole d hd

/-- The archetype goes with its last chunk. -/
theorem Sole.archetype_removeChunk (hsole : Sole st g c)
    (hs : st.removeChunk ents g c = some st') : st'.archetype g = none := by
  simp only [Store.removeChunk, Option.bind_eq_bind, Option.bind_eq_some_iff] at hs
  obtain ⟨a, ha, hs⟩ := hs
  have hsole₁ := hsole.congr ((structuralChange_shape st g a c).trans
    (subSize_shape (st.structuralChange g a c) g (st.count c)))
  change (if (takeOut ((st.structuralChange g a c).subSize g (st.count c)) g c).firstChunk g = none
    then (takeOut ((st.structuralChange g a c).subSize g (st.count c)) g c).freeArchetype ents g a
    else some (takeOut ((st.structuralChange g a c).subSize g (st.count c)) g c)) = some st' at hs
  revert hs hsole₁
  generalize (st.structuralChange g a c).subSize g (st.count c) = st₁
  intro hsole₁ hs
  have hnone : (takeOut st₁ g c).firstChunk g = none := by
    change Function.update st₁.firstChunk g
      (if st₁.firstChunk g = some c then st₁.links.next c else st₁.firstChunk g) g = none
    rw [Function.update_self]
    split_ifs with hfirst
    · exact (hsole₁ c hfirst).2
    · by_contra hne
      obtain ⟨d, hd⟩ := Option.ne_none_iff_exists'.mp hne
      exact hfirst ((hsole₁ d hd).1 ▸ hd)
  rw [if_pos hnone] at hs
  obtain ⟨st₂, -, rfl⟩ := freeArchetype_spec hs
  exact Function.update_self ..

/-! ## Slots for a load -/

/-- A chunk of `g` that fills up is the first with room, or goes before the head of the list. -/
def Fillable (st : Store) (g : ArchetypeId) (c : ChunkId) : Prop :=
  st.firstFree g = some c ∨ Headed st g

theorem Fillable.unmarkFree (hf : Fillable st g c) (hl : Linked st) (ha : st.archetype g = some a)
    (hc : st.type c = some g) : Linked (st.unmarkFree g c) := by
  by_cases hfirst : st.firstFree g = some c
  · exact hl.unmarkFree hc hfirst
  · exact hl.unmarkFront ha hc hfirst (hf.resolve_left hfirst)

/-- The new chunk holds a slice that no chunk has room for, and a chunk that the slice fills up
can be filled up. -/
def LoadRoom (st : Store) (g : ArchetypeId) (a : Archetype) (count : Nat) : Prop :=
  ∀ found, st.findRoom a count (st.freshChunk + 1) (st.firstFree g) = some found →
    match found with
    | some c => (st.count c + count) % 2 ^ 32 = a.chunkCapacity (st.ct c) → st.Fillable g c
    | none => count ≤ a.chunkCapacity (loadChunkBin (st.chunkCount g)
        (count * a.entitySize % 2 ^ 32)) ∧ (st.firstFree g = none ∨ Headed st g)

/-- The scan stays in the list of the archetype and ends at a chunk with room. -/
theorem findRoom_spec (hl : Linked st) {p : Option ChunkId} {fuel : Nat}
    (hp : ∀ d, p = some d → st.type d = some g)
    (hs : st.findRoom a count fuel p = some (some c)) :
    st.type c = some g ∧ (st.count c + count) % 2 ^ 32 ≤ a.chunkCapacity (st.ct c) := by
  induction fuel generalizing p with
  | zero => simp [findRoom] at hs
  | succ fuel ih =>
      cases p with
      | none => simp [findRoom] at hs
      | some d =>
          rw [findRoom] at hs
          split_ifs at hs with hroom
          · exact ih (fun e he => hl.type_next (hp d rfl) he) hs
          · obtain rfl := Option.some.inj (Option.some.inj hs)
            exact ⟨hp d rfl, Nat.le_of_not_lt hroom⟩

/-- A chunk that is linked behind another one does not come before the head. -/
theorem prev_link_head (hl : st.links.Consistent) (hhead : Headed st g) {x d : ChunkId}
    (hxc : x ≠ c) (hd : st.firstChunk g = some d) (hdc : d ≠ c) :
    (st.links.link x c).prev d = none := by
  have hprev := hhead d hd
  rw [Links.link_prev st.links hxc, if_neg, if_neg hdc]
  · exact hprev
  · intro hnext
    rw [(hl x d).mp hnext] at hprev
    simp at hprev

/-- The list of `g` still starts at its first chunk when a chunk comes to it. -/
theorem Headed.splice (hhead : Headed st g) (hl : st.links.Consistent)
    (hdet : st.links.Detached c) (hfirst : st.firstChunk g ≠ some c)
    (hlast : st.lastChunk g ≠ some c) (hs : st.splice g a c = some st') : Headed st' g := by
  intro d hd
  unfold Store.splice at hs
  cases hf : st.firstChunk g with
  | none =>
      simp only [hf] at hs
      obtain rfl := Option.some.inj hs
      change Function.update st.firstChunk g (some c) g = some d at hd
      rw [Function.update_self] at hd
      exact Option.some.inj hd ▸ hdet.2
  | some head =>
      simp only [hf] at hs
      have hheadc : head ≠ c := fun heq => hfirst (heq ▸ hf)
      by_cases hlt : st.count c < a.chunkCapacity (st.ct c)
      · rw [if_pos hlt] at hs
        cases hx : st.lastChunk g with
        | none => simp [hx] at hs
        | some x =>
            simp only [hx] at hs
            obtain rfl := Option.some.inj hs
            obtain rfl : head = d := Option.some.inj (hf.symm.trans hd)
            exact prev_link_head hl hhead (fun heq => hlast (heq ▸ hx)) hf hheadc
      · rw [if_neg hlt] at hs
        obtain rfl := Option.some.inj hs
        obtain rfl : head = d := Option.some.inj (hf.symm.trans hd)
        exact prev_link_head hl hhead hheadc hf hheadc

theorem Headed.addChunk (hhead : Headed st g) (hl : Linked st) (ha : st.archetype g = some a)
    (hc : st.type c = none) (hs : st.addChunk g c = some st') : Headed st' g := by
  simp only [Store.addChunk, ha, Option.bind_eq_bind, Option.bind_some] at hs
  have hshape := (structuralChange_shape st g a c).trans
    (addSize_shape (st.structuralChange g a c) g (st.count c))
  revert hs hshape
  generalize (st.structuralChange g a c).addSize g (st.count c) = st₁
  intro hs hshape
  have hl₁ := hl.congr hshape
  have hc₁ : st₁.type c = none := by rw [hshape.type]; exact hc
  have ha₁ : st₁.archetype g = some a := by rw [hshape.archetype]; exact ha
  have hfirst : st₁.firstChunk g ≠ some c := fun heq => by
    simpa [hc₁] using hl₁.first g a c ha₁ heq
  have hlast : st₁.lastChunk g ≠ some c := fun heq => by
    simpa [hc₁] using hl₁.last g a c ha₁ heq
  have hhead₁ : Headed st₁ g := hhead.congr hshape
  have hhead₂ : Headed { st₁ with
      type := Function.update st₁.type c (some g)
      chunkCount := Function.update st₁.chunkCount g ((st₁.chunkCount g + 1) % 2 ^ 16) } g := hhead₁
  exact hhead₂.splice hl₁.consistent (hl₁.detached hc₁) hfirst hlast hs

/-- A new chunk is filled with a slice that no counter is told of. -/
theorem Ahead.loadChunk {t : AllocType} {st₁ : Store} (hst : Ahead ctx D st)
    (ha : st.archetype g = some a) (hcount : 0 < count) (hcap : count ≤ a.chunkCapacity t)
    (hfill : st.firstFree g = none ∨ Headed st g)
    (hadd : (st.mallocChunk t).1.addChunk g st.freshChunk = some st₁)
    (hres : st₁.resizeChunk ents st.freshChunk
      ((st₁.count st.freshChunk + count) % 2 ^ 32) = some st') :
    Ahead ctx (D - Pi.single g (count : ZMod (2 ^ 32))) st' := by
  have hnone : (st.mallocChunk t).1.type st.freshChunk = none := hst.fresh _ le_rfl
  have hzero : (st.mallocChunk t).1.count st.freshChunk = 0 := Function.update_self ..
  have hct : (st.mallocChunk t).1.ct st.freshChunk = t := Function.update_self ..
  have ha₀ : (st.mallocChunk t).1.archetype g = some a := ha
  have hfresh : st.freshChunk < (st.mallocChunk t).1.freshChunk := Nat.lt_succ_self _
  have hwf₀ := hst.toWf.mallocChunk t
  obtain ⟨hwf₁, hret, harch⟩ := hwf₀.addChunk ha₀ hnone hfresh (hzero ▸ Nat.zero_le _) hadd
  have hc₁ : st₁.type st.freshChunk = some g := by rw [hret.type, Function.update_self]
  have ha₁ : st₁.archetype g = some a := harch ▸ ha₀
  have hlt := hwf₁.capacity_lt ha₁ t
  have hcount₁ : st₁.count st.freshChunk = 0 := by rw [hret.count, hzero]
  rw [hcount₁, Nat.zero_add, Nat.mod_eq_of_lt (by omega)] at hres
  have hn0 : count ≠ 0 := Nat.pos_iff_ne_zero.mp hcount
  have hct₁ : st₁.ct st.freshChunk = t := by rw [hret.ct, hct]
  have hfillable : Fillable st₁ g st.freshChunk := by
    refine hfill.imp (fun hfree => ?_) fun hhead => ?_
    · exact addChunk_firstFree ha₀ hfree (by rw [hzero, hct]; omega) hadd
    · have hhead₀ : Headed (st.mallocChunk t).1 g := fun d hd =>
        (mallocChunk_apart hst.toWf (g + 1) t).prev d g (Nat.succ_ne_self g).symm
          (hst.first g a d ha hd) ▸ hhead d hd
      exact hhead₀.addChunk hwf₀.toLinked ha₀ hnone hadd
  obtain ⟨hwf', ⟨hzero', -⟩ | ⟨-, hresized⟩⟩ := hwf₁.resizeChunk_linked hc₁ ha₁ (hct₁ ▸ hcap)
    (fun _ _ => hfillable.unmarkFree hwf₁.toLinked ha₁ hc₁) hres
  · exact absurd hzero' hn0
  · have hafter := ahead_resized hwf₁ hwf' (D := D) ?_ ?_ ?_ hc₁ hn0 hresized
      (resizeChunk_size hn0 hres)
    · rwa [hcount₁, Nat.cast_zero, zero_sub, Pi.single_neg, ← sub_eq_add_neg] at hafter
    · intro d h hd hdtype
      rw [hret.type, Function.update_of_ne hd] at hdtype
      rw [hret.count]
      change 0 < Function.update st.count st.freshChunk 0 d
      rw [update_ne hd]
      exact hst.nonempty d h hdtype
    · rw [addChunk_size hadd]
      intro h
      exact narrow_update hst (Nat.mod_lt _ (by decide)) h
    · intro h b hb
      rw [drift_addChunk hwf₀ ha₀ hnone hfresh (hzero ▸ Nat.zero_le _) hadd,
        drift_mallocChunk hst.toWf]
      exact hst.ahead h b (harch ▸ hb)

/-- The slots of a slice that is loaded are taken without a count. -/
theorem Ahead.loadSlots {s : ChunkSlice} (hst : Ahead ctx D st) (ha : st.archetype g = some a)
    (hroom : LoadRoom st g a count) (hcount : 0 < count)
    (hs : st.loadSlots ents g count = some (st', s)) (hty : st'.type s.c ≠ none) :
    Ahead ctx (D - Pi.single g (count : ZMod (2 ^ 32))) st' := by
  simp only [Store.loadSlots, ha, Option.bind_eq_bind, Option.bind_some,
    Option.bind_eq_some_iff] at hs
  obtain ⟨found, hfound, hs⟩ := hs
  have hfits := hroom found hfound
  cases found with
  | some c =>
      simp only [Option.bind_eq_some_iff] at hs
      obtain ⟨st₂, hres, heq⟩ := hs
      obtain ⟨rfl, rfl⟩ := Prod.mk.inj (Option.some.inj heq)
      obtain ⟨hc, hle⟩ := findRoom_spec hst.toLinked (fun d hd => hst.free g a d ha hd) hfound
      have hn0 : (st.count c + count) % 2 ^ 32 ≠ 0 := by
        intro hzero
        simp only [Store.resizeChunk, hc, ha, Option.bind_eq_bind, Option.bind_some,
          if_pos hzero] at hres
        exact hty (by rw [(hst.toWf.removeChunk hc hres).2.type, Function.update_self])
      have hafter := hst.resizeChunk hc ha hn0 hle
        (fun hcap => (hfits hcap).unmarkFree hst.toLinked ha hc) hres
      rw [ZMod.natCast_mod, Nat.cast_add, sub_add_cancel_left, Pi.single_neg, ← sub_eq_add_neg]
        at hafter
      exact hafter
  | none =>
      simp only [Option.bind_eq_some_iff, Option.map_eq_some_iff] at hs
      obtain ⟨⟨st₁, c⟩, ⟨st₂, hadd, heq₁⟩, st₃, hres, heq⟩ := hs
      obtain ⟨rfl, rfl⟩ := Prod.mk.inj heq₁
      obtain ⟨rfl, rfl⟩ := Prod.mk.inj (Option.some.inj heq)
      exact hst.loadChunk ha hcount hfits.1 hfits.2 hadd hres

theorem findRoom_addSize {fuel : Nat} {p : Option ChunkId} :
    (st.addSize g n).findRoom a count fuel p = st.findRoom a count fuel p := by
  induction fuel generalizing p with
  | zero => rfl
  | succ fuel ih =>
      cases p with
      | none => rfl
      | some c =>
          rw [findRoom, findRoom, ih]
          rfl

theorem LoadRoom.addSize (hroom : LoadRoom st h a count) : LoadRoom (st.addSize g n) h a count := by
  intro found hfound
  rw [findRoom_addSize] at hfound
  exact hroom found hfound

/-- A chunk that is the last of its archetype still is when another archetype is made. -/
theorem Sole.getArchetype {key : EntityType} (hsole : Sole st h c) (hwf : Wf ctx st)
    (hc : st.type c = some h) (hs : Store.getArchetype ctx st ents key = some (st', g)) :
    Sole st' h c := by
  unfold Store.getArchetype at hs
  cases hf : st.findArchetype key with
  | some g' =>
      simp only [hf, Option.some.injEq, Prod.mk.injEq] at hs
      exact hs.1 ▸ hsole
  | none =>
      simp only [hf, Option.bind_eq_bind, Option.bind_eq_some_iff, Option.some.injEq,
        Prod.mk.injEq, addArchetype] at hs
      obtain ⟨b, -, st₂, ⟨st₁, hup, rfl⟩, rfl, -⟩ := hs
      have hshape := updateQueries_shape hup
      intro d hd
      change st₁.firstChunk h = some d at hd
      change d = c ∧ st₁.links.next c = none
      rw [hshape.firstChunk] at hd
      rw [hshape.links]
      exact hsole d ((update_ne (hwf.known c h hc).ne).symm.trans hd)

theorem getArchetype_of_find {key : EntityType} (hfind : st.findArchetype key = some h)
    (hs : Store.getArchetype ctx st ents key = some (st', g)) : h = g := by
  simp only [Store.getArchetype, hfind, Option.some.injEq, Prod.mk.injEq] at hs
  exact hs.2

end Store

namespace World

variable {ctx : Context} {w w' : World} {p : Option Memory.Patcher} {g srcG : ArchetypeId}
  {a : Archetype} {s src : ChunkSlice} {ss : List ChunkSlice} {fuel : Nat}
  {D D' : ArchetypeId → ZMod (2 ^ 32)}

/-! ## Freeing and moving -/

/-- An archetype whose chunk is freed as a whole goes with it. -/
def FreeCounts (w : World) (s : ChunkSlice) : Prop :=
  s.count = w.store.count s.c → ∀ g, w.store.type s.c = some g → w.store.Sole g s.c

/-- The entities that move away are the last of their archetype. -/
def MoveCounts (w : World) (s : ChunkSlice) : Prop :=
  s.count = w.store.count s.c ∧ ∀ g, w.store.type s.c = some g → w.store.Sole g s.c

/-- `free_slice` counts the slice off and resizes the chunk. -/
theorem counted_freeSlice (hw : w.store.Ahead ctx D) (hle : s.count ≤ w.store.count s.c)
    (hs : w.freeSlice s = some w') :
    ∃ g a st₁ ents, st₁.type s.c = some g ∧ st₁.archetype g = some a ∧
      Store.SameShape w.store st₁ ∧
      st₁.Ahead ctx (D - Pi.single g (s.count : ZMod (2 ^ 32))) ∧
      st₁.resizeChunk ents s.c (st₁.count s.c - s.count) = some w'.store := by
  obtain ⟨g, a, st₁, w₂, st, hc, ha, hst₁, -, hres, rfl⟩ := freeSlice_spec hs
  have hwide := Store.count_lt hw.toWf hc ha
  have hchanged := (hw.structuralChange g a s.c).subSize g (hle.trans hwide.le)
  have hshape := (Store.structuralChange_shape w.store g a s.c).trans
    (Store.subSize_shape _ g s.count)
  rw [← hst₁] at hchanged hshape
  rw [← hshape.count] at hle hwide
  rw [sub32_of_le hle hwide] at hres
  exact ⟨g, a, st₁, w₂.ents, hshape.type ▸ hc, hshape.archetype ▸ ha, hshape, hchanged, hres⟩

/-- `free_slice` on a part of a chunk. -/
theorem ahead_freeSlice_part (hw : w.store.Ahead ctx D) (hpos : 0 < s.count)
    (hlt : s.count < w.store.count s.c) (hs : w.freeSlice s = some w') : w'.store.Ahead ctx D := by
  obtain ⟨g, a, st₁, ents, hc, ha, hshape, hst₁, hres⟩ := counted_freeSlice hw hlt.le hs
  have hcap := hst₁.count_le s.c g a hc ha
  rw [← hshape.count] at hlt
  have hafter := hst₁.resizeChunk hc ha (by omega) (by omega) (fun hfull => by omega) hres
  rwa [Nat.cast_sub hlt.le, sub_sub_cancel, sub_add_cancel] at hafter

/-- `free_slice` on the last chunk of an archetype. -/
theorem ahead_freeSlice_sole (hw : w.store.Ahead ctx D) (hc : w.store.type s.c = some g)
    (hall : s.count = w.store.count s.c) (hsole : w.store.Sole g s.c)
    (hD : ∀ h, h ≠ g → D h = D' h) (hs : w.freeSlice s = some w') : w'.store.Ahead ctx D' := by
  obtain ⟨g', a, st₁, ents, hc', ha, hshape, hst₁, hres⟩ := counted_freeSlice hw hall.le hs
  obtain rfl : g' = g := Option.some.inj (hc'.symm.trans (hshape.type ▸ hc))
  rw [hshape.count, hall, Nat.sub_self] at hres
  simp only [Store.resizeChunk, hc', ha, Option.bind_eq_bind, Option.bind_some, if_true] at hres
  have hgone := (hsole.congr hshape).archetype_removeChunk hres
  refine (hst₁.removeChunk hc' hres).1.of_eq fun h b hb => ?_
  have hg : h ≠ g' := by
    rintro rfl
    exact Option.some_ne_none b (hb.symm.trans hgone)
  rw [Pi.sub_apply, Pi.single_eq_of_ne hg, sub_zero]
  exact hD h hg

/-- `free_entities` and `free_slice`. -/
theorem ahead_release (hw : w.store.Ahead ctx 0) (hpos : 0 < s.count)
    (hle : s.count ≤ w.store.count s.c) (hfree : w.FreeCounts s) (hs : w.release s = some w') :
    w'.store.Ahead ctx 0 := by
  obtain ⟨w₁, hf, hs⟩ := Option.bind_eq_some_iff.mp hs
  have hstore := (freeEntities_store hf).1
  rw [← hstore] at hw hle
  by_cases hall : s.count = w₁.store.count s.c
  · obtain ⟨g, a, -, -, -, hc, -⟩ := freeSlice_spec hs
    rw [hstore] at hall hc
    have hsole := hfree hall g hc
    rw [← hstore] at hall hc hsole
    exact ahead_freeSlice_sole hw hc hall hsole (fun _ _ => rfl) hs
  · exact ahead_freeSlice_part hw hpos (lt_of_le_of_ne hle hall) hs

/-- Between two turns of the loop of `cast_slice`: the slice is counted off and still there. -/
structure Leaving (ctx : Context) (src : ChunkSlice) (srcG : ArchetypeId) (w : World) : Prop where
  ahead : w.store.Ahead ctx (-Pi.single srcG (src.count : ZMod (2 ^ 32)))
  source : w.store.type src.c = some srcG
  count : src.count = w.store.count src.c
  sole : w.store.Sole srcG src.c

theorem Leaving.castLoop (h : Leaving ctx src srcG w) (hg : srcG ≠ g)
    (hs : World.castLoop ctx src g fuel 0 w = some (w', ss)) : Leaving ctx src srcG w' := by
  suffices hinv : ∃ k, src.count ≤ k ∧ Leaving ctx src srcG w' from hinv.choose_spec.2
  refine castLoop_invariant (I := fun _ => Leaving ctx src srcG) ?_ h hs
  rintro v v₁ k t dst side mm ⟨hv, hc, hcount, hsole⟩ - halloc hdst - -
  obtain ⟨st, hst, rfl⟩ := allocateSlice_eq_some.mp halloc
  obtain ⟨a, ha⟩ := archetype_of_allocateSlice hst
  obtain ⟨g', a', htype, -⟩ := side_eq_some.mp hdst
  have hty : st.type t.c ≠ none := by
    rw [htype]
    exact Option.some_ne_none g'
  have hap := hv.toWf.allocateSlice_apart ha hst hty
  exact ⟨hv.allocateSlice ha hst hty, (hap.type src.c srcG hg).mpr hc,
    hcount.trans (hap.count src.c srcG hg hc).symm, hsole.apart hap hg hc⟩

/-- `cast_slice` of the last entities of an archetype. -/
theorem ahead_castSlice (hw : w.store.Ahead ctx 0) (hc : w.store.type s.c = some srcG)
    (hg : srcG ≠ g) (hmove : w.MoveCounts s)
    (hs : w.castSlice ctx fuel s g = some (w', ss)) : w'.store.Ahead ctx 0 := by
  obtain ⟨hall, hsole⟩ := hmove
  obtain ⟨srcG', a, w₁, hc', ha, hloop, hfree⟩ := castSlice_spec hs
  obtain rfl : srcG' = srcG := Option.some.inj (hc'.symm.trans hc)
  have hwide := Store.count_lt hw.toWf hc ha
  have hcounted := (hw.structuralChange srcG' a s.c).subSize srcG' (hall.trans_lt hwide).le
  have hshape := (Store.structuralChange_shape w.store srcG' a s.c).trans
    (Store.subSize_shape _ srcG' s.count)
  rw [zero_sub] at hcounted
  have hstart : Leaving ctx s srcG' { w with
      store := (w.store.structuralChange srcG' a s.c).subSize srcG' s.count } :=
    ⟨hcounted, hshape.type ▸ hc, hshape.count ▸ hall, (hsole srcG' hc).congr hshape⟩
  obtain ⟨hahead, hc₁, hall₁, hsole₁⟩ := hstart.castLoop hg hloop
  refine ahead_freeSlice_sole hahead hc₁ hall₁ hsole₁ (fun h hh => ?_) hfree
  rw [Pi.neg_apply, Pi.single_eq_of_ne hh, neg_zero]
  rfl

/-- `cast(chunk_slice, archetype*)`. -/
theorem ahead_castTo (hctx : ctx.Paired) (hw : w.store.Ahead ctx 0)
    (hc : w.store.type s.c = some srcG)
    (hmove : srcG = g ∨ (∀ a b, w.store.archetype srcG = some a → w.store.archetype g = some b →
      w.full s = true ∧ staticCastable ctx a.type b.type = true) ∨ w.MoveCounts s)
    (hs : w.castTo ctx fuel s (some g) = some (w', ss)) : w'.store.Ahead ctx 0 := by
  obtain ⟨srcG', srcA, a, hc', hsrcA, ha, hcase⟩ := castTo_cases hs
  obtain rfl : srcG' = srcG := Option.some.inj (hc'.symm.trans hc)
  rcases hcase with ⟨-, rfl⟩ | ⟨hg, hfast⟩ | ⟨hg, hslow, hcast⟩
  · exact hw
  · -- what `remove_chunk` takes off, `add_chunk` adds
    obtain ⟨st₁, st₂, hrem, hadd, rfl⟩ := hfast.store
    obtain ⟨hst₁, hremoved⟩ := hw.removeChunk hc hrem
    have hcap := capacity_of_staticCastable hctx (hw.built srcG' srcA hsrcA).2 (hw.built g a ha).2
      hfast.castable
    have hfresh : s.c < w.store.freshChunk := by
      by_contra hge
      simp [hw.fresh s.c (Nat.le_of_not_lt hge)] at hc
    refine hst₁.addChunk (a := a) (hremoved.archetype g (Ne.symm hg) ▸ ha) ?_ ?_ ?_ ?_ hadd
    · rw [hremoved.type, Function.update_self]
    · exact hremoved.freshChunk ▸ hfresh
    · rw [hremoved.count]
      exact hw.nonempty s.c srcG' hc
    · rw [hremoved.count, hremoved.ct, ← hcap]
      exact hw.count_le s.c srcG' srcA hc hsrcA
  · rcases hmove with rfl | hfast | hmove
    · exact absurd rfl hg
    · exact absurd (hfast srcA a hsrcA ha) hslow
    · exact ahead_castSlice hw hc hg hmove hcast

/-- A cast to the type `key` moves no entities, moves a chunk, or moves the last entities. -/
def CastCounts (ctx : Context) (w : World) (s : ChunkSlice) (key : EntityType) : Prop :=
  w.store.findArchetype key = w.store.type s.c ∨
    (∀ g a, w.archetypeOf s.c = some (g, a) →
      w.full s = true ∧ staticCastable ctx a.type key = true) ∨
    w.MoveCounts s

theorem MoveCounts.getArchetype {st : Store} {key : EntityType} (hmove : w.MoveCounts s)
    (hw : w.store.Wf ctx) (hget : Store.getArchetype ctx w.store w.ents key = some (st, g)) :
    MoveCounts { w with store := st } s := by
  obtain ⟨-, hext, -⟩ := hw.getArchetype hget
  refine ⟨hmove.1.trans (congrFun hext.count s.c).symm, fun h hc => ?_⟩
  have hc' : w.store.type s.c = some h := (congrFun hext.type s.c).symm.trans hc
  exact (hmove.2 h hc').getArchetype hw hc' hget

/-- A cast to the archetype of a type. -/
theorem ahead_cast {key : EntityType} {w₁ : World} (hctx : ctx.Paired) (hw : w.store.Ahead ctx 0)
    (hc : w.store.type s.c = some srcG) (hmove : w.CastCounts ctx s key)
    (hgot : w.getArchetype ctx key = some (w₁, g))
    (hs : w₁.castTo ctx fuel s (some g) = some (w', ss)) : w'.store.Ahead ctx 0 := by
  obtain ⟨st, hget, rfl⟩ := getArchetype_eq_some hgot
  obtain ⟨-, hext, b, hb, hkey⟩ := hw.toWf.getArchetype hget
  refine ahead_castTo hctx (hw.getArchetype hget) (hext.type ▸ hc) ?_ hs
  rcases hmove with hsame | hfast | hmove
  · exact Or.inl (Store.getArchetype_of_find (hsame.trans hc) hget)
  · refine Or.inr (Or.inl fun a b' ha hb' => ?_)
    obtain rfl : b = b' := Option.some.inj (hb.symm.trans hb')
    have ha' : w.store.archetype srcG = some a := by
      rcases Store.getArchetype_size hget with ⟨-, harch⟩ | ⟨-, harch⟩
      · exact harch ▸ ha
      · exact harch srcG (hw.known s.c srcG hc).ne ▸ ha
    obtain ⟨hfull, hcastable⟩ := hfast srcG a (archetypeOf_eq_some.mpr ⟨hc, ha'⟩)
    refine ⟨?_, hkey.symm ▸ hcastable⟩
    rwa [World.full, hext.count]
  · exact Or.inr (Or.inr (hmove.getArchetype hw.toWf hget))

/-! ## `destroy` -/

/-- The dead go to another archetype with the last of theirs, or they leave a chunk that holds
others or is the last one. -/
def SingleCounts (ctx : Context) (w : World) (s : ChunkSlice) : Prop :=
  ∀ g a, w.archetypeOf s.c = some (g, a) → a.cleaning = false →
    if leavesDead ctx a then w.MoveCounts s else w.FreeCounts s

theorem ahead_destroySingle (hctx : ctx.Built) (hw : w.store.Ahead ctx 0) (hpos : 0 < s.count)
    (hle : s.count ≤ w.store.count s.c) (hcounts : w.SingleCounts ctx s)
    (hs : w.destroySingle ctx fuel s = some w') : w'.store.Ahead ctx 0 := by
  obtain ⟨g, a, hc, ha, hcase⟩ := destroySingle_cases hs
  have hcounts := hcounts g a (archetypeOf_eq_some.mpr ⟨hc, ha⟩)
  rcases hcase with ⟨-, rfl⟩ | ⟨hclean, hdead, hrel⟩ | ⟨hclean, hdead, w₁, g', ss, hgot, hcast⟩
  · exact hw
  · have hfree := hcounts hclean
    rw [hdead, if_neg Bool.false_ne_true] at hfree
    exact ahead_release hw hpos hle hfree hrel
  · have hmove := hcounts hclean
    rw [if_pos hdead] at hmove
    obtain ⟨st, hget, rfl⟩ := getArchetype_eq_some hgot
    obtain ⟨hwf, hext, b, hb, hkey⟩ := hw.toWf.getArchetype hget
    refine ahead_castSlice (hw.getArchetype hget) (hext.type ▸ hc) ?_
      (hmove.getArchetype hw.toWf hget) hcast
    -- the archetype of the dead is another one
    rintro rfl
    obtain rfl : b = a := Option.some.inj (hb.symm.trans (hext.archetype _ a ha))
    have hbuilt := (hwf.built g b hb).2
    rw [hkey] at hbuilt
    simp [cleaning_of_key hctx hbuilt] at hclean

/-- A turn of the loop over the members of a group, which destroys the entity of entry `i`. -/
def memberTurn (rec : World → ChunkSlice → Option World) (i : Nat) (w : World) (_ : Nat) :
    Option World :=
  (w.entrySlice i).bind (rec w)

/-- The members of the group in element `i` of a slice. -/
def members (w : World) (a : Archetype) (c : ChunkId) (id i : Nat) : List Nat :=
  List.range (w.groupSize c (a.address (w.store.ct c) id 0 + i * a.size i) - 1)

/-- A turn of the loop over the elements of a slice. -/
def elementTurn (rec : World → ChunkSlice → Option World) (g : ArchetypeId) (c : ChunkId)
    (id : Nat) (w : World) (i : Nat) : Option World := do
  let a ← w.store.archetype g
  if i < a.firstTag then (w.members a c id i).foldlM (memberTurn rec i) w else none

theorem destroyGroups_eq_foldlM (rec : World → ChunkSlice → Option World) (g : ArchetypeId)
    (c : ChunkId) (id count : Nat) (w : World) :
    destroyGroups rec g c id count w = (List.range count).foldlM (elementTurn rec g c id) w := rfl

/-- Each `destroy_single` that a `destroy` comes to keeps the count. -/
def DestroyCounts (ctx : Context) : Nat → World → ChunkSlice → Prop
  | 0, _, _ => True
  | fuel + 1, w, s => ∀ g a, w.archetypeOf s.c = some (g, a) →
      let id := a.index ctx.groupId
      if id = invalidIndex then w.SingleCounts ctx s
      else
        Along (elementTurn (destroy ctx fuel) g s.c id) (fun v i =>
          ∀ b, v.store.archetype g = some b → Along (memberTurn (destroy ctx fuel) i) (fun u _ =>
            ∀ m, u.entrySlice i = some m → DestroyCounts ctx fuel u m) (v.members b s.c id i) v)
          (List.range s.count) w ∧
        ∀ w₁, destroyGroups (destroy ctx fuel) g s.c id s.count w = some w₁ →
          s.count ≤ w₁.store.count s.c ∧ w₁.SingleCounts ctx s

/-- `destroy`, of one entity or of a slice. -/
theorem ahead_destroy (hctx : ctx.Built) (hw : w.store.Ahead ctx 0) (hpos : 0 < s.count)
    (hle : s.count = 1 ∨ s.count ≤ w.store.count s.c) (hcounts : DestroyCounts ctx fuel w s)
    (hs : destroy ctx fuel w s = some w') : w'.store.Ahead ctx 0 := by
  induction fuel generalizing w w' s with
  | zero => simp [World.destroy] at hs
  | succ fuel ih =>
      obtain ⟨g, a, w₁, hc, ha, hgroups, hsingle⟩ := destroy_cases hs
      have hlen : s.count ≤ w.store.count s.c := by
        have := hw.nonempty s.c g hc
        omega
      have hcounts := hcounts g a (archetypeOf_eq_some.mpr ⟨hc, ha⟩)
      rcases hgroups with ⟨hid, rfl⟩ | ⟨hid, hgroups⟩
      · simp only [if_pos hid] at hcounts
        exact ahead_destroySingle hctx hw hpos hlen hcounts hsingle
      · simp only [if_neg hid] at hcounts
        obtain ⟨hmembers, hself⟩ := hcounts
        obtain ⟨hlen₁, hself⟩ := hself w₁ hgroups
        refine ahead_destroySingle hctx ?_ hpos hlen₁ hself hsingle
        rw [destroyGroups_eq_foldlM] at hgroups
        refine hmembers.invariant (I := fun v => v.store.Ahead ctx 0) ?_ hgroups hw
        rintro v i v' - hinner hturn hv
        obtain ⟨b, hb, hturn⟩ := Option.bind_eq_some_iff.mp hturn
        split_ifs at hturn
        refine (hinner b hb).invariant (I := fun u => u.store.Ahead ctx 0) ?_ hturn hv
        rintro u _ u' - hmember hrun hu
        obtain ⟨m, hentry, hrun⟩ := Option.bind_eq_some_iff.mp hrun
        have hone := entrySlice_count hentry
        exact ih hu (hone ▸ Nat.one_pos) (Or.inl hone) (hmember m hentry) hrun

/-! ## Loads -/

/-- The size in front of an archetype is the size of the slice behind it, which has room. -/
def ReadCounts (ctx : Context) (p : Option Memory.Patcher) (w : World) (bs : List UInt8) : Prop :=
  ∀ size bs₁ key bs₂ count bs₃ w₁ g a, Mem.takeWord 4 bs = some (size, bs₁) →
    readKey ctx bs₁ = some (key, bs₂) → Mem.takeWord 4 bs₂ = some (count, bs₃) →
    w.getArchetype ctx (w.loadedType p false key) = some (w₁, g) →
    w₁.store.archetype g = some a → size = count ∧ w₁.store.LoadRoom g a count

theorem ahead_deserializeSingle {bs rest : List UInt8} (hw : w.store.Ahead ctx 0)
    (hcounts : w.ReadCounts ctx p bs)
    (hs : w.deserializeSingle ctx p bs = some (w', s, rest)) : w'.store.Ahead ctx 0 := by
  obtain ⟨w₁, g, bs₁, w₂, w₃, harch, hslice, hnew, hpatch⟩ := deserializeSingle_spec hs
  obtain ⟨size, bs₂, key, w₀, hsize, -, hkey, hgot, rfl⟩ := deserializeArchetype_spec harch
  obtain ⟨count, bs₃, st, a, mm, hcount, hpos, hslots, hty, -, -, rfl⟩ :=
    deserializeSlice_spec hslice
  obtain ⟨st₀, hget, rfl⟩ := getArchetype_eq_some hgot
  obtain ⟨-, -, b, hb, -⟩ := hw.toWf.getArchetype hget
  obtain ⟨rfl, hroom⟩ := hcounts size bs₂ key bs₁ count bs₃ _ g b hsize hkey hcount hgot hb
  have hcounted := (hw.getArchetype hget).addSize g size
  have hloaded := hcounted.loadSlots hb hroom.addSize hpos hslots hty
  rw [zero_add, sub_self] at hloaded
  rw [patchSlice_store hpatch, (newEntities_store hnew).1]
  exact hloaded

/-- Every archetype that a load reads comes with its own number of entities. -/
def LoadCounts (ctx : Context) (p : Option Memory.Patcher) (w : World) (bs : List UInt8) : Prop :=
  ∀ fuel w' e rest, w.deserializeEntity ctx fuel p bs = some (w', e, rest) →
    ∀ w₁ bs₁, Reads ctx p w bs w₁ bs₁ → rest.length < bs₁.length → w₁.ReadCounts ctx p bs₁

theorem ahead_deserializeEntity {bs rest : List UInt8} {e : Entity} (hw : w.store.Ahead ctx 0)
    (hcounts : w.LoadCounts ctx p bs)
    (hs : w.deserializeEntity ctx fuel p bs = some (w', e, rest)) : w'.store.Ahead ctx 0 := by
  obtain ⟨w₁, hreads, hstore⟩ := reads_deserializeEntity hs
  rw [hstore]
  refine hreads.invariant (I := fun v => v.store.Ahead ctx 0) ?_ hw
  intro v bs₁ v' t bs₂ hread hlt hv hsingle
  exact ahead_deserializeSingle hv (hcounts fuel w' e rest hs v bs₁ hread hlt) hsingle

end World

/-! ## Runs -/

/-- A call of the interface, or what an application stores of a world and gets back. -/
inductive Exchange
  | call (op : Op)
  | save (src : Entity)
  | load (patcher : Option Memory.Patcher) (bs : List UInt8)

namespace Exchange

variable {ctx : Context} {w w' : World}

def run (ctx : Context) (fuel : Nat) (w : World) : Exchange → Option World
  | .call op => op.run ctx fuel w
  | .save src => (w.serializeEntity ctx fuel src).map Prod.fst
  | .load patcher bs => (w.deserializeEntity ctx fuel patcher bs).map Prod.fst

def Valid (w : World) : Exchange → Prop
  | .call op => op.Valid w
  | _ => True

/-- No entity is taken off twice, and a load adds as many as it brings. -/
def Counts (ctx : Context) (w : World) : Exchange → Prop
  | .call (.destroy s) => ∀ fuel, World.DestroyCounts ctx fuel w s
  | .call (.cast s diff) => ∀ g a, w.archetypeOf s.c = some (g, a) →
      if World.castFrees ctx a diff then w.FreeCounts s
      else w.CastCounts ctx s (World.castedType ctx a diff false)
  | .call (.castType s type) => w.CastCounts ctx s type
  | .load patcher bs => w.LoadCounts ctx patcher bs
  | _ => True

/-- What calls that satisfy `P` lead to from a new world. -/
def Reached (ctx : Context) (P : World → Exchange → Prop) (w : World) : Prop :=
  ∃ timestamp raw data guids, Relation.ReflTransGen
    (fun w w' => ∃ x fuel, Valid w x ∧ P w x ∧ run ctx fuel w x = some w')
    (World.initial timestamp raw data guids) w

theorem reached_blank (ctx : Context) (P : World → Exchange → Prop) :
    Reached ctx P World.blank :=
  ⟨_, _, _, _, Relation.ReflTransGen.refl⟩

theorem Reached.step {P : World → Exchange → Prop} (h : Reached ctx P w) (x : Exchange)
    {fuel : Nat} (hv : Valid w x) (hP : P w x) (hs : run ctx fuel w x = some w') :
    Reached ctx P w' := by
  obtain ⟨timestamp, raw, data, guids, hrun⟩ := h
  exact ⟨timestamp, raw, data, guids, hrun.tail ⟨x, fuel, hv, hP, hs⟩⟩

theorem ahead_call (hctx : ctx.Built) {op : Op} {fuel : Nat} (hw : w.store.Ahead ctx 0)
    (hv : op.Valid w) (hcounts : Counts ctx w (.call op)) (hs : op.run ctx fuel w = some w') :
    w'.store.Ahead ctx 0 := by
  have hgrows : World.Grows ctx (Store.Ahead ctx 0) := ⟨.getArchetype, .allocateSlice⟩
  cases op with
  | allocate type count =>
      obtain ⟨⟨_, ss⟩, hrun, rfl⟩ := Option.map_eq_some_iff.mp hs
      exact hgrows.allocate hw hrun
  | instantiate src count =>
      obtain ⟨⟨_, ss⟩, hrun, rfl⟩ := Option.map_eq_some_iff.mp hs
      exact hgrows.instantiate hw hrun
  | destroy s =>
      have hle := hv.le
      exact World.ahead_destroy hctx hw hv.pos (Or.inr (by omega)) (hcounts fuel) hs
  | cast s diff =>
      have hle := hv.le
      obtain ⟨⟨_, ss⟩, hrun, rfl⟩ := Option.map_eq_some_iff.mp hs
      simp only [World.cast, Option.bind_eq_bind, Option.bind_eq_some_iff] at hrun
      obtain ⟨⟨g, a⟩, harch, ⟨w₁, target⟩, hcasted, hrun⟩ := hrun
      have hcounts := hcounts g a harch
      rcases World.getCasted_cases hcasted with ⟨rfl, rfl, hfrees⟩ | ⟨g', rfl, hgot, hfrees⟩
      · rw [if_pos (hfrees rfl)] at hcounts
        exact World.ahead_release hw hv.pos (by omega) hcounts (World.castTo_none hrun)
      · rw [hfrees rfl, if_neg Bool.false_ne_true] at hcounts
        exact World.ahead_cast hctx.paired hw (World.archetypeOf_eq_some.mp harch).1 hcounts hgot
          hrun
  | castType s type =>
      obtain ⟨⟨_, ss⟩, hrun, rfl⟩ := Option.map_eq_some_iff.mp hs
      simp only [World.castType, Option.bind_eq_bind, Option.bind_eq_some_iff] at hrun
      obtain ⟨⟨w₁, g⟩, hgot, hrun⟩ := hrun
      obtain ⟨srcG, hc⟩ := Option.ne_none_iff_exists'.mp hv.typed
      exact World.ahead_cast hctx.paired hw hc hcounts hgot hrun
  | getArchetype type =>
      obtain ⟨⟨_, g⟩, hrun, rfl⟩ := Option.map_eq_some_iff.mp hs
      obtain ⟨st, hget, rfl⟩ := World.getArchetype_eq_some hrun
      exact hw.getArchetype hget
  | query f =>
      obtain ⟨⟨_, q⟩, hrun, rfl⟩ := Option.map_eq_some_iff.mp hs
      obtain ⟨queries, rfl⟩ := World.query_eq_some hrun
      exact hw.counters ⟨rfl, rfl, rfl, rfl, rfl, rfl, rfl, rfl, rfl, rfl, rfl⟩ hw.narrow
        ((sub_self w.store.drift).trans (sub_self 0).symm)
  | write memory => exact Option.some.inj hs ▸ hw

/-- Every call keeps the counters level. -/
theorem ahead_run (hctx : ctx.Built) {x : Exchange} {fuel : Nat} (hw : w.store.Ahead ctx 0)
    (hv : Valid w x) (hcounts : Counts ctx w x) (hs : run ctx fuel w x = some w') :
    w'.store.Ahead ctx 0 := by
  cases x with
  | call op => exact ahead_call hctx hw hv hcounts hs
  | save src =>
      obtain ⟨⟨_, bs⟩, hrun, rfl⟩ := Option.map_eq_some_iff.mp hs
      rw [World.serializeEntity_store hrun]
      exact hw
  | load patcher bs =>
      obtain ⟨⟨_, e, rest⟩, hrun, rfl⟩ := Option.map_eq_some_iff.mp hs
      exact World.ahead_deserializeEntity hw hcounts hrun

/-- In every world that such calls lead to, the size of an archetype is the number of the
entities in its chunks. -/
theorem size_eq_total (hctx : ctx.Built) (h : Reached ctx (Counts ctx) w) {g : ArchetypeId}
    {a : Archetype} (ha : w.store.archetype g = some a) :
    w.store.size g = w.store.total g % 2 ^ 32 := by
  obtain ⟨timestamp, raw, data, guids, hrun⟩ := h
  refine (invariant_of_run (P := fun w : World => w.store.Ahead ctx 0) ?_ hrun
    (Store.ahead_initial ctx timestamp raw data guids)).size_eq ha
  rintro v v' ⟨x, fuel, hv, hcounts, hs⟩ hahead
  exact ahead_run hctx hahead hv hcounts hs

/-! An entity of 4 bytes, saved while it is alone and loaded beside itself. -/

/-- A registry of a component and a tag. -/
def countedTypes : Context :=
  (((Context.initial false).registerType { guid := 10, size := 4 }).1.registerType
    { guid := 11 }).1

theorem built_countedTypes : countedTypes.Built := .register (.register (.initial false) _) _

/-- One entity, one type and its identifier, no metas, and a slice of one. -/
def savedOne : List UInt8 :=
  [1, 0, 0, 0, 1, 0, 0, 0, 0, 0, 0, 0, 0, 0, 0, 0, 0, 0, 0, 0, 0, 10, 0, 0,
    1, 0, 0, 0, 0, 0, 0, 0, 0, 0, 0, 0]

/-- Where the key of `savedOne` leads, and what is there. -/
def roomOfSaved (w : World) : Option (Option (Option ChunkId) × Bool) := do
  let (key, _) ← World.readKey countedTypes (savedOne.drop 4)
  let (w, g) ← w.getArchetype countedTypes (w.loadedType none false key)
  let a ← w.store.archetype g
  some (w.store.findRoom a 1 (w.store.freshChunk + 1) (w.store.firstFree g),
    decide ((w.store.count 0 + 1) % 2 ^ 32 = a.chunkCapacity (w.store.ct 0)))

theorem reads_savedOne
    (hsingle : (w.deserializeSingle countedTypes none savedOne).map (fun r => r.2.2) = some [])
    {bs : List UInt8} (h : World.Reads countedTypes none w savedOne w' bs) :
    w' = w ∧ bs = savedOne ∨ bs = [] := by
  induction h with
  | start => exact Or.inl ⟨rfl, rfl⟩
  | next h hs ih =>
      right
      rcases ih with ⟨rfl, rfl⟩ | rfl
      · rw [hs] at hsingle
        exact Option.some.inj hsingle
      · exact absurd (World.length_deserializeSingle hs) (Nat.not_lt_zero _)

theorem loadCounts_savedOne
    (hsingle : (w.deserializeSingle countedTypes none savedOne).map (fun r => r.2.2) = some [])
    (hroom : roomOfSaved w = some (some (some 0), false)) :
    w.LoadCounts countedTypes none savedOne := by
  rintro fuel w' e rest - w₁ bs₁ hreads hlt
  rcases reads_savedOne hsingle hreads with ⟨rfl, rfl⟩ | rfl
  · intro size bs₂ key bs₃ count bs₄ w₂ g a hsize hkey hcount hget ha
    have htake : Mem.takeWord 4 savedOne = some (1, savedOne.drop 4) := by decide
    have hrest : (World.readKey countedTypes (savedOne.drop 4)).map Prod.snd =
        some (savedOne.drop 24) := by decide +kernel
    have htake' : Mem.takeWord 4 (savedOne.drop 24) = some (1, savedOne.drop 28) := by decide
    obtain ⟨rfl, rfl⟩ := Prod.mk.inj (Option.some.inj (hsize.symm.trans htake))
    rw [hkey] at hrest
    obtain rfl : bs₃ = savedOne.drop 24 := Option.some.inj hrest
    obtain ⟨rfl, -⟩ := Prod.mk.inj (Option.some.inj (hcount.symm.trans htake'))
    refine ⟨rfl, fun found hfound => ?_⟩
    simp only [roomOfSaved, hkey, hget, ha, hfound, Option.bind_eq_bind, Option.bind_some,
      Option.some.injEq, Prod.mk.injEq, decide_eq_false_iff_not] at hroom
    obtain ⟨rfl, hfull⟩ := hroom
    exact fun heq => absurd heq hfull
  · exact absurd hlt (Nat.not_lt_zero _)

theorem size_eq_total_loaded : ∃ w w',
    run countedTypes 2 World.blank (.call (.allocate { types := [4] } 1)) = some w ∧
    (w.serializeEntity countedTypes 2 ⟨0⟩).map Prod.snd = some savedOne ∧
    run countedTypes 2 w (.load none savedOne) = some w' ∧
    w'.store.size 0 = w'.store.total 0 % 2 ^ 32 := by
  have hsome :
      ((run countedTypes 2 World.blank (.call (.allocate { types := [4] } 1))).bind fun w =>
        (run countedTypes 2 w (.load none savedOne)).bind fun w' =>
          (w'.store.archetype 0).map fun _ =>
            decide ((w.serializeEntity countedTypes 2 ⟨0⟩).map Prod.snd = some savedOne ∧
              (w.deserializeSingle countedTypes none savedOne).map (fun r => r.2.2) = some [] ∧
              roomOfSaved w = some (some (some 0), false))) = some true := by decide +kernel
  obtain ⟨w, hw, hsome⟩ := Option.bind_eq_some_iff.mp hsome
  obtain ⟨w', hw', hsome⟩ := Option.bind_eq_some_iff.mp hsome
  obtain ⟨a, ha, hfacts⟩ := Option.map_eq_some_iff.mp hsome
  obtain ⟨hsaved, hsingle, hroom⟩ := of_decide_eq_true hfacts
  have hreached : Reached countedTypes (Counts countedTypes) w :=
    (reached_blank _ _).step (.call (.allocate _ _)) trivial trivial hw
  have hreached' : Reached countedTypes (Counts countedTypes) w' :=
    hreached.step (.load none savedOne) trivial (loadCounts_savedOne hsingle hroom) hw'
  exact ⟨w, w', hw, hsaved, hw', size_eq_total built_countedTypes hreached' ha⟩

/-- A slice that leaves a chunk of two is taken off twice. -/
theorem not_size_eq_total : ∃ w, Reached countedTypes (fun _ _ => True) w ∧
    (w.store.archetype 0).isSome = true ∧ w.store.size 0 = 0 ∧ w.store.total 0 = 1 := by
  have hsome :
      ((run countedTypes 3 World.blank (.call (.allocate { types := [4] } 2))).bind fun w =>
        (run countedTypes 3 w (.call (.cast { c := 0, start := 0, count := 1 }
          { extend := World.tagged }))).map fun w' =>
            (w.store.type 0, w.store.count 0, (w'.store.archetype 0).isSome, w'.store.size 0,
              w'.store.total 0)) = some (some 0, 2, true, 0, 1) := by decide +kernel
  obtain ⟨w, hw, hsome⟩ := Option.bind_eq_some_iff.mp hsome
  obtain ⟨w', hw', hfacts⟩ := Option.map_eq_some_iff.mp hsome
  simp only [Prod.mk.injEq] at hfacts
  obtain ⟨htype, hcount, hfacts⟩ := hfacts
  have hreached : Reached countedTypes (fun _ _ => True) w :=
    (reached_blank _ _).step (.call (.allocate _ _)) trivial trivial hw
  have hvalid : w.ValidSlice { c := 0, start := 0, count := 1 } :=
    ⟨by rw [htype]; exact Option.some_ne_none 0, Nat.one_pos, by rw [hcount]; decide⟩
  exact ⟨w', hreached.step (.call (.cast _ _)) hvalid trivial hw', hfacts⟩

end Exchange

end Dots

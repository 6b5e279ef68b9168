import Dots.Database.ChunkList
import Dots.Database.Location
import Dots.Database.Run

/-!
# Chunk-list integrity

The lists of all archetypes are complete in every world reached, as long as `cast`
moves no full chunk behind a head that has room or is alone, and `destroy` does not
lose entities of its slice to the groups in it.
-/

namespace Dots

open Library

namespace Store

variable {ctx : Context} {st st' : Store} {g : ArchetypeId} {a : Archetype} {c : ChunkId}

/-! ## The lists of a store -/

theorem listed_initial (ctx : Context) (timestamp : Nat) (raw : Nat → Nat) (data : ChunkId → Mem)
    (guids : Nat → List UInt8) : Listed ctx (World.initial timestamp raw data guids).store where
  toWf := wf_initial ctx timestamp raw data guids
  chain := by simp [World.initial]
  alive := by simp [World.initial]
  nonempty := by simp [World.initial]

/-- `remove_chunk`. -/
theorem Listed.removeChunk (hl : Listed ctx st) {ents : Entities} (hc : st.type c = some g)
    (hs : st.removeChunk ents g c = some st') :
    Listed ctx st' ∧ Removed st st' g c ∧ Apart g st st' := by
  obtain ⟨a, ha⟩ := hl.alive c g hc
  obtain ⟨hwf, hrem⟩ := hl.toWf.removeChunk hc hs
  obtain ⟨fulls, frees, hch⟩ := hl.chain g a ha
  obtain ⟨hap, hkept, hdead⟩ := hch.removeChunk hl.toWf ha hc hs
  refine ⟨hl.of_apart hwf hap (fun b hb => ?_) hdead (fun d hd => ?_), hrem, hap⟩
  · obtain rfl : a = b := Option.some.inj (ha.symm.trans (hrem.alive hb))
    exact hkept hb
  · rw [hrem.type, Function.update_apply] at hd
    split_ifs at hd
    rw [hrem.count]
    exact hl.nonempty d g hd

/-- `resize_chunk`. -/
theorem Listed.resizeChunk (hl : Listed ctx st) {ents : Entities} {n : Nat}
    (ha : st.archetype g = some a) (hc : st.type c = some g) (hn : n ≤ a.chunkCapacity (st.ct c))
    (hfull : n ≠ 0 → n = a.chunkCapacity (st.ct c) → st.firstFree g = some c)
    (hs : st.resizeChunk ents c n = some st') :
    Listed ctx st' ∧ (n = 0 ∧ Removed st st' g c ∨ n ≠ 0 ∧ Resized st st' c n) := by
  obtain ⟨hwf, hcase⟩ := hl.toWf.resizeChunk hc ha hn hfull hs
  refine ⟨?_, hcase⟩
  by_cases hn0 : n = 0
  · have hrem : st.removeChunk ents g c = some st' := by
      rw [← hs, Store.resizeChunk, hc, Option.bind_eq_bind, Option.bind_some, ha,
        Option.bind_eq_bind, Option.bind_some, if_pos hn0]
    exact (hl.removeChunk hc hrem).1
  · obtain ⟨hzero, -⟩ | ⟨-, hres⟩ := hcase
    · exact absurd hzero hn0
    · obtain ⟨fulls, frees, hch⟩ := hl.chain g a ha
      obtain ⟨hap, hch'⟩ := hch.resizeChunk hl.toLinked ha hc hn0 hn (hfull hn0) hs
      refine hl.of_apart hwf hap (fun b hb => ?_) (fun hnone => ?_) (fun d hd => ?_)
      · rw [hres.archetype, ha] at hb
        exact Option.some.inj hb ▸ hch'
      · simp [hres.archetype, ha] at hnone
      · rw [hres.count, Function.update_apply]
        split_ifs
        · exact Nat.pos_of_ne_zero hn0
        · exact hl.nonempty d g (hres.type ▸ hd)

/-- `add_chunk` on a chunk that holds entities, where it keeps the order of the list. -/
theorem Listed.addChunk (hl : Listed ctx st) (ha : st.archetype g = some a)
    (hc : st.type c = none) (hfresh : c < st.freshChunk) (hpos : 0 < st.count c)
    (hcap : st.count c ≤ a.chunkCapacity (st.ct c)) (hkeep : KeepsOrder st g a c)
    (hs : st.addChunk g c = some st') :
    Listed ctx st' ∧ Retyped st st' c (some g) ∧ st'.archetype = st.archetype := by
  obtain ⟨hwf, hret, harch⟩ := hl.toWf.addChunk ha hc hfresh hcap hs
  obtain ⟨fulls, frees, hch⟩ := hl.chain g a ha
  obtain ⟨hap, hch'⟩ := hch.addChunk hl.toWf ha hc hcap hkeep hs
  refine ⟨hl.of_apart hwf hap (fun b hb => ?_) (fun hnone => ?_) (fun d hd => ?_), hret, harch⟩
  · rw [harch, ha] at hb
    exact Option.some.inj hb ▸ hch'
  · simp [harch, ha] at hnone
  · rw [hret.count]
    rw [hret.type, Function.update_apply] at hd
    split_ifs at hd with hdc
    · exact hdc ▸ hpos
    · exact hl.nonempty d g hd

theorem KeepsOrder.apart {h : ArchetypeId} (hl : Linked st) (hap : Apart h st st') (hg : g ≠ h)
    (ha : st.archetype g = some a) (hcount : st'.count c = st.count c) (hct : st'.ct c = st.ct c)
    (hk : KeepsOrder st g a c) : KeepsOrder st' g a c := by
  rcases hk with hroom | hhead
  · left
    rw [hcount, hct]
    exact hroom
  · right
    intro head hf
    rw [hap.firstChunk g hg] at hf
    have htype := hl.first g a head ha hf
    rw [hap.count head g hg htype, hap.ct head g hg htype, hap.lastChunk g hg]
    exact hhead head hf

/-- The fast path of `cast` takes a chunk out of one list and puts it into another. -/
theorem Listed.relink (hl : Listed ctx st) {ents : Entities} {st₁ : Store}
    {srcG : ArchetypeId} {srcA : Archetype} (hc : st.type c = some srcG)
    (hsrcA : st.archetype srcG = some srcA) (ha : st.archetype g = some a) (hg : srcG ≠ g)
    (hcap : srcA.chunkCapacity = a.chunkCapacity) (hkeep : KeepsOrder st g a c)
    (hrem : st.removeChunk ents srcG c = some st₁) (hadd : st₁.addChunk g c = some st') :
    Listed ctx st' := by
  obtain ⟨hl₁, hremoved, hap⟩ := hl.removeChunk hc hrem
  have hfresh : c < st.freshChunk := by
    by_contra hge
    simp [hl.fresh c (Nat.le_of_not_lt hge)] at hc
  have hcount : st₁.count c = st.count c := congrFun hremoved.count c
  have hct : st₁.ct c = st.ct c := congrFun hremoved.ct c
  apply (hl₁.addChunk (hremoved.archetype g hg.symm ▸ ha) _ _ _ _
    (hkeep.apart hl.toLinked hap hg.symm ha hcount hct) hadd).1
  · rw [hremoved.type, Function.update_self]
  · exact hremoved.freshChunk ▸ hfresh
  · exact hcount ▸ hl.nonempty c srcG hc
  · rw [hcount, hct, ← hcap]
    exact hl.count_le c srcG srcA hc hsrcA

/-- A new archetype has an empty list. -/
theorem Listed.newArchetype (hl : Listed ctx st) (ha : constructArchetype ctx a.type = some a) :
    Listed ctx (st.newArchetype a).1 := by
  have hnone : ∀ d, st.type d ≠ some st.freshArchetype := fun d hd =>
    lt_irrefl _ (hl.known d _ hd)
  have hself : ∀ f : ArchetypeId → Option ChunkId,
      Function.update f st.freshArchetype none st.freshArchetype = none :=
    fun f => Function.update_self ..
  have hap : Apart st.freshArchetype st (st.newArchetype a).1 :=
    { Apart.of_shape st.freshArchetype (SameShape.refl st) with
      firstChunk := fun _ hh => update_ne hh
      lastChunk := fun _ hh => update_ne hh
      firstFree := fun _ hh => update_ne hh
      chunkCount := fun _ hh => update_ne hh
      archetype := fun _ hh => update_ne hh }
  refine hl.of_apart (hl.toWf.newArchetype ha) hap (fun b hb => ⟨[], [], ?_⟩) (fun _ => hnone)
    fun d hd => absurd hd (hnone d)
  refine ⟨?_, fun d => ?_, by simp, by simp, hself _, Function.update_self ..⟩
  · simp only [Store.newArchetype, hself]
    exact Links.Spans.nil st.links
  · change _ ↔ st.type d = some st.freshArchetype
    simpa using hnone d

/-- `get_archetype`. An archetype it makes has no chunk. -/
theorem Listed.getArchetype (hl : Listed ctx st) {ents : Entities} {key : EntityType}
    (hs : Store.getArchetype ctx st ents key = some (st', g)) :
    Listed ctx st' ∧ (st.findArchetype key = some g ∧ st' = st ∨ st'.firstChunk g = none) := by
  unfold Store.getArchetype at hs
  cases hf : st.findArchetype key with
  | some g' =>
      simp only [hf, Option.some.injEq, Prod.mk.injEq] at hs
      obtain ⟨rfl, rfl⟩ := hs
      exact ⟨hl, Or.inl ⟨rfl, rfl⟩⟩
  | none =>
      simp only [hf, Option.bind_eq_bind, Option.bind_eq_some_iff, Option.some.injEq,
        Prod.mk.injEq, addArchetype] at hs
      obtain ⟨a, ha, st₂, ⟨st₁, hup, rfl⟩, rfl, rfl⟩ := hs
      have hshape := updateQueries_shape hup
      have hnew := hl.newArchetype (a := a) (constructArchetype_type ha ▸ ha)
      refine ⟨(hnew.congr hshape).congr ⟨rfl, rfl, rfl, rfl, rfl, rfl, rfl, rfl, rfl, rfl, rfl⟩,
        Or.inr ?_⟩
      change st₁.firstChunk st.freshArchetype = none
      rw [hshape.firstChunk]
      exact Function.update_self ..

end Store

namespace World

variable {ctx : Context} {w w' : World} {g : ArchetypeId} {a : Archetype}

/-! ## Calls -/

theorem listed_grows (ctx : Context) : Grows ctx (Store.Listed ctx) where
  getArchetype hl hs := (hl.getArchetype hs).1
  allocateSlice hl ha hs hty := (hl.allocateSlice ha hs hty).1

/-- Between two turns of the loop of `cast_slice`. -/
structure Emptying (ctx : Context) (src : ChunkSlice) (srcG g : ArchetypeId) (w : World) :
    Prop where
  listed : w.store.Listed ctx
  source : w.store.type src.c = some srcG
  le : src.count ≤ w.store.count src.c

theorem Emptying.castLoop {src : ChunkSlice} {srcG : ArchetypeId} {fuel : Nat}
    {ss : List ChunkSlice} (h : Emptying ctx src srcG g w) (hg : srcG ≠ g)
    (hs : World.castLoop ctx src g fuel 0 w = some (w', ss)) : Emptying ctx src srcG g w' := by
  suffices hinv : ∃ k, src.count ≤ k ∧ Emptying ctx src srcG g w' from hinv.choose_spec.2
  refine castLoop_invariant (I := fun _ => Emptying ctx src srcG g) ?_ h hs
  rintro w w₁ k s dst side mm ⟨hl, hc, hle⟩ - halloc hdst - -
  obtain ⟨st, hst, rfl⟩ := allocateSlice_eq_some.mp halloc
  obtain ⟨a, ha⟩ := archetype_of_allocateSlice hst
  obtain ⟨g', a', htype, -⟩ := side_eq_some.mp hdst
  have hty : st.type s.c ≠ none := by
    rw [htype]
    exact Option.some_ne_none g'
  obtain ⟨hl', hall⟩ := hl.allocateSlice ha hst hty
  refine ⟨hl', ?_, ?_⟩
  · exact (type_of_allocated hall (by rw [hc]; exact Option.some_ne_none srcG)).trans hc
  · exact (count_of_allocated hall hc hg).symm ▸ hle

/-- `free_slice` of no more entities than the chunk holds. -/
theorem listed_freeSlice {s : ChunkSlice} (hl : w.store.Listed ctx) (hpos : 0 < s.count)
    (hle : s.count ≤ w.store.count s.c) (hs : w.freeSlice s = some w') : w'.store.Listed ctx := by
  obtain ⟨g, a, st₁, w₂, st, hc, ha, hst₁, -, hres, rfl⟩ := freeSlice_spec hs
  have hshape : Store.SameShape w.store st₁ := hst₁ ▸
    (Store.structuralChange_shape w.store g a s.c).trans (Store.subSize_shape _ g s.count)
  have hl₁ := hl.congr hshape
  have hc₁ : st₁.type s.c = some g := hshape.type ▸ hc
  have ha₁ : st₁.archetype g = some a := hshape.archetype ▸ ha
  have hcap := hl₁.count_le s.c g a hc₁ ha₁
  have hlt := hl₁.capacity_lt ha₁ (st₁.ct s.c)
  rw [← hshape.count] at hle
  rw [sub32_of_le hle (by omega)] at hres
  exact (hl₁.resizeChunk ha₁ hc₁ (by omega) (fun _ hfull => by omega) hres).1

/-- `cast_slice` to another archetype. -/
theorem listed_castSlice {s : ChunkSlice} {srcG : ArchetypeId} {fuel : Nat}
    {ss : List ChunkSlice} (hl : w.store.Listed ctx) (hc : w.store.type s.c = some srcG)
    (hg : srcG ≠ g) (hpos : 0 < s.count) (hle : s.count ≤ w.store.count s.c)
    (hs : w.castSlice ctx fuel s g = some (w', ss)) : w'.store.Listed ctx := by
  obtain ⟨g', a', w₁, -, -, hloop, hfree⟩ := castSlice_spec hs
  have hshape := (Store.structuralChange_shape w.store g' a' s.c).trans
    (Store.subSize_shape _ g' s.count)
  have hstart : Emptying ctx s srcG g { w with
      store := (w.store.structuralChange g' a' s.c).subSize g' s.count } :=
    ⟨hl.congr hshape, hshape.type ▸ hc, hshape.count ▸ hle⟩
  have hend := hstart.castLoop hg hloop
  exact listed_freeSlice hend.listed hpos hend.le hfree

theorem listed_release {s : ChunkSlice} (hl : w.store.Listed ctx) (hpos : 0 < s.count)
    (hle : s.count ≤ w.store.count s.c) (hs : w.release s = some w') : w'.store.Listed ctx := by
  obtain ⟨w₁, hf, hs⟩ := Option.bind_eq_some_iff.mp hs
  have hstore := (freeEntities_store hf).1
  exact listed_freeSlice (hstore ▸ hl) hpos (hstore ▸ hle) hs

/-- `destroy_single`. -/
theorem listed_destroySingle (hctx : ctx.Built) {s : ChunkSlice} {fuel : Nat}
    (hl : w.store.Listed ctx) (hpos : 0 < s.count) (hle : s.count ≤ w.store.count s.c)
    (hs : w.destroySingle ctx fuel s = some w') : w'.store.Listed ctx := by
  obtain ⟨g, a, hc, ha, hcase⟩ := destroySingle_cases hs
  rcases hcase with ⟨-, rfl⟩ | ⟨-, -, hrel⟩ | ⟨hclean, -, w₁, g', ss, hgot, hcast⟩
  · exact hl
  · exact listed_release hl hpos hle hrel
  · obtain ⟨st, hget, rfl⟩ := getArchetype_eq_some hgot
    obtain ⟨-, hext, b, hb, hkey⟩ := hl.toWf.getArchetype hget
    have hl₁ := (hl.getArchetype hget).1
    refine listed_castSlice hl₁ (hext.type ▸ hc) ?_ hpos (hext.count ▸ hle) hcast
    rintro rfl
    obtain rfl : b = a := Option.some.inj (hb.symm.trans (hext.archetype _ a ha))
    have hbuilt := (hl₁.built g b hb).2
    rw [hkey] at hbuilt
    simp [cleaning_of_key hctx hbuilt] at hclean

/-- `destroy` of one entity, with all that its groups make it destroy. -/
theorem listed_destroy_one (hctx : ctx.Built) {s : ChunkSlice} {fuel : Nat} (hone : s.count = 1)
    (hl : w.store.Listed ctx) (hs : destroy ctx fuel w s = some w') : w'.store.Listed ctx := by
  refine destroy_invariant (I := fun w => w.store.Listed ctx) ?_ hone hl hs
  intro v v' t fuel hone hl hs
  obtain ⟨g, a, hc, -⟩ := destroySingle_cases hs
  have hpos := hl.nonempty t.c g hc
  exact listed_destroySingle hctx hl (by omega) (by omega) hs

/-- The slice is of one entity, or its groups have no members. -/
def GroupsEmpty (ctx : Context) (w : World) (s : ChunkSlice) : Prop :=
  ∀ g a, w.archetypeOf s.c = some (g, a) → a.index ctx.groupId = invalidIndex ∨ s.count = 1 ∨
    w.NoMembers a s.c (a.index ctx.groupId) s.count

/-- `destroy`. -/
theorem listed_destroy (hctx : ctx.Built) {s : ChunkSlice} {fuel : Nat} (hl : w.store.Listed ctx)
    (hv : w.ValidSlice s) (hempty : w.GroupsEmpty ctx s) (hs : destroy ctx fuel w s = some w') :
    w'.store.Listed ctx := by
  by_cases hone : s.count = 1
  · exact listed_destroy_one hctx hone hl hs
  · cases fuel with
    | zero => simp [World.destroy] at hs
    | succ fuel =>
        obtain ⟨g, a, w₁, hc, ha, hgroups, hsingle⟩ := destroy_cases hs
        obtain rfl : w₁ = w := by
          rcases hgroups with ⟨-, rfl⟩ | ⟨hid, hgroups⟩
          · rfl
          · have hno := hempty g a (archetypeOf_eq_some.mpr ⟨hc, ha⟩)
            exact destroyGroups_eq ha ((hno.resolve_left hid).resolve_left hone) hgroups
        exact listed_destroySingle hctx hl hv.pos (by have := hv.le; omega) hsingle

/-- When a cast to the type `key` moves the whole chunk of the slice, `add_chunk` keeps
the order of the list that the chunk goes to. -/
def RelinkKeepsOrder (ctx : Context) (w : World) (s : ChunkSlice) (key : EntityType) : Prop :=
  ∀ srcG srcA g a, w.archetypeOf s.c = some (srcG, srcA) → w.store.findArchetype key = some g →
    w.store.archetype g = some a → srcG ≠ g → w.full s = true →
    staticCastable ctx srcA.type a.type = true → w.store.KeepsOrder g a s.c

/-- `cast` to the archetype of a type. -/
theorem listed_castTo (hctx : ctx.Built) {s : ChunkSlice} {key : EntityType} {w₁ : World}
    {fuel : Nat} {ss : List ChunkSlice} (hl : w.store.Listed ctx) (hv : w.ValidSlice s)
    (hkeep : w.RelinkKeepsOrder ctx s key) (hgot : w.getArchetype ctx key = some (w₁, g))
    (hs : w₁.castTo ctx fuel s (some g) = some (w', ss)) : w'.store.Listed ctx := by
  obtain ⟨st, hget, rfl⟩ := getArchetype_eq_some hgot
  obtain ⟨hl₁, hnew⟩ := hl.getArchetype hget
  obtain ⟨-, hext, -⟩ := hl.toWf.getArchetype hget
  obtain ⟨srcG, srcA, a, hc, hsrcA, ha, hcase⟩ := castTo_cases hs
  rcases hcase with ⟨-, rfl⟩ | ⟨hg, hfast⟩ | ⟨hg, -, hcast⟩
  · exact hl₁
  · obtain ⟨st₁, st₂, hrem, hadd, rfl⟩ := hfast.store
    have hcap := capacity_of_staticCastable hctx.paired (hl₁.built srcG srcA hsrcA).2
      (hl₁.built g a ha).2 hfast.castable
    refine hl₁.relink hc hsrcA ha hg hcap ?_ hrem hadd
    rcases hnew with ⟨hfind, rfl⟩ | hnone
    · exact hkeep srcG srcA g a (archetypeOf_eq_some.mpr ⟨hc, hsrcA⟩) hfind ha hg hfast.full
        hfast.castable
    · refine Or.inr fun head hf => ?_
      simp [hnone] at hf
  · refine listed_castSlice hl₁ hc hg hv.pos ?_ hcast
    rw [hext.count]
    have := hv.le
    omega

end World

/-- What keeps the lists in order: see `Store.KeepsOrder` for `cast`. -/
def Op.KeepsLists (ctx : Context) (w : World) : Op → Prop
  | .destroy s => w.GroupsEmpty ctx s
  | .cast s diff => ∀ g a, w.archetypeOf s.c = some (g, a) →
      w.RelinkKeepsOrder ctx s (World.castedType ctx a diff false)
  | .castType s type => w.RelinkKeepsOrder ctx s type
  | _ => True

namespace World

variable {ctx : Context} {w w' : World}

/-- Every call keeps the lists complete. -/
theorem listed_step (hctx : ctx.Built) {op : Op} {fuel : Nat} (hl : w.store.Listed ctx)
    (hv : op.Valid w) (hkeep : op.KeepsLists ctx w) (hs : op.run ctx fuel w = some w') :
    w'.store.Listed ctx := by
  cases op with
  | allocate type count =>
      obtain ⟨⟨_, ss⟩, hrun, rfl⟩ := Option.map_eq_some_iff.mp hs
      exact (listed_grows ctx).allocate hl hrun
  | instantiate src count =>
      obtain ⟨⟨_, ss⟩, hrun, rfl⟩ := Option.map_eq_some_iff.mp hs
      exact (listed_grows ctx).instantiate hl hrun
  | destroy s => exact listed_destroy hctx hl hv hkeep hs
  | cast s diff =>
      obtain ⟨⟨_, ss⟩, hrun, rfl⟩ := Option.map_eq_some_iff.mp hs
      simp only [World.cast, Option.bind_eq_bind, Option.bind_eq_some_iff] at hrun
      obtain ⟨⟨g, a⟩, harch, ⟨w₁, target⟩, hcasted, hrun⟩ := hrun
      rcases getCasted_cases hcasted with ⟨rfl, rfl, -⟩ | ⟨g', rfl, hgot, -⟩
      · exact listed_release hl hv.pos (by have := hv.le; omega) (castTo_none hrun)
      · exact listed_castTo hctx hl hv (hkeep g a harch) hgot hrun
  | castType s type =>
      obtain ⟨⟨_, ss⟩, hrun, rfl⟩ := Option.map_eq_some_iff.mp hs
      simp only [World.castType, Option.bind_eq_bind, Option.bind_eq_some_iff] at hrun
      obtain ⟨⟨w₁, g⟩, hgot, hrun⟩ := hrun
      exact listed_castTo hctx hl hv hkeep hgot hrun
  | getArchetype type =>
      obtain ⟨⟨_, g⟩, hrun, rfl⟩ := Option.map_eq_some_iff.mp hs
      obtain ⟨st, hget, rfl⟩ := getArchetype_eq_some hrun
      exact (hl.getArchetype hget).1
  | query f =>
      obtain ⟨⟨_, q⟩, hrun, rfl⟩ := Option.map_eq_some_iff.mp hs
      obtain ⟨queries, rfl⟩ := query_eq_some hrun
      exact hl.congr ⟨rfl, rfl, rfl, rfl, rfl, rfl, rfl, rfl, rfl, rfl, rfl⟩
  | write memory => exact Option.some.inj hs ▸ hl

/-- The list of `g` is `l`: each chunk of `g` once, the last one last, and `firstFree`
at the first of the chunks with room. -/
structure Complete (st : Store) (g : ArchetypeId) (a : Archetype) (l : List ChunkId) : Prop where
  path : Links.Path st.links.next (st.firstChunk g) l
  nodup : l.Nodup
  mem : ∀ c, c ∈ l ↔ st.type c = some g
  last : st.lastChunk g = l.getLast?
  prev : ∀ b c, st.links.next b = some c ↔ st.links.prev c = some b
  front : ∀ c, st.firstChunk g = some c → st.links.prev c = none
  ends : st.firstChunk g = none ↔ st.lastChunk g = none
  full : st.firstFree g = none ↔ ∀ c ∈ l, st.count c = a.chunkCapacity (st.ct c)
  free : ∀ f, st.firstFree g = some f → f ∈ l ∧ st.count f ≠ a.chunkCapacity (st.ct f) ∧
    ∀ c ∈ l, st.count c ≠ a.chunkCapacity (st.ct c) →
      Relation.ReflTransGen (fun x y => st.links.next x = some y) f c

theorem complete_of_chain {st : Store} (hl : Store.Linked st) {g : ArchetypeId} {a : Archetype}
    {fulls frees : List ChunkId} (hch : st.Chain g a fulls frees) :
    Complete st g a (fulls ++ frees) where
  path := hch.spans.path
  nodup := hch.spans.path.nodup
  mem := hch.mem
  last := hch.spans.last
  prev := hl.consistent
  front := hch.spans.head
  ends := hch.spans.first_none_iff
  full := by
    rw [hch.firstFree, List.head?_eq_none_iff]
    constructor
    · rintro rfl c hc
      exact hch.full c (by simpa using hc)
    · intro hall
      rw [List.eq_nil_iff_forall_not_mem]
      intro c hc
      exact (hch.room c hc).ne (hall c (List.mem_append_right _ hc))
  free f hf := by
    rw [hch.firstFree] at hf
    obtain ⟨rest, rfl⟩ := List.head?_eq_some_iff.mp hf
    refine ⟨by simp, (hch.room f List.mem_cons_self).ne, fun c hc hroom => ?_⟩
    have hmem : c ∈ f :: rest := by
      rcases List.mem_append.mp hc with hc | hc
      · exact absurd (hch.full c hc) hroom
      · exact hc
    have hpath : Links.Path st.links.next (some f) (f :: rest) := ⟨rfl, hch.spans.path.suffix⟩
    exact hpath.reach hmem

/-- In every world reached by calls that keep the lists in order, the list of every
archetype is complete; its length is in `chunkCount`, which has 16 bits. -/
theorem complete_of_reachable (hctx : ctx.Built)
    (h : Reachable ctx (fun w op => op.KeepsLists ctx w) w) {g : ArchetypeId} {a : Archetype}
    (ha : w.store.archetype g = some a) :
    ∃ l, Complete w.store g a l ∧ (w.store.chunkCount g = l.length ↔ l.length < 2 ^ 16) := by
  have hl : w.store.Listed ctx := by
    refine h.invariant (I := fun w => w.store.Listed ctx) (Store.listed_initial ctx) ?_
    intro w op fuel w' hv hp hs hw
    exact listed_step hctx hw hv hp hs
  obtain ⟨fulls, frees, hch⟩ := hl.chain g a ha
  refine ⟨fulls ++ frees, complete_of_chain hl.toLinked hch, ?_⟩
  rw [hch.chunkCount]
  omega

/-! A whole chunk of two wide entities, or of one, goes to the archetype with a tag. -/

/-- A registry of a wide component and a tag. -/
def wideTag : Context :=
  (((Context.initial false).registerType { guid := 10, size := 400, alignment := 4 }).1.registerType
    { guid := 11 }).1

theorem built_wideTag : wideTag.Built := .register (.register (.initial false) _) _

abbrev tagged : EntityType := { types := [TypeIndex.make 5 .tag] }

/-- A chunk of `n` wide entities, and a full one of two that have the tag. -/
def twoLists (n : Nat) : Option World :=
  runAll wideTag 2 blank
    [.allocate { types := [4] } n, .allocate { types := [4, TypeIndex.make 5 .tag] } 2]

theorem reachable_twoLists (n : Nat) {P : World → Op → Prop}
    (hP : ∀ w type count, P w (.allocate type count)) (hw : twoLists n = some w) :
    Reachable wideTag P w := by
  refine (reachable_blank wideTag P).runAll ?_ hw
  intro op hop v
  rcases List.mem_pair.mp hop with rfl | rfl
  · exact ⟨trivial, hP ..⟩
  · exact ⟨trivial, hP ..⟩

/-- A chunk with room goes behind the full one. -/
theorem complete_relinked : ∃ w w', twoLists 1 = some w ∧
    Op.run wideTag 2 w (.cast { c := 0, start := 0, count := 1 } { extend := tagged }) = some w' ∧
    ∃ a, w'.store.archetype 1 = some a ∧ ∃ l, Complete w'.store 1 a l ∧
      (w'.store.chunkCount 1 = l.length ↔ l.length < 2 ^ 16) := by
  have hsome : ((twoLists 1).bind fun w => (Op.run wideTag 2 w
      (.cast { c := 0, start := 0, count := 1 } { extend := tagged })).bind fun w' =>
        (w'.store.archetype 1).map fun a =>
          (w.store.type 0, w.store.count 0, w.store.ct 0,
            w.store.archetypes.all fun g => (w.store.archetype g).all fun b =>
              1 < b.chunkCapacity .smallbin)) = some (some 0, 1, .smallbin, true) := by
    decide +kernel
  obtain ⟨w, hw, hsome⟩ := Option.bind_eq_some_iff.mp hsome
  obtain ⟨w', hw', hsome⟩ := Option.bind_eq_some_iff.mp hsome
  obtain ⟨a, ha, hfacts⟩ := Option.map_eq_some_iff.mp hsome
  simp only [Prod.mk.injEq, List.all_eq_true] at hfacts
  obtain ⟨htype, hcount, hct, hroom⟩ := hfacts
  have hreach := reachable_twoLists 1 (P := fun w op => op.KeepsLists wideTag w)
    (fun _ _ _ => trivial) hw
  refine ⟨w, w', hw, hw', a, ha,
    complete_of_reachable built_wideTag (hreach.step (.cast ..) ?_ ?_ hw') ha⟩
  · exact ⟨by simp [htype], by simp, by simp [hcount]⟩
  · intro g b _ srcG srcA g' b' _ hfind hb' _ _ _
    have hlt := hroom g' (List.mem_of_find?_eq_some hfind)
    rw [hb', Option.all_some, decide_eq_true_eq] at hlt
    left
    rw [hct, hcount]
    exact hlt

/-- A full chunk goes behind the only chunk of its new list, and `lastChunk` stays. -/
theorem not_complete_relinked : ∃ w w', twoLists 2 = some w ∧
    Op.run wideTag 2 w (.cast { c := 0, start := 0, count := 2 } { extend := tagged }) = some w' ∧
    Reachable wideTag (fun _ _ => True) w' ∧
    ∃ a, w'.store.archetype 1 = some a ∧ ¬ ∃ l, Complete w'.store 1 a l := by
  have hsome : ((twoLists 2).bind fun w => (Op.run wideTag 2 w
      (.cast { c := 0, start := 0, count := 2 } { extend := tagged })).bind fun w' =>
        (w'.store.archetype 1).map fun a => (w.store.count 0, [w.store.type 0,
          w'.store.firstChunk 1, w'.store.lastChunk 1, w'.store.links.next 1,
            w'.store.links.next 0])) =
      some (2, [some 0, some 1, some 1, some 0, none]) := by decide +kernel
  obtain ⟨w, hw, hsome⟩ := Option.bind_eq_some_iff.mp hsome
  obtain ⟨w', hw', hsome⟩ := Option.bind_eq_some_iff.mp hsome
  obtain ⟨a, ha, hfacts⟩ := Option.map_eq_some_iff.mp hsome
  simp only [Prod.mk.injEq, List.cons.injEq, and_true] at hfacts
  obtain ⟨hcount, htype, hfirst, hlast, hnext, hend⟩ := hfacts
  have hreach := reachable_twoLists 2 (P := fun _ _ => True) (fun _ _ _ => trivial) hw
  refine ⟨w, w', hw, hw', hreach.step (.cast ..) ?_ trivial hw', a, ha, ?_⟩
  · exact ⟨by simp [htype], by simp, by simp [hcount]⟩
  · rintro ⟨l, hl⟩
    have hpath : Links.Path w'.store.links.next (w'.store.firstChunk 1) [1, 0] :=
      ⟨hfirst, hnext, hend⟩
    have hlast' := hl.last
    rw [hl.path.unique hpath, hlast] at hlast'
    simp at hlast'

end World

end Dots

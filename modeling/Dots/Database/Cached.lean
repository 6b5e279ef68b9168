import Dots.Database.Metas
import Dots.Database.Queries

/-!
# Cached queries

`update_queries` leaves the mask of a new archetype empty, and nothing updates the queries when
an entity that others have as a metatype changes its types. In runs that meet neither, a cached
query agrees with a fresh one.
-/

namespace Dots

open Library

namespace World

open Store (Caches Lists entry entryWith matchWith sharedWith test)

variable {ctx : Context} {w w' w₁ : World} {g h srcG : ArchetypeId} {a b srcA : Archetype}
  {c : ChunkId} {s : ChunkSlice} {fuel n k N : Nat} {ms : List Entity} {key : EntityType}
  {E : ArchetypeFilter → Archetype → Option (Option Mask)} {F : ArchetypeFilter → Prop}
  {f : ArchetypeFilter}

/-! ## Slices -/

theorem caches_freeSlice {st : Store} {ents : Entities} (hlive : st.MetasLive ents)
    (hn : st.Numbered) (hac : st.Acyclic ents) (h : Caches ctx E F N w.store)
    (hsp : Store.Spares st ents g w.store w.ents) (hl : w.store.Listed ctx) (hv : w.ValidSlice s)
    (hc : w.store.type s.c = some g) (ha : st.archetype g = some a)
    (hE : ∀ f, F f → test ctx st ents f a = some false → E f a = some none)
    (hs : w.freeSlice s = some w') :
    Caches ctx E F N w'.store := by
  obtain ⟨g', a', st₁, w₂, st₂, hc', ha', hst₁, hw₂, hres, rfl⟩ := freeSlice_spec hs
  obtain rfl := Option.some.inj (hc.symm.trans hc')
  obtain rfl := Option.some.inj ((hsp.archetype g a ha).symm.trans ha')
  have hshape : Store.SameShape w.store st₁ := by
    rw [hst₁]
    exact (Store.structuralChange_shape w.store g a s.c).trans (Store.subSize_shape _ g s.count)
  have hsame : Store.SameMap w.store st₁ := by
    rw [hst₁]
    exact (Store.sameMap_structuralChange w.store g a s.c).trans
      (Store.sameMap_subSize _ g s.count)
  have h₁ := h.congr hsame
  by_cases hzero : sub32 (st₁.count s.c) s.count = 0
  · -- the whole chunk goes, and nothing moves up
    have hcap := hl.count_le s.c g a hc ha'
    have hlt := hl.capacity_lt ha' (w.store.ct s.c)
    have hle := hv.le
    have hcount : st₁.count s.c = w.store.count s.c := congrFun hshape.count s.c
    rw [hcount, sub32_of_le (by omega) (by omega)] at hzero
    have htail : World.tailCount { w with store := st₁ } s = 0 := by
      rw [tailCount, show World.store { w with store := st₁ } = st₁ from rfl, hcount]
      omega
    have hmove : w₂ = { w with store := st₁ } := by
      rw [hw₂]
      exact moveTail_eq (hcount ▸ hle) (hcount ▸ (by omega)) htail
    rw [hmove, hcount, sub32_of_le (by omega) (by omega), hzero] at hres
    simp only [Store.resizeChunk, hshape.type, hc, hshape.archetype, ha', Option.bind_eq_bind,
      Option.bind_some, if_true] at hres
    exact h₁.removeSpared hlive hn hac (hsp.congr hshape) ha (hshape.type ▸ hc) hE hres
  · exact h₁.congr (Store.sameMap_resizeChunk hzero hres)

theorem sameMap_castLoop (hl : w.store.Listed ctx) (ha : w.store.archetype g = some a)
    {ss : List ChunkSlice} (hs : castLoop ctx s g fuel 0 w = some (w', ss)) :
    Store.SameMap w.store w'.store := by
  suffices hinv : ∃ k, s.count ≤ k ∧ w'.store.Listed ctx ∧ Store.SameMap w.store w'.store from
    hinv.choose_spec.2.2
  refine castLoop_invariant (I := fun _ v => v.store.Listed ctx ∧ Store.SameMap w.store v.store) ?_
    ⟨hl, Store.SameMap.refl _⟩ hs
  rintro v v₁ k t dst side mm ⟨hl, hsame⟩ - halloc hdst - -
  obtain ⟨st, hst, rfl⟩ := allocateSlice_eq_some.mp halloc
  obtain ⟨g', a', htype, -, -⟩ := side_eq_some.mp hdst
  have htyped : st.type t.c ≠ none := by
    rw [htype]
    exact Option.some_ne_none g'
  obtain ⟨hl', hall⟩ := hl.allocateSlice (hsame.archetype ▸ ha) hst htyped
  exact ⟨hl', hsame.trans (Store.sameMap_allocateSlice hst hall.pos)⟩

theorem sameMap_allocateLoop (hl : w.store.Listed ctx) (ha : w.store.archetype g = some a)
    {ss : List ChunkSlice} (hs : allocateLoop ctx g fuel n w = some (w', ss)) :
    Store.SameMap w.store w'.store := by
  refine (allocateLoop_invariant
    (I := fun v => v.store.Listed ctx ∧ Store.SameMap w.store v.store) ?_
    ⟨hl, Store.SameMap.refl _⟩ hs).2
  rintro v v₁ v₂ n t g' a' ⟨hl, hsame⟩ - halloc harch hnew
  obtain ⟨st, hst, rfl⟩ := allocateSlice_eq_some.mp halloc
  have htyped : st.type t.c ≠ none := by
    rw [(archetypeOf_eq_some.mp harch).1]
    exact Option.some_ne_none g'
  obtain ⟨hl', hall⟩ := hl.allocateSlice (hsame.archetype ▸ ha) hst htyped
  rw [(newEntities_store hnew).1]
  exact ⟨hl', hsame.trans (Store.sameMap_allocateSlice hst hall.pos)⟩

section Moves

variable (hm : w.Metas) (hw : Orderly ctx w) (hsize : w.ents.size < 2 ^ 24) (hv : w.ValidSlice s)
  (hcaches : Caches ctx E F N w.store) (hsrc : w.archetypeOf s.c = some (srcG, srcA))
  (hE : ∀ f, F f → test ctx w.store w.ents f srcA = some false → E f srcA = some none)

include hm hw hsize hv hcaches hsrc hE

theorem caches_release (hs : w.release s = some w') : Caches ctx E F N w'.store := by
  obtain ⟨hc, ha⟩ := archetypeOf_eq_some.mp hsrc
  simp only [World.release, Option.bind_eq_bind, Option.bind_eq_some_iff] at hs
  obtain ⟨w₁, hfree, hs⟩ := hs
  have hstore := (freeEntities_store hfree).1
  exact caches_freeSlice (hm.metasLive hsize) (numbered hw.listed) hm.acyclic (hstore ▸ hcaches)
    (hm.spares_freeEntities hw hsize hv hsrc hfree) (hstore ▸ hw.listed)
    ⟨hstore ▸ hv.typed, hv.pos, hstore ▸ hv.le⟩ (hstore ▸ hc) ha hE hs

theorem caches_castSlice (hctx : ctx.Built) (ha : w.store.archetype g = some a) (hg : srcG ≠ g)
    {ss : List ChunkSlice} (hs : w.castSlice ctx fuel s g = some (w', ss)) :
    Caches ctx E F N w'.store := by
  obtain ⟨srcG', srcA', w₁, hc, hsrcA, hloop, hfree⟩ := castSlice_spec hs
  obtain ⟨rfl, rfl⟩ :=
    Prod.mk.inj (Option.some.inj (hsrc.symm.trans (archetypeOf_eq_some.mpr ⟨hc, hsrcA⟩)))
  obtain ⟨hspares, hl₁, hc₁, hv₁⟩ :=
    hm.spares_castLoop hctx hw.sound hw.listed hsize hv hsrc ha hg hloop
  have hshape := w.castStart_shape srcG srcA s
  have hstart : Store.SameMap w.store (w.castStart srcG srcA s).store :=
    (Store.sameMap_structuralChange w.store srcG srcA s.c).trans
      (Store.sameMap_subSize _ srcG s.count)
  have hsame := hstart.trans
    (sameMap_castLoop (hw.listed.congr hshape) (hshape.archetype ▸ ha) hloop)
  exact caches_freeSlice (hm.metasLive hsize) (numbered hw.listed) hm.acyclic (hcaches.congr hsame)
    hspares hl₁ hv₁ hc₁ hsrcA hE hfree

theorem caches_castTo (hctx : ctx.Built) {ss : List ChunkSlice}
    (hs : w.castTo ctx fuel s (some g) = some (w', ss)) : Caches ctx E F N w'.store := by
  obtain ⟨srcG', srcA', a, hc, hsrcA, ha, hcase⟩ := castTo_cases hs
  obtain ⟨rfl, rfl⟩ :=
    Prod.mk.inj (Option.some.inj (hsrc.symm.trans (archetypeOf_eq_some.mpr ⟨hc, hsrcA⟩)))
  rcases hcase with ⟨-, rfl⟩ | ⟨-, hfast⟩ | ⟨hg, -, hcast⟩
  · exact hcaches
  · obtain ⟨st₁, st₂, hrem, hadd, rfl⟩ := hfast.store
    have hremoved := hcaches.removeSpared (hm.metasLive hsize) (numbered hw.listed) hm.acyclic
      (Store.Spares.refl _ _ srcG) hsrcA hc hE hrem
    exact hremoved.congr (Store.sameMap_addChunk hadd)
  · exact caches_castSlice hm hw hsize hv hcaches hsrc hE hctx ha hg hcast

end Moves

/-! ## The tests after a call -/

/-- The archetype of a metatype, once the entities of `S` are those of `b`. -/
def movedTo (w : World) (S : Entity → Prop) [DecidablePred S] (b : Archetype) (e : Entity) :
    Option Archetype :=
  if S e then some b else w.store.getArchetypeOf w.ents e

section Regraphed

variable {S : Entity → Prop} [DecidablePred S]

/-- The shared types after a call, by what the metatypes were before it. -/
theorem Regraphed.sharedType_eq (hr : Regraphed w w' S ms g) (hm : w.Metas) (hm' : w'.Metas)
    (hl' : w'.store.Listed ctx) (hsize : w.ents.size < 2 ^ 24) (hsize' : w'.ents.size < 2 ^ 24)
    (hms : ∀ m ∈ ms, ∃ h, w.LivesIn m h)
    (hfresh : w'.store.freshArchetype ≤ w.store.freshArchetype + 1)
    (hb : ∀ x, w'.store.archetype g = some x → x = b) (ha : w'.store.archetype h = some a) :
    sharedWith (w.movedTo S b) (w.store.freshArchetype + 2) [] a =
      w'.store.sharedType w'.ents a := by
  refine Store.sharedWith_eq (P := fun d => ∃ k, w'.store.archetype k = some d)
    ((hm'.metasLive hsize').endsIn hm'.acyclic (numbered hl') ha) ⟨h, ha⟩ ?_
    (Nat.succ_le_succ hfresh) []
  rintro d ⟨k, hd⟩ m hmem x hx
  obtain ⟨j, hid, hx⟩ := Store.getArchetypeOf_eq_some.mp hx
  have hlives : ∃ h, w.LivesIn m h := by
    rcases hr.archetype k d hd with hold | ⟨-, -, hnew⟩
    · exact hm.live k d hold m hmem
    · exact hms m (hnew ▸ hmem)
  obtain ⟨i, hlives⟩ := hlives
  refine ⟨?_, j, hx⟩
  by_cases hin : S m
  · have hj := Option.some.inj (hid.symm.trans ((hr.moved m hin).archetypeIdOf hsize'))
    rw [movedTo, if_pos hin, hb x (hj ▸ hx)]
  · obtain rfl := Option.some.inj (hid.symm.trans ((hr.others m i hlives hin).archetypeIdOf hsize'))
    obtain ⟨d', hd'⟩ := hlives.archetype
    have hx' := (hr.archetype j x hx).resolve_right fun h => by simp [hd'] at h
    rw [movedTo, if_neg hin]
    exact Store.getArchetypeOf_eq_some.mpr ⟨j, hlives.archetypeIdOf hsize, hx'⟩

/-- The shared types of a new archetype do not depend on the entities of `S`. -/
theorem FreeBelow.sharedWith_eq (hS : w.FreeBelow S ms) (hm : w.Metas) (hn : w.store.Numbered)
    (hsize : w.ents.size < 2 ^ 24) (hms : ∀ m ∈ ms, ∃ h, w.LivesIn m h) (ha : a.metatypes = ms) :
    sharedWith (w.movedTo S b) (w.store.freshArchetype + 2) [] a =
      sharedWith (w.store.getArchetypeOf w.ents) (w.store.freshArchetype + 2) [] a := by
  have hends : w.store.EndsIn w.ents (w.store.freshArchetype + 2) a := by
    refine Store.endsIn_of_metas (hm.metasLive hsize) hm.acyclic hn fun m hmem => ?_
    obtain ⟨i, hlives⟩ := hms m (ha ▸ hmem)
    exact hlives.getArchetypeOf hsize
  rw [← Store.sharedTypeFrom_eq]
  refine Store.sharedWith_eq (P := fun d => d.metatypes = ms ∨ ∃ m ∈ ms, ∃ h k, w.LivesIn m h ∧
    w.store.Inherits w.ents k h ∧ w.store.archetype k = some d) hends (Or.inl ha) ?_ le_rfl []
  rintro d hd m hmem x hx
  obtain ⟨j, hid, hxj⟩ := Store.getArchetypeOf_eq_some.mp hx
  rcases hd with hd | ⟨m₀, hm₀, i, k, hlives, hinh, hd⟩
  · rw [hd] at hmem
    obtain ⟨i, hlives⟩ := hms m hmem
    obtain rfl := Option.some.inj (hid.symm.trans (hlives.archetypeIdOf hsize))
    rw [movedTo, if_neg (hS.metas m hmem)]
    exact ⟨hx, Or.inr ⟨m, hmem, j, j, hlives, .refl, hxj⟩⟩
  · rw [movedTo, if_neg (hS.below m₀ hm₀ i k d hlives hinh hd m hmem)]
    exact ⟨hx, Or.inr ⟨m₀, hm₀, i, j, hlives, hinh.head ⟨d, x, m, hd, hmem, hid, hxj⟩, hxj⟩⟩

/-- A cached query tests an archetype as it did before the call. -/
theorem Regraphed.test_eq (hr : Regraphed w w' S ms g) (hm : w.Metas) (hm' : w'.Metas)
    (hl : w.store.Listed ctx) (hl' : w'.store.Listed ctx) (hsize : w.ents.size < 2 ^ 24)
    (hsize' : w'.ents.size < 2 ^ 24) (hms : ∀ m ∈ ms, ∃ h, w.LivesIn m h) (hS : w.FreeBelow S ms)
    (hfresh : w'.store.freshArchetype ≤ w.store.freshArchetype + 1)
    (hb : ∀ x, w'.store.archetype g = some x → x = b)
    (hsame : ∀ k d, w.store.archetype k = some d →
      matchWith (w.movedTo S b) (w.store.freshArchetype + 2) (Store.includeFlags ctx f).1
          (Store.includeFlags ctx f).2 f d =
        w.store.matchCache w.ents (Store.includeFlags ctx f).1 (Store.includeFlags ctx f).2 f d)
    (ha : w'.store.archetype h = some a) :
    test ctx w'.store w'.ents f a = test ctx w.store w.ents f a := by
  have hshared : sharedWith (w'.store.getArchetypeOf w'.ents) (w'.store.freshArchetype + 1) [] a =
      sharedWith (w.movedTo S b) (w.store.freshArchetype + 2) [] a := by
    rw [hr.sharedType_eq hm hm' hl' hsize hsize' hms hfresh hb ha, Store.sharedType,
      Store.sharedTypeFrom_eq]
  rw [Store.test_eq (hm'.metasLive hsize') (numbered hl') hm'.acyclic ha]
  rcases hr.archetype h a ha with hold | ⟨-, -, hnew⟩
  · rw [Store.test_eq (hm.metasLive hsize) (numbered hl) hm.acyclic hold,
      Store.matchWith_congr hshared, hsame h a hold, Store.matchCache_eq]
  · refine Store.matchWith_congr ?_
    rw [hshared, hS.sharedWith_eq hm (numbered hl) hsize hms hnew]

end Regraphed

/-- Archetypes are freed, and the tests of those that are left are as they were. -/
theorem test_of_shrink (hm : w.Metas) (hm' : w'.Metas) (hl : w.store.Listed ctx)
    (hl' : w'.store.Listed ctx) (hsize : w.ents.size < 2 ^ 24) (hsize' : w'.ents.size < 2 ^ 24)
    (hold : Store.Older w.store w'.store)
    (hfresh : w.store.freshArchetype ≤ w'.store.freshArchetype)
    (hstay : ∀ k d, w'.store.archetype k = some d → ∀ m ∈ d.metatypes, ∀ h, w.LivesIn m h →
      w'.LivesIn m h) (ha : w'.store.archetype h = some a) :
    test ctx w'.store w'.ents f a = test ctx w.store w.ents f a := by
  have hlive := hm.metasLive hsize
  have hn := numbered hl
  have hshared : sharedWith (w'.store.getArchetypeOf w'.ents) (w'.store.freshArchetype + 1) [] a =
      sharedWith (w.store.getArchetypeOf w.ents) (w.store.freshArchetype + 1) [] a := by
    rw [Store.sharedWith_live hlive hn hm.acyclic (hold h a ha) (Nat.lt_succ_self _)]
    refine Store.sharedWith_eq (P := fun d => ∃ k, w'.store.archetype k = some d)
      (hlive.endsIn hm.acyclic hn (hold h a ha)) ⟨h, ha⟩ ?_ (Nat.succ_le_succ hfresh) []
    rintro d ⟨k, hd⟩ m hmem x hx
    obtain ⟨i, hlives⟩ := hm.live k d (hold k d hd) m hmem
    obtain ⟨j, hid, hx⟩ := Store.getArchetypeOf_eq_some.mp hx
    obtain rfl := Option.some.inj (hid.symm.trans (hlives.archetypeIdOf hsize))
    have hlives' := hstay k d hd m hmem j hlives
    obtain ⟨y, hy⟩ := hlives'.archetype
    obtain rfl := Option.some.inj (hx.symm.trans (hold j y hy))
    exact ⟨Store.getArchetypeOf_eq_some.mpr ⟨j, hlives'.archetypeIdOf hsize', hy⟩, j, hy⟩
  rw [Store.test_eq (hm'.metasLive hsize') (numbered hl') hm'.acyclic ha,
    Store.test_eq hlive hn hm.acyclic (hold h a ha)]
  exact Store.matchWith_congr hshared

/-! ## What keeps the lists current -/

/-- A new archetype that a cached query finds owns no type that its filter asks for. -/
def NewUnasked (ctx : Context) (w : World) (key : EntityType) : Prop :=
  ∀ a, w.store.findArchetype key = none → constructArchetype ctx key = some a →
    ∀ q ∈ w.store.queries,
      (w.store.newArchetype a).1.matchCache w.ents q.includeClean q.includeDisabled q.filter a =
          some true →
        ∀ t ∈ Set.merge q.filter.all.types q.filter.any.types, t ∉ a.types

/-- The cached queries test the archetypes there are as before, once the entities of the slice
are of type `key`. -/
def SameTests (ctx : Context) (w : World) (s : ChunkSlice) (key : EntityType) : Prop :=
  ∀ b, constructArchetype ctx key = some b → ∀ q ∈ w.store.queries, ∀ g a,
    w.store.archetype g = some a →
      matchWith (w.movedTo (fun e => e ∈ w.handles s) b) (w.store.freshArchetype + 2)
          q.includeClean q.includeDisabled q.filter a =
        w.store.matchCache w.ents q.includeClean q.includeDisabled q.filter a

/-- The filter is that of a cached query. -/
def HasQuery (w : World) (f : ArchetypeFilter) : Prop := ∃ q ∈ w.store.queries, q.filter = f

/-- Each cached query has in its list what a fresh one finds. -/
def Cached (ctx : Context) (w : World) : Prop :=
  Caches ctx (entry ctx w.store w.ents) (fun f => ∃ q ∈ w.store.queries, q.filter = f)
    w.store.freshArchetype w.store

end World

/-- No entity changes what an archetype inherits in a way that a cached query can tell. -/
def Op.KeepsTests (ctx : Context) (w : World) : Op → Prop
  | .castType s type => w.SameTests ctx s type
  | .cast s diff => ∀ g a, w.archetypeOf s.c = some (g, a) → World.castFrees ctx a diff = false →
      w.SameTests ctx s (World.castedType ctx a diff false)
  | .destroy s => ∀ g a, w.archetypeOf s.c = some (g, a) → a.cleaning = false →
      World.leavesDead ctx a = true → w.SameTests ctx s (World.cleaningKey ctx a)
  | .allocate _ _ | .getArchetype _ | .instantiate _ _ | .query _ | .write _ => True

/-- The type for which the call asks `get_archetype`. -/
def Op.Seeks (ctx : Context) (w : World) : Op → EntityType → Prop
  | .allocate type _, key | .getArchetype type, key | .castType _ type, key => key = type
  | .cast s diff, key => ∃ g a, w.archetypeOf s.c = some (g, a) ∧
      World.castFrees ctx a diff = false ∧ key = World.castedType ctx a diff false
  | .destroy s, key => ∃ g a, w.archetypeOf s.c = some (g, a) ∧ a.cleaning = false ∧
      World.leavesDead ctx a = true ∧ key = World.cleaningKey ctx a
  | .instantiate _ _, _ | .query _, _ | .write _, _ => False

/-- What keeps the lists of the queries current: no type of a new archetype is asked for, and no
entity changes what an archetype inherits in a way that a query can tell. -/
def Op.KeepsQueries (ctx : Context) (w : World) : Op → Prop
  | .allocate type _ | .getArchetype type => w.NewUnasked ctx type
  | .castType s type => w.NewUnasked ctx type ∧ w.SameTests ctx s type
  | .cast s diff => ∀ g a, w.archetypeOf s.c = some (g, a) → World.castFrees ctx a diff = false →
      w.NewUnasked ctx (World.castedType ctx a diff false) ∧
        w.SameTests ctx s (World.castedType ctx a diff false)
  | .destroy s => ∀ g a, w.archetypeOf s.c = some (g, a) → a.cleaning = false →
      World.leavesDead ctx a = true → w.NewUnasked ctx (World.cleaningKey ctx a) ∧
        w.SameTests ctx s (World.cleaningKey ctx a)
  | .instantiate _ _ | .query _ | .write _ => True

namespace World

open Store (Caches Lists entry entryWith matchWith sharedWith test)

variable {ctx : Context} {w w' w₁ : World} {g h : ArchetypeId} {a b : Archetype} {s : ChunkSlice}
  {fuel n N : Nat} {e : Entity} {op : Op} {key : EntityType} {f : ArchetypeFilter}
  {F : ArchetypeFilter → Prop} {E : ArchetypeFilter → Archetype → Option (Option Mask)}

theorem keepsTests_of_keepsQueries (hq : op.KeepsQueries ctx w) : op.KeepsTests ctx w := by
  cases op with
  | castType s type => exact hq.2
  | cast s diff => exact fun g a harch hfrees => (hq g a harch hfrees).2
  | destroy s => exact fun g a harch hclean hdead => (hq g a harch hclean hdead).2
  | allocate | getArchetype | instantiate | query | write => trivial

theorem newUnasked_of_seeks (hq : op.KeepsQueries ctx w) (hkey : op.Seeks ctx w key) :
    w.NewUnasked ctx key := by
  cases op with
  | allocate type count => exact hkey ▸ hq
  | getArchetype type => exact hkey ▸ hq
  | castType s type => exact hkey ▸ hq.1
  | cast s diff =>
      obtain ⟨g, a, harch, hfrees, rfl⟩ := hkey
      exact (hq g a harch hfrees).1
  | destroy s =>
      obtain ⟨g, a, harch, hclean, hdead, rfl⟩ := hkey
      exact (hq g a harch hclean hdead).1
  | instantiate | query | write => exact hkey.elim

theorem metas_of_seeks (hm : w.Metas) (hk : op.KeepsMetas ctx w) (hkey : op.Seeks ctx w key) :
    ∀ m ∈ key.metatypes, ∃ h, w.LivesIn m h := by
  cases op with
  | allocate type count => exact hkey ▸ hk
  | getArchetype type => exact hkey ▸ hk
  | castType s type => exact hkey ▸ hk.1
  | cast s diff =>
      obtain ⟨g, a, harch, hfrees, rfl⟩ := hkey
      have hk' := hk g a harch
      rw [hfrees, if_neg Bool.false_ne_true] at hk'
      exact hk'.1
  | destroy s =>
      obtain ⟨g, a, harch, -, -, rfl⟩ := hkey
      exact hm.live g a (archetypeOf_eq_some.mp harch).2
  | instantiate | query | write => exact hkey.elim

/-- The test that `update_queries` makes of a new archetype. -/
theorem Metas.matchCache_newArchetype (hm : w.Metas) (hl : w.store.Listed ctx)
    (hsize : w.ents.size < 2 ^ 24) (hms : ∀ m ∈ key.metatypes, ∃ h, w.LivesIn m h)
    (ha : constructArchetype ctx key = some a) :
    (w.store.newArchetype a).1.matchCache w.ents (Store.includeFlags ctx f).1
      (Store.includeFlags ctx f).2 f a = test ctx w.store w.ents f a := by
  have hends : w.store.EndsIn w.ents (w.store.freshArchetype + 2) a := by
    refine Store.endsIn_of_metas (hm.metasLive hsize) hm.acyclic (numbered hl) fun m hmem => ?_
    rw [Archetype.metatypes, constructArchetype_type ha] at hmem
    obtain ⟨i, hlives⟩ := hms m hmem
    exact hlives.getArchetypeOf hsize
  have hshared : sharedWith ((w.store.newArchetype a).1.getArchetypeOf w.ents)
      (w.store.freshArchetype + 2) [] a =
      sharedWith (w.store.getArchetypeOf w.ents) (w.store.freshArchetype + 2) [] a := by
    refine (Store.sharedWith_eq (P := fun _ => True) hends trivial ?_ le_rfl []).trans
      (Store.sharedTypeFrom_eq [])
    rintro d - m - x hx
    obtain ⟨j, hid, hx⟩ := Store.getArchetypeOf_eq_some.mp hx
    refine ⟨Store.getArchetypeOf_eq_some.mpr ⟨j, hid, ?_⟩, trivial⟩
    rw [Store.newArchetype_archetype, if_neg (numbered hl j x hx).ne, hx]
  rw [Store.matchCache_eq]
  exact Store.matchWith_congr hshared

/-- `get_archetype`, where `E` gives a new archetype the empty mask, if any. -/
theorem Metas.caches_getArchetype (hm : w.Metas) (hl : w.store.Listed ctx)
    (hsize : w.ents.size < 2 ^ 24) (hms : ∀ m ∈ key.metatypes, ∃ h, w.LivesIn m h)
    (hcaches : Caches ctx E F N w.store)
    (hnew : ∀ a, w.store.findArchetype key = none → constructArchetype ctx key = some a →
      ∀ q ∈ w.store.queries, ∀ r, test ctx w.store w.ents q.filter a = some r →
        E q.filter a = some (if r then some 0 else none))
    (hget : w.getArchetype ctx key = some (w₁, g)) : Caches ctx E F (N + 1) w₁.store := by
  obtain ⟨st, hst, rfl⟩ := getArchetype_eq_some hget
  refine hcaches.getArchetype hst fun a hf ha q hq r hr => hnew a hf ha q hq r ?_
  have hlists := (hcaches.lists q hq).2
  rw [← hr, hlists.includeClean, hlists.includeDisabled]
  exact (hm.matchCache_newArchetype hl hsize hms ha).symm

/-- The test of an archetype that is there is the same once the target is. -/
theorem Metas.test_getArchetype (hm : w.Metas) (hw : Orderly ctx w) (hsize : w.ents.size < 2 ^ 24)
    (hget : w.getArchetype ctx key = some (w₁, g)) (ha : w.store.archetype h = some a) :
    test ctx w₁.store w₁.ents f a = test ctx w.store w.ents f a := by
  obtain ⟨-, hext, hents, -⟩ := hw.sound.getArchetype hget
  have hfresh : w.store.freshArchetype ≤ w₁.store.freshArchetype := by
    obtain ⟨st, hst, rfl⟩ := getArchetype_eq_some hget
    exact (Store.renewed_getArchetype hst).fresh
  have hlive := hm.metasLive hsize
  have hn := numbered hw.listed
  have hspares : Store.Spares w.store w.ents h w₁.store w₁.ents := by
    refine hm.spares hsize hext.archetype hfresh fun m k hlives _ => ?_
    have hid := hlives.archetypeIdOf hsize
    simp only [Store.archetypeIdOf] at hid ⊢
    rwa [hext.type, hents]
  refine Store.matchWith_congr ?_
  rw [hspares.sharedWith_eq hlive hn hm.acyclic ha (Nat.lt_succ_of_lt (Nat.lt_succ_of_le hfresh)),
    Store.sharedWith_live hlive hn hm.acyclic ha (Nat.lt_succ_of_lt (Nat.lt_succ_self _))]

theorem Cached.query {q : QueryCache} (hcached : w.Cached ctx) (hm : w.Metas)
    (hl : w.store.Listed ctx) (hsize : w.ents.size < 2 ^ 24)
    (hs : w.query ctx f = some (w', q)) : w'.Cached ctx := by
  simp only [World.query, Option.bind_eq_bind, Option.bind_eq_some_iff, Option.some.injEq,
    Prod.mk.injEq] at hs
  obtain ⟨⟨st, q'⟩, hget, rfl, rfl⟩ := hs
  unfold Store.getQueryCache at hget
  cases hf : w.store.queries.find? fun q => decide (q.filter = f) with
  | some q =>
      simp only [hf, Option.some.injEq, Prod.mk.injEq] at hget
      exact hget.1 ▸ hcached
  | none =>
      simp only [hf, Option.bind_eq_bind, Option.bind_eq_some_iff, Option.some.injEq,
        Prod.mk.injEq] at hget
      obtain ⟨l, hcompute, rfl, -⟩ := hget
      refine ⟨⟨hcached.known.numbered, hcached.known.listed, hcached.known.distinct⟩,
        hcached.nodup, le_rfl, fun q hq => ⟨⟨q, hq, rfl⟩, ?_⟩⟩
      rcases List.mem_append.mp hq with hq | hq
      · exact (hcached.lists q hq).2.congr rfl fun _ _ _ => rfl
      · obtain rfl := List.mem_singleton.mp hq
        refine (Store.lists_computeQuery hcached.known hcached.nodup hcompute).congr rfl ?_
        intro k d hd
        change entry ctx w.store w.ents f d =
          entryWith ctx (w.store.getArchetypeOf w.ents) (w.store.freshArchetype + 1) f d
        exact Store.entry_eq (hm.metasLive hsize) (numbered hl) hm.acyclic hd

/-- The lists have what `E` gives, and the tests of the cached queries are as they were. -/
structure Relisted (ctx : Context) (E : ArchetypeFilter → Archetype → Option (Option Mask))
    (w w' : World) : Prop where
  caches : ∃ N, Caches ctx E w.HasQuery N w'.store
  tests : ∀ f, w.HasQuery f → ∀ k d, w'.store.archetype k = some d →
    test ctx w'.store w'.ents f d = test ctx w.store w.ents f d

/-- A call after which the entities of `S` are of type `key`. -/
theorem Relisted.of_regraphed {S : Entity → Prop} [DecidablePred S]
    (hr : Regraphed w w' S key.metatypes g) (hm : w.Metas) (hm' : w'.Metas) (hw : Orderly ctx w)
    (hw' : Orderly ctx w') (hsize : w.ents.size < 2 ^ 24) (hsize' : w'.ents.size < 2 ^ 24)
    (hms : ∀ m ∈ key.metatypes, ∃ h, w.LivesIn m h) (hS : w.FreeBelow S key.metatypes)
    (hcaches : Caches ctx E w.HasQuery w.store.freshArchetype w.store)
    (hcaches' : Caches ctx E w.HasQuery (w.store.freshArchetype + 1) w'.store)
    (hb : ∀ x, w'.store.archetype g = some x → x = b)
    (hsame : ∀ q ∈ w.store.queries, ∀ k d, w.store.archetype k = some d →
      matchWith (w.movedTo S b) (w.store.freshArchetype + 2) q.includeClean q.includeDisabled
          q.filter d =
        w.store.matchCache w.ents q.includeClean q.includeDisabled q.filter d) :
    Relisted ctx E w w' := by
  refine ⟨⟨_, hcaches'⟩, ?_⟩
  rintro f ⟨q, hq, rfl⟩ k d hd
  have hlists := (hcaches.lists q hq).2
  refine hr.test_eq hm hm' hw.listed hw'.listed hsize hsize' hms hS hcaches'.fresh hb ?_ hd
  rw [← hlists.includeClean, ← hlists.includeDisabled]
  exact hsame q hq

/-- A call that frees the entities of a slice. -/
theorem Relisted.of_release (hm : w.Metas) (hm' : w'.Metas) (hw : Orderly ctx w)
    (hw' : Orderly ctx w') (hsize : w.ents.size < 2 ^ 24) (hsize' : w'.ents.size < 2 ^ 24)
    (hv : w.ValidSlice s) (hcaches : Caches ctx E w.HasQuery w.store.freshArchetype w.store)
    (harch : w.archetypeOf s.c = some (g, a))
    (hE : ∀ f, w.HasQuery f → ∀ g a, w.store.archetype g = some a →
      test ctx w.store w.ents f a = some false → E f a = some none)
    (hstay : ∀ k d, w'.store.archetype k = some d → ∀ m ∈ d.metatypes, ∀ h, w.LivesIn m h →
      w'.LivesIn m h) (hs : w.release s = some w') : Relisted ctx E w w' := by
  have ha := (archetypeOf_eq_some.mp harch).2
  refine ⟨⟨_, caches_release hm hw hsize hv hcaches harch (fun f hf => hE f hf g a ha) hs⟩, ?_⟩
  intro f _ k d hd
  exact test_of_shrink hm hm' hw.listed hw'.listed hsize hsize' (older_release hs)
    (renewed_release hs).fresh hstay hd

/-- The lists after a call name what they named, and the tests are as they were. -/
theorem relisted_step (hctx : ctx.Built) (hreg : ctx.tracks.length < 2 ^ 30) (hm : w.Metas)
    (hw : Orderly ctx w) (hv : op.Valid w) (hp : op.Orderly ctx w) (hk : op.KeepsMetas ctx w)
    (hq : op.KeepsTests ctx w) (hop : ∀ f, op ≠ .query f)
    (hcaches : Caches ctx E w.HasQuery w.store.freshArchetype w.store)
    (hE : ∀ f, w.HasQuery f → ∀ g a, w.store.archetype g = some a →
      test ctx w.store w.ents f a = some false → E f a = some none)
    (hnew : ∀ key a, op.Seeks ctx w key → w.store.findArchetype key = none →
      constructArchetype ctx key = some a → ∀ q ∈ w.store.queries, ∀ r,
        test ctx w.store w.ents q.filter a = some r →
          E q.filter a = some (if r then some 0 else none))
    (hs : op.run ctx fuel w = some w') (hsize' : w'.ents.size < 2 ^ 24) :
    Relisted ctx E w w' := by
  have hw' := hw.step hctx hreg hv hp hs
  have hm' := hm.step hctx hreg hw hv hp hk hs hsize'
  have hsize := (aged_step hp.noGroup hs).size_le.trans_lt hsize'
  have hstay : ∀ e h, w.LivesIn e h → (∀ s, op.slice = some s → e ∉ w.handles s) →
      w'.LivesIn e h := fun e h => livesIn_step hctx hreg hw hv hp hs hsize'
  have hlists : ∀ key w₁ g, op.Seeks ctx w key → w.getArchetype ctx key = some (w₁, g) →
      (∀ m ∈ key.metatypes, ∃ h, w.LivesIn m h) →
      Caches ctx E w.HasQuery (w.store.freshArchetype + 1) w₁.store :=
    fun key w₁ g hkey hget hms =>
      hm.caches_getArchetype hw.listed hsize hms hcaches (fun a => hnew key a hkey) hget
  -- a call that takes no slice
  have hmake : ∀ key w₁ g, op.slice = none → op.Seeks ctx w key →
      w.getArchetype ctx key = some (w₁, g) → (∀ m ∈ key.metatypes, ∃ h, w.LivesIn m h) →
      Store.SameMap w₁.store w'.store →
      Relisted ctx E w w' := by
    intro key w₁ g hslice hkey hget hms hsame
    obtain ⟨-, hext, -, -, b, hb, -⟩ := hw.sound.getArchetype hget
    have hr : Regraphed w w' (fun _ => False) key.metatypes g := by
      refine .of_getArchetype hw hget (Store.Older.of_eq hsame.archetype) fun e h hlives => ?_
      exact hstay e h hlives fun s hop => by simp [hslice] at hop
    refine .of_regraphed (b := b) hr hm hm' hw hw' hsize hsize' hms
      ⟨fun _ _ => id, fun _ _ _ _ _ _ _ _ _ _ => id⟩ hcaches
      ((hlists key w₁ g hkey hget hms).congr hsame) (fun x hx => ?_) fun q _ k d hd => ?_
    · rw [hsame.archetype, hb] at hx
      exact (Option.some.inj hx).symm
    · have hmoved : w.movedTo (fun _ => False) b = w.store.getArchetypeOf w.ents := by
        funext e
        simp [movedTo]
      rw [hmoved, Store.matchCache_eq]
      exact Store.matchWith_congr
        (Store.sharedWith_succ (hm.metasLive hsize) (numbered hw.listed) hm.acyclic hd)
  -- one that frees the entities of a slice
  have hrelease : ∀ s g a, op.slice = some s → w.ValidSlice s → w.NoMetas s →
      w.archetypeOf s.c = some (g, a) → w.release s = some w' →
      Relisted ctx E w w' := by
    intro s g a hslice hv hno harch hrel
    refine .of_release hm hm' hw hw' hsize hsize' hv hcaches harch hE ?_ hrel
    intro k d hd m hmem h hlives
    refine hstay m h hlives fun t ht he => ?_
    obtain rfl := Option.some.inj (hslice.symm.trans ht)
    exact hno m he k d (older_release hrel k d hd) hmem
  -- one that gives them another type
  have hmove : ∀ s key w₁ g b, w.getArchetype ctx key = some (w₁, g) →
      (∀ m ∈ key.metatypes, ∃ h, w.LivesIn m h) →
      w.FreeBelow (fun e => e ∈ w.handles s) key.metatypes → w.SameTests ctx s key →
      Regraphed w w' (fun e => e ∈ w.handles s) key.metatypes g →
      w₁.store.archetype g = some b → Store.Older w₁.store w'.store →
      Caches ctx E w.HasQuery (w.store.freshArchetype + 1) w'.store →
      Relisted ctx E w w' := by
    intro s key w₁ g b hget hms hS htests hr hb hold hcaches'
    obtain ⟨-, -, -, -, b', hb', htype⟩ := hw.sound.getArchetype hget
    obtain rfl := Option.some.inj (hb.symm.trans hb')
    obtain ⟨st, hst, rfl⟩ := getArchetype_eq_some hget
    have hbuilt := ((hw.listed.getArchetype hst).1.built g b hb).2
    rw [htype] at hbuilt
    refine .of_regraphed hr hm hm' hw hw' hsize hsize' hms hS hcaches hcaches' (fun x hx => ?_)
      (htests b hbuilt)
    exact Option.some.inj ((hold g x hx).symm.trans hb)
  have hcast : ∀ s key w₁ g ss, op.slice = some s → w.ValidSlice s → SortedTypes key.types →
      op.Seeks ctx w key → w.getArchetype ctx key = some (w₁, g) →
      (∀ m ∈ key.metatypes, ∃ h, w.LivesIn m h) →
      w.FreeBelow (fun e => e ∈ w.handles s) key.metatypes → w.SameTests ctx s key →
      w₁.castTo ctx fuel s (some g) = some (w', ss) →
      Relisted ctx E w w' := by
    intro s key w₁ g ss hslice hv hsorted hkey hget hms hS htests hcast
    obtain ⟨hm₁, hw₁, hsize₁, hext, b, hb⟩ := hm.getArchetype hctx hreg hw hsize hsorted hms hget
    obtain ⟨srcG, hc⟩ := Option.ne_none_iff_exists'.mp hv.typed
    obtain ⟨srcA, ha⟩ := hw.listed.alive s.c srcG hc
    have hsrc := (Carried.of_extended (i := 0) (archetypeOf_eq_some.mpr ⟨hc, ha⟩) hext).after
    refine hmove s key w₁ g b hget hms hS htests (.of_castTo hctx hw hw' hsorted hv hget hcast ?_)
      hb (older_castTo hcast) ?_
    · exact fun e h hlives hout => hstay e h hlives fun t ht =>
        Option.some.inj (hslice.symm.trans ht) ▸ hout
    · exact caches_castTo hm₁ hw₁ hsize₁ (hv.extend hext) (hlists key w₁ g hkey hget hms) hsrc
        (fun f hf h => hE f hf srcG srcA ha ((hm.test_getArchetype hw hsize hget ha).symm.trans h))
        hctx hcast
  cases op with
  | allocate type count =>
      obtain ⟨⟨_, ss⟩, hrun, rfl⟩ := Option.map_eq_some_iff.mp hs
      simp only [World.allocate, Option.bind_eq_bind, Option.bind_eq_some_iff] at hrun
      obtain ⟨⟨w₁, g⟩, hget, hrun⟩ := hrun
      obtain ⟨-, hw₁, -, -, b, hb⟩ := hm.getArchetype hctx hreg hw hsize hp.keys hk hget
      exact hmake type w₁ g rfl rfl hget hk (sameMap_allocateLoop hw₁.listed hb hrun)
  | instantiate src count => exact hk.elim
  | destroy s =>
      obtain ⟨g, a, harch, ⟨-, rfl⟩ | ⟨hclean, hdead, hrel⟩ | ⟨hclean, hdead, st, g', b, ss, hget,
        hext, hl, -, hb, -, hg, hcast⟩⟩ :=
          destroy_moves hctx hw (memberless_of_noGroup hp.noGroup) hs
      · exact ⟨⟨_, hcaches⟩, fun _ _ _ _ _ => rfl⟩
      · exact hrelease s g a rfl hv (hk g a harch hclean hdead) harch hrel
      · have ha := (archetypeOf_eq_some.mp harch).2
        have hms : ∀ m ∈ (cleaningKey ctx a).metatypes, ∃ h, w.LivesIn m h := hm.live g a ha
        have hkey : Op.Seeks ctx w (.destroy s) (cleaningKey ctx a) :=
          ⟨g, a, harch, hclean, hdead, rfl⟩
        obtain ⟨hm₁, hw₁, hsize₁, -⟩ := hm.getArchetype hctx hreg hw hsize
          ((hw.sorted g a ha).cleaning hctx) hms hget
        have hsrc := (Carried.of_extended (i := 0) harch hext).after
        obtain ⟨-, hslice⟩ := castSlice_moves hctx hl (hv.extend hext) hsrc hb hg hcast
        refine hmove s _ _ g' b hget hms (freeBelow_own hm hw hsize hv harch)
          (hq g a harch hclean hdead)
          (.of_recast hw hw' hget (older_castSlice hcast) hslice ?_) hb (older_castSlice hcast) ?_
        · exact fun e h hlives hout => hstay e h hlives fun t ht => Option.some.inj ht ▸ hout
        · exact caches_castSlice hm₁ hw₁ hsize₁ (hv.extend hext) (hlists _ _ g' hkey hget hms) hsrc
            (fun f hf h => hE f hf g a ha ((hm.test_getArchetype hw hsize hget ha).symm.trans h))
            hctx hb hg hcast
  | cast s diff =>
      obtain ⟨⟨_, ss⟩, hrun, rfl⟩ := Option.map_eq_some_iff.mp hs
      simp only [World.cast, Option.bind_eq_bind, Option.bind_eq_some_iff] at hrun
      obtain ⟨⟨g, a⟩, harch, ⟨w₁, target⟩, hcasted, hrun⟩ := hrun
      have hk' := hk g a harch
      rcases getCasted_cases hcasted with ⟨rfl, rfl, hfrees⟩ | ⟨g', rfl, hget, hfrees⟩
      · rw [hfrees rfl, if_pos rfl] at hk'
        exact hrelease s g a rfl hv hk' harch (castTo_none hrun)
      · rw [hfrees rfl, if_neg Bool.false_ne_true] at hk'
        have hsorted : SortedTypes (castedType ctx a diff false).types :=
          (hw.sorted g a (archetypeOf_eq_some.mp harch).2).casted hreg hp.keys
        exact hcast s _ w₁ g' ss rfl hv hsorted ⟨g, a, harch, hfrees rfl, rfl⟩ hget hk'.1 hk'.2
          (hq g a harch (hfrees rfl)) hrun
  | castType s type =>
      obtain ⟨⟨_, ss⟩, hrun, rfl⟩ := Option.map_eq_some_iff.mp hs
      simp only [World.castType, Option.bind_eq_bind, Option.bind_eq_some_iff] at hrun
      obtain ⟨⟨w₁, g⟩, hget, hrun⟩ := hrun
      exact hcast s type w₁ g ss rfl hv hp.keys rfl hget hk.1 hk.2 hq hrun
  | getArchetype type =>
      obtain ⟨⟨_, g⟩, hrun, rfl⟩ := Option.map_eq_some_iff.mp hs
      exact hmake type _ g rfl rfl hrun hk (Store.SameMap.refl _)
  | query f => exact absurd rfl (hop f)
  | write memory =>
      obtain rfl := Option.some.inj hs
      exact ⟨⟨_, hcaches⟩, fun _ _ _ _ _ => rfl⟩

theorem Cached.step (hctx : ctx.Built) (hreg : ctx.tracks.length < 2 ^ 30)
    (hcached : w.Cached ctx) (hm : w.Metas) (hw : Orderly ctx w) (hv : op.Valid w)
    (hp : op.Orderly ctx w) (hk : op.KeepsMetas ctx w) (hq : op.KeepsQueries ctx w)
    (hs : op.run ctx fuel w = some w') (hsize' : w'.ents.size < 2 ^ 24) : w'.Cached ctx := by
  have hsize := (aged_step hp.noGroup hs).size_le.trans_lt hsize'
  by_cases hop : ∃ f, op = .query f
  · obtain ⟨f, rfl⟩ := hop
    obtain ⟨⟨_, q⟩, hrun, rfl⟩ := Option.map_eq_some_iff.mp hs
    exact hcached.query hm hw.listed hsize hrun
  · have hnew : ∀ key a, op.Seeks ctx w key → w.store.findArchetype key = none →
        constructArchetype ctx key = some a → ∀ q ∈ w.store.queries, ∀ r,
          test ctx w.store w.ents q.filter a = some r →
            entry ctx w.store w.ents q.filter a = some (if r then some 0 else none) := by
      intro key a hkey hf ha q hq' r hr
      cases r with
      | false => exact Store.entry_of_false hr
      | true =>
          -- no type of the new archetype is asked for, so its mask is empty
          have hlists := (hcached.lists q hq').2
          have hasked := newUnasked_of_seeks hq hkey a hf ha q hq'
          rw [hlists.includeClean, hlists.includeDisabled,
            hm.matchCache_newArchetype hw.listed hsize (metas_of_seeks hm hk hkey) ha] at hasked
          have hmask : a.getMask (Set.merge q.filter.all.types q.filter.any.types) = some 0 :=
            maskFrom_disjoint (hasked hr) 0
          rw [test] at hr
          rw [entry, entryWith, hr, Option.bind_eq_bind, Option.bind_some, if_pos rfl, hmask]
          rfl
    obtain ⟨⟨N, hcaches⟩, htests⟩ := relisted_step hctx hreg hm hw hv hp hk
      (keepsTests_of_keepsQueries hq) (fun f hf => hop ⟨f, hf⟩) hcached
      (fun f _ g a _ h => Store.entry_of_false h) hnew hs hsize'
    exact hcaches.now fun f hf k d hd => Store.entry_congr (htests f hf k d hd)

theorem cached_initial (timestamp : Nat) (raw : Nat → Nat) (data : ChunkId → Mem)
    (guids : Nat → List UInt8) : (World.initial timestamp raw data guids).Cached ctx where
  known := ⟨by simp [World.initial], by simp [World.initial], by simp [World.initial]⟩
  nodup := List.nodup_nil
  fresh := le_rfl
  lists := by simp [World.initial]

theorem cached_of_reachable (hctx : ctx.Built) (hreg : ctx.tracks.length < 2 ^ 30)
    (hreach : Reachable ctx (fun w op => op.Orderly ctx w ∧ op.KeepsMetas ctx w ∧
      op.KeepsQueries ctx w) w) (hsize : w.ents.size < 2 ^ 24) :
    Orderly ctx w ∧ w.Metas ∧ w.Cached ctx := by
  suffices hinv : Orderly ctx w ∧ (w.ents.size < 2 ^ 24 → w.Metas ∧ w.Cached ctx) from
    ⟨hinv.1, hinv.2 hsize⟩
  refine hreach.invariant
    (I := fun v => Orderly ctx v ∧ (v.ents.size < 2 ^ 24 → v.Metas ∧ v.Cached ctx)) ?_ ?_
  · intro timestamp raw data guids
    exact ⟨orderly_initial ctx timestamp raw data guids,
      fun _ => ⟨metas_initial timestamp raw data guids, cached_initial timestamp raw data guids⟩⟩
  · rintro v op fuel v' hv ⟨hp, hk, hq⟩ hs ⟨hord, hinv⟩
    refine ⟨hord.step hctx hreg hv hp hs, fun hlt => ?_⟩
    obtain ⟨hm, hcached⟩ := hinv ((aged_step hp.noGroup hs).size_le.trans_lt hlt)
    exact ⟨hm.step hctx hreg hord hv hp hk hs hlt,
      hcached.step hctx hreg hm hord hv hp hk hq hs hlt⟩

/-- In every run that keeps the lists current, a query for a cached filter returns what a query
for it would find afresh, in some order. -/
theorem query_eq_fresh (hctx : ctx.Built) (hreg : ctx.tracks.length < 2 ^ 30)
    (hreach : Reachable ctx (fun w op => op.Orderly ctx w ∧ op.KeepsMetas ctx w ∧
      op.KeepsQueries ctx w) w) (hsize : w.ents.size < 2 ^ 24)
    (hf : ∃ q ∈ w.store.queries, q.filter = f) :
    ∃ q found, w.query ctx f = some (w, q) ∧
      Store.computeQuery ctx w.store w.ents f = some found ∧ q.archetypes.Perm found := by
  obtain ⟨hw, hm, hcached⟩ := cached_of_reachable hctx hreg hreach hsize
  cases hfind : w.store.queries.find? fun q => decide (q.filter = f) with
  | none =>
      obtain ⟨q, hq, hfilter⟩ := hf
      exact absurd (decide_eq_true hfilter) (List.find?_eq_none.mp hfind q hq)
  | some q =>
      obtain rfl : q.filter = f := by simpa using List.find?_some hfind
      have hlists := (hcached.lists q (List.mem_of_find?_eq_some hfind)).2
      obtain ⟨found, hfound, hperm⟩ := (hlists.congr rfl fun g a ha =>
        (Store.entry_eq (hm.metasLive hsize) (numbered hw.listed) hm.acyclic ha).symm).perm
          hcached.known hcached.nodup
      refine ⟨q, found, ?_, hfound, hperm⟩
      simp only [World.query, Store.getQueryCache, hfind, Option.bind_eq_bind, Option.bind_some]

/-- An entity, a query for its type, and one that has it as a metatype. -/
def inheriting : Option World :=
  runAll narrowWide 2 blank [.allocate { types := [5] } 1, .query (typesFilter [5]),
    .allocate { types := [4], metatypes := [⟨0⟩] } 1]

theorem query_eq_fresh_inheriting : ∃ w q found, inheriting = some w ∧
    w.query narrowWide (typesFilter [5]) = some (w, q) ∧
    Store.computeQuery narrowWide w.store w.ents (typesFilter [5]) = some found ∧
    q.archetypes.Perm found := by
  have hfacts : ((runAll narrowWide 2 blank [.allocate { types := [5] } 1,
      .query (typesFilter [5])]).bind fun w =>
        (Op.run narrowWide 2 w (.allocate { types := [4], metatypes := [⟨0⟩] } 1)).map fun w' =>
          ((w.store.type 0, w.store.count 0, w.memory.entityAt 0 0), w'.ents.size,
            w.store.queries.map QueryCache.filter, w'.store.queries.map QueryCache.filter)) =
      some ((some 0, 1, ⟨0⟩), 2, [typesFilter [5]], [typesFilter [5]]) := by decide +kernel
  obtain ⟨w, hw, hfacts⟩ := Option.bind_eq_some_iff.mp hfacts
  obtain ⟨w', hw', hfacts⟩ := Option.map_eq_some_iff.mp hfacts
  simp only [Prod.mk.injEq] at hfacts
  obtain ⟨⟨htype, hcount, hhandle⟩, hsize, hfilters, hfilters'⟩ := hfacts
  have hrun : inheriting = some w' := by
    simp only [inheriting, runAll, List.foldlM_cons, List.foldlM_nil, Option.bind_eq_bind,
      Option.bind_eq_some_iff] at hw ⊢
    obtain ⟨v, hv, u, hu, huw⟩ := hw
    exact ⟨v, hv, u, hu, w', Option.some.inj huw ▸ hw', rfl⟩
  have hreach : Reachable narrowWide (fun w op => op.Orderly narrowWide w ∧
      op.KeepsMetas narrowWide w ∧ op.KeepsQueries narrowWide w) w := by
    simp only [runAll, List.foldlM_cons, List.foldlM_nil, Option.bind_eq_bind,
      Option.bind_eq_some_iff] at hw
    obtain ⟨v, hv, u, hu, huw⟩ := hw
    obtain rfl := Option.some.inj huw
    refine ((reachable_blank narrowWide _).step (.allocate { types := [5] } 1) trivial ?_ hv).step
      (.query (typesFilter [5])) trivial ?_ hu
    · exact ⟨⟨trivial, trivial, trivial, by decide, by decide⟩,
        fun _ hm => absurd hm List.not_mem_nil, fun _ _ _ _ hq => absurd hq List.not_mem_nil⟩
    · exact ⟨⟨trivial, trivial, trivial, trivial⟩, trivial, trivial⟩
  have hord : Orderly narrowWide w :=
    orderly_of_reachable built_narrowWide (by decide) (hreach.mono fun _ _ => And.left)
  have hlives : w.LivesIn ⟨0⟩ 0 := by
    obtain ⟨a, ha⟩ := hord.listed.alive 0 0 htype
    have hfound := hord.sound.found (c := 0) (i := 0) ⟨by simp [htype], by simp [hcount]⟩
    rw [hhandle] at hfound
    exact ⟨0, 0, a, hfound, archetypeOf_eq_some.mpr ⟨htype, ha⟩⟩
  have hnew : w.NewUnasked narrowWide { types := [4], metatypes := [⟨0⟩] } := by
    intro a _ ha q hq _ t ht
    have hfilter : q.filter = typesFilter [5] := by
      have hmem := List.mem_map_of_mem (f := QueryCache.filter) hq
      rwa [hfilters, List.mem_singleton] at hmem
    have htypes : a.types = [4] := congrArg EntityType.types (constructArchetype_type ha)
    rw [hfilter] at ht
    rw [htypes]
    revert t
    decide
  have hreach' := hreach.step (.allocate { types := [4], metatypes := [⟨0⟩] } 1) trivial
    ⟨⟨trivial, trivial, trivial, by decide, by decide⟩, ?_, hnew⟩ hw'
  · obtain ⟨q, hq, hfilter⟩ := List.mem_map.mp (hfilters' ▸ List.mem_singleton_self _)
    obtain ⟨q', found, hquery⟩ := query_eq_fresh built_narrowWide (by decide) hreach' (by omega)
      ⟨q, hq, hfilter⟩
    exact ⟨w', q', found, hrun, hquery⟩
  · intro m hm
    obtain rfl := List.mem_singleton.mp hm
    exact ⟨0, hlives⟩

/-- The archetype of a new entity is in the list without the type that is asked for. -/
theorem not_query_eq_fresh : ∃ w q found,
    Reachable narrowWide (fun w op => op.Orderly narrowWide w ∧ op.KeepsMetas narrowWide w) w ∧
    w.ents.size < 2 ^ 24 ∧ (∃ q ∈ w.store.queries, q.filter = typesFilter [4]) ∧
    (w.query narrowWide (typesFilter [4])).map Prod.snd = some q ∧
    Store.computeQuery narrowWide w.store w.ents (typesFilter [4]) = some found ∧
    ¬ q.archetypes.Perm found := by
  have hfacts : ((runAll narrowWide 2 blank [.query (typesFilter [4]),
      .allocate { types := [4] } 1]).bind fun w =>
        (w.query narrowWide (typesFilter [4])).bind fun r =>
          (Store.computeQuery narrowWide w.store w.ents (typesFilter [4])).map fun found =>
            (w.ents.size, w.store.queries.map QueryCache.filter, r.2.archetypes, found)) =
      some (1, [typesFilter [4]], [{ type := 0 }], [{ type := 0, matched := 1 }]) := by
    decide +kernel
  obtain ⟨w, hw, hfacts⟩ := Option.bind_eq_some_iff.mp hfacts
  obtain ⟨⟨w₁, q⟩, hquery, hfacts⟩ := Option.bind_eq_some_iff.mp hfacts
  obtain ⟨found, hfound, hfacts⟩ := Option.map_eq_some_iff.mp hfacts
  simp only [Prod.mk.injEq] at hfacts
  obtain ⟨hsize, hfilters, hcached, hfresh⟩ := hfacts
  have hreach : Reachable narrowWide
      (fun w op => op.Orderly narrowWide w ∧ op.KeepsMetas narrowWide w) w := by
    refine (reachable_blank narrowWide _).runAll (fun op hop v => ?_) hw
    rcases List.mem_pair.mp hop with rfl | rfl
    · exact ⟨trivial, ⟨trivial, trivial, trivial, trivial⟩, trivial⟩
    · exact ⟨trivial, ⟨trivial, trivial, trivial, by decide, by decide⟩,
        fun _ hm => absurd hm List.not_mem_nil⟩
  refine ⟨w, q, found, hreach, by omega, ?_, by rw [hquery]; rfl, hfound, ?_⟩
  · exact List.mem_map.mp (hfilters ▸ List.mem_singleton_self _)
  · rw [hcached, hfresh, List.perm_singleton]
    simp

end World

end Dots

import Dots.Database.Lookup
import Dots.Database.Resolving

/-!
# Metatypes along a run

Entities may be destroyed, and may change their archetype, while other archetypes have them
as metatypes. The metatypes can be followed for as long as no call destroys one, names one
that is gone, or gives an entity a metatype that is above it.
-/

namespace Dots

open Library Entities

namespace World

variable {ctx : Context} {w w' w₁ : World} {g h srcG : ArchetypeId} {a b srcA : Archetype}
  {c : ChunkId} {s src : ChunkSlice} {fuel n k i : Nat} {e : Entity} {ms : List Entity}

/-- `e` is alive, and its archetype is `g`. -/
def LivesIn (w : World) (e : Entity) (g : ArchetypeId) : Prop :=
  ∃ c i a, w.Found e c i ∧ w.archetypeOf c = some (g, a)

/-- Every metatype is alive, and no archetype is below itself. -/
structure Metas (w : World) : Prop where
  live : ∀ g a, w.store.archetype g = some a → ∀ m ∈ a.metatypes, ∃ h, w.LivesIn m h
  acyclic : w.store.Acyclic w.ents

theorem LivesIn.archetype (h : w.LivesIn e g) : ∃ a, w.store.archetype g = some a := by
  obtain ⟨c, i, a, -, harch⟩ := h
  exact ⟨a, (archetypeOf_eq_some.mp harch).2⟩

theorem archetypeIdOf_of_slot {V : Slots} (h : Sound ctx V w) (hsize : w.ents.size < 2 ^ 24)
    (hocc : w.store.Occupied c i) (hV : ¬ V c i) (hc : w.store.type c = some g) :
    w.store.archetypeIdOf w.ents (w.memory.entityAt c i) = some g := by
  obtain ⟨hid, hentry⟩ := (h.tracks hsize).entry c i ⟨hocc, hV⟩
  have hexist : w.ents.exist (w.memory.entityAt c i) = true := by
    simp [Entities.exist, hid, hentry]
  simp only [Store.archetypeIdOf, hexist, if_true, hentry]
  exact hc

theorem LivesIn.archetypeIdOf (h : w.LivesIn e g) (hsize : w.ents.size < 2 ^ 24) :
    w.store.archetypeIdOf w.ents e = some g := by
  obtain ⟨c, i, a, hfound, harch⟩ := h
  obtain ⟨hexist, hloc, -⟩ := hfound.entry hsize
  simp only [Store.archetypeIdOf, hexist, if_true, hloc]
  exact (archetypeOf_eq_some.mp harch).1

theorem LivesIn.getArchetypeOf (h : w.LivesIn e g) (hsize : w.ents.size < 2 ^ 24) :
    w.store.getArchetypeOf w.ents e ≠ none := by
  obtain ⟨b, hb⟩ := h.archetype
  rw [Store.getArchetypeOf_eq_some.mpr ⟨g, h.archetypeIdOf hsize, hb⟩]
  exact Option.some_ne_none b

theorem Metas.metasLive (h : w.Metas) (hsize : w.ents.size < 2 ^ 24) :
    w.store.MetasLive w.ents := by
  intro g a ha m hm
  obtain ⟨j, hlives⟩ := h.live g a ha m hm
  exact hlives.getArchetypeOf hsize

theorem Metas.spares (h : w.Metas) (hsize : w.ents.size < 2 ^ 24)
    (harch : ∀ k b, w.store.archetype k = some b → w'.store.archetype k = some b)
    (hfresh : w.store.freshArchetype ≤ w'.store.freshArchetype)
    (hids : ∀ m k, w.LivesIn m k → k ≠ g → w'.store.archetypeIdOf w'.ents m = some k) :
    Store.Spares w.store w.ents g w'.store w'.ents where
  archetype := harch
  fresh := hfresh
  ids k d hd m hm j hid hj := by
    obtain ⟨j', hlives⟩ := h.live k d hd m hm
    obtain rfl := Option.some.inj ((hlives.archetypeIdOf hsize).symm.trans hid)
    exact hids m j' hlives hj

/-! ## Calls from a world whose metatypes can be followed -/

theorem numbered (hl : w.store.Listed ctx) : w.store.Numbered :=
  fun g a ha => (hl.built g a ha).1

/-- The slots of other archetypes are not in the slice. -/
theorem not_slots_of_ne (harch : w.archetypeOf c = some (h, b))
    (hsrc : w.archetypeOf s.c = some (g, a)) (hne : h ≠ g) : ¬ Slots.of s c i := by
  rintro ⟨rfl, -⟩
  exact hne (Prod.mk.inj (Option.some.inj (harch.symm.trans hsrc))).1

/-- What `free_entities` leaves where it was. -/
theorem Metas.spares_freeEntities (hm : w.Metas) (hw : Orderly ctx w) (hsize : w.ents.size < 2 ^ 24)
    (hv : w.ValidSlice s) (hsrc : w.archetypeOf s.c = some (g, a))
    (hfree : w.freeEntities s = some w₁) :
    Store.Spares w.store w.ents g w₁.store w₁.ents := by
  obtain ⟨hstore, hmem, hsizes⟩ := freeEntities_store hfree
  have hsound := hw.sound.freeEntities hv hfree
  apply hm.spares hsize
  · rw [hstore]
    exact fun _ _ => id
  · rw [hstore]
  · rintro m k ⟨c, i, b, hfound, harch⟩ hk
    have hid := archetypeIdOf_of_slot (g := k) hsound (hsizes ▸ hsize)
      (hstore ▸ hfound.occupied) (not_slots_of_ne harch hsrc hk)
      (hstore ▸ (archetypeOf_eq_some.mp harch).1)
    rwa [hmem, hfound.handle] at hid

/-- What the loop of `cast_slice` leaves where it was. -/
theorem Metas.spares_castLoop (hctx : ctx.Built) (hm : w.Metas) (hsound : Sound ctx nowhere w)
    (hl : w.store.Listed ctx) (hsize : w.ents.size < 2 ^ 24) (hv : w.ValidSlice s)
    (hsrc : w.archetypeOf s.c = some (srcG, srcA)) (ha : w.store.archetype g = some a)
    (hg : srcG ≠ g) {ss : List ChunkSlice}
    (hloop : castLoop ctx s g fuel 0 (w.castStart srcG srcA s) = some (w', ss)) :
    Store.Spares w.store w.ents srcG w'.store w'.ents ∧ w'.store.Listed ctx ∧
      w'.store.type s.c = some srcG ∧ w'.ValidSlice s := by
  have hmask : ctx.maskId < 3 * 2 ^ 30 := by
    rw [hctx.ids.2.2.2]
    decide
  obtain ⟨hc, hsrcA⟩ := archetypeOf_eq_some.mp hsrc
  have hshape := w.castStart_shape srcG srcA s
  have hmoving := (Moving.start hl hv hsrc ha).castLoop hctx hg hloop
  have hcasting := (hsound.casting hv ha hc srcG srcA).castLoop hmask hg hloop
  obtain ⟨harchs, hfresh, hsizes⟩ :=
    castLoop_same (hl.congr hshape) (hshape.archetype ▸ ha) hloop
  have hc' := (archetypeOf_eq_some.mp hmoving.source).1
  refine ⟨?_, hmoving.listed, hc', hc' ▸ Option.some_ne_none srcG, hv.pos, hmoving.le⟩
  apply hm.spares hsize
  · rw [harchs, hshape.archetype]
    exact fun _ _ => id
  · rw [hfresh, hshape.freshArchetype]
  · rintro m k ⟨c, i, b, hfound, harch⟩ hk
    have harch₁ : (w.castStart srcG srcA s).archetypeOf c = some (k, b) := by
      obtain ⟨hck, hkb⟩ := archetypeOf_eq_some.mp harch
      exact archetypeOf_eq_some.mpr ⟨hshape.type ▸ hck, hshape.archetype ▸ hkb⟩
    obtain ⟨hocc, hcar⟩ := hmoving.kept c i k b harch₁
      ((occupied_congr hshape.type hshape.count c i).mpr hfound.occupied)
    have hid := archetypeIdOf_of_slot hcasting.sound (hsizes ▸ hsize) hocc
      (not_slots_of_ne harch hsrc hk) (archetypeOf_eq_some.mp hcar.after).1
    have hhandle : w'.memory.entityAt c i = m := hcar.handle.trans hfound.handle
    rwa [hhandle] at hid

theorem releaseResolves (hm : w.Metas) (hw : Orderly ctx w) (hsize : w.ents.size < 2 ^ 24)
    (hv : w.ValidSlice s) : w.CastToResolves ctx fuel s none := by
  intro w₁ hfree
  obtain ⟨g, hc⟩ := Option.ne_none_iff_exists'.mp hv.typed
  obtain ⟨a, ha⟩ := hw.listed.alive s.c g hc
  have hstore := (freeEntities_store hfree).1
  have hspares := hm.spares_freeEntities hw hsize hv (archetypeOf_eq_some.mpr ⟨hc, ha⟩) hfree
  exact freeSliceResolves (hm.metasLive hsize) (numbered hw.listed) hm.acyclic hspares
    (hstore ▸ hw.listed) ⟨hstore ▸ hv.typed, hv.pos, hstore ▸ hv.le⟩ (hstore ▸ hc) ha

theorem castSliceResolves (hctx : ctx.Built) (hm : w.Metas) (hsound : Sound ctx nowhere w)
    (hl : w.store.Listed ctx) (hsize : w.ents.size < 2 ^ 24) (hv : w.ValidSlice s)
    (hsrc : w.archetypeOf s.c = some (srcG, srcA)) (ha : w.store.archetype g = some a)
    (hg : srcG ≠ g) : w.CastSliceResolves ctx fuel s g := by
  have hsrcA := (archetypeOf_eq_some.mp hsrc).2
  intro srcG' srcA' harch w₁
  obtain ⟨rfl, rfl⟩ := Prod.mk.inj (Option.some.inj (hsrc.symm.trans harch))
  have hshape : Store.SameShape w.store w₁.store := w.castStart_shape srcG srcA s
  have hl₁ : w₁.store.Listed ctx := hl.congr hshape
  have ha₁ : w₁.store.archetype g = some a := hshape.archetype ▸ ha
  have hn := numbered hl
  refine ⟨castLoopResolves hl₁ ha₁ ?_, fun w' ss hloop => ?_⟩
  · exact ((Store.Spares.refl w.store w.ents g).congr hshape).allocateSlice hl₁
      (hm.metasLive hsize) hn hm.acyclic ha _
  · obtain ⟨hspares, hl', hc', hv'⟩ :=
      hm.spares_castLoop hctx hsound hl hsize hv hsrc ha hg hloop
    exact freeSliceResolves (hm.metasLive hsize) hn hm.acyclic hspares hl' hv' hc' hsrcA

theorem castToResolves (hctx : ctx.Built) (hm : w.Metas) (hsound : Sound ctx nowhere w)
    (hl : w.store.Listed ctx) (hsize : w.ents.size < 2 ^ 24) (hv : w.ValidSlice s)
    (g : ArchetypeId) : w.CastToResolves ctx fuel s (some g) := by
  intro srcG srcA a hsrc ha hg
  split_ifs
  · obtain ⟨hc, hsrcA⟩ := archetypeOf_eq_some.mp hsrc
    exact (Store.Spares.refl w.store w.ents srcG).removeChunk (hm.metasLive hsize) (numbered hl)
      hm.acyclic hsrcA hc
  · exact castSliceResolves hctx hm hsound hl hsize hv hsrc ha hg

/-! ## The graph after a call -/

/-- The only new archetype may be `g`, with metatypes `ms`; the entities of `S` go there, and
the other metatypes stay. -/
structure Regraphed (w w' : World) (S : Entity → Prop) (ms : List Entity) (g : ArchetypeId) :
    Prop where
  archetype : ∀ h b, w'.store.archetype h = some b → w.store.archetype h = some b ∨
    h = g ∧ w.store.archetype h = none ∧ b.metatypes = ms
  target : ∀ b, w.store.archetype g = some b → b.metatypes = ms
  others : ∀ e h, w.LivesIn e h → ¬ S e → w'.LivesIn e h
  moved : ∀ e, S e → w'.LivesIn e g

/-- No archetype below the metatypes `ms`, and not `ms` itself, has a metatype in `S`. -/
structure FreeBelow (w : World) (S : Entity → Prop) (ms : List Entity) : Prop where
  metas : ∀ m ∈ ms, ¬ S m
  below : ∀ m ∈ ms, ∀ h k d, w.LivesIn m h → w.store.Inherits w.ents k h →
    w.store.archetype k = some d → ∀ e ∈ d.metatypes, ¬ S e

theorem Metas.regraph {S : Entity → Prop} (hm : w.Metas) (hsize : w.ents.size < 2 ^ 24)
    (hsize' : w'.ents.size < 2 ^ 24) (hr : Regraphed w w' S ms g)
    (hms : ∀ m ∈ ms, ∃ h, w.LivesIn m h) (hS : w.FreeBelow S ms) : w'.Metas := by
  -- where a metatype is now
  have hnow : ∀ m h x, w.LivesIn m h → w'.store.archetypeIdOf w'.ents m = some x →
      S m ∧ x = g ∨ ¬ S m ∧ x = h := by
    intro m h x hlives hid
    by_cases hin : S m
    · refine Or.inl ⟨hin, ?_⟩
      exact Option.some.inj (hid.symm.trans ((hr.moved m hin).archetypeIdOf hsize'))
    · refine Or.inr ⟨hin, ?_⟩
      exact Option.some.inj (hid.symm.trans ((hr.others m h hlives hin).archetypeIdOf hsize'))
  have hedge : ∀ m h y d, w.LivesIn m h → w.store.archetype y = some d → m ∈ d.metatypes →
      w.store.MetaOf w.ents h y := by
    intro m h y d hlives hd hmem
    obtain ⟨b, hb⟩ := hlives.archetype
    exact ⟨d, b, m, hd, hmem, hlives.archetypeIdOf hsize, hb⟩
  constructor
  · intro k a ha m hmem
    have hlives : ∃ h, w.LivesIn m h := by
      rcases hr.archetype k a ha with hold | ⟨-, -, hnew⟩
      · exact hm.live k a hold m hmem
      · exact hms m (hnew ▸ hmem)
    obtain ⟨h, hlives⟩ := hlives
    by_cases hin : S m
    · exact ⟨g, hr.moved m hin⟩
    · exact ⟨h, hr.others m h hlives hin⟩
  · refine acyclic_of_redirect (g := g)
      (B := fun x => ∃ m ∈ ms, ∃ h, w.LivesIn m h ∧ w.store.Inherits w.ents x h) hm.acyclic
      ?_ ?_ ?_ ?_
    · -- an edge apart from `g` was there
      rintro x y ⟨a, b, m, ha, hmem, hid, hb⟩ hx hy
      have ha' := (hr.archetype y a ha).resolve_right fun h => hy h.1
      obtain ⟨h, hlives⟩ := hm.live y a ha' m hmem
      rcases hnow m h x hlives hid with ⟨-, rfl⟩ | ⟨-, rfl⟩
      · exact absurd rfl hx
      · exact hedge m x y a hlives ha' hmem
    · rintro x ⟨a, b, m, ha, hmem, hid, hb⟩
      have hmetas : a.metatypes = ms := by
        rcases hr.archetype g a ha with hold | ⟨-, -, hnew⟩
        · exact hr.target a hold
        · exact hnew
      rw [hmetas] at hmem
      obtain ⟨h, hlives⟩ := hms m hmem
      rcases hnow m h x hlives hid with ⟨hin, -⟩ | ⟨-, rfl⟩
      · exact absurd hin (hS.metas m hmem)
      · exact ⟨m, hmem, x, hlives, .refl⟩
    · rintro x y ⟨m₀, hm₀, h₀, hlives₀, hinh⟩ ⟨a, b, m, ha, hmem, hid, hb⟩
      have hy : ∃ d, w.store.archetype y = some d := by
        rcases Relation.ReflTransGen.cases_head hinh with rfl | ⟨-, ⟨-, b, -, -, -, -, hb⟩, -⟩
        · exact hlives₀.archetype
        · exact ⟨b, hb⟩
      obtain ⟨d, hd⟩ := hy
      have ha' := (hr.archetype y a ha).resolve_right fun h => by simp [hd] at h
      obtain ⟨h, hlives⟩ := hm.live y a ha' m hmem
      rcases hnow m h x hlives hid with ⟨hin, -⟩ | ⟨-, rfl⟩
      · exact absurd hin (hS.below m₀ hm₀ h₀ y a hlives₀ hinh ha' m hmem)
      · exact ⟨m₀, hm₀, h₀, hlives₀, hinh.head (hedge m x y a hlives ha' hmem)⟩
    · rintro ⟨m, hmem, h, hlives, hinh⟩
      have hg : ∃ d, w.store.archetype g = some d := by
        rcases Relation.ReflTransGen.cases_head hinh with rfl | ⟨-, ⟨-, b, -, -, -, -, hb⟩, -⟩
        · exact hlives.archetype
        · exact ⟨b, hb⟩
      obtain ⟨d, hd⟩ := hg
      have hmd : m ∈ d.metatypes := by
        rw [hr.target d hd]
        exact hmem
      exact hm.acyclic g (Relation.TransGen.tail' hinh (hedge m h g d hlives hd hmd))

/-- Archetypes are freed, and those that are left have their metatypes. -/
theorem Metas.shrink (hm : w.Metas) (hsize : w.ents.size < 2 ^ 24)
    (hsize' : w'.ents.size < 2 ^ 24) (hold : Store.Older w.store w'.store)
    (hstay : ∀ k d, w.store.archetype k = some d → ∀ m ∈ d.metatypes, ∀ h, w.LivesIn m h →
      w'.LivesIn m h) : w'.Metas := by
  constructor
  · intro k a ha m hmem
    obtain ⟨h, hlives⟩ := hm.live k a (hold k a ha) m hmem
    exact ⟨h, hstay k a (hold k a ha) m hmem h hlives⟩
  · intro g hcycle
    refine hm.acyclic g (Relation.TransGen.mono ?_ g g hcycle)
    rintro x y ⟨a, b, m, ha, hmem, hid, hb⟩
    obtain ⟨h, hlives⟩ := hm.live y a (hold y a ha) m hmem
    have hlives' := hstay y a (hold y a ha) m hmem h hlives
    obtain rfl := Option.some.inj (hid.symm.trans (hlives'.archetypeIdOf hsize'))
    exact ⟨a, b, m, hold y a ha, hmem, hlives.archetypeIdOf hsize, hold x b hb⟩

/-! ## What each call does to it -/

/-- The archetypes after `get_archetype`. -/
theorem archetypes_of_getArchetype {key : EntityType} (hn : w.store.Numbered)
    (hs : w.getArchetype ctx key = some (w₁, g)) (hb : w₁.store.archetype h = some b) :
    w.store.archetype h = some b ∨
      h = g ∧ w.store.archetype h = none ∧ b.metatypes = key.metatypes := by
  obtain ⟨st, hget, rfl⟩ := getArchetype_eq_some hs
  unfold Store.getArchetype at hget
  cases hf : w.store.findArchetype key with
  | some g' =>
      simp only [hf, Option.some.injEq, Prod.mk.injEq] at hget
      exact Or.inl (hget.1 ▸ hb)
  | none =>
      simp only [hf, Option.bind_eq_bind, Option.bind_eq_some_iff, Option.some.injEq,
        Prod.mk.injEq, Store.addArchetype] at hget
      obtain ⟨a, ha, st₂, ⟨st₁, hup, rfl⟩, rfl, rfl⟩ := hget
      change st₁.archetype h = some b at hb
      rw [(Store.updateQueries_shape hup).archetype, Store.newArchetype_archetype] at hb
      split_ifs at hb with hg
      · obtain rfl := Option.some.inj hb
        refine Or.inr ⟨hg, ?_, congrArg EntityType.metatypes (constructArchetype_type ha)⟩
        cases hold : w.store.archetype h with
        | none => rfl
        | some d => exact absurd hg (hn h d hold).ne
      · exact Or.inl hb

/-- The target that `get_archetype` finds has the metatypes of its key. -/
theorem target_of_getArchetype {key : EntityType} (hw : Sound ctx nowhere w)
    (hs : w.getArchetype ctx key = some (w₁, g)) (hb : w.store.archetype g = some b) :
    b.metatypes = key.metatypes := by
  obtain ⟨-, hext, -, -, a, ha, htype⟩ := hw.getArchetype hs
  obtain rfl := Option.some.inj ((hext.archetype g b hb).symm.trans ha)
  exact congrArg EntityType.metatypes htype

theorem livesIn_of_mem (hw : Orderly ctx w) (hv : w.ValidSlice s)
    (harch : w.archetypeOf s.c = some (g, a)) (he : e ∈ w.handles s) : w.LivesIn e g := by
  obtain ⟨j, hj, rfl⟩ := mem_handles.mp he
  have hle := hv.le
  exact ⟨s.c, s.start + j, a, hw.sound.found ⟨hv.typed, by omega⟩, harch⟩

/-- The metatypes of an archetype are not among its entities, nor are theirs. -/
theorem freeBelow_own (hm : w.Metas) (hw : Orderly ctx w) (hsize : w.ents.size < 2 ^ 24)
    (hv : w.ValidSlice s) (harch : w.archetypeOf s.c = some (g, a)) :
    w.FreeBelow (fun e => e ∈ w.handles s) a.metatypes := by
  have ha := (archetypeOf_eq_some.mp harch).2
  -- an entity of the slice that is a metatype of `k`
  have hedge : ∀ k d, w.store.archetype k = some d → ∀ e ∈ d.metatypes, e ∈ w.handles s →
      w.store.MetaOf w.ents g k := by
    intro k d hd e hmem he
    exact ⟨d, a, e, hd, hmem, (livesIn_of_mem hw hv harch he).archetypeIdOf hsize, ha⟩
  constructor
  · intro m hmem he
    exact hm.acyclic g (.single (hedge g a ha m hmem he))
  · intro m hmem h k d hlives hinh hd e hmem' he
    obtain ⟨b, hb⟩ := hlives.archetype
    have hlast : w.store.MetaOf w.ents h g :=
      ⟨a, b, m, ha, hmem, hlives.archetypeIdOf hsize, hb⟩
    exact hm.acyclic g (.head' (hedge k d hd e hmem' he) (hinh.tail hlast))

/-- No entity of the slice is a metatype. -/
def NoMetas (w : World) (s : ChunkSlice) : Prop :=
  ∀ e ∈ w.handles s, ∀ k d, w.store.archetype k = some d → e ∉ d.metatypes

end World

/-- What keeps the metatypes in order: new types have metatypes that are alive, an entity does
not become one that is above its own metatypes, and no metatype is destroyed. A `destroy` that
leaves dead ones behind destroys nothing. -/
def Op.KeepsMetas (ctx : Context) (w : World) : Op → Prop
  | .allocate type _ | .getArchetype type => ∀ m ∈ type.metatypes, ∃ h, w.LivesIn m h
  | .castType s type =>
      (∀ m ∈ type.metatypes, ∃ h, w.LivesIn m h) ∧
        w.FreeBelow (fun e => e ∈ w.handles s) type.metatypes
  | .cast s diff => ∀ g a, w.archetypeOf s.c = some (g, a) →
      if World.castFrees ctx a diff then w.NoMetas s
      else
        (∀ m ∈ (World.castedType ctx a diff false).metatypes, ∃ h, w.LivesIn m h) ∧
          w.FreeBelow (fun e => e ∈ w.handles s) (World.castedType ctx a diff false).metatypes
  | .destroy s => ∀ g a, w.archetypeOf s.c = some (g, a) → a.cleaning = false →
      World.leavesDead ctx a = false → w.NoMetas s
  | .instantiate _ _ => False
  | .query _ | .write _ => True

namespace World

variable {ctx : Context} {w w' w₁ : World} {g h : ArchetypeId} {a b : Archetype} {s : ChunkSlice}
  {fuel n : Nat} {e : Entity} {op : Op}

/-- The entities that a call does not name stay in their archetype. -/
theorem livesIn_step (hctx : ctx.Built) (hreg : ctx.tracks.length < 2 ^ 30)
    (hw : Orderly ctx w) (hv : op.Valid w) (hp : op.Orderly ctx w)
    (hs : op.run ctx fuel w = some w') (hsize : w'.ents.size < 2 ^ 24) (hlives : w.LivesIn e g)
    (hout : ∀ s, op.slice = some s → e ∉ w.handles s) : w'.LivesIn e g := by
  obtain ⟨c, i, a, hfound, harch⟩ := hlives
  obtain ⟨d, j, hfound', harch'⟩ := found_step hctx hreg hw (hw.step hctx hreg hv hp hs) hv hp hs
    hsize hfound harch hout
  exact ⟨d, j, a, hfound', harch'⟩

/-- A call that only makes entities leaves the metatypes where they are. -/
theorem Regraphed.of_getArchetype {key : EntityType} (hw : Orderly ctx w)
    (hget : w.getArchetype ctx key = some (w₁, g)) (hold : Store.Older w₁.store w'.store)
    (hstay : ∀ e h, w.LivesIn e h → w'.LivesIn e h) :
    Regraphed w w' (fun _ => False) key.metatypes g where
  archetype h b hb := archetypes_of_getArchetype (numbered hw.listed) hget (hold h b hb)
  target _ := target_of_getArchetype hw.sound hget
  others e h hlives _ := hstay e h hlives
  moved _ := False.elim

/-- The entities of a slice go to an archetype that was found or made. -/
theorem Regraphed.of_recast {key : EntityType} (hw : Orderly ctx w) (hw' : Orderly ctx w')
    (hget : w.getArchetype ctx key = some (w₁, g)) (hold : Store.Older w₁.store w'.store)
    (hslice : ∀ j < s.count, ∃ d i, Recast noColumn w₁ s a j g b w' d i)
    (hothers : ∀ e h, w.LivesIn e h → e ∉ w.handles s → w'.LivesIn e h) :
    Regraphed w w' (fun e => e ∈ w.handles s) key.metatypes g where
  archetype h b hb :=
    archetypes_of_getArchetype (numbered hw.listed) hget (hold h b hb)
  target b := target_of_getArchetype hw.sound hget
  others := hothers
  moved e he := by
    obtain ⟨-, -, -, hmem, -⟩ := hw.sound.getArchetype hget
    obtain ⟨j, hj, rfl⟩ := mem_handles.mp he
    obtain ⟨d, i, hre⟩ := hslice j hj
    have hfound := hw'.sound.found hre.occupied
    rw [hre.handle, hmem] at hfound
    exact ⟨d, i, b, hfound, hre.after⟩

/-- A cast, once its target is there. -/
theorem Regraphed.of_castTo (hctx : ctx.Built) {key : EntityType} {ss : List ChunkSlice}
    (hw : Orderly ctx w) (hw' : Orderly ctx w') (hkey : SortedTypes key.types)
    (hv : w.ValidSlice s) (hget : w.getArchetype ctx key = some (w₁, g))
    (hs : w₁.castTo ctx fuel s (some g) = some (w', ss))
    (hothers : ∀ e h, w.LivesIn e h → e ∉ w.handles s → w'.LivesIn e h) :
    Regraphed w w' (fun e => e ∈ w.handles s) key.metatypes g := by
  obtain ⟨g₀, hc₀⟩ := Option.ne_none_iff_exists'.mp hv.typed
  obtain ⟨a₀, ha₀⟩ := hw.listed.alive s.c g₀ hc₀
  obtain ⟨-, hext, -, -, a, ha, -⟩ := hw.sound.getArchetype hget
  obtain ⟨st, hst, rfl⟩ := getArchetype_eq_some hget
  have hsrc := (Carried.of_extended (i := 0) (archetypeOf_eq_some.mpr ⟨hc₀, ha₀⟩) hext).after
  obtain ⟨-, hslice⟩ := castTo_moves hctx (hw.listed.getArchetype hst).1 hw'.listed
    (hw.sorted.getArchetype hkey hst) (hv.extend hext) hsrc ha hs
  exact .of_recast hw hw' hget (older_castTo hs) hslice hothers

theorem Metas.step (hctx : ctx.Built) (hreg : ctx.tracks.length < 2 ^ 30) (hm : w.Metas)
    (hw : Orderly ctx w) (hv : op.Valid w) (hp : op.Orderly ctx w) (hk : op.KeepsMetas ctx w)
    (hs : op.run ctx fuel w = some w') (hsize' : w'.ents.size < 2 ^ 24) : w'.Metas := by
  have hw' := hw.step hctx hreg hv hp hs
  have hsize := (aged_step hp.noGroup hs).size_le.trans_lt hsize'
  have hstay : ∀ e h, w.LivesIn e h → (∀ s, op.slice = some s → e ∉ w.handles s) →
      w'.LivesIn e h := fun e h => livesIn_step hctx hreg hw hv hp hs hsize'
  -- a call that takes no slice
  have hmake : ∀ key w₁ g, op.slice = none → w.getArchetype ctx key = some (w₁, g) →
      (∀ m ∈ key.metatypes, ∃ h, w.LivesIn m h) → Store.Older w₁.store w'.store → w'.Metas := by
    intro key w₁ g hslice hget hms hold
    refine hm.regraph hsize hsize' (.of_getArchetype hw hget hold fun e h hlives => ?_) hms
      ⟨fun _ _ => id, fun _ _ _ _ _ _ _ _ _ _ => id⟩
    exact hstay e h hlives fun s hop => by simp [hslice] at hop
  -- one that frees the entities of a slice
  have hrelease : ∀ s, op.slice = some s → w.NoMetas s → w.release s = some w' → w'.Metas := by
    intro s hslice hno hrel
    refine hm.shrink hsize hsize' (older_release hrel) fun k d hd m hmem h hlives =>
      hstay m h hlives fun t ht he => ?_
    obtain rfl := Option.some.inj (hslice.symm.trans ht)
    exact hno m he k d hd hmem
  have hsame : op.slice = none → w'.store.archetype = w.store.archetype → w'.Metas := by
    intro hslice harch
    refine hm.shrink hsize hsize' (Store.Older.of_eq harch) fun k d _ m _ h hlives =>
      hstay m h hlives fun s hop => by simp [hslice] at hop
  cases op with
  | allocate type count =>
      obtain ⟨⟨_, ss⟩, hrun, rfl⟩ := Option.map_eq_some_iff.mp hs
      simp only [World.allocate, Option.bind_eq_bind, Option.bind_eq_some_iff] at hrun
      obtain ⟨⟨w₁, g⟩, hget, hrun⟩ := hrun
      refine hmake type w₁ g rfl hget hk ?_
      refine allocateLoop_invariant (I := fun v => Store.Older w₁.store v.store) ?_
        (Store.Older.refl _) hrun
      intro v v₁ v₂ n s g' a hv _ halloc _ hnew
      obtain ⟨st, hst, rfl⟩ := allocateSlice_eq_some.mp halloc
      exact (newEntities_store hnew).1 ▸ hv.trans (Store.older_allocateSlice hst)
  | instantiate src count => exact hk.elim
  | destroy s =>
      obtain ⟨g, a, harch, ⟨-, rfl⟩ | ⟨hclean, hdead, hrel⟩ | ⟨-, -, st, g', b, ss, hget, hext, hl,
        -, hb, hkey, hg, hcast⟩⟩ := destroy_moves hctx hw (memberless_of_noGroup hp.noGroup) hs
      · exact hm
      · exact hrelease s rfl (hk g a harch hclean hdead) hrel
      · have hsrc := (Carried.of_extended (i := 0) harch hext).after
        obtain ⟨-, hslice⟩ := castSlice_moves hctx hl (hv.extend hext) hsrc hb hg hcast
        have hms : ∀ m ∈ (cleaningKey ctx a).metatypes, ∃ h, w.LivesIn m h :=
          hm.live g a (archetypeOf_eq_some.mp harch).2
        refine hm.regraph hsize hsize' (.of_recast hw hw' hget
          (older_castSlice hcast) hslice ?_) hms (freeBelow_own hm hw hsize hv harch)
        exact fun e h hlives hout => hstay e h hlives fun t ht => Option.some.inj ht ▸ hout
  | cast s diff =>
      obtain ⟨⟨_, ss⟩, hrun, rfl⟩ := Option.map_eq_some_iff.mp hs
      simp only [World.cast, Option.bind_eq_bind, Option.bind_eq_some_iff] at hrun
      obtain ⟨⟨g, a⟩, harch, ⟨w₁, target⟩, hcasted, hrun⟩ := hrun
      have hk' := hk g a harch
      rcases getCasted_cases hcasted with ⟨rfl, rfl, hfrees⟩ | ⟨g', rfl, hget, hfrees⟩
      · rw [hfrees rfl, if_pos rfl] at hk'
        exact hrelease s rfl hk' (castTo_none hrun)
      · rw [hfrees rfl, if_neg Bool.false_ne_true] at hk'
        have hkey : SortedTypes (castedType ctx a diff false).types :=
          (hw.sorted g a (archetypeOf_eq_some.mp harch).2).casted hreg hp.keys
        refine hm.regraph hsize hsize' (.of_castTo hctx hw hw' hkey hv hget hrun ?_) hk'.1 hk'.2
        exact fun e h hlives hout => hstay e h hlives fun t ht => Option.some.inj ht ▸ hout
  | castType s type =>
      obtain ⟨⟨_, ss⟩, hrun, rfl⟩ := Option.map_eq_some_iff.mp hs
      simp only [World.castType, Option.bind_eq_bind, Option.bind_eq_some_iff] at hrun
      obtain ⟨⟨w₁, g⟩, hget, hrun⟩ := hrun
      refine hm.regraph hsize hsize' (.of_castTo hctx hw hw' hp.keys hv hget hrun ?_) hk.1 hk.2
      exact fun e h hlives hout => hstay e h hlives fun t ht => Option.some.inj ht ▸ hout
  | getArchetype type =>
      obtain ⟨⟨_, g⟩, hrun, rfl⟩ := Option.map_eq_some_iff.mp hs
      exact hmake type _ g rfl hrun hk (Store.Older.refl _)
  | query f =>
      obtain ⟨⟨_, q⟩, hrun, rfl⟩ := Option.map_eq_some_iff.mp hs
      obtain ⟨queries, rfl⟩ := query_eq_some hrun
      exact hsame rfl rfl
  | write memory =>
      obtain rfl := Option.some.inj hs
      exact hsame rfl rfl

/-! ## What each call resolves -/

/-- A target that was found or made for a key whose metatypes are alive. -/
theorem Metas.getArchetype (hctx : ctx.Built) (hreg : ctx.tracks.length < 2 ^ 30) (hm : w.Metas)
    (hw : Orderly ctx w) (hsize : w.ents.size < 2 ^ 24) {key : EntityType}
    (hkey : SortedTypes key.types) (hms : ∀ m ∈ key.metatypes, ∃ h, w.LivesIn m h)
    (hget : w.getArchetype ctx key = some (w₁, g)) :
    w₁.Metas ∧ Orderly ctx w₁ ∧ w₁.ents.size < 2 ^ 24 ∧ Store.Extended w.store w₁.store ∧
      ∃ b, w₁.store.archetype g = some b := by
  obtain ⟨-, hext, hents, -, b, hb, -⟩ := hw.sound.getArchetype hget
  have hv : (Op.getArchetype key).Valid w := trivial
  have hp : (Op.getArchetype key).Orderly ctx w := ⟨trivial, trivial, trivial, hkey⟩
  have hrun : (Op.getArchetype key).run ctx 0 w = some w₁ := by simp [Op.run, hget]
  have hsize₁ : w₁.ents.size < 2 ^ 24 := hents ▸ hsize
  exact ⟨hm.step hctx hreg hw hv hp hms hrun hsize₁, hw.step hctx hreg hv hp hrun, hsize₁, hext,
    b, hb⟩

theorem Metas.resolvesKey (hm : w.Metas) (hw : Orderly ctx w) (hsize : w.ents.size < 2 ^ 24)
    {key : EntityType} (hms : ∀ m ∈ key.metatypes, ∃ h, w.LivesIn m h) :
    w.store.GetArchetypeResolves ctx w.ents key := by
  apply Store.getArchetypeResolves (hm.metasLive hsize) (numbered hw.listed) hm.acyclic
  intro m hmem
  obtain ⟨h, hlives⟩ := hms m hmem
  exact hlives.getArchetypeOf hsize

/-- From a world whose metatypes can be followed, a call that keeps them so resolves all it has
to. -/
theorem Metas.resolves (hctx : ctx.Built) (hreg : ctx.tracks.length < 2 ^ 30) (hm : w.Metas)
    (hw : Orderly ctx w) (hsize : w.ents.size < 2 ^ 24) (hv : op.Valid w)
    (hp : op.Orderly ctx w) (hk : op.KeepsMetas ctx w) : op.Resolves ctx fuel w := by
  cases op with
  | allocate type count =>
      refine ⟨hm.resolvesKey hw hsize hk, fun w₁ g hget => ?_⟩
      obtain ⟨hm₁, hw₁, hsize₁, -, a, ha⟩ := hm.getArchetype hctx hreg hw hsize hp.keys hk hget
      apply allocateLoopResolves hw₁.listed ha
      exact (Store.Spares.refl _ _ g).allocateSlice hw₁.listed (hm₁.metasLive hsize₁)
        (numbered hw₁.listed) hm₁.acyclic ha count
  | instantiate src count => trivial
  | destroy s =>
      intro g a harch hclean
      have ha := (archetypeOf_eq_some.mp harch).2
      split_ifs with hdead
      · have hms : ∀ m ∈ (cleaningKey ctx a).metatypes, ∃ h, w.LivesIn m h := hm.live g a ha
        refine ⟨hm.resolvesKey hw hsize hms, fun w₁ g' hget => ?_⟩
        have hkey : SortedTypes (cleaningKey ctx a).types := (hw.sorted g a ha).cleaning hctx
        obtain ⟨hm₁, hw₁, hsize₁, hext, b, hb⟩ :=
          hm.getArchetype hctx hreg hw hsize hkey hms hget
        have hsrc := (Carried.of_extended (i := 0) harch hext).after
        exact castSliceResolves hctx hm₁ hw₁.sound hw₁.listed hsize₁ (hv.extend hext) hsrc hb
          (hw.sound.dead_ne hctx ha hclean hget)
      · exact releaseResolves hm hw hsize hv
  | cast s diff =>
      intro g a harch
      have hk' := hk g a harch
      have hkey : SortedTypes (castedType ctx a diff false).types :=
        (hw.sorted g a (archetypeOf_eq_some.mp harch).2).casted hreg hp.keys
      constructor
      · intro hfrees
        rw [hfrees, if_neg Bool.false_ne_true] at hk'
        exact hm.resolvesKey hw hsize hk'.1
      · intro w₁ target hcasted
        rcases getCasted_cases hcasted with ⟨rfl, rfl, -⟩ | ⟨g', rfl, hget, hfrees⟩
        · exact releaseResolves hm hw hsize hv
        · rw [hfrees rfl, if_neg Bool.false_ne_true] at hk'
          obtain ⟨hm₁, hw₁, hsize₁, hext, -⟩ :=
            hm.getArchetype hctx hreg hw hsize hkey hk'.1 hget
          exact castToResolves hctx hm₁ hw₁.sound hw₁.listed hsize₁ (hv.extend hext) g'
  | castType s type =>
      refine ⟨hm.resolvesKey hw hsize hk.1, fun w₁ g hget => ?_⟩
      obtain ⟨hm₁, hw₁, hsize₁, hext, -⟩ := hm.getArchetype hctx hreg hw hsize hp.keys hk.1 hget
      exact castToResolves hctx hm₁ hw₁.sound hw₁.listed hsize₁ (hv.extend hext) g
  | getArchetype type => exact hm.resolvesKey hw hsize hk
  | query f =>
      exact Store.queryResolves (hm.metasLive hsize) (numbered hw.listed) hm.acyclic f
  | write memory => trivial

theorem metas_initial (timestamp : Nat) (raw : Nat → Nat) (data : ChunkId → Mem)
    (guids : Nat → List UInt8) : (World.initial timestamp raw data guids).Metas where
  live := by simp [World.initial]
  acyclic g hcycle := by
    obtain ⟨-, -, a, b, m, ha, -⟩ := Relation.TransGen.tail'_iff.mp hcycle
    simp [World.initial] at ha

/-- In every run of calls that keep the metatypes in order, every call resolves the shared types
it has to, and those of every archetype can be resolved. -/
theorem resolves_of_reachable (hctx : ctx.Built) (hreg : ctx.tracks.length < 2 ^ 30)
    (h : Reachable ctx (fun w op => op.Orderly ctx w ∧ op.KeepsMetas ctx w) w)
    (hsize : w.ents.size < 2 ^ 24) :
    (∀ g a, w.store.archetype g = some a → w.store.Resolves w.ents a) ∧
      ∀ (op : Op) (fuel : Nat), op.Valid w → op.Orderly ctx w → op.KeepsMetas ctx w →
        op.Resolves ctx fuel w := by
  have hw : Orderly ctx w :=
    orderly_of_reachable hctx hreg (h.mono fun _ _ => And.left)
  have hm : w.Metas := by
    suffices hinv : Orderly ctx w ∧ (w.ents.size < 2 ^ 24 → w.Metas) from hinv.2 hsize
    refine h.invariant (I := fun v => Orderly ctx v ∧ (v.ents.size < 2 ^ 24 → v.Metas)) ?_ ?_
    · intro timestamp raw data guids
      exact ⟨orderly_initial ctx timestamp raw data guids,
        fun _ => metas_initial timestamp raw data guids⟩
    · rintro v op fuel v' hv ⟨hp, hk⟩ hs ⟨hord, hmetas⟩
      refine ⟨hord.step hctx hreg hv hp hs, fun hlt => ?_⟩
      have hlt₀ := (aged_step hp.noGroup hs).size_le.trans_lt hlt
      exact (hmetas hlt₀).step hctx hreg hord hv hp hk hs hlt
  refine ⟨fun g a ha => ?_, fun op fuel hv hp hk => hm.resolves hctx hreg hw hsize hv hp hk⟩
  exact Store.resolves_iff.mpr ((Store.Spares.refl _ _ g).sharedType (hm.metasLive hsize)
    (numbered hw.listed) hm.acyclic ha)

/-! ## A metatype and its heir -/

/-- Destroy what is in chunk `c`. -/
def destroyAll (c : ChunkId) : Op := .destroy { c := c, start := 0, count := 1 }

theorem reachable_heir {w : World} (hw : heir = some w) :
    Reachable narrowWide (fun w op => op.Orderly narrowWide w ∧ op.KeepsMetas narrowWide w) w := by
  have hfacts : (runAll narrowWide 2 blank [.allocate { types := [5] } 1]).map (fun w =>
      (w.ents.size, w.store.type 0, w.store.count 0, w.memory.entityAt 0 0)) =
      some (1, some 0, 1, ⟨0⟩) := by decide +kernel
  obtain ⟨w₁, hw₁, hfacts⟩ := Option.map_eq_some_iff.mp hfacts
  simp only [Prod.mk.injEq] at hfacts
  obtain ⟨hsize, htype, hcount, hhandle⟩ := hfacts
  have hreach : Reachable narrowWide
      (fun w op => op.Orderly narrowWide w ∧ op.KeepsMetas narrowWide w) w₁ := by
    refine (reachable_blank narrowWide _).runAll (fun op hop v => ?_) hw₁
    obtain rfl := List.mem_singleton.mp hop
    exact ⟨trivial, ⟨trivial, trivial, trivial, by decide, by decide⟩,
      fun _ hm => absurd hm List.not_mem_nil⟩
  have hord : Orderly narrowWide w₁ :=
    orderly_of_reachable built_narrowWide (by decide) (hreach.mono fun _ _ => And.left)
  have hlives : w₁.LivesIn ⟨0⟩ 0 := by
    obtain ⟨a, ha⟩ := hord.listed.alive 0 0 htype
    have hfound := hord.sound.found (c := 0) (i := 0) ⟨by simp [htype], by simp [hcount]⟩
    rw [hhandle] at hfound
    exact ⟨0, 0, a, hfound, archetypeOf_eq_some.mpr ⟨htype, ha⟩⟩
  have hrun : (Op.allocate { types := [4], metatypes := [⟨0⟩] } 1).run narrowWide 2 w₁ =
      some w := by
    rw [← hw, heir, runAll, List.foldlM_cons]
    simp only [runAll, List.foldlM_cons, List.foldlM_nil, Option.bind_eq_bind,
      Option.bind_eq_some_iff] at hw₁ ⊢
    obtain ⟨v, hv, hvw⟩ := hw₁
    obtain rfl := Option.some.inj hvw
    rw [hv]
    simp
  have hv : (Op.allocate { types := [4], metatypes := [⟨0⟩] } 1).Valid w₁ := trivial
  refine hreach.step _ hv ⟨⟨trivial, trivial, trivial, by decide, by decide⟩, ?_⟩ hrun
  intro m hm
  obtain rfl := List.mem_singleton.mp hm
  exact ⟨0, hlives⟩

/-- The heir is destroyed, and its archetype freed. -/
theorem resolves_heir : ∃ w w', heir = some w ∧
    (destroyAll 1).run narrowWide 2 w = some w' ∧ w'.store.archetype 1 = none ∧
    (destroyAll 1).Resolves narrowWide 2 w := by
  have hfacts : (heir.bind fun w => ((destroyAll 1).run narrowWide 2 w).map fun w' =>
      ((w.ents.size, w.store.type 1, w.store.count 1, w.memory.entityAt 1 0),
        (w.store.archetype 1).map fun a => a.index narrowWide.groupId,
        (w'.store.archetype 1).map Archetype.type)) =
      some ((2, some 1, 1, ⟨256⟩), some invalidIndex, none) := by decide +kernel
  obtain ⟨w, hw, hfacts⟩ := Option.bind_eq_some_iff.mp hfacts
  obtain ⟨w', hw', hfacts⟩ := Option.map_eq_some_iff.mp hfacts
  simp only [Prod.mk.injEq] at hfacts
  obtain ⟨⟨hsize, htype, hcount, hhandle⟩, hgroup, hfreed⟩ := hfacts
  obtain ⟨v, a, b, h⟩ := isHeir
  obtain rfl : w = v := Option.some.inj (hw.symm.trans h.run)
  have hvalid : (destroyAll 1).Valid w := ⟨by simp [htype], by simp, by simp [hcount]⟩
  have hno : w.NoMetas { c := 1, start := 0, count := 1 } := by
    intro e he k d hd hmem
    obtain ⟨j, hj, rfl⟩ := mem_handles.mp he
    obtain rfl := Nat.lt_one_iff.mp hj
    rw [Nat.add_zero, hhandle] at hmem
    rcases h.only k d hd with ⟨-, rfl⟩ | ⟨-, rfl⟩
    · simp [Archetype.metatypes, h.typeB] at hmem
    · simp [Archetype.metatypes, h.typeA] at hmem
  exact ⟨w, w', hw, hw', Option.map_eq_none_iff.mp hfreed,
    (resolves_of_reachable built_narrowWide (by decide) (reachable_heir hw) (by omega)).2
      (destroyAll 1) 2 hvalid (orderly_destroy htype hgroup) fun _ _ _ _ _ => hno⟩

/-- The metatype is destroyed first: the next query follows it. -/
theorem not_resolves_orphan : ∃ w, heir.bind ((destroyAll 0).run narrowWide 2) = some w ∧
    Reachable narrowWide (fun w op => op.Orderly narrowWide w) w ∧ w.ents.size = 2 ∧
    ¬ (Op.query {}).Resolves narrowWide 0 w := by
  have hfacts : (heir.bind fun w => ((destroyAll 0).run narrowWide 2 w).map fun w' =>
      ((w.store.type 0, w.store.count 0),
        (w.store.archetype 0).map fun a => a.index narrowWide.groupId,
        w'.ents.size, w'.store.archetypes, [w'.store.queries.isEmpty,
          (w'.store.archetype 1).any fun a => (w'.store.sharedType w'.ents a).isNone])) =
      some ((some 0, 1), some invalidIndex, 2, [1], [true, true]) := by decide +kernel
  obtain ⟨w, hw, hfacts⟩ := Option.bind_eq_some_iff.mp hfacts
  obtain ⟨w', hw', hfacts⟩ := Option.map_eq_some_iff.mp hfacts
  simp only [Prod.mk.injEq, List.cons.injEq, and_true] at hfacts
  obtain ⟨⟨htype, hcount⟩, hgroup, hsize, harchs, hqueries, hshared⟩ := hfacts
  have hvalid : (destroyAll 0).Valid w := ⟨by simp [htype], by simp, by simp [hcount]⟩
  have hreach : Reachable narrowWide (fun w op => op.Orderly narrowWide w) w' :=
    ((reachable_heir hw).mono fun _ _ => And.left).step _ hvalid (orderly_destroy htype hgroup) hw'
  refine ⟨w', Option.bind_eq_some_iff.mpr ⟨w, hw, hw'⟩, hreach, hsize, fun hresolves => ?_⟩
  obtain ⟨a, ha, hnone⟩ := (Option.any_eq_true ..).mp hshared
  have hnil : w'.store.queries = [] := List.isEmpty_iff.mp hqueries
  exact (hresolves (by rw [hnil]; rfl) 1 (by simp [harchs]) a ha).2
    (Option.isNone_iff_eq_none.mp hnone)

end World

end Dots

import Dots.Database.Undisturbed

/-!
# New entities

`allocate` and `instantiate` put entities into slots that were not in use. The slots in
use keep their entities; after `allocate` their components as well.
-/

namespace Dots

open Library Entities

/-- The bytes of the handles of a slice. -/
def HandlesOf (s : ChunkSlice) (x : Nat) : Prop :=
  sizeofEntity * s.start ≤ x ∧ x < sizeofEntity * (s.start + s.count)

namespace World

variable {K : Watched} {ctx : Context} {w w₁ w' : World} {g h : ArchetypeId} {a b : Archetype}
  {c : ChunkId} {i : Nat} {s : ChunkSlice}

/-! ## `new_entities` -/

theorem newEntities_sameOff {ents ents' : Entities} {n slot : Nat} {m m' : Mem}
    (hs : Entities.newEntities c n slot ents m = some (ents', m')) :
    Mem.SameOff (HandlesOf { c := c, start := slot, count := n }) m m' := by
  induction n generalizing slot ents m with
  | zero =>
      obtain ⟨-, rfl⟩ := Prod.mk.inj (Option.some.inj hs)
      exact .refl _ _
  | succ n ih =>
      simp only [Entities.newEntities, Option.bind_eq_bind, Option.bind_eq_some_iff] at hs
      obtain ⟨⟨ents₁, e⟩, -, hs⟩ := hs
      have hone : Mem.SameOff (HandlesOf { c := c, start := slot, count := n + 1 }) m
          (Mem.writeEntity m slot e) := by
        apply Mem.SameOff.writeWord
        intro x hlo hhi
        refine ⟨hlo, hhi.trans_le ?_⟩
        simp only [sizeofEntity]
        omega
      refine hone.trans ((ih hs).mono fun x hx => ?_)
      simp only [HandlesOf, sizeofEntity] at hx ⊢
      omega

theorem newEntities_writes (hs : w.newEntities s = some w') :
    Memory.Writes s.c (HandlesOf s) w.memory w'.memory := by
  simp only [World.newEntities, Option.bind_eq_bind, Option.bind_eq_some_iff] at hs
  obtain ⟨⟨ents, m⟩, hnew, hs⟩ := hs
  rw [← Option.some.inj hs]
  exact Memory.Writes.setData (newEntities_sameOff hnew)

/-- The handles of a slice are in front of all cells, and after the handles before it. -/
theorem Carried.of_newEntities (hb : w.archetypeOf c = some (h, b)) (hl : Layout b)
    (hout : c = s.c → i < s.start ∧ s.start + s.count ≤ b.chunkCapacity (w.store.ct c))
    (hs : w.newEntities s = some w') : Carried everyColumn h b w c i w' c i := by
  have hw := newEntities_writes hs
  obtain ⟨hstore, -⟩ := newEntities_store hs
  refine ⟨hb, ?_, ?_, fun k hk _ => ?_⟩
  · obtain ⟨hc, hb'⟩ := archetypeOf_eq_some.mp hb
    exact archetypeOf_eq_some.mpr ⟨hstore ▸ hc, hstore ▸ hb'⟩
  · exact entityAt_of_writes hw fun hc x hx =>
      (Nat.mul_le_mul_left _ (hout hc).1).trans hx.1
  · rw [hstore]
    apply Memory.cell_of_writes hw
    rintro hc y - ⟨-, hhi⟩
    have hhandles := hl.handles_le (w.store.ct c) k hk
    have hmul := Nat.mul_le_mul_left sizeofEntity (hout hc).2
    simp only [Archetype.address] at hhi
    omega

/-! ## Slices that are filled -/

section Fill

variable {st : Store} {n : Nat} {mm : Memory}

/-- `allocate_slice`, writes to the components of the new slots and `new_entities`. -/
theorem fill_keeps (hl : w.store.Listed ctx) (ha : w.store.archetype g = some a)
    (hall : Store.Allocated w.store st g a s n)
    (hnew : { w with store := st, memory := mm }.newEntities s = some w')
    (hb : w.archetypeOf c = some (h, b)) (hi : w.store.Occupied c i)
    (hdata : World.archetypeOf { w with store := st } c = some (h, b) →
      (c = s.c → b = a ∧ i < s.start) →
      Carried K h b { w with store := st } c i { w with store := st, memory := mm } c i) :
    w'.store.Occupied c i ∧ Carried K h b w c i w' c i := by
  obtain ⟨hc, hbs⟩ := archetypeOf_eq_some.mp hb
  obtain ⟨hstore, -⟩ := newEntities_store hnew
  have htype := type_of_allocated hall hi.1
  have hput : Carried everyColumn h b w c i { w with store := st } c i :=
    Carried.of_store hb htype (hall.ct c hi.1) (hall.archetype ▸ hbs)
  have hsame : c = s.c → b = a ∧ i < s.start := by
    rintro rfl
    rw [hall.type, Function.update_self, hc, Option.some.injEq] at htype
    subst htype
    exact ⟨Option.some.inj (hbs.symm.trans ha), (occupied_iff_lt_start hall i).mp hi⟩
  have hwrite := hdata hput.after hsame
  have hhandles := Carried.of_newEntities (i := i) hwrite.after
    (constructArchetype_layout (hl.built h b hbs).2) (fun hcs => by
      obtain ⟨rfl, hlt⟩ := hsame hcs
      subst hcs
      exact ⟨hlt, hall.le⟩) hnew
  refine ⟨?_, (hput.watch.trans hwrite).trans hhandles.watch⟩
  rw [hstore]
  exact (occupied_of_allocated hall c i).mpr (Or.inl hi)

end Fill

/-- A turn of the loop of `allocate`. -/
structure Filled (ctx : Context) (g : ArchetypeId) (a : Archetype) (n : Nat) (w w₁ : World)
    (s : ChunkSlice) (w' : World) : Prop where
  slots : Store.Allocated w.store w'.store g a s n
  listed : w'.store.Listed ctx
  target : w'.store.archetype g = some a
  keeps : ∀ c i h b, w.archetypeOf c = some (h, b) → w.store.Occupied c i →
    w'.store.Occupied c i ∧ Carried (fun _ _ => a.Roomy) h b w c i w' c i
  writes : Memory.Writes s.c (HandlesOf s)
    (w₁.memory.construct ctx a (w'.store.ct s.c) s) w'.memory

theorem Filled.of_turn (hctx : ctx.Built) {n : Nat} {g' : ArchetypeId} {a' : Archetype}
    (hl : w.store.Listed ctx) (ha : w.store.archetype g = some a)
    (halloc : w.allocateSlice g n = some (w₁, s)) (harch : w₁.archetypeOf s.c = some (g', a'))
    (hnew : { w₁ with
      memory := w₁.memory.construct ctx a' (w₁.store.ct s.c) s }.newEntities s = some w') :
    Filled ctx g a n w w₁ s w' := by
  have hm : ctx.maskId < 3 * 2 ^ 30 := by
    rw [hctx.ids.2.2.2]
    decide
  obtain ⟨st, hst, rfl⟩ := allocateSlice_eq_some.mp halloc
  obtain ⟨htype, harch⟩ := archetypeOf_eq_some.mp harch
  have hty : st.type s.c ≠ none := by
    rw [htype]
    exact Option.some_ne_none g'
  obtain ⟨hl', hall⟩ := hl.allocateSlice ha hst hty
  rw [hall.type, Function.update_self, Option.some.injEq] at htype
  subst htype
  rw [hall.archetype, ha, Option.some.injEq] at harch
  subst harch
  have hlayout := constructArchetype_layout (hl.built g a ha).2
  have hle := hall.le
  have hwrites := newEntities_writes hnew
  obtain ⟨hstore, -⟩ := newEntities_store hnew
  exact
    { slots := hstore ▸ hall
      listed := hstore ▸ hl'
      target := by
        rw [hstore]
        exact hall.archetype ▸ ha
      keeps := fun c i h b hb hi => fill_keeps hl ha hall hnew hb hi fun hb' hsame =>
        Carried.of_span hb' hlayout (Memory.construct_writes hm _ hlayout _ s) hle fun hcs => by
          obtain ⟨hba, hlt⟩ := hsame hcs
          have hslot : i < a.chunkCapacity (st.ct s.c) := by omega
          exact ⟨hba, hslot, Or.inl hlt⟩
      writes := by
        rw [hstore]
        exact hwrites }

/-- What the loop of `allocate` keeps of a slot in use. -/
theorem allocateLoop_keeps (hctx : ctx.Built) {fuel n : Nat} {ss : List ChunkSlice}
    (hl : w.store.Listed ctx) (ha : w.store.archetype g = some a)
    (hs : World.allocateLoop ctx g fuel n w = some (w', ss)) (hb : w.archetypeOf c = some (h, b))
    (hi : w.store.Occupied c i) :
    w'.store.Occupied c i ∧ Carried (fun _ _ => a.Roomy) h b w c i w' c i := by
  refine (allocateLoop_invariant (I := fun v => v.store.Listed ctx ∧
    v.store.archetype g = some a ∧ v.store.Occupied c i ∧
      Carried (fun _ _ => a.Roomy) h b w c i v c i) ?_ ⟨hl, ha, hi, .refl hb⟩ hs).2.2
  rintro v v₁ v₂ n s g' a' ⟨hl, ha, hi, hcar⟩ - halloc harch hnew
  have hfill := Filled.of_turn hctx hl ha halloc harch hnew
  obtain ⟨hocc, hkept⟩ := hfill.keeps c i h b hcar.after hi
  exact ⟨hfill.listed, hfill.target, hocc, hcar.trans hkept⟩

/-- What the loop of `instantiate_single` keeps of a slot in use. -/
theorem instantiateLoop_keeps {src : Entity} {t : ChunkSlice} {side : Memory.CastSide}
    {fuel n : Nat} {ss : List ChunkSlice} (hl : w.store.Listed ctx)
    (h₀ : Instantiating ctx src t side g a n w)
    (hs : World.instantiateLoop ctx src g fuel n w = some (w', ss))
    (hsize : w'.ents.size < 2 ^ 24) (hb : w.archetypeOf c = some (h, b))
    (hi : w.store.Occupied c i) :
    w'.store.Occupied c i ∧ Carried (fun _ _ => False) h b w c i w' c i := by
  suffices hinv : ∃ n, Instantiating ctx src t side g a n w' ∧ w'.store.Listed ctx ∧
      (w'.ents.size < 2 ^ 24 → w'.store.Occupied c i ∧
        Carried (fun _ _ => False) h b w c i w' c i) from
    hinv.choose_spec.2.2 hsize
  refine instantiateLoop_invariant (I := fun n v => Instantiating ctx src t side g a n v ∧
    v.store.Listed ctx ∧ (v.ents.size < 2 ^ 24 → v.store.Occupied c i ∧
      Carried (fun _ _ => False) h b w c i v c i)) ?_ ⟨h₀, hl, fun _ => ⟨hi, .refl hb⟩⟩ hs
  rintro v v₁ v₂ n s from_ side' g' a' mm ⟨hv, hl, hkeep⟩ hn halloc hfrom hside' harch hdup hnew
  obtain ⟨hnext, hbehind⟩ := hv.turn hn halloc hfrom hside' harch hdup hnew
  have ha := hv.target
  obtain ⟨st, hst, rfl⟩ := allocateSlice_eq_some.mp halloc
  have hty : st.type s.c ≠ none := by
    rw [(archetypeOf_eq_some.mp harch).1]
    exact Option.some_ne_none g'
  obtain ⟨hl', hall⟩ := hl.allocateSlice ha hst hty
  obtain ⟨hstore, hle⟩ := newEntities_store hnew
  obtain ⟨gₛ, aₛ, -, haₛ, hsideₛ⟩ := side_eq_some.mp hside'
  have hlayout : Layout side'.a := by
    rw [hsideₛ]
    exact constructArchetype_layout (hl'.built gₛ aₛ haₛ).2
  refine ⟨hnext, hstore ▸ hl', fun hlt => ?_⟩
  obtain ⟨hi, hcar⟩ := hkeep (hle.trans_lt hlt)
  obtain ⟨hocc, hkept⟩ := fill_keeps (K := fun _ _ => False) hl ha hall hnew hcar.after hi
    fun hb' hsame =>
      { before := hb'
        after := hb'
        handle := entityAt_of_writes (Memory.duplicate_writes hlayout hdup) fun hcs x hx =>
          hbehind hlt i (hsame hcs).2 x hx
        cells := fun _ _ => False.elim }
  exact ⟨hocc, hcar.trans hkept⟩

/-! ## The calls -/

theorem allocate_keeps (hctx : ctx.Built) {fuel n : Nat} {type : EntityType}
    {ss : List ChunkSlice} (hl : w.store.Listed ctx)
    (hs : w.allocate ctx fuel type n = some (w', ss)) (hb : w.archetypeOf c = some (h, b))
    (hi : w.store.Occupied c i) : ∃ a : Archetype, a.type = type ∧ w'.store.Occupied c i ∧
      Carried (fun _ _ => a.Roomy) h b w c i w' c i := by
  simp only [World.allocate, Option.bind_eq_bind, Option.bind_eq_some_iff] at hs
  obtain ⟨⟨w₁, g⟩, hget, hs⟩ := hs
  obtain ⟨st, hst, rfl⟩ := getArchetype_eq_some hget
  obtain ⟨-, hext, a, ha, htype⟩ := hl.toWf.getArchetype hst
  have hl₁ := (hl.getArchetype hst).1
  have hcar := Carried.of_extended (i := i) hb hext
  obtain ⟨hocc, hkept⟩ := allocateLoop_keeps (w := { w with store := st }) hctx hl₁ ha hs hcar.after
    ((occupied_congr hext.type hext.count c i).mpr hi)
  exact ⟨a, htype, hocc, hcar.watch.trans hkept⟩

theorem instantiate_keeps {src : Entity} {count fuel : Nat} {ss : List ChunkSlice}
    (hw : Sound ctx nowhere w) (hl : w.store.Listed ctx)
    (hgroup : w.getComponentRo src ctx.groupId = some none)
    (hclear : w.ClearOfHandles ctx src count) (hs : w.instantiate ctx fuel src count = some (w', ss))
    (hsize : w'.ents.size < 2 ^ 24) (hb : w.archetypeOf c = some (h, b))
    (hi : w.store.Occupied c i) :
    w'.store.Occupied c i ∧ Carried (fun _ _ => False) h b w c i w' c i := by
  obtain ⟨w₁, h₁, ⟨a, target, hcasted⟩, hcase⟩ := instantiate_cases hw hgroup hclear hs
  obtain ⟨-, hext, -, hmem, -⟩ := hw.getCasted hcasted
  have hl₁ : w₁.store.Listed ctx := (listed_grows ctx).getCasted hl hcasted
  have hput := Carried.of_extended (i := i) hb hext
  have hcar : Carried (fun _ _ => False) h b w c i w₁ c i :=
    ⟨hb, hput.after, by rw [hmem], fun _ _ => False.elim⟩
  have hi₁ := (occupied_congr hext.type hext.count c i).mpr hi
  rcases hcase with rfl | ⟨s, side, g, b, hstart, hloop⟩
  · exact ⟨hi₁, hcar⟩
  · obtain ⟨hocc, hkept⟩ := instantiateLoop_keeps hl₁ hstart hloop hsize hcar.after hi₁
    exact ⟨hocc, hcar.trans hkept⟩

/-! ## Slots that no call names -/

theorem castSlice_moves (hctx : ctx.Built) {srcG : ArchetypeId} {srcA : Archetype} {fuel : Nat}
    {ss : List ChunkSlice} (hl : w.store.Listed ctx) (hv : w.ValidSlice s)
    (hsrc : w.archetypeOf s.c = some (srcG, srcA)) (ha : w.store.archetype g = some a)
    (hg : srcG ≠ g) (hs : w.castSlice ctx fuel s g = some (w', ss)) :
    (∀ c i h b, w.archetypeOf c = some (h, b) → w.store.Occupied c i → ¬ Slots.of s c i →
      Kept noColumn h b w c i w') ∧
    ∀ j < s.count, ∃ d i, Recast noColumn w s srcA j g a w' d i := by
  obtain ⟨hothers, -, hslice⟩ :=
    castSlice_carries hctx hl hv hsrc ha hg (tailFits_noColumn w s) hs
  constructor
  · intro c i h b hb hi hout
    exact (hothers c i h b hb hi hout).mono fun _ => False.elim
  · intro j hj
    obtain ⟨d, i, p, t, hocc, -, -, -, harr⟩ := hslice j hj
    exact ⟨d, i, hocc, harr.after, harr.handle, fun _ _ _ _ => False.elim⟩

/-- `cast` to an archetype moves the entities of the slice there, and no other to another
archetype. -/
theorem castTo_moves (hctx : ctx.Built) {srcG : ArchetypeId} {srcA : Archetype} {fuel : Nat}
    {ss : List ChunkSlice} (hl : w.store.Listed ctx) (hl' : w'.store.Listed ctx)
    (hsorted : w.store.SortedKeys) (hv : w.ValidSlice s)
    (hsrc : w.archetypeOf s.c = some (srcG, srcA)) (ha : w.store.archetype g = some a)
    (hs : w.castTo ctx fuel s (some g) = some (w', ss)) :
    (∀ c i h b, w.archetypeOf c = some (h, b) → w.store.Occupied c i → ¬ Slots.of s c i →
      Kept noColumn h b w c i w') ∧
    ∀ j < s.count, ∃ d i, Recast noColumn w s srcA j g a w' d i := by
  obtain ⟨srcG', srcA', a', hc, hsrcA, ha', hcase⟩ := castTo_cases hs
  obtain ⟨hc', hsrcA'⟩ := archetypeOf_eq_some.mp hsrc
  obtain rfl : srcG = srcG' := Option.some.inj (hc'.symm.trans hc)
  obtain rfl : srcA = srcA' := Option.some.inj (hsrcA'.symm.trans hsrcA)
  obtain rfl : a = a' := Option.some.inj (ha.symm.trans ha')
  rcases hcase with ⟨rfl, rfl⟩ | ⟨hg, hfast⟩ | ⟨hg, -, hcast⟩
  · obtain rfl : srcA = a := Option.some.inj (hsrcA.symm.trans ha)
    refine ⟨fun c i h b hb hi _ => ⟨c, i, hi, .refl hb⟩, fun j hj => ?_⟩
    have hle := hv.le
    exact ⟨s.c, s.start + j, ⟨hv.typed, by omega⟩, hsrc, rfl, fun _ _ _ _ _ => rfl⟩
  · exact relink_keeps hctx hl hl' hsorted hv hsrc ha hg (fun h => h.choose_spec.elim) hfast
  · exact castSlice_moves hctx hl hv hsrc ha hg hcast

end World

/-- The slice a call takes apart. -/
def Op.slice : Op → Option ChunkSlice
  | .destroy s | .cast s _ | .castType s _ => some s
  | _ => none

namespace World

variable {ctx : Context} {w w' : World} {g h : ArchetypeId} {a b : Archetype} {c : ChunkId}
  {i : Nat} {s : ChunkSlice}

/-- What `cast` of a slice comes to, for a target that was found or made. -/
theorem castFound_stays (hctx : ctx.Built) {key : EntityType} {w₁ : World} {fuel : Nat}
    {ss : List ChunkSlice} (hw : Orderly ctx w) (hl' : w'.store.Listed ctx)
    (hkey : SortedTypes key.types) (hv : w.ValidSlice s) (hget : w.getArchetype ctx key = some (w₁, g))
    (hs : w₁.castTo ctx fuel s (some g) = some (w', ss)) (hb : w.archetypeOf c = some (h, b))
    (hi : w.store.Occupied c i) (hout : ¬ Slots.of s c i) : Kept noColumn h b w c i w' := by
  obtain ⟨-, hext, -, -, a, ha, -⟩ := hw.sound.getArchetype hget
  obtain ⟨st, hst, rfl⟩ := getArchetype_eq_some hget
  obtain ⟨g₀, hc₀⟩ := Option.ne_none_iff_exists'.mp hv.typed
  obtain ⟨a₀, ha₀⟩ := hw.listed.alive s.c g₀ hc₀
  have hsrc := (Carried.of_extended (i := 0) (archetypeOf_eq_some.mpr ⟨hc₀, ha₀⟩) hext).after
  obtain ⟨hothers, -⟩ := castTo_moves hctx (hw.listed.getArchetype hst).1 hl'
    (hw.sorted.getArchetype hkey hst) (hv.extend hext) hsrc ha hs
  have hcar := Carried.of_extended (i := i) hb hext
  exact hcar.watch.kept
    (hothers c i h b hcar.after ((occupied_congr hext.type hext.count c i).mpr hi) hout)

/-- An entity in a slot that the call does not name keeps its handle and archetype. -/
theorem stays_step (hctx : ctx.Built) (hreg : ctx.tracks.length < 2 ^ 30) {op : Op} {fuel : Nat}
    (hw : Orderly ctx w) (hw' : Orderly ctx w') (hv : op.Valid w) (hp : op.Orderly ctx w)
    (hs : op.run ctx fuel w = some w') (hsize : w'.ents.size < 2 ^ 24)
    (hb : w.archetypeOf c = some (h, b)) (hi : w.store.Occupied c i)
    (hout : ∀ s, op.slice = some s → ¬ Slots.of s c i) : Kept noColumn h b w c i w' := by
  cases op with
  | allocate type count =>
      obtain ⟨⟨_, ss⟩, hrun, rfl⟩ := Option.map_eq_some_iff.mp hs
      obtain ⟨a, -, hocc, hcar⟩ := allocate_keeps hctx hw.listed hrun hb hi
      exact ⟨c, i, hocc, hcar.mono fun _ => False.elim⟩
  | instantiate src count =>
      obtain ⟨⟨_, ss⟩, hrun, rfl⟩ := Option.map_eq_some_iff.mp hs
      obtain ⟨hocc, hcar⟩ := instantiate_keeps hw.sound hw.listed hp.noGroup hp.clear hrun hsize hb hi
      exact ⟨c, i, hocc, hcar⟩
  | destroy s =>
      obtain ⟨g, a, harch, ⟨-, rfl⟩ | ⟨-, -, hrel⟩ | ⟨-, -, st, g', b', ss, -, hext, hl, -, hb', -,
        hg, hcast⟩⟩ := destroy_moves hctx hw (memberless_of_noGroup hp.noGroup) hs
      · exact ⟨c, i, hi, .refl hb⟩
      · exact kept_release hw.listed hv (tailFits_noColumn w s) hrel hb hi (hout s rfl)
      · have hcar := Carried.of_extended (i := i) hb hext
        have hsrc := (Carried.of_extended (i := 0) harch hext).after
        obtain ⟨hothers, -⟩ := castSlice_moves hctx hl (hv.extend hext) hsrc hb' hg hcast
        exact hcar.watch.kept (hothers c i h b hcar.after
          ((occupied_congr hext.type hext.count c i).mpr hi) (hout s rfl))
  | cast s diff =>
      obtain ⟨⟨_, ss⟩, hrun, rfl⟩ := Option.map_eq_some_iff.mp hs
      simp only [World.cast, Option.bind_eq_bind, Option.bind_eq_some_iff] at hrun
      obtain ⟨⟨g, a⟩, harch, ⟨w₁, target⟩, hcasted, hrun⟩ := hrun
      rcases getCasted_cases hcasted with ⟨rfl, rfl, -⟩ | ⟨g', rfl, hget, -⟩
      · exact kept_release hw.listed hv (tailFits_noColumn w₁ s) (castTo_none hrun) hb hi (hout s rfl)
      · exact castFound_stays hctx hw hw'.listed
          ((hw.sorted g a (archetypeOf_eq_some.mp harch).2).casted hreg hp.keys) hv hget hrun hb hi
          (hout s rfl)
  | castType s type =>
      obtain ⟨⟨_, ss⟩, hrun, rfl⟩ := Option.map_eq_some_iff.mp hs
      simp only [World.castType, Option.bind_eq_bind, Option.bind_eq_some_iff] at hrun
      obtain ⟨⟨w₁, g⟩, hget, hrun⟩ := hrun
      exact castFound_stays hctx hw hw'.listed hp.keys hv hget hrun hb hi (hout s rfl)
  | getArchetype type =>
      obtain ⟨⟨_, g⟩, hrun, rfl⟩ := Option.map_eq_some_iff.mp hs
      obtain ⟨-, hext, -⟩ := hw.sound.getArchetype hrun
      obtain ⟨st, hst, rfl⟩ := getArchetype_eq_some hrun
      exact ⟨c, i, (occupied_congr hext.type hext.count c i).mpr hi,
        (Carried.of_extended hb hext).watch⟩
  | query f =>
      obtain ⟨⟨_, q⟩, hrun, rfl⟩ := Option.map_eq_some_iff.mp hs
      obtain ⟨queries, rfl⟩ := query_eq_some hrun
      exact ⟨c, i, hi, hb, hb, rfl, fun _ _ => False.elim⟩
  | write memory =>
      obtain rfl := Option.some.inj hs
      exact ⟨c, i, hi, hb, hb, hv c i hi, fun _ _ => False.elim⟩

end World

end Dots

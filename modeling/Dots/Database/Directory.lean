import Dots.Database.Births
import Dots.Database.Casted
import Dots.Database.Issued
import Dots.Library.Population

/-!
# The world as a directory of entities

To its program a world is a directory: which handles are alive, each with the types of its
entity. A call puts new handles in, or changes those it names and no others, wherever the
entities go in the chunks.
-/

namespace Dots

open Library Entities

namespace World

variable {ctx : Context} {w w₁ w₂ w' : World} {g srcG : ArchetypeId} {a b srcA : Archetype}
  {c d : ChunkId} {i j : Nat} {s : ChunkSlice} {e : Entity} {type : EntityType}

/-! ## Handles come from somewhere -/

/-- Every handle in a slot of `w'` is in a slot of `w`. -/
def Inherits (w w' : World) : Prop :=
  ∀ c i, w'.store.Occupied c i →
    ∃ d j, w.store.Occupied d j ∧ w.memory.entityAt d j = w'.memory.entityAt c i

theorem Inherits.refl (w : World) : Inherits w w := fun c i hi => ⟨c, i, hi, rfl⟩

theorem Inherits.trans (h : Inherits w w₁) (h' : Inherits w₁ w') : Inherits w w' := by
  intro c i hi
  obtain ⟨d, j, hj, hhandle⟩ := h' c i hi
  obtain ⟨d', j', hj', hhandle'⟩ := h d j hj
  exact ⟨d', j', hj', hhandle'.trans hhandle⟩

/-- The slots in use are the same, and so are the handles there. -/
theorem Inherits.of_slots (hocc : ∀ c i, w'.store.Occupied c i → w.store.Occupied c i)
    (hmem : ∀ c i, w'.store.Occupied c i → w'.memory.entityAt c i = w.memory.entityAt c i) :
    Inherits w w' :=
  fun c i hi => ⟨c, i, hocc c i hi, (hmem c i hi).symm⟩

theorem Inherits.of_extended {st : Store} (h : Store.Extended w.store st) :
    Inherits w { w with store := st } :=
  .of_slots (fun c i => (occupied_congr h.type h.count c i).mp) fun _ _ _ => rfl

theorem Freed.inherits (hl : w.store.Listed ctx)
    (hle : s.start + s.count ≤ w.store.count s.c) (h : Freed w s g a w') : Inherits w w' := by
  intro c i hi
  obtain ⟨hold, hlt⟩ := (h.occupied c i).mp hi
  by_cases hin : Slots.of (w.filled s) c i
  · -- the slot was filled from the tail
    obtain ⟨rfl, hlo, hhi⟩ := hin
    dsimp only at hlo hhi
    obtain ⟨-, -, hhandle, -⟩ := h.moves (i - s.start) (by omega)
    rw [Nat.add_sub_cancel' hlo] at hhandle
    refine ⟨s.c, w.tailStart s + (i - s.start), ⟨hold.1, ?_⟩, hhandle.symm⟩
    simp only [tailStart, tailCount] at hhi ⊢
    omega
  · obtain ⟨h', hc⟩ := Option.ne_none_iff_exists'.mp hold.1
    obtain ⟨b, hb⟩ := hl.alive c h' hc
    have hcar := h.stays c i h' b (archetypeOf_eq_some.mpr ⟨hc, hb⟩) hi hin
    exact ⟨c, i, hold, hcar.handle.symm⟩

theorem Inherits.release (hl : w.store.Listed ctx) (hv : w.ValidSlice s)
    (hs : w.release s = some w') : Inherits w w' := by
  obtain ⟨ents, g, a, -, hfreed⟩ := freed_of_release hl hv hs
  have h : Inherits { w with ents := ents } w' := hfreed.inherits hl hv.le
  exact h

/-- A turn of `cast_slice` copies handles of the source, which keeps them. -/
theorem CastTurn.inherits {src : ChunkSlice} {k : Nat} {mm : Memory}
    (h : CastTurn ctx src g a k w w₁ s mm) (ha : w.store.archetype g = some a)
    (hc : w.store.type src.c ≠ none) (hle : src.start + src.count ≤ w.store.count src.c)
    (hlt : k < src.count) :
    Inherits w ({ w₁ with memory := mm }.moveEntities s src.c (src.start + k)) := by
  have hlayout : Layout a := constructArchetype_layout
    (h.wf.built g a (h.slots.archetype ▸ ha)).2
  have hcount := h.slots.count_le
  intro c i hi
  change ∃ d j, _ ∧ _ = (copyHandles { w₁ with memory := mm } ..).memory.entityAt c i
  rw [entityAt_copyHandles]
  rcases (occupied_of_allocated h.slots c i).mp hi with hold | hnew
  · refine ⟨c, i, hold, ?_⟩
    rw [if_neg fun hin => not_of_allocated h.slots hold ⟨hin.1, hin.2⟩]
    refine (entityAt_of_writes h.writes fun hcs x hx => ?_).symm
    have hlt := (occupied_iff_lt_start h.slots i).mp (hcs ▸ hold)
    have hcap := h.slots.le
    calc sizeofEntity * (i + 1)
        ≤ sizeofEntity * a.chunkCapacity (w₁.store.ct s.c) :=
          Nat.mul_le_mul_left _ (by omega)
      _ ≤ x := hx.handles_le hlayout
  · obtain ⟨rfl, hlo, hhi⟩ := hnew
    refine ⟨src.c, src.start + k + (i - s.start), ⟨hc, by omega⟩, ?_⟩
    rw [if_pos ⟨rfl, hlo, hhi⟩]
    simp only [Memory.entityAt, h.writes.other src.c (Ne.symm h.other)]

theorem Inherits.castLoop (hctx : ctx.Built) {src : ChunkSlice} {fuel : Nat}
    {ss : List ChunkSlice} (h : Casting ctx src srcG g a 0 w) (hg : srcG ≠ g)
    (hs : World.castLoop ctx src g fuel 0 w = some (w', ss)) : Inherits w w' := by
  have hm : ctx.maskId < 3 * 2 ^ 30 := by
    rw [hctx.ids.2.2.2]
    decide
  suffices hinv : ∃ k, src.count ≤ k ∧ Casting ctx src srcG g a k w' ∧ Inherits w w' from
    hinv.choose_spec.2.2
  apply castLoop_invariant (I := fun k v => Casting ctx src srcG g a k v ∧ Inherits w v) _
    ⟨h, .refl w⟩ hs
  rintro v v₁ k s dst side mm ⟨hv, hinh⟩ hlt halloc hdst - hcast
  obtain ⟨hturn, hnext⟩ := hv.turn hm hg hlt halloc hdst hcast
  have hc : v.store.type src.c ≠ none := by
    rw [hv.source]
    exact Option.some_ne_none srcG
  exact ⟨hnext, hinh.trans (hturn.inherits hv.target hc hv.le hlt)⟩

theorem Inherits.castSlice (hctx : ctx.Built) {src : ChunkSlice} {fuel : Nat}
    {ss : List ChunkSlice} (hw : Sound ctx nowhere w) (hl : w.store.Listed ctx)
    (hv : w.ValidSlice src) (hsrc : w.archetypeOf src.c = some (srcG, srcA))
    (ha : w.store.archetype g = some a) (hg : srcG ≠ g)
    (hs : World.castSlice ctx fuel w src g = some (w', ss)) : Inherits w w' := by
  obtain ⟨srcG', srcA', w₁, hc, hsrcA, hloop, hfree⟩ := castSlice_spec hs
  obtain ⟨hc', hsrcA'⟩ := archetypeOf_eq_some.mp hsrc
  obtain rfl : srcG = srcG' := Option.some.inj (hc'.symm.trans hc)
  obtain rfl : srcA = srcA' := Option.some.inj (hsrcA'.symm.trans hsrcA)
  have hshape := w.castStart_shape srcG srcA src
  have hstart : Inherits w (w.castStart srcG srcA src) :=
    .of_slots (fun c i => (occupied_congr hshape.type hshape.count c i).mp) fun _ _ _ => rfl
  have hcast := Inherits.castLoop hctx (hw.casting hv ha hc srcG srcA) hg hloop
  have hend := (Moving.start hl hv hsrc ha).castLoop hctx hg hloop
  obtain ⟨_, _, -, hfreed⟩ := Freed.of_freeSlice hend.listed hv.pos hend.le hfree
  exact hstart.trans (hcast.trans (hfreed.inherits hend.listed hend.le))

theorem Inherits.castTo (hctx : ctx.Built) {fuel : Nat} {ss : List ChunkSlice}
    (hw : Sound ctx nowhere w) (hl : w.store.Listed ctx) (hl' : w'.store.Listed ctx)
    (hv : w.ValidSlice s) (hs : w.castTo ctx fuel s (some g) = some (w', ss)) :
    Inherits w w' := by
  obtain ⟨srcG, srcA, a, hc, hsrcA, ha, hcase⟩ := castTo_cases hs
  have hsrc := archetypeOf_eq_some.mpr ⟨hc, hsrcA⟩
  rcases hcase with ⟨-, rfl⟩ | ⟨hg, hfast⟩ | ⟨hg, -, hcast⟩
  · exact .refl w'
  · obtain ⟨-, hmem, -, hocc⟩ := relink_target hctx hl hl' hsrc ha hg hfast
    exact .of_slots (fun c i => (hocc c i).mp) fun _ _ _ => by rw [hmem]
  · exact .castSlice hctx hw hl hv hsrc ha hg hcast

/-- `cast` to an archetype that was found or made. -/
theorem Inherits.castFound (hctx : ctx.Built) {fuel : Nat} {ss : List ChunkSlice}
    (hw : Orderly ctx w) (hl' : w'.store.Listed ctx) (hv : w.ValidSlice s)
    (hget : w.getArchetype ctx type = some (w₁, g))
    (hs : w₁.castTo ctx fuel s (some g) = some (w', ss)) : Inherits w w' := by
  obtain ⟨hsound, hext, -⟩ := hw.sound.getArchetype hget
  obtain ⟨st, hst, rfl⟩ := getArchetype_eq_some hget
  have hl := (hw.listed.getArchetype hst).1
  exact (Inherits.of_extended hext).trans (.castTo hctx hsound hl hl' (hv.extend hext) hs)

end World

/-- The calls that make no entities. -/
def Op.MakesNone : Op → Prop
  | .allocate _ _ | .instantiate _ _ => False
  | _ => True

namespace World

variable {ctx : Context} {w w₁ w₂ w' : World} {g srcG : ArchetypeId} {a b srcA : Archetype}
  {c d : ChunkId} {i j fuel : Nat} {s : ChunkSlice} {e : Entity} {type : EntityType} {op : Op}

theorem Inherits.destroy (hctx : ctx.Built) (hw : Orderly ctx w) (hv : w.ValidSlice s)
    (hgroup : w.Memberless ctx s) (hs : w.destroy ctx fuel s = some w') : Inherits w w' := by
  obtain ⟨g, a, harch, hcase⟩ := destroy_moves hctx hw hgroup hs
  rcases hcase with ⟨-, rfl⟩ | ⟨-, -, hrel⟩ | ⟨-, -, st, g', b, ss, hget, hext, hl, -, hb, -, hg,
    hcast⟩
  · exact .refl w'
  · exact .release hw.listed hv hrel
  · have hsrc := (Carried.of_extended (i := 0) harch hext).after
    have hsound := (hw.sound.getArchetype hget).1
    exact (Inherits.of_extended hext).trans
      (.castSlice hctx hsound hl (hv.extend hext) hsrc hb hg hcast)

theorem Inherits.cast (hctx : ctx.Built) (hw : Orderly ctx w) (hl' : w'.store.Listed ctx)
    (hv : w.ValidSlice s) {diff : TypeDiff} {ss : List ChunkSlice}
    (hs : w.cast ctx fuel s diff = some (w', ss)) : Inherits w w' := by
  simp only [World.cast, Option.bind_eq_bind, Option.bind_eq_some_iff] at hs
  obtain ⟨⟨g, a⟩, -, ⟨w₁, target⟩, hcasted, hs⟩ := hs
  rcases getCasted_cases hcasted with ⟨rfl, rfl, -⟩ | ⟨g', rfl, hget, -⟩
  · exact .release hw.listed hv (castTo_none hs)
  · exact .castFound hctx hw hl' hv hget hs

theorem inherits_step (hctx : ctx.Built) (hw : Orderly ctx w) (hw' : Orderly ctx w')
    (hnone : op.MakesNone) (hv : op.Valid w) (hp : op.Orderly ctx w)
    (hs : op.run ctx fuel w = some w') : Inherits w w' := by
  cases op with
  | allocate => exact hnone.elim
  | instantiate => exact hnone.elim
  | destroy s => exact .destroy hctx hw hv (memberless_of_noGroup hp.noGroup) hs
  | cast s diff =>
      obtain ⟨⟨_, ss⟩, hrun, rfl⟩ := Option.map_eq_some_iff.mp hs
      exact .cast hctx hw hw'.listed hv hrun
  | castType s type =>
      obtain ⟨⟨_, ss⟩, hrun, rfl⟩ := Option.map_eq_some_iff.mp hs
      simp only [World.castType, Option.bind_eq_bind, Option.bind_eq_some_iff] at hrun
      obtain ⟨⟨w₁, g⟩, hget, hrun⟩ := hrun
      exact .castFound hctx hw hw'.listed hv hget hrun
  | getArchetype type =>
      obtain ⟨⟨_, g⟩, hget, rfl⟩ := Option.map_eq_some_iff.mp hs
      obtain ⟨-, hext, -⟩ := hw.sound.getArchetype hget
      obtain ⟨st, -, rfl⟩ := getArchetype_eq_some hget
      exact .of_extended hext
  | query f =>
      obtain ⟨⟨_, q⟩, hquery, rfl⟩ := Option.map_eq_some_iff.mp hs
      obtain ⟨queries, rfl⟩ := query_eq_some hquery
      exact .of_slots (fun _ _ hi => hi) fun _ _ _ => rfl
  | write memory =>
      obtain rfl := Option.some.inj hs
      exact .of_slots (fun _ _ hi => hi) fun c i hi => hv c i hi

/-! ## The directory -/

/-- The types of the entity `e`, looked up in the table and checked against its slot. -/
def directory (w : World) : Population Entity EntityType := fun e =>
  match (w.ents.datas e.id).c with
  | .chunk c =>
      let i := (w.ents.datas e.id).i
      if i < w.store.count c ∧ w.memory.entityAt c i = e then
        (w.archetypeOf c).map fun p => p.2.type
      else none
  | _ => none

/-- Where ids fit their 24 bits, the directory has exactly the entities in the chunks. -/
theorem directory_eq_some (hw : Orderly ctx w) (hsize : w.ents.size < 2 ^ 24) :
    w.directory e = some type ↔ ∃ a, a.type = type ∧ w.Lives e a := by
  constructor
  · intro h
    rw [directory] at h
    split at h
    · rename_i c hc
      dsimp only at h
      split_ifs at h with hin
      obtain ⟨⟨g, a⟩, harch, htype⟩ := Option.map_eq_some_iff.mp h
      have hocc : w.store.Occupied c (w.ents.datas e.id).i := by
        refine ⟨?_, hin.1⟩
        rw [(archetypeOf_eq_some.mp harch).1]
        exact Option.some_ne_none g
      have hfound := hw.sound.found hocc
      rw [hin.2] at hfound
      exact ⟨a, htype, c, _, g, hfound, harch⟩
    · exact absurd h (by simp)
  · rintro ⟨a, rfl, c, i, g, hfound, harch⟩
    obtain ⟨-, hc, hi⟩ := hfound.entry hsize
    have hin : i < w.store.count c ∧ w.memory.entityAt c i = e :=
      ⟨hfound.occupied.2, hfound.handle⟩
    simp only [directory, hc, hi, if_pos hin, harch, Option.map_some]

theorem lives_of_found (hw : Orderly ctx w) (hf : w.Found e c i) :
    ∃ g a, w.archetypeOf c = some (g, a) ∧ w.Lives e a := by
  obtain ⟨g, hc⟩ := Option.ne_none_iff_exists'.mp hf.occupied.1
  obtain ⟨a, ha⟩ := hw.listed.alive c g hc
  have harch := archetypeOf_eq_some.mpr ⟨hc, ha⟩
  exact ⟨g, a, harch, c, i, g, hf, harch⟩

theorem directory_ne_none (hw : Orderly ctx w) (hsize : w.ents.size < 2 ^ 24) :
    w.directory e ≠ none ↔ w.Alive e := by
  rw [Option.ne_none_iff_exists']
  constructor
  · rintro ⟨type, htype⟩
    obtain ⟨a, -, c, i, g, hfound, -⟩ := (directory_eq_some hw hsize).mp htype
    exact ⟨c, i, hfound⟩
  · rintro ⟨c, i, hfound⟩
    obtain ⟨g, a, -, hlives⟩ := lives_of_found hw hfound
    exact ⟨a.type, (directory_eq_some hw hsize).mpr ⟨a, rfl, hlives⟩⟩

theorem Inherits.alive (h : Inherits w w') (hw : Orderly ctx w) (ha : w'.Alive e) : w.Alive e := by
  obtain ⟨c, i, hfound⟩ := ha
  obtain ⟨d, j, hj, hhandle⟩ := h c i hfound.occupied
  have hold := hw.sound.found hj
  rw [hhandle, hfound.handle] at hold
  exact ⟨d, j, hold⟩

/-- What the interface says of an entity of the directory. -/
theorem getArchetypeOf_of_directory (hw : Orderly ctx w) (hsize : w.ents.size < 2 ^ 24)
    (h : w.directory e = some type) :
    w.ents.exist e = true ∧ (w.store.getArchetypeOf w.ents e).map Archetype.type = some type := by
  obtain ⟨a, rfl, c, i, g, hfound, harch⟩ := (directory_eq_some hw hsize).mp h
  obtain ⟨hexist, hc, -⟩ := hfound.entry hsize
  obtain ⟨htype, ha⟩ := archetypeOf_eq_some.mp harch
  refine ⟨hexist, ?_⟩
  simp only [Store.getArchetypeOf, Store.archetypeIdOf, hexist, if_true, hc, htype,
    Option.bind_some, ha, Option.map_some]

/-! ## What calls do to it -/

/-- `destroy` leaves what is dead already, and of the others the components that the program
cleans up itself. -/
def remains (ctx : Context) (type : EntityType) : Option EntityType :=
  if type.types.contains ctx.cleanupId then some type
  else if ctx.manualCleaning type.types then
    some
      { type with
        types := (ctx.cleanupId ::
          type.types.filter fun t => (ctx.track t).manualCleaning).insertionSort (· ≤ ·) }
  else none

/-- `cast` by a difference, which ends the dead that have nothing left but `cleanup`. -/
def castedBy (ctx : Context) (diff : TypeDiff) (type : EntityType) : Option EntityType := do
  let a ← constructArchetype ctx type
  if castFrees ctx a diff then none else some (castedType ctx a diff false)

/-- An instance has the twins of the types that are copied by hand; the dead have none. -/
def instanceOf (ctx : Context) (type : EntityType) : Option EntityType :=
  if type.types.contains ctx.cleanupId then none
  else
    some
      { type with
        types := type.types.map fun t => if (ctx.track t).manualCopying then t + 1 else t }

end World

/-- The call, as the directory sees it. -/
def Op.event (ctx : Context) (w : World) : Op → Population.Event Entity EntityType
  | .allocate type count => .birth type count
  | .instantiate src count => .copy src (World.instanceOf ctx) count
  | .destroy s => .change (w.handles s) (World.remains ctx)
  | .cast s diff => .change (w.handles s) (World.castedBy ctx diff)
  | .castType s type => .change (w.handles s) fun _ => some type
  | _ => .change [] some

namespace World

variable {ctx : Context} {w w₁ w₂ w' : World} {g srcG : ArchetypeId} {a b srcA : Archetype}
  {c d : ChunkId} {i j fuel n : Nat} {s : ChunkSlice} {e src : Entity} {type : EntityType} {op : Op}
  {f : EntityType → Option EntityType}

theorem cleaning_iff (hctx : ctx.Built) {key : EntityType}
    (ha : constructArchetype ctx key = some a) :
    a.cleaning = a.type.types.contains ctx.cleanupId := by
  rw [constructArchetype_cleaning ha, constructArchetype_type ha, Bool.eq_iff_iff,
    List.any_eq_true, List.contains_iff_mem]
  constructor
  · rintro ⟨t, ht, hcleanup⟩
    simp only [Bool.and_eq_true, beq_iff_eq] at hcleanup
    exact hcleanup.1 ▸ ht
  · intro ht
    refine ⟨ctx.cleanupId, ht, ?_⟩
    rw [hctx.ids.1, hctx.ids.2.1]
    decide

theorem directory_of_lives (hw : Orderly ctx w) (hsize : w.ents.size < 2 ^ 24)
    (h : w.Lives e a) : w.directory e = some a.type :=
  (directory_eq_some hw hsize).mpr ⟨a, rfl, h⟩

theorem directory_of_dead (hw : Orderly ctx w) (hsize : w.ents.size < 2 ^ 24)
    (h : w.ents.exist e = false) : w.directory e = none := by
  by_contra halive
  obtain ⟨type, htype⟩ := Option.ne_none_iff_exists'.mp halive
  have hexist := (getArchetypeOf_of_directory hw hsize htype).1
  rw [h] at hexist
  exact Bool.false_ne_true hexist

/-- The entities of a valid slice live in its archetype. -/
theorem lives_of_handle (hw : Orderly ctx w) (hv : w.ValidSlice s)
    (harch : w.archetypeOf s.c = some (g, a)) (he : e ∈ w.handles s) : w.Lives e a := by
  obtain ⟨j, hj, rfl⟩ := mem_handles.mp he
  have hle := hv.le
  exact ⟨s.c, s.start + j, g, hw.sound.found ⟨hv.typed, by omega⟩, harch⟩

/-- A call that is seen to change the handles `es`, and makes no entity. -/
theorem directory_alter (hw : Orderly ctx w) (hw' : Orderly ctx w')
    (hsize : w.ents.size < 2 ^ 24) (hsize' : w'.ents.size < 2 ^ 24) (hinh : Inherits w w')
    {es : List Entity} (hout : ∀ e a, e ∉ es → w.Lives e a → w'.Lives e a)
    (hin : ∀ e ∈ es, ∃ a, w.Lives e a ∧ w'.directory e = f a.type) :
    Population.Step w.directory (.change es f) w'.directory := by
  have halter : w'.directory = w.directory.alter es f := by
    funext e
    by_cases he : e ∈ es
    · obtain ⟨a, hlives, hafter⟩ := hin e he
      rw [Population.alter_of_mem he, directory_of_lives hw hsize hlives, hafter]
      rfl
    · rw [Population.alter_of_not_mem he]
      cases hbefore : w.directory e with
      | some type =>
          obtain ⟨a, rfl, hlives⟩ := (directory_eq_some hw hsize).mp hbefore
          exact directory_of_lives hw' hsize' (hout e a he hlives)
      | none =>
          by_contra hnow
          have halive := hinh.alive hw ((directory_ne_none hw' hsize').mp hnow)
          exact (directory_ne_none hw hsize).mpr halive hbefore
  rw [halter]
  refine .change fun e he => ?_
  obtain ⟨a, hlives, -⟩ := hin e he
  rw [directory_of_lives hw hsize hlives]
  exact Option.some_ne_none a.type

/-- A call on a slice, and one on no entity at all. -/
theorem event_step (hctx : ctx.Built) (hreg : ctx.tracks.length < 2 ^ 30) (hw : Orderly ctx w)
    (hw' : Orderly ctx w') (hv : op.Valid w) (hp : op.Orderly ctx w)
    (hs : op.run ctx fuel w = some w') (hnone : op.MakesNone) (hsize : w'.ents.size < 2 ^ 24)
    {es : List Entity} (hes : ∀ s, op.slice = some s → es = w.handles s)
    (hin : ∀ e ∈ es, ∃ a, w.Lives e a ∧ w'.directory e = f a.type) :
    Population.Step w.directory (.change es f) w'.directory := by
  have hsize₀ := (aged_step hp.noGroup hs).size_le.trans_lt hsize
  refine directory_alter hw hw' hsize₀ hsize (inherits_step hctx hw hw' hnone hv hp hs) ?_ hin
  intro e a he hlives
  exact lives_step hctx hreg hw hw' hv hp hs hsize hlives fun s hslice => hes s hslice ▸ he

/-! ### Calls on slices -/

theorem archetypeOf_valid (hw : Orderly ctx w) (hv : w.ValidSlice s) :
    ∃ g a, w.archetypeOf s.c = some (g, a) ∧ constructArchetype ctx a.type = some a := by
  obtain ⟨g, hc⟩ := Option.ne_none_iff_exists'.mp hv.typed
  obtain ⟨a, ha⟩ := hw.listed.alive s.c g hc
  exact ⟨g, a, archetypeOf_eq_some.mpr ⟨hc, ha⟩, (hw.listed.built g a ha).2⟩

theorem directory_destroy (hctx : ctx.Built) (hw : Orderly ctx w) (hw' : Orderly ctx w')
    (hv : w.ValidSlice s) (hp : (Op.destroy s).Orderly ctx w)
    (hs : w.destroy ctx fuel s = some w') (hsize : w'.ents.size < 2 ^ 24)
    (harch : w.archetypeOf s.c = some (g, a)) (he : e ∈ w.handles s) :
    w'.directory e = remains ctx a.type := by
  have hbuilt := (hw.listed.built g a (archetypeOf_eq_some.mp harch).2).2
  have hlives := lives_of_handle hw hv harch he
  obtain ⟨g₁, a₁, harch₁, hcase⟩ := destroy_moves hctx hw (memberless_of_noGroup hp.noGroup) hs
  obtain ⟨rfl, rfl⟩ := Prod.mk.inj (Option.some.inj (harch.symm.trans harch₁))
  rw [cleaning_iff hctx hbuilt, leavesDead_eq hbuilt] at hcase
  rcases hcase with ⟨hclean, rfl⟩ | ⟨hclean, hdead, -⟩ | ⟨hclean, hdead, st, g', b, ss, -, hext, hl,
    -, hb, hkey, hg, hcast⟩
  · rw [remains, if_pos hclean]
    exact directory_of_lives hw' hsize hlives
  · have hdead' : ctx.manualCleaning a.type.types = false := hdead
    rw [remains, hclean, hdead', if_neg Bool.false_ne_true, if_neg Bool.false_ne_true]
    apply directory_of_dead hw' hsize
    refine exist_of_freed hw (.destroy s) hv hp hs hsize ?_
    simp only [Op.freed, Op.released, harch, Option.bind_eq_bind, Option.bind_some,
      cleaning_iff hctx hbuilt, leavesDead_eq hbuilt, hclean, hdead, Bool.or_self,
      Bool.false_eq_true, if_false]
    exact he
  · have hdead' : ctx.manualCleaning a.type.types = true := hdead
    rw [remains, hclean, hdead', if_neg Bool.false_ne_true, if_pos rfl]
    obtain ⟨j, hj, rfl⟩ := mem_handles.mp he
    have hsrc := (Carried.of_extended (i := 0) harch hext).after
    obtain ⟨-, hslice⟩ := castSlice_moves hctx hl (hv.extend hext) hsrc hb hg hcast
    obtain ⟨d, i, hre⟩ := hslice j hj
    have hfound := hw'.sound.found hre.occupied
    rw [hre.handle] at hfound
    have hnow := directory_of_lives hw' hsize ⟨d, i, g', hfound, hre.after⟩
    rw [hkey] at hnow
    exact hnow

/-- The handles of a slice that was cast to an archetype that was found or made. -/
theorem directory_castFound (hctx : ctx.Built) (hw : Orderly ctx w) (hw' : Orderly ctx w')
    (hkey : SortedTypes type.types) (hv : w.ValidSlice s) {ss : List ChunkSlice}
    (hget : w.getArchetype ctx type = some (w₁, g))
    (hs : w₁.castTo ctx fuel s (some g) = some (w', ss)) (hsize : w'.ents.size < 2 ^ 24)
    (he : e ∈ w.handles s) : w'.directory e = some type := by
  obtain ⟨srcG, srcA, harch, -⟩ := archetypeOf_valid hw hv
  obtain ⟨-, hext, -, -, b, hb, htype⟩ := hw.sound.getArchetype hget
  obtain ⟨st, hst, rfl⟩ := getArchetype_eq_some hget
  have hsrc := (Carried.of_extended (i := 0) harch hext).after
  obtain ⟨-, hslice⟩ := castTo_moves hctx (hw.listed.getArchetype hst).1 hw'.listed
    (hw.sorted.getArchetype hkey hst) (hv.extend hext) hsrc hb hs
  obtain ⟨j, hj, rfl⟩ := mem_handles.mp he
  obtain ⟨d, i, hre⟩ := hslice j hj
  have hfound := hw'.sound.found hre.occupied
  rw [hre.handle] at hfound
  exact (directory_eq_some hw' hsize).mpr ⟨b, htype, d, i, g, hfound, hre.after⟩

theorem directory_cast (hctx : ctx.Built) (hreg : ctx.tracks.length < 2 ^ 30)
    {diff : TypeDiff} (hw : Orderly ctx w) (hw' : Orderly ctx w') (hv : w.ValidSlice s)
    (hp : (Op.cast s diff).Orderly ctx w) (hs : Op.run ctx fuel w (.cast s diff) = some w')
    (hsize : w'.ents.size < 2 ^ 24) (harch : w.archetypeOf s.c = some (g, a))
    (he : e ∈ w.handles s) : w'.directory e = castedBy ctx diff a.type := by
  have ha := (archetypeOf_eq_some.mp harch).2
  rw [castedBy, (hw.listed.built g a ha).2, Option.bind_eq_bind, Option.bind_some]
  split_ifs with hfrees
  · apply directory_of_dead hw' hsize
    refine exist_of_freed hw (.cast s diff) hv hp hs hsize ?_
    simp only [Op.freed, Op.released, harch, Option.bind_eq_bind, Option.bind_some, hfrees, if_true]
    exact he
  · obtain ⟨⟨_, ss⟩, hrun, rfl⟩ := Option.map_eq_some_iff.mp hs
    simp only [World.cast, Option.bind_eq_bind, Option.bind_eq_some_iff] at hrun
    obtain ⟨⟨g₁, a₁⟩, harch₁, ⟨w₁, target⟩, hcasted, hrun⟩ := hrun
    obtain ⟨rfl, rfl⟩ := Prod.mk.inj (Option.some.inj (harch.symm.trans harch₁))
    rcases getCasted_cases hcasted with ⟨-, -, hfree⟩ | ⟨g', rfl, hget, -⟩
    · exact absurd (hfree rfl) hfrees
    · have hkey : SortedTypes (castedType ctx a diff false).types :=
        (hw.sorted g a ha).casted hreg hp.keys
      exact directory_castFound hctx hw hw' hkey hv hget hrun hsize he

/-! ### Calls that make entities -/

/-- The slices of a loop have no slot in common, and none with the slots in use. -/
theorem apart_of_turns {loop : Nat → Nat → World → Option (World × List ChunkSlice)}
    {turn : Nat → World → Option (World × ChunkSlice)} (hloop : Turns loop turn)
    (hturn : ∀ {n w w' s}, w.store.Listed ctx → w.store.archetype g = some a →
      turn n w = some (w', s) →
      w'.store.Listed ctx ∧ Store.Allocated w.store w'.store g a s n)
    {ss : List ChunkSlice} (hl : w.store.Listed ctx) (ha : w.store.archetype g = some a)
    (hs : loop fuel n w = some (w', ss)) :
    (∀ s ∈ ss, ∀ d j, Slots.of s d j → ¬ w.store.Occupied d j) ∧
      ss.Pairwise fun s t => ∀ d j, Slots.of s d j → ¬ Slots.of t d j := by
  induction fuel generalizing n w ss with
  | zero => simp [hloop.zero] at hs
  | succ fuel ih =>
      rw [hloop.succ] at hs
      split_ifs at hs with hn
      · obtain ⟨⟨w₁, s⟩, hfirst, hs⟩ := Option.bind_eq_some_iff.mp hs
        obtain ⟨⟨w₂, ss'⟩, hrest, hs⟩ := Option.map_eq_some_iff.mp hs
        obtain ⟨rfl, rfl⟩ := Prod.mk.inj hs
        obtain ⟨hl₁, hall⟩ := hturn hl ha hfirst
        obtain ⟨hnew, hpair⟩ := ih hl₁ (hall.archetype ▸ ha) hrest
        refine ⟨?_, List.pairwise_cons.mpr ⟨?_, hpair⟩⟩
        · intro t ht d j hj hold
          rcases List.mem_cons.mp ht with rfl | ht
          · exact not_of_allocated hall hold hj
          · exact hnew t ht d j hj ((occupied_of_allocated hall d j).mpr (Or.inl hold))
        · intro t ht d j hj hin
          exact hnew t ht d j hin ((occupied_of_allocated hall d j).mpr (Or.inr hj))
      · obtain ⟨-, rfl⟩ := Prod.mk.inj (Option.some.inj hs)
        simp

theorem turn_allocate {n : Nat} (hl : w.store.Listed ctx) (ha : w.store.archetype g = some a)
    (hs : allocateTurn ctx g n w = some (w', s)) :
    w'.store.Listed ctx ∧ Store.Allocated w.store w'.store g a s n := by
  simp only [allocateTurn, Option.bind_eq_bind, Option.bind_eq_some_iff] at hs
  obtain ⟨⟨w₁, s₁⟩, halloc, ⟨g', a'⟩, harch, w₂, hnew, hs⟩ := hs
  obtain ⟨rfl, rfl⟩ := Prod.mk.inj (Option.some.inj hs)
  have htype : w₁.store.type s₁.c ≠ none := by
    rw [(archetypeOf_eq_some.mp harch).1]
    exact Option.some_ne_none g'
  exact took_turn hl ha halloc htype (newEntities_store hnew).1

theorem turn_instantiate {n : Nat} (hl : w.store.Listed ctx) (ha : w.store.archetype g = some a)
    (hs : instantiateTurn ctx src g n w = some (w', s)) :
    w'.store.Listed ctx ∧ Store.Allocated w.store w'.store g a s n := by
  simp only [instantiateTurn, Option.bind_eq_bind, Option.bind_eq_some_iff] at hs
  obtain ⟨⟨w₁, s₁⟩, halloc, from_, -, side, -, ⟨g', a'⟩, harch, mm, -, w₂, hnew, hs⟩ := hs
  obtain ⟨rfl, rfl⟩ := Prod.mk.inj (Option.some.inj hs)
  have harch : w₁.archetypeOf s₁.c = some (g', a') := harch
  have htype : w₁.store.type s₁.c ≠ none := by
    rw [(archetypeOf_eq_some.mp harch).1]
    exact Option.some_ne_none g'
  exact took_turn hl ha halloc htype (newEntities_store hnew).1

/-- The slots of apart slices hold different handles. -/
theorem nodup_handles (hw : Orderly ctx w) (hsize : w.ents.size < 2 ^ 24) {ss : List ChunkSlice}
    (hocc : ∀ s ∈ ss, ∀ d j, Slots.of s d j → w.store.Occupied d j)
    (hpair : ss.Pairwise fun s t => ∀ d j, Slots.of s d j → ¬ Slots.of t d j) :
    (ss.flatMap w.handles).Nodup := by
  have hslot : ∀ {s : ChunkSlice} {j : Nat}, j < s.count → Slots.of s s.c (s.start + j) := by
    intro s j hj
    exact ⟨rfl, by omega, by omega⟩
  refine List.nodup_flatMap.mpr ⟨fun s hs => ?_, hpair.imp_of_mem ?_⟩
  · refine (List.nodup_map_iff_inj_on List.nodup_range).mpr fun i hi j hj hij => ?_
    obtain ⟨-, h⟩ := hw.unique hsize (hocc s hs _ _ (hslot (List.mem_range.mp hi)))
      (hocc s hs _ _ (hslot (List.mem_range.mp hj))) hij
    omega
  · intro s t hs ht hapart e hes het
    obtain ⟨i, hi, rfl⟩ := mem_handles.mp hes
    obtain ⟨j, hj, hij⟩ := mem_handles.mp het
    obtain ⟨hc, h⟩ := hw.unique hsize (hocc t ht _ _ (hslot hj)) (hocc s hs _ _ (hslot hi)) hij
    apply hapart _ _ (hslot hi)
    rw [← hc, ← h]
    exact hslot hj

/-- What a loop puts into the directory. -/
theorem Took.directory {ss : List ChunkSlice} (hw : Orderly ctx w) (hw' : Orderly ctx w')
    (hsize₀ : w.ents.size < 2 ^ 24) (hsize : w'.ents.size < 2 ^ 24) (htook : Took g n w₁ ss w')
    (hpair : ss.Pairwise fun s t => ∀ d j, Slots.of s d j → ¬ Slots.of t d j)
    (hocc : ∀ c i, w₁.store.Occupied c i ↔ w.store.Occupied c i)
    (ha : w₁.store.archetype g = some a)
    (hkept : ∀ c i h b, w.archetypeOf c = some (h, b) → w.store.Occupied c i →
      w'.store.Occupied c i ∧ Carried noColumn h b w c i w' c i) :
    w.directory.Fresh n (ss.flatMap w'.handles) ∧
      w'.directory = w.directory.add (ss.flatMap w'.handles) a.type := by
  have hused : ∀ s ∈ ss, ∀ d j, Slots.of s d j → w'.store.Occupied d j := fun s hs d j hj =>
    (htook.occupied d j).mpr (Or.inr ⟨s, hs, hj⟩)
  have hstays : ∀ {e c i}, w.Found e c i → w'.Found e c i := by
    intro e c i hf
    obtain ⟨h, b, hb, -⟩ := lives_of_found hw hf
    obtain ⟨hi, hcar⟩ := hkept c i h b hb hf.occupied
    exact hcar.found hw' hf hi
  refine ⟨⟨nodup_handles hw' hsize hused hpair, htook.length, fun e he => ?_⟩, funext fun e => ?_⟩
  · by_contra halive
    obtain ⟨c, i, hf⟩ := (directory_ne_none hw hsize₀).mp halive
    obtain ⟨s, hs, hes⟩ := List.mem_flatMap.mp he
    obtain ⟨j, hj, hhandle⟩ := mem_handles.mp hes
    have hslot : Slots.of s s.c (s.start + j) := ⟨rfl, by omega, by omega⟩
    have hnow := hstays hf
    obtain ⟨rfl, rfl⟩ := hw'.unique hsize hnow.occupied (hused s hs _ _ hslot)
      (hnow.handle.trans hhandle.symm)
    exact htook.fresh s hs _ _ hslot ((hocc _ _).mpr hf.occupied)
  · by_cases he : e ∈ ss.flatMap w'.handles
    · rw [Population.add_of_mem he]
      obtain ⟨s, hs, hes⟩ := List.mem_flatMap.mp he
      obtain ⟨j, hj, rfl⟩ := mem_handles.mp hes
      have hslot : Slots.of s s.c (s.start + j) := ⟨rfl, by omega, by omega⟩
      have harch := archetypeOf_eq_some.mpr ⟨htook.target s hs, htook.archetype ▸ ha⟩
      exact directory_of_lives hw' hsize
        ⟨s.c, s.start + j, g, hw'.sound.found (hused s hs _ _ hslot), harch⟩
    · rw [Population.add_of_not_mem he]
      cases hbefore : w.directory e with
      | some type =>
          obtain ⟨b, rfl, c, i, h, hf, hb⟩ := (directory_eq_some hw hsize₀).mp hbefore
          have hcar := (hkept c i h b hb hf.occupied).2
          exact directory_of_lives hw' hsize ⟨c, i, h, hstays hf, hcar.after⟩
      | none =>
          by_contra hnow
          obtain ⟨c, i, hf⟩ := (directory_ne_none hw' hsize).mp hnow
          rcases (htook.occupied c i).mp hf.occupied with hold | ⟨s, hs, rfl, hlo, hhi⟩
          · have hi := (hocc c i).mp hold
            have hthen := hw.sound.found hi
            have hsame := (hstays hthen).handle
            rw [hf.handle] at hsame
            exact (directory_ne_none hw hsize₀).mpr ⟨c, i, hsame ▸ hthen⟩ hbefore
          · apply he
            refine List.mem_flatMap.mpr ⟨s, hs, mem_handles.mpr ⟨i - s.start, by omega, ?_⟩⟩
            rw [Nat.add_sub_cancel' hlo]
            exact hf.handle

theorem directory_allocate (hctx : ctx.Built) (hw : Orderly ctx w) (hw' : Orderly ctx w')
    (hsize₀ : w.ents.size < 2 ^ 24) (hsize : w'.ents.size < 2 ^ 24) {ss : List ChunkSlice}
    (hs : w.allocate ctx fuel type n = some (w', ss)) :
    Population.Step w.directory (.birth type n) w'.directory := by
  have hkept := fun c i h b hb hi => allocate_keeps (c := c) (i := i) (h := h) (b := b) hctx
    hw.listed hs hb hi
  simp only [World.allocate, Option.bind_eq_bind, Option.bind_eq_some_iff] at hs
  obtain ⟨⟨w₁, g⟩, hget, hs⟩ := hs
  obtain ⟨-, hext, -, -, a, ha, rfl⟩ := hw.sound.getArchetype hget
  obtain ⟨st, hst, rfl⟩ := getArchetype_eq_some hget
  have hl := (hw.listed.getArchetype hst).1
  have hpair := (apart_of_turns turns_allocateLoop turn_allocate hl ha hs).2
  obtain ⟨hfresh, hafter⟩ := (took_allocateLoop hl ha hs).directory hw hw' hsize₀ hsize hpair
    (occupied_congr hext.type hext.count) ha fun c i h b hb hi => by
      obtain ⟨_, -, hocc, hcar⟩ := hkept c i h b hb hi
      exact ⟨hocc, hcar.mono fun _ => False.elim⟩
  rw [hafter]
  exact .birth hfresh

/-- The archetype that `get_casted` gives for an instance. -/
theorem instanceOf_eq {key : EntityType} {target : ArchetypeId} (hctx : ctx.Built)
    (ha : constructArchetype ctx key = some a)
    (hs : w.getCasted ctx a {} true = some (w₁, some target)) :
    instanceOf ctx a.type = some (castedType ctx a {} true) := by
  have hclean : a.cleaning = false := by
    by_contra hclean
    simp [getCasted, eq_true_of_ne_false hclean] at hs
  obtain ⟨htypes, hmetas⟩ := castedType_instance ha
  rw [instanceOf, ← cleaning_iff hctx ha, hclean, if_neg Bool.false_ne_true]
  refine congrArg some ?_
  rw [← Archetype.types, ← htypes]
  change ({ types := _, metatypes := a.metatypes } : EntityType) = _
  rw [← hmetas]

theorem directory_instantiate (hctx : ctx.Built) (hw : Orderly ctx w) (hw' : Orderly ctx w')
    (hp : (Op.instantiate src n).Orderly ctx w) (hsrc : w.directory src ≠ none)
    (hsize₀ : w.ents.size < 2 ^ 24) (hsize : w'.ents.size < 2 ^ 24) {ss : List ChunkSlice}
    (hs : w.instantiate ctx fuel src n = some (w', ss)) :
    Population.Step w.directory (.copy src (instanceOf ctx) n) w'.directory := by
  have hgroup : w.getComponentRo src ctx.groupId = some none := hp.noGroup
  have hkept := fun c i h b hb hi => instantiate_keeps (c := c) (i := i) (h := h) (b := b)
    hw.sound hw.listed hgroup hp.clear hs hsize hb hi
  obtain ⟨c₀, i₀, hfound⟩ := (directory_ne_none hw hsize₀).mp hsrc
  obtain ⟨g₀, a₀, harch₀, hlives⟩ := lives_of_found hw hfound
  have hbefore := directory_of_lives hw hsize₀ hlives
  simp only [World.instantiate, hgroup, Option.bind_eq_bind, Option.bind_some,
    World.instantiateSingle, Option.bind_eq_some_iff] at hs
  obtain ⟨s, hslice, ⟨g₁, a₁⟩, harch, ⟨w₁, target⟩, hcasted, hs⟩ := hs
  obtain ⟨-, hc, -⟩ := hfound.entry hsize₀
  simp only [asSlice, entrySlice, hc] at hslice
  split_ifs at hslice
  obtain rfl := Option.some.inj hslice
  obtain ⟨rfl, rfl⟩ := Prod.mk.inj (Option.some.inj (harch₀.symm.trans harch))
  have hbuilt := (hw.listed.built g₀ a₀ (archetypeOf_eq_some.mp harch).2).2
  have hl₁ : w₁.store.Listed ctx := (listed_grows ctx).getCasted hw.listed hcasted
  obtain ⟨-, hext, -, -, -⟩ := hw.sound.getCasted hcasted
  rcases getCasted_cases hcasted with ⟨rfl, rfl, -⟩ | ⟨g, rfl, hget, -⟩
  · simp only at hs
    split_ifs at hs with hn
    obtain ⟨rfl, -⟩ := Prod.mk.inj (Option.some.inj hs)
    have hstep : Population.Step w₁.directory (.copy src (instanceOf ctx) n)
        (w₁.directory.add [] a₀.type) :=
      .copy hbefore (fun hne => absurd hn hne) ⟨List.nodup_nil, hn.symm, by simp⟩
    have hsame : w₁.directory.add [] a₀.type = w₁.directory :=
      funext fun e => Population.add_of_not_mem List.not_mem_nil
    rwa [hsame] at hstep
  · obtain ⟨-, -, -, -, a, ha, htype⟩ := hw.sound.getArchetype hget
    have hpair := (apart_of_turns turns_instantiateLoop turn_instantiate hl₁ ha hs).2
    obtain ⟨hfresh, hafter⟩ := (took_instantiateLoop hl₁ ha hs).directory hw hw' hsize₀ hsize
      hpair (occupied_congr hext.type hext.count) ha
      fun c i h b hb hi => (hkept c i h b hb hi).imp_right fun hcar => hcar.mono fun _ => False.elim
    rw [hafter, htype]
    exact .copy hbefore (fun _ => instanceOf_eq hctx hbuilt hcasted) hfresh

/-! ## Runs -/

/-- A call that completes, as an event of the directory. A source of instances is alive, and
ids fit their 24 bits. -/
structure Does (ctx : Context) (w : World) (ev : Population.Event Entity EntityType)
    (w' : World) : Prop where
  call : ∃ (op : Op) (fuel : Nat), op.Valid w ∧ op.Orderly ctx w ∧
    (∀ src n, op = .instantiate src n → w.directory src ≠ none) ∧
    op.run ctx fuel w = some w' ∧ ev = op.event ctx w
  fits : w'.ents.size < 2 ^ 24

theorem directory_step (hctx : ctx.Built) (hreg : ctx.tracks.length < 2 ^ 30)
    {ev : Population.Event Entity EntityType} (hw : Orderly ctx w) (hs : Does ctx w ev w') :
    Orderly ctx w' ∧ Population.Step w.directory ev w'.directory := by
  obtain ⟨⟨op, fuel, hv, hp, hlive, hs, rfl⟩, hsize⟩ := hs
  have hw' := hw.step hctx hreg hv hp hs
  have hsize₀ := (aged_step hp.noGroup hs).size_le.trans_lt hsize
  refine ⟨hw', ?_⟩
  have hslices : ∀ s, w.ValidSlice s → ∀ f : EntityType → Option EntityType,
      (∀ g a, w.archetypeOf s.c = some (g, a) → ∀ e ∈ w.handles s, w'.directory e = f a.type) →
      ∀ e ∈ w.handles s, ∃ a, w.Lives e a ∧ w'.directory e = f a.type := by
    intro s hv f hafter e he
    obtain ⟨g, a, harch, -⟩ := archetypeOf_valid hw hv
    exact ⟨a, lives_of_handle hw hv harch he, hafter g a harch e he⟩
  cases op with
  | allocate type count =>
      obtain ⟨⟨_, ss⟩, hrun, rfl⟩ := Option.map_eq_some_iff.mp hs
      exact directory_allocate hctx hw hw' hsize₀ hsize hrun
  | instantiate src count =>
      obtain ⟨⟨_, ss⟩, hrun, rfl⟩ := Option.map_eq_some_iff.mp hs
      exact directory_instantiate hctx hw hw' hp (hlive src count rfl) hsize₀ hsize hrun
  | destroy s =>
      apply event_step hctx hreg hw hw' hv hp hs trivial hsize fun t ht => Option.some.inj ht ▸ rfl
      exact hslices s hv _ fun g a harch e he =>
        directory_destroy hctx hw hw' hv hp hs hsize harch he
  | cast s diff =>
      apply event_step hctx hreg hw hw' hv hp hs trivial hsize fun t ht => Option.some.inj ht ▸ rfl
      exact hslices s hv _ fun g a harch e he =>
        directory_cast hctx hreg hw hw' hv hp hs hsize harch he
  | castType s type =>
      apply event_step hctx hreg hw hw' hv hp hs trivial hsize fun t ht => Option.some.inj ht ▸ rfl
      refine hslices s hv (fun _ => some type) fun g a harch e he => ?_
      obtain ⟨⟨_, ss⟩, hrun, rfl⟩ := Option.map_eq_some_iff.mp hs
      simp only [World.castType, Option.bind_eq_bind, Option.bind_eq_some_iff] at hrun
      obtain ⟨⟨w₁, g⟩, hget, hrun⟩ := hrun
      exact directory_castFound hctx hw hw' hp.keys hv hget hrun hsize he
  | getArchetype type =>
      exact event_step hctx hreg hw hw' hv hp hs trivial hsize (by simp [Op.slice]) (by simp)
  | query f =>
      exact event_step hctx hreg hw hw' hv hp hs trivial hsize (by simp [Op.slice]) (by simp)
  | write memory =>
      exact event_step hctx hreg hw hw' hv hp hs trivial hsize (by simp [Op.slice]) (by simp)

/-- A new world has nobody in it. -/
theorem directory_initial (timestamp : Nat) (raw : Nat → Nat) (data : ChunkId → Mem)
    (guids : Nat → List UInt8) :
    (World.initial timestamp raw data guids).directory = fun _ => none := by
  funext e
  simp [directory, World.initial]

/-- What a run keeps. -/
structure Small (ctx : Context) (w : World) : Prop where
  orderly : Orderly ctx w
  fits : w.ents.size < 2 ^ 24

theorem small_initial (ctx : Context) (timestamp : Nat) (raw : Nat → Nat) (data : ChunkId → Mem)
    (guids : Nat → List UInt8) : Small ctx (World.initial timestamp raw data guids) where
  orderly := orderly_initial ctx timestamp raw data guids
  fits := Nat.two_pow_pos 24

theorem Small.step (hctx : ctx.Built) (hreg : ctx.tracks.length < 2 ^ 30)
    {ev : Population.Event Entity EntityType} (h : Small ctx w) (hs : Does ctx w ev w') :
    Small ctx w' :=
  ⟨(directory_step hctx hreg h.orderly hs).1, hs.fits⟩

theorem Small.trace (hctx : ctx.Built) (hreg : ctx.tracks.length < 2 ^ 30)
    {evs : List (Population.Event Entity EntityType)} (h : Small ctx w)
    (hrun : Trace (Does ctx) w evs w') :
    Small ctx w' ∧ Trace Population.Step w.directory evs w'.directory := by
  have hstep : ∀ v ev v', Small ctx v → Does ctx v ev v' → Small ctx v' :=
    fun v ev v' hv hs => hv.step hctx hreg hs
  constructor
  · exact hrun.invariant hstep h
  · exact hrun.view hstep (fun v ev v' hv hs => (directory_step hctx hreg hv.orderly hs).2) h

/-- One entity with a component that its program cleans up, destroyed once. -/
theorem runs_destroyed : ∃ w w' a,
    runAll tracked 4 blank [.allocate { types := [4] } 1, destroyFirst] = some w' ∧
    Trace (Does tracked) blank [.birth { types := [4] } 1] w ∧
    Does tracked w (.change [⟨0⟩] (remains tracked)) w' ∧ w.Lives ⟨0⟩ a ∧
    a.type = { types := [4] } := by
  have hsome : ((runAll tracked 4 blank [.allocate { types := [4] } 1]).bind fun w =>
      (Op.run tracked 4 w destroyFirst).bind fun w' => (w.archetypeOf 0).map fun p =>
        (w.store.type 0, [w.store.count 0, w.ents.size, w'.ents.size,
          (w.memory.entityAt 0 0).value, p.2.index tracked.groupId], p.2.type)) =
      some (some 0, [1, 1, 1, 0, invalidIndex], { types := [4] }) := by decide +kernel
  obtain ⟨w, hw, hsome⟩ := Option.bind_eq_some_iff.mp hsome
  obtain ⟨w', hw', hsome⟩ := Option.bind_eq_some_iff.mp hsome
  obtain ⟨⟨g, a⟩, harch, hfacts⟩ := Option.map_eq_some_iff.mp hsome
  simp only [Prod.mk.injEq, List.cons.injEq, and_true] at hfacts
  obtain ⟨hc, ⟨hcount, hsize, hsize', hvalue, hgroup⟩, htype⟩ := hfacts
  have hrun : Op.run tracked 4 blank (.allocate { types := [4] } 1) = some w := by
    simpa [runAll] using hw
  have hfirst : Does tracked blank (.birth { types := [4] } 1) w := by
    refine ⟨⟨_, 4, ?_, ?_, ?_, hrun, rfl⟩, by omega⟩
    · trivial
    · exact ⟨trivial, trivial, trivial, show SortedTypes [4] from ⟨by decide, by decide⟩⟩
    · simp
  have hw₁ : Orderly tracked w :=
    (directory_step built_tracked (by decide) (orderly_initial tracked _ _ _ _) hfirst).1
  have hhandle : w.memory.entityAt 0 0 = ⟨0⟩ := Entity.ext hvalue
  have hfound : w.Found ⟨0⟩ 0 0 := by
    have h := hw₁.sound.found (c := 0) (i := 0) ⟨by simp [hc], by omega⟩
    rwa [hhandle] at h
  have hall : runAll tracked 4 blank [.allocate { types := [4] } 1, destroyFirst] = some w' := by
    rw [runAll, List.foldlM_cons, hrun]
    simpa using hw'
  refine ⟨w, w', a, hall, .single hfirst, ⟨⟨destroyFirst, 4, ?_, ?_, ?_, hw', ?_⟩, by omega⟩,
    ⟨0, 0, g, hfound, harch⟩, htype⟩
  · exact ⟨by simp [hc], by simp, by simp [hcount]⟩
  · refine orderly_destroy (g := 0) hc ?_
    obtain ⟨hg, ha⟩ := archetypeOf_eq_some.mp harch
    obtain rfl : g = 0 := Option.some.inj (hg.symm.trans hc)
    rw [ha, Option.map_some, hgroup]
  · simp [destroyFirst]
  · simp [destroyFirst, Op.event, handles, hhandle]

/-- Every run of calls on a new world is a run of the directory with the same events. What the
interface says of a handle is what the directory says, and the slots hold the handles of the
directory, each of them once. -/
theorem directory_of_run (hctx : ctx.Built) (hreg : ctx.tracks.length < 2 ^ 30) {timestamp : Nat}
    {raw : Nat → Nat} {data : ChunkId → Mem} {guids : Nat → List UInt8}
    {evs : List (Population.Event Entity EntityType)}
    (h : Trace (Does ctx) (World.initial timestamp raw data guids) evs w) :
    Trace Population.Step (fun _ => none) evs w.directory ∧
    (∀ e type, w.directory e = some type → w.ents.exist e = true ∧
      (w.store.getArchetypeOf w.ents e).map Archetype.type = some type) ∧
    ∀ e, w.directory e ≠ none ↔
      ∃! p : ChunkId × Nat, w.store.Occupied p.1 p.2 ∧ w.memory.entityAt p.1 p.2 = e := by
  obtain ⟨hw, htrace⟩ := (small_initial ctx timestamp raw data guids).trace hctx hreg h
  rw [directory_initial] at htrace
  refine ⟨htrace, fun e type => getArchetypeOf_of_directory hw.orderly hw.fits, fun e => ?_⟩
  rw [directory_ne_none hw.orderly hw.fits]
  constructor
  · rintro ⟨c, i, hf⟩
    refine ⟨(c, i), ⟨hf.occupied, hf.handle⟩, fun p hp => ?_⟩
    obtain ⟨hc, hi⟩ := hw.orderly.unique hw.fits hp.1 hf.occupied (hp.2.trans hf.handle.symm)
    exact Prod.ext hc hi
  · rintro ⟨p, ⟨hocc, rfl⟩, -⟩
    exact ⟨p.1, p.2, hw.orderly.sound.found hocc⟩

theorem directory_destroyed : ∃ w,
    runAll tracked 4 blank [.allocate { types := [4] } 1, destroyFirst] = some w ∧
    Trace Population.Step (fun _ => none)
      [.birth { types := [4] } 1, .change [⟨0⟩] (remains tracked)] w.directory := by
  obtain ⟨w, w', a, hw', hfirst, hsecond, -, -⟩ := runs_destroyed
  have hrun := hfirst.append (.single hsecond)
  exact ⟨w', hw', (directory_of_run built_tracked (by decide) hrun).1⟩

/-- What a run makes of an entity is what the calls that name it make of its types, wherever
the others put it in the meantime. -/
theorem type_of_run (hctx : ctx.Built) (hreg : ctx.tracks.length < 2 ^ 30) {timestamp : Nat}
    {raw : Nat → Nat} {data : ChunkId → Mem} {guids : Nat → List UInt8}
    {before after : List (Population.Event Entity EntityType)}
    (hbefore : Trace (Does ctx) (World.initial timestamp raw data guids) before w)
    (hafter : Trace (Does ctx) w after w') (he : w.Lives e a)
    (htype : after.foldlM (fun t ev => ev.on e t) a.type = some type) :
    w'.ents.exist e = true ∧
      (w'.store.getArchetypeOf w'.ents e).map Archetype.type = some type := by
  have hw := ((small_initial ctx timestamp raw data guids).trace hctx hreg hbefore).1
  obtain ⟨hw', htrace⟩ := hw.trace hctx hreg hafter
  apply getArchetypeOf_of_directory hw'.orderly hw'.fits
  exact Population.value_of_trace htrace (directory_of_lives hw.orderly hw.fits he) htype

theorem type_of_destroyed : ∃ w,
    runAll tracked 4 blank [.allocate { types := [4] } 1, destroyFirst] = some w ∧
    w.ents.exist ⟨0⟩ = true ∧
    (w.store.getArchetypeOf w.ents ⟨0⟩).map Archetype.type =
      some { types := [4, tracked.cleanupId] } := by
  obtain ⟨w, w', a, hw', hfirst, hsecond, hlives, htype⟩ := runs_destroyed
  have hfold : [Population.Event.change [(⟨0⟩ : Entity)] (remains tracked)].foldlM
      (fun t ev => ev.on ⟨0⟩ t) a.type = some { types := [4, tracked.cleanupId] } := by
    rw [htype]
    decide +kernel
  exact ⟨w', hw', type_of_run built_tracked (by decide) hfirst (.single hsecond) hlives hfold⟩

end World

end Dots

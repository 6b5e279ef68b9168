import Dots.Database.Growth

/-!
# The life cycle of tracked entities

An entity that owns components its program cleans up itself outlives `destroy`: it keeps
these components, next to `cleanup`, until casts have taken them away.
-/

namespace Dots

open Library Entities

/-- Some type is `ManualCleaning`. -/
def Context.manualCleaning (ctx : Context) (ts : List TypeIndex) : Bool :=
  ts.any fun t => (ctx.track t).manualCleaning

namespace World

variable {ctx : Context} {w w' : World} {g h : ArchetypeId} {a b : Archetype} {c : ChunkId}
  {i : Nat} {s : ChunkSlice} {e : Entity}

/-- `e` is alive, and its archetype is `a`. -/
def Lives (w : World) (e : Entity) (a : Archetype) : Prop :=
  ∃ c i g, w.Found e c i ∧ w.archetypeOf c = some (g, a)

/-! ## Types of the dead -/

theorem mem_cleaningTypes {t : TypeIndex} : t ∈ cleaningTypes ctx a ↔
    t = ctx.cleanupId ∨ t ∈ a.types ∧ (ctx.track t).manualCleaning = true := by
  rw [cleaningTypes, (List.perm_insertionSort _ _).mem_iff, List.mem_cons, List.mem_filter]

theorem withTracked_of_manual {key : EntityType} (ha : constructArchetype ctx key = some a)
    (hm : ctx.manualCleaning a.types = true) : a.withTracked = true := by
  have htype := constructArchetype_type ha
  have htracked : a.withTracked = key.types.any fun t => (ctx.track t).needCC := by
    simp only [constructArchetype] at ha
    split_ifs at ha
    rw [← Option.some.inj ha]
  obtain ⟨t, ht, hmanual⟩ := List.any_eq_true.mp hm
  rw [htracked, List.any_eq_true]
  refine ⟨t, by rwa [← htype], ?_⟩
  rw [TrackState.needCC, hmanual, Bool.or_true]

/-- Those who own a manually cleaned component leave something behind. -/
theorem leavesDead_of_manual {key : EntityType} (ha : constructArchetype ctx key = some a)
    (hm : ctx.manualCleaning a.types = true) : leavesDead ctx a = true := by
  obtain ⟨t, ht, hmanual⟩ := List.any_eq_true.mp hm
  have hpos : 0 < (a.types.filter fun t => (ctx.track t).manualCleaning).length :=
    List.length_pos_of_mem (List.mem_filter.mpr ⟨ht, hmanual⟩)
  rw [leavesDead, withTracked_of_manual ha hm, Bool.true_and, decide_eq_true_eq, cleaningTypes,
    List.length_insertionSort, List.length_cons]
  omega

theorem leavesDead_eq {key : EntityType} (ha : constructArchetype ctx key = some a) :
    leavesDead ctx a = ctx.manualCleaning a.types := by
  cases hm : ctx.manualCleaning a.types with
  | true => exact leavesDead_of_manual ha hm
  | false =>
      have hnone : (a.types.filter fun t => (ctx.track t).manualCleaning) = [] := by
        rw [List.filter_eq_nil_iff]
        exact List.any_eq_false.mp hm
      simp [leavesDead, cleaningTypes, hnone]

theorem cleanupId_mem {key : EntityType} (ha : constructArchetype ctx key = some a)
    (hclean : a.cleaning = true) : ctx.cleanupId ∈ a.types := by
  rw [constructArchetype_cleaning ha, List.any_eq_true] at hclean
  obtain ⟨t, ht, hcleanup⟩ := hclean
  simp only [Bool.and_eq_true, beq_iff_eq] at hcleanup
  rw [← hcleanup.1, Archetype.types, constructArchetype_type ha]
  exact ht

/-- No twin is cleaned manually, so those who leave and the dead agree on twins. -/
theorem twinsAgree_cleaning (hctx : ctx.Built) (hb : b.types = cleaningTypes ctx a) :
    TwinsAgree ctx a b := by
  intro t _ ht htwin
  have hpos := hctx.paired.index_pos htwin
  rw [hb, mem_cleaningTypes] at ht
  rcases ht with rfl | ⟨-, hmanual⟩
  · rw [hctx.ids.2.1] at hpos
    exact absurd hpos (by decide)
  · refine absurd ?_ htwin
    rw [Context.toValidType, if_neg]
    intro hcopy
    simp [hcopy] at hmanual

/-! ## Runs -/

end World

/-- The destroyed entities that wait for their cleanup once the call is made, given those
that did before: `destroy` adds the owners of a manually cleaned component, and a cast takes
away those that are left without one. -/
def Op.waiting (ctx : Context) (w : World) (waiting : Entity → Prop) (op : Op) (e : Entity) : Prop :=
  match op with
  | .destroy s => waiting e ∨ e ∈ w.handles s ∧ ∃ g a, w.archetypeOf s.c = some (g, a) ∧
      ctx.manualCleaning a.types = true
  | .cast s diff => waiting e ∧ (e ∈ w.handles s → ∀ g a, w.archetypeOf s.c = some (g, a) →
      ctx.manualCleaning (World.castedType ctx a diff false).types = true)
  | _ => waiting e

/-- What the life cycle asks of a call. The first `destroy` of an entity finds it outside a
cleaning archetype, or in the one it would get, and later ones in a cleaning archetype; a cast
of an entity that waits is left with one type exactly when it is left with nothing to clean. -/
def Op.KeepsTrack (ctx : Context) (w : World) (waiting : Entity → Prop) : Op → Prop
  | .destroy s => ∀ g a, w.archetypeOf s.c = some (g, a) → ctx.manualCleaning a.types = true →
      (∀ e ∈ w.handles s, waiting e → a.cleaning = true) ∧
      ∀ e ∈ w.handles s, ¬ waiting e →
        if a.cleaning then ∀ t ∈ a.types, t ∈ World.cleaningTypes ctx a
        else ∀ w₁ g' b, w.getArchetype ctx (World.cleaningKey ctx a) = some (w₁, g') →
          w₁.store.archetype g' = some b →
            a.Roomy ∧ World.SliceFits World.everyColumn w₁ s g a g' b
  | .cast s diff => ∀ g a, w.archetypeOf s.c = some (g, a) →
      ∀ e ∈ w.handles s, waiting e → (World.castFrees ctx a diff = true ↔
        ctx.manualCleaning (World.castedType ctx a diff false).types = false)
  | .castType _ _ => False
  | _ => True

namespace World

/-- The runs of tracked calls that lay out what they build, with the destroyed entities that wait
for their cleanup. -/
inductive Tracking (ctx : Context) : World → (Entity → Prop) → Prop
  | initial (timestamp : Nat) (raw : Nat → Nat) (data : ChunkId → Mem) (guids : Nat → List UInt8) :
      Tracking ctx (World.initial timestamp raw data guids) fun _ => False
  | step {w w' : World} {waiting : Entity → Prop} {fuel : Nat} (h : Tracking ctx w waiting)
      (op : Op) (hv : op.Valid w) (hp : op.Orderly ctx w) (hlays : op.LaysOut ctx w)
      (hk : op.KeepsTrack ctx w waiting) (hs : op.run ctx fuel w = some w') :
      Tracking ctx w' (op.waiting ctx w waiting)

variable {ctx : Context} {w w' : World} {g h : ArchetypeId} {a b : Archetype} {c : ChunkId}
  {i : Nat} {s : ChunkSlice} {e : Entity} {waiting : Entity → Prop} {op : Op}

/-- The life cycle, for one call. -/
structure LifeCycle (ctx : Context) (w : World) (waiting : Entity → Prop) (op : Op) (w' : World) :
    Prop where
  /-- The first `destroy` leaves the manually cleaned components, as they are, and `cleanup`. -/
  begins : ∀ s g a, op = .destroy s → w.archetypeOf s.c = some (g, a) →
    ctx.manualCleaning a.types = true →
    ∀ e j, j < s.count → w.Found e s.c (s.start + j) → ¬ waiting e →
      ∃ g' b, (∀ t, t ∈ b.types ↔ t = ctx.cleanupId ∨
          t ∈ a.types ∧ (ctx.track t).manualCleaning = true) ∧
        (∃ d i, w'.Found e d i ∧ Recast everyColumn w s a j g' b w' d i) ∧
        ∀ d, FreesNo ctx w s a b d → w'.memory.heap d = w.memory.heap d
  repeats : ∀ s, op = .destroy s → ∀ e ∈ w.handles s, waiting e → w' = w
  ends : ∀ s diff g a, op = .cast s diff → w.archetypeOf s.c = some (g, a) →
    ∀ e ∈ w.handles s, waiting e →
      if ctx.manualCleaning (castedType ctx a diff false).types then
        ∃ b, b.type = castedType ctx a diff false ∧ w'.Lives e b
      else w'.ents.exist e = false
  goesOn : ∀ e a, waiting e → w.Lives e a → (∀ s, op.slice = some s → e ∉ w.handles s) →
    w'.Lives e a

theorem Tracking.reachable (h : Tracking ctx w waiting) :
    Reachable ctx (fun w op => op.Orderly ctx w ∧ op.LaysOut ctx w) w := by
  induction h with
  | initial timestamp raw data guids => exact Reachable.initial ctx _ timestamp raw data guids
  | step _ op hv hp hlays _ hs ih => exact ih.step op hv ⟨hp, hlays⟩ hs

/-! ## Worlds with the same entities -/

section SameSlots

variable {v v' : World}

theorem handles_sameSlots (hs : SameSlots w v) (hv : w.ValidSlice s) :
    v.handles s = w.handles s := by
  have hle := hv.le
  refine List.map_congr_left fun j hj => hs.handle _ _ ⟨hv.typed, ?_⟩
  have hj' := List.mem_range.mp hj
  omega

theorem Lives.sameSlots (hs : SameSlots w v) (h : w.Lives e a) : v.Lives e a := by
  obtain ⟨c, i, g, hfound, harch⟩ := h
  exact ⟨c, i, g, hfound.sameSlots hs, (hs.archetypeOf c).trans harch⟩

/-- A call that follows the life cycle does so on whole blocks. -/
theorem LifeCycle.whole (hw : Orderly ctx w) (hw' : Orderly ctx w') (hlaid : w.store.Laid)
    (hlaid' : w'.store.Laid) (hv : op.Valid w) (h : LifeCycle ctx w waiting op w') :
    LifeCycle ctx w.whole waiting op w'.whole := by
  have hs := hw.whole hlaid
  have hs' := hw'.whole hlaid'
  refine ⟨?_, ?_, ?_, ?_⟩
  · rintro s g a rfl harch hm e j hj hf hwait
    rw [hs.archetypeOf] at harch
    have hf' := hf.sameSlots hs.symm
    obtain ⟨g', b, htypes, ⟨d, i, hfound, hre⟩, hheap⟩ :=
      h.begins s g a rfl harch hm e j hj hf' hwait
    exact ⟨g', b, htypes, ⟨d, i, hfound.sameSlots hs', hre.sameSlots hs hs' hw.listed hw'.listed
      hw.sorted hw'.sorted harch hf'.occupied⟩,
      fun d hno => hheap d (hno.sameSlots hs hw.listed hlaid hv harch)⟩
  · rintro s rfl e he hwait
    rw [handles_sameSlots hs hv] at he
    rw [h.repeats s rfl e he hwait]
  · rintro s diff g a rfl harch e he hwait
    rw [hs.archetypeOf] at harch
    rw [handles_sameSlots hs hv] at he
    have hends := h.ends s diff g a rfl harch e he hwait
    split_ifs at hends ⊢
    · obtain ⟨b, hb, hlives⟩ := hends
      exact ⟨b, hb, hlives.sameSlots hs'⟩
    · exact hends
  · intro e a hwait hlives hout
    refine (h.goesOn e a hwait (hlives.sameSlots hs.symm) fun s hop he => hout s hop ?_).sameSlots hs'
    have hvalid : w.ValidSlice s := by
      cases op with
      | destroy s' => exact Option.some.inj hop ▸ hv
      | cast s' diff => exact Option.some.inj hop ▸ hv
      | castType s' type => exact Option.some.inj hop ▸ hv
      | _ => simp [Op.slice] at hop
    rwa [handles_sameSlots hs hvalid]

end SameSlots

/-! ## One call -/

theorem mem_handles : e ∈ w.handles s ↔ ∃ j < s.count, w.memory.entityAt s.c (s.start + j) = e := by
  simp [World.handles]

/-- The entities of a slice live in its archetype. -/
theorem archetype_of_lives (hw : Orderly ctx w) (hsize : w.ents.size < 2 ^ 24)
    (hv : w.ValidSlice s) (harch : w.archetypeOf s.c = some (g, a)) (he : e ∈ w.handles s)
    (hlives : w.Lives e b) : b = a := by
  obtain ⟨c, i, h, hfound, hb⟩ := hlives
  obtain ⟨j, hj, rfl⟩ := mem_handles.mp he
  have hle := hv.le
  have hocc : w.store.Occupied s.c (s.start + j) := ⟨hv.typed, by omega⟩
  obtain ⟨rfl, -⟩ := (hw.sound.tracks hsize).unique ⟨hfound.occupied, not_false⟩
    ⟨hocc, not_false⟩ (by rw [hfound.handle])
  exact (Prod.mk.inj (Option.some.inj (hb.symm.trans harch))).2

theorem found_step (hctx : ctx.Built) (hreg : ctx.tracks.length < 2 ^ 30) {fuel : Nat}
    (hw : Orderly ctx w) (hw' : Orderly ctx w') (hv : op.Valid w) (hp : op.Orderly ctx w)
    (hs : op.run ctx fuel w = some w') (hsize : w'.ents.size < 2 ^ 24) (hfound : w.Found e c i)
    (harch : w.archetypeOf c = some (g, a)) (hout : ∀ s, op.slice = some s → e ∉ w.handles s) :
    ∃ d j, w'.Found e d j ∧ w'.archetypeOf d = some (g, a) := by
  obtain ⟨d, j, hocc, hcar⟩ := stays_step hctx hreg hw hw' hv hp hs hsize harch hfound.occupied
    fun s hop hin => by
      obtain ⟨rfl, hlo, hhi⟩ := hin
      apply hout s hop
      refine mem_handles.mpr ⟨i - s.start, by omega, ?_⟩
      rw [Nat.add_sub_cancel' hlo]
      exact hfound.handle
  exact ⟨d, j, hcar.found hw' hfound hocc, hcar.after⟩

theorem lives_step (hctx : ctx.Built) (hreg : ctx.tracks.length < 2 ^ 30) {fuel : Nat}
    (hw : Orderly ctx w) (hw' : Orderly ctx w') (hv : op.Valid w) (hp : op.Orderly ctx w)
    (hs : op.run ctx fuel w = some w') (hsize : w'.ents.size < 2 ^ 24) (hlives : w.Lives e a)
    (hout : ∀ s, op.slice = some s → e ∉ w.handles s) : w'.Lives e a := by
  obtain ⟨c, i, g, hfound, harch⟩ := hlives
  obtain ⟨d, j, hfound', harch'⟩ :=
    found_step hctx hreg hw hw' hv hp hs hsize hfound harch hout
  exact ⟨d, j, g, hfound', harch'⟩

/-- The entities of a slice that goes to an archetype live there. -/
theorem Recast.found (hw' : Orderly ctx w') {K : Watched} {j d i : Nat}
    (h : Recast K w s a j g b w' d i) (hf : w.Found e s.c (s.start + j)) : w'.Found e d i := by
  have hfound := hw'.sound.found h.occupied
  rwa [h.handle, hf.handle] at hfound

theorem exist_of_freed {fuel : Nat} (hw : Orderly ctx w) (op : Op) (hv : op.Valid w)
    (hp : op.Orderly ctx w) (hs : op.run ctx fuel w = some w') (hsize : w'.ents.size < 2 ^ 24)
    (he : e ∈ op.freed ctx w) : w'.ents.exist e = false := by
  have haged := aged_step hp.noGroup hs
  have htracks := hw.sound.tracks (haged.size_le.trans_lt hsize)
  obtain ⟨hid, hversion, hcount⟩ :=
    mem_freed hv (htracks.mono fun c i hi => ⟨hi, not_false⟩) he
  have hnext := haged.version e.id hid
  rw [hcount, hversion] at hnext
  simp only [Entities.exist, Bool.and_eq_false_iff, beq_eq_false_iff_ne]
  right
  rw [hnext]
  exact (Entity.nextVersion_iterate_ne e.version_lt Nat.one_pos (by decide)).symm

section Destroy

/-- A first `destroy`. -/
theorem begins_destroy (hctx : ctx.Built) {fuel : Nat}
    (hw : Orderly ctx w) (hw' : Orderly ctx w') (hv : w.ValidSlice s)
    (hp : (Op.destroy s).Orderly ctx w) (hk : (Op.destroy s).KeepsTrack ctx w waiting)
    (hs : w.destroy ctx fuel s = some w') (harch : w.archetypeOf s.c = some (g, a))
    (hm : ctx.manualCleaning a.types = true) {j : Nat} (hj : j < s.count)
    (hf : w.Found e s.c (s.start + j)) (hwait : ¬ waiting e) :
    ∃ g' b, (∀ t, t ∈ b.types ↔ t = ctx.cleanupId ∨
        t ∈ a.types ∧ (ctx.track t).manualCleaning = true) ∧
      (∃ d i, w'.Found e d i ∧ Recast everyColumn w s a j g' b w' d i) ∧
      ∀ d, FreesNo ctx w s a b d → w'.memory.heap d = w.memory.heap d := by
  have hfirst := (hk g a harch hm).2 e (mem_handles.mpr ⟨j, hj, hf.handle⟩) hwait
  have hbuilt := (hw.listed.built g a (archetypeOf_eq_some.mp harch).2).2
  obtain ⟨g₁, a₁, harch₁, hcase⟩ := destroy_moves hctx hw (memberless_of_noGroup hp.noGroup) hs
  obtain ⟨rfl, rfl⟩ := Prod.mk.inj (Option.some.inj (harch.symm.trans harch₁))
  rcases hcase with ⟨hclean, rfl⟩ | ⟨-, hdead, -⟩ | ⟨hclean, -, st, g', b, ss, hget, hext, hl,
    hsorted, hb, hkey, hg, hcast⟩
  · -- nothing happens in a cleaning archetype
    rw [hclean, if_pos rfl] at hfirst
    refine ⟨g, a, fun t => ⟨fun ht => mem_cleaningTypes.mp (hfirst t ht), ?_⟩,
      ⟨s.c, s.start + j, hf, hf.occupied, harch, rfl, fun _ _ _ _ _ => rfl⟩, fun _ _ => rfl⟩
    rintro (rfl | ⟨ht, -⟩)
    · exact cleanupId_mem hbuilt hclean
    · exact ht
  · rw [leavesDead_of_manual hbuilt hm] at hdead
    exact absurd hdead (by decide)
  · rw [hclean, if_neg Bool.false_ne_true] at hfirst
    obtain ⟨hroomy, hfits⟩ := hfirst _ g' b hget hb
    have hsrc := (Carried.of_extended (i := 0) harch hext).after
    have htypes : b.types = cleaningTypes ctx a := congrArg EntityType.types hkey
    have hcasted := castSlice_recasts (K := everyColumn) hctx hl hsorted (hv.extend hext) hsrc
      hb hg (fun _ => ⟨twinsAgree_cleaning hctx htypes, hfits⟩) hcast
    obtain ⟨d, i, hre⟩ := hcasted j hj
    have hre' : Recast everyColumn w s a j g' b w' d i :=
      { occupied := hre.occupied
        after := hre.after
        handle := hre.handle
        cells := fun t hta htb htag hK => by rw [hre.cells t hta htb htag hK, hext.ct] }
    refine ⟨g', b, fun t => htypes ▸ mem_cleaningTypes, ⟨d, i, hre'.found hw' hf, hre'⟩, ?_⟩
    intro d hno
    refine heap_castSlice hctx hl (hv.extend hext) hsrc hb hg hroomy hfits hcast fun l hdrop j hj => ?_
    rw [hext.ct]
    exact hno l hdrop j hj

end Destroy

/-- A later one. -/
theorem repeats_destroy (hctx : ctx.Built) {fuel : Nat} (hw : Orderly ctx w)
    (hv : w.ValidSlice s) (hp : (Op.destroy s).Orderly ctx w)
    (hk : (Op.destroy s).KeepsTrack ctx w waiting) (hs : w.destroy ctx fuel s = some w')
    (harch : w.archetypeOf s.c = some (g, a)) (hm : ctx.manualCleaning a.types = true)
    (he : e ∈ w.handles s) (hwait : waiting e) : w' = w := by
  have hclean := (hk g a harch hm).1 e he hwait
  obtain ⟨g₁, a₁, harch₁, hcase⟩ := destroy_moves hctx hw (memberless_of_noGroup hp.noGroup) hs
  obtain ⟨rfl, rfl⟩ := Prod.mk.inj (Option.some.inj (harch.symm.trans harch₁))
  rcases hcase with ⟨-, rfl⟩ | ⟨hclean', -⟩ | ⟨hclean', -⟩
  · rfl
  · simp [hclean] at hclean'
  · simp [hclean] at hclean'

/-- The cast of an entity that waits. -/
theorem ends_cast (hctx : ctx.Built) (hreg : ctx.tracks.length < 2 ^ 30) {diff : TypeDiff}
    {fuel : Nat} (hw : Orderly ctx w) (hw' : Orderly ctx w') (hv : w.ValidSlice s)
    (hp : (Op.cast s diff).Orderly ctx w) (hk : (Op.cast s diff).KeepsTrack ctx w waiting)
    (hs : Op.run ctx fuel w (.cast s diff) = some w') (hsize : w'.ents.size < 2 ^ 24)
    (harch : w.archetypeOf s.c = some (g, a)) (he : e ∈ w.handles s) (hwait : waiting e) :
    if ctx.manualCleaning (castedType ctx a diff false).types then
      ∃ b, b.type = castedType ctx a diff false ∧ w'.Lives e b
    else w'.ents.exist e = false := by
  have hends := hk g a harch e he hwait
  split_ifs with hm
  · rw [hm] at hends
    have hfrees : castFrees ctx a diff = false := by
      rw [← Bool.not_eq_true, hends]
      decide
    obtain ⟨⟨_, ss⟩, hrun, rfl⟩ := Option.map_eq_some_iff.mp hs
    simp only [World.cast, Option.bind_eq_bind, Option.bind_eq_some_iff] at hrun
    obtain ⟨⟨g₁, a₁⟩, harch₁, ⟨w₁, target⟩, hcasted, hrun⟩ := hrun
    obtain ⟨rfl, rfl⟩ := Prod.mk.inj (Option.some.inj (harch.symm.trans harch₁))
    rcases getCasted_cases hcasted with ⟨-, -, hfree⟩ | ⟨g', rfl, hget, -⟩
    · simp [hfrees] at hfree
    · have hkey : SortedTypes (castedType ctx a diff false).types :=
        (hw.sorted g a (archetypeOf_eq_some.mp harch).2).casted hreg hp.keys
      obtain ⟨j, hj, rfl⟩ := mem_handles.mp he
      obtain ⟨-, hext, -, -, b, hb, htype⟩ := hw.sound.getArchetype hget
      obtain ⟨st, hst, rfl⟩ := getArchetype_eq_some hget
      have hsrc := (Carried.of_extended (i := 0) harch hext).after
      obtain ⟨-, hslice⟩ := castTo_moves hctx (hw.listed.getArchetype hst).1 hw'.listed
        (hw.sorted.getArchetype hkey hst) (hv.extend hext) hsrc hb hrun
      obtain ⟨d, i, hre⟩ := hslice j hj
      have hfound := hw'.sound.found hre.occupied
      rw [hre.handle] at hfound
      exact ⟨b, htype, d, i, g', hfound, hre.after⟩
  · have hfrees : castFrees ctx a diff = true := hends.mpr (Bool.not_eq_true _ ▸ hm)
    refine exist_of_freed hw (.cast s diff) hv hp hs hsize ?_
    simp only [Op.freed, Op.released, harch, Option.bind_eq_bind, Option.bind_some, hfrees, if_true]
    exact he

/-! ## Runs of calls -/

/-- A destroyed entity that waits is alive and owns a manually cleaned component. -/
def Waits (ctx : Context) (w : World) (waiting : Entity → Prop) : Prop :=
  ∀ e, waiting e → ∃ a, w.Lives e a ∧ ctx.manualCleaning a.types = true

theorem lifeCycle_step (hctx : ctx.Built) (hreg : ctx.tracks.length < 2 ^ 30) {fuel : Nat}
    (hw : Orderly ctx w) (hwaits : Waits ctx w waiting) (hv : op.Valid w) (hp : op.Orderly ctx w)
    (hk : op.KeepsTrack ctx w waiting) (hs : op.run ctx fuel w = some w')
    (hsize : w'.ents.size < 2 ^ 24) : LifeCycle ctx w waiting op w' := by
  have hw' := hw.step hctx hreg hv hp hs
  have hsize₀ := (aged_step hp.noGroup hs).size_le.trans_lt hsize
  refine ⟨?_, ?_, ?_, ?_⟩
  · rintro s g a rfl harch hm e j hj hf hwait
    exact begins_destroy hctx hw hw' hv hp hk hs harch hm hj hf hwait
  · rintro s rfl e he hwait
    obtain ⟨b, hlives, hm⟩ := hwaits e hwait
    obtain ⟨g, hc⟩ := Option.ne_none_iff_exists'.mp (show w.ValidSlice s from hv).typed
    obtain ⟨a, ha⟩ := hw.listed.alive s.c g hc
    have harch := archetypeOf_eq_some.mpr ⟨hc, ha⟩
    obtain rfl := archetype_of_lives hw hsize₀ hv harch he hlives
    exact repeats_destroy hctx hw hv hp hk hs harch hm he hwait
  · rintro s diff g a rfl harch e he hwait
    exact ends_cast hctx hreg hw hw' hv hp hk hs hsize harch he hwait
  · intro e a _ hlives hout
    exact lives_step hctx hreg hw hw' hv hp hs hsize hlives hout

theorem waits_step (hctx : ctx.Built) (hreg : ctx.tracks.length < 2 ^ 30) {fuel : Nat}
    (hw : Orderly ctx w) (hwaits : Waits ctx w waiting) (hv : op.Valid w) (hp : op.Orderly ctx w)
    (hk : op.KeepsTrack ctx w waiting) (hs : op.run ctx fuel w = some w')
    (hsize : w'.ents.size < 2 ^ 24) : Waits ctx w' (op.waiting ctx w waiting) := by
  have hcycle := lifeCycle_step hctx hreg hw hwaits hv hp hk hs hsize
  have hrest : ∀ e, waiting e → (∀ s, op.slice = some s → e ∉ w.handles s) →
      ∃ a, w'.Lives e a ∧ ctx.manualCleaning a.types = true := by
    intro e hwait hout
    obtain ⟨a, hlives, hm⟩ := hwaits e hwait
    exact ⟨a, hcycle.goesOn e a hwait hlives hout, hm⟩
  intro e he
  cases op with
  | destroy s =>
      by_cases hin : e ∈ w.handles s
      · by_cases hwait : waiting e
        · rw [hcycle.repeats s rfl e hin hwait]
          exact hwaits e hwait
        · obtain ⟨-, g, a, harch, hm⟩ := Or.resolve_left he hwait
          obtain ⟨j, hj, rfl⟩ := mem_handles.mp hin
          have hle := (show w.ValidSlice s from hv).le
          have hocc : w.store.Occupied s.c (s.start + j) :=
            ⟨(show w.ValidSlice s from hv).typed, by omega⟩
          obtain ⟨g', b, htypes, ⟨d, i, hfound, hre⟩, -⟩ :=
            hcycle.begins s g a rfl harch hm _ j hj (hw.sound.found hocc) hwait
          obtain ⟨t, ht, hmanual⟩ := List.any_eq_true.mp hm
          refine ⟨b, ⟨d, i, g', hfound, hre.after⟩, List.any_eq_true.mpr ⟨t, ?_, hmanual⟩⟩
          exact (htypes t).mpr (Or.inr ⟨ht, hmanual⟩)
      · have hwait : waiting e := he.resolve_right fun h => hin h.1
        exact hrest e hwait fun s' hs' => Option.some.inj hs' ▸ hin
  | cast s diff =>
      obtain ⟨hwait, hmanual⟩ := he
      by_cases hin : e ∈ w.handles s
      · obtain ⟨g, hc⟩ := Option.ne_none_iff_exists'.mp (show w.ValidSlice s from hv).typed
        obtain ⟨a, ha⟩ := hw.listed.alive s.c g hc
        have harch := archetypeOf_eq_some.mpr ⟨hc, ha⟩
        have hm := hmanual hin g a harch
        have hends := hcycle.ends s diff g a rfl harch e hin hwait
        rw [hm, if_pos rfl] at hends
        obtain ⟨b, hb, hlives⟩ := hends
        refine ⟨b, hlives, ?_⟩
        rw [Archetype.types, hb]
        exact hm
      · exact hrest e hwait fun s' hs' => Option.some.inj hs' ▸ hin
  | castType s type => exact hk.elim
  | allocate type count => exact hrest e he fun s hs => by simp [Op.slice] at hs
  | instantiate src count => exact hrest e he fun s hs => by simp [Op.slice] at hs
  | getArchetype type => exact hrest e he fun s hs => by simp [Op.slice] at hs
  | query f => exact hrest e he fun s hs => by simp [Op.slice] at hs
  | write memory => exact hrest e he fun s hs => by simp [Op.slice] at hs

theorem waits_of_tracking (hctx : ctx.Built) (hreg : ctx.tracks.length < 2 ^ 30)
    (h : Tracking ctx w waiting) (hsize : w.ents.size < 2 ^ 24) : Waits ctx w waiting := by
  induction h with
  | initial timestamp raw data guids => exact fun _ hwait => hwait.elim
  | step h op hv hp _ hk hs ih =>
      obtain ⟨hw, -⟩ := laid_of_reachable hctx hreg h.reachable
      have hsize₀ := (aged_step hp.noGroup hs).size_le.trans_lt hsize
      exact waits_step hctx hreg hw (ih hsize₀) hv hp hk hs hsize

/-- In every run of tracked calls the destroyed entities that wait are alive and own a
manually cleaned component, and every further call follows the life cycle. -/
theorem lifeCycle_of_tracking (hctx : ctx.Built) (hreg : ctx.tracks.length < 2 ^ 30)
    (h : Tracking ctx w waiting) (hsize : w.ents.size < 2 ^ 24) :
    (∀ e, waiting e → ∃ a, w.whole.Lives e a ∧ ctx.manualCleaning a.types = true) ∧
    ∀ op fuel w', op.Valid w → op.Orderly ctx w → op.LaysOut ctx w →
      op.KeepsTrack ctx w waiting → op.run ctx fuel w = some w' → w'.ents.size < 2 ^ 24 →
        LifeCycle ctx w.whole waiting op w'.whole := by
  obtain ⟨hw, hlaid⟩ := laid_of_reachable hctx hreg h.reachable
  have hwaits := waits_of_tracking hctx hreg h hsize
  refine ⟨fun e he => ?_, fun op fuel w' hv hp hlays hk hs hsize' => ?_⟩
  · obtain ⟨a, hlives, hm⟩ := hwaits e he
    exact ⟨a, hlives.sameSlots (hw.whole hlaid), hm⟩
  · have hlaid' := (builds_run hp.noGroup hs).laid hw.sound.wf hlaid hlays
    exact (lifeCycle_step hctx hreg hw hwaits hv hp hk hs hsize').whole hw
      (hw.step hctx hreg hv hp hs) hlaid hlaid' hv

/-! A destroyed entity with one manually cleaned component, 4: a cast that takes it away
frees the entity, but not when another component was added before. -/

theorem piecesFit_of_small {K : Watched} {srcG : ArchetypeId} {srcA : Archetype}
    (hlt : s.start + s.count ≤ 2 ^ 16) : PiecesFit K w s srcG srcA g := by
  intro p t hcut j hj k _ _
  obtain ⟨-, hle⟩ := hcut.le
  rw [Nat.mod_eq_of_lt (by omega)]

def tracked : Context :=
  (((Context.initial false).registerType { guid := 10, size := 4, manualClean := true }).1.registerType
    { guid := 11, size := 4 }).1

theorem built_tracked : tracked.Built := .register (.register (.initial false) _) _

def destroyFirst : Op := .destroy { c := 0, start := 0, count := 1 }

/-- The component is taken away from the entity in chunk `c`. -/
def takeAway (c : ChunkId) : Op :=
  .cast { c := c, start := 0, count := 1 } { shrink := { types := [4] } }

def addOther : Op := .cast { c := 1, start := 0, count := 1 } { extend := { types := [5] } }

theorem tracking_destroyed : ∃ w waiting,
    runAll tracked 4 blank [.allocate { types := [4] } 1, destroyFirst] = some w ∧
      Tracking tracked w waiting ∧ waiting ⟨0⟩ := by
  have hsome : ((runAll tracked 4 blank [.allocate { types := [4] } 1]).bind fun w =>
      (Op.run tracked 4 w destroyFirst).bind fun _ => (w.archetypeOf 0).bind fun p =>
        (w.getArchetype tracked (cleaningKey tracked p.2)).bind fun q =>
          (q.1.store.archetype q.2).map fun b => (w.store.type 0,
            [w.store.count 0, (w.memory.entityAt 0 0).value, p.2.index tracked.groupId,
              p.2.firstBuffer, p.2.firstManaged, b.firstBuffer, b.firstManaged, b.types.length],
            p.2.types, p.2.cleaning,
            decide (∀ b ∈ constructArchetype tracked (cleaningKey tracked p.2), b.Laid))) =
      some (some 0, [1, 0, invalidIndex, 1, 1, 1, 1, 2], [4], false, true) := by decide +kernel
  obtain ⟨w, hw, hsome⟩ := Option.bind_eq_some_iff.mp hsome
  obtain ⟨w', hw', hsome⟩ := Option.bind_eq_some_iff.mp hsome
  obtain ⟨⟨g, a⟩, harch, hsome⟩ := Option.bind_eq_some_iff.mp hsome
  obtain ⟨⟨w₁, g'⟩, hget, hsome⟩ := Option.bind_eq_some_iff.mp hsome
  obtain ⟨b, hb, hfacts⟩ := Option.map_eq_some_iff.mp hsome
  simp only [Prod.mk.injEq, List.cons.injEq, and_true, decide_eq_true_eq] at hfacts
  obtain ⟨htype, ⟨hcount, hhandle, hgroup, hbuf, hman, hbuf', hman', hlen⟩, htypes, hclean, hlaid⟩ :=
    hfacts
  have hsame : ∀ {g' a'}, w.archetypeOf 0 = some (g', a') → g' = g ∧ a' = a := fun h =>
    Prod.mk.inj (Option.some.inj (h.symm.trans harch))
  have hm : tracked.manualCleaning a.types = true := by
    rw [htypes]
    decide
  have hrun : Op.run tracked 4 blank (.allocate { types := [4] } 1) = some w := by
    simpa [runAll] using hw
  have hstart : Tracking tracked w fun _ => False :=
    (Tracking.initial 1 (fun _ => 0) (fun _ _ => 0) fun _ => []).step
      (.allocate { types := [4] } 1) trivial
      ⟨trivial, trivial, trivial, show SortedTypes [4] from ⟨by decide, by decide⟩⟩
      (Op.laysOut_allocate _ (by decide +kernel)) trivial hrun
  refine ⟨w', _, ?_, hstart.step destroyFirst ?_ ?_ (Op.laysOut_destroy harch fun _ => hlaid) ?_
    hw', ?_⟩
  · rw [runAll, List.foldlM_cons, hrun]
    simpa [runAll] using hw'
  · exact ⟨by simp [htype], by simp, by simp [hcount]⟩
  · refine ⟨fun g' a' h => ?_, trivial, fun g' a' h => Or.inl ?_, trivial⟩
    · rwa [(hsame h).2]
    · rwa [(hsame h).2]
  · intro g₁ a₁ h _
    obtain ⟨rfl, rfl⟩ := hsame h
    refine ⟨fun _ _ hwait => hwait.elim, fun _ _ _ => ?_⟩
    rw [hclean, if_neg Bool.false_ne_true]
    intro w₂ g₂ b₂ hget₂ hb₂
    obtain ⟨rfl, rfl⟩ := Prod.mk.inj (Option.some.inj (hget₂.symm.trans hget))
    obtain rfl : b₂ = b := Option.some.inj (hb₂.symm.trans hb)
    refine ⟨fun k hlo hhi => by omega, piecesFit_of_small (by simp), ?_, by omega,
      fun k hlo hhi => by omega⟩
    rw [htypes]
    decide
  · exact Or.inr ⟨mem_handles.mpr ⟨0, Nat.one_pos, Entity.ext hhandle⟩, g, a, harch, hm⟩

theorem orderly_of_new {diff : TypeDiff} (harch : w.archetypeOf s.c = some (g, a))
    (hkeys : SortedTypes diff.extend.types)
    (hnew : w.store.findArchetype (castedType ctx a diff false) = none) :
    (Op.cast s diff).Orderly ctx w := by
  refine ⟨trivial, trivial, fun g₁ a₁ h => ?_, hkeys⟩
  obtain ⟨rfl, rfl⟩ := Prod.mk.inj (Option.some.inj (h.symm.trans harch))
  intro _ _ _ _ _ hfind
  simp [hnew] at hfind

/-- The cast that takes the last manually cleaned component away. -/
theorem lifeCycle_destroyed : ∃ w w' waiting,
    runAll tracked 4 blank [.allocate { types := [4] } 1, destroyFirst] = some w ∧ waiting ⟨0⟩ ∧
      Op.run tracked 4 w (takeAway 1) = some w' ∧
      LifeCycle tracked w.whole waiting (takeAway 1) w'.whole := by
  obtain ⟨w, waiting, hw, htracking, hwait⟩ := tracking_destroyed
  have hsome : ((runAll tracked 4 blank [.allocate { types := [4] } 1, destroyFirst]).bind fun w =>
      (Op.run tracked 4 w (takeAway 1)).bind fun w' => (w.archetypeOf 1).map fun p =>
        (w.store.type 1, [w.store.count 1, w.ents.size, w'.ents.size],
          w.store.findArchetype (castedType tracked p.2 { shrink := { types := [4] } } false),
          castFrees tracked p.2 { shrink := { types := [4] } },
          tracked.manualCleaning
            (castedType tracked p.2 { shrink := { types := [4] } } false).types)) =
      some (some 1, [1, 1, 1], none, true, false) := by decide +kernel
  rw [hw, Option.bind_some] at hsome
  obtain ⟨w', hw', hsome⟩ := Option.bind_eq_some_iff.mp hsome
  obtain ⟨⟨g, a⟩, harch, hfacts⟩ := Option.map_eq_some_iff.mp hsome
  simp only [Prod.mk.injEq, List.cons.injEq, and_true] at hfacts
  obtain ⟨htype, ⟨hcount, hsize, hsize'⟩, hnew, hfrees, hm⟩ := hfacts
  have hcycle := lifeCycle_of_tracking built_tracked (by decide) htracking (by omega)
  refine ⟨w, w', waiting, hw, hwait, hw', hcycle.2 (takeAway 1) 4 w' ?_ ?_ ?_ ?_ hw' (by omega)⟩
  · exact ⟨by simp [htype], by simp, by simp [hcount]⟩
  · exact orderly_of_new harch ⟨by decide, by decide⟩ hnew
  · exact Op.laysOut_cast harch fun hstays => absurd (hfrees.symm.trans hstays) (by decide)
  · intro g' a' h e _ _
    obtain ⟨-, rfl⟩ := Prod.mk.inj (Option.some.inj (h.symm.trans harch))
    exact ⟨fun _ => hm, fun _ => hfrees⟩

/-- With component 5 added while the entity was dying, it is not freed. -/
theorem not_lifeCycle_extended : ∃ w w' waiting,
    runAll tracked 4 blank [.allocate { types := [4] } 1, destroyFirst, addOther] = some w ∧
      Tracking tracked w waiting ∧ waiting ⟨0⟩ ∧ (takeAway 2).Valid w ∧
      (takeAway 2).Orderly tracked w ∧ (takeAway 2).LaysOut tracked w ∧
      Op.run tracked 4 w (takeAway 2) = some w' ∧ w'.ents.size = 1 ∧
      ¬ LifeCycle tracked w.whole waiting (takeAway 2) w'.whole := by
  obtain ⟨w₁, waiting, hw₁, htracking, hwait⟩ := tracking_destroyed
  have hadd : ((runAll tracked 4 blank [.allocate { types := [4] } 1, destroyFirst]).bind fun w =>
      (Op.run tracked 4 w addOther).bind fun _ => (w.archetypeOf 1).map
        fun p : ArchetypeId × Archetype =>
        (w.store.type 1, w.store.count 1,
          w.store.findArchetype (castedType tracked p.2 { extend := { types := [5] } } false),
          castFrees tracked p.2 { extend := { types := [5] } },
          tracked.manualCleaning
            (castedType tracked p.2 { extend := { types := [5] } } false).types,
          decide (∀ b ∈ constructArchetype tracked
            (castedType tracked p.2 { extend := { types := [5] } } false), b.Laid))) =
      some (some 1, 1, none, false, true, true) := by decide +kernel
  have htake : ((runAll tracked 4 blank
      [.allocate { types := [4] } 1, destroyFirst, addOther]).bind fun w =>
      (Op.run tracked 4 w (takeAway 2)).bind fun w' => (w.archetypeOf 2).map
        fun p : ArchetypeId × Archetype =>
        (w.store.type 2, [w.store.count 2, (w.memory.entityAt 2 0).value, w'.ents.size],
          w.store.findArchetype (castedType tracked p.2 { shrink := { types := [4] } } false),
          w'.ents.exist ⟨0⟩,
          tracked.manualCleaning
            (castedType tracked p.2 { shrink := { types := [4] } } false).types,
          decide (∀ b ∈ constructArchetype tracked
            (castedType tracked p.2 { shrink := { types := [4] } } false), b.Laid))) =
      some (some 2, [1, 0, 1], none, true, false, true) := by decide +kernel
  rw [hw₁, Option.bind_some] at hadd
  obtain ⟨w, hw, hadd⟩ := Option.bind_eq_some_iff.mp hadd
  obtain ⟨⟨g₁, a₁⟩, harch₁, hfacts₁⟩ := Option.map_eq_some_iff.mp hadd
  simp only [Prod.mk.injEq, decide_eq_true_eq] at hfacts₁
  obtain ⟨htype₁, hcount₁, hnew₁, hfrees₁, hm₁, hlaid₁⟩ := hfacts₁
  have hrun : runAll tracked 4 blank [.allocate { types := [4] } 1, destroyFirst, addOther] =
      some w := by
    rw [runAll] at hw₁ ⊢
    rw [show [Op.allocate { types := [4] } 1, destroyFirst, addOther] =
      [.allocate { types := [4] } 1, destroyFirst] ++ [addOther] from rfl, List.foldlM_append, hw₁]
    simpa using hw
  rw [hrun, Option.bind_some] at htake
  obtain ⟨w', hw', htake⟩ := Option.bind_eq_some_iff.mp htake
  obtain ⟨⟨g, a⟩, harch, hfacts⟩ := Option.map_eq_some_iff.mp htake
  simp only [Prod.mk.injEq, List.cons.injEq, and_true, decide_eq_true_eq] at hfacts
  obtain ⟨htype, ⟨hcount, hhandle, hsize⟩, hnew, hexist, hm, hlaid⟩ := hfacts
  have hsame₁ : ∀ {g' a'}, w₁.archetypeOf 1 = some (g', a') → a' = a₁ := fun h =>
    (Prod.mk.inj (Option.some.inj (h.symm.trans harch₁))).2
  have hext : Tracking tracked w (Op.waiting tracked w₁ waiting addOther) := by
    refine htracking.step addOther ⟨by simp [htype₁], by simp, by simp [hcount₁]⟩
      (orderly_of_new harch₁ ⟨by decide, by decide⟩ hnew₁)
      (Op.laysOut_cast harch₁ fun _ => hlaid₁) ?_ hw
    intro g' a' h e _ _
    rw [hsame₁ h, hfrees₁, hm₁]
    simp
  have hstill : Op.waiting tracked w₁ waiting addOther ⟨0⟩ :=
    ⟨hwait, fun _ g' a' h => by rwa [hsame₁ h]⟩
  have hv : w.ValidSlice { c := 2, start := 0, count := 1 } :=
    ⟨by simp [htype], Nat.one_pos, by simp [hcount]⟩
  refine ⟨w, w', _, hrun, hext, hstill, hv, orderly_of_new harch ⟨by decide, by decide⟩ hnew,
    Op.laysOut_cast harch fun _ => hlaid, hw', hsize, fun hcycle => ?_⟩
  obtain ⟨hw, hblocks⟩ := laid_of_reachable built_tracked (by decide) hext.reachable
  have hends := hcycle.ends _ _ g a rfl harch ⟨0⟩ (by
    rw [handles_sameSlots (hw.whole hblocks) hv]
    exact mem_handles.mpr ⟨0, Nat.one_pos, Entity.ext hhandle⟩) hstill
  rw [hm, if_neg Bool.false_ne_true, show w'.whole.ents.exist ⟨0⟩ = true from hexist] at hends
  exact Bool.false_ne_true hends.symm

end World

end Dots

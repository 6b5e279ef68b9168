import Dots.Database.LifeCycle

/-!
# Groups under `destroy`

`world::destroy` is meant to take the members of a group along, and the members of their
groups. Here is when its group loops do no harm, and what it does then.
-/

namespace Dots

open Library Entities

namespace World

variable {ctx : Context} {w w' : World} {g h : ArchetypeId} {a b : Archetype} {c : ChunkId}
  {i : Nat} {s : ChunkSlice} {e m : Entity} {fuel : Nat}

/-- `m` stands behind the root in the group of `e`. -/
def MemberOf (ctx : Context) (w : World) (e m : Entity) : Prop :=
  ∃ c i g a j, w.Found e c i ∧ w.archetypeOf c = some (g, a) ∧
    a.index ctx.groupId ≠ invalidIndex ∧ 0 < j ∧
    j < w.groupSize c (a.address (w.store.ct c) (a.index ctx.groupId) i) ∧
    w.groupMember c (a.address (w.store.ct c) (a.index ctx.groupId) i) j = some m

/-- The entities that go with a slice: its own, the members of their groups, and so on. -/
inductive Doomed (ctx : Context) (w : World) (s : ChunkSlice) : Entity → Prop
  | entity {e : Entity} (he : e ∈ w.handles s) : Doomed ctx w s e
  | member {e m : Entity} (he : Doomed ctx w s e) (hm : w.MemberOf ctx e m) : Doomed ctx w s m

/-- The group loops find no members, and there are none to find outside the slice. -/
structure SelfContained (ctx : Context) (w : World) (s : ChunkSlice) : Prop where
  memberless : w.Memberless ctx s
  closed : ∀ e ∈ w.handles s, ∀ m, w.MemberOf ctx e m → m ∈ w.handles s

/-- What destroying a slice with its groups comes to. -/
structure GroupDestroyed (ctx : Context) (w : World) (s : ChunkSlice) (w' : World) : Prop where
  /-- Each doomed entity is freed once, or keeps just what its program cleans up. -/
  doomed : ∀ e a, w.Doomed ctx s e → w.Lives e a →
    if a.cleaning then w'.Lives e a
    else if ctx.manualCleaning a.types then
      ∃ b, (∀ t, t ∈ b.types ↔ t = ctx.cleanupId ∨
        t ∈ a.types ∧ (ctx.track t).manualCleaning = true) ∧ w'.Lives e b
    else w'.ents.exist e = false ∧ (w'.ents.datas e.id).v = Entity.nextVersion e.version
  /-- The others keep their components. -/
  spared : ∀ e c i g a, w.Found e c i → ¬ w.Doomed ctx s e → w.archetypeOf c = some (g, a) →
    ∃ d j, w'.Found e d j ∧ Carried everyColumn g a w c i w' d j
  /-- And the heap blocks that no buffer of the slice points at. -/
  blocks : ∀ g a d, w.archetypeOf s.c = some (g, a) →
    (∀ l, a.firstBuffer ≤ l → l < a.firstManaged → ∀ j < s.count,
      (Mem.readBuffer (w.memory.data s.c)
        (a.address (w.store.ct s.c) l (s.start + j))).d ≠ d) →
    w'.memory.heap d = w.memory.heap d

/-! ## One call -/

theorem SelfContained.mem_handles (h : w.SelfContained ctx s) (he : w.Doomed ctx s e) :
    e ∈ w.handles s := by
  induction he with
  | entity he => exact he
  | member _ hm ih => exact h.closed _ ih _ hm

/-- An entity of a slice that is freed. -/
theorem exist_of_destroySingle (hv : w.ValidSlice s)
    (htracks : Tracks w.ents w.memory w.store.Occupied)
    (hs : w.destroySingle ctx fuel s = some w') (he : e ∈ Op.freed ctx w (.destroy s)) :
    w'.ents.exist e = false ∧ (w'.ents.datas e.id).v = Entity.nextVersion e.version := by
  obtain ⟨hid, hversion, hcount⟩ := mem_freed (show (Op.destroy s).Valid w from hv) htracks he
  have hnext := (aged_destroySingle hs).version e.id hid
  rw [hcount, hversion] at hnext
  refine ⟨?_, hnext⟩
  have hne := Entity.nextVersion_iterate_ne e.version_lt Nat.one_pos (by decide)
  simp only [Entities.exist, Bool.and_eq_false_iff, beq_eq_false_iff_ne]
  right
  rw [hnext]
  exact hne.symm

theorem Orderly.destroy (hctx : ctx.Built) (hw : Orderly ctx w) (hv : w.ValidSlice s)
    (hgroup : w.Memberless ctx s) (hs : w.destroy ctx fuel s = some w') : Orderly ctx w' := by
  have hempty : w.GroupsEmpty ctx s := fun g a harch => (hgroup g a harch).imp_right Or.inr
  have hlisted := listed_destroy hctx hw.listed hv hempty hs
  cases fuel with
  | zero => simp [World.destroy] at hs
  | succ fuel =>
      have hsingle := destroy_memberless hgroup hs
      exact ⟨hw.sound.destroySingle hctx hv hsingle, hlisted,
        sorted_destroySingle hctx hw.sorted hsingle⟩

/-- The entities of the slice. -/
theorem doomed_destroy (hctx : ctx.Built) (hw : Orderly ctx w) (hw' : Orderly ctx w')
    (hsize : w.ents.size < 2 ^ 24) (hv : w.ValidSlice s) (hgroup : w.Memberless ctx s)
    (hs : w.destroy ctx fuel s = some w') (harch : w.archetypeOf s.c = some (g, a))
    (he : e ∈ w.handles s) :
    if a.cleaning then w'.Lives e a
    else if ctx.manualCleaning a.types then
      ∃ b, (∀ t, t ∈ b.types ↔ t = ctx.cleanupId ∨
        t ∈ a.types ∧ (ctx.track t).manualCleaning = true) ∧ w'.Lives e b
    else w'.ents.exist e = false ∧ (w'.ents.datas e.id).v = Entity.nextVersion e.version := by
  have hbuilt := (hw.listed.built g a (archetypeOf_eq_some.mp harch).2).2
  obtain ⟨j, hj, rfl⟩ := mem_handles.mp he
  have hle := hv.le
  have hfound := hw.sound.found (c := s.c) (i := s.start + j) ⟨hv.typed, by omega⟩
  have hdead := leavesDead_eq hbuilt
  obtain ⟨g₁, a₁, harch₁, hcase⟩ := destroy_moves hctx hw hgroup hs
  obtain ⟨rfl, rfl⟩ := Prod.mk.inj (Option.some.inj (harch.symm.trans harch₁))
  rcases hcase with ⟨hclean, rfl⟩ | ⟨hclean, hnone, -⟩ | ⟨hclean, hsome, st, g', b, ss, -, hext, hl,
    -, hb, hkey, hg, hcast⟩
  · rw [hclean, if_pos rfl]
    exact ⟨s.c, s.start + j, g, hfound, harch⟩
  · rw [hnone] at hdead
    rw [hclean, ← hdead, if_neg Bool.false_ne_true, if_neg Bool.false_ne_true]
    have hfreed : w.memory.entityAt s.c (s.start + j) ∈ Op.freed ctx w (.destroy s) := by
      simpa [Op.freed, Op.released, harch, hclean, hnone] using he
    cases fuel with
    | zero => simp [World.destroy] at hs
    | succ fuel =>
        exact exist_of_destroySingle hv
          ((hw.sound.tracks hsize).mono fun c i hi => ⟨hi, not_false⟩)
          (destroy_memberless hgroup hs) hfreed
  · rw [hsome] at hdead
    rw [hclean, ← hdead, if_neg Bool.false_ne_true, if_pos rfl]
    have hsrc := (Carried.of_extended (i := 0) harch hext).after
    obtain ⟨-, hslice⟩ := castSlice_moves hctx hl (hv.extend hext) hsrc hb hg hcast
    obtain ⟨d, i, hre⟩ := hslice j hj
    have hre' : Recast noColumn w s a j g' b w' d i :=
      ⟨hre.occupied, hre.after, hre.handle, fun _ _ _ _ => False.elim⟩
    have htypes : b.types = cleaningTypes ctx a := congrArg EntityType.types hkey
    exact ⟨b, fun t => htypes ▸ mem_cleaningTypes, d, i, g', hre'.found hw' hfound, hre.after⟩

theorem groupDestroyed_destroy (hctx : ctx.Built) (hw : Orderly ctx w)
    (hsize : w.ents.size < 2 ^ 24) (hv : w.ValidSlice s) (hself : w.SelfContained ctx s)
    (hfit : Op.DataFits ctx w (.destroy s)) (hs : w.destroy ctx fuel s = some w') :
    GroupDestroyed ctx w s w' := by
  have hw' := hw.destroy hctx hv hself.memberless hs
  have hund := undisturbed_destroy hctx hw hw' hv hself.memberless hfit hs
  refine ⟨fun e a hdoomed hlives => ?_, fun e c i g a hf hspared harch => ?_, hund.blocks⟩
  · have he := hself.mem_handles hdoomed
    obtain ⟨g, hc⟩ := Option.ne_none_iff_exists'.mp hv.typed
    obtain ⟨b, hb⟩ := hw.listed.alive s.c g hc
    have harch := archetypeOf_eq_some.mpr ⟨hc, hb⟩
    obtain rfl := archetype_of_lives hw hsize hv harch he hlives
    exact doomed_destroy hctx hw hw' hsize hv hself.memberless hs harch he
  · refine hund.outside e c i g a hf (fun hin => hspared (.entity ?_)) harch
    obtain ⟨rfl, hlo, hhi⟩ := hin
    refine mem_handles.mpr ⟨i - s.start, by omega, ?_⟩
    rw [Nat.add_sub_cancel' hlo]
    exact hf.handle

/-- The same on whole blocks. -/
theorem GroupDestroyed.whole (hw : Orderly ctx w) (hw' : Orderly ctx w') (hlaid : w.store.Laid)
    (hlaid' : w'.store.Laid) (hv : w.ValidSlice s) (hself : w.SelfContained ctx s)
    (hself' : w.whole.SelfContained ctx s) (h : GroupDestroyed ctx w s w') :
    GroupDestroyed ctx w.whole s w'.whole := by
  have hs := hw.whole hlaid
  have hs' := hw'.whole hlaid'
  have hhandles := handles_sameSlots hs hv
  refine ⟨fun e a hdoomed hlives => ?_, fun e c i g a hf hspared harch => ?_,
    fun g a d harch hno => ?_⟩
  · have he := hself'.mem_handles hdoomed
    rw [hhandles] at he
    have hend := h.doomed e a (.entity he) (hlives.sameSlots hs.symm)
    split_ifs at hend ⊢
    · exact hend.sameSlots hs'
    · obtain ⟨b, htypes, hlives⟩ := hend
      exact ⟨b, htypes, hlives.sameSlots hs'⟩
    · exact hend
  · have hf' := hf.sameSlots hs.symm
    rw [hs.archetypeOf] at harch
    obtain ⟨d, j, hfound, hcar⟩ := h.spared e c i g a hf' (fun hdoomed => hspared (.entity (by
      rw [hhandles]
      exact hself.mem_handles hdoomed))) harch
    exact ⟨d, j, hfound.sameSlots hs', hcar.sameSlots hs hs' hf'.occupied hfound.occupied⟩
  · rw [hs.archetypeOf] at harch
    refine h.blocks g a d harch fun l hlo hhi j hj => ?_
    rw [← hs.buffer hw.listed hlaid hv harch hlo hhi hj]
    exact hno l hlo hhi j hj

end World

/-! ## Runs -/

/-- Orderly calls, or a `destroy` whose group loops find no members, wherever in the blocks
they look. -/
def Op.Grouped (ctx : Context) (w : World) (op : Op) : Prop :=
  op.Orderly ctx w ∨ ∃ s, op = .destroy s ∧ w.Memberless ctx s ∧ w.whole.Memberless ctx s

namespace World

variable {ctx : Context} {w w' : World} {s : ChunkSlice} {fuel : Nat}

theorem builds_destroy (hgroup : w.Memberless ctx s) (hs : w.destroy ctx fuel s = some w') :
    Builds ctx w (.destroy s) w' := by
  cases fuel with
  | zero => simp [World.destroy] at hs
  | succ fuel => exact builds_destroySingle (destroy_memberless hgroup hs)

theorem laid_of_grouped (hctx : ctx.Built) (hreg : ctx.tracks.length < 2 ^ 30)
    (h : Reachable ctx (fun w op => op.Grouped ctx w ∧ op.LaysOut ctx w) w) :
    Orderly ctx w ∧ w.store.Laid := by
  refine h.invariant (I := fun w => Orderly ctx w ∧ w.store.Laid)
    (fun timestamp raw data guids => ⟨orderly_initial ctx timestamp raw data guids,
      laid_initial timestamp raw data guids⟩) ?_
  rintro w op fuel w' hv ⟨hp, hlays⟩ hs ⟨hw, hlaid⟩
  rcases hp with hp | ⟨s, rfl, hgroup, -⟩
  · exact ⟨hw.step hctx hreg hv hp hs, (builds_run hp.noGroup hs).laid hw.sound.wf hlaid hlays⟩
  · exact ⟨hw.destroy hctx hv hgroup hs, (builds_destroy hgroup hs).laid hw.sound.wf hlaid hlays⟩

/-- In every world that such calls reach, `destroy` of a slice whose group loops find no
members, where none stand outside the slice, destroys its entities and disturbs no other. -/
theorem groupDestroyed_of_reachable (hctx : ctx.Built) (hreg : ctx.tracks.length < 2 ^ 30)
    (h : Reachable ctx (fun w op => op.Grouped ctx w ∧ op.LaysOut ctx w) w)
    (hsize : w.ents.size < 2 ^ 24) (hv : w.ValidSlice s) (hself : w.SelfContained ctx s)
    (hself' : w.whole.SelfContained ctx s) (hlays : (Op.destroy s).LaysOut ctx w)
    (hfit : Op.DataFits ctx w (.destroy s)) (hs : w.destroy ctx fuel s = some w') :
    GroupDestroyed ctx w.whole s w'.whole := by
  obtain ⟨hw, hlaid⟩ := laid_of_grouped hctx hreg h
  exact (groupDestroyed_destroy hctx hw hsize hv hself hfit hs).whole hw
    (hw.destroy hctx hv hself.memberless hs) hlaid
    ((builds_destroy hself.memberless hs).laid hw.sound.wf hlaid hlays) hv hself hself'

/-! The second of two entities with empty groups is destroyed. A group of the entities 2 and 1
makes `destroy` free entity 0. -/

def grouped : Context := ((Context.initial false).registerType { guid := 10, size := 4 }).1

theorem built_grouped : grouped.Built := .register (.initial false) _

/-- Two entities with empty groups. -/
def twoGroups : Option World := runAll grouped 4 blank [.allocate { types := [grouped.groupId] } 2]

/-- Where the entities' groups are empty, nothing is found and nothing left out. -/
theorem selfContained_of_empty (htracks : Tracks w.ents w.memory w.store.Occupied)
    (hv : w.ValidSlice s) {g : ArchetypeId} {a : Archetype} (harch : w.archetypeOf s.c = some (g, a))
    (hno : w.NoMembers a s.c (a.index ctx.groupId) s.count)
    (hempty : ∀ j < s.count,
      w.groupSize s.c (a.address (w.store.ct s.c) (a.index ctx.groupId) (s.start + j)) = 0) :
    w.SelfContained ctx s where
  memberless g' a' h := by
    obtain ⟨-, rfl⟩ := Prod.mk.inj (Option.some.inj (h.symm.trans harch))
    exact Or.inr hno
  closed e he m hm := by
    obtain ⟨j, hj, rfl⟩ := mem_handles.mp he
    obtain ⟨c, i, g', a', l, hfound, ha', -, -, hl, -⟩ := hm
    have hle := hv.le
    obtain ⟨rfl, rfl⟩ := htracks.unique hfound.occupied ⟨hv.typed, by omega⟩
      (congrArg Entity.id hfound.handle)
    obtain ⟨-, rfl⟩ := Prod.mk.inj (Option.some.inj (ha'.symm.trans harch))
    rw [hempty j hj] at hl
    exact absurd hl (Nat.not_lt_zero l)

theorem groupDestroyed_second : ∃ w w', twoGroups = some w ∧
    w.destroy grouped 4 { c := 0, start := 1, count := 1 } = some w' ∧
    GroupDestroyed grouped w.whole { c := 0, start := 1, count := 1 } w'.whole := by
  have hsome : (twoGroups.bind fun w =>
      (w.destroy grouped 4 { c := 0, start := 1, count := 1 }).bind fun w' =>
        (w.archetypeOf 0).map fun p => (w.store.type 0, [w.store.count 0, w.ents.size],
          leavesDead grouped p.2,
          [w, w.whole].flatMap (fun v =>
            [v.groupSize 0 (p.2.address (w.store.ct 0) (p.2.index grouped.groupId) 0),
              v.groupSize 0 (p.2.address (w.store.ct 0) (p.2.index grouped.groupId) 1)]))) =
      some (some 0, [2, 2], false, [0, 0, 0, 0]) := by decide +kernel
  obtain ⟨w, hw, hsome⟩ := Option.bind_eq_some_iff.mp hsome
  obtain ⟨w', hw', hsome⟩ := Option.bind_eq_some_iff.mp hsome
  obtain ⟨⟨g, a⟩, harch, hfacts⟩ := Option.map_eq_some_iff.mp hsome
  simp only [Prod.mk.injEq, List.flatMap_cons, List.flatMap_nil, List.cons_append, List.nil_append,
    List.cons.injEq, and_true] at hfacts
  obtain ⟨htype, ⟨hcount, hsize⟩, hdead, hfirst, hsecond, hfirst', hsecond'⟩ := hfacts
  have hreach : Reachable grouped
      (fun w op => op.Grouped grouped w ∧ op.LaysOut grouped w) w := by
    refine (reachable_blank grouped _).runAll ?_ hw
    intro op hop v
    obtain rfl := List.mem_singleton.mp hop
    exact ⟨trivial, Or.inl ⟨trivial, trivial, trivial, by decide, by decide⟩,
      Op.laysOut_allocate _ (by decide +kernel)⟩
  have hv : w.ValidSlice { c := 0, start := 1, count := 1 } :=
    ⟨by simp [htype], Nat.one_pos, by simp [hcount]⟩
  obtain ⟨hgood, hlaid⟩ := laid_of_grouped built_grouped (by decide) hreach
  have htracks : Tracks w.ents w.memory w.store.Occupied :=
    (hgood.sound.tracks (by omega)).mono fun c i hi => ⟨hi, not_false⟩
  have hstamped : Tracks w.ents w.whole.memory w.store.Occupied :=
    htracks.memory (hgood.whole hlaid).handle
  refine ⟨w, w', hw, hw', groupDestroyed_of_reachable built_grouped (by decide) hreach (by omega)
    hv (selfContained_of_empty htracks hv harch ?_ ?_)
    (selfContained_of_empty (w := w.whole) hstamped ⟨hv.typed, hv.pos, hv.le⟩ harch ?_ ?_) ?_
    (fun g' a' h _ => ?_) hw'⟩
  · intro i hi
    obtain rfl : i = 0 := Nat.lt_one_iff.mp hi
    rw [Nat.zero_mul, Nat.add_zero, hfirst]
    exact Nat.zero_le 1
  · intro j hj
    obtain rfl : j = 0 := Nat.lt_one_iff.mp hj
    exact hsecond
  · intro i hi
    obtain rfl : i = 0 := Nat.lt_one_iff.mp hi
    rw [Nat.zero_mul, Nat.add_zero]
    exact hfirst'.trans_le (Nat.zero_le 1)
  · intro j hj
    obtain rfl : j = 0 := Nat.lt_one_iff.mp hj
    exact hsecond'
  · exact Op.laysOut_destroy harch fun hleaves => by simp [hdead] at hleaves
  · obtain ⟨-, rfl⟩ := Prod.mk.inj (Option.some.inj (h.symm.trans harch))
    rw [hdead, if_neg Bool.false_ne_true]
    intro g₁ a₁ _ j _ k _ _
    simp only [tailStart, tailCount, hcount]
    rfl

/-- Two entities with a component, and a third with a group. -/
def oneGroup : Option World :=
  runAll grouped 4 blank
    [.allocate { types := [4] } 2, .allocate { types := [grouped.groupId] } 1]

/-- The program makes 2 and 1 the members of the group. -/
def writeGroup (w : World) : Memory :=
  let m := w.memory.setData 1
    (Mem.writeWord (Mem.writeWord (w.memory.data 1) 168 1 8) 176 8 2)
  let bytes := Mem.writeEntity (Mem.writeEntity (fun _ => 0) 0 ⟨512⟩) 1 ⟨256⟩
  { m with
    heap := Function.update m.heap 1 (some { size := 8, bytes := bytes })
    freshBlock := 2 }

theorem writeGroup_keeps (hcount : w.store.count 1 = 1) (c : ChunkId) (i : Nat)
    (hi : w.store.Occupied c i) : (writeGroup w).entityAt c i = w.memory.entityAt c i := by
  have hwrites : Memory.Writes 1 (fun x => 168 ≤ x) w.memory (w.memory.setData 1
      (Mem.writeWord (Mem.writeWord (w.memory.data 1) 168 1 8) 176 8 2)) := by
    apply Memory.Writes.setData
    refine (Mem.SameOff.writeWord 1 fun x hx _ => hx).trans
      (Mem.SameOff.writeWord 8 fun x hx _ => ?_)
    omega
  apply entityAt_of_writes hwrites
  rintro rfl x hx
  have := hi.2
  unfold sizeofEntity
  omega

/-- The member of a group stays alive, and an entity outside the group is freed. -/
theorem not_groupDestroyed_third : ∃ w w' addr, oneGroup = some w ∧
    Reachable grouped (fun w op => op.Grouped grouped w ∧ op.LaysOut grouped w)
      { w with memory := writeGroup w } ∧
    w.ents.size < 2 ^ 24 ∧ w.store.Laid ∧
    World.groupSize (World.whole { w with memory := writeGroup w }) 1 addr = 2 ∧
    World.groupMember (World.whole { w with memory := writeGroup w }) 1 addr 0 = some ⟨512⟩ ∧
    World.groupMember (World.whole { w with memory := writeGroup w }) 1 addr 1 = some ⟨256⟩ ∧
    w.ents.exist ⟨512⟩ = true ∧ w.ents.exist ⟨256⟩ = true ∧
    World.ValidSlice { w with memory := writeGroup w } { c := 1, start := 0, count := 1 } ∧
    World.destroy grouped 4 { w with memory := writeGroup w } { c := 1, start := 0, count := 1 } =
      some w' ∧ w'.store.Laid ∧
    ¬ GroupDestroyed grouped (World.whole { w with memory := writeGroup w })
      { c := 1, start := 0, count := 1 } w'.whole := by
  have hsome : (oneGroup.bind fun w =>
      (World.destroy grouped 4 { w with memory := writeGroup w }
        { c := 1, start := 0, count := 1 }).bind fun w' =>
        (w.archetypeOf 0).bind fun p => (w.archetypeOf 1).map fun q =>
          ([w.store.type 0, w.store.type 1],
            [w.store.count 0, w.store.count 1, w.ents.size, q.2.index grouped.groupId,
              q.2.address (w.store.ct 1) 0 0],
            [p.2.cleaning, grouped.manualCleaning p.2.types, w.ents.exist ⟨512⟩,
              w.ents.exist ⟨256⟩, w'.ents.exist ⟨256⟩],
            decide (w.store.Laid ∧ w'.store.Laid))) =
      some ([some 0, some 1], [2, 1, 3, 0, 168], [false, false, true, true, true], true) := by
    decide +kernel
  have hmembers : oneGroup.map (fun w => ([(writeGroup w).entityAt 1 0, (writeGroup w).entityAt 0 1],
      World.groupSize (World.whole { w with memory := writeGroup w }) 1 168,
      World.groupMember (World.whole { w with memory := writeGroup w }) 1 168 0,
      World.groupMember (World.whole { w with memory := writeGroup w }) 1 168 1)) =
      some ([⟨512⟩, ⟨256⟩], 2, some ⟨512⟩, some ⟨256⟩) := by decide +kernel
  obtain ⟨w, hw, hsome⟩ := Option.bind_eq_some_iff.mp hsome
  obtain ⟨w', hw', hsome⟩ := Option.bind_eq_some_iff.mp hsome
  obtain ⟨⟨g, a⟩, ha, hsome⟩ := Option.bind_eq_some_iff.mp hsome
  obtain ⟨⟨h, b⟩, hb, hfacts⟩ := Option.map_eq_some_iff.mp hsome
  simp only [Prod.mk.injEq, List.cons.injEq, and_true, decide_eq_true_eq] at hfacts
  obtain ⟨⟨htype, htype'⟩, ⟨hcount, hcount', hsize, hindex, haddr⟩,
    ⟨hclean, hmanual, hroot, hmember, halive⟩, hlaid, hlaid'⟩ := hfacts
  rw [hw, Option.map_some, Option.some.injEq] at hmembers
  simp only [Prod.mk.injEq, List.cons.injEq, and_true] at hmembers
  obtain ⟨⟨hhandle, hhandle'⟩, htwo, hzero, hone⟩ := hmembers
  have hstart : Reachable grouped
      (fun w op => op.Grouped grouped w ∧ op.LaysOut grouped w) w := by
    refine (reachable_blank grouped _).runAll ?_ hw
    intro op hop v
    rcases List.mem_pair.mp hop with rfl | rfl
    · exact ⟨trivial, Or.inl ⟨trivial, trivial, trivial, by decide, by decide⟩,
        Op.laysOut_allocate _ (by decide +kernel)⟩
    · exact ⟨trivial, Or.inl ⟨trivial, trivial, trivial, by decide, by decide⟩,
        Op.laysOut_allocate _ (by decide +kernel)⟩
  have hreach := hstart.step (.write (writeGroup w)) (writeGroup_keeps hcount')
    ⟨Or.inl ⟨trivial, trivial, trivial, trivial⟩, fun _ => False.elim⟩
    (show Op.run grouped 0 w (.write (writeGroup w)) = some _ from rfl)
  obtain ⟨hgood, -⟩ := laid_of_grouped built_grouped (by decide) hreach
  have hsame := hgood.whole hlaid
  have hfound : World.Found (World.whole { w with memory := writeGroup w }) ⟨256⟩ 0 1 := by
    rw [← hhandle']
    exact (hgood.sound.found ⟨by simp [htype], by rw [hcount]; decide⟩).sameSlots hsame
  have hfound' : World.Found (World.whole { w with memory := writeGroup w }) ⟨512⟩ 1 0 := by
    rw [← hhandle]
    exact (hgood.sound.found ⟨by simp [htype'], by rw [hcount']; decide⟩).sameSlots hsame
  refine ⟨w, w', 168, hw, hreach, by omega, hlaid, htwo, hzero, hone, hroot, hmember,
    ⟨by simp [htype'], Nat.one_pos, by simp [hcount']⟩, hw', hlaid', fun hdes => ?_⟩
  have hdoomed : World.Doomed grouped (World.whole { w with memory := writeGroup w })
      { c := 1, start := 0, count := 1 } ⟨256⟩ := by
    refine .member (.entity (mem_handles.mpr ⟨0, Nat.one_pos, hfound'.handle⟩)) ?_
    refine ⟨1, 0, h, b, 1, hfound', hb, ?_, Nat.one_pos, ?_, ?_⟩
    · rw [hindex]
      decide
    · rw [hindex]
      change 1 < World.groupSize _ 1 (b.address (w.store.ct 1) 0 0)
      rw [haddr, htwo]
      decide
    · rw [hindex]
      change World.groupMember _ 1 (b.address (w.store.ct 1) 0 0) 1 = _
      rw [haddr]
      exact hone
  have hdead := hdes.doomed ⟨256⟩ a hdoomed ⟨0, 1, g, hfound, ha⟩
  rw [hclean, hmanual, if_neg Bool.false_ne_true, if_neg Bool.false_ne_true,
    show w'.whole.ents.exist ⟨256⟩ = true from halive] at hdead
  exact Bool.false_ne_true hdead.1.symm

end World

end Dots

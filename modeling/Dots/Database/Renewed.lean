import Dots.Database.LifeCycle

/-!
# Archetypes over a run

Archetypes are made for keys that have none and freed with their last chunk. A number is
never given out twice.
-/

namespace Dots

open Library

/-! ## What a call does to the archetypes -/

namespace Store

variable {ctx : Context} {st st' st'' : Store} {g : ArchetypeId} {a : Archetype} {c : ChunkId}
  {ents : Entities} {n : Nat}

/-- Archetypes are numbered as they are made; the map `archetypes` has those that live, by
their types. -/
structure Known (st : Store) : Prop where
  numbered : ∀ g a, st.archetype g = some a → g < st.freshArchetype
  listed : ∀ g, g ∈ st.archetypes ↔ ∃ a, st.archetype g = some a
  distinct : ∀ g h a b, st.archetype g = some a → st.archetype h = some b →
    a.type = b.type → g = h

/-- Archetypes are made and freed; none comes back. -/
structure Renewed (st st' : Store) : Prop where
  fresh : st.freshArchetype ≤ st'.freshArchetype
  older : ∀ g < st.freshArchetype, ∀ a, st'.archetype g = some a → st.archetype g = some a
  known : st.Known → st'.Known

theorem Renewed.refl (st : Store) : Renewed st st := ⟨le_rfl, fun _ _ _ => id, id⟩

theorem Renewed.trans (h : Renewed st st') (h' : Renewed st' st'') : Renewed st st'' where
  fresh := h.fresh.trans h'.fresh
  older g hg a ha := h.older g hg a (h'.older g (hg.trans_le h.fresh) a ha)
  known := h'.known ∘ h.known

theorem Renewed.of_eq (h : st'.archetype = st.archetype)
    (hf : st'.freshArchetype = st.freshArchetype) (hl : st'.archetypes = st.archetypes) :
    Renewed st st' where
  fresh := hf.ge
  older g _ a ha := h ▸ ha
  known hk := ⟨by rw [h, hf]; exact hk.numbered, by rw [h, hl]; exact hk.listed,
    by rw [h]; exact hk.distinct⟩

theorem renewed_structuralChange (st : Store) (g : ArchetypeId) (a : Archetype) (c : ChunkId) :
    Renewed st (st.structuralChange g a c) := by
  have hshape := structuralChange_shape st g a c
  refine .of_eq hshape.archetype hshape.freshArchetype ?_
  unfold structuralChange
  split <;> rfl

theorem renewed_addSize (st : Store) (g : ArchetypeId) (n : Nat) : Renewed st (st.addSize g n) :=
  .of_eq rfl rfl rfl

theorem renewed_subSize (st : Store) (g : ArchetypeId) (n : Nat) : Renewed st (st.subSize g n) :=
  .of_eq rfl rfl rfl

theorem renewed_splice (hs : st.splice g a c = some st') : Renewed st st' := by
  obtain ⟨-, -, -, -, hfresh, harch⟩ := splice_retyped hs
  refine .of_eq harch hfresh ?_
  unfold splice at hs
  cases hf : st.firstChunk g with
  | none =>
      rw [hf] at hs
      rw [← Option.some.inj hs]
  | some head =>
      simp only [hf] at hs
      by_cases hlt : st.count c < a.chunkCapacity (st.ct c)
      · rw [if_pos hlt] at hs
        cases hl : st.lastChunk g with
        | none => simp [hl] at hs
        | some last =>
            simp only [hl] at hs
            rw [← Option.some.inj hs]
      · rw [if_neg hlt] at hs
        rw [← Option.some.inj hs]

theorem renewed_addChunk (hs : st.addChunk g c = some st') : Renewed st st' := by
  simp only [Store.addChunk, Option.bind_eq_bind, Option.bind_eq_some_iff] at hs
  obtain ⟨a, -, hs⟩ := hs
  have hspliced := renewed_splice hs
  have hold : Renewed (st.structuralChange g a c) st' :=
    ⟨hspliced.fresh, hspliced.older, fun hk =>
      hspliced.known ⟨hk.numbered, hk.listed, hk.distinct⟩⟩
  exact (renewed_structuralChange st g a c).trans hold

theorem renewed_updateQueries {add : Bool} (hs : st.updateQueries ents g a add = some st') :
    Renewed st st' ∧ st'.archetypes = st.archetypes := by
  simp only [updateQueries, Option.bind_eq_bind, Option.bind_eq_some_iff] at hs
  obtain ⟨type, -, hs⟩ := hs
  rw [← Option.some.inj hs]
  exact ⟨.of_eq rfl rfl rfl, rfl⟩

/-- The archetype that is freed leaves the map first. -/
theorem renewed_freeArchetype (ha : st.archetype g = some a)
    (hs : st.freeArchetype ents g a = some st') : Renewed st st' := by
  simp only [freeArchetype, Option.bind_eq_bind, Option.bind_eq_some_iff] at hs
  obtain ⟨st₁, hup, hs⟩ := hs
  obtain ⟨-, hlist⟩ := renewed_updateQueries hup
  have hshape := updateQueries_shape hup
  have harch : st₁.archetype = st.archetype := hshape.archetype
  have hfresh : st₁.freshArchetype = st.freshArchetype := hshape.freshArchetype
  have hdead : ∀ g' b, st'.archetype g' = some b ↔ g' ≠ g ∧ st.archetype g' = some b := by
    intro g' b
    rw [← Option.some.inj hs]
    change Function.update st₁.archetype g none g' = some b ↔ _
    rw [Function.update_apply, harch]
    split_ifs with hg
    · simp [hg]
    · simp [hg]
  constructor
  · rw [← Option.some.inj hs]
    exact hfresh.ge
  · exact fun g' _ b hb => ((hdead g' b).mp hb).2
  · intro hk
    constructor
    · intro g' b hb
      rw [← Option.some.inj hs]
      exact hfresh.symm ▸ hk.numbered g' b ((hdead g' b).mp hb).2
    · intro g'
      have hmem : g' ∈ st'.archetypes ↔ g' ∈ st.archetypes ∧
          (st.archetype g').map Archetype.type ≠ some a.type := by
        rw [← Option.some.inj hs]
        change g' ∈ st₁.archetypes ↔ _
        rw [hlist, List.mem_filter, decide_eq_true_eq]
      rw [hmem, hk.listed g']
      constructor
      · rintro ⟨⟨b, hb⟩, hkey⟩
        refine ⟨b, (hdead g' b).mpr ⟨?_, hb⟩⟩
        rintro rfl
        rw [ha] at hkey
        exact hkey rfl
      · rintro ⟨b, hb⟩
        obtain ⟨hg, hb⟩ := (hdead g' b).mp hb
        refine ⟨⟨b, hb⟩, fun hkey => hg ?_⟩
        rw [hb, Option.map_some, Option.some.injEq] at hkey
        exact hk.distinct g' g b a hb ha hkey
    · intro g' h b b' hb hb'
      exact hk.distinct g' h b b' ((hdead g' b).mp hb).2 ((hdead h b').mp hb').2

theorem renewed_removeChunk (hs : st.removeChunk ents g c = some st') : Renewed st st' := by
  simp only [Store.removeChunk, Option.bind_eq_bind, Option.bind_eq_some_iff] at hs
  obtain ⟨a, ha, hs⟩ := hs
  let st₁ := takeOut ((st.structuralChange g a c).subSize g (st.count c)) g c
  have hsame : Renewed st st₁ := by
    have hst := renewed_structuralChange st g a c
    exact ⟨hst.fresh, hst.older, fun hk => ⟨(hst.known hk).numbered, (hst.known hk).listed,
      (hst.known hk).distinct⟩⟩
  have ha₁ : st₁.archetype g = some a := by
    have hshape := structuralChange_shape st g a c
    exact hshape.archetype ▸ ha
  change (if st₁.firstChunk g = none then st₁.freeArchetype ents g a else some st₁) = some st' at hs
  split_ifs at hs
  · exact hsame.trans (renewed_freeArchetype ha₁ hs)
  · exact Option.some.inj hs ▸ hsame

theorem renewed_resizeChunk (hs : st.resizeChunk ents c n = some st') : Renewed st st' := by
  simp only [Store.resizeChunk, Option.bind_eq_bind, Option.bind_eq_some_iff] at hs
  obtain ⟨g, -, a, -, hs⟩ := hs
  split_ifs at hs with hzero hfull hroom
  · exact renewed_removeChunk hs
  · rw [← Option.some.inj hs]
    simp only [unmarkFree]
    split_ifs <;> exact .of_eq rfl rfl rfl
  · exact Option.some.inj hs ▸ .of_eq rfl rfl rfl
  · exact Option.some.inj hs ▸ .of_eq rfl rfl rfl

theorem renewed_allocateSlice {s : ChunkSlice} (hs : st.allocateSlice ents g n = some (st', s)) :
    Renewed st st' := by
  simp only [Store.allocateSlice, Option.bind_eq_bind, Option.bind_eq_some_iff] at hs
  obtain ⟨a, ha, hs⟩ := hs
  have hlast : ∀ {st₁ : Store} {c : ChunkId} {m k : Nat}, Renewed st st₁ →
      ((st₁.structuralChange g a c).addSize g m).resizeChunk ents c k = some st' →
      Renewed st st' := by
    intro st₁ c m k h₁ hres
    exact h₁.trans ((renewed_structuralChange st₁ g a c).trans
      ((renewed_addSize _ g m).trans (renewed_resizeChunk hres)))
  cases hf : st.firstFree g with
  | some c =>
      simp only [hf, Option.bind_eq_some_iff, Option.some.injEq, Prod.mk.injEq] at hs
      obtain ⟨_, rfl, st₂, hres, rfl, -⟩ := hs
      exact hlast (Renewed.refl st) hres
  | none =>
      simp only [hf, Option.bind_eq_some_iff, Option.some.injEq, Prod.mk.injEq] at hs
      obtain ⟨⟨st₁, c⟩, hchunk, st₂, hres, rfl, -⟩ := hs
      simp only [Store.newChunk, ha, Option.bind_eq_bind, Option.bind_some,
        Option.bind_eq_some_iff, Option.some.injEq, Prod.mk.injEq] at hchunk
      obtain ⟨st₃, hadd, rfl, rfl⟩ := hchunk
      have hadd' := renewed_addChunk hadd
      have hold : Renewed st st₃ :=
        ⟨hadd'.fresh, hadd'.older, fun hk => hadd'.known ⟨hk.numbered, hk.listed, hk.distinct⟩⟩
      exact hlast hold hres

theorem renewed_getArchetype {key : EntityType}
    (hs : Store.getArchetype ctx st ents key = some (st', g)) : Renewed st st' := by
  unfold Store.getArchetype at hs
  cases hf : st.findArchetype key with
  | some g' =>
      simp only [hf, Option.some.injEq, Prod.mk.injEq] at hs
      exact hs.1 ▸ Renewed.refl st
  | none =>
      simp only [hf, Option.bind_eq_bind, Option.bind_eq_some_iff, Option.some.injEq,
        Prod.mk.injEq, addArchetype] at hs
      obtain ⟨a, ha, st₂, ⟨st₁, hup, rfl⟩, rfl, -⟩ := hs
      obtain ⟨-, hlist⟩ := renewed_updateQueries hup
      have hshape := updateQueries_shape hup
      have hfresh : st₁.freshArchetype = st.freshArchetype + 1 := hshape.freshArchetype
      have harch : ∀ g', st₁.archetype g' = if g' = st.freshArchetype then some a else
          st.archetype g' := by
        intro g'
        rw [hshape.archetype, newArchetype_archetype]
      constructor
      · exact hfresh ▸ Nat.le_succ _
      · intro g' hg' b hb
        rw [← hb]
        exact ((harch g').trans (if_neg hg'.ne)).symm
      · intro hk
        constructor
        · intro g' b hb
          change st₁.archetype g' = some b at hb
          change g' < st₁.freshArchetype
          rw [hfresh]
          rw [harch g'] at hb
          split_ifs at hb with hg'
          · exact hg'.trans_lt (Nat.lt_succ_self _)
          · exact (hk.numbered g' b hb).trans (Nat.lt_succ_self _)
        · intro g'
          have hmem : g' ∈ st₁.archetypes ++ [st.freshArchetype] ↔
              g' ∈ st.archetypes ∨ g' = st.freshArchetype := by
            rw [hlist]
            exact List.mem_append.trans (or_congr_right List.mem_singleton)
          change g' ∈ st₁.archetypes ++ [st.freshArchetype] ↔ ∃ b, st₁.archetype g' = some b
          rw [hmem, harch g', hk.listed g']
          split_ifs with heq
          · exact ⟨fun _ => ⟨a, rfl⟩, fun _ => Or.inr heq⟩
          · exact ⟨fun h => h.resolve_right heq, Or.inl⟩
        · intro g' h b b' hb hb' htype
          have hother : ∀ k d, st.archetype k = some d → d.type ≠ key := by
            intro k d hd hkey
            have hmiss := List.find?_eq_none.mp hf k ((hk.listed k).mpr ⟨d, hd⟩)
            simp [hd, hkey] at hmiss
          change st₁.archetype g' = some b at hb
          change st₁.archetype h = some b' at hb'
          rw [harch] at hb hb'
          have hkey := constructArchetype_type ha
          split_ifs at hb hb' with hg₁ hg₂ hg₂
          · rw [hg₁, hg₂]
          · rw [← Option.some.inj hb, hkey] at htype
            exact absurd htype.symm (hother h b' hb')
          · rw [← Option.some.inj hb', hkey] at htype
            exact absurd htype (hother g' b hb)
          · exact hk.distinct g' h b b' hb hb' htype

/-- The calls that only make entities make archetypes as well. -/
theorem grows_renewed (ctx : Context) (st : Store) : World.Grows ctx (Renewed st) where
  getArchetype h hs := h.trans (renewed_getArchetype hs)
  allocateSlice h _ hs _ := h.trans (renewed_allocateSlice hs)

end Store

namespace World

variable {ctx : Context} {w w' : World} {g : ArchetypeId} {a : Archetype} {fuel n : Nat}
  {s : ChunkSlice} {ss : List ChunkSlice}

theorem renewed_freeSlice (hs : w.freeSlice s = some w') : Store.Renewed w.store w'.store := by
  obtain ⟨g, a, st₁, w₂, st, -, -, rfl, -, hres, rfl⟩ := freeSlice_spec hs
  exact (Store.renewed_structuralChange w.store g a s.c).trans
    ((Store.renewed_subSize _ g s.count).trans (Store.renewed_resizeChunk hres))

theorem renewed_release (hs : w.release s = some w') : Store.Renewed w.store w'.store := by
  simp only [World.release, Option.bind_eq_bind, Option.bind_eq_some_iff] at hs
  obtain ⟨w₁, hfree, hs⟩ := hs
  exact (freeEntities_store hfree).1 ▸ renewed_freeSlice hs

theorem renewed_castSlice (hs : w.castSlice ctx fuel s g = some (w', ss)) :
    Store.Renewed w.store w'.store := by
  obtain ⟨srcG, a, w₁, -, -, hloop, hfree⟩ := castSlice_spec hs
  obtain ⟨-, -, hold⟩ := castLoop_invariant (I := fun _ v => Store.Renewed w.store v.store)
    (fun v v₁ k t dst side mm hv _ halloc _ _ _ => by
      obtain ⟨st, hst, rfl⟩ := allocateSlice_eq_some.mp halloc
      exact hv.trans (Store.renewed_allocateSlice hst))
    ((Store.renewed_structuralChange w.store srcG a s.c).trans (Store.renewed_subSize ..)) hloop
  exact hold.trans (renewed_freeSlice hfree)

theorem renewed_castTo {target : Option ArchetypeId}
    (hs : w.castTo ctx fuel s target = some (w', ss)) : Store.Renewed w.store w'.store := by
  cases target with
  | none => exact renewed_release (castTo_none hs)
  | some g =>
      obtain ⟨srcG, srcA, a, -, -, -, hcase⟩ := castTo_cases hs
      rcases hcase with ⟨-, rfl⟩ | ⟨-, hfast⟩ | ⟨-, -, hcast⟩
      · exact Store.Renewed.refl _
      · obtain ⟨st₁, st₂, hrem, hadd, rfl⟩ := hfast.store
        exact (Store.renewed_removeChunk hrem).trans (Store.renewed_addChunk hadd)
      · exact renewed_castSlice hcast

theorem renewed_getCasted {diff : TypeDiff} {inst : Bool} {target : Option ArchetypeId}
    (hs : w.getCasted ctx a diff inst = some (w', target)) : Store.Renewed w.store w'.store :=
  (Store.grows_renewed ctx w.store).getCasted (Store.Renewed.refl _) hs

theorem renewed_destroySingle (hs : w.destroySingle ctx fuel s = some w') :
    Store.Renewed w.store w'.store := by
  obtain ⟨g, a, -, -, hcase⟩ := destroySingle_cases hs
  rcases hcase with ⟨-, rfl⟩ | ⟨-, -, hrel⟩ | ⟨-, -, w₁, g', ss, hgot, hcast⟩
  · exact Store.Renewed.refl _
  · exact renewed_release hrel
  · obtain ⟨st, hget, rfl⟩ := getArchetype_eq_some hgot
    exact (Store.renewed_getArchetype hget).trans (renewed_castSlice hcast)

theorem renewed_destroy (hs : w.destroy ctx fuel s = some w') :
    Store.Renewed w.store w'.store := by
  cases fuel with
  | zero => simp [World.destroy] at hs
  | succ fuel =>
      obtain ⟨g, a, w₁, -, -, hgroups, hsingle⟩ := destroy_cases hs
      refine Store.Renewed.trans ?_ (renewed_destroySingle hsingle)
      rcases hgroups with ⟨-, rfl⟩ | ⟨-, hgroups⟩
      · exact Store.Renewed.refl _
      · refine destroyGroups_invariant (I := fun v => Store.Renewed w.store v.store) ?_
          (Store.Renewed.refl _) hgroups
        intro v t v' hone hv hrun
        refine destroy_invariant (I := fun u => Store.Renewed w.store u.store) ?_ hone hv hrun
        intro u u' _ _ _ hu hs'
        exact hu.trans (renewed_destroySingle hs')

theorem renewed_allocateLoop (hs : allocateLoop ctx g fuel n w = some (w', ss)) :
    Store.Renewed w.store w'.store := by
  refine allocateLoop_invariant (I := fun v => Store.Renewed w.store v.store) ?_
    (Store.Renewed.refl _) hs
  intro v v₁ v₂ n s g' a hv _ halloc harch hnew
  exact (Store.grows_renewed ctx w.store).fill hv halloc harch hnew

/-- Every call makes and frees archetypes. -/
theorem renewed_run {op : Op} (hs : op.run ctx fuel w = some w') :
    Store.Renewed w.store w'.store := by
  cases op with
  | allocate type count =>
      obtain ⟨⟨_, ss⟩, hrun, rfl⟩ := Option.map_eq_some_iff.mp hs
      exact (Store.grows_renewed ctx w.store).allocate (Store.Renewed.refl _) hrun
  | instantiate src count =>
      obtain ⟨⟨_, ss⟩, hrun, rfl⟩ := Option.map_eq_some_iff.mp hs
      exact (Store.grows_renewed ctx w.store).instantiate (Store.Renewed.refl _) hrun
  | destroy s => exact renewed_destroy hs
  | cast s diff =>
      obtain ⟨⟨_, ss⟩, hrun, rfl⟩ := Option.map_eq_some_iff.mp hs
      simp only [World.cast, Option.bind_eq_bind, Option.bind_eq_some_iff] at hrun
      obtain ⟨⟨g, a⟩, -, ⟨w₁, target⟩, hcasted, hrun⟩ := hrun
      exact (renewed_getCasted hcasted).trans (renewed_castTo hrun)
  | castType s type =>
      obtain ⟨⟨_, ss⟩, hrun, rfl⟩ := Option.map_eq_some_iff.mp hs
      simp only [World.castType, Option.bind_eq_bind, Option.bind_eq_some_iff] at hrun
      obtain ⟨⟨w₁, g⟩, hgot, hrun⟩ := hrun
      obtain ⟨st, hget, rfl⟩ := getArchetype_eq_some hgot
      exact (Store.renewed_getArchetype hget).trans (renewed_castTo hrun)
  | getArchetype type =>
      obtain ⟨⟨_, g⟩, hrun, rfl⟩ := Option.map_eq_some_iff.mp hs
      obtain ⟨st, hget, rfl⟩ := getArchetype_eq_some hrun
      exact Store.renewed_getArchetype hget
  | query f =>
      obtain ⟨⟨_, q⟩, hrun, rfl⟩ := Option.map_eq_some_iff.mp hs
      obtain ⟨queries, rfl⟩ := query_eq_some hrun
      exact Store.Renewed.of_eq rfl rfl rfl
  | write memory =>
      obtain rfl := Option.some.inj hs
      exact Store.Renewed.refl _

theorem known_initial (timestamp : Nat) (raw : Nat → Nat) (data : ChunkId → Mem)
    (guids : Nat → List UInt8) : (initial timestamp raw data guids).store.Known := by
  constructor <;> simp [World.initial]

theorem known_runAll {ops : List Op} (h : w.store.Known)
    (hs : runAll ctx fuel w ops = some w') : w'.store.Known :=
  foldlM_invariant (P := fun v => v.store.Known)
    (fun _ _ _ _ hrun hv => (renewed_run hrun).known hv) hs h

theorem known_of_reachable {P : World → Op → Prop} (h : Reachable ctx P w) : w.store.Known :=
  h.invariant (I := fun v => v.store.Known) known_initial
    fun _ _ _ _ _ _ hs hk => (renewed_run hs).known hk

end World

end Dots

import Dots.Database.Filling
import Dots.Database.Instances

/-!
# Saving a world and loading it

What `world::serialize` writes is read by `world::deserialize` to the last byte, whatever the
loading world held before. Entities keep their handles, their types and their data; those of the
archetypes that are cleaning are gone, and the versions of free ids start again.
-/

namespace Dots

open Library Entities

namespace World

variable {ctx : Context} {w v v₀ v' : World} {g h g₀ : ArchetypeId} {a b : Archetype}
  {c d : ChunkId} {i j F : Nat} {e m : Entity} {all : List ChunkId} {st : Store}
  {raw : Nat → Nat}

/-- All saved chunks of `w` have been loaded, and the entity table is complete. -/
structure Loaded (ctx : Context) (F : Nat) (w : World) (all : List ChunkId) (v : World) :
    Prop where
  orderly : Orderly ctx v
  size : v.ents.size = w.ents.size
  forth : ∀ c ∈ all, ∀ i < w.store.count c, ∃ d j, v.store.Occupied d j ∧ Copied F w c i v d j
  back : ∀ d j, v.store.Occupied d j →
    ∃ c ∈ all, ∃ i < w.store.count c, Copied F w c i v d j
  source : ∀ h a, v.store.archetype h = some a → ∃ g, w.Saves g a
  unused : ∀ id, (∀ d j, v.store.Occupied d j → (v.memory.entityAt d j).id ≠ id) →
    (v.ents.datas id).v = 0
  free : ∃ l, FreeList v.ents l ∧ ∀ id, id ∈ l ↔ id ≠ 0 ∧ id < v.ents.size ∧
    ∀ d j, v.store.Occupied d j → (v.memory.entityAt d j).id ≠ id

/-- The chunks of the archetypes that are saved. -/
def AllSaved (w : World) (all : List ChunkId) : Prop :=
  ∀ c, c ∈ all ↔ ∃ g a, w.archetypeOf c = some (g, a) ∧ a.cleaning = false

/-! ## The entity table -/

/-- The free list is made of the ids that no slot has. -/
theorem loaded_of_filling (hf : Filling ctx F w v₀ all v) (hw : Orderly ctx w)
    (hsize : w.ents.size < 2 ^ 24)
    (hsrc : ∀ h a, v.store.archetype h = some a → ∃ g, w.Saves g a) :
    Loaded ctx F w all { v with ents := v.ents.rebuildFree } := by
  have hem := emptied_rebuildFree hf.free
  have hkeep : ∀ d j, v.store.Occupied d j →
      v.ents.rebuildFree.datas (v.memory.entityAt d j).id =
        v.ents.datas (v.memory.entityAt d j).id :=
    fun d j hj => hem.chunk _ d (by rw [hf.entry d j hj])
  -- an id is in a slot, or its entry is still that of the table that was zeroed
  have hempty : ∀ id, (∀ d j, v.store.Occupied d j → (v.memory.entityAt d j).id ≠ id) →
      v.ents.datas id = { c := .nextFree 0, i := 0, v := 0 } := by
    intro id hid
    refine hf.empty id fun c hc i hi heq => ?_
    obtain ⟨d, j, hj, hcopy⟩ := hf.forth c hc i hi
    exact hid d j hj (by rw [hcopy.handle, heq])
  have hnull : ∀ id, (v.ents.datas id).c = .nextFree 0 ↔
      ∀ d j, v.store.Occupied d j → (v.memory.entityAt d j).id ≠ id := by
    refine fun id => ⟨fun hc d j hj heq => ?_, fun hid => by rw [hempty id hid]⟩
    rw [← heq, hf.entry d j hj] at hc
    exact Location.noConfusion hc
  obtain ⟨l, hl, hmem⟩ := hem.list
  have hfree : ∀ id, id ∈ l ↔ id ≠ 0 ∧ id < v.ents.rebuildFree.size ∧
      ∀ d j, v.store.Occupied d j → (v.memory.entityAt d j).id ≠ id := by
    intro id
    rw [hmem, hnull, hem.size]
  have hversion : ∀ id, (v.ents.rebuildFree.datas id).v < 2 ^ 8 := by
    intro id
    rw [hem.version]
    by_cases hid : ∀ d j, v.store.Occupied d j → (v.memory.entityAt d j).id ≠ id
    · rw [hempty id hid]
      decide
    · push Not at hid
      obtain ⟨d, j, hj, rfl⟩ := hid
      rw [hf.entry d j hj]
      exact Nat.mod_lt _ (by decide)
  refine ⟨⟨⟨hf.listed.toWf, fun _ => ⟨fun d j hj => ?_, fun d j hj => hf.slot_lt d j hj.1, ⟨l, hl⟩,
    fun id _ => hversion id⟩⟩, hf.listed, fun h a ha => ?_⟩, hem.size.trans hf.size, hf.forth,
    hf.back, hsrc, fun id hid => ?_, l, hl, hfree⟩
  · obtain ⟨c, -, i, hi, hcopy⟩ := hf.back d j hj.1
    have hin := ((hw.sound.tracks hsize).entry c i ⟨hcopy.occupied hi, not_false⟩).1
    refine ⟨?_, (hkeep d j hj.1).trans (hf.entry d j hj.1)⟩
    change (v.memory.entityAt d j).id < v.ents.rebuildFree.size
    rw [hem.size, hf.size, hcopy.handle]
    exact hin
  · obtain ⟨g, hg⟩ := hsrc h a ha
    exact hw.sorted g a hg.1
  · change (v.ents.rebuildFree.datas id).v = 0
    rw [hem.version, hempty id hid]

/-- The lists of the archetypes and the queries do not matter. -/
theorem Loaded.congr (hl : Loaded ctx F w all v) (hs : Store.SameShape v.store st) :
    Loaded ctx F w all { v with store := st } := by
  have hocc : ∀ d j, st.Occupied d j ↔ v.store.Occupied d j := occupied_congr hs.type hs.count
  have hcopied : ∀ {c i d j}, Copied F w c i v d j → Copied F w c i { v with store := st } d j := by
    rintro c i d j ⟨g, a, h, hsrc, hdst, hcopy⟩
    obtain ⟨hd, ha⟩ := archetypeOf_eq_some.mp hdst
    refine ⟨g, a, h, hsrc, archetypeOf_eq_some.mpr ⟨?_, ?_⟩, ?_⟩
    · exact (congrFun hs.type d).trans hd
    · exact (congrFun hs.archetype h).trans ha
    · change Memory.Copies F a w.memory c (w.store.ct c) i v.memory d (st.ct d) j
      rw [hs.ct]
      exact hcopy
  refine ⟨⟨hl.orderly.sound.congr hs, hl.orderly.listed.congr hs, fun h a ha => ?_⟩, hl.size,
    fun c hc i hi => ?_, fun d j hj => ?_, fun h a ha => ?_, fun id hid => ?_, ?_⟩
  · exact hl.orderly.sorted h a (hs.archetype ▸ ha)
  · obtain ⟨d, j, hj, hcopy⟩ := hl.forth c hc i hi
    exact ⟨d, j, (hocc d j).mpr hj, hcopied hcopy⟩
  · obtain ⟨c, hc, i, hi, hcopy⟩ := hl.back d j ((hocc d j).mp hj)
    exact ⟨c, hc, i, hi, hcopied hcopy⟩
  · exact hl.source h a (hs.archetype ▸ ha)
  · exact hl.unused id fun d j hj => hid d j ((hocc d j).mpr hj)
  · obtain ⟨l, hfl, hmem⟩ := hl.free
    refine ⟨l, hfl, fun id => (hmem id).trans ?_⟩
    simp only [hocc]

/-! ## Entities -/

theorem archetype_eq_of_archetypeOf {p q : ArchetypeId × Archetype} (h : w.archetypeOf c = some p)
    (h' : w.archetypeOf c = some q) : p = q :=
  Option.some.inj (h.symm.trans h')

/-- An entity that was saved is found again. -/
theorem Loaded.found (hl : Loaded ctx F w all v) (hall : w.AllSaved all) (hfound : w.Found e c i)
    (harch : w.archetypeOf c = some (g, a)) (hclean : a.cleaning = false) :
    ∃ d j h, v.Found e d j ∧ v.archetypeOf d = some (h, a) ∧ Copied F w c i v d j := by
  obtain ⟨d, j, hj, hcopy⟩ := hl.forth c ((hall c).mpr ⟨g, a, harch, hclean⟩) i hfound.occupied.2
  have hvfound := hl.orderly.sound.found hj
  rw [hcopy.handle, hfound.handle] at hvfound
  obtain ⟨g', a', h, hsrc, hdst, hcopies⟩ := hcopy
  obtain ⟨rfl, rfl⟩ := Prod.mk.inj (archetype_eq_of_archetypeOf hsrc harch)
  exact ⟨d, j, h, hvfound, hdst, _, _, h, hsrc, hdst, hcopies⟩

/-- An entity that is found was there before. -/
theorem Loaded.found_back (hl : Loaded ctx F w all v) (hall : w.AllSaved all)
    (hw : Orderly ctx w) (hfound : v.Found e d j) (harch : v.archetypeOf d = some (h, a)) :
    ∃ c i g, w.Found e c i ∧ w.archetypeOf c = some (g, a) ∧ a.cleaning = false := by
  obtain ⟨c, hc, i, hi, hcopy⟩ := hl.back d j hfound.occupied
  obtain ⟨g, b, hsrc, hclean⟩ := (hall c).mp hc
  have hwfound := hw.sound.found (hcopy.occupied hi)
  rw [← hcopy.handle, hfound.handle] at hwfound
  obtain ⟨g', b', h', hsrc', hdst, -⟩ := hcopy
  obtain ⟨rfl, rfl⟩ := Prod.mk.inj (archetype_eq_of_archetypeOf hsrc' hsrc)
  obtain ⟨rfl, rfl⟩ := Prod.mk.inj (archetype_eq_of_archetypeOf hdst harch)
  exact ⟨c, i, _, hwfound, hsrc, hclean⟩

/-! ## Metatypes -/

/-- A metatype is alive in an archetype with the same types. -/
theorem Loaded.livesIn (hl : Loaded ctx F w all v) (hall : w.AllSaved all)
    (hm : w.LivesIn m g) (hk : w.Saves g a) :
    ∃ h, v.LivesIn m h ∧ v.store.archetype h = some a := by
  obtain ⟨c, i, b, hfound, harch⟩ := hm
  obtain rfl := Option.some.inj ((archetypeOf_eq_some.mp harch).2.symm.trans hk.1)
  obtain ⟨d, j, h, hvfound, hdst, -⟩ := hl.found hall hfound harch hk.2
  exact ⟨h, ⟨d, j, b, hvfound, hdst⟩, (archetypeOf_eq_some.mp hdst).2⟩

/-- Two archetypes with the same types, one before and one after. -/
def Twin (w v : World) (g h : ArchetypeId) : Prop :=
  ∃ a, w.Saves g a ∧ v.store.archetype h = some a

theorem Loaded.metaOf (hl : Loaded ctx F w all v) (hall : w.AllSaved all) (hsave : w.Savable ctx)
    (hsize : v.ents.size < 2 ^ 24) (hmeta : v.store.MetaOf v.ents h g) (ht : Twin w v g₀ g) :
    ∃ h₀, Twin w v h₀ h ∧ w.store.MetaOf w.ents h₀ g₀ := by
  obtain ⟨a, b, m, ha, hm, hid, hb⟩ := hmeta
  obtain ⟨a', hsaves, ha'⟩ := ht
  obtain rfl := Option.some.inj (ha.symm.trans ha')
  obtain ⟨h₀, b₀, hlives, hk⟩ := hsave.metas g₀ a hsaves m hm
  obtain ⟨k, hvlives, hkb⟩ := hl.livesIn hall hlives hk
  obtain rfl := Option.some.inj ((hvlives.archetypeIdOf hsize).symm.trans hid)
  exact ⟨h₀, ⟨b₀, hk, hkb⟩, a, b₀, m, hsaves.1, hm, hlives.archetypeIdOf hsave.size_lt, hk.1⟩

/-- The metatypes can be followed as before. -/
theorem Loaded.metas (hl : Loaded ctx F w all v) (hall : w.AllSaved all) (hsave : w.Savable ctx)
    (hk : w.store.Known) (hm : w.Metas) : v.Metas := by
  have hsize : v.ents.size < 2 ^ 24 := hl.size ▸ hsave.size_lt
  refine ⟨fun h a ha m hmem => ?_, fun h hcycle => ?_⟩
  · obtain ⟨g, hg⟩ := hl.source h a ha
    obtain ⟨h₀, b₀, hlives, hb₀⟩ := hsave.metas g a hg m hmem
    obtain ⟨k, hvlives, -⟩ := hl.livesIn hall hlives hb₀
    exact ⟨k, hvlives⟩
  · have hlift : ∀ {k g}, Relation.TransGen (v.store.MetaOf v.ents) k g → ∀ g₀, Twin w v g₀ g →
        ∃ k₀, Twin w v k₀ k ∧ Relation.TransGen (w.store.MetaOf w.ents) k₀ g₀ := by
      intro k g hpath
      induction hpath with
      | single hstep =>
          intro g₀ ht
          obtain ⟨k₀, hk₀, hstep₀⟩ := hl.metaOf hall hsave hsize hstep ht
          exact ⟨k₀, hk₀, .single hstep₀⟩
      | tail _ hstep ih =>
          intro g₀ ht
          obtain ⟨b₀, hb₀, hstep₀⟩ := hl.metaOf hall hsave hsize hstep ht
          obtain ⟨k₀, hk₀, hpath₀⟩ := ih b₀ hb₀
          exact ⟨k₀, hk₀, hpath₀.tail hstep₀⟩
    obtain ⟨_, -, a, _, _, ha, -⟩ := Relation.TransGen.tail'_iff.mp hcycle
    obtain ⟨g₀, hg₀⟩ := hl.source h a ha
    obtain ⟨k₀, ⟨a', hk₀, ha'⟩, hpath⟩ := hlift hcycle g₀ ⟨a, hg₀, ha⟩
    obtain rfl := Option.some.inj (ha.symm.trans ha')
    obtain rfl := hk.distinct k₀ g₀ a a hk₀.1 hg₀.1 rfl
    exact hm.acyclic k₀ hpath

/-! ## The archetypes are entered into the map -/

theorem addArchetypes_run (hl : v.store.Listed ctx) (hm : v.Metas) (hsize : v.ents.size < 2 ^ 24)
    {gs : List ArchetypeId} (hgs : ∀ g ∈ gs, ∃ a, v.store.archetype g = some a)
    (hs : Store.SameShape v.store st) : ∃ st',
      gs.foldlM (fun (w : World) g => do
        let a ← w.store.archetype g
        let st ← w.store.addArchetype w.ents g a
        some { w with store := st }) { v with store := st } = some { v with store := st' } ∧
        Store.SameShape v.store st' ∧ st'.archetypes = st.archetypes ++ gs := by
  induction gs generalizing st with
  | nil => exact ⟨st, rfl, hs, (List.append_nil _).symm⟩
  | cons g gs ih =>
      obtain ⟨a, ha⟩ := hgs g List.mem_cons_self
      have hspares : Store.Spares v.store v.ents g st v.ents := by
        refine ⟨fun h b hb => by rw [hs.archetype, hb], hs.freshArchetype.ge,
          fun k d _ m _ h hid _ => ?_⟩
        rw [← hid]
        simp only [Store.archetypeIdOf, hs.type]
      obtain ⟨type, htype⟩ := Option.ne_none_iff_exists'.mp
        (hspares.sharedType (hm.metasLive hsize) (numbered hl) hm.acyclic ha)
      obtain ⟨st₁, hst₁⟩ : ∃ st₁, st.updateQueries v.ents g a true = some st₁ := by
        rw [Store.updateQueries, htype]
        exact ⟨_, rfl⟩
      have harchs : st₁.archetypes = st.archetypes := by
        simp only [Store.updateQueries, Option.bind_eq_bind, Option.bind_eq_some_iff,
          Option.some.injEq] at hst₁
        obtain ⟨_, -, rfl⟩ := hst₁
        rfl
      have hshape : Store.SameShape v.store { st₁ with archetypes := st₁.archetypes ++ [g] } :=
        (hs.trans (Store.updateQueries_shape hst₁)).trans
          ⟨rfl, rfl, rfl, rfl, rfl, rfl, rfl, rfl, rfl, rfl, rfl⟩
      obtain ⟨st', hrun, hshape', hlist⟩ :=
        ih (fun k hk => hgs k (List.mem_cons_of_mem g hk)) hshape
      refine ⟨st', ?_, hshape', ?_⟩
      · rw [List.foldlM_cons]
        simp only [Option.bind_eq_bind, hs.archetype, ha, Option.bind_some, Store.addArchetype,
          hst₁]
        exact hrun
      · rw [hlist, harchs, List.append_assoc]
        rfl

/-! ## The round trip -/

/-- What a world is that was loaded from the bytes of `w`, the blocks of its buffers newly allocated
from `F` on. -/
structure Reloads (ctx : Context) (F : Nat) (w v : World) : Prop where
  orderly : Orderly ctx v
  known : v.store.Known
  nodup : v.store.archetypes.Nodup
  metas : v.Metas
  size : v.ents.size = w.ents.size
  directory : ∀ e, v.directory e =
    (w.directory e).filter fun type => !type.types.contains ctx.cleanupId
  copied : ∀ e c i g a, w.Found e c i → w.archetypeOf c = some (g, a) → a.cleaning = false →
    ∃ d j, v.Found e d j ∧ Copied F w c i v d j
  unused : ∀ id, (∀ e, v.Alive e → e.id ≠ id) → (v.ents.datas id).v = 0
  free : ∃ l, FreeList v.ents l ∧ ∀ id, id ∈ l ↔ id ≠ 0 ∧ id < v.ents.size ∧
    ∀ e, v.Alive e → e.id ≠ id

theorem Loaded.directory (hl : Loaded ctx F w all v) (hall : w.AllSaved all) (hctx : ctx.Built)
    (hw : Orderly ctx w) (hsize : w.ents.size < 2 ^ 24) (e : Entity) :
    v.directory e = (w.directory e).filter fun type => !type.types.contains ctx.cleanupId := by
  have hbuilt : ∀ {c g a}, w.archetypeOf c = some (g, a) →
      a.cleaning = a.type.types.contains ctx.cleanupId := fun harch =>
    cleaning_iff hctx (hw.listed.built _ _ (archetypeOf_eq_some.mp harch).2).2
  refine Option.ext fun type => ?_
  rw [Option.filter_eq_some_iff, directory_eq_some hl.orderly (hl.size ▸ hsize),
    directory_eq_some hw hsize]
  constructor
  · rintro ⟨a, rfl, d, j, h, hfound, harch⟩
    obtain ⟨c, i, g, hwfound, hsrc, hclean⟩ := hl.found_back hall hw hfound harch
    refine ⟨⟨a, rfl, c, i, g, hwfound, hsrc⟩, ?_⟩
    rw [← hbuilt hsrc, hclean]
    rfl
  · rintro ⟨⟨a, rfl, c, i, g, hfound, harch⟩, hkeep⟩
    have hclean : a.cleaning = false := by
      rw [hbuilt harch]
      simpa using hkeep
    obtain ⟨d, j, h, hvfound, hdst, -⟩ := hl.found hall hfound harch hclean
    exact ⟨a, rfl, d, j, h, hvfound, hdst⟩

theorem Loaded.reloads (hl : Loaded ctx F w all v) (hall : w.AllSaved all) (hctx : ctx.Built)
    (hw : Orderly ctx w) (hk : w.store.Known) (hm : w.Metas) (hsave : w.Savable ctx)
    (hvk : v.store.Known) (hnd : v.store.archetypes.Nodup) : Reloads ctx F w v := by
  have halive : ∀ id, (∀ e, v.Alive e → e.id ≠ id) ↔
      ∀ d j, v.store.Occupied d j → (v.memory.entityAt d j).id ≠ id := by
    refine fun id => ⟨fun hid d j hj => hid _ ⟨d, j, hl.orderly.sound.found hj⟩, ?_⟩
    rintro hid e ⟨d, j, hfound⟩
    exact hfound.handle ▸ hid d j hfound.occupied
  refine ⟨hl.orderly, hvk, hnd, hl.metas hall hsave hk hm, hl.size,
    hl.directory hall hctx hw hsave.size_lt, ?_,
    fun id hid => hl.unused id ((halive id).mp hid), ?_⟩
  · intro e c i g a hfound harch hclean
    obtain ⟨d, j, h, hvfound, -, hcopy⟩ := hl.found hall hfound harch hclean
    exact ⟨d, j, hvfound, hcopy⟩
  · obtain ⟨l, hfl, hmem⟩ := hl.free
    exact ⟨l, hfl, fun id => by rw [hmem, halive]⟩

theorem savedChunks (hw : w.store.Listed ctx) {ats : List (ArchetypeId × Archetype)}
    (hmem : ∀ p, p ∈ ats ↔ w.Saves p.1 p.2) (hnd : (ats.map Prod.fst).Nodup)
    (hspace : F + ((List.range w.store.freshChunk).map w.blocks).sum ≤ 2 ^ 64) :
    w.AllSaved (ats.flatMap fun p => w.chunksOf p.1) ∧
      w.SavedChunks F (ats.flatMap fun p => w.chunksOf p.1) := by
  have hchunk : ∀ p ∈ ats, ∀ c, c ∈ w.chunksOf p.1 ↔ w.store.type c = some p.1 :=
    fun p hp => (mem_chunksOf hw ((hmem p).mp hp).1).2.2
  have hall : w.AllSaved (ats.flatMap fun p => w.chunksOf p.1) := by
    intro c
    rw [List.mem_flatMap]
    constructor
    · rintro ⟨p, hp, hc⟩
      obtain ⟨ha, hclean⟩ := (hmem p).mp hp
      exact ⟨p.1, p.2, archetypeOf_eq_some.mpr ⟨(hchunk p hp c).mp hc, ha⟩, hclean⟩
    · rintro ⟨g, a, harch, hclean⟩
      obtain ⟨hc, ha⟩ := archetypeOf_eq_some.mp harch
      have hp := (hmem (g, a)).mpr ⟨ha, hclean⟩
      exact ⟨(g, a), hp, (hchunk _ hp c).mpr hc⟩
  have hnodup : (ats.flatMap fun p => w.chunksOf p.1).Nodup := by
    refine List.nodup_flatMap.mpr ⟨fun p hp => (mem_chunksOf hw ((hmem p).mp hp).1).2.1, ?_⟩
    refine (List.pairwise_map.mp hnd).imp_of_mem fun {p q} hp hq hne c hcp hcq => hne ?_
    have hcp := (hchunk p hp c).mp hcp
    rw [(hchunk q hq c).mp hcq] at hcp
    exact (Option.some.inj hcp).symm
  refine ⟨hall, hnodup, fun c hc => (hall c).mp hc, ?_⟩
  have hsub : (ats.flatMap fun p => w.chunksOf p.1) ⊆ List.range w.store.freshChunk := by
    intro c hc
    obtain ⟨g, a, harch, -⟩ := (hall c).mp hc
    rw [List.mem_range]
    by_contra hge
    have hnone := hw.fresh c (Nat.not_lt.mp hge)
    rw [(archetypeOf_eq_some.mp harch).1] at hnone
    exact Option.some_ne_none g hnone
  obtain ⟨cs, hcs, hrange⟩ := List.subperm_of_subset hnodup hsub
  obtain ⟨more, hmore⟩ := hrange.exists_perm_append
  have hsame := (hcs.map w.blocks).sum_nat
  have hsum := (hmore.map w.blocks).sum_nat
  rw [List.map_append, List.sum_append] at hsum
  omega

/-- What an archetype needs to be read again. -/
theorem Savable.archetype (hsave : w.Savable ctx) (hw : Orderly ctx w) (hk : w.Saves g a) :
    SavableArchetype ctx w.store g a := by
  obtain ⟨hne, hlt⟩ := hsave.sizes g a hk
  obtain ⟨htypes, hmetas⟩ := hsave.lengths g a hk
  refine ⟨⟨htypes, hmetas, hsave.guids g a hk, fun m hm => ?_, hw.sorted g a hk.1,
    hsave.sorted g a hk⟩, hne, hlt⟩
  obtain ⟨_, _, ⟨c, i, _, hfound, -⟩, -⟩ := hsave.metas g a hk m hm
  rw [← hfound.handle]
  exact Mem.readWord_lt ..

/-- Nothing has been loaded into the new archetypes. -/
theorem filling_start {v₁ : World} {ats : List (ArchetypeId × Archetype)} {out : List ArchetypeId}
    (hmade : Made ctx v₁ ats out v) (hm : v.memory.Mallocs)
    (hents : v₁.ents = Entities.zeroed raw w.ents.size) :
    Filling ctx v.memory.freshBlock w v [] v := by
  have hnone : ∀ d j, ¬ v.store.Occupied d j := fun d j hj => hj.1 (hmade.type d)
  refine ⟨⟨hmade.listed, ?_, ?_, hm, le_rfl, Nat.le_add_right .., ?_, ?_, ?_, ?_, ?_⟩,
    Store.SameMap.refl _⟩
  · rw [hmade.ents, hents]
    rfl
  · rw [hmade.ents, hents]
    rfl
  · exact fun c hc => absurd hc List.not_mem_nil
  · exact fun d j hj => absurd hj (hnone d j)
  · exact fun d j hj => absurd hj (hnone d j)
  · exact fun d j hj => absurd hj (hnone d j)
  · intro id _
    rw [hmade.ents, hents]
    rfl

/-- Saving a world and loading it, over any other. -/
theorem deserialize_serialize (hctx : ctx.Built) (hw : Orderly ctx w) (hk : w.store.Known)
    (hnd : w.store.archetypes.Nodup) (hm : w.Metas) (hsave : w.Savable ctx)
    (hv : v.store.Listed ctx) (hvk : v.store.Known) (hvm : v.memory.Mallocs)
    (hclear : v.clear raw ≠ none)
    (hspace : v.memory.freshBlock + ((List.range w.store.freshChunk).map w.blocks).sum ≤ 2 ^ 64) :
    ∃ bytes, w.serialize ctx = some bytes ∧ ∀ rest, ∃ v',
      v.deserialize ctx raw (bytes ++ rest) = some (v', rest) ∧
        Reloads ctx v.memory.freshBlock w v' := by
  obtain ⟨ats, hsaved, hmem, hats⟩ := saved_eq hk hnd
  refine ⟨_, serialize_eq hw.listed hsave hsaved fun p hp => (hmem p).mp hp, fun rest => ?_⟩
  obtain ⟨v₁, hv₁⟩ := Option.ne_none_iff_exists'.mp hclear
  obtain ⟨hvacant, hfresh⟩ := vacant_clear hv hvk hvm hv₁
  have hzeroed : Vacant ctx { v₁ with ents := Entities.zeroed raw w.ents.size } :=
    ⟨hvacant.listed, hvacant.type, hvacant.archetype, hvacant.archetypes, hvacant.queries,
      hvacant.mallocs⟩
  have hfuel : ats.length <
      ((ats.flatMap fun p => serializeArchetype ctx w.store p.1 p.2) ++ (Mem.wordBytes 0 4 ++
        ((ats.flatMap fun p => w.chunksBytes p.1) ++ rest))).length + 1 := by
    have hlen := length_le_keys ctx w.store ats
    rw [List.length_append]
    omega
  obtain ⟨v₂, out, hkeys, hmade⟩ := made_run hzeroed
    (fun p hp => (hw.listed.built _ _ ((hmem p).mp hp).1).2)
    (fun p hp => hsave.archetype hw ((hmem p).mp hp))
    ((ats.flatMap fun p => w.chunksBytes p.1) ++ rest) hfuel
  have hmem₂ : v₂.memory = v₁.memory := hmade.memory
  obtain ⟨hall, hchunks⟩ := savedChunks hw.listed hmem hats hspace
  have hstart : Filling ctx v.memory.freshBlock w v₂ [] v₂ := by
    have hs := filling_start (w := w) hmade (hmem₂ ▸ hvacant.mallocs) rfl
    rwa [hmem₂, hfresh] at hs
  obtain ⟨v₃, hfill, hfilled⟩ := filling_run hstart hw hsave hchunks (fun p hp => (hmem p).mp hp)
    hmade.archetype rest
  have hsource : ∀ h a, v₃.store.archetype h = some a → ∃ g, w.Saves g a := by
    intro h a ha
    rw [hfilled.map.archetype] at ha
    obtain ⟨x, hx, -, rfl⟩ := hmade.source ha
    exact ⟨x.1.1, (hmem x.1).mp (List.of_mem_zip hx).1⟩
  have hloaded := loaded_of_filling hfilled hw hsave.size_lt hsource
  have hmetas := hloaded.metas hall hsave hk hm
  have halive : ∀ g ∈ out, ∃ a, v₃.store.archetype g = some a := by
    intro g hg
    obtain ⟨a, ha⟩ := (hmade.alive g).mp hg
    exact ⟨a, hfilled.map.archetype ▸ ha⟩
  obtain ⟨st, hmap, hshape, hlist⟩ := addArchetypes_run hloaded.orderly.listed hmetas
    (hloaded.size ▸ hsave.size_lt) halive (Store.SameShape.refl _)
  have harchs : st.archetypes = out := by
    rw [hlist]
    change v₃.store.archetypes ++ out = out
    rw [hfilled.map.archetypes, hmade.archetypes, List.nil_append]
  have harch : st.archetype = v₂.store.archetype := hshape.archetype.trans hfilled.map.archetype
  have hkeys' : ∀ p ∈ ats, ∀ q ∈ ats, p.2.type = q.2.type → p.1 = q.1 := fun p hp q hq =>
    hk.distinct _ _ _ _ ((hmem p).mp hp).1 ((hmem q).mp hq).1
  have hknown : st.Known := hmade.known hkeys' hats harch harchs fun g a ha =>
    ((hloaded.congr hshape).orderly.listed.built g a ha).1
  refine ⟨_, ?_, (hloaded.congr hshape).reloads hall hctx hw hk hm hsave hknown
    (by rw [harchs]; exact hmade.nodup)⟩
  simp only [List.append_assoc]
  rw [deserialize, hv₁, Option.bind_eq_bind, Option.bind_some,
    Mem.takeWord_append (hsave.size_lt.trans (by decide))]
  simp only [Option.bind_eq_bind, Option.bind_some]
  rw [hkeys, Option.bind_some]
  dsimp only
  rw [hfill, Option.bind_some]
  dsimp only
  simp only [Option.bind_eq_bind] at hmap
  rw [hmap]
  rfl

/-- Two chunks of one archetype can be saved. -/
theorem savable_smallThenFast (hw : smallThenFast = some w) : w.Savable narrowWide ∧ w.Metas ∧
    w.store.archetypes.Nodup ∧ w.memory.freshBlock = 1 ∧
      ((List.range w.store.freshChunk).map w.blocks).sum = 14 := by
  have hfacts : smallThenFast.map (fun w => (w.ents.size, w.store.archetypes, w.store.freshChunk,
      w.store.size 0)) = some (7, [0], 2, 7) := by decide +kernel
  have hcounts : smallThenFast.map (fun w => (w.store.count 0, w.store.count 1,
      w.memory.freshBlock, ((List.range w.store.freshChunk).map w.blocks).sum)) =
      some (2, 5, 1, 14) := by decide +kernel
  have hkeys : smallThenFast.map (fun w => (w.store.archetype 0).map fun a =>
      (a.type, a.firstBuffer, a.firstManaged, a.entitySize)) =
      some (some ({ types := [4, 5] }, 2, 2, 405)) := by decide +kernel
  have hcaps : smallThenFast.map (fun w => (w.store.archetype 0).map fun a =>
      (a.chunkCapacity .smallbin, a.chunkCapacity .fastbin, a.chunkCapacity .largebin)) =
      some (some (2, 161, 2588)) := by decide +kernel
  rw [hw, Option.map_some, Option.some.injEq] at hfacts hcounts hkeys hcaps
  simp only [Prod.mk.injEq] at hfacts hcounts
  obtain ⟨hsize, hlist, hfreshC, hsizes⟩ := hfacts
  obtain ⟨hcount₀, hcount₁, hblock, hsum⟩ := hcounts
  have horder := orderly_of_reachable built_narrowWide (by decide)
    ((orderly_smallThenFast hw).mono fun _ _ hp => hp.1)
  have hknown := (walkable_of_reachable built_narrowWide
    ((orderly_smallThenFast hw).mono fun _ _ hp => hp.1.lists)).2
  have harch : ∀ g a, w.store.archetype g = some a → g = 0 ∧ a.type = { types := [4, 5] } ∧
      a.firstBuffer = 2 ∧ a.firstManaged = 2 ∧ a.entitySize = 405 ∧
      a.chunkCapacity .smallbin = 2 ∧ a.chunkCapacity .fastbin = 161 ∧
      a.chunkCapacity .largebin = 2588 := by
    intro g a ha
    have hg : g = 0 := List.mem_singleton.mp (hlist ▸ (hknown.listed g).mpr ⟨a, ha⟩)
    subst hg
    rw [ha, Option.map_some, Option.some.injEq] at hkeys hcaps
    simp only [Prod.mk.injEq] at hkeys hcaps
    exact ⟨rfl, hkeys.1, hkeys.2.1, hkeys.2.2.1, hkeys.2.2.2, hcaps⟩
  have hmetas : ∀ g a, w.store.archetype g = some a → a.metatypes = [] := by
    intro g a ha
    rw [Archetype.metatypes, (harch g a ha).2.1]
  have htwo : ∀ c g, w.store.type c = some g → w.store.count c = 2 ∨ w.store.count c = 5 := by
    intro c g hc
    have hlt : ¬ 2 ≤ c := by
      intro hge
      rw [horder.listed.fresh c (hfreshC ▸ hge)] at hc
      exact Option.some_ne_none g hc.symm
    rcases Nat.le_one_iff_eq_zero_or_eq_one.mp (Nat.lt_succ_iff.mp (Nat.not_le.mp hlt)) with
      rfl | rfl
    · exact Or.inl hcount₀
    · exact Or.inr hcount₁
  refine ⟨⟨by omega, ?_, ?_, ?_, ?_, ?_, ?_⟩, ⟨?_, ?_⟩, hlist ▸ List.nodup_singleton 0, hblock,
    hsum⟩
  · intro g a hk
    obtain ⟨rfl, -⟩ := harch g a hk.1
    omega
  · intro g a hk
    rw [Archetype.types, Archetype.metatypes, (harch g a hk.1).2.1]
    decide
  · intro g a hk
    rw [Archetype.types, (harch g a hk.1).2.1]
    decide
  · intro g a hk
    rw [hmetas g a hk.1]
    exact List.Pairwise.nil
  · intro g a hk m hm
    rw [hmetas g a hk.1] at hm
    exact absurd hm List.not_mem_nil
  · intro c g a hsrc hclean
    obtain ⟨hc, ha⟩ := archetypeOf_eq_some.mp hsrc
    obtain ⟨-, -, hbuffer, hmanaged, hentity, hsmall, hfast, hlarge⟩ := harch g a ha
    refine ⟨fun k hk hk' => by omega, fun ct => ?_, fun k => ?_, fun i _ k hk hk' => by omega⟩
    · cases ct <;> omega
    · rw [hentity, Store.loadChunkBin]
      rcases htwo c g hc with hn | hn
      · rw [hn]
        split_ifs <;> omega
      · have hlarge : ¬ 5 * 405 % 2 ^ 32 < kSmallBinSize := by decide
        rw [hn, if_neg fun h => hlarge h.2]
        split_ifs <;> omega
  · intro g a ha m hm
    rw [hmetas g a ha] at hm
    exact absurd hm List.not_mem_nil
  · intro g hcycle
    obtain ⟨k, -, a, b, m, ha, hm, -⟩ := Relation.TransGen.tail'_iff.mp hcycle
    rw [hmetas g a ha] at hm
    exact absurd hm List.not_mem_nil

theorem deserialize_serialize_smallThenFast : ∃ w, smallThenFast = some w ∧
    ∃ bytes, w.serialize narrowWide = some bytes ∧ ∀ rest, ∃ v,
      w.deserialize narrowWide (fun _ => 0) (bytes ++ rest) = some (v, rest) ∧
        Reloads narrowWide w.memory.freshBlock w v := by
  have hfacts : smallThenFast.map (fun w => (w.clear fun _ => 0).isSome) = some true := by
    decide +kernel
  obtain ⟨w, hw, hclear⟩ := Option.map_eq_some_iff.mp hfacts
  obtain ⟨hsave, hmetas, hnodup, hblock, hsum⟩ := savable_smallThenFast hw
  obtain ⟨hlisted, hknown⟩ := walkable_of_reachable built_narrowWide
    ((orderly_smallThenFast hw).mono fun _ _ hp => hp.1.lists)
  refine ⟨w, hw, deserialize_serialize built_narrowWide
    (orderly_of_reachable built_narrowWide (by decide)
      ((orderly_smallThenFast hw).mono fun _ _ hp => hp.1)) hknown hnodup hmetas hsave hlisted hknown (mallocs_smallThenFast hw) ?_ ?_⟩
  · exact Option.ne_none_iff_isSome.mpr hclear
  · rw [hblock, hsum]
    decide

end World

end Dots

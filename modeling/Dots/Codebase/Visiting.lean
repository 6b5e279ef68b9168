import Dots.Codebase.Tasks
import Dots.Database.Directory
import Dots.Database.Filter
import Dots.Database.Named

/-!
# What a pass visits

A query finds archetypes, and the tasks of a pass go over their chunks. Seen from the
directory, they go over the entities whose types the filter asks for, each of them once.
-/

namespace Dots

open Library Entities

/-! ## What a filter asks of the directory -/

/-- `t` is a type of a metatype of `type`, or of a metatype of these, and so on. -/
inductive Inherited (D : Population Entity EntityType) : EntityType → TypeIndex → Prop
  | own {type u : EntityType} {m : Entity} {t : TypeIndex} (hm : m ∈ type.metatypes)
      (hu : D m = some u) (ht : t ∈ u.types) : Inherited D type t
  | deep {type u : EntityType} {m : Entity} {t : TypeIndex} (hm : m ∈ type.metatypes)
      (hu : D m = some u) (h : Inherited D u t) : Inherited D type t

/-- The filter asks for entities of this type: the sets match, and the dead and the disabled
are asked for by name. -/
structure Selects (ctx : Context) (D : Population Entity EntityType) (f : ArchetypeFilter)
    (type : EntityType) : Prop where
  clean : ctx.cleanupId ∈ type.types → (Store.includeFlags ctx f).1 = true
  disabled : ctx.disableId ∈ type.types → (Store.includeFlags ctx f).2 = true
  sets : ∃ s, (∀ t, t ∈ s ↔ Inherited D type t) ∧ f.Matches type s

/-- What a filter asks depends on the elements of the inherited types alone. -/
theorem ArchetypeFilter.Matches.congr {f : ArchetypeFilter} {type : EntityType}
    {s s' : List TypeIndex} (hs : ∀ t, t ∈ s ↔ t ∈ s') (h : f.Matches type s) :
    f.Matches type s' where
  all := by simpa only [hs] using h.all
  any := by simpa only [hs] using h.any
  noneOwned := h.noneOwned
  noneShared := by simpa only [hs] using h.noneShared
  owned := h.owned
  shared := by simpa only [hs] using h.shared
  allMetas := h.allMetas
  anyMetas := h.anyMetas
  noneMetas := h.noneMetas

namespace World

variable {ctx : Context} {w w' : World} {g h : ArchetypeId} {a b : Archetype} {c : ChunkId}
  {i : Nat} {e m : Entity} {t : TypeIndex} {f : ArchetypeFilter} {q : QueryCache}
  {type : EntityType}

/-- The sets of the archetypes are sets, and so are those of the types they inherit. -/
structure SetTypes (w : World) : Prop where
  types : ∀ g a, w.store.archetype g = some a → Set.IsSet a.types
  metatypes : ∀ g a, w.store.archetype g = some a → Set.IsSet a.metatypes
  inherited : ∀ g a s, w.store.archetype g = some a → w.store.sharedType w.ents a = some s →
    s.length < 2 ^ 16

/-! ## Inherited types -/

theorem directory_of_archetypeIdOf (hw : Orderly ctx w) (hm : w.Metas)
    (hsize : w.ents.size < 2 ^ 24) (ha : w.store.archetype g = some a) (hmem : m ∈ a.metatypes)
    (hid : w.store.archetypeIdOf w.ents m = some h) (hb : w.store.archetype h = some b) :
    w.directory m = some b.type := by
  obtain ⟨k, hlives⟩ := hm.live g a ha m hmem
  obtain rfl := Option.some.inj ((hlives.archetypeIdOf hsize).symm.trans hid)
  obtain ⟨c, i, d, hfound, harch⟩ := hlives
  obtain rfl := Option.some.inj ((archetypeOf_eq_some.mp harch).2.symm.trans hb)
  exact directory_of_lives hw hsize ⟨c, i, k, hfound, harch⟩

/-- What an archetype at or below `g` owns, `g` owns or inherits. -/
theorem inherited_of_finds (hw : Orderly ctx w) (hm : w.Metas) (hsize : w.ents.size < 2 ^ 24)
    (hin : w.store.Inherits w.ents h g) (hb : w.store.archetype h = some b) (ht : t ∈ b.types)
    (ha : w.store.archetype g = some a) : t ∈ a.types ∨ Inherited w.directory a.type t := by
  induction hin generalizing a with
  | refl =>
      obtain rfl := Option.some.inj (hb.symm.trans ha)
      exact Or.inl ht
  | tail _ hmeta ih =>
      obtain ⟨a', d, m, ha', hmem, hid, hd⟩ := hmeta
      obtain rfl := Option.some.inj (ha.symm.trans ha')
      have hu := directory_of_archetypeIdOf hw hm hsize ha hmem hid hd
      exact Or.inr ((ih hd).elim (fun ht => .own hmem hu ht) fun hrest => .deep hmem hu hrest)

theorem inherited_iff (hw : Orderly ctx w) (hm : w.Metas) (hsize : w.ents.size < 2 ^ 24)
    (ha : w.store.archetype g = some a) :
    (∃ m ∈ a.metatypes, w.store.Provides w.ents m t) ↔ Inherited w.directory a.type t := by
  constructor
  · rintro ⟨m, hmem, k, hid, h, b, hin, hb, ht⟩
    have hk : ∃ d, w.store.archetype k = some d := by
      obtain ⟨j, hlives⟩ := hm.live g a ha m hmem
      obtain rfl := Option.some.inj ((hlives.archetypeIdOf hsize).symm.trans hid)
      exact hlives.archetype
    obtain ⟨d, hd⟩ := hk
    have hu := directory_of_archetypeIdOf hw hm hsize ha hmem hid hd
    rcases inherited_of_finds hw hm hsize hin hb ht hd with hown | hbelow
    · exact .own hmem hu hown
    · exact .deep hmem hu hbelow
  · have hall : ∀ type, Inherited w.directory type t →
        ∃ m ∈ type.metatypes, w.store.Provides w.ents m t := by
      intro type hinh
      induction hinh with
      | own hmem hu ht =>
          obtain ⟨b, rfl, c, i, k, hfound, harch⟩ := (directory_eq_some hw hsize).mp hu
          have hlives : w.LivesIn _ k := ⟨c, i, b, hfound, harch⟩
          have hb := (archetypeOf_eq_some.mp harch).2
          exact ⟨_, hmem, (Store.provides_iff (hlives.archetypeIdOf hsize) hb).mpr (Or.inl ht)⟩
      | deep hmem hu _ ih =>
          obtain ⟨b, rfl, c, i, k, hfound, harch⟩ := (directory_eq_some hw hsize).mp hu
          have hlives : w.LivesIn _ k := ⟨c, i, b, hfound, harch⟩
          have hb := (archetypeOf_eq_some.mp harch).2
          exact ⟨_, hmem, (Store.provides_iff (hlives.archetypeIdOf hsize) hb).mpr (Or.inr ih)⟩
    exact hall a.type

/-! ## Queries -/

theorem disabled_iff {key : EntityType} (ha : constructArchetype ctx key = some a) :
    a.disabled = a.type.types.contains ctx.disableId := by
  have hdisabled : a.disabled = key.types.any fun t => t == ctx.disableId := by
    simp only [constructArchetype] at ha
    split_ifs at ha
    rw [← Option.some.inj ha]
  rw [hdisabled, constructArchetype_type ha, Bool.eq_iff_iff, List.any_eq_true,
    List.contains_iff_mem]
  simp

/-- The test of `get_query_cache`, as the directory sees it. -/
theorem matchCache_iff (hctx : ctx.Built) (hw : Orderly ctx w) (hm : w.Metas)
    (hsize : w.ents.size < 2 ^ 24) (hsets : w.SetTypes) (hf : f.IsSets)
    (ha : w.store.archetype g = some a) :
    w.store.matchCache w.ents (Store.includeFlags ctx f).1 (Store.includeFlags ctx f).2 f a =
        some true ↔ Selects ctx w.directory f a.type := by
  have hbuilt := (hw.listed.built g a ha).2
  obtain ⟨s, hs, hmem⟩ := Store.sharedType_spec (hm.metasLive hsize) (numbered hw.listed)
    hm.acyclic ha
  have hinh : ∀ t, t ∈ s ↔ Inherited w.directory a.type t :=
    fun t => (hmem t).trans (inherited_iff hw hm hsize ha)
  have hset : Set.IsSet s :=
    ⟨Store.strict_sharedTypeFrom hsets.types List.Pairwise.nil hs, hsets.inherited g a s ha hs⟩
  have hmatch : f.match a.type s = true ↔
      ∃ s, (∀ t, t ∈ s ↔ Inherited w.directory a.type t) ∧ f.Matches a.type s := by
    rw [ArchetypeFilter.match_iff hf (hsets.types g a ha) (hsets.metatypes g a ha) hset]
    refine ⟨fun h => ⟨s, hinh, h⟩, ?_⟩
    rintro ⟨s', hs', h⟩
    exact h.congr fun t => (hs' t).trans (hinh t).symm
  rw [Store.matchCache, cleaning_iff hctx hbuilt, disabled_iff hbuilt, hs, Option.map_some]
  constructor
  · intro h
    split_ifs at h with hclean hdisabled
    · simp at h
    · simp at h
    · refine ⟨fun hc => ?_, fun hd => ?_, hmatch.mp (Option.some.inj h)⟩
      · simpa [hc] using hclean
      · simpa [hd] using hdisabled
  · intro h
    rw [if_neg, if_neg, hmatch.mpr h.sets]
    · simpa using fun hflag hd => by simp [h.disabled hd] at hflag
    · simpa using fun hflag hc => by simp [h.clean hc] at hflag

/-! ## The tasks of a pass -/

/-- The handles of the tasks, in the order in which the tasks name them. -/
def visited (w : World) (ts : List Task) : List Entity := ts.flatMap fun t => w.handles t.slice

theorem visited_eq (w : World) (ts : List Task) :
    w.visited ts = (ts.flatMap Task.slots).map fun p => w.memory.entityAt p.1 p.2 := by
  rw [visited, List.map_flatMap]
  refine List.flatMap_congr fun t _ => ?_
  rw [handles, Task.slots, List.map_map]
  rfl

/-- The chunk of `e` is one that the chunk filter lets through. -/
def Passes (w : World) (cf : ChunkFilter) (e : Entity) (type : EntityType) : Prop :=
  ∃ c, (w.ents.datas e.id).c = .chunk c ∧ (cf.match type.types (w.store.timestamps c)).1 = true

/-- The tasks over archetypes that are told apart by their types alone. -/
theorem createTasks_visits (hw : Orderly ctx w) (hsize : w.ents.size < 2 ^ 24)
    {archetypes : List ArchetypeId} {P : EntityType → Prop} (hnodup : archetypes.Nodup)
    (hall : ∀ g ∈ archetypes, w.store.archetype g ≠ none)
    (hmem : ∀ g a, w.store.archetype g = some a → (g ∈ archetypes ↔ P a.type))
    (cf : ChunkFilter) {batchCount : Nat} (hb : 1 ≤ batchCount) :
    ∃ ts gs, w.store.createTasks archetypes cf batchCount = some (ts, gs) ∧
      w.store.Partition archetypes cf batchCount ts gs ∧ (w.visited ts).Nodup ∧
      ∀ e, e ∈ w.visited ts ↔
        ∃ type, w.directory e = some type ∧ P type ∧ w.Passes cf e type := by
  have hfew := Store.fewPlaces_of_tracks ((hw.sound.tracks hsize).mono
    fun c i hi => ⟨hi, not_false⟩)
  obtain ⟨ts, gs, hs, hpart⟩ := Store.partition_of_walks hfew hnodup
    (fun g hg => hw.listed.walks (hall g hg)) hb
  have hocc : ∀ p ∈ ts.flatMap Task.slots, w.store.Occupied p.1 p.2 := by
    intro p hp
    obtain ⟨⟨g, a, -, hc, -⟩, hi⟩ := (hpart.covered p.1 p.2).mp hp
    exact ⟨by rw [hc]; exact Option.some_ne_none g, hi⟩
  refine ⟨ts, gs, hs, hpart, ?_, fun e => ?_⟩
  · rw [visited_eq]
    refine (List.nodup_map_iff_inj_on hpart.once).mpr fun p hp p' hp' heq => ?_
    obtain ⟨hc, hi⟩ := hw.unique hsize (hocc p hp) (hocc p' hp') heq
    exact Prod.ext hc hi
  · rw [visited_eq, List.mem_map]
    constructor
    · rintro ⟨⟨c, i⟩, hp, rfl⟩
      obtain ⟨⟨g, a, hg, hc, ha, hmatch⟩, -⟩ := (hpart.covered c i).mp hp
      have hfound := hw.sound.found (hocc _ hp)
      have hlives := directory_of_lives hw hsize
        ⟨c, i, g, hfound, archetypeOf_eq_some.mpr ⟨hc, ha⟩⟩
      exact ⟨a.type, hlives, (hmem g a ha).mp hg, c, (hfound.entry hsize).2.1, hmatch⟩
    · rintro ⟨type, htype, hP, c', hc', hmatch⟩
      obtain ⟨a, rfl, c, i, g, hfound, harch⟩ := (directory_eq_some hw hsize).mp htype
      obtain ⟨-, hentry, -⟩ := hfound.entry hsize
      obtain rfl : c' = c := Location.chunk.inj (hc'.symm.trans hentry)
      obtain ⟨hc, ha⟩ := archetypeOf_eq_some.mp harch
      refine ⟨(c', i), (hpart.covered c' i).mpr ⟨?_, hfound.occupied.2⟩, hfound.handle⟩
      exact ⟨g, a, (hmem g a ha).mpr hP, hc, ha, hmatch⟩

/-- The pass that is made for a filter, in any run whose calls change no test of a cached query,
goes over every entity of the directory whose types the filter asks for, and whose chunk the chunk
filter lets through, once, and over no other. -/
theorem visits_of_pass (hctx : ctx.Built) (hreg : ctx.tracks.length < 2 ^ 30)
    (hreach : Reachable ctx (fun w op => op.Orderly ctx w ∧ op.KeepsMetas ctx w ∧
      op.KeepsTests ctx w) w) (hsize : w.ents.size < 2 ^ 24) (hsets : w.SetTypes)
    (hf : f.IsSets) (hq : w.query ctx f = some (w', q)) (cf : ChunkFilter) {batchCount : Nat}
    (hb : 1 ≤ batchCount) :
    ∃ ts gs, w'.store.createTasks (q.archetypes.map MatchedArchetype.type) cf batchCount =
        some (ts, gs) ∧ (w'.visited ts).Nodup ∧
      ∀ e, e ∈ w'.visited ts ↔ ∃ type, w.directory e = some type ∧
        Selects ctx w.directory f type ∧ w.Passes cf e type := by
  obtain ⟨hw, hm, -⟩ := names_of_reachable hctx hreg hreach hsize
  obtain ⟨hnodup, hnames⟩ := names_of_query hctx hreg hreach hsize hq
  have hw' : Orderly ctx w' := by
    have hrun : (Op.query f).run ctx 0 w = some w' := by
      rw [Op.run, hq, Option.map_some]
    exact @Orderly.step ctx _ _ hctx hreg (.query f) 0 hw trivial
      ⟨trivial, trivial, trivial, trivial⟩ hrun
  obtain ⟨queries, rfl⟩ := query_eq_some hq
  have hall : ∀ g ∈ q.archetypes.map MatchedArchetype.type, w.store.archetype g ≠ none := by
    intro g hg
    obtain ⟨a, ha, -⟩ := (hnames g).mp hg
    exact Option.ne_none_iff_exists'.mpr ⟨a, ha⟩
  have hmem : ∀ g a, w.store.archetype g = some a →
      (g ∈ q.archetypes.map MatchedArchetype.type ↔ Selects ctx w.directory f a.type) := by
    intro g a ha
    rw [hnames, ← matchCache_iff hctx hw hm hsize hsets hf ha]
    refine ⟨?_, fun h => ⟨a, ha, h⟩⟩
    rintro ⟨b, hb, h⟩
    exact Option.some.inj (hb.symm.trans ha) ▸ h
  obtain ⟨ts, gs, hs, -, honce, hvisits⟩ := createTasks_visits hw' hsize hnodup hall hmem cf hb
  exact ⟨ts, gs, hs, honce, hvisits⟩

theorem visits_of_grown : ∃ w w' q ts gs, grown = some w ∧
    w.query narrowWide (typesFilter [4]) = some (w', q) ∧
    w'.store.createTasks (q.archetypes.map MatchedArchetype.type) Store.unfiltered 1 = some (ts, gs) ∧
    (w'.visited ts).Nodup ∧ ∀ e, e ∈ w'.visited ts ↔ ∃ type, w.directory e = some type ∧
      Selects narrowWide w.directory (typesFilter [4]) type ∧ w.Passes Store.unfiltered e type := by
  have hfacts : grown.map (fun w => ((w.ents.size, w.store.queries.map QueryCache.filter),
      w.store.archetypes, (w.store.archetype 0).map Archetype.type)) =
      some ((2, [typesFilter [4]]), [0], some { types := [4] }) := by decide +kernel
  obtain ⟨w, hw, hfacts⟩ := Option.map_eq_some_iff.mp hfacts
  obtain ⟨hshape, harchetypes, htype⟩ := Prod.mk.inj hfacts |>.imp_right Prod.mk.inj
  obtain ⟨hsize, hfilters⟩ := Prod.mk.inj hshape
  have hreach := reachable_grown hw
  obtain ⟨-, -, _, hcaches⟩ := names_of_reachable built_narrowWide (by decide) hreach (by omega)
  have hone : ∀ g a, w.store.archetype g = some a → a.type = { types := [4] } := by
    intro g a ha
    have hg := (hcaches.known.listed g).mpr ⟨a, ha⟩
    rw [harchetypes, List.mem_singleton] at hg
    rw [hg] at ha
    rw [ha] at htype
    exact Option.some.inj htype
  have hsets : w.SetTypes := by
    refine ⟨fun g a ha => ?_, fun g a ha => ?_, fun g a s ha hs => ?_⟩
    · rw [Archetype.types, hone g a ha]
      exact ⟨by decide, by decide⟩
    · rw [Archetype.metatypes, hone g a ha]
      exact ⟨by decide, by decide⟩
    · rw [Store.sharedType, Store.sharedTypeFrom, Archetype.metatypes, hone g a ha] at hs
      rw [← Option.some.inj hs]
      decide
  have hf : (typesFilter [4]).IsSets := by
    constructor <;> exact ⟨by decide, by decide⟩
  obtain ⟨q, hq⟩ : ∃ q, w.query narrowWide (typesFilter [4]) = some (w, q) :=
    query_of_hasQuery (List.mem_map.mp (hfilters ▸ List.mem_singleton_self _))
  obtain ⟨ts, gs, hpass⟩ := visits_of_pass built_narrowWide (by decide) hreach (by omega) hsets hf
    hq Store.unfiltered (le_refl 1)
  exact ⟨w, w, q, ts, gs, hw, hq, hpass⟩

end World

end Dots

import Dots.Database.Keys
import Dots.Database.Metatypes

/-!
# Looking up components

`get_component_ro` and `has_component` ask an entity first and its metatypes after it. The
test of `get_component_ro` against the first tag also catches the invalid index, so the
metatypes are never asked. `has_component` takes all types from one entity, where a query
takes each type from any of them.
-/

namespace Dots

open Library

namespace World

variable {ctx : Context} {w : World} {e : Entity} {g h : ArchetypeId} {a b : Archetype}
  {t : TypeIndex} {type : List TypeIndex}

/-- `world::get_shared_ro(archetype*, type_index)`, where `lookup` is `get_component_ro`. -/
def sharedRo (lookup : Entity → Option (Option (ChunkId × Nat))) :
    List Entity → Option (Option (ChunkId × Nat))
  | [] => some none
  | m :: metas => do
      match ← lookup m with
      | some shared => some (some shared)
      | none => sharedRo lookup metas

/-- `world::get_component_ro(entity, type_index)`, with its call of `get_shared_ro`. -/
def componentRo (w : World) : Nat → Entity → TypeIndex → Option (Option (ChunkId × Nat))
  | 0, _, _ => none
  | fuel + 1, e, t =>
      if w.ents.exist e then do
        let s ← w.asSlice e
        let (_, a) ← w.archetypeOf s.c
        let id := a.index t
        if id ≥ a.firstTag then some none
        else if id = invalidIndex then sharedRo (fun m => w.componentRo fuel m t) a.metatypes
        else some (some (s.c, a.address (w.store.ct s.c) id s.start))
      else some none

/-- `world::share_component`, where `has` is `has_component`. -/
def shareComponent (has : Entity → Option Bool) : List Entity → Option Bool
  | [] => some false
  | m :: metas => do if ← has m then some true else shareComponent has metas

/-- `world::has_component(entity, const typeset&)`. -/
def hasComponent (w : World) : Nat → Entity → List TypeIndex → Option Bool
  | 0, _, _ => none
  | fuel + 1, e, type =>
      if w.ents.exist e then do
        let s ← w.asSlice e
        let (_, a) ← w.archetypeOf s.c
        if Set.all a.types type then some true
        else shareComponent (fun m => w.hasComponent fuel m type) a.metatypes
      else some false

/-! ## One level of a lookup -/

/-- An entity of the archetype `g`. -/
theorem asSlice_of_archetypeIdOf (he : w.store.archetypeIdOf w.ents e = some g)
    (ha : w.store.archetype g = some a) :
    w.ents.exist e = true ∧ ∃ s, w.asSlice e = some s ∧ w.archetypeOf s.c = some (g, a) := by
  unfold Store.archetypeIdOf at he
  split_ifs at he with hexist
  refine ⟨hexist, ?_⟩
  cases hloc : (w.ents.datas e.id).c with
  | chunk c =>
      rw [hloc] at he
      simp only [Entities.exist, Bool.and_eq_true, decide_eq_true_eq] at hexist
      refine ⟨{ c := c, start := (w.ents.datas e.id).i, count := 1 }, ?_,
        archetypeOf_eq_some.mpr ⟨he, ha⟩⟩
      simp only [asSlice, entrySlice, if_pos hexist.1, hloc]
  | nextFree n =>
      rw [hloc] at he
      simp at he
  | raw =>
      rw [hloc] at he
      simp at he

theorem archetypeIdOf_of_exist (hexist : w.ents.exist e = true)
    (h : w.ents.exist e = true → w.store.getArchetypeOf w.ents e ≠ none) :
    ∃ k b, w.store.archetypeIdOf w.ents e = some k ∧ w.store.archetype k = some b := by
  obtain ⟨b, hb⟩ := Option.ne_none_iff_exists'.mp (h hexist)
  obtain ⟨k, hid, hb⟩ := Store.getArchetypeOf_eq_some.mp hb
  exact ⟨k, b, hid, hb⟩

/-- A null pointer is found for a type that the entity does not own. -/
theorem componentRo_of_not_mem (he : w.store.archetypeIdOf w.ents e = some g)
    (ha : w.store.archetype g = some a) (hwidth : a.firstTag ≤ invalidIndex) (ht : t ∉ a.types)
    (fuel : Nat) : w.componentRo (fuel + 1) e t = some none := by
  obtain ⟨hexist, s, hs, harch⟩ := asSlice_of_archetypeIdOf he ha
  have hindex : a.index t = invalidIndex := by
    simp only [Archetype.index]
    rw [if_neg fun hget => ht (List.mem_of_getElem? hget)]
  simp only [componentRo, if_pos hexist, hs, harch, Option.bind_eq_bind, Option.bind_some, hindex,
    ge_iff_le, if_pos hwidth]

/-- The slot of the entity is found for a type that it owns. -/
theorem componentRo_of_mem (he : w.store.archetypeIdOf w.ents e = some g)
    (ha : w.store.archetype g = some a) (hbuilt : constructArchetype ctx a.type = some a)
    (hsorted : SortedTypes a.types) (hwidth : a.types.length < 2 ^ 16) (ht : t ∈ a.types)
    (htag : t.isTag = false) :
    ∃ s, w.asSlice e = some s ∧ ∀ fuel, w.componentRo (fuel + 1) e t =
      some (some (s.c, a.address (w.store.ct s.c) (a.column t) s.start)) := by
  obtain ⟨hexist, s, hs, harch⟩ := asSlice_of_archetypeIdOf he ha
  have hcol := Archetype.column_lt ht
  have hindex : a.index t = a.column t := by
    rw [Archetype.index_eq hsorted ht]
    exact Nat.mod_eq_of_lt (hcol.trans hwidth)
  have hbits : t.bits < 3 := by
    have hlt := Archetype.bits_lt t
    simp only [TypeIndex.isTag, ComponentType.bits, beq_eq_false_iff_ne] at htag
    omega
  have hfirst : a.column t < a.firstTag := by
    rw [(Archetype.boundaries hbuilt hsorted hcol).1, Archetype.types_column ht]
    exact hbits
  have hvalid : a.column t ≠ invalidIndex := by
    simp only [invalidIndex]
    omega
  refine ⟨s, hs, fun fuel => ?_⟩
  simp only [componentRo, if_pos hexist, hs, harch, Option.bind_eq_bind, Option.bind_some, hindex,
    ge_iff_le, if_neg (not_le.mpr hfirst), if_neg hvalid]

theorem componentRo_of_not_exist (hexist : w.ents.exist e = false) (fuel : Nat) :
    w.componentRo (fuel + 1) e t = some none := by
  simp only [componentRo, hexist, Bool.false_eq_true, if_false]

theorem sharedRo_none {lookup : Entity → Option (Option (ChunkId × Nat))} {metas : List Entity}
    (h : ∀ m ∈ metas, lookup m = some none) : sharedRo lookup metas = some none := by
  induction metas with
  | nil => rfl
  | cons m metas ih =>
      rw [sharedRo, h m List.mem_cons_self, Option.bind_eq_bind, Option.bind_some]
      exact ih fun m' hm' => h m' (List.mem_cons_of_mem m hm')

theorem shareComponent_spec {has : Entity → Option Bool} {P : Entity → Prop}
    {metas : List Entity} (h : ∀ m ∈ metas, ∃ b, has m = some b ∧ (b = true ↔ P m)) :
    ∃ b, shareComponent has metas = some b ∧ (b = true ↔ ∃ m ∈ metas, P m) := by
  induction metas with
  | nil => exact ⟨false, rfl, by simp⟩
  | cons m metas ih =>
      obtain ⟨b, hb, hiff⟩ := h m List.mem_cons_self
      rw [shareComponent, hb, Option.bind_eq_bind, Option.bind_some, List.exists_mem_cons_iff]
      cases b with
      | true => exact ⟨true, rfl, by simp [hiff.mp rfl]⟩
      | false =>
          obtain ⟨b', hb', hiff'⟩ := ih fun m' hm' => h m' (List.mem_cons_of_mem m hm')
          refine ⟨b', hb', ?_⟩
          rw [hiff', ← hiff]
          simp

/-- The entities of archetypes can be found, metatypes included. -/
structure Browsable (ctx : Context) (w : World) : Prop where
  sorted : w.store.SortedKeys
  constructed : w.store.Constructed ctx
  known : w.store.Known
  acyclic : w.store.Acyclic w.ents
  metas : ∀ g a, w.store.archetype g = some a → ∀ m ∈ a.metatypes,
    w.ents.exist m = true → w.store.getArchetypeOf w.ents m ≠ none

theorem hasComponent_of_not_exist (hexist : w.ents.exist e = false) (fuel : Nat) :
    w.hasComponent (fuel + 1) e type = some false := by
  simp only [hasComponent, hexist, Bool.false_eq_true, if_false]

/-- `has_component` finds an archetype that owns all the types. -/
theorem hasComponent_spec (hw : w.Browsable ctx) (htype : Set.Sorted type) {n : Nat}
    (he : w.store.archetypeIdOf w.ents e = some g) (ha : w.store.archetype g = some a)
    (hn : height (w.store.MetaOf w.ents) g < n) :
    ∃ b, w.hasComponent (n + 1) e type = some b ∧
      (b = true ↔ w.store.Finds w.ents (fun d => ∀ t ∈ type, t ∈ d.types) g) := by
  induction n generalizing e g a with
  | zero => exact absurd hn (Nat.not_lt_zero _)
  | succ n ih =>
      obtain ⟨hexist, s, hs, harch⟩ := asSlice_of_archetypeIdOf he ha
      have hall := Set.all_iff (hw.sorted g a ha).sorted htype
      simp only [hasComponent, if_pos hexist, hs, harch, Option.bind_eq_bind, Option.bind_some]
      rw [Store.finds_iff ha]
      by_cases hown : Set.all a.types type = true
      · exact ⟨true, if_pos hown, iff_of_true rfl (Or.inl (hall.mp hown))⟩
      · have hmetas : ∀ m ∈ a.metatypes, ∃ b, w.hasComponent (n + 1) m type = some b ∧
            (b = true ↔ ∃ k, w.store.archetypeIdOf w.ents m = some k ∧
              w.store.Finds w.ents (fun d => ∀ t ∈ type, t ∈ d.types) k) := by
          intro m hm
          cases hlive : w.ents.exist m with
          | false =>
              refine ⟨false, hasComponent_of_not_exist hlive n, iff_of_false (by simp) ?_⟩
              rintro ⟨k, hid, -⟩
              simp [Store.archetypeIdOf, hlive] at hid
          | true =>
              obtain ⟨k, b, hid, hb⟩ := archetypeIdOf_of_exist hlive (hw.metas g a ha m hm)
              have hlt := Store.height_metaOf_lt hw.known.numbered hw.acyclic
                ⟨a, b, m, ha, hm, hid, hb⟩
              obtain ⟨r, hr, hiff⟩ := ih hid hb (by omega)
              refine ⟨r, hr, hiff.trans ⟨fun hf => ⟨k, hid, hf⟩, ?_⟩⟩
              rintro ⟨k', hid', hf⟩
              obtain rfl := Option.some.inj (hid.symm.trans hid')
              exact hf
        obtain ⟨b, hb, hiff⟩ := shareComponent_spec hmetas
        rw [if_neg hown]
        exact ⟨b, hb, by rw [hiff, or_iff_right fun h => hown (hall.mpr h)]⟩

theorem returns_hasComponent (hw : w.Browsable ctx) (htype : Set.Sorted type)
    (he : w.store.archetypeIdOf w.ents e = some g) (ha : w.store.archetype g = some a) :
    ∃ b, Returns (fun fuel => w.hasComponent fuel e type) b ∧
      (b = true ↔ w.store.Finds w.ents (fun d => ∀ t ∈ type, t ∈ d.types) g) := by
  obtain ⟨b, -, hiff⟩ := hasComponent_spec hw htype he ha (Nat.lt_succ_self _)
  refine ⟨b, ⟨height (w.store.MetaOf w.ents) g + 2, fun fuel hfuel => ?_⟩, hiff⟩
  obtain ⟨n, rfl⟩ := Nat.exists_eq_add_of_le' (show 1 ≤ fuel by omega)
  obtain ⟨b', hb', hiff'⟩ := hasComponent_spec hw htype he ha
    (show height (w.store.MetaOf w.ents) g < n by omega)
  have heq : b' = b := by rw [Bool.eq_iff_iff, hiff, hiff']
  exact heq ▸ hb'

/-! ## Coherence of the two lookups -/

/-- What a lookup of the type `t` for an entity of archetype `a` should find. -/
structure Coherent (w : World) (e : Entity) (a : Archetype) (t : TypeIndex) : Prop where
  /-- A component is found exactly when the entity has it. -/
  agrees : ∃ found has, Returns (fun fuel => w.componentRo fuel e t) found ∧
    Returns (fun fuel => w.hasComponent fuel e [t]) has ∧ (found ≠ none ↔ has = true)
  /-- An owned component is the slot of the entity. -/
  owned : t ∈ a.types → ∃ s i, w.asSlice e = some s ∧ a.types[i]? = some t ∧
    Returns (fun fuel => w.componentRo fuel e t)
      (some (s.c, a.address (w.store.ct s.c) i s.start))
  /-- A component that is not owned is what the first metatype that has one finds. -/
  shared : t ∉ a.types → ∃ found, Returns (fun fuel => w.componentRo fuel e t) found ∧
    Returns (fun fuel => sharedRo (fun m => w.componentRo fuel m t) a.metatypes) found

theorem browsable_of_reachable (hctx : ctx.Built) (hreg : ctx.tracks.length < 2 ^ 30)
    (hw : Reachable ctx (fun _ op => op.SortedKeys) w) (hac : w.store.Acyclic w.ents)
    (hmetas : ∀ g a, w.store.archetype g = some a → ∀ m ∈ a.metatypes,
      w.ents.exist m = true → w.store.getArchetypeOf w.ents m ≠ none) : w.Browsable ctx where
  sorted := hw.invariant sorted_initial fun _ _ _ _ _ hkeys hrun h => sorted_run hctx hreg h hkeys hrun
  constructed := hw.invariant constructed_initial fun _ _ _ _ _ _ hrun h => constructed_run h hrun
  known := hw.invariant known_initial fun _ _ _ _ _ _ hrun h => (renewed_run hrun).known h
  acyclic := hac
  metas := hmetas

theorem firstTag_le (hc : w.store.Constructed ctx) (ha : w.store.archetype g = some a)
    (hwidth : a.types.length < 2 ^ 16) : a.firstTag ≤ invalidIndex := by
  have hle := segment_le TypeIndex.isTag a.types
  have htag := (Archetype.segments (hc g a ha)).1
  rw [List.take_length] at htag
  simp only [invalidIndex]
  omega

/-- Whether a type is found along the metatypes. -/
theorem returns_hasComponent_single (hw : w.Browsable ctx)
    (he : w.store.archetypeIdOf w.ents e = some g) (ha : w.store.archetype g = some a) :
    ∃ has, Returns (fun fuel => w.hasComponent fuel e [t]) has ∧
      (has = true ↔ w.store.Finds w.ents (fun d => t ∈ d.types) g) := by
  obtain ⟨has, hhas, hiff⟩ := returns_hasComponent hw (List.pairwise_singleton _ t) he ha
  have hone : ∀ d : Archetype, (∀ u ∈ [t], u ∈ d.types) ↔ t ∈ d.types := by simp
  simp only [hone] at hiff
  exact ⟨has, hhas, hiff⟩

theorem Coherent.of_mem (hw : w.Browsable ctx) (he : w.store.archetypeIdOf w.ents e = some g)
    (ha : w.store.archetype g = some a) (hwidth : a.types.length < 2 ^ 16) (ht : t ∈ a.types)
    (htag : t.isTag = false) : w.Coherent e a t := by
  obtain ⟨has, hhas, hiff⟩ := returns_hasComponent_single hw he ha
  obtain ⟨s, hs, hslot⟩ := componentRo_of_mem he ha (hw.constructed g a ha) (hw.sorted g a ha)
    hwidth ht htag
  have htrue : has = true := hiff.mpr ⟨g, a, .refl, ha, ht⟩
  have hget : a.types[a.column t]? = some t := by
    rw [List.getElem?_eq_getElem (Archetype.column_lt ht), Archetype.types_column ht]
  exact
    { agrees := ⟨_, has, Returns.of_succ hslot, hhas, by simp [htrue]⟩
      owned := fun _ => ⟨s, a.column t, hs, hget, Returns.of_succ hslot⟩
      shared := absurd ht }

theorem Coherent.of_not_finds (hw : w.Browsable ctx) (he : w.store.archetypeIdOf w.ents e = some g)
    (ha : w.store.archetype g = some a)
    (hwidth : ∀ g a, w.store.archetype g = some a → a.types.length < 2 ^ 16)
    (ht : ¬ w.store.Finds w.ents (fun d => t ∈ d.types) g) : w.Coherent e a t := by
  have hfirst : ∀ k b, w.store.archetype k = some b → b.firstTag ≤ invalidIndex :=
    fun k b hb => firstTag_le hw.constructed hb (hwidth k b hb)
  obtain ⟨has, hhas, hiff⟩ := returns_hasComponent_single hw he ha
  have hfalse : has = false := Bool.eq_false_iff.mpr (mt hiff.mp ht)
  have hown : t ∉ a.types := fun hmem => ht ⟨g, a, .refl, ha, hmem⟩
  have hnull := componentRo_of_not_mem he ha (hfirst g a ha) hown
  have hmetas : ∀ n, ∀ m ∈ a.metatypes, w.componentRo (n + 1) m t = some none := by
    intro n m hm
    cases hlive : w.ents.exist m with
    | false => exact componentRo_of_not_exist hlive n
    | true =>
        obtain ⟨k, b, hid, hb⟩ := archetypeIdOf_of_exist hlive (hw.metas g a ha m hm)
        have hmeta : w.store.MetaOf w.ents k g := ⟨a, b, m, ha, hm, hid, hb⟩
        exact componentRo_of_not_mem hid hb (hfirst k b hb)
          (fun hmem => ht ⟨k, b, .single hmeta, hb, hmem⟩) n
  exact
    { agrees := ⟨none, has, Returns.of_succ hnull, hhas, by simp [hfalse]⟩
      owned := fun hmem => absurd hmem hown
      shared := fun _ => ⟨none, Returns.of_succ hnull,
        Returns.of_succ fun n => sharedRo_none (hmetas n)⟩ }

/-- A type that the entity only inherits is not found. -/
theorem not_coherent (hw : w.Browsable ctx) (he : w.store.archetypeIdOf w.ents e = some g)
    (ha : w.store.archetype g = some a) (hwidth : a.types.length < 2 ^ 16) (hown : t ∉ a.types)
    (ht : w.store.Finds w.ents (fun d => t ∈ d.types) g) : ¬ w.Coherent e a t := by
  intro hco
  obtain ⟨has, hhas, hiff⟩ := returns_hasComponent_single hw he ha
  obtain ⟨found, has', hfound, hhas', hagree⟩ := hco.agrees
  have hnull := componentRo_of_not_mem he ha (firstTag_le hw.constructed ha hwidth) hown
  have htrue : has' = true := (hhas'.unique hhas).trans (hiff.mpr ht)
  exact hagree.mpr htrue (hfound.unique (Returns.of_succ hnull))

/-- The two lookups of a component agree exactly for a type that the entity owns, or that
nothing below it owns. -/
theorem coherent_iff (hctx : ctx.Built) (hreg : ctx.tracks.length < 2 ^ 30)
    (hw : Reachable ctx (fun _ op => op.SortedKeys) w)
    (hwidth : ∀ g a, w.store.archetype g = some a → a.types.length < 2 ^ 16)
    (hac : w.store.Acyclic w.ents)
    (hmetas : ∀ g a, w.store.archetype g = some a → ∀ m ∈ a.metatypes,
      w.ents.exist m = true → w.store.getArchetypeOf w.ents m ≠ none)
    (he : w.store.archetypeIdOf w.ents e = some g) (ha : w.store.archetype g = some a)
    (htag : t.isTag = false) :
    w.Coherent e a t ↔ t ∈ a.types ∨
      ∀ h d, Relation.TransGen (w.store.MetaOf w.ents) h g → w.store.archetype h = some d →
        t ∉ d.types := by
  have hb := browsable_of_reachable hctx hreg hw hac hmetas
  constructor
  · intro hco
    refine or_iff_not_imp_left.mpr fun hown h d hbelow hd hmem => ?_
    exact not_coherent hb he ha (hwidth g a ha) hown ⟨h, d, hbelow.to_reflTransGen, hd, hmem⟩ hco
  · rintro hcond
    by_cases hown : t ∈ a.types
    · exact .of_mem hb he ha (hwidth g a ha) hown htag
    · have hnone := hcond.resolve_left hown
      refine .of_not_finds hb he ha hwidth ?_
      rintro ⟨h, d, hin, hd, hmem⟩
      rcases Relation.reflTransGen_iff_eq_or_transGen.mp hin with rfl | hbelow
      · exact hown (Option.some.inj (ha.symm.trans hd) ▸ hmem)
      · exact hnone h d hbelow hd hmem

/-- An entity that owns component 4 and has a metatype that owns component 5. -/
def heir : Option World :=
  runAll narrowWide 2 blank
    [.allocate { types := [5] } 1, .allocate { types := [4], metatypes := [⟨0⟩] } 1]

/-- What is to be known of that world. -/
structure IsHeir (w : World) (a b : Archetype) : Prop where
  run : heir = some w
  reach : Reachable narrowWide (fun _ op => op.SortedKeys) w
  only : ∀ g d, w.store.archetype g = some d → g = 0 ∧ d = b ∨ g = 1 ∧ d = a
  meta_ : w.store.archetype 0 = some b
  own : w.store.archetype 1 = some a
  typeB : b.type = { types := [5] }
  typeA : a.type = { types := [4], metatypes := [⟨0⟩] }
  idB : w.store.archetypeIdOf w.ents ⟨0⟩ = some 0
  idA : w.store.archetypeIdOf w.ents ⟨256⟩ = some 1

theorem isHeir : ∃ w a b, IsHeir w a b := by
  have hfacts : heir.map (fun w => ([w.store.freshArchetype],
      [(w.store.archetype 0).map Archetype.type, (w.store.archetype 1).map Archetype.type],
      [w.store.archetypeIdOf w.ents ⟨0⟩, w.store.archetypeIdOf w.ents ⟨256⟩])) =
      some ([2], [some { types := [5] }, some { types := [4], metatypes := [⟨0⟩] }],
        [some 0, some 1]) := by decide +kernel
  obtain ⟨w, hw, hfacts⟩ := Option.map_eq_some_iff.mp hfacts
  simp only [Prod.mk.injEq, List.cons.injEq, and_true] at hfacts
  obtain ⟨hfresh, ⟨htb, hta⟩, hidB, hidA⟩ := hfacts
  obtain ⟨b, hb, htypeB⟩ := Option.map_eq_some_iff.mp htb
  obtain ⟨a, ha, htypeA⟩ := Option.map_eq_some_iff.mp hta
  have hreach : Reachable narrowWide (fun _ op => op.SortedKeys) w := by
    refine (reachable_blank narrowWide _).runAll (fun op hop v => ?_) hw
    rcases List.mem_pair.mp hop with rfl | rfl
    · exact ⟨trivial, by decide, by decide⟩
    · exact ⟨trivial, by decide, by decide⟩
  have hknown : w.store.Known :=
    hreach.invariant known_initial fun _ _ _ _ _ _ hrun h => (renewed_run hrun).known h
  refine ⟨w, a, b, hw, hreach, fun g d hd => ?_, hb, ha, htypeB, htypeA, hidB, hidA⟩
  have hlt := hknown.numbered g d hd
  rw [hfresh] at hlt
  obtain rfl | rfl : g = 0 ∨ g = 1 := Nat.le_one_iff_eq_zero_or_eq_one.mp (Nat.le_of_lt_succ hlt)
  · exact Or.inl ⟨rfl, Option.some.inj (hd.symm.trans hb)⟩
  · exact Or.inr ⟨rfl, Option.some.inj (hd.symm.trans ha)⟩

namespace IsHeir

variable {w : World} {a b : Archetype}

theorem widths (h : IsHeir w a b) : ∀ g d, w.store.archetype g = some d →
    d.types.length < 2 ^ 16 := by
  intro g d hd
  rcases h.only g d hd with ⟨-, rfl⟩ | ⟨-, rfl⟩
  · rw [Archetype.types, h.typeB]
    decide
  · rw [Archetype.types, h.typeA]
    decide

theorem metasLive (h : IsHeir w a b) : w.store.MetasLive w.ents := by
  intro g d hd m hm
  rcases h.only g d hd with ⟨-, rfl⟩ | ⟨-, rfl⟩
  · rw [Archetype.metatypes, h.typeB] at hm
    exact absurd hm List.not_mem_nil
  · rw [Archetype.metatypes, h.typeA, List.mem_singleton] at hm
    rw [hm, Store.getArchetypeOf_eq_some.mpr ⟨0, h.idB, h.meta_⟩]
    exact Option.some_ne_none b

theorem metaOf_iff (h : IsHeir w a b) {k g : ArchetypeId} :
    w.store.MetaOf w.ents k g ↔ k = 0 ∧ g = 1 := by
  constructor
  · rintro ⟨d, d', m, hd, hm, hid, hd'⟩
    rcases h.only g d hd with ⟨-, rfl⟩ | ⟨rfl, rfl⟩
    · rw [Archetype.metatypes, h.typeB] at hm
      exact absurd hm List.not_mem_nil
    · rw [Archetype.metatypes, h.typeA, List.mem_singleton] at hm
      rw [hm, h.idB, Option.some.injEq] at hid
      exact ⟨hid.symm, rfl⟩
  · rintro ⟨rfl, rfl⟩
    refine ⟨a, b, ⟨0⟩, h.own, ?_, h.idB, h.meta_⟩
    rw [Archetype.metatypes, h.typeA]
    exact List.mem_singleton_self _

theorem acyclic (h : IsHeir w a b) : w.store.Acyclic w.ents := by
  intro g hcycle
  obtain ⟨k, hgk, hkg⟩ := Relation.TransGen.head'_iff.mp hcycle
  obtain ⟨rfl, rfl⟩ := h.metaOf_iff.mp hgk
  rcases Relation.ReflTransGen.cases_head hkg with hne | ⟨k', hk', -⟩
  · exact absurd hne one_ne_zero
  · exact absurd (h.metaOf_iff.mp hk').1 one_ne_zero

theorem browsable (h : IsHeir w a b) : w.Browsable narrowWide :=
  browsable_of_reachable built_narrowWide (by decide) h.reach h.acyclic
    fun g d hd m hm _ => h.metasLive g d hd m hm

theorem finds (h : IsHeir w a b) : w.store.Finds w.ents (fun d => 5 ∈ d.types) 1 := by
  have htypes : b.types = [5] := congrArg EntityType.types h.typeB
  have hmem : 5 ∈ b.types := htypes ▸ List.mem_singleton_self 5
  exact ⟨0, b, .single (h.metaOf_iff.mpr ⟨rfl, rfl⟩), h.meta_, hmem⟩

theorem types_own (h : IsHeir w a b) : a.types = [4] := congrArg EntityType.types h.typeA

end IsHeir

/-- The component that the entity owns. -/
theorem coherent_own : ∃ w a b, IsHeir w a b ∧ w.Coherent ⟨256⟩ a 4 := by
  obtain ⟨w, a, b, h⟩ := isHeir
  refine ⟨w, a, b, h, ?_⟩
  exact (coherent_iff built_narrowWide (by decide) h.reach h.widths h.acyclic
    (fun g d hd m hm _ => h.metasLive g d hd m hm) h.idA h.own (by decide)).mpr
    (Or.inl (by simp [h.types_own]))

/-- The component that the metatype of the entity owns. -/
theorem not_coherent_inherited : ∃ w a b, IsHeir w a b ∧ ¬ w.Coherent ⟨256⟩ a 5 := by
  obtain ⟨w, a, b, h⟩ := isHeir
  refine ⟨w, a, b, h, ?_⟩
  have hwidth := h.widths 1 a h.own
  exact not_coherent h.browsable h.idA h.own hwidth (by simp [h.types_own]) h.finds

end World

end Dots

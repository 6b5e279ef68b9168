import Dots.Database.Groups
import Dots.Database.Keys
import Dots.Database.Renewed

/-!
# `world::gc_meta`

Metatypes that no longer exist are taken out of the archetypes. An archetype leaves the map while
its type is edited, and the loop is over that map.
-/

namespace Dots

open Library

/-! ## Sorted metatypes -/

/-- What merging with the extension and leaving out metatypes keep, `get_casted` keeps. -/
theorem castedType_metatypes {ctx : Context} {P : List Entity → Prop} {a : Archetype}
    {diff : TypeDiff} {inst : Bool} (ha : P a.metatypes)
    (hmerge : ∀ ms, P ms → P (Set.merge ms diff.extend.metatypes))
    (hsub : ∀ ms us, P ms → us.Sublist ms → P us) :
    P (World.castedType ctx a diff inst).metatypes := by
  have h₀ : (if inst && a.withTracked then
      ({ a.type with types := a.type.types.map fun t =>
          if (ctx.track t).manualCopying then t + 1 else t } : EntityType) else a.type).metatypes =
        a.metatypes := by
    split_ifs <;> rfl
  simp only [World.castedType]
  generalize (if inst && a.withTracked then
      ({ a.type with types := a.type.types.map fun t =>
          if (ctx.track t).manualCopying then t + 1 else t } : EntityType) else a.type) = key at h₀ ⊢
  have h₁ : P (if diff.extend ≠ EntityType.empty then key.merge diff.extend
      else key).metatypes := by
    split_ifs
    · exact hmerge _ (h₀ ▸ ha)
    · exact h₀ ▸ ha
  revert h₁
  generalize (if diff.extend ≠ EntityType.empty then key.merge diff.extend else key) = key₁
  intro h₁
  have h₂ : P (if a.copying && decide (diff.extend ≠ EntityType.empty) then
      ({ key₁ with types := World.zipCopying ctx key₁.types } : EntityType)
        else key₁).metatypes := by
    split_ifs
    · exact h₁
    · exact h₁
  revert h₂
  generalize (if a.copying && decide (diff.extend ≠ EntityType.empty) then
      ({ key₁ with types := World.zipCopying ctx key₁.types } : EntityType) else key₁) = key₂
  intro h₂
  split_ifs
  · exact hsub _ _ h₂ (Set.substract_sublist _ _)
  · exact hsub _ _ h₂ (Set.substract_sublist _ _)
  · exact h₂

/-- Metatypes that are a set. -/
def SortedMetas (key : EntityType) : Prop := Set.Sorted key.metatypes

theorem keyClosed_metas (ctx : Context) : KeyClosed ctx SortedMetas where
  empty := List.Pairwise.nil
  casted ha hext := castedType_metatypes (P := Set.Sorted) ha
    (fun _ h => Set.sorted_merge h hext) fun _ _ h hs => h.sublist hs
  cleaning ha := ha

/-! ## The loop -/

/-- The inner loop at position `i` of the array: the last element takes the place of one that
does not exist, and the loop goes on behind it. -/
def sweepFrom (exist : Entity → Bool) : Nat → List Entity → Nat → List Entity
  | 0, mt, _ => mt
  | fuel + 1, mt, i =>
      match mt[i]? with
      | none => mt
      | some m =>
          if exist m then sweepFrom exist fuel mt (i + 1)
          else
            let mt := if i + 1 ≠ mt.length then mt.set i (mt.getLastD m) else mt
            sweepFrom exist fuel mt.dropLast (i + 1)

/-- The last element takes the place of the one at `i`. -/
theorem perm_swapLast {mt : List Entity} {i : Nat} (hi : i < mt.length) (m : Entity) :
    (if i + 1 ≠ mt.length then mt.set i (mt.getLastD m) else mt).dropLast.Perm (mt.eraseIdx i) := by
  obtain ⟨init, last, rfl⟩ := List.eq_nil_or_concat' mt |>.resolve_left fun h => by simp [h] at hi
  rw [List.length_append, List.length_singleton] at hi ⊢
  by_cases hlast : i + 1 = init.length + 1
  · obtain rfl : i = init.length := by omega
    rw [if_neg (not_not_intro rfl), List.dropLast_concat, List.eraseIdx_append_of_length_le le_rfl]
    simp
  · have hin : i < init.length := by omega
    rw [if_pos hlast, List.set_append_left _ _ hin, List.dropLast_concat,
      List.eraseIdx_append_of_lt_length hin]
    have hget : (init ++ [last]).getLastD m = last := by simp
    rw [hget]
    exact (List.set_perm_cons_eraseIdx hin last).trans (List.perm_append_singleton ..).symm

/-- No metatype that exists is lost. One that does not can stay, in the place of another. -/
theorem filter_sweepFrom (exist : Entity → Bool) (fuel : Nat) (mt : List Entity) (i : Nat) :
    ((sweepFrom exist fuel mt i).filter exist).Perm (mt.filter exist) := by
  induction fuel generalizing mt i with
  | zero => rfl
  | succ fuel ih =>
      rw [sweepFrom]
      split
      · rfl
      · rename_i m hm
        obtain ⟨hi, rfl⟩ := List.getElem?_eq_some_iff.mp hm
        by_cases hexist : exist mt[i] = true
        · rw [if_pos hexist]
          exact ih mt (i + 1)
        · rw [if_neg hexist]
          refine (ih _ (i + 1)).trans (((perm_swapLast hi _).filter exist).trans ?_)
          have hperm := (List.getElem_cons_eraseIdx_perm hi).filter exist
          rwa [List.filter_cons_of_neg hexist] at hperm

example : sweepFrom (fun _ => false) 2 [⟨1⟩, ⟨2⟩] 0 = [⟨2⟩] := rfl

namespace Store

/-- The body of the loop for an archetype with metatypes that do not exist. An `insert` with the
key of another entry does nothing. -/
def collectMetas (st : Store) (ents : Entities) (g : ArchetypeId) (a : Archetype) : Store :=
  let st := { st with
    archetypes := st.archetypes.filter fun g' =>
      decide ((st.archetype g').map Archetype.type ≠ some a.type) }
  let swept := sweepFrom ents.exist a.metatypes.length a.metatypes 0
  let a := { a with type := { a.type with metatypes := swept } }
  let st := { st with archetype := Function.update st.archetype g (some a) }
  match st.findArchetype a.type with
  | some _ => st
  | none => { st with archetypes := st.archetypes ++ [g] }

/-- One turn, and whether it has erased the entry that the loop is at. -/
def gcTurn (st : Store) (ents : Entities) (g : ArchetypeId) (a : Archetype) : Store × Bool :=
  if a.metatypes.all ents.exist then (st, false) else (st.collectMetas ents g a, true)

/-- The loop at one entry. `erase` leaves the iterator of a range-based loop dangling, and its
increment has no result. -/
def gcStep (ents : Entities) (st : Store) (g : ArchetypeId) : Option Store := do
  let a ← st.archetype g
  let (st, erased) := st.gcTurn ents g a
  if erased then none else some st

end Store

namespace World

variable {ctx : Context} {w w' : World}

/-- `world::gc_meta`. -/
def gcMeta (w : World) : Option World :=
  (w.store.archetypes.foldlM (Store.gcStep w.ents) w.store).map fun st => { w with store := st }

/-- What is left of the metatypes is what exists of them, and no archetype with chunks has left
the map. -/
structure MetasCollected (w w' : World) : Prop where
  metas : ∀ g ∈ w.store.archetypes, ∀ a, w.store.archetype g = some a →
    ∃ a', w'.store.archetype g = some a' ∧ a'.metatypes = a.metatypes.filter w.ents.exist ∧
      SortedMetas a'.type
  keyed : ∀ g ∈ w'.store.archetypes, ∃ a, w'.store.archetype g = some a ∧
    w'.store.findArchetype a.type = some g
  kept : ∀ g ∈ w.store.archetypes, w.store.firstChunk g ≠ none → g ∈ w'.store.archetypes

/-- Every metatype of an archetype in the map exists. -/
def MetasExist (w : World) : Prop :=
  ∀ g ∈ w.store.archetypes, ∀ a, w.store.archetype g = some a →
    ∀ m ∈ a.metatypes, w.ents.exist m = true

end World

namespace Store

variable {st st' : Store} {ents : Entities} {g : ArchetypeId} {a : Archetype}

/-- The body keeps the metatypes that exist. Its result is what the loop would go on with. -/
theorem metatypes_collectMetas (st : Store) (ents : Entities) (g : ArchetypeId) (a : Archetype) :
    ∃ b, (st.collectMetas ents g a).archetype g = some b ∧
      (b.metatypes.filter ents.exist).Perm (a.metatypes.filter ents.exist) := by
  refine ⟨{ a with type := { a.type with
    metatypes := sweepFrom ents.exist a.metatypes.length a.metatypes 0 } }, ?_,
    filter_sweepFrom ents.exist _ _ 0⟩
  rw [collectMetas]
  split <;> exact Function.update_self ..

theorem gcStep_of_exist (ha : st.archetype g = some a)
    (h : ∀ m ∈ a.metatypes, ents.exist m = true) : st.gcStep ents g = some st := by
  have hturn : st.gcTurn ents g a = (st, false) := if_pos (List.all_eq_true.mpr h)
  simp [gcStep, ha, hturn]

theorem gcStep_of_dead (ha : st.archetype g = some a)
    (h : ¬ ∀ m ∈ a.metatypes, ents.exist m = true) : st.gcStep ents g = none := by
  have hturn : st.gcTurn ents g a = (st.collectMetas ents g a, true) :=
    if_neg fun hall => h (List.all_eq_true.mp hall)
  simp [gcStep, ha, hturn]

/-- The loop gets past entries only while there is nothing to collect, and changes nothing. -/
theorem gcSteps_iff {gs : List ArchetypeId} (hin : ∀ g ∈ gs, ∃ a, st.archetype g = some a) :
    gs.foldlM (gcStep ents) st = some st' ↔ st' = st ∧ ∀ g ∈ gs, ∀ a, st.archetype g = some a →
      ∀ m ∈ a.metatypes, ents.exist m = true := by
  induction gs with
  | nil =>
      constructor
      · intro hs
        exact ⟨(Option.some.inj hs).symm, fun g hg => absurd hg List.not_mem_nil⟩
      · rintro ⟨rfl, -⟩
        rfl
  | cons g gs ih =>
      obtain ⟨a, ha⟩ := hin g List.mem_cons_self
      have ih := ih fun h hh => hin h (List.mem_cons_of_mem g hh)
      rw [List.foldlM_cons, Option.bind_eq_bind]
      by_cases hall : ∀ m ∈ a.metatypes, ents.exist m = true
      · rw [gcStep_of_exist ha hall, Option.bind_some, ih]
        refine and_congr_right fun _ => ⟨fun h k hk b hb => ?_, fun h k hk => ?_⟩
        · rcases List.mem_cons.mp hk with rfl | hk
          · rw [ha, Option.some.injEq] at hb
            exact hb ▸ hall
          · exact h k hk b hb
        · exact h k (List.mem_cons_of_mem g hk)
      · rw [gcStep_of_dead ha hall, Option.bind_none]
        exact iff_of_false (Option.some_ne_none st').symm fun h =>
          hall (h.2 g List.mem_cons_self a ha)

end Store

namespace World

variable {ctx : Context} {w w' : World}

theorem gcMeta_iff (hk : w.store.Known) : w.gcMeta = some w' ↔ w' = w ∧ w.MetasExist := by
  have hin : ∀ g ∈ w.store.archetypes, ∃ a, w.store.archetype g = some a :=
    fun g hg => (hk.listed g).mp hg
  rw [gcMeta, Option.map_eq_some_iff]
  constructor
  · rintro ⟨st, hs, rfl⟩
    obtain ⟨rfl, hall⟩ := (Store.gcSteps_iff hin).mp hs
    exact ⟨rfl, hall⟩
  · rintro ⟨rfl, hall⟩
    exact ⟨w'.store, (Store.gcSteps_iff hin).mpr ⟨rfl, hall⟩, rfl⟩

/-- An archetype in the map is found by its type. -/
theorem findArchetype_type (hk : w.store.Known) {g : ArchetypeId} {a : Archetype}
    (ha : w.store.archetype g = some a) : w.store.findArchetype a.type = some g := by
  have hmem := (hk.listed g).mpr ⟨a, ha⟩
  obtain ⟨h, hfind⟩ : ∃ h, w.store.findArchetype a.type = some h :=
    Option.isSome_iff_exists.mp (List.find?_isSome.mpr ⟨g, hmem, by simp [ha]⟩)
  have hkey := List.find?_some hfind
  rw [decide_eq_true_eq] at hkey
  obtain ⟨b, hb, heq⟩ := Option.map_eq_some_iff.mp hkey
  obtain rfl := hk.distinct h g b a hb ha heq
  exact hfind

theorem metasCollected_of_exist (hk : w.store.Known) (hsorted : w.store.KeysAre SortedMetas)
    (h : w.MetasExist) : MetasCollected w w := by
  refine ⟨fun g hg a ha => ⟨a, ha, ?_, hsorted g a ha⟩, fun g hg => ?_, fun g hg _ => hg⟩
  · exact (List.filter_eq_self.mpr (h g hg a ha)).symm
  · obtain ⟨a, ha⟩ := (hk.listed g).mp hg
    exact ⟨a, ha, findArchetype_type hk ha⟩

/-- `gc_meta` collects what does not exist if and only if there is nothing to collect. -/
theorem gcMeta_collects_iff (h : Reachable ctx (fun _ op => op.KeysAre SortedMetas) w) :
    (∃ w', w.gcMeta = some w' ∧ MetasCollected w w') ↔ w.MetasExist := by
  have hk : w.store.Known := h.invariant known_initial fun _ _ _ _ _ _ hs hk =>
    (renewed_run hs).known hk
  have hsorted : w.store.KeysAre SortedMetas := h.invariant
    (fun _ _ _ _ g a ha => absurd ha (Option.some_ne_none a).symm)
    fun _ _ _ _ _ hkeys hs hsorted => keys_run (keyClosed_metas ctx) hsorted hkeys hs
  constructor
  · rintro ⟨w', hs, -⟩
    exact ((gcMeta_iff hk).mp hs).2
  · intro hexist
    exact ⟨w, (gcMeta_iff hk).mpr ⟨rfl, hexist⟩, metasCollected_of_exist hk hsorted hexist⟩

/-! An entity, and another that has it as metatype. -/

def metaOfFirst : Option World :=
  runAll grouped 4 blank [.allocate { types := [4] } 1,
    .allocate { types := [4], metatypes := [⟨0⟩] } 1]

theorem reachable_metaOfFirst (hw : metaOfFirst = some w) :
    Reachable grouped (fun _ op => op.KeysAre SortedMetas) w := by
  refine (reachable_blank grouped _).runAll ?_ hw
  intro op hop v
  rcases List.mem_cons.mp hop with rfl | hop
  · exact ⟨trivial, List.Pairwise.nil⟩
  · obtain rfl := List.mem_singleton.mp hop
    exact ⟨trivial, List.pairwise_singleton _ _⟩

theorem gcMeta_metaOfFirst : ∃ w w', metaOfFirst = some w ∧ w.gcMeta = some w' ∧
    MetasCollected w w' := by
  have hfacts : metaOfFirst.map (fun w => w.store.archetypes.all fun g =>
      ((w.store.archetype g).map fun a => a.metatypes.all w.ents.exist).getD false) =
        some true := by
    decide +kernel
  obtain ⟨w, hw, hall⟩ := Option.map_eq_some_iff.mp hfacts
  have hexist : w.MetasExist := by
    intro g hg a ha m hm
    have hmetas := List.all_eq_true.mp hall g hg
    rw [ha, Option.map_some, Option.getD_some] at hmetas
    exact List.all_eq_true.mp hmetas m hm
  obtain ⟨w', hs, hcollected⟩ := (gcMeta_collects_iff (reachable_metaOfFirst hw)).mpr hexist
  exact ⟨w, w', hw, hs, hcollected⟩

/-- The first entity is destroyed, and the entry of the other archetype is erased under the
loop. -/
theorem not_gcMeta_destroyed : ∃ w, Reachable grouped (fun _ op => op.KeysAre SortedMetas) w ∧
    ¬ ∃ w', w.gcMeta = some w' ∧ MetasCollected w w' := by
  have hfacts : (metaOfFirst.bind fun w =>
      (w.destroy grouped 4 { c := 0, start := 0, count := 1 }).map fun w' =>
        ([w.store.count 0], w.store.type 0, w'.gcMeta.isSome)) = some ([1], some 0, false) := by
    decide +kernel
  obtain ⟨w, hw, hfacts⟩ := Option.bind_eq_some_iff.mp hfacts
  obtain ⟨w', hs, hfacts⟩ := Option.map_eq_some_iff.mp hfacts
  simp only [Prod.mk.injEq, List.cons.injEq, and_true] at hfacts
  obtain ⟨hcount, htype, hnone⟩ := hfacts
  have hv : Op.Valid w (.destroy { c := 0, start := 0, count := 1 }) :=
    ⟨by simp [htype], Nat.one_pos, by simp [hcount]⟩
  have hrun : Op.run grouped 4 w (.destroy { c := 0, start := 0, count := 1 }) = some w' := hs
  refine ⟨w', (reachable_metaOfFirst hw).step _ hv trivial hrun, ?_⟩
  rintro ⟨v, hv, -⟩
  rw [hv] at hnone
  exact absurd hnone Bool.noConfusion

end World

end Dots

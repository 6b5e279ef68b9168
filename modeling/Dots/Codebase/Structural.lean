import Dots.Codebase.Pipeline
import Dots.Database.Keys
import Dots.Database.Renewed

/-!
# Structural changes through a pipeline

Before it changes its world, a pipeline waits for the passes registered in the entries
of the archetypes it expects to change. `dependencyEntries` follows the archetypes of the
world, so a lookup is defined for these alone.
-/

namespace Dots

open Library

namespace World

variable {ctx : Context} {w w' : World} {g : ArchetypeId} {a : Archetype} {fuel n : Nat}
  {s : ChunkSlice} {ss : List ChunkSlice}

/-- `world::instantiate_group`, for the group at address `addr` of chunk `c`. -/
def instantiateGroup (ctx : Context) (fuel : Nat) (w : World) (c : ChunkId) (addr count : Nat) :
    Option (World × List ChunkSlice) := do
  let members ← w.flattenGroup ctx fuel c addr
  let w ← w.groupToPrefab ctx members true
  let (w, ss) ← w.instantiatePrefab ctx fuel members count
  let w ← w.prefabToGroup ctx members
  some (w, ss)

theorem Grows.instantiateGroup {J : Store → Prop} (hJ : Grows ctx J) {c : ChunkId} {addr : Nat}
    (h : J w.store) (hs : w.instantiateGroup ctx fuel c addr n = some (w', ss)) : J w'.store := by
  simp only [World.instantiateGroup, Option.bind_eq_some_iff, World.instantiatePrefab,
    Option.bind_eq_bind] at hs
  obtain ⟨members, -, w₁, hto, ⟨w₂, ss'⟩, ⟨⟨w₃, table⟩, hmembers, w₄, hpatch, heq⟩, w₅, hback,
    hs⟩ := hs
  obtain ⟨rfl, -⟩ := Prod.mk.inj (Option.some.inj hs)
  obtain ⟨rfl, -⟩ := Prod.mk.inj (Option.some.inj heq)
  have h₃ := hJ.instantiateMembers ((groupToPrefab_store hto).symm ▸ h) hmembers
  have hpatched : w₄.store = w₃.store :=
    foldlM_invariant (P := fun v => v.store = w₃.store)
      (fun _ _ _ _ hp hv => (patchSlices_store hp).trans hv) hpatch rfl
  rw [prefabToGroup_store hback, hpatched]
  exact h₃

end World

/-! ## The pipeline -/

/-- The archetypes handed to `sync_archetype`, and the passes waited for. -/
structure SyncLog where
  archetypes : List ArchetypeId := []
  waited : List PassId := []

def SyncLog.append (l l' : SyncLog) : SyncLog where
  archetypes := l.archetypes ++ l'.archetypes
  waited := l.waited ++ l'.waited

namespace Pipeline

/-- The world changed; `update_archetype` was called for each archetype made or freed. -/
def withWorld (p : Pipeline) (w : World) : Pipeline :=
  let old := p.world.store.freshArchetype
  { p with
    world := w
    keys := (p.keys ++ List.range' old (w.store.freshArchetype - old)).filter fun g =>
      (w.store.archetype g).isSome
    entries := fun x =>
      match x with
      | .column g _ | .entities g => if g < old then p.entries x else {}
      | .resource _ => p.entries x }

/-- The passes of one entry that `sync_archetype` waits for. -/
def entryDependencies (live : PassId → Bool) (entry : DependencyEntry) : List PassId :=
  if entry.shared = [] then entry.owned.toList.filter live else entry.shared

/-- The entries of an archetype. -/
def archetypeEntries (g : ArchetypeId) (a : Archetype) : List EntryId :=
  (List.range a.firstTag).map (.column g) ++ [.entities g]

/-- `pipeline::sync_archetype`. The result of `find` is used without a test, also for the
null archetype. -/
def syncArchetype (p : Pipeline) (at_ : Option ArchetypeId) : Option (Pipeline × SyncLog) := do
  let g ← at_
  if g ∉ p.keys then none
  else do
    let a ← p.world.store.archetype g
    let ids := archetypeEntries g a
    some ({ p with entries := fun x => if x ∈ ids then {} else p.entries x },
      { archetypes := [g], waited := ids.flatMap fun x => entryDependencies p.live (p.entries x) })

/-- `pipeline::allocate(archetype*, uint32_t)`. -/
def allocateIn (ctx : Context) (fuel : Nat) (p : Pipeline) (g : ArchetypeId) (count : Nat) :
    Option (Pipeline × List ChunkSlice × SyncLog) := do
  let (p, log) ← p.syncArchetype (some g)
  let (w, ss) ← p.world.allocateLoop ctx g fuel count
  some (p.withWorld w, ss, log)

/-- `pipeline::allocate(const entity_type&, uint32_t)`. -/
def allocate (ctx : Context) (fuel : Nat) (p : Pipeline) (type : EntityType) (count : Nat) :
    Option (Pipeline × List ChunkSlice × SyncLog) := do
  let (w, g) ← p.world.getArchetype ctx type
  (p.withWorld w).allocateIn ctx fuel g count

/-- `pipeline::destroy(chunk_slice)`. -/
def destroy (ctx : Context) (fuel : Nat) (p : Pipeline) (s : ChunkSlice) :
    Option (Pipeline × SyncLog) := do
  let (p, log) ← p.syncArchetype (p.world.store.type s.c)
  let w ← p.world.destroy ctx fuel s
  some (p.withWorld w, log)

/-- `pipeline::cast(chunk_slice, archetype*)`. -/
def castTo (ctx : Context) (fuel : Nat) (p : Pipeline) (s : ChunkSlice) (g : Option ArchetypeId) :
    Option (Pipeline × List ChunkSlice × SyncLog) := do
  let (p, log) ← p.syncArchetype (p.world.store.type s.c)
  let (p, log') ← p.syncArchetype g
  let (w, ss) ← p.world.castTo ctx fuel s g
  some (p.withWorld w, ss, log.append log')

/-- `pipeline::cast(chunk_slice, type_diff)`. -/
def cast (ctx : Context) (fuel : Nat) (p : Pipeline) (s : ChunkSlice) (diff : TypeDiff) :
    Option (Pipeline × List ChunkSlice × SyncLog) := do
  let (_, a) ← p.world.archetypeOf s.c
  let (w, g) ← p.world.getCasted ctx a diff false
  (p.withWorld w).castTo ctx fuel s g

/-- `sync_archetype(get_archetype(e))` and
`sync_archetype(get_casted(get_archetype(e), {}, true))`. -/
def syncInstance (ctx : Context) (p : Pipeline) (e : Entity) : Option (Pipeline × SyncLog) := do
  let g ← p.world.store.archetypeIdOf p.world.ents e
  let (p, log) ← p.syncArchetype (some g)
  let a ← p.world.store.archetype g
  let (w, target) ← p.world.getCasted ctx a {} true
  let (p, log') ← (p.withWorld w).syncArchetype target
  some (p, log.append log')

def syncInstances (ctx : Context) : List Entity → Pipeline → Option (Pipeline × SyncLog)
  | [], p => some (p, {})
  | e :: es, p => do
      let (p, log) ← p.syncInstance ctx e
      let (p, log') ← syncInstances ctx es p
      some (p, log.append log')

/-- `pipeline::instantiate`. -/
def instantiate (ctx : Context) (fuel : Nat) (p : Pipeline) (src : Entity) (count : Nat) :
    Option (Pipeline × List ChunkSlice × SyncLog) := do
  match ← p.world.getComponentRo src ctx.groupId with
  | none =>
      let (p, log) ← p.syncInstance ctx src
      let (w, ss) ← p.world.instantiateSingle ctx fuel src count
      some (p.withWorld w, ss, log)
  | some (c, addr) =>
      let group ← (List.range (p.world.groupSize c addr)).mapM (p.world.groupMember c addr)
      let (p, log) ← syncInstances ctx group p
      let (w, ss) ← p.world.instantiateGroup ctx fuel c addr count
      some (p.withWorld w, ss, log)

/-- The calls of a pipeline that change its world. -/
inductive Call
  | allocate (type : EntityType) (count : Nat)
  | allocateIn (g : ArchetypeId) (count : Nat)
  | instantiate (src : Entity) (count : Nat)
  | destroy (s : ChunkSlice)
  | cast (s : ChunkSlice) (diff : TypeDiff)
  | castTo (s : ChunkSlice) (g : Option ArchetypeId)
  deriving DecidableEq

/-- The result of a call, and what it waited for. -/
def Call.run (ctx : Context) (fuel : Nat) (p : Pipeline) : Call → Option (Pipeline × SyncLog)
  | .allocate type count => (p.allocate ctx fuel type count).map fun r => (r.1, r.2.2)
  | .allocateIn g count => (p.allocateIn ctx fuel g count).map fun r => (r.1, r.2.2)
  | .instantiate src count => (p.instantiate ctx fuel src count).map fun r => (r.1, r.2.2)
  | .destroy s => p.destroy ctx fuel s
  | .cast s diff => (p.cast ctx fuel s diff).map fun r => (r.1, r.2.2)
  | .castTo s g => (p.castTo ctx fuel s g).map fun r => (r.1, r.2.2)

/-! ## The entries follow the archetypes -/

variable {ctx : Context} {p p' : Pipeline} {log : SyncLog} {g : ArchetypeId} {a : Archetype}
  {s : ChunkSlice} {ss : List ChunkSlice} {fuel n : Nat} {w : World}

/-- `dependencyEntries` has an array for each living archetype and for no other. -/
structure Hooked (p : Pipeline) : Prop where
  keys : ∀ g, g ∈ p.keys ↔ ∃ a, p.world.store.archetype g = some a
  known : p.world.store.Known

theorem Hooked.withWorld (h : p.Hooked) (hr : Store.Renewed p.world.store w.store) :
    (p.withWorld w).Hooked where
  keys g := by
    have hmem : g ∈ (p.withWorld w).keys ↔
        (g ∈ p.keys ∨ p.world.store.freshArchetype ≤ g ∧ g < w.store.freshArchetype) ∧
          ∃ a, w.store.archetype g = some a := by
      simp only [Pipeline.withWorld, List.mem_filter, List.mem_append, List.mem_range'_1,
        Nat.add_sub_cancel' hr.fresh, Option.isSome_iff_exists]
    rw [hmem]
    change _ ∧ _ ↔ ∃ a, w.store.archetype g = some a
    rw [and_iff_right_iff_imp]
    rintro ⟨a, ha⟩
    by_cases hg : g < p.world.store.freshArchetype
    · exact Or.inl ((h.keys g).mpr ⟨a, hr.older g hg a ha⟩)
    · exact Or.inr ⟨Nat.le_of_not_lt hg, (hr.known h.known).numbered g a ha⟩
  known := hr.known h.known

/-- `sync_archetype` finds the entries of the archetype and empties them. -/
theorem syncArchetype_spec {target : Option ArchetypeId}
    (hs : p.syncArchetype target = some (p', log)) :
    ∃ g a entries, target = some g ∧ g ∈ p.keys ∧ p.world.store.archetype g = some a ∧
      p' = { p with entries := entries } ∧
      (∀ x, entries x = {} ∨ entries x = p.entries x) ∧
      log = { archetypes := [g], waited := (archetypeEntries g a).flatMap fun x =>
        entryDependencies p.live (p.entries x) } := by
  simp only [Pipeline.syncArchetype, Option.bind_eq_bind, Option.bind_eq_some_iff] at hs
  obtain ⟨g, rfl, hs⟩ := hs
  split_ifs at hs with hkey
  simp only [Option.bind_eq_some_iff] at hs
  obtain ⟨a, ha, hs⟩ := hs
  obtain ⟨rfl, rfl⟩ := Prod.mk.inj (Option.some.inj hs)
  refine ⟨g, a, _, rfl, hkey, ha, rfl, fun x => ?_, rfl⟩
  split_ifs
  · exact Or.inl rfl
  · exact Or.inr rfl

/-- For a living archetype it returns. -/
theorem Hooked.syncArchetype_returns (h : p.Hooked) (ha : p.world.store.archetype g = some a) :
    ∃ p' log, p.syncArchetype (some g) = some (p', log) := by
  have hkey : ¬ g ∉ p.keys := not_not.mpr ((h.keys g).mpr ⟨a, ha⟩)
  simp only [Pipeline.syncArchetype, Option.bind_eq_bind, Option.bind_some, if_neg hkey, ha]
  exact ⟨_, _, rfl⟩

theorem syncArchetype_world {target : Option ArchetypeId}
    (hs : p.syncArchetype target = some (p', log)) : p'.world = p.world ∧ p'.keys = p.keys := by
  obtain ⟨g, a, entries, -, -, -, rfl, -, -⟩ := syncArchetype_spec hs
  exact ⟨rfl, rfl⟩

theorem Hooked.of_eq (h : p.Hooked) (hw : p'.world = p.world) (hk : p'.keys = p.keys) :
    p'.Hooked where
  keys := by rw [hk, hw]; exact h.keys
  known := by rw [hw]; exact h.known

theorem Hooked.syncArchetype {target : Option ArchetypeId} (h : p.Hooked)
    (hs : p.syncArchetype target = some (p', log)) : p'.Hooked :=
  h.of_eq (syncArchetype_world hs).1 (syncArchetype_world hs).2

theorem Hooked.allocateIn (h : p.Hooked) (hs : p.allocateIn ctx fuel g n = some (p', ss, log)) :
    p'.Hooked := by
  simp only [Pipeline.allocateIn, Option.bind_eq_bind, Option.bind_eq_some_iff] at hs
  obtain ⟨⟨p₁, log₁⟩, hsync, ⟨w, ss'⟩, hloop, hs⟩ := hs
  obtain ⟨rfl, -⟩ := Prod.mk.inj (Option.some.inj hs)
  exact (h.syncArchetype hsync).withWorld (World.renewed_allocateLoop hloop)

theorem Hooked.allocate {type : EntityType} (h : p.Hooked)
    (hs : p.allocate ctx fuel type n = some (p', ss, log)) : p'.Hooked := by
  simp only [Pipeline.allocate, Option.bind_eq_bind, Option.bind_eq_some_iff] at hs
  obtain ⟨⟨w, g⟩, hgot, hs⟩ := hs
  obtain ⟨st, hget, rfl⟩ := World.getArchetype_eq_some hgot
  have h₁ : (p.withWorld { p.world with store := st }).Hooked :=
    h.withWorld (Store.renewed_getArchetype hget)
  exact h₁.allocateIn hs

theorem Hooked.destroy (h : p.Hooked) (hs : p.destroy ctx fuel s = some (p', log)) :
    p'.Hooked := by
  simp only [Pipeline.destroy, Option.bind_eq_bind, Option.bind_eq_some_iff] at hs
  obtain ⟨⟨p₁, log₁⟩, hsync, w, hdestroy, hs⟩ := hs
  obtain ⟨rfl, -⟩ := Prod.mk.inj (Option.some.inj hs)
  exact (h.syncArchetype hsync).withWorld (World.renewed_destroy hdestroy)

theorem Hooked.castTo {target : Option ArchetypeId} (h : p.Hooked)
    (hs : p.castTo ctx fuel s target = some (p', ss, log)) : p'.Hooked := by
  simp only [Pipeline.castTo, Option.bind_eq_bind, Option.bind_eq_some_iff] at hs
  obtain ⟨⟨p₁, log₁⟩, hsync₁, ⟨p₂, log₂⟩, hsync₂, ⟨w, ss'⟩, hcast, hs⟩ := hs
  obtain ⟨rfl, -⟩ := Prod.mk.inj (Option.some.inj hs)
  exact ((h.syncArchetype hsync₁).syncArchetype hsync₂).withWorld (World.renewed_castTo hcast)

theorem Hooked.cast {diff : TypeDiff} (h : p.Hooked)
    (hs : p.cast ctx fuel s diff = some (p', ss, log)) : p'.Hooked := by
  simp only [Pipeline.cast, Option.bind_eq_bind, Option.bind_eq_some_iff] at hs
  obtain ⟨⟨g, a⟩, -, ⟨w, target⟩, hcasted, hs⟩ := hs
  exact (h.withWorld (World.renewed_getCasted hcasted)).castTo hs

theorem Hooked.syncInstance {e : Entity} (h : p.Hooked)
    (hs : p.syncInstance ctx e = some (p', log)) : p'.Hooked := by
  simp only [Pipeline.syncInstance, Option.bind_eq_bind, Option.bind_eq_some_iff] at hs
  obtain ⟨g, -, ⟨p₁, log₁⟩, hsync₁, a, -, ⟨w, target⟩, hcasted, ⟨p₂, log₂⟩, hsync₂, hs⟩ := hs
  obtain ⟨rfl, -⟩ := Prod.mk.inj (Option.some.inj hs)
  exact ((h.syncArchetype hsync₁).withWorld (World.renewed_getCasted hcasted)).syncArchetype hsync₂

theorem Hooked.syncInstances {es : List Entity} (h : p.Hooked)
    (hs : syncInstances ctx es p = some (p', log)) : p'.Hooked := by
  induction es generalizing p log with
  | nil =>
      obtain ⟨rfl, -⟩ := Prod.mk.inj (Option.some.inj hs)
      exact h
  | cons e es ih =>
      simp only [Pipeline.syncInstances, Option.bind_eq_bind, Option.bind_eq_some_iff] at hs
      obtain ⟨⟨p₁, log₁⟩, hsync, ⟨p₂, log₂⟩, hrest, hs⟩ := hs
      obtain ⟨rfl, -⟩ := Prod.mk.inj (Option.some.inj hs)
      exact ih (h.syncInstance hsync) hrest

theorem Hooked.instantiate {src : Entity} (h : p.Hooked)
    (hs : p.instantiate ctx fuel src n = some (p', ss, log)) : p'.Hooked := by
  simp only [Pipeline.instantiate, Option.bind_eq_bind, Option.bind_eq_some_iff] at hs
  obtain ⟨group, hgroup, hs⟩ := hs
  cases group with
  | none =>
      simp only [Option.bind_eq_some_iff] at hs
      obtain ⟨⟨p₁, log₁⟩, hsync, ⟨w, ss'⟩, hrun, hs⟩ := hs
      obtain ⟨rfl, -⟩ := Prod.mk.inj (Option.some.inj hs)
      exact (h.syncInstance hsync).withWorld
        ((Store.grows_renewed ctx _).instantiateSingle (Store.Renewed.refl _) hrun)
  | some place =>
      obtain ⟨c, addr⟩ := place
      simp only [Option.bind_eq_some_iff] at hs
      obtain ⟨es, -, ⟨p₁, log₁⟩, hsync, ⟨w, ss'⟩, hrun, hs⟩ := hs
      obtain ⟨rfl, -⟩ := Prod.mk.inj (Option.some.inj hs)
      exact (h.syncInstances hsync).withWorld
        ((Store.grows_renewed ctx _).instantiateGroup (Store.Renewed.refl _) hrun)

/-- The entries follow the archetypes through every call. -/
theorem Hooked.run {c : Call} (h : p.Hooked) (hs : c.run ctx fuel p = some (p', log)) :
    p'.Hooked := by
  cases c with
  | allocate type count =>
      obtain ⟨⟨_, ss, _⟩, hrun, heq⟩ := Option.map_eq_some_iff.mp hs
      obtain ⟨rfl, rfl⟩ := Prod.mk.inj heq
      exact h.allocate hrun
  | allocateIn g count =>
      obtain ⟨⟨_, ss, _⟩, hrun, heq⟩ := Option.map_eq_some_iff.mp hs
      obtain ⟨rfl, rfl⟩ := Prod.mk.inj heq
      exact h.allocateIn hrun
  | instantiate src count =>
      obtain ⟨⟨_, ss, _⟩, hrun, heq⟩ := Option.map_eq_some_iff.mp hs
      obtain ⟨rfl, rfl⟩ := Prod.mk.inj heq
      exact h.instantiate hrun
  | destroy s => exact h.destroy hs
  | cast s diff =>
      obtain ⟨⟨_, ss, _⟩, hrun, heq⟩ := Option.map_eq_some_iff.mp hs
      obtain ⟨rfl, rfl⟩ := Prod.mk.inj heq
      exact h.cast hrun
  | castTo s g =>
      obtain ⟨⟨_, ss, _⟩, hrun, heq⟩ := Option.map_eq_some_iff.mp hs
      obtain ⟨rfl, rfl⟩ := Prod.mk.inj heq
      exact h.castTo hrun

theorem Hooked.create {request : Request} (h : p.Hooked) (hs : p.create request = some p') :
    p'.Hooked := by
  simp only [Pipeline.create, Option.bind_eq_bind, Option.bind_eq_some_iff] at hs
  obtain ⟨ledger, -, hs⟩ := hs
  exact h.of_eq (Option.some.inj hs ▸ rfl) (Option.some.inj hs ▸ rfl)

/-- The pipelines that passes and calls make of the pipeline of some world. -/
inductive Reached (ctx : Context) : Pipeline → Prop
  | initial (w : World) (keys : List ArchetypeId)
      (hkeys : ∀ g, g ∈ keys ↔ ∃ a, w.store.archetype g = some a) (hknown : w.store.Known) :
      Reached ctx (Pipeline.initial w keys)
  | step {p p' : Pipeline} (h : Reached ctx p) (hs : Step p p') : Reached ctx p'
  | call {p p' : Pipeline} (h : Reached ctx p) (c : Call) (fuel : Nat) (log : SyncLog)
      (hs : c.run ctx fuel p = some (p', log)) : Reached ctx p'

/-- The pipeline of a world; `get_archetypes` goes through them in some order. -/
def onWorld (w : World) : Pipeline :=
  initial w ((List.range w.store.freshArchetype).filter fun g => (w.store.archetype g).isSome)

theorem reached_onWorld (h : w.store.Known) : Reached ctx (onWorld w) := by
  refine .initial w _ (fun g => ?_) h
  rw [List.mem_filter, List.mem_range, Option.isSome_iff_exists, and_iff_right_iff_imp]
  rintro ⟨a, ha⟩
  exact h.numbered g a ha

theorem hooked_of_reached (h : Reached ctx p) : p.Hooked := by
  induction h with
  | initial w keys hkeys hknown => exact ⟨hkeys, hknown⟩
  | step h hs ih =>
      cases hs with
      | create request hcreate => exact ih.create hcreate
      | expire k => exact ih.of_eq rfl rfl
  | call h c fuel log hs ih => exact ih.run hs

/-! ## A cast through the pipeline -/

/-- No pass is pending: those the entries still point to have expired. -/
def Idle (p : Pipeline) : Prop :=
  ∀ x k, (p.entries x).owned = some k ∨ k ∈ (p.entries x).shared → p.live k = false

/-- Nothing that was waited for is alive. -/
def Expired (p : Pipeline) (log : SyncLog) : Prop := ∀ k ∈ log.waited, p.live k = false

theorem Idle.of_entries (h : p.Idle) (hl : p'.live = p.live)
    (he : ∀ x, p'.entries x = {} ∨ p'.entries x = p.entries x) : p'.Idle := by
  intro x k hk
  rw [hl]
  rcases he x with hx | hx
  · rw [hx] at hk
    simp at hk
  · exact h x k (hx ▸ hk)

theorem Idle.withWorld (h : p.Idle) (w : World) : (p.withWorld w).Idle := by
  refine h.of_entries rfl fun x => ?_
  cases x with
  | resource r => exact Or.inr rfl
  | column g i =>
      by_cases hg : g < p.world.store.freshArchetype
      · exact Or.inr (if_pos hg)
      · exact Or.inl (if_neg hg)
  | entities g =>
      by_cases hg : g < p.world.store.freshArchetype
      · exact Or.inr (if_pos hg)
      · exact Or.inl (if_neg hg)

theorem Idle.syncArchetype {target : Option ArchetypeId} (h : p.Idle)
    (hs : p.syncArchetype target = some (p', log)) :
    p'.Idle ∧ p'.live = p.live ∧ p.Expired log := by
  obtain ⟨g, a, entries, -, -, -, rfl, hentries, rfl⟩ := syncArchetype_spec hs
  refine ⟨h.of_entries rfl hentries, rfl, ?_⟩
  intro k hk
  obtain ⟨x, -, hk⟩ := List.mem_flatMap.mp hk
  simp only [entryDependencies] at hk
  split_ifs at hk
  · exact h x k (Or.inl (Option.mem_toList.mp (List.mem_filter.mp hk).1))
  · exact h x k (Or.inr hk)

/-- `pipeline::cast(s, diff)` returns, has nothing to wait for, and leaves the world as
`world::cast(s, diff)` leaves it. -/
def CastsAlike (ctx : Context) (p : Pipeline) (s : ChunkSlice) (diff : TypeDiff) : Prop :=
  ∃ fuel p' ss log, p.cast ctx fuel s diff = some (p', ss, log) ∧ p.Expired log ∧
    p.world.cast ctx fuel s diff = some (p'.world, ss)

theorem idle_initial (w : World) (keys : List ArchetypeId) : (initial w keys).Idle := by
  intro x k hk
  simp [initial] at hk

/-- A cast that frees the slice looks the null archetype up. -/
theorem cast_null {diff : TypeDiff} (harch : p.world.archetypeOf s.c = some (g, a))
    (hfrees : World.castFrees ctx a diff = true) (fuel : Nat) : p.cast ctx fuel s diff = none := by
  rw [Option.eq_none_iff_forall_ne_some]
  rintro ⟨p', ss, log⟩ hcast
  simp only [Pipeline.cast, harch, Option.bind_eq_bind, Option.bind_some,
    Option.bind_eq_some_iff] at hcast
  obtain ⟨⟨w, target⟩, hcasted, hcast⟩ := hcast
  rcases World.getCasted_cases hcasted with ⟨rfl, -, -⟩ | ⟨g', -, -, hnot⟩
  · simp only [Pipeline.castTo, Option.bind_eq_bind, Option.bind_eq_some_iff] at hcast
    obtain ⟨_, -, _, hnull, -⟩ := hcast
    obtain ⟨g', a', entries, hnone, -⟩ := syncArchetype_spec hnull
    simp at hnone
  · rw [hfrees] at hnot
    exact Bool.noConfusion (hnot rfl)

/-- Any other cast finds the entries of its source and of its target. -/
theorem Hooked.cast_returns {diff : TypeDiff} {w' : World} (h : p.Hooked) (hidle : p.Idle)
    (harch : p.world.archetypeOf s.c = some (g, a))
    (hfrees : World.castFrees ctx a diff = false)
    (hworld : p.world.cast ctx fuel s diff = some (w', ss)) :
    ∃ p' log, p.cast ctx fuel s diff = some (p', ss, log) ∧ p'.world = w' ∧ p.Expired log := by
  simp only [World.cast, harch, Option.bind_eq_bind, Option.bind_some,
    Option.bind_eq_some_iff] at hworld
  obtain ⟨⟨w, target⟩, hcasted, hrun⟩ := hworld
  have h₁ := h.withWorld (World.renewed_getCasted hcasted)
  rcases World.getCasted_cases hcasted with ⟨-, -, hnone⟩ | ⟨g', rfl, hgot, -⟩
  · rw [hfrees] at hnone
    exact absurd (hnone rfl) Bool.false_ne_true
  · obtain ⟨srcG, srcA, b, hc₁, hsrcA, hb, -⟩ := World.castTo_cases hrun
    obtain ⟨p₁, log₁, hsync₁⟩ := h₁.syncArchetype_returns hsrcA
    obtain ⟨hw₁, -⟩ := syncArchetype_world hsync₁
    have hb₁ : p₁.world.store.archetype g' = some b := by
      rw [hw₁]
      exact hb
    obtain ⟨p₂, log₂, hsync₂⟩ := (h₁.syncArchetype hsync₁).syncArchetype_returns hb₁
    obtain ⟨hw₂, -⟩ := syncArchetype_world hsync₂
    obtain ⟨hidle₁, hlive, hexp₁⟩ := (hidle.withWorld w).syncArchetype hsync₁
    obtain ⟨-, -, hexp₂⟩ := hidle₁.syncArchetype hsync₂
    refine ⟨p₂.withWorld w', log₁.append log₂, ?_, rfl, ?_⟩
    · have hto : p₂.world.castTo ctx fuel s (some g') = some (w', ss) := by
        rw [hw₂, hw₁]
        exact hrun
      have hsrc : (p.withWorld w).world.store.type s.c = some srcG := hc₁
      simp only [Pipeline.cast, harch, hcasted, Pipeline.castTo, hsrc, hsync₁, hsync₂, hto,
        Option.bind_eq_bind, Option.bind_some]
    · intro k hk
      rcases List.mem_append.mp hk with hk | hk
      · exact hexp₁ k hk
      · have hdead := hexp₂ k hk
        rwa [hlive] at hdead

/-- The cast of a valid slice returns when `world::cast` does and is `world::cast`, if and
only if it does not free the slice. -/
theorem castsAlike_iff (h : Reached ctx p) (hidle : p.Idle)
    (harch : p.world.archetypeOf s.c = some (g, a)) (diff : TypeDiff) :
    CastsAlike ctx p s diff ↔ World.castFrees ctx a diff = false ∧
      ∃ fuel r, p.world.cast ctx fuel s diff = some r := by
  constructor
  · rintro ⟨fuel, p', ss, log, hcast, -, hworld⟩
    refine ⟨eq_false_of_ne_true fun hfrees => ?_, fuel, _, hworld⟩
    rw [cast_null harch hfrees fuel] at hcast
    simp at hcast
  · rintro ⟨hfrees, fuel, ⟨w', ss⟩, hworld⟩
    obtain ⟨p', log, hcast, rfl, hexp⟩ :=
      (hooked_of_reached h).cast_returns hidle harch hfrees hworld
    exact ⟨fuel, p', ss, log, hcast, hexp, hworld⟩

/-- A dying entity is given another component. -/
theorem castsAlike_extend : ∃ w,
    runAll World.tracked 4 World.blank
      [.allocate { types := [4] } 1, World.destroyFirst] = some w ∧
    CastsAlike World.tracked (onWorld w) { c := 1, start := 0, count := 1 }
      { extend := { types := [5] } } := by
  have hsome : ((runAll World.tracked 4 World.blank
      [.allocate { types := [4] } 1, World.destroyFirst]).bind fun w =>
      (w.cast World.tracked 4 { c := 1, start := 0, count := 1 }
        { extend := { types := [5] } }).bind fun _ => (w.archetypeOf 1).map fun p =>
          World.castFrees World.tracked p.2 { extend := { types := [5] } }) =
      some false := by decide +kernel
  obtain ⟨w, hw, hsome⟩ := Option.bind_eq_some_iff.mp hsome
  obtain ⟨r, hcast, hsome⟩ := Option.bind_eq_some_iff.mp hsome
  obtain ⟨⟨g, a⟩, harch, hfrees⟩ := Option.map_eq_some_iff.mp hsome
  have hreach : Reached World.tracked (onWorld w) :=
    reached_onWorld (World.known_runAll (World.known_initial _ _ _ _) hw)
  exact ⟨w, hw, (castsAlike_iff (s := { c := 1, start := 0, count := 1 }) hreach
    (idle_initial _ _) harch _).mpr ⟨hfrees, 4, r, hcast⟩⟩

/-- The last tracked component of a dying entity is taken away. -/
theorem not_castsAlike_takeAway : ∃ w r,
    runAll World.tracked 4 World.blank
      [.allocate { types := [4] } 1, World.destroyFirst] = some w ∧
    Reached World.tracked (onWorld w) ∧ (onWorld w).Idle ∧ (World.takeAway 1).Valid w ∧
    w.cast World.tracked 4 { c := 1, start := 0, count := 1 }
      { shrink := { types := [4] } } = some r ∧
    ¬ CastsAlike World.tracked (onWorld w) { c := 1, start := 0, count := 1 }
      { shrink := { types := [4] } } := by
  have hsome : ((runAll World.tracked 4 World.blank
      [.allocate { types := [4] } 1, World.destroyFirst]).bind fun w =>
      (w.cast World.tracked 4 { c := 1, start := 0, count := 1 }
        { shrink := { types := [4] } }).bind fun _ => (w.archetypeOf 1).map fun p =>
          (World.castFrees World.tracked p.2 { shrink := { types := [4] } },
            w.store.type 1, w.store.count 1)) =
      some (true, some 1, 1) := by decide +kernel
  obtain ⟨w, hw, hsome⟩ := Option.bind_eq_some_iff.mp hsome
  obtain ⟨r, hcast, hsome⟩ := Option.bind_eq_some_iff.mp hsome
  obtain ⟨⟨g, a⟩, harch, hfacts⟩ := Option.map_eq_some_iff.mp hsome
  simp only [Prod.mk.injEq] at hfacts
  obtain ⟨hfrees, htype, hcount⟩ := hfacts
  refine ⟨w, r, hw, reached_onWorld (World.known_runAll (World.known_initial _ _ _ _) hw),
    idle_initial _ _, ⟨by simp [htype], by simp, by simp [hcount]⟩, hcast, ?_⟩
  rintro ⟨fuel, p', ss, log, hrun, -⟩
  rw [cast_null (p := onWorld w) (s := { c := 1, start := 0, count := 1 }) harch hfrees fuel] at hrun
  simp at hrun

end Pipeline

end Dots

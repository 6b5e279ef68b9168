import Dots.Database.Growth
import Dots.Database.Handles

/-!
# Versions of new handles

`new_entities` gives a handle the version of its entry of the table. That of a freed entry is
never the transient one; that of an entry by which the table grows is what the memory had.
-/

namespace Dots

open Library

namespace Entities

open Entity

variable {ents ents' ents'' : Entities} {e : Entity} {es fs : List Entity}

/-- No entry has the transient version. -/
def Untouched (ents : Entities) : Prop := ∀ id, (ents.datas id).v < transientMagicNumber

/-- The memory behind the table, up to `n` entries, has not the transient version. -/
def RawFit (ents : Entities) (n : Nat) : Prop :=
  ∀ i, ents.size ≤ i → i < n → ents.raw i % 2 ^ 8 ≠ transientMagicNumber

/-- From one table to a later one, between which `new_entities` stored the handles `es`. -/
structure Issued (es : List Entity) (ents ents' : Entities) : Prop where
  raw : ents'.raw = ents.raw
  size_le : ents.size ≤ ents'.size
  fresh : ∀ i, ents.size ≤ i → i < ents'.size → Entity.make i (ents.raw i % 2 ^ 8) ∈ es
  fit : ents.Untouched → ents.RawFit ents'.size →
    ents'.Untouched ∧ ∀ e ∈ es, e.isTransient = false

theorem Issued.refl (ents : Entities) : Issued [] ents ents where
  raw := rfl
  size_le := le_rfl
  fresh _ hlo hhi := absurd hhi (Nat.not_lt.mpr hlo)
  fit h _ := ⟨h, fun _ => nofun⟩

theorem Issued.trans (h : Issued es ents ents') (h' : Issued fs ents' ents'') :
    Issued (es ++ fs) ents ents'' where
  raw := h'.raw.trans h.raw
  size_le := h.size_le.trans h'.size_le
  fresh i hlo hhi := by
    by_cases hi : i < ents'.size
    · exact List.mem_append_left _ (h.fresh i hlo hi)
    · rw [← h.raw]
      exact List.mem_append_right _ (h'.fresh i (not_lt.mp hi) hhi)
  fit hu hraw := by
    obtain ⟨hu', hes⟩ := h.fit hu fun i hlo hhi => hraw i hlo (hhi.trans_le h'.size_le)
    have hraw' : ents'.RawFit ents''.size := fun i hlo hhi => by
      rw [h.raw]
      exact hraw i (h.size_le.trans hlo) hhi
    obtain ⟨hu'', hfs⟩ := h'.fit hu' hraw'
    exact ⟨hu'', fun e he => (List.mem_append.mp he).elim (hes e) (hfs e)⟩

/-- A change of entries that leaves no transient version behind. -/
theorem Issued.of_entries (hraw : ents'.raw = ents.raw) (hsize : ents'.size = ents.size)
    (h : ents.Untouched → ents'.Untouched) : Issued [] ents ents' where
  raw := hraw
  size_le := hsize.ge
  fresh i hlo hhi := absurd hhi (by omega)
  fit hu _ := ⟨h hu, fun _ => nofun⟩

theorem Untouched.setData {d : EntityData} (h : ents.Untouched) (id : Nat)
    (hd : d.v < transientMagicNumber) : (ents.setData id d).Untouched := by
  intro j
  rw [setData_datas]
  split_ifs
  · exact hd
  · exact h j

theorem issued_setData {id : Nat} {d : EntityData}
    (hd : ents.Untouched → d.v < transientMagicNumber) : Issued [] ents (ents.setData id d) :=
  .of_entries rfl rfl fun h => h.setData id (hd h)

theorem nextVersion_lt {v : Nat} (hv : v < transientMagicNumber) :
    nextVersion v < transientMagicNumber := by
  rw [nextVersion_of_lt hv]
  exact Nat.mod_lt _ (by decide)

theorem issued_place (ents : Entities) (e : Entity) (c : ChunkId) (slot : Nat) :
    Issued [] ents (ents.place e c slot) :=
  issued_setData fun h => h e.id

/-- The handle has the version of its entry, or that of the memory behind the table. -/
theorem issued_takeId (hs : ents.takeId = some (ents', e)) : Issued [e] ents ents' := by
  simp only [takeId] at hs
  split_ifs at hs
  · obtain ⟨rfl, rfl⟩ := Prod.mk.inj (Option.some.inj hs)
    have hbyte : ents.raw ents.size % 2 ^ 8 < 2 ^ 8 := Nat.mod_lt _ (by decide)
    refine ⟨rfl, Nat.le_succ _, fun i hlo hhi => ?_, fun hu hraw => ?_⟩
    · obtain rfl : i = ents.size := Nat.le_antisymm (Nat.lt_succ_iff.mp hhi) hlo
      exact List.mem_singleton_self _
    · have hne := hraw ents.size le_rfl (Nat.lt_succ_self _)
      have hlt : ents.raw ents.size % 2 ^ 8 < transientMagicNumber :=
        lt_of_le_of_ne (Nat.le_pred_of_lt hbyte) hne
      refine ⟨hu.setData ents.size hlt, List.forall_mem_singleton.mpr ?_⟩
      rw [isTransient, version_make _ hbyte]
      exact beq_false_of_ne hne
  · split at hs
    · obtain ⟨rfl, rfl⟩ := Prod.mk.inj (Option.some.inj hs)
      refine ⟨rfl, le_rfl, fun i hlo hhi => absurd hhi (Nat.not_lt.mpr hlo), fun hu _ =>
        ⟨hu, List.forall_mem_singleton.mpr ?_⟩⟩
      have hlt := hu ents.free
      rw [isTransient, version_make _ (hlt.trans (by decide))]
      exact beq_false_of_ne hlt.ne
    · simp at hs

theorem value_of_takeId (hs : ents.takeId = some (ents', e)) : e.value < 2 ^ 32 := by
  simp only [takeId] at hs
  split_ifs at hs
  · exact (Prod.mk.inj (Option.some.inj hs)).2 ▸ make_value_lt ..
  · split at hs
    · exact (Prod.mk.inj (Option.some.inj hs)).2 ▸ make_value_lt ..
    · simp at hs

/-- The handles that `new_entities` stores are those that the slots have after it. -/
theorem issued_newEntities {c : ChunkId} {n slot : Nat} {m m' : Mem}
    (hs : newEntities c n slot ents m = some (ents', m')) :
    Issued ((List.range n).map fun k => Mem.readEntity m' (slot + k)) ents ents' := by
  induction n generalizing slot ents m with
  | zero =>
      obtain ⟨rfl, -⟩ := Prod.mk.inj (Option.some.inj hs)
      exact .refl ents
  | succ n ih =>
      simp only [newEntities, Option.bind_eq_bind, Option.bind_eq_some_iff] at hs
      obtain ⟨⟨ents₁, e⟩, htake, hs⟩ := hs
      have hstays : Mem.readEntity m' slot = Mem.readEntity (Mem.writeEntity m slot e) slot := by
        refine congrArg Entity.mk (Mem.readWord_congr fun x hx => ?_)
        apply World.newEntities_sameOff hs
        rintro ⟨hlo, -⟩
        simp only [sizeofEntity] at hlo
        omega
      have hread : Mem.readEntity m' slot = e := by
        rw [hstays]
        exact Entity.ext (Mem.readWord_write _ _ _ _ (value_of_takeId htake))
      have hrest := ((issued_takeId htake).trans (issued_place ents₁ e c slot)).trans (ih hs)
      rw [List.range_succ_eq_map, List.map_cons, List.map_map, Nat.add_zero, hread]
      have hshift : ((fun k => Mem.readEntity m' (slot + k)) ∘ Nat.succ) =
          fun k => Mem.readEntity m' (slot + 1 + k) := by
        funext k
        exact congrArg (Mem.readEntity m') (by omega)
      rw [hshift]
      exact hrest

theorem issued_moveEntities (c : ChunkId) (slot : Nat) (es : List Entity) (ents : Entities) :
    Issued [] ents (Entities.moveEntities c slot es ents) := by
  induction es generalizing slot ents with
  | nil => exact .refl ents
  | cons e es ih => exact (issued_place ents e c slot).trans (ih (slot + 1) _)

theorem issued_fillEntities (slot : Nat) (es : List Entity) (ents : Entities) :
    Issued [] ents (Entities.fillEntities slot es ents) := by
  induction es generalizing slot ents with
  | nil => exact .refl ents
  | cons e es ih =>
      have hset : Issued [] ents (ents.setData e.id { ents.datas e.id with i := slot % 2 ^ 24 }) :=
        issued_setData fun h => h e.id
      exact hset.trans (ih (slot + 1) _)

/-- A freed entry steps over the transient version. -/
theorem issued_freeChain (es : List Entity) (ents : Entities) :
    Issued [] ents (ents.freeChain es) := by
  induction es generalizing ents with
  | nil => exact .refl ents
  | cons e es ih =>
      have hset : ∀ next, Issued [] ents (ents.setData e.id (freed (ents.datas e.id) next)) :=
        fun next => issued_setData fun h => nextVersion_lt (h e.id)
      exact (hset _).trans (ih _)

theorem issued_freeEntities (hs : ents.freeEntities es = some ents') : Issued [] ents ents' := by
  cases es with
  | nil => simp [Entities.freeEntities] at hs
  | cons e es =>
      obtain rfl := Option.some.inj hs
      have h := issued_freeChain (e :: es) ents
      exact ⟨h.raw, h.size_le, h.fresh, h.fit⟩

end Entities

namespace World

open Entities

variable {ctx : Context} {w w' : World} {g : ArchetypeId}

theorem issued_newSlice {s : ChunkSlice} (hs : w.newEntities s = some w') :
    Issued (w'.handles s) w.ents w'.ents := by
  simp only [World.newEntities, Option.bind_eq_bind, Option.bind_eq_some_iff] at hs
  obtain ⟨⟨ents, m⟩, hnew, hs⟩ := hs
  obtain rfl := Option.some.inj hs
  have h := issued_newEntities hnew
  simpa only [handles, Memory.entityAt, Memory.setData, Function.update_self] using h

/-! ## Calls that make no entities -/

theorem issued_freeSlice {s : ChunkSlice} (hs : w.freeSlice s = some w') :
    Issued [] w.ents w'.ents := by
  obtain ⟨g, a, st₁, w₂, st, -, -, -, rfl, -, rfl⟩ := freeSlice_spec hs
  simp only [moveTail]
  split_ifs
  · exact issued_fillEntities ..
  · exact .refl _

theorem issued_release {s : ChunkSlice} (hs : w.release s = some w') :
    Issued [] w.ents w'.ents := by
  obtain ⟨w₁, hf, hs⟩ := Option.bind_eq_some_iff.mp hs
  simp only [World.freeEntities, Option.bind_eq_bind, Option.bind_eq_some_iff] at hf
  obtain ⟨ents, hfree, hf⟩ := hf
  obtain rfl := Option.some.inj hf
  exact (issued_freeEntities hfree).trans (issued_freeSlice hs)

theorem issued_castLoop {src : ChunkSlice} {fuel : Nat} {ss : List ChunkSlice}
    (hs : castLoop ctx src g fuel 0 w = some (w', ss)) : Issued [] w.ents w'.ents := by
  suffices hinv : ∃ k, src.count ≤ k ∧ Issued [] w.ents w'.ents from hinv.choose_spec.2
  refine castLoop_invariant (I := fun _ v => Issued [] w.ents v.ents) ?_ (.refl w.ents) hs
  rintro v v₁ k s dst side mm hv - halloc - - -
  obtain ⟨st, -, rfl⟩ := allocateSlice_eq_some.mp halloc
  exact hv.trans (issued_moveEntities ..)

theorem issued_castSlice {s : ChunkSlice} {fuel : Nat} {ss : List ChunkSlice}
    (hs : w.castSlice ctx fuel s g = some (w', ss)) : Issued [] w.ents w'.ents := by
  obtain ⟨srcG, a, w₁, -, -, hloop, hfree⟩ := castSlice_spec hs
  have h := (issued_castLoop hloop).trans (issued_freeSlice hfree)
  exact h

theorem issued_castTo {s : ChunkSlice} {fuel : Nat} {target : Option ArchetypeId}
    {ss : List ChunkSlice} (hs : w.castTo ctx fuel s target = some (w', ss)) :
    Issued [] w.ents w'.ents := by
  cases target with
  | none => exact issued_release (castTo_none hs)
  | some g =>
      obtain ⟨srcG, srcA, a, -, -, -, hcase⟩ := castTo_cases hs
      rcases hcase with ⟨-, rfl⟩ | ⟨-, hfast⟩ | ⟨-, -, hcast⟩
      · exact .refl _
      · obtain ⟨st₁, st₂, -, -, rfl⟩ := hfast.store
        exact .refl _
      · exact issued_castSlice hcast

theorem issued_destroySingle {s : ChunkSlice} {fuel : Nat}
    (hs : w.destroySingle ctx fuel s = some w') : Issued [] w.ents w'.ents := by
  obtain ⟨g, a, -, -, hcase⟩ := destroySingle_cases hs
  rcases hcase with ⟨-, rfl⟩ | ⟨-, -, hrel⟩ | ⟨-, -, w₂, g', ss, hget, hcast⟩
  · exact .refl _
  · exact issued_release hrel
  · have h := issued_castSlice hcast
    rwa [(ents_of_getArchetype hget).1] at h

/-- `destroy`, with the members of all groups. -/
theorem issued_destroy {s : ChunkSlice} {fuel : Nat} (hs : w.destroy ctx fuel s = some w') :
    Issued [] w.ents w'.ents := by
  cases fuel with
  | zero => simp [World.destroy] at hs
  | succ fuel =>
      obtain ⟨g, a, w₁, -, -, hgroups, hsingle⟩ := destroy_cases hs
      have hmembers : Issued [] w.ents w₁.ents := by
        rcases hgroups with ⟨-, rfl⟩ | ⟨-, hgroups⟩
        · exact .refl _
        · refine destroyGroups_invariant (I := fun v => Issued [] w.ents v.ents)
            (fun v t v' hone hv hrun => ?_) (.refl _) hgroups
          exact destroy_invariant (I := fun v => Issued [] w.ents v.ents)
            (fun u u' t fuel _ hu hsingle => hu.trans (issued_destroySingle hsingle)) hone hv hrun
      exact hmembers.trans (issued_destroySingle hsingle)

theorem ents_of_getCasted {a : Archetype} {diff : TypeDiff} {inst : Bool}
    {target : Option ArchetypeId} (hs : w.getCasted ctx a diff inst = some (w', target)) :
    w'.ents = w.ents := by
  rcases getCasted_cases hs with ⟨-, rfl, -⟩ | ⟨g, -, hget, -⟩
  · rfl
  · exact (ents_of_getArchetype hget).1

/-! ## Calls that make entities -/

/-- One turn of the loop of `allocate`. -/
def allocateTurn (ctx : Context) (g : ArchetypeId) (n : Nat) (w : World) :
    Option (World × ChunkSlice) := do
  let (w, s) ← w.allocateSlice g n
  let (_, a) ← w.archetypeOf s.c
  let w ← { w with memory := w.memory.construct ctx a (w.store.ct s.c) s }.newEntities s
  some (w, s)

/-- One turn of the loop of `instantiate_single`. -/
def instantiateTurn (ctx : Context) (src : Entity) (g : ArchetypeId) (n : Nat) (w : World) :
    Option (World × ChunkSlice) := do
  let (w, s) ← w.allocateSlice g n
  let from_ ← w.asSlice src
  let srcSide ← w.side from_.c from_.start
  let (_, a) ← w.archetypeOf s.c
  let mm ← w.memory.duplicate ctx a s srcSide
  let w ← { w with memory := mm }.newEntities s
  some (w, s)

/-- The handles that the turns of a loop store, which ends when `n` slots are filled. -/
def storedBy (turn : Nat → World → Option (World × ChunkSlice)) : Nat → Nat → World → List Entity
  | 0, _, _ => []
  | fuel + 1, n, w =>
      if 0 < n then
        match turn n w with
        | some (w, s) => w.handles s ++ storedBy turn fuel (n - s.count) w
        | none => []
      else []

/-- The handles that `instantiate_single` stores. -/
def storedBySingle (ctx : Context) (fuel : Nat) (w : World) (src : Entity) (count : Nat) :
    Option (List Entity) := do
  let s ← w.asSlice src
  let (_, a) ← w.archetypeOf s.c
  let (w, g) ← w.getCasted ctx a {} true
  some (g.elim [] fun g => storedBy (instantiateTurn ctx src g) fuel count w)

/-- The handles that `instantiate_prefab` stores. -/
def storedByMembers (ctx : Context) (fuel count : Nat) :
    List Entity → World → Option (List Entity)
  | [], _ => some []
  | e :: es, w => do
      let stored ← storedBySingle ctx fuel w e count
      let (w, _) ← w.instantiateSingle ctx fuel e count
      let rest ← storedByMembers ctx fuel count es w
      some (stored ++ rest)

end World

/-- The handles that the calls of `new_entities` in a call store, in order. -/
def Op.stored (ctx : Context) (fuel : Nat) (w : World) : Op → Option (List Entity)
  | .allocate type count => do
      let (w, g) ← w.getArchetype ctx type
      some (World.storedBy (World.allocateTurn ctx g) fuel count w)
  | .instantiate src count => do
      match ← w.getComponentRo src ctx.groupId with
      | none => World.storedBySingle ctx fuel w src count
      | some (c, addr) =>
          let members ← w.flattenGroup ctx fuel c addr
          let w ← w.groupToPrefab ctx members true
          World.storedByMembers ctx fuel count members w
  | _ => some []

namespace World

open Entities

variable {ctx : Context} {w w' : World} {g : ArchetypeId}

/-- A loop that takes turns until `n` slots are filled. -/
structure Turns (loop : Nat → Nat → World → Option (World × List ChunkSlice))
    (turn : Nat → World → Option (World × ChunkSlice)) : Prop where
  zero : ∀ n w, loop 0 n w = none
  succ : ∀ fuel n w, loop (fuel + 1) n w =
    if 0 < n then (turn n w).bind fun p =>
      (loop fuel (n - p.2.count) p.1).map fun q => (q.1, p.2 :: q.2)
    else some (w, [])

theorem turns_allocateLoop : Turns (allocateLoop ctx g) (allocateTurn ctx g) where
  zero _ _ := rfl
  succ fuel n w := by
    simp only [allocateLoop, allocateTurn, Option.bind_eq_bind, Option.bind_assoc,
      Option.bind_some, Option.map_eq_bind, Function.comp_def]

theorem turns_instantiateLoop {src : Entity} :
    Turns (instantiateLoop ctx src g) (instantiateTurn ctx src g) where
  zero _ _ := rfl
  succ fuel n w := by
    simp only [instantiateLoop, instantiateTurn, Option.bind_eq_bind, Option.bind_assoc,
      Option.bind_some, Option.map_eq_bind, Function.comp_def]

theorem issued_allocateTurn {n : Nat} {s : ChunkSlice}
    (hs : allocateTurn ctx g n w = some (w', s)) : Issued (w'.handles s) w.ents w'.ents := by
  simp only [allocateTurn, Option.bind_eq_bind, Option.bind_eq_some_iff] at hs
  obtain ⟨⟨w₁, s₁⟩, halloc, ⟨g', a⟩, -, w₂, hnew, hs⟩ := hs
  obtain ⟨rfl, rfl⟩ := Prod.mk.inj (Option.some.inj hs)
  obtain ⟨st, -, rfl⟩ := allocateSlice_eq_some.mp halloc
  have h := issued_newSlice hnew
  exact h

theorem issued_instantiateTurn {src : Entity} {n : Nat} {s : ChunkSlice}
    (hs : instantiateTurn ctx src g n w = some (w', s)) :
    Issued (w'.handles s) w.ents w'.ents := by
  simp only [instantiateTurn, Option.bind_eq_bind, Option.bind_eq_some_iff] at hs
  obtain ⟨⟨w₁, s₁⟩, halloc, from_, -, side, -, ⟨g', a⟩, -, mm, -, w₂, hnew, hs⟩ := hs
  obtain ⟨rfl, rfl⟩ := Prod.mk.inj (Option.some.inj hs)
  obtain ⟨st, -, rfl⟩ := allocateSlice_eq_some.mp halloc
  have h := issued_newSlice hnew
  exact h

theorem issued_storedBy {loop : Nat → Nat → World → Option (World × List ChunkSlice)}
    {turn : Nat → World → Option (World × ChunkSlice)} (hloop : Turns loop turn)
    (hturn : ∀ n w w' s, turn n w = some (w', s) → Issued (w'.handles s) w.ents w'.ents)
    {fuel n : Nat} {ss : List ChunkSlice} (hs : loop fuel n w = some (w', ss)) :
    Issued (storedBy turn fuel n w) w.ents w'.ents := by
  induction fuel generalizing n w ss with
  | zero => exact absurd (hloop.zero n w ▸ hs) nofun
  | succ fuel ih =>
      rw [hloop.succ] at hs
      unfold storedBy
      split_ifs at hs ⊢ with hn
      · obtain ⟨⟨w₁, s⟩, hfirst, hs⟩ := Option.bind_eq_some_iff.mp hs
        obtain ⟨⟨w₂, ss'⟩, hrest, hs⟩ := Option.map_eq_some_iff.mp hs
        obtain ⟨rfl, -⟩ := Prod.mk.inj hs
        rw [hfirst]
        exact (hturn _ _ _ _ hfirst).trans (ih hrest)
      · obtain ⟨rfl, -⟩ := Prod.mk.inj (Option.some.inj hs)
        exact .refl _

theorem issued_instantiateSingle {src : Entity} {fuel n : Nat} {ss : List ChunkSlice}
    (hs : w.instantiateSingle ctx fuel src n = some (w', ss)) :
    ∃ stored, storedBySingle ctx fuel w src n = some stored ∧ Issued stored w.ents w'.ents := by
  simp only [World.instantiateSingle, Option.bind_eq_bind, Option.bind_eq_some_iff] at hs
  obtain ⟨s, hslice, ⟨g₀, a₀⟩, harch, ⟨w₁, target⟩, hcasted, hs⟩ := hs
  have hstored : storedBySingle ctx fuel w src n =
      some (target.elim [] fun g => storedBy (instantiateTurn ctx src g) fuel n w₁) := by
    simp only [storedBySingle, hslice, harch, hcasted, Option.bind_eq_bind, Option.bind_some]
  refine ⟨_, hstored, ?_⟩
  rw [← ents_of_getCasted hcasted]
  cases target with
  | none =>
      simp only at hs
      split_ifs at hs
      obtain ⟨rfl, -⟩ := Prod.mk.inj (Option.some.inj hs)
      exact .refl _
  | some g => exact issued_storedBy turns_instantiateLoop (fun _ _ _ _ => issued_instantiateTurn) hs

theorem issued_instantiateMembers {fuel n : Nat} {es : List Entity}
    {members : List (List ChunkSlice × List Entity)}
    (hs : instantiateMembers ctx fuel n es w = some (w', members)) :
    ∃ stored, storedByMembers ctx fuel n es w = some stored ∧ Issued stored w.ents w'.ents := by
  induction es generalizing w members with
  | nil =>
      obtain ⟨rfl, -⟩ := Prod.mk.inj (Option.some.inj hs)
      exact ⟨[], rfl, .refl _⟩
  | cons e es ih =>
      simp only [World.instantiateMembers, Option.bind_eq_bind, Option.bind_eq_some_iff] at hs
      obtain ⟨⟨w₁, ss⟩, hsingle, ⟨w₂, rest⟩, hrest, hs⟩ := hs
      obtain ⟨rfl, -⟩ := Prod.mk.inj (Option.some.inj hs)
      obtain ⟨stored, hstored, h⟩ := issued_instantiateSingle hsingle
      obtain ⟨stored', hstored', h'⟩ := ih hrest
      refine ⟨stored ++ stored', ?_, h.trans h'⟩
      simp only [storedByMembers, hstored, hsingle, hstored', Option.bind_eq_bind, Option.bind_some]

/-- `instantiate`, of an entity or of a group. -/
theorem issued_instantiate {src : Entity} {fuel n : Nat} {ss : List ChunkSlice}
    (hs : w.instantiate ctx fuel src n = some (w', ss)) :
    ∃ stored, Op.stored ctx fuel w (.instantiate src n) = some stored ∧
      Issued stored w.ents w'.ents := by
  simp only [World.instantiate, Option.bind_eq_bind, Option.bind_eq_some_iff] at hs
  obtain ⟨group, hgroup, hs⟩ := hs
  cases group with
  | none =>
      obtain ⟨stored, hstored, h⟩ := issued_instantiateSingle hs
      refine ⟨stored, ?_, h⟩
      simp only [Op.stored, hgroup, Option.bind_eq_bind, Option.bind_some]
      exact hstored
  | some at_ =>
      simp only [Option.bind_eq_some_iff, World.instantiatePrefab, Option.bind_eq_bind] at hs
      obtain ⟨members, hflat, w₁, hto, ⟨w₂, ss'⟩, ⟨⟨w₃, table⟩, hmembers, w₄, hpatch, heq⟩, w₅,
        hback, hs⟩ := hs
      obtain ⟨rfl, -⟩ := Prod.mk.inj (Option.some.inj hs)
      obtain ⟨rfl, -⟩ := Prod.mk.inj (Option.some.inj heq)
      obtain ⟨stored, hstored, h⟩ := issued_instantiateMembers hmembers
      have hpatched : w₄.ents = w₃.ents :=
        foldlM_invariant (P := fun v => v.ents = w₃.ents)
          (fun _ _ _ _ hp hv => (patchSlices_ents hp).trans hv) hpatch rfl
      refine ⟨stored, ?_, ?_⟩
      · simp only [Op.stored, hgroup, hflat, hto, Option.bind_eq_bind, Option.bind_some]
        exact hstored
      · rwa [patchEntities_ents hback, hpatched, ← patchEntities_ents hto]

end World

/-- A call that returns stores handles by the versions in the table and behind it. -/
theorem Op.issued {ctx : Context} {w w' : World} {op : Op} {fuel : Nat}
    (hs : op.run ctx fuel w = some w') :
    ∃ stored, op.stored ctx fuel w = some stored ∧ Entities.Issued stored w.ents w'.ents := by
  cases op with
  | allocate type count =>
      obtain ⟨⟨_, ss⟩, hrun, rfl⟩ := Option.map_eq_some_iff.mp hs
      simp only [World.allocate, Option.bind_eq_bind, Option.bind_eq_some_iff] at hrun
      obtain ⟨⟨w₁, g⟩, hget, hrun⟩ := hrun
      have h := World.issued_storedBy World.turns_allocateLoop
        (fun _ _ _ _ => World.issued_allocateTurn) hrun
      rw [(World.ents_of_getArchetype hget).1] at h
      exact ⟨_, by simp only [Op.stored, hget, Option.bind_eq_bind, Option.bind_some], h⟩
  | instantiate src count =>
      obtain ⟨⟨_, ss⟩, hrun, rfl⟩ := Option.map_eq_some_iff.mp hs
      exact World.issued_instantiate hrun
  | destroy s => exact ⟨[], rfl, World.issued_destroy hs⟩
  | cast s diff =>
      obtain ⟨⟨_, ss⟩, hrun, rfl⟩ := Option.map_eq_some_iff.mp hs
      simp only [World.cast, Option.bind_eq_bind, Option.bind_eq_some_iff] at hrun
      obtain ⟨⟨g, a⟩, -, ⟨w₁, target⟩, hcasted, hrun⟩ := hrun
      have h := World.issued_castTo hrun
      rw [World.ents_of_getCasted hcasted] at h
      exact ⟨[], rfl, h⟩
  | castType s type =>
      obtain ⟨⟨_, ss⟩, hrun, rfl⟩ := Option.map_eq_some_iff.mp hs
      simp only [World.castType, Option.bind_eq_bind, Option.bind_eq_some_iff] at hrun
      obtain ⟨⟨w₁, g⟩, hget, hrun⟩ := hrun
      have h := World.issued_castTo hrun
      rw [(World.ents_of_getArchetype hget).1] at h
      exact ⟨[], rfl, h⟩
  | getArchetype type =>
      obtain ⟨⟨_, g⟩, hrun, rfl⟩ := Option.map_eq_some_iff.mp hs
      refine ⟨[], rfl, ?_⟩
      rw [(World.ents_of_getArchetype hrun).1]
      exact .refl _
  | query f =>
      obtain ⟨⟨_, q⟩, hrun, rfl⟩ := Option.map_eq_some_iff.mp hs
      obtain ⟨queries, rfl⟩ := World.query_eq_some hrun
      exact ⟨[], rfl, .refl _⟩
  | write memory =>
      rw [← Option.some.inj hs]
      exact ⟨[], rfl, .refl _⟩

/-! ## Runs -/

/-- Calls that lead from one world to another, in which `new_entities` stores the handles `es`. -/
inductive Issuing (ctx : Context) : World → List Entity → World → Prop
  | refl (w : World) : Issuing ctx w [] w
  | step {w w' w'' : World} {es stored : List Entity} {op : Op} {fuel : Nat}
      (h : Issuing ctx w es w') (hs : op.run ctx fuel w' = some w'')
      (hstored : op.stored ctx fuel w' = some stored) : Issuing ctx w (es ++ stored) w''

namespace World

variable {ctx : Context} {w w' : World}

theorem issued_run {es : List Entity} (h : Issuing ctx w es w') :
    Entities.Issued es w.ents w'.ents := by
  induction h with
  | refl => exact .refl _
  | step _ hs hstored ih =>
      obtain ⟨stored, hstored', hissued⟩ := Op.issued hs
      obtain rfl := Option.some.inj (hstored.symm.trans hstored')
      exact ih.trans hissued

/-- The handles that a run stores are not transient if and only if the memory by which the table
has grown has not the transient version. -/
theorem issued_iff {timestamp : Nat} {raw : Nat → Nat} {data : ChunkId → Mem}
    {guids : Nat → List UInt8} {es : List Entity} {w : World}
    (h : Issuing ctx (World.initial timestamp raw data guids) es w) :
    (∀ e ∈ es, e.isTransient = false) ↔
      ∀ i < w.ents.size, raw i % 2 ^ 8 ≠ Entity.transientMagicNumber := by
  have hissued := issued_run h
  constructor
  · intro hes i hi
    have hnot := hes _ (hissued.fresh i (Nat.zero_le _) hi)
    have hbyte : raw i % 2 ^ 8 < 2 ^ 8 := Nat.mod_lt _ (by decide)
    rw [Entity.isTransient, beq_eq_false_iff_ne] at hnot
    exact Entity.version_make i hbyte ▸ hnot
  · intro hraw
    have hinitial : (World.initial timestamp raw data guids).ents.Untouched := fun _ =>
      Nat.zero_lt_succ _
    exact (hissued.fit hinitial fun i _ hi => hraw i hi).2

/-- Two entities in a world on memory of zeros. -/
theorem issued_blank : ∃ es w, Issuing narrowWide blank es w ∧ es = [⟨0⟩, ⟨256⟩] ∧
    ∀ e ∈ es, e.isTransient = false := by
  have hreturns : (Op.run narrowWide 2 blank (.allocate { types := [4] } 2)).map
      (fun w => w.ents.size) = some 2 := by decide +kernel
  have hstored : Op.stored narrowWide 2 blank (.allocate { types := [4] } 2) =
      some [⟨0⟩, ⟨256⟩] := by decide +kernel
  obtain ⟨w, hw, -⟩ := Option.map_eq_some_iff.mp hreturns
  have hrun : Issuing narrowWide blank ([] ++ [⟨0⟩, ⟨256⟩]) w :=
    (Issuing.refl blank).step hw hstored
  exact ⟨_, w, hrun, rfl, (issued_iff hrun).mpr fun i _ => by decide⟩

/-- A world on memory whose bytes are all 255. -/
def worn : World := World.initial 1 (fun _ => 255) (fun _ _ => 0) fun _ => []

/-- Its first entity is transient. -/
theorem not_issued_worn : ∃ es w, Issuing narrowWide worn es w ∧
    ∃ e ∈ es, e.isTransient = true := by
  have hreturns : (Op.run narrowWide 2 worn (.allocate { types := [4] } 1)).map
      (fun w => w.ents.size) = some 1 := by decide +kernel
  have hstored : Op.stored narrowWide 2 worn (.allocate { types := [4] } 1) =
      some [⟨255⟩] := by decide +kernel
  obtain ⟨w, hw, -⟩ := Option.map_eq_some_iff.mp hreturns
  refine ⟨_, w, (Issuing.refl worn).step hw hstored, ⟨255⟩, ?_, by decide⟩
  exact List.mem_append_right _ (List.mem_singleton_self _)

end World

end Dots

import Dots.Database.Consistency

/-!
# Handles of the dead

The version of a table entry moves on when its id is freed, and at no other time.
A freed handle is out of date until its id has gone once through all versions.
-/

namespace Dots

open Library

namespace Entity

/-- The version a freed entry gets. -/
def nextVersion (v : Nat) : Nat := recycle v % 2 ^ 8

theorem nextVersion_of_lt {v : Nat} (hv : v < 255) : nextVersion v = (v + 1) % 255 := by
  by_cases hlast : v + 1 = transientMagicNumber
  · obtain rfl : v = 254 := Nat.succ.inj hlast
    rfl
  · have hne : v + 1 ≠ 255 := hlast
    rw [nextVersion, recycle, if_neg hlast]
    omega

/-- All versions but the transient one lie on one cycle. -/
theorem nextVersion_iterate {v : Nat} (hv : v < 255) (n : Nat) :
    nextVersion^[n] v = (v + n) % 255 := by
  induction n with
  | zero => simp [Nat.mod_eq_of_lt hv]
  | succ n ih =>
      rw [Function.iterate_succ_apply', ih, nextVersion_of_lt (Nat.mod_lt _ (by decide))]
      omega

/-- A version comes back after 255 steps at the earliest. -/
theorem nextVersion_iterate_ne {v n : Nat} (hv : v < 2 ^ 8) (hpos : 0 < n) (hn : n < 255) :
    nextVersion^[n] v ≠ v := by
  obtain hlt | rfl : v < 255 ∨ v = 255 := by omega
  · rw [nextVersion_iterate hlt]
    omega
  · -- the transient version leads onto the cycle and is not on it
    obtain ⟨m, rfl⟩ : ∃ m, n = m + 1 := ⟨n - 1, by omega⟩
    rw [Function.iterate_succ_apply, show nextVersion 255 = 0 from rfl,
      nextVersion_iterate (by decide)]
    omega

end Entity

namespace Entities

open Entity

variable {ents ents' ents'' : Entities} {es fs : List Entity}

/-! ## Versions in the table -/

/-- From one table to a later one, between which the handles `fs` were freed. -/
structure Aged (fs : List Entity) (ents ents' : Entities) : Prop where
  size_le : ents.size ≤ ents'.size
  version : ∀ id < ents.size,
    (ents'.datas id).v = nextVersion^[(fs.map Entity.id).count id] (ents.datas id).v

theorem Aged.refl (ents : Entities) : Aged [] ents ents := ⟨le_rfl, fun _ _ => rfl⟩

theorem Aged.trans (h : Aged es ents ents') (h' : Aged fs ents' ents'') :
    Aged (es ++ fs) ents ents'' where
  size_le := h.size_le.trans h'.size_le
  version id hid := by
    rw [h'.version id (hid.trans_le h.size_le), h.version id hid, List.map_append,
      List.count_append, Nat.add_comm, Function.iterate_add_apply]

/-- A change of the table that keeps the versions. -/
theorem Aged.of_same (hsize : ents.size ≤ ents'.size)
    (hv : ∀ id < ents.size, (ents'.datas id).v = (ents.datas id).v) : Aged [] ents ents' :=
  ⟨hsize, hv⟩

theorem place_version (ents : Entities) (e : Entity) (c : ChunkId) (slot id : Nat) :
    ((ents.place e c slot).datas id).v = (ents.datas id).v := by
  rw [place_datas]
  split_ifs with h
  · rw [h]
  · rfl

theorem aged_takeId {e : Entity} (hs : ents.takeId = some (ents', e)) : Aged [] ents ents' := by
  refine .of_same (takeId_size_le hs) fun id hid => ?_
  simp only [takeId] at hs
  split_ifs at hs
  · obtain ⟨rfl, -⟩ := Prod.mk.inj (Option.some.inj hs)
    dsimp only
    rw [setData_datas, if_neg hid.ne]
  · split at hs
    · obtain ⟨rfl, -⟩ := Prod.mk.inj (Option.some.inj hs)
      rfl
    · simp at hs

/-- `new_entities` keeps the versions of all ids there are. -/
theorem aged_newEntities {c : ChunkId} {n slot : Nat} {m m' : Mem}
    (hs : newEntities c n slot ents m = some (ents', m')) : Aged [] ents ents' := by
  induction n generalizing slot ents m with
  | zero =>
      obtain ⟨rfl, -⟩ := Prod.mk.inj (Option.some.inj hs)
      exact .refl ents
  | succ n ih =>
      simp only [newEntities, Option.bind_eq_bind, Option.bind_eq_some_iff] at hs
      obtain ⟨⟨ents₁, e⟩, htake, hs⟩ := hs
      have hplace : Aged [] ents₁ (ents₁.place e c slot) :=
        .of_same le_rfl fun id _ => place_version ents₁ e c slot id
      exact (aged_takeId htake).trans (hplace.trans (ih hs))

theorem aged_moveEntities (c : ChunkId) (slot : Nat) (es : List Entity) (ents : Entities) :
    Aged [] ents (Entities.moveEntities c slot es ents) := by
  induction es generalizing slot ents with
  | nil => exact .refl ents
  | cons e es ih =>
      have hplace : Aged [] ents (ents.place e c slot) :=
        .of_same le_rfl fun id _ => place_version ents e c slot id
      exact hplace.trans (ih (slot + 1) _)

theorem aged_fillEntities (slot : Nat) (es : List Entity) (ents : Entities) :
    Aged [] ents (Entities.fillEntities slot es ents) := by
  induction es generalizing slot ents with
  | nil => exact .refl ents
  | cons e es ih =>
      have hset : Aged [] ents (ents.setData e.id { ents.datas e.id with i := slot % 2 ^ 24 }) := by
        refine .of_same le_rfl fun id _ => ?_
        rw [setData_datas]
        split_ifs with h
        · rw [h]
        · rfl
      exact hset.trans (ih (slot + 1) _)

/-- `free_entities` moves the version of each freed id on. -/
theorem aged_freeChain (es : List Entity) (ents : Entities) : Aged es ents (ents.freeChain es) := by
  induction es generalizing ents with
  | nil => exact .refl ents
  | cons e es ih =>
      have hset : ∀ next, Aged [e] ents (ents.setData e.id (freed (ents.datas e.id) next)) := by
        refine fun next => ⟨le_rfl, fun id _ => ?_⟩
        rw [setData_datas, List.map_singleton]
        by_cases h : id = e.id
        · rw [if_pos h, h, List.count_singleton_self]
          rfl
        · rw [if_neg h, List.count_singleton, if_neg (by simpa using Ne.symm h)]
          rfl
      exact (hset _).trans (ih _)

theorem aged_freeEntities (hs : ents.freeEntities es = some ents') : Aged es ents ents' := by
  cases es with
  | nil => simp [Entities.freeEntities] at hs
  | cons e es =>
      obtain rfl := Option.some.inj hs
      have h := aged_freeChain (e :: es) ents
      exact ⟨h.size_le, h.version⟩

end Entities

/-! ## What a call frees -/

/-- The slice a call hands to `free_entities`. -/
def Op.released (ctx : Context) (w : World) : Op → Option ChunkSlice
  | .destroy s => do
      let (_, a) ← w.archetypeOf s.c
      if a.cleaning || World.leavesDead ctx a then none else some s
  | .cast s diff => do
      let (_, a) ← w.archetypeOf s.c
      if World.castFrees ctx a diff then some s else none
  | _ => none

/-- The handles a call frees. -/
def Op.freed (ctx : Context) (w : World) (op : Op) : List Entity :=
  match op.released ctx w with
  | some s => w.handles s
  | none => []

namespace World

open Entities

variable {ctx : Context} {w w' : World} {g : ArchetypeId}

theorem aged_newSlice {s : ChunkSlice} (hs : w.newEntities s = some w') :
    Aged [] w.ents w'.ents := by
  simp only [World.newEntities, Option.bind_eq_bind, Option.bind_eq_some_iff] at hs
  obtain ⟨⟨ents, m⟩, hnew, hs⟩ := hs
  rw [← Option.some.inj hs]
  exact aged_newEntities hnew

theorem aged_freeSlice {s : ChunkSlice} (hs : w.freeSlice s = some w') :
    Aged [] w.ents w'.ents := by
  obtain ⟨g, a, st₁, w₂, st, -, -, -, rfl, -, rfl⟩ := freeSlice_spec hs
  simp only [moveTail]
  split_ifs
  · exact aged_fillEntities ..
  · exact .refl _

theorem aged_release {s : ChunkSlice} (hs : w.release s = some w') :
    Aged (w.handles s) w.ents w'.ents := by
  obtain ⟨w₁, hf, hs⟩ := Option.bind_eq_some_iff.mp hs
  simp only [World.freeEntities, Option.bind_eq_bind, Option.bind_eq_some_iff] at hf
  obtain ⟨ents, hfree, hf⟩ := hf
  obtain rfl := Option.some.inj hf
  have h := (aged_freeEntities hfree).trans (aged_freeSlice hs)
  rwa [List.append_nil] at h

theorem aged_castLoop {src : ChunkSlice} {fuel : Nat} {ss : List ChunkSlice}
    (hs : castLoop ctx src g fuel 0 w = some (w', ss)) : Aged [] w.ents w'.ents := by
  suffices hinv : ∃ k, src.count ≤ k ∧ Aged [] w.ents w'.ents from hinv.choose_spec.2
  refine castLoop_invariant (I := fun _ v => Aged [] w.ents v.ents) ?_ (.refl w.ents) hs
  rintro v v₁ k s dst side mm hv - halloc - - -
  obtain ⟨st, -, rfl⟩ := allocateSlice_eq_some.mp halloc
  exact hv.trans (aged_moveEntities ..)

theorem aged_castSlice {s : ChunkSlice} {fuel : Nat} {ss : List ChunkSlice}
    (hs : w.castSlice ctx fuel s g = some (w', ss)) : Aged [] w.ents w'.ents := by
  obtain ⟨srcG, a, w₁, -, -, hloop, hfree⟩ := castSlice_spec hs
  have h := (aged_castLoop hloop).trans (aged_freeSlice hfree)
  exact h

theorem aged_allocateLoop {fuel n : Nat} {ss : List ChunkSlice}
    (hs : allocateLoop ctx g fuel n w = some (w', ss)) : Aged [] w.ents w'.ents := by
  refine allocateLoop_invariant (I := fun v => Aged [] w.ents v.ents) ?_ (.refl w.ents) hs
  rintro v v₁ v₂ n s g' a hv - halloc - hnew
  obtain ⟨st, -, rfl⟩ := allocateSlice_eq_some.mp halloc
  have h := aged_newSlice hnew
  exact hv.trans h

theorem aged_instantiateLoop {src : Entity} {fuel n : Nat} {ss : List ChunkSlice}
    (hs : instantiateLoop ctx src g fuel n w = some (w', ss)) : Aged [] w.ents w'.ents := by
  suffices hinv : ∃ m : Nat, Aged [] w.ents w'.ents from hinv.choose_spec
  refine instantiateLoop_invariant (I := fun _ v => Aged [] w.ents v.ents) ?_ (.refl w.ents) hs
  rintro v v₁ v₂ n s from_ side g' a mm hv - halloc - - - - hnew
  obtain ⟨st, -, rfl⟩ := allocateSlice_eq_some.mp halloc
  have h := aged_newSlice hnew
  exact hv.trans h

theorem ents_of_getArchetype {key : EntityType} (hs : w.getArchetype ctx key = some (w', g)) :
    w'.ents = w.ents ∧ w'.memory = w.memory := by
  obtain ⟨st, -, rfl⟩ := getArchetype_eq_some hs
  exact ⟨rfl, rfl⟩

theorem aged_castTo {key : EntityType} {w₁ : World} {s : ChunkSlice} {fuel : Nat}
    {ss : List ChunkSlice} (hget : w.getArchetype ctx key = some (w₁, g))
    (hs : w₁.castTo ctx fuel s (some g) = some (w', ss)) : Aged [] w.ents w'.ents := by
  rw [← (ents_of_getArchetype hget).1]
  obtain ⟨srcG, srcA, a, -, -, -, hcase⟩ := castTo_cases hs
  rcases hcase with ⟨-, rfl⟩ | ⟨-, hfast⟩ | ⟨-, -, hcast⟩
  · exact .refl _
  · obtain ⟨st₁, st₂, -, -, rfl⟩ := hfast.store
    exact .refl _
  · exact aged_castSlice hcast

theorem aged_destroySingle {s : ChunkSlice} {fuel : Nat}
    (hs : w.destroySingle ctx fuel s = some w') :
    Aged (Op.freed ctx w (.destroy s)) w.ents w'.ents := by
  obtain ⟨g, a, hc, ha, hcase⟩ := destroySingle_cases hs
  have harch := archetypeOf_eq_some.mpr ⟨hc, ha⟩
  simp only [Op.freed, Op.released, harch, Option.bind_eq_bind, Option.bind_some]
  rcases hcase with ⟨hclean, rfl⟩ | ⟨hclean, hdead, hrel⟩ | ⟨hclean, hdead, w₂, g', ss, hget, hcast⟩
  · rw [hclean]
    exact .refl _
  · rw [hclean, hdead]
    exact aged_release hrel
  · rw [hclean, hdead]
    have h := aged_castSlice hcast
    rwa [(ents_of_getArchetype hget).1] at h

/-- What a call does to the versions: those of the ids it frees move on. -/
theorem aged_step {op : Op} {fuel : Nat} (hgroup : op.NoGroup ctx w)
    (hs : op.run ctx fuel w = some w') : Aged (op.freed ctx w) w.ents w'.ents := by
  cases op with
  | allocate type count =>
      obtain ⟨⟨_, ss⟩, hrun, rfl⟩ := Option.map_eq_some_iff.mp hs
      simp only [World.allocate, Option.bind_eq_bind, Option.bind_eq_some_iff] at hrun
      obtain ⟨⟨w₁, g⟩, hget, hrun⟩ := hrun
      have h := aged_allocateLoop hrun
      rwa [(ents_of_getArchetype hget).1] at h
  | instantiate src count =>
      obtain ⟨⟨_, ss⟩, hrun, rfl⟩ := Option.map_eq_some_iff.mp hs
      simp only [World.instantiate, show w.getComponentRo src ctx.groupId = some none from hgroup,
        Option.bind_eq_bind, Option.bind_some, World.instantiateSingle,
        Option.bind_eq_some_iff] at hrun
      obtain ⟨s, -, ⟨g₀, a₀⟩, -, ⟨w₁, target⟩, hcasted, hrun⟩ := hrun
      have hents : w₁.ents = w.ents := by
        rcases getCasted_cases hcasted with ⟨-, rfl, -⟩ | ⟨g, -, hget, -⟩
        · rfl
        · exact (ents_of_getArchetype hget).1
      change Aged [] w.ents _
      rw [← hents]
      cases target with
      | none =>
          simp only at hrun
          split_ifs at hrun
          obtain ⟨rfl, -⟩ := Prod.mk.inj (Option.some.inj hrun)
          exact .refl _
      | some g => exact aged_instantiateLoop hrun
  | destroy s =>
      cases fuel with
      | zero => simp [Op.run, World.destroy] at hs
      | succ fuel =>
          obtain ⟨g, a, w₁, hc, ha, hgroups, hsingle⟩ := destroy_cases hs
          rcases hgroups with ⟨-, rfl⟩ | ⟨hid, -⟩
          · exact aged_destroySingle hsingle
          · exact absurd (hgroup g a (archetypeOf_eq_some.mpr ⟨hc, ha⟩)) hid
  | cast s diff =>
      obtain ⟨⟨_, ss⟩, hrun, rfl⟩ := Option.map_eq_some_iff.mp hs
      simp only [World.cast, Option.bind_eq_bind, Option.bind_eq_some_iff] at hrun
      obtain ⟨⟨g, a⟩, harch, ⟨w₁, target⟩, hcasted, hrun⟩ := hrun
      simp only [Op.freed, Op.released, harch, Option.bind_eq_bind, Option.bind_some]
      rcases getCasted_cases hcasted with ⟨rfl, rfl, hfrees⟩ | ⟨g', rfl, hget, hfrees⟩
      · rw [hfrees rfl]
        exact aged_release (castTo_none hrun)
      · rw [hfrees rfl]
        exact aged_castTo hget hrun
  | castType s type =>
      obtain ⟨⟨_, ss⟩, hrun, rfl⟩ := Option.map_eq_some_iff.mp hs
      simp only [World.castType, Option.bind_eq_bind, Option.bind_eq_some_iff] at hrun
      obtain ⟨⟨w₁, g⟩, hget, hrun⟩ := hrun
      exact aged_castTo hget hrun
  | getArchetype type =>
      obtain ⟨⟨_, g⟩, hrun, rfl⟩ := Option.map_eq_some_iff.mp hs
      change Aged [] _ _
      rw [(ents_of_getArchetype hrun).1]
      exact .refl _
  | query f =>
      obtain ⟨⟨_, q⟩, hrun, rfl⟩ := Option.map_eq_some_iff.mp hs
      obtain ⟨queries, rfl⟩ := query_eq_some hrun
      exact .refl _
  | write memory =>
      rw [← Option.some.inj hs]
      exact .refl _

/-! ## Runs -/

theorem released_valid {op : Op} {s : ChunkSlice} (hv : op.Valid w)
    (hs : op.released ctx w = some s) : w.ValidSlice s := by
  cases op with
  | destroy t =>
      simp only [Op.released, Option.bind_eq_bind, Option.bind_eq_some_iff] at hs
      obtain ⟨⟨g, a⟩, -, hs⟩ := hs
      split_ifs at hs
      exact Option.some.inj hs ▸ hv
  | cast t diff =>
      simp only [Op.released, Option.bind_eq_bind, Option.bind_eq_some_iff] at hs
      obtain ⟨⟨g, a⟩, -, hs⟩ := hs
      split_ifs at hs
      exact Option.some.inj hs ▸ hv
  | allocate => simp [Op.released] at hs
  | instantiate => simp [Op.released] at hs
  | castType => simp [Op.released] at hs
  | getArchetype => simp [Op.released] at hs
  | query => simp [Op.released] at hs
  | write => simp [Op.released] at hs

/-- A freed handle is that of a live entity, and its id is freed once by the call. -/
theorem mem_freed {op : Op} {e : Entity} (hv : op.Valid w)
    (htracks : Tracks w.ents w.memory w.store.Occupied) (he : e ∈ op.freed ctx w) :
    e.id < w.ents.size ∧ (w.ents.datas e.id).v = e.version ∧
      ((op.freed ctx w).map Entity.id).count e.id = 1 := by
  unfold Op.freed at he ⊢
  cases hs : op.released ctx w with
  | none => simp [hs] at he
  | some s =>
      simp only [hs] at he ⊢
      have hvalid := released_valid hv hs
      have hocc : ∀ k ∈ List.range s.count, w.store.Occupied s.c (s.start + k) := by
        intro k hk
        have hlt := List.mem_range.mp hk
        have hle := hvalid.le
        exact ⟨hvalid.typed, by omega⟩
      obtain ⟨k, hk, rfl⟩ := List.mem_map.mp he
      obtain ⟨hid, hentry⟩ := htracks.entry _ _ (hocc k hk)
      refine ⟨hid, by rw [hentry], ?_⟩
      have hnodup : ((w.handles s).map Entity.id).Nodup := by
        rw [World.handles, List.map_map]
        apply List.Nodup.map_on _ List.nodup_range
        intro i hi j hj hij
        have hsame := (htracks.unique (hocc i hi) (hocc j hj) hij).2
        omega
      exact List.count_eq_one_of_mem hnodup (List.mem_map.mpr ⟨_, he, rfl⟩)

/-- Calls satisfying `P` that lead from one world to another and free the handles `fs`
on the way. -/
inductive History (ctx : Context) (P : World → Op → Prop) : World → List Entity → World → Prop
  | refl (w : World) : History ctx P w [] w
  | step {w w' w'' : World} {fs : List Entity} {op : Op} {fuel : Nat}
      (h : History ctx P w fs w') (hv : op.Valid w') (hp : P w' op)
      (hs : op.run ctx fuel w' = some w'') : History ctx P w (fs ++ op.freed ctx w') w''

theorem History.aged {P : World → Op → Prop} (hP : ∀ w op, P w op → op.NoGroup ctx w)
    {fs : List Entity} (h : History ctx P w fs w') : Aged fs w.ents w'.ents := by
  induction h with
  | refl => exact .refl _
  | step _ _ hp hs ih => exact ih.trans (aged_step (hP _ _ hp) hs)

/-- The calls of a history in which no component is written over a handle. -/
abbrev Clean (ctx : Context) (w : World) (op : Op) : Prop :=
  op.NoGroup ctx w ∧ op.ClearOfHandles ctx w

theorem tracks_of_reachable (hctx : ctx.Built) (h : Reachable ctx (Clean ctx) w)
    (hsize : w.ents.size < 2 ^ 24) : Tracks w.ents w.memory w.store.Occupied := by
  have hsound : Sound ctx nowhere w := by
    refine h.invariant (sound_initial ctx) ?_
    intro w op fuel w' hv hp hs hw
    exact hw.step hctx hv hp.1 hp.2 hs
  exact (hsound.tracks hsize).mono fun c i hi => ⟨hi, not_false⟩

/-- Live entities have different handles, and what a call frees does not exist again
before its id was freed 254 times more. -/
theorem handles_of_reachable (hctx : ctx.Built) (h : Reachable ctx (Clean ctx) w) :
    (w.ents.size < 2 ^ 24 → ∀ c i d j, w.store.Occupied c i → w.store.Occupied d j →
      w.memory.entityAt c i = w.memory.entityAt d j → c = d ∧ i = j) ∧
    ∀ op fuel w₁ e fs w₂, op.Valid w → Clean ctx w op → op.run ctx fuel w = some w₁ →
      e ∈ op.freed ctx w → History ctx (Clean ctx) w₁ fs w₂ → w₂.ents.size < 2 ^ 24 →
      (fs.map Entity.id).count e.id < 254 → w₂.ents.exist e = false := by
  constructor
  · intro hsize c i d j hi hj hsame
    exact (tracks_of_reachable hctx h hsize).unique hi hj (by rw [hsame])
  · intro op fuel w₁ e fs w₂ hv hclean hs he hist hsize hfew
    have haged := (aged_step hclean.1 hs).trans (hist.aged fun _ _ hp => hp.1)
    obtain ⟨hid, hversion, hcount⟩ :=
      mem_freed hv (tracks_of_reachable hctx h (haged.size_le.trans_lt hsize)) he
    have hv₂ := haged.version e.id hid
    rw [List.map_append, List.count_append, hcount, hversion] at hv₂
    have hne := Entity.nextVersion_iterate_ne (n := 1 + (fs.map Entity.id).count e.id) e.version_lt
      (by omega) (by omega)
    have hbeq : (e.version == (w₂.ents.datas e.id).v) = false := by
      rw [beq_eq_false_iff_ne, hv₂]
      exact hne.symm
    rw [Entities.exist, hbeq, Bool.and_false]

/-- Two entities, the second of which is destroyed; then one more takes its id. -/
theorem handles_recycled : ∃ w w₁ w₂,
    runAll narrowWide 2 blank [.allocate { types := [4] } 2] = some w ∧
    Op.run narrowWide 2 w (.destroy { c := 0, start := 1, count := 1 }) = some w₁ ∧
    Op.run narrowWide 2 w₁ (.allocate { types := [4] } 1) = some w₂ ∧
    ⟨256⟩ ∈ Op.freed narrowWide w (.destroy { c := 0, start := 1, count := 1 }) ∧
    w₂.ents.exist ⟨256⟩ = false := by
  have hfacts : ((runAll narrowWide 2 blank [.allocate { types := [4] } 2]).bind fun w =>
      (Op.run narrowWide 2 w (.destroy { c := 0, start := 1, count := 1 })).bind fun w₁ =>
        (Op.run narrowWide 2 w₁ (.allocate { types := [4] } 1)).map fun w₂ =>
          (w.store.type 0, w.store.count 0,
            (w.store.archetype 0).map fun a => a.index narrowWide.groupId,
            Op.freed narrowWide w (.destroy { c := 0, start := 1, count := 1 }),
            w₂.ents.size)) = some (some 0, 2, some invalidIndex, [⟨256⟩], 2) := by decide +kernel
  obtain ⟨w, hw, hfacts⟩ := Option.bind_eq_some_iff.mp hfacts
  obtain ⟨w₁, hw₁, hfacts⟩ := Option.bind_eq_some_iff.mp hfacts
  obtain ⟨w₂, hw₂, hfacts⟩ := Option.map_eq_some_iff.mp hfacts
  simp only [Prod.mk.injEq] at hfacts
  obtain ⟨htype, hcount, hgroup, hfreed, hsize⟩ := hfacts
  have hmem : (⟨256⟩ : Entity) ∈
      Op.freed narrowWide w (.destroy { c := 0, start := 1, count := 1 }) := by
    rw [hfreed]
    exact List.mem_singleton_self _
  have hreach : Reachable narrowWide (Clean narrowWide) w := by
    refine (reachable_blank narrowWide _).runAll (fun op hop v => ?_) hw
    obtain rfl := List.mem_singleton.mp hop
    exact ⟨trivial, trivial, trivial⟩
  have hhist : History narrowWide (Clean narrowWide) w₁ [] w₂ := by
    have hvalid : (Op.allocate { types := [4] } 1).Valid w₁ := trivial
    have hclean : Clean narrowWide w₁ (.allocate { types := [4] } 1) := ⟨trivial, trivial⟩
    exact (History.refl w₁).step hvalid hclean hw₂
  refine ⟨w, w₁, w₂, hw, hw₁, hw₂, hmem, ?_⟩
  refine (handles_of_reachable built_narrowWide hreach).2
    (.destroy { c := 0, start := 1, count := 1 }) 2 w₁ ⟨256⟩ [] w₂ ?_ ⟨?_, trivial⟩ hw₁ hmem hhist
    (by omega) (by simp)
  · exact ⟨by simp [htype], by simp, by simp [hcount]⟩
  · intro g a harch
    obtain ⟨hc, ha⟩ := archetypeOf_eq_some.mp harch
    obtain rfl : g = 0 := Option.some.inj (hc.symm.trans htype)
    rw [ha] at hgroup
    exact Option.some.inj hgroup

/-- After the instance of `smallThenFast`, a slot of the fast chunk holds the handle of
the first entity. -/
theorem not_handles_instantiate : ∃ w w', smallThenFast = some w ∧
    Op.run narrowWide 2 w (.instantiate ⟨0⟩ 1) = some w' ∧
    Reachable narrowWide (fun w op => op.NoGroup narrowWide w) w' ∧ w'.ents.size < 2 ^ 24 ∧
    w'.store.Occupied 0 0 ∧ w'.store.Occupied 1 3 ∧
    w'.memory.entityAt 0 0 = w'.memory.entityAt 1 3 := by
  obtain ⟨w, hw, hreach⟩ := reachable_smallThenFast (P := fun w op => op.NoGroup narrowWide w)
    fun _ _ _ => trivial
  have hgroup : smallThenFast.bind (fun w => w.getComponentRo ⟨0⟩ narrowWide.groupId) =
      some none := by decide +kernel
  have hfacts : (smallThenFast.bind fun w =>
      Op.run narrowWide 2 w (.instantiate ⟨0⟩ 1)).map (fun w =>
        ([w.store.type 0, w.store.type 1], [w.ents.size, w.store.count 0, w.store.count 1,
          (w.memory.entityAt 0 0).value, (w.memory.entityAt 1 3).value])) =
      some ([some 0, some 0], [8, 2, 6, 0, 0]) := by decide +kernel
  rw [hw, Option.bind_some] at hgroup hfacts
  obtain ⟨w', hw', hfacts⟩ := Option.map_eq_some_iff.mp hfacts
  simp only [Prod.mk.injEq, List.cons.injEq, and_true] at hfacts
  obtain ⟨⟨htype₀, htype₁⟩, hsize, hcount₀, hcount₁, hentity₀, hentity₁⟩ := hfacts
  refine ⟨w, w', hw, hw', hreach.step (.instantiate ..) trivial hgroup hw', by omega, ?_, ?_, ?_⟩
  · exact ⟨by simp [htype₀], by omega⟩
  · exact ⟨by simp [htype₁], by omega⟩
  · rw [Entity.mk.injEq, hentity₀, hentity₁]

end World

end Dots

import Dots.Codebase.Recording
import Dots.Database.Births
import Dots.Database.Instances
import Dots.Database.Progress

/-!
# The entities a command buffer makes

`execute` goes through the recorded types of each local and then through the recorded sources,
and writes the entities it makes into a table, under the ids of the handles. Its loops that
count how many equal commands follow each other do not move: they end at once, or never.
-/

namespace Dots

open Library

namespace Pipeline

variable {ctx : Context} {p p' : Pipeline} {log : SyncLog} {ss : List ChunkSlice} {fuel n : Nat}

/-! ## Calls of the world -/

/-- `pipeline::allocate` is `world::allocate`. -/
theorem allocate_world {type : EntityType} (hs : p.allocate ctx fuel type n = some (p', ss, log)) :
    p.world.allocate ctx fuel type n = some (p'.world, ss) := by
  simp only [Pipeline.allocate, Pipeline.allocateIn, Option.bind_eq_bind,
    Option.bind_eq_some_iff] at hs
  obtain ⟨⟨w, g⟩, hgot, ⟨p₁, log₁⟩, hsync, ⟨w', ss'⟩, hloop, hs⟩ := hs
  simp only [Option.some.injEq, Prod.mk.injEq] at hs
  obtain ⟨rfl, rfl, -⟩ := hs
  have hworld : p₁.world = w := (syncArchetype_world hsync).1
  rw [hworld] at hloop
  simp only [World.allocate, hgot, hloop, Option.bind_eq_bind, Option.bind_some]
  rfl

/-- The slice of an entity that exists is in a chunk of its archetype. -/
theorem asSlice_of_archetypeIdOf {w : World} {e : Entity} {g : ArchetypeId}
    (hg : w.store.archetypeIdOf w.ents e = some g) :
    ∃ s, w.asSlice e = some s ∧ w.store.type s.c = some g := by
  simp only [Store.archetypeIdOf] at hg
  split_ifs at hg with hexist
  split at hg
  · rename_i c hc
    have hid : e.id < w.ents.size := by
      simp only [Entities.exist, Bool.and_eq_true, decide_eq_true_eq] at hexist
      exact hexist.1
    refine ⟨{ c := c, start := (w.ents.datas e.id).i, count := 1 }, ?_, hg⟩
    simp only [World.asSlice, World.entrySlice, if_pos hid, hc]
  · simp at hg

/-- Without a group `pipeline::instantiate` is `world::instantiate`: the archetype it looks up
while it waits is found once more. -/
theorem instantiate_world {src : Entity} (hw : World.Sound ctx World.nowhere p.world)
    (hgroup : p.world.getComponentRo src ctx.groupId = some none)
    (hs : p.instantiate ctx fuel src n = some (p', ss, log)) :
    p.world.instantiate ctx fuel src n = some (p'.world, ss) := by
  simp only [Pipeline.instantiate, hgroup, Pipeline.syncInstance, Option.bind_eq_bind,
    Option.bind_some, Option.bind_eq_some_iff] at hs
  obtain ⟨⟨p₁, log₁⟩, ⟨g, hg, ⟨p₂, log₂⟩, hsync₂, a, ha, ⟨w, target⟩, hcasted, ⟨p₃, log₃⟩, hsync₃,
    heq⟩, ⟨w', ss'⟩, hrun, hs⟩ := hs
  simp only [Option.some.injEq, Prod.mk.injEq] at hs heq
  obtain ⟨rfl, -⟩ := heq
  obtain ⟨rfl, rfl, -⟩ := hs
  obtain ⟨hw₂, -⟩ := syncArchetype_world hsync₂
  have hw₃ : p₃.world = w := (syncArchetype_world hsync₃).1
  rw [hw₂] at ha hcasted
  rw [hw₃] at hrun
  obtain ⟨-, hext, hents, -, -⟩ := hw.getCasted hcasted
  obtain ⟨s, hslice, hc⟩ := asSlice_of_archetypeIdOf hg
  have hslice' : w.asSlice src = some s := by
    rw [← hslice, World.asSlice, World.asSlice, World.entrySlice, World.entrySlice, hents]
  have harch : p.world.archetypeOf s.c = some (g, a) := World.archetypeOf_eq_some.mpr ⟨hc, ha⟩
  have harch' : w.archetypeOf s.c = some (g, a) :=
    World.archetypeOf_eq_some.mpr ⟨hext.type ▸ hc, hext.archetype g a ha⟩
  simp only [World.instantiateSingle, hslice', harch', World.getCasted_again hcasted,
    Option.bind_eq_bind, Option.bind_some] at hrun
  simp only [World.instantiate, hgroup, World.instantiateSingle, hslice, harch, hcasted,
    Option.bind_eq_bind, Option.bind_some]
  exact hrun

end Pipeline

/-! ## One call for each command -/

namespace Creation

/-- The call for the command alone, and the handles of what it made. -/
def run (ctx : Context) (fuel : Nat) (p : Pipeline) : Creation → Option (Pipeline × List Entity)
  | .allocate type =>
      (p.allocate ctx fuel type 1).map fun r => (r.1, r.2.1.flatMap r.1.world.handles)
  | .instantiate source =>
      (p.instantiate ctx fuel source 1).map fun r => (r.1, r.2.1.flatMap r.1.world.handles)

/-- The type of what it makes. -/
def type (ctx : Context) (w : World) : Creation → Option EntityType
  | .allocate type => some type
  | .instantiate source => do
      let s ← w.asSlice source
      let (_, a) ← w.archetypeOf s.c
      some (World.castedType ctx a {} true)

def op : Creation → Op
  | .allocate type => .allocate type 1
  | .instantiate source => .instantiate source 1

/-- What the commands ask of a world: types in order, and sources that own no groups, can be
copied, and have their columns where the chunk of the instance has them. -/
def Ready (ctx : Context) (w : World) : Creation → Prop
  | .allocate type => SortedTypes type.types
  | .instantiate source => (Op.instantiate source 1).NoGroup ctx w ∧ w.ClearOfHandles ctx source 1 ∧
      ∃ c i g a, w.Instantiable ctx source c i g a 1 ∧ w.SameOffsets ctx c a 1

/-- An instance has the components of its source. -/
def Copied (ctx : Context) (w : World) (e : Entity) (w' : World) : Creation → Prop
  | .allocate _ => True
  | .instantiate source => ∃ c i g a ss, w.Found source c i ∧ w.archetypeOf c = some (g, a) ∧
      ss.flatMap w'.handles = [e] ∧ World.InstancesOf ctx w.whole c i a 1 ss w'.whole

end Creation

/-- The calls for the commands, one after the other. -/
def createEach (ctx : Context) (fuel : Nat) : List (Entity × Creation) → Pipeline → Option Pipeline
  | [], p => some p
  | (_, c) :: cs, p => do
      let (p, _) ← c.run ctx fuel p
      createEach ctx fuel cs p

/-- Ids fit their 24 bits, and each command finds what it asks for when its turn comes and lays
out what it builds. -/
def ReadyAlong (ctx : Context) (fuel : Nat) : List (Entity × Creation) → Pipeline → Prop
  | [], p => p.world.ents.size < 2 ^ 24
  | (_, c) :: cs, p => p.world.ents.size < 2 ^ 24 ∧
      (c.Ready ctx p.world ∧ c.op.LaysOut ctx p.world) ∧
      ∀ p₁ es, c.run ctx fuel p = some (p₁, es) → ReadyAlong ctx fuel cs p₁

/-- The calls for the commands, one after the other, each make one entity and no other, of its
type or a copy of its source: the one that stands next to the handle of the command in `made`. -/
inductive Made (ctx : Context) (fuel : Nat) :
    List (Entity × Creation) → Pipeline → List (Entity × Entity) → Pipeline → Prop
  | nil (p : Pipeline) : Made ctx fuel [] p [] p
  | cons {t e : Entity} {c : Creation} {type : EntityType} {p p₁ p' : Pipeline}
      {cs : List (Entity × Creation)} {made : List (Entity × Entity)}
      (hrun : c.run ctx fuel p = some (p₁, [e])) (htype : c.type ctx p.world = some type)
      (hborn : World.Born p.world e type p₁.world) (hcopy : c.Copied ctx p.world e p₁.world)
      (h : Made ctx fuel cs p₁ made p') : Made ctx fuel ((t, c) :: cs) p ((t, e) :: made) p'

section Made

variable {ctx : Context} {p p' : Pipeline} {fuel : Nat} {c : Creation} {es : List Entity}
  {cs cs' : List (Entity × Creation)} {made : List (Entity × Entity)} {e : Entity}

/-- No call returns without fuel. -/
theorem Creation.run_zero (c : Creation) : c.run ctx 0 p = none := by
  cases c with
  | allocate type =>
      have hnone : p.allocate ctx 0 type 1 = none := by
        simp [Pipeline.allocate, Pipeline.allocateIn, World.allocateLoop]
      simp [Creation.run, hnone]
  | instantiate source =>
      have hnone : p.instantiate ctx 0 source 1 = none := by
        rw [Option.eq_none_iff_forall_ne_some]
        rintro ⟨p', ss, log⟩ hs
        simp only [Pipeline.instantiate, Option.bind_eq_bind, Option.bind_eq_some_iff] at hs
        obtain ⟨group, -, hs⟩ := hs
        cases group with
        | none =>
            simp only [Option.bind_eq_some_iff, World.instantiateSingle, Option.bind_eq_bind] at hs
            obtain ⟨⟨p₁, log₁⟩, -, ⟨w, ss'⟩, ⟨s, -, ⟨g, a⟩, -, ⟨w₁, target⟩, -, hrun⟩, -⟩ := hs
            cases target <;> simp [World.instantiateLoop] at hrun
        | some place =>
            simp [World.instantiateGroup, World.flattenGroup] at hs
      simp [Creation.run, hnone]

theorem Made.fuel_pos {x : Entity × Creation} {cs : List (Entity × Creation)}
    (h : Made ctx fuel (x :: cs) p made p') : ∃ n, fuel = n + 1 := by
  cases h with
  | cons hrun htype hborn hcopy h =>
      cases fuel with
      | zero => simp [Creation.run_zero] at hrun
      | succ n => exact ⟨n, rfl⟩

theorem Made.createEach (h : Made ctx fuel cs p made p') :
    createEach ctx fuel cs p = some p' := by
  induction h with
  | nil p => rfl
  | cons hrun htype hborn hcopy h ih =>
      simp only [Dots.createEach, hrun, ih, Option.bind_eq_bind, Option.bind_some]

theorem Made.handles (h : Made ctx fuel cs p made p') :
    made.map Prod.fst = cs.map Prod.fst := by
  induction h with
  | nil p => rfl
  | cons hrun htype hborn hcopy h ih => rw [List.map_cons, List.map_cons, ih]

theorem Made.split (h : Made ctx fuel (cs ++ cs') p made p') : ∃ p₁ made₁ made₂,
    made = made₁ ++ made₂ ∧ Made ctx fuel cs p made₁ p₁ ∧ Made ctx fuel cs' p₁ made₂ p' := by
  induction cs generalizing p made with
  | nil => exact ⟨p, [], made, rfl, .nil p, h⟩
  | cons x cs ih =>
      cases h with
      | cons hrun htype hborn hcopy h =>
          obtain ⟨p₁, made₁, made₂, rfl, h₁, h₂⟩ := ih h
          exact ⟨p₁, _, made₂, rfl, .cons hrun htype hborn hcopy h₁, h₂⟩

/-- All of them are new, and nothing else is. -/
theorem Made.alive (h : Made ctx fuel cs p made p') (e : Entity) :
    p'.world.Alive e ↔ p.world.Alive e ∨ ∃ x ∈ made, x.2 = e := by
  induction h with
  | nil p => simp
  | @cons t e' c type p p₁ p' cs made hrun htype hborn hcopy h ih =>
      rw [ih, List.exists_mem_cons_iff]
      constructor
      · rintro (halive | hmade)
        · rcases hborn.only e halive with hold | rfl
          · exact Or.inl hold
          · exact Or.inr (Or.inl rfl)
        · exact Or.inr (Or.inr hmade)
      · rintro (hold | rfl | hmade)
        · exact Or.inl (hborn.alive e hold)
        · obtain ⟨a, -, c, i, g, hf, -⟩ := hborn.lives
          exact Or.inl ⟨c, i, hf⟩
        · exact Or.inr hmade

theorem Made.new (h : Made ctx fuel cs p made p') {x : Entity × Entity} (hx : x ∈ made) :
    ¬ p.world.Alive x.2 := by
  induction h with
  | nil p => simp at hx
  | cons hrun htype hborn hcopy h ih =>
      rcases List.mem_cons.mp hx with rfl | hx
      · exact hborn.new
      · exact fun hold => ih hx (hborn.alive _ hold)

theorem Made.nodup (h : Made ctx fuel cs p made p') : (made.map Prod.snd).Nodup := by
  induction h with
  | nil p => exact List.nodup_nil
  | cons hrun htype hborn hcopy h ih =>
      refine List.nodup_cons.mpr ⟨fun hmem => ?_, ih⟩
      obtain ⟨x, hx, heq⟩ := List.mem_map.mp hmem
      obtain ⟨a, -, c, i, g, hf, -⟩ := hborn.lives
      exact h.new hx (heq ▸ ⟨c, i, hf⟩)

end Made

/-! ## Orderly calls -/

section Ready

variable {ctx : Context} {p p' : Pipeline} {fuel : Nat} {c : Creation} {es : List Entity}
  {cs : List (Entity × Creation)} {e : Entity}

theorem Creation.run_world (hw : World.Sound ctx World.nowhere p.world)
    (hp : c.op.Orderly ctx p.world) (hs : c.run ctx fuel p = some (p', es)) :
    c.op.run ctx fuel p.world = some p'.world := by
  cases c with
  | allocate type =>
      obtain ⟨⟨p₁, ss, log⟩, hrun, heq⟩ := Option.map_eq_some_iff.mp hs
      obtain ⟨rfl, -⟩ := Prod.mk.inj heq
      simp only [Creation.op, Op.run, Pipeline.allocate_world hrun, Option.map_some]
  | instantiate source =>
      obtain ⟨⟨p₁, ss, log⟩, hrun, heq⟩ := Option.map_eq_some_iff.mp hs
      obtain ⟨rfl, -⟩ := Prod.mk.inj heq
      simp only [Creation.op, Op.run, Pipeline.instantiate_world hw hp.noGroup hrun,
        Option.map_some]

/-- An orderly call makes one entity. -/
theorem Creation.born (hctx : ctx.Built) (hreg : ctx.tracks.length < 2 ^ 30)
    (hw : World.Orderly ctx p.world) (hp : c.op.Orderly ctx p.world)
    (hs : c.run ctx fuel p = some (p', es)) (hsize : p'.world.ents.size < 2 ^ 24) :
    ∃ e type, es = [e] ∧ c.type ctx p.world = some type ∧
      World.Born p.world e type p'.world := by
  cases c with
  | allocate type =>
      obtain ⟨⟨p₁, ss, log⟩, hrun, heq⟩ := Option.map_eq_some_iff.mp hs
      obtain ⟨rfl, rfl⟩ := Prod.mk.inj heq
      obtain ⟨-, e, hone, hborn⟩ :=
        World.born_allocate hctx hreg hw hp.keys (Pipeline.allocate_world hrun) hsize
      exact ⟨e, type, hone, rfl, hborn⟩
  | instantiate source =>
      obtain ⟨⟨p₁, ss, log⟩, hrun, heq⟩ := Option.map_eq_some_iff.mp hs
      obtain ⟨rfl, rfl⟩ := Prod.mk.inj heq
      obtain ⟨-, s, g, a, e, hsrc, harch, hone, hborn⟩ := World.born_instantiate hctx hreg hw hp
        (Pipeline.instantiate_world hw.sound hp.noGroup hrun) hsize
      refine ⟨e, _, hone, ?_, hborn⟩
      simp only [Creation.type, hsrc, harch, Option.bind_eq_bind, Option.bind_some]

theorem Creation.Ready.orderly (h : c.Ready ctx p.world) : c.op.Orderly ctx p.world := by
  cases c with
  | allocate type => exact ⟨trivial, trivial, trivial, h⟩
  | instantiate source => exact ⟨h.1, h.2.1, trivial, trivial⟩

theorem ReadyAlong.start (h : ReadyAlong ctx fuel cs p) : p.world.ents.size < 2 ^ 24 := by
  cases cs with
  | nil => exact h
  | cons x cs => exact h.1

/-- There is one pipeline after each call. -/
theorem ReadyAlong.cons {t : Entity} (hsize : p.world.ents.size < 2 ^ 24)
    (hc : c.Ready ctx p.world) (hlays : c.op.LaysOut ctx p.world)
    (hs : c.run ctx fuel p = some (p', es)) (h : ReadyAlong ctx fuel cs p') :
    ReadyAlong ctx fuel ((t, c) :: cs) p := by
  refine ⟨hsize, ⟨hc, hlays⟩, fun p₁ es₁ hs₁ => ?_⟩
  obtain ⟨rfl, -⟩ := Prod.mk.inj (Option.some.inj (hs.symm.trans hs₁))
  exact h

/-- One call: the world stays in order. -/
theorem Creation.reachable (hctx : ctx.Built) (hreg : ctx.tracks.length < 2 ^ 30)
    (hreach : Reachable ctx (fun w op => op.Orderly ctx w ∧ op.LaysOut ctx w) p.world)
    (hready : c.Ready ctx p.world) (hlays : c.op.LaysOut ctx p.world)
    (hs : c.run ctx fuel p = some (p', es)) :
    Reachable ctx (fun w op => op.Orderly ctx w ∧ op.LaysOut ctx w) p'.world := by
  have hw := World.orderly_of_reachable hctx hreg (hreach.mono fun _ _ h => h.1)
  have hv : c.op.Valid p.world := by
    cases c <;> trivial
  exact hreach.step c.op hv ⟨hready.orderly, hlays⟩
    (Creation.run_world hw.sound hready.orderly hs)

/-- An instance is a copy. -/
theorem Creation.copied (hctx : ctx.Built) (hreg : ctx.tracks.length < 2 ^ 30)
    (hreach : Reachable ctx (fun w op => op.Orderly ctx w ∧ op.LaysOut ctx w) p.world)
    (hready : c.Ready ctx p.world) (hlays : c.op.LaysOut ctx p.world)
    (hs : c.run ctx fuel p = some (p', [e])) (hsize : p'.world.ents.size < 2 ^ 24) :
    c.Copied ctx p.world e p'.world := by
  cases c with
  | allocate type => trivial
  | instantiate source =>
      obtain ⟨hgroup, -, c, i, g, a, hsrc, hoffsets⟩ := hready
      obtain ⟨⟨p₁, ss, log⟩, hrun, heq⟩ := Option.map_eq_some_iff.mp hs
      obtain ⟨rfl, hone⟩ := Prod.mk.inj heq
      have hw := World.orderly_of_reachable hctx hreg (hreach.mono fun _ _ h => h.1)
      have hcall := Pipeline.instantiate_world hw.sound hgroup hrun
      have hnone : p.world.getComponentRo source ctx.groupId = some none := hgroup
      simp only [World.instantiate, hnone, Option.bind_eq_bind, Option.bind_some] at hcall
      exact ⟨c, i, g, a, ss, hsrc.found, hsrc.archetype, hone,
        World.instantiateSingle_copies hctx hreg hreach hsrc Nat.one_pos hoffsets hlays hcall hsize⟩

/-- The calls make one entity each. -/
theorem made_of_createEach (hctx : ctx.Built) (hreg : ctx.tracks.length < 2 ^ 30)
    (hreach : Reachable ctx (fun w op => op.Orderly ctx w ∧ op.LaysOut ctx w) p.world)
    (hready : ReadyAlong ctx fuel cs p) (hs : createEach ctx fuel cs p = some p') :
    ∃ made, Made ctx fuel cs p made p' := by
  induction cs generalizing p with
  | nil =>
      obtain rfl := Option.some.inj hs
      exact ⟨[], .nil p⟩
  | cons x cs ih =>
      obtain ⟨t, c⟩ := x
      obtain ⟨-, ⟨hc, hlays⟩, hnext⟩ := hready
      obtain ⟨⟨p₁, es⟩, hrun, hs⟩ := Option.bind_eq_some_iff.mp hs
      have hrest := hnext p₁ es hrun
      have hw := World.orderly_of_reachable hctx hreg (hreach.mono fun _ _ h => h.1)
      obtain ⟨e, type, rfl, htype, hborn⟩ :=
        Creation.born hctx hreg hw hc.orderly hrun hrest.start
      obtain ⟨made, hmade⟩ := ih (Creation.reachable hctx hreg hreach hc hlays hrun) hrest hs
      exact ⟨_, .cons hrun htype hborn
        (Creation.copied hctx hreg hreach hc hlays hrun hrest.start) hmade⟩

/-- A command for a type without metatypes, of which every new chunk has room for one entity. -/
def Creation.Plain (ctx : Context) (c : Creation) : Prop :=
  ∃ type a, c = .allocate type ∧ type.metatypes = [] ∧ constructArchetype ctx type = some a ∧
    Store.RoomFor a 1

theorem Creation.Plain.returns {n : Nat} (h : c.Plain ctx) (hhook : p.Hooked)
    (hw : World.Orderly ctx p.world) (hsize : p.world.ents.size < 2 ^ 24) :
    ∃ p' es, c.run ctx (n + 2) p = some (p', es) ∧ p'.Hooked := by
  obtain ⟨type, a, rfl, hmetas, ha, hroom⟩ := h
  obtain ⟨w, g, hget⟩ := World.getArchetype_returns
    (Store.Obtainable.of_metatypes p.world.store p.world.ents hmetas ha)
  obtain ⟨st, hst, rfl⟩ := World.getArchetype_eq_some hget
  obtain ⟨hl₁, -⟩ := hw.listed.getArchetype hst
  obtain ⟨-, -, b, hb, htype⟩ := hw.listed.toWf.getArchetype hst
  have hbuilt := (hl₁.built g b hb).2
  rw [htype, ha] at hbuilt
  obtain rfl := Option.some.inj hbuilt
  have hhook₁ : (p.withWorld { p.world with store := st }).Hooked :=
    hhook.withWorld (Store.renewed_getArchetype hst)
  obtain ⟨p₁, log, hsync⟩ := hhook₁.syncArchetype_returns hb
  have hfuel : 1 < n + 2 := by omega
  obtain ⟨⟨w', ss⟩, hloop⟩ := World.allocateLoop_returns (w := { p.world with store := st })
    hl₁ hb hroom ((hw.sound.tracks hsize).poppable hsize) hfuel
  have hcall : p.allocate ctx (n + 2) type 1 = some (p₁.withWorld w', ss, log) := by
    simp only [Pipeline.allocate, hget, Pipeline.allocateIn, hsync, Option.bind_eq_bind,
      Option.bind_some, (Pipeline.syncArchetype_world hsync).1]
    exact Option.bind_eq_some_iff.mpr ⟨_, hloop, rfl⟩
  exact ⟨_, _, congrArg (Option.map _) hcall, hhook.allocate hcall⟩

/-- Such commands are served. -/
theorem createEach_returns {n : Nat} (hctx : ctx.Built) (hreg : ctx.tracks.length < 2 ^ 30)
    (hreach : Reachable ctx (fun w op => op.Orderly ctx w ∧ op.LaysOut ctx w) p.world)
    (hready : ReadyAlong ctx (n + 2) cs p) (hhook : p.Hooked) (hplain : ∀ x ∈ cs, x.2.Plain ctx) :
    ∃ p', createEach ctx (n + 2) cs p = some p' := by
  induction cs generalizing p with
  | nil => exact ⟨p, rfl⟩
  | cons x cs ih =>
      obtain ⟨t, c⟩ := x
      obtain ⟨hsize, ⟨hc, hlays⟩, hnext⟩ := hready
      have hw := World.orderly_of_reachable hctx hreg (hreach.mono fun _ _ h => h.1)
      obtain ⟨p₁, es, hrun, hhook₁⟩ := (hplain _ List.mem_cons_self).returns (n := n) hhook hw hsize
      obtain ⟨p', hrest⟩ := ih (Creation.reachable hctx hreg hreach hc hlays hrun)
        (hnext p₁ es hrun) hhook₁ fun x hx => hplain x (List.mem_cons_of_mem _ hx)
      exact ⟨p', by simp only [createEach, hrun, hrest, Option.bind_eq_bind, Option.bind_some]⟩

end Ready

/-! ## The loops of `execute` -/

namespace CommandBuffer

variable {ctx : Context} {b : CommandBuffer} {l : Local} {p p' : Pipeline} {fuel count : Nat}
  {newEnts newEnts' : List Entity} {made : List (Entity × Entity)} {e : Entity} {i : Nat}

/-- No two commands next to each other are for the same type, or for the same source. -/
def Distinct (b : CommandBuffer) : Prop :=
  ∀ l ∈ b.locals, (l.allocates.map fun cmd => cmd.type.read l.scratch).IsChain (· ≠ ·) ∧
    (l.instantiates.map CmdInstantiate.source).IsChain (· ≠ ·)

/-- The writes to `newEnts`. -/
def entries (made : List (Entity × Entity)) : List (Nat × Entity) := made.map fun x => (x.1.id, x.2)

/-- On equal commands the count goes on for ever. -/
theorem countEqual_true (fuel count : Nat) : countEqual true fuel count = none := by
  induction fuel generalizing count with
  | zero => rfl
  | succ fuel ih => exact ih (count + 1)

theorem countEqual_eq_some {same : Bool} {count' : Nat}
    (hs : countEqual same fuel count = some count') : same = false := by
  cases same with
  | false => rfl
  | true => simp [countEqual_true] at hs

theorem countEqual_false (fuel count : Nat) : countEqual false (fuel + 1) count = some count := by
  simp [countEqual]

/-- One entity, for the command at hand. -/
theorem assign_one {entities : List Entity} {t : Entity} (he : entities[i]? = some t)
    (hid : t.id < newEnts.length) (es : List Nat) (e : Entity) :
    assign entities (i :: es) [e] newEnts = some (newEnts.set t.id e) := by
  simp [assign, he, hid]

/-- Where neighbours differ, the loop over `loc.allocates` makes one call for each command. -/
theorem createAllocates_of_made {cmds : List CmdAllocate}
    (hplaced : ∀ cmd ∈ cmds, l.entities[cmd.e]? = some (l.handle cmd.e))
    (hchain : (cmds.map fun cmd => cmd.type.read l.scratch).IsChain (· ≠ ·))
    (hmade : Made ctx fuel (cmds.map fun cmd =>
      (l.handle cmd.e, .allocate (cmd.type.read l.scratch))) p made p')
    (hids : ∀ x ∈ made, x.1.id < newEnts.length) :
    createAllocates ctx fuel l cmds p newEnts = some (p', fill (entries made) newEnts) := by
  induction cmds generalizing p made newEnts with
  | nil =>
      cases hmade
      rfl
  | cons cmd rest ih =>
      obtain ⟨n, hfuel⟩ := hmade.fuel_pos
      cases hmade with
      | @cons _ e _ _ _ p₁ _ _ made hrun htype hborn hcopy h =>
          obtain ⟨⟨_, ss, log⟩, hcall, heq⟩ := Option.map_eq_some_iff.mp hrun
          obtain ⟨rfl, hone⟩ := Prod.mk.inj heq
          have hsame : (rest.head?.any fun c =>
              c.type.read l.scratch = cmd.type.read l.scratch) = false := by
            cases rest with
            | nil => rfl
            | cons next rest =>
                have hne := (List.isChain_cons_cons.mp hchain).1
                simpa using fun h => hne h.symm
          have hid := hids _ List.mem_cons_self
          have hassign := assign_one (hplaced cmd List.mem_cons_self) hid (rest.map CmdAllocate.e) e
          have hids' : ∀ x ∈ made, x.1.id < (newEnts.set (l.handle cmd.e).id e).length := by
            intro x hx
            rw [List.length_set]
            exact hids x (List.mem_cons_of_mem _ hx)
          have hrest := ih (fun c hc => hplaced c (List.mem_cons_of_mem _ hc)) hchain.tail h hids'
          have hcount : countEqual false fuel 1 = some 1 := hfuel ▸ countEqual_false n 1
          simp only [createAllocates, hsame, hcount, hcall, hone, List.map_cons, hassign,
            Option.bind_eq_bind, Option.bind_some]
          exact hrest

/-- So does the loop over `loc.instantiates`. -/
theorem createInstances_of_made {cmds : List CmdInstantiate}
    (hplaced : ∀ cmd ∈ cmds, l.entities[cmd.e]? = some (l.handle cmd.e))
    (hchain : (cmds.map CmdInstantiate.source).IsChain (· ≠ ·))
    (hmade : Made ctx fuel (cmds.map fun cmd =>
      (l.handle cmd.e, .instantiate cmd.source)) p made p')
    (hids : ∀ x ∈ made, x.1.id < newEnts.length) :
    createInstances ctx fuel l cmds p newEnts = some (p', fill (entries made) newEnts) := by
  induction cmds generalizing p made newEnts with
  | nil =>
      cases hmade
      rfl
  | cons cmd rest ih =>
      obtain ⟨n, hfuel⟩ := hmade.fuel_pos
      cases hmade with
      | @cons _ e _ _ _ p₁ _ _ made hrun htype hborn hcopy h =>
          obtain ⟨⟨_, ss, log⟩, hcall, heq⟩ := Option.map_eq_some_iff.mp hrun
          obtain ⟨rfl, hone⟩ := Prod.mk.inj heq
          have hsame : (rest.head?.any fun c => c.source = cmd.source) = false := by
            cases rest with
            | nil => rfl
            | cons next rest =>
                have hne := (List.isChain_cons_cons.mp hchain).1
                simpa using fun h => hne h.symm
          have hid := hids _ List.mem_cons_self
          have hassign := assign_one (hplaced cmd List.mem_cons_self) hid
            (rest.map CmdInstantiate.e) e
          have hids' : ∀ x ∈ made, x.1.id < (newEnts.set (l.handle cmd.e).id e).length := by
            intro x hx
            rw [List.length_set]
            exact hids x (List.mem_cons_of_mem _ hx)
          have hrest := ih (fun c hc => hplaced c (List.mem_cons_of_mem _ hc)) hchain.tail h hids'
          have hcount : countEqual false fuel 1 = some 1 := hfuel ▸ countEqual_false n 1
          simp only [createInstances, hsame, hcount, hcall, hone, List.map_cons, hassign,
            Option.bind_eq_bind, Option.bind_some]
          exact hrest

/-- The loop over the locals makes the calls of each. -/
theorem foldlM_of_made {f : Pipeline × List Entity → Local → Option (Pipeline × List Entity)}
    {cs : Local → List (Entity × Creation)} {locals : List Local}
    (hf : ∀ l ∈ locals, ∀ p made p' newEnts, Made ctx fuel (cs l) p made p' →
      (∀ x ∈ made, x.1.id < newEnts.length) →
      f (p, newEnts) l = some (p', fill (entries made) newEnts))
    (hmade : Made ctx fuel (locals.flatMap cs) p made p')
    (hids : ∀ x ∈ made, x.1.id < newEnts.length) :
    locals.foldlM f (p, newEnts) = some (p', fill (entries made) newEnts) := by
  induction locals generalizing p made newEnts with
  | nil =>
      cases hmade
      rfl
  | cons l locals ih =>
      obtain ⟨p₁, made₁, made₂, rfl, h₁, h₂⟩ := hmade.split
      have hfirst := hf l List.mem_cons_self p made₁ p₁ newEnts h₁
        fun x hx => hids x (List.mem_append_left _ hx)
      have hids₂ : ∀ x ∈ made₂, x.1.id < (fill (entries made₁) newEnts).length := by
        intro x hx
        rw [length_fill]
        exact hids x (List.mem_append_right _ hx)
      have hrest := ih (fun l' hl' => hf l' (List.mem_cons_of_mem _ hl')) h₂ hids₂
      rw [List.foldlM_cons, hfirst, Option.bind_eq_bind, Option.bind_some, hrest, entries, entries,
        entries, List.map_append, fill_append]

theorem create_of_made (hplaced : ∀ l ∈ b.locals, l.Placed) (hdistinct : b.Distinct)
    (hmade : Made ctx fuel b.creations p made p') (hids : ∀ x ∈ made, x.1.id < b.allocates) :
    b.create ctx fuel p =
      some (p', fill (entries made) (List.replicate b.allocates (⟨0⟩ : Entity))) := by
  obtain ⟨p₁, made₁, made₂, rfl, h₁, h₂⟩ := hmade.split
  have hids₁ : ∀ x ∈ made₁, x.1.id < (List.replicate b.allocates (⟨0⟩ : Entity)).length := by
    intro x hx
    rw [List.length_replicate]
    exact hids x (List.mem_append_left _ hx)
  have hids₂ : ∀ x ∈ made₂, x.1.id <
      (fill (entries made₁) (List.replicate b.allocates (⟨0⟩ : Entity))).length := by
    intro x hx
    rw [length_fill, List.length_replicate]
    exact hids x (List.mem_append_right _ hx)
  have hallocates := foldlM_of_made (f := fun x loc =>
      createAllocates ctx fuel loc loc.allocates x.1 x.2)
    (fun l hl p made p' newEnts hm hid => createAllocates_of_made
      (fun cmd hcmd => (hplaced l hl).getElem? (List.mem_append_left _ (List.mem_map_of_mem hcmd)))
      (hdistinct l hl).1 hm hid) h₁ hids₁
  have hinstances := foldlM_of_made (f := fun x loc =>
      createInstances ctx fuel loc loc.instantiates x.1 x.2)
    (fun l hl p made p' newEnts hm hid => createInstances_of_made
      (fun cmd hcmd => (hplaced l hl).getElem? (List.mem_append_right _ (List.mem_map_of_mem hcmd)))
      (hdistinct l hl).2 hm hid) h₂ hids₂
  simp only [create, Option.bind_eq_bind]
  rw [hallocates, Option.bind_some, hinstances, entries, entries, entries, List.map_append,
    fill_append]

/-- A loop that ended met no equal neighbours. -/
theorem isChain_of_createAllocates {cmds : List CmdAllocate}
    (hs : createAllocates ctx fuel l cmds p newEnts = some (p', newEnts')) :
    (cmds.map fun cmd => cmd.type.read l.scratch).IsChain (· ≠ ·) := by
  induction cmds generalizing p newEnts with
  | nil => exact .nil
  | cons cmd rest ih =>
      simp only [createAllocates, Option.bind_eq_bind, Option.bind_eq_some_iff] at hs
      obtain ⟨count, hcount, ⟨p₁, ss, log⟩, -, newEnts₁, -, hs⟩ := hs
      have hsame := countEqual_eq_some hcount
      have hrest := ih hs
      cases rest with
      | nil => exact .singleton _
      | cons next rest =>
          refine List.isChain_cons_cons.mpr ⟨?_, hrest⟩
          simp only [List.head?_cons, Option.any_some, decide_eq_false_iff_not] at hsame
          exact fun heq => hsame heq.symm

theorem isChain_of_createInstances {cmds : List CmdInstantiate}
    (hs : createInstances ctx fuel l cmds p newEnts = some (p', newEnts')) :
    (cmds.map CmdInstantiate.source).IsChain (· ≠ ·) := by
  induction cmds generalizing p newEnts with
  | nil => exact .nil
  | cons cmd rest ih =>
      simp only [createInstances, Option.bind_eq_bind, Option.bind_eq_some_iff] at hs
      obtain ⟨count, hcount, ⟨p₁, ss, log⟩, -, newEnts₁, -, hs⟩ := hs
      have hsame := countEqual_eq_some hcount
      have hrest := ih hs
      cases rest with
      | nil => exact .singleton _
      | cons next rest =>
          refine List.isChain_cons_cons.mpr ⟨?_, hrest⟩
          simp only [List.head?_cons, Option.any_some, decide_eq_false_iff_not] at hsame
          exact fun heq => hsame heq.symm

theorem distinct_of_create (hs : b.create ctx fuel p = some (p', newEnts)) : b.Distinct := by
  simp only [create, Option.bind_eq_bind, Option.bind_eq_some_iff] at hs
  obtain ⟨⟨p₁, newEnts₁⟩, hallocates, hinstances⟩ := hs
  have h₁ := of_foldlM (P := fun l : Local =>
    (l.allocates.map fun cmd => cmd.type.read l.scratch).IsChain (· ≠ ·))
    (fun l s s' hs => isChain_of_createAllocates hs) hallocates
  have h₂ := of_foldlM (P := fun l : Local =>
    (l.instantiates.map CmdInstantiate.source).IsChain (· ≠ ·))
    (fun l s s' hs => isChain_of_createInstances hs) hinstances
  exact fun l hl => ⟨h₁ l hl, h₂ l hl⟩

/-! ## What `execute` makes -/

/-- `execute` makes one entity for each recorded command and no other. The handles are mapped
to them one to one, and what was recorded for a handle later names its entity. -/
structure Creates (ctx : Context) (fuel : Nat) (b : CommandBuffer) (p : Pipeline)
    (newEnts : List Entity) (made : List (Entity × Entity)) (p' : Pipeline) : Prop where
  executed : b.create ctx fuel p = some (p', newEnts)
  each : Made ctx fuel b.creations p made p'
  alive : ∀ e, p'.world.Alive e ↔ p.world.Alive e ∨ ∃ x ∈ made, x.2 = e
  new : ∀ x ∈ made, ¬ p.world.Alive x.2
  handles : (made.map Prod.fst).Nodup
  entities : (made.map Prod.snd).Nodup
  resolved : ∀ l ∈ b.locals, ∃ l', resolve newEnts l = some l' ∧
    List.Forall₂ (fun t e => if t.isTransient then (t, e) ∈ made else e = t)
      l.entities l'.entities
  destroyed : ∀ l ∈ b.locals, ∀ cmd ∈ l.destroies, ∀ x ∈ made, cmd.e ≠ x.1.value

/-- No command destroys what a handle stands for. -/
def DestroysNoHandle (b : CommandBuffer) : Prop :=
  ∀ l ∈ b.locals, ∀ cmd ∈ l.destroies, ∀ t ∈ b.creations.map Prod.fst, cmd.e ≠ t.value

theorem mem_handles_of_made {t : Entity} (hmade : Made ctx fuel b.creations p made p')
    (ht : t ∈ b.creations.map Prod.fst) : ∃ e, (t, e) ∈ made := by
  rw [← hmade.handles] at ht
  obtain ⟨⟨t', e⟩, hx, rfl⟩ := List.mem_map.mp ht
  exact ⟨e, hx⟩

/-- The table holds the entity of each handle. -/
theorem resolve_of_made {cmds : List (Nat × Command)} (hrec : Recorded cmds b)
    (hbegin : ∀ i t, (i, Command.begin_ t) ∈ cmds → t.isTransient = true →
      t ∈ numbered (creating cmds))
    (hmade : Made ctx fuel b.creations p made p')
    (hentry : ∀ x ∈ made, newEnts[x.1.id]? = some x.2) (hl : l ∈ b.locals) :
    ∃ l', resolve newEnts l = some l' ∧
      List.Forall₂ (fun t e => if t.isTransient then (t, e) ∈ made else e = t)
        l.entities l'.entities := by
  have hhandles : (b.creations.map Prod.fst : Multiset Entity) = numbered (creating cmds) :=
    b.map_fst_creations.trans hrec.handles
  obtain ⟨entities, hmap, hall⟩ := mapM_forall₂
    (f := fun e : Entity => if e.isTransient then newEnts[e.id]? else some e)
    (R := fun t e => if t.isTransient then (t, e) ∈ made else e = t) (l := l.entities) (by
      intro t ht
      cases htransient : t.isTransient with
      | false => exact ⟨t, rfl, rfl⟩
      | true =>
          have hmem : t ∈ b.creations.map Prod.fst := by
            refine Multiset.mem_coe.mp (hhandles ▸ ?_)
            rcases hrec.entities l hl t ht with hnumber | ⟨i, hi⟩
            · exact hnumber
            · exact hbegin i t hi htransient
          obtain ⟨e, he⟩ := mem_handles_of_made hmade hmem
          exact ⟨e, hentry _ he, he⟩)
  exact ⟨{ l with entities := entities }, by simp only [resolve, hmap, Option.bind_eq_bind,
    Option.bind_some], hall⟩

/-- The calls make what `execute` makes. -/
theorem creates_of_made {cmds : List (Nat × Command)} (hrec : Recorded cmds b)
    (hbegin : ∀ i t, (i, Command.begin_ t) ∈ cmds → t.isTransient = true →
      t ∈ numbered (creating cmds))
    (hdistinct : b.Distinct) (hfew : b.creations.length ≤ 2 ^ 24) (hdestroy : b.DestroysNoHandle)
    (hmade : Made ctx fuel b.creations p made p') :
    ∃ newEnts, Creates ctx fuel b p newEnts made p' := by
  obtain ⟨-, hnodup, hlt⟩ := hrec.ids hfew
  have hids : made.map (fun x => x.1.id) = b.creations.map fun x => x.1.id := by
    have hmap := congrArg (List.map Entity.id) hmade.handles
    rwa [List.map_map, List.map_map] at hmap
  have hsmall : ∀ x ∈ made, x.1.id < b.allocates := by
    intro x hx
    have hmem : x.1.id ∈ b.creations.map fun x => x.1.id := hids ▸ List.mem_map_of_mem hx
    obtain ⟨y, hy, heq⟩ := List.mem_map.mp hmem
    exact heq ▸ hlt y hy
  have hkeys : ((entries made).map Prod.fst).Nodup := by
    rw [entries, List.map_map]
    exact hids ▸ hnodup
  have hentry : ∀ x ∈ made,
      (fill (entries made) (List.replicate b.allocates (⟨0⟩ : Entity)))[x.1.id]? = some x.2 :=
    fun x hx => getElem?_fill hkeys (List.mem_map_of_mem hx)
      (by rw [List.length_replicate]; exact hsmall x hx)
  have hdiffer : (made.map Prod.fst).Nodup := by
    refine List.Nodup.of_map Entity.id ?_
    rw [List.map_map]
    exact hids ▸ hnodup
  exact ⟨_,
    { executed := create_of_made hrec.placed hdistinct hmade hsmall
      each := hmade
      alive := hmade.alive
      new := fun x hx => hmade.new hx
      handles := hdiffer
      entities := hmade.nodup
      resolved := fun l hl => resolve_of_made hrec hbegin hmade hentry hl
      destroyed := fun l hl cmd hcmd x hx =>
        hdestroy l hl cmd hcmd x.1 (hmade.handles ▸ List.mem_map_of_mem hx) }⟩

/-- `execute` makes the recorded entities if and only if the commands can be recorded, no two
neighbours are for the same type or source, the handles have ids of their own, no `destroy` was
given a handle, and the calls for the commands, one after the other, return. Without casts the
commands can be recorded if and only if the types of each thread fit the first chunk of its
storage, and calls for types without metatypes that fit a chunk return. -/
theorem creates_iff {cmds : List (Nat × Command)} (hctx : ctx.Built)
    (hreg : ctx.tracks.length < 2 ^ 30)
    (hreach : Reachable ctx (fun w op => op.Orderly ctx w ∧ op.LaysOut ctx w) p.world)
    (hcmds : cmds.length ≤ 2 ^ 64)
    (hready : ∀ b, recordAll cmds = some b → ReadyAlong ctx fuel b.creations p)
    (hbegin : ∀ i t, (i, Command.begin_ t) ∈ cmds → t.isTransient = true →
      t ∈ numbered (creating cmds)) :
    ((∃ b newEnts made p', recordAll cmds = some b ∧ Creates ctx fuel b p newEnts made p') ↔
      ∃ b, recordAll cmds = some b ∧ b.Distinct ∧ b.creations.length ≤ 2 ^ 24 ∧
        b.DestroysNoHandle ∧ ∃ p', createEach ctx fuel b.creations p = some p') ∧
    ((∀ c ∈ cmds, c.2.casts = false) →
      ((∃ b, recordAll cmds = some b) ↔ ∀ i, bytesOf cmds i < kFastBinSize)) ∧
    ∀ b, recordAll cmds = some b → p.Hooked → 2 ≤ fuel → (∀ x ∈ b.creations, x.2.Plain ctx) →
      ∃ p', createEach ctx fuel b.creations p = some p' := by
  refine ⟨⟨?_, ?_⟩, fun hcasts => (recordAll_returns_iff hcasts).1, ?_⟩
  · rintro ⟨b, newEnts, made, p', hrec, h⟩
    have hhandles := h.each.handles
    refine ⟨b, hrec, distinct_of_create h.executed,
      (recorded_recordAll hcmds hrec).few (hhandles ▸ h.handles), ?_, p', h.each.createEach⟩
    intro l hl cmd hcmd t ht
    obtain ⟨e, he⟩ := mem_handles_of_made h.each ht
    exact h.destroyed l hl cmd hcmd _ he
  · rintro ⟨b, hrec, hdistinct, hfew, hdestroy, p', hcalls⟩
    obtain ⟨made, hmade⟩ := made_of_createEach hctx hreg hreach (hready b hrec) hcalls
    obtain ⟨newEnts, h⟩ := creates_of_made (recorded_recordAll hcmds hrec) hbegin hdistinct hfew
      hdestroy hmade
    exact ⟨b, newEnts, made, p', hrec, h⟩
  · intro b hrec hhook hfuel hplain
    obtain ⟨n, rfl⟩ := Nat.exists_eq_add_of_le' hfuel
    exact createEach_returns hctx hreg hreach (hready b hrec) hhook hplain

/-- One thread records two types and goes on with the first entity, the other one an instance. -/
def typesAndInstance : List (Nat × Command) :=
  [(0, .allocate { types := [4] }), (1, .instantiate ⟨512⟩), (0, .allocate { types := [5] }),
    (0, .begin_ (Entity.makeTransient 0)), (0, .cast { extend := { types := [5] } })]

/-- The commands, with their handles. -/
def threeCreations : List (Entity × Creation) :=
  [(Entity.makeTransient 0, .allocate { types := [4] }),
    (Entity.makeTransient 2, .allocate { types := [5] }),
    (Entity.makeTransient 1, .instantiate ⟨512⟩)]

/-- In `smallThenFast` they find what they ask for. -/
theorem readyAlong_threeCreations : ∃ w, World.smallThenFast = some w ∧
    Reachable World.narrowWide
      (fun w op => op.Orderly World.narrowWide w ∧ op.LaysOut World.narrowWide w) w ∧
    ReadyAlong World.narrowWide 2 threeCreations (Pipeline.onWorld w) ∧
    ∃ p', createEach World.narrowWide 2 threeCreations (Pipeline.onWorld w) = some p' := by
  have hsome : (World.smallThenFast.bind fun w =>
      (Creation.run World.narrowWide 2 (Pipeline.onWorld w) (.allocate { types := [4] })).bind
        fun r₁ => (Creation.run World.narrowWide 2 r₁.1 (.allocate { types := [5] })).bind
        fun r₂ => (Creation.run World.narrowWide 2 r₂.1 (.instantiate ⟨512⟩)).bind
        fun r₃ => (r₂.1.world.archetypeOf 1).bind
        fun q => (r₂.1.world.getCasted World.narrowWide q.2 {} true).map
        fun q' => ([r₂.1.world.store.count 1, (r₂.1.world.memory.entityAt 1 0).value,
            r₂.1.world.memory.freshBlock, q.2.firstBuffer, q.2.firstManaged, q.2.firstTag, q.1,
            w.ents.size, r₁.1.world.ents.size, r₂.1.world.ents.size, r₃.1.world.ents.size],
          q'.2, q'.1.store.firstFree 0,
          decide (r₂.1.world.getComponentRo ⟨512⟩ World.narrowWide.groupId = some none),
          World.castedType World.narrowWide q.2 {} true)) =
      some ([5, 512, 1, 2, 2, 2, 0, 7, 8, 9, 10], some 0, some 1, true, { types := [4, 5] }) := by
    decide +kernel
  obtain ⟨w, hw, hsome⟩ := Option.bind_eq_some_iff.mp hsome
  obtain ⟨⟨p₁, es₁⟩, h₁, hsome⟩ := Option.bind_eq_some_iff.mp hsome
  obtain ⟨⟨p₂, es₂⟩, h₂, hsome⟩ := Option.bind_eq_some_iff.mp hsome
  obtain ⟨⟨p₃, es₃⟩, h₃, hsome⟩ := Option.bind_eq_some_iff.mp hsome
  obtain ⟨⟨g, a⟩, ha, hsome⟩ := Option.bind_eq_some_iff.mp hsome
  obtain ⟨⟨v, target⟩, hcasted, hfacts⟩ := Option.map_eq_some_iff.mp hsome
  simp only [Prod.mk.injEq, List.cons.injEq, and_true, decide_eq_true_eq] at hfacts
  obtain ⟨⟨hcount, hentity, hfresh, hbuf, hman, htag, rfl, hsize, hsize₁, hsize₂, hsize₃⟩, rfl,
    hfree, hgroup, hkey⟩ := hfacts
  have hreg : World.narrowWide.tracks.length < 2 ^ 30 := by decide
  have hsorted : ∀ t < 2 ^ 32, SortedTypes [t] := fun t ht => ⟨List.pairwise_singleton _ t, by simpa⟩
  have hready₁ : (Creation.allocate { types := [4] }).Ready World.narrowWide w :=
    hsorted 4 (by decide)
  have hready₂ : (Creation.allocate { types := [5] }).Ready World.narrowWide p₁.world :=
    hsorted 5 (by decide)
  have hlays₁ : (Op.allocate { types := [4] } 1).LaysOut World.narrowWide w :=
    Op.laysOut_allocate 1 (by decide +kernel)
  have hlays₂ : (Op.allocate { types := [5] } 1).LaysOut World.narrowWide p₁.world :=
    Op.laysOut_allocate 1 (by decide +kernel)
  have hreach := World.orderly_smallThenFast hw
  have hreach₁ := Creation.reachable World.built_narrowWide hreg (p := Pipeline.onWorld w) hreach
    hready₁ hlays₁ h₁
  have hreach₂ := Creation.reachable World.built_narrowWide hreg hreach₁ hready₂ hlays₂ h₂
  have hw₂ := World.orderly_of_reachable World.built_narrowWide hreg
    (hreach₂.mono fun _ _ h => h.1)
  -- no call before the instance takes a block
  obtain ⟨⟨q₁, ss₁, log₁⟩, hcall₁, heq₁⟩ := Option.map_eq_some_iff.mp h₁
  obtain ⟨rfl, -⟩ := Prod.mk.inj heq₁
  obtain ⟨⟨q₂, ss₂, log₂⟩, hcall₂, heq₂⟩ := Option.map_eq_some_iff.mp h₂
  obtain ⟨rfl, -⟩ := Prod.mk.inj heq₂
  have hmallocs := World.mallocs_allocate (World.mallocs_allocate (World.mallocs_smallThenFast hw)
    (Pipeline.allocate_world hcall₁)) (Pipeline.allocate_world hcall₂)
  have hsrc := World.instantiable_narrowWide hw₂ hmallocs ha (by omega) hentity
    ⟨hbuf, hman, htag⟩ hfresh
  have hlays₃ : (Op.instantiate ⟨512⟩ 1).LaysOut World.narrowWide q₂.world :=
    Op.laysOut_of_key (fun _ h => (World.asks_instance hsrc (by omega) h).trans hkey)
      (by decide +kernel)
  have hoffsets := World.sameOffsets_one hw₂ hcasted hfree
  have hclear := World.clear_of_sameOffsets World.built_narrowWide hreg hw₂ hsrc hoffsets
    (by omega) fun w₁ h hs => by
      obtain ⟨rfl, hh⟩ := Prod.mk.inj (Option.some.inj (hcasted.symm.trans hs))
      obtain rfl := Option.some.inj hh
      simp [hfree]
  have hend : p₃.world.ents.size < 2 ^ 24 := by omega
  refine ⟨w, hw, hreach, ?_, p₃, ?_⟩
  · refine .cons (hsize.trans_lt (by decide)) hready₁ hlays₁ h₁ ?_
    refine .cons (by omega) hready₂ hlays₂ h₂ ?_
    exact .cons (by omega) ⟨hgroup, hclear, 1, 0, 0, a, hsrc, hoffsets⟩ hlays₃ h₃ hend
  · simp only [threeCreations, createEach, h₁, h₂, h₃, Option.bind_eq_bind, Option.bind_some]

theorem creates_typesAndInstance : ∃ w, World.smallThenFast = some w ∧
    ∃ b newEnts made p', recordAll typesAndInstance = some b ∧
      Creates World.narrowWide 2 b (Pipeline.onWorld w) newEnts made p' := by
  obtain ⟨w, hw, hreach, hready, hreturns⟩ := readyAlong_threeCreations
  have hrecorded : (recordAll typesAndInstance).map creations = some threeCreations := rfl
  obtain ⟨b, hrec, hcreations⟩ := Option.map_eq_some_iff.mp hrecorded
  have hparts : (recordAll typesAndInstance).map (fun b => b.locals.map fun l =>
      (l.allocates.map fun cmd => cmd.type.read l.scratch,
        l.instantiates.map CmdInstantiate.source, l.destroies.map CmdDestroy.e)) =
      some [([{ types := [4] }, { types := [5] }], [], []), ([], [⟨512⟩], [])] := rfl
  rw [hrec, Option.map_some, Option.some.injEq] at hparts
  have hlocal : ∀ l ∈ b.locals, ((l.allocates.map fun cmd => cmd.type.read l.scratch).IsChain
      (· ≠ ·) ∧ (l.instantiates.map CmdInstantiate.source).IsChain (· ≠ ·)) ∧
      l.destroies = [] := by
    intro l hl
    have hmem := List.mem_map_of_mem (f := fun l : Local =>
      (l.allocates.map fun cmd => cmd.type.read l.scratch,
        l.instantiates.map CmdInstantiate.source, l.destroies.map CmdDestroy.e)) hl
    rw [hparts, List.mem_cons, List.mem_singleton, Prod.mk.injEq, Prod.mk.injEq, Prod.mk.injEq,
      Prod.mk.injEq, List.map_eq_nil_iff (l := l.destroies)] at hmem
    rcases hmem with ⟨htypes, hsources, hdestroys⟩ | ⟨htypes, hsources, hdestroys⟩
    · exact ⟨⟨htypes ▸ .cons_cons (by decide) (.singleton _), hsources ▸ .nil⟩, hdestroys⟩
    · exact ⟨⟨htypes ▸ .nil, hsources ▸ .singleton _⟩, hdestroys⟩
  refine ⟨w, hw, (creates_iff World.built_narrowWide (by decide) hreach (by decide) ?_ ?_).1.mpr
    ⟨b, hrec, fun l hl => (hlocal l hl).1, ?_, ?_, ?_⟩⟩
  · intro b' hrec'
    obtain rfl := Option.some.inj (hrec.symm.trans hrec')
    exact hcreations ▸ hready
  · intro i t ht _
    simp only [typesAndInstance, List.mem_cons, Prod.mk.injEq, Command.begin_.injEq, reduceCtorEq,
      and_false, false_or, or_false, List.not_mem_nil] at ht
    rw [ht.2, numbered]
    exact Multiset.mem_map.mpr ⟨0, Multiset.mem_range.mpr (by decide), rfl⟩
  · rw [hcreations]
    decide
  · intro l hl cmd hcmd
    rw [(hlocal l hl).2] at hcmd
    exact absurd hcmd List.not_mem_nil
  · exact hcreations ▸ hreturns

/-- A thread records one type twice. -/
theorem not_creates_equal :
    Reachable World.tracked
      (fun w op => op.Orderly World.tracked w ∧ op.LaysOut World.tracked w)
      (Pipeline.onWorld World.blank).world ∧
    ∀ fuel, ¬ ∃ b newEnts made p', recordAll [(0, .allocate { types := [4] }),
        (0, .allocate { types := [4] })] = some b ∧
      Creates World.tracked fuel b (Pipeline.onWorld World.blank) newEnts made p' := by
  refine ⟨Reachable.initial _ _ _ _ _ _, ?_⟩
  rintro fuel ⟨b, newEnts, made, p', hrec, h⟩
  obtain rfl := Option.some.inj hrec
  have hchain := (distinct_of_create h.executed _ List.mem_cons_self).1
  exact (List.isChain_cons_cons.mp hchain).1 rfl

end CommandBuffer

end Dots

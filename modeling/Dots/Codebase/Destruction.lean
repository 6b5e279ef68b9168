import Dots.Codebase.Creation
import Dots.Database.Standing

/-!
# The entities a command buffer destroys

The last loop of `execute` looks the recorded handles up as they are: nothing puts the entities
in place of transient ones. When the next entity stands right behind, it is destroyed along, and
its command comes all the same.
-/

namespace Dots

open Library

namespace CommandBuffer

variable {ctx : Context} {b : CommandBuffer} {p p' p₁ p₂ : Pipeline} {s s2 : ChunkSlice}
  {fuel : Nat} {cmd : CmdDestroy} {rest cmds : List CmdDestroy} {locals : List Local}
  {es log newEnts : List Entity}

/-! ## What the loop hands to `pipeline::destroy` -/

/-- The slice for a command, with the slot behind it when the next entity stands there. -/
def destroySlice (fuel : Nat) (cmd : CmdDestroy) (rest : List CmdDestroy) (p : Pipeline) :
    Option ChunkSlice := do
  let s ← p.world.asSlice ⟨cmd.e % 2 ^ 32⟩
  match rest with
  | [] => some s
  | next :: _ => do
      let s2 ← p.world.asSlice ⟨next.e % 2 ^ 32⟩
      mergeSlice (behind s s2) fuel s

/-- The loop over `loc.destroies`, with the entities in the slices it destroys. -/
def destroyLog (ctx : Context) (fuel : Nat) :
    List CmdDestroy → Pipeline → Option (Pipeline × List Entity)
  | [], p => some (p, [])
  | cmd :: rest, p => do
      let s ← destroySlice fuel cmd rest p
      let (p₁, _) ← p.destroy ctx fuel s
      let (p', log) ← destroyLog ctx fuel rest p₁
      some (p', p.world.handles s ++ log)

/-- The same for all locals. -/
def destroyLogs (ctx : Context) (fuel : Nat) :
    List Local → Pipeline → Option (Pipeline × List Entity)
  | [], p => some (p, [])
  | loc :: locals, p => do
      let (p₁, log) ← destroyLog ctx fuel loc.destroies p
      let (p', log') ← destroyLogs ctx fuel locals p₁
      some (p', log ++ log')

theorem destroyLog_fst (cmds : List CmdDestroy) (p : Pipeline) :
    (destroyLog ctx fuel cmds p).map Prod.fst = destroyAll ctx fuel cmds p := by
  induction cmds generalizing p with
  | nil => rfl
  | cons cmd rest ih =>
      simp only [destroyLog, destroyAll, destroySlice, ← ih, Option.bind_eq_bind,
        Option.bind_assoc, Option.map_eq_bind]
      cases rest with
      | nil => rfl
      | cons next rest =>
          simp only [Option.bind_assoc]
          rfl

theorem destroyLogs_fst (locals : List Local) (p : Pipeline) :
    (destroyLogs ctx fuel locals p).map Prod.fst =
      locals.foldlM (fun p loc => destroyAll ctx fuel loc.destroies p) p := by
  induction locals generalizing p with
  | nil => rfl
  | cons loc locals ih =>
      rw [List.foldlM_cons, ← destroyLog_fst]
      cases hfirst : destroyLog ctx fuel loc.destroies p with
      | none => simp [destroyLogs, hfirst]
      | some r =>
          simp only [destroyLogs, hfirst, ← ih, Option.bind_eq_bind, Option.bind_some,
            Option.map_some, Option.map_bind]
          exact Option.map_eq_bind.symm

/-! ## One command -/

/-- The loop that merges ends after one round. -/
theorem mergeSlice_behind (hcount : behind s s2 s.count = false) :
    mergeSlice (behind s s2) (fuel + 1) s = some s := by
  rw [mergeSlice, hcount, if_neg Bool.false_ne_true]

theorem count_of_mergeSlice {canMerge : Nat → Bool} {s' : ChunkSlice}
    (hs : mergeSlice canMerge fuel s = some s') :
    s' = s ∧ canMerge s.count = false ∨ s.count < s'.count := by
  induction fuel generalizing s with
  | zero => simp [mergeSlice] at hs
  | succ fuel ih =>
      rw [mergeSlice] at hs
      split_ifs at hs with hmerge
      · right
        rcases ih hs with ⟨rfl, -⟩ | hlt
        · exact Nat.lt_succ_self _
        · exact (Nat.lt_succ_self _).trans hlt
      · exact .inl ⟨(Option.some.inj hs).symm, by simpa using hmerge⟩

/-- The slice has the one entity, unless the next one stands right behind. -/
theorem destroySlice_cases (hs : destroySlice fuel cmd rest p = some s) :
    ∃ s₀, p.world.asSlice ⟨cmd.e % 2 ^ 32⟩ = some s₀ ∧ s₀.count = 1 ∧
      (s = s₀ ∧ (∀ next ∈ rest.head?, ∃ s2, p.world.asSlice ⟨next.e % 2 ^ 32⟩ = some s2 ∧
        behind s s2 1 = false) ∨ 1 < s.count) := by
  simp only [destroySlice, Option.bind_eq_bind, Option.bind_eq_some_iff] at hs
  obtain ⟨s₀, hslice, hs⟩ := hs
  have hone : s₀.count = 1 := World.entrySlice_count hslice
  refine ⟨s₀, hslice, hone, ?_⟩
  cases rest with
  | nil => exact .inl ⟨(Option.some.inj hs).symm, fun _ => nofun⟩
  | cons next rest =>
      obtain ⟨s2, hnext, hs⟩ := Option.bind_eq_some_iff.mp hs
      rcases count_of_mergeSlice hs with ⟨rfl, hbehind⟩ | hlt
      · refine .inl ⟨rfl, fun next' hmem => ⟨s2, ?_, hone ▸ hbehind⟩⟩
        rwa [← Option.some.inj hmem]
      · exact .inr (hone ▸ hlt)

theorem destroySlice_alone (hslice : p.world.asSlice ⟨cmd.e % 2 ^ 32⟩ = some s)
    (hnext : ∀ next ∈ rest.head?, ∃ s2, p.world.asSlice ⟨next.e % 2 ^ 32⟩ = some s2 ∧
      behind s s2 1 = false) : destroySlice (fuel + 1) cmd rest p = some s := by
  have hone : s.count = 1 := World.entrySlice_count hslice
  simp only [destroySlice, hslice, Option.bind_eq_bind, Option.bind_some]
  cases rest with
  | nil => rfl
  | cons next rest =>
      obtain ⟨s2, hs2, hbehind⟩ := hnext next rfl
      change (p.world.asSlice ⟨next.e % 2 ^ 32⟩).bind _ = _
      rw [hs2, Option.bind_some]
      exact mergeSlice_behind (hone ▸ hbehind)

theorem length_handles (w : World) (s : ChunkSlice) : (w.handles s).length = s.count := by
  rw [World.handles, List.length_map, List.length_range]

theorem handles_single (w : World) (hone : s.count = 1) :
    w.handles s = [w.memory.entityAt s.c s.start] := by
  rw [World.handles, hone]
  rfl

/-! ## One entity for each command -/

/-- The commands of a local, one after the other, look up a slot each, and the next one's is not
right behind. `es` are the entities that stand there. -/
inductive Alone (ctx : Context) (fuel : Nat) :
    List CmdDestroy → Pipeline → List Entity → Pipeline → Prop
  | nil (p : Pipeline) : Alone ctx fuel [] p [] p
  | cons {cmd : CmdDestroy} {rest : List CmdDestroy} {p p₁ p' : Pipeline} {s : ChunkSlice}
      {log : SyncLog} {es : List Entity} (hslice : p.world.asSlice ⟨cmd.e % 2 ^ 32⟩ = some s)
      (hnext : ∀ next ∈ rest.head?, ∃ s2, p.world.asSlice ⟨next.e % 2 ^ 32⟩ = some s2 ∧
        behind s s2 1 = false)
      (hrun : p.destroy ctx fuel s = some (p₁, log)) (h : Alone ctx fuel rest p₁ es p') :
      Alone ctx fuel (cmd :: rest) p (p.world.memory.entityAt s.c s.start :: es) p'

/-- The locals, one after the other. -/
inductive AllAlone (ctx : Context) (fuel : Nat) :
    List Local → Pipeline → List Entity → Pipeline → Prop
  | nil (p : Pipeline) : AllAlone ctx fuel [] p [] p
  | cons {loc : Local} {locals : List Local} {p p₁ p' : Pipeline} {es es' : List Entity}
      (hfirst : Alone ctx fuel loc.destroies p es p₁) (h : AllAlone ctx fuel locals p₁ es' p') :
      AllAlone ctx fuel (loc :: locals) p (es ++ es') p'

theorem destroy_zero (p : Pipeline) (s : ChunkSlice) : p.destroy ctx 0 s = none := by
  simp [Pipeline.destroy, World.destroy]

theorem Alone.destroyLog (h : Alone ctx fuel cmds p es p') :
    destroyLog ctx fuel cmds p = some (p', es) ∧ es.length = cmds.length := by
  induction h with
  | nil p => exact ⟨rfl, rfl⟩
  | @cons cmd rest p p₁ p' s log es hslice hnext hrun h ih =>
      cases fuel with
      | zero => simp [destroy_zero] at hrun
      | succ fuel =>
          refine ⟨?_, congrArg (· + 1) ih.2⟩
          simp only [CommandBuffer.destroyLog, destroySlice_alone hslice hnext, hrun, ih.1,
            handles_single p.world (World.entrySlice_count hslice), Option.bind_eq_bind,
            Option.bind_some]
          rfl

theorem AllAlone.destroyLogs (h : AllAlone ctx fuel locals p es p') :
    destroyLogs ctx fuel locals p = some (p', es) ∧
      es.length = (locals.map fun loc => loc.destroies.length).sum := by
  induction h with
  | nil p => exact ⟨rfl, rfl⟩
  | cons hfirst h ih =>
      obtain ⟨hrun, hlen⟩ := hfirst.destroyLog
      refine ⟨?_, by rw [List.length_append, hlen, ih.2, List.map_cons, List.sum_cons]⟩
      simp only [CommandBuffer.destroyLogs, hrun, ih.1, Option.bind_eq_bind, Option.bind_some]

/-- A loop destroys at least one entity for each command, and more where it merges. -/
theorem alone_of_destroyLog (hs : destroyLog ctx fuel cmds p = some (p', es)) :
    cmds.length ≤ es.length ∧ (es.length = cmds.length → Alone ctx fuel cmds p es p') := by
  induction cmds generalizing p es with
  | nil =>
      obtain ⟨rfl, rfl⟩ := Prod.mk.inj (Option.some.inj hs)
      exact ⟨le_rfl, fun _ => .nil p⟩
  | cons cmd rest ih =>
      simp only [destroyLog, Option.bind_eq_bind, Option.bind_eq_some_iff, Option.some.injEq,
        Prod.mk.injEq] at hs
      obtain ⟨s, hslice, ⟨p₁, log⟩, hrun, ⟨p₂, es₁⟩, hrest, rfl, rfl⟩ := hs
      obtain ⟨hle, halone⟩ := ih hrest
      obtain ⟨s₀, hentry, hone, hcase⟩ := destroySlice_cases hslice
      dsimp only at hle halone ⊢
      rw [List.length_append, length_handles, List.length_cons]
      rcases hcase with ⟨rfl, hnext⟩ | hmerged
      · rw [handles_single _ hone]
        refine ⟨by omega, fun hlen => ?_⟩
        exact .cons hentry hnext hrun (halone (by omega))
      · exact ⟨by omega, fun hlen => by omega⟩

theorem allAlone_of_destroyLogs (hs : destroyLogs ctx fuel locals p = some (p', es)) :
    (locals.map fun loc => loc.destroies.length).sum ≤ es.length ∧
      (es.length = (locals.map fun loc => loc.destroies.length).sum →
        AllAlone ctx fuel locals p es p') := by
  induction locals generalizing p es with
  | nil =>
      obtain ⟨rfl, rfl⟩ := Prod.mk.inj (Option.some.inj hs)
      exact ⟨le_rfl, fun _ => .nil p⟩
  | cons loc locals ih =>
      simp only [destroyLogs, Option.bind_eq_bind, Option.bind_eq_some_iff, Option.some.injEq,
        Prod.mk.injEq] at hs
      obtain ⟨⟨p₁, es₁⟩, hfirst, ⟨p₂, es₂⟩, hrest, rfl, rfl⟩ := hs
      obtain ⟨hle, halone⟩ := alone_of_destroyLog hfirst
      obtain ⟨hle', halone'⟩ := ih hrest
      dsimp only at hle halone hle' halone' ⊢
      rw [List.map_cons, List.sum_cons, List.length_append]
      exact ⟨by omega, fun hlen => .cons (halone (by omega)) (halone' (by omega))⟩

/-! ## The entities where they stand when the loop starts -/

/-- The id of a recorded handle. -/
abbrev handleId (cmd : CmdDestroy) : Nat := (⟨cmd.e % 2 ^ 32⟩ : Entity).id

theorem world_of_destroy {log : SyncLog} (hs : p.destroy ctx fuel s = some (p', log)) :
    p.world.destroy ctx fuel s = some p'.world := by
  simp only [Pipeline.destroy, Option.bind_eq_bind, Option.bind_eq_some_iff] at hs
  obtain ⟨⟨p₁, log₁⟩, hsync, w, hdestroy, hs⟩ := hs
  obtain ⟨rfl, -⟩ := Prod.mk.inj (Option.some.inj hs)
  rw [(Pipeline.syncArchetype_world hsync).1] at hdestroy
  exact hdestroy

theorem destroy_of_world {w' : World} {g : ArchetypeId} {a : Archetype} (hhook : p.Hooked)
    (harch : p.world.archetypeOf s.c = some (g, a)) (hs : p.world.destroy ctx fuel s = some w') :
    ∃ p' log, p.destroy ctx fuel s = some (p', log) ∧ p'.world = w' := by
  obtain ⟨hc, ha⟩ := World.archetypeOf_eq_some.mp harch
  obtain ⟨p₁, log, hsync⟩ := hhook.syncArchetype_returns ha
  refine ⟨p₁.withWorld w', log, ?_, rfl⟩
  simp only [Pipeline.destroy, hc, hsync, (Pipeline.syncArchetype_world hsync).1, hs,
    Option.bind_eq_bind, Option.bind_some]

theorem behind_iff {x y : Entity} {w : World} {c d : ChunkId} {i j : Nat}
    (hsize : w.ents.size < 2 ^ 24) (hx : w.Found x c i) (hy : w.Found y d j) :
    behind (World.single c i) (World.single d j) 1 = true ↔ w.rows.Behind x y := by
  simp only [Rows.Behind, World.place_rows hsize hx, World.place_rows hsize hy, behind,
    Option.mem_def, Option.some.injEq, Bool.and_eq_true, beq_iff_eq]
  constructor
  · rintro ⟨rfl, rfl⟩
    exact ⟨_, rfl, rfl⟩
  · rintro ⟨p, rfl, hp⟩
    obtain ⟨rfl, rfl⟩ := Prod.mk.inj hp
    exact ⟨rfl, rfl⟩

/-- What a turn of the loop does, where it destroys one entity: that is alive, and has the id of
the handle. -/
theorem parted_of_turn (hctx : ctx.Built) (hreg : ctx.tracks.length < 2 ^ 30)
    (hreach : Reachable ctx (fun w op => op.Orderly ctx w) p.world)
    (hsize : p.world.ents.size < 2 ^ 24) {log : SyncLog}
    (hslice : p.world.asSlice ⟨cmd.e % 2 ^ 32⟩ = some s)
    (hgroup : p.world.Groupless ctx [p.world.memory.entityAt s.c s.start])
    (hrun : p.destroy ctx fuel s = some (p₁, log)) :
    s = World.single s.c s.start ∧ (p.world.memory.entityAt s.c s.start).id = handleId cmd ∧
      p.world.Found (p.world.memory.entityAt s.c s.start) s.c s.start ∧
      World.Parted ctx p.world [p.world.memory.entityAt s.c s.start] p₁.world := by
  have hone : s.count = 1 := World.entrySlice_count hslice
  have hs : s = World.single s.c s.start := by
    rw [World.single, ← hone]
  have hleads : p.world.leads ⟨cmd.e % 2 ^ 32⟩ = some (p.world.memory.entityAt s.c s.start) := by
    rw [World.leads, hslice, Option.map_some]
  obtain ⟨⟨c, i, hf⟩, hid⟩ := (World.leads_eq_some hctx hreg hreach hsize).mp hleads
  have hentry := World.asSlice_of_at (hf.entry hsize)
  rw [World.asSlice, hid] at hentry
  obtain rfl := Option.some.inj (hslice.symm.trans hentry)
  refine ⟨rfl, hid, hf, ?_⟩
  exact World.parted_of_destroy hctx hreg hreach hsize hf hgroup (world_of_destroy hrun)

/-- A local that destroys one entity at each turn destroys those to which its handles lead at the
start, which never stand right behind each other. -/
theorem Alone.parted (hctx : ctx.Built) (hreg : ctx.tracks.length < 2 ^ 30)
    (h : Alone ctx fuel cmds p es p')
    (hreach : Reachable ctx (fun w op => op.Orderly ctx w) p.world)
    (hsize : p.world.ents.size < 2 ^ 24) (hnodup : es.Nodup)
    (hgroup : p.world.Groupless ctx es) :
    (∀ e ∈ es, p.world.Alive e) ∧ List.Forall₂ (fun cmd e => e.id = handleId cmd) cmds es ∧
      p.world.rows.Scattered es ∧ p.world.destroyEach ctx fuel es = some p'.world ∧
      World.Parted ctx p.world es p'.world := by
  induction h with
  | nil p =>
      exact ⟨nofun, .nil, trivial, rfl, World.parted_nil hreach⟩
  | @cons cmd rest p p₁ p' s log es hslice hnext hrun h ih =>
      obtain ⟨hx, hnodup⟩ := List.nodup_cons.mp hnodup
      obtain ⟨hs, hid, hf, hparted⟩ := parted_of_turn hctx hreg hreach hsize hslice
        (fun e he => List.mem_singleton.mp he ▸ hgroup _ List.mem_cons_self) hrun
      generalize p.world.memory.entityAt s.c s.start = x at hx hgroup hid hf hparted ⊢
      have hne : ∀ e ∈ es, e ∉ [x] := fun e he hex => hx (List.mem_singleton.mp hex ▸ he)
      have hsize₁ : p₁.world.ents.size < 2 ^ 24 := hparted.size ▸ hsize
      obtain ⟨halive, hids, hscattered, hrest, hend⟩ := ih hparted.reach hsize₁ hnodup
        (hparted.groupless hctx hreg hreach hsize (fun e he => hgroup e (List.mem_cons_of_mem x he))
          hne)
      have hstart : ∀ e ∈ es, p.world.Alive e := fun e he =>
        hparted.inherits.alive (World.orderly_of_reachable hctx hreg hreach) (halive e he)
      have hagree := hparted.agree es fun e he => ⟨hstart e he, hne e he⟩
      refine ⟨?_, .cons hid hids, ⟨?_, hagree.scattered.mp hscattered⟩, ?_, ?_⟩
      · intro e he
        rcases List.mem_cons.mp he with rfl | he
        · exact ⟨s.c, s.start, hf⟩
        · exact hstart e he
      · -- the next handle led to the next entity
        intro y hy
        cases hids with
        | nil => simp at hy
        | @cons next y' rest ys hidy hids =>
            obtain rfl := Option.some.inj hy
            obtain ⟨s2, hs2, hbehind⟩ := hnext next rfl
            obtain ⟨d, j, hfy⟩ := hstart _ List.mem_cons_self
            have hentry := World.asSlice_of_at (hfy.entry hsize)
            rw [World.asSlice, hidy] at hentry
            obtain rfl := Option.some.inj (hs2.symm.trans hentry)
            rw [← behind_iff hsize hf hfy, ← hs, hbehind]
            exact Bool.false_ne_true
      · have hentry := World.asSlice_of_at (hf.entry hsize)
        have hworld := world_of_destroy hrun
        rw [hs] at hworld
        simp only [World.destroyEach, hentry, hworld, hrest, Option.bind_eq_bind,
          Option.bind_some]
      · exact hparted.trans hctx hreg hreach hend fun e he => ⟨hstart e he, hne e he⟩

/-- Where the entities stand apart, and destroying them returns, the local destroys one at each
turn. -/
theorem alone_of_scattered (hctx : ctx.Built) (hreg : ctx.tracks.length < 2 ^ 30) {w' : World}
    (hhook : p.Hooked) (hreach : Reachable ctx (fun w op => op.Orderly ctx w) p.world)
    (hsize : p.world.ents.size < 2 ^ 24) (hnodup : es.Nodup)
    (hgroup : p.world.Groupless ctx es) (halive : ∀ e ∈ es, p.world.Alive e)
    (hids : List.Forall₂ (fun cmd e => e.id = handleId cmd) cmds es)
    (hscattered : p.world.rows.Scattered es)
    (hs : p.world.destroyEach ctx fuel es = some w') :
    ∃ p', Alone ctx fuel cmds p es p' ∧ p'.world = w' ∧ p'.Hooked := by
  induction hids generalizing p with
  | nil => exact ⟨p, .nil p, Option.some.inj hs, hhook⟩
  | @cons cmd x cmds es hid hids ih =>
      obtain ⟨hx, hnodup⟩ := List.nodup_cons.mp hnodup
      obtain ⟨c, i, hf⟩ := halive x List.mem_cons_self
      have hentry := World.asSlice_of_at (hf.entry hsize)
      simp only [World.destroyEach, hentry, Option.bind_eq_bind, Option.bind_some,
        Option.bind_eq_some_iff] at hs
      obtain ⟨w₁, hrun, hrest⟩ := hs
      obtain ⟨g, a, harch, -⟩ := World.lives_of_found (World.orderly_of_reachable hctx hreg hreach) hf
      obtain ⟨p₁, log, hpipe, rfl⟩ := destroy_of_world hhook harch hrun
      have hparted := World.parted_of_destroy hctx hreg hreach hsize hf
        (fun e he => List.mem_singleton.mp he ▸ hgroup x List.mem_cons_self) hrun
      have hne : ∀ e ∈ es, e ∉ [x] := fun e he hex => hx (List.mem_singleton.mp hex ▸ he)
      have hstart : ∀ e ∈ es, p.world.Alive e := fun e he => halive e (List.mem_cons_of_mem x he)
      have hagree := hparted.agree es fun e he => ⟨hstart e he, hne e he⟩
      obtain ⟨p', halone, hworld, hhook'⟩ := ih (hhook.destroy hpipe) hparted.reach
        (hparted.size ▸ hsize) hnodup
        (hparted.groupless hctx hreg hreach hsize (fun e he => hgroup e (List.mem_cons_of_mem x he))
          hne)
        (fun e he => hparted.alive (hstart e he) (hne e he)) (hagree.scattered.mpr hscattered.2)
        hrest
      refine ⟨p', ?_, hworld, hhook'⟩
      rw [World.asSlice, hid] at hentry
      refine hf.handle ▸ Alone.cons hentry ?_ hpipe halone
      · intro next hnext
        cases hids with
        | nil => simp at hnext
        | @cons next' y cmds ys hidy hids =>
            obtain rfl := Option.some.inj hnext
            obtain ⟨d, j, hfy⟩ := hstart y List.mem_cons_self
            have hentry' := World.asSlice_of_at (hfy.entry hsize)
            rw [World.asSlice, hidy] at hentry'
            refine ⟨_, hentry', ?_⟩
            rw [Bool.eq_false_iff, ne_eq, behind_iff hsize hf hfy]
            exact hscattered.1 y rfl

/-- The same for the locals. -/
theorem AllAlone.parted (hctx : ctx.Built) (hreg : ctx.tracks.length < 2 ^ 30)
    (h : AllAlone ctx fuel locals p es p')
    (hreach : Reachable ctx (fun w op => op.Orderly ctx w) p.world)
    (hsize : p.world.ents.size < 2 ^ 24) (hnodup : es.Nodup)
    (hgroup : p.world.Groupless ctx es) :
    ∃ ess, es = ess.flatten ∧ (∀ e ∈ es, p.world.Alive e) ∧
      List.Forall₂ (List.Forall₂ fun cmd e => e.id = handleId cmd) (locals.map Local.destroies) ess ∧
      p.world.rows.AllScattered ess ∧ p.world.destroyEach ctx fuel es = some p'.world ∧
      World.Parted ctx p.world es p'.world := by
  induction h with
  | nil p => exact ⟨[], rfl, nofun, .nil, trivial, rfl, World.parted_nil hreach⟩
  | @cons loc locals p p₁ p' es es' hfirst h ih =>
      obtain ⟨hnodup₁, hnodup₂, hdisjoint⟩ := List.nodup_append'.mp hnodup
      obtain ⟨halive, hids, hscattered, hrun, hparted⟩ := hfirst.parted hctx hreg hreach hsize
        hnodup₁ fun e he => hgroup e (List.mem_append_left es' he)
      have hne : ∀ e ∈ es', e ∉ es := fun e he hes => hdisjoint hes he
      obtain ⟨ess, rfl, halive', hids', hscattered', hrun', hend⟩ := ih hparted.reach
        (hparted.size ▸ hsize) hnodup₂
        (hparted.groupless hctx hreg hreach hsize
          (fun e he => hgroup e (List.mem_append_right es he)) hne)
      have hstart : ∀ e ∈ ess.flatten, p.world.Alive e := fun e he =>
        hparted.inherits.alive (World.orderly_of_reachable hctx hreg hreach) (halive' e he)
      have hsplit : ∀ e ∈ ess.flatten, p.world.Alive e ∧ e ∉ es := fun e he =>
        ⟨hstart e he, hne e he⟩
      refine ⟨es :: ess, rfl, fun e he => (List.mem_append.mp he).elim (halive e) (hstart e),
        .cons hids hids', ⟨hscattered, (hparted.agree _ hsplit).allScattered.mp hscattered'⟩, ?_,
        hparted.trans hctx hreg hreach hend hsplit⟩
      rw [World.destroyEach_append, hrun, Option.bind_some, hrun']

theorem allAlone_of_scattered (hctx : ctx.Built) (hreg : ctx.tracks.length < 2 ^ 30) {w' : World}
    {ess : List (List Entity)} (hhook : p.Hooked)
    (hreach : Reachable ctx (fun w op => op.Orderly ctx w) p.world)
    (hsize : p.world.ents.size < 2 ^ 24) (hnodup : ess.flatten.Nodup)
    (hgroup : p.world.Groupless ctx ess.flatten) (halive : ∀ e ∈ ess.flatten, p.world.Alive e)
    (hids : List.Forall₂ (List.Forall₂ fun cmd e => e.id = handleId cmd) (locals.map Local.destroies) ess)
    (hscattered : p.world.rows.AllScattered ess)
    (hs : p.world.destroyEach ctx fuel ess.flatten = some w') :
    ∃ p', AllAlone ctx fuel locals p ess.flatten p' ∧ p'.world = w' := by
  induction locals generalizing p ess with
  | nil =>
      cases hids
      exact ⟨p, .nil p, Option.some.inj hs⟩
  | cons loc locals ih =>
      cases hids with
      | @cons _ es _ ess hfirst hrest =>
          rw [List.flatten_cons] at hnodup hgroup halive hs
          obtain ⟨hnodup₁, hnodup₂, hdisjoint⟩ := List.nodup_append'.mp hnodup
          rw [World.destroyEach_append] at hs
          obtain ⟨w₁, hrun, hrun'⟩ := Option.bind_eq_some_iff.mp hs
          obtain ⟨p₁, halone, rfl, hhook₁⟩ := alone_of_scattered hctx hreg hhook hreach hsize hnodup₁
            (fun e he => hgroup e (List.mem_append_left _ he))
            (fun e he => halive e (List.mem_append_left _ he)) hfirst hscattered.1 hrun
          obtain ⟨-, -, -, -, hparted⟩ := halone.parted hctx hreg hreach hsize hnodup₁
            fun e he => hgroup e (List.mem_append_left _ he)
          have hsplit : ∀ e ∈ ess.flatten, p.world.Alive e ∧ e ∉ es := fun e he =>
            ⟨halive e (List.mem_append_right es he), fun hes => hdisjoint hes he⟩
          obtain ⟨p', hall, hworld⟩ := ih hhook₁ hparted.reach (hparted.size ▸ hsize) hnodup₂
            (hparted.groupless hctx hreg hreach hsize
              (fun e he => hgroup e (List.mem_append_right es he)) fun e he => (hsplit e he).2)
            (fun e he => hparted.alive (hsplit e he).1 (hsplit e he).2) hrest
            ((hparted.agree _ hsplit).allScattered.mpr hscattered.2) hrun'
          exact ⟨p', .cons halone hall, hworld⟩

/-! ## When the named entities are destroyed, and no others -/

/-- What a handle stands for after the entities are made. -/
def denotes (newEnts : List Entity) (e : Entity) : Entity :=
  if e.isTransient then newEnts.getD e.id ⟨0⟩ else e

/-- The entities that `destroy` commands name. -/
def named (b : CommandBuffer) (newEnts : List Entity) : List Entity :=
  b.locals.flatMap fun loc => loc.destroies.map fun cmd => denotes newEnts ⟨cmd.e % 2 ^ 32⟩

theorem length_named (b : CommandBuffer) (newEnts : List Entity) :
    (b.named newEnts).length = (b.locals.map fun loc => loc.destroies.length).sum := by
  simp only [named, List.length_flatMap, List.length_map]

/-- The handles of the `destroy` commands of each local lead to the entities `ess`. -/
def Leads (w : World) (b : CommandBuffer) (ess : List (List Entity)) : Prop :=
  List.Forall₂ (List.Forall₂ fun cmd e => w.leads ⟨cmd.e % 2 ^ 32⟩ = some e)
    (b.locals.map Local.destroies) ess

theorem forall₂_and_right {α β : Type} {R S : α → β → Prop} {P : β → Prop}
    (h : ∀ x y, S x y ↔ P y ∧ R x y) (xs : List α) (ys : List β) :
    List.Forall₂ S xs ys ↔ (∀ y ∈ ys, P y) ∧ List.Forall₂ R xs ys := by
  induction xs generalizing ys with
  | nil => cases ys <;> simp
  | cons x xs ih =>
      cases ys with
      | nil => simp
      | cons y ys =>
          rw [List.forall₂_cons, List.forall₂_cons, List.forall_mem_cons, ih, h,
            and_and_and_comm]

theorem leads_iff (hctx : ctx.Built) (hreg : ctx.tracks.length < 2 ^ 30) {w : World}
    {ess : List (List Entity)} (hreach : Reachable ctx (fun w op => op.Orderly ctx w) w)
    (hsize : w.ents.size < 2 ^ 24) :
    Leads w b ess ↔ (∀ e ∈ ess.flatten, w.Alive e) ∧
      List.Forall₂ (List.Forall₂ fun cmd e => e.id = handleId cmd) (b.locals.map Local.destroies) ess := by
  rw [List.forall_mem_flatten]
  exact forall₂_and_right (P := fun es => ∀ e ∈ es, w.Alive e)
    (forall₂_and_right (P := w.Alive) (R := fun cmd e => e.id = handleId cmd) fun _ _ =>
      World.leads_eq_some hctx hreg hreach hsize) _ _

/-- The transient handles of `destroy` commands are left as they are. -/
theorem destroies_of_resolve (hs : b.locals.mapM (resolve newEnts) = some locals) :
    locals.map Local.destroies = b.locals.map Local.destroies := by
  generalize b.locals = ls at hs
  induction ls generalizing locals with
  | nil =>
      obtain rfl := Option.some.inj hs
      rfl
  | cons loc ls ih =>
      simp only [List.mapM_cons, Option.pure_def, Option.bind_eq_bind, Option.bind_eq_some_iff,
        Option.some.injEq] at hs
      obtain ⟨loc', hone, locals', hrest, rfl⟩ := hs
      simp only [resolve, Option.bind_eq_bind, Option.bind_eq_some_iff] at hone
      obtain ⟨entities, -, hone⟩ := hone
      rw [List.map_cons, List.map_cons, ih hrest, ← Option.some.inj hone]

/-- `execute` returns, what it hands to `pipeline::destroy` are the named entities, each once,
and the directory changes at them alone. `p₂` is the pipeline when its last loop starts. -/
def Destroys (ctx : Context) (fuel : Nat) (b : CommandBuffer) (p p₂ : Pipeline)
    (locals : List Local) (newEnts : List Entity) : Prop :=
  ∃ p' es, b.execute ctx fuel p = some p' ∧
    destroyLogs ctx fuel locals p₂ = some (p', es) ∧ es.Perm (b.named newEnts) ∧
    p'.world.directory = p₂.world.directory.alter (b.named newEnts) (World.remains ctx)

/-- The handles, as they were recorded, lead to the named entities when the loop starts, and none
of these stands right behind that of the command before it when its turn comes, the last ones of
the chunks having moved up. -/
def Apart (b : CommandBuffer) (w : World) (newEnts : List Entity) (ess : List (List Entity)) :
    Prop :=
  Leads w b ess ∧ ess.flatten.Perm (b.named newEnts) ∧ w.rows.AllScattered ess

/-- `execute` destroys the named entities if and only if these are what the handles lead to, they
stand apart, and `world::destroy` of one after the other returns, which it does when they have no
tracked components and no metatypes. They are different, and own no groups. -/
theorem destroys_iff (hctx : ctx.Built) (hreg : ctx.tracks.length < 2 ^ 30)
    (hcreate : b.create ctx fuel p = some (p₁, newEnts))
    (hresolve : b.locals.mapM (resolve newEnts) = some locals)
    (hcasts : locals.foldlM (fun p loc => castAll ctx fuel loc loc.casts p) p₁ = some p₂)
    (hhook : p₂.Hooked) (hreach : Reachable ctx (fun w op => op.Orderly ctx w) p₂.world)
    (hsize : p₂.world.ents.size < 2 ^ 24) (hnodup : (b.named newEnts).Nodup)
    (hgroup : p₂.world.Groupless ctx (b.named newEnts)) :
    (Destroys ctx fuel b p p₂ locals newEnts ↔
      ∃ ess, Apart b p₂.world newEnts ess ∧ ∃ w', p₂.world.destroyEach ctx fuel ess.flatten = some w') ∧
    (fuel ≠ 0 → p₂.world.Plain (b.named newEnts) →
      (Destroys ctx fuel b p p₂ locals newEnts ↔ ∃ ess, Apart b p₂.world newEnts ess)) := by
  suffices hiff : Destroys ctx fuel b p p₂ locals newEnts ↔ ∃ ess, Apart b p₂.world newEnts ess ∧
      ∃ w', p₂.world.destroyEach ctx fuel ess.flatten = some w' by
    refine ⟨hiff, fun hfuel hplain => hiff.trans ⟨fun ⟨ess, h, _⟩ => ⟨ess, h⟩, fun ⟨ess, h⟩ => ?_⟩⟩
    obtain ⟨fuel, rfl⟩ := Nat.exists_eq_succ_of_ne_zero hfuel
    obtain ⟨hleads, hperm, -⟩ := id h
    exact ⟨ess, h, World.destroyEach_returns hctx hreg hreach hsize (hperm.nodup_iff.mpr hnodup)
      (fun e he => hgroup e (hperm.mem_iff.mp he)) ((leads_iff hctx hreg hreach hsize).mp hleads).1
      fun e he => hplain e (hperm.mem_iff.mp he)⟩
  have hexecute : b.execute ctx fuel p = (destroyLogs ctx fuel locals p₂).map Prod.fst := by
    simp only [execute, hcreate, hresolve, hcasts, Option.bind_eq_bind, Option.bind_some]
    exact (destroyLogs_fst locals p₂).symm
  have hlocals := destroies_of_resolve hresolve
  have hcount : (locals.map fun loc => loc.destroies.length).sum = (b.named newEnts).length := by
    have hmap := congrArg (List.map List.length) hlocals
    rw [List.map_map, List.map_map] at hmap
    rw [length_named]
    exact congrArg List.sum hmap
  constructor
  · rintro ⟨p', es, -, hlog, hperm, -⟩
    have halone := (allAlone_of_destroyLogs hlog).2 (hperm.length_eq.trans hcount.symm)
    obtain ⟨ess, rfl, halive, hids, hscattered, hrun, -⟩ := halone.parted hctx hreg hreach hsize
      (hperm.nodup_iff.mpr hnodup) fun e he => hgroup e (hperm.mem_iff.mp he)
    rw [hlocals] at hids
    exact ⟨ess, ⟨(leads_iff hctx hreg hreach hsize).mpr ⟨halive, hids⟩, hperm, hscattered⟩, _, hrun⟩
  · rintro ⟨ess, ⟨hleads, hperm, hscattered⟩, w', hrun⟩
    obtain ⟨halive, hids⟩ := (leads_iff hctx hreg hreach hsize).mp hleads
    rw [← hlocals] at hids
    have hnodup' := hperm.nodup_iff.mpr hnodup
    have hgroup' : p₂.world.Groupless ctx ess.flatten := fun e he => hgroup e (hperm.mem_iff.mp he)
    obtain ⟨p', halone, rfl⟩ := allAlone_of_scattered hctx hreg hhook hreach hsize hnodup' hgroup'
      halive hids hscattered hrun
    have hlog := halone.destroyLogs.1
    obtain ⟨-, -, -, -, -, -, hparted⟩ := halone.parted hctx hreg hreach hsize hnodup' hgroup'
    refine ⟨p', ess.flatten, by rw [hexecute, hlog, Option.map_some], hlog, hperm, ?_⟩
    rw [hparted.directory]
    funext e
    simp only [Population.alter, hperm.mem_iff]

/-! Two entities stand in one chunk, and a command buffer destroys the last one first; then the
first one first; then the handle of an entity that it makes. -/

/-- Two entities. -/
def twoSlots : Option World :=
  runAll World.tracked 4 World.blank [.allocate { types := [5] } 2]

theorem reachable_twoSlots : ∃ w, twoSlots = some w ∧
    Reachable World.tracked (fun w op => op.Orderly World.tracked w) w ∧
    w.asSlice ⟨0⟩ = some { c := 0, start := 0, count := 1 } ∧
    w.asSlice ⟨256⟩ = some { c := 0, start := 1, count := 1 } := by
  have hsome : twoSlots.map (fun w => [w.asSlice ⟨0⟩, w.asSlice ⟨256⟩]) =
      some [some ⟨0, 0, 1⟩, some ⟨0, 1, 1⟩] := by decide +kernel
  obtain ⟨w, hw, hslices⟩ := Option.map_eq_some_iff.mp hsome
  simp only [List.cons.injEq, and_true] at hslices
  refine ⟨w, hw, (reachable_blank World.tracked _).runAll ?_ hw, hslices⟩
  intro op hop v
  obtain rfl := List.mem_singleton.mp hop
  exact ⟨trivial, trivial, trivial, trivial, by decide, by decide⟩

/-- They own no groups, and have nothing that is tracked. -/
theorem plain_twoSlots {w : World} (hw : twoSlots = some w) : w.ents.size < 2 ^ 24 ∧
    w.Groupless World.tracked [⟨256⟩, ⟨0⟩] ∧ w.Plain [⟨256⟩, ⟨0⟩] := by
  have hsome : twoSlots.map (fun w => (w.ents.size, (w.archetypeOf 0).map fun p =>
      (p.2.index World.tracked.groupId, p.2.withTracked, p.2.metatypes))) =
      some (2, some (invalidIndex, false, [])) := by decide +kernel
  obtain ⟨v, hv, -, hzero, hone⟩ := reachable_twoSlots
  obtain rfl := Option.some.inj (hv.symm.trans hw)
  rw [hw, Option.map_some, Option.some.injEq, Prod.mk.injEq] at hsome
  obtain ⟨hsize, harch⟩ := hsome
  obtain ⟨⟨g, a⟩, ha, hdata⟩ := Option.map_eq_some_iff.mp harch
  simp only [Prod.mk.injEq] at hdata
  have hlt : v.ents.size < 2 ^ 24 := by
    rw [hsize]
    decide
  have hchunk : ∀ e ∈ [(⟨256⟩ : Entity), ⟨0⟩], ∀ c i g' b, v.Found e c i →
      v.archetypeOf c = some (g', b) → b = a := by
    intro e he c i g' b hf hb
    have hslice := World.asSlice_of_at (hf.entry hlt)
    obtain rfl : c = 0 := by
      rcases List.mem_pair.mp he with rfl | rfl
      · exact congrArg ChunkSlice.c (Option.some.inj (hslice.symm.trans hone))
      · exact congrArg ChunkSlice.c (Option.some.inj (hslice.symm.trans hzero))
    exact (Prod.mk.inj (Option.some.inj (hb.symm.trans ha))).2
  refine ⟨hlt, fun e he c i g' b hf hb => ?_, fun e he c i g' b hf hb => Or.inr ?_⟩
  · rw [hchunk e he c i g' b hf hb]
    exact hdata.1
  · rw [hchunk e he c i g' b hf hb]
    exact hdata.2

/-- Without other commands the last loop starts at once. -/
theorem stages_of_destroies (ctx : Context) (fuel : Nat) (p : Pipeline)
    (cmds : List CmdDestroy) :
    CommandBuffer.create ctx fuel { locals := [{ destroies := cmds }] } p = some (p, []) ∧
      [({ destroies := cmds } : Local)].mapM (resolve []) = some [{ destroies := cmds }] ∧
      [({ destroies := cmds } : Local)].foldlM
        (fun p loc => castAll ctx fuel loc loc.casts p) p = some p :=
  ⟨rfl, rfl, rfl⟩

theorem destroys_lastFirst : ∃ w b, twoSlots = some w ∧
    recordAll [(0, .destroy ⟨256⟩), (0, .destroy ⟨0⟩)] = some b ∧
    Apart b w [] [[⟨256⟩, ⟨0⟩]] ∧
    Destroys World.tracked 4 b (Pipeline.onWorld w) (Pipeline.onWorld w) b.locals [] := by
  obtain ⟨w, hw, hreach, hzero, hone⟩ := reachable_twoSlots
  have hstand : twoSlots.map (fun w => (w.leads ⟨256⟩, w.leads ⟨0⟩,
      decide (w.rows.AllScattered [[⟨256⟩, ⟨0⟩]]))) = some (some ⟨256⟩, some ⟨0⟩, true) := by
    decide +kernel
  rw [hw, Option.map_some] at hstand
  simp only [Option.some.injEq, Prod.mk.injEq, decide_eq_true_eq] at hstand
  obtain ⟨hsize, hgroup, hplain⟩ := plain_twoSlots hw
  obtain ⟨hcreate, hresolve, hcasts⟩ := stages_of_destroies World.tracked 4
    (Pipeline.onWorld w) [⟨256⟩, ⟨0⟩]
  have hapart : Apart { locals := [{ destroies := [⟨256⟩, ⟨0⟩] }] } w [] [[⟨256⟩, ⟨0⟩]] :=
    ⟨.cons (.cons hstand.1 (.cons hstand.2.1 .nil)) .nil, .refl _, hstand.2.2⟩
  have hreached : Pipeline.Reached World.tracked (Pipeline.onWorld w) :=
    Pipeline.reached_onWorld (World.known_of_reachable hreach)
  refine ⟨w, _, hw, rfl, hapart, ?_⟩
  have hiff := (destroys_iff World.built_tracked (by decide) hcreate hresolve hcasts
    (Pipeline.hooked_of_reached hreached) hreach hsize (by decide) hgroup).2 (by decide) hplain
  exact hiff.mpr ⟨_, hapart⟩

/-- The second entity stands right behind the first. -/
theorem not_destroys_adjacent : ∃ w b, twoSlots = some w ∧
    Reachable World.tracked (fun w op => op.Orderly World.tracked w) w ∧
    recordAll [(0, .destroy ⟨0⟩), (0, .destroy ⟨256⟩)] = some b ∧
    ∀ fuel, ¬ Destroys World.tracked fuel b (Pipeline.onWorld w) (Pipeline.onWorld w) b.locals
      [] := by
  obtain ⟨w, hw, hreach, hzero, hone⟩ := reachable_twoSlots
  refine ⟨w, _, hw, hreach, rfl, fun fuel => ?_⟩
  rintro ⟨p', es, -, hlog, hperm, -⟩
  have halone := (allAlone_of_destroyLogs hlog).2 hperm.length_eq
  cases halone with
  | cons hfirst _ =>
      cases hfirst with
      | @cons _ _ _ _ _ s _ _ hslice hnext _ _ =>
          obtain ⟨s2, hs2, hbehind⟩ := hnext _ rfl
          obtain rfl := Option.some.inj (hzero.symm.trans hslice)
          obtain rfl := Option.some.inj (hone.symm.trans hs2)
          simp [behind] at hbehind

/-- The handle of the entity that is made leads to the entity with its number. -/
theorem destroys_numbered : ∃ w b p' p₁, twoSlots = some w ∧
    Reachable World.tracked (fun w op => op.Orderly World.tracked w) w ∧
    recordAll [(0, .allocate { types := [5] }), (0, .destroy (Entity.makeTransient 0))] = some b ∧
    b.create World.tracked 4 (Pipeline.onWorld w) = some (p₁, [⟨512⟩]) ∧
    w.ents.exist ⟨0⟩ = true ∧ b.execute World.tracked 4 (Pipeline.onWorld w) = some p' ∧
    p'.world.ents.exist ⟨0⟩ = false ∧ p'.world.ents.exist ⟨512⟩ = true := by
  obtain ⟨b, hrec⟩ : ∃ b, recordAll [(0, .allocate { types := [5] }),
      (0, .destroy (Entity.makeTransient 0))] = some b := ⟨_, rfl⟩
  have hcreate : ((recordAll [(0, .allocate { types := [5] }),
      (0, .destroy (Entity.makeTransient 0))]).bind fun b => twoSlots.bind fun w =>
      (b.create World.tracked 4 (Pipeline.onWorld w)).map Prod.snd) = some [⟨512⟩] := by
    decide +kernel
  have hexists : ((recordAll [(0, .allocate { types := [5] }),
      (0, .destroy (Entity.makeTransient 0))]).bind fun b => twoSlots.bind fun w =>
      (b.execute World.tracked 4 (Pipeline.onWorld w)).map fun p' =>
        [w.ents.exist ⟨0⟩, p'.world.ents.exist ⟨0⟩, p'.world.ents.exist ⟨512⟩]) =
      some [true, false, true] := by decide +kernel
  obtain ⟨w, hw, hreach, -⟩ := reachable_twoSlots
  rw [hrec, Option.bind_some, hw, Option.bind_some] at hcreate hexists
  obtain ⟨⟨p₁, newEnts⟩, hcreate, rfl⟩ := Option.map_eq_some_iff.mp hcreate
  obtain ⟨p', hexecute, hexists⟩ := Option.map_eq_some_iff.mp hexists
  simp only [List.cons.injEq, and_true] at hexists
  exact ⟨w, b, p', p₁, hw, hreach, hrec, hcreate, hexists.1, hexecute, hexists.2⟩

end CommandBuffer

end Dots

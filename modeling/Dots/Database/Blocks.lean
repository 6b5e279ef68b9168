import Dots.Database.Capacity
import Dots.Database.Carry
import Dots.Database.Keys

/-!
# Whole blocks

The timestamps of a chunk are the last words of its block. Where the parts of a block are apart,
no component reaches the timestamps and no timestamp a component: the block is what is kept of the
slots, with the timestamps behind.
-/

namespace Dots

open Library

namespace Archetype

/-- The parts of a block are apart in every bin of which a chunk holds at least one entity, and
buffers have room for their header. -/
structure Laid (a : Archetype) : Prop where
  roomy : a.Roomy
  fits : ∀ ct, a.chunkCapacity ct ≠ 0 → a.FitsBin ct

instance (r s : Nat × Nat) : Decidable (PartsApart r s) :=
  inferInstanceAs (Decidable (_ ∨ _))

instance (a : Archetype) (ct : AllocType) : Decidable (a.FitsBin ct) :=
  decidable_of_iff ((a.blockParts ct).Pairwise PartsApart ∧
      ∀ r ∈ a.blockParts ct, r.1 + r.2 ≤ binSize ct)
    ⟨fun h => ⟨h.1, h.2⟩, fun h => ⟨h.apart, h.inside⟩⟩

instance (a : Archetype) : Decidable a.Laid :=
  decidable_of_iff ((∀ k < a.firstManaged, a.firstBuffer ≤ k → sizeofBuffer ≤ a.size k) ∧
      ∀ ct ∈ [AllocType.smallbin, .fastbin, .largebin], a.chunkCapacity ct ≠ 0 → a.FitsBin ct)
    ⟨fun h => ⟨fun k hk hk' => h.1 k hk' hk, fun ct => h.2 ct (by cases ct <;> simp)⟩,
      fun h => ⟨fun k hk' hk => h.roomy k hk hk', fun ct _ => h.fits ct⟩⟩

/-- `archetype::timestamps`, counted from `data()`. -/
def wordsStart (a : Archetype) (ct : AllocType) : Nat := binSize ct - sizeofChunk - 4 * a.firstTag

variable {a : Archetype} {ct : AllocType} {k i : Nat}

theorem FitsBin.handle_le (h : a.FitsBin ct) (hi : i < a.chunkCapacity ct) :
    sizeofEntity * i + sizeofEntity ≤ a.wordsStart ct := by
  obtain ⟨hapart, hinside⟩ := h
  simp only [blockParts, List.pairwise_cons, List.mem_cons, forall_eq_or_imp, PartsApart]
    at hapart hinside
  obtain ⟨-, ⟨hwords, -⟩, -⟩ := hapart
  obtain ⟨-, hend, -, -⟩ := hinside
  have hroom : sizeofEntity * i + sizeofEntity ≤ sizeofEntity * a.chunkCapacity ct :=
    Nat.mul_le_mul_left sizeofEntity (Nat.succ_le_of_lt hi)
  have hentity : 0 < sizeofEntity := by decide
  unfold wordsStart
  omega

theorem FitsBin.cell_le (h : a.FitsBin ct) (hk : k < a.firstTag) (hi : i < a.chunkCapacity ct)
    (hpos : 0 < a.size k) : a.address ct k i + a.size k ≤ a.wordsStart ct := by
  obtain ⟨hapart, hinside⟩ := h
  simp only [blockParts, List.pairwise_cons, List.mem_cons, List.mem_map, List.mem_range,
    forall_eq_or_imp, forall_exists_index, and_imp, forall_apply_eq_imp_iff₂, PartsApart]
    at hapart hinside
  obtain ⟨-, -, hcolumns, -⟩ := hapart
  obtain ⟨-, -, -, hends⟩ := hinside
  have hwords := hcolumns k hk
  have hend := hends k hk
  have hroom := Nat.mul_le_mul_left (a.size k) (Nat.succ_le_of_lt hi)
  rw [Nat.mul_succ] at hroom
  have hchunk : sizeofChunk = 32 := rfl
  unfold wordsStart address
  omega

end Archetype

/-- The parts of all blocks are apart. -/
def Store.Laid (st : Store) : Prop := ∀ g < st.freshArchetype, ∀ a ∈ st.archetype g, a.Laid

instance (st : Store) : Decidable st.Laid :=
  inferInstanceAs (Decidable (∀ g < st.freshArchetype, ∀ a ∈ st.archetype g, a.Laid))

theorem Store.Laid.of_wf {ctx : Context} {st : Store} {g : ArchetypeId} {a : Archetype}
    (h : st.Laid) (hwf : st.Wf ctx) (ha : st.archetype g = some a) : a.Laid :=
  h g (hwf.built g a ha).1 a ha

/-- Archetypes that were there already. -/
theorem Store.Laid.of_older {ctx : Context} {st st' : Store} (h : st.Laid) (hwf : st.Wf ctx)
    (hold : Store.Older st st') : st'.Laid :=
  fun g _ a ha => h.of_wf hwf (hold g a ha)

namespace World

variable {w : World} {g : ArchetypeId} {a : Archetype} {c : ChunkId} {k i x : Nat}

/-- The bytes of a chunk behind its header, with the timestamps at the end. -/
def wholeBlock (w : World) (c : ChunkId) : Mem :=
  match w.archetypeOf c with
  | some (_, a) =>
      (w.memory.data c).writeWords (a.wordsStart (w.store.ct c)) (w.store.timestamps c) a.firstTag
  | none => w.memory.data c

/-- The world with whole blocks. -/
def whole (w : World) : World := { w with memory := { w.memory with data := w.wholeBlock } }

theorem wholeBlock_eq (h : w.archetypeOf c = some (g, a)) : w.wholeBlock c =
    (w.memory.data c).writeWords (a.wordsStart (w.store.ct c)) (w.store.timestamps c)
      a.firstTag := by
  rw [wholeBlock, h]

theorem wholeBlock_of_lt (h : w.archetypeOf c = some (g, a))
    (hx : x < a.wordsStart (w.store.ct c)) : w.wholeBlock c x = w.memory.data c x := by
  rw [wholeBlock_eq h]
  exact Mem.writeWords_of_lt _ _ _ hx

/-- The timestamps are read from the end of the block. -/
theorem readWord_wholeBlock (h : w.archetypeOf c = some (g, a)) (hi : i < a.firstTag) :
    (w.wholeBlock c).readWord (a.wordsStart (w.store.ct c) + 4 * i) 4 =
      w.store.timestamps c i % 2 ^ 32 := by
  rw [wholeBlock_eq h]
  exact Mem.readWord_writeWords _ _ _ hi

/-- `structural_change` writes these words and nothing else of the block. -/
theorem wholeBlock_structuralChange (hl : Layout a) (h : w.archetypeOf c = some (g, a)) :
    wholeBlock { w with store := w.store.structuralChange g a c } c =
      (w.wholeBlock c).writeWords (a.wordsStart (w.store.ct c)) (fun _ => w.store.timestamp)
        a.firstTag := by
  have hc : (w.store.structuralChange g a c).type c = some g := by
    rw [(Store.structuralChange_shape w.store g a c).type]
    exact (archetypeOf_eq_some.mp h).1
  have ha : (w.store.structuralChange g a c).archetype g = some a := by
    rw [(Store.structuralChange_shape w.store g a c).archetype]
    exact (archetypeOf_eq_some.mp h).2
  have hct : (w.store.structuralChange g a c).ct c = w.store.ct c := by
    rw [(Store.structuralChange_shape w.store g a c).ct]
  rw [wholeBlock_eq (archetypeOf_eq_some.mpr ⟨hc, ha⟩), wholeBlock_eq h, Mem.writeWords_writeWords]
  dsimp only
  rw [hct]
  refine Mem.writeWords_congr _ _ fun i hi => ?_
  simp only [Store.structuralChange]
  rw [Function.update_self, if_pos (hi.trans_le hl.tag_le)]
  split_ifs <;> rfl

/-- What is written before these words is written to the block, and the rest stays. -/
theorem wholeBlock_of_writes {W : Nat → Prop} {mm : Memory} (h : w.archetypeOf c = some (g, a))
    (hw : Memory.Writes c W w.memory mm) (hW : ∀ x, W x → x < a.wordsStart (w.store.ct c)) :
    (∀ x, W x → wholeBlock { w with memory := mm } c x = mm.data c x) ∧
      ∀ x, ¬ W x → wholeBlock { w with memory := mm } c x = w.wholeBlock c x := by
  have h' : archetypeOf { w with memory := mm } c = some (g, a) := h
  refine ⟨fun x hx => wholeBlock_of_lt h' (hW x hx), fun x hx => ?_⟩
  rw [wholeBlock_eq h', wholeBlock_eq h]
  exact Mem.writeWords_of_eq (hw.same x hx)

section Laid

variable (h : w.archetypeOf c = some (g, a)) (hfits : a.FitsBin (w.store.ct c))
  (hi : i < a.chunkCapacity (w.store.ct c))

include h hfits hi

theorem entityAt_whole : w.whole.memory.entityAt c i = w.memory.entityAt c i := by
  have hle := hfits.handle_le hi
  refine Entity.ext (Mem.readWord_congr fun y hy => wholeBlock_of_lt h ?_)
  have hentity : sizeofEntity = 4 := rfl
  omega

theorem cell_whole (hk : k < a.firstTag) :
    w.whole.memory.cell c a (w.store.ct c) k i = w.memory.cell c a (w.store.ct c) k i := by
  refine Mem.read_eq fun y hy => wholeBlock_of_lt h ?_
  have hle := hfits.cell_le hk hi (by omega)
  omega

end Laid

/-! ## Worlds with the same entities -/

/-- `v` is `w` up to bytes that belong to no entity. -/
structure SameSlots (w v : World) : Prop where
  store : v.store = w.store
  ents : v.ents = w.ents
  heap : v.memory.heap = w.memory.heap
  freshBlock : v.memory.freshBlock = w.memory.freshBlock
  handle : ∀ c i, w.store.Occupied c i → v.memory.entityAt c i = w.memory.entityAt c i
  cells : ∀ c i g a, w.archetypeOf c = some (g, a) → w.store.Occupied c i → ∀ k < a.firstTag,
    v.memory.cell c a (w.store.ct c) k i = w.memory.cell c a (w.store.ct c) k i

variable {v w' v' : World} {K : Watched} {c' : ChunkId} {i' : Nat}

theorem SameSlots.archetypeOf (h : SameSlots w v) (c : ChunkId) :
    v.archetypeOf c = w.archetypeOf c := by
  rw [World.archetypeOf, World.archetypeOf, h.store]

theorem SameSlots.symm (h : SameSlots w v) : SameSlots v w where
  store := h.store.symm
  ents := h.ents.symm
  heap := h.heap.symm
  freshBlock := h.freshBlock.symm
  handle c i hi := (h.handle c i (h.store ▸ hi)).symm
  cells c i g a ha hi k hk := by
    rw [h.store]
    exact (h.cells c i g a (h.archetypeOf c ▸ ha) (h.store ▸ hi) k hk).symm

theorem slot_fits {ctx : Context} (hwf : w.store.Wf ctx) (hlaid : w.store.Laid)
    (harch : w.archetypeOf c = some (g, a)) (hi : w.store.Occupied c i) :
    a.FitsBin (w.store.ct c) ∧ i < a.chunkCapacity (w.store.ct c) := by
  obtain ⟨hc, ha⟩ := archetypeOf_eq_some.mp harch
  have hlt : i < a.chunkCapacity (w.store.ct c) := hi.2.trans_le (hwf.count_le c g a hc ha)
  exact ⟨(hlaid.of_wf hwf ha).fits _ (Nat.ne_of_gt (Nat.zero_lt_of_lt hlt)), hlt⟩

/-- The blocks hold the entities. -/
theorem sameSlots_whole {ctx : Context} (hwf : w.store.Wf ctx) (hl : w.store.Laid) :
    SameSlots w w.whole := by
  refine ⟨rfl, rfl, rfl, rfl, fun c i hi => ?_, fun c i g a ha hi k hk => ?_⟩
  · cases ha : w.archetypeOf c with
    | none => simp only [Memory.entityAt, whole, wholeBlock, ha]
    | some p =>
        obtain ⟨hfits, hlt⟩ := slot_fits hwf hl ha hi
        exact entityAt_whole ha hfits hlt
  · obtain ⟨hfits, hlt⟩ := slot_fits hwf hl ha hi
    exact cell_whole ha hfits hlt hk

/-- The blocks hold the timestamps, behind the entities. -/
def InBlocks (w : World) : Prop :=
  SameSlots w w.whole ∧ ∀ c g a, w.archetypeOf c = some (g, a) → ∀ k < a.firstTag,
    (w.wholeBlock c).readWord (a.wordsStart (w.store.ct c) + 4 * k) 4 =
      w.store.timestamps c k % 2 ^ 32

theorem inBlocks_of_laid {ctx : Context} (hwf : w.store.Wf ctx) (hl : w.store.Laid) : w.InBlocks :=
  ⟨sameSlots_whole hwf hl, fun _ _ _ harch _ hk => readWord_wholeBlock harch hk⟩

/-- What one world carries over to another, so do the others with their entities. -/
theorem Carried.sameSlots (hs : SameSlots w v) (hs' : SameSlots w' v')
    (hi : w.store.Occupied c i) (hi' : w'.store.Occupied c' i')
    (h : Carried K g a w c i w' c' i') : Carried K g a v c i v' c' i' where
  before := (hs.archetypeOf c).trans h.before
  after := (hs'.archetypeOf c').trans h.after
  handle := by rw [hs.handle c i hi, hs'.handle c' i' hi', h.handle]
  cells k hk hK := by
    rw [hs.store, hs'.store, hs.cells c i g a h.before hi k hk,
      hs'.cells c' i' g a h.after hi' k hk, h.cells k hk hK]

theorem SameSlots.byte (h : SameSlots w v) (ha : w.archetypeOf c = some (g, a))
    (hi : w.store.Occupied c i) (hk : k < a.firstTag) {y : Nat} (hy : y < a.size k) :
    v.memory.data c (a.address (w.store.ct c) k i + y) =
      w.memory.data c (a.address (w.store.ct c) k i + y) :=
  Mem.read_inj (h.cells c i g a ha hi k hk) hy

/-- The header of a buffer is read from its cell. -/
theorem SameSlots.readBuffer (h : SameSlots w v) (ha : w.archetypeOf c = some (g, a))
    (hi : w.store.Occupied c i) (hk : k < a.firstTag) (hroom : sizeofBuffer ≤ a.size k) :
    Mem.readBuffer (v.memory.data c) (a.address (w.store.ct c) k i) =
      Mem.readBuffer (w.memory.data c) (a.address (w.store.ct c) k i) :=
  Memory.readBuffer_congr fun _ hy => h.byte ha hi hk (hy.trans_le hroom)

end World

/-! ## Calls that build archetypes -/

/-- The keys whose archetypes a call on entities without groups looks up. -/
def Op.Asks (ctx : Context) (w : World) (key : EntityType) : Op → Prop
  | .allocate type _ => key = type
  | .instantiate src _ => ∃ s g a, w.asSlice src = some s ∧ w.archetypeOf s.c = some (g, a) ∧
      a.cleaning = false ∧ key = World.castedType ctx a {} true
  | .destroy s => ∃ g a, w.archetypeOf s.c = some (g, a) ∧ a.cleaning = false ∧
      World.leavesDead ctx a = true ∧ key = World.cleaningKey ctx a
  | .cast s diff => ∃ g a, w.archetypeOf s.c = some (g, a) ∧
      World.castFrees ctx a diff = false ∧ key = World.castedType ctx a diff false
  | .castType _ type => key = type
  | .getArchetype type => key = type
  | .query _ => False
  | .write _ => False

/-- An archetype that the call would build has the parts of its blocks apart. -/
def Op.LaysOut (ctx : Context) (w : World) (op : Op) : Prop :=
  ∀ key, op.Asks ctx w key → ∀ a, constructArchetype ctx key = some a → a.Laid

theorem Op.laysOut_of_key {ctx : Context} {w : World} {op : Op} {key : EntityType}
    (hop : ∀ key', op.Asks ctx w key' → key' = key)
    (hkey : ∀ a ∈ constructArchetype ctx key, a.Laid) : op.LaysOut ctx w :=
  fun key' hasks a ha => hkey a (hop key' hasks ▸ ha)

theorem Op.laysOut_allocate {ctx : Context} {w : World} {type : EntityType} (n : Nat)
    (htype : ∀ a ∈ constructArchetype ctx type, a.Laid) : (Op.allocate type n).LaysOut ctx w :=
  Op.laysOut_of_key (fun _ => id) htype

theorem Op.laysOut_destroy {ctx : Context} {w : World} {s : ChunkSlice} {g : ArchetypeId}
    {a : Archetype} (harch : w.archetypeOf s.c = some (g, a))
    (hdead : World.leavesDead ctx a = true →
      ∀ b ∈ constructArchetype ctx (World.cleaningKey ctx a), b.Laid) :
    (Op.destroy s).LaysOut ctx w := by
  rintro _ ⟨g', a', harch', -, hleaves, rfl⟩
  obtain ⟨-, rfl⟩ := Prod.mk.inj (Option.some.inj (harch'.symm.trans harch))
  exact hdead hleaves

theorem Op.laysOut_cast {ctx : Context} {w : World} {s : ChunkSlice} {diff : TypeDiff}
    {g : ArchetypeId} {a : Archetype} (harch : w.archetypeOf s.c = some (g, a))
    (hcasted : World.castFrees ctx a diff = false →
      ∀ b ∈ constructArchetype ctx (World.castedType ctx a diff false), b.Laid) :
    (Op.cast s diff).LaysOut ctx w := by
  rintro _ ⟨g', a', harch', hstays, rfl⟩
  obtain ⟨-, rfl⟩ := Prod.mk.inj (Option.some.inj (harch'.symm.trans harch))
  exact hcasted hstays

namespace World

/-- The archetypes after the call are old ones, or built for a key that the call looks up. -/
def Builds (ctx : Context) (w : World) (op : Op) (w' : World) : Prop :=
  ∀ g b, w'.store.archetype g = some b →
    w.store.archetype g = some b ∨ ∃ key, op.Asks ctx w key ∧ constructArchetype ctx key = some b

variable {ctx : Context} {w w₁ w' : World} {g : ArchetypeId} {fuel : Nat} {op : Op}

theorem Builds.of_older (hold : Store.Older w.store w'.store) : Builds ctx w op w' :=
  fun g b hb => Or.inl (hold g b hb)

theorem Builds.of_getArchetype {key : EntityType} (hasks : op.Asks ctx w key)
    (hget : w.getArchetype ctx key = some (w₁, g)) (hold : Store.Older w₁.store w'.store) :
    Builds ctx w op w' := by
  obtain ⟨st, hst, rfl⟩ := getArchetype_eq_some hget
  intro h b hb
  rcases Store.archetype_of_getArchetype hst (hold h b hb) with hb | hnew
  · exact Or.inl hb
  · exact Or.inr ⟨key, hasks, hnew⟩

theorem builds_destroySingle {s : ChunkSlice} (hs : w.destroySingle ctx fuel s = some w') :
    Builds ctx w (.destroy s) w' := by
  obtain ⟨g, a, hc, ha, hcase⟩ := destroySingle_cases hs
  rcases hcase with ⟨-, rfl⟩ | ⟨-, -, hrel⟩ | ⟨hclean, hdead, w₁, g', ss, hget, hcast⟩
  · exact .of_older (Store.Older.refl _)
  · exact .of_older (older_release hrel)
  · exact .of_getArchetype ⟨g, a, archetypeOf_eq_some.mpr ⟨hc, ha⟩, hclean, hdead, rfl⟩ hget
      (older_castSlice hcast)

theorem builds_instantiateSingle {src : Entity} {n : Nat} {ss : List ChunkSlice}
    (hs : w.instantiateSingle ctx fuel src n = some (w', ss)) :
    Builds ctx w (.instantiate src n) w' := by
  simp only [World.instantiateSingle, Option.bind_eq_bind, Option.bind_eq_some_iff] at hs
  obtain ⟨s, hslice, ⟨g, a⟩, harch, ⟨w₁, target⟩, hcasted, hs⟩ := hs
  rcases getCasted_cases hcasted with ⟨rfl, rfl, -⟩ | ⟨g', rfl, hget, -⟩
  · simp only at hs
    split_ifs at hs
    obtain ⟨rfl, -⟩ := Prod.mk.inj (Option.some.inj hs)
    exact .of_older (Store.Older.refl _)
  · have hclean : a.cleaning = false := eq_false_of_ne_true fun hclean => by
      simp [getCasted, hclean] at hcasted
    exact .of_getArchetype ⟨s, g, a, hslice, harch, hclean, rfl⟩ hget (older_instantiateLoop hs)

/-- Each call looks up one archetype at most. -/
theorem builds_run (hgroup : op.NoGroup ctx w) (hs : op.run ctx fuel w = some w') :
    Builds ctx w op w' := by
  cases op with
  | allocate type count =>
      obtain ⟨⟨_, ss⟩, hrun, rfl⟩ := Option.map_eq_some_iff.mp hs
      simp only [World.allocate, Option.bind_eq_bind, Option.bind_eq_some_iff] at hrun
      obtain ⟨⟨w₁, g⟩, hget, hrun⟩ := hrun
      exact .of_getArchetype rfl hget (older_allocateLoop hrun)
  | instantiate src count =>
      obtain ⟨⟨_, ss⟩, hrun, rfl⟩ := Option.map_eq_some_iff.mp hs
      have hnone : w.getComponentRo src ctx.groupId = some none := hgroup
      simp only [World.instantiate, hnone, Option.bind_eq_bind, Option.bind_some] at hrun
      exact builds_instantiateSingle hrun
  | destroy s =>
      cases fuel with
      | zero => simp [Op.run, World.destroy] at hs
      | succ fuel =>
          simp only [Op.run, World.destroy, Option.bind_eq_bind, Option.bind_eq_some_iff] at hs
          obtain ⟨⟨g, a⟩, harch, hs⟩ := hs
          rw [if_pos (hgroup g a harch), Option.bind_some] at hs
          exact builds_destroySingle hs
  | cast s diff =>
      obtain ⟨⟨_, ss⟩, hrun, rfl⟩ := Option.map_eq_some_iff.mp hs
      simp only [World.cast, Option.bind_eq_bind, Option.bind_eq_some_iff] at hrun
      obtain ⟨⟨g, a⟩, harch, ⟨w₁, target⟩, hcasted, hrun⟩ := hrun
      rcases getCasted_cases hcasted with ⟨rfl, rfl, -⟩ | ⟨g', rfl, hget, hstays⟩
      · exact .of_older (older_castTo hrun)
      · exact .of_getArchetype ⟨g, a, harch, hstays rfl, rfl⟩ hget (older_castTo hrun)
  | castType s type =>
      obtain ⟨⟨_, ss⟩, hrun, rfl⟩ := Option.map_eq_some_iff.mp hs
      simp only [World.castType, Option.bind_eq_bind, Option.bind_eq_some_iff] at hrun
      obtain ⟨⟨w₁, g⟩, hget, hrun⟩ := hrun
      exact .of_getArchetype rfl hget (older_castTo hrun)
  | getArchetype type =>
      obtain ⟨⟨_, g⟩, hrun, rfl⟩ := Option.map_eq_some_iff.mp hs
      exact .of_getArchetype rfl hrun (Store.Older.refl _)
  | query f =>
      obtain ⟨⟨_, q⟩, hrun, rfl⟩ := Option.map_eq_some_iff.mp hs
      obtain ⟨queries, rfl⟩ := query_eq_some hrun
      exact .of_older (Store.Older.refl _)
  | write memory =>
      obtain rfl := Option.some.inj hs
      exact .of_older (Store.Older.refl _)

/-- A call that lays out what it builds keeps the parts of all blocks apart. -/
theorem Builds.laid (h : Builds ctx w op w') (hwf : w.store.Wf ctx) (hlaid : w.store.Laid)
    (hlays : op.LaysOut ctx w) : w'.store.Laid := by
  intro g _ b hb
  rcases h g b hb with hold | ⟨key, hasks, hnew⟩
  · exact hlaid.of_wf hwf hold
  · exact hlays key hasks b hnew

theorem laid_initial (timestamp : Nat) (raw : Nat → Nat) (data : ChunkId → Mem)
    (guids : Nat → List UInt8) : (initial timestamp raw data guids).store.Laid := by
  simp [Store.Laid, World.initial]

end World

end Dots

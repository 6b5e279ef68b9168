import Dots.Database.Location
import Dots.Database.Wellformed

/-!
# Operations and runs

A step is one call that completes. What a result asks of its calls, beyond the
slices they are given, is a parameter of the run.
-/

namespace Dots

open Library

/-- The slots of a chunk that hold an entity. -/
def Store.Occupied (st : Store) (c : ChunkId) (i : Nat) : Prop :=
  st.type c ≠ none ∧ i < st.count c

/-- A new world has no chunk and no archetype. -/
theorem Store.wf_initial (ctx : Context) (timestamp : Nat) (raw : Nat → Nat)
    (data : ChunkId → Mem) (guids : Nat → List UInt8) :
    (World.initial timestamp raw data guids).store.Wf ctx where
  consistent := by simp [World.initial, Links.Consistent]
  ends := fun c => ⟨[], rfl, rfl⟩
  same := by simp [World.initial]
  first := by simp [World.initial]
  last := by simp [World.initial]
  free := by simp [World.initial]
  fresh := fun _ _ => rfl
  known := by simp [World.initial]
  built := by simp [World.initial]
  count_le := by simp [World.initial]

/-- The calls of the interface that change a world. `write` is what a program does
through the component pointers it was given. -/
inductive Op
  | allocate (type : EntityType) (count : Nat)
  | instantiate (src : Entity) (count : Nat)
  | destroy (s : ChunkSlice)
  | cast (s : ChunkSlice) (diff : TypeDiff)
  | castType (s : ChunkSlice) (type : EntityType)
  | getArchetype (type : EntityType)
  | query (f : ArchetypeFilter)
  | write (memory : Memory)

/-! ## Castable archetypes -/

theorem take_segment (p : TypeIndex → Bool) (ts : List TypeIndex) :
    ts.take (segment p ts) = ts.takeWhile fun t => !p t :=
  (List.prefix_iff_eq_take.mp (List.takeWhile_prefix _)).symm

theorem infos_of_staticCastableFrom {ctx : Context} (hctx : ctx.Paired) {ts us : List TypeIndex}
    (h : World.staticCastableFrom ctx ts us = true) :
    (ts.takeWhile fun t => !t.isTag).map ctx.info =
      (us.takeWhile fun t => !t.isTag).map ctx.info := by
  induction ts generalizing us with
  | nil =>
      cases us with
      | nil => rfl
      | cons u us => simp [show u.isTag = true from h]
  | cons t ts ih =>
      cases us with
      | nil => simp [show t.isTag = true from h]
      | cons u us =>
          simp only [World.staticCastableFrom] at h
          split_ifs at h with htags hvalid
          · simp only [Bool.and_eq_true] at htags
            simp [htags.1, htags.2]
          · obtain ⟨hti, htt⟩ := hctx.toValidType t
            obtain ⟨hui, hut⟩ := hctx.toValidType u
            rw [hvalid] at hti htt
            have htag : t.isTag = u.isTag := htt.symm.trans hut
            cases htu : u.isTag with
            | true =>
                rw [htu] at htag
                simp [htag, htu]
            | false =>
                rw [htu] at htag
                simp [htag, htu, hti.symm.trans hui, ih h]

/-- A chunk may hold as many entities of one archetype as of the other. -/
theorem capacity_of_staticCastable {ctx : Context} (hctx : ctx.Paired) {k l : EntityType}
    {a b : Archetype} (ha : constructArchetype ctx k = some a)
    (hb : constructArchetype ctx l = some b) (h : World.staticCastable ctx k l = true) :
    a.chunkCapacity = b.chunkCapacity := by
  have hinfos := infos_of_staticCastableFrom hctx h
  rw [← take_segment, ← take_segment] at hinfos
  have hlen := congrArg List.length hinfos
  rw [List.length_map, List.length_map, List.length_take, List.length_take,
    Nat.min_eq_left (segment_le _ _), Nat.min_eq_left (segment_le _ _)] at hlen
  rw [hlen] at hinfos
  simp only [constructArchetype] at ha hb
  split_ifs at ha hb
  rw [← Option.some.inj ha, ← Option.some.inj hb]
  simp only [hlen, hinfos]

namespace World

/-- A slice as the interface hands them out: entities of one chunk, at least one. -/
structure ValidSlice (w : World) (s : ChunkSlice) : Prop where
  typed : w.store.type s.c ≠ none
  pos : 0 < s.count
  le : s.start + s.count ≤ w.store.count s.c

/-- `world::query`, which caches the filter. -/
def query (ctx : Context) (w : World) (f : ArchetypeFilter) : Option (World × QueryCache) := do
  let (st, q) ← Store.getQueryCache ctx w.store w.ents f
  some ({ w with store := st }, q)

/-! ## What the calls are made of -/

variable {ctx : Context} {w w' : World} {g : ArchetypeId} {a : Archetype}

theorem archetypeOf_eq_some {c : ChunkId} :
    w.archetypeOf c = some (g, a) ↔ w.store.type c = some g ∧ w.store.archetype g = some a := by
  simp only [archetypeOf, Option.bind_eq_bind, Option.bind_eq_some_iff, Option.some.injEq,
    Prod.mk.injEq]
  constructor
  · rintro ⟨g', hc, a', ha, rfl, rfl⟩
    exact ⟨hc, ha⟩
  · rintro ⟨hc, ha⟩
    exact ⟨g, hc, a, ha, rfl, rfl⟩

theorem side_eq_some {c : ChunkId} {start : Nat} {side : Memory.CastSide} :
    w.side c start = some side ↔ ∃ g a, w.store.type c = some g ∧ w.store.archetype g = some a ∧
      side = { c := c, a := a, ct := w.store.ct c, start := start } := by
  simp only [World.side, Option.bind_eq_bind, Option.bind_eq_some_iff, Option.some.injEq]
  constructor
  · rintro ⟨⟨g, a⟩, harch, rfl⟩
    obtain ⟨hc, ha⟩ := archetypeOf_eq_some.mp harch
    exact ⟨g, a, hc, ha, rfl⟩
  · rintro ⟨g, a, hc, ha, rfl⟩
    exact ⟨(g, a), archetypeOf_eq_some.mpr ⟨hc, ha⟩, rfl⟩

theorem allocateSlice_eq_some {n : Nat} {s : ChunkSlice} :
    w.allocateSlice g n = some (w', s) ↔
      ∃ st, w.store.allocateSlice w.ents g n = some (st, s) ∧ w' = { w with store := st } := by
  simp only [World.allocateSlice, Option.bind_eq_bind, Option.bind_eq_some_iff, Option.some.injEq,
    Prod.mk.injEq]
  constructor
  · rintro ⟨⟨st, s'⟩, hs, rfl, rfl⟩
    exact ⟨st, hs, rfl⟩
  · rintro ⟨st, hs, rfl⟩
    exact ⟨⟨st, s⟩, hs, rfl, rfl⟩

section Allocated

variable {st st' : Store} {s : ChunkSlice} {n : Nat}

theorem type_of_allocated (h : Store.Allocated st st' g a s n) {c : ChunkId}
    (hc : st.type c ≠ none) : st'.type c = st.type c := by
  rw [h.type, Function.update_apply]
  split_ifs with hcs
  · subst hcs
    rcases h.old with ⟨htype, -⟩ | ⟨htype, -⟩
    · exact htype.symm
    · exact absurd htype hc
  · rfl

/-- The chunks of other archetypes hold what they held. -/
theorem count_of_allocated (h : Store.Allocated st st' g a s n) {c : ChunkId} {g' : ArchetypeId}
    (hc : st.type c = some g') (hg : g' ≠ g) : st'.count c = st.count c := by
  rw [h.count, Function.update_of_ne]
  rintro rfl
  rcases h.old with ⟨htype, -⟩ | ⟨htype, -⟩
  · exact hg (Option.some.inj (hc.symm.trans htype))
  · simp [htype] at hc

end Allocated

theorem moveEntities_size (c : ChunkId) (es : List Entity) (slot : Nat) (ents : Entities) :
    (Entities.moveEntities c slot es ents).size = ents.size := by
  induction es generalizing slot ents with
  | nil => rfl
  | cons e es ih => exact ih (slot + 1) (ents.place e c slot)

theorem fillEntities_size (es : List Entity) (slot : Nat) (ents : Entities) :
    (Entities.fillEntities slot es ents).size = ents.size := by
  induction es generalizing slot ents with
  | nil => rfl
  | cons e es ih =>
      exact ih (slot + 1) (ents.setData e.id { ents.datas e.id with i := slot % 2 ^ 24 })

theorem moveTail_store (w : World) (a : Archetype) (s : ChunkSlice) :
    (w.moveTail a s).store = w.store ∧ (w.moveTail a s).ents.size = w.ents.size := by
  simp only [moveTail]
  split_ifs
  · exact ⟨rfl, fillEntities_size ..⟩
  · exact ⟨rfl, rfl⟩

/-- What `free_slice` does: counters and timestamps, the move, and the resize. -/
theorem freeSlice_spec {s : ChunkSlice} (hs : w.freeSlice s = some w') :
    ∃ g a st₁ w₂ st, w.store.type s.c = some g ∧ w.store.archetype g = some a ∧
      st₁ = (w.store.structuralChange g a s.c).subSize g s.count ∧
      w₂ = { w with store := st₁ }.moveTail a s ∧
      st₁.resizeChunk w₂.ents s.c (sub32 (st₁.count s.c) s.count) = some st ∧
      w' = { w₂ with store := st } := by
  simp only [World.freeSlice, Option.bind_eq_bind, Option.bind_eq_some_iff] at hs
  obtain ⟨⟨g, a⟩, harch, st, hres, hs⟩ := hs
  obtain ⟨hc, ha⟩ := archetypeOf_eq_some.mp harch
  rw [(moveTail_store _ _ _).1] at hres
  exact ⟨g, a, _, _, st, hc, ha, rfl, rfl, hres, (Option.some.inj hs).symm⟩

theorem ValidSlice.extend {s : ChunkSlice} (hv : w.ValidSlice s)
    (hext : Store.Extended w.store w'.store) : w'.ValidSlice s where
  typed := hext.type ▸ hv.typed
  pos := hv.pos
  le := hext.count ▸ hv.le

/-- `cast_slice`: the counter, the loop, and `free_slice` on the source. -/
theorem castSlice_spec {fuel : Nat} {src : ChunkSlice} {ss : List ChunkSlice}
    (hs : w.castSlice ctx fuel src g = some (w', ss)) :
    ∃ srcG a w₁, w.store.type src.c = some srcG ∧ w.store.archetype srcG = some a ∧
      castLoop ctx src g fuel 0 { w with
        store := (w.store.structuralChange srcG a src.c).subSize srcG src.count } = some (w₁, ss) ∧
      w₁.freeSlice src = some w' := by
  simp only [World.castSlice, Option.bind_eq_bind, Option.bind_eq_some_iff] at hs
  obtain ⟨⟨srcG, a⟩, harch, ⟨w₁, ss'⟩, hloop, w₂, hfree, hs⟩ := hs
  obtain ⟨rfl, rfl⟩ := Prod.mk.inj (Option.some.inj hs)
  obtain ⟨hc, ha⟩ := archetypeOf_eq_some.mp harch
  exact ⟨srcG, a, w₁, hc, ha, hloop, hfree⟩

/-- `free_entities` and `free_slice`, in this order. -/
def release (w : World) (s : ChunkSlice) : Option World := do
  let w ← w.freeEntities s
  w.freeSlice s

/-- `cast(chunk_slice, archetype*)` to the null archetype. -/
theorem castTo_none {fuel : Nat} {s : ChunkSlice} {ss : List ChunkSlice}
    (hs : w.castTo ctx fuel s none = some (w', ss)) : w.release s = some w' := by
  simp only [World.castTo, Option.bind_eq_bind, Option.bind_eq_some_iff] at hs
  obtain ⟨w₁, hf, w₂, hfree, hs⟩ := hs
  obtain ⟨rfl, -⟩ := Prod.mk.inj (Option.some.inj hs)
  exact Option.bind_eq_some_iff.mpr ⟨w₁, hf, hfree⟩

/-- The fast path of `cast`: a whole chunk goes over to another archetype. -/
structure Relinks (ctx : Context) (w : World) (s : ChunkSlice) (srcG g : ArchetypeId)
    (srcA a : Archetype) (w' : World) : Prop where
  full : w.full s = true
  castable : staticCastable ctx srcA.type a.type = true
  store : ∃ st₁ st₂, w.store.removeChunk w.ents srcG s.c = some st₁ ∧
    st₁.addChunk g s.c = some st₂ ∧ w' = { w with store := st₂ }

/-- `cast(chunk_slice, archetype*)` to an archetype. -/
theorem castTo_cases {fuel : Nat} {s : ChunkSlice} {ss : List ChunkSlice}
    (hs : w.castTo ctx fuel s (some g) = some (w', ss)) :
    ∃ srcG srcA a, w.store.type s.c = some srcG ∧ w.store.archetype srcG = some srcA ∧
      w.store.archetype g = some a ∧
      (srcG = g ∧ w' = w ∨ srcG ≠ g ∧ Relinks ctx w s srcG g srcA a w' ∨
        srcG ≠ g ∧ ¬ (w.full s = true ∧ staticCastable ctx srcA.type a.type = true) ∧
          w.castSlice ctx fuel s g = some (w', ss)) := by
  simp only [World.castTo, Option.bind_eq_bind, Option.bind_eq_some_iff] at hs
  obtain ⟨⟨srcG, srcA⟩, harch, a, ha, hs⟩ := hs
  obtain ⟨hc, hsrcA⟩ := archetypeOf_eq_some.mp harch
  refine ⟨srcG, srcA, a, hc, hsrcA, ha, ?_⟩
  split_ifs at hs with hg hfast
  · exact Or.inl ⟨hg, (Prod.mk.inj (Option.some.inj hs)).1.symm⟩
  · simp only [Option.bind_eq_some_iff] at hs
    obtain ⟨st₁, hrem, st₂, hadd, hs⟩ := hs
    obtain ⟨rfl, -⟩ := Prod.mk.inj (Option.some.inj hs)
    rw [Bool.and_eq_true] at hfast
    exact Or.inr (Or.inl ⟨hg, hfast.1, hfast.2, st₁, st₂, hrem, hadd, rfl⟩)
  · rw [Bool.and_eq_true] at hfast
    exact Or.inr (Or.inr ⟨hg, hfast, hs⟩)

/-- The key `get_cleaning` looks up. -/
def cleaningKey (ctx : Context) (a : Archetype) : EntityType :=
  { types := cleaningTypes ctx a, metatypes := a.metatypes }

/-- `get_cleaning` finds an archetype for the dead of `a`, which is not cleaning. -/
def leavesDead (ctx : Context) (a : Archetype) : Bool :=
  a.withTracked && decide ((cleaningTypes ctx a).length ≠ 1)

/-- `destroy_single` leaves the dead alone, releases the slice, or casts it to the
archetype of the dead. -/
theorem destroySingle_cases {fuel : Nat} {s : ChunkSlice}
    (hs : w.destroySingle ctx fuel s = some w') :
    ∃ g a, w.store.type s.c = some g ∧ w.store.archetype g = some a ∧
      (a.cleaning = true ∧ w' = w ∨
        a.cleaning = false ∧ leavesDead ctx a = false ∧ w.release s = some w' ∨
        a.cleaning = false ∧ leavesDead ctx a = true ∧ ∃ w₁ g' ss,
          w.getArchetype ctx (cleaningKey ctx a) = some (w₁, g') ∧
            w₁.castSlice ctx fuel s g' = some (w', ss)) := by
  simp only [World.destroySingle, Option.bind_eq_bind, Option.bind_eq_some_iff] at hs
  obtain ⟨⟨g, a⟩, harch, hs⟩ := hs
  obtain ⟨hc, ha⟩ := archetypeOf_eq_some.mp harch
  refine ⟨g, a, hc, ha, ?_⟩
  split_ifs at hs with hclean
  · exact Or.inl ⟨hclean, (Option.some.inj hs).symm⟩
  · have hclean' := eq_false_of_ne_true hclean
    simp only [Option.bind_eq_some_iff] at hs
    obtain ⟨⟨w₁, target⟩, hget, hs⟩ := hs
    simp only [World.getCleaning, if_neg hclean] at hget
    split_ifs at hget with htracked hfits hone
    · obtain ⟨rfl, rfl⟩ := Prod.mk.inj (Option.some.inj hget)
      simp only [Bool.not_eq_true'] at htracked
      exact Or.inr (Or.inl ⟨hclean', by simp [leavesDead, htracked], hs⟩)
    · obtain ⟨rfl, rfl⟩ := Prod.mk.inj (Option.some.inj hget)
      exact Or.inr (Or.inl ⟨hclean', by simp [leavesDead, hone], hs⟩)
    · simp only [Option.bind_eq_bind, Option.bind_eq_some_iff] at hget hs
      obtain ⟨⟨w₂, g'⟩, hget, heq⟩ := hget
      obtain ⟨rfl, rfl⟩ := Prod.mk.inj (Option.some.inj heq)
      simp only [Option.bind_eq_some_iff] at hs
      obtain ⟨⟨w₃, ss⟩, hcast, hs⟩ := hs
      obtain rfl := Option.some.inj hs
      have hdead : leavesDead ctx a = true := by
        simp only [Bool.not_eq_true', Bool.not_eq_false] at htracked
        simp [leavesDead, htracked, hone]
      exact Or.inr (Or.inr ⟨hclean', hdead, w₂, g', ss, hget, hcast⟩)

/-- A cast of `a` by `diff` frees the slice: the dead have nothing left to clean. -/
def castFrees (ctx : Context) (a : Archetype) (diff : TypeDiff) : Bool :=
  a.cleaning && isCleaned (castedType ctx a diff false)

/-- `get_casted` looks up the casted type, or finds nothing to cast to. -/
theorem getCasted_cases {diff : TypeDiff} {inst : Bool} {target : Option ArchetypeId}
    (hs : w.getCasted ctx a diff inst = some (w', target)) :
    target = none ∧ w' = w ∧ (inst = false → castFrees ctx a diff = true) ∨
      ∃ g, target = some g ∧ w.getArchetype ctx (castedType ctx a diff inst) = some (w', g) ∧
        (inst = false → castFrees ctx a diff = false) := by
  simp only [World.getCasted] at hs
  split_ifs at hs with hinst hfits hclean
  · obtain ⟨rfl, rfl⟩ := Prod.mk.inj (Option.some.inj hs)
    refine Or.inl ⟨rfl, rfl, ?_⟩
    rintro rfl
    simp at hinst
  · obtain ⟨rfl, rfl⟩ := Prod.mk.inj (Option.some.inj hs)
    refine Or.inl ⟨rfl, rfl, ?_⟩
    rintro rfl
    exact hclean
  · simp only [Option.bind_eq_bind, Option.bind_eq_some_iff] at hs
    obtain ⟨⟨w₁, g⟩, hget, heq⟩ := hs
    obtain ⟨rfl, rfl⟩ := Prod.mk.inj (Option.some.inj heq)
    refine Or.inr ⟨g, rfl, hget, ?_⟩
    rintro rfl
    exact eq_false_of_ne_true hclean

theorem getArchetype_eq_some {key : EntityType} (hs : w.getArchetype ctx key = some (w', g)) :
    ∃ st, Store.getArchetype ctx w.store w.ents key = some (st, g) ∧ w' = { w with store := st } := by
  simp only [World.getArchetype, Option.bind_eq_bind, Option.bind_eq_some_iff] at hs
  obtain ⟨⟨st, g'⟩, hget, hs⟩ := hs
  obtain ⟨rfl, rfl⟩ := Prod.mk.inj (Option.some.inj hs)
  exact ⟨st, hget, rfl⟩

theorem cleanupId_mem_cleaningTypes (ctx : Context) (a : Archetype) :
    ctx.cleanupId ∈ cleaningTypes ctx a := by
  rw [cleaningTypes, (List.perm_insertionSort _ _).mem_iff]
  exact List.mem_cons_self

/-- The archetype of the dead is cleaning. -/
theorem cleaning_of_key (hctx : ctx.Built) {b : Archetype}
    (hb : constructArchetype ctx (cleaningKey ctx a) = some b) : b.cleaning = true := by
  rw [constructArchetype_cleaning hb, List.any_eq_true]
  refine ⟨ctx.cleanupId, cleanupId_mem_cleaningTypes ctx a, ?_⟩
  rw [hctx.ids.1, hctx.ids.2.1]
  decide

theorem query_eq_some {f : ArchetypeFilter} {q : QueryCache}
    (hs : w.query ctx f = some (w', q)) :
    ∃ queries, w' = { w with store := { w.store with queries := queries } } := by
  simp only [World.query, Option.bind_eq_bind, Option.bind_eq_some_iff] at hs
  obtain ⟨⟨st, q'⟩, hget, hs⟩ := hs
  obtain ⟨rfl, -⟩ := Prod.mk.inj (Option.some.inj hs)
  unfold Store.getQueryCache at hget
  split at hget
  · obtain ⟨rfl, -⟩ := Prod.mk.inj (Option.some.inj hget)
    exact ⟨_, rfl⟩
  · simp only [Option.bind_eq_bind, Option.bind_eq_some_iff] at hget
    obtain ⟨found, -, hget⟩ := hget
    obtain ⟨rfl, -⟩ := Prod.mk.inj (Option.some.inj hget)
    exact ⟨_, rfl⟩

/-! ## Loops -/

/-- What a turn of the loop of `allocate` keeps, the loop keeps. -/
theorem allocateLoop_invariant {I : World → Prop}
    (hturn : ∀ w w₁ w₂ n s g' a, I w → 0 < n → w.allocateSlice g n = some (w₁, s) →
      w₁.archetypeOf s.c = some (g', a) →
      { w₁ with memory := w₁.memory.construct ctx a (w₁.store.ct s.c) s }.newEntities s = some w₂ →
      I w₂)
    {fuel n : Nat} {ss : List ChunkSlice} (h : I w)
    (hs : allocateLoop ctx g fuel n w = some (w', ss)) : I w' := by
  induction fuel generalizing n w ss with
  | zero => simp [allocateLoop] at hs
  | succ fuel ih =>
      rw [allocateLoop] at hs
      split_ifs at hs with hn
      · simp only [Option.bind_eq_bind, Option.bind_eq_some_iff] at hs
        obtain ⟨⟨w₁, s⟩, halloc, ⟨g', a⟩, harch, w₂, hnew, ⟨w₃, ss'⟩, hloop, hs⟩ := hs
        obtain ⟨rfl, -⟩ := Prod.mk.inj (Option.some.inj hs)
        exact ih (hturn w w₁ w₂ n s g' a h hn halloc harch hnew) hloop
      · obtain ⟨rfl, -⟩ := Prod.mk.inj (Option.some.inj hs)
        exact h

/-- What a turn of the loop of `instantiate_single` keeps, the loop keeps; `I` may speak
of the number of instances that are still to be made. -/
theorem instantiateLoop_invariant {src : Entity} {I : Nat → World → Prop}
    (hturn : ∀ w w₁ w₂ n s from_ side g' a mm, I n w → 0 < n →
      w.allocateSlice g n = some (w₁, s) → w₁.asSlice src = some from_ →
      w₁.side from_.c from_.start = some side → w₁.archetypeOf s.c = some (g', a) →
      w₁.memory.duplicate ctx a s side = some mm →
      { w₁ with memory := mm }.newEntities s = some w₂ → I (n - s.count) w₂)
    {fuel n : Nat} {ss : List ChunkSlice} (h : I n w)
    (hs : instantiateLoop ctx src g fuel n w = some (w', ss)) : ∃ m, I m w' := by
  induction fuel generalizing n w ss with
  | zero => simp [instantiateLoop] at hs
  | succ fuel ih =>
      rw [instantiateLoop] at hs
      split_ifs at hs with hn
      · simp only [Option.bind_eq_bind, Option.bind_eq_some_iff] at hs
        obtain ⟨⟨w₁, s⟩, halloc, from_, hfrom, side, hside, ⟨g', a⟩, harch, mm, hdup, w₂, hnew,
          ⟨w₃, ss'⟩, hloop, hs⟩ := hs
        obtain ⟨rfl, -⟩ := Prod.mk.inj (Option.some.inj hs)
        exact ih (hturn w w₁ w₂ n s from_ side g' a mm h hn halloc hfrom hside harch hdup hnew) hloop
      · obtain ⟨rfl, -⟩ := Prod.mk.inj (Option.some.inj hs)
        exact ⟨n, h⟩

/-- What a turn of the loop of `cast_slice` keeps, the loop keeps; `I` may speak of the
number of slots that are done. -/
theorem castLoop_invariant {src : ChunkSlice} {I : Nat → World → Prop}
    (hturn : ∀ w w₁ k s dst side mm, I k w → k < src.count →
      w.allocateSlice g (src.count - k) = some (w₁, s) → w₁.side s.c s.start = some dst →
      w₁.side src.c (src.start + k) = some side →
      w₁.memory.cast ctx dst side s.count true = some mm →
      I (k + s.count) ({ w₁ with memory := mm }.moveEntities s src.c (src.start + k)))
    {fuel k : Nat} {ss : List ChunkSlice} (h : I k w)
    (hs : castLoop ctx src g fuel k w = some (w', ss)) : ∃ k', src.count ≤ k' ∧ I k' w' := by
  induction fuel generalizing k w ss with
  | zero => simp [castLoop] at hs
  | succ fuel ih =>
      rw [castLoop] at hs
      split_ifs at hs with hlt
      · simp only [Option.bind_eq_bind, Option.bind_eq_some_iff] at hs
        obtain ⟨⟨w₁, s⟩, halloc, dst, hdst, side, hside, mm, hcast, ⟨w₃, ss'⟩, hloop, hs⟩ := hs
        obtain ⟨rfl, -⟩ := Prod.mk.inj (Option.some.inj hs)
        exact ih (hturn w w₁ k s dst side mm h hlt halloc hdst hside hcast) hloop
      · obtain ⟨rfl, -⟩ := Prod.mk.inj (Option.some.inj hs)
        exact ⟨k, Nat.le_of_not_lt hlt, h⟩

/-! ## Groups under `destroy` -/

theorem entrySlice_count {id : Nat} {s : ChunkSlice} (h : w.entrySlice id = some s) :
    s.count = 1 := by
  simp only [World.entrySlice] at h
  split_ifs at h
  split at h
  · rw [← Option.some.inj h]
  · simp at h

/-- What destroying one entity keeps, the group loops keep. -/
theorem destroyGroups_invariant {I : World → Prop} {rec : World → ChunkSlice → Option World}
    {c : ChunkId} {id count : Nat}
    (hrec : ∀ w s w', s.count = 1 → I w → rec w s = some w' → I w') (h : I w)
    (hs : destroyGroups rec g c id count w = some w') : I w' := by
  refine foldlM_invariant (P := I) (fun i _ v v' hturn hv => ?_) hs h
  simp only [Option.bind_eq_bind, Option.bind_eq_some_iff] at hturn
  obtain ⟨a, -, hturn⟩ := hturn
  split_ifs at hturn
  refine foldlM_invariant (P := I) (fun _ _ u u' hmember hu => ?_) hturn hv
  obtain ⟨s, hentry, hrun⟩ := Option.bind_eq_some_iff.mp hmember
  exact hrec u s u' (entrySlice_count hentry) hu hrun

/-- A slice without members in its groups. -/
def NoMembers (w : World) (a : Archetype) (c : ChunkId) (id count : Nat) : Prop :=
  ∀ i < count, w.groupSize c (a.address (w.store.ct c) id 0 + i * a.size i) ≤ 1

theorem destroyGroups_eq {rec : World → ChunkSlice → Option World} {c : ChunkId} {id count : Nat}
    (ha : w.store.archetype g = some a) (hno : w.NoMembers a c id count)
    (hs : destroyGroups rec g c id count w = some w') : w' = w := by
  refine foldlM_invariant (P := fun v => v = w) (fun i hi v v' hturn hv => ?_) hs rfl
  subst hv
  rw [Option.bind_eq_bind, ha, Option.bind_some] at hturn
  split_ifs at hturn
  dsimp only at hturn
  rw [Nat.sub_eq_zero_of_le (hno i (List.mem_range.mp hi))] at hturn
  exact (Option.some.inj hturn).symm

theorem destroy_cases {fuel : Nat} {s : ChunkSlice}
    (hs : destroy ctx (fuel + 1) w s = some w') :
    ∃ g a w₁, w.store.type s.c = some g ∧ w.store.archetype g = some a ∧
      (a.index ctx.groupId = invalidIndex ∧ w₁ = w ∨ a.index ctx.groupId ≠ invalidIndex ∧
        destroyGroups (destroy ctx fuel) g s.c (a.index ctx.groupId) s.count w = some w₁) ∧
      w₁.destroySingle ctx fuel s = some w' := by
  simp only [World.destroy, Option.bind_eq_bind, Option.bind_eq_some_iff] at hs
  obtain ⟨⟨g, a⟩, harch, hs⟩ := hs
  obtain ⟨hc, ha⟩ := archetypeOf_eq_some.mp harch
  by_cases hid : a.index ctx.groupId = invalidIndex
  · rw [if_pos hid, Option.bind_some] at hs
    exact ⟨g, a, w, hc, ha, Or.inl ⟨hid, rfl⟩, hs⟩
  · rw [if_neg hid, Option.bind_eq_some_iff] at hs
    obtain ⟨w₁, hgroups, hs⟩ := hs
    exact ⟨g, a, w₁, hc, ha, Or.inr ⟨hid, hgroups⟩, hs⟩

/-- What `destroy_single` keeps on one entity, `destroy` keeps on one entity. -/
theorem destroy_invariant {I : World → Prop}
    (hsingle : ∀ w w' s fuel, s.count = 1 → I w → w.destroySingle ctx fuel s = some w' → I w')
    {fuel : Nat} {s : ChunkSlice} (hone : s.count = 1) (h : I w)
    (hs : destroy ctx fuel w s = some w') : I w' := by
  induction fuel generalizing w w' s with
  | zero => simp [World.destroy] at hs
  | succ fuel ih =>
      obtain ⟨g, a, w₁, -, -, hgroups, hs⟩ := destroy_cases hs
      have h₁ : I w₁ := by
        rcases hgroups with ⟨-, rfl⟩ | ⟨-, hgroups⟩
        · exact h
        · exact destroyGroups_invariant (fun _ _ _ hone' hv hrun => ih hone' hv hrun) h hgroups
      exact hsingle w₁ w' s fuel hone h₁ hs

/-! ## Calls that only make entities -/

theorem archetype_of_allocateSlice {st st' : Store} {ents : Entities} {n : Nat} {s : ChunkSlice}
    (hs : st.allocateSlice ents g n = some (st', s)) : ∃ a, st.archetype g = some a := by
  simp only [Store.allocateSlice, Option.bind_eq_bind, Option.bind_eq_some_iff] at hs
  obtain ⟨a, ha, -⟩ := hs
  exact ⟨a, ha⟩

/-- A property of the store that new archetypes and new slots keep. -/
structure Grows (ctx : Context) (J : Store → Prop) : Prop where
  getArchetype : ∀ {st st' : Store} {ents : Entities} {key : EntityType} {g : ArchetypeId},
    J st → Store.getArchetype ctx st ents key = some (st', g) → J st'
  allocateSlice : ∀ {st st' : Store} {ents : Entities} {g : ArchetypeId} {a : Archetype} {n : Nat}
    {s : ChunkSlice}, J st → st.archetype g = some a → st.allocateSlice ents g n = some (st', s) →
      st'.type s.c ≠ none → J st'

variable {J : Store → Prop}

theorem Grows.fill (hJ : Grows ctx J) {w₁ w₂ : World} {n : Nat} {s : ChunkSlice} {mm : Memory}
    {g' : ArchetypeId} {a' : Archetype} (h : J w.store) (hs : w.allocateSlice g n = some (w₁, s))
    (harch : w₁.archetypeOf s.c = some (g', a'))
    (hnew : { w₁ with memory := mm }.newEntities s = some w₂) : J w₂.store := by
  obtain ⟨st, hst, rfl⟩ := allocateSlice_eq_some.mp hs
  obtain ⟨a, ha⟩ := archetype_of_allocateSlice hst
  have hty : st.type s.c ≠ none := by
    rw [(archetypeOf_eq_some.mp harch).1]
    exact Option.some_ne_none g'
  rw [(newEntities_store hnew).1]
  exact hJ.allocateSlice h ha hst hty

theorem Grows.allocate (hJ : Grows ctx J) {fuel n : Nat} {type : EntityType}
    {ss : List ChunkSlice} (h : J w.store) (hs : w.allocate ctx fuel type n = some (w', ss)) :
    J w'.store := by
  simp only [World.allocate, Option.bind_eq_bind, Option.bind_eq_some_iff] at hs
  obtain ⟨⟨w₁, g⟩, hgot, hs⟩ := hs
  obtain ⟨st, hget, rfl⟩ := getArchetype_eq_some hgot
  refine allocateLoop_invariant (I := fun w => J w.store) ?_ (hJ.getArchetype h hget) hs
  rintro w w₁ w₂ n s g' a h - halloc harch hnew
  exact hJ.fill h halloc harch hnew

theorem Grows.getCasted (hJ : Grows ctx J) {diff : TypeDiff} {inst : Bool}
    {target : Option ArchetypeId} (h : J w.store)
    (hs : w.getCasted ctx a diff inst = some (w', target)) : J w'.store := by
  rcases getCasted_cases hs with ⟨-, rfl, -⟩ | ⟨g, -, hgot, -⟩
  · exact h
  · obtain ⟨st, hget, rfl⟩ := getArchetype_eq_some hgot
    exact hJ.getArchetype h hget

theorem Grows.instantiateSingle (hJ : Grows ctx J) {src : Entity} {fuel n : Nat}
    {ss : List ChunkSlice} (h : J w.store)
    (hs : w.instantiateSingle ctx fuel src n = some (w', ss)) : J w'.store := by
  simp only [World.instantiateSingle, Option.bind_eq_bind, Option.bind_eq_some_iff] at hs
  obtain ⟨s, -, ⟨g₀, a₀⟩, -, ⟨w₁, target⟩, hcasted, hs⟩ := hs
  have h₁ := hJ.getCasted h hcasted
  cases target with
  | none =>
      simp only at hs
      split_ifs at hs
      obtain ⟨rfl, -⟩ := Prod.mk.inj (Option.some.inj hs)
      exact h₁
  | some g =>
      suffices hinv : ∃ m : Nat, J w'.store from hinv.choose_spec
      refine instantiateLoop_invariant (I := fun _ w => J w.store) ?_ h₁ hs
      rintro w w₁ w₂ n s from_ side g' a mm h - halloc - - harch - hnew
      exact hJ.fill h halloc harch hnew

/-! Prefabs are made and unmade in the components alone. -/

theorem patchEntity_store {e : Entity} {p : Memory.Patcher}
    (hs : w.patchEntity ctx e p = some w') : w'.store = w.store := by
  simp only [World.patchEntity, Option.bind_eq_bind, Option.bind_eq_some_iff] at hs
  obtain ⟨s, -, ⟨g, a⟩, -, mm, -, hs⟩ := hs
  rw [← Option.some.inj hs]

theorem groupToPrefab_store {src : List Entity} {keepExternal : Bool}
    (hs : w.groupToPrefab ctx src keepExternal = some w') : w'.store = w.store :=
  foldlM_invariant (P := fun v => v.store = w.store)
    (fun _ _ _ _ hp hv => (patchEntity_store hp).trans hv) hs rfl

theorem prefabToGroup_store {members : List Entity}
    (hs : w.prefabToGroup ctx members = some w') : w'.store = w.store :=
  foldlM_invariant (P := fun v => v.store = w.store)
    (fun _ _ _ _ hp hv => (patchEntity_store hp).trans hv) hs rfl

theorem patchSlices_store {ret : Nat → Nat → Entity} {size row : Nat} {ss : List ChunkSlice}
    (hs : patchSlices ctx ret size row ss w = some w') : w'.store = w.store := by
  induction ss generalizing row w with
  | nil => rw [← Option.some.inj hs]
  | cons s ss ih =>
      simp only [patchSlices, Option.bind_eq_bind, Option.bind_eq_some_iff] at hs
      obtain ⟨⟨g, a⟩, -, mm, -, hs⟩ := hs
      have hrest := ih (w := { w with memory := mm }) hs
      exact hrest

theorem patchEntity_ents {e : Entity} {p : Memory.Patcher}
    (hs : w.patchEntity ctx e p = some w') : w'.ents = w.ents := by
  simp only [World.patchEntity, Option.bind_eq_bind, Option.bind_eq_some_iff] at hs
  obtain ⟨s, -, ⟨g, a⟩, -, mm, -, hs⟩ := hs
  rw [← Option.some.inj hs]

theorem patchEntities_ents {es : List Entity} {p : Memory.Patcher}
    (hs : es.foldlM (fun w e => w.patchEntity ctx e p) w = some w') : w'.ents = w.ents :=
  foldlM_invariant (P := fun v => v.ents = w.ents)
    (fun _ _ _ _ hp hv => (patchEntity_ents hp).trans hv) hs rfl

theorem patchSlices_ents {ret : Nat → Nat → Entity} {size row : Nat} {ss : List ChunkSlice}
    (hs : patchSlices ctx ret size row ss w = some w') : w'.ents = w.ents := by
  induction ss generalizing row w with
  | nil => rw [← Option.some.inj hs]
  | cons s ss ih =>
      simp only [patchSlices, Option.bind_eq_bind, Option.bind_eq_some_iff] at hs
      obtain ⟨⟨g, a⟩, -, mm, -, hs⟩ := hs
      have hrest := ih (w := { w with memory := mm }) hs
      exact hrest

theorem Grows.instantiateMembers (hJ : Grows ctx J) {fuel n : Nat} {es : List Entity}
    {members : List (List ChunkSlice × List Entity)} (h : J w.store)
    (hs : instantiateMembers ctx fuel n es w = some (w', members)) : J w'.store := by
  induction es generalizing w members with
  | nil =>
      obtain ⟨rfl, -⟩ := Prod.mk.inj (Option.some.inj hs)
      exact h
  | cons e es ih =>
      simp only [World.instantiateMembers, Option.bind_eq_bind, Option.bind_eq_some_iff] at hs
      obtain ⟨⟨w₁, ss⟩, hsingle, ⟨w₂, rest⟩, hrest, hs⟩ := hs
      obtain ⟨rfl, -⟩ := Prod.mk.inj (Option.some.inj hs)
      exact ih (hJ.instantiateSingle h hsingle) hrest

/-- `instantiate`, of an entity or of a group. -/
theorem Grows.instantiate (hJ : Grows ctx J) {src : Entity} {fuel n : Nat} {ss : List ChunkSlice}
    (h : J w.store) (hs : w.instantiate ctx fuel src n = some (w', ss)) : J w'.store := by
  simp only [World.instantiate, Option.bind_eq_bind, Option.bind_eq_some_iff] at hs
  obtain ⟨group, -, hs⟩ := hs
  cases group with
  | none => exact hJ.instantiateSingle h hs
  | some at_ =>
      simp only [Option.bind_eq_some_iff, World.instantiatePrefab, Option.bind_eq_bind] at hs
      obtain ⟨members, -, w₁, hto, ⟨w₂, ss'⟩, ⟨⟨w₃, table⟩, hmembers, w₄, hpatch, heq⟩, w₅, hback,
        hs⟩ := hs
      obtain ⟨rfl, -⟩ := Prod.mk.inj (Option.some.inj hs)
      obtain ⟨rfl, -⟩ := Prod.mk.inj (Option.some.inj heq)
      have h₃ := hJ.instantiateMembers ((groupToPrefab_store hto).symm ▸ h) hmembers
      have hpatched : w₄.store = w₃.store :=
        foldlM_invariant (P := fun v => v.store = w₃.store)
          (fun _ _ _ _ hp hv => (patchSlices_store hp).trans hv) hpatch rfl
      rw [prefabToGroup_store hback, hpatched]
      exact h₃

end World

/-- The result of a call, `fuel` being the turns its loops may take. -/
def Op.run (ctx : Context) (fuel : Nat) (w : World) : Op → Option World
  | .allocate type count => (w.allocate ctx fuel type count).map Prod.fst
  | .instantiate src count => (w.instantiate ctx fuel src count).map Prod.fst
  | .destroy s => w.destroy ctx fuel s
  | .cast s diff => (w.cast ctx fuel s diff).map Prod.fst
  | .castType s type => (w.castType ctx fuel s type).map Prod.fst
  | .getArchetype type => (w.getArchetype ctx type).map Prod.fst
  | .query f => (w.query ctx f).map Prod.fst
  | .write memory => some { w with memory := memory }

/-- Slices are valid, and components are not behind the handles. -/
def Op.Valid (w : World) : Op → Prop
  | .destroy s => w.ValidSlice s
  | .cast s _ => w.ValidSlice s
  | .castType s _ => w.ValidSlice s
  | .write memory => ∀ c i, w.store.Occupied c i → memory.entityAt c i = w.memory.entityAt c i
  | _ => True

/-- One completed call that satisfies `P`. -/
def Step (ctx : Context) (P : World → Op → Prop) (w w' : World) : Prop :=
  ∃ op fuel, op.Valid w ∧ P w op ∧ op.run ctx fuel w = some w'

/-- The worlds that calls satisfying `P` reach from a new one. -/
def Reachable (ctx : Context) (P : World → Op → Prop) (w : World) : Prop :=
  ∃ timestamp raw data guids,
    Relation.ReflTransGen (Step ctx P) (World.initial timestamp raw data guids) w

theorem Reachable.initial (ctx : Context) (P : World → Op → Prop) (timestamp : Nat)
    (raw : Nat → Nat) (data : ChunkId → Mem) (guids : Nat → List UInt8) :
    Reachable ctx P (World.initial timestamp raw data guids) :=
  ⟨timestamp, raw, data, guids, .refl⟩

theorem Reachable.step {ctx : Context} {P : World → Op → Prop} {w w' : World}
    (h : Reachable ctx P w) (op : Op) {fuel : Nat} (hv : op.Valid w) (hp : P w op)
    (hs : op.run ctx fuel w = some w') : Reachable ctx P w' := by
  obtain ⟨timestamp, raw, data, guids, hrun⟩ := h
  exact ⟨timestamp, raw, data, guids, hrun.tail ⟨op, fuel, hv, hp, hs⟩⟩

theorem Reachable.mono {ctx : Context} {P Q : World → Op → Prop} {w : World}
    (h : Reachable ctx P w) (hPQ : ∀ w op, P w op → Q w op) : Reachable ctx Q w := by
  obtain ⟨timestamp, raw, data, guids, hrun⟩ := h
  refine ⟨timestamp, raw, data, guids, hrun.lift id ?_⟩
  rintro w w' ⟨op, fuel, hv, hp, hs⟩
  exact ⟨op, fuel, hv, hPQ w op hp, hs⟩

/-- What holds of a new world and is kept by every call holds in every world reached. -/
theorem Reachable.invariant {ctx : Context} {P : World → Op → Prop} {I : World → Prop}
    (hinit : ∀ timestamp raw data guids, I (World.initial timestamp raw data guids))
    (hstep : ∀ w op fuel w', op.Valid w → P w op → op.run ctx fuel w = some w' → I w → I w')
    {w : World} (h : Reachable ctx P w) : I w := by
  obtain ⟨timestamp, raw, data, guids, hrun⟩ := h
  refine invariant_of_run ?_ hrun (hinit timestamp raw data guids)
  rintro w w' ⟨op, fuel, hv, hp, hs⟩ hw
  exact hstep w op fuel w' hv hp hs hw

/-- Calls in a row. -/
def runAll (ctx : Context) (fuel : Nat) (w : World) (ops : List Op) : Option World :=
  ops.foldlM (fun w op => op.run ctx fuel w) w

theorem Reachable.runAll {ctx : Context} {P : World → Op → Prop} {w w' : World} {fuel : Nat}
    {ops : List Op} (h : Reachable ctx P w) (hop : ∀ op ∈ ops, ∀ v, op.Valid v ∧ P v op)
    (hs : Dots.runAll ctx fuel w ops = some w') : Reachable ctx P w' :=
  foldlM_invariant (P := Reachable ctx P)
    (fun op hmem v _ hrun hv => hv.step op (hop op hmem v).1 (hop op hmem v).2 hrun) hs h

/-- A world on memory of zeros. -/
def World.blank : World := World.initial 1 (fun _ => 0) (fun _ _ => 0) fun _ => []

theorem reachable_blank (ctx : Context) (P : World → Op → Prop) : Reachable ctx P World.blank :=
  .initial ctx P _ _ _ _

end Dots

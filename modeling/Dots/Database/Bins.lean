import Dots.Database.Births

/-!
# Bins with room

`new_chunk` chooses a bin by the bytes that are asked for, which is not how capacities are
computed. A bin without room for an entity is given back at once, and `allocate` goes on with
the freed chunk.
-/

namespace Dots

namespace Store

variable {ctx : Context} {st st' : Store} {ents : Entities} {g : ArchetypeId} {a : Archetype}
  {c : ChunkId} {n : Nat} {s : ChunkSlice}

/-! ## The chunks of an archetype -/

def chunksOf (st : Store) (g : ArchetypeId) : List ChunkId :=
  (List.range st.freshChunk).filter fun c => decide (st.type c = some g)

/-- The free slots in the chunks of an archetype. -/
def freeRoom (st : Store) (g : ArchetypeId) (a : Archetype) : Nat :=
  ((st.chunksOf g).map fun c => a.chunkCapacity (st.ct c) - st.count c).sum

theorem mem_chunksOf (hwf : Wf ctx st) : c ∈ st.chunksOf g ↔ st.type c = some g := by
  rw [chunksOf, List.mem_filter, List.mem_range, decide_eq_true_eq, and_iff_right_iff_imp]
  intro hc
  by_contra hlt
  rw [hwf.fresh c (Nat.le_of_not_lt hlt)] at hc
  simp at hc

theorem nodup_chunksOf (st : Store) (g : ArchetypeId) : (st.chunksOf g).Nodup :=
  List.nodup_range.filter _

theorem Chain.perm {fulls frees : List ChunkId} (hwf : Wf ctx st) (h : Chain st g a fulls frees) :
    (fulls ++ frees).Perm (st.chunksOf g) := by
  rw [List.perm_ext_iff_of_nodup h.spans.path.nodup (nodup_chunksOf st g)]
  intro c
  rw [h.mem, mem_chunksOf hwf]

theorem chunkCount_eq (hl : Listed ctx st) (ha : st.archetype g = some a) :
    st.chunkCount g = (st.chunksOf g).length % 2 ^ 16 := by
  obtain ⟨fulls, frees, hch⟩ := hl.chain g a ha
  rw [hch.chunkCount, (hch.perm hl.toWf).length_eq]

/-- The free list is empty when there is no room. -/
theorem firstFree_eq_none_iff (hl : Listed ctx st) (ha : st.archetype g = some a) :
    st.firstFree g = none ↔ st.freeRoom g a = 0 := by
  obtain ⟨fulls, frees, hch⟩ := hl.chain g a ha
  have hsum : st.freeRoom g a =
      (frees.map fun c => a.chunkCapacity (st.ct c) - st.count c).sum := by
    have hfulls : (fulls.map fun c => a.chunkCapacity (st.ct c) - st.count c).sum = 0 := by
      refine List.sum_eq_zero_iff_forall_eq_nat.mpr fun m hm => ?_
      obtain ⟨c, hc, rfl⟩ := List.mem_map.mp hm
      rw [hch.full c hc, Nat.sub_self]
    rw [freeRoom, ← ((hch.perm hl.toWf).map _).sum_nat, List.map_append, List.sum_append, hfulls,
      Nat.zero_add]
  rw [hsum, hch.firstFree]
  cases frees with
  | nil => simp
  | cons c frees =>
      have hroom := hch.room c List.mem_cons_self
      simp only [List.head?_cons, reduceCtorEq, List.map_cons, List.sum_cons, false_iff]
      omega

/-! ## One slice -/

/-- The chunk of a slice: the first with room, or a new one of the bin `new_chunk` chooses. -/
theorem Listed.allocateSlice_chunk (hl : Listed ctx st) (ha : st.archetype g = some a)
    (hs : st.allocateSlice ents g n = some (st', s)) (hty : st'.type s.c ≠ none) :
    (st.firstFree g = some s.c ∧ st.type s.c = some g ∧ st'.freshChunk = st.freshChunk) ∨
    (st.firstFree g = none ∧ s.c = st.freshChunk ∧ st'.freshChunk = st.freshChunk + 1 ∧
      st'.ct s.c = newChunkBin (st.chunkCount g) (n * a.entitySize % 2 ^ 32)) := by
  simp only [Store.allocateSlice, ha, Option.bind_eq_bind, Option.bind_some] at hs
  cases hf : st.firstFree g with
  | some c =>
      have hshape := structuralChange_shape st g a c
      simp only [hf, Option.bind_eq_some_iff, Option.some.injEq, Prod.mk.injEq, hshape.count,
        hshape.ct] at hs
      obtain ⟨st₂, hres, rfl, rfl⟩ := hs
      have hc := hl.free g a c ha hf
      obtain ⟨-, -, -, hr⟩ := hl.toWf.allocateIn ha hc rfl (fun _ => hf) hres hty
      exact Or.inl ⟨rfl, hc, hr.freshChunk⟩
  | none =>
      simp only [hf, Option.bind_eq_some_iff, Option.some.injEq, Prod.mk.injEq] at hs
      obtain ⟨⟨st₁, c⟩, hchunk, st₂, hres, rfl, rfl⟩ := hs
      have hshape := structuralChange_shape st₁ g a c
      simp only [hshape.count, hshape.ct] at hres
      obtain ⟨h₁, rfl, hfresh, htype, -, hct, -, harch, hfree⟩ := hl.toWf.newChunk ha hf hchunk
      obtain ⟨-, -, -, hr⟩ := h₁.allocateIn (harch ▸ ha) (by rw [htype, Function.update_self]) rfl
        hfree hres hty
      refine Or.inr ⟨rfl, rfl, hr.freshChunk.trans hfresh, ?_⟩
      change st₂.ct st.freshChunk = _
      rw [hr.ct, hct, Function.update_self]

/-- It is not empty. -/
theorem Listed.allocateSlice_pos (hl : Listed ctx st) (ha : st.archetype g = some a) (hn : 0 < n)
    (hs : st.allocateSlice ents g n = some (st', s)) (hty : st'.type s.c ≠ none) : 0 < s.count := by
  obtain ⟨-, hall⟩ := hl.allocateSlice ha hs hty
  rcases hl.allocateSlice_chunk ha hs hty with ⟨hfree, -⟩ | ⟨-, hc, -⟩
  · obtain ⟨st₂, t, ht, -, hpos⟩ := allocateSlice_returns ents hl ha hn (by simp [hfree])
    obtain ⟨-, rfl⟩ := Prod.mk.inj (Option.some.inj (hs.symm.trans ht))
    exact hpos
  · have hstart : s.start = 0 := by
      rcases hall.old with ⟨htype, -⟩ | ⟨-, hstart, -⟩
      · rw [hl.fresh s.c hc.ge] at htype
        exact absurd htype (Option.some_ne_none g).symm
      · exact hstart
    have hpos := hall.pos
    omega

/-- What a slice takes of the room in the chunk it was found in. -/
theorem Allocated.freeRoom_old (hwf : Wf ctx st) (hall : Allocated st st' g a s n)
    (hc : st.type s.c = some g) (hfresh : st'.freshChunk = st.freshChunk) :
    st'.freeRoom g a + s.count = st.freeRoom g a ∧ st'.chunksOf g = st.chunksOf g := by
  have htype : st'.type = st.type := by rw [hall.type, ← hc, Function.update_eq_self]
  have hsame : st'.chunksOf g = st.chunksOf g := by rw [chunksOf, chunksOf, htype, hfresh]
  have hct : st'.ct s.c = st.ct s.c := hall.ct s.c (by simp [hc])
  have hstart : s.start = st.count s.c := by
    rcases hall.old with ⟨-, hstart⟩ | ⟨hnone, -, -⟩
    · exact hstart
    · simp [hc] at hnone
  refine ⟨?_, hsame⟩
  have hmem : s.c ∈ st.chunksOf g := (mem_chunksOf hwf).mpr hc
  have hperm := List.perm_cons_erase hmem
  rw [freeRoom, freeRoom, hsame, (hperm.map _).sum_nat, (hperm.map _).sum_nat, List.map_cons,
    List.map_cons, List.sum_cons, List.sum_cons]
  have hrest : ∀ d ∈ (st.chunksOf g).erase s.c, a.chunkCapacity (st'.ct d) - st'.count d =
      a.chunkCapacity (st.ct d) - st.count d := by
    intro d hd
    obtain ⟨hne, hd⟩ := ((nodup_chunksOf st g).mem_erase_iff).mp hd
    rw [hall.count, Function.update_of_ne hne, hall.ct d (by simp [(mem_chunksOf hwf).mp hd])]
  rw [List.map_congr_left hrest, hall.count, Function.update_self, hct]
  have hle := hall.le
  rw [hct] at hle
  omega

/-- What a new chunk adds. -/
theorem Allocated.freeRoom_new (hwf : Wf ctx st) (hall : Allocated st st' g a s n)
    (hc : s.c = st.freshChunk) (hfresh : st'.freshChunk = st.freshChunk + 1) :
    st'.freeRoom g a + s.count = st.freeRoom g a + a.chunkCapacity (st'.ct s.c) ∧
      st'.chunksOf g = st.chunksOf g ++ [s.c] := by
  have hnone : st.type s.c = none := hc ▸ hwf.fresh _ le_rfl
  have hne : ∀ d ∈ st.chunksOf g, d ≠ s.c := by
    rintro d hd rfl
    rw [mem_chunksOf hwf, hnone] at hd
    simp at hd
  have hsame : st'.chunksOf g = st.chunksOf g ++ [s.c] := by
    rw [chunksOf, chunksOf, hfresh, List.range_succ, List.filter_append, ← hc]
    congr 1
    · refine List.filter_congr fun d hd => ?_
      rw [hall.type, Function.update_of_ne (List.mem_range.mp hd).ne]
    · rw [List.filter_singleton, hall.type, Function.update_self, decide_eq_true rfl]
      rfl
  have hstart : s.start = 0 := by
    rcases hall.old with ⟨htype, -⟩ | ⟨-, hstart, -⟩
    · simp [hnone] at htype
    · exact hstart
  refine ⟨?_, hsame⟩
  have hold : ∀ d ∈ st.chunksOf g, a.chunkCapacity (st'.ct d) - st'.count d =
      a.chunkCapacity (st.ct d) - st.count d := by
    intro d hd
    rw [hall.count, Function.update_of_ne (hne d hd),
      hall.ct d (by simp [(mem_chunksOf hwf).mp hd])]
  rw [freeRoom, hsame, List.map_append, List.sum_append, List.map_congr_left hold,
    List.map_singleton, List.sum_singleton, hall.count, Function.update_self, hstart, freeRoom]
  have hle := hall.le
  omega

end Store

namespace World

variable {ctx : Context} {w w₁ w₂ w' : World} {g : ArchetypeId} {a : Archetype} {fuel n : Nat}
  {s : ChunkSlice} {ss : List ChunkSlice}

/-- With `k` chunks and `m` entities left to place in new ones, no turn chooses a small bin that
has no room. -/
inductive Fillable (a : Archetype) : Nat → Nat → Prop
  | done (k : Nat) : Fillable a k 0
  | chunk {k m : Nat}
      (h : ¬ (k < kSmallBinThreshold ∧ m * a.entitySize % 2 ^ 32 < kSmallBinSize ∧
        a.chunkCapacity .smallbin = 0))
      (rest : Fillable a ((k + 1) % 2 ^ 16)
        (m - a.chunkCapacity (Store.newChunkBin k (m * a.entitySize % 2 ^ 32)))) :
      Fillable a k m

/-- `ss` are `n` slots of `g`, taken without giving a chunk back. -/
structure Provided (g : ArchetypeId) (a : Archetype) (n : Nat) (w : World) (ss : List ChunkSlice)
    (w' : World) : Prop where
  total : (ss.map ChunkSlice.count).sum = n
  inside : ∀ s ∈ ss, w'.archetypeOf s.c = some (g, a) ∧
    s.start + s.count ≤ a.chunkCapacity (w'.store.ct s.c)
  kept : ∀ d, w.store.type d ≠ none → w'.store.type d = w.store.type d
  made : ∀ d, w.store.freshChunk ≤ d → d < w'.store.freshChunk → w'.store.type d = some g
  archetype : w'.store.archetype = w.store.archetype
  ct : ∀ d, w.store.type d ≠ none → w'.store.ct d = w.store.ct d

theorem Provided.nil (g : ArchetypeId) (a : Archetype) (w : World) : Provided g a 0 w [] w where
  total := rfl
  inside := by simp
  kept _ _ := rfl
  made _ hle hlt := absurd hle (Nat.not_le_of_lt hlt)
  archetype := rfl
  ct _ _ := rfl

theorem Provided.cons (hl : w.store.Listed ctx) (ha : w.store.archetype g = some a)
    (halloc : w.allocateSlice g n = some (w₁, s)) (htype : w₁.store.type s.c ≠ none)
    (hstore : w₂.store = w₁.store) (h : Provided g a (n - s.count) w₂ ss w') :
    Provided g a n w (s :: ss) w' := by
  obtain ⟨st, hst, rfl⟩ := allocateSlice_eq_some.mp halloc
  obtain ⟨-, hall⟩ := hl.allocateSlice ha hst htype
  have hchunk := hl.allocateSlice_chunk ha hst htype
  change w₂.store = st at hstore
  subst hstore
  have hs : w₂.store.type s.c = some g := by rw [hall.type, Function.update_self]
  constructor
  · rw [List.map_cons, List.sum_cons, h.total, Nat.add_sub_cancel' hall.count_le]
  · intro t ht
    rcases List.mem_cons.mp ht with rfl | ht
    · refine ⟨archetypeOf_eq_some.mpr ⟨?_, ?_⟩, ?_⟩
      · rw [h.kept t.c (by simp [hs]), hs]
      · rw [h.archetype, hall.archetype, ha]
      · rw [h.ct t.c (by simp [hs])]
        exact hall.le
    · exact h.inside t ht
  · intro d hd
    have hd₂ := type_of_allocated hall hd
    rw [h.kept d (hd₂ ▸ hd), hd₂]
  · intro d hle hlt
    rcases hchunk with ⟨-, -, hfresh⟩ | ⟨-, hc, hfresh, -⟩
    · exact h.made d (hfresh ▸ hle) hlt
    · by_cases heq : d = w.store.freshChunk
      · rw [heq, ← hc, h.kept s.c (by simp [hs]), hs]
      · refine h.made d ?_ hlt
        rw [hfresh]
        exact Nat.succ_le_of_lt (lt_of_le_of_ne hle (Ne.symm heq))
  · exact h.archetype.trans hall.archetype
  · intro d hd
    have hd₂ := type_of_allocated hall hd
    rw [h.ct d (hd₂ ▸ hd), hall.ct d hd]

/-- A turn of the loop leaves less to place, in the same state. -/
theorem allocateLoop_turn (hn : 0 < n) (hl : w.store.Listed ctx)
    (ha : w.store.archetype g = some a) (hpop : Entities.Poppable w.ents)
    (hroom : w.store.firstFree g = none → 0 < a.chunkCapacity
      (Store.newChunkBin (w.store.chunkCount g) (n * a.entitySize % 2 ^ 32))) :
    ∃ w₁ s w₂, w.allocateSlice g n = some (w₁, s) ∧ w₁.store.type s.c ≠ none ∧
      w₂.store = w₁.store ∧ 0 < s.count ∧ Entities.Poppable w₂.ents ∧
      ∀ fuel, allocateLoop ctx g (fuel + 1) n w =
        (allocateLoop ctx g fuel (n - s.count) w₂).map fun r => (r.1, s :: r.2) := by
  obtain ⟨st, s, hst, hty, hpos⟩ := Store.allocateSlice_returns w.ents hl ha hn hroom
  obtain ⟨-, hall⟩ := hl.allocateSlice ha hst hty
  have harch : World.archetypeOf { w with store := st } s.c = some (g, a) :=
    archetypeOf_eq_some.mpr ⟨by rw [hall.type, Function.update_self], hall.archetype ▸ ha⟩
  have hpop₁ : Entities.Poppable (World.ents { w with
    store := st, memory := w.memory.construct ctx a (st.ct s.c) s }) := hpop
  obtain ⟨w₂, hnew, hpop₂⟩ := newEntities_returns hpop₁ s
  refine ⟨{ w with store := st }, s, w₂, allocateSlice_eq_some.mpr ⟨st, hst, rfl⟩, hty,
    (newEntities_store hnew).1, hpos, hpop₂, fun fuel => ?_⟩
  simp only [World.allocateLoop, if_pos hn, World.allocateSlice, hst, Option.bind_eq_bind,
    Option.bind_some, harch, hnew]
  cases World.allocateLoop ctx g fuel (n - s.count) w₂ <;> rfl

/-- A loop that returned has filled its slices. -/
theorem provided_of_allocateLoop (hl : w.store.Listed ctx) (ha : w.store.archetype g = some a)
    (hs : allocateLoop ctx g fuel n w = some (w', ss)) : Provided g a n w ss w' := by
  induction fuel generalizing n w ss with
  | zero => simp [allocateLoop] at hs
  | succ fuel ih =>
      rw [allocateLoop] at hs
      split_ifs at hs with hn
      · simp only [Option.bind_eq_bind, Option.bind_eq_some_iff] at hs
        obtain ⟨⟨w₁, s⟩, halloc, ⟨g', a'⟩, harch, w₂, hnew, ⟨w₃, ss'⟩, hloop, hs⟩ := hs
        obtain ⟨rfl, rfl⟩ := Prod.mk.inj (Option.some.inj hs)
        have harch : w₁.archetypeOf s.c = some (g', a') := harch
        have htype : w₁.store.type s.c ≠ none := by
          rw [(archetypeOf_eq_some.mp harch).1]
          exact Option.some_ne_none g'
        have hstore := (newEntities_store hnew).1
        obtain ⟨hl', hall⟩ := took_turn hl ha halloc htype hstore
        exact .cons hl ha halloc htype hstore (ih hl' (hall.archetype ▸ ha) hloop)
      · obtain ⟨rfl, rfl⟩ := Prod.mk.inj (Option.some.inj hs)
        obtain rfl : n = 0 := by omega
        exact .nil g a w

/-! ## When the loop returns -/

theorem newChunkBin_capacity (hfast : 0 < a.chunkCapacity .fastbin)
    (hlarge : 0 < a.chunkCapacity .largebin) (k size : Nat) :
    0 < a.chunkCapacity (Store.newChunkBin k size) ↔
      ¬ (k < kSmallBinThreshold ∧ size < kSmallBinSize ∧ a.chunkCapacity .smallbin = 0) := by
  unfold Store.newChunkBin
  split_ifs with hsmall hbig
  · rw [Nat.pos_iff_ne_zero]
    tauto
  · exact iff_of_true hlarge fun h => hsmall ⟨h.1, h.2.1⟩
  · exact iff_of_true hfast fun h => hsmall ⟨h.1, h.2.1⟩

theorem fillable_iff {k m : Nat} (hm : 0 < m) : Fillable a k m ↔
    ¬ (k < kSmallBinThreshold ∧ m * a.entitySize % 2 ^ 32 < kSmallBinSize ∧
      a.chunkCapacity .smallbin = 0) ∧
    Fillable a ((k + 1) % 2 ^ 16)
      (m - a.chunkCapacity (Store.newChunkBin k (m * a.entitySize % 2 ^ 32))) := by
  constructor
  · rintro (_ | ⟨h, rest⟩)
    · exact absurd hm (Nat.lt_irrefl 0)
    · exact ⟨h, rest⟩
  · rintro ⟨h, rest⟩
    exact .chunk h rest

/-- What is left after a turn is as fillable as before. -/
theorem fillable_turn (hn : 0 < n) (hl : w.store.Listed ctx) (ha : w.store.archetype g = some a)
    (hfast : 0 < a.chunkCapacity .fastbin) (hlarge : 0 < a.chunkCapacity .largebin)
    (halloc : w.allocateSlice g n = some (w₁, s)) (htype : w₁.store.type s.c ≠ none)
    (hstore : w₂.store = w₁.store) :
    Fillable a (w₂.store.chunkCount g) (n - s.count - w₂.store.freeRoom g a) ↔
      Fillable a (w.store.chunkCount g) (n - w.store.freeRoom g a) := by
  obtain ⟨hl₂, hall⟩ := took_turn hl ha halloc htype hstore
  obtain ⟨st, hst, rfl⟩ := allocateSlice_eq_some.mp halloc
  change w₂.store = st at hstore
  subst hstore
  have hcount := Store.chunkCount_eq hl ha
  have hcount₂ := Store.chunkCount_eq hl₂ (hall.archetype ▸ ha)
  rcases hl.allocateSlice_chunk ha hst htype with ⟨-, hc, hfresh⟩ | ⟨hfree, hc, hfresh, hct⟩
  · obtain ⟨hroom, hchunks⟩ := hall.freeRoom_old hl.toWf hc hfresh
    rw [hcount₂, hchunks, ← hcount, ← hroom, Nat.sub_sub, Nat.add_comm s.count]
  · obtain ⟨hroom, hchunks⟩ := hall.freeRoom_new hl.toWf hc hfresh
    have hzero := (Store.firstFree_eq_none_iff hl ha).mp hfree
    have hbin : 0 < a.chunkCapacity
        (Store.newChunkBin (w.store.chunkCount g) (n * a.entitySize % 2 ^ 32)) := by
      rw [← hct]
      exact hall.pos.trans_le hall.le
    have hsucc : w₂.store.chunkCount g = (w.store.chunkCount g + 1) % 2 ^ 16 := by
      rw [hcount₂, hchunks, List.length_append, hcount, List.length_singleton]
      omega
    rw [hzero, Nat.sub_zero, fillable_iff hn, hsucc, ← hct, Nat.sub_sub, Nat.add_comm s.count,
      hroom, hzero, Nat.zero_add]
    exact (and_iff_right ((newChunkBin_capacity hfast hlarge _ _).mp hbin)).symm

/-- The loop returns if and only if no turn chooses a small bin without room. -/
theorem allocateLoop_iff (hl : w.store.Listed ctx) (ha : w.store.archetype g = some a)
    (hpop : Entities.Poppable w.ents) (hfast : 0 < a.chunkCapacity .fastbin)
    (hlarge : 0 < a.chunkCapacity .largebin) :
    (∃ fuel r, allocateLoop ctx g fuel n w = some r) ↔
      Fillable a (w.store.chunkCount g) (n - w.store.freeRoom g a) := by
  induction n using Nat.strong_induction_on generalizing w with
  | _ n ih =>
      by_cases hn : 0 < n
      · by_cases hroom : w.store.firstFree g = none → 0 < a.chunkCapacity
            (Store.newChunkBin (w.store.chunkCount g) (n * a.entitySize % 2 ^ 32))
        · obtain ⟨w₁, s, w₂, halloc, htype, hstore, hpos, hpop₂, hturn⟩ :=
            allocateLoop_turn hn hl ha hpop hroom
          obtain ⟨hl₂, hall⟩ := took_turn hl ha halloc htype hstore
          rw [← fillable_turn hn hl ha hfast hlarge halloc htype hstore,
            ← ih (n - s.count) (by omega) hl₂ (hall.archetype ▸ ha) hpop₂]
          constructor
          · rintro ⟨fuel, r, hr⟩
            cases fuel with
            | zero => simp [allocateLoop] at hr
            | succ fuel =>
                rw [hturn, Option.map_eq_some_iff] at hr
                obtain ⟨r', hr', -⟩ := hr
                exact ⟨fuel, r', hr'⟩
          · rintro ⟨fuel, r, hr⟩
            exact ⟨fuel + 1, _, by rw [hturn, hr]; rfl⟩
        · obtain ⟨hfree, hbin⟩ := Classical.not_imp.mp hroom
          constructor
          · rintro ⟨fuel, r, hr⟩
            exfalso
            cases fuel with
            | zero => simp [allocateLoop] at hr
            | succ fuel =>
                rw [allocateLoop, if_pos hn] at hr
                simp only [Option.bind_eq_bind, Option.bind_eq_some_iff] at hr
                obtain ⟨⟨w₁, s⟩, halloc, ⟨g', a'⟩, harch, -⟩ := hr
                have harch : w₁.archetypeOf s.c = some (g', a') := harch
                have htype : w₁.store.type s.c ≠ none := by
                  rw [(archetypeOf_eq_some.mp harch).1]
                  exact Option.some_ne_none g'
                obtain ⟨st, hst, rfl⟩ := allocateSlice_eq_some.mp halloc
                obtain ⟨-, hall⟩ := hl.allocateSlice ha hst htype
                rcases hl.allocateSlice_chunk ha hst htype with ⟨hsome, -⟩ | ⟨-, -, -, hct⟩
                · simp [hfree] at hsome
                · rw [← hct] at hbin
                  exact hbin (hall.pos.trans_le hall.le)
          · intro h
            rw [(Store.firstFree_eq_none_iff hl ha).mp hfree, Nat.sub_zero, fillable_iff hn] at h
            exact absurd ((newChunkBin_capacity hfast hlarge _ _).mpr h.1) hbin
      · obtain rfl : n = 0 := by omega
        rw [Nat.zero_sub]
        exact iff_of_true ⟨1, (w, []), by simp [allocateLoop]⟩ (.done _)

/-- Every archetype whose small bin holds an entity can be filled. -/
theorem fillable_of_smallbin (hall : ∀ ct, 0 < a.chunkCapacity ct) (k m : Nat) :
    Fillable a k m := by
  induction m using Nat.strong_induction_on generalizing k with
  | _ m ih =>
      by_cases hm : 0 < m
      · refine .chunk (fun h => (hall .smallbin).ne' h.2.2) (ih _ ?_ _)
        have hpos := hall (Store.newChunkBin k (m * a.entitySize % 2 ^ 32))
        omega
      · obtain rfl : m = 0 := by omega
        exact .done k

/-- `allocate` returns slices with the count asked for, inside their chunks, and keeps every
chunk, if and only if no turn chooses a small bin without room. -/
theorem allocate_iff (hl : w.store.Listed ctx) (ha : w.store.archetype g = some a)
    (hpop : Entities.Poppable w.ents) (hfast : 0 < a.chunkCapacity .fastbin)
    (hlarge : 0 < a.chunkCapacity .largebin) (n : Nat) :
    (∃ fuel w' ss, allocateLoop ctx g fuel n w = some (w', ss) ∧ Provided g a n w ss w') ↔
      Fillable a (w.store.chunkCount g) (n - w.store.freeRoom g a) := by
  rw [← allocateLoop_iff hl ha hpop hfast hlarge]
  constructor
  · rintro ⟨fuel, w', ss, hrun, -⟩
    exact ⟨fuel, (w', ss), hrun⟩
  · rintro ⟨fuel, ⟨w', ss⟩, hrun⟩
    exact ⟨fuel, w', ss, hrun, provided_of_allocateLoop hl ha hrun⟩

/-! ## A component of a thousand bytes -/

/-- Type 4 has 1000 bytes, type 5 has 4. -/
def wideContext : Context :=
  (((Context.initial false).registerType { guid := 10, size := 1000 }).1.registerType
    { guid := 11, size := 4 }).1

/-- The size of an entity and the capacities of the archetype with one type, in a new world. -/
def firstSizes (t : TypeIndex) : Option (List Nat) := do
  let (w, g) ← (World.initial 1 (fun _ => 0) (fun _ _ => 0) fun _ => []).getArchetype wideContext
    { types := [t] }
  let a ← w.store.archetype g
  some [a.entitySize, a.chunkCapacity .smallbin, a.chunkCapacity .fastbin,
    a.chunkCapacity .largebin, w.store.chunkCount g, w.store.freshChunk]

/-- A new world with an archetype of one type, and no chunk. -/
theorem exists_first {t : TypeIndex} {e small fast large : Nat}
    (h : firstSizes t = some [e, small, fast, large, 0, 0]) :
    ∃ (w : World) (g : ArchetypeId) (a : Archetype), w.store.Listed wideContext ∧
      w.store.archetype g = some a ∧ a.types = [t] ∧ Entities.Poppable w.ents ∧
      a.entitySize = e ∧ a.chunkCapacity .smallbin = small ∧ a.chunkCapacity .fastbin = fast ∧
      a.chunkCapacity .largebin = large ∧ w.store.chunkCount g = 0 ∧ w.store.freeRoom g a = 0 := by
  simp only [firstSizes, Option.bind_eq_bind, Option.bind_eq_some_iff, Option.some.injEq,
    List.cons.injEq, and_true] at h
  obtain ⟨⟨w, g⟩, hget, a, ha, he, hsmall, hfast, hlarge, hcount, hfresh⟩ := h
  obtain ⟨b, hb, htype⟩ := type_of_getArchetype hget
  obtain ⟨st, hst, rfl⟩ := getArchetype_eq_some hget
  obtain ⟨hl, -⟩ := (Store.listed_initial wideContext _ _ _ _).getArchetype hst
  obtain rfl := Option.some.inj (ha.symm.trans hb)
  refine ⟨_, g, a, hl, ha, by rw [Archetype.types, htype], ?_, he, hsmall, hfast, hlarge, hcount, ?_⟩
  · exact ⟨[], ⟨rfl, by simp⟩, by simp⟩
  · rw [Store.freeRoom, Store.chunksOf, hfresh]
    rfl

/-- Four bytes: the small bin has room. -/
theorem allocate_four : ∃ (w : World) (g : ArchetypeId) (a : Archetype),
    w.store.archetype g = some a ∧ a.types = [5] ∧
    ∃ fuel w' ss, allocateLoop wideContext g fuel 1 w = some (w', ss) ∧
      Provided g a 1 w ss w' := by
  have hfirst : firstSizes 5 = some [8, 123, 8187, 131067, 0, 0] := by decide +kernel
  obtain ⟨w, g, a, hl, ha, htypes, hpop, -, hsmall, hfast, hlarge, -, -⟩ := exists_first hfirst
  refine ⟨w, g, a, ha, htypes, (allocate_iff hl ha hpop ?_ ?_ 1).mpr
    (fillable_of_smallbin (fun ct => ?_) _ _)⟩
  · rw [hfast]
    decide
  · rw [hlarge]
    decide
  · cases ct
    · rw [hsmall]
      decide
    · rw [hfast]
      decide
    · rw [hlarge]
      decide

/-- One entity of 1004 bytes is to go into a small bin, whose capacity for it is zero. -/
theorem not_allocate_thousand : ∃ (w : World) (g : ArchetypeId) (a : Archetype),
    w.store.Listed wideContext ∧ w.store.archetype g = some a ∧ Entities.Poppable w.ents ∧
    0 < a.chunkCapacity .fastbin ∧ 0 < a.chunkCapacity .largebin ∧
    ∀ fuel, allocateLoop wideContext g fuel 1 w = none := by
  have hfirst : firstSizes 4 = some [1004, 0, 65, 1044, 0, 0] := by decide +kernel
  obtain ⟨w, g, a, hl, ha, -, hpop, he, hsmall, hfast, hlarge, hcount, hroom⟩ :=
    exists_first hfirst
  have hfast' : 0 < a.chunkCapacity .fastbin := by rw [hfast]; decide
  have hlarge' : 0 < a.chunkCapacity .largebin := by rw [hlarge]; decide
  refine ⟨w, g, a, hl, ha, hpop, hfast', hlarge', fun fuel => ?_⟩
  have hnot : ¬ Fillable a (w.store.chunkCount g) (1 - w.store.freeRoom g a) := by
    rw [hcount, hroom, fillable_iff Nat.one_pos, he, hsmall]
    exact fun h => h.1 ⟨by decide, by decide, rfl⟩
  rw [← allocateLoop_iff hl ha hpop hfast' hlarge'] at hnot
  rw [Option.eq_none_iff_forall_ne_some]
  exact fun r hr => hnot ⟨fuel, r, hr⟩

end World

end Dots

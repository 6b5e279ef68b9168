import Dots.Database.Bins
import Dots.Database.Births
import Dots.Database.Casted
import Dots.Database.Copy
import Dots.Database.Duplication

/-!
# Instances of one entity

`instantiate_single` gets slices of the archetype that has the copying twins, and calls
`chunk::duplicate` on each. Where the columns of their chunks start as they do in the source's
chunk, each slot gets a copy of the source; no other slot changes.
-/

namespace Dots

open Library Entities

section Twins

variable {ctx : Context} {key key' : EntityType} {a b : Archetype}

/-! ## The archetype of the instances -/

theorem toValidType_copying (hctx : ctx.Built) (hreg : ctx.tracks.length ≤ 2 ^ 30) (t : TypeIndex) :
    ctx.toValidType (if (ctx.track t).manualCopying then t + 1 else t) = ctx.toValidType t := by
  split_ifs with hm
  · have hself : ctx.track t ≠ { copying := true } := by
      intro heq
      simp [heq] at hm
    rw [Context.toValidType, Context.toValidType, if_pos (track_twin hctx hreg hm).1,
      if_neg hself, Nat.add_sub_cancel]
  · rfl

theorem staticCastableFrom_copying (hctx : ctx.Built) (hreg : ctx.tracks.length ≤ 2 ^ 30)
    (ts : List TypeIndex) : World.staticCastableFrom ctx ts (copyingTypes ctx ts) = true := by
  induction ts with
  | nil => rfl
  | cons t ts ih =>
      have hvalid := toValidType_copying hctx hreg t
      simp only [copyingTypes, List.map_cons, World.staticCastableFrom]
      generalize (if (ctx.track t).manualCopying then t + 1 else t) = u at hvalid ⊢
      rw [if_pos hvalid.symm]
      split_ifs
      · rfl
      · exact ih

/-- The archetype of the instances is laid out like that of the source. -/
structure CopyingOf (ctx : Context) (a b : Archetype) : Prop where
  types : b.types = copyingTypes ctx a.types
  metatypes : b.metatypes = a.metatypes
  firstTag : b.firstTag = a.firstTag
  size : b.size = a.size
  address : b.address = a.address
  chunkCapacity : b.chunkCapacity = a.chunkCapacity
  twinned : Memory.Twinned ctx a b

theorem copyingOf_of_types (hctx : ctx.Built) (hreg : ctx.tracks.length ≤ 2 ^ 30)
    (ha : constructArchetype ctx key = some a) (hb : constructArchetype ctx key' = some b)
    (htypes : key'.types = copyingTypes ctx key.types) (hmetas : key'.metatypes = key.metatypes) :
    CopyingOf ctx a b := by
  have hta := constructArchetype_type ha
  have htb := constructArchetype_type hb
  have hs : World.staticCastable ctx key key' = true := by
    rw [World.staticCastable, htypes]
    exact staticCastableFrom_copying hctx hreg key.types
  obtain ⟨htag, hsizes, hoffsets⟩ := World.layout_of_staticCastable hctx.paired ha hb hs
  have htypes' : b.types = copyingTypes ctx a.types := by
    rw [Archetype.types, Archetype.types, hta, htb, htypes]
  constructor
  · exact htypes'
  · rw [Archetype.metatypes, Archetype.metatypes, hta, htb, hmetas]
  · exact htag
  · funext k
    rw [Archetype.size, Archetype.size, hsizes]
  · funext ct k i
    rw [Archetype.address, Archetype.address, Archetype.size, Archetype.size, hsizes, hoffsets]
  · exact (capacity_of_staticCastable hctx.paired ha hb hs).symm
  · intro k hk
    have hlt : k < a.types.length := hk.trans_le (constructArchetype_layout ha).tag_le
    rw [htypes', copyingTypes, List.getD_eq_getElem?_getD, List.getD_eq_getElem?_getD,
      List.getElem?_map, List.getElem?_eq_getElem hlt, Option.map_some, Option.getD_some,
      Option.getD_some, toValidType_copying hctx hreg]

/-- `get_casted` of an instance. -/
theorem copyingOf_getCasted (hctx : ctx.Built) (hreg : ctx.tracks.length ≤ 2 ^ 30) {w w' : World}
    {g : ArchetypeId} (hw : World.Orderly ctx w) (ha : constructArchetype ctx a.type = some a)
    (hs : w.getCasted ctx a {} true = some (w', some g)) :
    ∃ b, w'.store.archetype g = some b ∧ CopyingOf ctx a b := by
  obtain ⟨htypes, hmetas⟩ := World.castedType_instance ha
  rcases World.getCasted_cases hs with ⟨hnone, -⟩ | ⟨g', hg, hget, -⟩
  · exact absurd hnone (Option.some_ne_none g)
  · obtain rfl := Option.some.inj hg
    obtain ⟨h₁, -⟩ := hw.sound.getArchetype hget
    obtain ⟨b, hb, htype⟩ := World.type_of_getArchetype hget
    have hbuilt := (h₁.wf.built g b hb).2
    rw [htype] at hbuilt
    exact ⟨b, hb, copyingOf_of_types hctx hreg ha hbuilt htypes hmetas⟩

end Twins

namespace World

variable {ctx : Context} {w w₁ w₂ w' : World} {g h : ArchetypeId} {a b : Archetype}
  {c d : ChunkId} {ct : AllocType} {i j k n fuel : Nat} {s t : ChunkSlice} {ss : List ChunkSlice}
  {e : Entity}
  {side : Memory.CastSide}

/-! ## The slots of the instances -/

/-- The block of a buffer, 0 when it is inline. -/
def blockAt (w : World) (a : Archetype) (c : ChunkId) (k i : Nat) : Nat :=
  (Mem.readBuffer (w.memory.data c) (a.address (w.store.ct c) k i)).d

/-- The slices `ss`, filled since `w` with copies of the source. -/
structure Duplicates (side : Memory.CastSide) (g : ArchetypeId) (b : Archetype) (w : World)
    (ss : List ChunkSlice) (w' : World) : Prop where
  pos : ∀ t ∈ ss, 0 < t.count
  slots : ∀ t ∈ ss, ∀ j < t.count, w'.store.Occupied t.c (t.start + j)
  fresh : ∀ t ∈ ss, ∀ c i, Slots.of t c i → ¬ w.store.Occupied c i
  apart : ss.Pairwise fun t u => ∀ c i, Slots.of t c i → ¬ Slots.of u c i
  typed : ∀ t ∈ ss, w'.archetypeOf t.c = some (g, b)
  others : ∀ c i h a, w.archetypeOf c = some (h, a) → w.store.Occupied c i →
    w'.store.Occupied c i ∧ Carried everyColumn h a w c i w' c i
  fresh_le : w.memory.freshBlock ≤ w'.memory.freshBlock
  heap : ∀ e < w.memory.freshBlock, w'.memory.heap e = w.memory.heap e
  mallocs : w'.memory.Mallocs
  copied : ∀ t ∈ ss, ∀ j < t.count, ∀ k < side.a.firstTag,
    Memory.CopiedElement side.a k w.memory.freshBlock w.memory side.c (side.address k 0)
      w'.memory t.c (b.address (w'.store.ct t.c) k (t.start + j))
  own : ∀ t ∈ ss, ∀ u ∈ ss, ∀ i < t.count, ∀ j < u.count, ∀ k l, side.a.firstBuffer ≤ k →
    k < side.a.firstTag → side.a.firstBuffer ≤ l → l < side.a.firstTag →
    w'.blockAt b t.c k (t.start + i) ≠ 0 →
    w'.blockAt b t.c k (t.start + i) = w'.blockAt b u.c l (u.start + j) →
    t.c = u.c ∧ t.start + i = u.start + j ∧ k = l

theorem Duplicates.nil (hm : w.memory.Mallocs) : Duplicates side g b w [] w where
  pos := by simp
  slots := by simp
  fresh := by simp
  apart := .nil
  typed := by simp
  others _ _ _ _ ha hi := ⟨hi, .refl ha⟩
  fresh_le := le_rfl
  heap _ _ := rfl
  mallocs := hm
  copied := by simp
  own := by simp

theorem side_spec (hs : w.side c i = some side) : side.c = c ∧ side.start = i ∧
    side.ct = w.store.ct c ∧ ∃ g, w.archetypeOf c = some (g, side.a) := by
  obtain ⟨g, a, hc, ha, rfl⟩ := side_eq_some.mp hs
  exact ⟨rfl, rfl, rfl, g, archetypeOf_eq_some.mpr ⟨hc, ha⟩⟩

/-- One slice more, before the others. -/
theorem Duplicates.cons (hcopying : CopyingOf ctx side.a b) (hroomy : ∀ k, side.a.firstBuffer ≤ k →
      k < side.a.firstTag → sizeofBuffer ≤ side.a.size k) (hm : w.memory.Mallocs)
    (hside : w.side side.c side.start = some side) (hside₁ : w₁.side side.c side.start = some side)
    (hocc : w.store.Occupied side.c side.start) (hhead : Duplicates side g b w [t] w₁)
    (hkeeps : ∀ c i, w.store.Occupied c i → w₁.store.Occupied c i)
    (htail : Duplicates side g b w₁ ss w') : Duplicates side g b w (t :: ss) w' := by
  have hself := List.mem_singleton_self t
  -- the elements of the first slice stay where they are
  have hkept : ∀ j < t.count, Carried everyColumn g b w₁ t.c (t.start + j) w' t.c (t.start + j) :=
    fun j hj => (htail.others _ _ _ _ (hhead.typed t hself) (hhead.slots t hself j hj)).2
  have hbytes : ∀ j < t.count, ∀ k < side.a.firstTag, ∀ y < side.a.size k,
      w'.memory.data t.c (b.address (w'.store.ct t.c) k (t.start + j) + y) =
        w₁.memory.data t.c (b.address (w₁.store.ct t.c) k (t.start + j) + y) := by
    intro j hj k hk y hy
    exact Mem.read_inj ((hkept j hj).cells k (hcopying.firstTag ▸ hk) trivial)
      (by rwa [hcopying.size])
  -- so does the source
  have hsource : ∀ k < side.a.firstTag, ∀ y < side.a.size k,
      w₁.memory.data side.c (side.address k 0 + y) =
        w.memory.data side.c (side.address k 0 + y) := by
    obtain ⟨-, -, hct, h, ha⟩ := side_spec hside
    obtain ⟨-, -, hct₁, -⟩ := side_spec hside₁
    intro k hk y hy
    have hcell := (hhead.others _ _ _ _ ha hocc).2.cells k hk trivial
    rw [Memory.cell, Memory.cell, ← hct, ← hct₁] at hcell
    exact Mem.read_inj hcell hy
  have hheader : ∀ j < t.count, ∀ k, side.a.firstBuffer ≤ k → k < side.a.firstTag →
      w'.blockAt b t.c k (t.start + j) = w₁.blockAt b t.c k (t.start + j) := by
    intro j hj k hle hk
    have hsame := Memory.readBuffer_congr fun y hy =>
      hbytes j hj k hk y (hy.trans_le (hroomy k hle hk))
    exact congrArg BufferHeader.d hsame
  -- the blocks of the first slice are older than those of the others
  have hold : ∀ j < t.count, ∀ k, side.a.firstBuffer ≤ k → k < side.a.firstTag →
      w'.blockAt b t.c k (t.start + j) ≠ 0 →
      w'.blockAt b t.c k (t.start + j) < w₁.memory.freshBlock := by
    intro j hj k hle hk hne
    rw [hheader j hj k hle hk] at hne ⊢
    exact (((hhead.copied t hself j hj k hk).buffer hle).fresh (hroomy k hle hk) hne).2
  have hnew : ∀ u ∈ ss, ∀ j < u.count, ∀ k, side.a.firstBuffer ≤ k → k < side.a.firstTag →
      w'.blockAt b u.c k (u.start + j) ≠ 0 →
      w₁.memory.freshBlock ≤ w'.blockAt b u.c k (u.start + j) :=
    fun u hu j hj k hle hk hne =>
      (((htail.copied u hu j hj k hk).buffer hle).fresh (hroomy k hle hk) hne).1
  constructor
  · intro u hu
    rcases List.mem_cons.mp hu with rfl | hu
    · exact hhead.pos u hself
    · exact htail.pos u hu
  · intro u hu j hj
    rcases List.mem_cons.mp hu with rfl | hu
    · exact (htail.others _ _ _ _ (hhead.typed u hself) (hhead.slots u hself j hj)).1
    · exact htail.slots u hu j hj
  · intro u hu c i hui hi
    rcases List.mem_cons.mp hu with rfl | hu
    · exact hhead.fresh u hself c i hui hi
    · exact htail.fresh u hu c i hui (hkeeps c i hi)
  · refine List.pairwise_cons.mpr ⟨fun u hu c i htc huc => ?_, htail.apart⟩
    obtain ⟨rfl, hlo, hhi⟩ := htc
    obtain ⟨j, rfl⟩ := Nat.exists_eq_add_of_le hlo
    exact htail.fresh u hu _ _ huc (hhead.slots t hself j (by omega))
  · intro u hu
    rcases List.mem_cons.mp hu with rfl | hu
    · exact (hkept 0 (hhead.pos u hself)).after
    · exact htail.typed u hu
  · intro c i h a ha hi
    obtain ⟨hi₁, hcar⟩ := hhead.others c i h a ha hi
    obtain ⟨hi', hcar'⟩ := htail.others c i h a hcar.after hi₁
    exact ⟨hi', hcar.trans hcar'⟩
  · exact hhead.fresh_le.trans htail.fresh_le
  · exact fun e he => (htail.heap e (he.trans_le hhead.fresh_le)).trans (hhead.heap e he)
  · exact htail.mallocs
  · intro u hu j hj k hk
    rcases List.mem_cons.mp hu with rfl | hu
    · exact (hhead.copied u hself j hj k hk).later (fun hle => hroomy k hle hk) (hbytes j hj k hk)
        htail.heap htail.fresh_le
    · exact (htail.copied u hu j hj k hk).earlier hhead.fresh_le (fun hle => hroomy k hle hk) hm
        (hsource k hk) hhead.heap
  · intro u hu v hv i hi j hj k l hk hk' hl hl' hne heq
    rcases List.mem_cons.mp hu with hut | hu' <;> rcases List.mem_cons.mp hv with hvt | hv'
    · subst u v
      rw [hheader i hi k hk hk'] at hne heq
      rw [hheader j hj l hl hl'] at heq
      exact hhead.own t hself t hself i hi j hj k l hk hk' hl hl' hne heq
    · subst u
      have hlt := hold i hi k hk hk' hne
      rw [heq] at hne hlt
      exact absurd hlt (Nat.not_lt.mpr (hnew v hv' j hj l hl hl' hne))
    · subst v
      have hge := hnew u hu' i hi k hk hk' hne
      rw [heq] at hne hge
      exact absurd (hold j hj l hl hl' hne) (Nat.not_lt.mpr hge)
    · exact htail.own u hu' v hv' i hi j hj k l hk hk' hl hl' hne heq

/-! ## The loop -/

/-- The bins of the chunks that `allocate_slice` takes for `n` entities, call after call. The
entity table plays no part in it. -/
inductive Placed (g : ArchetypeId) : Store → Nat → AllocType → Prop
  | now {st st' : Store} {ents : Entities} {n : Nat} {s : ChunkSlice} (hn : 0 < n)
      (hs : st.allocateSlice ents g n = some (st', s)) : Placed g st n (st'.ct s.c)
  | later {st st' : Store} {ents : Entities} {n : Nat} {s : ChunkSlice} {ct : AllocType}
      (hn : 0 < n) (hs : st.allocateSlice ents g n = some (st', s))
      (ht : Placed g st' (n - s.count) ct) : Placed g st n ct

/-- Between two turns of the loop, `n` instances before its end. -/
structure Duplicating (ctx : Context) (src : Entity) (s : ChunkSlice) (side : Memory.CastSide)
    (g : ArchetypeId) (b : Archetype) (n : Nat) (w : World) : Prop where
  sourced : Sourced ctx src s side g b w
  listed : w.store.Listed ctx
  occupied : w.store.Occupied side.c side.start
  mallocs : w.memory.Mallocs
  space : w.memory.freshBlock + side.a.firstTag * n ≤ 2 ^ 64
  offsets : ∀ ct, Placed g w.store n ct → ∀ k < side.a.firstTag,
    side.a.offsets ct k = side.a.offsets side.ct k

/-- The slots of a slice fit the source. -/
theorem Duplicating.fits {st : Store} {ents : Entities} {src : Entity}
    (h : Duplicating ctx src s side g b n w) (hcopy : Memory.Copyable ctx side)
    (hcopying : CopyingOf ctx side.a b) (hn : 0 < n)
    (hst : w.store.allocateSlice ents g n = some (st, t)) (hty : st.type t.c ≠ none) :
    Memory.Fits side t (st.ct t.c) := by
  have ha := h.sourced.target
  obtain ⟨-, hall⟩ := h.listed.allocateSlice ha hst hty
  obtain ⟨hc, hstart, hct, h', harch⟩ := side_spec h.sourced.kept
  obtain ⟨htype, harch⟩ := archetypeOf_eq_some.mp harch
  constructor
  · exact hcopy.layout
  · exact h.offsets _ (.now hn hst)
  · have hle := hall.le
    rwa [hcopying.chunkCapacity] at hle
  · exact h.listed.allocateSlice_pos ha hn hst hty
  · have hlt := h.occupied.2
    have hle := h.listed.count_le s.c h' side.a htype harch
    rw [← hct, ← hc] at hle
    exact hlt.trans_le hle
  · intro htc
    have hocc := h.occupied
    refine ⟨?_, ?_⟩
    · rw [htc, hc, hct]
      exact hall.ct _ (by simp [htype])
    · rw [← htc] at hocc
      exact Or.inl ((occupied_iff_lt_start hall _).mp hocc)

/-- The columns of the source are behind the handles of such a slice. -/
theorem clear_of_fits (hf : Memory.Fits side t ct) : Clear side t.start := by
  intro k hk
  have hhandles := hf.layout.handles_le ct k hk
  have hslots := hf.slots
  rw [hf.offsets k hk] at hhandles
  simp only [Archetype.address, sizeofEntity] at hhandles ⊢
  omega

/-- `new_entities` writes no component. -/
theorem data_newEntities {mm : Memory} {a : Archetype} {y : Nat} (hl : Layout a)
    (hle : s.start + s.count ≤ a.chunkCapacity ct) (hk : k < a.firstTag)
    (hs : World.newEntities { w with memory := mm } s = some w') :
    w'.memory.data s.c (a.address ct k i + y) = mm.data s.c (a.address ct k i + y) := by
  refine (newEntities_writes hs).same _ ?_
  rintro ⟨-, hhi⟩
  have hhandles := hl.handles_le ct k hk
  have hmul := Nat.mul_le_mul_left sizeofEntity hle
  simp only [Archetype.address] at hhi
  omega

theorem heap_newEntities (hs : w.newEntities s = some w') :
    w'.memory.heap = w.memory.heap ∧ w'.memory.freshBlock = w.memory.freshBlock := by
  simp only [World.newEntities, Option.bind_eq_bind, Option.bind_eq_some_iff] at hs
  obtain ⟨⟨ents, m⟩, -, hs⟩ := hs
  rw [← Option.some.inj hs]
  exact ⟨rfl, rfl⟩

/-- A turn of the loop. -/
theorem Duplicating.turn {src : Entity} {from_ : ChunkSlice} {side' : Memory.CastSide}
    {g' : ArchetypeId} {a' : Archetype} {mm : Memory} (h : Duplicating ctx src s side g b n w)
    (hcopy : Memory.Copyable ctx side) (hcopying : CopyingOf ctx side.a b) (hn : 0 < n)
    (halloc : w.allocateSlice g n = some (w₁, t)) (hfrom : w₁.asSlice src = some from_)
    (hside' : w₁.side from_.c from_.start = some side') (harch : w₁.archetypeOf t.c = some (g', a'))
    (hdup : w₁.memory.duplicate ctx a' t side' = some mm)
    (hnew : { w₁ with memory := mm }.newEntities t = some w₂) (hsize : w₂.ents.size < 2 ^ 24) :
    Duplicates side g b w [t] w₂ ∧ Duplicating ctx src s side g b (n - t.count) w₂ ∧
      ∀ c i, w.store.Occupied c i → w₂.store.Occupied c i := by
  have ha := h.sourced.target
  obtain ⟨st, hst, rfl⟩ := allocateSlice_eq_some.mp halloc
  obtain ⟨htype, harch'⟩ := archetypeOf_eq_some.mp harch
  have hty : st.type t.c ≠ none := by
    rw [htype]
    exact Option.some_ne_none g'
  have hfits := h.fits hcopy hcopying hn hst hty
  have hclear : Clear side t.start := clear_of_fits hfits
  obtain ⟨hnext, -⟩ := h.sourced.turn hclear halloc hfrom hside' harch hdup hnew
  obtain ⟨hl', hall⟩ := h.listed.allocateSlice ha hst hty
  obtain ⟨hstore, hle⟩ := newEntities_store hnew
  have hsource : s = from_ :=
    Option.some.inj ((h.sourced.source (hle.trans_lt hsize)).symm.trans hfrom)
  subst hsource
  have hsides : side = side' := by
    have hkept := hnext.kept
    rw [World.side, World.archetypeOf, hstore] at hkept
    exact Option.some.inj (hkept.symm.trans hside')
  subst hsides
  rw [hall.type, Function.update_self, Option.some.injEq] at htype
  subst htype
  rw [hall.archetype, ha, Option.some.injEq] at harch'
  subst harch'
  have hpos := h.listed.allocateSlice_pos ha hn hst hty
  have hspace := h.space
  have hcount := Nat.mul_le_mul_left side.a.firstTag hall.count_le
  have hspec : Memory.Duplicated side t w.memory mm :=
    hcopy.duplicate_spec hcopying.twinned (fun _ => hfits) h.mallocs
      (by omega) hdup
  have hlayout := constructArchetype_layout (hl'.built g b (hall.archetype ▸ ha)).2
  have haddr : ∀ k < side.a.firstTag, b.address (st.ct t.c) k = side.a.address side.ct k := by
    intro k hk
    funext i
    rw [hcopying.address, Archetype.address, Archetype.address, hfits.offsets k hk]
  have hwrites : Memory.Writes t.c (b.Cells (st.ct t.c) t.start t.count) w.memory mm := by
    refine hspec.writes.mono ?_
    rintro x ⟨k, hk, hx⟩
    refine ⟨k, hcopying.firstTag ▸ hk, ?_⟩
    rwa [haddr k hk, hcopying.size]
  obtain ⟨hheap, hfresh⟩ := heap_newEntities hnew
  have hdata : ∀ k < side.a.firstTag, ∀ j y,
      w₂.memory.data t.c (b.address (w₂.store.ct t.c) k (t.start + j) + y) =
        mm.data t.c (side.a.address side.ct k (t.start + j) + y) := by
    intro k hk j y
    rw [hstore, data_newEntities hlayout hall.le (hcopying.firstTag ▸ hk) hnew, haddr k hk]
  have hothers : ∀ c i h a, w.archetypeOf c = some (h, a) → w.store.Occupied c i →
      w₂.store.Occupied c i ∧ Carried everyColumn h a w c i w₂ c i := by
    intro c i h' a' ha' hi
    refine fill_keeps h.listed ha hall hnew ha' hi fun hput hsame => ?_
    refine Carried.of_cells hput hlayout hwrites hall.le fun hc => ?_
    obtain ⟨hab, hlt⟩ := hsame hc
    have hcap := hall.le
    have hslot : i < b.chunkCapacity (st.ct t.c) := by omega
    exact ⟨hab, hslot, Or.inl hlt⟩
  have hmallocs : w₂.memory.Mallocs :=
    ⟨hfresh ▸ hspec.mallocs.pos, hfresh ▸ hheap ▸ hspec.mallocs.fresh⟩
  have hblock : ∀ k < side.a.firstTag, side.a.firstBuffer ≤ k → ∀ j,
      w₂.blockAt b t.c k (t.start + j) = (Mem.readBuffer (mm.data t.c)
        (side.a.address side.ct k (t.start + j))).d :=
    fun k hk hle j => congrArg BufferHeader.d
      (Memory.readBuffer_congr fun y _ => hdata k hk j y)
  constructor
  · constructor
    · simpa only [List.mem_singleton, forall_eq] using hpos
    · simp only [List.mem_singleton, forall_eq]
      intro j hj
      rw [hstore]
      exact (occupied_of_allocated hall _ _).mpr (Or.inr ⟨rfl, by omega, by omega⟩)
    · simp only [List.mem_singleton, forall_eq]
      rintro c i ⟨rfl, hlo, -⟩ hi
      exact absurd ((occupied_iff_lt_start hall i).mp hi) (Nat.not_lt.mpr hlo)
    · exact List.pairwise_singleton _ _
    · simp only [List.mem_singleton, forall_eq]
      rw [archetypeOf_eq_some, hstore]
      exact ⟨by rw [hall.type, Function.update_self], hall.archetype ▸ ha⟩
    · exact hothers
    · rw [hfresh]
      exact hspec.fresh_le
    · intro e he
      rw [hheap]
      exact hspec.heap e he
    · exact hmallocs
    · simp only [List.mem_singleton, forall_eq]
      intro j hj k hk
      refine (hspec.copied k hk j hj).later ?_ (fun y _ => hdata k hk j y) ?_ ?_
      · exact fun hle => hcopy.roomy k hle (hcopy.unmanaged ▸ hk)
      · exact fun e _ => by rw [hheap]
      · exact hfresh.ge
    · simp only [List.mem_singleton, forall_eq]
      intro i hi j hj k l hk hk' hl hl' hne heq
      rw [hblock k hk' hk, hblock l hl' hl] at heq
      rw [hblock k hk' hk] at hne
      obtain ⟨hkl, hij⟩ := hspec.own k l hk hk' hl hl' i hi j hj hne heq
      exact ⟨trivial, by rw [hij], hkl⟩
  · refine ⟨?_, fun c i hi => hstore ▸ (occupied_of_allocated hall c i).mpr (Or.inl hi)⟩
    constructor
    · exact hnext
    · exact hstore ▸ hl'
    · obtain ⟨hc, -, -, h', harch⟩ := side_spec h.sourced.kept
      exact (hothers side.c side.start h' side.a (hc ▸ harch) h.occupied).1
    · exact hmallocs
    · have hle := hspec.le_fresh
      have hmul := Nat.mul_sub side.a.firstTag n t.count
      rw [hfresh]
      change mm.freshBlock + _ ≤ _
      omega
    · intro ct hct
      rw [hstore] at hct
      exact h.offsets ct (.later hn hst hct)

theorem size_le_instantiateLoop {src : Entity}
    (hs : instantiateLoop ctx src g fuel n w = some (w', ss)) : w.ents.size ≤ w'.ents.size := by
  suffices hinv : ∃ _ : Nat, w.ents.size ≤ w'.ents.size from hinv.choose_spec
  refine instantiateLoop_invariant (I := fun _ v => w.ents.size ≤ v.ents.size) ?_ le_rfl hs
  intro v v₁ v₂ n s from_ side g' a mm hle _ halloc _ _ _ _ hnew
  obtain ⟨st, -, rfl⟩ := allocateSlice_eq_some.mp halloc
  exact hle.trans (newEntities_store hnew).2

/-- The loop of `instantiate_single`. -/
theorem Duplicating.instantiateLoop {src : Entity} (h : Duplicating ctx src s side g b n w)
    (hcopy : Memory.Copyable ctx side) (hcopying : CopyingOf ctx side.a b)
    (hs : World.instantiateLoop ctx src g fuel n w = some (w', ss))
    (hsize : w'.ents.size < 2 ^ 24) :
    Duplicates side g b w ss w' ∧ Sound ctx nowhere w' := by
  induction fuel generalizing n w ss with
  | zero => simp [World.instantiateLoop] at hs
  | succ fuel ih =>
      rw [World.instantiateLoop] at hs
      split_ifs at hs with hn
      · simp only [Option.bind_eq_bind, Option.bind_eq_some_iff] at hs
        obtain ⟨⟨w₁, t⟩, halloc, from_, hfrom, side', hside, ⟨g', a'⟩, harch, mm, hdup, w₂, hnew,
          ⟨w₃, ss'⟩, hloop, hs⟩ := hs
        obtain ⟨rfl, rfl⟩ := Prod.mk.inj (Option.some.inj hs)
        have hsize₂ := (size_le_instantiateLoop hloop).trans_lt hsize
        obtain ⟨hhead, hnext, hkeeps⟩ :=
          h.turn hcopy hcopying hn halloc hfrom hside harch hdup hnew hsize₂
        obtain ⟨htail, hsound⟩ := ih hnext hloop
        obtain ⟨hc, hstart, -⟩ := side_spec h.sourced.kept
        refine ⟨.cons hcopying (fun k hle hk => hcopy.roomy k hle (hcopy.unmanaged ▸ hk)) h.mallocs
          ?_ ?_ h.occupied hhead hkeeps htail, hsound⟩
        · rw [hc, hstart]
          exact h.sourced.kept
        · rw [hc, hstart]
          exact hnext.sourced.kept
      · obtain ⟨rfl, rfl⟩ := Prod.mk.inj (Option.some.inj hs)
        obtain rfl : n = 0 := by omega
        exact ⟨.nil h.mallocs, h.sourced.sound⟩

/-! ## The whole function -/

/-- Archetypes may be added before. -/
theorem Duplicates.of_extended {st : Store} (hext : Store.Extended w.store st)
    (h : Duplicates side g b { w with store := st } ss w') : Duplicates side g b w ss w' where
  pos := h.pos
  slots := h.slots
  fresh t ht c i hi hocc := h.fresh t ht c i hi ((occupied_congr hext.type hext.count c i).mpr hocc)
  apart := h.apart
  typed := h.typed
  others c i h' a ha hi := by
    have hput := Carried.of_extended (i := i) ha hext
    obtain ⟨hi', hcar⟩ := h.others c i h' a hput.after
      ((occupied_congr hext.type hext.count c i).mpr hi)
    exact ⟨hi', hput.trans hcar⟩
  fresh_le := h.fresh_le
  heap := h.heap
  mallocs := h.mallocs
  copied := h.copied
  own := h.own

/-- The instances of an entity in chunk `c` get chunks whose columns start as they do in its own:
chunks of its bin, or of one that has its columns in the same places. -/
def SameOffsets (ctx : Context) (w : World) (c : ChunkId) (a : Archetype) (n : Nat) : Prop :=
  ∀ w₁ g ct, w.getCasted ctx a {} true = some (w₁, some g) → Placed g w₁.store n ct →
    ∀ k < a.firstTag, a.offsets ct k = a.offsets (w.store.ct c) k

theorem asSlice_of_at (h : w.At e c i) : w.asSlice e = some { c := c, start := i, count := 1 } := by
  obtain ⟨hexist, hc, rfl⟩ := h
  simp only [Entities.exist, Bool.and_eq_true, decide_eq_true_eq] at hexist
  simp only [World.asSlice, World.entrySlice, if_pos hexist.1, hc]

/-- A live entity that `chunk::duplicate` can copy `n` times: it has no managed and no guid
component, its index fits `tsize_t`, and there are addresses left for the blocks of its buffers. -/
structure Instantiable (ctx : Context) (w : World) (src : Entity) (c : ChunkId) (i : Nat)
    (g : ArchetypeId) (a : Archetype) (n : Nat) : Prop where
  found : w.Found src c i
  archetype : w.archetypeOf c = some (g, a)
  unmanaged : a.firstManaged = a.firstTag
  guidless : ∀ t, ctx.guidId = some t → t ∉ a.types
  index_lt : i < 2 ^ 16
  roomy : a.Roomy
  mallocs : w.memory.Mallocs
  space : w.memory.freshBlock + a.firstTag * n ≤ 2 ^ 64

/-- The slices `ss` hold `n` new entities, each a copy of the one in slot `i` of chunk `c`. -/
def InstancesOf (ctx : Context) (w : World) (c : ChunkId) (i : Nat) (a : Archetype) (n : Nat)
    (ss : List ChunkSlice) (w' : World) : Prop :=
  (ss.map ChunkSlice.count).sum = n ∧
  (∀ t ∈ ss, ∀ j < t.count, ∃ e, w'.Found e t.c (t.start + j)) ∧
  ∃ g b, CopyingOf ctx a b ∧
    Duplicates { c := c, a := a, ct := w.store.ct c, start := i } g b w ss w'

/-- The archetype is found or made, and the loop starts. -/
theorem duplicating_of_getCasted (hctx : ctx.Built) (hreg : ctx.tracks.length < 2 ^ 30)
    {src : Entity} {h : ArchetypeId} (hw : Orderly ctx w)
    (hsrc : w.Instantiable ctx src c i g a n) (hoffsets : w.SameOffsets ctx c a n)
    (hcasted : w.getCasted ctx a {} true = some (w₁, some h)) (hsize : w.ents.size < 2 ^ 24) :
    ∃ b, CopyingOf ctx a b ∧
      Memory.Copyable ctx { c := c, a := a, ct := w.store.ct c, start := i } ∧
      Duplicating ctx src { c := c, start := i, count := 1 }
        { c := c, a := a, ct := w.store.ct c, start := i } h b n w₁ := by
  obtain ⟨hf, ha, hmanaged, hguid, hi, hroomy, hm, hspace⟩ := hsrc
  obtain ⟨h₁, hext, hents, hmem, -⟩ := hw.sound.getCasted hcasted
  have hfound := asSlice_of_at (hf.entry hsize)
  obtain ⟨htype, harch⟩ := archetypeOf_eq_some.mp ha
  have hbuilt := (hw.listed.built g a harch).2
  obtain ⟨b, hb, hcopying⟩ := copyingOf_getCasted hctx hreg.le hw hbuilt hcasted
  have hl₁ : w₁.store.Listed ctx := (listed_grows ctx).getCasted hw.listed hcasted
  have hside₁ : w₁.side c i = some { c := c, a := a, ct := w.store.ct c, start := i } :=
    side_eq_some.mpr ⟨g, a, hext.type ▸ htype, hext.archetype _ _ harch, hext.ct ▸ rfl⟩
  refine ⟨b, hcopying, ⟨constructArchetype_layout hbuilt, hroomy, hmanaged, hguid, hi⟩,
    ⟨⟨h₁, hb, hside₁, fun _ => ?_⟩, hl₁, ?_, hmem ▸ hm, hmem ▸ hspace, ?_⟩⟩
  · simp only [World.asSlice, World.entrySlice, hents]
    exact hfound
  · exact (occupied_congr hext.type hext.count c i).mpr hf.occupied
  · exact fun ct hct => hoffsets w₁ h ct hcasted hct

/-- One slot of a chunk that has room. -/
theorem allocateSlice_one {st st' : Store} {ents : Entities} (hl : st.Listed ctx)
    (hb : st.archetype g = some b) (hfree : st.firstFree g ≠ none)
    (hs : st.allocateSlice ents g 1 = some (st', t)) : st'.type t.c ≠ none ∧ 0 < t.count := by
  obtain ⟨st₂, u, hu, hty, hpos⟩ := Store.allocateSlice_returns ents hl hb Nat.one_pos
    fun hnone => absurd hnone hfree
  obtain ⟨rfl, rfl⟩ := Prod.mk.inj (Option.some.inj (hs.symm.trans hu))
  exact ⟨hty, hpos⟩

/-- No handle is written over in a chunk that has room. -/
theorem clear_of_sameOffsets (hctx : ctx.Built) (hreg : ctx.tracks.length < 2 ^ 30) {src : Entity}
    (hw : Orderly ctx w) (hsrc : w.Instantiable ctx src c i g a 1)
    (hoffsets : w.SameOffsets ctx c a 1) (hsize : w.ents.size < 2 ^ 24)
    (hfree : ∀ w₁ h, w.getCasted ctx a {} true = some (w₁, some h) → w₁.store.firstFree h ≠ none) :
    w.ClearOfHandles ctx src 1 := by
  intro s side w₁ h t hs hside hcasted hhanded
  obtain rfl := Option.some.inj (hs.symm.trans (asSlice_of_at (hsrc.found.entry hsize)))
  obtain ⟨htype, harch⟩ := archetypeOf_eq_some.mp hsrc.archetype
  have hside' : w.side c i = some { c := c, a := a, ct := w.store.ct c, start := i } :=
    side_eq_some.mpr ⟨g, a, htype, harch, rfl⟩
  obtain rfl := Option.some.inj (hside.symm.trans hside')
  obtain ⟨b, hcopying, hcopy, hstart⟩ :=
    duplicating_of_getCasted hctx hreg hw hsrc hoffsets hcasted hsize
  have hgive := hfree w₁ h hcasted
  cases hhanded with
  | now hn hst =>
      have hty := (allocateSlice_one hstart.listed hstart.sourced.target hgive hst).1
      exact clear_of_fits (hstart.fits hcopy hcopying hn hst hty)
  | later hn hst ht =>
      have hpos := (allocateSlice_one hstart.listed hstart.sourced.target hgive hst).2
      cases ht with
      | now hn => omega
      | later hn => omega

/-- Where each chunk has the columns of the source's, every instance is a copy of the source, and no
other slot changes. -/
theorem copies_of_sameOffsets (hctx : ctx.Built) (hreg : ctx.tracks.length < 2 ^ 30) {src : Entity}
    (hw : Orderly ctx w) (hsrc : w.Instantiable ctx src c i g a n) (hn : 0 < n)
    (hoffsets : w.SameOffsets ctx c a n) (hs : w.instantiateSingle ctx fuel src n = some (w', ss))
    (hsize : w'.ents.size < 2 ^ 24) :
    InstancesOf ctx w c i a n ss w' ∧ Sound ctx nowhere w' := by
  simp only [World.instantiateSingle, Option.bind_eq_bind, Option.bind_eq_some_iff] at hs
  obtain ⟨s, hslice, ⟨g₀, a₀⟩, harch, ⟨w₁, target⟩, hcasted, hs⟩ := hs
  cases target with
  | none =>
      simp only at hs
      split_ifs at hs with hzero
      omega
  | some h =>
      obtain ⟨-, hext, hents, hmem, -⟩ := hw.sound.getCasted hcasted
      have hsize₁ := (size_le_instantiateLoop hs).trans_lt hsize
      rw [hents] at hsize₁
      have hfound := asSlice_of_at (hsrc.found.entry hsize₁)
      obtain rfl := Option.some.inj (hslice.symm.trans hfound)
      obtain ⟨rfl, rfl⟩ := Prod.mk.inj (Option.some.inj (hsrc.archetype.symm.trans harch))
      obtain ⟨b, hcopying, hcopy, hstart⟩ :=
        duplicating_of_getCasted hctx hreg hw hsrc hoffsets hcasted hsize₁
      obtain ⟨hcopies, hsound⟩ := hstart.instantiateLoop hcopy hcopying hs hsize
      refine ⟨⟨(took_instantiateLoop hstart.listed hstart.sourced.target hs).total,
        fun t ht j hj => ?_, h, b, hcopying, ?_⟩, hsound⟩
      · exact ⟨_, hsound.found (hcopies.slots t ht j hj)⟩
      · obtain ⟨st₁, ents₁, mm₁⟩ := w₁
        obtain rfl : ents₁ = w.ents := hents
        obtain rfl : mm₁ = w.memory := hmem
        exact hcopies.of_extended hext

section SameSlots

variable {v v' : World} {side : Memory.CastSide}

/-- A block of a buffer is read from its cell. -/
theorem blockAt_sameSlots (hs : SameSlots w v) (ha : w.archetypeOf c = some (g, a))
    (hi : w.store.Occupied c i) (hk : k < a.firstTag) (hroom : sizeofBuffer ≤ a.size k) :
    v.blockAt a c k i = w.blockAt a c k i := by
  rw [blockAt, blockAt, hs.store, hs.readBuffer ha hi hk hroom]

theorem Duplicates.sameSlots (hs : SameSlots w v) (hs' : SameSlots w' v')
    (hside : w.side c i = some side) (hi : w.store.Occupied c i) (hroomy : ∀ k, side.a.firstBuffer ≤ k →
      k < side.a.firstTag → sizeofBuffer ≤ side.a.size k) (hm : w.memory.Mallocs)
    (hcopying : CopyingOf ctx side.a b) (h : Duplicates side g b w ss w') :
    Duplicates side g b v ss v' where
  pos := h.pos
  slots := by
    rw [hs'.store]
    exact h.slots
  fresh := by
    rw [hs.store]
    exact h.fresh
  apart := h.apart
  typed t ht := (hs'.archetypeOf t.c).trans (h.typed t ht)
  others d j h' a ha hj := by
    rw [hs.archetypeOf] at ha
    rw [hs.store] at hj
    obtain ⟨hj', hcar⟩ := h.others d j h' a ha hj
    refine ⟨?_, hcar.sameSlots hs hs' hj hj'⟩
    rw [hs'.store]
    exact hj'
  fresh_le := by
    rw [hs.freshBlock, hs'.freshBlock]
    exact h.fresh_le
  heap e he := by
    rw [hs.freshBlock] at he
    rw [hs.heap, hs'.heap]
    exact h.heap e he
  mallocs := ⟨hs'.freshBlock ▸ h.mallocs.pos, hs'.freshBlock ▸ hs'.heap ▸ h.mallocs.fresh⟩
  copied t ht j hj k hk := by
    obtain ⟨hc, hstart, hct, g₀, harch⟩ := side_spec hside
    have hroom := fun hle => hroomy k hle hk
    have hk' : k < b.firstTag := hcopying.firstTag ▸ hk
    rw [hs.freshBlock, hs'.store]
    refine ((h.copied t ht j hj k hk).later hroom (fun y hy => ?_) (fun e _ => by rw [hs'.heap])
      hs'.freshBlock.ge).earlier le_rfl hroom
        ⟨hs.freshBlock ▸ hm.pos, hs.freshBlock ▸ hs.heap ▸ hm.fresh⟩ (fun y hy => ?_)
        (fun e _ => by rw [hs.heap])
    · exact hs'.byte (h.typed t ht) (h.slots t ht j hj) hk' (hcopying.size ▸ hy)
    · rw [hc, Memory.CastSide.address, hstart, hct]
      exact (hs.byte harch hi hk hy).symm
  own t ht u hu i hi j hj k l hk hk' hl hl' hne heq := by
    have hblock : ∀ t ∈ ss, ∀ j < t.count, ∀ k, side.a.firstBuffer ≤ k → k < side.a.firstTag →
        v'.blockAt b t.c k (t.start + j) = w'.blockAt b t.c k (t.start + j) :=
      fun t ht j hj k hk hk' => blockAt_sameSlots hs' (h.typed t ht) (h.slots t ht j hj)
        (hcopying.firstTag ▸ hk') (hcopying.size ▸ hroomy k hk hk')
    rw [hblock t ht i hi k hk hk'] at hne heq
    rw [hblock u hu j hj l hl hl'] at heq
    exact h.own t ht u hu i hi j hj k l hk hk' hl hl' hne heq

/-- Instances are instances in all worlds with the same entities. -/
theorem InstancesOf.sameSlots (hs : SameSlots w v) (hs' : SameSlots w' v')
    {src : Entity} (hsrc : w.Instantiable ctx src c i g a n)
    (h : InstancesOf ctx w c i a n ss w') : InstancesOf ctx v c i a n ss v' := by
  obtain ⟨htotal, hfound, g', b, hcopying, hcopies⟩ := h
  obtain ⟨htype, harch⟩ := archetypeOf_eq_some.mp hsrc.archetype
  have hside : w.side c i = some { c := c, a := a, ct := w.store.ct c, start := i } :=
    side_eq_some.mpr ⟨g, a, htype, harch, rfl⟩
  refine ⟨htotal, fun t ht j hj => ?_, g', b, hcopying, ?_⟩
  · obtain ⟨e, he⟩ := hfound t ht j hj
    exact ⟨e, he.sameSlots hs'⟩
  · rw [hs.store]
    exact hcopies.sameSlots hs hs' hside hsrc.found.occupied
      (fun k hle hk => hsrc.roomy k hle (hsrc.unmanaged ▸ hk)) hsrc.mallocs hcopying

end SameSlots

/-- `instantiate_single` copies its source, in every world that an orderly run reaches, where the
calls lay out what they build. -/
theorem instantiateSingle_copies (hctx : ctx.Built) (hreg : ctx.tracks.length < 2 ^ 30)
    {src : Entity} (h : Reachable ctx (fun w op => op.Orderly ctx w ∧ op.LaysOut ctx w) w)
    (hsrc : w.Instantiable ctx src c i g a n) (hn : 0 < n) (hoffsets : w.SameOffsets ctx c a n)
    (hlays : (Op.instantiate src n).LaysOut ctx w)
    (hs : w.instantiateSingle ctx fuel src n = some (w', ss)) (hsize : w'.ents.size < 2 ^ 24) :
    InstancesOf ctx w.whole c i a n ss w'.whole := by
  obtain ⟨hw, hlaid⟩ := laid_of_reachable hctx hreg h
  obtain ⟨hcopies, hsound⟩ := copies_of_sameOffsets hctx hreg hw hsrc hn hoffsets hs hsize
  have hlaid' := (builds_instantiateSingle hs).laid hw.sound.wf hlaid hlays
  exact hcopies.sameSlots (hw.whole hlaid) (sameSlots_whole hsound.wf hlaid') hsrc

/-! A single instance goes to the first chunk that has room. -/

theorem placed_one {st : Store} {ct : AllocType} (hl : st.Listed ctx)
    (hb : st.archetype g = some b) (hfree : st.firstFree g = some c) (h : Placed g st 1 ct) :
    ct = st.ct c := by
  have hone : ∀ {st' ents s}, st.allocateSlice ents g 1 = some (st', s) →
      st'.ct s.c = st.ct c ∧ s.count = 1 := by
    intro st' ents s hs
    obtain ⟨st₂, t, ht, hty, hpos⟩ :=
      Store.allocateSlice_returns ents hl hb Nat.one_pos (by simp [hfree])
    obtain ⟨rfl, rfl⟩ := Prod.mk.inj (Option.some.inj (hs.symm.trans ht))
    obtain ⟨-, hall⟩ := hl.allocateSlice hb hs hty
    have hle := hall.count_le
    rcases hl.allocateSlice_chunk hb hs hty with ⟨hc, htype, -⟩ | ⟨hnone, -⟩
    · rw [hfree, Option.some.injEq] at hc
      subst hc
      exact ⟨hall.ct _ (by simp [htype]), by omega⟩
    · simp [hfree] at hnone
  cases h with
  | now _ hs => exact (hone hs).1
  | later _ hs ht =>
      rw [(hone hs).2] at ht
      cases ht with
      | now hn => omega
      | later hn => omega

/-- An instance that goes to the chunk of its source has its columns there. -/
theorem sameOffsets_one {h : ArchetypeId} (hw : Orderly ctx w)
    (hcasted : w.getCasted ctx a {} true = some (w₁, some h))
    (hfree : w₁.store.firstFree h = some c) : w.SameOffsets ctx c a 1 := by
  obtain ⟨-, hext, -, -, htarget⟩ := hw.sound.getCasted hcasted
  obtain ⟨b, hb⟩ := htarget h rfl
  intro w₂ g ct hcasted₂ hplaced _ _
  obtain ⟨rfl, hg⟩ := Prod.mk.inj (Option.some.inj (hcasted.symm.trans hcasted₂))
  obtain rfl := Option.some.inj hg
  rw [placed_one ((listed_grows ctx).getCasted hw.listed hcasted) hb hfree hplaced, hext.ct]

theorem mallocs_initial (timestamp : Nat) (raw : Nat → Nat) (data : ChunkId → Mem)
    (guids : Nat → List UInt8) : (initial timestamp raw data guids).memory.Mallocs :=
  ⟨Nat.one_pos, fun _ _ => rfl⟩

theorem mallocs_allocate {type : EntityType} (h : w.memory.Mallocs)
    (hs : w.allocate ctx fuel type n = some (w', ss)) : w'.memory.Mallocs := by
  simp only [World.allocate, Option.bind_eq_bind, Option.bind_eq_some_iff] at hs
  obtain ⟨⟨w₁, g⟩, hget, hs⟩ := hs
  obtain ⟨st, hst, rfl⟩ := getArchetype_eq_some hget
  have h₁ : World.memory { w with store := st } |>.Mallocs := h
  refine allocateLoop_invariant (I := fun v => v.memory.Mallocs) ?_ h₁ hs
  rintro v v₁ v₂ n s g' a' hv - halloc - hnew
  obtain ⟨st, hst, rfl⟩ := allocateSlice_eq_some.mp halloc
  obtain ⟨hheap, hfresh⟩ := heap_newEntities hnew
  exact ⟨hfresh ▸ hv.pos, hfresh ▸ hheap ▸ hv.fresh⟩

theorem mallocs_smallThenFast (hw : smallThenFast = some w) : w.memory.Mallocs := by
  refine foldlM_invariant (P := fun v : World => v.memory.Mallocs) ?_ hw (mallocs_initial _ _ _ _)
  intro op hop v v' hs hv
  rcases List.mem_pair.mp hop with rfl | rfl
  · obtain ⟨⟨_, ss⟩, hrun, rfl⟩ := Option.map_eq_some_iff.mp hs
    exact mallocs_allocate hv hrun
  · obtain ⟨⟨_, ss⟩, hrun, rfl⟩ := Option.map_eq_some_iff.mp hs
    exact mallocs_allocate hv hrun

/-- The first entity of a chunk whose components are the one-byte and the wide one. -/
theorem instantiable_narrowWide (hw₀ : Orderly narrowWide w) (hm : w.memory.Mallocs) {v : Nat}
    (ha : w.archetypeOf c = some (0, a)) (hcount : 0 < w.store.count c)
    (hentity : (w.memory.entityAt c 0).value = v)
    (hcolumns : a.firstBuffer = 2 ∧ a.firstManaged = 2 ∧ a.firstTag = 2)
    (hfresh : w.memory.freshBlock = 1) : w.Instantiable narrowWide ⟨v⟩ c 0 0 a 1 := by
  obtain ⟨htype, -⟩ := archetypeOf_eq_some.mp ha
  have hfound := hw₀.sound.found (c := c) (i := 0) ⟨by simp [htype], hcount⟩
  have hhandle : w.memory.entityAt c 0 = ⟨v⟩ := Entity.ext hentity
  rw [hhandle] at hfound
  constructor
  · exact hfound
  · exact ha
  · omega
  · intro t ht
    have hnone : narrowWide.guidId = none := by decide
    simp [hnone] at ht
  · decide
  · intro k hlo hhi
    omega
  · exact hm
  · omega

/-- The instances of a source have the type that its archetype casts to. -/
theorem asks_instance {src : Entity} {key : EntityType} (hsrc : w.Instantiable ctx src c i g a n)
    (hsize : w.ents.size < 2 ^ 24) (h : (Op.instantiate src n).Asks ctx w key) :
    key = castedType ctx a {} true := by
  obtain ⟨s, g', a', hslice, harch, -, rfl⟩ := h
  obtain rfl := Option.some.inj (hslice.symm.trans (asSlice_of_at (hsrc.found.entry hsize)))
  rw [(Prod.mk.inj (Option.some.inj (harch.symm.trans hsrc.archetype))).2]

/-- One instance of the first entity in the fast chunk of `smallThenFast` goes next to it. -/
theorem instantiateSingle_fast : ∃ w w' ss a, smallThenFast = some w ∧
    w.instantiateSingle narrowWide 2 ⟨512⟩ 1 = some (w', ss) ∧
    InstancesOf narrowWide w.whole 1 0 a 1 ss w'.whole := by
  have hsome : smallThenFast.bind (fun w => (w.archetypeOf 1).bind fun p =>
      (w.instantiateSingle narrowWide 2 ⟨512⟩ 1).bind fun r =>
        (w.getCasted narrowWide p.2 {} true).map fun q =>
          ([w.store.count 1, (w.memory.entityAt 1 0).value, w.memory.freshBlock,
            p.2.firstBuffer, p.2.firstManaged, p.2.firstTag, w.ents.size, r.1.ents.size, p.1],
            q.2, q.1.store.firstFree 0, castedType narrowWide p.2 {} true)) =
      some ([5, 512, 1, 2, 2, 2, 7, 8, 0], some 0, some 1, { types := [4, 5] }) := by decide +kernel
  obtain ⟨w, hw, hsome⟩ := Option.bind_eq_some_iff.mp hsome
  obtain ⟨⟨g, a⟩, ha, hsome⟩ := Option.bind_eq_some_iff.mp hsome
  obtain ⟨⟨w', ss⟩, hrun, hsome⟩ := Option.bind_eq_some_iff.mp hsome
  obtain ⟨⟨w₁, target⟩, hcasted, hfacts⟩ := Option.map_eq_some_iff.mp hsome
  simp only [Prod.mk.injEq, List.cons.injEq, and_true] at hfacts
  obtain ⟨⟨hcount, hentity, hfresh, hbuf, hman, htag, hsize₀, hsize, rfl⟩, rfl, hfree, hkey⟩ :=
    hfacts
  have hw₀ := orderly_of_reachable built_narrowWide (by decide)
    ((orderly_smallThenFast hw).mono fun _ _ h => h.1)
  have hsrc := instantiable_narrowWide hw₀ (mallocs_smallThenFast hw) ha (by omega) hentity
    ⟨hbuf, hman, htag⟩ hfresh
  have hlays : (Op.instantiate ⟨512⟩ 1).LaysOut narrowWide w :=
    Op.laysOut_of_key (fun _ h => (asks_instance hsrc (by omega) h).trans hkey) (by decide +kernel)
  exact ⟨w, w', ss, a, hw, hrun, instantiateSingle_copies built_narrowWide (by decide)
    (orderly_smallThenFast hw) hsrc Nat.one_pos (sameOffsets_one hw₀ hcasted hfree) hlays hrun
    (by omega)⟩

/-- One instance of the first entity in the small chunk goes to the fast one, and the handle in
slot 3 there is lost. -/
theorem not_instantiateSingle_small : ∃ w w' ss a, smallThenFast = some w ∧
    Reachable narrowWide (fun w op => op.Orderly narrowWide w ∧ op.LaysOut narrowWide w) w ∧
    w.Instantiable narrowWide ⟨0⟩ 0 0 0 a 1 ∧ a.cleaning = false ∧
    (Op.instantiate ⟨0⟩ 1).LaysOut narrowWide w ∧
    w.instantiateSingle narrowWide 2 ⟨0⟩ 1 = some (w', ss) ∧ w'.ents.size < 2 ^ 24 ∧ ¬ InstancesOf narrowWide w.whole 0 0 a 1 ss w'.whole := by
  have hsome : smallThenFast.bind (fun w => (w.archetypeOf 0).bind fun p =>
      (w.instantiateSingle narrowWide 2 ⟨0⟩ 1).map fun r =>
        ([w.store.count 0, (w.memory.entityAt 0 0).value, w.memory.freshBlock,
          p.2.firstBuffer, p.2.firstManaged, p.2.firstTag, w.ents.size, r.1.ents.size, p.1],
          p.2.cleaning, w.archetypeOf 1 |>.isSome, [w.store.count 1,
          (w.whole.memory.entityAt 1 3).value, (r.1.whole.memory.entityAt 1 3).value],
          castedType narrowWide p.2 {} true)) =
      some ([2, 0, 1, 2, 2, 2, 7, 8, 0], false, true, [5, 1280, 0], { types := [4, 5] }) := by
    decide +kernel
  obtain ⟨w, hw, hsome⟩ := Option.bind_eq_some_iff.mp hsome
  obtain ⟨⟨g, a⟩, ha, hsome⟩ := Option.bind_eq_some_iff.mp hsome
  obtain ⟨⟨w', ss⟩, hrun, hfacts⟩ := Option.map_eq_some_iff.mp hsome
  simp only [Prod.mk.injEq, List.cons.injEq, and_true] at hfacts
  obtain ⟨⟨hcount, hentity, hfresh, hbuf, hman, htag, hsize₀, hsize, rfl⟩, hclean, harch,
    ⟨hcount', hold, hnew⟩, hkey⟩ := hfacts
  have hw₀ := orderly_of_reachable built_narrowWide (by decide)
    ((orderly_smallThenFast hw).mono fun _ _ h => h.1)
  have hsrc := instantiable_narrowWide hw₀ (mallocs_smallThenFast hw) ha (by omega) hentity
    ⟨hbuf, hman, htag⟩ hfresh
  have hlays : (Op.instantiate ⟨0⟩ 1).LaysOut narrowWide w :=
    Op.laysOut_of_key (fun _ h => (asks_instance hsrc (by omega) h).trans hkey) (by decide +kernel)
  refine ⟨w, w', ss, a, hw, orderly_smallThenFast hw, hsrc, hclean, hlays, hrun, by omega, ?_⟩
  rintro ⟨-, -, g, b, -, hcopies⟩
  obtain ⟨⟨h, a'⟩, ha'⟩ := Option.isSome_iff_exists.mp harch
  obtain ⟨htype, -⟩ := archetypeOf_eq_some.mp ha'
  have hocc : w.store.Occupied 1 3 := ⟨by simp [htype], by omega⟩
  have hkept := (hcopies.others 1 3 h a' ha' hocc).2.handle
  have hvalue : (w'.whole.memory.entityAt 1 3).value = (w.whole.memory.entityAt 1 3).value :=
    congrArg Entity.value hkept
  omega

end World

end Dots

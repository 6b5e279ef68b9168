import Dots.Database.Blocks
import Dots.Database.Handles
import Dots.Database.Keys

/-!
# What structural changes leave alone

`world::destroy` and `world::cast` move entities of the same chunk, and those of the
slice, to other slots. Here is when all of them keep their components.
-/

namespace Dots

open Library Entities

namespace World

variable {K : Watched} {ctx : Context} {w w₁ w' : World} {g h srcG : ArchetypeId}
  {a b srcA : Archetype} {c : ChunkId} {i : Nat} {s : ChunkSlice}

/-! ## Entities outside the slice -/

/-- A chunk that keeps its type and bin. -/
theorem Carried.of_listed {st : Store} (hb : w.archetypeOf c = some (h, b))
    (hl : st.Listed ctx) (hold : Store.Older w.store st) (htype : st.type c = w.store.type c)
    (hct : st.ct c = w.store.ct c) : Carried everyColumn h b w c i { w with store := st } c i := by
  obtain ⟨hc, hb'⟩ := archetypeOf_eq_some.mp hb
  obtain ⟨b', hb''⟩ := hl.alive c h (htype.trans hc)
  obtain rfl : b' = b := Option.some.inj ((hold h b' hb'').symm.trans hb')
  exact Carried.of_store hb htype hct hb''

theorem Carried.of_extended {st : Store} (hb : w.archetypeOf c = some (h, b))
    (hext : Store.Extended w.store st) : Carried everyColumn h b w c i { w with store := st } c i :=
  Carried.of_store hb (congrFun hext.type c) (congrFun hext.ct c)
    (hext.archetype h b (archetypeOf_eq_some.mp hb).2)

/-- `free_entities` changes the table alone. -/
theorem freed_of_release (hl : w.store.Listed ctx) (hv : w.ValidSlice s)
    (hs : w.release s = some w') : ∃ ents g a, w.archetypeOf s.c = some (g, a) ∧
      Freed { w with ents := ents } s g a w' := by
  obtain ⟨w₁, hfree, hs⟩ := Option.bind_eq_some_iff.mp hs
  obtain ⟨ents, -, hw₁⟩ := Option.bind_eq_some_iff.mp hfree
  obtain rfl := Option.some.inj hw₁
  obtain ⟨g, a, harch, hfreed⟩ :=
    Freed.of_freeSlice (w := { w with ents := ents }) hl hv.pos hv.le hs
  exact ⟨ents, g, a, harch, hfreed⟩

theorem kept_release (hl : w.store.Listed ctx) (hv : w.ValidSlice s) (hfit : TailFits K w s)
    (hs : w.release s = some w') (hb : w.archetypeOf c = some (h, b)) (hi : w.store.Occupied c i)
    (hout : ¬ Slots.of s c i) : Kept K h b w c i w' := by
  obtain ⟨ents, g, a, harch, hfreed⟩ := freed_of_release hl hv hs
  obtain ⟨c', i', hocc, hcar⟩ := hfreed.kept harch hfit hv.le hb hi hout
  exact ⟨c', i', hocc, hcar.before, hcar.after, hcar.handle, hcar.cells⟩

theorem heap_release (hs : w.release s = some w') : w'.memory.heap = w.memory.heap := by
  obtain ⟨w₁, hfree, hs⟩ := Option.bind_eq_some_iff.mp hs
  obtain ⟨ents, -, hw₁⟩ := Option.bind_eq_some_iff.mp hfree
  obtain rfl := Option.some.inj hw₁
  have hheap := heap_freeSlice hs
  exact hheap

/-! ## The fast path of `cast` -/

/-- What the fast path leaves of the store. -/
theorem relink_fields {st st₁ st₂ : Store} {ents : Entities} (hwf : st.Wf ctx)
    (hc : st.type c = some srcG) (hrem : st.removeChunk ents srcG c = some st₁)
    (hadd : st₁.addChunk g c = some st₂) :
    st₂.type = Function.update st.type c (some g) ∧ st₂.count = st.count ∧ st₂.ct = st.ct := by
  obtain ⟨-, hremoved⟩ := hwf.removeChunk hc hrem
  simp only [Store.addChunk, Option.bind_eq_bind, Option.bind_eq_some_iff] at hadd
  obtain ⟨a, -, hadd⟩ := hadd
  obtain ⟨htype, hcount, hct, -⟩ := Store.splice_retyped hadd
  have hshape := (Store.structuralChange_shape st₁ g a c).trans
    (Store.addSize_shape (st₁.structuralChange g a c) g (st₁.count c))
  refine ⟨?_, ?_, ?_⟩
  · rw [htype]
    change Function.update ((st₁.structuralChange g a c).addSize g _).type c _ = _
    rw [hshape.type, hremoved.type, Function.update_idem]
  · exact hcount.trans (hshape.count.trans hremoved.count)
  · exact hct.trans (hshape.ct.trans hremoved.ct)

section Castable

variable {key key' : EntityType}

theorem valid_of_staticCastableFrom (hctx : ctx.Paired) {ts us : List TypeIndex}
    (hs : staticCastableFrom ctx ts us = true) :
    (ts.takeWhile fun t => !t.isTag).map ctx.toValidType =
      (us.takeWhile fun t => !t.isTag).map ctx.toValidType := by
  induction ts generalizing us with
  | nil =>
      cases us with
      | nil => rfl
      | cons u us => simp [show u.isTag = true from hs]
  | cons t ts ih =>
      cases us with
      | nil => simp [show t.isTag = true from hs]
      | cons u us =>
          simp only [staticCastableFrom] at hs
          split_ifs at hs with htags hvalid
          · simp only [Bool.and_eq_true] at htags
            simp [htags.1, htags.2]
          · have htag : t.isTag = u.isTag := by
              rw [← (hctx.toValidType t).2, ← (hctx.toValidType u).2, hvalid]
            cases htu : u.isTag with
            | true =>
                rw [htu] at htag
                simp [htag, htu]
            | false =>
                rw [htu] at htag
                simp [htag, htu, hvalid, ih hs]

/-- Castable archetypes have the same layout. -/
theorem layout_of_staticCastable (hctx : ctx.Paired) (ha : constructArchetype ctx key = some a)
    (hb : constructArchetype ctx key' = some b) (hs : staticCastable ctx key key' = true) :
    b.firstTag = a.firstTag ∧ b.sizes = a.sizes ∧ b.offsets = a.offsets := by
  have hinfos := infos_of_staticCastableFrom hctx hs
  rw [← take_segment, ← take_segment] at hinfos
  have hlen := congrArg List.length hinfos
  rw [List.length_map, List.length_map, List.length_take, List.length_take,
    Nat.min_eq_left (segment_le _ _), Nat.min_eq_left (segment_le _ _)] at hlen
  rw [hlen] at hinfos
  simp only [constructArchetype] at ha hb
  split_ifs at ha hb
  rw [← Option.some.inj ha, ← Option.some.inj hb]
  simp only [hlen, hinfos, and_self]

theorem before_eq_countP {t : TypeIndex} (ht : t ∈ a.types) :
    a.before ctx t = (List.range (a.column t)).countP fun j =>
      ctx.toValidType (a.types.getD j 0) = ctx.toValidType t := by
  rw [Archetype.before, Archetype.take_types (Archetype.column_lt ht).le, List.countP_map]
  rfl

/-- Where the types agree up to twins, a type is not further behind on one side. -/
theorem column_le_of_valid {t : TypeIndex} (hta : t ∈ a.types) (htb : t ∈ b.types)
    (hbefore : a.before ctx t = b.before ctx t)
    (hvalid : ∀ j < b.column t,
      ctx.toValidType (a.types.getD j 0) = ctx.toValidType (b.types.getD j 0)) :
    b.column t ≤ a.column t := by
  by_contra hlt
  rw [not_le] at hlt
  rw [before_eq_countP hta, before_eq_countP htb] at hbefore
  have hself : ctx.toValidType (b.types.getD (a.column t) 0) = ctx.toValidType t := by
    rw [← hvalid _ hlt, List.getD_eq_getElem?_getD,
      List.getElem?_eq_getElem (Archetype.column_lt hta), Option.getD_some,
      Archetype.types_column hta]
  have hsame : (List.range (a.column t)).countP (fun j =>
      ctx.toValidType (b.types.getD j 0) = ctx.toValidType t) =
      (List.range (a.column t)).countP fun j =>
        ctx.toValidType (a.types.getD j 0) = ctx.toValidType t := by
    apply List.countP_congr
    intro j hj
    rw [hvalid j ((List.mem_range.mp hj).trans hlt)]
  have hmore := (List.range_sublist.mpr (Nat.succ_le_of_lt hlt)).countP_le (p := fun j =>
    decide (ctx.toValidType (b.types.getD j 0) = ctx.toValidType t))
  rw [List.range_succ, List.countP_append, hsame, hbefore, List.countP_singleton,
    if_pos (by simpa using hself)] at hmore
  omega

/-- The types before the tags agree one by one. -/
theorem valid_of_staticCastable (hctx : ctx.Paired) (ha : constructArchetype ctx key = some a)
    (hb : constructArchetype ctx key' = some b) (hs : staticCastable ctx key key' = true) {j : Nat}
    (hj : j < a.firstTag) :
    ctx.toValidType (a.types.getD j 0) = ctx.toValidType (b.types.getD j 0) := by
  have htag' := (layout_of_staticCastable hctx ha hb hs).1
  have hlists := valid_of_staticCastableFrom hctx hs
  have hlen := (constructArchetype_layout ha).tag_le
  have hlen' := (constructArchetype_layout hb).tag_le
  rw [← constructArchetype_type ha, ← constructArchetype_type hb] at hlists
  have hj' := congrArg (fun l => l[j]?) hlists
  rw [← take_segment, ← take_segment] at hj'
  have hsegs := (Archetype.segments ha).1
  have hsegs' := (Archetype.segments hb).1
  rw [List.take_length] at hsegs hsegs'
  change (List.map _ (a.types.take (segment _ a.types)))[j]? =
    (List.map _ (b.types.take (segment _ b.types)))[j]? at hj'
  rw [← hsegs, ← hsegs', htag', List.getElem?_map, List.getElem?_map,
    List.getElem?_take_of_lt hj, List.getElem?_take_of_lt hj,
    List.getElem?_eq_getElem (hj.trans_le hlen),
    List.getElem?_eq_getElem ((htag' ▸ hj).trans_le hlen'), Option.map_some, Option.map_some,
    Option.some.injEq] at hj'
  rw [List.getD_eq_getElem?_getD, List.getD_eq_getElem?_getD,
    List.getElem?_eq_getElem (hj.trans_le hlen),
    List.getElem?_eq_getElem ((htag' ▸ hj).trans_le hlen'), Option.getD_some, Option.getD_some]
  exact hj'

/-- Types that are no tags have a column. -/
theorem column_lt_firstTag (ha : constructArchetype ctx key = some a) (hs : SortedTypes a.types)
    {t : TypeIndex} (ht : t ∈ a.types) (htag : t.isTag = false) : a.column t < a.firstTag := by
  have hbits : t.bits < 3 := by
    have := Archetype.bits_lt t
    simp only [TypeIndex.isTag, ComponentType.bits, beq_eq_false_iff_ne, ne_eq] at htag
    omega
  exact (Archetype.boundaries ha hs (Archetype.column_lt ht)).1.mpr (by
    rwa [Archetype.types_column ht])

theorem column_of_staticCastable (hctx : ctx.Paired) (ha : constructArchetype ctx key = some a)
    (hb : constructArchetype ctx key' = some b) (hs : staticCastable ctx key key' = true)
    (hsa : SortedTypes a.types) (hsb : SortedTypes b.types) (htwins : TwinsAgree ctx a b)
    {t : TypeIndex} (hta : t ∈ a.types) (htb : t ∈ b.types) (htag : t.isTag = false) :
    b.column t = a.column t := by
  have hka := column_lt_firstTag ha hsa hta htag
  have hkb := column_lt_firstTag hb hsb htb htag
  have htag' := (layout_of_staticCastable hctx ha hb hs).1
  have hvalid : ∀ j < a.firstTag,
      ctx.toValidType (a.types.getD j 0) = ctx.toValidType (b.types.getD j 0) :=
    fun j hj => valid_of_staticCastable hctx ha hb hs hj
  have hbefore := Archetype.before_eq hctx hsa hsb htwins hta htb
  apply Nat.le_antisymm
  · exact column_le_of_valid hta htb hbefore fun j hj => hvalid j (by omega)
  · exact column_le_of_valid htb hta hbefore.symm fun j hj => (hvalid j (by omega)).symm

end Castable

/-! ## Entities of the slice -/

/-- Entity `j` of a slice after a cast: in slot `i` of chunk `d`, with its handle and the
bytes of the watched components that both archetypes own. -/
structure Recast (K : Watched) (w : World) (s : ChunkSlice) (srcA : Archetype) (j : Nat)
    (g : ArchetypeId) (b : Archetype) (w' : World) (d : ChunkId) (i : Nat) : Prop where
  occupied : w'.store.Occupied d i
  after : w'.archetypeOf d = some (g, b)
  handle : w'.memory.entityAt d i = w.memory.entityAt s.c (s.start + j)
  cells : ∀ t ∈ srcA.types, t ∈ b.types → t.isTag = false → K srcA (srcA.column t) →
    w'.memory.cell d b (w'.store.ct d) (b.column t) i =
      w.memory.cell s.c srcA (w.store.ct s.c) (srcA.column t) (s.start + j)

/-- `chunk::cast` finds each piece of the slice at its 16-bit source index, or the same
bytes there. -/
def PiecesFit (K : Watched) (w : World) (s : ChunkSlice) (srcG : ArchetypeId) (srcA : Archetype)
    (g : ArchetypeId) : Prop :=
  ∀ p t, Cut g (w.castStart srcG srcA s).store s.count 0 p t → ∀ j < t.count,
    ∀ k < srcA.firstTag, K srcA k →
      w.memory.cell s.c srcA (w.store.ct s.c) k ((s.start + p) % 2 ^ 16 + j) =
        w.memory.cell s.c srcA (w.store.ct s.c) k (s.start + p + j)

/-- What `cast_slice` asks for: indices that fit their 16 bits, type lists of less than
2^16 types, buffers with room for their header. -/
structure SlowFits (K : Watched) (w : World) (s : ChunkSlice) (srcG : ArchetypeId)
    (srcA : Archetype) (g : ArchetypeId) (b : Archetype) : Prop where
  tail : TailFits K w s
  pieces : PiecesFit K w s srcG srcA g
  short : srcA.types.length < 2 ^ 16
  short' : b.types.length < 2 ^ 16
  roomy : b.Roomy

theorem index_lt {t : TypeIndex} (hs : SortedTypes a.types) (hlen : a.types.length < 2 ^ 16)
    (ht : t ∈ a.types) : a.index t = a.column t ∧ a.index t ≠ invalidIndex := by
  have hlt := Archetype.column_lt ht
  rw [Archetype.index_eq hs ht, Nat.mod_eq_of_lt (hlt.trans hlen)]
  refine ⟨rfl, ?_⟩
  unfold invalidIndex
  omega

theorem mem_of_index {t : TypeIndex} (h : a.index t ≠ invalidIndex) : t ∈ a.types := by
  simp only [Archetype.index] at h
  split_ifs at h with hget
  · exact List.mem_of_getElem? hget
  · exact absurd rfl h

/-- With the mask on both sides, nothing is ever cast. -/
theorem count_of_masks {mm mm' : Memory} {dst src : Memory.CastSide} {n : Nat} {destruct : Bool}
    (hsrc : src.a.index ctx.maskId ≠ invalidIndex) (hdst : dst.a.index ctx.maskId ≠ invalidIndex)
    (hs : mm.cast ctx dst src n destruct = some mm') : n = 0 := by
  simp only [Memory.cast, Option.bind_eq_bind, Option.bind_eq_some_iff, if_neg hsrc,
    if_neg hdst] at hs
  obtain ⟨mm₂, -, hs⟩ := hs
  split_ifs at hs with hn
  exact hn

theorem Moving.masks (hctx : ctx.Built) {w₀ : World} {src : ChunkSlice} {fuel : Nat}
    {ss : List ChunkSlice} (hg : srcG ≠ g) (h : Moving ctx w₀ src srcG g srcA a 0 w)
    (hsrc : srcA.index ctx.maskId ≠ invalidIndex) (hdst : a.index ctx.maskId ≠ invalidIndex)
    (hs : World.castLoop ctx src g fuel 0 w = some (w', ss)) : src.count = 0 := by
  suffices hinv : ∃ k, src.count ≤ k ∧ (k = 0 ∧ Moving ctx w₀ src srcG g srcA a 0 w') by
    obtain ⟨k, hk, rfl, -⟩ := hinv
    exact Nat.le_zero.mp hk
  refine castLoop_invariant
    (I := fun k v => k = 0 ∧ Moving ctx w₀ src srcG g srcA a 0 v) ?_ ⟨rfl, h⟩ hs
  rintro w w₁ k s dst side mm ⟨rfl, hv⟩ hlt halloc hdst' hside hcast
  have hturn := hv.turn hctx hg hlt halloc hdst' hside hcast
  obtain ⟨st, hst, rfl⟩ := allocateSlice_eq_some.mp halloc
  obtain ⟨g₁, a₁, htype, harch, rfl⟩ := side_eq_some.mp hdst'
  obtain ⟨g₂, a₂, hc₂, ha₂, rfl⟩ := side_eq_some.mp hside
  obtain ⟨-, hall⟩ := hv.listed.allocateSlice hv.target hst (by
    rw [htype]
    exact Option.some_ne_none g₁)
  have hzero : s.count = 0 := by
    apply count_of_masks _ _ hcast
    · obtain ⟨hc, hsrcA⟩ := archetypeOf_eq_some.mp hv.source
      change st.type src.c = some g₂ at hc₂
      rw [type_of_allocated hall (by rw [hc]; exact Option.some_ne_none _), hc,
        Option.some.injEq] at hc₂
      subst hc₂
      change st.archetype srcG = some a₂ at ha₂
      rw [hall.archetype, hsrcA, Option.some.injEq] at ha₂
      exact ha₂ ▸ hsrc
    · change st.type s.c = some g₁ at htype
      rw [hall.type, Function.update_self, Option.some.injEq] at htype
      subst htype
      change st.archetype g = some a₁ at harch
      rw [hall.archetype, hv.target, Option.some.injEq] at harch
      exact harch ▸ hdst
  rw [hzero] at hturn ⊢
  exact ⟨rfl, hturn⟩

/-- The part of it that the entities of the slice need. -/
structure SliceFits (K : Watched) (w : World) (s : ChunkSlice) (srcG : ArchetypeId)
    (srcA : Archetype) (g : ArchetypeId) (b : Archetype) : Prop where
  pieces : PiecesFit K w s srcG srcA g
  short : srcA.types.length < 2 ^ 16
  short' : b.types.length < 2 ^ 16
  roomy : b.Roomy

theorem SlowFits.slice (h : SlowFits K w s srcG srcA g b) : SliceFits K w s srcG srcA g b :=
  ⟨h.pieces, h.short, h.short', h.roomy⟩

/-- No column. -/
abbrev noColumn : Watched := fun _ _ => False

theorem tailFits_noColumn (w : World) (s : ChunkSlice) : TailFits noColumn w s :=
  fun _ _ _ _ _ _ _ => False.elim

/-- `cast_slice`: the entities of the slice. -/
theorem castSlice_recasts (hctx : ctx.Built) {fuel : Nat} {ss : List ChunkSlice}
    (hl : w.store.Listed ctx) (hsorted : w.store.SortedKeys) (hv : w.ValidSlice s)
    (hsrc : w.archetypeOf s.c = some (srcG, srcA)) (hb : w.store.archetype g = some b)
    (hg : srcG ≠ g)
    (hfit : (∃ k, K srcA k) → TwinsAgree ctx srcA b ∧ SliceFits K w s srcG srcA g b)
    (hs : w.castSlice ctx fuel s g = some (w', ss)) :
    ∀ j < s.count, ∃ d i, Recast K w s srcA j g b w' d i := by
  intro j hj
  obtain ⟨-, -, hslice⟩ := castSlice_carries hctx hl hv hsrc hb hg (tailFits_noColumn w s) hs
  obtain ⟨d, i, p, t, hocc, hcut, hp, hpt, harr⟩ := hslice j hj
  obtain ⟨hc, hsrcA⟩ := archetypeOf_eq_some.mp hsrc
  have hsa := hsorted srcG srcA hsrcA
  have hsb := hsorted g b hb
  have hbuiltA := (hl.built srcG srcA hsrcA).2
  have hbuiltB := (hl.built g b hb).2
  refine ⟨d, i, hocc, harr.after, harr.handle, fun u hua hub htag hK => ?_⟩
  obtain ⟨htwins, hfits⟩ := hfit ⟨_, hK⟩
  have hmeet := Memory.meets_of_mem hctx.paired hbuiltA hbuiltB hsa hsb htwins hua hub htag
  rw [harr.cells hfits.roomy _ _ hmeet fun hmask hcol => ?_,
    hfits.pieces p t hcut (j - p) (by omega) _
      (hmeet.spec (constructArchetype_layout hbuiltA) (constructArchetype_layout hbuiltB)).1 hK]
  · congr 1
    omega
  · -- the mask itself: then both sides own it, and the cast never returns
    have hmem := mem_of_index hmask
    obtain ⟨hindex, -⟩ := index_lt hsb hfits.short' hmem
    rw [hindex] at hcol
    have hsame : u = ctx.maskId := by
      have hltu := Archetype.column_lt hub
      rw [← Archetype.types_column hub hltu,
        ← Archetype.types_column hmem (Archetype.column_lt hmem)]
      simp only [hcol]
    subst hsame
    obtain ⟨srcG', srcA', w₁, hc', hsrcA', hloop, -⟩ := castSlice_spec hs
    obtain rfl : srcG = srcG' := Option.some.inj (hc.symm.trans hc')
    obtain rfl : srcA = srcA' := Option.some.inj (hsrcA.symm.trans hsrcA')
    have hzero := (Moving.start hl hv hsrc hb).masks hctx hg
      (index_lt hsa hfits.short hua).2 hmask hloop
    have := hv.pos
    omega

/-- `cast_slice`. -/
theorem castSlice_keeps (hctx : ctx.Built) {fuel : Nat} {ss : List ChunkSlice}
    (hl : w.store.Listed ctx) (hsorted : w.store.SortedKeys) (hv : w.ValidSlice s)
    (hsrc : w.archetypeOf s.c = some (srcG, srcA)) (hb : w.store.archetype g = some b)
    (hg : srcG ≠ g) (htwins : TwinsAgree ctx srcA b) (hfit : SlowFits K w s srcG srcA g b)
    (hs : w.castSlice ctx fuel s g = some (w', ss)) :
    (∀ c i h a, w.archetypeOf c = some (h, a) → w.store.Occupied c i → ¬ Slots.of s c i →
      Kept K h a w c i w') ∧
    ∀ j < s.count, ∃ d i, Recast K w s srcA j g b w' d i := by
  obtain ⟨hothers, -, -⟩ := castSlice_carries hctx hl hv hsrc hb hg hfit.tail hs
  refine ⟨fun c i h a hc hi hout => (hothers c i h a hc hi hout).mono fun _ hk =>
    ⟨hfit.roomy, hk⟩, ?_⟩
  exact castSlice_recasts hctx hl hsorted hv hsrc hb hg (fun _ => ⟨htwins, hfit.slice⟩) hs

/-! The heap blocks of buffers. -/

theorem Cut.le {st : Store} {n k p : Nat} {t : ChunkSlice} (h : Cut g st n k p t) :
    k ≤ p ∧ p + t.count ≤ k + n := by
  have hcount : ∀ {st st' : Store} {ents : Entities} {n : Nat} {s : ChunkSlice},
      st.allocateSlice ents g n = some (st', s) → s.count ≤ n := by
    intro st st' ents n s hs
    simp only [Store.allocateSlice, Option.bind_eq_bind, Option.bind_eq_some_iff] at hs
    obtain ⟨a, -, hs⟩ := hs
    cases hf : st.firstFree g with
    | some c =>
        simp only [hf, Option.bind_eq_some_iff, Option.some.injEq, Prod.mk.injEq] at hs
        obtain ⟨_, -, _, -, -, rfl⟩ := hs
        exact Nat.min_le_left ..
    | none =>
        simp only [hf, Option.bind_eq_some_iff, Option.some.injEq, Prod.mk.injEq] at hs
        obtain ⟨_, -, _, -, -, rfl⟩ := hs
        exact Nat.min_le_left ..
  induction h with
  | now hn hs =>
      have := hcount hs
      omega
  | later hn hs _ ih =>
      have := hcount hs
      omega

/-- No buffer of the slice that a cast drops points at block `d`. -/
def FreesNo (ctx : Context) (w : World) (s : ChunkSlice) (srcA b : Archetype) (d : Nat) : Prop :=
  ∀ l, .drop l ∈ Memory.bufferSteps ctx srcA b → ∀ j < s.count,
    (Mem.readBuffer (w.memory.data s.c) (srcA.address (w.store.ct s.c) l (s.start + j))).d ≠ d

theorem heap_castSlice (hctx : ctx.Built) {fuel : Nat} {ss : List ChunkSlice}
    (hl : w.store.Listed ctx) (hv : w.ValidSlice s)
    (hsrc : w.archetypeOf s.c = some (srcG, srcA)) (hb : w.store.archetype g = some b)
    (hg : srcG ≠ g) (hroomy : srcA.Roomy)
    (hfit : SliceFits everyColumn w s srcG srcA g b)
    (hs : w.castSlice ctx fuel s g = some (w', ss)) {d : Nat} (hno : FreesNo ctx w s srcA b d) :
    w'.memory.heap d = w.memory.heap d := by
  obtain ⟨-, hheap, -⟩ := castSlice_carries hctx hl hv hsrc hb hg (tailFits_noColumn w s) hs
  have hshape := w.castStart_shape srcG srcA s
  have hlayout := constructArchetype_layout (hl.built srcG srcA (archetypeOf_eq_some.mp hsrc).2).2
  refine hheap hfit.roomy d fun l hl p t hcut j hj => ?_
  obtain ⟨-, hpt⟩ := hcut.le
  obtain ⟨u, hmem⟩ := Memory.src_of_drop_mem hl
  obtain ⟨⟨hlo, hhi⟩, -⟩ := Memory.mem_segmentOf.mp hmem
  have hcell := hfit.pieces p t hcut j hj l (hhi.trans_le hlayout.managed_le) trivial
  have hsize := hroomy l hlo hhi
  have hword : (Mem.readBuffer (w.memory.data s.c)
      (srcA.address (w.store.ct s.c) l ((s.start + p) % 2 ^ 16 + j))).d =
      (Mem.readBuffer (w.memory.data s.c)
        (srcA.address (w.store.ct s.c) l (s.start + p + j))).d := by
    apply Mem.readWord_congr
    intro x hx
    unfold sizeofBuffer at hsize
    exact Mem.read_inj hcell (by omega)
  have hd := hno l hl (p + j) (by omega)
  rw [← Nat.add_assoc, ← hword] at hd
  rw [hshape.ct]
  exact hd

/-- What `cast(chunk_slice, archetype*)` asks for: nothing when the slice is in the
archetype already, and only `twins` when the whole chunk changes over. -/
structure CastFits (K : Watched) (ctx : Context) (w : World) (s : ChunkSlice)
    (srcG : ArchetypeId) (srcA : Archetype) (g : ArchetypeId) (b : Archetype) : Prop where
  twins : TwinsAgree ctx srcA b
  slow : ¬ (w.full s = true ∧ staticCastable ctx srcA.type b.type = true) →
    SlowFits K w s srcG srcA g b

/-- The slots of the other chunks. -/
theorem relink_stays (hctx : ctx.Built) (hl : w.store.Listed ctx) (hl' : w'.store.Listed ctx)
    (hsrc : w.archetypeOf s.c = some (srcG, srcA)) (hb : w.store.archetype g = some b)
    (hg : srcG ≠ g) (hfast : Relinks ctx w s srcG g srcA b w') (ha : w.archetypeOf c = some (h, a))
    (hi : w.store.Occupied c i) (hout : ¬ Slots.of s c i) :
    w'.store.Occupied c i ∧ Carried everyColumn h a w c i w' c i := by
  obtain ⟨st₁, st₂, hrem, hadd, rfl⟩ := hfast.store
  obtain ⟨hc, hsrcA⟩ := archetypeOf_eq_some.mp hsrc
  obtain ⟨htype, hcount, hct⟩ := relink_fields hl.toWf hc hrem hadd
  have hold := (Store.older_removeChunk hrem).trans (Store.older_addChunk hadd)
  refine ⟨((relink hctx.paired hl.toWf hc hsrcA hb hg hfast.castable hrem hadd).2 c i).mpr hi, ?_⟩
  apply Carried.of_listed ha hl' hold
  · rw [htype, Function.update_of_ne]
    rintro rfl
    have hfull := hfast.full
    simp only [full, Bool.and_eq_true, beq_iff_eq] at hfull
    have hlt := hi.2
    exact hout ⟨rfl, by omega, by omega⟩
  · rw [hct]

/-- The slots of the chunk itself. -/
theorem relink_target (hctx : ctx.Built) (hl : w.store.Listed ctx) (hl' : w'.store.Listed ctx)
    (hsrc : w.archetypeOf s.c = some (srcG, srcA)) (hb : w.store.archetype g = some b)
    (hg : srcG ≠ g) (hfast : Relinks ctx w s srcG g srcA b w') :
    w'.archetypeOf s.c = some (g, b) ∧ w'.memory = w.memory ∧ w'.store.ct = w.store.ct ∧
      ∀ d i, w'.store.Occupied d i ↔ w.store.Occupied d i := by
  obtain ⟨st₁, st₂, hrem, hadd, rfl⟩ := hfast.store
  obtain ⟨hc, hsrcA⟩ := archetypeOf_eq_some.mp hsrc
  obtain ⟨htype, -, hct⟩ := relink_fields hl.toWf hc hrem hadd
  have hold := (Store.older_removeChunk hrem).trans (Store.older_addChunk hadd)
  have hself : st₂.type s.c = some g := by rw [htype, Function.update_self]
  obtain ⟨b', hb'⟩ := hl'.alive s.c g hself
  obtain rfl : b' = b := Option.some.inj ((hold g b' hb').symm.trans hb)
  exact ⟨archetypeOf_eq_some.mpr ⟨hself, hb'⟩, rfl, hct,
    (relink hctx.paired hl.toWf hc hsrcA hb hg hfast.castable hrem hadd).2⟩

theorem relink_keeps (hctx : ctx.Built) (hl : w.store.Listed ctx) (hl' : w'.store.Listed ctx)
    (hsorted : w.store.SortedKeys) (hv : w.ValidSlice s)
    (hsrc : w.archetypeOf s.c = some (srcG, srcA)) (hb : w.store.archetype g = some b)
    (hg : srcG ≠ g) (htwins : (∃ k, K srcA k) → TwinsAgree ctx srcA b)
    (hfast : Relinks ctx w s srcG g srcA b w') :
    (∀ c i h a, w.archetypeOf c = some (h, a) → w.store.Occupied c i → ¬ Slots.of s c i →
      Kept K h a w c i w') ∧
    ∀ j < s.count, ∃ d i, Recast K w s srcA j g b w' d i := by
  obtain ⟨-, hsrcA⟩ := archetypeOf_eq_some.mp hsrc
  have hbuiltA := (hl.built srcG srcA hsrcA).2
  have hbuiltB := (hl.built g b hb).2
  constructor
  · intro c i h a ha hi hout
    obtain ⟨hocc, hcar⟩ := relink_stays hctx hl hl' hsrc hb hg hfast ha hi hout
    exact ⟨c, i, hocc, hcar.watch⟩
  · intro j hj
    have hle := hv.le
    obtain ⟨hafter, hmem, hct, hocc⟩ := relink_target hctx hl hl' hsrc hb hg hfast
    refine ⟨s.c, s.start + j, (hocc _ _).mpr ⟨hv.typed, by omega⟩, hafter, by rw [hmem], ?_⟩
    intro t hta htb htag hK
    obtain ⟨-, hsizes, hoffsets⟩ :=
      layout_of_staticCastable hctx.paired hbuiltA hbuiltB hfast.castable
    rw [column_of_staticCastable hctx.paired hbuiltA hbuiltB hfast.castable (hsorted _ _ hsrcA)
      (hsorted _ _ hb) (htwins ⟨_, hK⟩) hta htb htag, hct, hmem]
    simp only [Memory.cell, Archetype.address, Archetype.size, hsizes, hoffsets]

theorem heap_castTo (hctx : ctx.Built) {fuel : Nat} {ss : List ChunkSlice}
    (hl : w.store.Listed ctx) (hv : w.ValidSlice s)
    (hsrc : w.archetypeOf s.c = some (srcG, srcA)) (hb : w.store.archetype g = some b)
    (hfit : srcG ≠ g → srcA.Roomy ∧ CastFits everyColumn ctx w s srcG srcA g b)
    (hs : w.castTo ctx fuel s (some g) = some (w', ss)) {d : Nat}
    (hno : FreesNo ctx w s srcA b d) : w'.memory.heap d = w.memory.heap d := by
  obtain ⟨srcG', srcA', b', hc, hsrcA, hb', hcase⟩ := castTo_cases hs
  obtain ⟨hc', hsrcA'⟩ := archetypeOf_eq_some.mp hsrc
  obtain rfl : srcG = srcG' := Option.some.inj (hc'.symm.trans hc)
  obtain rfl : srcA = srcA' := Option.some.inj (hsrcA'.symm.trans hsrcA)
  obtain rfl : b = b' := Option.some.inj (hb.symm.trans hb')
  rcases hcase with ⟨rfl, rfl⟩ | ⟨hg, hfast⟩ | ⟨hg, hslow, hcast⟩
  · rfl
  · obtain ⟨st₁, st₂, -, -, rfl⟩ := hfast.store
    rfl
  · exact heap_castSlice hctx hl hv hsrc hb hg (hfit hg).1 ((hfit hg).2.slow hslow).slice hcast hno

/-- `cast(chunk_slice, archetype*)` to an archetype. -/
theorem castTo_keeps (hctx : ctx.Built) {fuel : Nat} {ss : List ChunkSlice}
    (hl : w.store.Listed ctx) (hl' : w'.store.Listed ctx) (hsorted : w.store.SortedKeys)
    (hv : w.ValidSlice s) (hsrc : w.archetypeOf s.c = some (srcG, srcA))
    (hb : w.store.archetype g = some b)
    (hfit : srcG ≠ g → CastFits K ctx w s srcG srcA g b)
    (hs : w.castTo ctx fuel s (some g) = some (w', ss)) :
    (∀ c i h a, w.archetypeOf c = some (h, a) → w.store.Occupied c i → ¬ Slots.of s c i →
      Kept K h a w c i w') ∧
    ∀ j < s.count, ∃ d i, Recast K w s srcA j g b w' d i := by
  obtain ⟨srcG', srcA', b', hc, hsrcA, hb', hcase⟩ := castTo_cases hs
  obtain ⟨hc', hsrcA'⟩ := archetypeOf_eq_some.mp hsrc
  obtain rfl : srcG = srcG' := Option.some.inj (hc'.symm.trans hc)
  obtain rfl : srcA = srcA' := Option.some.inj (hsrcA'.symm.trans hsrcA)
  obtain rfl : b = b' := Option.some.inj (hb.symm.trans hb')
  rcases hcase with ⟨rfl, rfl⟩ | ⟨hg, hfast⟩ | ⟨hg, hslow, hcast⟩
  · obtain rfl : srcA = b := Option.some.inj (hsrcA.symm.trans hb)
    refine ⟨fun c i h a ha hi _ => ⟨c, i, hi, .refl ha⟩, fun j hj => ?_⟩
    have hle := hv.le
    exact ⟨s.c, s.start + j, ⟨hv.typed, by omega⟩, hsrc, rfl, fun _ _ _ _ _ => rfl⟩
  · exact relink_keeps hctx hl hl' hsorted hv hsrc hb hg (fun _ => (hfit hg).twins) hfast
  · exact castSlice_keeps hctx hl hsorted hv hsrc hb hg (hfit hg).twins ((hfit hg).slow hslow) hcast

/-! ## Runs -/

/-- `e` is alive in slot `i` of chunk `c`; the table finds it there as long as ids fit
their 24 bits. -/
structure Found (w : World) (e : Entity) (c : ChunkId) (i : Nat) : Prop where
  occupied : w.store.Occupied c i
  handle : w.memory.entityAt c i = e
  entry : w.ents.size < 2 ^ 24 → w.At e c i

theorem Sound.found (h : Sound ctx nowhere w) (hi : w.store.Occupied c i) :
    w.Found (w.memory.entityAt c i) c i where
  occupied := hi
  handle := rfl
  entry hsize := by
    obtain ⟨hid, hentry⟩ := (h.tracks hsize).entry c i ⟨hi, not_false⟩
    refine ⟨?_, by rw [hentry], by rw [hentry]⟩
    simp [Entities.exist, hid, hentry]

/-- After `destroy` or `cast` of slice `s`, all other entities have their components, and
those of a slice that was cast have the ones both archetypes own. -/
structure Undisturbed (ctx : Context) (w : World) (op : Op) (s : ChunkSlice) (w' : World) :
    Prop where
  outside : ∀ e c i g a, w.Found e c i → ¬ Slots.of s c i → w.archetypeOf c = some (g, a) →
    ∃ d j, w'.Found e d j ∧ Carried everyColumn g a w c i w' d j
  blocks : ∀ g a d, w.archetypeOf s.c = some (g, a) →
    (∀ l, a.firstBuffer ≤ l → l < a.firstManaged → ∀ j < s.count,
      (Mem.readBuffer (w.memory.data s.c)
        (a.address (w.store.ct s.c) l (s.start + j))).d ≠ d) →
    w'.memory.heap d = w.memory.heap d
  inside : ∀ diff srcG srcA, op = .cast s diff → w.archetypeOf s.c = some (srcG, srcA) →
    srcA.cleaning = false → ∃ g b, b.type = castedType ctx srcA diff false ∧
      (∀ e j, j < s.count → w.Found e s.c (s.start + j) →
        ∃ d i, w'.Found e d i ∧ Recast everyColumn w s srcA j g b w' d i) ∧
      ∀ d, FreesNo ctx w s srcA b d → w'.memory.heap d = w.memory.heap d

end World

/-- Calls on entities without groups that write no component over a handle and keep the
lists of chunks in order, with types that are sets. -/
structure Op.Orderly (ctx : Context) (w : World) (op : Op) : Prop where
  noGroup : op.NoGroup ctx w
  clear : op.ClearOfHandles ctx w
  lists : op.KeepsLists ctx w
  keys : op.SortedKeys

/-- What the indices of a call must fit: see `TailFits` for a slice that is released,
`SlowFits` and `CastFits` for one that is cast. -/
def Op.DataFits (ctx : Context) (w : World) : Op → Prop
  | .destroy s => ∀ g a, w.archetypeOf s.c = some (g, a) → a.cleaning = false →
      if World.leavesDead ctx a then ∀ w₁ g' b,
        w.getArchetype ctx (World.cleaningKey ctx a) = some (w₁, g') →
          w₁.store.archetype g' = some b →
            a.Roomy ∧ World.SlowFits World.everyColumn w₁ s g a g' b
      else World.TailFits World.everyColumn w s
  | .cast s diff => ∀ g a w₁ target, w.archetypeOf s.c = some (g, a) →
      w.getCasted ctx a diff false = some (w₁, target) →
        (target = none → World.TailFits World.everyColumn w s) ∧
        ∀ g' b, target = some g' → g ≠ g' → w₁.store.archetype g' = some b →
          a.Roomy ∧ World.CastFits World.everyColumn ctx w₁ s g a g' b
  | _ => True

namespace World

variable {ctx : Context} {w w' : World}

/-- What is known of every world an orderly run reaches. -/
structure Orderly (ctx : Context) (w : World) : Prop where
  sound : Sound ctx nowhere w
  listed : w.store.Listed ctx
  sorted : w.store.SortedKeys

theorem Orderly.step (hctx : ctx.Built) (hreg : ctx.tracks.length < 2 ^ 30) {op : Op} {fuel : Nat}
    (h : Orderly ctx w) (hv : op.Valid w) (hp : op.Orderly ctx w)
    (hs : op.run ctx fuel w = some w') : Orderly ctx w' where
  sound := h.sound.step hctx hv hp.noGroup hp.clear hs
  listed := listed_step hctx h.listed hv hp.lists hs
  sorted := sorted_run hctx hreg h.sorted hp.keys hs

theorem orderly_destroy {s : ChunkSlice} {g : ArchetypeId} (htype : w.store.type s.c = some g)
    (hgroup : (w.store.archetype g).map (fun a => a.index ctx.groupId) = some invalidIndex) :
    (Op.destroy s).Orderly ctx w := by
  have hno := noGroup_destroy htype hgroup
  exact ⟨hno, trivial, fun g a harch => Or.inl (hno g a harch), trivial⟩

theorem orderly_initial (ctx : Context) (timestamp : Nat) (raw : Nat → Nat) (data : ChunkId → Mem)
    (guids : Nat → List UInt8) : Orderly ctx (World.initial timestamp raw data guids) where
  sound := sound_initial ctx timestamp raw data guids
  listed := Store.listed_initial ctx timestamp raw data guids
  sorted := sorted_initial timestamp raw data guids

theorem orderly_of_reachable (hctx : ctx.Built) (hreg : ctx.tracks.length < 2 ^ 30)
    (h : Reachable ctx (fun w op => op.Orderly ctx w) w) : Orderly ctx w :=
  h.invariant (orderly_initial ctx) fun _ _ _ _ hv hp hs hw => hw.step hctx hreg hv hp hs

theorem Carried.found (h' : Orderly ctx w') {e : Entity} {c d : ChunkId} {i j : Nat}
    {g : ArchetypeId} {a : Archetype} {K : Watched} (hf : w.Found e c i)
    (hocc : w'.store.Occupied d j) (hcar : Carried K g a w c i w' d j) : w'.Found e d j := by
  have hfound := h'.sound.found hocc
  rwa [hcar.handle, hf.handle] at hfound

/-- A buffer of the slice that is dropped is a buffer of the slice. -/
theorem freesNo_of_buffers {s : ChunkSlice} {a b : Archetype} {d : Nat}
    (hno : ∀ l, a.firstBuffer ≤ l → l < a.firstManaged → ∀ j < s.count,
      (Mem.readBuffer (w.memory.data s.c) (a.address (w.store.ct s.c) l (s.start + j))).d ≠ d) :
    FreesNo ctx w s a b d := by
  intro l hl j hj
  obtain ⟨u, hmem⟩ := Memory.src_of_drop_mem hl
  obtain ⟨⟨hlo, hhi⟩, -⟩ := Memory.mem_segmentOf.mp hmem
  exact hno l hlo hhi j hj

section SameSlots

variable {v v' : World} {s : ChunkSlice} {e : Entity} {c d : ChunkId} {i j : Nat}
  {g srcG : ArchetypeId} {b srcA : Archetype} {K : Watched}

theorem Found.sameSlots (hs : SameSlots w v) (h : w.Found e c i) : v.Found e c i where
  occupied := by
    rw [hs.store]
    exact h.occupied
  handle := (hs.handle c i h.occupied).trans h.handle
  entry hsize := by
    rw [hs.ents] at hsize
    have hat := h.entry hsize
    rwa [At, ← hs.ents] at hat

theorem Recast.sameSlots (hs : SameSlots w v) (hs' : SameSlots w' v') (hl : w.store.Listed ctx)
    (hl' : w'.store.Listed ctx) (hk : w.store.SortedKeys) (hk' : w'.store.SortedKeys)
    (hsrc : w.archetypeOf s.c = some (srcG, srcA)) (hi : w.store.Occupied s.c (s.start + j))
    (h : Recast K w s srcA j g b w' d i) : Recast K v s srcA j g b v' d i where
  occupied := by
    rw [hs'.store]
    exact h.occupied
  after := (hs'.archetypeOf d).trans h.after
  handle := by rw [hs.handle _ _ hi, hs'.handle _ _ h.occupied, h.handle]
  cells t hta htb htag hK := by
    have hsrcA := (archetypeOf_eq_some.mp hsrc).2
    have hb := (archetypeOf_eq_some.mp h.after).2
    rw [hs.store, hs'.store,
      hs.cells _ _ _ _ hsrc hi _ (column_lt_firstTag (hl.built _ _ hsrcA).2 (hk _ _ hsrcA) hta htag),
      hs'.cells _ _ _ _ h.after h.occupied _
        (column_lt_firstTag (hl'.built _ _ hb).2 (hk' _ _ hb) htb htag),
      h.cells t hta htb htag hK]

/-- The buffers of a slice. -/
theorem SameSlots.buffer (hs : SameSlots w v) (hl : w.store.Listed ctx) (hlaid : w.store.Laid)
    (hv : w.ValidSlice s) (hsrc : w.archetypeOf s.c = some (srcG, srcA)) {l : Nat}
    (hlo : srcA.firstBuffer ≤ l) (hhi : l < srcA.firstManaged) (hj : j < s.count) :
    Mem.readBuffer (v.memory.data s.c) (srcA.address (w.store.ct s.c) l (s.start + j)) =
      Mem.readBuffer (w.memory.data s.c) (srcA.address (w.store.ct s.c) l (s.start + j)) := by
  have hsrcA := (archetypeOf_eq_some.mp hsrc).2
  have hle := hv.le
  have hlayout := constructArchetype_layout (hl.built _ _ hsrcA).2
  exact hs.readBuffer hsrc ⟨hv.typed, by omega⟩ (hhi.trans_le hlayout.managed_le)
    ((hlaid.of_wf hl.toWf hsrcA).roomy l hlo hhi)

theorem FreesNo.sameSlots (hs : SameSlots w v) (hl : w.store.Listed ctx) (hlaid : w.store.Laid)
    (hv : w.ValidSlice s) (hsrc : w.archetypeOf s.c = some (srcG, srcA)) {d : Nat}
    (h : FreesNo ctx v s srcA b d) : FreesNo ctx w s srcA b d := by
  intro l hdrop j hj
  obtain ⟨u, hmem⟩ := Memory.src_of_drop_mem hdrop
  obtain ⟨⟨hlo, hhi⟩, -⟩ := Memory.mem_segmentOf.mp hmem
  rw [← hs.buffer hl hlaid hv hsrc hlo hhi hj, ← hs.store]
  exact h l hdrop j hj

/-- Undisturbed entities are undisturbed in all worlds with the same entities. -/
theorem Undisturbed.sameSlots {op : Op} (hs : SameSlots w v) (hs' : SameSlots w' v')
    (hl : w.store.Listed ctx) (hl' : w'.store.Listed ctx) (hk : w.store.SortedKeys)
    (hk' : w'.store.SortedKeys) (hlaid : w.store.Laid) (hv : w.ValidSlice s)
    (h : Undisturbed ctx w op s w') : Undisturbed ctx v op s v' where
  outside e c i g a hf hout ha := by
    rw [hs.archetypeOf] at ha
    have hf' := hf.sameSlots hs.symm
    obtain ⟨d, j, hfound, hcar⟩ := h.outside e c i g a hf' hout ha
    exact ⟨d, j, hfound.sameSlots hs', hcar.sameSlots hs hs' hf'.occupied hfound.occupied⟩
  blocks g a d ha hno := by
    rw [hs.archetypeOf] at ha
    rw [hs.heap, hs'.heap]
    refine h.blocks g a d ha fun l hlo hhi j hj => ?_
    rw [← hs.buffer hl hlaid hv ha hlo hhi hj, ← hs.store]
    exact hno l hlo hhi j hj
  inside diff srcG srcA hop hsrc hclean := by
    rw [hs.archetypeOf] at hsrc
    obtain ⟨g, b, hkey, hslice, hheap⟩ := h.inside diff srcG srcA hop hsrc hclean
    refine ⟨g, b, hkey, fun e j hj hf => ?_, fun d hno => ?_⟩
    · have hf' := hf.sameSlots hs.symm
      obtain ⟨d, i, hfound, hre⟩ := hslice e j hj hf'
      exact ⟨d, i, hfound.sameSlots hs', hre.sameSlots hs hs' hl hl' hk hk' hsrc hf'.occupied⟩
    · rw [hs.heap, hs'.heap]
      exact hheap d (hno.sameSlots hs hl hlaid hv hsrc)

end SameSlots

theorem undisturbed_release {s : ChunkSlice} (h : Orderly ctx w) (h' : Orderly ctx w')
    (hv : w.ValidSlice s) (hfit : TailFits everyColumn w s) (hs : w.release s = some w') :
    (∀ e c i g a, w.Found e c i → ¬ Slots.of s c i → w.archetypeOf c = some (g, a) →
      ∃ d j, w'.Found e d j ∧ Carried everyColumn g a w c i w' d j) ∧
    w'.memory.heap = w.memory.heap := by
  refine ⟨fun e c i g a hf hout ha => ?_, heap_release hs⟩
  obtain ⟨d, j, hocc, hcar⟩ := kept_release h.listed hv hfit hs ha hf.occupied hout
  exact ⟨d, j, hcar.found h' hf hocc, hcar⟩

/-- The group loops of `destroy` find no members. -/
def Memberless (ctx : Context) (w : World) (s : ChunkSlice) : Prop :=
  ∀ g a, w.archetypeOf s.c = some (g, a) → a.index ctx.groupId = invalidIndex ∨
    w.NoMembers a s.c (a.index ctx.groupId) s.count

theorem memberless_of_noGroup {s : ChunkSlice} (h : Op.NoGroup ctx w (.destroy s)) :
    w.Memberless ctx s :=
  fun g a harch => Or.inl (h g a harch)

theorem destroy_memberless {s : ChunkSlice} {fuel : Nat} (hgroup : w.Memberless ctx s)
    (hs : w.destroy ctx (fuel + 1) s = some w') : w.destroySingle ctx fuel s = some w' := by
  obtain ⟨g, a, w₁, hc, ha, hgroups, hsingle⟩ := destroy_cases hs
  rcases hgroups with ⟨-, rfl⟩ | ⟨hid, hloops⟩
  · exact hsingle
  · have hno := (hgroup g a (archetypeOf_eq_some.mpr ⟨hc, ha⟩)).resolve_left hid
    rwa [destroyGroups_eq ha hno hloops] at hsingle

/-- Where a `destroy` of entities whose groups have no members goes. -/
theorem destroy_moves (hctx : ctx.Built) {s : ChunkSlice} {fuel : Nat} (hw : Orderly ctx w)
    (hgroup : w.Memberless ctx s) (hs : w.destroy ctx fuel s = some w') :
    ∃ g a, w.archetypeOf s.c = some (g, a) ∧
      ((a.cleaning = true ∧ w' = w) ∨
       (a.cleaning = false ∧ leavesDead ctx a = false ∧ w.release s = some w') ∨
       (a.cleaning = false ∧ leavesDead ctx a = true ∧ ∃ st g' b ss,
          w.getArchetype ctx (cleaningKey ctx a) = some ({ w with store := st }, g') ∧
          Store.Extended w.store st ∧ st.Listed ctx ∧ st.SortedKeys ∧ st.archetype g' = some b ∧
          b.type = cleaningKey ctx a ∧ g ≠ g' ∧
          World.castSlice ctx (fuel - 1) { w with store := st } s g' = some (w', ss))) := by
  cases fuel with
  | zero => simp [World.destroy] at hs
  | succ fuel =>
      obtain ⟨g, a, hc, ha, hcase⟩ := destroySingle_cases (destroy_memberless hgroup hs)
      refine ⟨g, a, archetypeOf_eq_some.mpr ⟨hc, ha⟩, ?_⟩
      rcases hcase with ⟨hclean, rfl⟩ | ⟨hclean, hdead, hrel⟩ | ⟨hclean, hdead, w₂, g', ss, hget,
        hcast⟩
      · exact Or.inl ⟨hclean, rfl⟩
      · exact Or.inr (Or.inl ⟨hclean, hdead, hrel⟩)
      · obtain ⟨-, hext, -, -, b, hb, hkey⟩ := hw.sound.getArchetype hget
        obtain ⟨st, hst, rfl⟩ := getArchetype_eq_some hget
        have hl := (hw.listed.getArchetype hst).1
        have hsorted := hw.sorted.getArchetype ((hw.sorted g a ha).cleaning hctx) hst
        refine Or.inr (Or.inr ⟨hclean, hdead, st, g', b, ss, hget, hext, hl, hsorted, hb, hkey, ?_,
          hcast⟩)
        rintro rfl
        obtain rfl : b = a := Option.some.inj (hb.symm.trans (hext.archetype _ a ha))
        have hbuilt := (hl.built g b hb).2
        rw [hkey] at hbuilt
        simp [cleaning_of_key hctx hbuilt] at hclean

theorem undisturbed_destroy (hctx : ctx.Built) {s : ChunkSlice} {fuel : Nat} (h : Orderly ctx w)
    (h' : Orderly ctx w') (hv : w.ValidSlice s) (hgroup : w.Memberless ctx s)
    (hfit : Op.DataFits ctx w (.destroy s)) (hs : w.destroy ctx fuel s = some w') :
    Undisturbed ctx w (.destroy s) s w' := by
  obtain ⟨g, a, harch, hcase⟩ := destroy_moves hctx h hgroup hs
  suffices hall : (∀ e c i g a, w.Found e c i → ¬ Slots.of s c i →
      w.archetypeOf c = some (g, a) →
        ∃ d j, w'.Found e d j ∧ Carried everyColumn g a w c i w' d j) ∧
      ∀ d, (∀ l, a.firstBuffer ≤ l → l < a.firstManaged → ∀ j < s.count,
        (Mem.readBuffer (w.memory.data s.c)
          (a.address (w.store.ct s.c) l (s.start + j))).d ≠ d) →
        w'.memory.heap d = w.memory.heap d by
    refine ⟨hall.1, fun g' a' d ha' hno => ?_, fun _ _ _ hop => by simp at hop⟩
    obtain ⟨rfl, rfl⟩ := Prod.mk.inj (Option.some.inj (harch.symm.trans ha'))
    exact hall.2 d hno
  rcases hcase with ⟨-, rfl⟩ | ⟨hclean, hdead, hrel⟩ | ⟨hclean, hdead, st, g', b, ss, hget, hext, hl,
    -, hb, -, hg, hcast⟩
  · exact ⟨fun e c i h b hf _ hb => ⟨c, i, hf, .refl hb⟩, fun _ _ => rfl⟩
  · have hfit' := hfit g a harch hclean
    rw [hdead, if_neg Bool.false_ne_true] at hfit'
    obtain ⟨hout, hheap⟩ := undisturbed_release h h' hv hfit' hrel
    exact ⟨hout, fun d _ => congrFun hheap d⟩
  · have hfit' := hfit g a harch hclean
    rw [hdead, if_pos rfl] at hfit'
    obtain ⟨hroomy, hslow⟩ := hfit' _ g' b hget hb
    have hsrc := (Carried.of_extended (i := 0) harch hext).after
    obtain ⟨hothers, -, -⟩ := castSlice_carries hctx hl (hv.extend hext) hsrc hb hg
      hslow.tail hcast
    constructor
    · intro e c i h₁ b₁ hf hout hb₁
      have hcar := Carried.of_extended (i := i) hb₁ hext
      obtain ⟨d, j, hocc, hcar'⟩ := hothers c i h₁ b₁ hcar.after
        ((occupied_congr hext.type hext.count c i).mpr hf.occupied) hout
      have hall := hcar.trans (hcar'.mono fun _ _ => ⟨hslow.roomy, trivial⟩)
      exact ⟨d, j, hall.found h' hf hocc, hall⟩
    · intro d hno
      refine heap_castSlice hctx hl (hv.extend hext) hsrc hb hg hroomy hslow.slice hcast ?_
      apply freesNo_of_buffers
      rw [hext.ct]
      exact hno

theorem undisturbed_cast (hctx : ctx.Built) {s : ChunkSlice} {diff : TypeDiff} {fuel : Nat}
    {ss : List ChunkSlice} (h : Orderly ctx w) (h' : Orderly ctx w') (hv : w.ValidSlice s)
    (hreg : ctx.tracks.length < 2 ^ 30) (hkeys : Op.SortedKeys (.cast s diff))
    (hfit : Op.DataFits ctx w (.cast s diff)) (hs : w.cast ctx fuel s diff = some (w', ss)) :
    Undisturbed ctx w (.cast s diff) s w' := by
  simp only [World.cast, Option.bind_eq_bind, Option.bind_eq_some_iff] at hs
  obtain ⟨⟨g, a⟩, harch, ⟨w₁, target⟩, hcasted, hs⟩ := hs
  obtain ⟨hnone, hsome⟩ := hfit g a w₁ target harch hcasted
  have hsorted₁ := sorted_getCasted hreg h.sorted
    (h.sorted g a (archetypeOf_eq_some.mp harch).2) hkeys hcasted
  rcases getCasted_cases hcasted with ⟨rfl, rfl, hfrees⟩ | ⟨g', rfl, hget, -⟩
  · obtain ⟨hout, hheap⟩ := undisturbed_release h h' hv (hnone rfl) (castTo_none hs)
    refine ⟨hout, fun _ _ d _ _ => congrFun hheap d, ?_⟩
    intro diff' srcG srcA hop hsrc hclean
    obtain ⟨rfl, rfl⟩ := Prod.mk.inj (Option.some.inj (harch.symm.trans hsrc))
    have hclean' := hfrees rfl
    simp [castFrees, hclean] at hclean'
  · obtain ⟨-, hext, -, -, b, hb, hkey⟩ := h.sound.getArchetype hget
    obtain ⟨st, hst, rfl⟩ := getArchetype_eq_some hget
    have hl := (h.listed.getArchetype hst).1
    have hsrc := (Carried.of_extended (i := 0) harch hext).after
    have hfits := fun hg => hsome g' b rfl hg hb
    obtain ⟨hothers, hslice⟩ := castTo_keeps hctx hl h'.listed hsorted₁ (hv.extend hext) hsrc hb
      (fun hg => (hfits hg).2) hs
    have hheap := fun {d} => heap_castTo (d := d) hctx hl (hv.extend hext) hsrc hb hfits hs
    refine ⟨?_, ?_, ?_⟩
    · intro e c i h₁ b₁ hf hout hb₁
      have hcar := Carried.of_extended (i := i) hb₁ hext
      obtain ⟨d, j, hocc, hcar'⟩ := hothers c i h₁ b₁ hcar.after
        ((occupied_congr hext.type hext.count c i).mpr hf.occupied) hout
      have hall := hcar.trans hcar'
      exact ⟨d, j, hall.found h' hf hocc, hall⟩
    · intro g₁ a₁ d ha₁ hno
      obtain ⟨rfl, rfl⟩ := Prod.mk.inj (Option.some.inj (harch.symm.trans ha₁))
      apply hheap
      apply freesNo_of_buffers
      rw [hext.ct]
      exact hno
    · rintro diff' srcG srcA hop hsrc' -
      obtain ⟨-, rfl⟩ := Op.cast.inj hop
      obtain ⟨rfl, rfl⟩ := Prod.mk.inj (Option.some.inj (harch.symm.trans hsrc'))
      refine ⟨g', b, hkey, ?_, ?_⟩
      · intro e j hj hf
        obtain ⟨d, i, hre⟩ := hslice j hj
        have hfound := h'.sound.found hre.occupied
        rw [hre.handle] at hfound
        refine ⟨d, i, hf.handle ▸ hfound, hre.occupied, hre.after, hre.handle, ?_⟩
        intro t hta htb htag hK
        rw [hre.cells t hta htb htag hK, hext.ct]
      · intro d hno
        apply hheap
        intro l hl' j hj
        rw [hext.ct]
        exact hno l hl' j hj

/-- Orderly worlds whose blocks have their parts apart are known by their blocks. -/
theorem Orderly.whole (h : Orderly ctx w) (hlaid : w.store.Laid) : SameSlots w w.whole :=
  sameSlots_whole h.listed.toWf hlaid

/-- In the worlds that orderly calls reach the parts of all blocks are apart, if the calls lay out
what they build. -/
theorem laid_of_reachable (hctx : ctx.Built) (hreg : ctx.tracks.length < 2 ^ 30)
    (h : Reachable ctx (fun w op => op.Orderly ctx w ∧ op.LaysOut ctx w) w) :
    Orderly ctx w ∧ w.store.Laid := by
  refine h.invariant (I := fun w => Orderly ctx w ∧ w.store.Laid)
    (fun timestamp raw data guids => ⟨orderly_initial ctx timestamp raw data guids,
      laid_initial timestamp raw data guids⟩) ?_
  rintro w op fuel w' hv ⟨hp, hlays⟩ hs ⟨hw, hlaid⟩
  exact ⟨hw.step hctx hreg hv hp hs, (builds_run hp.noGroup hs).laid hw.sound.wf hlaid hlays⟩

/-- From every world that orderly calls reach, `destroy` and `cast` of a slice whose data
fit its indices disturb no other component, where the calls lay out what they build. -/
theorem undisturbed_of_reachable (hctx : ctx.Built) (hreg : ctx.tracks.length < 2 ^ 30)
    (h : Reachable ctx (fun w op => op.Orderly ctx w ∧ op.LaysOut ctx w) w) {op : Op}
    {s : ChunkSlice} {fuel : Nat} (hop : op = .destroy s ∨ ∃ diff, op = .cast s diff)
    (hv : w.ValidSlice s) (hp : op.Orderly ctx w) (hlays : op.LaysOut ctx w)
    (hfit : op.DataFits ctx w) (hs : op.run ctx fuel w = some w') :
    Undisturbed ctx w.whole op s w'.whole := by
  obtain ⟨hw, hlaid⟩ := laid_of_reachable hctx hreg h
  have hlaid' := (builds_run hp.noGroup hs).laid hw.sound.wf hlaid hlays
  have hvalid : op.Valid w := by
    rcases hop with rfl | ⟨diff, rfl⟩
    · exact hv
    · exact hv
  have hw' := hw.step hctx hreg hvalid hp hs
  refine Undisturbed.sameSlots (hw.whole hlaid) (hw'.whole hlaid') hw.listed hw'.listed hw.sorted
    hw'.sorted hlaid hv ?_
  rcases hop with rfl | ⟨diff, rfl⟩
  · exact undisturbed_destroy hctx hw hw' hv (memberless_of_noGroup hp.noGroup) hfit hs
  · rw [Op.run] at hs
    obtain ⟨⟨_, ss⟩, hrun, rfl⟩ := Option.map_eq_some_iff.mp hs
    exact undisturbed_cast hctx hw hw' hv hreg hp.keys hfit hrun

/-! A destroyed pair in the middle of a chunk of five, and a first slot that is filled from
behind slot 2^16. -/

theorem keys_narrowWide : SortedTypes [4, 5] := ⟨by decide, by decide⟩

theorem laysOut_narrowWide (w : World) (n : Nat) :
    Op.LaysOut narrowWide w (.allocate { types := [4, 5] } n) :=
  Op.laysOut_allocate _ (by decide +kernel)

theorem orderly_smallThenFast (hw : smallThenFast = some w) :
    Reachable narrowWide (fun w op => op.Orderly narrowWide w ∧ op.LaysOut narrowWide w) w := by
  refine (reachable_blank narrowWide _).runAll ?_ hw
  intro op hop v
  rcases List.mem_pair.mp hop with rfl | rfl
  · exact ⟨trivial, ⟨trivial, trivial, trivial, keys_narrowWide⟩, laysOut_narrowWide v _⟩
  · exact ⟨trivial, ⟨trivial, trivial, trivial, keys_narrowWide⟩, laysOut_narrowWide v _⟩

theorem undisturbed_pair : ∃ w w', smallThenFast = some w ∧
    Op.run narrowWide 2 w (.destroy { c := 1, start := 1, count := 2 }) = some w' ∧
    Undisturbed narrowWide w.whole (.destroy { c := 1, start := 1, count := 2 })
      { c := 1, start := 1, count := 2 } w'.whole := by
  have hsome : (smallThenFast.bind fun w =>
      (Op.run narrowWide 2 w (.destroy { c := 1, start := 1, count := 2 })).bind fun w' =>
        (w.archetypeOf 1).map fun p => (w.store.type 1, w.store.count 1,
          p.2.index narrowWide.groupId, leavesDead narrowWide p.2)) =
      some (some 0, 5, invalidIndex, false) := by decide +kernel
  obtain ⟨w, hw, hsome⟩ := Option.bind_eq_some_iff.mp hsome
  obtain ⟨w', hw', hsome⟩ := Option.bind_eq_some_iff.mp hsome
  obtain ⟨⟨g, a⟩, harch, hfacts⟩ := Option.map_eq_some_iff.mp hsome
  simp only [Prod.mk.injEq] at hfacts
  obtain ⟨htype, hcount, hindex, hdead⟩ := hfacts
  have hsame : ∀ g' a', w.archetypeOf 1 = some (g', a') → a' = a := fun g' a' ha' =>
    (Prod.mk.inj (Option.some.inj (ha'.symm.trans harch))).2
  refine ⟨w, w', hw, hw', undisturbed_of_reachable built_narrowWide (by decide)
    (orderly_smallThenFast hw) (Or.inl rfl) ?_ ?_ ?_ ?_ hw'⟩
  · exact ⟨by simp [htype], by simp, by simp [hcount]⟩
  · refine ⟨fun g' a' ha' => hsame g' a' ha' ▸ hindex, trivial, ?_, trivial⟩
    intro g' a' ha'
    exact Or.inl (hsame g' a' ha' ▸ hindex)
  · exact Op.laysOut_destroy harch fun hleaves => by simp [hdead] at hleaves
  · intro g' a' ha' _
    rw [hsame g' a' ha', hdead, if_neg Bool.false_ne_true]
    intro g₁ a₁ _ j _ k _ _
    simp only [tailStart, tailCount, hcount]
    rfl

/-- A registry of a one-byte component. -/
def oneByte : Context :=
  ((Context.initial false).registerType { guid := 10, size := 1, alignment := 1 }).1

theorem built_oneByte : oneByte.Built := .register (.initial false) _

/-- New ids for any number of slots. -/
theorem newEntities_of_fresh {ents : Entities} (hfree : ents.free = 0) (c : ChunkId)
    (n slot : Nat) (m : Mem) : ∃ ents' m', Entities.newEntities c n slot ents m = some (ents', m') ∧
      ents'.size = ents.size + n := by
  induction n generalizing ents slot m with
  | zero => exact ⟨ents, m, rfl, rfl⟩
  | succ n ih =>
      simp only [Entities.newEntities, takeId, if_pos hfree, Option.bind_eq_bind, Option.bind_some]
      generalize hgrown : Entities.place _ _ c slot = grown
      have hnext : grown.free = 0 ∧ grown.size = ents.size + 1 := by
        rw [← hgrown]
        exact ⟨hfree, rfl⟩
      obtain ⟨ents', m', hrun, hsize⟩ := ih hnext.1 (slot + 1) _
      exact ⟨ents', m', hrun, by omega⟩

/-- A call that is handed all its slots at once. -/
theorem allocate_at_once (fuel : Nat) {n : Nat} {type : EntityType} {g : ArchetypeId} {a : Archetype}
    {st₀ st : Store} {s : ChunkSlice} {ents : Entities} {m : Mem} {mm : Memory}
    (hget : Store.getArchetype ctx w.store w.ents type = some (st₀, g))
    (halloc : st₀.allocateSlice w.ents g n = some (st, s)) (hn : 0 < n) (hall : s.count = n)
    (hc : st.type s.c = some g) (ha : st.archetype g = some a)
    (hmm : w.memory.construct ctx a (st.ct s.c) s = mm)
    (hnew : Entities.newEntities s.c s.count s.start w.ents (mm.data s.c) = some (ents, m)) :
    w.allocate ctx (fuel + 2) type n =
      some ({ store := st, ents := ents, memory := mm.setData s.c m }, [s]) := by
  have harch : archetypeOf { store := st, ents := w.ents, memory := w.memory } s.c = some (g, a) :=
    archetypeOf_eq_some.mpr ⟨hc, ha⟩
  simp only [World.allocate, World.getArchetype, hget, Option.bind_eq_bind, Option.bind_some]
  rw [allocateLoop, if_pos hn]
  simp only [World.allocateSlice, halloc, Option.bind_eq_bind, Option.bind_some, harch, hmm,
    World.newEntities, hnew]
  rw [allocateLoop, if_neg (by omega)]
  rfl

/-- One chunk of a large bin. -/
def largeBin : Option World := runAll oneByte 2 blank [.allocate { types := [4] } 110000]

/-- Its slice is handed out at once. -/
def largeSlice : Option (Store × ChunkSlice) :=
  (Store.getArchetype oneByte blank.store blank.ents { types := [4] }).bind fun p =>
    p.1.allocateSlice blank.ents p.2 110000

theorem largeBin_eq : ∃ w a, largeBin = some w ∧ w.ents.size = 110000 ∧
    largeSlice = some (w.store, { c := 0, start := 0, count := 110000 }) ∧
    w.archetypeOf 0 = some (0, a) := by
  have hkey : (Store.getArchetype oneByte blank.store blank.ents { types := [4] }).map Prod.snd =
      some 0 := by decide +kernel
  have hslice : largeSlice.map (fun q => (q.2, q.1.type 0, (q.1.archetype 0).isSome)) =
      some ({ c := 0, start := 0, count := 110000 }, some 0, true) := by decide +kernel
  obtain ⟨⟨st₀, g⟩, hget, rfl⟩ := Option.map_eq_some_iff.mp hkey
  obtain ⟨⟨st, s⟩, halloc, hfacts⟩ := Option.map_eq_some_iff.mp hslice
  simp only [Prod.mk.injEq, Option.isSome_iff_exists] at hfacts
  obtain ⟨hs, htype, a, ha⟩ := hfacts
  have hcount : s.count = 110000 := by rw [hs]
  have hchunk : s.c = 0 := by rw [hs]
  have hslots := halloc
  rw [largeSlice, hget, Option.bind_some] at hslots
  generalize hmade : blank.memory.construct oneByte a (st.ct s.c) s = made
  obtain ⟨ents, m, hnew, hents⟩ := newEntities_of_fresh (show blank.ents.free = 0 from rfl) s.c
    s.count s.start (made.data s.c)
  have hrun := allocate_at_once 0 hget hslots (Nat.succ_pos _) hcount (by rw [hchunk, htype]) ha
    hmade hnew
  refine ⟨{ store := st, ents := ents, memory := made.setData s.c m }, a, ?_, ?_, ?_, ?_⟩
  · simp only [largeBin, runAll, List.foldlM_cons, List.foldlM_nil, Op.run, hrun]
    rfl
  · rw [← hcount]
    exact hents.trans (Nat.zero_add _)
  · rw [halloc, hs]
  · exact archetypeOf_eq_some.mpr ⟨htype, ha⟩

/-- A slice of a larger chunk can be released. -/
theorem exists_release {s : ChunkSlice} {g : ArchetypeId} {a : Archetype}
    (harch : w.archetypeOf s.c = some (g, a)) (hpos : 0 < s.count)
    (hlt : s.count < w.store.count s.c) (hcount : w.store.count s.c < 2 ^ 32) :
    ∃ w', w.release s = some w' := by
  obtain ⟨hc, ha⟩ := archetypeOf_eq_some.mp harch
  have hhandles : ∃ e es, w.handles s = e :: es := by
    obtain ⟨n, hn⟩ := Nat.exists_eq_succ_of_ne_zero hpos.ne'
    simp only [handles, hn, List.range_succ_eq_map, List.map_cons]
    exact ⟨_, _, rfl⟩
  obtain ⟨e, es, hes⟩ := hhandles
  have hshape := (Store.structuralChange_shape w.store g a s.c).trans
    (Store.subSize_shape (w.store.structuralChange g a s.c) g s.count)
  simp only [release, World.freeEntities, hes, Entities.freeEntities, Option.bind_eq_bind,
    Option.bind_some, World.freeSlice]
  generalize { w.ents.freeChain (e :: es) with free := e.id } = ents
  rw [show archetypeOf { w with ents := ents } s.c = some (g, a) from harch, Option.bind_some]
  dsimp only
  rw [(moveTail_store _ _ _).1, hshape.count, sub32_of_le hlt.le hcount]
  simp only [Store.resizeChunk, hshape.type, hc, hshape.archetype, ha, Option.bind_eq_bind,
    Option.bind_some, if_neg (Nat.sub_ne_zero_of_lt hlt)]
  exact ⟨_, rfl⟩

theorem destroy_of_release {s : ChunkSlice} {g : ArchetypeId} {a : Archetype} (fuel : Nat)
    (harch : w.archetypeOf s.c = some (g, a)) (hgroup : a.index ctx.groupId = invalidIndex)
    (hclean : a.cleaning = false) (htracked : a.withTracked = false)
    (hrel : w.release s = some w') : w.destroy ctx (fuel + 1) s = some w' := by
  have hcleaning : w.getCleaning ctx g a = some (w, none) := by
    simp [World.getCleaning, hclean, htracked]
  simp only [World.destroy, harch, Option.bind_eq_bind, Option.bind_some, if_pos hgroup,
    World.destroySingle, hclean, Bool.false_eq_true, if_false, hcleaning]
  exact hrel

/-- The last component is another byte than the one 2^16 slots before it. -/
def marked (w : World) : World :=
  let m := Mem.fill (Mem.fill (w.memory.data 0) 883295 0 1) 948831 1 1
  { w with memory := w.memory.setData 0 m }

theorem marked_keeps (hcount : w.store.count 0 ≤ 110000) (c : ChunkId) (i : Nat)
    (hi : w.store.Occupied c i) :
    (marked w).memory.entityAt c i = w.memory.entityAt c i := by
  have hw : Memory.Writes 0 (fun x => 883295 ≤ x) w.memory (marked w).memory := by
    apply Memory.Writes.setData
    refine (Mem.SameOff.fill 0 fun x hx _ => hx).trans (Mem.SameOff.fill 1 fun x hx _ => ?_)
    omega
  apply entityAt_of_writes hw
  rintro rfl x hx
  have := hi.2
  unfold sizeofEntity
  omega

theorem release_size {s : ChunkSlice} (hs : w.release s = some w') :
    w'.ents.size = w.ents.size := by
  obtain ⟨w₁, hfree, hs⟩ := Option.bind_eq_some_iff.mp hs
  obtain ⟨g, a, st₁, w₂, st, -, -, -, rfl, -, rfl⟩ := freeSlice_spec hs
  exact (moveTail_store _ _ _).2.trans (freeEntities_store hfree).2.2

/-- The first of 110000 one-byte entities is destroyed. The last one takes its slot, and
the byte at index 109999 mod 2^16. -/
theorem not_undisturbed_large : ∃ w w', largeBin = some w ∧
    Reachable oneByte (fun w op => op.Orderly oneByte w ∧ op.LaysOut oneByte w) (marked w) ∧
    (marked w).ents.size < 2 ^ 24 ∧
    (∀ g ∈ (marked w).store.archetypes, ((marked w).store.archetype g).map Archetype.types =
      some [4]) ∧
    (marked w).ValidSlice { c := 0, start := 0, count := 1 } ∧
    Op.run oneByte 2 (marked w) (.destroy { c := 0, start := 0, count := 1 }) = some w' ∧
    Op.LaysOut oneByte (marked w) (.destroy { c := 0, start := 0, count := 1 }) ∧
    ¬ Undisturbed oneByte (marked w).whole (.destroy { c := 0, start := 0, count := 1 })
      { c := 0, start := 0, count := 1 } w'.whole := by
  obtain ⟨w, a, hw, hsize, hslice, harch⟩ := largeBin_eq
  obtain ⟨htype, ha⟩ := archetypeOf_eq_some.mp harch
  have hstore : largeSlice.map (fun q => (q.1.count 0, q.1.ct 0, q.1.archetypes)) =
      some (110000, .largebin, [0]) := by decide +kernel
  have hkind : (largeSlice.bind fun q => q.1.archetype 0).map (fun a =>
      (a.types, a.index oneByte.groupId, a.cleaning, a.withTracked)) =
      some ([4], invalidIndex, false, false) := by decide +kernel
  have hplace : (largeSlice.bind fun q => q.1.archetype 0).map (fun a => (a.firstTag, a.size 0,
      a.address .largebin 0 109999, a.address .largebin 0 44463)) =
      some (1, 1, 948831, 883295) := by decide +kernel
  rw [hslice, Option.map_some, Option.some.injEq] at hstore
  rw [hslice, Option.bind_some, ha, Option.map_some, Option.some.injEq] at hkind hplace
  simp only [Prod.mk.injEq] at hstore hkind hplace
  obtain ⟨hcount, hct, harchs⟩ := hstore
  obtain ⟨htypes, hgroup, hclean, htracked⟩ := hkind
  obtain ⟨htag, hone, hlast, hwrap⟩ := hplace
  have hreach : Reachable oneByte
      (fun w op => op.Orderly oneByte w ∧ op.LaysOut oneByte w) w := by
    refine (reachable_blank oneByte _).runAll ?_ hw
    intro op hop v
    obtain rfl := List.mem_singleton.mp hop
    exact ⟨trivial, ⟨trivial, trivial, trivial, by decide, by decide⟩,
      Op.laysOut_allocate _ (by decide +kernel)⟩
  have hreach' := hreach.step (.write (marked w).memory) (marked_keeps hcount.le)
    ⟨⟨trivial, trivial, trivial, trivial⟩, fun _ => False.elim⟩
    (show Op.run oneByte 0 w (.write (marked w).memory) = some (marked w) from rfl)
  have hv : (marked w).ValidSlice { c := 0, start := 0, count := 1 } := by
    refine ⟨?_, Nat.one_pos, ?_⟩
    · change w.store.type 0 ≠ none
      rw [htype]
      exact Option.some_ne_none 0
    · change 0 + 1 ≤ w.store.count 0
      omega
  have hp : Op.Orderly oneByte (marked w) (.destroy { c := 0, start := 0, count := 1 }) := by
    have hsame : ∀ g' a', (marked w).archetypeOf 0 = some (g', a') →
        a'.index oneByte.groupId = invalidIndex := fun g' a' ha' =>
      (Prod.mk.inj (Option.some.inj (ha'.symm.trans harch))).2 ▸ hgroup
    exact ⟨hsame, trivial, fun g' a' ha' => Or.inl (hsame g' a' ha'), trivial⟩
  obtain ⟨w', hrel⟩ := exists_release (w := marked w) (s := { c := 0, start := 0, count := 1 })
    harch Nat.one_pos (by change 1 < w.store.count 0; omega)
    (by change w.store.count 0 < 2 ^ 32; omega)
  have hrun : Op.run oneByte 2 (marked w) (.destroy { c := 0, start := 0, count := 1 }) =
      some w' := destroy_of_release 1 harch hgroup hclean htracked hrel
  have hlays : Op.LaysOut oneByte (marked w) (.destroy { c := 0, start := 0, count := 1 }) :=
    Op.laysOut_destroy harch fun hleaves => by simp [leavesDead, htracked] at hleaves
  obtain ⟨hgood, hmarked⟩ := laid_of_reachable built_oneByte (by decide) hreach'
  have hvalid : Op.Valid (marked w) (.destroy { c := 0, start := 0, count := 1 }) := hv
  have hgood' := hgood.step built_oneByte (by decide) hvalid hp hrun
  have hlaid' : w'.store.Laid := hmarked.of_older hgood.listed.toWf (older_release hrel)
  refine ⟨w, w', hw, hreach', ?_, ?_, hv, hrun, hlays, fun hund => ?_⟩
  · change w.ents.size < 2 ^ 24
    omega
  · intro g hg
    change g ∈ w.store.archetypes at hg
    rw [harchs, List.mem_singleton] at hg
    subst hg
    change (w.store.archetype 0).map _ = _
    rw [ha, Option.map_some, htypes]
  · replace hund := hund.sameSlots (hgood.whole hmarked).symm
      (hgood'.whole hlaid').symm hgood.listed hgood'.listed hgood.sorted hgood'.sorted hmarked ⟨hv.typed, hv.pos, hv.le⟩
    have hocc : (marked w).store.Occupied 0 109999 := by
      refine ⟨hv.typed, ?_⟩
      change 109999 < w.store.count 0
      omega
    obtain ⟨d, j, hfound, hcar⟩ := hund.outside _ 0 109999 0 a (hgood.sound.found hocc)
      (fun hin => absurd hin.2.2 (by decide)) harch
    -- the entity is in slot 0, with the byte of another one
    obtain ⟨ents, g', a', harch', hmoved⟩ := freed_of_release hgood.listed hv hrel
    obtain ⟨rfl, rfl⟩ := Prod.mk.inj (Option.some.inj (harch'.symm.trans harch))
    have htail : tailCount { marked w with ents := ents } { c := 0, start := 0, count := 1 } = 1 := by
      change min 1 (w.store.count 0 - 0 - 1) = 1
      omega
    have hstart : tailStart { marked w with ents := ents } { c := 0, start := 0, count := 1 } =
        109999 := by
      change w.store.count 0 - _ = _
      rw [htail, hcount]
    obtain ⟨hocc', -, hhandle, hcells⟩ := hmoved.moves 0 (by rw [htail]; exact Nat.one_pos)
    rw [hstart] at hhandle hcells
    have htracks := hgood'.sound.tracks (by
      rw [release_size hrel]
      change w.ents.size < 2 ^ 24
      omega)
    obtain ⟨rfl, rfl⟩ := htracks.unique ⟨hocc', not_false⟩ ⟨hfound.occupied, not_false⟩ (by
      rw [hfound.handle]
      exact congrArg Entity.id hhandle)
    have hcell := (hcells 0 (by omega)).symm.trans (hcar.cells 0 (by omega) trivial)
    change Mem.read _ (a'.address (w.store.ct 0) 0 44463) _ =
      Mem.read _ (a'.address (w.store.ct 0) 0 109999) _ at hcell
    rw [hct, hlast, hwrap, hone] at hcell
    simp [marked, Memory.setData, Mem.read, Mem.fill] at hcell

end World

end Dots

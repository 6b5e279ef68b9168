import Dots.Database.Columns
import Dots.Database.Registry

/-!
# The layout of a chunk

The capacity of a bin is its size, less the header and the timestamps, divided by the size of
an entity. The columns are placed in the order of their GUIDs, each rounded up to its
alignment: what the rounding adds must fit into the remainder of that division.
-/

namespace Dots

/-! ## Columns one after the other -/

section Columns

variable {align size : Nat → Nat} {capacity offset : Nat} {order : List Nat}

/-- Where a column starts, from the end of the one before. -/
def alignedUp (align offset : Nat) : Nat := align * ((offset + align - 1) / align)

/-- What rounding up adds to the columns of an order. -/
def padding (align size : Nat → Nat) (capacity : Nat) : Nat → List Nat → Nat
  | _, [] => 0
  | offset, id :: rest =>
      alignedUp (align id) offset - offset +
        padding align size capacity (alignedUp (align id) offset + size id * capacity) rest

theorem le_alignedUp {align : Nat} (ha : 0 < align) (offset : Nat) :
    offset ≤ alignedUp align offset := by
  have h1 := Nat.div_add_mod (offset + align - 1) align
  have h2 := Nat.mod_lt (offset + align - 1) ha
  unfold alignedUp
  omega

/-- The end of the last column. -/
def placedEnd (align size : Nat → Nat) (capacity : Nat) : Nat → List Nat → Nat
  | offset, [] => offset
  | offset, id :: rest =>
      placedEnd align size capacity (alignedUp (align id) offset + size id * capacity) rest

theorem placedEnd_eq (ha : ∀ i, 0 < align i) (offset : Nat) (order : List Nat) :
    placedEnd align size capacity offset order =
      offset + (order.map size).sum * capacity + padding align size capacity offset order := by
  induction order generalizing offset with
  | nil => simp [placedEnd, padding]
  | cons id rest ih =>
      have hle := le_alignedUp (ha id) offset
      rw [placedEnd, ih, padding, List.map_cons, List.sum_cons, Nat.add_mul]
      omega

theorem le_placedEnd (ha : ∀ i, 0 < align i) (offset : Nat) (order : List Nat) :
    offset ≤ placedEnd align size capacity offset order := by
  rw [placedEnd_eq ha]
  omega

/-- No column ends past the end. -/
theorem placeColumns_end (ha : ∀ i, 0 < align i) (hnd : order.Nodup) {i : Nat} (hi : i ∈ order) :
    placeColumns align size capacity offset order i + size i * capacity ≤
      placedEnd align size capacity offset order := by
  induction order generalizing offset with
  | nil => simp at hi
  | cons id rest ih =>
      obtain ⟨hid, hrest⟩ := List.nodup_cons.mp hnd
      simp only [placeColumns, Function.update_apply]
      split_ifs with h
      · subst h
        exact le_placedEnd ha _ rest
      · exact ih hrest ((List.mem_cons.mp hi).resolve_left h)

/-- The last one ends there. -/
theorem exists_last (hnd : order.Nodup) (hne : order ≠ []) : ∃ i ∈ order,
    placeColumns align size capacity offset order i + size i * capacity =
      placedEnd align size capacity offset order := by
  induction order generalizing offset with
  | nil => exact absurd rfl hne
  | cons id rest ih =>
      obtain ⟨hid, hrest⟩ := List.nodup_cons.mp hnd
      cases rest with
      | nil =>
          refine ⟨id, List.mem_singleton_self id, ?_⟩
          simp [placeColumns, placedEnd, alignedUp]
      | cons id' rest =>
          obtain ⟨i, hi, hend⟩ := ih hrest (List.cons_ne_nil _ _)
          refine ⟨i, List.mem_cons_of_mem id hi, ?_⟩
          rw [placeColumns, Function.update_apply, if_neg (fun h : i = id => hid (h ▸ hi))]
          exact hend

end Columns

/-! ## The parts of a block -/

/-- The parts of a chunk, each with its start and its length: the header, the handles, the
timestamps and the columns. -/
def Archetype.blockParts (a : Archetype) (ct : AllocType) : List (Nat × Nat) :=
  (0, sizeofChunk) ::
  (sizeofChunk, sizeofEntity * a.chunkCapacity ct) ::
  (binSize ct - 4 * a.firstTag, 4 * a.firstTag) ::
  (List.range a.firstTag).map fun i =>
    (sizeofChunk + a.offsets ct i, a.size i * a.chunkCapacity ct)

/-- One ends before the other starts. -/
def PartsApart (r s : Nat × Nat) : Prop := r.1 + r.2 ≤ s.1 ∨ s.1 + s.2 ≤ r.1

structure Archetype.FitsBin (a : Archetype) (ct : AllocType) : Prop where
  apart : (a.blockParts ct).Pairwise PartsApart
  inside : ∀ r ∈ a.blockParts ct, r.1 + r.2 ≤ binSize ct

/-- What is expected of the layout of a key in a bin. -/
def LayoutFits (ctx : Context) (key : EntityType) (ct : AllocType) : Prop :=
  ∃ a : Archetype, constructArchetype ctx key = some a ∧
    a.entitySize = sizeofEntity + (key.types.map fun t => (ctx.info t).size).sum ∧
    (a.chunkCapacity ct ≠ 0 → a.FitsBin ct)

section Parts

variable {a : Archetype} {ct : AllocType}

/-- The parts fit when they end before the timestamps. -/
theorem Layout.fitsBin_iff (hl : Layout a) (hpos : ∀ i < a.firstTag, 0 < a.size i)
    (hn : a.chunkCapacity ct ≠ 0) : a.FitsBin ct ↔
      sizeofChunk + sizeofEntity * a.chunkCapacity ct + 4 * a.firstTag ≤ binSize ct ∧
      ∀ i < a.firstTag, sizeofChunk + a.offsets ct i + a.size i * a.chunkCapacity ct +
        4 * a.firstTag ≤ binSize ct := by
  have hhandles : 0 < sizeofEntity * a.chunkCapacity ct :=
    Nat.mul_pos (by decide) (Nat.pos_of_ne_zero hn)
  constructor
  · rintro ⟨hapart, hinside⟩
    simp only [Archetype.blockParts, List.pairwise_cons, List.mem_cons, List.mem_map,
      List.mem_range, forall_eq_or_imp, forall_exists_index, and_imp, forall_apply_eq_imp_iff₂,
      PartsApart] at hapart hinside
    obtain ⟨⟨-, hwords, -⟩, ⟨hentities, -⟩, hcolumns, -⟩ := hapart
    obtain ⟨-, hend, -, hends⟩ := hinside
    have hchunk : 0 < sizeofChunk := by decide
    refine ⟨by omega, fun i hi => ?_⟩
    have hcolumn := Nat.mul_pos (hpos i hi) (Nat.pos_of_ne_zero hn)
    have := hcolumns i hi
    have := hends i hi
    omega
  · rintro ⟨hentities, hcolumns⟩
    constructor
    · simp only [Archetype.blockParts, List.pairwise_cons, List.mem_cons, List.mem_map,
        List.mem_range, forall_eq_or_imp, forall_exists_index, and_imp, forall_apply_eq_imp_iff₂,
        PartsApart]
      refine ⟨⟨by omega, by omega, fun i hi => by omega⟩, ⟨by omega, fun i hi => ?_⟩,
        fun i hi => ?_, ?_⟩
      · have := hl.handles_le ct i hi
        omega
      · have := hcolumns i hi
        omega
      · rw [List.pairwise_map]
        refine List.Pairwise.imp_of_mem ?_ List.nodup_range
        intro i j hi hj hne
        have := hl.disjoint ct i j (List.mem_range.mp hi) (List.mem_range.mp hj) hne
        unfold PartsApart
        omega
    · simp only [Archetype.blockParts, List.mem_cons, List.mem_map, List.mem_range,
        forall_eq_or_imp, forall_exists_index, and_imp, forall_apply_eq_imp_iff₂]
      refine ⟨by omega, by omega, by omega, fun i hi => ?_⟩
      have := hcolumns i hi
      omega

end Parts

/-! ## The padding fits -/

/-- The entries of the columns. -/
def columnInfos (ctx : Context) (key : EntityType) : List TypeRegistry :=
  (key.types.take (segment TypeIndex.isTag key.types)).map ctx.info

def columnInfo (ctx : Context) (key : EntityType) (i : Nat) : TypeRegistry :=
  (columnInfos ctx key).getD i {}

/-- The order in which the columns are placed. -/
def columnOrder (ctx : Context) (key : EntityType) : List Nat :=
  stableOrder (fun i => (columnInfo ctx key i).guid) (columnInfos ctx key).length

/-- The bytes of an entity and its components. -/
def entityBytes (ctx : Context) (key : EntityType) : Nat :=
  sizeofEntity + ((columnInfos ctx key).map TypeRegistry.size).sum

/-- The bytes of a bin besides the header and the timestamps. -/
def entityRoom (ctx : Context) (key : EntityType) (ct : AllocType) : Nat :=
  binSize ct - sizeofChunk - 4 * (columnInfos ctx key).length

/-- What aligning the columns adds when the bin holds as many entities as fit unaligned. -/
def columnPadding (ctx : Context) (key : EntityType) (ct : AllocType) : Nat :=
  let capacity := entityRoom ctx key ct / entityBytes ctx key
  padding (fun i => (columnInfo ctx key i).alignment)
    (fun i => (columnInfo ctx key i).size) capacity (sizeofEntity * capacity)
    (columnOrder ctx key)

/-- The scratch arrays for the columns fit the stack, an entity has a 16-bit size, the timestamps
fit, and the padding of a bin that holds an entity fits into the remainder. -/
structure PaddingFits (ctx : Context) (key : EntityType) (ct : AllocType) : Prop where
  stack : 26 * (columnInfos ctx key).length + 12 ≤ kStackSize
  size : entityBytes ctx key < 2 ^ 16
  words : sizeofChunk + 4 * (columnInfos ctx key).length ≤ binSize ct
  padding : entityBytes ctx key ≤ entityRoom ctx key ct →
    columnPadding ctx key ct ≤ entityRoom ctx key ct % entityBytes ctx key

section Layout

variable {ctx : Context} {key : EntityType} {ct : AllocType} {a : Archetype}

/-- An archetype in terms of the entries of its columns. -/
structure LaidOut (ctx : Context) (key : EntityType) (a : Archetype) : Prop where
  layout : Layout a
  stack : 26 * a.firstTag + 12 ≤ kStackSize
  firstTag : a.firstTag = (columnInfos ctx key).length
  size : ∀ i, a.size i = (columnInfo ctx key i).size
  entitySize : a.entitySize = entityBytes ctx key % 2 ^ 16
  positive : 0 < a.entitySize
  alignment : ∀ i, 0 < (columnInfo ctx key i).alignment
  capacity : ∀ ct, a.chunkCapacity ct = binCapacity a.firstTag a.entitySize ct
  offsets : ∀ ct, a.chunkCapacity ct ≠ 0 → a.offsets ct =
    placeColumns (fun i => (columnInfo ctx key i).alignment)
      (fun i => (columnInfo ctx key i).size) (a.chunkCapacity ct)
      (sizeofEntity * a.chunkCapacity ct)
      (columnOrder ctx key)

theorem length_columnInfos :
    (columnInfos ctx key).length = segment TypeIndex.isTag key.types := by
  rw [columnInfos, List.length_map, List.length_take]
  exact Nat.min_eq_left (segment_le _ _)

theorem getD_map_size (infos : List TypeRegistry) (i : Nat) :
    (infos.map TypeRegistry.size).getD i 0 = (infos.getD i {}).size := by
  rw [List.getD_eq_getElem?_getD, List.getD_eq_getElem?_getD, List.getElem?_map]
  cases infos[i]? <;> rfl

theorem laidOut (h : constructArchetype ctx key = some a) : LaidOut ctx key a := by
  have hlayout := constructArchetype_layout h
  simp only [constructArchetype] at h
  split_ifs at h with hbad
  simp only [not_or, not_exists, not_and] at hbad
  obtain rfl := Option.some.inj h
  refine ⟨hlayout, Nat.le_of_not_lt fun hlt => hbad.2.2 (constructArrays_eq_none.mpr hlt),
    length_columnInfos.symm, fun i => getD_map_size _ i, rfl,
    Nat.pos_of_ne_zero hbad.1, fun i => ?_, fun ct => rfl, fun ct hct => ?_⟩
  · rw [columnInfo, List.getD_eq_getElem?_getD]
    cases hi : (columnInfos ctx key)[i]? with
    | none => decide
    | some info => exact Nat.pos_of_ne_zero (hbad.2.1 info (List.mem_of_getElem? hi))
  · simp only at hct ⊢
    rw [if_neg hct]
    simp only [getD_map_size, columnOrder, length_columnInfos]
    rfl

theorem exists_constructArchetype (hstack : 26 * (columnInfos ctx key).length + 12 ≤ kStackSize)
    (hsize : entityBytes ctx key < 2 ^ 16) (halign : ∀ t ∈ key.types, 0 < (ctx.info t).alignment) :
    ∃ a, constructArchetype ctx key = some a := by
  unfold constructArchetype
  simp only
  rw [if_neg]
  · exact ⟨_, rfl⟩
  · rintro (hzero | ⟨i, hi, hzero⟩ | hnone)
    · have heq := Nat.mod_eq_of_lt hsize
      unfold entityBytes columnInfos at heq
      rw [heq] at hzero
      simp [sizeofEntity] at hzero
    · obtain ⟨t, ht, rfl⟩ := List.mem_map.mp hi
      exact (halign t (List.mem_of_mem_take ht)).ne' hzero
    · rw [constructArrays_eq_none, ← length_columnInfos] at hnone
      exact absurd hstack hnone.not_ge

/-- The types behind the columns are tags, and have no size. -/
theorem sum_sizes (hctx : ctx.Built) (hreg : ctx.tracks.length ≤ 2 ^ 30)
    (htypes : ∀ t ∈ key.types, ctx.HasType t) (hs : SortedTypes key.types)
    (h : constructArchetype ctx key = some a) :
    (key.types.map fun t => (ctx.info t).size).sum =
      ((columnInfos ctx key).map TypeRegistry.size).sum := by
  have htype := constructArchetype_type h
  have hbound : ∀ i (hi : i < key.types.length),
      segment TypeIndex.isTag key.types ≤ i → key.types[i].isTag = true := by
    intro i hi hle
    have hsegments := Archetype.boundaries h (by rwa [Archetype.types, htype])
      (by rwa [Archetype.types, htype])
    have hfirst := (constructArchetype_layout h).firstTag
    simp only [Archetype.types, htype] at hsegments hfirst
    have hbits := (not_congr hsegments.1).mp (by omega)
    have hlt := Archetype.bits_lt key.types[i]
    simp only [TypeIndex.isTag, ComponentType.bits, beq_iff_eq]
    omega
  have hrest : ((key.types.drop (segment TypeIndex.isTag key.types)).map
      fun t => (ctx.info t).size).sum = 0 := by
    refine List.sum_eq_zero_iff_forall_eq_nat.mpr fun n hn => ?_
    obtain ⟨t, ht, rfl⟩ := List.mem_map.mp hn
    obtain ⟨i, hi, rfl⟩ := List.mem_iff_getElem.mp ht
    rw [List.getElem_drop]
    exact (isTag_iff_size hctx hreg (htypes _ (List.getElem_mem _))).mp
      (hbound _ _ (Nat.le_add_right _ i))
  conv_lhs => rw [← List.take_append_drop (segment TypeIndex.isTag key.types) key.types]
  rw [List.map_append, List.sum_append, hrest, Nat.add_zero, columnInfos, List.map_map]
  rfl

/-- Where the last column ends. -/
def columnEnd (ctx : Context) (key : EntityType) (capacity : Nat) : Nat :=
  placedEnd (fun i => (columnInfo ctx key i).alignment) (fun i => (columnInfo ctx key i).size)
    capacity (sizeofEntity * capacity) (columnOrder ctx key)

theorem mem_columnOrder {i : Nat} :
    i ∈ columnOrder ctx key ↔ i < (columnInfos ctx key).length := mem_stableOrder

theorem columnEnd_eq (halign : ∀ i, 0 < (columnInfo ctx key i).alignment) (capacity : Nat) :
    columnEnd ctx key capacity = entityBytes ctx key * capacity +
      padding (fun i => (columnInfo ctx key i).alignment) (fun i => (columnInfo ctx key i).size)
        capacity (sizeofEntity * capacity) (columnOrder ctx key) := by
  have hrange : (List.range (columnInfos ctx key).length).map
      (fun i => (columnInfo ctx key i).size) = (columnInfos ctx key).map TypeRegistry.size := by
    apply List.ext_getElem
    · simp
    · intro i hi hi'
      rw [List.length_map] at hi'
      simp [columnInfo, List.getElem?_eq_getElem hi']
  have hsum : ((columnOrder ctx key).map fun i => (columnInfo ctx key i).size).sum =
      ((columnInfos ctx key).map TypeRegistry.size).sum := by
    rw [← hrange]
    exact ((List.perm_insertionSort _ _).map _).sum_nat
  rw [columnEnd, placedEnd_eq halign, hsum, entityBytes, Nat.add_mul]

/-- The parts end before the timestamps when the last column does. -/
theorem LaidOut.fitsBin_iff_columnEnd (h : LaidOut ctx key a)
    (hpos : ∀ i < a.firstTag, 0 < a.size i) (hn : a.chunkCapacity ct ≠ 0) : a.FitsBin ct ↔
      sizeofChunk + columnEnd ctx key (a.chunkCapacity ct) + 4 * a.firstTag ≤ binSize ct := by
  have hnodup : (columnOrder ctx key).Nodup := nodup_stableOrder _ _
  rw [h.layout.fitsBin_iff hpos hn, h.offsets ct hn]
  simp only [h.size]
  constructor
  · rintro ⟨hhandles, hcolumns⟩
    by_cases hne : columnOrder ctx key = []
    · rw [columnEnd, hne]
      exact hhandles
    · obtain ⟨i, hi, hend⟩ : ∃ i ∈ columnOrder ctx key,
          placeColumns (fun i => (columnInfo ctx key i).alignment)
              (fun i => (columnInfo ctx key i).size) (a.chunkCapacity ct)
              (sizeofEntity * a.chunkCapacity ct) (columnOrder ctx key) i +
            (columnInfo ctx key i).size * a.chunkCapacity ct =
          columnEnd ctx key (a.chunkCapacity ct) := exists_last hnodup hne
      have hcolumn := hcolumns i (h.firstTag ▸ mem_columnOrder.mp hi)
      rw [← hend]
      omega
  · intro hend
    refine ⟨?_, fun i hi => ?_⟩
    · have hle : sizeofEntity * a.chunkCapacity ct ≤ columnEnd ctx key (a.chunkCapacity ct) :=
        le_placedEnd h.alignment _ _
      omega
    · have hle : placeColumns (fun i => (columnInfo ctx key i).alignment)
              (fun i => (columnInfo ctx key i).size) (a.chunkCapacity ct)
              (sizeofEntity * a.chunkCapacity ct) (columnOrder ctx key) i +
            (columnInfo ctx key i).size * a.chunkCapacity ct ≤
          columnEnd ctx key (a.chunkCapacity ct) :=
        placeColumns_end h.alignment hnodup (mem_columnOrder.mpr (h.firstTag ▸ hi))
      omega

/-- The rounding has to fit into the remainder of the division. -/
theorem LaidOut.fitsBin_iff_padding (h : LaidOut ctx key a)
    (hpos : ∀ i < a.firstTag, 0 < a.size i)
    (hwords : sizeofChunk + 4 * a.firstTag ≤ binSize ct)
    (hcap : a.chunkCapacity ct = entityRoom ctx key ct / entityBytes ctx key)
    (hn : a.chunkCapacity ct ≠ 0) : a.FitsBin ct ↔
      columnPadding ctx key ct ≤ entityRoom ctx key ct % entityBytes ctx key := by
  have hdiv := Nat.div_add_mod (entityRoom ctx key ct) (entityBytes ctx key)
  have hroom : entityRoom ctx key ct = binSize ct - sizeofChunk - 4 * a.firstTag := by
    rw [h.firstTag]
    rfl
  rw [h.fitsBin_iff_columnEnd hpos hn, columnEnd_eq h.alignment, hcap]
  change sizeofChunk + (_ + columnPadding ctx key ct) + _ ≤ _ ↔ _
  omega

theorem binCapacity_of_le {firstTag entitySize : Nat}
    (h : sizeofChunk + 4 * firstTag ≤ binSize ct) : binCapacity firstTag entitySize ct =
      (binSize ct - sizeofChunk - 4 * firstTag) / entitySize := by
  have hbin : binSize ct < 2 ^ 32 := by cases ct <;> decide
  rw [binCapacity]
  congr 1
  omega

/-- Too many timestamps wrap around, and leave a bin that seems large. -/
theorem binCapacity_of_lt {firstTag entitySize : Nat}
    (h : binSize ct < sizeofChunk + 4 * firstTag) (htag : firstTag < 2 ^ 16)
    (hsize : entitySize < 2 ^ 16) (hpos : 0 < entitySize) :
    binCapacity firstTag entitySize ct ≠ 0 := by
  have hroom : entitySize ≤ (2 ^ 64 + binSize ct - sizeofChunk - 4 * firstTag) % 2 ^ 32 := by
    have hchunk : sizeofChunk = 32 := rfl
    omega
  exact (Nat.div_pos hroom hpos).ne'

/-- The parts of a block of a bin are apart and inside if and only if the stack has room for the
columns, an entity has a 16-bit size, the timestamps leave room, and what the alignments add fits
into what the division leaves. -/
theorem layoutFits_iff (hctx : ctx.Built) (hreg : ctx.tracks.length ≤ 2 ^ 30)
    (htypes : ∀ t ∈ key.types, ctx.HasType t) (hs : SortedTypes key.types)
    (hlen : key.types.length < 2 ^ 16)
    (halign : ∀ t ∈ key.types, ∃ k, (ctx.info t).alignment = 2 ^ k) (ct : AllocType) :
    LayoutFits ctx key ct ↔ PaddingFits ctx key ct := by
  have hpos : ∀ a, LaidOut ctx key a → ∀ i < a.firstTag, 0 < a.size i := by
    intro a h i hi
    obtain ⟨hi', -, htag⟩ := not_of_lt_segment (m := key.types.length) (by
      rwa [List.take_length, ← length_columnInfos, ← h.firstTag])
    have hsize := (not_congr (isTag_iff_size hctx hreg (htypes _ (List.getElem_mem hi')))).mp
      (by simp [htag])
    have hinfo : columnInfo ctx key i = ctx.info key.types[i] := by
      rw [columnInfo, columnInfos, List.getD_eq_getElem?_getD, List.getElem?_map,
        List.getElem?_take_of_lt (by rwa [← length_columnInfos, ← h.firstTag]),
        List.getElem?_eq_getElem hi']
      rfl
    rw [h.size, hinfo]
    exact Nat.pos_of_ne_zero hsize
  constructor
  · rintro ⟨a, ha, hsize, hfits⟩
    have h := laidOut ha
    rw [sum_sizes hctx hreg htypes hs ha] at hsize
    change a.entitySize = entityBytes ctx key at hsize
    have hbytes : entityBytes ctx key < 2 ^ 16 := by
      rw [← hsize, h.entitySize]
      exact Nat.mod_lt _ (by decide)
    have hwords : sizeofChunk + 4 * a.firstTag ≤ binSize ct := by
      by_contra hlt
      have htag := h.layout.tag_le
      rw [Archetype.types, constructArchetype_type ha] at htag
      have hn : a.chunkCapacity ct ≠ 0 := by
        rw [h.capacity]
        exact binCapacity_of_lt (Nat.lt_of_not_le hlt) (htag.trans_lt hlen) (hsize ▸ hbytes)
          h.positive
      have hend := ((h.layout.fitsBin_iff (hpos a h) hn).mp (hfits hn)).1
      omega
    refine ⟨h.firstTag ▸ h.stack, hbytes, h.firstTag ▸ hwords, fun hle => ?_⟩
    have hcap : a.chunkCapacity ct = entityRoom ctx key ct / entityBytes ctx key := by
      rw [h.capacity, binCapacity_of_le hwords, hsize, h.firstTag]
      rfl
    have hn : a.chunkCapacity ct ≠ 0 := by
      rw [hcap]
      exact (Nat.div_pos hle (hsize ▸ h.positive)).ne'
    exact (h.fitsBin_iff_padding (hpos a h) hwords hcap hn).mp (hfits hn)
  · rintro ⟨hstack, hbytes, hwords, hpadding⟩
    obtain ⟨a, ha⟩ := exists_constructArchetype hstack hbytes fun t ht => by
      obtain ⟨k, hk⟩ := halign t ht
      rw [hk]
      exact Nat.two_pow_pos k
    have h := laidOut ha
    have hsize : a.entitySize = entityBytes ctx key :=
      h.entitySize.trans (Nat.mod_eq_of_lt hbytes)
    rw [← h.firstTag] at hwords
    have hcap : a.chunkCapacity ct = entityRoom ctx key ct / entityBytes ctx key := by
      rw [h.capacity, binCapacity_of_le hwords, hsize, h.firstTag]
      rfl
    refine ⟨a, ha, ?_, fun hn => ?_⟩
    · rw [sum_sizes hctx hreg htypes hs ha]
      exact hsize
    · refine (h.fitsBin_iff_padding (hpos a h) hwords hcap hn).mpr (hpadding ?_)
      rw [hcap] at hn
      exact Nat.le_of_not_lt fun hlt => hn (Nat.div_eq_of_lt hlt)

end Layout

/-- A component of 8 bytes with the default alignment, and one of 16. -/
def sizedContext : Context :=
  (((Context.initial false).registerType { guid := 10, size := 8 }).1.registerType
    { guid := 11, size := 16 }).1

theorem built_sizedContext : sizedContext.Built := .register (.register (.initial false) _) _

/-- An entity of 12 bytes leaves room for aligning its column. -/
theorem layoutFits_eight : LayoutFits sizedContext { types := [4] } .fastbin := by
  refine (layoutFits_iff built_sizedContext (by decide) ?_ ?_ (by decide) ?_ .fastbin).mpr ?_
  · intro t ht
    obtain rfl := List.mem_singleton.mp ht
    exact Or.inl ⟨10, by decide⟩
  · exact ⟨List.pairwise_singleton _ _, by decide⟩
  · intro t ht
    obtain rfl := List.mem_singleton.mp ht
    exact ⟨3, by decide⟩
  · exact ⟨by decide, by decide, by decide, fun _ => by decide⟩

/-- 3275 entities of 20 bytes leave nothing for aligning the column, and the last component
reaches into the timestamps. -/
theorem not_layoutFits_sixteen : ¬ LayoutFits sizedContext { types := [5] } .fastbin := by
  rintro ⟨a, ha, -, hfits⟩
  have hsome : (constructArchetype sizedContext { types := [5] }).map (fun a =>
      (a.chunkCapacity .fastbin, a.firstTag, a.offsets .fastbin 0, a.size 0)) =
      some (3275, 1, 13104, 16) := by decide +kernel
  rw [ha, Option.map_some, Option.some.injEq, Prod.mk.injEq, Prod.mk.injEq, Prod.mk.injEq] at hsome
  obtain ⟨hcap, htag, hoffset, hsize⟩ := hsome
  have hend := (((laidOut ha).layout.fitsBin_iff (by
    intro i hi
    obtain rfl : i = 0 := by omega
    rw [hsize]
    decide) (by rw [hcap]; decide)).mp (hfits (by rw [hcap]; decide))).2 0 (by omega)
  rw [hcap, htag, hoffset, hsize] at hend
  exact absurd hend (by decide)

end Dots

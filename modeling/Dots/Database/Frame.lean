import Dots.Database.Chunk
import Dots.Library.Partial

/-!
# Which bytes a chunk operation can change

The layout of an archetype keeps the handles in front and gives every column its
own range. An operation on a slice changes no chunk but the one of the slice, and
there at most the cells of the slice.
-/

namespace Dots

open Library

/-- The segments and offsets `construct_archetype` computes. -/
structure Layout (a : Archetype) : Prop where
  firstTag : a.firstTag = segment TypeIndex.isTag a.types
  buffer_le : a.firstBuffer ≤ a.firstManaged
  managed_le : a.firstManaged ≤ a.firstTag
  tag_le : a.firstTag ≤ a.types.length
  length_sizes : a.sizes.length = a.firstTag
  handles_le : ∀ ct i, i < a.firstTag → sizeofEntity * a.chunkCapacity ct ≤ a.offsets ct i
  disjoint : ∀ ct i j, i < a.firstTag → j < a.firstTag → i ≠ j →
    a.offsets ct i + a.size i * a.chunkCapacity ct ≤ a.offsets ct j ∨
      a.offsets ct j + a.size j * a.chunkCapacity ct ≤ a.offsets ct i

theorem Mem.readEntity_lt (m : Mem) (slot : Nat) : (Mem.readEntity m slot).value < 2 ^ 32 :=
  Mem.readWord_lt m _ 4

/-- Writing a handle leaves the handles of the other slots. -/
theorem Mem.readEntity_writeEntity (m : Mem) (slot i : Nat) {e : Entity} (he : e.value < 2 ^ 32) :
    Mem.readEntity (Mem.writeEntity m slot e) i = if i = slot then e else Mem.readEntity m i := by
  have hsize : sizeofEntity = 4 := rfl
  split_ifs with hslot
  · rw [hslot, Mem.readEntity, Mem.writeEntity, Mem.readWord_write _ _ _ _ he]
  · refine congrArg Entity.mk (Mem.readWord_congr fun k hk => ?_)
    rcases Nat.lt_or_gt_of_ne hslot with hlt | hlt
    · apply Mem.writeWord_of_lt
      rw [hsize]
      omega
    · apply Mem.writeWord_of_ge
      rw [hsize]
      omega

theorem segment_le (p : TypeIndex → Bool) (ts : List TypeIndex) : segment p ts ≤ ts.length :=
  (List.takeWhile_prefix _).length_le

theorem mem_stableOrder {hash : Nat → GUID} {n i : Nat} :
    i ∈ stableOrder hash n ↔ i < n := by
  rw [stableOrder, (List.perm_insertionSort _ _).mem_iff, List.mem_range]

theorem nodup_stableOrder (hash : Nat → GUID) (n : Nat) : (stableOrder hash n).Nodup :=
  (List.perm_insertionSort _ _).nodup_iff.mpr List.nodup_range

/-- Columns placed one after the other do not overlap. -/
theorem placeColumns_disjoint {align size : Nat → Nat} (ha : ∀ i, 0 < align i) (capacity : Nat)
    {order : List Nat} (hnd : order.Nodup) {offset i j : Nat} (hi : i ∈ order) (hj : j ∈ order)
    (hij : i ≠ j) :
    placeColumns align size capacity offset order i + size i * capacity ≤
        placeColumns align size capacity offset order j ∨
      placeColumns align size capacity offset order j + size j * capacity ≤
        placeColumns align size capacity offset order i := by
  induction order generalizing offset with
  | nil => simp at hi
  | cons id rest ih =>
      obtain ⟨hid, hrest⟩ := List.nodup_cons.mp hnd
      simp only [placeColumns, Function.update_apply]
      have hlater : ∀ k ∈ rest, align id * ((offset + align id - 1) / align id) +
          size id * capacity ≤ placeColumns align size capacity
            (align id * ((offset + align id - 1) / align id) + size id * capacity) rest k :=
        fun k hk => le_placeColumns ha capacity rest hk
      have hne : ∀ k ∈ rest, k ≠ id := fun k hk hkid => hid (hkid ▸ hk)
      rcases List.mem_cons.mp hi with rfl | hi'
      · rcases List.mem_cons.mp hj with rfl | hj'
        · exact absurd rfl hij
        · rw [if_pos rfl, if_neg (hne j hj')]
          exact Or.inl (hlater j hj')
      · rcases List.mem_cons.mp hj with rfl | hj'
        · rw [if_pos rfl, if_neg (hne i hi')]
          exact Or.inr (hlater i hi')
        · rw [if_neg (hne i hi'), if_neg (hne j hj')]
          exact ih hrest hi' hj'

theorem constructArchetype_layout {ctx : Context} {key : EntityType} {a : Archetype}
    (h : constructArchetype ctx key = some a) : Layout a := by
  simp only [constructArchetype] at h
  split_ifs at h with hbad
  obtain rfl := Option.some.inj h
  simp only [not_or, not_exists, not_and] at hbad
  have halign : ∀ i, 0 < (((key.types.take (segment TypeIndex.isTag key.types)).map
      ctx.info).getD i {}).alignment := by
    intro i
    rw [List.getD_eq_getElem?_getD]
    cases hi : ((key.types.take (segment TypeIndex.isTag key.types)).map ctx.info)[i]? with
    | none => decide
    | some info => exact Nat.pos_of_ne_zero (hbad.2.1 info (List.mem_of_getElem? hi))
  have htag := segment_le TypeIndex.isTag key.types
  have hman := segment_le TypeIndex.isManaged
    (key.types.take (segment TypeIndex.isTag key.types))
  refine ⟨rfl, ?_, ?_, htag, ?_, fun ct i hi => ?_, fun ct i j hi hj hij => ?_⟩
  · refine (segment_le _ _).trans ?_
    rw [List.length_take]
    exact Nat.min_le_left ..
  · refine hman.trans ?_
    rw [List.length_take]
    exact Nat.min_le_left ..
  · rw [List.length_map, List.length_map, List.length_take]
    exact Nat.min_eq_left htag
  · simp only
    split_ifs with hcap
    · rw [hcap]
      exact Nat.le_refl 0
    · exact le_placeColumns halign _ _ (mem_stableOrder.mpr hi)
  · simp only [Archetype.size]
    split_ifs with hcap
    · rw [hcap]
      exact Or.inl (Nat.le_refl 0)
    · exact placeColumns_disjoint halign _ (nodup_stableOrder _ _) (mem_stableOrder.mpr hi)
        (mem_stableOrder.mpr hj) hij

theorem lt_length_takeWhile {α : Type*} {p : α → Bool} {l : List α} {i : Nat}
    (hi : i < l.length) (h : ∀ j ≤ i, ∀ a, l[j]? = some a → p a = true) :
    i < (l.takeWhile p).length := by
  induction l generalizing i with
  | nil => simp at hi
  | cons a l ih =>
      have ha : p a = true := h 0 (Nat.zero_le i) a rfl
      rw [List.takeWhile_cons_of_pos ha, List.length_cons]
      cases i with
      | zero => exact Nat.succ_pos _
      | succ i =>
          apply Nat.succ_lt_succ
          apply ih (Nat.lt_of_succ_lt_succ hi)
          intro j hj b hb
          exact h (j + 1) (Nat.succ_le_succ hj) b hb

theorem not_isTag_of_lt {t : Nat} (ht : t < 3 * 2 ^ 30) : TypeIndex.isTag t = false := by
  simp only [TypeIndex.isTag, TypeIndex.bits, ComponentType.bits, beq_eq_false_iff_ne, ne_eq]
  omega

/-- The local index of a type that sorts before all tags. -/
theorem Layout.index_lt {a : Archetype} (h : Layout a) {t : TypeIndex} (ht : t < 3 * 2 ^ 30)
    (hne : a.index t ≠ invalidIndex) : a.index t < a.firstTag := by
  simp only [Archetype.index] at hne ⊢
  split_ifs at hne ⊢ with hi
  · refine (Nat.mod_le _ _).trans_lt ?_
    rw [h.firstTag]
    apply lt_length_takeWhile (List.getElem?_eq_some_iff.mp hi).1
    intro j hj u hu
    have hut : u ≤ t := by
      rcases hj.lt_or_eq with hlt | rfl
      · obtain ⟨hjl, rfl⟩ := List.getElem?_eq_some_iff.mp hu
        have := List.not_of_lt_findIdx hlt
        exact (Nat.lt_of_not_le (by simpa using this)).le
      · rw [hi, Option.some.injEq] at hu
        exact hu.ge
    simp [not_isTag_of_lt (hut.trans_lt ht)]
  · exact absurd rfl hne

namespace Archetype

/-- How many bytes the element of a column takes up: at least its header, for a
buffer. -/
def width (a : Archetype) (i : Nat) : Nat :=
  if a.firstBuffer ≤ i ∧ i < a.firstManaged then max (a.size i) sizeofBuffer else a.size i

theorem size_le_width (a : Archetype) (i : Nat) : a.size i ≤ a.width i := by
  unfold width
  split_ifs
  · exact Nat.le_max_left ..
  · exact Nat.le_refl _

/-- The bytes of the elements in the slots `[start, start + count)`. -/
def Span (a : Archetype) (ct : AllocType) (start count x : Nat) : Prop :=
  ∃ i < a.firstTag, ∃ j < count, a.address ct i (start + j) ≤ x ∧
    x < a.address ct i (start + j) + a.width i

theorem span_of_range {a : Archetype} {ct : AllocType} {start count i x : Nat}
    (hi : i < a.firstTag) (hx : a.address ct i start ≤ x)
    (hx' : x < a.address ct i start + a.size i * count) : a.Span ct start count x := by
  have hpos : 0 < a.size i := by
    apply Nat.pos_of_ne_zero
    intro h0
    rw [h0] at hx'
    omega
  refine ⟨i, hi, (x - a.address ct i start) / a.size i, ?_, ?_, ?_⟩
  · apply Nat.div_lt_of_lt_mul
    omega
  · have := Nat.mul_div_le (x - a.address ct i start) (a.size i)
    simp only [address] at hx this ⊢
    rw [Nat.mul_add]
    omega
  · have h1 := Nat.div_add_mod (x - a.address ct i start) (a.size i)
    have h2 := Nat.mod_lt (x - a.address ct i start) hpos
    have h3 := a.size_le_width i
    simp only [address] at hx h1 h2 ⊢
    rw [Nat.mul_add]
    omega

theorem span_of_element {a : Archetype} {ct : AllocType} {start count i j x : Nat}
    (hi : i < a.firstTag) (hj : j < count) (hx : a.address ct i (start + j) ≤ x)
    (hx' : x < a.address ct i (start + j) + a.width i) : a.Span ct start count x :=
  ⟨i, hi, j, hj, hx, hx'⟩

/-- All cells are behind the handles. -/
theorem Span.handles_le {a : Archetype} (hl : Layout a) {ct : AllocType} {start count x : Nat}
    (h : a.Span ct start count x) : sizeofEntity * a.chunkCapacity ct ≤ x := by
  obtain ⟨i, hi, j, -, hx, -⟩ := h
  have := hl.handles_le ct i hi
  simp only [address] at hx
  omega

end Archetype

/-- The data of all chunks is the same, but for the bytes `W` of chunk `c`. -/
structure Memory.Writes (c : ChunkId) (W : Nat → Prop) (mm mm' : Memory) : Prop where
  other : ∀ d, d ≠ c → mm'.data d = mm.data d
  same : Mem.SameOff W (mm.data c) (mm'.data c)

namespace Memory.Writes

variable {c : ChunkId} {W W' : Nat → Prop} {mm mm' mm'' : Memory}

theorem refl (c : ChunkId) (W : Nat → Prop) (mm : Memory) : Writes c W mm mm :=
  ⟨fun _ _ => rfl, .refl W _⟩

theorem of_data (h : mm'.data = mm.data) : Writes c W mm mm' :=
  ⟨fun d _ => congrFun h d, h ▸ .refl W _⟩

theorem trans (h : Writes c W mm mm') (h' : Writes c W mm' mm'') : Writes c W mm mm'' :=
  ⟨fun d hd => (h'.other d hd).trans (h.other d hd), h.same.trans h'.same⟩

theorem mono (h : Writes c W mm mm') (hW : ∀ x, W x → W' x) : Writes c W' mm mm' :=
  ⟨h.other, h.same.mono hW⟩

theorem setData {m : Mem} (h : Mem.SameOff W (mm.data c) m) : Writes c W mm (mm.setData c m) where
  other d hd := Function.update_of_ne hd ..
  same := by
    simp only [Memory.setData, Function.update_self]
    exact h

theorem foldl {β : Type*} {f : Memory → β → Memory} {l : List β}
    (hf : ∀ b ∈ l, ∀ mm, Writes c W mm (f mm b)) (mm : Memory) : Writes c W mm (l.foldl f mm) := by
  induction l generalizing mm with
  | nil => exact refl c W mm
  | cons b l ih =>
      exact (hf b List.mem_cons_self mm).trans
        (ih (fun d hd => hf d (List.mem_cons_of_mem b hd)) (f mm b))

theorem foldlM {β : Type*} {f : Memory → β → Option Memory} {l : List β}
    (hf : ∀ b ∈ l, ∀ mm mm', f mm b = some mm' → Writes c W mm mm')
    (h : l.foldlM f mm = some mm') : Writes c W mm mm' :=
  foldlM_invariant (P := Writes c W mm) (fun b hb _ _ hs hp => hp.trans (hf b hb _ _ hs)) h
    (refl c W mm)

end Memory.Writes

namespace Memory

theorem mem_columns {lo hi i : Nat} : i ∈ columns lo hi ↔ lo ≤ i ∧ i < hi := by
  simp only [columns, List.mem_iff_getElem?, List.getElem?_drop]
  constructor
  · rintro ⟨k, hk⟩
    obtain ⟨hlt, rfl⟩ := List.getElem?_eq_some_iff.mp hk
    rw [List.length_range] at hlt
    rw [List.getElem_range]
    omega
  · rintro ⟨hlo, hhi⟩
    refine ⟨i - lo, ?_⟩
    rw [Nat.add_sub_cancel' hlo, List.getElem?_range hhi]

theorem columns_eq (lo hi : Nat) : columns lo hi = List.range' lo (hi - lo) := by
  rw [columns, List.range_eq_range', List.drop_range', Nat.zero_add, Nat.mul_one]

theorem nodup_columns (lo hi : Nat) : (columns lo hi).Nodup :=
  List.nodup_range.sublist (List.drop_sublist _ _)

/-- `chunk::move`. -/
theorem moveWithin_writes (mm : Memory) (a : Archetype) (ct : AllocType) (dst : ChunkSlice)
    (srcIndex : Nat) :
    Writes dst.c (a.Span ct dst.start dst.count) mm (mm.moveWithin a ct dst srcIndex) := by
  apply Writes.setData
  apply Mem.SameOff.foldl
  intro i hi m
  rw [List.mem_range] at hi
  apply Mem.SameOff.copy
  intro x hx hx'
  rw [Nat.mul_comm] at hx'
  exact Archetype.span_of_range hi hx hx'

theorem sameOff_newBuffer {W : Nat → Prop} (m : Mem) {addr : Nat} (cap : Nat)
    (hW : ∀ x, addr ≤ x → x < addr + sizeofBuffer → W x) :
    Mem.SameOff W m (Mem.newBuffer m addr cap) := by
  unfold Mem.newBuffer
  have hbuf : sizeofBuffer = 16 := rfl
  refine ((Mem.SameOff.writeWord 0 ?_).trans (Mem.SameOff.writeWord 0 ?_)).trans
    (Mem.SameOff.writeWord cap ?_)
  · exact fun x hx hx' => hW x hx (by omega)
  · exact fun x hx hx' => hW x (by omega) (by omega)
  · exact fun x hx hx' => hW x (by omega) (by omega)

/-- The constructors of one buffer column. -/
theorem constructBuffers_sameOff {a : Archetype} (hl : Layout a) (m : Mem) (ct : AllocType)
    {i start count : Nat} (hi : a.firstBuffer ≤ i) (hi' : i < a.firstManaged) :
    Mem.SameOff (a.Span ct start count) m (constructBuffers m a ct i start count) := by
  apply Mem.SameOff.foldl
  intro j hj m
  rw [List.mem_range] at hj
  apply sameOff_newBuffer
  intro x hx hx'
  refine Archetype.span_of_element (hi'.trans_le hl.managed_le) hj hx ?_
  have hw : sizeofBuffer ≤ a.width i := by
    unfold Archetype.width
    rw [if_pos ⟨hi, hi'⟩]
    exact Nat.le_max_right ..
  omega

/-- The constructors of one managed column. -/
theorem constructManaged_sameOff (ctx : Context) {a : Archetype} (m : Mem) (ct : AllocType)
    {i start count : Nat} (hi : i < a.firstTag) :
    Mem.SameOff (a.Span ct start count) m (constructManaged ctx m a ct i start count) := by
  unfold constructManaged
  split
  · exact .refl _ _
  · rename_i bs _
    apply Mem.SameOff.foldl
    intro j hj m
    rw [List.mem_range] at hj
    apply Mem.SameOff.write
    intro x hx hx'
    refine Archetype.span_of_element hi hj hx ?_
    have h1 := List.length_take_le (a.size i) bs
    have h2 := a.size_le_width i
    omega

/-- `chunk::construct`. -/
theorem construct_writes {ctx : Context} (hm : ctx.maskId < 3 * 2 ^ 30) (mm : Memory)
    {a : Archetype} (hl : Layout a) (ct : AllocType) (s : ChunkSlice) :
    Writes s.c (a.Span ct s.start s.count) mm (mm.construct ctx a ct s) := by
  have hfill : ∀ (m : Mem) (b : UInt8) {i : Nat}, i < a.firstTag →
      Mem.SameOff (a.Span ct s.start s.count) m
        (Mem.fill m (a.address ct i s.start) b (a.size i * s.count)) := by
    intro m b i hi
    apply Mem.SameOff.fill
    intro x hx hx'
    exact Archetype.span_of_range hi hx hx'
  have hpod : ∀ m, Mem.SameOff (a.Span ct s.start s.count) m
      ((columns 0 a.firstBuffer).foldl (fun m i =>
        Mem.fill m (a.address ct i s.start) 0 (a.size i * s.count)) m) := by
    apply Mem.SameOff.foldl
    intro i hi m
    exact hfill m 0 ((mem_columns.mp hi).2.trans_le (hl.buffer_le.trans hl.managed_le))
  have hbuf : ∀ m, Mem.SameOff (a.Span ct s.start s.count) m
      ((columns a.firstBuffer a.firstManaged).foldl (fun m i =>
        constructBuffers m a ct i s.start s.count) m) := by
    apply Mem.SameOff.foldl
    intro i hi m
    obtain ⟨hlo, hhi⟩ := mem_columns.mp hi
    exact constructBuffers_sameOff hl m ct hlo hhi
  have hman : ∀ m, Mem.SameOff (a.Span ct s.start s.count) m
      ((columns a.firstManaged a.firstTag).foldl (fun m i =>
        constructManaged ctx m a ct i s.start s.count) m) := by
    apply Mem.SameOff.foldl
    intro i hi m
    exact constructManaged_sameOff ctx m ct (mem_columns.mp hi).2
  apply Writes.setData
  split_ifs with hne
  · exact ((hpod _).trans (hbuf _)).trans (hman _)
  · exact (((hpod _).trans (hbuf _)).trans (hman _)).trans
      (hfill _ 0xff (hl.index_lt hm hne))

/-! ## `chunk::cast` -/

/-- The column of the destination a step writes. -/
def CastStep.dst? : CastStep → Option Nat
  | .drop _ => none
  | .make d => some d
  | .move _ d => some d

@[simp] theorem CastStep.dst_drop (i : Nat) : (CastStep.drop i).dst? = none := rfl

@[simp] theorem CastStep.dst_make (d : Nat) : (CastStep.make d).dst? = some d := rfl

@[simp] theorem CastStep.dst_move (i d : Nat) : (CastStep.move i d).dst? = some d := rfl

theorem dst_castStepsFrom {valid : TypeIndex → TypeIndex} {s : Nat × TypeIndex}
    {rest : List (Nat × TypeIndex) → List CastStep} {P : Nat → Prop}
    (hrest : ∀ ds, (∀ e ∈ ds, P e.1) → ∀ st ∈ rest ds, ∀ d, st.dst? = some d → P d)
    {ds : List (Nat × TypeIndex)} (hds : ∀ e ∈ ds, P e.1) :
    ∀ st ∈ castStepsFrom valid s rest ds, ∀ d, st.dst? = some d → P d := by
  induction ds with
  | nil =>
      intro st hst d hd
      rw [castStepsFrom] at hst
      rcases List.mem_cons.mp hst with rfl | hst
      · simp [CastStep.dst?] at hd
      · exact hrest [] (by simp) st hst d hd
  | cons e ds ih =>
      have htail : ∀ f ∈ ds, P f.1 := fun f hf => hds f (List.mem_cons_of_mem e hf)
      have hhead : ∀ d, some e.1 = some d → P d := by
        intro d hd
        exact Option.some.inj hd ▸ hds e List.mem_cons_self
      intro st hst d hd
      rw [castStepsFrom] at hst
      split_ifs at hst
      · rcases List.mem_cons.mp hst with rfl | hst
        · simp [CastStep.dst?] at hd
        · exact hrest _ hds st hst d hd
      · rcases List.mem_cons.mp hst with rfl | hst
        · exact hhead d hd
        · exact ih htail st hst d hd
      · rcases List.mem_cons.mp hst with rfl | hst
        · exact hhead d hd
        · exact hrest ds htail st hst d hd

/-- The steps of a phase write columns of the segment of the destination. -/
theorem dst_castSteps {valid : TypeIndex → TypeIndex} {P : Nat → Prop}
    {ss ds : List (Nat × TypeIndex)} (hds : ∀ e ∈ ds, P e.1) :
    ∀ st ∈ castSteps valid ss ds, ∀ d, st.dst? = some d → P d := by
  induction ss generalizing ds with
  | nil =>
      intro st hst d hd
      obtain ⟨e, he, rfl⟩ := List.mem_map.mp hst
      exact Option.some.inj hd ▸ hds e he
  | cons s ss ih => exact dst_castStepsFrom (fun ds h => ih h) hds

theorem dst_segmentOf {a b : Archetype} {valid : TypeIndex → TypeIndex} {lo hi lo' hi' : Nat}
    {st : CastStep} (hst : st ∈ castSteps valid (segmentOf a lo hi) (segmentOf b lo' hi'))
    {d : Nat} (hd : st.dst? = some d) : lo' ≤ d ∧ d < hi' := by
  refine dst_castSteps (P := fun d => lo' ≤ d ∧ d < hi') (fun e he => ?_) st hst d hd
  obtain ⟨i, hi, rfl⟩ := List.mem_map.mp he
  exact mem_columns.mp hi

section Cast

variable {dst src : CastSide} {count : Nat}

theorem moveColumn_writes (mm : Memory) {srcI dstI : Nat} (hi : dstI < dst.a.firstTag) :
    Writes dst.c (dst.a.Span dst.ct dst.start count) mm
      (mm.moveColumn dst src srcI dstI count) := by
  apply Writes.setData
  apply Mem.SameOff.copy
  intro x hx hx'
  exact Archetype.span_of_range hi hx hx'

theorem castPod_writes (mm : Memory) {st : CastStep}
    (hst : ∀ d, st.dst? = some d → d < dst.a.firstTag) :
    Writes dst.c (dst.a.Span dst.ct dst.start count) mm (mm.castPod dst src count st) := by
  cases st with
  | drop s => exact .refl _ _ _
  | make d =>
      apply Writes.setData
      apply Mem.SameOff.fill
      intro x hx hx'
      exact Archetype.span_of_range (hst d rfl) hx hx'
  | move s d => exact moveColumn_writes mm (hst d rfl)

theorem destroyBuffer_data {mm mm' : Memory} {c : ChunkId} {addr : Nat}
    (h : mm.destroyBuffer c addr = some mm') : mm'.data = mm.data := by
  simp only [destroyBuffer] at h
  split_ifs at h
  · rw [Option.some.inj h]
  · split at h
    · rw [← Option.some.inj h]
    · simp at h

theorem destroyBuffers_data {mm mm' : Memory} {s : CastSide} {i : Nat}
    (h : mm.destroyBuffers s i count = some mm') : mm'.data = mm.data :=
  foldlM_invariant (P := fun m : Memory => m.data = mm.data)
    (fun _ _ _ _ hs hp => (destroyBuffer_data hs).trans hp) h rfl

theorem castBuffer_writes {mm mm' : Memory} (hl : Layout dst.a) {destruct : Bool} {st : CastStep}
    (hst : ∀ d, st.dst? = some d → dst.a.firstBuffer ≤ d ∧ d < dst.a.firstManaged)
    (h : mm.castBuffer dst src count destruct st = some mm') :
    Writes dst.c (dst.a.Span dst.ct dst.start count) mm mm' := by
  cases st with
  | drop s =>
      simp only [castBuffer] at h
      split_ifs at h
      · exact .of_data (destroyBuffers_data h)
      · rw [← Option.some.inj h]
        exact .refl _ _ _
  | make d =>
      obtain rfl := Option.some.inj h
      obtain ⟨hlo, hhi⟩ := hst d rfl
      exact Writes.setData (constructBuffers_sameOff hl _ _ hlo hhi)
  | move s d =>
      obtain rfl := Option.some.inj h
      exact moveColumn_writes mm ((hst d rfl).2.trans_le hl.managed_le)

theorem castManaged_writes (ctx : Context) (mm : Memory) {st : CastStep}
    (hst : ∀ d, st.dst? = some d → d < dst.a.firstTag) :
    Writes dst.c (dst.a.Span dst.ct dst.start count) mm
      (mm.castManaged ctx dst src count st) := by
  cases st with
  | drop s => exact .refl _ _ _
  | make d => exact Writes.setData (constructManaged_sameOff ctx _ _ (hst d rfl))
  | move s d => exact moveColumn_writes mm (hst d rfl)

/-- `chunk::cast` writes the cells of the destination slots only. -/
theorem cast_writes {ctx : Context} (hm : ctx.maskId < 3 * 2 ^ 30) {mm mm' : Memory}
    (hl : Layout dst.a) {destruct : Bool} (h : mm.cast ctx dst src count destruct = some mm') :
    Writes dst.c (dst.a.Span dst.ct dst.start count) mm mm' := by
  simp only [cast, Option.bind_eq_bind, Option.bind_eq_some_iff] at h
  obtain ⟨mm₁, h₁, h⟩ := h
  have hpod : ∀ mm : Memory, Writes dst.c (dst.a.Span dst.ct dst.start count) mm
      ((castSteps ctx.toValidType (segmentOf src.a 0 src.a.firstBuffer)
        (segmentOf dst.a 0 dst.a.firstBuffer)).foldl (fun mm =>
          mm.castPod dst { src with start := src.start % 2 ^ 16 } count) mm) := by
    apply Writes.foldl
    intro st hst mm
    apply castPod_writes
    intro d hd
    exact (dst_segmentOf hst hd).2.trans_le (hl.buffer_le.trans hl.managed_le)
  have hbuf := Writes.foldlM (fun st hst _ _ hs =>
    castBuffer_writes hl (fun d hd => dst_segmentOf hst hd) hs) h₁
  have hman : Writes dst.c (dst.a.Span dst.ct dst.start count) mm₁
      ((castSteps ctx.toValidType (segmentOf src.a src.a.firstManaged src.a.firstTag)
        (segmentOf dst.a dst.a.firstManaged dst.a.firstTag)).foldl (fun mm =>
          mm.castManaged ctx dst { src with start := src.start % 2 ^ 16 } count) mm₁) := by
    apply Writes.foldl
    intro st hst mm
    apply castManaged_writes
    intro d hd
    exact (dst_segmentOf hst hd).2
  have hall := ((hpod mm).trans hbuf).trans hman
  split_ifs at h with hd hs hz
  · exact Option.some.inj h ▸ hall
  · obtain rfl := Option.some.inj h
    refine hall.trans (Writes.setData (Mem.SameOff.fill _ ?_))
    intro x hx hx'
    exact Archetype.span_of_range (hl.index_lt hm hd) hx hx'
  · exact Option.some.inj h ▸ hall

end Cast

/-! ## `chunk::duplicate` -/

section Duplicate

variable {src : CastSide} {dst : ChunkSlice}

/-- At or behind the address of a column at `slot`, in the layout of the source. -/
def Behind (src : CastSide) (slot x : Nat) : Prop :=
  ∃ i < src.a.firstTag, src.a.address src.ct i slot ≤ x

theorem memdup_sameOff {W : Nat → Prop} {m src : Mem} {d s size count : Nat}
    (hW : ∀ x, d ≤ x → W x) : Mem.SameOff W m (Mem.memdup m d src s size count) := by
  have hrounds : ∀ fuel m copied, Mem.SameOff W m (Mem.memdupRounds m d size count fuel copied) := by
    intro fuel
    induction fuel with
    | zero => exact fun m _ => .refl W m
    | succ fuel ih =>
        intro m copied
        rw [Mem.memdupRounds]
        split_ifs
        · exact (Mem.SameOff.copy _ _ fun x hx _ => hW x (by omega)).trans (ih _ _)
        · exact .refl W m
  exact (Mem.SameOff.copy _ _ fun x hx _ => hW x hx).trans (hrounds _ _ _)

theorem duplicatePod_writes (ctx : Context) (mm : Memory) {i : Nat} (hi : i < src.a.firstTag) :
    Writes dst.c (Behind src dst.start) mm (duplicatePod ctx src dst mm i) := by
  unfold duplicatePod
  dsimp only
  split_ifs
  · refine ⟨fun d hd => Function.update_of_ne hd .., ?_⟩
    change Mem.SameOff _ _ (Function.update mm.data dst.c _ dst.c)
    rw [Function.update_self]
    apply Mem.SameOff.foldl
    intro j _ m
    exact Mem.SameOff.write fun x hx _ => ⟨i, hi, by omega⟩
  · exact Writes.setData (memdup_sameOff fun x hx => ⟨i, hi, hx⟩)

theorem cloneBuffer_writes {W : Nat → Prop} {mm mm' : Memory} {c : ChunkId} {addr : Nat}
    (hW : ∀ x, addr ≤ x → W x) (h : mm.cloneBuffer c addr = some mm') :
    Writes c W mm mm' := by
  simp only [cloneBuffer] at h
  split_ifs at h
  · exact Option.some.inj h ▸ .refl _ _ _
  · split at h
    · simp at h
    · obtain rfl := Option.some.inj h
      have hm : ∀ size bytes, Writes c W mm (mm.malloc size bytes).1 :=
        fun _ _ => .of_data rfl
      exact (hm _ _).trans (Writes.setData (Mem.SameOff.writeWord _ fun x hx _ => hW x hx))

theorem duplicateBuffer_writes {mm mm' : Memory} {i : Nat} (hi : i < src.a.firstTag)
    (h : duplicateBuffer src dst mm i = some mm') :
    Writes dst.c (Behind src dst.start) mm mm' := by
  refine (Writes.setData (memdup_sameOff fun x hx => ⟨i, hi, hx⟩)).trans
    (Writes.foldlM (fun j _ _ _ hs => ?_) h)
  exact cloneBuffer_writes (fun x hx => ⟨i, hi, by omega⟩) hs

theorem duplicateManaged_writes (ctx : Context) (mm : Memory) {i : Nat} (hi : i < src.a.firstTag) :
    Writes dst.c (Behind src dst.start) mm (duplicateManaged ctx src dst mm i) := by
  unfold duplicateManaged
  split
  · exact .refl _ _ _
  · apply Writes.setData
    apply Mem.SameOff.foldl
    intro j _ m
    exact Mem.SameOff.write fun x hx _ => ⟨i, hi, by omega⟩

theorem duplicateColumns_writes {ctx : Context} {a b : Archetype} {c : ChunkId} {W : Nat → Prop}
    {f : Memory → Nat → Option Memory} {is : List Nat}
    (hf : ∀ i ∈ is, ∀ mm mm', f mm i = some mm' → Writes c W mm mm') {mm : Memory} {dstI : Nat}
    {r : Memory × Nat} (h : duplicateColumns ctx a b f is mm dstI = some r) :
    Writes c W mm r.1 := by
  refine foldlM_invariant (P := fun s : Memory × Nat => Writes c W mm s.1) ?_ h (.refl _ _ _)
  rintro i hi ⟨mm₁, d⟩ s' hs hp
  dsimp only at hs
  split_ifs at hs
  · obtain ⟨mm₂, hm, rfl⟩ := Option.map_eq_some_iff.mp hs
    exact hp.trans (hf i hi _ _ hm)
  · exact Option.some.inj hs ▸ hp

/-- `chunk::duplicate` writes from the columns of its source on, taken at the first
slot of the destination: in a larger bin these bytes may be handles. -/
theorem duplicate_writes {ctx : Context} {mm mm' : Memory} (hl : Layout src.a)
    {dstType : Archetype} (h : mm.duplicate ctx dstType dst src = some mm') :
    Writes dst.c (Behind src dst.start) mm mm' := by
  simp only [duplicate, Option.bind_eq_bind, Option.bind_eq_some_iff] at h
  obtain ⟨⟨mm₁, d₁⟩, h₁, ⟨mm₂, d₂⟩, h₂, h⟩ := h
  obtain rfl := Option.some.inj h
  generalize hsrc : ({ src with start := src.start % 2 ^ 16 } : CastSide) = src' at h₁ h₂
  have hbehind : Behind src' = Behind src := hsrc ▸ rfl
  have ha : src'.a = src.a := hsrc ▸ rfl
  rw [← hbehind]
  have hpod : Writes dst.c (Behind src' dst.start) mm mm₁ := by
    refine duplicateColumns_writes ?_ h₁
    intro i hi mm mm' hs
    obtain rfl := Option.some.inj hs
    apply duplicatePod_writes
    rw [ha]
    exact (mem_columns.mp hi).2.trans_le (hl.buffer_le.trans hl.managed_le)
  have hman : Writes dst.c (Behind src' dst.start) mm₁
      ((columns src.a.firstManaged src.a.firstTag).foldl
        (duplicateManaged ctx src' dst) mm₁) := by
    apply Writes.foldl
    intro i hi mm
    apply duplicateManaged_writes
    rw [ha]
    exact (mem_columns.mp hi).2
  have hbuf : Writes dst.c (Behind src' dst.start)
      ((columns src.a.firstManaged src.a.firstTag).foldl
        (duplicateManaged ctx src' dst) mm₁) mm₂ := by
    refine duplicateColumns_writes ?_ h₂
    intro i hi mm mm' hs
    refine duplicateBuffer_writes ?_ hs
    rw [ha]
    exact (mem_columns.mp hi).2.trans_le hl.managed_le
  exact (hpod.trans hman).trans hbuf

end Duplicate

end Memory

end Dots

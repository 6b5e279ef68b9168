import Dots.Database.Cells

/-!
# `chunk::duplicate`

The columns of the destination are addressed with the offsets of the source's bin. Where these are
the columns of the destination's bin too, each instance gets the bytes of the source, with blocks of
its own for its buffers.
-/

namespace Dots

open Library

namespace Mem

variable {m src : Mem} {d s size count copied fuel : Nat}

/-! ## `memdup` -/

/-- A round doubles the elements that are there. -/
theorem memdupRounds_at {v : Nat → UInt8} (hpos : 0 < copied) (hfuel : count ≤ copied + fuel)
    (h : ∀ j < copied, ∀ y < size, m (d + size * j + y) = v y) :
    ∀ j < count, ∀ y < size, memdupRounds m d size count fuel copied (d + size * j + y) = v y := by
  induction fuel generalizing m copied with
  | zero => exact fun j hj => h j (by omega)
  | succ fuel ih =>
      intro j hj
      rw [memdupRounds]
      split_ifs with hlt
      · refine ih (by omega) (by omega) (fun l hl y hy => ?_) j hj
        have hmul := Nat.mul_comm copied size
        have hmul' := Nat.mul_comm (min copied (count - copied)) size
        by_cases hold : l < copied
        · have hstep := Nat.mul_le_mul_left size (Nat.succ_le_of_lt hold)
          rw [Nat.mul_succ] at hstep
          rw [Mem.copy_of_lt _ _ _ _ (by omega)]
          exact h l hold y hy
        · obtain ⟨l, rfl⟩ := Nat.exists_eq_add_of_le (Nat.not_lt.mp hold)
          have hl' : l < min copied (count - copied) := by omega
          have hstep := Nat.mul_le_mul_left size (Nat.succ_le_of_lt hl')
          rw [Nat.mul_succ] at hstep
          rw [Nat.mul_add, Mem.copy_of_mem _ _ _ (by omega) (by omega),
            show d + (d + (size * copied + size * l) + y - (d + copied * size)) =
              d + size * l + y by omega]
          exact h l (by omega) y hy
      · exact fun y hy => h j (by omega) y hy

theorem memdupRounds_off (hpos : 0 < copied) :
    Mem.SameOff (fun x => d ≤ x ∧ x < d + size * count) m
      (memdupRounds m d size count fuel copied) := by
  induction fuel generalizing m copied with
  | zero => exact .refl _ _
  | succ fuel ih =>
      rw [memdupRounds]
      split_ifs with hlt
      · refine (Mem.SameOff.copy _ _ fun x hx hx' => ?_).trans (ih (by omega))
        have hmul := Nat.mul_le_mul_left size
          (show copied + min copied (count - copied) ≤ count by omega)
        rw [Nat.mul_add, Nat.mul_comm size copied, Nat.mul_comm size (min _ _)] at hmul
        exact ⟨by omega, by omega⟩
      · exact .refl _ _

/-- Every element is the one that was copied. -/
theorem memdup_at (m : Mem) (d : Nat) (src : Mem) (s : Nat) {j y : Nat} (hj : j < count)
    (hy : y < size) : memdup m d src s size count (d + size * j + y) = src (s + y) := by
  refine memdupRounds_at Nat.one_pos (by omega) (v := fun y => src (s + y)) ?_ j hj y hy
  intro l hl z hz
  obtain rfl : l = 0 := by omega
  rw [Nat.mul_zero, Nat.add_zero, Mem.copy_of_mem _ _ _ (by omega) (by omega),
    Nat.add_sub_cancel_left]

theorem memdup_off (m : Mem) (d : Nat) (src : Mem) (s size : Nat) (hpos : 0 < count) :
    Mem.SameOff (fun x => d ≤ x ∧ x < d + size * count) m (memdup m d src s size count) := by
  have hsize := Nat.mul_le_mul_left size (Nat.succ_le_of_lt hpos)
  rw [Nat.mul_one] at hsize
  exact (Mem.SameOff.copy _ _ fun x hx hx' => ⟨hx, by omega⟩).trans (memdupRounds_off Nat.one_pos)

end Mem

namespace Memory

variable {ctx : Context} {mm mm' : Memory} {src : CastSide} {s : ChunkSlice} {ct : AllocType}
  {i j k n : Nat}

/-- The elements of a column in the slots of a slice. -/
def Strip (a : Archetype) (ct : AllocType) (k : Nat) (s : ChunkSlice) (x : Nat) : Prop :=
  a.address ct k s.start ≤ x ∧ x < a.address ct k s.start + a.size k * s.count

/-- The slots of `s` are slots of the source's layout in bin `ct`, where the columns start as they
do in the bin of the source, and the source is not one of them. -/
structure Fits (src : CastSide) (s : ChunkSlice) (ct : AllocType) : Prop where
  layout : Layout src.a
  offsets : ∀ k < src.a.firstTag, src.a.offsets ct k = src.a.offsets src.ct k
  slots : s.start + s.count ≤ src.a.chunkCapacity ct
  pos : 0 < s.count
  source : src.start < src.a.chunkCapacity src.ct
  apart : s.c = src.c → ct = src.ct ∧ (src.start < s.start ∨ s.start + s.count ≤ src.start)

/-- `memdup(dstData, srcData, sizes[i], dst.count)`. -/
def dupColumn (src : CastSide) (s : ChunkSlice) (mm : Memory) (i : Nat) : Memory :=
  mm.setData s.c (Mem.memdup (mm.data s.c) (src.a.address src.ct i s.start) (mm.data src.c)
    (src.address i 0) (src.a.size i) s.count)

theorem dupColumn_writes (hpos : 0 < s.count) (mm : Memory) (i : Nat) :
    Writes s.c (Strip src.a src.ct i s) mm (dupColumn src s mm i) :=
  Writes.setData (Mem.memdup_off _ _ _ _ _ hpos)

theorem dupColumn_at (mm : Memory) {y : Nat} (hj : j < s.count) (hy : y < src.a.size i) :
    (dupColumn src s mm i).data s.c (src.a.address src.ct i (s.start + j) + y) =
      mm.data src.c (src.address i 0 + y) := by
  simp only [dupColumn, setData, Function.update_self, Archetype.address_add]
  exact Mem.memdup_at _ _ _ _ hj hy

/-- An element of the slice is in its strip. -/
theorem strip_of_element {a : Archetype} {ct : AllocType} {y : Nat} (hj : j < s.count)
    (hy : y < a.size k) : Strip a ct k s (a.address ct k (s.start + j) + y) := by
  have hmul := Nat.mul_le_mul_left (a.size k) (Nat.succ_le_of_lt hj)
  rw [Nat.mul_succ] at hmul
  rw [Archetype.address_add]
  exact ⟨by omega, by omega⟩

theorem Fits.strip_eq (hf : Fits src s ct) (hk : k < src.a.firstTag) :
    Strip src.a src.ct k s = Strip src.a ct k s := by
  funext x
  simp only [Strip, Archetype.address, hf.offsets k hk]

theorem Fits.strip_column (hf : Fits src s ct) (hk : k < src.a.firstTag) {x : Nat}
    (hx : Strip src.a src.ct k s x) : src.a.Column ct k x := by
  rw [hf.strip_eq hk] at hx
  exact Archetype.column_of_range hf.slots hx.1 hx.2

theorem Fits.strip_apart (hf : Fits src s ct) (hi : i < src.a.firstTag) (hk : k < src.a.firstTag)
    (hne : i ≠ k) {x : Nat} (hx : Strip src.a src.ct i s x) : ¬ Strip src.a src.ct k s x :=
  fun hx' => (hf.strip_column hi hx).apart hf.layout hi hk hne (hf.strip_column hk hx')

/-- The source is in no strip. -/
theorem Fits.source_off (hf : Fits src s ct) (hi : i < src.a.firstTag) (hk : k < src.a.firstTag)
    (hc : s.c = src.c) {y : Nat} (hy : y < src.a.size i) :
    ¬ Strip src.a src.ct k s (src.address i 0 + y) := by
  obtain ⟨rfl, hapart⟩ := hf.apart hc
  intro hx
  exact Archetype.Cells.not_cell hf.layout hf.slots hi hf.source hapart hy ⟨k, hk, hx⟩

/-- The bytes of the source do not change. -/
theorem Fits.source_same (hf : Fits src s ct) {W : Nat → Prop}
    (hW : ∀ x, W x → ∃ k < src.a.firstTag, Strip src.a src.ct k s x) (h : Writes s.c W mm mm')
    (hi : i < src.a.firstTag) {y : Nat} (hy : y < src.a.size i) :
    mm'.data src.c (src.address i 0 + y) = mm.data src.c (src.address i 0 + y) := by
  by_cases hc : src.c = s.c
  · rw [hc]
    refine h.same _ fun hx => ?_
    obtain ⟨k, hk, hx⟩ := hW _ hx
    exact hf.source_off hi hk hc.symm hy hx
  · rw [h.other _ hc]

/-- The plain columns. -/
theorem dupColumns_spec (hf : Fits src s ct) {is : List Nat} (hnd : is.Nodup)
    (his : ∀ i ∈ is, i < src.a.firstTag) (mm : Memory) :
    Writes s.c (fun x => ∃ i ∈ is, Strip src.a src.ct i s x) mm (is.foldl (dupColumn src s) mm) ∧
    ((is.foldl (dupColumn src s) mm).heap = mm.heap ∧
      (is.foldl (dupColumn src s) mm).freshBlock = mm.freshBlock) ∧
    ∀ i ∈ is, ∀ j < s.count, ∀ y < src.a.size i,
      (is.foldl (dupColumn src s) mm).data s.c (src.a.address src.ct i (s.start + j) + y) =
        mm.data src.c (src.address i 0 + y) := by
  induction is generalizing mm with
  | nil => exact ⟨.refl _ _ _, ⟨rfl, rfl⟩, by simp⟩
  | cons i is ih =>
      obtain ⟨hnot, hnd⟩ := List.nodup_cons.mp hnd
      have hi := his i List.mem_cons_self
      have his' : ∀ k ∈ is, k < src.a.firstTag := fun k hk => his k (List.mem_cons_of_mem i hk)
      obtain ⟨hwrites, hheap, hcells⟩ := ih hnd his' (dupColumn src s mm i)
      have hhead : Writes s.c (Strip src.a src.ct i s) mm (dupColumn src s mm i) :=
        dupColumn_writes hf.pos mm i
      refine ⟨?_, hheap, fun k hk j hj y hy => ?_⟩
      · exact (hhead.mono fun x hx => ⟨i, List.mem_cons_self, hx⟩).trans
          (hwrites.mono fun x ⟨k, hk, hx⟩ => ⟨k, List.mem_cons_of_mem i hk, hx⟩)
      · rcases List.mem_cons.mp hk with rfl | hk
        · rw [List.foldl_cons, hwrites.same, dupColumn_at mm hj hy]
          rintro ⟨l, hl, hx⟩
          exact hf.strip_apart hi (his' l hl) (fun h => hnot (h ▸ hl)) (strip_of_element hj hy) hx
        · rw [List.foldl_cons, hcells k hk j hj y hy]
          exact hf.source_same (fun x hx => ⟨i, hi, hx⟩) hhead (his' k hk) hy

/-! ## The buffers -/

/-- `malloc` returns the address of no live block, and not null. -/
structure Mallocs (mm : Memory) : Prop where
  pos : 0 < mm.freshBlock
  fresh : ∀ d, mm.freshBlock ≤ d → mm.heap d = none

theorem Mallocs.lt_of_block {d : Nat} {block : Block} (hm : mm.Mallocs)
    (h : mm.heap d = some block) : d < mm.freshBlock := by
  by_contra hge
  rw [hm.fresh d (Nat.not_lt.mp hge)] at h
  exact absurd h (Option.some_ne_none block).symm

/-- What `new_block` holds of a buffer that is copied. -/
def blockCopy (size : Nat) (block : Block) : Block :=
  { size := size, bytes := Mem.copy (fun _ => 0) 0 block.bytes 0 size }

theorem cloneBuffer_null {c : ChunkId} {addr : Nat} (hd : (Mem.readBuffer (mm.data c) addr).d = 0) :
    mm.cloneBuffer c addr = some mm := by
  rw [cloneBuffer]
  exact if_pos hd

theorem cloneBuffer_block {c : ChunkId} {addr d : Nat}
    (hd : (Mem.readBuffer (mm.data c) addr).d = d) (hne : d ≠ 0)
    (h : mm.cloneBuffer c addr = some mm') : ∃ block, mm.heap d = some block ∧
      mm'.data = Function.update mm.data c (Mem.writeWord (mm.data c) addr mm.freshBlock 8) ∧
      mm'.heap = Function.update mm.heap mm.freshBlock
        (some (blockCopy (Mem.readBuffer (mm.data c) addr).size block)) ∧
      mm'.freshBlock = mm.freshBlock + 1 := by
  rw [cloneBuffer] at h
  simp only [hd, if_neg hne] at h
  cases hblock : mm.heap d with
  | none => simp [hblock] at h
  | some block =>
      simp only [hblock] at h
      obtain rfl := Option.some.inj h
      exact ⟨block, rfl, rfl, rfl, rfl⟩

/-- The loop over the buffers of a column, when they are inline. -/
theorem clones_null {c : ChunkId} (addr : Nat → Nat) {l : List Nat}
    (hd : ∀ j ∈ l, (Mem.readBuffer (mm.data c) (addr j)).d = 0) :
    l.foldlM (fun mm j => mm.cloneBuffer c (addr j)) mm = some mm := by
  induction l with
  | nil => rfl
  | cons j l ih =>
      rw [List.foldlM_cons, cloneBuffer_null (hd j List.mem_cons_self), Option.bind_eq_bind,
        Option.bind_some]
      exact ih fun l hl => hd l (List.mem_cons_of_mem j hl)

/-- What the loop over the buffers of a column leaves after `n` of them. -/
structure ClonesOf (c : ChunkId) (addr : Nat → Nat) (size : Nat) (block : Block) (n : Nat)
    (mm mm' : Memory) : Prop where
  writes : Writes c (fun x => ∃ j < n, addr j ≤ x ∧ x < addr j + 8) mm mm'
  freshBlock : mm'.freshBlock = mm.freshBlock + n
  heap : ∀ e < mm.freshBlock, mm'.heap e = mm.heap e
  beyond : ∀ e, mm'.freshBlock ≤ e → mm'.heap e = none
  block : ∀ j < n, Mem.readWord (mm'.data c) (addr j) 8 = mm.freshBlock + j ∧
    mm'.heap (mm.freshBlock + j) = some (blockCopy size block)

theorem ClonesOf.zero {c : ChunkId} {addr : Nat → Nat} {size : Nat} {block : Block}
    (hm : mm.Mallocs) : ClonesOf c addr size block 0 mm mm where
  writes := .refl _ _ _
  freshBlock := rfl
  heap _ _ := rfl
  beyond := hm.fresh
  block j hj := absurd hj (Nat.not_lt_zero j)

/-- One buffer more. -/
theorem ClonesOf.succ {c : ChunkId} {addr : Nat → Nat} {size d n : Nat} {block : Block}
    {mm₁ mm₂ : Memory} (happart : ∀ j l, j < l → addr j + sizeofBuffer ≤ addr l)
    (hm : mm.Mallocs) (h : ClonesOf c addr size block n mm mm₁)
    (hd : (Mem.readBuffer (mm.data c) (addr n)).d = d)
    (hsize : (Mem.readBuffer (mm.data c) (addr n)).size = size) (hne : d ≠ 0)
    (hblock : mm.heap d = some block) (hspace : mm.freshBlock + n < 2 ^ 64)
    (hs : mm₁.cloneBuffer c (addr n) = some mm₂) : ClonesOf c addr size block (n + 1) mm mm₂ := by
  have hbuf : sizeofBuffer = 16 := rfl
  have hlive : d < mm.freshBlock := hm.lt_of_block hblock
  -- the header of this buffer is still the one that was copied
  have hsame : ∀ y < sizeofBuffer, mm₁.data c (addr n + y) = mm.data c (addr n + y) := by
    intro y hy
    refine h.writes.same _ ?_
    rintro ⟨j, hj, -, hhi⟩
    have := happart j n hj
    omega
  have hheader : Mem.readBuffer (mm₁.data c) (addr n) = Mem.readBuffer (mm.data c) (addr n) :=
    readBuffer_congr hsame
  have hd₁ : (Mem.readBuffer (mm₁.data c) (addr n)).d = d := by rw [hheader, hd]
  obtain ⟨block', hblock', hdata, hheap, hfresh⟩ := cloneBuffer_block hd₁ hne hs
  rw [h.heap d hlive, hblock, Option.some.injEq] at hblock'
  subst hblock'
  rw [hheader, hsize, h.freshBlock] at hheap
  rw [h.freshBlock] at hdata hfresh
  constructor
  · refine (h.writes.mono fun x ⟨j, hj, hx⟩ => ⟨j, by omega, hx⟩).trans ⟨fun e he => ?_, ?_⟩
    · rw [hdata, Function.update_of_ne he]
    · rw [hdata, Function.update_self]
      exact Mem.SameOff.writeWord _ fun x hx hx' => ⟨n, Nat.lt_succ_self n, hx, hx'⟩
  · exact hfresh
  · intro e he
    rw [hheap, Function.update_of_ne (by omega)]
    exact h.heap e he
  · intro e he
    rw [hheap, Function.update_of_ne (by omega)]
    exact h.beyond e (by rw [h.freshBlock]; omega)
  · intro j hj
    rw [hheap, hdata, Function.update_self]
    by_cases hjn : j = n
    · subst hjn
      rw [Mem.readWord_write _ _ _ _ (hspace.trans_eq (by decide)), Function.update_self]
      exact ⟨rfl, rfl⟩
    · have hlt : j < n := by omega
      obtain ⟨hword, hheld⟩ := h.block j hlt
      refine ⟨?_, ?_⟩
      · rw [← hword]
        refine Mem.readWord_congr fun y hy => Mem.writeWord_of_lt _ _ _ ?_
        have := happart j n hlt
        omega
      · rw [Function.update_of_ne (by omega)]
        exact hheld

/-- The loop over the buffers of a column, when they have a block. -/
theorem clones_block {c : ChunkId} {addr : Nat → Nat} {size d n : Nat} {block : Block}
    (happart : ∀ j l, j < l → addr j + sizeofBuffer ≤ addr l) (hm : mm.Mallocs)
    (hd : ∀ j < n, (Mem.readBuffer (mm.data c) (addr j)).d = d)
    (hsize : ∀ j < n, (Mem.readBuffer (mm.data c) (addr j)).size = size) (hne : d ≠ 0)
    (hblock : mm.heap d = some block) (hspace : mm.freshBlock + n ≤ 2 ^ 64)
    (h : (List.range n).foldlM (fun mm j => mm.cloneBuffer c (addr j)) mm = some mm') :
    ClonesOf c addr size block n mm mm' := by
  induction n generalizing mm' with
  | zero =>
      obtain rfl := Option.some.inj h
      exact .zero hm
  | succ n ih =>
      rw [List.range_succ, List.foldlM_append] at h
      simp only [List.foldlM_cons, List.foldlM_nil, Option.bind_eq_bind,
        Option.bind_eq_some_iff, Option.pure_def, Option.some.injEq] at h
      obtain ⟨mm₁, hfold, mm₂, hclone, rfl⟩ := h
      have hprefix := ih (fun j hj => hd j (by omega)) (fun j hj => hsize j (by omega)) (by omega)
        hfold
      exact hprefix.succ happart hm (hd n (Nat.lt_succ_self n)) (hsize n (Nat.lt_succ_self n)) hne
        hblock (by omega) hclone

/-- A buffer is copied: the same bytes when it is inline, and else the same contents in a block
that was not handed out before `F`. -/
structure Cloned (F : Nat) (mm₀ : Memory) (c₀ : ChunkId) (a₀ : Nat) (mm : Memory) (c : ChunkId)
    (a size : Nat) : Prop where
  tail : ∀ y, 8 ≤ y → y < size → mm.data c (a + y) = mm₀.data c₀ (a₀ + y)
  inline : (Mem.readBuffer (mm₀.data c₀) a₀).d = 0 →
    ∀ y < size, mm.data c (a + y) = mm₀.data c₀ (a₀ + y)
  own : (Mem.readBuffer (mm₀.data c₀) a₀).d ≠ 0 → (Mem.readBuffer (mm.data c) a).d ≠ 0 ∧
    F ≤ (Mem.readBuffer (mm.data c) a).d ∧ (Mem.readBuffer (mm.data c) a).d < mm.freshBlock ∧
    ∀ bs, mm₀.bufferBytes c₀ a₀ = some bs → mm.bufferBytes c a = some bs

theorem bufferBytes_block {c : ChunkId} {a : Nat} {b : BufferHeader}
    (hb : Mem.readBuffer (mm.data c) a = b) (hd : b.d ≠ 0) :
    mm.bufferBytes c a = (mm.heap b.d).map fun block => Mem.read block.bytes 0 b.size := by
  simp only [bufferBytes, hb, if_neg hd]

/-- A block of a copied buffer is a new one. -/
theorem Cloned.fresh {F : Nat} {mm₀ : Memory} {c₀ c : ChunkId} {a₀ a size : Nat}
    (h : Cloned F mm₀ c₀ a₀ mm c a size) (hroom : sizeofBuffer ≤ size)
    (hd : (Mem.readBuffer (mm.data c) a).d ≠ 0) :
    F ≤ (Mem.readBuffer (mm.data c) a).d ∧ (Mem.readBuffer (mm.data c) a).d < mm.freshBlock := by
  by_cases hnull : (Mem.readBuffer (mm₀.data c₀) a₀).d = 0
  · have hheader : Mem.readBuffer (mm.data c) a = Mem.readBuffer (mm₀.data c₀) a₀ :=
      readBuffer_congr fun y hy => h.inline hnull y (hy.trans_le hroom)
    rw [hheader] at hd
    exact absurd hnull hd
  · obtain ⟨-, hlo, hhi, -⟩ := h.own hnull
    exact ⟨hlo, hhi⟩

/-- A copied buffer may be moved, and other blocks may be handed out. -/
theorem Cloned.later {F : Nat} {mm₀ : Memory} {c₀ c c' : ChunkId} {a₀ a a' size : Nat}
    (h : Cloned F mm₀ c₀ a₀ mm c a size) (hroom : sizeofBuffer ≤ size)
    (hdata : ∀ y < size, mm'.data c' (a' + y) = mm.data c (a + y))
    (hheap : ∀ e < mm.freshBlock, mm'.heap e = mm.heap e) (hle : mm.freshBlock ≤ mm'.freshBlock) :
    Cloned F mm₀ c₀ a₀ mm' c' a' size := by
  have hheader : Mem.readBuffer (mm'.data c') a' = Mem.readBuffer (mm.data c) a :=
    readBuffer_congr fun y hy => hdata y (hy.trans_le hroom)
  refine ⟨fun y hy hy' => (hdata y hy').trans (h.tail y hy hy'),
    fun hd y hy => (hdata y hy).trans (h.inline hd y hy), fun hd => ?_⟩
  obtain ⟨hne, hlo, hhi, hbytes⟩ := h.own hd
  rw [hheader]
  refine ⟨hne, hlo, hhi.trans_le hle, fun bs hbs => ?_⟩
  rw [bufferBytes_block hheader hne, hheap _ hhi, ← bufferBytes_block rfl hne]
  exact hbytes bs hbs

/-- The source may be read before other blocks were handed out. -/
theorem Cloned.earlier {F : Nat} {mm₀ mm₁ : Memory} {c₀ c₁ c : ChunkId} {a₀ a₁ a size : Nat}
    (h : Cloned mm₁.freshBlock mm₁ c₁ a₁ mm c a size) (hF : F ≤ mm₁.freshBlock)
    (hroom : sizeofBuffer ≤ size) (hm : mm₀.Mallocs)
    (hdata : ∀ y < size, mm₁.data c₁ (a₁ + y) = mm₀.data c₀ (a₀ + y))
    (hheap : ∀ e < mm₀.freshBlock, mm₁.heap e = mm₀.heap e) :
    Cloned F mm₀ c₀ a₀ mm c a size := by
  have hheader : Mem.readBuffer (mm₁.data c₁) a₁ = Mem.readBuffer (mm₀.data c₀) a₀ :=
    readBuffer_congr fun y hy => hdata y (hy.trans_le hroom)
  refine ⟨fun y hy hy' => (h.tail y hy hy').trans (hdata y hy'),
    fun hd y hy => (h.inline (by rwa [hheader]) y hy).trans (hdata y hy), fun hd => ?_⟩
  have hd₁ : (Mem.readBuffer (mm₁.data c₁) a₁).d ≠ 0 := by rwa [hheader]
  obtain ⟨hne, hlo, hhi, hbytes⟩ := h.own hd₁
  refine ⟨hne, hF.trans hlo, hhi, fun bs hbs => hbytes bs ?_⟩
  rw [bufferBytes_block rfl hd] at hbs
  obtain ⟨block, hblock, -⟩ := Option.map_eq_some_iff.mp hbs
  rw [bufferBytes_block hheader hd, hheap _ (hm.lt_of_block hblock)]
  exact hbs

theorem read_blockCopy (size : Nat) (block : Block) :
    Mem.read (blockCopy size block).bytes 0 size = Mem.read block.bytes 0 size := by
  apply Mem.read_eq
  intro y hy
  simp only [blockCopy]
  rw [Mem.copy_of_mem _ _ _ (Nat.zero_le _) (by omega)]
  congr 1
  omega

/-- The first turn has found the block. -/
theorem exists_block {c : ChunkId} (addr : Nat → Nat) {d n : Nat} (hn : 0 < n)
    (hd : (Mem.readBuffer (mm.data c) (addr 0)).d = d) (hne : d ≠ 0)
    (h : (List.range n).foldlM (fun mm j => mm.cloneBuffer c (addr j)) mm = some mm') :
    ∃ block, mm.heap d = some block := by
  obtain ⟨n, rfl⟩ := Nat.exists_eq_add_of_lt hn
  rw [Nat.zero_add, List.range_succ_eq_map, List.foldlM_cons, Option.bind_eq_bind,
    Option.bind_eq_some_iff] at h
  obtain ⟨mm₁, hfirst, -⟩ := h
  obtain ⟨block, hblock, -⟩ := cloneBuffer_block hd hne hfirst
  exact ⟨block, hblock⟩

/-- What `chunk::duplicate` does to buffer columns `is`. -/
structure BuffersDuplicated (src : CastSide) (s : ChunkSlice) (is : List Nat)
    (mm mm' : Memory) : Prop where
  writes : Writes s.c (fun x => ∃ i ∈ is, Strip src.a src.ct i s x) mm mm'
  fresh_le : mm.freshBlock ≤ mm'.freshBlock
  le_fresh : mm'.freshBlock ≤ mm.freshBlock + is.length * s.count
  heap : ∀ e < mm.freshBlock, mm'.heap e = mm.heap e
  mallocs : mm'.Mallocs
  cloned : ∀ i ∈ is, ∀ j < s.count, Cloned mm.freshBlock mm src.c (src.address i 0) mm' s.c
    (src.a.address src.ct i (s.start + j)) (src.a.size i)
  own : ∀ i ∈ is, ∀ k ∈ is, ∀ j < s.count, ∀ l < s.count,
    (Mem.readBuffer (mm'.data s.c) (src.a.address src.ct i (s.start + j))).d ≠ 0 →
    (Mem.readBuffer (mm'.data s.c) (src.a.address src.ct i (s.start + j))).d =
      (Mem.readBuffer (mm'.data s.c) (src.a.address src.ct k (s.start + l))).d → i = k ∧ j = l

theorem duplicateBuffer_eq (src : CastSide) (s : ChunkSlice) (mm : Memory) (i : Nat) :
    duplicateBuffer src s mm i = (List.range s.count).foldlM (fun mm j =>
      mm.cloneBuffer s.c (src.a.address src.ct i (s.start + j))) (dupColumn src s mm i) := by
  simp only [Archetype.address_add]
  rfl

/-- Until the buffers are cloned, each has the header of the source. -/
theorem dupColumn_header (mm : Memory) (hroom : sizeofBuffer ≤ src.a.size i) (hj : j < s.count) :
    Mem.readBuffer ((dupColumn src s mm i).data s.c) (src.a.address src.ct i (s.start + j)) =
      Mem.readBuffer (mm.data src.c) (src.address i 0) := by
  apply readBuffer_congr
  intro y hy
  exact dupColumn_at mm hj (hy.trans_le hroom)

theorem dupColumn_mallocs (hm : mm.Mallocs) : (dupColumn src s mm i).Mallocs :=
  ⟨hm.pos, hm.fresh⟩

/-- The elements of a column do not overlap. -/
theorem element_apart (a : Archetype) (ct : AllocType) (s : ChunkSlice) (i : Nat) (hjn : j < n) :
    a.address ct i (s.start + j) + a.size i ≤ a.address ct i (s.start + n) := by
  have hmul := Nat.mul_le_mul_left (a.size i) (Nat.succ_le_of_lt hjn)
  rw [Nat.mul_succ] at hmul
  rw [Archetype.address_add, Archetype.address_add]
  omega

/-- One buffer column, when the source is inline. -/
theorem duplicateBuffer_inline (hf : Fits src s ct) (hroom : sizeofBuffer ≤ src.a.size i)
    (hm : mm.Mallocs) (hd : (Mem.readBuffer (mm.data src.c) (src.address i 0)).d = 0)
    (h : duplicateBuffer src s mm i = some mm') : BuffersDuplicated src s [i] mm mm' := by
  have hheaders : ∀ j ∈ List.range s.count, (Mem.readBuffer ((dupColumn src s mm i).data s.c)
      (src.a.address src.ct i (s.start + j))).d = 0 :=
    fun j hj => by rw [dupColumn_header mm hroom (List.mem_range.mp hj), hd]
  have hnull := clones_null (fun j => src.a.address src.ct i (s.start + j)) hheaders
  rw [duplicateBuffer_eq, hnull] at h
  obtain rfl := Option.some.inj h
  constructor
  · exact (dupColumn_writes hf.pos mm i).mono fun x hx => ⟨i, List.mem_singleton_self i, hx⟩
  · exact le_rfl
  · exact Nat.le_add_right ..
  · exact fun _ _ => rfl
  · exact dupColumn_mallocs hm
  · simp only [List.mem_singleton, forall_eq]
    exact fun j hj => ⟨fun y _ hy => dupColumn_at mm hj hy, fun _ y hy => dupColumn_at mm hj hy,
      fun hne => absurd hd hne⟩
  · simp only [List.mem_singleton, forall_eq]
    intro j hj l _ hne
    rw [dupColumn_header mm hroom hj] at hne
    exact absurd hd hne

/-- The columns of the slots of a slice do not change past the pointers of their buffers. -/
theorem ClonesOf.tail {a : Archetype} {ct : AllocType} {size : Nat} {block : Block} {y : Nat}
    (h : ClonesOf s.c (fun j => a.address ct i (s.start + j)) size block s.count mm mm')
    (hroom : sizeofBuffer ≤ a.size i) (hlo : 8 ≤ y) (hhi : y < a.size i) :
    mm'.data s.c (a.address ct i (s.start + j) + y) =
      mm.data s.c (a.address ct i (s.start + j) + y) := by
  have hbuf : sizeofBuffer = 16 := rfl
  refine h.writes.same _ ?_
  rintro ⟨l, -, hl, hl'⟩
  rcases Nat.lt_trichotomy j l with hjl | rfl | hlj
  · have := element_apart a ct s i hjl
    omega
  · omega
  · have := element_apart a ct s i hlj
    omega

/-- One buffer column, when the source has a block. -/
theorem duplicateBuffer_block {d : Nat} (hf : Fits src s ct) (hroom : sizeofBuffer ≤ src.a.size i)
    (hm : mm.Mallocs) (hspace : mm.freshBlock + s.count ≤ 2 ^ 64)
    (hd : (Mem.readBuffer (mm.data src.c) (src.address i 0)).d = d) (hne : d ≠ 0)
    (h : duplicateBuffer src s mm i = some mm') : BuffersDuplicated src s [i] mm mm' := by
  have hbuf : sizeofBuffer = 16 := rfl
  rw [duplicateBuffer_eq] at h
  obtain ⟨block, hblock⟩ := exists_block (fun j => src.a.address src.ct i (s.start + j)) hf.pos
    (by rw [dupColumn_header mm hroom hf.pos, hd]) hne h
  have hheld : mm.heap d = some block := hblock
  have hclones := clones_block (fun j l hjl => (Nat.add_le_add_left hroom _).trans
    (element_apart src.a src.ct s i hjl)) (dupColumn_mallocs hm)
    (fun j hj => by rw [dupColumn_header mm hroom hj, hd])
    (fun j hj => by rw [dupColumn_header mm hroom hj]) hne hblock hspace h
  have hfresh : mm'.freshBlock = mm.freshBlock + s.count := hclones.freshBlock
  have htail : ∀ j < s.count, ∀ y, 8 ≤ y → y < src.a.size i →
      mm'.data s.c (src.a.address src.ct i (s.start + j) + y) =
        mm.data src.c (src.address i 0 + y) :=
    fun j hj y hlo hhi => (hclones.tail hroom hlo hhi).trans (dupColumn_at mm hj hhi)
  have hown : ∀ j < s.count, (Mem.readBuffer (mm'.data s.c)
      (src.a.address src.ct i (s.start + j))).d = mm.freshBlock + j :=
    fun j hj => (hclones.block j hj).1
  have hsize : ∀ j < s.count, (Mem.readBuffer (mm'.data s.c)
      (src.a.address src.ct i (s.start + j))).size =
        (Mem.readBuffer (mm.data src.c) (src.address i 0)).size := by
    intro j hj
    apply Mem.readWord_congr
    intro y hy
    rw [Nat.add_assoc, Nat.add_assoc]
    exact htail j hj (8 + y) (by omega) (by omega)
  constructor
  · have hcolumn : Writes s.c (Strip src.a src.ct i s) mm (dupColumn src s mm i) :=
      dupColumn_writes hf.pos mm i
    refine (hcolumn.mono fun x hx => ⟨i, List.mem_singleton_self i, hx⟩).trans
      (hclones.writes.mono ?_)
    rintro x ⟨j, hj, hlo, hhi⟩
    refine ⟨i, List.mem_singleton_self i, ?_⟩
    obtain ⟨y, rfl⟩ := Nat.exists_eq_add_of_le hlo
    exact strip_of_element hj (by omega)
  · rw [hfresh]
    exact Nat.le_add_right ..
  · rw [hfresh, List.length_singleton, Nat.one_mul]
  · exact hclones.heap
  · have hpos := hm.pos
    exact ⟨by omega, hclones.beyond⟩
  · simp only [List.mem_singleton, forall_eq]
    intro j hj
    refine ⟨fun y hlo hhi => htail j hj y hlo hhi, fun hnull => absurd (hd ▸ hnull) hne,
      fun _ => ?_⟩
    have hpos := hm.pos
    rw [hown j hj, hfresh]
    refine ⟨by omega, Nat.le_add_right .., Nat.add_lt_add_left hj _, fun bs hbs => ?_⟩
    have hcopy : mm'.heap (mm.freshBlock + j) = some (blockCopy _ block) :=
      (hclones.block j hj).2
    rw [bufferBytes_block rfl (by rw [hown j hj]; omega), hown j hj, hsize j hj, hcopy,
      Option.map_some, read_blockCopy, ← hbs,
      bufferBytes_block rfl (by rw [hd]; exact hne), hd, hheld, Option.map_some]
  · simp only [List.mem_singleton, forall_eq]
    intro j hj l hl _ heq
    rw [hown j hj, hown l hl] at heq
    exact ⟨trivial, Nat.add_left_cancel heq⟩

/-- One buffer column. -/
theorem duplicateBuffer_spec (hf : Fits src s ct) (hroom : sizeofBuffer ≤ src.a.size i)
    (hm : mm.Mallocs) (hspace : mm.freshBlock + s.count ≤ 2 ^ 64)
    (h : duplicateBuffer src s mm i = some mm') : BuffersDuplicated src s [i] mm mm' := by
  by_cases hd : (Mem.readBuffer (mm.data src.c) (src.address i 0)).d = 0
  · exact duplicateBuffer_inline hf hroom hm hd h
  · exact duplicateBuffer_block hf hroom hm hspace rfl hd h

/-- One column more, before the others. -/
theorem BuffersDuplicated.cons {mm₁ : Memory} {is : List Nat}
    (hhead : BuffersDuplicated src s [i] mm mm₁) (hf : Fits src s ct) (hnot : i ∉ is)
    (hi : i < src.a.firstTag) (his : ∀ k ∈ is, k < src.a.firstTag)
    (hroom : ∀ k ∈ i :: is, sizeofBuffer ≤ src.a.size k) (hm : mm.Mallocs)
    (htail : BuffersDuplicated src s is mm₁ mm') : BuffersDuplicated src s (i :: is) mm mm' := by
  have hstrips : ∀ x, (∃ k ∈ [i], Strip src.a src.ct k s x) →
      ∃ k < src.a.firstTag, Strip src.a src.ct k s x :=
    fun x ⟨k, hk, hx⟩ => ⟨k, List.mem_singleton.mp hk ▸ hi, hx⟩
  -- the other columns leave the copies of the first one
  have hkept : ∀ j < s.count, ∀ y < src.a.size i,
      mm'.data s.c (src.a.address src.ct i (s.start + j) + y) =
        mm₁.data s.c (src.a.address src.ct i (s.start + j) + y) := by
    intro j hj y hy
    refine htail.writes.same _ ?_
    rintro ⟨k, hk, hx⟩
    exact hf.strip_apart hi (his k hk) (fun h => hnot (h ▸ hk)) (strip_of_element hj hy) hx
  have hcloned : ∀ k ∈ i :: is, ∀ j < s.count, Cloned mm.freshBlock mm src.c (src.address k 0)
      mm' s.c (src.a.address src.ct k (s.start + j)) (src.a.size k) := by
    intro k hk j hj
    rcases List.mem_cons.mp hk with rfl | hk'
    · exact (hhead.cloned k (List.mem_singleton_self k) j hj).later (hroom k hk) (hkept j hj)
        htail.heap htail.fresh_le
    · exact (htail.cloned k hk' j hj).earlier hhead.fresh_le (hroom k hk) hm
        (fun y hy => hf.source_same hstrips hhead.writes (his k hk') hy) hhead.heap
  have hheader : ∀ j < s.count, Mem.readBuffer (mm'.data s.c)
      (src.a.address src.ct i (s.start + j)) =
        Mem.readBuffer (mm₁.data s.c) (src.a.address src.ct i (s.start + j)) :=
    fun j hj => readBuffer_congr fun y hy =>
      hkept j hj y (hy.trans_le (hroom i List.mem_cons_self))
  -- the blocks of the first column are older than those of the others
  have hold : ∀ j < s.count,
      (Mem.readBuffer (mm'.data s.c) (src.a.address src.ct i (s.start + j))).d ≠ 0 →
      (Mem.readBuffer (mm'.data s.c) (src.a.address src.ct i (s.start + j))).d <
        mm₁.freshBlock := by
    intro j hj hne
    rw [hheader j hj] at hne ⊢
    exact ((hhead.cloned i (List.mem_singleton_self i) j hj).fresh (hroom i List.mem_cons_self)
      hne).2
  have hnew : ∀ k ∈ is, ∀ j < s.count,
      (Mem.readBuffer (mm'.data s.c) (src.a.address src.ct k (s.start + j))).d ≠ 0 →
      mm₁.freshBlock ≤
        (Mem.readBuffer (mm'.data s.c) (src.a.address src.ct k (s.start + j))).d :=
    fun k hk j hj hne => ((htail.cloned k hk j hj).fresh
      (hroom k (List.mem_cons_of_mem i hk)) hne).1
  constructor
  · refine (hhead.writes.mono fun x ⟨k, hk, hx⟩ => ⟨i, List.mem_cons_self, ?_⟩).trans
      (htail.writes.mono fun x ⟨k, hk, hx⟩ => ⟨k, List.mem_cons_of_mem i hk, hx⟩)
    rwa [List.mem_singleton.mp hk] at hx
  · exact hhead.fresh_le.trans htail.fresh_le
  · have hone := hhead.le_fresh
    have hrest := htail.le_fresh
    rw [List.length_singleton, Nat.one_mul] at hone
    rw [List.length_cons, Nat.succ_mul]
    omega
  · exact fun e he => (htail.heap e (he.trans_le hhead.fresh_le)).trans (hhead.heap e he)
  · exact htail.mallocs
  · exact hcloned
  · intro k hk l hl j hj m hm' hne heq
    have hself := List.mem_singleton_self i
    rcases List.mem_cons.mp hk with hki | hk' <;> rcases List.mem_cons.mp hl with hli | hl'
    · subst k l
      rw [hheader j hj] at hne heq
      rw [hheader m hm'] at heq
      exact hhead.own i hself i hself j hj m hm' hne heq
    · subst k
      have hlt := hold j hj hne
      rw [heq] at hne hlt
      exact absurd hlt (Nat.not_lt.mpr (hnew l hl' m hm' hne))
    · subst l
      have hge := hnew k hk' j hj hne
      rw [heq] at hne hge
      exact absurd (hold m hm' hne) (Nat.not_lt.mpr hge)
    · exact htail.own k hk' l hl' j hj m hm' hne heq

/-- The buffer columns. -/
theorem duplicateBuffers_spec (hf : Fits src s ct) {is : List Nat} (hnd : is.Nodup)
    (his : ∀ i ∈ is, i < src.a.firstTag) (hroom : ∀ i ∈ is, sizeofBuffer ≤ src.a.size i)
    (hm : mm.Mallocs) (hspace : mm.freshBlock + is.length * s.count ≤ 2 ^ 64)
    (h : is.foldlM (duplicateBuffer src s) mm = some mm') : BuffersDuplicated src s is mm mm' := by
  induction is generalizing mm with
  | nil =>
      obtain rfl := Option.some.inj h
      exact ⟨.refl _ _ _, le_rfl, Nat.le_add_right .., fun _ _ => rfl, hm, by simp, by simp⟩
  | cons i is ih =>
      obtain ⟨hnot, hnd⟩ := List.nodup_cons.mp hnd
      have hi := his i List.mem_cons_self
      have his' : ∀ k ∈ is, k < src.a.firstTag := fun k hk => his k (List.mem_cons_of_mem i hk)
      rw [List.length_cons, Nat.succ_mul] at hspace
      rw [List.foldlM_cons, Option.bind_eq_bind, Option.bind_eq_some_iff] at h
      obtain ⟨mm₁, hone, hrest⟩ := h
      have hhead := duplicateBuffer_spec hf (hroom i List.mem_cons_self) hm (by omega) hone
      have hle := hhead.le_fresh
      rw [List.length_singleton, Nat.one_mul] at hle
      have htail := ih hnd his' (fun k hk => hroom k (List.mem_cons_of_mem i hk)) hhead.mallocs
        (by omega) hrest
      exact hhead.cons hf hnot hi his' hroom hm htail

/-! ## The whole function -/

/-- The types of an instance are those of the source, or their twins. -/
def Twinned (ctx : Context) (a b : Archetype) : Prop :=
  ∀ k < a.firstTag, ctx.toValidType (a.types.getD k 0) = ctx.toValidType (b.types.getD k 0)

/-- Then the loops over the columns skip none. -/
theorem duplicateColumns_eq {a b : Archetype} (f : Memory → Nat → Option Memory) {lo hi : Nat}
    (hle : lo ≤ hi) (htwin : Twinned ctx a b) (hhi : hi ≤ a.firstTag) (mm : Memory) :
    duplicateColumns ctx a b f (columns lo hi) mm lo =
      ((columns lo hi).foldlM f mm).map fun mm => (mm, hi) := by
  rw [columns_eq]
  obtain ⟨n, rfl⟩ := Nat.exists_eq_add_of_le hle
  rw [Nat.add_sub_cancel_left]
  unfold duplicateColumns
  induction n generalizing lo mm with
  | zero => rfl
  | succ n ih =>
      simp only [List.range'_succ, List.foldlM_cons, if_pos (htwin lo (by omega))]
      cases hf : f mm lo with
      | none => rfl
      | some mm₁ =>
          have hrest := ih mm₁ (Nat.le_add_right (lo + 1) n) (by omega)
          rw [Nat.add_right_comm lo 1 n] at hrest
          exact hrest

/-- A source whose columns `chunk::duplicate` copies. -/
structure Copyable (ctx : Context) (src : CastSide) : Prop where
  layout : Layout src.a
  roomy : src.a.Roomy
  unmanaged : src.a.firstManaged = src.a.firstTag
  guidless : ∀ t, ctx.guidId = some t → t ∉ src.a.types
  start_lt : src.start < 2 ^ 16

/-- Its two loops. -/
theorem Copyable.duplicate_eq (hc : Copyable ctx src) {b : Archetype}
    (htwin : Twinned ctx src.a b) (mm : Memory) :
    mm.duplicate ctx b s src = (columns src.a.firstBuffer src.a.firstManaged).foldlM
      (duplicateBuffer src s) ((columns 0 src.a.firstBuffer).foldl (dupColumn src s) mm) := by
  have hbuf := hc.layout.buffer_le
  have hman := hc.layout.managed_le
  have htag := hc.layout.tag_le
  have hsrc : ({ src with start := src.start % 2 ^ 16 } : CastSide) = src := by
    rw [Nat.mod_eq_of_lt hc.start_lt]
  have hpods : ((columns 0 src.a.firstBuffer).foldlM
      (fun mm i => some (duplicatePod ctx src s mm i)) mm) =
        some ((columns 0 src.a.firstBuffer).foldl (dupColumn src s) mm) := by
    rw [foldlM_congr (g := fun mm i => some (dupColumn src s mm i))]
    · exact List.foldlM_pure
    · intro i hi mm
      have hlt : i < src.a.types.length := by
        have := (mem_columns.mp hi).2
        omega
      have hguid : ctx.guidId ≠ some (src.a.types.getD i 0) := by
        intro hguid
        refine hc.guidless _ hguid ?_
        rw [List.getD_eq_getElem?_getD, List.getElem?_eq_getElem hlt, Option.getD_some]
        exact List.getElem_mem hlt
      rw [duplicatePod, if_neg hguid, dupColumn]
  have hmanaged : columns src.a.firstManaged src.a.firstTag = [] := by
    rw [columns_eq, hc.unmanaged, Nat.sub_self, List.range'_zero]
  simp only [duplicate, hsrc]
  rw [duplicateColumns_eq _ (Nat.zero_le _) htwin (hbuf.trans hman), hpods, hmanaged,
    Option.map_some, Option.bind_eq_bind, Option.bind_some]
  simp only [List.foldl_nil]
  rw [duplicateColumns_eq _ hbuf htwin hman]
  cases (columns src.a.firstBuffer src.a.firstManaged).foldlM (duplicateBuffer src s) _ <;> rfl

/-- The element of column `k` at `a` is a copy of the one at `a₀`. -/
structure CopiedElement (A : Archetype) (k F : Nat) (mm₀ : Memory) (c₀ : ChunkId) (a₀ : Nat)
    (mm : Memory) (c : ChunkId) (a : Nat) : Prop where
  pod : k < A.firstBuffer → ∀ y < A.size k, mm.data c (a + y) = mm₀.data c₀ (a₀ + y)
  buffer : A.firstBuffer ≤ k → Cloned F mm₀ c₀ a₀ mm c a (A.size k)

theorem CopiedElement.later {A : Archetype} {F : Nat} {mm₀ : Memory} {c₀ c c' : ChunkId}
    {a₀ a a' : Nat} (h : CopiedElement A k F mm₀ c₀ a₀ mm c a)
    (hroom : A.firstBuffer ≤ k → sizeofBuffer ≤ A.size k)
    (hdata : ∀ y < A.size k, mm'.data c' (a' + y) = mm.data c (a + y))
    (hheap : ∀ e < mm.freshBlock, mm'.heap e = mm.heap e) (hle : mm.freshBlock ≤ mm'.freshBlock) :
    CopiedElement A k F mm₀ c₀ a₀ mm' c' a' where
  pod hk y hy := (hdata y hy).trans (h.pod hk y hy)
  buffer hk := (h.buffer hk).later (hroom hk) hdata hheap hle

theorem CopiedElement.earlier {A : Archetype} {F : Nat} {mm₀ mm₁ : Memory} {c₀ c₁ c : ChunkId}
    {a₀ a₁ a : Nat} (h : CopiedElement A k mm₁.freshBlock mm₁ c₁ a₁ mm c a)
    (hF : F ≤ mm₁.freshBlock) (hroom : A.firstBuffer ≤ k → sizeofBuffer ≤ A.size k)
    (hm : mm₀.Mallocs) (hdata : ∀ y < A.size k, mm₁.data c₁ (a₁ + y) = mm₀.data c₀ (a₀ + y))
    (hheap : ∀ e < mm₀.freshBlock, mm₁.heap e = mm₀.heap e) :
    CopiedElement A k F mm₀ c₀ a₀ mm c a where
  pod hk y hy := (h.pod hk y hy).trans (hdata y hy)
  buffer hk := (h.buffer hk).earlier hF (hroom hk) hm hdata hheap

/-- What `chunk::duplicate` does. -/
structure Duplicated (src : CastSide) (s : ChunkSlice) (mm mm' : Memory) : Prop where
  writes : Writes s.c (src.a.Cells src.ct s.start s.count) mm mm'
  fresh_le : mm.freshBlock ≤ mm'.freshBlock
  le_fresh : mm'.freshBlock ≤ mm.freshBlock + src.a.firstTag * s.count
  heap : ∀ e < mm.freshBlock, mm'.heap e = mm.heap e
  mallocs : mm'.Mallocs
  copied : ∀ k < src.a.firstTag, ∀ j < s.count, CopiedElement src.a k mm.freshBlock mm src.c
    (src.address k 0) mm' s.c (src.a.address src.ct k (s.start + j))
  own : ∀ k l, src.a.firstBuffer ≤ k → k < src.a.firstTag → src.a.firstBuffer ≤ l →
    l < src.a.firstTag → ∀ i < s.count, ∀ j < s.count,
    (Mem.readBuffer (mm'.data s.c) (src.a.address src.ct k (s.start + i))).d ≠ 0 →
    (Mem.readBuffer (mm'.data s.c) (src.a.address src.ct k (s.start + i))).d =
      (Mem.readBuffer (mm'.data s.c) (src.a.address src.ct l (s.start + j))).d → k = l ∧ i = j

/-- Without columns it does nothing. -/
theorem Copyable.duplicate_tags (hc : Copyable ctx src) {b : Archetype}
    (htag : src.a.firstTag = 0) (hm : mm.Mallocs) (h : mm.duplicate ctx b s src = some mm') :
    Duplicated src s mm mm' := by
  have hbuf := hc.layout.buffer_le
  have hman := hc.layout.managed_le
  have htwin : Twinned ctx src.a b := fun k hk => by omega
  rw [hc.duplicate_eq htwin, columns_eq, columns_eq, Nat.sub_eq_zero_of_le (by omega),
    Nat.sub_eq_zero_of_le (by omega)] at h
  obtain rfl := Option.some.inj h
  refine ⟨.refl _ _ _, le_rfl, Nat.le_add_right .., fun _ _ => rfl, hm, fun k hk => ?_,
    fun k l _ hk => ?_⟩
  · omega
  · omega

/-- In slots with the columns of the source's bin, each element is a copy of the source's. -/
theorem Copyable.duplicate_spec (hc : Copyable ctx src) {b : Archetype}
    (htwin : Twinned ctx src.a b) (hf : 0 < src.a.firstTag → Fits src s ct) (hm : mm.Mallocs)
    (hspace : mm.freshBlock + src.a.firstTag * s.count ≤ 2 ^ 64)
    (h : mm.duplicate ctx b s src = some mm') : Duplicated src s mm mm' := by
  rcases Nat.eq_zero_or_pos src.a.firstTag with htag | htag
  · exact hc.duplicate_tags htag hm h
  replace hf := hf htag
  have hbuf := hc.layout.buffer_le
  have hman := hc.unmanaged
  rw [hc.duplicate_eq htwin] at h
  have hpod : ∀ i ∈ columns 0 src.a.firstBuffer, i < src.a.firstTag := by
    intro i hi
    have := (mem_columns.mp hi).2
    omega
  have hbuffer : ∀ i ∈ columns src.a.firstBuffer src.a.firstManaged, i < src.a.firstTag :=
    fun i hi => hman ▸ (mem_columns.mp hi).2
  obtain ⟨hwrites, ⟨hheap, hfresh⟩, hcells⟩ := dupColumns_spec hf (nodup_columns _ _) hpod mm
  generalize (columns 0 src.a.firstBuffer).foldl (dupColumn src s) mm = mm₁
    at h hwrites hheap hfresh hcells
  have hlength : (columns src.a.firstBuffer src.a.firstManaged).length ≤ src.a.firstTag := by
    rw [columns_eq, List.length_range']
    omega
  have hmul := Nat.mul_le_mul_right s.count hlength
  have hbuffers := duplicateBuffers_spec hf (nodup_columns _ _) hbuffer
    (fun i hi => hc.roomy i (mem_columns.mp hi).1 (mem_columns.mp hi).2)
    ⟨hfresh ▸ hm.pos, hfresh ▸ hheap ▸ hm.fresh⟩ (by omega) h
  constructor
  · refine (hwrites.mono fun x ⟨i, hi, hx⟩ => ⟨i, hpod i hi, hx⟩).trans
      (hbuffers.writes.mono fun x ⟨i, hi, hx⟩ => ⟨i, hbuffer i hi, hx⟩)
  · exact hfresh ▸ hbuffers.fresh_le
  · have := hbuffers.le_fresh
    omega
  · intro e he
    rw [hbuffers.heap e (hfresh ▸ he), hheap]
  · exact hbuffers.mallocs
  · intro k hk j hj
    have hstrips : ∀ x, (∃ i ∈ columns 0 src.a.firstBuffer, Strip src.a src.ct i s x) →
        ∃ i < src.a.firstTag, Strip src.a src.ct i s x := fun x ⟨i, hi, hx⟩ => ⟨i, hpod i hi, hx⟩
    constructor
    · intro hlt y hy
      rw [hbuffers.writes.same, hcells k (mem_columns.mpr ⟨Nat.zero_le _, hlt⟩) j hj y hy]
      rintro ⟨i, hi, hx⟩
      have hne : k ≠ i := (hlt.trans_le (mem_columns.mp hi).1).ne
      exact hf.strip_apart hk (hbuffer i hi) hne (strip_of_element hj hy) hx
    · intro hle
      have hmem := mem_columns.mpr ⟨hle, hman.symm ▸ hk⟩
      exact (hbuffers.cloned k hmem j hj).earlier (le_of_eq hfresh.symm)
        (hc.roomy k hle (hman.symm ▸ hk)) hm
        (fun y hy => hf.source_same hstrips hwrites hk hy) fun e _ => by rw [hheap]
  · intro k l hk hk' hl hl' i hi j hj
    exact hbuffers.own k (mem_columns.mpr ⟨hk, hman ▸ hk'⟩) l (mem_columns.mpr ⟨hl, hman ▸ hl'⟩)
      i hi j hj

end Memory

end Dots

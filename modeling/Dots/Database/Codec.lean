import Dots.Database.Duplication
import Dots.Database.Groups
import Dots.Database.Serialize

/-!
# `chunk::serialize` back and forth

The columns of a slice go to the stream as they are, the headers of buffers with the addresses of
their blocks, and the contents of the buffers follow. What is read into another slice takes the
size of a buffer, and whether it has a block, from the header that came with the column.
-/

namespace Dots

open Library

namespace Memory

variable {mm mm' mm₀ mm₁ : Memory} {a : Archetype} {ct ct' : AllocType} {s s' : ChunkSlice}
  {c c₀ : ChunkId} {addr addr₀ size F i j k : Nat} {bs rest : List UInt8}

/-! ## The columns -/

/-- A column of a slice, as it is written. -/
def columnBytes (mm : Memory) (a : Archetype) (ct : AllocType) (s : ChunkSlice) (i : Nat) :
    List UInt8 :=
  Mem.read (mm.data s.c) (a.address ct i s.start) (a.size i * s.count)

theorem loadColumn_append (mm₀ mm : Memory) (a : Archetype) (ct ct' : AllocType)
    (hcount : s'.count = s.count) (i : Nat) (rest : List UInt8) :
    loadColumn a ct' s' mm (columnBytes mm₀ a ct s i ++ rest) i =
      some (mm.setData s'.c (Mem.write (mm.data s'.c) (a.address ct' i s'.start)
        (columnBytes mm₀ a ct s i)), rest) := by
  rw [loadColumn, hcount, columnBytes, Mem.take_append (Mem.length_read ..), Option.bind_eq_bind,
    Option.bind_some]

/-- The bytes of the columns `is` come one after the other. -/
theorem loadColumns (hl : Layout a) (hle : s'.start + s'.count ≤ a.chunkCapacity ct')
    (hcount : s'.count = s.count) {is : List Nat} (hnd : is.Nodup) (his : ∀ i ∈ is, i < a.firstTag)
    (mm₀ mm : Memory) (ct : AllocType) (rest : List UInt8) : ∃ mm',
    is.foldlM (fun (p : Memory × List UInt8) i => loadColumn a ct' s' p.1 p.2 i)
      (mm, is.flatMap (columnBytes mm₀ a ct s) ++ rest) = some (mm', rest) ∧
    Writes s'.c (fun x => ∃ i ∈ is, Strip a ct' i s' x) mm mm' ∧ mm'.heap = mm.heap ∧
    mm'.freshBlock = mm.freshBlock ∧ ∀ i ∈ is, ∀ x < a.size i * s.count,
      mm'.data s'.c (a.address ct' i s'.start + x) =
        mm₀.data s.c (a.address ct i s.start + x) := by
  induction is generalizing mm with
  | nil =>
      exact ⟨mm, rfl, .refl _ _ _, rfl, rfl, fun i hi => absurd hi List.not_mem_nil⟩
  | cons i is ih =>
      obtain ⟨hnot, hnd⟩ := List.nodup_cons.mp hnd
      have hi := his i List.mem_cons_self
      have his' := fun k hk => his k (List.mem_cons_of_mem i hk)
      obtain ⟨mm₁, hmm₁⟩ : ∃ mm₁, mm₁ = mm.setData s'.c (Mem.write (mm.data s'.c)
        (a.address ct' i s'.start) (columnBytes mm₀ a ct s i)) := ⟨_, rfl⟩
      have hwrite : Writes s'.c (Strip a ct' i s') mm mm₁ := by
        rw [hmm₁]
        refine Writes.setData (Mem.SameOff.write fun x hlo hhi => ⟨hlo, ?_⟩)
        rwa [columnBytes, Mem.length_read, ← hcount] at hhi
      obtain ⟨mm', hrun, hwrites, hheap, hfresh, hbytes⟩ := ih hnd his' mm₁
      refine ⟨mm', ?_, ?_, ?_, ?_, fun k hk x hx => ?_⟩
      · rw [List.flatMap_cons, List.append_assoc, List.foldlM_cons]
        dsimp only
        rw [loadColumn_append mm₀ mm a ct ct' hcount, ← hmm₁]
        exact hrun
      · refine (hwrite.mono fun x hx => ⟨i, List.mem_cons_self, hx⟩).trans (hwrites.mono ?_)
        exact fun x ⟨k, hk, hx⟩ => ⟨k, List.mem_cons_of_mem i hk, hx⟩
      · rw [hheap, hmm₁]
        rfl
      · rw [hfresh, hmm₁]
        rfl
      · rcases List.mem_cons.mp hk with rfl | hk
        · -- the other columns are written elsewhere
          have hcolumn : a.Column ct' k (a.address ct' k s'.start + x) :=
            Archetype.column_of_range hle (Nat.le_add_right ..) (by rw [hcount]; omega)
          rw [hwrites.same, hmm₁]
          · simp only [setData, Function.update_self]
            exact Mem.write_read_at _ _ _ _ hx
          · rintro ⟨l, hl', hx'⟩
            exact hcolumn.apart hl hi (his' l hl') (fun h => hnot (h ▸ hl'))
              (Archetype.column_of_range hle hx'.1 hx'.2)
        · exact hbytes k hk x hx

/-! ## One buffer -/

/-- The contents are behind the header, or in a live block. -/
structure StoredBuffer (mm : Memory) (c : ChunkId) (addr size : Nat) : Prop where
  le : (Mem.readBuffer (mm.data c) addr).size ≤ (Mem.readBuffer (mm.data c) addr).capacity
  inline : (Mem.readBuffer (mm.data c) addr).d = 0 →
    sizeofBuffer + (Mem.readBuffer (mm.data c) addr).size ≤ size
  block : (Mem.readBuffer (mm.data c) addr).d ≠ 0 →
    mm.heap (Mem.readBuffer (mm.data c) addr).d ≠ none

theorem bufferBytes_inline (hd : (Mem.readBuffer (mm.data c) addr).d = 0) :
    mm.bufferBytes c addr = some (Mem.read (mm.data c) (addr + sizeofBuffer)
      (Mem.readBuffer (mm.data c) addr).size) := by
  rw [bufferBytes, if_pos hd]

/-- The contents of a buffer in memory with the same bytes, and the same block if it has one. -/
theorem bufferBytes_congr {e : ChunkId} (hroom : sizeofBuffer ≤ size)
    (hinline : (Mem.readBuffer (mm.data c) addr).d = 0 →
      sizeofBuffer + (Mem.readBuffer (mm.data c) addr).size ≤ size)
    (hsame : ∀ y < size, mm'.data e (addr + y) = mm.data c (addr + y))
    (hblock : (Mem.readBuffer (mm.data c) addr).d ≠ 0 →
      mm'.heap (Mem.readBuffer (mm.data c) addr).d = mm.heap (Mem.readBuffer (mm.data c) addr).d) :
    mm'.bufferBytes e addr = mm.bufferBytes c addr := by
  have hheader : Mem.readBuffer (mm'.data e) addr = Mem.readBuffer (mm.data c) addr :=
    readBuffer_congr fun y hy => hsame y (hy.trans_le hroom)
  by_cases hd : (Mem.readBuffer (mm.data c) addr).d = 0
  · have hfits := hinline hd
    rw [bufferBytes_inline (by rw [hheader, hd]), bufferBytes_inline hd, hheader]
    refine congrArg some (Mem.read_eq fun x hx => ?_)
    have hinside : sizeofBuffer + x < size := by omega
    rw [Nat.add_assoc]
    exact hsame (sizeofBuffer + x) hinside
  · rw [bufferBytes_block hheader hd, bufferBytes_block rfl hd, hblock hd]

theorem StoredBuffer.exists_bytes (h : StoredBuffer mm c addr size) :
    ∃ bs, mm.bufferBytes c addr = some bs ∧ bs.length = (Mem.readBuffer (mm.data c) addr).size := by
  by_cases hd : (Mem.readBuffer (mm.data c) addr).d = 0
  · exact ⟨_, bufferBytes_inline hd, Mem.length_read ..⟩
  · obtain ⟨block, hblock⟩ := Option.ne_none_iff_exists'.mp (h.block hd)
    exact ⟨_, by rw [bufferBytes_block rfl hd, hblock]; rfl, Mem.length_read ..⟩

/-- A buffer with the size, the capacity and the contents of another and, if that has a block, a
newly allocated one: its address was not handed out before `F`. -/
structure Restored (F : Nat) (mm₀ : Memory) (c₀ : ChunkId) (addr₀ : Nat) (mm : Memory)
    (c : ChunkId) (addr : Nat) : Prop where
  size : (Mem.readBuffer (mm.data c) addr).size = (Mem.readBuffer (mm₀.data c₀) addr₀).size
  capacity : (Mem.readBuffer (mm.data c) addr).capacity =
    (Mem.readBuffer (mm₀.data c₀) addr₀).capacity
  contents : mm.bufferBytes c addr = mm₀.bufferBytes c₀ addr₀
  inline : (Mem.readBuffer (mm.data c) addr).d = 0 ↔ (Mem.readBuffer (mm₀.data c₀) addr₀).d = 0
  fresh : (Mem.readBuffer (mm.data c) addr).d ≠ 0 →
    F ≤ (Mem.readBuffer (mm.data c) addr).d ∧
      (Mem.readBuffer (mm.data c) addr).d < mm.freshBlock ∧
        ∃ block, mm.heap (Mem.readBuffer (mm.data c) addr).d = some block ∧
          block.size = (Mem.readBuffer (mm.data c) addr).capacity

/-- What reading the contents of one buffer does. -/
structure LoadsBuffer (mm₀ : Memory) (c₀ : ChunkId) (addr₀ : Nat) (mm : Memory) (c : ChunkId)
    (addr size : Nat) (mm' : Memory) : Prop where
  restored : Restored mm.freshBlock mm₀ c₀ addr₀ mm' c addr
  writes : Writes c (fun x => addr ≤ x ∧ x < addr + size) mm mm'
  heap : ∀ e < mm.freshBlock, mm'.heap e = mm.heap e
  mallocs : mm'.Mallocs
  fresh_le : mm.freshBlock ≤ mm'.freshBlock
  le_fresh : mm'.freshBlock ≤ mm.freshBlock + 1

/-- The contents of an inline buffer came with the column, and are stored once more. -/
theorem loadBuffer_inline (hroom : sizeofBuffer ≤ size)
    (hsame : ∀ y < size, mm.data c (addr + y) = mm₀.data c₀ (addr₀ + y))
    (hstored : StoredBuffer mm₀ c₀ addr₀ size) (hm : mm.Mallocs)
    (hd : (Mem.readBuffer (mm₀.data c₀) addr₀).d = 0) (hbs : mm₀.bufferBytes c₀ addr₀ = some bs)
    (rest : List UInt8) : ∃ mm', loadBuffer c addr mm (bs ++ rest) = some (mm', rest) ∧
      LoadsBuffer mm₀ c₀ addr₀ mm c addr size mm' := by
  have hheader : Mem.readBuffer (mm.data c) addr = Mem.readBuffer (mm₀.data c₀) addr₀ :=
    readBuffer_congr fun y hy => hsame y (hy.trans_le hroom)
  rw [bufferBytes_inline hd, Option.some.injEq] at hbs
  have hlength : bs.length = (Mem.readBuffer (mm₀.data c₀) addr₀).size := by
    rw [← hbs, Mem.length_read]
  have hfits := hstored.inline hd
  obtain ⟨mm', hmm'⟩ : ∃ mm', mm' =
      mm.setData c (Mem.write (mm.data c) (addr + sizeofBuffer) bs) := ⟨_, rfl⟩
  have hdata : mm'.data c = Mem.write (mm.data c) (addr + sizeofBuffer) bs := by
    rw [hmm']
    exact Function.update_self ..
  have hwrites : Writes c (fun x => addr + sizeofBuffer ≤ x ∧ x < addr + size) mm mm' := by
    rw [hmm']
    exact Writes.setData (Mem.SameOff.write fun x hlo hhi => ⟨hlo, by omega⟩)
  have hheader' : Mem.readBuffer (mm'.data c) addr = Mem.readBuffer (mm₀.data c₀) addr₀ := by
    rw [← hheader]
    exact readBuffer_congr fun y hy => hwrites.same _ fun h => by omega
  refine ⟨mm', ?_, ⟨⟨?_, ?_, ?_, ?_, ?_⟩, ?_, ?_, ?_, ?_, ?_⟩⟩
  · rw [loadBuffer, hheader]
    simp only [Mem.take_append hlength, Option.bind_eq_bind, Option.bind_some, if_pos hd, hmm']
  · rw [hheader']
  · rw [hheader']
  · rw [bufferBytes_inline (by rw [hheader', hd]), bufferBytes_inline hd, hheader', hbs, hdata]
    refine congrArg some (Eq.trans ?_ hbs)
    refine Mem.read_eq fun x hx => ?_
    rw [← hbs]
    exact Mem.write_read_at _ _ _ _ hx
  · rw [hheader']
  · exact fun hne => absurd (by rw [hheader', hd]) hne
  · exact hwrites.mono fun x hx => ⟨by omega, hx.2⟩
  · rw [hmm']
    exact fun _ _ => rfl
  · rw [hmm']
    exact ⟨hm.pos, hm.fresh⟩
  · rw [hmm']
    exact le_rfl
  · rw [hmm']
    exact Nat.le_succ _

/-- Only the address of the block changes. -/
theorem readBuffer_writeWord (m : Mem) (addr : Nat) {d : Nat} (hd : d < 2 ^ 64) :
    Mem.readBuffer (Mem.writeWord m addr d 8) addr = { Mem.readBuffer m addr with d := d } := by
  simp only [Mem.readBuffer, BufferHeader.mk.injEq]
  refine ⟨Mem.readWord_write _ _ _ _ (hd.trans_eq (by decide)), ?_, ?_⟩
  · refine Mem.readWord_congr fun y _ => ?_
    exact Mem.writeWord_of_ge _ _ (by omega)
  · refine Mem.readWord_congr fun y _ => ?_
    exact Mem.writeWord_of_ge _ _ (by omega)

/-- A header with the address of a block gets a new one. -/
theorem loadBuffer_block (hroom : sizeofBuffer ≤ size)
    (hsame : ∀ y < size, mm.data c (addr + y) = mm₀.data c₀ (addr₀ + y)) (hm : mm.Mallocs)
    (hspace : mm.freshBlock < 2 ^ 64) (hd : (Mem.readBuffer (mm₀.data c₀) addr₀).d ≠ 0)
    (hbs : mm₀.bufferBytes c₀ addr₀ = some bs)
    (hlength : bs.length = (Mem.readBuffer (mm₀.data c₀) addr₀).size) (rest : List UInt8) :
    ∃ mm', loadBuffer c addr mm (bs ++ rest) = some (mm', rest) ∧
      LoadsBuffer mm₀ c₀ addr₀ mm c addr size mm' := by
  have hbuf : sizeofBuffer = 16 := rfl
  have hheader : Mem.readBuffer (mm.data c) addr = Mem.readBuffer (mm₀.data c₀) addr₀ :=
    readBuffer_congr fun y hy => hsame y (hy.trans_le hroom)
  obtain ⟨b, hb⟩ : ∃ b, b = Mem.readBuffer (mm₀.data c₀) addr₀ := ⟨_, rfl⟩
  rw [← hb] at hheader hd hlength
  obtain ⟨mm', hmm'⟩ : ∃ mm', mm' = (mm.malloc b.capacity (Mem.write (fun _ => 0) 0 bs)).1.setData c
      (Mem.writeWord (mm.data c) addr mm.freshBlock 8) := ⟨_, rfl⟩
  have hdata : mm'.data c = Mem.writeWord (mm.data c) addr mm.freshBlock 8 := by
    rw [hmm']
    exact Function.update_self ..
  have hheap : mm'.heap = Function.update mm.heap mm.freshBlock
      (some { size := b.capacity, bytes := Mem.write (fun _ => 0) 0 bs }) := by
    rw [hmm']
    rfl
  have hfresh : mm'.freshBlock = mm.freshBlock + 1 := by
    rw [hmm']
    rfl
  have hheader' : Mem.readBuffer (mm'.data c) addr = { b with d := mm.freshBlock } := by
    rw [hdata, readBuffer_writeWord _ _ hspace, hheader]
  have hne : mm.freshBlock ≠ 0 := hm.pos.ne'
  refine ⟨mm', ?_, ⟨⟨?_, ?_, ?_, ?_, ?_⟩, ?_, ?_, ?_, ?_, ?_⟩⟩
  · rw [loadBuffer, hheader]
    simp only [Mem.take_append hlength, Option.bind_eq_bind, Option.bind_some, if_neg hd]
    rw [hmm']
    rfl
  · rw [hheader', ← hb]
  · rw [hheader', ← hb]
  · rw [bufferBytes_block hheader' hne, hheap, Function.update_self, hbs, Option.map_some]
    refine congrArg some ?_
    rw [Mem.read_write _ _ hlength.le, hlength, List.drop_eq_nil_of_le (Mem.length_read ..).le,
      List.append_nil]
  · rw [hheader', ← hb]
    exact iff_of_false hne hd
  · intro _
    rw [hheader', hheap, hfresh]
    exact ⟨le_rfl, Nat.lt_succ_self _, _, Function.update_self .., rfl⟩
  · refine ⟨fun e he => ?_, ?_⟩
    · rw [hmm']
      exact Function.update_of_ne he ..
    · rw [hdata]
      exact Mem.SameOff.writeWord _ fun x hlo hhi => ⟨hlo, by omega⟩
  · intro e he
    rw [hheap, Function.update_of_ne he.ne]
  · refine ⟨hfresh ▸ Nat.succ_pos _, fun e he => ?_⟩
    rw [hfresh] at he
    rw [hheap, Function.update_of_ne (by omega)]
    exact hm.fresh e (by omega)
  · exact hfresh ▸ Nat.le_succ _
  · exact hfresh.le

theorem loadBuffer_append (hroom : sizeofBuffer ≤ size)
    (hsame : ∀ y < size, mm.data c (addr + y) = mm₀.data c₀ (addr₀ + y))
    (hstored : StoredBuffer mm₀ c₀ addr₀ size) (hm : mm.Mallocs) (hspace : mm.freshBlock < 2 ^ 64)
    (hbs : mm₀.bufferBytes c₀ addr₀ = some bs) (rest : List UInt8) :
    ∃ mm', loadBuffer c addr mm (bs ++ rest) = some (mm', rest) ∧
      LoadsBuffer mm₀ c₀ addr₀ mm c addr size mm' := by
  by_cases hd : (Mem.readBuffer (mm₀.data c₀) addr₀).d = 0
  · exact loadBuffer_inline hroom hsame hstored hm hd hbs rest
  · obtain ⟨bs', hbs', hlength⟩ := hstored.exists_bytes
    obtain rfl := Option.some.inj (hbs.symm.trans hbs')
    exact loadBuffer_block hroom hsame hm hspace hd hbs hlength rest

theorem Restored.mono {F' : Nat} (h : Restored F mm₀ c₀ addr₀ mm c addr) (hF : F' ≤ F) :
    Restored F' mm₀ c₀ addr₀ mm c addr :=
  ⟨h.size, h.capacity, h.contents, h.inline, fun hd =>
    ⟨hF.trans (h.fresh hd).1, (h.fresh hd).2⟩⟩

/-- A restored buffer stays while other bytes and new blocks are written. -/
theorem Restored.later (h : Restored F mm₀ c₀ addr₀ mm c addr) (hroom : sizeofBuffer ≤ size)
    (hstored : StoredBuffer mm₀ c₀ addr₀ size)
    (hsame : ∀ y < size, mm'.data c (addr + y) = mm.data c (addr + y))
    (hheap : ∀ e < mm.freshBlock, mm'.heap e = mm.heap e)
    (hle : mm.freshBlock ≤ mm'.freshBlock) : Restored F mm₀ c₀ addr₀ mm' c addr := by
  have hheader : Mem.readBuffer (mm'.data c) addr = Mem.readBuffer (mm.data c) addr :=
    readBuffer_congr fun y hy => hsame y (hy.trans_le hroom)
  refine ⟨by rw [hheader, h.size], by rw [hheader, h.capacity], ?_, by rw [hheader, h.inline], ?_⟩
  · rw [← h.contents]
    refine bufferBytes_congr hroom (fun hd => ?_) hsame fun hd => hheap _ (h.fresh hd).2.1
    rw [h.size]
    exact hstored.inline (h.inline.mp hd)
  · intro hd
    rw [hheader] at hd ⊢
    obtain ⟨hlo, hhi, hblock⟩ := h.fresh hd
    rw [hheap _ hhi]
    exact ⟨hlo, hhi.trans_le hle, hblock⟩

/-! ## All buffers -/

/-- The places of the buffers of a slice, in the order in which their contents are written. -/
def bufferPlaces (a : Archetype) (count : Nat) : List (Nat × Nat) :=
  (columns a.firstBuffer a.firstManaged).flatMap fun i => (List.range count).map fun j => (i, j)

theorem mem_bufferPlaces {p : Nat × Nat} {count : Nat} : p ∈ bufferPlaces a count ↔
    (a.firstBuffer ≤ p.1 ∧ p.1 < a.firstManaged) ∧ p.2 < count := by
  obtain ⟨k, j⟩ := p
  rw [bufferPlaces, List.mem_flatMap]
  constructor
  · rintro ⟨i, hi, hp⟩
    obtain ⟨l, hl, heq⟩ := List.mem_map.mp hp
    obtain ⟨rfl, rfl⟩ := Prod.mk.inj heq
    exact ⟨mem_columns.mp hi, List.mem_range.mp hl⟩
  · rintro ⟨hk, hj⟩
    exact ⟨k, mem_columns.mpr hk, List.mem_map.mpr ⟨j, List.mem_range.mpr hj, rfl⟩⟩

theorem length_bufferPlaces (hl : Layout a) (count : Nat) :
    (bufferPlaces a count).length ≤ a.firstTag * count := by
  have hsum : ((columns a.firstBuffer a.firstManaged).map fun _ => count).sum =
      (columns a.firstBuffer a.firstManaged).length * count := by
    rw [List.map_const', List.sum_replicate_nat]
  rw [bufferPlaces, List.length_flatMap]
  simp only [List.length_map, List.length_range]
  rw [hsum, columns_eq, List.length_range']
  exact Nat.mul_le_mul_right _ ((Nat.sub_le ..).trans hl.managed_le)

/-- Where the element `p` of a slice is. -/
def placeAt (a : Archetype) (ct : AllocType) (s : ChunkSlice) (p : Nat × Nat) : Nat :=
  a.address ct p.1 (s.start + p.2)

/-- The elements of a slice do not overlap. -/
theorem place_apart (hl : Layout a) (hle : s.start + s.count ≤ a.chunkCapacity ct)
    {p q : Nat × Nat} (hp : p.1 < a.firstTag ∧ p.2 < s.count)
    (hq : q.1 < a.firstTag ∧ q.2 < s.count) (hne : p ≠ q) {y : Nat} (hy : y < a.size p.1) :
    ¬ (placeAt a ct s q ≤ placeAt a ct s p + y ∧
      placeAt a ct s p + y < placeAt a ct s q + a.size q.1) := by
  rintro ⟨hlo, hhi⟩
  by_cases hk : p.1 = q.1
  · have hj : p.2 ≠ q.2 := fun h => hne (Prod.ext hk h)
    have hout : s.start + p.2 < s.start + q.2 ∨ s.start + q.2 + 1 ≤ s.start + p.2 := by omega
    have happart : a.address ct p.1 (s.start + p.2) + y < a.address ct p.1 (s.start + q.2) ∨
        a.address ct p.1 (s.start + q.2) + a.size p.1 * 1 ≤ a.address ct p.1 (s.start + p.2) + y :=
      Archetype.cell_apart hout hy
    rw [Nat.mul_one] at happart
    simp only [placeAt] at hlo hhi
    rw [← hk] at hlo hhi
    rcases happart with h | h
    · omega
    · omega
  · have hcell : a.Column ct p.1 (placeAt a ct s p + y) := Archetype.column_of_cell (by omega) hy
    have hcell' : a.Column ct q.1 (placeAt a ct s p + y) :=
      Archetype.column_of_range (show s.start + q.2 + 1 ≤ a.chunkCapacity ct by omega) hlo
        (by rwa [Nat.mul_one])
    exact hcell.apart hl hp.1 hq.1 hk hcell'

/-- Between two buffers: those of `done` are restored, the rest of the slice is as it was in the
columns that were read. -/
structure Restoring (a : Archetype) (mm₀ : Memory) (ct : AllocType) (s : ChunkSlice)
    (mm : Memory) (ct' : AllocType) (s' : ChunkSlice) (done : List (Nat × Nat)) (mm' : Memory) :
    Prop where
  restored : ∀ p ∈ done, Restored mm.freshBlock mm₀ s.c (placeAt a ct s p) mm' s'.c
    (placeAt a ct' s' p)
  waiting : ∀ p, p.1 < a.firstTag → p.2 < s.count → p ∉ done → ∀ y < a.size p.1,
    mm'.data s'.c (placeAt a ct' s' p + y) = mm₀.data s.c (placeAt a ct s p + y)
  own : ∀ p ∈ done, ∀ q ∈ done, (Mem.readBuffer (mm'.data s'.c) (placeAt a ct' s' p)).d ≠ 0 →
    (Mem.readBuffer (mm'.data s'.c) (placeAt a ct' s' p)).d =
      (Mem.readBuffer (mm'.data s'.c) (placeAt a ct' s' q)).d → p = q
  writes : Writes s'.c (a.Cells ct' s'.start s'.count) mm mm'
  heap : ∀ d < mm.freshBlock, mm'.heap d = mm.heap d
  mallocs : mm'.Mallocs
  fresh_le : mm.freshBlock ≤ mm'.freshBlock
  le_fresh : mm'.freshBlock ≤ mm.freshBlock + done.length

/-- One more buffer. -/
theorem Restoring.turn {done : List (Nat × Nat)} {q : Nat × Nat} {bs : List UInt8}
    (h : Restoring a mm₀ ct s mm ct' s' done mm') (hl : Layout a) (hroomy : a.Roomy)
    (hle : s'.start + s'.count ≤ a.chunkCapacity ct') (hcount : s'.count = s.count)
    (hdone : ∀ p ∈ done, p ∈ bufferPlaces a s.count) (hq : q ∈ bufferPlaces a s.count)
    (hnew : q ∉ done)
    (hstored : ∀ p ∈ bufferPlaces a s.count, StoredBuffer mm₀ s.c (placeAt a ct s p) (a.size p.1))
    (hspace : mm'.freshBlock < 2 ^ 64) (hbs : mm₀.bufferBytes s.c (placeAt a ct s q) = some bs)
    (rest : List UInt8) : ∃ mm'',
      loadBuffer s'.c (placeAt a ct' s' q) mm' (bs ++ rest) = some (mm'', rest) ∧
      Restoring a mm₀ ct s mm ct' s' (done ++ [q]) mm'' := by
  have hslot : ∀ p ∈ bufferPlaces a s.count, p.1 < a.firstTag ∧ p.2 < s'.count := by
    intro p hp
    obtain ⟨⟨-, hk⟩, hj⟩ := mem_bufferPlaces.mp hp
    exact ⟨hk.trans_le hl.managed_le, hcount ▸ hj⟩
  have hroom : ∀ p ∈ bufferPlaces a s.count, sizeofBuffer ≤ a.size p.1 := by
    intro p hp
    obtain ⟨⟨hk, hk'⟩, -⟩ := mem_bufferPlaces.mp hp
    exact hroomy p.1 hk hk'
  have hqs := hslot q hq
  obtain ⟨mm'', hrun, hload⟩ := loadBuffer_append (hroom q hq)
    (h.waiting q hqs.1 (hcount ▸ hqs.2) hnew) (hstored q hq) h.mallocs hspace hbs rest
  have hsame : ∀ p, p.1 < a.firstTag → p.2 < s'.count → p ≠ q → ∀ y < a.size p.1,
      mm''.data s'.c (placeAt a ct' s' p + y) = mm'.data s'.c (placeAt a ct' s' p + y) :=
    fun p hk hj hne y hy => hload.writes.same _ (place_apart hl hle ⟨hk, hj⟩ hqs hne hy)
  have hold : ∀ p ∈ done, p ≠ q := fun p hp hpq => hnew (hpq ▸ hp)
  have hheader : ∀ p ∈ done, Mem.readBuffer (mm''.data s'.c) (placeAt a ct' s' p) =
      Mem.readBuffer (mm'.data s'.c) (placeAt a ct' s' p) := by
    intro p hp
    have hps := hslot p (hdone p hp)
    exact readBuffer_congr fun y hy =>
      hsame p hps.1 hps.2 (hold p hp) y (hy.trans_le (hroom p (hdone p hp)))
  refine ⟨mm'', hrun, ?_, ?_, ?_, ?_, ?_, hload.mallocs, h.fresh_le.trans hload.fresh_le, ?_⟩
  case refine_1 =>
    intro p hp
    rcases List.mem_append.mp hp with hp | hp
    · have hps := hslot p (hdone p hp)
      exact (h.restored p hp).later (hroom p (hdone p hp)) (hstored p (hdone p hp))
        (hsame p hps.1 hps.2 (hold p hp)) hload.heap hload.fresh_le
    · rw [List.mem_singleton.mp hp]
      exact hload.restored.mono h.fresh_le
  case refine_2 =>
    intro p hk hj hp y hy
    rw [List.mem_append, List.mem_singleton, not_or] at hp
    rw [hsame p hk (hcount ▸ hj) hp.2 y hy]
    exact h.waiting p hk hj hp.1 y hy
  case refine_3 =>
    -- the blocks of earlier buffers were handed out before that of this one
    have hearlier : ∀ p ∈ done, (Mem.readBuffer (mm''.data s'.c) (placeAt a ct' s' p)).d ≠ 0 →
        (Mem.readBuffer (mm''.data s'.c) (placeAt a ct' s' p)).d < mm'.freshBlock := by
      intro p hp hd
      rw [hheader p hp] at hd ⊢
      exact ((h.restored p hp).fresh hd).2.1
    intro p hp r hr hd heq
    rcases List.mem_append.mp hp with hp' | hp'
    · rcases List.mem_append.mp hr with hr' | hr'
      · rw [hheader p hp'] at hd heq
        rw [hheader r hr'] at heq
        exact h.own p hp' r hr' hd heq
      · obtain rfl := List.mem_singleton.mp hr'
        have hlt := hearlier p hp' hd
        rw [heq] at hd hlt
        exact absurd hlt (hload.restored.fresh hd).1.not_gt
    · obtain rfl := List.mem_singleton.mp hp'
      rcases List.mem_append.mp hr with hr' | hr'
      · have hge := (hload.restored.fresh hd).1
        rw [heq] at hd hge
        exact absurd (hearlier r hr' hd) hge.not_gt
      · exact (List.mem_singleton.mp hr').symm
  case refine_4 =>
    refine h.writes.trans (hload.writes.mono fun x hx => ⟨q.1, hqs.1, ?_⟩)
    have hmul := Nat.mul_le_mul_left (a.size q.1) (Nat.succ_le_of_lt hqs.2)
    rw [Nat.mul_succ] at hmul
    simp only [placeAt] at hx
    rw [Archetype.address_add] at hx
    exact ⟨by omega, by omega⟩
  case refine_5 =>
    intro d hd
    rw [hload.heap d (hd.trans_le h.fresh_le), h.heap d hd]
  case refine_6 =>
    have hmade := h.le_fresh
    rw [List.length_append, List.length_singleton]
    exact hload.le_fresh.trans (by omega)

/-- The buffers of `places`, one after the other. -/
theorem Restoring.run (hl : Layout a) (hroomy : a.Roomy)
    (hle : s'.start + s'.count ≤ a.chunkCapacity ct') (hcount : s'.count = s.count)
    (hstored : ∀ p ∈ bufferPlaces a s.count, StoredBuffer mm₀ s.c (placeAt a ct s p) (a.size p.1))
    (hspace : mm.freshBlock + (bufferPlaces a s.count).length ≤ 2 ^ 64)
    {contents : Nat × Nat → List UInt8} (hcontents : ∀ p ∈ bufferPlaces a s.count,
      mm₀.bufferBytes s.c (placeAt a ct s p) = some (contents p)) (rest : List UInt8)
    {places done : List (Nat × Nat)} {mm' : Memory}
    (hsplit : done ++ places = bufferPlaces a s.count) (hnd : (bufferPlaces a s.count).Nodup)
    (h : Restoring a mm₀ ct s mm ct' s' done mm') : ∃ mm'',
      places.foldlM (fun (p : Memory × List UInt8) q =>
        loadBuffer s'.c (placeAt a ct' s' q) p.1 p.2) (mm', places.flatMap contents ++ rest) =
          some (mm'', rest) ∧ Restoring a mm₀ ct s mm ct' s' (bufferPlaces a s.count) mm'' := by
  induction places generalizing done mm' with
  | nil =>
      rw [List.append_nil] at hsplit
      exact ⟨mm', rfl, hsplit ▸ h⟩
  | cons q places ih =>
      have hdone : ∀ p ∈ done, p ∈ bufferPlaces a s.count := fun p hp =>
        hsplit ▸ List.mem_append_left _ hp
      have hq : q ∈ bufferPlaces a s.count :=
        hsplit ▸ List.mem_append_right _ List.mem_cons_self
      have hnew : q ∉ done := fun hmem =>
        (List.nodup_append.mp (hsplit ▸ hnd)).2.2 q hmem q List.mem_cons_self rfl
      have hlength := congrArg List.length hsplit
      rw [List.length_append, List.length_cons] at hlength
      have hmade := h.le_fresh
      obtain ⟨mm₁, hrun, hturn⟩ := h.turn hl hroomy hle hcount hdone hq hnew hstored (by omega)
        (hcontents q hq) (places.flatMap contents ++ rest)
      obtain ⟨mm'', hrest, hall⟩ := ih (by rw [← hsplit, List.append_assoc]; rfl) hturn
      refine ⟨mm'', ?_, hall⟩
      rw [List.flatMap_cons, List.append_assoc, List.foldlM_cons]
      dsimp only
      rw [hrun]
      exact hrest

/-! ## A whole slice -/

/-- The handles of a slice, as they are written. -/
def handleBytes (mm : Memory) (s : ChunkSlice) : List UInt8 :=
  Mem.read (mm.data s.c) (sizeofEntity * s.start) (sizeofEntity * s.count)

/-- The handles, then the columns, then the contents of the buffers. -/
theorem saveSlice_eq {contents : Nat × Nat → List UInt8} (hcontents : ∀ p ∈ bufferPlaces a s.count,
      mm.bufferBytes s.c (placeAt a ct s p) = some (contents p)) :
    mm.saveSlice a ct s = some (handleBytes mm s ++
      ((List.range a.firstTag).flatMap (columnBytes mm a ct s) ++
        (bufferPlaces a s.count).flatMap contents)) := by
  have hrow : ∀ i ∈ columns a.firstBuffer a.firstManaged,
      ((List.range s.count).mapM fun j => mm.bufferBytes s.c (a.address ct i (s.start + j))) =
        some ((List.range s.count).map fun j => contents (i, j)) := by
    intro i hi
    refine mapM_eq_map fun j hj => hcontents (i, j) ?_
    exact mem_bufferPlaces.mpr ⟨mem_columns.mp hi, List.mem_range.mp hj⟩
  have hall : (((columns a.firstBuffer a.firstManaged).map fun i =>
      (List.range s.count).map fun j => contents (i, j)).map List.flatten).flatten =
        (bufferPlaces a s.count).flatMap contents := by
    rw [bufferPlaces, List.flatMap_assoc, List.map_map, ← List.flatMap_def]
    refine List.flatMap_congr fun i _ => ?_
    rw [List.flatMap_map, Function.comp, List.flatMap_def]
  simp only [saveSlice]
  rw [mapM_eq_map hrow, Option.bind_eq_bind, Option.bind_some, hall, List.append_assoc]
  rfl

theorem loadSlice_eq (mm : Memory) (a : Archetype) (ct : AllocType) (s : ChunkSlice)
    (bs : List UInt8) : mm.loadSlice a ct s bs =
      (Mem.take (sizeofEntity * s.count) bs).bind fun p =>
        ((List.range a.firstTag).foldlM (fun (p : Memory × List UInt8) i =>
          loadColumn a ct s p.1 p.2 i) (mm.setData s.c
            (Mem.write (mm.data s.c) (sizeofEntity * s.start) p.1), p.2)).bind fun p =>
        (bufferPlaces a s.count).foldlM (fun (p : Memory × List UInt8) q =>
          loadBuffer s.c (placeAt a ct s q) p.1 p.2) p := by
  simp only [bufferPlaces, foldlM_flatMap, List.foldlM_map]
  rfl

/-- A slice with the handles, the elements and the contents of buffers of another. -/
structure Decoded (a : Archetype) (mm₀ : Memory) (ct : AllocType) (s : ChunkSlice)
    (mm : Memory) (ct' : AllocType) (s' : ChunkSlice) (mm' : Memory) : Prop where
  handles : ∀ j < s.count, mm'.entityAt s'.c (s'.start + j) = mm₀.entityAt s.c (s.start + j)
  plain : ∀ k < a.firstTag, ¬ (a.firstBuffer ≤ k ∧ k < a.firstManaged) → ∀ j < s.count,
    mm'.cell s'.c a ct' k (s'.start + j) = mm₀.cell s.c a ct k (s.start + j)
  buffers : ∀ k j, a.firstBuffer ≤ k → k < a.firstManaged → j < s.count →
    Restored mm.freshBlock mm₀ s.c (a.address ct k (s.start + j)) mm' s'.c
      (a.address ct' k (s'.start + j))
  own : ∀ p ∈ bufferPlaces a s.count, ∀ q ∈ bufferPlaces a s.count,
    (Mem.readBuffer (mm'.data s'.c) (placeAt a ct' s' p)).d ≠ 0 →
    (Mem.readBuffer (mm'.data s'.c) (placeAt a ct' s' p)).d =
      (Mem.readBuffer (mm'.data s'.c) (placeAt a ct' s' q)).d → p = q
  heap : ∀ d < mm.freshBlock, mm'.heap d = mm.heap d
  outside : ∀ c ≠ s'.c, mm'.data c = mm.data c

theorem nodup_bufferPlaces (a : Archetype) (count : Nat) : (bufferPlaces a count).Nodup := by
  refine List.nodup_flatMap.mpr ⟨fun i _ => ?_, ?_⟩
  · exact List.nodup_range.map fun j l h => congrArg Prod.snd h
  · refine (nodup_columns _ _).imp fun {i k} hne p hp hp' => ?_
    obtain ⟨j, -, rfl⟩ := List.mem_map.mp hp
    obtain ⟨l, -, heq⟩ := List.mem_map.mp hp'
    exact hne (congrArg Prod.fst heq).symm

/-- Handles that were written, before the columns behind them. -/
theorem entityAt_load (hl : Layout a) (hle : s'.start + s'.count ≤ a.chunkCapacity ct')
    (hcount : s'.count = s.count) {mm₁ : Memory} (hmm₁ : mm₁ = mm.setData s'.c
      (Mem.write (mm.data s'.c) (sizeofEntity * s'.start) (handleBytes mm₀ s)))
    (hwrites : Writes s'.c (a.Cells ct' s'.start s'.count) mm₁ mm') (hj : j < s.count) :
    mm'.entityAt s'.c (s'.start + j) = mm₀.entityAt s.c (s.start + j) := by
  have hsize : sizeofEntity = 4 := rfl
  simp only [entityAt, Mem.readEntity, Entity.mk.injEq]
  refine Mem.readWord_congr fun y hy => ?_
  have hin : sizeofEntity * j + y < sizeofEntity * s.count := by
    rw [hsize]
    omega
  rw [hwrites.same, hmm₁]
  · simp only [setData, Function.update_self]
    rw [Nat.mul_add, Nat.mul_add, Nat.add_assoc, Nat.add_assoc]
    exact Mem.write_read_at _ _ _ _ hin
  · intro hcell
    have hbehind := hcell.handles_le hl
    rw [hsize] at hbehind
    omega

/-- What is written of a slice is read into any other of its size, and no more than that. -/
theorem loadSlice_saveSlice {ctx : Context} {key : EntityType}
    (hbuilt : constructArchetype ctx key = some a) (hroomy : a.Roomy)
    (hle' : s'.start + s'.count ≤ a.chunkCapacity ct') (hcount : s'.count = s.count)
    (hstored : ∀ k j, a.firstBuffer ≤ k → k < a.firstManaged → j < s.count →
      StoredBuffer mm₀ s.c (a.address ct k (s.start + j)) (a.size k))
    (hm : mm.Mallocs) (hspace : mm.freshBlock + a.firstTag * s.count ≤ 2 ^ 64) :
    ∃ bytes, mm₀.saveSlice a ct s = some bytes ∧ ∀ rest, ∃ mm',
      mm.loadSlice a ct' s' (bytes ++ rest) = some (mm', rest) ∧
        Decoded a mm₀ ct s mm ct' s' mm' := by
  have hl := constructArchetype_layout hbuilt
  have hstored' : ∀ p ∈ bufferPlaces a s.count,
      StoredBuffer mm₀ s.c (placeAt a ct s p) (a.size p.1) := by
    intro p hp
    obtain ⟨⟨hk, hk'⟩, hj⟩ := mem_bufferPlaces.mp hp
    exact hstored p.1 p.2 hk hk' hj
  have hbytes : ∀ p : Nat × Nat, ∃ bs, p ∈ bufferPlaces a s.count →
      mm₀.bufferBytes s.c (placeAt a ct s p) = some bs := by
    intro p
    by_cases hp : p ∈ bufferPlaces a s.count
    · obtain ⟨bs, hbs, -⟩ := (hstored' p hp).exists_bytes
      exact ⟨bs, fun _ => hbs⟩
    · exact ⟨[], fun h => absurd h hp⟩
  choose contents hcontents using hbytes
  refine ⟨_, saveSlice_eq hcontents, fun rest => ?_⟩
  obtain ⟨mm₁, hmm₁⟩ : ∃ mm₁, mm₁ = mm.setData s'.c
    (Mem.write (mm.data s'.c) (sizeofEntity * s'.start) (handleBytes mm₀ s)) := ⟨_, rfl⟩
  have hother : ∀ c ≠ s'.c, mm₁.data c = mm.data c := by
    intro c hc
    rw [hmm₁]
    exact Function.update_of_ne hc ..
  have hheap₁ : mm₁.heap = mm.heap := hmm₁ ▸ rfl
  have hfresh₁ : mm₁.freshBlock = mm.freshBlock := hmm₁ ▸ rfl
  obtain ⟨mm₂, hcolumns, hwrites, hheap, hfresh, hsame⟩ := loadColumns hl hle' hcount
    List.nodup_range (fun i hi => List.mem_range.mp hi) mm₀ mm₁ ct
    ((bufferPlaces a s.count).flatMap contents ++ rest)
  have hstrips : Writes s'.c (a.Cells ct' s'.start s'.count) mm₁ mm₂ :=
    hwrites.mono fun x ⟨i, hi, hx⟩ => ⟨i, List.mem_range.mp hi, hx⟩
  have hstart : Restoring a mm₀ ct s mm₂ ct' s' [] mm₂ := by
    refine ⟨fun p hp => absurd hp List.not_mem_nil, ?_, fun p hp => absurd hp List.not_mem_nil,
      .refl _ _ _, fun _ _ => rfl, ⟨?_, ?_⟩, le_rfl, Nat.le_add_right ..⟩
    · intro p hk hj _ y hy
      have hmul := Nat.mul_le_mul_left (a.size p.1) (Nat.succ_le_of_lt hj)
      rw [Nat.mul_succ] at hmul
      simp only [placeAt]
      rw [Archetype.address_add, Archetype.address_add, Nat.add_assoc, Nat.add_assoc]
      exact hsame p.1 (List.mem_range.mpr hk) _ (by omega)
    · rw [hfresh, hfresh₁]
      exact hm.pos
    · rw [hheap, hheap₁, hfresh, hfresh₁]
      exact hm.fresh
  have hlength := length_bufferPlaces hl s.count
  obtain ⟨mm', hbuffers, hall⟩ := Restoring.run hl hroomy hle' hcount hstored'
    (by rw [hfresh, hfresh₁]; omega) hcontents rest rfl (nodup_bufferPlaces a s.count) hstart
  refine ⟨mm', ?_, ?_, ?_, ?_, hall.own, ?_, ?_⟩
  · rw [loadSlice_eq, List.append_assoc, List.append_assoc, hcount,
      Mem.take_append (show (handleBytes mm₀ s).length = _ from Mem.length_read ..),
      Option.bind_some, ← hmm₁, hcolumns, Option.bind_some]
    exact hbuffers
  · exact fun j hj => entityAt_load hl hle' hcount hmm₁ (hstrips.trans hall.writes) hj
  · intro k hk hplain j hj
    refine Mem.read_eq fun y hy => hall.waiting (k, j) hk hj (fun hp => hplain ?_) y hy
    exact (mem_bufferPlaces.mp hp).1
  · intro k j hk hk' hj
    have hrestored := hall.restored (k, j) (mem_bufferPlaces.mpr ⟨⟨hk, hk'⟩, hj⟩)
    rwa [hfresh, hfresh₁] at hrestored
  · intro d hd
    rw [hall.heap d (by rwa [hfresh, hfresh₁]), hheap, hheap₁]
  · intro c hc
    rw [hall.writes.other c hc, hstrips.other c hc, hother c hc]

/-! Two entities with groups go from a fast bin to a small one: the group of the first is behind
its header, that of the second in block 1. -/

def twoHeaders : Mem := fun x =>
  match x with
  | 9428 => 2 | 9430 => 4 | 9436 => 7
  | 9440 => 1 | 9448 => 1 | 9450 => 8
  | _ => 0

theorem loadSlice_twoHeaders : ∃ (a : Archetype) (mm : Memory),
    let s : ChunkSlice := { c := 0, start := 3, count := 2 }
    let s' : ChunkSlice := { c := 1, start := 5, count := 2 }
    (mm.bufferBytes 0 9420 = some [7, 0] ∧ mm.bufferBytes 0 9440 = some [5]) ∧
    ∃ bytes, mm.saveSlice a .fastbin s = some bytes ∧ ∀ rest, ∃ mm',
      mm.loadSlice a .smallbin s' (bytes ++ rest) = some (mm', rest) ∧
        Decoded a mm .fastbin s mm .smallbin s' mm' := by
  have hfacts : ((constructArchetype World.grouped { types := [4, World.grouped.groupId] }).map
      fun a => [a.firstBuffer, a.firstManaged, a.firstTag, a.chunkCapacity .smallbin, a.size 1,
        a.address .fastbin 1 3, a.address .fastbin 1 4]) = some [1, 2, 2, 35, 20, 9420, 9440] := by
    decide +kernel
  obtain ⟨a, hbuilt, hfacts⟩ := Option.map_eq_some_iff.mp hfacts
  simp only [List.cons.injEq, and_true] at hfacts
  obtain ⟨hbuffer, hmanaged, htag, hcap, hsize, hfirst, hsecond⟩ := hfacts
  let mm : Memory :=
    { data := fun c => if c = 0 then twoHeaders else fun _ => 0
      heap := fun d => if d = 1 then some { size := 8, bytes := fun _ => 5 } else none
      freshBlock := 2, guids := fun _ => [], guidCount := 0 }
  have hinline : Mem.readBuffer (mm.data 0) 9420 = { d := 0, size := 2, capacity := 4 } := by
    decide +kernel
  have hblock : Mem.readBuffer (mm.data 0) 9440 = { d := 1, size := 1, capacity := 8 } := by
    decide +kernel
  have hm : mm.Mallocs := by
    refine ⟨Nat.two_pos, fun d hd => ?_⟩
    exact if_neg (by
      change 2 ≤ d at hd
      omega)
  refine ⟨a, mm, ⟨by decide +kernel, by decide +kernel⟩,
    loadSlice_saveSlice hbuilt ?_ ?_ rfl ?_ hm ?_⟩
  · intro k hk hk'
    obtain rfl : k = 1 := by omega
    rw [hsize]
    decide
  · rw [hcap]
    decide
  · intro k j hk hk' hj
    obtain rfl : k = 1 := by omega
    rw [hsize]
    rcases Nat.lt_or_ge j 1 with hj₁ | hj₁
    · obtain rfl : j = 0 := by omega
      constructor
      · rw [hfirst, hinline]
        decide
      · intro _
        rw [hfirst, hinline]
        decide
      · intro hd
        rw [hfirst, hinline] at hd
        exact absurd rfl hd
    · obtain rfl : j = 1 := by
        change j < 2 at hj
        omega
      constructor
      · rw [hsecond, hblock]
        decide
      · intro hd
        rw [hsecond, hblock] at hd
        exact absurd hd Nat.one_ne_zero
      · intro _
        rw [hsecond, hblock]
        exact Option.some_ne_none _
  · rw [htag]
    decide

end Memory

end Dots

import Dots.Database.Codec
import Dots.Database.Placing
import Dots.Database.Snapshot

/-!
# Slices that are loaded one after the other

A slice is decoded into slots that were not in use, and its buffers get blocks that were not
handed out, so that what was loaded before stays as it was.
-/

namespace Dots

open Library

namespace Memory

variable {mm mm' mm₀ mm₁ : Memory} {a : Archetype} {ct ct' ct₀ : AllocType} {s s' : ChunkSlice}
  {c c₀ : ChunkId} {F j j₀ : Nat}

/-- A slot with the handle and the elements of another one. Its buffers have the contents of the
others, in blocks that were not handed out before `F`. -/
structure Copies (F : Nat) (a : Archetype) (mm₀ : Memory) (c₀ : ChunkId) (ct₀ : AllocType)
    (j₀ : Nat) (mm : Memory) (c : ChunkId) (ct : AllocType) (j : Nat) : Prop where
  handle : mm.entityAt c j = mm₀.entityAt c₀ j₀
  plain : ∀ k < a.firstTag, ¬ (a.firstBuffer ≤ k ∧ k < a.firstManaged) →
    mm.cell c a ct k j = mm₀.cell c₀ a ct₀ k j₀
  buffers : ∀ k, a.firstBuffer ≤ k → k < a.firstManaged →
    Restored F mm₀ c₀ (a.address ct₀ k j₀) mm c (a.address ct k j)

/-- The bytes of a slice: its handles, and the elements of its slots. -/
def SliceBytes (a : Archetype) (ct : AllocType) (s : ChunkSlice) (x : Nat) : Prop :=
  sizeofEntity * s.start ≤ x ∧ x < sizeofEntity * (s.start + s.count) ∨
    a.Cells ct s.start s.count x

/-- What loading a slice does. -/
structure LoadsSlice (a : Archetype) (mm₀ : Memory) (ct₀ : AllocType) (s : ChunkSlice)
    (mm : Memory) (ct : AllocType) (s' : ChunkSlice) (mm' : Memory) : Prop where
  copies : ∀ j < s.count,
    Copies mm.freshBlock a mm₀ s.c ct₀ (s.start + j) mm' s'.c ct (s'.start + j)
  writes : Writes s'.c (SliceBytes a ct s') mm mm'
  heap : ∀ d < mm.freshBlock, mm'.heap d = mm.heap d
  mallocs : mm'.Mallocs
  fresh_le : mm.freshBlock ≤ mm'.freshBlock
  le_fresh : mm'.freshBlock ≤ mm.freshBlock + a.firstTag * s.count

/-- The handles are written first. -/
theorem writes_handles (a : Archetype) (ct : AllocType) (hcount : s'.count = s.count) :
    Writes s'.c (SliceBytes a ct s') mm (mm.setData s'.c
      (Mem.write (mm.data s'.c) (sizeofEntity * s'.start) (handleBytes mm₀ s))) := by
  refine Writes.setData (Mem.SameOff.write fun x hlo hhi => Or.inl ⟨hlo, ?_⟩)
  rwa [handleBytes, Mem.length_read, ← hcount, ← Nat.mul_add] at hhi

/-- The buffers of a slice all wait for their contents when the columns have been read. -/
theorem Restoring.start (hm : mm.Mallocs) (hsame : ∀ i ∈ List.range a.firstTag,
      ∀ x < a.size i * s.count, mm.data s'.c (a.address ct' i s'.start + x) =
        mm₀.data s.c (a.address ct i s.start + x)) :
    Restoring a mm₀ ct s mm ct' s' [] mm := by
  refine ⟨fun p hp => absurd hp List.not_mem_nil, ?_, fun p hp => absurd hp List.not_mem_nil,
    .refl _ _ _, fun _ _ => rfl, hm, le_rfl, Nat.le_add_right ..⟩
  intro p hk hj _ y hy
  have hmul := Nat.mul_le_mul_left (a.size p.1) (Nat.succ_le_of_lt hj)
  rw [Nat.mul_succ] at hmul
  simp only [placeAt]
  rw [Archetype.address_add, Archetype.address_add, Nat.add_assoc, Nat.add_assoc]
  exact hsame p.1 (List.mem_range.mpr hk) _ (by omega)

theorem saveSlice_contents (mm₀ : Memory) (a : Archetype) (ct : AllocType) (s : ChunkSlice)
    (hstored : ∀ k j, a.firstBuffer ≤ k → k < a.firstManaged → j < s.count →
      StoredBuffer mm₀ s.c (a.address ct k (s.start + j)) (a.size k)) :
    ∃ contents : Nat × Nat → List UInt8,
      (∀ p ∈ bufferPlaces a s.count,
        mm₀.bufferBytes s.c (placeAt a ct s p) = some (contents p)) ∧
      mm₀.saveSlice a ct s = some (handleBytes mm₀ s ++
        ((List.range a.firstTag).flatMap (columnBytes mm₀ a ct s) ++
          (bufferPlaces a s.count).flatMap contents)) := by
  have hbytes : ∀ p ∈ bufferPlaces a s.count,
      ∃ bs, mm₀.bufferBytes s.c (placeAt a ct s p) = some bs := by
    intro p hp
    obtain ⟨⟨hk, hk'⟩, hj⟩ := mem_bufferPlaces.mp hp
    obtain ⟨bs, hbs, -⟩ := (hstored p.1 p.2 hk hk' hj).exists_bytes
    exact ⟨bs, hbs⟩
  choose! contents hcontents using hbytes
  exact ⟨contents, hcontents, saveSlice_eq hcontents⟩

/-- What is written of a slice is read into any other of its size, beside what is there. -/
theorem loadsSlice {ctx : Context} {key : EntityType} (mm₀ : Memory) (ct : AllocType)
    (s : ChunkSlice) (hbuilt : constructArchetype ctx key = some a) (hroomy : a.Roomy)
    (hle' : s'.start + s'.count ≤ a.chunkCapacity ct') (hcount : s'.count = s.count)
    (hstored : ∀ k j, a.firstBuffer ≤ k → k < a.firstManaged → j < s.count →
      StoredBuffer mm₀ s.c (a.address ct k (s.start + j)) (a.size k)) :
    ∃ bytes, mm₀.saveSlice a ct s = some bytes ∧ ∀ mm : Memory, mm.Mallocs →
      mm.freshBlock + a.firstTag * s.count ≤ 2 ^ 64 → ∀ rest, ∃ mm',
        mm.loadSlice a ct' s' (bytes ++ rest) = some (mm', rest) ∧
          LoadsSlice a mm₀ ct s mm ct' s' mm' := by
  have hl := constructArchetype_layout hbuilt
  obtain ⟨contents, hcontents, hsave⟩ := saveSlice_contents mm₀ a ct s hstored
  refine ⟨_, hsave, fun mm hm hspace rest => ?_⟩
  obtain ⟨mm₁, hmm₁⟩ : ∃ mm₁, mm₁ = mm.setData s'.c
    (Mem.write (mm.data s'.c) (sizeofEntity * s'.start) (handleBytes mm₀ s)) := ⟨_, rfl⟩
  have hhandles : Writes s'.c (SliceBytes a ct' s') mm mm₁ := hmm₁ ▸ writes_handles a ct' hcount
  obtain ⟨mm₂, hcolumns, hwrites, hheap, hfresh, hsame⟩ := loadColumns hl hle' hcount
    List.nodup_range (fun i hi => List.mem_range.mp hi) mm₀ mm₁ ct
    ((bufferPlaces a s.count).flatMap contents ++ rest)
  have hstrips : Writes s'.c (a.Cells ct' s'.start s'.count) mm₁ mm₂ :=
    hwrites.mono fun x ⟨i, hi, hx⟩ => ⟨i, List.mem_range.mp hi, hx⟩
  have hheap₂ : mm₂.heap = mm.heap := hheap.trans (hmm₁ ▸ rfl)
  have hfresh₂ : mm₂.freshBlock = mm.freshBlock := hfresh.trans (hmm₁ ▸ rfl)
  have hm₂ : mm₂.Mallocs := by
    refine ⟨?_, ?_⟩
    · rw [hfresh₂]
      exact hm.pos
    · rw [hheap₂, hfresh₂]
      exact hm.fresh
  have hlength := length_bufferPlaces hl s.count
  obtain ⟨mm', hbuffers, hall⟩ := Restoring.run hl hroomy hle' hcount
    (fun p hp => by
      obtain ⟨⟨hk, hk'⟩, hj⟩ := mem_bufferPlaces.mp hp
      exact hstored p.1 p.2 hk hk' hj)
    (by rw [hfresh₂]; omega) hcontents rest rfl (nodup_bufferPlaces a s.count)
    (Restoring.start hm₂ hsame)
  have hcells := hstrips.trans hall.writes
  refine ⟨mm', ?_, fun j hj => ⟨?_, ?_, ?_⟩, ?_, ?_, hall.mallocs, ?_, ?_⟩
  · rw [loadSlice_eq, List.append_assoc, List.append_assoc, hcount,
      Mem.take_append (show (handleBytes mm₀ s).length = _ from Mem.length_read ..),
      Option.bind_some, ← hmm₁, hcolumns, Option.bind_some]
    exact hbuffers
  · exact entityAt_load hl hle' hcount hmm₁ hcells hj
  · intro k hk hplain
    refine Mem.read_eq fun y hy => hall.waiting (k, j) hk hj (fun hp => hplain ?_) y hy
    exact (mem_bufferPlaces.mp hp).1
  · intro k hk hk'
    have hrestored := hall.restored (k, j) (mem_bufferPlaces.mpr ⟨⟨hk, hk'⟩, hj⟩)
    rwa [hfresh₂] at hrestored
  · exact hhandles.trans (hcells.mono fun x hx => Or.inr hx)
  · intro d hd
    rw [hall.heap d (by rwa [hfresh₂]), hheap₂]
  · rw [← hfresh₂]
    exact hall.fresh_le
  · have hmade := hall.le_fresh
    rw [hfresh₂] at hmade
    omega

/-! ## What stays -/

theorem SliceBytes.behind (hl : Layout a) (hle : s.start + s.count ≤ a.chunkCapacity ct)
    (hj : j < s.start) {x : Nat} (hx : SliceBytes a ct s x) : sizeofEntity * (j + 1) ≤ x := by
  rcases hx with ⟨hlo, -⟩ | hcell
  · exact (Nat.mul_le_mul_left _ hj).trans hlo
  · exact (Nat.mul_le_mul_left _ (by omega)).trans (hcell.handles_le hl)

theorem SliceBytes.not_cell (hl : Layout a) (hle : s.start + s.count ≤ a.chunkCapacity ct)
    (hj : j < s.start) {k y : Nat} (hk : k < a.firstTag) (hy : y < a.size k) :
    ¬ SliceBytes a ct s (a.address ct k j + y) := by
  rintro (⟨-, hhi⟩ | hcell)
  · have hhandles := hl.handles_le ct k hk
    have hmul := Nat.mul_le_mul_left sizeofEntity hle
    simp only [Archetype.address] at hhi
    omega
  · exact hcell.not_cell hl hle hk (by omega) (Or.inl hj) hy

/-- A slot in front of a slice that is written stays as it is, and so do those in other chunks. -/
theorem Copies.later (h : Copies F a mm₀ c₀ ct₀ j₀ mm c ct j) (hl : Layout a) (hroomy : a.Roomy)
    (hstored : ∀ k, a.firstBuffer ≤ k → k < a.firstManaged →
      StoredBuffer mm₀ c₀ (a.address ct₀ k j₀) (a.size k))
    {b : Archetype} (hw : Writes s.c (SliceBytes b ct' s) mm mm')
    (hslot : c = s.c → b = a ∧ ct' = ct ∧ s.start + s.count ≤ a.chunkCapacity ct ∧ j < s.start)
    (hheap : ∀ d < mm.freshBlock, mm'.heap d = mm.heap d)
    (hle : mm.freshBlock ≤ mm'.freshBlock) : Copies F a mm₀ c₀ ct₀ j₀ mm' c ct j := by
  have hcell : ∀ k < a.firstTag, ∀ y < a.size k,
      mm'.data c (a.address ct k j + y) = mm.data c (a.address ct k j + y) := by
    intro k hk y hy
    by_cases hc : c = s.c
    · obtain ⟨rfl, rfl, hcap, hj⟩ := hslot hc
      rw [hc]
      exact hw.same _ (SliceBytes.not_cell hl hcap hj hk hy)
    · rw [hw.other c hc]
  refine ⟨?_, fun k hk hplain => ?_, fun k hk hk' => ?_⟩
  · rw [← h.handle]
    refine Entities.entityAt_of_writes hw fun hc x hx => ?_
    obtain ⟨rfl, rfl, hcap, hj⟩ := hslot hc
    exact hx.behind hl hcap hj
  · rw [← h.plain k hk hplain]
    exact Mem.read_eq (hcell k hk)
  · exact (h.buffers k hk hk').later (hroomy k hk hk') (hstored k hk hk')
      (hcell k (hk'.trans_le hl.managed_le)) hheap hle

end Memory

/-! ## The entries of a slice -/

namespace Entities

variable {ents ents' : Entities} {c : ChunkId} {start n : Nat} {handle : Nat → Entity}

/-- The handles of a slice get their entries, and no other id. -/
structure Restored (ents : Entities) (c : ChunkId) (start n : Nat) (handle : Nat → Entity)
    (ents' : Entities) : Prop where
  size : ents'.size = ents.size
  free : ents'.free = ents.free
  raw : ents'.raw = ents.raw
  other : ∀ id, (∀ i < n, (handle i).id ≠ id) → ents'.datas id = ents.datas id
  entry : (∀ i < n, ∀ j < n, (handle i).id = (handle j).id → i = j) → ∀ i < n,
    ents'.datas (handle i).id =
      { c := .chunk c, i := (start + i) % 2 ^ 24, v := (handle i).version }

theorem restore_run (ents : Entities) (c : ChunkId) (start n : Nat) (handle : Nat → Entity)
    (h : ∀ i < n, (handle i).id < ents.size) : ∃ ents',
    (List.range n).foldlM (fun (ents : Entities) i => ents.restore c (start + i) (handle i)) ents =
      some ents' ∧ Restored ents c start n handle ents' := by
  induction n with
  | zero =>
      exact ⟨ents, rfl, rfl, rfl, rfl, fun _ _ => rfl, fun _ i hi => absurd hi (Nat.not_lt_zero i)⟩
  | succ n ih =>
      obtain ⟨ents₁, hrun, hres⟩ := ih fun i hi => h i (Nat.lt_succ_of_lt hi)
      have hlast : (handle n).id < ents₁.size := hres.size ▸ h n (Nat.lt_succ_self n)
      refine ⟨ents₁.setData (handle n).id
        { c := .chunk c, i := (start + n) % 2 ^ 24, v := (handle n).version },
        ?_, hres.size, hres.free, hres.raw, fun id hid => ?_, fun hinj i hi => ?_⟩
      · rw [List.range_succ, List.foldlM_append, hrun, Option.bind_eq_bind, Option.bind_some,
          List.foldlM_cons, restore, if_pos hlast]
        rfl
      · rw [setData_datas, if_neg (hid n (Nat.lt_succ_self n)).symm]
        exact hres.other id fun i hi => hid i (Nat.lt_succ_of_lt hi)
      · rw [setData_datas]
        by_cases hin : i = n
        · rw [hin, if_pos rfl]
        · have hne : (handle i).id ≠ (handle n).id :=
            fun heq => hin (hinj i hi n (Nat.lt_succ_self n) heq)
          rw [if_neg hne]
          exact hres.entry (fun i hi j hj => hinj i (Nat.lt_succ_of_lt hi) j (Nat.lt_succ_of_lt hj))
            i (Nat.lt_of_le_of_ne (Nat.lt_succ_iff.mp hi) hin)

/-! ## The free list -/

/-- Of the entries up to `n` those without a chunk are on the free list, less id 0, which is its
null link. -/
structure Emptied (ents : Entities) (n : Nat) (ents' : Entities) : Prop where
  size : ents'.size = ents.size
  raw : ents'.raw = ents.raw
  chunk : ∀ id c, (ents.datas id).c = .chunk c → ents'.datas id = ents.datas id
  version : ∀ id, (ents'.datas id).v = (ents.datas id).v
  later : ∀ id, n ≤ id → ents'.datas id = ents.datas id
  list : ∃ l, FreeList ents' l ∧
    ∀ id, id ∈ l ↔ id ≠ 0 ∧ id < n ∧ (ents.datas id).c = .nextFree 0

theorem Emptied.turn (h : Emptied ents n ents') (hn : n < ents.size) :
    Emptied ents (n + 1) (ents'.freeEmpty n) := by
  obtain ⟨l, hl, hmem⟩ := h.list
  have hlt : ∀ id ∈ l, id < n := fun id hid => ((hmem id).mp hid).2.1
  have hsame := h.later n le_rfl
  unfold freeEmpty
  split_ifs with hnull
  · have hentry : ∀ id, ((ents'.setData n { ents'.datas n with c := .nextFree ents'.free }).datas
        id) = if id = n then { ents'.datas n with c := .nextFree ents'.free } else ents'.datas id :=
      fun id => setData_datas ..
    refine ⟨h.size, h.raw, fun id c hc => ?_, fun id => ?_, fun id hid => ?_, ?_⟩
    · dsimp only
      rw [hentry, if_neg]
      · exact h.chunk id c hc
      · rintro rfl
        rw [hsame, hc] at hnull
        exact Location.noConfusion hnull
    · dsimp only
      rw [hentry]
      split_ifs with hid
      · exact hid ▸ h.version n
      · exact h.version id
    · dsimp only
      rw [hentry, if_neg (by omega)]
      exact h.later id (Nat.le_of_succ_le hid)
    · by_cases h0 : n = 0
      · -- id 0 is the null link
        refine ⟨[], ⟨by simp [Links.Path, freeLink, h0], by simp⟩, fun id => ?_⟩
        simp only [List.not_mem_nil, false_iff, not_and]
        omega
      · have hother : ∀ id ∈ l, ((ents'.setData n
            { ents'.datas n with c := .nextFree ents'.free }).datas id) = ents'.datas id :=
          fun id hid => by rw [hentry, if_neg (hlt id hid).ne]
        refine ⟨n :: l, ⟨⟨freeLink_eq_some.mpr ⟨rfl, h0⟩, ?_⟩, ?_⟩, ?_⟩
        · rw [freeNext_of_nextFree (n := ents'.free) (by dsimp only; rw [hentry, if_pos rfl])]
          exact hl.path.congr fun id hid => freeNext_congr (hother id hid)
        · intro id hid
          rcases List.mem_cons.mp hid with rfl | hid
          · exact ⟨h.size ▸ hn, ents'.free, by dsimp only; rw [hentry, if_pos rfl]⟩
          · dsimp only
            rw [hother id hid]
            exact hl.free id hid
        · intro id
          rw [hsame] at hnull
          rw [List.mem_cons, hmem]
          constructor
          · rintro (rfl | ⟨hne, hid, hc⟩)
            · exact ⟨h0, Nat.lt_succ_self _, hnull⟩
            · exact ⟨hne, Nat.lt_succ_of_lt hid, hc⟩
          · rintro ⟨hne, hid, hc⟩
            exact (Nat.lt_succ_iff_lt_or_eq.mp hid).symm.imp_right fun hid => ⟨hne, hid, hc⟩
  · refine ⟨h.size, h.raw, h.chunk, h.version, fun id hid => h.later id (Nat.le_of_succ_le hid),
      l, hl, fun id => ?_⟩
    rw [hsame] at hnull
    rw [hmem]
    constructor
    · exact fun hid => ⟨hid.1, Nat.lt_succ_of_lt hid.2.1, hid.2.2⟩
    · rintro ⟨hne, hid, hc⟩
      refine ⟨hne, (Nat.lt_succ_iff_lt_or_eq.mp hid).resolve_right ?_, hc⟩
      rintro rfl
      exact hnull hc

/-- The free list has all ids but 0 that are in no slot. -/
theorem emptied_rebuildFree (h : ents.free = 0) : Emptied ents ents.size ents.rebuildFree := by
  suffices hall : ∀ n ≤ ents.size, Emptied ents n ((List.range n).foldl freeEmpty ents) from
    hall ents.size le_rfl
  intro n
  induction n with
  | zero =>
      exact fun _ => ⟨rfl, rfl, fun _ _ _ => rfl, fun _ => rfl, fun _ _ => rfl, [],
        ⟨by simp [Links.Path, freeLink, h], by simp⟩, by simp⟩
  | succ n ih =>
      intro hn
      rw [List.range_succ, List.foldl_append]
      exact (ih (Nat.le_of_succ_le hn)).turn hn

end Entities

end Dots

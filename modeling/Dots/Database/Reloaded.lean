import Dots.Database.Directory
import Dots.Database.Reloading

/-!
# A world that is saved and loaded again

The loader goes through the chunks that were written. After each of them the slots in use are
copies of the slots of the chunks so far, one of each, and the table leads to them.
-/

namespace Dots

open Library Entities

/-- Whatever number of chunks there are, `n` entities fit the chunk that is made for them. -/
def Archetype.Loadable (a : Archetype) (n : Nat) : Prop :=
  ∀ k, n ≤ a.chunkCapacity (Store.loadChunkBin k (n * a.entitySize % 2 ^ 32))

theorem Store.loadFits_of_loadable {st : Store} {g : ArchetypeId} {a : Archetype}
    {fulls frees : List ChunkId} {n : Nat} (hch : Store.Chain st g a fulls frees)
    (hsmall : ∀ ct, a.chunkCapacity ct < 2 ^ 24) (hload : a.Loadable n) :
    st.LoadFits g a n frees := by
  rw [Store.LoadFits]
  cases hfound : frees.find? (st.accepts a n) with
  | some c =>
      have haccept := List.find?_some hfound
      have hroom := (hch.room c (List.mem_of_find?_eq_some hfound)).trans (hsmall (st.ct c))
      have hn := (hload 0).trans_lt (hsmall _)
      simp only [Store.accepts, decide_eq_true_eq] at haccept
      change st.count c + n ≤ a.chunkCapacity (st.ct c)
      omega
  | none => exact hload (st.chunkCount g)

namespace World

variable {ctx : Context} {w v v' : World} {g h : ArchetypeId} {a b : Archetype}
  {c d : ChunkId} {i j F : Nat} {e : Entity} {done : List ChunkId} {bytes : List UInt8}

/-- Slot `j` of chunk `d` is a copy of slot `i` of chunk `c` of `w`, in the same archetype. -/
def Copied (F : Nat) (w : World) (c : ChunkId) (i : Nat) (v : World) (d : ChunkId) (j : Nat) :
    Prop :=
  ∃ g a h, w.archetypeOf c = some (g, a) ∧ v.archetypeOf d = some (h, a) ∧
    Memory.Copies F a w.memory c (w.store.ct c) i v.memory d (v.store.ct d) j

/-- As many blocks as the buffers of a chunk can take. -/
def blocks (w : World) (c : ChunkId) : Nat :=
  match w.archetypeOf c with
  | some (_, a) => a.firstTag * w.store.count c
  | none => 0

/-- A chunk that can be written and read. -/
structure SavableChunk (w : World) (c : ChunkId) (a : Archetype) : Prop where
  roomy : a.Roomy
  small : ∀ ct, a.chunkCapacity ct < 2 ^ 24
  fits : a.Loadable (w.store.count c)
  stored : ∀ i < w.store.count c, ∀ k, a.firstBuffer ≤ k → k < a.firstManaged →
    Memory.StoredBuffer w.memory c (a.address (w.store.ct c) k i) (a.size k)

/-- The chunks `done` of `w` have been loaded. -/
structure Reloading (ctx : Context) (F : Nat) (w : World) (done : List ChunkId) (v : World) :
    Prop where
  listed : v.store.Listed ctx
  size : v.ents.size = w.ents.size
  free : v.ents.free = 0
  mallocs : v.memory.Mallocs
  first_le : F ≤ v.memory.freshBlock
  le_first : v.memory.freshBlock ≤ F + (done.map w.blocks).sum
  forth : ∀ c ∈ done, ∀ i < w.store.count c,
    ∃ d j, v.store.Occupied d j ∧ Copied F w c i v d j
  back : ∀ d j, v.store.Occupied d j →
    ∃ c ∈ done, ∃ i < w.store.count c, Copied F w c i v d j
  slot_lt : ∀ d j, v.store.Occupied d j → j < 2 ^ 24
  entry : ∀ d j, v.store.Occupied d j → v.ents.datas (v.memory.entityAt d j).id =
    { c := .chunk d, i := j, v := (v.memory.entityAt d j).version }
  empty : ∀ id, (∀ c ∈ done, ∀ i < w.store.count c, (w.memory.entityAt c i).id ≠ id) →
    v.ents.datas id = { c := .nextFree 0, i := 0, v := 0 }

theorem Copied.handle (hc : Copied F w c i v d j) :
    v.memory.entityAt d j = w.memory.entityAt c i := by
  obtain ⟨_, _, _, -, -, hcopies⟩ := hc
  exact hcopies.handle

/-- A copy stays while another slice is loaded. -/
theorem Copied.later (hc : Copied F w c i v d j) (hw : Orderly ctx w)
    (hocc : v.store.Occupied d j) (hi : i < w.store.count c)
    (hsave : ∀ g a, w.archetypeOf c = some (g, a) → w.SavableChunk c a)
    (ha : v.store.archetype h = some a) {st : Store} {s : ChunkSlice} {n : Nat}
    (hall : Store.Allocated v.store st h a s n) {mm : Memory}
    (hwrites : Memory.Writes s.c (Memory.SliceBytes a (st.ct s.c) s) v.memory mm)
    (hheap : ∀ x < v.memory.freshBlock, mm.heap x = v.memory.heap x)
    (hle : v.memory.freshBlock ≤ mm.freshBlock) {ents : Entities} :
    Copied F w c i { store := st, ents := ents, memory := mm } d j := by
  obtain ⟨g', b, h', hsrc, hdst, hcopies⟩ := hc
  obtain ⟨hd, hb⟩ := archetypeOf_eq_some.mp hdst
  have hsavable := hsave g' b hsrc
  have htype := type_of_allocated hall hocc.1
  have hct := hall.ct d hocc.1
  have hl : Layout b := constructArchetype_layout
    (hw.listed.built g' b (archetypeOf_eq_some.mp hsrc).2).2
  refine ⟨g', b, h', hsrc, archetypeOf_eq_some.mpr ⟨htype.trans hd, hall.archetype ▸ hb⟩, ?_⟩
  change Memory.Copies F b w.memory c (w.store.ct c) i mm d (st.ct d) j
  rw [hct]
  refine hcopies.later hl hsavable.roomy (hsavable.stored i hi) hwrites (fun hds => ?_) hheap hle
  have hsame : st.type s.c = some h := by rw [hall.type, Function.update_self]
  rw [← hds, htype, hd, Option.some.injEq] at hsame
  obtain rfl : a = b := Option.some.inj (ha.symm.trans (hsame ▸ hb))
  have hcap := hall.le
  rw [← hds, hct] at hcap
  exact ⟨rfl, hds ▸ hct, hcap, (occupied_iff_lt_start hall j).mp (hds ▸ hocc)⟩

/-! ## One chunk -/

/-- What `deserialize_slice` and the entries after it leave. -/
structure LoadsChunk (ctx : Context) (w : World) (c : ChunkId) (a : Archetype) (h : ArchetypeId)
    (v : World) (s : ChunkSlice) (v' : World) : Prop where
  count : s.count = w.store.count c
  listed : v'.store.Listed ctx
  slots : Store.Allocated v.store v'.store h a s (w.store.count c)
  slice : Memory.LoadsSlice a w.memory (w.store.ct c)
    { c := c, start := 0, count := w.store.count c } v.memory (v'.store.ct s.c) s v'.memory
  entries : Entities.Restored v.ents s.c s.start s.count
    (fun i => v'.memory.entityAt s.c (s.start + i)) v'.ents

theorem LoadsChunk.handle {s : ChunkSlice} (hl : LoadsChunk ctx w c a h v s v')
    (hi : i < w.store.count c) :
    v'.memory.entityAt s.c (s.start + i) = w.memory.entityAt c i := by
  have hhandle := (hl.slice.copies i hi).handle
  rwa [Nat.zero_add] at hhandle

theorem deserializeChunk_append (hl : v.store.Listed ctx) (ha : v.store.archetype h = some a)
    (hsrc : w.archetypeOf c = some (g, a)) (hw : Orderly ctx w) (hsave : w.SavableChunk c a)
    (hm : v.memory.Mallocs)
    (hspace : v.memory.freshBlock + a.firstTag * w.store.count c ≤ 2 ^ 64)
    (hids : ∀ i < w.store.count c, (w.memory.entityAt c i).id < v.ents.size)
    (hbytes : w.serializeSlice { c := c, start := 0, count := w.store.count c } = some bytes)
    (rest : List UInt8) : ∃ s v',
      deserializeChunk h v (bytes ++ rest) = some (v', some s, rest) ∧
        LoadsChunk ctx w c a h v s v' := by
  obtain ⟨hc, hsrcA⟩ := archetypeOf_eq_some.mp hsrc
  have hpos := hw.listed.nonempty c g hc
  have hlt : w.store.count c < 256 ^ 4 :=
    ((hw.listed.count_le c g a hc hsrcA).trans_lt (hsave.small _)).trans (by decide)
  simp only [serializeSlice, hsrc, Option.bind_eq_bind, Option.bind_some, Option.bind_eq_some_iff,
    Option.some.injEq] at hbytes
  obtain ⟨body, hbody, rfl⟩ := hbytes
  obtain ⟨st, s, hslots, hcount, hlisted, hall⟩ := hl.loadSlots ha hpos
    (fun fulls frees hch => Store.loadFits_of_loadable hch hsave.small hsave.fits) v.ents
  have hs : ({ v with store := st } : World).archetypeOf s.c = some (h, a) := by
    refine archetypeOf_eq_some.mpr ⟨?_, hall.archetype ▸ ha⟩
    change st.type s.c = _
    rw [hall.type, Function.update_self]
  obtain ⟨body', hbody', hload⟩ := Memory.loadsSlice w.memory (w.store.ct c)
    { c := c, start := 0, count := w.store.count c } (hw.listed.built g a hsrcA).2 hsave.roomy
    hall.le hcount
    (fun k j hk hk' hj => by
      rw [Nat.zero_add]
      exact hsave.stored j hj k hk hk')
  obtain rfl := Option.some.inj (hbody.symm.trans hbody')
  obtain ⟨mm, hmm, hslice⟩ := hload v.memory hm hspace rest
  have hhandle : ∀ i < s.count, mm.entityAt s.c (s.start + i) = w.memory.entityAt c i := by
    intro i hi
    have hcopy := (hslice.copies i (hcount ▸ hi)).handle
    rwa [Nat.zero_add] at hcopy
  obtain ⟨ents, hents, hres⟩ := restore_run v.ents s.c s.start s.count
    (fun i => mm.entityAt s.c (s.start + i)) fun i hi => by
      rw [hhandle i hi]
      exact hids i (hcount ▸ hi)
  refine ⟨s, { store := st, ents := ents, memory := mm }, ?_, hcount, hlisted, hall, hslice, hres⟩
  simp only [deserializeChunk, deserializeSlice, List.append_assoc, Mem.takeWord_append hlt,
    Option.bind_eq_bind, Option.bind_some, if_neg (Nat.pos_iff_ne_zero.mp hpos), hslots, hs, hmm,
    hents]

theorem Copied.occupied (hc : Copied F w c i v d j) (hi : i < w.store.count c) :
    w.store.Occupied c i := by
  obtain ⟨g, a, _, hsrc, -⟩ := hc
  refine ⟨?_, hi⟩
  rw [(archetypeOf_eq_some.mp hsrc).1]
  exact Option.some_ne_none g

/-- One more chunk has been loaded. -/
theorem Reloading.chunk {s : ChunkSlice} (hr : Reloading ctx F w done v) (hw : Orderly ctx w)
    (hsize : w.ents.size < 2 ^ 24)
    (hsave : ∀ x ∈ done ++ [c], ∀ g a, w.archetypeOf x = some (g, a) → w.SavableChunk x a)
    (hnew : c ∉ done) (hsrc : w.archetypeOf c = some (g, a))
    (ha : v.store.archetype h = some a) (hl : LoadsChunk ctx w c a h v s v') :
    Reloading ctx F w (done ++ [c]) v' := by
  obtain ⟨hc, -⟩ := archetypeOf_eq_some.mp hsrc
  have hlast := hsave c (List.mem_append_right _ List.mem_cons_self) g a hsrc
  have hfirst : ∀ x ∈ done, ∀ g a, w.archetypeOf x = some (g, a) → w.SavableChunk x a :=
    fun x hx => hsave x (List.mem_append_left _ hx)
  have hocc := occupied_of_allocated hl.slots
  have hin : ∀ i < w.store.count c, w.store.Occupied c i :=
    fun i hi => ⟨by rw [hc]; exact Option.some_ne_none g, hi⟩
  have hunique : ∀ {x y : ChunkId} {i j : Nat}, w.store.Occupied x i → w.store.Occupied y j →
      (w.memory.entityAt x i).id = (w.memory.entityAt y j).id → x = y ∧ i = j :=
    fun hi hj => (hw.sound.tracks hsize).unique ⟨hi, not_false⟩ ⟨hj, not_false⟩
  have hlater : ∀ x ∈ done, ∀ i < w.store.count x, ∀ d j, v.store.Occupied d j →
      Copied F w x i v d j → Copied F w x i v' d j := fun x hx i hi d j hj hcopy =>
    hcopy.later hw hj hi (hfirst x hx) ha hl.slots hl.slice.writes hl.slice.heap hl.slice.fresh_le
  have hcopied : ∀ i < w.store.count c, Copied F w c i v' s.c (s.start + i) := by
    intro i hi
    have hcopy := hl.slice.copies i hi
    rw [Nat.zero_add] at hcopy
    refine ⟨g, a, h, hsrc, archetypeOf_eq_some.mpr ⟨?_, hl.slots.archetype ▸ ha⟩, ?_⟩
    · rw [hl.slots.type, Function.update_self]
    · exact ⟨hcopy.handle, hcopy.plain, fun k hk hk' => (hcopy.buffers k hk hk').mono hr.first_le⟩
  -- every slot is an old one or one of the slice
  have hcases : ∀ d j, v'.store.Occupied d j → v.store.Occupied d j ∨
      ∃ i < w.store.count c, d = s.c ∧ j = s.start + i := by
    intro d j hj
    refine ((hocc d j).mp hj).imp_right ?_
    rintro ⟨rfl, hlo, hhi⟩
    rw [hl.count] at hhi
    exact ⟨j - s.start, by omega, rfl, by omega⟩
  refine ⟨hl.listed, hl.entries.size.trans hr.size, hl.entries.free.trans hr.free,
    hl.slice.mallocs, hr.first_le.trans hl.slice.fresh_le, ?_, ?_, ?_, ?_, ?_, ?_⟩
  case refine_1 =>
    have hblocks : w.blocks c = a.firstTag * w.store.count c := by rw [blocks, hsrc]
    have hle := hr.le_first
    have hmore := hl.slice.le_fresh
    rw [List.map_append, List.sum_append, List.map_singleton, List.sum_singleton, hblocks]
    exact hmore.trans (by dsimp only; omega)
  case refine_2 =>
    intro x hx i hi
    rcases List.mem_append.mp hx with hx | hx
    · obtain ⟨d, j, hj, hcopy⟩ := hr.forth x hx i hi
      exact ⟨d, j, (hocc d j).mpr (Or.inl hj), hlater x hx i hi d j hj hcopy⟩
    · obtain rfl := List.mem_singleton.mp hx
      refine ⟨s.c, s.start + i, (hocc _ _).mpr (Or.inr ⟨rfl, Nat.le_add_right .., ?_⟩),
        hcopied i hi⟩
      rw [hl.count]
      exact Nat.add_lt_add_left hi _
  case refine_3 =>
    intro d j hj
    rcases hcases d j hj with hold | ⟨i, hi, rfl, rfl⟩
    · obtain ⟨x, hx, i, hi, hcopy⟩ := hr.back d j hold
      exact ⟨x, List.mem_append_left _ hx, i, hi, hlater x hx i hi d j hold hcopy⟩
    · exact ⟨c, List.mem_append_right _ List.mem_cons_self, i, hi, hcopied i hi⟩
  case refine_4 =>
    intro d j hj
    rcases hcases d j hj with hold | ⟨i, hi, rfl, rfl⟩
    · exact hr.slot_lt d j hold
    · have hcap := hl.slots.le.trans_lt (hlast.small _)
      rw [hl.count] at hcap
      omega
  case refine_5 =>
    intro d j hj
    rcases hcases d j hj with hold | ⟨i, hi, rfl, rfl⟩
    · obtain ⟨x, hx, i, hi, hcopy⟩ := hr.back d j hold
      have hkeep : v'.memory.entityAt d j = v.memory.entityAt d j :=
        (hlater x hx i hi d j hold hcopy).handle.trans hcopy.handle.symm
      rw [hkeep, hl.entries.other, hr.entry d j hold]
      intro k hk heq
      rw [hl.handle (hl.count ▸ hk), hcopy.handle] at heq
      exact hnew ((hunique (hin k (hl.count ▸ hk)) (hcopy.occupied hi) heq).1 ▸ hx)
    · have hcap := hl.slots.le.trans_lt (hlast.small _)
      rw [hl.count] at hcap
      have hentry := hl.entries.entry (fun k hk l hl' heq => ?_) i (hl.count ▸ hi)
      · rwa [Nat.mod_eq_of_lt (by omega)] at hentry
      · rw [hl.handle (hl.count ▸ hk), hl.handle (hl.count ▸ hl')] at heq
        exact (hunique (hin k (hl.count ▸ hk)) (hin l (hl.count ▸ hl')) heq).2
  case refine_6 =>
    intro id hid
    rw [hl.entries.other]
    · exact hr.empty id fun x hx => hid x (List.mem_append_left _ hx)
    · intro k hk
      rw [hl.handle (hl.count ▸ hk)]
      exact hid c (List.mem_append_right _ List.mem_cons_self) k (hl.count ▸ hk)

end World

end Dots

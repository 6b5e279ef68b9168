import Dots.Library.Bytes
import Dots.Library.Partial
import Dots.Runtime.Context

/-!
# `chunk_vector`

A table of pointers to chunks of 64 KiB. The table starts as a block of the same size and is
doubled when it is full. Elements are kept as their bytes. A read or write of the table outside
its block, a chunk that is not there, and a block that is freed to another allocator give `none`.
-/

namespace Dots

open Library

/-- The block of chunk pointers, with the chunks they point to. -/
structure Table where
  bytes : Nat
  entries : Nat → Option Mem

namespace Table

/-- A block that was just allocated. -/
def block (bytes : Nat) : Table := { bytes := bytes, entries := fun _ => none }

/-- `data[k]`. -/
def read (t : Table) (k : Nat) : Option Mem := if 8 * (k + 1) ≤ t.bytes then t.entries k else none

/-- `data[k] = m`. -/
def write (t : Table) (k : Nat) (m : Option Mem) : Option Table :=
  if 8 * (k + 1) ≤ t.bytes then some { t with entries := Function.update t.entries k m } else none

/-- A block of twice the size, with the first `capacity` bytes copied. -/
def doubled (t : Table) (capacity : Nat) : Table where
  bytes := capacity * 2
  entries k := if 8 * (k + 1) ≤ capacity then t.entries k else none

/-- A block of `capacity` bytes goes to the pool if these are a chunk. Its real size says where
it came from. -/
def freed (t : Table) (capacity : Nat) : Option Unit :=
  if capacity = kFastBinSize ↔ t.bytes = kFastBinSize then some () else none

end Table

/-- `chunk_vector_base`. -/
structure ChunkVector where
  chunkSize : Nat := 0
  size : Nat := 0
  chunkCapacity : Nat := kFastBinSize
  data : Option Table := none

namespace ChunkVector

/-- The first half of `grow`: the table and its capacity, doubled when it is full. -/
def growTable (v : ChunkVector) : Option (Table × Nat) :=
  let t := v.data.getD (Table.block kFastBinSize)
  if v.chunkSize * 8 ≥ v.chunkCapacity then
    if v.chunkCapacity ≤ t.bytes then do
      t.freed v.chunkCapacity
      some (t.doubled v.chunkCapacity, v.chunkCapacity * 2)
    else none
  else some (t, v.chunkCapacity)

/-- `chunk_vector_base::grow`; `junk` is what is in a chunk of the pool. -/
def grow (junk : Mem) (v : ChunkVector) : Option ChunkVector := do
  let (t, capacity) ← v.growTable
  let t ← t.write v.chunkSize (some junk)
  some { v with chunkSize := v.chunkSize + 1, chunkCapacity := capacity, data := some t }

/-- The loop of `chunk_vector_base::shrink`. -/
def freeChunks : Nat → ChunkVector → Option ChunkVector
  | 0, v => some v
  | n + 1, v => do
      let t ← v.data
      if v.chunkSize = 0 then none
      else do
        let _ ← t.read (v.chunkSize - 1)
        let t ← t.write (v.chunkSize - 1) none
        freeChunks n { v with chunkSize := v.chunkSize - 1, data := some t }

/-- `chunk_vector_base::shrink`. -/
def shrinkBy (n : Nat) (v : ChunkVector) : Option ChunkVector := do
  let v ← v.freeChunks n
  match v.data with
  | none => some v
  | some t =>
      if v.chunkSize = 0 then do
        t.freed v.chunkCapacity
        some { v with data := none }
      else some v

/-- `chunk_vector_base::reset`. -/
def reset (v : ChunkVector) : Option ChunkVector := do
  let v ← v.shrinkBy v.chunkSize
  some { v with size := 0 }

/-- `kChunkCapacity`, the elements of a chunk. -/
def perChunk (sizeofT : Nat) : Nat := kFastBinSize / sizeofT

/-- `chunk_vector::shrink`. -/
def shrink (sizeofT : Nat) (v : ChunkVector) : Option ChunkVector :=
  v.shrinkBy (v.chunkSize - (v.size + perChunk sizeofT - 1) / perChunk sizeofT)

/-- The loop of `chunk_vector::reserve`; `junk k` is what is in the `k`-th chunk before. -/
def growTo (sizeofT : Nat) (junk : Nat → Mem) (n : Nat) : Nat → ChunkVector → Option ChunkVector
  | 0, _ => none
  | fuel + 1, v =>
      if n > v.chunkSize * perChunk sizeofT then do
        let v ← v.grow (junk v.chunkSize)
        growTo sizeofT junk n fuel v
      else some v

/-- `chunk_vector::reserve`. Each turn makes room for an element or more. -/
def reserve (sizeofT : Nat) (junk : Nat → Mem) (n : Nat) (v : ChunkVector) : Option ChunkVector :=
  v.growTo sizeofT junk n (n + 1)

/-- `chunk_vector::resize`. -/
def resize (sizeofT : Nat) (junk : Nat → Mem) (n : Nat) (v : ChunkVector) : Option ChunkVector :=
  let v := { v with size := n }
  if n > v.chunkSize * perChunk sizeofT then v.reserve sizeofT junk n else v.shrink sizeofT

/-- `*get(data, i)`. -/
def get (sizeofT : Nat) (v : ChunkVector) (i : Nat) : Option (List UInt8) := do
  let t ← v.data
  let m ← t.read (i / perChunk sizeofT)
  some (m.read (sizeofT * (i % perChunk sizeofT)) sizeofT)

/-- `*get(data, i) = x`. -/
def put (sizeofT : Nat) (v : ChunkVector) (i : Nat) (x : List UInt8) : Option ChunkVector := do
  let t ← v.data
  let m ← t.read (i / perChunk sizeofT)
  let t ← t.write (i / perChunk sizeofT) (some (m.write (sizeofT * (i % perChunk sizeofT)) x))
  some { v with data := some t }

/-- The test at the start of `push`. -/
def makeRoom (sizeofT : Nat) (junk : Nat → Mem) (v : ChunkVector) : Option ChunkVector :=
  if v.size ≥ v.chunkSize * perChunk sizeofT then v.grow (junk v.chunkSize) else some v

/-- `chunk_vector::push`. -/
def push (sizeofT : Nat) (junk : Nat → Mem) (x : List UInt8) (v : ChunkVector) :
    Option ChunkVector := do
  let v ← v.makeRoom sizeofT junk
  let v ← v.put sizeofT v.size x
  some { v with size := v.size + 1 }

/-- `chunk_vector::pop`. -/
def pop (sizeofT : Nat) (v : ChunkVector) : Option ChunkVector :=
  ({ v with size := v.size - 1 } : ChunkVector).shrink sizeofT

/-- What a move leaves behind. -/
def moved (r : ChunkVector) : ChunkVector := { r with data := none, size := 0, chunkSize := 0 }

/-- The move constructor. The capacity of the table stays behind. -/
def moveConstruct (r : ChunkVector) : ChunkVector :=
  { data := r.data, size := r.size, chunkSize := r.chunkSize }

/-- The rest of `operator=` after `reset`. -/
def moveAssign (v r : ChunkVector) : ChunkVector :=
  { v with data := r.data, size := r.size, chunkSize := r.chunkSize }

/-- The copy constructor. -/
def copyConstruct (r : ChunkVector) : Option ChunkVector := do
  let data :=
    if r.chunkSize > 0 then
      some (Table.block (if r.chunkCapacity = kFastBinSize then kFastBinSize else r.chunkCapacity))
    else none
  let data ← (List.range r.chunkSize).foldlM (fun data i => do
    let t ← r.data
    let m ← t.read i
    let t ← data
    let t ← t.write i (some m)
    some (some t)) data
  some { data := data, size := r.size, chunkSize := r.chunkSize }

/-! ## What the operations do to the table -/

variable {v v' r : ChunkVector} {t t' : Table} {m : Mem} {k n capacity : Nat}

/-- The chunk with number `k`. -/
def chunk (v : ChunkVector) (k : Nat) : Option Mem := v.data.bind fun t => t.read k

/-- The table is a block of `chunkCapacity` bytes with the chunks in it. -/
structure Sound (v : ChunkVector) : Prop where
  block : ∀ t, v.data = some t → t.bytes = v.chunkCapacity
  null : v.data = none → v.chunkSize = 0
  doubled : ∃ e, v.chunkCapacity = kFastBinSize * 2 ^ e
  fits : v.chunkSize * 8 ≤ v.chunkCapacity
  chunks : ∀ k < v.chunkSize, v.chunk k ≠ none

/-- An empty vector has the capacity of its next table. -/
def Fresh (v : ChunkVector) : Prop := v.data = none → v.chunkCapacity = kFastBinSize

theorem sound_empty : Sound {} where
  block _ h := absurd h (by simp)
  null _ := rfl
  doubled := ⟨0, rfl⟩
  fits := Nat.zero_le _
  chunks k hk := absurd hk (Nat.not_lt_zero k)

theorem freed_eq (h : t.bytes = capacity) : t.freed capacity = some () := by
  rw [Table.freed, h, if_pos Iff.rfl]

/-- A write inside the block: the entry is there, and the others are as they were. -/
theorem exists_write (h : 8 * (k + 1) ≤ t.bytes) (o : Option Mem) :
    ∃ t', t.write k o = some t' ∧ t'.bytes = t.bytes ∧
      ∀ j, t'.read j = if j = k then o else t.read j := by
  refine ⟨{ t with entries := Function.update t.entries k o }, if_pos h, rfl, fun j => ?_⟩
  simp only [Table.read, Function.update_apply]
  split_ifs with hj hjk hjk
  · rfl
  · rfl
  · exact absurd h (hjk ▸ hj)
  · rfl

/-- Two vectors agree on the chunks below `n`. -/
def SameChunks (n : Nat) (v v' : ChunkVector) : Prop := ∀ k < n, v'.chunk k = v.chunk k

/-- There is room for a pointer more in the table, and the chunks stay. -/
theorem Sound.growTable (h : v.Sound) (hfresh : v.Fresh) :
    ∃ t capacity, v.growTable = some (t, capacity) ∧ t.bytes = capacity ∧
      (∃ e, capacity = kFastBinSize * 2 ^ e) ∧ 8 * (v.chunkSize + 1) ≤ capacity ∧
        ∀ k < v.chunkSize, t.read k = v.chunk k := by
  obtain ⟨e, hcap⟩ := h.doubled
  have hfast : kFastBinSize = 8 * 8192 := rfl
  have haligned : v.chunkCapacity = 8 * (8192 * 2 ^ e) := by rw [hcap, hfast, Nat.mul_assoc]
  have hpos : 0 < 2 ^ e := Nat.two_pow_pos e
  have hfits := h.fits
  -- the table there is, or the first one
  obtain ⟨t, ht⟩ : ∃ t, v.data.getD (Table.block kFastBinSize) = t := ⟨_, rfl⟩
  have hbytes : t.bytes = v.chunkCapacity := by
    rw [← ht]
    cases hd : v.data with
    | none => exact (hfresh hd).symm
    | some t => exact h.block t hd
  have hread : ∀ k < v.chunkSize, t.read k = v.chunk k := by
    intro k hk
    cases hd : v.data with
    | none => exact absurd (h.null hd ▸ hk) (Nat.not_lt_zero k)
    | some t' =>
        rw [hd, Option.getD_some] at ht
        rw [chunk, hd, Option.bind_some, ht]
  rw [ChunkVector.growTable, ht]
  by_cases hfull : v.chunkSize * 8 ≥ v.chunkCapacity
  · refine ⟨t.doubled v.chunkCapacity, v.chunkCapacity * 2, ?_, rfl, ⟨e + 1, ?_⟩, by omega,
      fun k hk => ?_⟩
    · rw [if_pos hfull, if_pos hbytes.ge, freed_eq hbytes]
      rfl
    · rw [hcap, Nat.pow_succ, Nat.mul_assoc]
    · have hbelow : 8 * (k + 1) ≤ v.chunkCapacity := by omega
      have hbelow' : 8 * (k + 1) ≤ v.chunkCapacity * 2 := by omega
      rw [← hread k hk]
      simp only [Table.read, Table.doubled, hbytes, if_pos hbelow, if_pos hbelow']
  · exact ⟨t, v.chunkCapacity, if_neg hfull, hbytes, ⟨e, hcap⟩, by omega, hread⟩

theorem Sound.grow (h : v.Sound) (hfresh : v.Fresh) (junk : Mem) :
    ∃ v', v.grow junk = some v' ∧ v'.Sound ∧ v'.data ≠ none ∧ v'.size = v.size ∧
      v'.chunkSize = v.chunkSize + 1 ∧ SameChunks v.chunkSize v v' := by
  obtain ⟨t, capacity, htable, hblock, hdoubled, hroom, hold⟩ := h.growTable hfresh
  obtain ⟨t', hwrite, hbytes', hread'⟩ := exists_write (hroom.trans hblock.ge) (some junk)
  refine ⟨{ v with chunkSize := v.chunkSize + 1, chunkCapacity := capacity, data := some t' }, ?_,
    ⟨?_, ?_, hdoubled, ?_, ?_⟩, Option.some_ne_none _, rfl, rfl, ?_⟩
  · rw [ChunkVector.grow, htable]
    simp only [Option.bind_eq_bind, Option.bind_some, hwrite]
  · intro t'' ht'
    rw [← Option.some.inj ht', hbytes']
    exact hblock
  · exact fun hnone => absurd hnone (Option.some_ne_none _)
  · rw [Nat.mul_comm]
    exact hroom
  · intro k hk
    rw [chunk, Option.bind_some, hread']
    split_ifs with hlast
    · exact Option.some_ne_none junk
    · have hlt := lt_of_le_of_ne (Nat.le_of_lt_succ hk) hlast
      rw [hold k hlt]
      exact h.chunks k hlt
  · intro k hk
    rw [chunk, Option.bind_some, hread', if_neg hk.ne, hold k hk]

/-- `growTo` stops once there are chunks for `n` elements. -/
theorem Sound.growTo (h : v.Sound) {sizeofT : Nat} (hper : 0 < perChunk sizeofT)
    (hfresh : n > v.chunkSize * perChunk sizeofT → v.Fresh) (junk : Nat → Mem) {fuel : Nat}
    (hfuel : n ≤ fuel + v.chunkSize * perChunk sizeofT) :
    ∃ v', v.growTo sizeofT junk n (fuel + 1) = some v' ∧ v'.Sound ∧ v'.size = v.size ∧
      n ≤ v'.chunkSize * perChunk sizeofT ∧ v.chunkSize ≤ v'.chunkSize ∧
        SameChunks v.chunkSize v v' := by
  induction fuel generalizing v with
  | zero =>
      rw [Nat.zero_add] at hfuel
      exact ⟨v, if_neg (not_lt.mpr hfuel), h, rfl, hfuel, le_rfl, fun _ _ => rfl⟩
  | succ fuel ih =>
      rw [ChunkVector.growTo]
      by_cases hmore : n > v.chunkSize * perChunk sizeofT
      · obtain ⟨v₁, hgrow, hv₁, hdata, hsize, hnum, hsame⟩ :=
          h.grow (hfresh hmore) (junk v.chunkSize)
        have hmul : v₁.chunkSize * perChunk sizeofT =
            v.chunkSize * perChunk sizeofT + perChunk sizeofT := by
          rw [hnum, Nat.succ_mul]
        obtain ⟨v', hrun, hv', hsize', hroom, hle, hsame'⟩ :=
          ih hv₁ (fun _ hnone => absurd hnone hdata) (by omega)
        refine ⟨v', ?_, hv', hsize'.trans hsize, hroom, by omega, fun k hk => ?_⟩
        · rw [if_pos hmore, hgrow]
          exact hrun
        · rw [hsame' k (by omega), hsame k hk]
      · exact ⟨v, if_neg hmore, h, rfl, not_lt.mp hmore, le_rfl, fun _ _ => rfl⟩

/-- Freeing the last `n` chunks. -/
theorem Sound.freeChunks (h : v.Sound) (hn : n ≤ v.chunkSize) :
    ∃ v', v.freeChunks n = some v' ∧ v'.Sound ∧ v'.size = v.size ∧
      v'.chunkSize = v.chunkSize - n ∧ v'.chunkCapacity = v.chunkCapacity ∧
        SameChunks (v.chunkSize - n) v v' := by
  induction n generalizing v with
  | zero => exact ⟨v, rfl, h, rfl, rfl, rfl, fun _ _ => rfl⟩
  | succ n ih =>
      cases hd : v.data with
      | none =>
          have hzero := h.null hd
          omega
      | some t =>
          have hpos : v.chunkSize ≠ 0 := by omega
          have hlast : 8 * (v.chunkSize - 1 + 1) ≤ t.bytes := by
            have hfits := h.fits
            rw [h.block t hd]
            omega
          obtain ⟨m, hm⟩ := Option.ne_none_iff_exists'.mp (h.chunks (v.chunkSize - 1) (by omega))
          rw [chunk, hd, Option.bind_some] at hm
          obtain ⟨t', hwrite, hbytes, hread⟩ := exists_write hlast none
          let v₁ : ChunkVector := { v with chunkSize := v.chunkSize - 1, data := some t' }
          have hkept : SameChunks (v.chunkSize - 1) v v₁ := by
            intro k hk
            rw [chunk, chunk, hd, Option.bind_some, Option.bind_some, hread, if_neg hk.ne]
          have hsound : v₁.Sound := by
            refine ⟨?_, ?_, h.doubled, ?_, ?_⟩
            · intro t'' ht''
              rw [← Option.some.inj ht'', hbytes]
              exact h.block t hd
            · exact fun hnone => absurd hnone (Option.some_ne_none t')
            · exact (Nat.mul_le_mul_right 8 (Nat.sub_le _ 1)).trans h.fits
            · intro k hk
              rw [hkept k hk]
              exact h.chunks k (hk.trans_le (Nat.sub_le _ 1))
          obtain ⟨v', hrun, hv', hsize, hnum, hcap, hsame⟩ := ih hsound (Nat.le_sub_one_of_lt hn)
          refine ⟨v', ?_, hv', hsize, ?_, hcap, ?_⟩
          · rw [ChunkVector.freeChunks, hd]
            simp only [Option.bind_eq_bind, Option.bind_some, if_neg hpos, hm, hwrite]
            exact hrun
          · rw [hnum]
            exact Nat.sub_sub v.chunkSize 1 n ▸ by rw [Nat.add_comm 1 n]
          · intro k hk
            rw [hsame k (by change k < v.chunkSize - 1 - n; omega), hkept k (by omega)]

/-- `shrink` frees the table with the last chunk. -/
theorem Sound.shrinkBy (h : v.Sound) (hn : n ≤ v.chunkSize) :
    ∃ v', v.shrinkBy n = some v' ∧ v'.Sound ∧ v'.size = v.size ∧
      v'.chunkSize = v.chunkSize - n ∧ v'.chunkCapacity = v.chunkCapacity ∧
        SameChunks (v.chunkSize - n) v v' := by
  obtain ⟨v', hrun, hv', hsize, hnum, hcap, hsame⟩ := h.freeChunks hn
  cases hd : v'.data with
  | none =>
      refine ⟨v', ?_, hv', hsize, hnum, hcap, hsame⟩
      rw [ChunkVector.shrinkBy, hrun]
      simp only [Option.bind_eq_bind, Option.bind_some, hd]
  | some t =>
      by_cases hzero : v'.chunkSize = 0
      · refine ⟨{ v' with data := none }, ?_, ⟨?_, ?_, hv'.doubled, hv'.fits, ?_⟩, hsize, hnum, hcap,
          ?_⟩
        · rw [ChunkVector.shrinkBy, hrun]
          simp only [Option.bind_eq_bind, Option.bind_some, hd, if_pos hzero,
            freed_eq (hv'.block t hd)]
        · exact fun t' ht' => absurd ht'.symm (Option.some_ne_none t')
        · exact fun _ => hzero
        · exact fun k hk => absurd (hzero ▸ hk) (Nat.not_lt_zero k)
        · exact fun k hk => absurd (hzero ▸ hnum ▸ hk) (Nat.not_lt_zero k)
      · refine ⟨v', ?_, hv', hsize, hnum, hcap, hsame⟩
        rw [ChunkVector.shrinkBy, hrun]
        simp only [Option.bind_eq_bind, Option.bind_some, hd, if_neg hzero]

/-! ## What the operations do to the elements -/

variable {sizeofT i j : Nat} {x : List UInt8} {l l' : List (List UInt8)}

/-- There is a chunk for every element. -/
structure Good (sizeofT : Nat) (v : ChunkVector) : Prop extends Sound v where
  room : v.size ≤ v.chunkSize * perChunk sizeofT

/-- The elements that are read are those of the list. -/
structure Holds (sizeofT : Nat) (v : ChunkVector) (l : List (List UInt8)) : Prop where
  length : l.length = v.size
  get : ∀ i < v.size, v.get sizeofT i = l[i]?

/-- A vector holds one list. -/
theorem Holds.unique (h : v.Holds sizeofT l) (h' : v.Holds sizeofT l') : l = l' := by
  refine List.ext_getElem? fun i => ?_
  by_cases hi : i < v.size
  · rw [← h.get i hi, ← h'.get i hi]
  · rw [List.getElem?_eq_none (h.length.trans_le (not_lt.mp hi)),
      List.getElem?_eq_none (h'.length.trans_le (not_lt.mp hi))]

theorem perChunk_pos (hpos : 0 < sizeofT) (hle : sizeofT ≤ 65536) : 0 < perChunk sizeofT :=
  Nat.div_pos hle hpos

theorem get_eq (sizeofT : Nat) (v : ChunkVector) (i : Nat) : v.get sizeofT i =
    (v.chunk (i / perChunk sizeofT)).map fun m =>
      m.read (sizeofT * (i % perChunk sizeofT)) sizeofT := by
  rw [get, chunk]
  cases v.data with
  | none => rfl
  | some t =>
      rw [Option.bind_some, Option.bind_eq_bind, Option.bind_some]
      cases t.read (i / perChunk sizeofT) <;> rfl

theorem div_lt_of_lt (hi : i < n * perChunk sizeofT) : i / perChunk sizeofT < n :=
  Nat.div_lt_of_lt_mul (by rwa [Nat.mul_comm])

theorem SameChunks.get (h : SameChunks n v v') (hi : i < n * perChunk sizeofT) :
    v'.get sizeofT i = v.get sizeofT i := by
  rw [get_eq, get_eq, h (i / perChunk sizeofT) (div_lt_of_lt hi)]

theorem Sound.get_ne_none (h : v.Sound) (hi : i < v.chunkSize * perChunk sizeofT) :
    v.get sizeofT i ≠ none := by
  rw [get_eq, Ne, Option.map_eq_none_iff]
  exact h.chunks _ (div_lt_of_lt hi)

/-- Every element can be read. -/
theorem Good.exists_holds (h : v.Good sizeofT) : ∃ l, v.Holds sizeofT l := by
  refine ⟨(List.range v.size).map fun i => (v.get sizeofT i).getD [], by simp, fun i hi => ?_⟩
  obtain ⟨x, hx⟩ := Option.ne_none_iff_exists'.mp (h.get_ne_none (hi.trans_le h.room))
  rw [List.getElem?_map, List.getElem?_range hi, Option.map_some, hx, Option.getD_some]

/-- Elements in one chunk are apart. -/
theorem read_write_element (m : Mem) (hx : x.length = sizeofT) (p q : Nat) :
    (m.write (sizeofT * p) x).read (sizeofT * q) sizeofT =
      if q = p then x else m.read (sizeofT * q) sizeofT := by
  split_ifs with heq
  · subst heq
    rw [Mem.read_write m _ hx.le, hx, List.drop_eq_nil_of_le, List.append_nil]
    rw [Mem.read, List.length_map, List.length_range]
  · refine Mem.read_eq fun b hb => ?_
    simp only [Mem.write]
    rw [if_neg]
    rw [hx]
    rintro ⟨hlo, hhi⟩
    rcases Nat.lt_or_gt_of_ne heq with hlt | hlt
    · have hmul := Nat.mul_le_mul_left sizeofT (Nat.succ_le_of_lt hlt)
      rw [Nat.mul_succ] at hmul
      omega
    · have hmul := Nat.mul_le_mul_left sizeofT (Nat.succ_le_of_lt hlt)
      rw [Nat.mul_succ] at hmul
      omega

/-- Storing an element leaves the others. -/
theorem Sound.put (h : v.Sound) (hi : i < v.chunkSize * perChunk sizeofT)
    (hx : x.length = sizeofT) :
    ∃ v', v.put sizeofT i x = some v' ∧ v'.Sound ∧ v'.size = v.size ∧
      v'.chunkSize = v.chunkSize ∧
        ∀ j, v'.get sizeofT j = if j = i then some x else v.get sizeofT j := by
  have hlt := div_lt_of_lt hi
  obtain ⟨m, hm⟩ := Option.ne_none_iff_exists'.mp (h.chunks _ hlt)
  cases hd : v.data with
  | none => exact absurd (h.null hd ▸ hlt) (Nat.not_lt_zero _)
  | some t =>
      have hblock := h.block t hd
      have hfits := h.fits
      rw [chunk, hd, Option.bind_some] at hm
      obtain ⟨t', hwrite, hbytes, hread⟩ := exists_write (t := t)
        (k := i / perChunk sizeofT) (by omega)
        (some (m.write (sizeofT * (i % perChunk sizeofT)) x))
      have hchunk : ∀ k, ({ v with data := some t' } : ChunkVector).chunk k =
          if k = i / perChunk sizeofT then some (m.write (sizeofT * (i % perChunk sizeofT)) x)
          else v.chunk k := by
        intro k
        rw [chunk, Option.bind_some, hread, chunk, hd, Option.bind_some]
      refine ⟨{ v with data := some t' }, ?_, ⟨?_, ?_, h.doubled, hfits, ?_⟩, rfl, rfl, ?_⟩
      · rw [ChunkVector.put, hd]
        simp only [Option.bind_eq_bind, Option.bind_some, hm, hwrite]
      · intro t'' ht''
        rw [← Option.some.inj ht'', hbytes, hblock]
      · exact fun hnone => absurd hnone (Option.some_ne_none t')
      · intro k hk
        rw [hchunk]
        split_ifs
        · exact Option.some_ne_none _
        · exact h.chunks k hk
      · intro j
        rw [get_eq, hchunk, get_eq]
        by_cases hsame : j / perChunk sizeofT = i / perChunk sizeofT
        · rw [if_pos hsame, hsame, chunk, hd, Option.bind_some, hm, Option.map_some,
            Option.map_some, read_write_element m hx]
          have hiff : j % perChunk sizeofT = i % perChunk sizeofT ↔ j = i := by
            constructor
            · intro hmod
              rw [← Nat.div_add_mod j (perChunk sizeofT), hsame, hmod, Nat.div_add_mod]
            · exact fun heq => heq ▸ rfl
          simp only [hiff]
          split_ifs <;> rfl
        · rw [if_neg hsame, if_neg fun heq : j = i => hsame (heq ▸ rfl)]

/-! ## The member functions on lists -/

theorem Good.push (h : v.Good sizeofT) (hper : 0 < perChunk sizeofT) (hl : v.Holds sizeofT l)
    (hfresh : v.Fresh) (hx : x.length = sizeofT) (junk : Nat → Mem) :
    ∃ v', v.push sizeofT junk x = some v' ∧ v'.Good sizeofT ∧ v'.Holds sizeofT (l ++ [x]) := by
  -- there is a chunk for the element
  obtain ⟨v₁, hgrow, hv₁, hsize, hroom, hle, hsame⟩ : ∃ v₁, v.makeRoom sizeofT junk = some v₁ ∧
      v₁.Sound ∧ v₁.size = v.size ∧ v.size < v₁.chunkSize * perChunk sizeofT ∧
        v.chunkSize ≤ v₁.chunkSize ∧ SameChunks v.chunkSize v v₁ := by
    rw [makeRoom]
    by_cases hfull : v.size ≥ v.chunkSize * perChunk sizeofT
    · obtain ⟨v₁, hgrow, hv₁, -, hsize, hnum, hsame⟩ := h.grow hfresh (junk v.chunkSize)
      have hroom := h.room
      refine ⟨v₁, by rw [if_pos hfull, hgrow], hv₁, hsize, ?_, by omega, hsame⟩
      rw [hnum, Nat.succ_mul]
      omega
    · exact ⟨v, if_neg hfull, h.toSound, rfl, not_le.mp hfull, le_rfl, fun _ _ => rfl⟩
  obtain ⟨v₂, hput, hv₂, hsize₂, hnum₂, hget⟩ := hv₁.put hroom hx
  refine ⟨{ v₂ with size := v₂.size + 1 }, ?_, ⟨?_, ?_⟩, ⟨?_, ?_⟩⟩
  · simp only [ChunkVector.push, hgrow, hsize, Option.bind_eq_bind, Option.bind_some, hput]
  · exact ⟨hv₂.block, hv₂.null, hv₂.doubled, hv₂.fits, hv₂.chunks⟩
  · rw [hsize₂, hsize, hnum₂]
    exact hroom
  · rw [List.length_append, List.length_singleton, hl.length, hsize₂, hsize]
  · intro i hi
    replace hi : i < v.size + 1 := by rwa [hsize₂, hsize] at hi
    change v₂.get sizeofT i = _
    rw [hget]
    split_ifs with hlast
    · rw [hlast, ← hl.length, List.getElem?_concat_length]
    · have hlt : i < v.size := lt_of_le_of_ne (Nat.le_of_lt_succ hi) hlast
      rw [hsame.get (hlt.trans_le h.room), hl.get i hlt,
        List.getElem?_append_left (by rwa [hl.length])]

/-- The chunks behind the last element are freed. -/
theorem Sound.shrink (h : v.Sound) (hper : 0 < perChunk sizeofT)
    (hroom : v.size ≤ v.chunkSize * perChunk sizeofT) :
    ∃ v', v.shrink sizeofT = some v' ∧ v'.Good sizeofT ∧ v'.size = v.size ∧
      v'.chunkCapacity = v.chunkCapacity ∧ ∀ i < v.size, v'.get sizeofT i = v.get sizeofT i := by
  have hceil : v.size ≤ (v.size + perChunk sizeofT - 1) / perChunk sizeofT * perChunk sizeofT := by
    have hmod := Nat.mod_lt (v.size + perChunk sizeofT - 1) hper
    have hdiv := Nat.div_add_mod (v.size + perChunk sizeofT - 1) (perChunk sizeofT)
    rw [Nat.mul_comm] at hdiv
    omega
  obtain ⟨v', hrun, hv', hsize, hnum, hcap, hsame⟩ := h.shrinkBy (Nat.sub_le v.chunkSize
    ((v.size + perChunk sizeofT - 1) / perChunk sizeofT))
  have hleft : v.chunkSize - (v.chunkSize - (v.size + perChunk sizeofT - 1) / perChunk sizeofT) =
      min v.chunkSize ((v.size + perChunk sizeofT - 1) / perChunk sizeofT) :=
    Nat.sub_sub_eq_min ..
  have hfits : v.size ≤ v'.chunkSize * perChunk sizeofT := by
    rw [hnum, hleft, ← Nat.mul_min_mul_right]
    exact le_min hroom hceil
  refine ⟨v', hrun, ⟨hv', hsize.trans_le hfits⟩, hsize, hcap, fun i hi => ?_⟩
  exact hsame.get (hnum ▸ hi.trans_le hfits)

theorem Good.pop (h : v.Good sizeofT) (hper : 0 < perChunk sizeofT) (hl : v.Holds sizeofT l) :
    ∃ v', v.pop sizeofT = some v' ∧ v'.Good sizeofT ∧ v'.Holds sizeofT l.dropLast := by
  have hsound : ({ v with size := v.size - 1 } : ChunkVector).Sound :=
    ⟨h.block, h.null, h.doubled, h.fits, h.chunks⟩
  obtain ⟨v', hrun, hv', hsize, -, hget⟩ :=
    hsound.shrink hper ((Nat.sub_le v.size 1).trans h.room)
  refine ⟨v', hrun, hv', ⟨?_, fun i hi => ?_⟩⟩
  · rw [List.length_dropLast, hl.length]
    exact hsize.symm
  · have hlt : i < v.size - 1 := by rwa [hsize] at hi
    rw [List.getElem?_dropLast, if_pos (by rwa [hl.length]), ← hl.get i (by omega)]
    exact hget i hlt

theorem Good.reserve (h : v.Good sizeofT) (hper : 0 < perChunk sizeofT) (hl : v.Holds sizeofT l)
    (hfresh : n > v.chunkSize * perChunk sizeofT → v.Fresh) (junk : Nat → Mem) :
    ∃ v', v.reserve sizeofT junk n = some v' ∧ v'.Good sizeofT ∧ v'.Holds sizeofT l := by
  obtain ⟨v', hrun, hv', hsize, -, hle, hsame⟩ :=
    h.toSound.growTo hper hfresh junk (Nat.le_add_right n _)
  refine ⟨v', hrun, ⟨hv', ?_⟩, ⟨hl.length.trans hsize.symm, fun i hi => ?_⟩⟩
  · rw [hsize]
    exact h.room.trans (Nat.mul_le_mul_right _ hle)
  · rw [hsize] at hi
    rw [hsame.get (hi.trans_le h.room), hl.get i hi]

/-- What was there and still is keeps its value; the rest may be anything. -/
theorem Good.resize (h : v.Good sizeofT) (hper : 0 < perChunk sizeofT) (hl : v.Holds sizeofT l)
    (hfresh : n > v.chunkSize * perChunk sizeofT → v.Fresh) (junk : Nat → Mem) :
    ∃ v' l', v.resize sizeofT junk n = some v' ∧ v'.Good sizeofT ∧ v'.Holds sizeofT l' ∧
      l'.length = n ∧ ∀ i < n, i < l.length → l'[i]? = l[i]? := by
  have hsound : ({ v with size := n } : ChunkVector).Sound :=
    ⟨h.block, h.null, h.doubled, h.fits, h.chunks⟩
  obtain ⟨v', hrun, hv', hsize, hget⟩ : ∃ v', v.resize sizeofT junk n = some v' ∧
      v'.Good sizeofT ∧ v'.size = n ∧
        ∀ i < n, i < v.size → v'.get sizeofT i = v.get sizeofT i := by
    rw [ChunkVector.resize]
    by_cases hmore : n > v.chunkSize * perChunk sizeofT
    · obtain ⟨v', hrun, hv', hsize, hroom, -, hsame⟩ :=
        hsound.growTo hper hfresh junk (Nat.le_add_right n _)
      refine ⟨v', by rw [if_pos hmore]; exact hrun, ⟨hv', hsize.trans_le hroom⟩, hsize,
        fun i _ hi => ?_⟩
      exact hsame.get (hi.trans_le h.room)
    · obtain ⟨v', hrun, hv', hsize, -, hget⟩ := hsound.shrink hper (not_lt.mp hmore)
      exact ⟨v', by rw [if_neg hmore]; exact hrun, hv', hsize, fun i hi _ => hget i hi⟩
  obtain ⟨l', hl'⟩ := hv'.exists_holds
  refine ⟨v', l', hrun, hv', hl', hl'.length.trans hsize, fun i hi hlt => ?_⟩
  have hold : i < v.size := hl.length ▸ hlt
  rw [← hl'.get i (hsize ▸ hi), hget i hi hold, hl.get i hold]

theorem Sound.reset (h : v.Sound) : ∃ v', v.reset = some v' ∧ v'.Sound ∧ v'.size = 0 ∧
    v'.chunkSize = 0 ∧ v'.chunkCapacity = v.chunkCapacity := by
  obtain ⟨v', hrun, hv', -, hnum, hcap, -⟩ := h.shrinkBy (le_refl v.chunkSize)
  refine ⟨{ v' with size := 0 }, ?_, ⟨hv'.block, hv'.null, hv'.doubled, hv'.fits, hv'.chunks⟩, rfl,
    ?_, hcap⟩
  · rw [ChunkVector.reset, hrun]
    rfl
  · rw [hnum, Nat.sub_self]

theorem holds_nil (h : v.size = 0) : v.Holds sizeofT [] where
  length := h.symm
  get i hi := absurd (h ▸ hi) (Nat.not_lt_zero i)

theorem good_moved (h : r.Sound) : r.moved.Good sizeofT where
  block t ht := absurd ht.symm (Option.some_ne_none t)
  null _ := rfl
  doubled := h.doubled
  fits := Nat.zero_le _
  chunks k hk := absurd hk (Nat.not_lt_zero k)
  room := Nat.zero_le _

/-- A vector with the table of `r`, and a capacity of its own. -/
theorem Good.taken (h : r.Good sizeofT) (hl : r.Holds sizeofT l) {e : Nat}
    (hcap : v.chunkCapacity = kFastBinSize * 2 ^ e) (hdata : v.data = r.data)
    (hsize : v.size = r.size) (hnum : v.chunkSize = r.chunkSize)
    (hagree : r.data ≠ none → v.chunkCapacity = r.chunkCapacity) :
    v.Good sizeofT ∧ v.Holds sizeofT l := by
  have hchunk : ∀ k, v.chunk k = r.chunk k := fun k => by rw [chunk, chunk, hdata]
  refine ⟨⟨⟨?_, ?_, ⟨e, hcap⟩, ?_, ?_⟩, ?_⟩, ⟨hl.length.trans hsize.symm, fun i hi => ?_⟩⟩
  · intro t ht
    rw [hdata] at ht
    rw [h.block t ht, hagree (by rw [ht]; exact Option.some_ne_none t)]
  · rw [hdata, hnum]
    exact h.null
  · rw [hnum]
    by_cases hnull : r.data = none
    · rw [h.null hnull]
      exact Nat.zero_le _
    · rw [hagree hnull]
      exact h.fits
  · rw [hnum]
    exact fun k hk => hchunk k ▸ h.chunks k hk
  · rw [hsize, hnum]
    exact h.room
  · rw [get_eq, hchunk, ← get_eq, hl.get i (hsize ▸ hi)]

/-- A copy has the chunks of `r`, in a block of the same size. -/
theorem Good.copyConstruct (h : r.Good sizeofT) :
    ∃ v, r.copyConstruct = some v ∧ v.size = r.size ∧ v.chunkSize = r.chunkSize ∧
      v.chunkCapacity = kFastBinSize ∧ (r.chunkSize = 0 → v.data = none) ∧
        (0 < r.chunkSize → ∃ t, v.data = some t ∧ t.bytes = r.chunkCapacity) ∧
          SameChunks r.chunkSize r v := by
  by_cases hzero : r.chunkSize = 0
  · refine ⟨{ size := r.size, chunkSize := r.chunkSize }, ?_, rfl, rfl, rfl, fun _ => rfl,
      fun hpos => absurd hzero hpos.ne', fun k hk => absurd (hzero ▸ hk) (Nat.not_lt_zero k)⟩
    rw [ChunkVector.copyConstruct, hzero]
    rfl
  · have hpos := Nat.pos_of_ne_zero hzero
    have hfits := h.fits
    have hblock : (if r.chunkCapacity = kFastBinSize then kFastBinSize else r.chunkCapacity) =
        r.chunkCapacity := by
      split_ifs with hcap
      · exact hcap.symm
      · rfl
    have hall : ∀ n ≤ r.chunkSize, ∃ t, (List.range n).foldlM (fun data i => do
        let t ← r.data
        let m ← t.read i
        let t ← data
        let t ← t.write i (some m)
        some (some t)) (some (Table.block r.chunkCapacity)) = some (some t) ∧
          t.bytes = r.chunkCapacity ∧ ∀ k < n, t.read k = r.chunk k := by
      intro n hn
      induction n with
      | zero => exact ⟨_, rfl, rfl, fun k hk => absurd hk (Nat.not_lt_zero k)⟩
      | succ n ih =>
          obtain ⟨t, hrun, hbytes, hold⟩ := ih (Nat.le_of_succ_le hn)
          obtain ⟨m, hm⟩ := Option.ne_none_iff_exists'.mp (h.chunks n hn)
          obtain ⟨t₀, hd, hread⟩ := Option.bind_eq_some_iff.mp hm
          obtain ⟨t', hwrite, hbytes', hread'⟩ := exists_write (t := t) (k := n) (by omega) (some m)
          refine ⟨t', ?_, hbytes'.trans hbytes, fun k hk => ?_⟩
          · rw [List.range_succ, List.foldlM_append, hrun]
            simp [hd, hread, hwrite]
          · rw [hread']
            split_ifs with hlast
            · rw [hlast, hm]
            · exact hold k (lt_of_le_of_ne (Nat.le_of_lt_succ hk) hlast)
    obtain ⟨t, hrun, hbytes, hread⟩ := hall r.chunkSize le_rfl
    refine ⟨{ data := some t, size := r.size, chunkSize := r.chunkSize }, ?_, rfl, rfl, rfl,
      fun hz => absurd hz hzero, fun _ => ⟨t, rfl, hbytes⟩, fun k hk => hread k hk⟩
    simp only [ChunkVector.copyConstruct, if_pos hpos, hblock, Option.bind_eq_bind] at hrun ⊢
    rw [hrun, Option.bind_some]

/-- The copy of a vector in its first block. -/
theorem Good.copied (h : r.Good sizeofT) (hl : r.Holds sizeofT l)
    (hfirst : 0 < r.chunkSize → r.chunkCapacity = kFastBinSize) :
    ∃ v, r.copyConstruct = some v ∧ v.Good sizeofT ∧ v.Holds sizeofT l := by
  obtain ⟨v, hrun, hsize, hnum, hcap, hnull, htable, hsame⟩ := h.copyConstruct
  refine ⟨v, hrun, ⟨⟨?_, ?_, ⟨0, by rw [hcap, Nat.pow_zero, Nat.mul_one]⟩, ?_, ?_⟩, ?_⟩,
    ⟨hl.length.trans hsize.symm, fun i hi => ?_⟩⟩
  · intro t ht
    have hpos : 0 < r.chunkSize := by
      refine Nat.pos_of_ne_zero fun hzero => ?_
      rw [hnull hzero] at ht
      exact Option.some_ne_none t ht.symm
    obtain ⟨t', ht', hbytes⟩ := htable hpos
    rw [ht', Option.some.injEq] at ht
    rw [← ht, hbytes, hfirst hpos, hcap]
  · intro hnone
    rw [hnum]
    by_contra hzero
    obtain ⟨t, ht, -⟩ := htable (Nat.pos_of_ne_zero hzero)
    exact Option.some_ne_none t (ht.symm.trans hnone)
  · rw [hnum, hcap]
    rcases Nat.eq_zero_or_pos r.chunkSize with hzero | hpos
    · rw [hzero]
      exact Nat.zero_le _
    · rw [← hfirst hpos]
      exact h.fits
  · intro k hk
    rw [hnum] at hk
    rw [hsame k hk]
    exact h.chunks k hk
  · rw [hsize, hnum]
    exact h.room
  · rw [hsize] at hi
    rw [hsame.get (hi.trans_le h.room), hl.get i hi]

/-! ## A table that is taken for a larger one -/

/-- The capacity is that of a table which is gone, the block a chunk. -/
structure Stale (v : ChunkVector) : Prop where
  block : ∃ t, v.data = some t ∧ t.bytes = kFastBinSize
  large : kFastBinSize < v.chunkCapacity
  fits : v.chunkSize * 8 ≤ kFastBinSize

theorem write_bytes {o : Option Mem} (h : t.write k o = some t') :
    8 * (k + 1) ≤ t.bytes ∧ t'.bytes = t.bytes := by
  rw [Table.write] at h
  split_ifs at h with hk
  exact ⟨hk, by rw [← Option.some.inj h]⟩

theorem Stale.grow_of {junk : Mem} (hblock : (v.data.getD (Table.block kFastBinSize)).bytes =
    kFastBinSize) (hlarge : kFastBinSize < v.chunkCapacity)
    (hfits : v.chunkSize * 8 ≤ kFastBinSize) (hs : v.grow junk = some v') : v'.Stale := by
  have htable : v.growTable = some (v.data.getD (Table.block kFastBinSize), v.chunkCapacity) :=
    if_neg (by omega)
  rw [grow, htable, Option.bind_eq_bind, Option.bind_some] at hs
  obtain ⟨t', hwrite, hs⟩ := Option.bind_eq_some_iff.mp hs
  obtain ⟨hroom, hbytes⟩ := write_bytes hwrite
  rw [← Option.some.inj hs]
  refine ⟨⟨t', rfl, hbytes.trans hblock⟩, hlarge, ?_⟩
  rw [hblock] at hroom
  rwa [Nat.mul_comm]

theorem Stale.growTo {junk : Nat → Mem} {fuel : Nat} (h : v.Stale)
    (hs : v.growTo sizeofT junk n fuel = some v') : v'.Stale := by
  induction fuel generalizing v with
  | zero => exact absurd hs.symm (Option.some_ne_none v')
  | succ fuel ih =>
      rw [ChunkVector.growTo] at hs
      split_ifs at hs
      · obtain ⟨v₁, hgrow, hs⟩ := Option.bind_eq_some_iff.mp hs
        obtain ⟨t, hd, hbytes⟩ := h.block
        exact ih (Stale.grow_of (by rw [hd]; exact hbytes) h.large h.fits hgrow) hs
      · exact Option.some.inj hs ▸ h

/-- An empty vector that kept the capacity of a larger table. -/
theorem Sound.stale_of_not_fresh (h : v.Sound) (hfresh : ¬ v.Fresh) :
    v.data = none ∧ v.chunkSize = 0 ∧ kFastBinSize < v.chunkCapacity := by
  rw [Fresh, Classical.not_imp] at hfresh
  obtain ⟨hnull, hcap⟩ := hfresh
  obtain ⟨e, hdoubled⟩ := h.doubled
  refine ⟨hnull, h.null hnull, lt_of_le_of_ne ?_ (Ne.symm hcap)⟩
  rw [hdoubled]
  exact Nat.le_mul_of_pos_right _ (Nat.two_pow_pos e)

theorem Stale.put (h : v.Stale) (hs : v.put sizeofT i x = some v') : v'.Stale := by
  obtain ⟨t, hd, hbytes⟩ := h.block
  rw [ChunkVector.put, hd, Option.bind_eq_bind, Option.bind_some] at hs
  obtain ⟨m, -, hs⟩ := Option.bind_eq_some_iff.mp hs
  obtain ⟨t', hwrite, hs⟩ := Option.bind_eq_some_iff.mp hs
  rw [← Option.some.inj hs]
  exact ⟨⟨t', rfl, (write_bytes hwrite).2.trans hbytes⟩, h.large, h.fits⟩

/-- The first block of such a vector is taken for the larger one. -/
theorem Sound.stale_grow (h : v.Sound) (hfresh : ¬ v.Fresh) {junk : Mem}
    (hs : v.grow junk = some v') : v'.Stale := by
  obtain ⟨hnull, hzero, hlarge⟩ := h.stale_of_not_fresh hfresh
  refine Stale.grow_of (by rw [hnull]; rfl) hlarge ?_ hs
  rw [hzero]
  exact Nat.zero_le _

theorem Sound.stale_push (h : v.Sound) (hfresh : ¬ v.Fresh) {junk : Nat → Mem}
    (hs : v.push sizeofT junk x = some v') : v'.Stale := by
  obtain ⟨v₁, hroom, hs⟩ := Option.bind_eq_some_iff.mp hs
  obtain ⟨v₂, hput, hs⟩ := Option.bind_eq_some_iff.mp hs
  have hgrow : v.grow (junk v.chunkSize) = some v₁ := by
    rwa [makeRoom, if_pos] at hroom
    rw [(h.stale_of_not_fresh hfresh).2.1, Nat.zero_mul]
    exact Nat.zero_le _
  have hstale := (h.stale_grow hfresh hgrow).put hput
  rw [← Option.some.inj hs]
  exact ⟨hstale.block, hstale.large, hstale.fits⟩

theorem Sound.stale_reserve (h : v.Sound) (hfresh : ¬ v.Fresh) {junk : Nat → Mem} (hn : 0 < n)
    (hs : v.reserve sizeofT junk n = some v') : v'.Stale := by
  have hmore : n > v.chunkSize * perChunk sizeofT := by
    rwa [(h.stale_of_not_fresh hfresh).2.1, Nat.zero_mul]
  rw [ChunkVector.reserve, ChunkVector.growTo, if_pos hmore] at hs
  obtain ⟨v₁, hgrow, hs⟩ := Option.bind_eq_some_iff.mp hs
  exact (h.stale_grow hfresh hgrow).growTo hs

theorem Sound.stale_resize (h : v.Sound) (hfresh : ¬ v.Fresh) {junk : Nat → Mem} (hn : 0 < n)
    (hs : v.resize sizeofT junk n = some v') : v'.Stale := by
  have hmore : n > v.chunkSize * perChunk sizeofT := by
    rwa [(h.stale_of_not_fresh hfresh).2.1, Nat.zero_mul]
  rw [ChunkVector.resize, if_pos hmore] at hs
  have hsound : ({ v with size := n } : ChunkVector).Sound :=
    ⟨h.block, h.null, h.doubled, h.fits, h.chunks⟩
  exact hsound.stale_reserve hfresh hn hs

end ChunkVector

end Dots

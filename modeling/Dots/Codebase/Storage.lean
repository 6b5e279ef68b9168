import Dots.Runtime.ChunkVector
import Mathlib.Algebra.BigOperators.Group.List.Basic

/-!
# `command_buffer::storage_t`

Blocks of bytes cut from the chunks of a `chunk_vector_base`, whose `size` is the position of the
next block counted in bytes from the first chunk on.
-/

namespace Dots

open Library

/-- A block of `size` bytes in a chunk of the storage. -/
structure StorageBlock where
  chunk : Nat
  offset : Nat
  size : Nat
deriving DecidableEq

namespace Storage

/-- `storage_t::push`; `junk` is what is in the chunks of the pool. A chunk that is not there gives
`none`. -/
def push (junk : Nat → Mem) (ds : Nat) (v : ChunkVector) :
    Option (StorageBlock × ChunkVector) := do
  let v ← if v.chunkSize = 0 then v.grow (junk v.chunkSize) else some v
  let indexInChunk := v.size % kFastBinSize
  let (v, indexInChunk) ←
    if indexInChunk + ds ≥ kFastBinSize then do
      let v := { v with size := (v.chunkSize + 1) * kFastBinSize }
      let v ← v.grow (junk v.chunkSize)
      some (v, 0)
    else some (v, indexInChunk)
  let _ ← v.chunk (v.size / kFastBinSize)
  some (⟨v.size / kFastBinSize, indexInChunk, ds⟩, { v with size := v.size + ds })

/-- The blocks of a run of pushes of these sizes. -/
def pushAll (junk : Nat → Mem) : List Nat → ChunkVector →
    Option (List StorageBlock × ChunkVector)
  | [], v => some ([], v)
  | ds :: run, v => do
      let (b, v) ← push junk ds v
      let (bs, v) ← pushAll junk run v
      some (b :: bs, v)

/-- No byte is in both blocks. -/
def Disjoint (b b' : StorageBlock) : Prop :=
  b.size = 0 ∨ b'.size = 0 ∨ b.chunk ≠ b'.chunk ∨ b.offset + b.size ≤ b'.offset ∨
    b'.offset + b'.size ≤ b.offset

/-- Each push returns a block in a chunk that was allocated, and the blocks are disjoint. -/
def BlocksValid (junk : Nat → Mem) (run : List Nat) (v : ChunkVector) : Prop :=
  ∃ bs v', pushAll junk run v = some (bs, v') ∧
    (∀ b ∈ bs, b.chunk < v'.chunkSize ∧ b.offset + b.size ≤ kFastBinSize) ∧ bs.Pairwise Disjoint

/-- One chunk was allocated, and `used` bytes of it are given away. -/
structure FirstChunk (used : Nat) (v : ChunkVector) : Prop where
  chunkSize : v.chunkSize = 1
  size : v.size = used
  capacity : v.chunkCapacity = kFastBinSize
  table : ∃ m, v.data = some ⟨kFastBinSize, Function.update (fun _ => none) 0 (some m)⟩

variable {used ds : Nat} {v : ChunkVector}

/-- The first push allocates the first chunk. -/
theorem exists_first (junk : Nat → Mem) :
    ∃ v, FirstChunk 0 v ∧ ∀ ds, push junk ds {} = push junk ds v := by
  refine ⟨⟨1, 0, kFastBinSize,
    some ⟨kFastBinSize, Function.update (fun _ => none) 0 (some (junk 0))⟩⟩,
    ⟨rfl, rfl, rfl, _, rfl⟩, fun ds => rfl⟩

theorem FirstChunk.chunk_zero (h : FirstChunk used v) : ∃ m, v.chunk 0 = some m := by
  obtain ⟨m, hm⟩ := h.table
  refine ⟨m, ?_⟩
  rw [ChunkVector.chunk, hm]
  rfl

/-- A block that ends before the chunk does. -/
theorem FirstChunk.push (h : FirstChunk used v) (junk : Nat → Mem)
    (hfit : used + ds < kFastBinSize) :
    ∃ v', Storage.push junk ds v = some (⟨0, used, ds⟩, v') ∧ FirstChunk (used + ds) v' := by
  obtain ⟨m, hm⟩ := h.chunk_zero
  have hmod : used % kFastBinSize = used := Nat.mod_eq_of_lt (by omega)
  have hdiv : used / kFastBinSize = 0 := Nat.div_eq_of_lt (by omega)
  refine ⟨{ v with size := v.size + ds }, ?_, h.chunkSize, congrArg (· + ds) h.size, h.capacity,
    h.table⟩
  have hsome : v.chunkSize ≠ 0 := by
    rw [h.chunkSize]
    decide
  simp only [Storage.push, if_neg hsome, Option.bind_eq_bind, Option.bind_some, h.size, hmod,
    if_neg (not_le.mpr hfit), hdiv, hm]

/-- The position behind the chunk that `grow` adds: there is no chunk. -/
theorem FirstChunk.push_overflow (h : FirstChunk used v) (junk : Nat → Mem)
    (hused : used < kFastBinSize) (hmore : kFastBinSize ≤ used + ds) :
    Storage.push junk ds v = none := by
  obtain ⟨m, hm⟩ := h.table
  have hmod : used % kFastBinSize = used := Nat.mod_eq_of_lt hused
  obtain ⟨chunkSize, size, capacity, data⟩ := v
  obtain rfl : chunkSize = 1 := h.chunkSize
  obtain rfl : size = used := h.size
  obtain rfl : capacity = kFastBinSize := h.capacity
  obtain rfl : data = _ := hm
  have hgrow : ChunkVector.grow (junk 1) { (⟨1, size, kFastBinSize, some ⟨kFastBinSize,
      Function.update (fun _ => none) 0 (some m)⟩⟩ : ChunkVector) with
        size := (1 + 1) * kFastBinSize } =
      some ⟨2, (1 + 1) * kFastBinSize, kFastBinSize, some ⟨kFastBinSize,
        Function.update (Function.update (fun _ => none) 0 (some m)) 1 (some (junk 1))⟩⟩ := rfl
  have hnone : ChunkVector.chunk ⟨2, (1 + 1) * kFastBinSize, kFastBinSize, some ⟨kFastBinSize,
      Function.update (Function.update (fun _ => none) 0 (some m)) 1 (some (junk 1))⟩⟩
        ((1 + 1) * kFastBinSize / kFastBinSize) = none := rfl
  simp only [Storage.push, Nat.one_ne_zero, if_false, Option.bind_eq_bind, Option.bind_some, hmod,
    if_pos hmore, hgrow, hnone, Option.bind_none, ge_iff_le]

theorem pushAll_cons (junk : Nat → Mem) (ds : Nat) (run : List Nat) (v : ChunkVector) :
    pushAll junk (ds :: run) v = (Storage.push junk ds v).bind fun r =>
      (pushAll junk run r.2).map fun rs => (r.1 :: rs.1, rs.2) := by
  rw [pushAll]
  cases Storage.push junk ds v with
  | none => rfl
  | some r => cases hrest : pushAll junk run r.2 <;> simp [hrest]

/-- The blocks of a run follow each other in the first chunk. -/
theorem FirstChunk.pushAll (h : FirstChunk used v) (junk : Nat → Mem) {run : List Nat}
    (hfit : used + run.sum < kFastBinSize) :
    ∃ bs v', Storage.pushAll junk run v = some (bs, v') ∧ FirstChunk (used + run.sum) v' ∧
      (∀ b ∈ bs, b.chunk = 0 ∧ used ≤ b.offset ∧ b.offset + b.size ≤ used + run.sum) ∧
      bs.Pairwise Disjoint := by
  induction run generalizing used v with
  | nil => exact ⟨[], v, rfl, h, fun b hb => absurd hb List.not_mem_nil, List.Pairwise.nil⟩
  | cons ds run ih =>
      rw [List.sum_cons] at hfit ⊢
      have hfirst : used + ds < kFastBinSize := by omega
      obtain ⟨v₁, hpush, hv₁⟩ := h.push junk hfirst
      obtain ⟨bs, v', hrun, hv', hbs, hpairwise⟩ := ih hv₁ (by omega)
      refine ⟨⟨0, used, ds⟩ :: bs, v', ?_, ?_, fun b hb => ?_, ?_⟩
      · rw [pushAll_cons, hpush, Option.bind_some, hrun, Option.map_some]
      · rwa [Nat.add_assoc] at hv'
      · rcases List.mem_cons.mp hb with rfl | hb
        · exact ⟨rfl, le_rfl, by dsimp only; omega⟩
        · obtain ⟨hchunk, hlo, hhi⟩ := hbs b hb
          exact ⟨hchunk, by omega, by omega⟩
      · refine List.Pairwise.cons (fun b hb => ?_) hpairwise
        obtain ⟨-, hlo, -⟩ := hbs b hb
        exact Or.inr (Or.inr (Or.inr (Or.inl hlo)))

/-- A run that fills the first chunk fails. -/
theorem FirstChunk.pushAll_overflow (h : FirstChunk used v) (junk : Nat → Mem)
    (hused : used < kFastBinSize) {run : List Nat} (hmore : kFastBinSize ≤ used + run.sum) :
    Storage.pushAll junk run v = none := by
  induction run generalizing used v with
  | nil =>
      rw [List.sum_nil] at hmore
      omega
  | cons ds run ih =>
      rw [List.sum_cons] at hmore
      rw [pushAll_cons]
      by_cases hfit : used + ds < kFastBinSize
      · obtain ⟨v₁, hpush, hv₁⟩ := h.push junk hfit
        rw [hpush, Option.bind_some, ih hv₁ hfit (by omega)]
        rfl
      · rw [h.push_overflow junk hused (not_lt.mp hfit)]
        rfl

theorem pushAll_empty (junk : Nat → Mem) (hv : ∀ ds, push junk ds {} = push junk ds v)
    {run : List Nat} (hrun : run ≠ []) : pushAll junk run {} = pushAll junk run v := by
  cases run with
  | nil => exact absurd rfl hrun
  | cons ds run => rw [pushAll_cons, pushAll_cons, hv]

/-- All blocks are in chunks that were allocated, and disjoint, just when together they are shorter
than one chunk. -/
theorem blocksValid_iff (junk : Nat → Mem) (run : List Nat) :
    BlocksValid junk run {} ↔ run.sum < kFastBinSize := by
  obtain ⟨v, hv, hsame⟩ := exists_first junk
  by_cases hnil : run = []
  · rw [hnil]
    exact ⟨fun _ => by decide, fun _ => ⟨[], {}, rfl, by simp, List.Pairwise.nil⟩⟩
  rw [BlocksValid, pushAll_empty junk hsame hnil]
  constructor
  · rintro ⟨bs, v', hpushes, -⟩
    by_contra hmore
    rw [hv.pushAll_overflow junk (by decide) (by omega)] at hpushes
    exact absurd hpushes (by simp)
  · intro hfit
    rw [← Nat.zero_add run.sum] at hfit
    obtain ⟨bs, v', hpushes, hv', hbs, hpairwise⟩ := hv.pushAll junk hfit
    refine ⟨bs, v', hpushes, fun b hb => ?_, hpairwise⟩
    obtain ⟨hchunk, -, hhi⟩ := hbs b hb
    rw [hv'.chunkSize, hchunk]
    exact ⟨Nat.one_pos, by omega⟩

/-- Two blocks of 40000 bytes: the second one is looked for in a third chunk. -/
theorem not_blocksValid_two : (∀ ds ∈ [40000, 40000], ds < kFastBinSize) ∧
    ¬ BlocksValid (fun _ _ => 0) [40000, 40000] {} := by
  refine ⟨by decide, ?_⟩
  rintro ⟨bs, v', hpushes, -⟩
  obtain ⟨v, hv, hsame⟩ := exists_first fun _ _ => 0
  rw [pushAll_empty _ hsame (List.cons_ne_nil _ _),
    hv.pushAll_overflow _ (by decide) (by decide)] at hpushes
  exact absurd hpushes (by simp)

end Storage

end Dots

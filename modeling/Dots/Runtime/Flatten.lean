import Dots.Runtime.ChunkVector

/-!
# `chunk_vector::flatten`

The elements are read from chunks that hold a whole number of them; `flatten` copies the chunks
as bytes, up to their ends. Where an element does not divide the chunk, the bytes between the last
element of a chunk and its end are copied too.
-/

namespace Dots.ChunkVector

open Library

/-- One turn of `chunk_vector_base::flatten`, with what is left to copy. -/
def flattenChunk (v : ChunkVector) (s : Mem × Nat × Nat) (i : Nat) : Option (Mem × Nat × Nat) := do
  let (dst, at', remainSize) := s
  let t ← v.data
  let m ← t.read i
  let sizeToCopy := min kFastBinSize remainSize
  some (dst.copy at' m 0 sizeToCopy, at' + sizeToCopy, remainSize - sizeToCopy)

/-- `chunk_vector::flatten`. -/
def flatten (sizeofT : Nat) (v : ChunkVector) (dst : Mem) : Option Mem := do
  let (dst, _, _) ← (List.range v.chunkSize).foldlM v.flattenChunk (dst, 0, v.size * sizeofT)
  some dst

/-- Element `i` is at `dst[i]`, and nothing behind the last element is written. -/
def Flattens (sizeofT : Nat) (v : ChunkVector) : Prop :=
  ∀ dst, ∃ dst', v.flatten sizeofT dst = some dst' ∧
    (∀ i < v.size, some (dst'.read (sizeofT * i) sizeofT) = v.get sizeofT i) ∧
      ∀ a, sizeofT * v.size ≤ a → dst' a = dst a

variable {sizeofT i a : Nat} {v v' : ChunkVector}

/-- The byte `a` of the chunks, one behind the other. -/
def byteAt (v : ChunkVector) (a : Nat) : UInt8 :=
  ((v.chunk (a / kFastBinSize)).getD default) (a % kFastBinSize)

/-- After `n` chunks their bytes are in `dst`, as far as there are elements. -/
theorem Sound.flattenChunks (h : v.Sound) (dst : Mem) (total : Nat) {n : Nat}
    (hn : n ≤ v.chunkSize) :
    (List.range n).foldlM v.flattenChunk (dst, 0, total) =
      some (fun a => if a < min (n * kFastBinSize) total then v.byteAt a else dst a,
        min (n * kFastBinSize) total, total - min (n * kFastBinSize) total) := by
  induction n with
  | zero => simp
  | succ n ih =>
      obtain ⟨m, hm⟩ := Option.ne_none_iff_exists'.mp (h.chunks n hn)
      obtain ⟨t, hd, hread⟩ := Option.bind_eq_some_iff.mp hm
      have hnext : (n + 1) * kFastBinSize = n * kFastBinSize + kFastBinSize := Nat.succ_mul ..
      have hsum : min (n * kFastBinSize) total +
          min kFastBinSize (total - min (n * kFastBinSize) total) =
            min ((n + 1) * kFastBinSize) total := by
        omega
      rw [List.range_succ, List.foldlM_append, ih (Nat.le_of_succ_le hn)]
      simp only [Option.bind_eq_bind, Option.bind_some, List.foldlM_cons, List.foldlM_nil,
        flattenChunk, hd, hread, hsum]
      refine congrArg some (Prod.ext (funext fun a => ?_) (Prod.ext rfl ?_))
      · -- the bytes before are of the chunks before, those of this turn of chunk `n`
        simp only [Mem.copy, hsum]
        by_cases hbefore : a < min (n * kFastBinSize) total
        · rw [if_neg (by omega), if_pos hbefore, if_pos (by omega)]
        · by_cases hnow : a < min ((n + 1) * kFastBinSize) total
          · have hchunk : a / kFastBinSize = n :=
              Nat.div_eq_of_lt_le (by omega) (by omega)
            have hoffset : a % kFastBinSize = a - n * kFastBinSize := by
              rw [Nat.mod_eq_sub_div_mul, hchunk]
            rw [if_pos ⟨by omega, hnow⟩, if_pos hnow, byteAt, hchunk, hm, hoffset, Option.getD_some,
              Nat.zero_add]
            congr 1
            omega
          · rw [if_neg (by omega), if_neg hbefore, if_neg hnow]
      · exact (Nat.sub_sub ..).trans (congrArg (total - ·) hsum)

theorem perChunk_mul_le (sizeofT : Nat) : perChunk sizeofT * sizeofT ≤ kFastBinSize :=
  Nat.div_mul_le_self ..

/-- There is a chunk for every byte that is copied. -/
theorem Good.flatten_eq (h : v.Good sizeofT) (dst : Mem) : v.flatten sizeofT dst =
    some fun a => if a < v.size * sizeofT then v.byteAt a else dst a := by
  have hroom : v.size * sizeofT ≤ v.chunkSize * kFastBinSize := by
    calc v.size * sizeofT ≤ v.chunkSize * perChunk sizeofT * sizeofT :=
          Nat.mul_le_mul_right _ h.room
      _ = v.chunkSize * (perChunk sizeofT * sizeofT) := Nat.mul_assoc ..
      _ ≤ v.chunkSize * kFastBinSize := Nat.mul_le_mul_left _ (perChunk_mul_le sizeofT)
  rw [flatten, h.flattenChunks dst _ le_rfl, Option.bind_eq_bind, Option.bind_some,
    min_eq_right hroom]

/-- The bytes of the elements are where `flatten` takes them from. -/
theorem Good.flattens_of_byteAt (h : v.Good sizeofT)
    (hbyte : ∀ i < v.size, ∀ b < sizeofT, ∀ m, v.chunk (i / perChunk sizeofT) = some m →
      v.byteAt (sizeofT * i + b) = m (sizeofT * (i % perChunk sizeofT) + b)) :
    v.Flattens sizeofT := by
  refine fun dst => ⟨_, h.flatten_eq dst, fun i hi => ?_, fun a ha => ?_⟩
  · obtain ⟨m, hm⟩ := Option.ne_none_iff_exists'.mp
      (h.chunks (i / perChunk sizeofT) (div_lt_of_lt (hi.trans_le h.room)))
    rw [get_eq, hm, Option.map_some]
    refine congrArg some (Mem.read_eq fun b hb => ?_)
    have hend : sizeofT * i + b < v.size * sizeofT := by
      have hle := Nat.mul_le_mul_left sizeofT (Nat.succ_le_of_lt hi)
      rw [Nat.mul_succ, Nat.mul_comm sizeofT v.size] at hle
      omega
    rw [if_pos hend]
    exact hbyte i hi b hb m hm
  · rw [Nat.mul_comm] at ha
    exact if_neg (not_lt.mpr ha)

/-- Elements that divide the chunk leave no gap. -/
theorem Good.flattens_of_dvd (h : v.Good sizeofT) (hdvd : sizeofT ∣ kFastBinSize) :
    v.Flattens sizeofT := by
  refine h.flattens_of_byteAt fun i _ b hb m hm => ?_
  have hfull : perChunk sizeofT * sizeofT = kFastBinSize := Nat.div_mul_cancel hdvd
  have hlt : i % perChunk sizeofT < perChunk sizeofT :=
    Nat.mod_lt i (Nat.pos_of_mul_pos_right (hfull ▸ (by decide : 0 < kFastBinSize)))
  have hinside : sizeofT * (i % perChunk sizeofT) + b < kFastBinSize := by
    have hle := Nat.mul_le_mul_left sizeofT (Nat.succ_le_of_lt hlt)
    rw [Nat.mul_succ, Nat.mul_comm sizeofT (perChunk sizeofT), hfull] at hle
    omega
  have hsplit : sizeofT * i + b =
      sizeofT * (i % perChunk sizeofT) + b + kFastBinSize * (i / perChunk sizeofT) := by
    conv_lhs => rw [← Nat.div_add_mod i (perChunk sizeofT), Nat.mul_add, ← Nat.mul_assoc,
      Nat.mul_comm sizeofT (perChunk sizeofT), hfull]
    omega
  rw [byteAt, hsplit, Nat.add_mul_div_left _ _ (by decide), Nat.div_eq_of_lt hinside, Nat.zero_add,
    hm, Option.getD_some, Nat.add_mul_mod_self_left, Nat.mod_eq_of_lt hinside]

/-- The gap behind the first chunk is not reached. -/
theorem Good.flattens_of_le (h : v.Good sizeofT) (hle : v.size ≤ perChunk sizeofT) :
    v.Flattens sizeofT := by
  refine h.flattens_of_byteAt fun i hi b hb m hm => ?_
  have hlt := hi.trans_le hle
  have hinside : sizeofT * i + b < kFastBinSize := by
    have hmul := Nat.mul_le_mul_left sizeofT (Nat.succ_le_of_lt hlt)
    have hper := perChunk_mul_le sizeofT
    rw [Nat.mul_succ, Nat.mul_comm sizeofT (perChunk sizeofT)] at hmul
    omega
  rw [Nat.div_eq_of_lt hlt] at hm
  rw [byteAt, Nat.div_eq_of_lt hinside, hm, Option.getD_some, Nat.mod_eq_of_lt hinside,
    Nat.mod_eq_of_lt hlt]

/-- `v'` has the elements of `v`. The bytes between the elements of two chunks may differ. -/
structure SameElements (sizeofT : Nat) (v v' : ChunkVector) : Prop where
  size : v'.size = v.size
  chunkSize : v'.chunkSize = v.chunkSize
  get : ∀ i < v.size, v'.get sizeofT i = v.get sizeofT i

/-- Another byte in the gap of the first chunk. -/
theorem Good.exists_gap (h : v.Good sizeofT) (hgap : perChunk sizeofT * sizeofT < kFastBinSize)
    (hpos : 0 < v.chunkSize) (b : UInt8) : ∃ v', v'.Good sizeofT ∧ SameElements sizeofT v v' ∧
      v'.byteAt (perChunk sizeofT * sizeofT) = b := by
  obtain ⟨m, hm⟩ := Option.ne_none_iff_exists'.mp (h.chunks 0 hpos)
  obtain ⟨t, hd, hread⟩ := Option.bind_eq_some_iff.mp hm
  have hfits := h.fits
  have hblock := h.block t hd
  obtain ⟨t', -, hbytes, hread'⟩ := exists_write (t := t) (k := 0) (by omega)
    (some (Function.update m (perChunk sizeofT * sizeofT) b))
  obtain ⟨v', hv'⟩ : ∃ v' : ChunkVector, v' = { v with data := some t' } := ⟨_, rfl⟩
  have hchunk : ∀ k, v'.chunk k =
      if k = 0 then some (Function.update m (perChunk sizeofT * sizeofT) b) else v.chunk k := by
    intro k
    rw [hv', chunk, chunk, hd, Option.bind_some, Option.bind_some, hread']
  refine ⟨v', ⟨⟨?_, ?_, ?_, ?_, ?_⟩, ?_⟩, ⟨by rw [hv'], by rw [hv'], fun i hi => ?_⟩, ?_⟩
  · intro t'' ht''
    rw [hv'] at ht'' ⊢
    rw [← Option.some.inj ht'', hbytes]
    exact hblock
  · intro hnone
    rw [hv'] at hnone
    exact absurd hnone (Option.some_ne_none t')
  · rw [hv']
    exact h.doubled
  · rw [hv']
    exact hfits
  · intro k hk
    rw [hchunk]
    split_ifs
    · exact Option.some_ne_none _
    · rw [hv'] at hk
      exact h.chunks k hk
  · rw [hv']
    exact h.room
  · rw [get_eq, get_eq, hchunk]
    split_ifs with hfirst
    · rw [hfirst, hm, Option.map_some, Option.map_some]
      refine congrArg some (Mem.read_eq fun c hc => Function.update_of_ne ?_ ..)
      have hlt : i % perChunk sizeofT < perChunk sizeofT := by
        refine Nat.mod_lt i (Nat.pos_of_ne_zero fun hzero => ?_)
        have hroom := h.room
        rw [hzero, Nat.mul_zero] at hroom
        omega
      have hle := Nat.mul_le_mul_left sizeofT (Nat.succ_le_of_lt hlt)
      rw [Nat.mul_succ, Nat.mul_comm sizeofT (perChunk sizeofT)] at hle
      omega
    · rfl
  · rw [byteAt, Nat.div_eq_of_lt hgap, hchunk, if_pos rfl, Option.getD_some, Nat.mod_eq_of_lt hgap,
      Function.update_self]

/-- Whatever is between the elements of two chunks, a vector is flattened to its elements just
when these divide a chunk, or are all in the first one. -/
theorem Good.flattens_iff (h : v.Good sizeofT) (hpos : 0 < sizeofT) (hle : sizeofT ≤ 65536) :
    (∀ v', v'.Good sizeofT → SameElements sizeofT v v' → v'.Flattens sizeofT) ↔
      sizeofT ∣ kFastBinSize ∨ v.size ≤ perChunk sizeofT := by
  have hper := perChunk_pos hpos hle
  constructor
  · intro hall
    by_contra hnot
    rw [not_or, not_le] at hnot
    obtain ⟨hdvd, hlarge⟩ := hnot
    have hgap : perChunk sizeofT * sizeofT < kFastBinSize := by
      refine lt_of_le_of_ne (perChunk_mul_le sizeofT) fun heq => hdvd ?_
      exact heq ▸ Nat.dvd_mul_left sizeofT _
    have hmore : 1 * perChunk sizeofT < v.chunkSize * perChunk sizeofT := by
      rw [Nat.one_mul]
      exact hlarge.trans_le h.room
    have hchunks : 1 < v.chunkSize := Nat.lt_of_mul_lt_mul_right hmore
    obtain ⟨m, hm⟩ := Option.ne_none_iff_exists'.mp (h.chunks 1 hchunks)
    -- the first byte of the second chunk is not the one behind the last element of the first
    obtain ⟨v', hgood, hsame, hbyte⟩ := h.exists_gap hgap (Nat.zero_lt_of_lt hchunks) (m 0 + 1)
    obtain ⟨dst', hrun, hdst, -⟩ := hall v' hgood hsame fun _ => 0
    have hget := hdst (perChunk sizeofT) (hsame.size ▸ hlarge)
    rw [hsame.get _ hlarge, get_eq, Nat.div_self hper, hm, Option.map_some, Nat.mod_self,
      Option.some.injEq, Nat.mul_zero] at hget
    have hfirst := Mem.read_inj hget hpos
    rw [hgood.flatten_eq, Option.some.injEq] at hrun
    have hwritten : perChunk sizeofT * sizeofT < v'.size * sizeofT := by
      rw [hsame.size]
      exact Nat.mul_lt_mul_of_pos_right hlarge hpos
    rw [← hrun, Nat.add_zero, Nat.add_zero, Nat.mul_comm sizeofT] at hfirst
    beta_reduce at hfirst
    rw [if_pos hwritten, hbyte] at hfirst
    exact absurd hfirst (by simp)
  · rintro (hdvd | hfew) v' hgood hsame
    · exact hgood.flattens_of_dvd hdvd
    · exact hgood.flattens_of_le (hsame.size ▸ hfew)

/-- A vector of `n` elements in chunks whose bytes all are the number of the chunk. -/
def numbered (n chunks : Nat) : ChunkVector where
  size := n
  chunkSize := chunks
  data := some { bytes := kFastBinSize, entries := fun k => some fun _ => UInt8.ofNat k }

theorem good_numbered {n chunks : Nat} (hfits : chunks * 8 ≤ kFastBinSize)
    (hroom : n ≤ chunks * perChunk sizeofT) : (numbered n chunks).Good sizeofT where
  block t ht := by rw [← Option.some.inj ht]; rfl
  null hnone := absurd hnone (Option.some_ne_none _)
  doubled := ⟨0, rfl⟩
  fits := hfits
  chunks k hk := by
    have hblock : 8 * (k + 1) ≤ kFastBinSize := by
      have hle : (k + 1) * 8 ≤ chunks * 8 := Nat.mul_le_mul_right 8 hk
      omega
    change Table.read _ k ≠ none
    rw [Table.read, if_pos hblock]
    exact Option.some_ne_none _
  room := hroom

theorem flattens_numbered : (numbered 1 1).Flattens 12 :=
  (Good.flattens_iff (good_numbered (by decide) (by decide)) (by decide) (by decide)).mpr
    (Or.inr (by decide)) _ (good_numbered (by decide) (by decide)) ⟨rfl, rfl, fun _ _ => rfl⟩

/-- The first byte of element 5461 is in the second chunk, that of `dst[5461]` in the first. -/
theorem not_flattens_numbered : (numbered 5462 2).Good 12 ∧ ¬ (numbered 5462 2).Flattens 12 := by
  have hgood : (numbered 5462 2).Good 12 := good_numbered (by decide) (by decide)
  refine ⟨hgood, fun hflat => ?_⟩
  obtain ⟨dst', hrun, hdst, -⟩ := hflat fun _ => 0
  rw [hgood.flatten_eq, Option.some.injEq] at hrun
  have hget := hdst 5461 (by decide)
  obtain ⟨m, hm⟩ := Option.ne_none_iff_exists'.mp (hgood.chunks 1 (by decide))
  rw [get_eq, (by decide : 5461 / perChunk 12 = 1), hm, Option.map_some, Option.some.injEq] at hget
  have hfirst := Mem.read_inj hget (i := 0) (by decide)
  obtain rfl : (fun _ => 1) = m := Option.some.inj hm
  rw [← hrun] at hfirst
  exact absurd hfirst (by decide)

end Dots.ChunkVector

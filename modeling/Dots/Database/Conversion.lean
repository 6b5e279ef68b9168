import Dots.Database.Castable

/-!
# `chunk::cast`

The three phases of `chunk::cast` are one walk over the columns of both archetypes. What
becomes of a column is decided by the step its cursor takes: here are the steps there are,
the calls they make, and what these leave of the two chunks.
-/

namespace Dots

open Library

/-- The kind of the segment a column is in. -/
def Archetype.kind (a : Archetype) (k : Nat) : ComponentType :=
  if k < a.firstBuffer then .pod
  else if k < a.firstManaged then .buffer
  else if k < a.firstTag then .managed
  else .tag

/-- Column `i` of one archetype and column `k` of the other are of one type, up to twins. -/
structure Common (ctx : Context) (a b : Archetype) (i k : Nat) : Prop where
  src_lt : i < a.firstTag
  dst_lt : k < b.firstTag
  valid : ctx.toValidType (a.types.getD i 0) = ctx.toValidType (b.types.getD k 0)

/-- A column of `b` without a counterpart in `a`. -/
structure Lone (ctx : Context) (a b : Archetype) (k : Nat) : Prop where
  lt : k < b.firstTag
  alone : ∀ i < a.firstTag, ctx.toValidType (a.types.getD i 0) ≠ ctx.toValidType (b.types.getD k 0)

/-- The archetypes of a conversion: strictly sorted types, no mask, no type next to its
twin. -/
structure Plain (ctx : Context) (a : Archetype) : Prop where
  built : constructArchetype ctx a.type = some a
  sorted : Set.Sorted a.types
  lt : ∀ t ∈ a.types, t < 2 ^ 32
  unpaired : World.Unpaired ctx a.types
  unmasked : ctx.maskId ∉ a.types

theorem Archetype.getD_types {a : Archetype} {i : Nat} (hi : i < a.types.length) :
    a.types.getD i 0 = a.types[i] := by
  rw [List.getD_eq_getElem?_getD, List.getElem?_eq_getElem hi, Option.getD_some]

namespace Plain

variable {ctx : Context} {a : Archetype}

theorem layout (ha : Plain ctx a) : Layout a := constructArchetype_layout ha.built

theorem sortedTypes (ha : Plain ctx a) : SortedTypes a.types :=
  ⟨ha.sorted.imp le_of_lt, ha.lt⟩

/-- The valid types of a segment rise strictly. -/
theorem rising (hctx : ctx.Built) (hreg : ctx.tracks.length ≤ 2 ^ 30) (ha : Plain ctx a)
    {lo hi : Nat} (hhi : hi ≤ a.firstTag) :
    (Memory.segmentOf a lo hi).Pairwise fun e f =>
      ctx.toValidType e.2 < ctx.toValidType f.2 := by
  have hlen := ha.layout.tag_le
  rw [Memory.segmentOf, List.pairwise_map]
  have hrange : (Memory.columns lo hi).Pairwise (· < ·) :=
    List.pairwise_lt_range.sublist (List.drop_sublist ..)
  refine hrange.imp_of_mem fun {i j} _ hj hij => ?_
  have hjl : j < a.types.length := (Memory.mem_columns.mp hj).2.trans_le (hhi.trans hlen)
  have hil : i < a.types.length := hij.trans hjl
  rw [Archetype.getD_types hil, Archetype.getD_types hjl]
  have hlt : a.types[i] < a.types[j] := List.pairwise_iff_getElem.mp ha.sorted i j hil hjl hij
  refine lt_of_le_of_ne (ctx.toValidType_le_of_lt hlt) fun heq => hlt.ne ?_
  exact ha.unpaired.eq_of_valid hctx hreg (List.getElem_mem _) (List.getElem_mem _) heq

end Plain

namespace Memory

variable {ctx : Context} {a b : Archetype} {dst src : CastSide} {count : Nat}
  {mm mm' : Memory}

/-! ## The steps of a merge -/

/-- The column of the source a step is about. -/
def CastStep.src? : CastStep → Option Nat
  | .drop i => some i
  | .make _ => none
  | .move i _ => some i

section Merge

variable {valid : TypeIndex → TypeIndex} {ss ds : List (Nat × TypeIndex)}

theorem srcs_castStepsFrom {s : Nat × TypeIndex} {rest : List (Nat × TypeIndex) → List CastStep}
    {is : List Nat} (hrest : ∀ ds, (rest ds).filterMap CastStep.src? = is)
    (ds : List (Nat × TypeIndex)) :
    (castStepsFrom valid s rest ds).filterMap CastStep.src? = s.1 :: is := by
  induction ds with
  | nil => simp only [castStepsFrom, List.filterMap_cons, CastStep.src?, hrest]
  | cons d ds ih =>
      rw [castStepsFrom]
      split_ifs
      · simp only [List.filterMap_cons, CastStep.src?, hrest]
      · simp only [List.filterMap_cons, CastStep.src?, ih]
      · simp only [List.filterMap_cons, CastStep.src?, hrest]

/-- The steps of a phase go through the columns of the source in order. -/
theorem srcs_castSteps (ss ds : List (Nat × TypeIndex)) :
    (castSteps valid ss ds).filterMap CastStep.src? = ss.map Prod.fst := by
  induction ss generalizing ds with
  | nil =>
      rw [castSteps, List.filterMap_map]
      exact List.filterMap_eq_nil_iff.mpr fun _ _ => rfl
  | cons s ss ih => exact srcs_castStepsFrom ih ds

/-- In lists that rise strictly the cursors meet wherever the valid types agree. -/
theorem move_mem_of_rising
    (hs : ss.Pairwise fun e f => valid e.2 < valid f.2)
    (hd : ds.Pairwise fun e f => valid e.2 < valid f.2) {i k : Nat} {t u : TypeIndex}
    (ht : (i, t) ∈ ss) (hu : (k, u) ∈ ds) (hv : valid t = valid u) :
    .move i k ∈ castSteps valid ss ds := by
  obtain ⟨s₁, s₂, rfl⟩ := List.append_of_mem ht
  obtain ⟨d₁, d₂, rfl⟩ := List.append_of_mem hu
  have hs₁ : ∀ e ∈ s₁, valid e.2 < valid t := fun e he =>
    (List.pairwise_append.mp hs).2.2 e he _ List.mem_cons_self
  have hd₁ : ∀ e ∈ d₁, valid e.2 < valid t := fun e he =>
    hv ▸ (List.pairwise_append.mp hd).2.2 e he _ List.mem_cons_self
  apply move_mem_castSteps hv (fun e he => (hs₁ e he).le) (fun e he => (hd₁ e he).le)
  rw [List.countP_eq_zero.mpr, List.countP_eq_zero.mpr]
  · exact fun e he => by simpa using (hd₁ e he).ne
  · exact fun e he => by simpa using (hs₁ e he).ne

end Merge

/-! ## The steps of `chunk::cast` -/

/-- The steps of the three phases. -/
def allSteps (ctx : Context) (a b : Archetype) : List CastStep :=
  podSteps ctx a b ++ (bufferSteps ctx a b ++ managedSteps ctx a b)

theorem columns_append {lo mid hi : Nat} (hlo : lo ≤ mid) (hhi : mid ≤ hi) :
    columns lo mid ++ columns mid hi = columns lo hi := by
  rw [columns_eq, columns_eq, columns_eq, show hi - lo = (mid - lo) + (hi - mid) by omega,
    ← List.range'_append_1]
  congr 2
  omega

theorem fst_segmentOf (a : Archetype) (lo hi : Nat) :
    (segmentOf a lo hi).map Prod.fst = columns lo hi := by
  rw [segmentOf, List.map_map]
  exact List.map_id _

theorem columns_all (hl : Layout a) : columns 0 a.firstBuffer ++ (columns a.firstBuffer
    a.firstManaged ++ columns a.firstManaged a.firstTag) = List.range a.firstTag := by
  rw [columns_append hl.buffer_le hl.managed_le,
    columns_append (Nat.zero_le _) (hl.buffer_le.trans hl.managed_le)]
  rfl

/-- All columns of the source are gone through. -/
theorem srcs_allSteps (ha : Layout a) :
    (allSteps ctx a b).filterMap CastStep.src? = List.range a.firstTag := by
  simp only [allSteps, podSteps, bufferSteps, managedSteps, List.filterMap_append, srcs_castSteps,
    fst_segmentOf]
  exact columns_all ha

/-- All columns of the destination are gone through. -/
theorem dsts_allSteps (hb : Layout b) :
    (allSteps ctx a b).filterMap CastStep.dst? = List.range b.firstTag := by
  simp only [allSteps, podSteps, bufferSteps, managedSteps, List.filterMap_append, dsts_castSteps,
    fst_segmentOf]
  exact columns_all hb

theorem bits_toValidType (hctx : ctx.Paired) (t : TypeIndex) :
    (ctx.toValidType t).bits = t.bits := by
  by_cases hv : ctx.toValidType t = t
  · rw [hv]
  · rw [Context.toValidType_of_ne hv, Context.bits_pred (hctx.index_pos hv)]

/-- The cursors meet at the columns of one type. -/
theorem meets_iff (hctx : ctx.Built) (hreg : ctx.tracks.length ≤ 2 ^ 30) (ha : Plain ctx a)
    (hb : Plain ctx b) {i k : Nat} : .move i k ∈ allSteps ctx a b ↔ Common ctx a b i k := by
  have hla := ha.layout
  have hlb := hb.layout
  simp only [allSteps, List.mem_append]
  constructor
  · intro hmeet
    have hmeets : Meets ctx a b i k := hmeet
    obtain ⟨hi, hk, hv⟩ := hmeets.spec hla hlb
    exact ⟨hi, hk, hv⟩
  · rintro ⟨hi, hk, hv⟩
    have hil := hi.trans_le hla.tag_le
    have hkl := hk.trans_le hlb.tag_le
    have hbits : a.types[i].bits = b.types[k].bits := by
      rw [Archetype.getD_types hil, Archetype.getD_types hkl] at hv
      rw [← bits_toValidType hctx.paired, hv, bits_toValidType hctx.paired]
    obtain ⟨-, hman, hbuf⟩ := Archetype.boundaries ha.built ha.sortedTypes hil
    obtain ⟨-, hman', hbuf'⟩ := Archetype.boundaries hb.built hb.sortedTypes hkl
    rw [hbits, ← hman'] at hman
    rw [hbits, ← hbuf'] at hbuf
    have hmove : ∀ {lo hi lo' hi' : Nat}, hi ≤ a.firstTag → hi' ≤ b.firstTag → lo ≤ i → i < hi →
        lo' ≤ k → k < hi' → .move i k ∈ castSteps ctx.toValidType (segmentOf a lo hi)
          (segmentOf b lo' hi') := fun ha' hb' h₁ h₂ h₃ h₄ =>
      move_mem_of_rising (ha.rising hctx hreg ha') (hb.rising hctx hreg hb')
        (mem_segmentOf.mpr ⟨⟨h₁, h₂⟩, rfl⟩) (mem_segmentOf.mpr ⟨⟨h₃, h₄⟩, rfl⟩) hv
    by_cases hpod : i < a.firstBuffer
    · exact Or.inl (hmove (hla.buffer_le.trans hla.managed_le)
        (hlb.buffer_le.trans hlb.managed_le) (Nat.zero_le _) hpod (Nat.zero_le _) (hbuf.mp hpod))
    · right
      have hpod' : ¬ k < b.firstBuffer := fun h => hpod (hbuf.mpr h)
      by_cases hbuffer : i < a.firstManaged
      · exact Or.inl (hmove hla.managed_le hlb.managed_le (not_lt.mp hpod) hbuffer
          (not_lt.mp hpod') (hman.mp hbuffer))
      · exact Or.inr (hmove le_rfl le_rfl (not_lt.mp hbuffer) hi
          (not_lt.mp fun h => hbuffer (hman.mpr h)) hk)

/-- A column of the destination is made where it has no counterpart. -/
theorem make_iff (hctx : ctx.Built) (hreg : ctx.tracks.length ≤ 2 ^ 30) (ha : Plain ctx a)
    (hb : Plain ctx b) {k : Nat} : .make k ∈ allSteps ctx a b ↔ Lone ctx a b k := by
  have hdsts : (allSteps ctx a b).filterMap CastStep.dst? = List.range b.firstTag :=
    dsts_allSteps hb.layout
  have hnd : ((allSteps ctx a b).filterMap CastStep.dst?).Nodup := hdsts ▸ List.nodup_range
  have hlt : ∀ {st}, st ∈ allSteps ctx a b → ∀ {k}, st.dst? = some k → k < b.firstTag := by
    intro st hst k hk
    have hmem := List.mem_filterMap.mpr ⟨st, hst, hk⟩
    rwa [hdsts, List.mem_range] at hmem
  constructor
  · intro hmake
    refine ⟨hlt hmake rfl, fun i hi hv => ?_⟩
    have hmove := (meets_iff hctx hreg ha hb).mpr ⟨hi, hlt hmake rfl, hv⟩
    simpa using eq_of_nodup_filterMap hnd hmake hmove rfl rfl
  · rintro ⟨hk, halone⟩
    have hmem : k ∈ (allSteps ctx a b).filterMap CastStep.dst? := by rwa [hdsts, List.mem_range]
    obtain ⟨st, hst, hd⟩ := List.mem_filterMap.mp hmem
    cases st with
    | drop i => simp at hd
    | make d =>
        obtain rfl := Option.some.inj hd
        exact hst
    | move i d =>
        obtain rfl := Option.some.inj hd
        have hcommon := (meets_iff hctx hreg ha hb).mp hst
        exact absurd hcommon.valid (halone i hcommon.src_lt)

/-- A column of the source is dropped where it has no counterpart. -/
theorem drop_iff (hctx : ctx.Built) (hreg : ctx.tracks.length ≤ 2 ^ 30) (ha : Plain ctx a)
    (hb : Plain ctx b) {i : Nat} : .drop i ∈ allSteps ctx a b ↔ Lone ctx b a i := by
  have hsrcs : (allSteps ctx a b).filterMap CastStep.src? = List.range a.firstTag :=
    srcs_allSteps ha.layout
  have hnd : ((allSteps ctx a b).filterMap CastStep.src?).Nodup := hsrcs ▸ List.nodup_range
  have hlt : ∀ {st}, st ∈ allSteps ctx a b → ∀ {i}, st.src? = some i → i < a.firstTag := by
    intro st hst i hi
    have hmem := List.mem_filterMap.mpr ⟨st, hst, hi⟩
    rwa [hsrcs, List.mem_range] at hmem
  constructor
  · intro hdrop
    refine ⟨hlt hdrop rfl, fun k hk hv => ?_⟩
    have hmove := (meets_iff hctx hreg ha hb).mpr ⟨hlt hdrop rfl, hk, hv.symm⟩
    simpa using eq_of_nodup_filterMap hnd hdrop hmove rfl rfl
  · rintro ⟨hi, halone⟩
    have hmem : i ∈ (allSteps ctx a b).filterMap CastStep.src? := by rwa [hsrcs, List.mem_range]
    obtain ⟨st, hst, hd⟩ := List.mem_filterMap.mp hmem
    cases st with
    | make k => simp [CastStep.src?] at hd
    | drop l =>
        obtain rfl := Option.some.inj hd
        exact hst
    | move l k =>
        obtain rfl := Option.some.inj hd
        have hcommon := (meets_iff hctx hreg ha hb).mp hst
        exact absurd hcommon.valid.symm (halone k hcommon.dst_lt)

/-! ## The three phases as one walk -/

/-- The kind of the column a step is about. -/
def CastStep.kind (a b : Archetype) : CastStep → ComponentType
  | .drop i => a.kind i
  | .make k => b.kind k
  | .move _ k => b.kind k

/-- One step of the phase its column belongs to. -/
def castStep (ctx : Context) (dst src : CastSide) (count : Nat) (mm : Memory) (st : CastStep) :
    Option Memory :=
  match st.kind src.a dst.a with
  | .pod => some (mm.castPod dst src count st)
  | .buffer => mm.castBuffer dst src count true st
  | .managed | .tag => some (mm.castManaged ctx dst src count st)

theorem src_mem_segment {lo hi : Nat} {ds : List (Nat × TypeIndex)} {st : CastStep}
    (hst : st ∈ castSteps ctx.toValidType (segmentOf a lo hi) ds) {i : Nat}
    (hi' : st.src? = some i) : lo ≤ i ∧ i < hi := by
  have hmem := List.mem_filterMap.mpr ⟨st, hst, hi'⟩
  rw [srcs_castSteps, fst_segmentOf] at hmem
  exact mem_columns.mp hmem

/-- The steps of a phase are about columns of its kind. -/
theorem kind_of_mem {t : ComponentType} {lo hi lo' hi' : Nat}
    (hsrc : ∀ i, lo ≤ i → i < hi → a.kind i = t) (hdst : ∀ k, lo' ≤ k → k < hi' → b.kind k = t)
    {st : CastStep}
    (hst : st ∈ castSteps ctx.toValidType (segmentOf a lo hi) (segmentOf b lo' hi')) :
    st.kind a b = t := by
  cases st with
  | drop i =>
      have hi := src_mem_segment hst (i := i) rfl
      exact hsrc i hi.1 hi.2
  | make k =>
      have hk := dst_segmentOf hst (d := k) rfl
      exact hdst k hk.1 hk.2
  | move i k =>
      have hk := dst_segmentOf hst (d := k) rfl
      exact hdst k hk.1 hk.2

theorem index_of_notMem {t : TypeIndex} (h : t ∉ a.types) : a.index t = invalidIndex := by
  rw [Archetype.index]
  exact if_neg fun ht => h (List.mem_of_getElem? ht)

/-- Without a mask `chunk::cast` is the walk of its steps. -/
theorem cast_eq_steps (ha : Layout src.a) (hb : Layout dst.a) (hmask : ctx.maskId ∉ dst.a.types)
    (hstart : src.start < 2 ^ 16) : mm.cast ctx dst src count true =
      (allSteps ctx src.a dst.a).foldlM (castStep ctx dst src count) mm := by
  have hsrc : ({ src with start := src.start % 2 ^ 16 } : CastSide) = src := by
    rw [Nat.mod_eq_of_lt hstart]
  have hle := ha.buffer_le
  have hle' := hb.buffer_le
  have hpod : ∀ st ∈ podSteps ctx src.a dst.a, ∀ m, castStep ctx dst src count m st =
      some (m.castPod dst src count st) := by
    intro st hst m
    rw [castStep, kind_of_mem (t := .pod) (fun i _ hi => if_pos hi) (fun k _ hk => if_pos hk) hst]
  have hbuf : ∀ st ∈ bufferSteps ctx src.a dst.a, ∀ m, castStep ctx dst src count m st =
      m.castBuffer dst src count true st := by
    intro st hst m
    rw [castStep, kind_of_mem (t := .buffer)
      (fun i hi hi' => by rw [Archetype.kind, if_neg (not_lt.mpr hi), if_pos hi'])
      (fun k hk hk' => by rw [Archetype.kind, if_neg (not_lt.mpr hk), if_pos hk']) hst]
  have hman : ∀ st ∈ managedSteps ctx src.a dst.a, ∀ m, castStep ctx dst src count m st =
      some (m.castManaged ctx dst src count st) := by
    intro st hst m
    rw [castStep, kind_of_mem (t := .managed)
      (fun i hi hi' => by
        rw [Archetype.kind, if_neg (not_lt.mpr (hle.trans hi)), if_neg (not_lt.mpr hi), if_pos hi'])
      (fun k hk hk' => by
        rw [Archetype.kind, if_neg (not_lt.mpr (hle'.trans hk)), if_neg (not_lt.mpr hk),
          if_pos hk']) hst]
  rw [cast, hsrc, index_of_notMem hmask, allSteps, List.foldlM_append, foldlM_congr hpod,
    foldlM_some]
  simp only [Option.bind_eq_bind, Option.bind_some, List.foldlM_append, foldlM_congr hbuf,
    foldlM_congr hman, foldlM_some, if_true]
  rfl

/-! ## What becomes of a column -/

theorem castStep_phase (ctx : Context) (src : CastSide) (hl : Layout dst.a) (hroomy : dst.a.Roomy)
    (hle : dst.start + count ≤ dst.a.chunkCapacity dst.ct) :
    Phase dst src count (allSteps ctx src.a dst.a) (castStep ctx dst src count) where
  lt st hst d hd := by
    have hmem := List.mem_filterMap.mpr ⟨st, hst, hd⟩
    rwa [dsts_allSteps hl, List.mem_range] at hmem
  touched st hst mm mm' hs := by
    rw [castStep] at hs
    split at hs
    · exact Option.some.inj hs ▸ castPod_column mm hle
    · rename_i hkind
      refine castBuffer_column hroomy hle (fun d hd => ?_) hs
      have hk : dst.a.kind d = .buffer := by
        cases st with
        | drop i => simp at hd
        | make k => exact Option.some.inj hd ▸ hkind
        | move i k => exact Option.some.inj hd ▸ hkind
      rw [Archetype.kind] at hk
      split_ifs at hk with h₁ h₂
      exact ⟨not_lt.mp h₁, h₂⟩
    · exact Option.some.inj hs ▸ castManaged_column mm hle
    · exact Option.some.inj hs ▸ castManaged_column mm hle
  moved mm mm' i k hs := by
    rw [castStep] at hs
    split at hs
    · exact (Option.some.inj hs).symm
    · exact (Option.some.inj hs).symm
    · exact (Option.some.inj hs).symm
    · exact (Option.some.inj hs).symm

/-- A column that is copied, also within one chunk. -/
theorem cell_of_common (hctx : ctx.Built) (hreg : ctx.tracks.length ≤ 2 ^ 30)
    (ha : Plain ctx src.a) (hb : Plain ctx dst.a) (hroomy : dst.a.Roomy)
    (hside : dst.c = src.c → dst.a = src.a ∧ dst.ct = src.ct)
    (hsrc : src.start + count ≤ src.a.chunkCapacity src.ct)
    (hdst : dst.start + count ≤ dst.a.chunkCapacity dst.ct) {i k j : Nat}
    (hcommon : Common ctx src.a dst.a i k) (hj : j < count)
    (h : (allSteps ctx src.a dst.a).foldlM (castStep ctx dst src count) mm = some mm') :
    mm'.cell dst.c dst.a dst.ct k (dst.start + j) =
      mm.cell src.c src.a src.ct i (src.start + j) := by
  have hp := castStep_phase ctx src hb.layout hroomy hdst
  have hnd : ((allSteps ctx src.a dst.a).filterMap CastStep.dst?).Nodup :=
    dsts_allSteps hb.layout ▸ List.nodup_range
  have hmove := (meets_iff hctx hreg ha hb).mpr hcommon
  have hsize : dst.a.size k = src.a.size i :=
    Meets.size_eq hctx.paired ha.built hb.built (by
      simpa only [Meets, allSteps, List.mem_append] using hmove)
  obtain ⟨m, m', hm, hbefore, hafter⟩ := hp.turn hb.layout hnd hmove rfl h
  rw [cell_of_other (by omega) hafter, hp.moved m m' i k hm, cell_moveColumn m hsize hj]
  by_cases hc : dst.c = src.c
  · -- the columns of one chunk that meet are one column, and no step before touches it
    obtain ⟨hae, hct⟩ := hside hc
    have hil := hcommon.src_lt.trans_le ha.layout.tag_le
    have hkl : k < src.a.types.length := hae ▸ hcommon.dst_lt.trans_le hb.layout.tag_le
    have hik : i = k := by
      have hv := hcommon.valid
      rw [hae, Archetype.getD_types hil, Archetype.getD_types hkl] at hv
      have heq := ha.unpaired.eq_of_valid hctx hreg (List.getElem_mem _) (List.getElem_mem _) hv
      exact ha.sorted.nodup.getElem_inj_iff.mp heq
    subst hik
    rw [hc, hae, hct] at hbefore
    exact cell_of_other (by omega) hbefore
  · simp only [cell, hbefore.other src.c (Ne.symm hc)]

/-- The elements of a filled column. -/
theorem cell_fill (m : Memory) (c : ChunkId) (a : Archetype) (ct : AllocType) (b : UInt8)
    (start : Nat) {k j : Nat} (hj : j < count) :
    (m.setData c (Mem.fill (m.data c) (a.address ct k start) b (a.size k * count))).cell c a ct k
      (start + j) = List.replicate (a.size k) b := by
  have hmul := Nat.mul_le_mul_left (a.size k) (Nat.succ_le_of_lt hj)
  rw [Nat.mul_succ] at hmul
  simp only [cell, setData, Function.update_self, Archetype.address_add]
  exact Mem.read_fill _ _ (Nat.le_add_right ..) (by omega)

theorem readBuffer_newBuffer (m : Mem) (addr cap : Nat) :
    Mem.readBuffer (Mem.newBuffer m addr cap) addr =
      { d := 0, size := 0, capacity := cap % 2 ^ 16 } := by
  simp only [Mem.readBuffer, Mem.newBuffer, BufferHeader.mk.injEq]
  refine ⟨?_, ?_, ?_⟩
  · refine (Mem.readWord_congr fun i hi => ?_).trans (Mem.readWord_writeWord m addr 0 8)
    rw [Mem.writeWord_of_lt _ _ _ (by omega), Mem.writeWord_of_lt _ _ _ (by omega)]
  · refine (Mem.readWord_congr fun i hi => ?_).trans
      (Mem.readWord_writeWord (Mem.writeWord m addr 0 8) (addr + 8) 0 2)
    rw [Mem.writeWord_of_lt _ _ _ (by omega)]
  · exact Mem.readWord_writeWord _ _ _ 2

/-- The bytes of an element. -/
def InElement (a : Archetype) (ct : AllocType) (k i x : Nat) : Prop :=
  a.address ct k i ≤ x ∧ x < a.address ct k i + a.size k

theorem InElement.apart {a : Archetype} {ct : AllocType} {k i j x : Nat} (h : InElement a ct k i x)
    (hne : i ≠ j) : ¬ InElement a ct k j x := by
  rintro ⟨hlo, hhi⟩
  obtain ⟨hlo', hhi'⟩ := h
  have hy : x - a.address ct k i < a.size k := by omega
  have happart : a.address ct k i + (x - a.address ct k i) < a.address ct k j ∨
      a.address ct k j + a.size k * 1 ≤ a.address ct k i + (x - a.address ct k i) :=
    Archetype.cell_apart (by omega) hy
  rw [Nat.mul_one] at happart
  omega

/-- The buffers that are made are empty. -/
theorem readBuffer_constructBuffers (m : Mem) (a : Archetype) (ct : AllocType) {k start j : Nat}
    (hroom : sizeofBuffer ≤ a.size k) (hj : j < count) :
    Mem.readBuffer (constructBuffers m a ct k start count) (a.address ct k (start + j)) =
      { d := 0, size := 0, capacity := (a.size k - sizeofBuffer) % 2 ^ 16 } := by
  have hbuf : sizeofBuffer = 16 := rfl
  obtain ⟨m', -, hafter⟩ := Mem.SameOff.foldl_turn (R := InElement a ct k (start + j))
    (f := fun m j => Mem.newBuffer m (a.address ct k (start + j))
      (a.size k + 2 ^ 16 - sizeofBuffer)) List.nodup_range (List.mem_range.mpr hj)
    (fun l _ hne m => sameOff_newBuffer m _ fun x hx hx' =>
      InElement.apart ⟨hx, by omega⟩ (by omega)) m
  have hread : Mem.readBuffer (constructBuffers m a ct k start count) (a.address ct k (start + j)) =
      Mem.readBuffer (Mem.newBuffer m' (a.address ct k (start + j))
        (a.size k + 2 ^ 16 - sizeofBuffer)) (a.address ct k (start + j)) :=
    readBuffer_congr fun y hy => hafter _ (not_not.mpr ⟨Nat.le_add_right .., by omega⟩)
  rw [hread, readBuffer_newBuffer, show a.size k + 2 ^ 16 - sizeofBuffer =
    a.size k - sizeofBuffer + 2 ^ 16 by omega, Nat.add_mod_right]

/-- What the constructor of a managed type makes of the bytes it finds. -/
def constructed (ctx : Context) (a : Archetype) (k : Nat) (bs : List UInt8) : List UInt8 :=
  match (ctx.info (a.types.getD k 0)).vtable.constructor with
  | none => bs
  | some made => made.take (a.size k) ++ bs.drop (made.take (a.size k)).length

theorem read_constructManaged (m : Mem) (a : Archetype) (ct : AllocType) {k start j : Nat}
    (hj : j < count) :
    Mem.read (constructManaged ctx m a ct k start count) (a.address ct k (start + j)) (a.size k) =
      constructed ctx a k (Mem.read m (a.address ct k (start + j)) (a.size k)) := by
  rw [constructManaged, constructed]
  cases (ctx.info (a.types.getD k 0)).vtable.constructor with
  | none => rfl
  | some bs =>
      have hlen := List.length_take_le (a.size k) bs
      obtain ⟨m', hbefore, hafter⟩ := Mem.SameOff.foldl_turn (R := InElement a ct k (start + j))
        (f := fun m j => Mem.write m (a.address ct k (start + j)) (bs.take (a.size k)))
        List.nodup_range (List.mem_range.mpr hj)
        (fun l _ hne m => Mem.SameOff.write fun x hx hx' =>
          InElement.apart ⟨hx, by omega⟩ (by omega)) m
      have hread : ∀ n n' : Mem, Mem.SameOff (fun x => ¬ InElement a ct k (start + j) x) n n' →
          Mem.read n' (a.address ct k (start + j)) (a.size k) =
            Mem.read n (a.address ct k (start + j)) (a.size k) := fun n n' h =>
        Mem.read_eq fun y hy => h _ (not_not.mpr ⟨Nat.le_add_right .., by omega⟩)
      rw [hread _ _ hafter, Mem.read_write _ _ hlen, hread _ _ hbefore]

/-! ## The calls -/

/-- The calls `chunk::cast` makes: one for a plain or moved column, one for each object it
constructs or destructs. -/
inductive CastCall
  | memset (dstI : Nat)
  | memcpy (srcI dstI : Nat)
  | construct (dstI j : Nat)
  | destruct (srcI j : Nat)
  deriving DecidableEq, Repr

/-- The calls of one step, for `count` slots. -/
def stepCalls (a b : Archetype) (count : Nat) : CastStep → List CastCall
  | .drop i => if a.kind i = .pod then [] else (List.range count).map (.destruct i)
  | .make k => if b.kind k = .pod then [.memset k] else (List.range count).map (.construct k)
  | .move i k => [.memcpy i k]

def castCalls (ctx : Context) (a b : Archetype) (count : Nat) : List CastCall :=
  (allSteps ctx a b).flatMap (stepCalls a b count)

/-- What a call does. The destructor of a managed type leaves no bytes. -/
def runCall (ctx : Context) (dst src : CastSide) (count : Nat) (mm : Memory) :
    CastCall → Option Memory
  | .memset k => some (mm.setData dst.c
      (Mem.fill (mm.data dst.c) (dst.address k 0) 0 (dst.a.size k * count)))
  | .memcpy i k => some (mm.moveColumn dst src i k count)
  | .construct k j => some (mm.setData dst.c
      (if dst.a.kind k = .buffer then Mem.newBuffer (mm.data dst.c) (dst.address k j)
          (dst.a.size k + 2 ^ 16 - sizeofBuffer)
        else match (ctx.info (dst.a.types.getD k 0)).vtable.constructor with
          | none => mm.data dst.c
          | some bs => Mem.write (mm.data dst.c) (dst.address k j) (bs.take (dst.a.size k))))
  | .destruct i j =>
      if src.a.kind i = .buffer then mm.destroyBuffer src.c (src.address i j) else some mm

theorem setData_foldl {c : ChunkId} {f : Mem → Nat → Mem} (l : List Nat) (mm : Memory) :
    l.foldlM (fun mm j => some (mm.setData c (f (mm.data c) j))) mm =
      some (mm.setData c (l.foldl f (mm.data c))) := by
  rw [foldlM_some]
  congr 1
  induction l generalizing mm with
  | nil => exact congrArg (fun d => { mm with data := d }) (Function.update_eq_self c mm.data).symm
  | cons j l ih =>
      rw [List.foldl_cons, List.foldl_cons, ih]
      simp only [setData, Function.update_self, Function.update_idem]

theorem foldlM_skip (l : List Nat) (mm : Memory) :
    l.foldlM (fun (mm : Memory) _ => some mm) mm = some mm := by
  rw [foldlM_some]
  exact congrArg some (List.foldl_fixed l)

theorem castStep_drop (mm : Memory) (i : Nat) : castStep ctx dst src count mm (.drop i) =
    (stepCalls src.a dst.a count (.drop i)).foldlM (runCall ctx dst src count) mm := by
  have hobject : ∀ t, src.a.kind i = t → t ≠ .pod →
      (stepCalls src.a dst.a count (.drop i)).foldlM (runCall ctx dst src count) mm =
        (List.range count).foldlM (fun mm j =>
          if t = .buffer then mm.destroyBuffer src.c (src.address i j) else some mm) mm := by
    intro t ht hne
    rw [stepCalls, ht, if_neg hne, List.foldlM_map]
    simp only [runCall, ht]
  rw [castStep, CastStep.kind]
  cases hk : src.a.kind i with
  | pod =>
      rw [stepCalls, if_pos hk]
      rfl
  | buffer =>
      rw [hobject _ hk (by decide)]
      simp only [castBuffer, destroyBuffers, if_true]
  | managed =>
      rw [hobject _ hk (by decide)]
      exact (foldlM_skip _ _).symm
  | tag =>
      rw [hobject _ hk (by decide)]
      exact (foldlM_skip _ _).symm

theorem castStep_make (mm : Memory) (k : Nat) : castStep ctx dst src count mm (.make k) =
    (stepCalls src.a dst.a count (.make k)).foldlM (runCall ctx dst src count) mm := by
  have hobject : dst.a.kind k ≠ .pod →
      (stepCalls src.a dst.a count (.make k)).foldlM (runCall ctx dst src count) mm =
        (List.range count).foldlM
          (fun mm j => runCall ctx dst src count mm (.construct k j)) mm := by
    intro hne
    rw [stepCalls, if_neg hne, List.foldlM_map]
  have hmanaged : dst.a.kind k ≠ .pod → dst.a.kind k ≠ .buffer →
      some (mm.castManaged ctx dst src count (.make k)) =
        (stepCalls src.a dst.a count (.make k)).foldlM (runCall ctx dst src count) mm := by
    intro hpod hbuf
    rw [hobject hpod, castManaged, constructManaged]
    cases hcons : (ctx.info (dst.a.types.getD k 0)).vtable.constructor with
    | none =>
        have hskip := setData_foldl (c := dst.c) (f := fun m _ => m) (List.range count) mm
        rw [List.foldl_fixed] at hskip
        simp only [runCall, if_neg hbuf, hcons, hskip]
    | some bs =>
        simp only [runCall, if_neg hbuf, hcons]
        exact (setData_foldl (f := fun m j => Mem.write m (dst.address k j)
          (bs.take (dst.a.size k))) _ mm).symm
  rw [castStep, CastStep.kind]
  cases hk : dst.a.kind k with
  | pod =>
      rw [stepCalls, if_pos hk]
      rfl
  | buffer =>
      rw [hobject (by rw [hk]; decide)]
      simp only [runCall, if_pos hk]
      exact (setData_foldl (f := fun m j => Mem.newBuffer m (dst.address k j)
        (dst.a.size k + 2 ^ 16 - sizeofBuffer)) _ mm).symm
  | managed => exact hmanaged (by rw [hk]; decide) (by rw [hk]; decide)
  | tag => exact hmanaged (by rw [hk]; decide) (by rw [hk]; decide)

/-- A step makes its calls. -/
theorem castStep_eq_calls (mm : Memory) (st : CastStep) : castStep ctx dst src count mm st =
    (stepCalls src.a dst.a count st).foldlM (runCall ctx dst src count) mm := by
  cases st with
  | drop i => exact castStep_drop mm i
  | make k => exact castStep_make mm k
  | move i k =>
      rw [castStep, stepCalls]
      split
      · rfl
      · rfl
      · rfl
      · rfl

theorem steps_eq_calls (steps : List CastStep) (mm : Memory) :
    steps.foldlM (castStep ctx dst src count) mm =
      (steps.flatMap (stepCalls src.a dst.a count)).foldlM (runCall ctx dst src count) mm := by
  induction steps generalizing mm with
  | nil => rfl
  | cons st steps ih =>
      rw [List.foldlM_cons, List.flatMap_cons, List.foldlM_append, castStep_eq_calls]
      congr 1
      funext m
      exact ih m

/-- The step a call belongs to. -/
def CastCall.step : CastCall → CastStep
  | .memset k => .make k
  | .memcpy i k => .move i k
  | .construct k _ => .make k
  | .destruct i _ => .drop i

theorem step_of_mem {st : CastStep} {call : CastCall} (h : call ∈ stepCalls a b count st) :
    call.step = st := by
  cases st with
  | drop i =>
      rw [stepCalls] at h
      split_ifs at h
      · simp at h
      · obtain ⟨j, -, rfl⟩ := List.mem_map.mp h
        rfl
  | make k =>
      rw [stepCalls] at h
      split_ifs at h
      · rw [List.mem_singleton.mp h]
        rfl
      · obtain ⟨j, -, rfl⟩ := List.mem_map.mp h
        rfl
  | move i k =>
      rw [List.mem_singleton.mp h]
      rfl

theorem nodup_stepCalls (st : CastStep) : (stepCalls a b count st).Nodup := by
  cases st with
  | drop i =>
      rw [stepCalls]
      split_ifs
      · exact List.nodup_nil
      · exact List.nodup_range.map fun _ _ h => (CastCall.destruct.inj h).2
  | make k =>
      rw [stepCalls]
      split_ifs
      · exact List.nodup_singleton _
      · exact List.nodup_range.map fun _ _ h => (CastCall.construct.inj h).2
  | move i k => exact List.nodup_singleton _

theorem nodup_allSteps (ha : Layout a) (hb : Layout b) : (allSteps ctx a b).Nodup := by
  have hsrc : ((allSteps ctx a b).filterMap CastStep.src?).Nodup :=
    srcs_allSteps ha ▸ List.nodup_range
  have hdst : ((allSteps ctx a b).filterMap CastStep.dst?).Nodup :=
    dsts_allSteps hb ▸ List.nodup_range
  refine ((List.pairwise_filterMap.mp hsrc).and (List.pairwise_filterMap.mp hdst)).imp ?_
  rintro st _ ⟨hs, hd⟩ rfl
  cases st with
  | drop i => exact hs i rfl i rfl rfl
  | make k => exact hd k rfl k rfl rfl
  | move i k => exact hs i rfl i rfl rfl

/-- No call is made twice. -/
theorem nodup_castCalls (ha : Layout a) (hb : Layout b) : (castCalls ctx a b count).Nodup := by
  rw [castCalls, List.nodup_flatMap]
  refine ⟨fun st _ => nodup_stepCalls st, (nodup_allSteps ha hb).imp fun {st st'} hne => ?_⟩
  intro call hcall hcall'
  exact hne ((step_of_mem hcall).symm.trans (step_of_mem hcall'))

/-- The objects that are constructed are those of the columns without a counterpart. -/
theorem construct_mem_iff (hctx : ctx.Built) (hreg : ctx.tracks.length ≤ 2 ^ 30)
    (ha : Plain ctx a) (hb : Plain ctx b) {k j : Nat} :
    .construct k j ∈ castCalls ctx a b count ↔ Lone ctx a b k ∧ b.kind k ≠ .pod ∧ j < count := by
  rw [castCalls, List.mem_flatMap, ← make_iff hctx hreg ha hb]
  constructor
  · rintro ⟨st, hst, hcall⟩
    obtain rfl : CastStep.make k = st := step_of_mem hcall
    rw [stepCalls] at hcall
    split_ifs at hcall with hk
    · simp at hcall
    · obtain ⟨l, hl, heq⟩ := List.mem_map.mp hcall
      exact ⟨hst, hk, (CastCall.construct.inj heq).2 ▸ List.mem_range.mp hl⟩
  · rintro ⟨hst, hk, hj⟩
    refine ⟨_, hst, ?_⟩
    rw [stepCalls, if_neg hk]
    exact List.mem_map.mpr ⟨j, List.mem_range.mpr hj, rfl⟩

theorem destruct_mem_iff (hctx : ctx.Built) (hreg : ctx.tracks.length ≤ 2 ^ 30)
    (ha : Plain ctx a) (hb : Plain ctx b) {i j : Nat} :
    .destruct i j ∈ castCalls ctx a b count ↔ Lone ctx b a i ∧ a.kind i ≠ .pod ∧ j < count := by
  rw [castCalls, List.mem_flatMap, ← drop_iff hctx hreg ha hb]
  constructor
  · rintro ⟨st, hst, hcall⟩
    obtain rfl : CastStep.drop i = st := step_of_mem hcall
    rw [stepCalls] at hcall
    split_ifs at hcall with hi
    · simp at hcall
    · obtain ⟨l, hl, heq⟩ := List.mem_map.mp hcall
      exact ⟨hst, hi, (CastCall.destruct.inj heq).2 ▸ List.mem_range.mp hl⟩
  · rintro ⟨hst, hi, hj⟩
    refine ⟨_, hst, ?_⟩
    rw [stepCalls, if_neg hi]
    exact List.mem_map.mpr ⟨j, List.mem_range.mpr hj, rfl⟩

/-! ## The heap -/

/-- The block of the buffer of a slot, 0 when its elements are inline. -/
def blockOf (mm : Memory) (s : CastSide) (i j : Nat) : Nat :=
  (Mem.readBuffer (mm.data s.c) (s.address i j)).d

/-- Each buffer of the slots has its block for itself. -/
structure OwnsBlocks (mm : Memory) (s : CastSide) (count : Nat) : Prop where
  live : ∀ i j, s.a.kind i = .buffer → j < count → mm.blockOf s i j ≠ 0 →
    mm.heap (mm.blockOf s i j) ≠ none
  own : ∀ i j i' j', s.a.kind i = .buffer → s.a.kind i' = .buffer → j < count → j' < count →
    mm.blockOf s i j ≠ 0 → mm.blockOf s i j = mm.blockOf s i' j' → i = i' ∧ j = j'

/-- The buffers that are destructed free `d`. -/
def Frees (mm : Memory) (s : CastSide) (calls : List CastCall) (d : Nat) : Prop :=
  d ≠ 0 ∧ ∃ i j, .destruct i j ∈ calls ∧ s.a.kind i = .buffer ∧ mm.blockOf s i j = d

theorem frees_cons {call : CastCall} {calls : List CastCall} {s : CastSide} {d : Nat} :
    Frees mm s (call :: calls) d ↔ Frees mm s [call] d ∨ Frees mm s calls d := by
  simp only [Frees, List.mem_cons, List.not_mem_nil, or_false]
  constructor
  · rintro ⟨hd, i, j, hmem | hmem, hrest⟩
    · exact Or.inl ⟨hd, i, j, hmem, hrest⟩
    · exact Or.inr ⟨hd, i, j, hmem, hrest⟩
  · rintro (⟨hd, i, j, hmem, hrest⟩ | ⟨hd, i, j, hmem, hrest⟩)
    · exact ⟨hd, i, j, Or.inl hmem, hrest⟩
    · exact ⟨hd, i, j, Or.inr hmem, hrest⟩

theorem not_frees {call : CastCall} {s : CastSide} {d : Nat} (h : ∀ i j, call ≠ .destruct i j) :
    ¬ Frees mm s [call] d := by
  rintro ⟨-, i, j, hmem, -⟩
  exact h i j (List.mem_singleton.mp hmem).symm

/-- A call that writes returns, and leaves the heap and any other chunk as they are. -/
theorem runCall_writes (ctx : Context) (dst src : CastSide) (count : Nat) {call : CastCall}
    (h : ∀ i j, call ≠ .destruct i j) (mm : Memory) :
    ∃ mm', runCall ctx dst src count mm call = some mm' ∧ mm'.heap = mm.heap ∧
      (dst.c ≠ src.c → mm'.data src.c = mm.data src.c) := by
  have hset : ∀ m : Mem, (dst.c ≠ src.c → (mm.setData dst.c m).data src.c = mm.data src.c) :=
    fun m hne => Function.update_of_ne (Ne.symm hne) ..
  cases call with
  | memset k => exact ⟨_, rfl, rfl, hset _⟩
  | memcpy i k => exact ⟨_, rfl, rfl, hset _⟩
  | construct k j => exact ⟨_, rfl, rfl, hset _⟩
  | destruct i j => exact absurd rfl (h i j)

/-- The destructor of a buffer whose block is live. -/
theorem exists_destroyBuffer (mm : Memory) (c : ChunkId) (addr : Nat) {d : Nat}
    (hd : (Mem.readBuffer (mm.data c) addr).d = d) (hlive : d ≠ 0 → mm.heap d ≠ none) :
    ∃ mm', mm.destroyBuffer c addr = some mm' ∧ mm'.data = mm.data ∧
      (d ≠ 0 → mm'.heap d = none) ∧ ∀ e, e ≠ d ∨ d = 0 → mm'.heap e = mm.heap e := by
  rw [destroyBuffer, hd]
  by_cases hzero : d = 0
  · simp only [hzero, if_true]
    exact ⟨mm, rfl, rfl, fun h => absurd rfl h, fun _ _ => rfl⟩
  · obtain ⟨block, hblock⟩ := Option.ne_none_iff_exists'.mp (hlive hzero)
    simp only [if_neg hzero, hblock]
    refine ⟨_, rfl, rfl, fun _ => Function.update_self .., fun e he => ?_⟩
    exact Function.update_of_ne (he.resolve_right hzero) ..

/-- One call. -/
theorem exists_call (ctx : Context) (dst : CastSide) (count : Nat) {call : CastCall}
    (hlive : ∀ d, Frees mm src [call] d → mm.heap d ≠ none) :
    ∃ mm', runCall ctx dst src count mm call = some mm' ∧
      (∀ d, Frees mm src [call] d → mm'.heap d = none) ∧
      (∀ d, ¬ Frees mm src [call] d → mm'.heap d = mm.heap d) ∧
      (dst.c ≠ src.c → mm'.data src.c = mm.data src.c) := by
  by_cases hcall : ∃ i j, call = .destruct i j
  · obtain ⟨i, j, rfl⟩ := hcall
    have honly : ∀ d, Frees mm src [.destruct i j] d →
        src.a.kind i = .buffer ∧ mm.blockOf src i j = d ∧ d ≠ 0 := by
      rintro d ⟨hd, l, m, hmem, hk, hblock⟩
      obtain ⟨rfl, rfl⟩ := CastCall.destruct.inj (List.mem_singleton.mp hmem)
      exact ⟨hk, hblock, hd⟩
    rw [runCall]
    by_cases hk : src.a.kind i = .buffer
    · have hfree : mm.blockOf src i j ≠ 0 → Frees mm src [.destruct i j] (mm.blockOf src i j) :=
        fun hne => ⟨hne, i, j, List.mem_singleton_self _, hk, rfl⟩
      obtain ⟨mm', hrun, hdata, hfreed, hkept⟩ := exists_destroyBuffer mm src.c
        (src.address i j) rfl fun hne => hlive _ (hfree hne)
      rw [if_pos hk]
      refine ⟨mm', hrun, fun d hd => ?_, fun d hd => hkept d ?_, fun _ => congrFun hdata _⟩
      · obtain ⟨-, rfl, hne⟩ := honly d hd
        exact hfreed hne
      · by_cases hzero : mm.blockOf src i j = 0
        · exact Or.inr hzero
        · refine Or.inl fun heq => hd ?_
          rw [heq]
          exact hfree hzero
    · rw [if_neg hk]
      exact ⟨mm, rfl, fun d hd => absurd (honly d hd).1 hk, fun _ _ => rfl, fun _ => rfl⟩
  · have hnone : ∀ i j, call ≠ .destruct i j := fun i j heq => hcall ⟨i, j, heq⟩
    obtain ⟨mm', hrun, hheap, hdata⟩ := runCall_writes ctx dst src count hnone mm
    exact ⟨mm', hrun, fun d hd => absurd hd (not_frees hnone), fun d _ => by rw [hheap], hdata⟩

/-- The calls return, and free the blocks of the buffers they destruct. -/
theorem exists_calls (ctx : Context) (count : Nat) {calls : List CastCall} (hnd : calls.Nodup)
    (hc : ∀ i j, .destruct i j ∈ calls → dst.c ≠ src.c)
    (hlive : ∀ d, Frees mm src calls d → mm.heap d ≠ none)
    (hown : ∀ i j i' j', .destruct i j ∈ calls → .destruct i' j' ∈ calls →
      src.a.kind i = .buffer → src.a.kind i' = .buffer → mm.blockOf src i j ≠ 0 →
      mm.blockOf src i j = mm.blockOf src i' j' → i = i' ∧ j = j') :
    ∃ mm', calls.foldlM (runCall ctx dst src count) mm = some mm' ∧
      (∀ d, Frees mm src calls d → mm'.heap d = none) ∧
      ∀ d, ¬ Frees mm src calls d → mm'.heap d = mm.heap d := by
  induction calls generalizing mm with
  | nil =>
      refine ⟨mm, rfl, ?_, fun _ _ => rfl⟩
      rintro d ⟨-, i, j, hmem, -⟩
      simp at hmem
  | cons call calls ih =>
      obtain ⟨hnot, hnd'⟩ := List.nodup_cons.mp hnd
      have hmem : ∀ {i j}, .destruct i j ∈ calls → .destruct i j ∈ call :: calls :=
        fun h => List.mem_cons_of_mem call h
      obtain ⟨mm₁, hrun, hfreed, hkept, hdata⟩ := exists_call ctx dst count
        fun d hd => hlive d (frees_cons.mpr (Or.inl hd))
      -- the buffers still to come are read as they were
      have hblock : ∀ {i j}, .destruct i j ∈ calls → mm₁.blockOf src i j = mm.blockOf src i j := by
        intro i j hcall
        simp only [blockOf, hdata (hc i j (hmem hcall))]
      have hsame : ∀ d, Frees mm₁ src calls d ↔ Frees mm src calls d := by
        intro d
        constructor
        · rintro ⟨hd, i, j, hcall, hk, heq⟩
          exact ⟨hd, i, j, hcall, hk, hblock hcall ▸ heq⟩
        · rintro ⟨hd, i, j, hcall, hk, heq⟩
          exact ⟨hd, i, j, hcall, hk, (hblock hcall).trans heq⟩
      have hother : ∀ d, Frees mm src calls d → ¬ Frees mm src [call] d := by
        rintro d ⟨hd, i, j, hcall, hk, rfl⟩ ⟨-, i', j', hcall', hk', heq⟩
        have hhead := List.mem_singleton.mp hcall'
        obtain ⟨rfl, rfl⟩ := hown i j i' j' (hmem hcall) (hhead ▸ List.mem_cons_self) hk hk' hd
          heq.symm
        exact hnot (hhead ▸ hcall)
      have hlive₁ : ∀ d, Frees mm₁ src calls d → mm₁.heap d ≠ none := by
        intro d hd
        have hd' := (hsame d).mp hd
        rw [hkept d (hother d hd')]
        exact hlive d (frees_cons.mpr (Or.inr hd'))
      obtain ⟨mm', hrest, hfreed', hkept'⟩ := ih hnd' (fun i j hcall => hc i j (hmem hcall)) hlive₁
        (fun i j i' j' h h' hk hk' hne heq => by
          rw [hblock h] at hne
          rw [hblock h, hblock h'] at heq
          exact hown i j i' j' (hmem h) (hmem h') hk hk' hne heq)
      refine ⟨mm', ?_, fun d hd => ?_, fun d hd => ?_⟩
      · rw [List.foldlM_cons, hrun, Option.bind_eq_bind, Option.bind_some, hrest]
      · by_cases hrestd : Frees mm src calls d
        · exact hfreed' d ((hsame d).mpr hrestd)
        · rw [hkept' d (mt (hsame d).mp hrestd)]
          exact hfreed d ((frees_cons.mp hd).resolve_right hrestd)
      · have hno := mt frees_cons.mpr hd
        rw [not_or] at hno
        rw [hkept' d (mt (hsame d).mp hno.2), hkept d hno.1]

/-! ## The conversion -/

/-- What `chunk::cast` does to `count` slots. -/
structure Converted (ctx : Context) (dst src : CastSide) (count : Nat) (mm mm' : Memory) :
    Prop where
  calls : (castCalls ctx src.a dst.a count).foldlM (runCall ctx dst src count) mm = some mm'
  constructed_once : ∀ k j, Lone ctx src.a dst.a k → dst.a.kind k ≠ .pod → j < count →
    (castCalls ctx src.a dst.a count).count (.construct k j) = 1
  constructed_only : ∀ k j, .construct k j ∈ castCalls ctx src.a dst.a count →
    Lone ctx src.a dst.a k ∧ dst.a.kind k ≠ .pod ∧ j < count
  destructed_once : ∀ i j, Lone ctx dst.a src.a i → src.a.kind i ≠ .pod → j < count →
    (castCalls ctx src.a dst.a count).count (.destruct i j) = 1
  destructed_only : ∀ i j, .destruct i j ∈ castCalls ctx src.a dst.a count →
    Lone ctx dst.a src.a i ∧ src.a.kind i ≠ .pod ∧ j < count
  common : ∀ i k, Common ctx src.a dst.a i k → ∀ j < count,
    mm'.cell dst.c dst.a dst.ct k (dst.start + j) = mm.cell src.c src.a src.ct i (src.start + j)
  zeroed : ∀ k, Lone ctx src.a dst.a k → dst.a.kind k = .pod → ∀ j < count,
    mm'.cell dst.c dst.a dst.ct k (dst.start + j) = List.replicate (dst.a.size k) 0
  empty : ∀ k, Lone ctx src.a dst.a k → dst.a.kind k = .buffer → ∀ j < count,
    Mem.readBuffer (mm'.data dst.c) (dst.address k j) =
      { d := 0, size := 0, capacity := (dst.a.size k - sizeofBuffer) % 2 ^ 16 }
  managed : ∀ k, Lone ctx src.a dst.a k → dst.a.kind k = .managed → ∀ j < count,
    mm'.cell dst.c dst.a dst.ct k (dst.start + j) =
      constructed ctx dst.a k (mm.cell dst.c dst.a dst.ct k (dst.start + j))
  freed : ∀ i j, Lone ctx dst.a src.a i → src.a.kind i = .buffer → j < count →
    mm.blockOf src i j ≠ 0 → mm'.heap (mm.blockOf src i j) = none
  kept : ∀ d, (d ≠ 0 → ∀ i j, Lone ctx dst.a src.a i → src.a.kind i = .buffer → j < count →
    mm.blockOf src i j ≠ d) → mm'.heap d = mm.heap d
  outside : Writes dst.c (dst.a.Cells dst.ct dst.start count) mm mm'

/-- The column that a step makes. -/
theorem exists_made (hb : Layout dst.a) (hroomy : dst.a.Roomy)
    (hdst : dst.start + count ≤ dst.a.chunkCapacity dst.ct) {k : Nat}
    (hmake : .make k ∈ allSteps ctx src.a dst.a)
    (h : (allSteps ctx src.a dst.a).foldlM (castStep ctx dst src count) mm = some mm') :
    ∃ m m', castStep ctx dst src count m (.make k) = some m' ∧ ∀ j < count,
      m.cell dst.c dst.a dst.ct k (dst.start + j) = mm.cell dst.c dst.a dst.ct k (dst.start + j) ∧
      ∀ y < dst.a.size k,
        mm'.data dst.c (dst.address k j + y) = m'.data dst.c (dst.address k j + y) := by
  have hp := castStep_phase ctx src hb hroomy hdst
  have hnd : ((allSteps ctx src.a dst.a).filterMap CastStep.dst?).Nodup :=
    dsts_allSteps hb ▸ List.nodup_range
  obtain ⟨m, m', hm, hbefore, hafter⟩ := hp.turn hb hnd hmake rfl h
  refine ⟨m, m', hm, fun j hj => ⟨cell_of_other (by omega) hbefore, fun y hy => ?_⟩⟩
  exact hafter.same _ (not_not.mpr (Archetype.column_of_cell (by omega) hy))

/-- `chunk::cast` converts the slots: the common components are those of the source, what only
the destination has is made once, what only the source has is destructed once, and no other
byte changes. -/
theorem cast_converts (hctx : ctx.Built) (hreg : ctx.tracks.length ≤ 2 ^ 30) {dst src : CastSide}
    (ha : Plain ctx src.a) (hb : Plain ctx dst.a) (hroomy : dst.a.Roomy)
    (hside : dst.c = src.c → dst.a = src.a ∧ dst.ct = src.ct) (hstart : src.start < 2 ^ 16)
    (hsrc : src.start + count ≤ src.a.chunkCapacity src.ct)
    (hdst : dst.start + count ≤ dst.a.chunkCapacity dst.ct) (mm : Memory)
    (hown : mm.OwnsBlocks src count) :
    ∃ mm', mm.cast ctx dst src count true = some mm' ∧ Converted ctx dst src count mm mm' := by
  have hconstruct : ∀ k j, .construct k j ∈ castCalls ctx src.a dst.a count ↔
      Lone ctx src.a dst.a k ∧ dst.a.kind k ≠ .pod ∧ j < count :=
    fun k j => construct_mem_iff hctx hreg ha hb
  have hdestruct : ∀ i j, .destruct i j ∈ castCalls ctx src.a dst.a count ↔
      Lone ctx dst.a src.a i ∧ src.a.kind i ≠ .pod ∧ j < count :=
    fun i j => destruct_mem_iff hctx hreg ha hb
  have hnd : (castCalls ctx src.a dst.a count).Nodup := nodup_castCalls ha.layout hb.layout
  -- within one archetype nothing is destructed
  have hne : ∀ i j, .destruct i j ∈ castCalls ctx src.a dst.a count → dst.c ≠ src.c := by
    intro i j hcall hc
    obtain ⟨hlone, -⟩ := (hdestruct i j).mp hcall
    have halone := hlone.alone i ((hside hc).1 ▸ hlone.lt)
    rw [(hside hc).1] at halone
    exact halone rfl
  obtain ⟨mm', hrun, hfreed, hkept⟩ := exists_calls ctx count hnd hne
    (by
      rintro d ⟨hd, i, j, hcall, hk, rfl⟩
      exact hown.live i j hk ((hdestruct i j).mp hcall).2.2 hd)
    (fun i j i' j' hcall hcall' hk hk' hd heq => hown.own i j i' j' hk hk'
      ((hdestruct i j).mp hcall).2.2 ((hdestruct i' j').mp hcall').2.2 hd heq)
  have hsteps := (steps_eq_calls (allSteps ctx src.a dst.a) mm).trans hrun
  have hcast := (cast_eq_steps ha.layout hb.layout hb.unmasked hstart).trans hsteps
  have hmade := fun {k} hmake => exists_made (k := k) hb.layout hroomy hdst
    ((make_iff hctx hreg ha hb).mpr hmake) hsteps
  refine ⟨mm', hcast, ?_⟩
  constructor
  case calls => exact hrun
  case constructed_once =>
    exact fun k j hk hkind hj => List.count_eq_one_of_mem hnd ((hconstruct k j).mpr ⟨hk, hkind, hj⟩)
  case constructed_only => exact fun k j => (hconstruct k j).mp
  case destructed_once =>
    exact fun i j hi hkind hj => List.count_eq_one_of_mem hnd ((hdestruct i j).mpr ⟨hi, hkind, hj⟩)
  case destructed_only => exact fun i j => (hdestruct i j).mp
  case common =>
    exact fun i k hcommon j hj =>
      cell_of_common hctx hreg ha hb hroomy hside hsrc hdst hcommon hj hsteps
  case zeroed =>
    intro k hk hkind j hj
    obtain ⟨m, m', hm, hcell⟩ := hmade hk
    rw [castStep, CastStep.kind, hkind] at hm
    obtain rfl := Option.some.inj hm
    have hread : mm'.cell dst.c dst.a dst.ct k (dst.start + j) = _ :=
      Mem.read_eq (hcell j hj).2
    rw [hread]
    exact cell_fill m dst.c dst.a dst.ct 0 dst.start hj
  case empty =>
    intro k hk hkind j hj
    obtain ⟨m, m', hm, hcell⟩ := hmade hk
    have hsegment := hkind
    rw [Archetype.kind] at hsegment
    split_ifs at hsegment with h₁ h₂
    have hroom := hroomy k (not_lt.mp h₁) h₂
    rw [castStep, CastStep.kind, hkind] at hm
    obtain rfl := Option.some.inj hm
    rw [readBuffer_congr fun y hy => (hcell j hj).2 y (hy.trans_le hroom)]
    simp only [setData, Function.update_self]
    exact readBuffer_constructBuffers _ dst.a dst.ct hroom hj
  case managed =>
    intro k hk hkind j hj
    obtain ⟨m, m', hm, hcell⟩ := hmade hk
    rw [castStep, CastStep.kind, hkind] at hm
    obtain rfl := Option.some.inj hm
    have hread : mm'.cell dst.c dst.a dst.ct k (dst.start + j) = _ :=
      Mem.read_eq (hcell j hj).2
    rw [hread, ← (hcell j hj).1]
    simp only [castManaged, setData, Function.update_self]
    exact read_constructManaged _ dst.a dst.ct hj
  case freed =>
    exact fun i j hi hk hj hd => hfreed _ ⟨hd, i, j, (hdestruct i j).mpr
      ⟨hi, by rw [hk]; decide, hj⟩, hk, rfl⟩
  case kept =>
    intro d hno
    refine hkept d ?_
    rintro ⟨hd, i, j, hcall, hk, heq⟩
    obtain ⟨hi, -, hj⟩ := (hdestruct i j).mp hcall
    exact hno hd i j hi hk hj heq
  case outside =>
    have hmask : ctx.maskId < 3 * 2 ^ 30 := by
      rw [hctx.ids.2.2.2]
      decide
    exact (cast_writes hmask hb.layout hcast).mono fun x => hroomy.cells

/-- From a type to its twin and a group. -/
theorem cast_converts_twinned : ∃ (dst src : CastSide) (mm mm' : Memory),
    src.a.types = [4] ∧ dst.a.types = [5, World.twinned.groupId] ∧
    mm.cast World.twinned dst src 1 true = some mm' ∧
    Converted World.twinned dst src 1 mm mm' := by
  have hsrc : ((constructArchetype World.twinned { types := [4] }).map fun a =>
      (a.firstBuffer, a.firstManaged, a.chunkCapacity .fastbin)) = some (1, 1, 8187) := by
    decide +kernel
  have hdst : ((constructArchetype World.twinned { types := [5, World.twinned.groupId] }).map
      fun b => (b.firstBuffer, b.firstManaged, b.sizes, b.chunkCapacity .fastbin)) =
        some (1, 2, [4, 20], 2339) := by
    decide +kernel
  obtain ⟨a, ha, hsizes⟩ := Option.map_eq_some_iff.mp hsrc
  obtain ⟨b, hb, hsizes'⟩ := Option.map_eq_some_iff.mp hdst
  simp only [Prod.mk.injEq] at hsizes hsizes'
  obtain ⟨hbuf, hman, hcap⟩ := hsizes
  obtain ⟨hbuf', hman', hsize', hcap'⟩ := hsizes'
  have hta := constructArchetype_type ha
  have htb := constructArchetype_type hb
  have hplain : ∀ (c : Archetype) (ts : List TypeIndex), c.type = { types := ts } →
      constructArchetype World.twinned { types := ts } = some c → Set.Sorted ts →
      (∀ t ∈ ts, t < 2 ^ 32) → World.Unpaired World.twinned ts → World.twinned.maskId ∉ ts →
      Plain World.twinned c := by
    intro c ts hc hbuilt hsorted hlt hpair hmask
    constructor
    · rwa [hc]
    · rwa [Archetype.types, hc]
    · rwa [Archetype.types, hc]
    · rwa [Archetype.types, hc]
    · rwa [Archetype.types, hc]
  have hpa := hplain a _ hta ha (List.pairwise_singleton _ _) (by decide) (by
    intro t ht
    rw [List.mem_singleton.mp ht]
    decide) (by decide)
  have hpb := hplain b _ htb hb (by
    rw [Set.Sorted, List.pairwise_pair]
    decide) (by decide) (by
    intro t ht
    rcases List.mem_cons.mp ht with rfl | ht
    · decide
    · rw [List.mem_singleton.mp ht]
      decide) (by decide)
  let dst : CastSide := { c := 1, a := b, ct := .fastbin, start := 0 }
  let src : CastSide := { c := 0, a := a, ct := .fastbin, start := 3 }
  let mm : Memory :=
    { data := fun _ _ => 0, heap := fun _ => none, freshBlock := 1, guids := fun _ => []
      guidCount := 0 }
  have hroomy : b.Roomy := by
    intro k hk hk'
    obtain rfl : k = 1 := by omega
    rw [Archetype.size, hsize']
    decide
  have hown : mm.OwnsBlocks src 1 := by
    have hno : ∀ i, a.kind i ≠ .buffer := by
      intro i hi
      rw [Archetype.kind, hbuf, hman] at hi
      split_ifs at hi
    exact ⟨fun i j hi => absurd hi (hno i), fun i j i' j' hi => absurd hi (hno i)⟩
  have hle : 3 + 1 ≤ a.chunkCapacity .fastbin := by
    rw [hcap]
    decide
  have hle' : 0 + 1 ≤ b.chunkCapacity .fastbin := by
    rw [hcap']
    decide
  obtain ⟨mm', hrun, hconv⟩ : ∃ mm', mm.cast World.twinned dst src 1 true = some mm' ∧
      Converted World.twinned dst src 1 mm mm' :=
    cast_converts World.built_twinned (by decide) hpa hpb hroomy
      (fun h => absurd h Nat.one_ne_zero) (show 3 < 2 ^ 16 by decide) hle hle' mm hown
  exact ⟨dst, src, mm, mm', congrArg EntityType.types hta, congrArg EntityType.types htb, hrun,
    hconv⟩

end Memory

end Dots

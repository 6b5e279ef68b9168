import Dots.Database.Frame
import Dots.Database.Run

/-!
# The bytes of one component

A cell is one element of a column. `chunk::move` and `chunk::cast` copy whole columns;
here is which cell each cell they write comes from.
-/

namespace Dots

open Library

namespace Archetype

/-- The bytes of a column. -/
def Column (a : Archetype) (ct : AllocType) (k x : Nat) : Prop :=
  a.offsets ct k ≤ x ∧ x < a.offsets ct k + a.size k * a.chunkCapacity ct

variable {a : Archetype} {ct : AllocType} {k l i x : Nat}

theorem Column.apart (hl : Layout a) (hk : k < a.firstTag) (hk' : l < a.firstTag) (hne : k ≠ l)
    (hx : a.Column ct k x) : ¬ a.Column ct l x := by
  rintro ⟨hlo, hhi⟩
  obtain ⟨hlo', hhi'⟩ := hx
  rcases hl.disjoint ct k l hk hk' hne with h | h
  · omega
  · omega

/-- The handles are in no column. -/
theorem Column.handles_le (hl : Layout a) (hk : k < a.firstTag) (hx : a.Column ct k x) :
    sizeofEntity * a.chunkCapacity ct ≤ x :=
  (hl.handles_le ct k hk).trans hx.1

theorem address_add (a : Archetype) (ct : AllocType) (k i j : Nat) :
    a.address ct k (i + j) = a.address ct k i + a.size k * j := by
  simp only [address]
  rw [Nat.mul_add, Nat.add_assoc]

/-- The elements of consecutive slots are in their column. -/
theorem column_of_range {n : Nat} (hle : i + n ≤ a.chunkCapacity ct) (hx : a.address ct k i ≤ x)
    (hx' : x < a.address ct k i + a.size k * n) : a.Column ct k x := by
  have hmul := Nat.mul_le_mul_left (a.size k) hle
  rw [Nat.mul_add] at hmul
  simp only [address] at hx hx'
  exact ⟨by omega, by omega⟩

theorem column_of_cell (hi : i < a.chunkCapacity ct) {y : Nat} (hy : y < a.size k) :
    a.Column ct k (a.address ct k i + y) :=
  column_of_range (n := 1) hi (Nat.le_add_right ..) (by omega)

/-- The cells of different slots do not overlap. -/
theorem cell_apart {j n y : Nat} (hj : j < i ∨ i + n ≤ j) (hy : y < a.size k) :
    a.address ct k j + y < a.address ct k i ∨
      a.address ct k i + a.size k * n ≤ a.address ct k j + y := by
  simp only [address]
  rcases hj with hj | hj
  · have hmul := Nat.mul_le_mul_left (a.size k) (Nat.succ_le_of_lt hj)
    rw [Nat.mul_succ] at hmul
    exact Or.inl (by omega)
  · have hmul := Nat.mul_le_mul_left (a.size k) hj
    rw [Nat.mul_add] at hmul
    exact Or.inr (by omega)

/-- The elements of the slots `[start, start + n)`. -/
def Cells (a : Archetype) (ct : AllocType) (start n x : Nat) : Prop :=
  ∃ k < a.firstTag, a.address ct k start ≤ x ∧ x < a.address ct k start + a.size k * n

theorem Cells.not_cell (hl : Layout a) {start n y : Nat} (hle : start + n ≤ a.chunkCapacity ct)
    (hk : k < a.firstTag) (hi : i < a.chunkCapacity ct) (hout : i < start ∨ start + n ≤ i)
    (hy : y < a.size k) : ¬ a.Cells ct start n (a.address ct k i + y) := by
  rintro ⟨l, hl', hlo, hhi⟩
  by_cases hkl : k = l
  · subst hkl
    have happart : a.address ct k i + y < a.address ct k start ∨
        a.address ct k start + a.size k * n ≤ a.address ct k i + y := cell_apart hout hy
    rcases happart with h | h
    · omega
    · omega
  · exact (column_of_cell hi hy).apart hl hk hl' hkl (column_of_range hle hlo hhi)

/-- All cells are behind the handles. -/
theorem Cells.handles_le (hl : Layout a) {start n : Nat} (h : a.Cells ct start n x) :
    sizeofEntity * a.chunkCapacity ct ≤ x := by
  obtain ⟨k, hk, hlo, -⟩ := h
  have := hl.handles_le ct k hk
  simp only [address] at hlo
  omega

/-- The buffers of an archetype have room for their header. -/
def Roomy (a : Archetype) : Prop :=
  ∀ k, a.firstBuffer ≤ k → k < a.firstManaged → sizeofBuffer ≤ a.size k

/-- Then constructors keep to their elements. -/
theorem Roomy.cells (h : a.Roomy) {start n : Nat} (hx : a.Span ct start n x) :
    a.Cells ct start n x := by
  obtain ⟨k, hk, j, hj, hlo, hhi⟩ := hx
  have hwidth : a.width k = a.size k := by
    unfold width
    split_ifs with hbuf
    · exact Nat.max_eq_left (h k hbuf.1 hbuf.2)
    · rfl
  have hmul := Nat.mul_le_mul_left (a.size k) (Nat.succ_le_of_lt hj)
  rw [Nat.mul_succ] at hmul
  rw [hwidth] at hhi
  rw [address_add] at hlo hhi
  exact ⟨k, hk, by omega, by omega⟩

end Archetype

namespace Memory

/-- The element of column `k` in slot `i` of a chunk. -/
def cell (mm : Memory) (c : ChunkId) (a : Archetype) (ct : AllocType) (k i : Nat) : List UInt8 :=
  Mem.read (mm.data c) (a.address ct k i) (a.size k)

variable {mm mm' : Memory} {c : ChunkId} {a : Archetype} {ct : AllocType} {k i : Nat}

/-- Bytes that no write touches. -/
theorem cell_of_writes {W : Nat → Prop} {d : ChunkId} (h : Writes d W mm mm')
    (hW : c = d → ∀ y < a.size k, ¬ W (a.address ct k i + y)) :
    mm'.cell c a ct k i = mm.cell c a ct k i := by
  apply Mem.read_eq
  intro y hy
  by_cases hc : c = d
  · subst hc
    exact h.same _ (hW rfl y hy)
  · rw [h.other c hc]

/-! ## `chunk::move` -/

theorem moveWithin_cells (mm : Memory) (a : Archetype) (ct : AllocType) (dst : ChunkSlice)
    (srcIndex : Nat) :
    Writes dst.c (a.Cells ct dst.start dst.count) mm (mm.moveWithin a ct dst srcIndex) := by
  apply Writes.setData
  apply Mem.SameOff.foldl
  intro k hk m
  apply Mem.SameOff.copy
  intro x hx hx'
  rw [Nat.mul_comm] at hx'
  exact ⟨k, List.mem_range.mp hk, hx, hx'⟩

/-- Every cell comes from the slot at the same distance from the 16-bit source index. -/
theorem cell_moveWithin (hl : Layout a) (dst : ChunkSlice) {srcIndex j : Nat}
    (hle : dst.start + dst.count ≤ a.chunkCapacity ct)
    (hsrc : srcIndex % 2 ^ 16 + dst.count ≤ a.chunkCapacity ct) (hk : k < a.firstTag)
    (hj : j < dst.count) :
    (mm.moveWithin a ct dst srcIndex).cell dst.c a ct k (dst.start + j) =
      mm.cell dst.c a ct k (srcIndex % 2 ^ 16 + j) := by
  generalize hsrcIndex : srcIndex % 2 ^ 16 = src at hsrc ⊢
  simp only [cell, moveWithin, setData, Function.update_self, hsrcIndex]
  apply Mem.read_eq
  intro y hy
  generalize mm.data dst.c = m₀
  obtain ⟨l₁, l₂, hsplit⟩ := List.append_of_mem (List.mem_range.mpr hk)
  have hnd : (l₁ ++ k :: l₂).Nodup := hsplit ▸ List.nodup_range
  have hne : ∀ b, b ∈ l₁ ∨ b ∈ l₂ → b < a.firstTag ∧ b ≠ k := by
    intro b hb
    refine ⟨?_, ?_⟩
    · rw [← List.mem_range, hsplit]
      simp only [List.mem_append, List.mem_cons]
      exact hb.imp id Or.inr
    · rintro rfl
      simp only [List.nodup_append, List.nodup_cons] at hnd
      rcases hb with hb | hb
      · exact hnd.2.2 b hb b List.mem_cons_self rfl
      · exact hnd.2.1.1 hb
  have hother : ∀ b m, b < a.firstTag ∧ b ≠ k → ∀ x, a.Column ct k x →
      Mem.copy m (a.address ct b dst.start) m (a.address ct b src) (dst.count * a.size b) x =
        m x := by
    intro b m hb x hx
    have hsame : Mem.SameOff (a.Column ct b) m _ :=
      Mem.SameOff.copy m (a.address ct b src) (n := dst.count * a.size b) fun z hz hz' =>
        Archetype.column_of_range hle hz (by rwa [Nat.mul_comm] at hz')
    exact hsame x (hx.apart hl hk hb.1 (Ne.symm hb.2))
  rw [hsplit]
  refine foldlM_turn (P := fun m : Mem => ∀ x, a.Column ct k x → m x = m₀ x)
    (Q := fun m : Mem => m (a.address ct k (dst.start + j) + y) = m₀ (a.address ct k (src + j) + y))
    ?_ ?_ ?_ (foldlM_some _ _) fun _ _ => rfl
  · intro b hb m m' hm hP x hx
    obtain rfl := Option.some.inj hm
    rw [hother b m (hne b (Or.inl hb)) x hx]
    exact hP x hx
  · intro m m' hm hP
    obtain rfl := Option.some.inj hm
    have hmul := Nat.mul_le_mul_left (a.size k) (Nat.succ_le_of_lt hj)
    rw [Nat.mul_succ] at hmul
    rw [Mem.copy_of_mem]
    · rw [hP _ ?_]
      · rw [Archetype.address_add, Archetype.address_add]
        congr 1
        omega
      · apply Archetype.column_of_range hsrc (Nat.le_add_right ..)
        rw [Archetype.address_add]
        omega
    · rw [Archetype.address_add]
      omega
    · rw [Archetype.address_add, Nat.mul_comm dst.count]
      omega
  · intro b hb m m' hm hQ
    obtain rfl := Option.some.inj hm
    rw [hother b m (hne b (Or.inr hb)) _ (Archetype.column_of_cell (by omega) hy)]
    exact hQ

/-! ## `chunk::cast` -/

section Steps

variable {valid : TypeIndex → TypeIndex}

theorem dsts_castStepsFrom {s : Nat × TypeIndex} {rest : List (Nat × TypeIndex) → List CastStep}
    (hrest : ∀ ds, (rest ds).filterMap CastStep.dst? = ds.map Prod.fst)
    (ds : List (Nat × TypeIndex)) :
    (castStepsFrom valid s rest ds).filterMap CastStep.dst? = ds.map Prod.fst := by
  induction ds with
  | nil => simp only [castStepsFrom, List.filterMap_cons, CastStep.dst_drop, hrest]
  | cons d ds ih =>
      rw [castStepsFrom]
      split_ifs
      · simp only [List.filterMap_cons, CastStep.dst_drop, hrest]
      · simp only [List.filterMap_cons, CastStep.dst_make, ih, List.map_cons]
      · simp only [List.filterMap_cons, CastStep.dst_move, hrest, List.map_cons]

/-- The steps of a phase go through the columns of the destination in order. -/
theorem dsts_castSteps (ss ds : List (Nat × TypeIndex)) :
    (castSteps valid ss ds).filterMap CastStep.dst? = ds.map Prod.fst := by
  induction ss generalizing ds with
  | nil =>
      rw [castSteps, List.filterMap_map]
      exact congrFun List.filterMap_eq_map ds
  | cons s ss ih => exact dsts_castStepsFrom ih ds

/-- Two columns meet under the cursors when nothing before them sorts behind them, and
as many columns before them have the same valid type on one side as on the other. -/
theorem move_mem_castSteps {s₁ s₂ d₁ d₂ : List (Nat × TypeIndex)} {i j : Nat} {t u : TypeIndex}
    (hv : valid t = valid u) (hs : ∀ e ∈ s₁, valid e.2 ≤ valid t)
    (hd : ∀ e ∈ d₁, valid e.2 ≤ valid t)
    (hcount : s₁.countP (fun e => valid e.2 = valid t) =
      d₁.countP fun e => valid e.2 = valid t) :
    .move i j ∈ castSteps valid (s₁ ++ (i, t) :: s₂) (d₁ ++ (j, u) :: d₂) := by
  induction s₁ generalizing d₁ with
  | nil =>
      induction d₁ with
      | nil =>
          rw [List.nil_append, List.nil_append, castSteps, castStepsFrom,
            if_neg (Nat.lt_irrefl _ <| hv ▸ ·), if_neg (Nat.lt_irrefl _ <| hv ▸ ·)]
          exact List.mem_cons_self
      | cons e d₁ ih =>
          have hlt : valid e.2 < valid t := by
            refine lt_of_le_of_ne (hd e List.mem_cons_self) fun heq => ?_
            simp [heq] at hcount
          have htail := ih (fun f hf => hd f (List.mem_cons_of_mem e hf)) (by
            rw [hcount, List.countP_cons_of_neg]
            simpa using hlt.ne)
          rw [List.nil_append, castSteps] at htail ⊢
          rw [List.cons_append, castStepsFrom, if_neg (Nat.lt_asymm hlt), if_pos hlt]
          exact List.mem_cons_of_mem _ htail
  | cons f s₁ ihs =>
      have hs' : ∀ e ∈ s₁, valid e.2 ≤ valid t := fun e he => hs e (List.mem_cons_of_mem f he)
      have hf := hs f List.mem_cons_self
      induction d₁ with
      | nil =>
          have hlt : valid f.2 < valid t := by
            refine lt_of_le_of_ne hf fun heq => ?_
            simp [heq] at hcount
          have htail := @ihs [] hs' (by simp) (by
            rw [← hcount, List.countP_cons_of_neg]
            simpa using hlt.ne)
          rw [List.cons_append, castSteps, List.nil_append, castStepsFrom, if_pos (hv ▸ hlt)]
          exact List.mem_cons_of_mem _ htail
      | cons e d₁ ihd =>
          have hd' : ∀ e ∈ d₁, valid e.2 ≤ valid t := fun f hf => hd f (List.mem_cons_of_mem e hf)
          have he := hd e List.mem_cons_self
          rw [List.cons_append, castSteps, List.cons_append, castStepsFrom]
          split_ifs with hfe hef
          · -- the source column has no counterpart
            apply List.mem_cons_of_mem
            apply @ihs (e :: d₁) hs' hd
            rw [← hcount, List.countP_cons_of_neg]
            simpa using (hfe.trans_le he).ne
          · -- the destination column has no counterpart
            have htail := ihd hd' (by
              rw [hcount, List.countP_cons_of_neg]
              simpa using (hef.trans_le hf).ne)
            rw [List.cons_append, castSteps] at htail
            exact List.mem_cons_of_mem _ htail
          · have heq : valid f.2 = valid e.2 :=
              Nat.le_antisymm (Nat.le_of_not_lt hef) (Nat.le_of_not_lt hfe)
            apply List.mem_cons_of_mem
            apply ihs hs' hd'
            simp only [List.countP_cons, heq] at hcount
            omega

/-- Columns that meet have the same valid type. -/
theorem valid_of_move_mem {ss ds : List (Nat × TypeIndex)} {i k : Nat}
    (h : .move i k ∈ castSteps valid ss ds) :
    ∃ t u, (i, t) ∈ ss ∧ (k, u) ∈ ds ∧ valid t = valid u := by
  induction ss generalizing ds with
  | nil => simp [castSteps] at h
  | cons s ss ihs =>
      rw [castSteps] at h
      induction ds with
      | nil =>
          rw [castStepsFrom] at h
          obtain ⟨t, u, -, hu, -⟩ := ihs ((List.mem_cons.mp h).resolve_left (by simp))
          simp at hu
      | cons d ds ihd =>
          rw [castStepsFrom] at h
          split_ifs at h with h₁ h₂
          · obtain ⟨t, u, ht, hu, hv⟩ := ihs ((List.mem_cons.mp h).resolve_left (by simp))
            exact ⟨t, u, List.mem_cons_of_mem _ ht, hu, hv⟩
          · obtain ⟨t, u, ht, hu, hv⟩ := ihd ((List.mem_cons.mp h).resolve_left (by simp))
            exact ⟨t, u, ht, List.mem_cons_of_mem _ hu, hv⟩
          · rcases List.mem_cons.mp h with heq | h
            · obtain ⟨rfl, rfl⟩ := CastStep.move.inj heq
              exact ⟨s.2, d.2, List.mem_cons_self, List.mem_cons_self,
                Nat.le_antisymm (Nat.le_of_not_lt h₂) (Nat.le_of_not_lt h₁)⟩
            · obtain ⟨t, u, ht, hu, hv⟩ := ihs h
              exact ⟨t, u, List.mem_cons_of_mem _ ht, List.mem_cons_of_mem _ hu, hv⟩

/-- What is dropped is a column of the source. -/
theorem src_of_drop_mem {ss ds : List (Nat × TypeIndex)} {i : Nat}
    (h : .drop i ∈ castSteps valid ss ds) : ∃ t, (i, t) ∈ ss := by
  induction ss generalizing ds with
  | nil => simp [castSteps] at h
  | cons s ss ihs =>
      have htail : ∀ {ds}, .drop i ∈ castSteps valid ss ds → ∃ t, (i, t) ∈ s :: ss := by
        intro ds hds
        obtain ⟨t, ht⟩ := ihs hds
        exact ⟨t, List.mem_cons_of_mem _ ht⟩
      have hself : ∀ {ds}, .drop i ∈ CastStep.drop s.1 :: castSteps valid ss ds →
          ∃ t, (i, t) ∈ s :: ss := by
        intro ds hds
        rcases List.mem_cons.mp hds with heq | hds
        · exact ⟨s.2, CastStep.drop.inj heq ▸ List.mem_cons_self⟩
        · exact htail hds
      rw [castSteps] at h
      induction ds with
      | nil =>
          rw [castStepsFrom] at h
          exact hself h
      | cons d ds ihd =>
          rw [castStepsFrom] at h
          split_ifs at h with h₁ h₂
          · exact hself h
          · exact ihd ((List.mem_cons.mp h).resolve_left (by simp))
          · exact htail ((List.mem_cons.mp h).resolve_left (by simp))

theorem mem_segmentOf {a : Archetype} {lo hi i : Nat} {t : TypeIndex} :
    (i, t) ∈ segmentOf a lo hi ↔ (lo ≤ i ∧ i < hi) ∧ t = a.types.getD i 0 := by
  simp only [segmentOf, List.mem_map, Prod.mk.injEq, mem_columns]
  constructor
  · rintro ⟨l, hl, rfl, rfl⟩
    exact ⟨hl, rfl⟩
  · rintro ⟨hi, rfl⟩
    exact ⟨i, hi, rfl, rfl⟩

end Steps

section Cast

variable {ctx : Context} {dst src : CastSide} {count : Nat} {st : CastStep}

/-- The column of the destination that a step is about. -/
def Touched (dst : CastSide) (st : CastStep) (x : Nat) : Prop :=
  ∃ d, st.dst? = some d ∧ dst.a.Column dst.ct d x

theorem castPod_column (mm : Memory) (hle : dst.start + count ≤ dst.a.chunkCapacity dst.ct) :
    Writes dst.c (Touched dst st) mm (mm.castPod dst src count st) := by
  cases st with
  | drop s => exact .refl _ _ _
  | make d =>
      apply Writes.setData
      apply Mem.SameOff.fill
      exact fun x hx hx' => ⟨d, rfl, Archetype.column_of_range hle hx hx'⟩
  | move s d =>
      apply Writes.setData
      apply Mem.SameOff.copy
      exact fun x hx hx' => ⟨d, rfl, Archetype.column_of_range hle hx hx'⟩

theorem castBuffer_column {destruct : Bool} (hroomy : dst.a.Roomy)
    (hle : dst.start + count ≤ dst.a.chunkCapacity dst.ct)
    (hst : ∀ d, st.dst? = some d → dst.a.firstBuffer ≤ d ∧ d < dst.a.firstManaged)
    (h : mm.castBuffer dst src count destruct st = some mm') :
    Writes dst.c (Touched dst st) mm mm' := by
  cases st with
  | drop s =>
      simp only [castBuffer] at h
      split_ifs at h
      · exact .of_data (destroyBuffers_data h)
      · rw [← Option.some.inj h]
        exact .refl _ _ _
  | make d =>
      obtain rfl := Option.some.inj h
      obtain ⟨hlo, hhi⟩ := hst d rfl
      apply Writes.setData
      apply Mem.SameOff.foldl
      intro j hj m
      rw [List.mem_range] at hj
      apply sameOff_newBuffer
      intro x hx hx'
      refine ⟨d, rfl, Archetype.column_of_range (i := dst.start + j) (n := 1) (by omega) hx ?_⟩
      have := hroomy d hlo hhi
      omega
  | move s d =>
      obtain rfl := Option.some.inj h
      apply Writes.setData
      apply Mem.SameOff.copy
      exact fun x hx hx' => ⟨d, rfl, Archetype.column_of_range hle hx hx'⟩

theorem castManaged_column (mm : Memory) (hle : dst.start + count ≤ dst.a.chunkCapacity dst.ct) :
    Writes dst.c (Touched dst st) mm (mm.castManaged ctx dst src count st) := by
  cases st with
  | drop s => exact .refl _ _ _
  | make d =>
      simp only [castManaged, constructManaged]
      apply Writes.setData
      split
      · exact .refl _ _
      · rename_i bs _
        apply Mem.SameOff.foldl
        intro j hj m
        rw [List.mem_range] at hj
        apply Mem.SameOff.write
        intro x hx hx'
        refine ⟨d, rfl, Archetype.column_of_range (i := dst.start + j) (n := 1) (by omega) hx ?_⟩
        have := List.length_take_le (dst.a.size d) bs
        omega
  | move s d =>
      apply Writes.setData
      apply Mem.SameOff.copy
      exact fun x hx hx' => ⟨d, rfl, Archetype.column_of_range hle hx hx'⟩

/-- One phase of `chunk::cast`: its steps, each of which keeps to its column, and a copy of
the column where the cursors meet. -/
structure Phase (dst src : CastSide) (count : Nat) (steps : List CastStep)
    (f : Memory → CastStep → Option Memory) : Prop where
  lt : ∀ st ∈ steps, ∀ d, st.dst? = some d → d < dst.a.firstTag
  touched : ∀ st ∈ steps, ∀ mm mm', f mm st = some mm' → Writes dst.c (Touched dst st) mm mm'
  moved : ∀ mm mm' i k, f mm (.move i k) = some mm' → mm' = mm.moveColumn dst src i k count

variable {steps : List CastStep} {f : Memory → CastStep → Option Memory}

/-- Steps about other columns. -/
theorem Phase.other (hl : Layout dst.a) (hp : Phase dst src count steps f)
    (hk : k < dst.a.firstTag) (hne : ∀ st ∈ steps, st.dst? ≠ some k)
    (h : steps.foldlM f mm = some mm') :
    Writes dst.c (fun x => ¬ dst.a.Column dst.ct k x) mm mm' := by
  refine Writes.foldlM (fun st hst mm mm' hs => ?_) h
  apply (hp.touched st hst mm mm' hs).mono
  rintro x ⟨d, hd, hx⟩
  refine hx.apart hl (hp.lt st hst d hd) hk ?_
  rintro rfl
  exact hne st hst hd

theorem cell_of_other (hi : i < a.chunkCapacity ct)
    (h : Writes c (fun x => ¬ a.Column ct k x) mm mm') : mm'.cell c a ct k i = mm.cell c a ct k i :=
  cell_of_writes h fun _ _ hy hout => hout (Archetype.column_of_cell hi hy)

/-- The step about a column finds it as it was, and leaves it as it will be. -/
theorem Phase.turn (hl : Layout dst.a) (hp : Phase dst src count steps f)
    (hnd : (steps.filterMap CastStep.dst?).Nodup) {k : Nat} (hst : st ∈ steps)
    (hk : st.dst? = some k) (h : steps.foldlM f mm = some mm') : ∃ m m',
      f m st = some m' ∧ Writes dst.c (fun x => ¬ dst.a.Column dst.ct k x) mm m ∧
        Writes dst.c (fun x => ¬ dst.a.Column dst.ct k x) m' mm' := by
  obtain ⟨l₁, l₂, rfl⟩ := List.append_of_mem hst
  have hlt := hp.lt st hst k hk
  rw [List.filterMap_append, List.filterMap_cons, hk] at hnd
  obtain ⟨-, hnd₂, hapart⟩ := List.nodup_append.mp hnd
  have hne₁ : ∀ s ∈ l₁, s.dst? ≠ some k := fun s hs hd =>
    hapart k (List.mem_filterMap.mpr ⟨s, hs, hd⟩) k List.mem_cons_self rfl
  have hne₂ : ∀ s ∈ l₂, s.dst? ≠ some k := fun s hs hd =>
    (List.nodup_cons.mp hnd₂).1 (List.mem_filterMap.mpr ⟨s, hs, hd⟩)
  have hsub : ∀ l, (∀ s ∈ l, s ∈ l₁ ++ st :: l₂) → Phase dst src count l f := fun l hl' =>
    ⟨fun s hs => hp.lt s (hl' s hs), fun s hs => hp.touched s (hl' s hs), hp.moved⟩
  simp only [List.foldlM_append, List.foldlM_cons, Option.bind_eq_bind,
    Option.bind_eq_some_iff] at h
  obtain ⟨m, h₁, m', hm, h₂⟩ := h
  refine ⟨m, m', hm, ?_, ?_⟩
  · exact (hsub l₁ fun s hs => List.mem_append_left _ hs).other hl hlt hne₁ h₁
  · exact (hsub l₂ fun s hs => List.mem_append_right _ (List.mem_cons_of_mem _ hs)).other hl hlt
      hne₂ h₂

/-- The elements of a copied column. -/
theorem cell_moveColumn (mm : Memory) {i k j : Nat} (hsize : dst.a.size k = src.a.size i)
    (hj : j < count) : (mm.moveColumn dst src i k count).cell dst.c dst.a dst.ct k (dst.start + j) =
      mm.cell src.c src.a src.ct i (src.start + j) := by
  simp only [cell, moveColumn, setData, Function.update_self, hsize]
  apply Mem.read_eq
  intro y hy
  have hmul := Nat.mul_le_mul_left (dst.a.size k) (Nat.succ_le_of_lt hj)
  rw [Nat.mul_succ, hsize] at hmul
  have hdst := Archetype.address_add dst.a dst.ct k dst.start j
  have hsrc := Archetype.address_add src.a src.ct i src.start j
  rw [hsize] at hdst
  rw [Mem.copy_of_mem]
  · congr 1
    simp only [CastSide.address, Nat.add_zero]
    omega
  · simp only [CastSide.address, Nat.add_zero]
    omega
  · simp only [CastSide.address, Nat.add_zero]
    omega

/-- A column that is copied. -/
theorem Phase.move (hl : Layout dst.a) (hp : Phase dst src count steps f)
    (hnd : (steps.filterMap CastStep.dst?).Nodup) (hc : dst.c ≠ src.c)
    (hle : dst.start + count ≤ dst.a.chunkCapacity dst.ct) {i k j : Nat}
    (hmove : .move i k ∈ steps) (hsize : dst.a.size k = src.a.size i) (hj : j < count)
    (h : steps.foldlM f mm = some mm') :
    mm'.cell dst.c dst.a dst.ct k (dst.start + j) =
      mm.cell src.c src.a src.ct i (src.start + j) := by
  obtain ⟨m, m', hm, hbefore, hafter⟩ := hp.turn hl hnd hmove rfl h
  rw [cell_of_other (by omega) hafter, hp.moved m m' i k hm, cell_moveColumn m hsize hj]
  simp only [cell, hbefore.other src.c (Ne.symm hc)]

theorem nodup_dsts {valid : TypeIndex → TypeIndex} (ss : List (Nat × TypeIndex))
    (b : Archetype) (lo hi : Nat) :
    ((castSteps valid ss (segmentOf b lo hi)).filterMap CastStep.dst?).Nodup := by
  rw [dsts_castSteps, segmentOf, List.map_map]
  have hid : (Prod.fst ∘ fun i => (i, b.types.getD i 0)) = (id : Nat → Nat) := rfl
  rw [hid, List.map_id]
  exact List.nodup_range.sublist (List.drop_sublist ..)

/-- The steps of `chunk::cast` on the plain, the buffer and the managed columns. -/
def podSteps (ctx : Context) (a b : Archetype) : List CastStep :=
  castSteps ctx.toValidType (segmentOf a 0 a.firstBuffer) (segmentOf b 0 b.firstBuffer)

def bufferSteps (ctx : Context) (a b : Archetype) : List CastStep :=
  castSteps ctx.toValidType (segmentOf a a.firstBuffer a.firstManaged)
    (segmentOf b b.firstBuffer b.firstManaged)

def managedSteps (ctx : Context) (a b : Archetype) : List CastStep :=
  castSteps ctx.toValidType (segmentOf a a.firstManaged a.firstTag)
    (segmentOf b b.firstManaged b.firstTag)

/-- The cursors of `chunk::cast` meet at column `i` of one archetype and column `k` of the
other. -/
def Meets (ctx : Context) (a b : Archetype) (i k : Nat) : Prop :=
  .move i k ∈ podSteps ctx a b ∨ .move i k ∈ bufferSteps ctx a b ∨
    .move i k ∈ managedSteps ctx a b

theorem Meets.spec {b : Archetype} (hla : Layout a) (hlb : Layout b) {i k : Nat}
    (h : Meets ctx a b i k) : i < a.firstTag ∧ k < b.firstTag ∧
      ctx.toValidType (a.types.getD i 0) = ctx.toValidType (b.types.getD k 0) := by
  have hall : ∀ lo hi lo' hi', hi ≤ a.firstTag → hi' ≤ b.firstTag →
      .move i k ∈ castSteps ctx.toValidType (segmentOf a lo hi) (segmentOf b lo' hi') →
      i < a.firstTag ∧ k < b.firstTag ∧
        ctx.toValidType (a.types.getD i 0) = ctx.toValidType (b.types.getD k 0) := by
    intro lo hi lo' hi' ha hb hmem
    obtain ⟨t, u, ht, hu, hv⟩ := valid_of_move_mem hmem
    obtain ⟨⟨-, hi⟩, rfl⟩ := mem_segmentOf.mp ht
    obtain ⟨⟨-, hk⟩, rfl⟩ := mem_segmentOf.mp hu
    exact ⟨hi.trans_le ha, hk.trans_le hb, hv⟩
  rcases h with h | h | h
  · exact hall _ _ _ _ (hla.buffer_le.trans hla.managed_le) (hlb.buffer_le.trans hlb.managed_le) h
  · exact hall _ _ _ _ hla.managed_le hlb.managed_le h
  · exact hall _ _ _ _ le_rfl le_rfl h

theorem size_eq {key : EntityType} (h : constructArchetype ctx key = some a) {i : Nat}
    (hi : i < a.firstTag) : a.size i = (ctx.info (a.types.getD i 0)).size := by
  have hlen := (constructArchetype_layout h).tag_le
  simp only [constructArchetype] at h
  split_ifs at h
  obtain rfl := Option.some.inj h
  dsimp only [Archetype.types] at hi hlen
  have hlt : i < key.types.length := hi.trans_le hlen
  simp only [Archetype.size, Archetype.types, List.getD_eq_getElem?_getD]
  rw [List.getElem?_map, List.getElem?_map, List.getElem?_take_of_lt hi,
    List.getElem?_eq_getElem hlt]
  rfl

/-- Columns that meet are of one width. -/
theorem Meets.size_eq (hctx : ctx.Paired) {b : Archetype} {key key' : EntityType}
    (ha : constructArchetype ctx key = some a) (hb : constructArchetype ctx key' = some b)
    {i k : Nat} (h : Meets ctx a b i k) : b.size k = a.size i := by
  obtain ⟨hi, hk, hv⟩ := h.spec (constructArchetype_layout ha) (constructArchetype_layout hb)
  rw [Memory.size_eq ha hi, Memory.size_eq hb hk, ← (hctx.toValidType _).1, ← hv,
    (hctx.toValidType _).1]

theorem podPhase (hl : Layout dst.a) (hle : dst.start + count ≤ dst.a.chunkCapacity dst.ct) :
    Phase dst src count (podSteps ctx src.a dst.a)
      fun mm st => some (mm.castPod dst src count st) where
  lt _ hst _ hd := (dst_segmentOf hst hd).2.trans_le (hl.buffer_le.trans hl.managed_le)
  touched _ _ mm _ hs := Option.some.inj hs ▸ castPod_column mm hle
  moved _ _ _ _ hs := (Option.some.inj hs).symm

theorem bufferPhase (hl : Layout dst.a) (hroomy : dst.a.Roomy)
    (hle : dst.start + count ≤ dst.a.chunkCapacity dst.ct) (destruct : Bool) :
    Phase dst src count (bufferSteps ctx src.a dst.a)
      fun mm st => mm.castBuffer dst src count destruct st where
  lt _ hst _ hd := (dst_segmentOf hst hd).2.trans_le hl.managed_le
  touched _ hst _ _ hs :=
    castBuffer_column hroomy hle (fun _ hd => dst_segmentOf hst hd) hs
  moved _ _ _ _ hs := (Option.some.inj hs).symm

theorem managedPhase (hle : dst.start + count ≤ dst.a.chunkCapacity dst.ct) :
    Phase dst src count (managedSteps ctx src.a dst.a)
      fun mm st => some (mm.castManaged ctx dst src count st) where
  lt _ hst _ hd := (dst_segmentOf hst hd).2
  touched _ _ mm _ hs := Option.some.inj hs ▸ castManaged_column mm hle
  moved _ _ _ _ hs := (Option.some.inj hs).symm

theorem Phase.source (hp : Phase dst src count steps f) (hc : dst.c ≠ src.c)
    (h : steps.foldlM f mm = some mm') : mm'.data src.c = mm.data src.c :=
  foldlM_invariant (P := fun m : Memory => m.data src.c = mm.data src.c)
    (fun st hst m m' hs hm => ((hp.touched st hst m m' hs).other src.c (Ne.symm hc)).trans hm) h rfl

/-- A cell that `chunk::cast` moves comes from the column its cursors meet at, `j` slots
behind the 16-bit source index. -/
theorem cell_cast (hl : Layout dst.a) (hroomy : dst.a.Roomy)
    (hle : dst.start + count ≤ dst.a.chunkCapacity dst.ct) (hc : dst.c ≠ src.c) {destruct : Bool}
    {i k j : Nat} (hj : j < count) (hmeet : Meets ctx src.a dst.a i k)
    (hsize : dst.a.size k = src.a.size i)
    (hmask : dst.a.index ctx.maskId ≠ invalidIndex → k ≠ dst.a.index ctx.maskId)
    (hm : ctx.maskId < 3 * 2 ^ 30) (h : mm.cast ctx dst src count destruct = some mm') :
    mm'.cell dst.c dst.a dst.ct k (dst.start + j) =
      mm.cell src.c src.a src.ct i (src.start % 2 ^ 16 + j) := by
  simp only [cast, Option.bind_eq_bind, Option.bind_eq_some_iff] at h
  obtain ⟨mm₂, h₂, h⟩ := h
  generalize hsrc : ({ src with start := src.start % 2 ^ 16 } : CastSide) = src' at h₂ h
  have ha : src'.a = src.a := hsrc ▸ rfl
  have hc' : dst.c ≠ src'.c := hsrc ▸ hc
  have hcell : ∀ m : Memory, m.cell src'.c src'.a src'.ct i (src'.start + j) =
      m.cell src.c src.a src.ct i (src.start % 2 ^ 16 + j) := fun _ => hsrc ▸ rfl
  rw [← ha] at hmeet hsize h₂ h
  rw [← hcell]
  generalize h₁ : List.foldl _ mm _ = mm₁ at h₂
  generalize h₃ : List.foldl _ mm₂ _ = mm₃ at h
  have h₁' := h₁ ▸ foldlM_some (f := fun mm st => castPod mm dst src' count st)
    (podSteps ctx src'.a dst.a) mm
  have h₃' := h₃ ▸ foldlM_some (f := fun mm st => castManaged ctx mm dst src' count st)
    (managedSteps ctx src'.a dst.a) mm₂
  have hpod : Phase dst src' count (podSteps ctx src'.a dst.a) _ := podPhase hl hle
  have hbuf : Phase dst src' count (bufferSteps ctx src'.a dst.a) _ :=
    bufferPhase hl hroomy hle destruct
  have hman : Phase dst src' count (managedSteps ctx src'.a dst.a) _ := managedPhase hle
  have hslot : dst.start + j < dst.a.chunkCapacity dst.ct := by omega
  have hlt : k < dst.a.firstTag := by
    rcases hmeet with hmove | hmove | hmove
    · exact hpod.lt _ hmove k rfl
    · exact hbuf.lt _ hmove k rfl
    · exact hman.lt _ hmove k rfl
  -- the mask column, which may be filled at the end, is another one
  have hlast : mm'.cell dst.c dst.a dst.ct k (dst.start + j) =
      mm₃.cell dst.c dst.a dst.ct k (dst.start + j) := by
    split_ifs at h with hd hs hz
    · rw [Option.some.inj h]
    · obtain rfl := Option.some.inj h
      apply cell_of_other hslot
      apply Writes.setData
      apply Mem.SameOff.fill
      intro x hx hx' hcol
      exact hcol.apart hl hlt (hl.index_lt hm hd) (hmask hd) (Archetype.column_of_range hle hx hx')
    · rw [Option.some.inj h]
  rw [hlast]
  rcases hmeet with hmove | hmove | hmove
  · have hk := (dst_segmentOf hmove rfl).2
    have hmoved := hpod.move hl (nodup_dsts ..) hc' hle hmove hsize hj h₁'
    have hother := hbuf.other hl hlt (fun st hst hd => by
      have := (dst_segmentOf hst hd).1
      omega) h₂
    have hother' := hman.other hl hlt (fun st hst hd => by
      have := (dst_segmentOf hst hd).1
      have := hl.buffer_le
      omega) h₃'
    rw [cell_of_other hslot hother', cell_of_other hslot hother, hmoved]
  · have hk := dst_segmentOf hmove rfl
    have hmoved := hbuf.move hl (nodup_dsts ..) hc' hle hmove hsize hj h₂
    have hother' := hman.other hl hlt (fun st hst hd => by
      have := (dst_segmentOf hst hd).1
      omega) h₃'
    rw [cell_of_other hslot hother', hmoved]
    simp only [cell, hpod.source hc' h₁']
  · have hmoved := hman.move hl (nodup_dsts ..) hc' hle hmove hsize hj h₃'
    rw [hmoved]
    simp only [cell, hbuf.source hc' h₂, hpod.source hc' h₁']

/-! Only blocks of buffers without a counterpart are freed. -/

theorem readBuffer_congr {m m' : Mem} {addr addr' : Nat}
    (h : ∀ y < sizeofBuffer, m (addr + y) = m' (addr' + y)) :
    Mem.readBuffer m addr = Mem.readBuffer m' addr' := by
  have hbuf : sizeofBuffer = 16 := rfl
  simp only [Mem.readBuffer, BufferHeader.mk.injEq]
  refine ⟨Mem.readWord_congr fun i hi => h i (by omega), Mem.readWord_congr fun i hi => ?_,
    Mem.readWord_congr fun i hi => ?_⟩
  · rw [Nat.add_assoc, Nat.add_assoc]
    exact h (8 + i) (by omega)
  · rw [Nat.add_assoc, Nat.add_assoc]
    exact h (10 + i) (by omega)

theorem heap_destroyBuffers {s : CastSide} {d : Nat}
    (hno : ∀ j < count, (Mem.readBuffer (mm.data s.c) (s.address i j)).d ≠ d)
    (h : mm.destroyBuffers s i count = some mm') : mm'.heap d = mm.heap d := by
  refine (foldlM_invariant (P := fun m : Memory => m.data = mm.data ∧ m.heap d = mm.heap d)
    (fun j hj m m' hm hP => ?_) h ⟨rfl, rfl⟩).2
  have hdata := destroyBuffer_data hm
  refine ⟨hdata.trans hP.1, ?_⟩
  have hne := hno j (List.mem_range.mp hj)
  rw [← hP.1] at hne
  simp only [destroyBuffer] at hm
  split_ifs at hm with hd
  · rw [← Option.some.inj hm]
    exact hP.2
  · split at hm
    · rw [← Option.some.inj hm]
      simp only [Function.update_of_ne hne.symm]
      exact hP.2
    · simp at hm

theorem heap_cast (hl : Layout dst.a) (hroomy : dst.a.Roomy)
    (hle : dst.start + count ≤ dst.a.chunkCapacity dst.ct) (hc : dst.c ≠ src.c) {destruct : Bool}
    {d : Nat} (hno : ∀ k, .drop k ∈ bufferSteps ctx src.a dst.a → ∀ j < count,
      (Mem.readBuffer (mm.data src.c)
        (src.a.address src.ct k (src.start % 2 ^ 16 + j))).d ≠ d)
    (h : mm.cast ctx dst src count destruct = some mm') : mm'.heap d = mm.heap d := by
  simp only [cast, Option.bind_eq_bind, Option.bind_eq_some_iff] at h
  obtain ⟨mm₂, h₂, h⟩ := h
  generalize hsrc : ({ src with start := src.start % 2 ^ 16 } : CastSide) = src' at h₂ h
  have ha : src'.a = src.a := hsrc ▸ rfl
  have hc' : dst.c ≠ src'.c := hsrc ▸ hc
  have hno' : ∀ k, .drop k ∈ bufferSteps ctx src'.a dst.a → ∀ j < count,
      (Mem.readBuffer (mm.data src'.c) (src'.address k j)).d ≠ d := by
    intro k hk j hj
    rw [ha] at hk
    exact hsrc ▸ hno k hk j hj
  rw [← ha] at h₂ h
  generalize h₁ : List.foldl _ mm _ = mm₁ at h₂
  generalize h₃ : List.foldl _ mm₂ _ = mm₃ at h
  have h₁' := h₁ ▸ foldlM_some (f := fun mm st => castPod mm dst src' count st)
    (podSteps ctx src'.a dst.a) mm
  have h₃' := h₃ ▸ foldlM_some (f := fun mm st => castManaged ctx mm dst src' count st)
    (managedSteps ctx src'.a dst.a) mm₂
  have hpod : Phase dst src' count (podSteps ctx src'.a dst.a) _ := podPhase hl hle
  have hbuf : Phase dst src' count (bufferSteps ctx src'.a dst.a) _ :=
    bufferPhase hl hroomy hle destruct
  have heap₁ : mm₁.heap d = mm.heap d :=
    foldlM_invariant (P := fun m : Memory => m.heap d = mm.heap d) (fun st _ m m' hm hP => by
      rw [← Option.some.inj hm]
      cases st <;> exact hP) h₁' rfl
  have heap₂ : mm₂.data src'.c = mm.data src'.c ∧ mm₂.heap d = mm.heap d := by
    refine foldlM_invariant (P := fun m : Memory => m.data src'.c = mm.data src'.c ∧
      m.heap d = mm.heap d) (fun st hst m m' hm hP => ?_) h₂ ⟨hpod.source hc' h₁', heap₁⟩
    refine ⟨((hbuf.touched st hst m m' hm).other src'.c (Ne.symm hc')).trans hP.1, ?_⟩
    cases st with
    | drop k =>
        simp only [castBuffer] at hm
        split_ifs at hm
        · have hfree := heap_destroyBuffers (fun j hj => hP.1 ▸ hno' k hst j hj) hm
          exact hfree.trans hP.2
        · exact Option.some.inj hm ▸ hP.2
    | make k => exact Option.some.inj hm ▸ hP.2
    | move l k => exact Option.some.inj hm ▸ hP.2
  have heap₃ : mm₃.heap d = mm.heap d :=
    foldlM_invariant (P := fun m : Memory => m.heap d = mm.heap d) (fun st _ m m' hm hP => by
      rw [← Option.some.inj hm]
      cases st <;> exact hP) h₃' heap₂.2
  split_ifs at h
  · exact Option.some.inj h ▸ heap₃
  · exact Option.some.inj h ▸ heap₃
  · exact Option.some.inj h ▸ heap₃

end Cast

end Memory

end Dots

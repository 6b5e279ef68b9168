import Dots.Database.Cells
import Dots.Database.Consistency
import Dots.Database.Integrity

/-!
# Entities that keep their data

After a call the slot of an entity may be another one, with the handle and the bytes of
all components moved along.
-/

namespace Dots

open Library Entities

namespace World

/-- The columns a result is about. -/
abbrev Watched := Archetype → Nat → Prop

/-- All of them. -/
abbrev everyColumn : Watched := fun _ _ => True

variable {K : Watched} {ctx : Context} {w w' w'' : World} {g : ArchetypeId} {a : Archetype}
  {c c' c'' : ChunkId} {i i' i'' : Nat}

/-- Slot `i'` of chunk `c'` in `w'` holds what slot `i` of chunk `c` held in `w`: an entity
of archetype `a`, with its handle and the bytes of its components in the watched columns. -/
structure Carried (K : Watched) (g : ArchetypeId) (a : Archetype) (w : World) (c : ChunkId) (i : Nat)
    (w' : World) (c' : ChunkId) (i' : Nat) : Prop where
  before : w.archetypeOf c = some (g, a)
  after : w'.archetypeOf c' = some (g, a)
  handle : w'.memory.entityAt c' i' = w.memory.entityAt c i
  cells : ∀ k < a.firstTag, K a k → w'.memory.cell c' a (w'.store.ct c') k i' =
    w.memory.cell c a (w.store.ct c) k i

theorem Carried.refl (h : w.archetypeOf c = some (g, a)) : Carried K g a w c i w c i :=
  ⟨h, h, rfl, fun _ _ _ => rfl⟩

theorem Carried.trans (h : Carried K g a w c i w' c' i') (h' : Carried K g a w' c' i' w'' c'' i'') :
    Carried K g a w c i w'' c'' i'' where
  before := h.before
  after := h'.after
  handle := h'.handle.trans h.handle
  cells k hk hK := (h'.cells k hk hK).trans (h.cells k hk hK)

theorem Carried.mono {K' : Watched} (h : Carried K g a w c i w' c' i')
    (hK : ∀ k, K' a k → K a k) : Carried K' g a w c i w' c' i' :=
  ⟨h.before, h.after, h.handle, fun k hk hk' => h.cells k hk (hK k hk')⟩

theorem Carried.watch (h : Carried everyColumn g a w c i w' c' i') :
    Carried K g a w c i w' c' i' :=
  h.mono fun _ _ => trivial

/-- A change of the store that keeps the chunk and its archetype. -/
theorem Carried.of_store {st : Store} (h : w.archetypeOf c = some (g, a))
    (htype : st.type c = w.store.type c) (hct : st.ct c = w.store.ct c)
    (harch : st.archetype g = some a) : Carried everyColumn g a w c i { w with store := st } c i where
  before := h
  after := archetypeOf_eq_some.mpr ⟨htype.trans (archetypeOf_eq_some.mp h).1, harch⟩
  handle := rfl
  cells _ _ _ := by rw [hct]

/-- Writes to cells of other slots. -/
theorem Carried.of_cells {b : Archetype} {s : ChunkSlice} {mm : Memory}
    (h : w.archetypeOf c = some (g, a)) (hl : Layout b)
    (hw : Memory.Writes s.c (b.Cells (w.store.ct s.c) s.start s.count) w.memory mm)
    (hle : s.start + s.count ≤ b.chunkCapacity (w.store.ct s.c))
    (hout : c = s.c → a = b ∧ i < b.chunkCapacity (w.store.ct s.c) ∧
      (i < s.start ∨ s.start + s.count ≤ i)) :
    Carried everyColumn g a w c i { w with memory := mm } c i where
  before := h
  after := h
  handle := entityAt_of_writes hw fun hc x hx =>
    (Nat.mul_le_mul_left _ (hout hc).2.1).trans (hx.handles_le hl)
  cells k hk _ := Memory.cell_of_writes hw fun hc y hy => by
    obtain ⟨rfl, hi, hslot⟩ := hout hc
    subst hc
    exact Archetype.Cells.not_cell hl hle hk hi hslot hy

/-- Writes to elements of other slots, by constructors that write whole headers of buffers. -/
theorem Carried.of_span {b : Archetype} {s : ChunkSlice} {mm : Memory}
    (h : w.archetypeOf c = some (g, a)) (hl : Layout b)
    (hw : Memory.Writes s.c (b.Span (w.store.ct s.c) s.start s.count) w.memory mm)
    (hle : s.start + s.count ≤ b.chunkCapacity (w.store.ct s.c))
    (hout : c = s.c → a = b ∧ i < b.chunkCapacity (w.store.ct s.c) ∧
      (i < s.start ∨ s.start + s.count ≤ i)) :
    Carried (fun _ _ => b.Roomy) g a w c i { w with memory := mm } c i where
  before := h
  after := h
  handle := entityAt_of_writes hw fun hc _ hx =>
    (Nat.mul_le_mul_left _ (hout hc).2.1).trans (hx.handles_le hl)
  cells k hk hroomy :=
    (Carried.of_cells h hl (hw.mono fun _ hx => hroomy.cells hx) hle hout).cells k hk trivial

/-- Copied handles are in front of all cells. -/
theorem cell_copyHandles {b : Archetype} {ct : AllocType} (hl : Layout b) {dst src : ChunkId}
    {slot srcSlot n k : Nat} (hk : k < b.firstTag) (hle : c = dst → slot + n ≤ b.chunkCapacity ct) :
    (w.copyHandles dst slot src srcSlot n).memory.cell c b ct k i = w.memory.cell c b ct k i := by
  have hw : Memory.Writes dst (fun x => x < sizeofEntity * (slot + n)) w.memory
      (w.copyHandles dst slot src srcSlot n).memory := by
    apply Memory.Writes.setData
    apply Mem.SameOff.copy
    intro x _ hx
    rwa [Nat.mul_add]
  apply Memory.cell_of_writes hw
  intro hc y _ hlt
  have hhandles := hl.handles_le ct k hk
  have hmul := Nat.mul_le_mul_left sizeofEntity (hle hc)
  simp only [Archetype.address] at hlt
  omega

/-- Handles copied to other slots. -/
theorem Carried.of_copyHandles (h : w.archetypeOf c = some (g, a)) (hl : Layout a)
    (dst src : ChunkId) (slot srcSlot n : Nat)
    (hle : c = dst → slot + n ≤ a.chunkCapacity (w.store.ct c))
    (hout : ¬ Slots.of { c := dst, start := slot, count := n } c i) :
    Carried everyColumn g a w c i (w.copyHandles dst slot src srcSlot n) c i where
  before := h
  after := h
  handle := by
    rw [entityAt_copyHandles]
    exact if_neg hout
  cells k hk _ := cell_copyHandles hl hk hle

/-! ## `free_slice` -/

/-- How many entities of the tail of a chunk take the place of a freed slice, and from
which slot on they are. -/
def tailCount (w : World) (s : ChunkSlice) : Nat :=
  min s.count (w.store.count s.c - s.start - s.count)

def tailStart (w : World) (s : ChunkSlice) : Nat := w.store.count s.c - w.tailCount s

/-- The slots they move to. -/
abbrev filled (w : World) (s : ChunkSlice) : ChunkSlice :=
  { c := s.c, start := s.start, count := w.tailCount s }

/-- What `free_slice` does to the slots outside the slice. -/
structure Freed (w : World) (s : ChunkSlice) (g : ArchetypeId) (a : Archetype) (w' : World) :
    Prop where
  occupied : ∀ d j, w'.store.Occupied d j ↔
    w.store.Occupied d j ∧ (d = s.c → j < w.store.count s.c - s.count)
  stays : ∀ d j h b, w.archetypeOf d = some (h, b) → w'.store.Occupied d j →
    ¬ Slots.of (w.filled s) d j → Carried everyColumn h b w d j w' d j
  moves : ∀ j < w.tailCount s, w'.store.Occupied s.c (s.start + j) ∧
    w'.archetypeOf s.c = some (g, a) ∧
    w'.memory.entityAt s.c (s.start + j) = w.memory.entityAt s.c (w.tailStart s + j) ∧
    ∀ k < a.firstTag, w'.memory.cell s.c a (w'.store.ct s.c) k (s.start + j) =
      w.memory.cell s.c a (w.store.ct s.c) k (w.tailStart s % 2 ^ 16 + j)

theorem moveTail_memory {s : ChunkSlice} (hle : s.start + s.count ≤ w.store.count s.c)
    (hlt : w.store.count s.c < 2 ^ 32) (hpos : 0 < w.tailCount s) :
    (w.moveTail a s).memory =
      ({ w with
        memory := w.memory.moveWithin a (w.store.ct s.c) (w.filled s) (w.tailStart s) }.copyHandles
          s.c s.start s.c (w.tailStart s) (w.tailCount s)).memory := by
  have hrest : sub32 (sub32 (w.store.count s.c) s.start) s.count =
      w.store.count s.c - s.start - s.count := by
    rw [sub32_of_le (a := w.store.count s.c) (b := s.start) (by omega) (by omega),
      sub32_of_le (by omega) (by omega)]
  unfold tailCount at hpos
  simp only [moveTail, hrest, if_pos hpos]
  rfl

theorem moveTail_eq {s : ChunkSlice} (hle : s.start + s.count ≤ w.store.count s.c)
    (hlt : w.store.count s.c < 2 ^ 32) (hzero : w.tailCount s = 0) : w.moveTail a s = w := by
  have hrest : sub32 (sub32 (w.store.count s.c) s.start) s.count =
      w.store.count s.c - s.start - s.count := by
    rw [sub32_of_le (a := w.store.count s.c) (b := s.start) (by omega) (by omega),
      sub32_of_le (by omega) (by omega)]
  unfold tailCount at hzero
  simp only [moveTail, hrest]
  rw [if_neg (by omega)]

/-- The chunks that are left keep their archetype and bin. -/
theorem kept_of_resize {st st' : Store} {n : Nat} (halive : ∀ d h, st'.type d = some h →
      ∃ b, st'.archetype h = some b)
    (hres : n = 0 ∧ Store.Removed st st' g c ∨ n ≠ 0 ∧ Store.Resized st st' c n)
    {d : ChunkId} (hd : st'.type d ≠ none) :
    st'.ct d = st.ct d ∧ ∃ h b, st.type d = some h ∧ st'.type d = some h ∧
      st.archetype h = some b ∧ st'.archetype h = some b := by
  obtain ⟨h, hh⟩ := Option.ne_none_iff_exists'.mp hd
  obtain ⟨b, hb⟩ := halive d h hh
  rcases hres with ⟨-, hrem⟩ | ⟨-, hre⟩
  · refine ⟨congrFun hrem.ct d, h, b, ?_, hh, hrem.alive hb, hb⟩
    rw [hrem.type, Function.update_apply] at hh
    split_ifs at hh
    exact hh
  · exact ⟨congrFun hre.ct d, h, b, hre.type ▸ hh, hh, hre.archetype ▸ hb, hb⟩

/-- `free_slice`. -/
theorem Freed.of_freeSlice {s : ChunkSlice} (hl : w.store.Listed ctx) (hpos : 0 < s.count)
    (hle : s.start + s.count ≤ w.store.count s.c) (hs : w.freeSlice s = some w') :
    ∃ g a, w.archetypeOf s.c = some (g, a) ∧ Freed w s g a w' := by
  have hl' := listed_freeSlice hl hpos (by omega) hs
  obtain ⟨g, a, st₁, w₂, st, hc, ha, hst₁, hw₂, hres, rfl⟩ := freeSlice_spec hs
  refine ⟨g, a, archetypeOf_eq_some.mpr ⟨hc, ha⟩, ?_⟩
  have hshape : Store.SameShape w.store st₁ := hst₁ ▸
    (Store.structuralChange_shape w.store g a s.c).trans (Store.subSize_shape _ g s.count)
  have hwf₁ : st₁.Wf ctx := hl.toWf.congr hshape
  have hc₁ : st₁.type s.c = some g := hshape.type ▸ hc
  have ha₁ : st₁.archetype g = some a := hshape.archetype ▸ ha
  have hcount : st₁.count = w.store.count := hshape.count
  have hct : st₁.ct = w.store.ct := hshape.ct
  have hcap := hwf₁.count_le s.c g a hc₁ ha₁
  have hlt := hwf₁.capacity_lt ha₁ (st₁.ct s.c)
  have hlayout : Layout a := constructArchetype_layout (hwf₁.built g a ha₁).2
  rw [hcount] at hcap
  rw [hcount, sub32_of_le (by omega) (by omega)] at hres
  have hcase := (hwf₁.resizeChunk hc₁ ha₁ (by omega) (fun _ hfull => by omega) hres).2
  have hocc : ∀ d j, st.Occupied d j ↔
      w.store.Occupied d j ∧ (d = s.c → j < w.store.count s.c - s.count) := by
    intro d j
    rw [occupied_of_resize hc₁ hcase]
    split_ifs with hd
    · subst hd
      simp only [Store.Occupied, hc, forall_true_left, ne_eq, reduceCtorEq, not_false_eq_true,
        true_and]
      omega
    · rw [occupied_congr hshape.type hshape.count]
      simp only [hd, false_implies, and_true]
  have htail : tailCount { w with store := st₁ } s = w.tailCount s := by
    simp only [tailCount, hcount]
  have hstart : tailStart { w with store := st₁ } s = w.tailStart s := by
    simp only [tailStart, hcount, htail]
  have hmle : w.tailCount s ≤ s.count ∧
      w.tailCount s ≤ w.store.count s.c - s.start - s.count := by
    unfold tailCount
    omega
  have hnm : w.tailStart s + w.tailCount s = w.store.count s.c := by
    unfold tailStart
    omega
  -- the two copies of the tail
  have hcells := Memory.moveWithin_cells w.memory a (st₁.ct s.c) (w.filled s) (w.tailStart s)
  obtain hzero | hmpos := Nat.eq_zero_or_pos (w.tailCount s)
  · have hw : w₂ = { w with store := st₁ } := by
      rw [hw₂]
      exact moveTail_eq (by rw [hcount]; exact hle) (by rw [hcount]; omega) (htail.trans hzero)
    refine ⟨hocc, ?_, fun j hj => by omega⟩
    intro d j h b hb hj _
    obtain ⟨hb₁, hb₂⟩ := archetypeOf_eq_some.mp hb
    obtain ⟨hctd, h', b', h₁, h₂, h₃, h₄⟩ := kept_of_resize (fun d h => hl'.alive d h) hcase hj.1
    rw [hshape.type, hb₁, Option.some.injEq] at h₁
    subst h₁
    rw [hshape.archetype, hb₂, Option.some.injEq] at h₃
    subst h₃
    rw [hw]
    exact Carried.of_store hb (h₂.trans hb₁.symm) (hctd.trans (congrFun hct d)) h₄
  · have hmem : w₂.memory = ({ w with
        store := st₁
        memory := w.memory.moveWithin a (st₁.ct s.c) (w.filled s) (w.tailStart s) }.copyHandles
          s.c s.start s.c (w.tailStart s) (w.tailCount s)).memory := by
      rw [hw₂, moveTail_memory (by rw [hcount]; exact hle) (by rw [hcount]; omega)
        (by rw [htail]; exact hmpos), htail, hstart]
      rw [show filled { w with store := st₁ } s = w.filled s by simp only [filled, htail]]
    have hlast : w.tailStart s < a.chunkCapacity (st₁.ct s.c) := by omega
    refine ⟨hocc, ?_, ?_⟩
    · intro d j h b hb hj hout
      obtain ⟨hb₁, hb₂⟩ := archetypeOf_eq_some.mp hb
      obtain ⟨hctd, h', b', h₁, h₂, h₃, h₄⟩ := kept_of_resize (fun d h => hl'.alive d h) hcase hj.1
      rw [hshape.type, hb₁, Option.some.injEq] at h₁
      subst h₁
      rw [hshape.archetype, hb₂, Option.some.injEq] at h₃
      subst h₃
      have hlb : Layout b := constructArchetype_layout (hl.built h b hb₂).2
      have hsame : d = s.c → b = a := by
        rintro rfl
        rw [hc, Option.some.injEq] at hb₁
        subst hb₁
        rw [ha, Option.some.injEq] at hb₂
        exact hb₂.symm
      have hstore : Carried everyColumn h b w d j { w with store := st₁ } d j :=
        Carried.of_store hb (congrFun hshape.type d) (congrFun hct d) (hshape.archetype ▸ hb₂)
      have hwithin := Carried.of_cells (i := j) (s := w.filled s) hstore.after hlayout hcells
        (by dsimp only; omega) fun hd => by
          subst hd
          have hjlt := ((hocc s.c j).mp hj).1.2
          have hout' : ¬ (s.start ≤ j ∧ j < s.start + w.tailCount s) := fun hin => hout ⟨rfl, hin⟩
          exact ⟨hsame rfl, by dsimp only; omega, by dsimp only; omega⟩
      have hcopied := Carried.of_copyHandles hwithin.after hlb s.c s.c s.start (w.tailStart s)
        (w.tailCount s) (fun hd => by
          subst hd
          rw [hsame rfl]
          dsimp only
          omega) hout
      have hall := (hstore.trans hwithin).trans hcopied
      exact
        { before := hb
          after := archetypeOf_eq_some.mpr ⟨h₂, h₄⟩
          handle := by
            change w₂.memory.entityAt d j = _
            rw [hmem]
            exact hall.handle
          cells := fun k hk hK => by
            change w₂.memory.cell d b (st.ct d) k j = _
            rw [hmem, hctd]
            exact hall.cells k hk hK }
    · intro j hj
      have hjocc : st.Occupied s.c (s.start + j) := by
        rw [hocc]
        refine ⟨⟨?_, by omega⟩, fun _ => by omega⟩
        rw [hc]
        exact Option.some_ne_none g
      obtain ⟨hctd, h', b', h₁, h₂, h₃, h₄⟩ :=
        kept_of_resize (fun d h => hl'.alive d h) hcase hjocc.1
      rw [hc₁, Option.some.injEq] at h₁
      subst h₁
      rw [ha₁, Option.some.injEq] at h₃
      subst h₃
      refine ⟨hjocc, archetypeOf_eq_some.mpr ⟨h₂, h₄⟩, ?_, ?_⟩
      · change w₂.memory.entityAt s.c (s.start + j) = _
        rw [hmem, entityAt_copyHandles, if_pos ⟨rfl, by omega, by omega⟩, Nat.add_sub_cancel_left]
        exact entityAt_of_writes hcells fun _ x hx =>
          (Nat.mul_le_mul_left _ (show w.tailStart s + j + 1 ≤ a.chunkCapacity (st₁.ct s.c) by
            omega)).trans (hx.handles_le hlayout)
      · intro k hk
        change w₂.memory.cell s.c a (st.ct s.c) k (s.start + j) = _
        rw [hmem, hctd, cell_copyHandles hlayout hk fun _ => by omega, ← hct]
        exact Memory.cell_moveWithin hlayout (w.filled s) (by dsimp only; omega)
          (by
            have := Nat.mod_le (w.tailStart s) (2 ^ 16)
            dsimp only
            omega) hk hj

/-- The tail that fills the hole is read where it is: below slot 2^16, or from cells that
hold the same bytes. -/
def TailFits (K : Watched) (w : World) (s : ChunkSlice) : Prop :=
  ∀ g a, w.archetypeOf s.c = some (g, a) → ∀ j < w.tailCount s, ∀ k < a.firstTag, K a k →
    w.memory.cell s.c a (w.store.ct s.c) k (w.tailStart s % 2 ^ 16 + j) =
      w.memory.cell s.c a (w.store.ct s.c) k (w.tailStart s + j)

/-- An entity of `w` is still in `w'`, with all its data. -/
def Kept (K : Watched) (g : ArchetypeId) (a : Archetype) (w : World) (c : ChunkId) (i : Nat)
    (w' : World) : Prop :=
  ∃ c' i', w'.store.Occupied c' i' ∧ Carried K g a w c i w' c' i'

theorem Kept.mono {K' : Watched} (h : Kept K g a w c i w') (hK : ∀ k, K' a k → K a k) :
    Kept K' g a w c i w' := by
  obtain ⟨c', i', hocc, hcar⟩ := h
  exact ⟨c', i', hocc, hcar.mono hK⟩

theorem Carried.kept (h : Carried K g a w c i w' c' i') (h' : Kept K g a w' c' i' w'') :
    Kept K g a w c i w'' := by
  obtain ⟨c₂, i₂, hocc, hc⟩ := h'
  exact ⟨c₂, i₂, hocc, h.trans hc⟩

/-- The entities outside a freed slice keep their data. -/
theorem Freed.kept {s : ChunkSlice} {srcG : ArchetypeId} {srcA : Archetype}
    (h : Freed w s srcG srcA w') (harch : w.archetypeOf s.c = some (srcG, srcA))
    (hfit : TailFits K w s) (hle : s.start + s.count ≤ w.store.count s.c)
    (hc : w.archetypeOf c = some (g, a)) (hi : w.store.Occupied c i) (hout : ¬ Slots.of s c i) :
    Kept K g a w c i w' := by
  have hm : w.tailCount s ≤ s.count ∧ w.tailCount s ≤ w.store.count s.c - s.start - s.count ∧
      (w.tailCount s = s.count ∨ w.tailCount s = w.store.count s.c - s.start - s.count) := by
    unfold tailCount
    omega
  have hnm : w.tailStart s + w.tailCount s = w.store.count s.c := by
    unfold tailStart
    omega
  by_cases htail : c = s.c ∧ w.tailStart s ≤ i
  · obtain ⟨rfl, hge⟩ := htail
    rw [harch, Option.some.injEq, Prod.mk.injEq] at hc
    obtain ⟨rfl, rfl⟩ := hc
    have hlt := hi.2
    obtain ⟨hocc, harch', hhandle, hcells⟩ := h.moves (i - w.tailStart s) (by omega)
    have hback : w.tailStart s + (i - w.tailStart s) = i := by omega
    refine ⟨s.c, _, hocc, harch, harch', ?_, fun k hk hK => ?_⟩
    · rw [hhandle, hback]
    · rw [hcells k hk, hfit _ _ harch _ (by omega) k hk hK, hback]
  · have hslot : c = s.c → i < w.store.count s.c - s.count ∧
        (i < s.start ∨ s.start + s.count ≤ i) := by
      rintro rfl
      have hlt := hi.2
      have hout' : ¬ (s.start ≤ i ∧ i < s.start + s.count) := fun hin => hout ⟨rfl, hin⟩
      have hbefore : ¬ w.tailStart s ≤ i := fun hge => htail ⟨rfl, hge⟩
      omega
    refine ⟨c, i, (h.occupied c i).mpr ⟨hi, fun hcs => (hslot hcs).1⟩, ?_⟩
    apply Carried.watch
    apply h.stays c i g a hc ((h.occupied c i).mpr ⟨hi, fun hcs => (hslot hcs).1⟩)
    rintro ⟨hcs, hlo, hhi⟩
    have := (hslot hcs).2
    dsimp only at hlo hhi
    omega

/-! ## `cast_slice` -/

/-- The pieces in which `allocate_slice` hands out `n` slots for the entities from the
`k`-th on: `t` is for those from the `p`-th on. -/
inductive Cut (g : ArchetypeId) : Store → Nat → Nat → Nat → ChunkSlice → Prop
  | now {st st' : Store} {ents : Entities} {n k : Nat} {s : ChunkSlice} (hn : 0 < n)
      (hs : st.allocateSlice ents g n = some (st', s)) : Cut g st n k k s
  | later {st st' : Store} {ents : Entities} {n k p : Nat} {s t : ChunkSlice} (hn : 0 < n)
      (hs : st.allocateSlice ents g n = some (st', s))
      (ht : Cut g st' (n - s.count) (k + s.count) p t) : Cut g st n k p t

/-- The store `cast_slice` begins its loop with. -/
def castStart (w : World) (g : ArchetypeId) (a : Archetype) (src : ChunkSlice) : World :=
  { w with store := (w.store.structuralChange g a src.c).subSize g src.count }

/-- The `j`-th entity of a cast slice is in slot `i` of chunk `d`: its handle, and, where
buffers have room for their header, for every column that is moved the bytes at the 16-bit
index of its piece. -/
structure Arrived (ctx : Context) (w : World) (src : ChunkSlice) (srcA : Archetype)
    (g : ArchetypeId) (a : Archetype) (j p : Nat) (w' : World) (d : ChunkId) (i : Nat) : Prop where
  after : w'.archetypeOf d = some (g, a)
  handle : w'.memory.entityAt d i = w.memory.entityAt src.c (src.start + j)
  cells : a.Roomy → ∀ l k, Memory.Meets ctx srcA a l k →
    (a.index ctx.maskId ≠ invalidIndex → k ≠ a.index ctx.maskId) →
    w'.memory.cell d a (w'.store.ct d) k i =
      w.memory.cell src.c srcA (w.store.ct src.c) l ((src.start + p) % 2 ^ 16 + (j - p))

theorem Arrived.trans {src : ChunkSlice} {srcA : Archetype} {j p : Nat}
    (hl : Layout srcA) (hla : Layout a) (h : Arrived ctx w src srcA g a j p w' c' i')
    (h' : Carried (fun _ _ => a.Roomy) g a w' c' i' w'' c'' i'') :
    Arrived ctx w src srcA g a j p w'' c'' i'' where
  after := h'.after
  handle := h'.handle.trans h.handle
  cells hroomy l k hmeet hk :=
    (h'.cells k (hmeet.spec hl hla).2.1 hroomy).trans (h.cells hroomy l k hmeet hk)

section CastTurn

variable {st : Store} {s src : ChunkSlice} {n srcIndex : Nat} {mm : Memory}

/-- The slots of a new slice are none of those in use. -/
theorem not_of_allocated (hall : Store.Allocated w.store st g a s n) (hi : w.store.Occupied c i) :
    ¬ Slots.of s c i := by
  rintro ⟨rfl, hlo, -⟩
  exact Nat.not_lt.mpr hlo ((occupied_iff_lt_start hall i).mp hi)

/-- A turn of `cast_slice` keeps what is in the slots in use, those of the source as well. -/
theorem castTurn_keeps (src : ChunkSlice) (srcIndex : Nat) (hl : w.store.Listed ctx)
    (ha : w.store.archetype g = some a) (hall : Store.Allocated w.store st g a s n)
    (hw : Memory.Writes s.c (a.Span (st.ct s.c) s.start s.count) w.memory mm)
    {h : ArchetypeId} {b : Archetype} (hb : w.archetypeOf c = some (h, b))
    (hi : w.store.Occupied c i) :
    ({ w with store := st, memory := mm }.moveEntities s src.c srcIndex).store.Occupied c i ∧
      Carried (fun _ _ => a.Roomy) h b w c i
        ({ w with store := st, memory := mm }.moveEntities s src.c srcIndex) c i := by
  obtain ⟨hc, harch⟩ := archetypeOf_eq_some.mp hb
  have hout := not_of_allocated hall hi
  refine ⟨(occupied_of_allocated hall c i).mpr (Or.inl hi), ?_⟩
  have hstore : Carried everyColumn h b w c i { w with store := st } c i :=
    Carried.of_store hb (type_of_allocated hall hi.1) (hall.ct c hi.1) (hall.archetype ▸ harch)
  have hsame : c = s.c → b = a := by
    rintro rfl
    have htype := type_of_allocated hall hi.1
    rw [hall.type, Function.update_self, hc, Option.some.injEq] at htype
    subst htype
    rw [ha, Option.some.injEq] at harch
    exact harch.symm
  have hcells := Carried.of_span (i := i) (s := s) hstore.after
    (constructArchetype_layout (hl.built g a ha).2) hw hall.le fun hcs => by
      refine ⟨hsame hcs, ?_, ?_⟩
      · have := (occupied_iff_lt_start hall i).mp (hcs ▸ hi)
        have := hall.le
        dsimp only
        omega
      · exact Or.inl ((occupied_iff_lt_start hall i).mp (hcs ▸ hi))
  have hcopied := Carried.of_copyHandles hcells.after
    (constructArchetype_layout (hl.built h b harch).2) s.c src.c s.start srcIndex s.count (fun hcs => by
      have := hall.le
      rw [hsame hcs, hcs]
      exact this) hout
  have hdone := (hstore.watch.trans hcells).trans hcopied.watch
  exact ⟨hb, hdone.after, hdone.handle, hdone.cells⟩

end CastTurn

/-- No buffer of a cast slice without a counterpart in the target points at block `d`. -/
def DropsNo (ctx : Context) (w : World) (src : ChunkSlice) (srcA : Archetype) (g : ArchetypeId)
    (a : Archetype) (d : Nat) : Prop :=
  ∀ l, .drop l ∈ Memory.bufferSteps ctx srcA a → ∀ p t, Cut g w.store src.count 0 p t →
    ∀ j < t.count, (Mem.readBuffer (w.memory.data src.c)
      (srcA.address (w.store.ct src.c) l ((src.start + p) % 2 ^ 16 + j))).d ≠ d

/-- Between two turns of the loop of `cast_slice`: every entity of the start is still in its
slot, and the first `k` of the slice are in slots of the target as well. -/
structure Moving (ctx : Context) (w₀ : World) (src : ChunkSlice) (srcG g : ArchetypeId)
    (srcA a : Archetype) (k : Nat) (w : World) : Prop where
  listed : w.store.Listed ctx
  target : w.store.archetype g = some a
  source : w.archetypeOf src.c = some (srcG, srcA)
  le : src.start + src.count ≤ w.store.count src.c
  done : k ≤ src.count
  data : w.memory.data src.c = w₀.memory.data src.c
  ct : w.store.ct src.c = w₀.store.ct src.c
  count : w.store.count src.c = w₀.store.count src.c
  heap : a.Roomy → ∀ d, DropsNo ctx w₀ src srcA g a d → w.memory.heap d = w₀.memory.heap d
  kept : ∀ c i h b, w₀.archetypeOf c = some (h, b) → w₀.store.Occupied c i →
    w.store.Occupied c i ∧ Carried (fun _ _ => a.Roomy) h b w₀ c i w c i
  cut : ∀ p t, Cut g w.store (src.count - k) k p t → Cut g w₀.store src.count 0 p t
  moved : ∀ j < k, ∃ d i p t, w.store.Occupied d i ∧ d ≠ src.c ∧ Cut g w₀.store src.count 0 p t ∧
    p ≤ j ∧ j < p + t.count ∧ Arrived ctx w₀ src srcA g a j p w d i

theorem castStart_shape (w : World) (g : ArchetypeId) (a : Archetype) (src : ChunkSlice) :
    Store.SameShape w.store (w.castStart g a src).store :=
  (Store.structuralChange_shape w.store g a src.c).trans (Store.subSize_shape _ g src.count)

theorem Moving.start {src : ChunkSlice} {srcG : ArchetypeId} {srcA : Archetype}
    (hl : w.store.Listed ctx) (hv : w.ValidSlice src) (hsrc : w.archetypeOf src.c = some (srcG, srcA))
    (ha : w.store.archetype g = some a) : Moving ctx (w.castStart srcG srcA src) src srcG g srcA a 0
      (w.castStart srcG srcA src) :=
  have hshape := w.castStart_shape srcG srcA src
  { listed := hl.congr hshape
    target := hshape.archetype ▸ ha
    source := by
      obtain ⟨hc, hsrcA⟩ := archetypeOf_eq_some.mp hsrc
      exact archetypeOf_eq_some.mpr ⟨hshape.type ▸ hc, hshape.archetype ▸ hsrcA⟩
    le := hshape.count ▸ hv.le
    done := Nat.zero_le _
    data := rfl
    ct := rfl
    count := rfl
    heap := fun _ _ _ => rfl
    kept := fun _ _ _ _ hb hi => ⟨hi, .refl hb⟩
    cut := fun _ _ => id
    moved := fun j hj => absurd hj (Nat.not_lt_zero j) }

/-- One turn of the loop of `cast_slice`. -/
theorem Moving.turn (hctx : ctx.Built) {w₀ w₁ : World} {src s : ChunkSlice} {srcG : ArchetypeId}
    {srcA : Archetype} {k : Nat} {dst side : Memory.CastSide} {mm : Memory} (hg : srcG ≠ g)
    (h : Moving ctx w₀ src srcG g srcA a k w) (hlt : k < src.count)
    (halloc : w.allocateSlice g (src.count - k) = some (w₁, s))
    (hdst : w₁.side s.c s.start = some dst) (hside : w₁.side src.c (src.start + k) = some side)
    (hcast : w₁.memory.cast ctx dst side s.count true = some mm) :
    Moving ctx w₀ src srcG g srcA a (k + s.count)
      ({ w₁ with memory := mm }.moveEntities s src.c (src.start + k)) := by
  have hm : ctx.maskId < 3 * 2 ^ 30 := by
    rw [hctx.ids.2.2.2]
    decide
  obtain ⟨hl, ha, hsrc, hle, -, hdata, hct, hcountSrc, hheap, hkept, hcut, hmoved⟩ := h
  obtain ⟨st, hst, rfl⟩ := allocateSlice_eq_some.mp halloc
  obtain ⟨g', a', htype, harch, rfl⟩ := side_eq_some.mp hdst
  have hty : st.type s.c ≠ none := by
    rw [htype]
    exact Option.some_ne_none g'
  obtain ⟨hl', hall⟩ := hl.allocateSlice ha hst hty
  rw [hall.type, Function.update_self, Option.some.injEq] at htype
  subst htype
  rw [hall.archetype, ha, Option.some.injEq] at harch
  subst harch
  obtain ⟨hc, hsrcA⟩ := archetypeOf_eq_some.mp hsrc
  have hne : s.c ≠ src.c := by
    intro hcs
    rcases hall.old with ⟨htype, -⟩ | ⟨htype, -⟩
    · rw [hcs, hc, Option.some.injEq] at htype
      exact hg htype
    · simp [hcs, hc] at htype
  have hc' : st.type src.c = some srcG := by
    rw [type_of_allocated hall (by rw [hc]; exact Option.some_ne_none srcG), hc]
  have hct' : st.ct src.c = w.store.ct src.c :=
    hall.ct src.c (by rw [hc]; exact Option.some_ne_none srcG)
  obtain ⟨g₂, a₂, hg₂, ha₂, rfl⟩ := side_eq_some.mp hside
  obtain rfl : srcG = g₂ := Option.some.inj (hc'.symm.trans hg₂)
  rw [hall.archetype] at ha₂
  obtain rfl : srcA = a₂ := Option.some.inj (hsrcA.symm.trans ha₂)
  have hlayout := constructArchetype_layout (hl.built g a ha).2
  have hwrites := Memory.cast_writes hm hlayout hcast
  have hcount := hall.count_le
  have hocc : ∀ j < src.count, w.store.Occupied src.c (src.start + j) := by
    intro j hj
    refine ⟨?_, by omega⟩
    rw [hc]
    exact Option.some_ne_none srcG
  have hkeeps : ∀ {c i h b}, w.archetypeOf c = some (h, b) → w.store.Occupied c i → _ :=
    fun hb hi => castTurn_keeps src (src.start + k) hl ha hall hwrites hb hi
  refine ⟨hl', hall.archetype ▸ ha, archetypeOf_eq_some.mpr ⟨hc', hall.archetype ▸ hsrcA⟩, ?_,
    by omega, ?_, hct'.trans hct, (count_of_allocated hall hc hg).trans hcountSrc, ?_, ?_, ?_, ?_⟩
  · exact (count_of_allocated hall hc hg).symm ▸ hle
  · rw [← hdata, ← hwrites.other src.c (Ne.symm hne)]
    exact Function.update_of_ne (Ne.symm hne) ..
  · intro hroomy d hno
    rw [← hheap hroomy d hno]
    apply Memory.heap_cast hlayout hroomy hall.le hne _ hcast
    intro l hl j hj
    have hd := hno l hl k s (hcut _ _ (.now (by omega) hst)) j hj
    dsimp only
    rw [hct', hct, hdata]
    exact hd
  · intro c i h b hb hi
    obtain ⟨hi', hcar⟩ := hkept c i h b hb hi
    obtain ⟨hi'', hcar'⟩ := hkeeps hcar.after hi'
    exact ⟨hi'', hcar.trans hcar'⟩
  · intro p t ht
    apply hcut
    apply Cut.later (by omega) hst
    rwa [show src.count - k - s.count = src.count - (k + s.count) by omega]
  · intro j hj
    obtain hold | hnew := Nat.lt_or_ge j k
    · obtain ⟨d, i, p, t, hi, hd, hpiece, hp, hpt, harr⟩ := hmoved j hold
      obtain ⟨hi', hcar⟩ := hkeeps harr.after hi
      exact ⟨d, i, p, t, hi', hd, hpiece, hp, hpt,
        harr.trans (constructArchetype_layout (hl.built _ _ hsrcA).2) hlayout hcar⟩
    · have hslot : s.start + (j - k) < a.chunkCapacity (st.ct s.c) := by
        have := hall.le
        omega
      have hafter : ({ w with store := st, memory := mm }.moveEntities s src.c
          (src.start + k)).archetypeOf s.c = some (g, a) := by
        refine archetypeOf_eq_some.mpr ⟨?_, hall.archetype ▸ ha⟩
        change st.type s.c = some g
        rw [hall.type, Function.update_self]
      have hback : src.start + k + (j - k) = src.start + j := by omega
      refine ⟨s.c, s.start + (j - k), k, s, ?_, hne, hcut _ _ (.now (by omega) hst), hnew, by omega,
        hafter, ?_, ?_⟩
      · exact (occupied_of_allocated hall _ _).mpr (Or.inr ⟨rfl, by omega, by omega⟩)
      · change (copyHandles { w with store := st, memory := mm } ..).memory.entityAt .. = _
        rw [entityAt_copyHandles, if_pos ⟨rfl, by omega, by omega⟩, Nat.add_sub_cancel_left, hback]
        simp only [Memory.entityAt, hwrites.other src.c (Ne.symm hne), hdata]
      · intro hroomy l m hmeet hmask
        change (copyHandles { w with store := st, memory := mm } ..).memory.cell s.c a (st.ct s.c) ..
          = _
        rw [cell_copyHandles hlayout (hmeet.spec (constructArchetype_layout
          (hl.built _ _ hsrcA).2) hlayout).2.1 fun _ => hall.le]
        have hcell := Memory.cell_cast hlayout hroomy hall.le hne (j := j - k) (by omega) hmeet
          (hmeet.size_eq hctx.paired (hl.built _ _ hsrcA).2 (hl.built _ _ ha).2) hmask hm hcast
        dsimp only at hcell
        rw [hcell, hct', hct]
        simp only [Memory.cell, hdata]

theorem Moving.castLoop (hctx : ctx.Built) {w₀ : World} {src : ChunkSlice}
    {srcG : ArchetypeId} {srcA : Archetype} {fuel : Nat} {ss : List ChunkSlice}
    (hg : srcG ≠ g) (h : Moving ctx w₀ src srcG g srcA a 0 w)
    (hs : World.castLoop ctx src g fuel 0 w = some (w', ss)) :
    Moving ctx w₀ src srcG g srcA a src.count w' := by
  suffices hinv : ∃ k, src.count ≤ k ∧ Moving ctx w₀ src srcG g srcA a k w' by
    obtain ⟨k, hk, h'⟩ := hinv
    exact Nat.le_antisymm h'.done hk ▸ h'
  exact castLoop_invariant (fun w w₁ k s dst side mm hv hlt halloc hdst hside hcast =>
    hv.turn hctx hg hlt halloc hdst hside hcast) h hs

theorem heap_freeSlice {s : ChunkSlice} (hs : w.freeSlice s = some w') :
    w'.memory.heap = w.memory.heap := by
  obtain ⟨g, a, st₁, w₂, st, -, -, -, rfl, -, rfl⟩ := freeSlice_spec hs
  simp only [moveTail]
  split_ifs <;> rfl

/-- `cast_slice`: what is outside the slice stays, or moves with the tail, and the entities
of the slice are in chunks of the target. -/
theorem castSlice_carries (hctx : ctx.Built) {src : ChunkSlice} {srcG : ArchetypeId}
    {srcA : Archetype} {fuel : Nat} {ss : List ChunkSlice} (hl : w.store.Listed ctx)
    (hv : w.ValidSlice src) (hsrc : w.archetypeOf src.c = some (srcG, srcA))
    (ha : w.store.archetype g = some a) (hg : srcG ≠ g) (hfit : TailFits K w src)
    (hs : World.castSlice ctx fuel w src g = some (w', ss)) :
    (∀ c i h b, w.archetypeOf c = some (h, b) → w.store.Occupied c i → ¬ Slots.of src c i →
      Kept (fun b k => a.Roomy ∧ K b k) h b w c i w') ∧
    (a.Roomy → ∀ d, DropsNo ctx (w.castStart srcG srcA src) src srcA g a d →
      w'.memory.heap d = w.memory.heap d) ∧
    ∀ j < src.count, ∃ d i p t, w'.store.Occupied d i ∧
      Cut g (w.castStart srcG srcA src).store src.count 0 p t ∧ p ≤ j ∧ j < p + t.count ∧
      Arrived ctx w src srcA g a j p w' d i := by
  obtain ⟨srcG', srcA', w₁, hc, hsrcA, hloop, hfree⟩ := castSlice_spec hs
  obtain ⟨hc', hsrcA'⟩ := archetypeOf_eq_some.mp hsrc
  obtain rfl : srcG = srcG' := Option.some.inj (hc'.symm.trans hc)
  obtain rfl : srcA = srcA' := Option.some.inj (hsrcA'.symm.trans hsrcA)
  have hshape := w.castStart_shape srcG srcA src
  have harch₀ : ∀ {c h b}, w.archetypeOf c = some (h, b) →
      (w.castStart srcG srcA src).archetypeOf c = some (h, b) := by
    intro c h b hb
    obtain ⟨hb₁, hb₂⟩ := archetypeOf_eq_some.mp hb
    exact archetypeOf_eq_some.mpr ⟨hshape.type ▸ hb₁, hshape.archetype ▸ hb₂⟩
  have hstart := Moving.start hl hv hsrc ha
  have hend := hstart.castLoop hctx hg hloop
  obtain ⟨g₁, a₁, harch₁, hfreed⟩ := Freed.of_freeSlice hend.listed hv.pos hend.le hfree
  obtain ⟨rfl, rfl⟩ := Prod.mk.inj (Option.some.inj (hend.source.symm.trans harch₁))
  have hcount : w₁.store.count src.c = w.store.count src.c :=
    hend.count.trans (congrFun hshape.count src.c)
  have hct : w₁.store.ct src.c = w.store.ct src.c := hend.ct.trans (congrFun hshape.ct src.c)
  have hfit₁ : TailFits K w₁ src := by
    intro g' a' harch' j hj k hk hK
    obtain ⟨rfl, rfl⟩ := Prod.mk.inj (Option.some.inj (hend.source.symm.trans harch'))
    have hsame : w₁.memory.data src.c = w.memory.data src.c := hend.data
    have htail : w₁.tailCount src = w.tailCount src := by simp only [tailCount, hcount]
    have hstart : w₁.tailStart src = w.tailStart src := by simp only [tailStart, hcount, htail]
    have hold := hfit srcG srcA hsrc j (htail ▸ hj) k hk hK
    simp only [Memory.cell] at hold ⊢
    rw [hstart, hct, hsame]
    exact hold
  refine ⟨?_, fun hroomy d hno => ?_, ?_⟩
  · intro c i h b hb hi hout
    obtain ⟨hi₁, hcar⟩ := hend.kept c i h b (harch₀ hb)
      ((occupied_congr hshape.type hshape.count c i).mpr hi)
    have hcar' : Carried (fun _ _ => a.Roomy) h b w c i w₁ c i :=
      (Carried.of_store hb (congrFun hshape.type c) (congrFun hshape.ct c)
        (hshape.archetype ▸ (archetypeOf_eq_some.mp hb).2)).watch.trans hcar
    have hkept := hfreed.kept harch₁ hfit₁ hend.le hcar.after hi₁ hout
    exact (hcar'.mono fun _ hk => hk.1).kept (hkept.mono fun _ hk => hk.2)
  · rw [heap_freeSlice hfree]
    exact hend.heap hroomy d hno
  · intro j hj
    obtain ⟨d, i, p, t, hi, hd, hcut, hp, hpt, harr⟩ := hend.moved j hj
    have hi' := (hfreed.occupied d i).mpr ⟨hi, fun hds => absurd hds hd⟩
    have harr' := harr.trans (constructArchetype_layout (hl.built _ _ hsrcA).2)
      (constructArchetype_layout (hl.built _ _ ha).2)
      (hfreed.stays d i g a harr.after hi' fun hin => hd hin.1).watch
    refine ⟨d, i, p, t, hi', hcut, hp, hpt, harr'.after, harr'.handle, ?_⟩
    intro hroomy l k hmeet hk
    rw [harr'.cells hroomy l k hmeet hk, hshape.ct]
    rfl

end World

end Dots

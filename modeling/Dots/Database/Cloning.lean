import Dots.Database.Codec
import Dots.Database.Copy

/-!
# `chunk::clone`

The bytes of a chunk are copied at once; then the copy functions of the managed columns run, and
the buffers get blocks of their own. Both loops start one element behind their column, and the
blocks go to the buffers of the chunk that was cloned.
-/

namespace Dots

open Library

namespace Memory

variable {ctx : Context} {mm mm₁ mm₂ mm' : Memory} {a : Archetype} {ct : AllocType}
  {c dst : ChunkId} {count i j k n : Nat} {p q : Nat × Nat}

/-! ## The calls -/

def hasCopy (ctx : Context) (a : Archetype) (i : Nat) : Bool :=
  (ctx.info (a.types.getD i 0)).vtable.copy.isSome

/-- The elements that are passed to the copy functions: the column and the slot. -/
def copyCalls (ctx : Context) (a : Archetype) (count : Nat) : List (Nat × Nat) :=
  ((columns a.firstManaged a.firstTag).filter (hasCopy ctx a)).flatMap fun i =>
    (List.range count).map fun j => (i, j + 1)

/-- The headers that are read, and patched if they have a block. -/
def headerPlaces (a : Archetype) (count : Nat) : List (Nat × Nat) :=
  (columns a.firstBuffer a.firstManaged).flatMap fun i => (List.range count).map fun j => (i, j + 1)

/-- One call of a copy function. -/
def copyElement (ctx : Context) (a : Archetype) (ct : AllocType) (c dst : ChunkId) (mm : Memory)
    (p : Nat × Nat) : Memory :=
  match (ctx.info (a.types.getD p.1 0)).vtable.copy with
  | none => mm
  | some copy =>
      let x := a.address ct p.1 p.2
      mm.setData dst (Mem.write (mm.data dst) x ((copy (Mem.read (mm.data dst) x (a.size p.1))
        (Mem.read (mm.data c) x (a.size p.1))).take (a.size p.1)))

theorem setData_own (mm : Memory) (c : ChunkId) : mm.setData c (mm.data c) = mm := by
  simp only [setData, Function.update_eq_self]

theorem cloneManaged_eq (hne : c ≠ dst) (mm : Memory) (i : Nat) :
    cloneManaged ctx a ct c dst count mm i =
      (if hasCopy ctx a i then (List.range count).map fun j => (i, j + 1) else []).foldl
        (copyElement ctx a ct c dst) mm := by
  cases hcopy : (ctx.info (a.types.getD i 0)).vtable.copy with
  | none =>
      simp only [cloneManaged, hasCopy, hcopy, Option.isSome_none]
      rfl
  | some copy =>
      simp only [cloneManaged, hasCopy, hcopy, Option.isSome_some, if_true, List.foldl_map]
      induction count with
      | zero => exact setData_own mm dst
      | succ n ih =>
          rw [List.range_succ, List.foldl_append, List.foldl_append, ← ih]
          simp only [List.foldl_cons, List.foldl_nil, copyElement, hcopy, setData,
            Function.update_self, Function.update_of_ne hne, Function.update_idem]

/-- `chunk::clone` is a copy of the bytes and the calls. -/
theorem clone_eq (hne : c ≠ dst) (mm : Memory) : mm.clone ctx a ct c dst count =
    (headerPlaces a count).foldlM (fun mm p => mm.cloneBuffer c (a.address ct p.1 p.2))
      ((copyCalls ctx a count).foldl (copyElement ctx a ct c dst) (mm.setData dst (mm.data c))) := by
  have hmanaged : ∀ (l : List Nat) (mm : Memory),
      l.foldl (cloneManaged ctx a ct c dst count) mm =
        ((l.filter (hasCopy ctx a)).flatMap fun i => (List.range count).map fun j => (i, j + 1)).foldl
          (copyElement ctx a ct c dst) mm := by
    intro l
    induction l with
    | nil => exact fun _ => rfl
    | cons i l ih =>
        intro mm
        rw [List.foldl_cons, cloneManaged_eq hne, ih, List.filter_cons]
        split_ifs with hcopy
        · rw [List.flatMap_cons, List.foldl_append]
        · rfl
  simp only [clone, hmanaged, headerPlaces, copyCalls, foldlM_flatMap, List.foldlM_map]

theorem mem_copyCalls : p ∈ copyCalls ctx a count ↔ ((a.firstManaged ≤ p.1 ∧ p.1 < a.firstTag) ∧
    hasCopy ctx a p.1 = true) ∧ 0 < p.2 ∧ p.2 ≤ count := by
  obtain ⟨k, l⟩ := p
  simp only [copyCalls, List.mem_flatMap, List.mem_filter, mem_columns, List.mem_map,
    List.mem_range, Prod.mk.injEq]
  constructor
  · rintro ⟨i, hi, j, hj, rfl, rfl⟩
    exact ⟨hi, Nat.succ_pos j, hj⟩
  · rintro ⟨hk, hpos, hle⟩
    exact ⟨k, hk, l - 1, by omega, rfl, by omega⟩

theorem mem_headerPlaces : p ∈ headerPlaces a count ↔
    (a.firstBuffer ≤ p.1 ∧ p.1 < a.firstManaged) ∧ 0 < p.2 ∧ p.2 ≤ count := by
  obtain ⟨k, l⟩ := p
  simp only [headerPlaces, List.mem_flatMap, mem_columns, List.mem_map, List.mem_range,
    Prod.mk.injEq]
  constructor
  · rintro ⟨i, hi, j, hj, rfl, rfl⟩
    exact ⟨hi, Nat.succ_pos j, hj⟩
  · rintro ⟨hk, hpos, hle⟩
    exact ⟨k, hk, l - 1, by omega, rfl, by omega⟩

/-! ## One header -/

/-- The block of the header of an element. -/
def headerBlock (mm : Memory) (c : ChunkId) (a : Archetype) (ct : AllocType) (p : Nat × Nat) :
    Nat :=
  (Mem.readBuffer (mm.data c) (a.address ct p.1 p.2)).d

/-- Null, or a block that is there once `n` more were handed out. -/
def Alive (mm : Memory) (n d : Nat) : Prop :=
  d = 0 ∨ mm.heap d ≠ none ∨ mm.freshBlock ≤ d ∧ d < mm.freshBlock + n

/-- Places of buffers inside their columns. -/
def InColumns (a : Archetype) (ct : AllocType) (l : List (Nat × Nat)) : Prop :=
  ∀ p ∈ l, (a.firstBuffer ≤ p.1 ∧ p.1 < a.firstManaged) ∧ p.2 < a.chunkCapacity ct

/-- How many of the headers have a block. -/
def blocksIn (mm : Memory) (c : ChunkId) (a : Archetype) (ct : AllocType) (l : List (Nat × Nat)) :
    Nat :=
  l.countP fun p => mm.headerBlock c a ct p ≠ 0

/-- Between two headers: those of `done` have blocks of their own. -/
structure Patched (a : Archetype) (ct : AllocType) (c : ChunkId) (mm : Memory)
    (done : List (Nat × Nat)) (mm' : Memory) : Prop where
  freshBlock : mm'.freshBlock = mm.freshBlock + mm.blocksIn c a ct done
  heap : ∀ e < mm.freshBlock, mm'.heap e = mm.heap e
  made : ∀ e, mm.freshBlock ≤ e → e < mm'.freshBlock → mm'.heap e ≠ none
  beyond : ∀ e, mm'.freshBlock ≤ e → mm'.heap e = none
  writes : Writes c (fun x => ∃ p ∈ done, a.address ct p.1 p.2 ≤ x ∧
    x < a.address ct p.1 p.2 + 8) mm mm'
  cloned : ∀ p ∈ done, Cloned mm.freshBlock mm c (a.address ct p.1 p.2) mm' c
    (a.address ct p.1 p.2) (a.size p.1)
  own : ∀ p ∈ done, ∀ q ∈ done, mm'.headerBlock c a ct p ≠ 0 →
    mm'.headerBlock c a ct p = mm'.headerBlock c a ct q → p = q

/-- The elements of different slots or columns do not overlap. -/
theorem element_off (hl : Layout a) (hp : p.1 < a.firstTag ∧ p.2 < a.chunkCapacity ct)
    (hq : q.1 < a.firstTag ∧ q.2 < a.chunkCapacity ct) (hne : p ≠ q) {y : Nat}
    (hy : y < a.size p.1) : ¬ (a.address ct q.1 q.2 ≤ a.address ct p.1 p.2 + y ∧
      a.address ct p.1 p.2 + y < a.address ct q.1 q.2 + a.size q.1) := by
  have hplace := place_apart (s := { c := 0, start := 0, count := a.chunkCapacity ct }) hl
    (Nat.zero_add _).le hp hq hne hy
  simpa only [placeAt, Nat.zero_add] using hplace

theorem Patched.zero (hm : mm.Mallocs) : Patched a ct c mm [] mm where
  freshBlock := rfl
  heap _ _ := rfl
  made _ hlo hhi := absurd hhi hlo.not_gt
  beyond := hm.fresh
  writes := .refl _ _ _
  cloned _ hp := absurd hp List.not_mem_nil
  own _ hp := absurd hp List.not_mem_nil

/-- The bytes of an element that was not patched. -/
theorem Patched.same {done : List (Nat × Nat)} (h : Patched a ct c mm done mm') (hl : Layout a)
    (hroomy : a.Roomy) (hdone : InColumns a ct done)
    (hp : p.1 < a.firstTag ∧ p.2 < a.chunkCapacity ct) (hnot : p ∉ done) {y : Nat}
    (hy : y < a.size p.1) : mm'.data c (a.address ct p.1 p.2 + y) =
      mm.data c (a.address ct p.1 p.2 + y) := by
  have hbuf : sizeofBuffer = 16 := rfl
  refine h.writes.same _ ?_
  rintro ⟨q, hq, hlo, hhi⟩
  obtain ⟨⟨hk, hk'⟩, hj⟩ := hdone q hq
  have hroom := hroomy q.1 hk hk'
  exact element_off hl hp ⟨hk'.trans_le hl.managed_le, hj⟩ (fun h => hnot (h ▸ hq)) hy
    ⟨hlo, by omega⟩

/-- The next header is as it was. -/
theorem Patched.header {done : List (Nat × Nat)} (h : Patched a ct c mm done mm') (hl : Layout a)
    (hroomy : a.Roomy) (hdone : InColumns a ct (done ++ [p])) (hnot : p ∉ done) :
    Mem.readBuffer (mm'.data c) (a.address ct p.1 p.2) =
      Mem.readBuffer (mm.data c) (a.address ct p.1 p.2) := by
  obtain ⟨⟨hk, hk'⟩, hj⟩ := hdone p (List.mem_append_right _ (List.mem_singleton_self p))
  refine readBuffer_congr fun y hy => h.same hl hroomy
    (fun q hq => hdone q (List.mem_append_left _ hq)) ⟨hk'.trans_le hl.managed_le, hj⟩ hnot ?_
  exact hy.trans_le (hroomy p.1 hk hk')

/-- A block is there after `done` if and only if it is one of the blocks before, or a new one. -/
theorem Patched.heap_iff {done : List (Nat × Nat)} (h : Patched a ct c mm done mm')
    (hm : mm.Mallocs) (d : Nat) :
    d = 0 ∨ mm'.heap d ≠ none ↔ mm.Alive (mm.blocksIn c a ct done) d := by
  have hfresh := h.freshBlock
  rcases Nat.lt_or_ge d mm.freshBlock with hlt | hge
  · rw [h.heap d hlt, Alive]
    refine or_congr_right ⟨Or.inl, ?_⟩
    rintro (hheap | ⟨hlo, -⟩)
    · exact hheap
    · exact absurd hlt hlo.not_gt
  · refine or_congr_right ⟨fun hheap => Or.inr ⟨hge, ?_⟩, ?_⟩
    · by_contra hhi
      exact hheap (h.beyond d (by omega))
    · rintro (hheap | ⟨hlo, hhi⟩)
      · exact absurd (hm.fresh d hge) hheap
      · exact h.made d hlo (by omega)

theorem cloneBuffer_returns {addr : Nat} : (∃ mm₁, mm.cloneBuffer c addr = some mm₁) ↔
    (Mem.readBuffer (mm.data c) addr).d = 0 ∨
      mm.heap (Mem.readBuffer (mm.data c) addr).d ≠ none := by
  by_cases hd : (Mem.readBuffer (mm.data c) addr).d = 0
  · exact iff_of_true ⟨mm, cloneBuffer_null hd⟩ (Or.inl hd)
  · rw [cloneBuffer]
    simp only [hd, false_or]
    cases hheap : mm.heap (Mem.readBuffer (mm.data c) addr).d with
    | none => simp
    | some block => simp

/-- The bytes of the next element are as they were. -/
theorem Patched.next {done : List (Nat × Nat)} (h : Patched a ct c mm done mm') (hl : Layout a)
    (hroomy : a.Roomy) (hdone : InColumns a ct (done ++ [p])) (hnot : p ∉ done) {y : Nat}
    (hy : y < a.size p.1) : mm'.data c (a.address ct p.1 p.2 + y) =
      mm.data c (a.address ct p.1 p.2 + y) := by
  obtain ⟨⟨-, hk⟩, hj⟩ := hdone p (List.mem_append_right _ (List.mem_singleton_self p))
  exact h.same hl hroomy (fun q hq => hdone q (List.mem_append_left _ hq))
    ⟨hk.trans_le hl.managed_le, hj⟩ hnot hy

/-- A header without a block stays. -/
theorem Patched.turn_null {done : List (Nat × Nat)} (h : Patched a ct c mm done mm')
    (hl : Layout a) (hroomy : a.Roomy) (hdone : InColumns a ct (done ++ [p])) (hnot : p ∉ done)
    (hd : mm.headerBlock c a ct p = 0) : Patched a ct c mm (done ++ [p]) mm' := by
  have hcount : mm.blocksIn c a ct (done ++ [p]) = mm.blocksIn c a ct done := by
    simp [blocksIn, List.countP_append, hd]
  have hp : mm'.headerBlock c a ct p = 0 := by
    rw [headerBlock, h.header hl hroomy hdone hnot]
    exact hd
  refine ⟨by rw [hcount, h.freshBlock], h.heap, h.made, h.beyond,
    h.writes.mono fun x ⟨q, hq, hx⟩ => ⟨q, List.mem_append_left _ hq, hx⟩, ?_, ?_⟩
  · intro q hq
    rcases List.mem_append.mp hq with hq | hq
    · exact h.cloned q hq
    · rw [List.mem_singleton.mp hq]
      exact ⟨fun y _ hy => h.next hl hroomy hdone hnot hy,
        fun _ y hy => h.next hl hroomy hdone hnot hy, fun hne => absurd hd hne⟩
  · intro q hq r hr hne heq
    rcases List.mem_append.mp hq with hq | hq
    · rcases List.mem_append.mp hr with hr | hr
      · exact h.own q hq r hr hne heq
      · rw [List.mem_singleton.mp hr, hp] at heq
        exact absurd heq hne
    · rw [List.mem_singleton.mp hq] at hne
      exact absurd hp hne

/-- A header with a block gets the next one. -/
theorem Patched.turn_block {done : List (Nat × Nat)} (h : Patched a ct c mm done mm')
    (hl : Layout a) (hroomy : a.Roomy) (hm : mm.Mallocs) (hdone : InColumns a ct (done ++ [p]))
    (hnot : p ∉ done) (hspace : mm'.freshBlock < 2 ^ 64) (hd : mm.headerBlock c a ct p ≠ 0)
    (hs : mm'.cloneBuffer c (a.address ct p.1 p.2) = some mm₂) :
    Patched a ct c mm (done ++ [p]) mm₂ := by
  have hbuf : sizeofBuffer = 16 := rfl
  have hheader := h.header hl hroomy hdone hnot
  obtain ⟨⟨hk, hk'⟩, hj⟩ := hdone p (List.mem_append_right _ (List.mem_singleton_self p))
  have hslot : p.1 < a.firstTag ∧ p.2 < a.chunkCapacity ct := ⟨hk'.trans_le hl.managed_le, hj⟩
  have hroom := hroomy p.1 hk hk'
  have hcount : mm.blocksIn c a ct (done ++ [p]) = mm.blocksIn c a ct done + 1 := by
    simp [blocksIn, List.countP_append, hd]
  have hfresh := h.freshBlock
  have hpos := hm.pos
  obtain ⟨block, hblock, hdata, hheap, hfresh₂⟩ := cloneBuffer_block
    (congrArg BufferHeader.d hheader) hd hs
  have hdata₂ : mm₂.data c = Mem.writeWord (mm'.data c) (a.address ct p.1 p.2) mm'.freshBlock 8 := by
    rw [hdata, Function.update_self]
  have hheader₂ : Mem.readBuffer (mm₂.data c) (a.address ct p.1 p.2) =
      { Mem.readBuffer (mm.data c) (a.address ct p.1 p.2) with d := mm'.freshBlock } := by
    rw [hdata₂, readBuffer_writeWord _ _ hspace, hheader]
  have hwrites : Writes c (fun x => a.address ct p.1 p.2 ≤ x ∧ x < a.address ct p.1 p.2 + 8)
      mm' mm₂ := by
    refine ⟨fun e he => by rw [hdata, Function.update_of_ne he], ?_⟩
    rw [hdata₂]
    exact Mem.SameOff.writeWord _ fun x hlo hhi => ⟨hlo, hhi⟩
  have hheap₂ : ∀ e < mm'.freshBlock, mm₂.heap e = mm'.heap e := fun e he => by
    rw [hheap, Function.update_of_ne he.ne]
  have hearlier : ∀ q ∈ done, ∀ y < a.size q.1, mm₂.data c (a.address ct q.1 q.2 + y) =
      mm'.data c (a.address ct q.1 q.2 + y) := by
    intro q hq y hy
    obtain ⟨⟨-, hk⟩, hj⟩ := hdone q (List.mem_append_left _ hq)
    refine hwrites.same _ fun ⟨hlo, hhi⟩ => ?_
    exact element_off hl ⟨hk.trans_le hl.managed_le, hj⟩ hslot (fun he => hnot (he ▸ hq)) hy
      ⟨hlo, by omega⟩
  have holder : ∀ q ∈ done, mm₂.headerBlock c a ct q = mm'.headerBlock c a ct q := by
    intro q hq
    obtain ⟨⟨hk, hk'⟩, -⟩ := hdone q (List.mem_append_left _ hq)
    exact congrArg BufferHeader.d
      (readBuffer_congr fun y hy => hearlier q hq y (hy.trans_le (hroomy q.1 hk hk')))
  have hnew : mm₂.headerBlock c a ct p = mm'.freshBlock := congrArg BufferHeader.d hheader₂
  refine ⟨by rw [hfresh₂, hcount, hfresh, Nat.add_assoc], ?_, ?_, ?_, ?_, ?_, ?_⟩
  case refine_1 =>
    intro e he
    rw [hheap₂ e (by omega), h.heap e he]
  case refine_2 =>
    intro e hlo hhi
    rcases Nat.lt_or_ge e mm'.freshBlock with hlt | hge
    · rw [hheap₂ e hlt]
      exact h.made e hlo hlt
    · obtain rfl : e = mm'.freshBlock := by omega
      rw [hheap, Function.update_self]
      exact Option.some_ne_none _
  case refine_3 =>
    intro e he
    rw [hheap, Function.update_of_ne (by omega)]
    exact h.beyond e (by omega)
  case refine_4 =>
    refine (h.writes.mono fun x ⟨q, hq, hx⟩ => ⟨q, List.mem_append_left _ hq, hx⟩).trans
      (hwrites.mono fun x hx => ⟨p, List.mem_append_right _ (List.mem_singleton_self p), hx⟩)
  case refine_5 =>
    intro q hq
    rcases List.mem_append.mp hq with hq | hq
    · obtain ⟨⟨hk, hk'⟩, -⟩ := hdone q (List.mem_append_left _ hq)
      exact (h.cloned q hq).later (hroomy q.1 hk hk') (hearlier q hq) hheap₂ (by omega)
    · rw [List.mem_singleton.mp hq]
      refine ⟨fun y hlo hy => ?_, fun hnull => absurd hnull hd, fun _ => ?_⟩
      · rw [hdata₂, Mem.writeWord_of_ge _ _ (by omega), h.next hl hroomy hdone hnot hy]
      · rw [hheader₂]
        refine ⟨by simp only; omega, by simp only; omega, by simp only; omega, fun bs hbs => ?_⟩
        rw [bufferBytes_block rfl hd] at hbs
        obtain ⟨block', hblock', rfl⟩ := Option.map_eq_some_iff.mp hbs
        rw [h.heap _ (hm.lt_of_block hblock'), hblock', Option.some.injEq] at hblock
        rw [bufferBytes_block hheader₂ (by simp only; omega), hheap, Function.update_self,
          Option.map_some, hheader, read_blockCopy, hblock]
  case refine_6 =>
    -- the blocks of earlier headers were handed out before this one
    have hlt : ∀ q ∈ done, mm₂.headerBlock c a ct q ≠ 0 →
        mm₂.headerBlock c a ct q < mm'.freshBlock := by
      intro q hq hne
      obtain ⟨⟨hk, hk'⟩, -⟩ := hdone q (List.mem_append_left _ hq)
      rw [holder q hq] at hne ⊢
      exact ((h.cloned q hq).fresh (hroomy q.1 hk hk') hne).2
    intro q hq r hr hne heq
    rcases List.mem_append.mp hq with hq | hq
    · rcases List.mem_append.mp hr with hr | hr
      · rw [holder q hq] at hne heq
        rw [holder r hr] at heq
        exact h.own q hq r hr hne heq
      · rw [List.mem_singleton.mp hr, hnew] at heq
        exact absurd heq (hlt q hq hne).ne
    · rw [List.mem_singleton.mp hq, hnew] at heq
      rcases List.mem_append.mp hr with hr | hr
      · have hne' : mm₂.headerBlock c a ct r ≠ 0 := by omega
        exact absurd heq.symm (hlt r hr hne').ne
      · rw [List.mem_singleton.mp hq, List.mem_singleton.mp hr]

theorem Patched.turn {done : List (Nat × Nat)} (h : Patched a ct c mm done mm') (hl : Layout a)
    (hroomy : a.Roomy) (hm : mm.Mallocs) (hdone : InColumns a ct (done ++ [p])) (hnot : p ∉ done)
    (hspace : mm'.freshBlock < 2 ^ 64)
    (hs : mm'.cloneBuffer c (a.address ct p.1 p.2) = some mm₂) :
    Patched a ct c mm (done ++ [p]) mm₂ := by
  by_cases hd : mm.headerBlock c a ct p = 0
  · have hnull : (Mem.readBuffer (mm'.data c) (a.address ct p.1 p.2)).d = 0 := by
      rw [h.header hl hroomy hdone hnot]
      exact hd
    obtain rfl : mm' = mm₂ := Option.some.inj ((cloneBuffer_null hnull).symm.trans hs)
    exact h.turn_null hl hroomy hdone hnot hd
  · exact h.turn_block hl hroomy hm hdone hnot hspace hd hs

/-- The loop gets to its end if and only if every header has no block, or one that is there when
the loop gets to it. -/
theorem Patched.run {all done rest : List (Nat × Nat)} (hl : Layout a) (hroomy : a.Roomy)
    (hm : mm.Mallocs) (hall : InColumns a ct all) (hnd : all.Nodup) (hsplit : done ++ rest = all)
    (hspace : mm.freshBlock + all.length ≤ 2 ^ 64) (h : Patched a ct c mm done mm') :
    ((∃ mm₁, rest.foldlM (fun mm p => mm.cloneBuffer c (a.address ct p.1 p.2)) mm' = some mm₁) ↔
      ∀ l p r, rest = l ++ p :: r →
        mm.Alive (mm.blocksIn c a ct (done ++ l)) (mm.headerBlock c a ct p)) ∧
    ∀ mm₁, rest.foldlM (fun mm p => mm.cloneBuffer c (a.address ct p.1 p.2)) mm' = some mm₁ →
      Patched a ct c mm all mm₁ := by
  induction rest generalizing done mm' with
  | nil =>
      rw [List.append_nil] at hsplit
      refine ⟨iff_of_true ⟨mm', rfl⟩ fun l p r he => ?_, fun mm₁ hrun => ?_⟩
      · exact absurd (congrArg List.length he) (by simp)
      · obtain rfl := Option.some.inj hrun
        exact hsplit ▸ h
  | cons q rest ih =>
      have hsplit' : (done ++ [q]) ++ rest = all := by rw [← hsplit, List.append_assoc]; rfl
      have hdone : InColumns a ct (done ++ [q]) := fun p hp =>
        hall p (hsplit' ▸ List.mem_append_left _ hp)
      have hnot : q ∉ done := fun hmem =>
        (List.nodup_append.mp (hsplit ▸ hnd)).2.2 q hmem q List.mem_cons_self rfl
      have hbound : mm.blocksIn c a ct done ≤ done.length := List.countP_le_length
      have hlength := congrArg List.length hsplit
      rw [List.length_append, List.length_cons] at hlength
      have hfresh := h.freshBlock
      have hturn : ∀ mm₁, mm'.cloneBuffer c (a.address ct q.1 q.2) = some mm₁ →
          Patched a ct c mm (done ++ [q]) mm₁ := fun mm₁ hs =>
        h.turn hl hroomy hm hdone hnot (by omega) hs
      have hfirst : (∃ mm₁, mm'.cloneBuffer c (a.address ct q.1 q.2) = some mm₁) ↔
          mm.Alive (mm.blocksIn c a ct done) (mm.headerBlock c a ct q) := by
        rw [cloneBuffer_returns, h.header hl hroomy hdone hnot]
        exact h.heap_iff hm _
      simp only [List.foldlM_cons, Option.bind_eq_bind, Option.bind_eq_some_iff]
      refine ⟨⟨?_, fun halive => ?_⟩, ?_⟩
      · rintro ⟨mm₂, mm₁, hs, hrun⟩ l p r he
        cases l with
        | nil =>
            obtain ⟨rfl, -⟩ := List.cons.inj he
            rw [List.append_nil]
            exact hfirst.mp ⟨mm₁, hs⟩
        | cons q' l =>
            obtain ⟨rfl, he'⟩ := List.cons.inj he
            have hlater := (ih hsplit' (hturn mm₁ hs)).1.mp ⟨mm₂, hrun⟩ l p r he'
            rwa [List.append_assoc] at hlater
      · have hq := halive [] q rest rfl
        rw [List.append_nil] at hq
        obtain ⟨mm₁, hs⟩ := hfirst.mpr hq
        obtain ⟨mm₂, hrun⟩ := (ih hsplit' (hturn mm₁ hs)).1.mpr fun l p r he => by
          have hlater := halive (q :: l) p r (congrArg (q :: ·) he)
          rwa [List.append_assoc]
        exact ⟨mm₂, mm₁, hs, hrun⟩
      · rintro mm₂ ⟨mm₁, hs, hrun⟩
        exact (ih hsplit' (hturn mm₁ hs)).2 mm₂ hrun

/-! ## The clone -/

/-- A chunk with the contents of another, and buffers of its own. -/
structure ClonedChunk (ctx : Context) (a : Archetype) (ct : AllocType) (c dst : ChunkId)
    (count : Nat) (mm mm' : Memory) : Prop where
  plain : ∀ k < a.firstBuffer, ∀ j < count, mm'.cell dst a ct k j = mm.cell c a ct k j
  buffers : ∀ p ∈ bufferPlaces a count, mm'.bufferBytes dst (a.address ct p.1 p.2) =
    mm.bufferBytes c (a.address ct p.1 p.2)
  source : ∀ k < a.firstTag, ¬ (a.firstBuffer ≤ k ∧ k < a.firstManaged) → ∀ j < count,
    mm'.cell c a ct k j = mm.cell c a ct k j
  sourceBuffers : ∀ p ∈ bufferPlaces a count, mm'.bufferBytes c (a.address ct p.1 p.2) =
    mm.bufferBytes c (a.address ct p.1 p.2)
  own : ∀ e e', (e = c ∨ e = dst) → (e' = c ∨ e' = dst) → ∀ p ∈ bufferPlaces a count,
    ∀ q ∈ bufferPlaces a count, mm'.headerBlock e a ct p ≠ 0 →
      mm'.headerBlock e a ct p = mm'.headerBlock e' a ct q → e = e' ∧ p = q
  copied : ∀ p, p ∈ copyCalls ctx a count ↔
    ((a.firstManaged ≤ p.1 ∧ p.1 < a.firstTag) ∧ hasCopy ctx a p.1 = true) ∧ p.2 < count
  inside : InColumns a ct (headerPlaces a count)

/-- The headers that are read before the last one of a column. -/
def headersBefore (a : Archetype) (count i : Nat) : List (Nat × Nat) :=
  (headerPlaces a count).takeWhile (· ≠ (i, count))

/-- Nothing to copy; or no copy function, and in every buffer column the first buffer, which is
left out, has no block, while what is behind the last one, and is taken for a header, is part of
the column and has no block or a live one. -/
def Clonable (ctx : Context) (a : Archetype) (ct : AllocType) (c : ChunkId) (count : Nat)
    (mm : Memory) : Prop :=
  count = 0 ∨ (∀ i, a.firstManaged ≤ i → i < a.firstTag → hasCopy ctx a i = false) ∧
    ∀ i, a.firstBuffer ≤ i → i < a.firstManaged → count < a.chunkCapacity ct ∧
      mm.headerBlock c a ct (i, 0) = 0 ∧
      mm.Alive (mm.blocksIn c a ct (headersBefore a count i)) (mm.headerBlock c a ct (i, count))

theorem nodup_headerPlaces (a : Archetype) (count : Nat) : (headerPlaces a count).Nodup := by
  have hmap : headerPlaces a count = (bufferPlaces a count).map fun p => (p.1, p.2 + 1) := by
    simp only [headerPlaces, bufferPlaces, List.map_flatMap, List.map_map]
    rfl
  rw [hmap]
  exact (nodup_bufferPlaces a count).map fun p q h => by
    obtain ⟨h₁, h₂⟩ := Prod.mk.inj h
    exact Prod.ext h₁ (Nat.succ.inj h₂)

theorem headersBefore_eq {l r : List (Nat × Nat)}
    (h : headerPlaces a count = l ++ (i, count) :: r) : headersBefore a count i = l := by
  have hnd := nodup_headerPlaces a count
  rw [h] at hnd
  have hne : ∀ p ∈ l, decide (p ≠ (i, count)) = true := fun p hp => decide_eq_true fun he =>
    (List.nodup_append.mp hnd).2.2 p hp _ List.mem_cons_self he
  rw [headersBefore, h, List.takeWhile_append_of_pos hne,
    List.takeWhile_cons_of_neg (by simp), List.append_nil]

/-- Headers of entities are alive, so that only those behind the last one count. -/
theorem alive_headers_iff (hstored : ∀ p ∈ bufferPlaces a count,
      StoredBuffer mm c (a.address ct p.1 p.2) (a.size p.1)) (hpos : 0 < count) :
    (∀ l p r, headerPlaces a count = l ++ p :: r →
        mm.Alive (mm.blocksIn c a ct l) (mm.headerBlock c a ct p)) ↔
      ∀ i, a.firstBuffer ≤ i → i < a.firstManaged →
        mm.Alive (mm.blocksIn c a ct (headersBefore a count i))
          (mm.headerBlock c a ct (i, count)) := by
  constructor
  · intro h i hi hi'
    have hmem : (i, count) ∈ headerPlaces a count := mem_headerPlaces.mpr ⟨⟨hi, hi'⟩, hpos, le_rfl⟩
    obtain ⟨l, r, hsplit⟩ := List.append_of_mem hmem
    rw [headersBefore_eq hsplit]
    exact h l _ r hsplit
  · intro h l p r hsplit
    have hmem : p ∈ headerPlaces a count :=
      hsplit ▸ List.mem_append_right _ List.mem_cons_self
    obtain ⟨hk, -, hle⟩ := mem_headerPlaces.mp hmem
    obtain ⟨i, j⟩ := p
    rcases Nat.lt_or_eq_of_le hle with hlt | heq
    · by_cases hd : mm.headerBlock c a ct (i, j) = 0
      · exact Or.inl hd
      · exact Or.inr (Or.inl ((hstored (i, j) (mem_bufferPlaces.mpr ⟨hk, hlt⟩)).block hd))
    · obtain rfl : j = count := heq
      rw [← headersBefore_eq hsplit]
      exact h i hk.1 hk.2

theorem copyCalls_eq_nil (h : ∀ i, a.firstManaged ≤ i → i < a.firstTag → hasCopy ctx a i = false) :
    copyCalls ctx a count = [] := by
  refine List.eq_nil_iff_forall_not_mem.mpr fun p hp => ?_
  obtain ⟨⟨⟨hi, hi'⟩, hcopy⟩, -⟩ := mem_copyCalls.mp hp
  rw [h p.1 hi hi'] at hcopy
  exact absurd hcopy Bool.false_ne_true

/-- What holds of the chunk that is cloned: its buffers are intact, and no two share a block. -/
structure OwnsBuffers (mm : Memory) (a : Archetype) (ct : AllocType) (c : ChunkId)
    (count : Nat) : Prop where
  roomy : a.Roomy
  slots : count ≤ a.chunkCapacity ct
  stored : ∀ p ∈ bufferPlaces a count, StoredBuffer mm c (a.address ct p.1 p.2) (a.size p.1)
  own : ∀ p ∈ bufferPlaces a count, ∀ q ∈ bufferPlaces a count, mm.headerBlock c a ct p ≠ 0 →
    mm.headerBlock c a ct p = mm.headerBlock c a ct q → p = q
  mallocs : mm.Mallocs
  space : mm.freshBlock + (headerPlaces a count).length ≤ 2 ^ 64

theorem OwnsBuffers.lt_fresh (h : OwnsBuffers mm a ct c count) (hp : p ∈ bufferPlaces a count)
    (hd : mm.headerBlock c a ct p ≠ 0) : mm.headerBlock c a ct p < mm.freshBlock := by
  obtain ⟨block, hblock⟩ := Option.ne_none_iff_exists'.mp ((h.stored p hp).block hd)
  exact h.mallocs.lt_of_block hblock

/-- The contents of a buffer in memory with the same bytes and the same old blocks. -/
theorem bufferBytes_eq {e : ChunkId} {addr size : Nat} (hroom : sizeofBuffer ≤ size)
    (hstored : StoredBuffer mm c addr size) (hm : mm.Mallocs)
    (hsame : ∀ y < size, mm'.data e (addr + y) = mm.data c (addr + y))
    (hheap : ∀ d < mm.freshBlock, mm'.heap d = mm.heap d) :
    mm'.bufferBytes e addr = mm.bufferBytes c addr := by
  refine bufferBytes_congr hroom hstored.inline hsame fun hd => ?_
  obtain ⟨block, hblock⟩ := Option.ne_none_iff_exists'.mp (hstored.block hd)
  exact hheap _ (hm.lt_of_block hblock)

/-- A clone that leaves out no block of a buffer, and calls no function, is one. -/
theorem Patched.clonedChunk (hrun : Patched a ct c mm (headerPlaces a count) mm')
    (hl : Layout a) (h : OwnsBuffers mm a ct c count) (hne : c ≠ dst)
    (hdata : mm.data dst = mm.data c)
    (hinside : InColumns a ct (headerPlaces a count))
    (hcopy : ∀ i, a.firstManaged ≤ i → i < a.firstTag → hasCopy ctx a i = false)
    (hfirst : ∀ i, a.firstBuffer ≤ i → i < a.firstManaged → mm.headerBlock c a ct (i, 0) = 0) :
    ClonedChunk ctx a ct c dst count mm mm' := by
  have hdst : mm'.data dst = mm.data c := by rw [hrun.writes.other dst hne.symm, hdata]
  have hslot : ∀ p ∈ bufferPlaces a count, p.1 < a.firstTag ∧ p.2 < a.chunkCapacity ct := by
    intro p hp
    obtain ⟨⟨-, hk⟩, hj⟩ := mem_bufferPlaces.mp hp
    exact ⟨hk.trans_le hl.managed_le, hj.trans_le h.slots⟩
  have hroom : ∀ p ∈ bufferPlaces a count, sizeofBuffer ≤ a.size p.1 := by
    intro p hp
    obtain ⟨⟨hk, hk'⟩, -⟩ := mem_bufferPlaces.mp hp
    exact h.roomy p.1 hk hk'
  have hsame : ∀ p, p.1 < a.firstTag ∧ p.2 < a.chunkCapacity ct → p ∉ headerPlaces a count →
      ∀ y < a.size p.1, mm'.data c (a.address ct p.1 p.2 + y) =
        mm.data c (a.address ct p.1 p.2 + y) :=
    fun p hp hnot y hy => hrun.same hl h.roomy hinside hp hnot hy
  -- buffers that the loop does not get to are the first ones
  have hzero : ∀ p ∈ bufferPlaces a count, p ∉ headerPlaces a count →
      mm.headerBlock c a ct p = 0 := by
    rintro ⟨i, j⟩ hp hnot
    obtain ⟨hk, hj⟩ := mem_bufferPlaces.mp hp
    obtain rfl : j = 0 := by
      by_contra hpos
      exact hnot (mem_headerPlaces.mpr ⟨hk, Nat.pos_of_ne_zero hpos, hj.le⟩)
    exact hfirst i hk.1 hk.2
  have hsource : ∀ p ∈ bufferPlaces a count, mm'.headerBlock c a ct p ≠ 0 →
      p ∈ headerPlaces a count ∧ mm.freshBlock ≤ mm'.headerBlock c a ct p := by
    intro p hp hd
    by_cases hmem : p ∈ headerPlaces a count
    · exact ⟨hmem, ((hrun.cloned p hmem).fresh (hroom p hp) hd).1⟩
    · have hheader : mm'.headerBlock c a ct p = mm.headerBlock c a ct p :=
        congrArg BufferHeader.d (readBuffer_congr fun y hy =>
          hsame p (hslot p hp) hmem y (hy.trans_le (hroom p hp)))
      rw [hheader, hzero p hp hmem] at hd
      exact absurd rfl hd
  have hclone : ∀ p, mm'.headerBlock dst a ct p = mm.headerBlock c a ct p := fun p => by
    rw [headerBlock, hdst, headerBlock]
  refine ⟨fun k _ j _ => ?_, fun p hp => ?_, fun k hk hplain j hj => ?_, fun p hp => ?_,
    ?_, fun p => ?_, hinside⟩
  · rw [cell, hdst, cell]
  · exact bufferBytes_eq (hroom p hp) (h.stored p hp) h.mallocs (fun y _ => by rw [hdst]) hrun.heap
  · refine Mem.read_eq fun y hy => hsame (k, j) ⟨hk, hj.trans_le h.slots⟩ (fun hmem => ?_) y hy
    exact hplain (mem_headerPlaces.mp hmem).1
  · by_cases hmem : p ∈ headerPlaces a count
    · have hcloned := hrun.cloned p hmem
      by_cases hd : (Mem.readBuffer (mm.data c) (a.address ct p.1 p.2)).d = 0
      · exact bufferBytes_eq (hroom p hp) (h.stored p hp) h.mallocs (hcloned.inline hd) hrun.heap
      · obtain ⟨bs, hbs, -⟩ := (h.stored p hp).exists_bytes
        rw [(hcloned.own hd).2.2.2 bs hbs, hbs]
    · exact bufferBytes_eq (hroom p hp) (h.stored p hp) h.mallocs (hsame p (hslot p hp) hmem)
        hrun.heap
  · rintro e e' (rfl | rfl) (rfl | rfl) p hp q hq hd heq
    · have hd' := heq ▸ hd
      exact ⟨rfl, hrun.own p (hsource p hp hd).1 q (hsource q hq hd').1 hd heq⟩
    · rw [hclone] at heq
      have hlt := h.lt_fresh hq (heq ▸ hd)
      have hge := (hsource p hp hd).2
      omega
    · have hge := (hsource q hq (heq ▸ hd)).2
      rw [hclone] at hd heq
      have hlt := h.lt_fresh hp hd
      omega
    · rw [hclone] at hd heq
      rw [hclone] at heq
      exact ⟨rfl, h.own p hp q hq hd heq⟩
  · rw [copyCalls_eq_nil hcopy]
    refine iff_of_false List.not_mem_nil ?_
    rintro ⟨⟨⟨hi, hi'⟩, hhas⟩, -⟩
    rw [hcopy p.1 hi hi'] at hhas
    exact absurd hhas Bool.false_ne_true

theorem OwnsBuffers.congr (h : OwnsBuffers mm a ct c count) (hdata : mm₁.data c = mm.data c)
    (hheap : mm₁.heap = mm.heap) (hfresh : mm₁.freshBlock = mm.freshBlock) :
    OwnsBuffers mm₁ a ct c count := by
  refine ⟨h.roomy, h.slots, fun p hp => ?_, ?_, ?_, hfresh ▸ h.space⟩
  · have hstored := h.stored p hp
    exact ⟨by rw [hdata]; exact hstored.le, by rw [hdata]; exact hstored.inline,
      by rw [hdata, hheap]; exact hstored.block⟩
  · simp only [headerBlock, hdata]
    exact h.own
  · exact ⟨hfresh ▸ h.mallocs.pos, by rw [hheap, hfresh]; exact h.mallocs.fresh⟩

theorem ClonedChunk.congr (h : ClonedChunk ctx a ct c dst count mm mm')
    (hdata : mm₁.data c = mm.data c) (hheap : mm₁.heap = mm.heap) :
    ClonedChunk ctx a ct c dst count mm₁ mm' := by
  have hcell : ∀ k j, mm₁.cell c a ct k j = mm.cell c a ct k j := fun k j => by
    rw [cell, hdata, cell]
  have hbytes : ∀ addr, mm₁.bufferBytes c addr = mm.bufferBytes c addr := fun addr => by
    simp only [bufferBytes, hdata, hheap]
  refine ⟨?_, ?_, ?_, ?_, h.own, h.copied, h.inside⟩
  · simp only [hcell]
    exact h.plain
  · simp only [hbytes]
    exact h.buffers
  · simp only [hcell]
    exact h.source
  · simp only [hbytes]
    exact h.sourceBuffers

theorem clonedChunk_zero : ClonedChunk ctx a ct c dst 0 mm mm' := by
  have hplace : ∀ p, p ∉ bufferPlaces a 0 := fun p hp =>
    absurd (mem_bufferPlaces.mp hp).2 (Nat.not_lt_zero _)
  refine ⟨fun k _ j hj => absurd hj (Nat.not_lt_zero j), fun p hp => absurd hp (hplace p),
    fun k _ _ j hj => absurd hj (Nat.not_lt_zero j), fun p hp => absurd hp (hplace p),
    fun _ _ _ _ p hp => absurd hp (hplace p), fun p => ?_, fun p hp => ?_⟩
  · refine iff_of_false (fun hp => ?_) fun hp => absurd hp.2 (Nat.not_lt_zero _)
    exact (mem_copyCalls.mp hp).2.1.not_ge (mem_copyCalls.mp hp).2.2
  · exact absurd (mem_headerPlaces.mp hp).2.1 (mem_headerPlaces.mp hp).2.2.not_gt

/-- A copy function is called one slot behind each element. -/
theorem ClonedChunk.no_copy (h : ClonedChunk ctx a ct c dst count mm mm') (hpos : 0 < count) (i : Nat)
    (hi : a.firstManaged ≤ i) (hi' : i < a.firstTag) : hasCopy ctx a i = false := by
  by_contra hcopy
  rw [Bool.not_eq_false] at hcopy
  have hcall := (h.copied (i, 0)).mpr ⟨⟨⟨hi, hi'⟩, hcopy⟩, hpos⟩
  exact absurd (mem_copyCalls.mp hcall).2.1 (Nat.lt_irrefl 0)

/-- The first buffer of a column stays in the clone with the block it has. -/
theorem ClonedChunk.first_inline (h : ClonedChunk ctx a ct c dst count mm mm')
    (hrun : Patched a ct c mm (headerPlaces a count) mm') (hl : Layout a) (hroomy : a.Roomy)
    (hne : c ≠ dst) (hdata : mm.data dst = mm.data c) (hpos : 0 < count)
    (hi : a.firstBuffer ≤ i) (hi' : i < a.firstManaged) : mm.headerBlock c a ct (i, 0) = 0 := by
  by_contra hd
  have hmem : (i, 0) ∈ bufferPlaces a count := mem_bufferPlaces.mpr ⟨⟨hi, hi'⟩, hpos⟩
  have hlast := h.inside (i, count) (mem_headerPlaces.mpr ⟨⟨hi, hi'⟩, hpos, le_rfl⟩)
  have hnot : (i, 0) ∉ headerPlaces a count := fun hp => (mem_headerPlaces.mp hp).2.1.ne rfl
  have hsource : mm'.headerBlock c a ct (i, 0) = mm.headerBlock c a ct (i, 0) :=
    congrArg BufferHeader.d (readBuffer_congr fun y hy => hrun.same hl hroomy h.inside
      ⟨hi'.trans_le hl.managed_le, hpos.trans hlast.2⟩ hnot (hy.trans_le (hroomy i hi hi')))
  have hclone : mm'.headerBlock dst a ct (i, 0) = mm.headerBlock c a ct (i, 0) := by
    rw [headerBlock, hrun.writes.other dst hne.symm, hdata, headerBlock]
  have hsame := h.own c dst (Or.inl rfl) (Or.inr rfl) (i, 0) hmem (i, 0) hmem
    (by rwa [hsource]) (by rw [hsource, hclone])
  exact hne hsame.1

/-- A clone has buffers of its own if and only if there is nothing to copy, or the loops miss
nothing. -/
theorem clone_iff {key : EntityType} (hbuilt : constructArchetype ctx key = some a)
    (h : OwnsBuffers mm a ct c count) (hne : c ≠ dst) :
    (∃ mm', mm.clone ctx a ct c dst count = some mm' ∧
      ClonedChunk ctx a ct c dst count mm mm') ↔ Clonable ctx a ct c count mm := by
  have hl := constructArchetype_layout hbuilt
  obtain ⟨mm₀, hmm₀⟩ : ∃ mm₀, mm₀ = mm.setData dst (mm.data c) := ⟨_, rfl⟩
  have hdata : mm₀.data c = mm.data c := by
    rw [hmm₀]
    exact Function.update_of_ne hne ..
  have hdst : mm₀.data dst = mm₀.data c := by
    rw [hdata, hmm₀]
    exact Function.update_self ..
  have hheap : mm₀.heap = mm.heap := hmm₀ ▸ rfl
  have hfresh : mm₀.freshBlock = mm.freshBlock := hmm₀ ▸ rfl
  have h₀ := h.congr hdata hheap hfresh
  have hheader : ∀ p, mm₀.headerBlock c a ct p = mm.headerBlock c a ct p := fun p => by
    rw [headerBlock, hdata, headerBlock]
  have hcount : ∀ l, mm₀.blocksIn c a ct l = mm.blocksIn c a ct l := fun l => by
    simp only [blocksIn, hheader]
  have halive : ∀ n d, mm₀.Alive n d ↔ mm.Alive n d := fun n d => by
    simp only [Alive, hheap, hfresh]
  rw [clone_eq hne, ← hmm₀]
  have hzero : Patched a ct c mm₀ [] mm₀ := .zero h₀.mallocs
  have hrun := fun hinside => hzero.run hl h.roomy h₀.mallocs hinside (nodup_headerPlaces a count)
    (List.nil_append _) h₀.space
  constructor
  · rintro ⟨mm', hs, hcloned⟩
    rcases Nat.eq_zero_or_pos count with rfl | hpos
    · exact Or.inl rfl
    have hcopy := hcloned.no_copy hpos
    rw [copyCalls_eq_nil hcopy, List.foldl_nil] at hs
    obtain ⟨hreturns, hpatched⟩ := hrun hcloned.inside
    have hheaders := (alive_headers_iff h₀.stored hpos).mp (hreturns.mp ⟨mm', hs⟩)
    refine Or.inr ⟨hcopy, fun i hi hi' => ⟨?_, ?_, ?_⟩⟩
    · exact (hcloned.inside (i, count) (mem_headerPlaces.mpr ⟨⟨hi, hi'⟩, hpos, le_rfl⟩)).2
    · rw [← hheader]
      exact (hcloned.congr hdata hheap).first_inline (hpatched mm' hs) hl h.roomy hne hdst hpos hi hi'
    · rw [← hheader, ← hcount, ← halive]
      exact hheaders i hi hi'
  · intro hclonable
    rcases Nat.eq_zero_or_pos count with rfl | hpos
    · have hcalls : copyCalls ctx a 0 = [] := List.eq_nil_iff_forall_not_mem.mpr fun p hp =>
        (mem_copyCalls.mp hp).2.1.not_ge (mem_copyCalls.mp hp).2.2
      have hplaces : headerPlaces a 0 = [] := List.eq_nil_iff_forall_not_mem.mpr fun p hp =>
        (mem_headerPlaces.mp hp).2.1.not_ge (mem_headerPlaces.mp hp).2.2
      rw [hcalls, hplaces]
      exact ⟨mm₀, rfl, clonedChunk_zero⟩
    · obtain ⟨hcopy, hbuffers⟩ := hclonable.resolve_left hpos.ne'
      have hinside : InColumns a ct (headerPlaces a count) := by
        intro p hp
        obtain ⟨hk, -, hle⟩ := mem_headerPlaces.mp hp
        exact ⟨hk, hle.trans_lt (hbuffers p.1 hk.1 hk.2).1⟩
      obtain ⟨hreturns, hpatched⟩ := hrun hinside
      obtain ⟨mm', hs⟩ := hreturns.mpr ((alive_headers_iff h₀.stored hpos).mpr fun i hi hi' => by
        rw [hheader, hcount, halive]
        exact (hbuffers i hi hi').2.2)
      refine ⟨mm', by rw [copyCalls_eq_nil hcopy]; exact hs, ?_⟩
      refine ((hpatched mm' hs).clonedChunk hl h₀ hne hdst hinside hcopy fun i hi hi' => ?_).congr
        hdata.symm hheap.symm
      rw [hheader]
      exact (hbuffers i hi hi').2.1

/-! Two entities with groups, the first inline, the second in block 1. -/

theorem clone_inlineFirst : ∃ (a : Archetype) (mm mm' : Memory),
    (mm.headerBlock 0 a .fastbin (1, 0) = 0 ∧ mm.headerBlock 0 a .fastbin (1, 1) = 1) ∧
    mm.clone World.grouped a .fastbin 0 1 2 = some mm' ∧
    ClonedChunk World.grouped a .fastbin 0 1 2 mm mm' := by
  have hfacts : ((constructArchetype World.grouped { types := [4, World.grouped.groupId] }).map
      fun a => [a.firstBuffer, a.firstManaged, a.firstTag, a.chunkCapacity .fastbin, a.size 1,
        a.address .fastbin 1 0, a.address .fastbin 1 1, a.address .fastbin 1 2]) =
      some [1, 2, 2, 2339, 20, 9360, 9380, 9400] := by
    decide +kernel
  obtain ⟨a, hbuilt, hfacts⟩ := Option.map_eq_some_iff.mp hfacts
  simp only [List.cons.injEq, and_true] at hfacts
  obtain ⟨hbuffer, hmanaged, htag, hcap, hsize, hfirst, hsecond, hthird⟩ := hfacts
  let mm : Memory :=
    { data := fun c x => if c = 0 then twoHeaders (x + 60) else 0
      heap := fun d => if d = 1 then some { size := 8, bytes := fun _ => 5 } else none
      freshBlock := 2, guids := fun _ => [], guidCount := 0 }
  have hinline : Mem.readBuffer (mm.data 0) 9360 = { d := 0, size := 2, capacity := 4 } := by
    decide +kernel
  have hblock : Mem.readBuffer (mm.data 0) 9380 = { d := 1, size := 1, capacity := 8 } := by
    decide +kernel
  have hnull : (Mem.readBuffer (mm.data 0) 9400).d = 0 := by
    decide +kernel
  have hm : mm.Mallocs := by
    refine ⟨Nat.two_pos, fun d hd => if_neg ?_⟩
    change 2 ≤ d at hd
    omega
  have hplace : ∀ p ∈ bufferPlaces a 2, p = (1, 0) ∨ p = (1, 1) := by
    rintro ⟨i, j⟩ hp
    obtain ⟨hi, hj⟩ := mem_bufferPlaces.mp hp
    simp only [Prod.mk.injEq] at hi hj ⊢
    omega
  have hone : mm.headerBlock 0 a .fastbin (1, 0) = 0 := by
    rw [headerBlock, hfirst, hinline]
  have htwo : mm.headerBlock 0 a .fastbin (1, 1) = 1 := by
    rw [headerBlock, hsecond, hblock]
  have hown : OwnsBuffers mm a .fastbin 0 2 := by
    refine ⟨fun k hk hk' => ?_, by rw [hcap]; decide, fun p hp => ?_, fun p hp q hq hd heq => ?_,
      hm, ?_⟩
    · obtain rfl : k = 1 := by omega
      rw [hsize]
      decide
    · rcases hplace p hp with rfl | rfl
      · constructor
        · rw [hfirst, hinline]
          decide
        · intro _
          rw [hfirst, hinline, hsize]
          decide
        · intro hd
          exact absurd hone hd
      · constructor
        · rw [hsecond, hblock]
          decide
        · intro hd
          rw [hsecond, hblock] at hd
          exact absurd hd Nat.one_ne_zero
        · intro _
          rw [hsecond, hblock]
          exact Option.some_ne_none _
    · rcases hplace p hp with rfl | rfl
      · exact absurd hone hd
      · rcases hplace q hq with rfl | rfl
        · rw [hone] at heq
          exact absurd heq hd
        · rfl
    · have hlength : (headerPlaces a 2).length = 2 := by
        rw [headerPlaces, hbuffer, hmanaged]
        rfl
      rw [hlength]
      decide
  have hclonable : Clonable World.grouped a .fastbin 0 2 mm := by
    refine Or.inr ⟨fun i hi hi' => ?_, fun i hi hi' => ?_⟩
    · omega
    · obtain rfl : i = 1 := by omega
      refine ⟨by rw [hcap]; decide, hone, Or.inl ?_⟩
      rw [headerBlock, hthird, hnull]
  obtain ⟨mm', hs, hcloned⟩ := (clone_iff hbuilt hown Nat.zero_ne_one).mpr hclonable
  exact ⟨a, mm, mm', ⟨hone, htwo⟩, hs, hcloned⟩

/-- One entity with a group in block 1: the chunk and its clone both lead to it. -/
theorem not_clone_oneBlock : ∃ (a : Archetype) (mm : Memory),
    constructArchetype World.grouped { types := [4, World.grouped.groupId] } = some a ∧
    OwnsBuffers mm a .fastbin 0 1 ∧
    ¬ ∃ mm', mm.clone World.grouped a .fastbin 0 1 1 = some mm' ∧
      ClonedChunk World.grouped a .fastbin 0 1 1 mm mm' := by
  let mm : Memory :=
    { data := fun c x => if c = 0 then twoHeaders (x + 80) else 0
      heap := fun d => if d = 1 then some { size := 8, bytes := fun _ => 5 } else none
      freshBlock := 2, guids := fun _ => [], guidCount := 0 }
  have hfacts : ((constructArchetype World.grouped { types := [4, World.grouped.groupId] }).bind
      fun a => (mm.clone World.grouped a .fastbin 0 1 1).map fun mm' =>
        [a.firstBuffer, a.firstManaged, a.firstTag, a.chunkCapacity .fastbin, a.size 1,
        a.address .fastbin 1 0, mm'.headerBlock 0 a .fastbin (1, 0),
        mm'.headerBlock 1 a .fastbin (1, 0)]) =
      some [1, 2, 2, 2339, 20, 9360, 1, 1] := by
    decide +kernel
  obtain ⟨a, hbuilt, hfacts⟩ := Option.bind_eq_some_iff.mp hfacts
  obtain ⟨mm₁, hclone, hfacts⟩ := Option.map_eq_some_iff.mp hfacts
  simp only [List.cons.injEq, and_true] at hfacts
  obtain ⟨hbuffer, hmanaged, htag, hcap, hsize, hfirst, hsource, hdst⟩ := hfacts
  have hblock : Mem.readBuffer (mm.data 0) 9360 = { d := 1, size := 1, capacity := 8 } := by
    decide +kernel
  have hplace : ∀ p, p ∈ bufferPlaces a 1 ↔ p = (1, 0) := by
    rintro ⟨i, j⟩
    rw [mem_bufferPlaces, Prod.mk.injEq]
    omega
  refine ⟨a, mm, hbuilt, ⟨fun k hk hk' => ?_, by rw [hcap]; decide, fun p hp => ?_,
    fun p hp q hq _ _ => ?_, ?_, ?_⟩, ?_⟩
  · obtain rfl : k = 1 := by omega
    rw [hsize]
    decide
  · obtain rfl := (hplace p).mp hp
    constructor
    · rw [hfirst, hblock]
      decide
    · intro hd
      rw [hfirst, hblock] at hd
      exact absurd hd Nat.one_ne_zero
    · intro _
      rw [hfirst, hblock]
      exact Option.some_ne_none _
  · rw [(hplace p).mp hp, (hplace q).mp hq]
  · refine ⟨Nat.two_pos, fun d hd => if_neg ?_⟩
    change 2 ≤ d at hd
    omega
  · have hlength : (headerPlaces a 1).length = 1 := by
      rw [headerPlaces, hbuffer, hmanaged]
      rfl
    rw [hlength]
    decide
  · rintro ⟨mm', hs, hcloned⟩
    obtain rfl := Option.some.inj (hclone.symm.trans hs)
    have hmem := (hplace (1, 0)).mpr rfl
    have hsame := hcloned.own 0 1 (Or.inl rfl) (Or.inr rfl) _ hmem _ hmem
      (by rw [hsource]; decide) (by rw [hsource, hdst])
    exact absurd hsame.1 Nat.zero_ne_one

end Memory

end Dots

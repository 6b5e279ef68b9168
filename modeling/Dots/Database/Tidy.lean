import Dots.Database.Patching
import Dots.Database.Undisturbed

/-!
# Elements of live entities

Where the elements of an entity lie, and why those of different entities do not overlap as
long as the program keeps its buffers in order.
-/

namespace Dots

open Library

namespace Archetype

variable {a : Archetype} {ct : AllocType} {k l i j : Nat}

/-- Different cells share no byte. -/
theorem cell_disjoint (hl : Layout a) (hk : k < a.firstTag) (hk' : l < a.firstTag)
    (hi : i < a.chunkCapacity ct) (hj : j < a.chunkCapacity ct) (hne : k ≠ l ∨ i ≠ j) :
    a.address ct k i + a.size k ≤ a.address ct l j ∨
      a.address ct l j + a.size l ≤ a.address ct k i := by
  have hmul := Nat.mul_le_mul_left (a.size k) (Nat.succ_le_of_lt hi)
  have hmul' := Nat.mul_le_mul_left (a.size l) (Nat.succ_le_of_lt hj)
  rw [Nat.mul_succ] at hmul hmul'
  simp only [address]
  by_cases hkl : k = l
  · subst hkl
    rcases Nat.lt_or_gt_of_ne (hne.resolve_left fun h => h rfl) with hij | hij
    · have hstep := Nat.mul_le_mul_left (a.size k) (Nat.succ_le_of_lt hij)
      rw [Nat.mul_succ] at hstep
      exact Or.inl (by omega)
    · have hstep := Nat.mul_le_mul_left (a.size k) (Nat.succ_le_of_lt hij)
      rw [Nat.mul_succ] at hstep
      exact Or.inr (by omega)
  · rcases hl.disjoint ct k l hk hk' hkl with h | h
    · exact Or.inl (by omega)
    · exact Or.inr (by omega)

/-- Column `k` holds buffers. -/
def IsBuffer (a : Archetype) (k : Nat) : Prop := a.firstBuffer ≤ k ∧ k < a.firstManaged

end Archetype

namespace Memory

variable {ctx : Context} {custom : TypeIndex → List UInt8 → List Entity} {mm : Memory}
  {a : Archetype} {ct : AllocType} {c : ChunkId} {i k : Nat} {el el' : Element}

/-- What the program sees to in a slot: lawful types, and buffers that hold their elements
behind their header or in a block. -/
structure TidySlot (ctx : Context) (custom : TypeIndex → List UInt8 → List Entity) (mm : Memory)
    (a : Archetype) (ct : AllocType) (c : ChunkId) (i : Nat) : Prop where
  plain : ∀ k < a.firstTag, ¬ a.IsBuffer k → LawfulPatch ctx custom (a.types.getD k 0) (a.size k)
  buffer : ∀ k, a.IsBuffer k →
    LawfulPatch ctx custom (a.types.getD k 0) (ctx.info (a.types.getD k 0)).elementSize
  header : ∀ k, a.IsBuffer k → sizeofBuffer ≤ a.size k
  inline : ∀ k, a.IsBuffer k → (Mem.readBuffer (mm.data c) (a.address ct k i)).d = 0 →
    sizeofBuffer + (Mem.readBuffer (mm.data c) (a.address ct k i)).size ≤ a.size k
  block : ∀ k, a.IsBuffer k → (Mem.readBuffer (mm.data c) (a.address ct k i)).d ≠ 0 →
    mm.heap (Mem.readBuffer (mm.data c) (a.address ct k i)).d ≠ none

/-- Where an element of column `k` lies: in the cell, behind the header of a buffer, or in
the block of the buffer. -/
theorem place_of_mem (h : TidySlot ctx custom mm a ct c i)
    (hel : el ∈ columnElements ctx mm a ct c i k) :
    (el.place = .chunk c ∧ a.address ct k i ≤ el.addr ∧
        el.addr + el.len ≤ a.address ct k i + a.size k ∧
        (a.IsBuffer k → a.address ct k i + sizeofBuffer ≤ el.addr)) ∨
      (a.IsBuffer k ∧ (Mem.readBuffer (mm.data c) (a.address ct k i)).d ≠ 0 ∧
        el.place = .block (Mem.readBuffer (mm.data c) (a.address ct k i)).d) := by
  by_cases hbuf : a.firstBuffer ≤ k ∧ k < a.firstManaged
  · simp only [columnElements, if_pos hbuf, List.mem_map, List.mem_range] at hel
    obtain ⟨l, hl, rfl⟩ := hel
    by_cases hd : (Mem.readBuffer (mm.data c) (a.address ct k i)).d = 0
    · left
      have hinline := h.inline k hbuf hd
      have hcount := (Nat.succ_le_of_lt hl).trans (Nat.mod_le _ _)
      have hes : 0 < (ctx.info (a.types.getD k 0)).elementSize := by
        apply Nat.pos_of_ne_zero
        intro hzero
        rw [hzero, Nat.div_zero] at hl
        exact Nat.not_lt_zero l hl
      have hmul := (Nat.le_div_iff_mul_le hes).mp hcount
      rw [Nat.succ_mul, Nat.mul_comm] at hmul
      rw [if_pos hd]
      exact ⟨rfl, by dsimp only; omega, by dsimp only; omega, fun _ => by dsimp only; omega⟩
    · right
      rw [if_neg hd]
      exact ⟨hbuf, hd, rfl⟩
  · simp only [columnElements, if_neg hbuf, List.mem_singleton] at hel
    subst hel
    exact Or.inl ⟨rfl, le_rfl, le_rfl, fun hbuf' => absurd hbuf' hbuf⟩

theorem lawful_of_mem (h : TidySlot ctx custom mm a ct c i) (hk : k < a.firstTag)
    (hel : el ∈ columnElements ctx mm a ct c i k) : LawfulPatch ctx custom el.type el.len := by
  by_cases hbuf : a.firstBuffer ≤ k ∧ k < a.firstManaged
  · simp only [columnElements, if_pos hbuf, List.mem_map] at hel
    obtain ⟨l, -, rfl⟩ := hel
    have hlaw := h.buffer k hbuf
    split_ifs <;> exact hlaw
  · simp only [columnElements, if_neg hbuf, List.mem_singleton] at hel
    subst hel
    exact h.plain k hk hbuf

theorem hasBytes_of_mem (h : TidySlot ctx custom mm a ct c i)
    (hel : el ∈ columnElements ctx mm a ct c i k) : mm.HasBytes el.place := by
  rcases place_of_mem h hel with ⟨hpl, -⟩ | ⟨hbuf, hd, hpl⟩
  · rw [hpl]
    trivial
  · rw [hpl]
    exact h.block k hbuf hd

/-- The elements of one column. -/
theorem apart_column (hel : el ∈ columnElements ctx mm a ct c i k)
    (hel' : el' ∈ columnElements ctx mm a ct c i k) (hne : el ≠ el') : el.Apart el' := by
  by_cases hbuf : a.firstBuffer ≤ k ∧ k < a.firstManaged
  · simp only [columnElements, if_pos hbuf, List.mem_map] at hel hel'
    obtain ⟨l, -, rfl⟩ := hel
    obtain ⟨l', -, rfl⟩ := hel'
    have hll : l ≠ l' := fun h => hne (by rw [h])
    intro _
    rcases Nat.lt_or_gt_of_ne hll with hlt | hlt
    · have hmul := Nat.mul_le_mul_left (ctx.info (a.types.getD k 0)).elementSize
        (Nat.succ_le_of_lt hlt)
      rw [Nat.mul_succ] at hmul
      left
      split_ifs
      · dsimp only
        omega
      · exact hmul
    · have hmul := Nat.mul_le_mul_left (ctx.info (a.types.getD k 0)).elementSize
        (Nat.succ_le_of_lt hlt)
      rw [Nat.mul_succ] at hmul
      right
      split_ifs
      · dsimp only
        omega
      · exact hmul
  · simp only [columnElements, if_neg hbuf, List.mem_singleton] at hel hel'
    exact absurd (hel.trans hel'.symm) hne

/-- Each occurs once, unless it has no bytes. -/
theorem count_column (hel : el ∈ columnElements ctx mm a ct c i k) (hlen : 0 < el.len) :
    (columnElements ctx mm a ct c i k).count el = 1 := by
  by_cases hbuf : a.firstBuffer ≤ k ∧ k < a.firstManaged
  · simp only [columnElements, if_pos hbuf] at hel ⊢
    apply List.count_eq_one_of_mem _ hel
    obtain ⟨l, -, rfl⟩ := List.mem_map.mp hel
    have hes : 0 < (ctx.info (a.types.getD k 0)).elementSize := by
      split_ifs at hlen <;> exact hlen
    apply List.Nodup.map _ List.nodup_range
    intro l l' hll
    dsimp only at hll
    split_ifs at hll with hd
    · have haddr := congrArg Element.addr hll
      exact Nat.eq_of_mul_eq_mul_left hes (by dsimp only at haddr; omega)
    · exact Nat.eq_of_mul_eq_mul_left hes (congrArg Element.addr hll)
  · simp only [columnElements, if_neg hbuf, List.mem_singleton] at hel ⊢
    simp [hel]

theorem mem_patchOrder (hl : Layout a) : k ∈ patchOrder a ↔ k < a.firstTag := by
  have hbuf := hl.buffer_le
  have hman := hl.managed_le
  simp only [patchOrder, List.mem_append, mem_columns]
  omega

theorem nodup_patchOrder (hl : Layout a) : (patchOrder a).Nodup := by
  have hbuf := hl.buffer_le
  simp only [patchOrder, List.nodup_append', nodup_columns, true_and, List.disjoint_left,
    List.mem_append, mem_columns]
  exact ⟨fun k _ _ => by omega, fun k _ _ => by omega⟩

end Memory

namespace World

variable {ctx : Context} {custom : TypeIndex → List UInt8 → List Entity} {w : World}
  {members : List Entity} {e : Entity}

/-- The elements of an entity, where the table finds it. -/
def elementsOf (ctx : Context) (w : World) (e : Entity) : List Element :=
  match w.asSlice e with
  | none => []
  | some s =>
      match w.archetypeOf s.c with
      | none => []
      | some (_, a) => w.memory.elements ctx a (w.store.ct s.c) s.c s.start

/-- The slot of a live entity, and its archetype. -/
structure InSlot (w : World) (e : Entity) (c : ChunkId) (i : Nat) (g : ArchetypeId)
    (a : Archetype) : Prop where
  found : w.Found e c i
  archetype : w.archetypeOf c = some (g, a)

/-- Live entities whose program keeps their buffers in order: no two buffers share a block. -/
structure Tidy (ctx : Context) (custom : TypeIndex → List UInt8 → List Entity) (w : World)
    (members : List Entity) : Prop where
  live : ∀ e ∈ members, ∃ c i g a, w.InSlot e c i g a
  slot : ∀ e ∈ members, ∀ c i g a, w.InSlot e c i g a →
    w.memory.TidySlot ctx custom a (w.store.ct c) c i
  own : ∀ e ∈ members, ∀ e' ∈ members, ∀ c i g a c' i' g' a', w.InSlot e c i g a →
    w.InSlot e' c' i' g' a' → ∀ k k', a.IsBuffer k → a'.IsBuffer k' →
      (Mem.readBuffer (w.memory.data c) (a.address (w.store.ct c) k i)).d ≠ 0 →
      (Mem.readBuffer (w.memory.data c) (a.address (w.store.ct c) k i)).d =
        (Mem.readBuffer (w.memory.data c') (a'.address (w.store.ct c') k' i')).d →
      c = c' ∧ i = i' ∧ k = k'

theorem InSlot.asSlice {c : ChunkId} {i : Nat} {g : ArchetypeId} {a : Archetype}
    (h : w.InSlot e c i g a) (hsize : w.ents.size < 2 ^ 24) :
    w.asSlice e = some { c := c, start := i, count := 1 } := by
  obtain ⟨hexist, hc, hi⟩ := h.found.entry hsize
  simp only [Entities.exist, Bool.and_eq_true, decide_eq_true_eq] at hexist
  simp only [World.asSlice, World.entrySlice, if_pos hexist.1, hc, hi]

theorem InSlot.elementsOf {c : ChunkId} {i : Nat} {g : ArchetypeId} {a : Archetype}
    (h : w.InSlot e c i g a) (hsize : w.ents.size < 2 ^ 24) :
    w.elementsOf ctx e = w.memory.elements ctx a (w.store.ct c) c i := by
  simp only [World.elementsOf, h.asSlice hsize, h.archetype]

theorem InSlot.slot_lt (hwf : w.store.Wf ctx) {c : ChunkId} {i : Nat} {g : ArchetypeId}
    {a : Archetype} (h : w.InSlot e c i g a) : i < a.chunkCapacity (w.store.ct c) := by
  obtain ⟨hc, ha⟩ := archetypeOf_eq_some.mp h.archetype
  exact h.found.occupied.2.trans_le (hwf.count_le c g a hc ha)

theorem InSlot.layout (hwf : w.store.Wf ctx) {c : ChunkId} {i : Nat} {g : ArchetypeId}
    {a : Archetype} (h : w.InSlot e c i g a) : Layout a :=
  constructArchetype_layout (hwf.built g a (archetypeOf_eq_some.mp h.archetype).2).2

section

variable (hwf : w.store.Wf ctx) (ht : w.Tidy ctx custom members)

include hwf ht

/-- Elements of different columns do not overlap. -/
theorem Tidy.apart_columns {e' : Entity} (he : e ∈ members) (he' : e' ∈ members) {c c' : ChunkId}
    {i i' k k' : Nat} {g g' : ArchetypeId} {a a' : Archetype} (hs : w.InSlot e c i g a)
    (hs' : w.InSlot e' c' i' g' a') (hk : k < a.firstTag) (hk' : k' < a'.firstTag)
    {el el' : Element} (hel : el ∈ w.memory.columnElements ctx a (w.store.ct c) c i k)
    (hel' : el' ∈ w.memory.columnElements ctx a' (w.store.ct c') c' i' k')
    (hne : ¬ (c = c' ∧ i = i' ∧ k = k')) : el.Apart el' := by
  intro hpl
  rcases Memory.place_of_mem (ht.slot e he c i g a hs) hel with
    ⟨hp, hlo, hhi, -⟩ | ⟨hbuf, hd, hp⟩
  · rcases Memory.place_of_mem (ht.slot e' he' c' i' g' a' hs') hel' with
      ⟨hp', hlo', hhi', -⟩ | ⟨-, -, hp'⟩
    · rw [hp, hp', Place.chunk.injEq] at hpl
      subst hpl
      obtain ⟨-, rfl⟩ := Prod.mk.inj (Option.some.inj (hs.archetype.symm.trans hs'.archetype))
      have hcells := Archetype.cell_disjoint (hs.layout hwf) hk hk' (hs.slot_lt hwf)
        (hs'.slot_lt hwf) (by tauto)
      omega
    · rw [hp, hp'] at hpl
      exact absurd hpl (by simp)
  · rcases Memory.place_of_mem (ht.slot e' he' c' i' g' a' hs') hel' with
      ⟨hp', -⟩ | ⟨hbuf', hd', hp'⟩
    · rw [hp, hp'] at hpl
      exact absurd hpl (by simp)
    · rw [hp, hp', Place.block.injEq] at hpl
      exact absurd (ht.own e he e' he' c i g a c' i' g' a' hs hs' k k' hbuf hbuf' hd hpl) hne

variable (hsize : w.ents.size < 2 ^ 24)

include hsize

/-- An element of a member is one of some column. -/
theorem Tidy.column {el : Element} (he : e ∈ members) (hel : el ∈ w.elementsOf ctx e) :
    ∃ c i g a k, w.InSlot e c i g a ∧ k < a.firstTag ∧
      el ∈ w.memory.columnElements ctx a (w.store.ct c) c i k := by
  obtain ⟨c, i, g, a, hslot⟩ := ht.live e he
  rw [hslot.elementsOf hsize, Memory.elements, List.mem_flatMap] at hel
  obtain ⟨k, hk, hel⟩ := hel
  exact ⟨c, i, g, a, k, hslot, (Memory.mem_patchOrder (hslot.layout hwf)).mp hk, hel⟩

theorem Tidy.patchable :
    w.memory.Patchable ctx custom (members.flatMap (w.elementsOf ctx)) where
  lawful el hel := by
    obtain ⟨e, he, hel⟩ := List.mem_flatMap.mp hel
    obtain ⟨c, i, g, a, k, hs, hk, hel⟩ := ht.column hwf hsize he hel
    exact Memory.lawful_of_mem (ht.slot e he c i g a hs) hk hel
  apart el hel el' hel' hne := by
    obtain ⟨e, he, hel⟩ := List.mem_flatMap.mp hel
    obtain ⟨e', he', hel'⟩ := List.mem_flatMap.mp hel'
    obtain ⟨c, i, g, a, k, hs, hk, hel⟩ := ht.column hwf hsize he hel
    obtain ⟨c', i', g', a', k', hs', hk', hel'⟩ := ht.column hwf hsize he' hel'
    by_cases hsame : c = c' ∧ i = i' ∧ k = k'
    · obtain ⟨rfl, rfl, rfl⟩ := hsame
      obtain ⟨-, rfl⟩ := Prod.mk.inj (Option.some.inj (hs.archetype.symm.trans hs'.archetype))
      exact Memory.apart_column hel hel' hne
    · exact ht.apart_columns hwf he he' hs hs' hk hk' hel hel' hsame
  hasBytes el hel := by
    obtain ⟨e, he, hel⟩ := List.mem_flatMap.mp hel
    obtain ⟨c, i, g, a, k, hs, -, hel⟩ := ht.column hwf hsize he hel
    exact Memory.hasBytes_of_mem (ht.slot e he c i g a hs) hel

/-- No element meets a header. -/
theorem Tidy.headersOff (he : e ∈ members) {c : ChunkId} {i : Nat} {g : ArchetypeId}
    {a : Archetype} (hs : w.InSlot e c i g a) :
    Memory.HeadersOff (members.flatMap (w.elementsOf ctx)) a (w.store.ct c) c i := by
  rintro k hlo hhi el hel x hxlo hxhi ⟨hpl, hcovlo, hcovhi⟩
  obtain ⟨e', he', hel⟩ := List.mem_flatMap.mp hel
  obtain ⟨c', i', g', a', k', hs', hk', hel⟩ := ht.column hwf hsize he' hel
  have hlay := hs.layout hwf
  have hk : k < a.firstTag := hhi.trans_le hlay.managed_le
  have hroom := (ht.slot e he c i g a hs).header k ⟨hlo, hhi⟩
  rcases Memory.place_of_mem (ht.slot e' he' c' i' g' a' hs') hel with
    ⟨hp', hlo', hhi', hbehind⟩ | ⟨-, -, hp'⟩
  · rw [hp', Place.chunk.injEq] at hpl
    subst hpl
    obtain ⟨-, rfl⟩ := Prod.mk.inj (Option.some.inj (hs.archetype.symm.trans hs'.archetype))
    by_cases hsame : k = k' ∧ i = i'
    · obtain ⟨rfl, rfl⟩ := hsame
      have := hbehind ⟨hlo, hhi⟩
      omega
    · have hcells := Archetype.cell_disjoint hlay hk hk' (hs.slot_lt hwf) (hs'.slot_lt hwf)
        (by tauto)
      omega
  · rw [hp'] at hpl
    exact absurd hpl (by simp)

/-- An element with bytes occurs as often as its entity does. -/
theorem Tidy.count {el : Element} (he : e ∈ members) (hel : el ∈ w.elementsOf ctx e)
    (hlen : 0 < el.len) :
    (members.flatMap (w.elementsOf ctx)).count el = members.count e := by
  obtain ⟨c, i, g, a, k, hs, hk, hcol⟩ := ht.column hwf hsize he hel
  have hself : ¬ el.Apart el := fun h => by
    have := h rfl
    omega
  apply count_flatMap
  · rw [hs.elementsOf hsize, Memory.elements]
    rw [count_flatMap (Memory.count_column hcol hlen), (Memory.nodup_patchOrder (hs.layout hwf)).count,
      if_pos ((Memory.mem_patchOrder (hs.layout hwf)).mpr hk)]
    intro k' hk' hne hcol'
    have hk' := (Memory.mem_patchOrder (hs.layout hwf)).mp hk'
    exact hself (ht.apart_columns hwf he he hs hs hk hk' hcol hcol' fun h => hne h.2.2.symm)
  · intro e' he' hne hel'
    obtain ⟨c', i', g', a', k', hs', hk', hcol'⟩ := ht.column hwf hsize he' hel'
    refine hself (ht.apart_columns hwf he he' hs hs' hk hk' hcol hcol' ?_)
    rintro ⟨rfl, rfl, -⟩
    exact hne (hs'.found.handle.symm.trans hs.found.handle)

end

end World

end Dots

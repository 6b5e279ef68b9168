import Dots.Database.Masks
import Dots.Database.Merging
import Dots.Database.Saving

/-!
# References of worlds that are merged

`patch_chunk` works on every handle and on every element of the chunks that go over, once each.
What the table makes of a reference is right for a live entity, and for ids behind the table;
other references read an entry that was not written, or one of another entity.
-/

namespace Dots

open Library Entities

/-! ## Parts -/

/-- What `patch_chunk` works on: the handle of a slot, or an element of a component. -/
inductive Part
  | handle (c : ChunkId) (i : Nat)
  | element (el : Element)
  deriving DecidableEq

/-- The bytes of a part. -/
def Part.bytes : Part → Element
  | .handle c i => { place := .chunk c, addr := sizeofEntity * i, type := 0, len := sizeofEntity }
  | .element el => el

namespace Memory

/-- What a part holds. -/
def part (mm : Memory) : Part → Entity ⊕ List UInt8
  | .handle c i => .inl (mm.entityAt c i)
  | .element el => .inr (mm.element el)

def patchPart (ctx : Context) (p : Entity → Entity) (mm : Memory) : Part → Memory
  | .handle c i => mm.setData c (Mem.writeEntity (mm.data c) i (p (mm.entityAt c i)))
  | .element el => mm.patchAt ctx p el

/-- What becomes of what a part holds. -/
def patchedPart (ctx : Context) (p : Entity → Entity) : Part → Entity ⊕ List UInt8 →
    Entity ⊕ List UInt8
  | .handle _ _ => Sum.map p id
  | .element el => Sum.map id (patched ctx el.type p)

variable {ctx : Context} {custom : TypeIndex → List UInt8 → List Entity} {mm mm' mm'' : Memory}
  {a : Archetype} {ct : AllocType} {s : ChunkSlice} {p : Entity → Entity} {P : List Part}
  {q : Part}

/-- Parts that do not overlap and have bytes; the elements are of types with lawful patches. -/
structure Workable (ctx : Context) (custom : TypeIndex → List UInt8 → List Entity) (mm : Memory)
    (P : List Part) : Prop where
  lawful : ∀ el, .element el ∈ P → LawfulPatch ctx custom el.type el.len
  apart : ∀ q ∈ P, ∀ q' ∈ P, q ≠ q' → q.bytes.Apart q'.bytes
  hasBytes : ∀ q ∈ P, mm.HasBytes q.bytes.place

theorem part_congr (h : ∀ i < q.bytes.len, mm'.bytesAt q.bytes.place (q.bytes.addr + i) =
    mm.bytesAt q.bytes.place (q.bytes.addr + i)) : mm'.part q = mm.part q := by
  cases q with
  | handle c i =>
      have hword : Mem.readWord (mm'.data c) (sizeofEntity * i) 4 =
          Mem.readWord (mm.data c) (sizeofEntity * i) 4 := Mem.readWord_congr h
      simp only [part, entityAt, Mem.readEntity, hword]
  | element el =>
      have hread : mm'.element el = mm.element el := Mem.read_eq h
      rw [part, part, hread]

/-- Bytes that no part covers stay. -/
theorem agreeOff_patchPart (hP : Workable ctx custom mm P) (hq : q ∈ P)
    (h : AgreeOff (P.map Part.bytes) mm mm') :
    AgreeOff (P.map Part.bytes) mm (mm'.patchPart ctx p q) := by
  cases q with
  | handle c i =>
      refine ⟨fun pl x hx => ?_, h.sizes, h.freshBlock, h.guids, h.guidCount⟩
      rw [← h.bytes pl x hx]
      cases pl with
      | block d => rfl
      | chunk d =>
          by_cases hd : d = c
          · subst hd
            have hout : ¬ (sizeofEntity * i ≤ x ∧ x < sizeofEntity * i + 4) := fun hin =>
              hx _ (List.mem_map_of_mem hq) ⟨rfl, hin⟩
            change (mm'.setData d _).data d x = mm'.data d x
            rw [setData_data]
            exact Mem.SameOff.writeWord _ (fun y hlo hhi => And.intro hlo hhi) x hout
          · exact congrFun (Function.update_of_ne hd ..) x
  | element el =>
      exact agreeOff_patchAt (List.mem_map_of_mem hq) (hP.lawful el hq).inside
        (h.hasBytes.mpr (hP.hasBytes _ hq)) h

/-- A step on one part leaves a part it does not overlap. -/
theorem part_patchPart_ne {q' : Part} (hlaw : ∀ el, q = .element el →
    LawfulPatch ctx custom el.type el.len) (hb : mm.HasBytes q.bytes.place)
    (ha : q.bytes.Apart q'.bytes) : (mm.patchPart ctx p q).part q' = mm.part q' := by
  apply part_congr
  intro i hi
  cases q with
  | handle c j =>
      by_cases hpl : q'.bytes.place = .chunk c
      · rw [hpl]
        change (mm.setData c _).data c _ = mm.data c _
        rw [setData_data]
        refine Mem.SameOff.writeWord _ (fun y hlo hhi => And.intro hlo hhi) _ ?_
        have hapart : 4 * j + 4 ≤ q'.bytes.addr ∨ q'.bytes.addr + q'.bytes.len ≤ 4 * j :=
          ha hpl.symm
        change ¬ (4 * j ≤ q'.bytes.addr + i ∧ q'.bytes.addr + i < 4 * j + 4)
        omega
      · exact congrFun (bytesAt_setBytes_ne hpl) _
  | element el =>
      by_cases hpl : q'.bytes.place = el.place
      · rw [hpl]
        have hb' : mm.HasBytes el.place := hb
        change (mm.setBytes el.place _).bytesAt el.place _ = _
        rw [bytesAt_setBytes hb']
        refine sameOff_patchElement (hlaw el rfl).inside p _ _ _ ?_
        have hapart : el.addr + el.len ≤ q'.bytes.addr ∨
            q'.bytes.addr + q'.bytes.len ≤ el.addr := ha hpl.symm
        omega
      · exact congrFun (bytesAt_setBytes_ne hpl) _

theorem Workable.separate (hP : Workable ctx custom mm P) (hp : Bounded p) :
    Separate (AgreeOff (P.map Part.bytes) mm) (fun q mm => mm.part q) P
      (fun q mm => mm.patchPart ctx p q) (patchedPart ctx p) where
  keeps q hq mm' hmm := agreeOff_patchPart hP hq hmm
  self q hq mm' hmm := by
    cases q with
    | handle c i =>
        have hlt : (p (mm'.entityAt c i)).value < 2 ^ 32 := hp _ (Mem.readWord_lt _ _ 4)
        rw [part, patchPart, entityAt_writeEntity mm' c c i i hlt, if_pos ⟨rfl, rfl⟩]
        rfl
    | element el =>
        have hb : mm'.HasBytes el.place := hmm.hasBytes.mpr (hP.hasBytes _ hq)
        rw [part, patchPart, element, patchAt, bytesAt_setBytes hb,
          read_patchElement (hP.lawful el hq) p]
        rfl
  other q hq q' hq' hne mm' hmm :=
    part_patchPart_ne (fun el hel => hP.lawful el (hel ▸ hq))
      (hmm.hasBytes.mpr (hP.hasBytes q hq)) (hP.apart q hq q' hq' hne)

/-! ## `patch_chunk` -/

/-- The parts of a slice, in the order of `patch_chunk`. -/
def sliceParts (ctx : Context) (mm : Memory) (a : Archetype) (ct : AllocType) (s : ChunkSlice) :
    List Part :=
  (List.range s.count).map (fun i => .handle s.c (s.start + i)) ++
    (sliceElements ctx mm a ct s).map .element

theorem patchHandles_eq (ctx : Context) (s : ChunkSlice) (mm : Memory) :
    mm.patchHandles s p =
      ((List.range s.count).map fun i => Part.handle s.c (s.start + i)).foldl
        (patchPart ctx p) mm := by
  simp only [patchHandles]
  generalize List.range s.count = is
  induction is generalizing mm with
  | nil => simp [setData]
  | cons i is ih =>
      rw [List.map_cons, List.foldl_cons, List.foldl_cons, ← ih]
      simp only [patchPart, setData_data, setData_setData]
      rfl

theorem foldl_elements (L : List Element) (mm : Memory) :
    (L.map Part.element).foldl (patchPart ctx p) mm = L.foldl (patchAt ctx p) mm := by
  rw [List.foldl_map]
  rfl

/-- The elements among the parts. -/
def elementsAmong (P : List Part) : List Element :=
  P.filterMap fun q => match q with
    | .handle _ _ => none
    | .element el => some el

theorem mem_elementsAmong {el : Element} : el ∈ elementsAmong P ↔ .element el ∈ P := by
  rw [elementsAmong, List.mem_filterMap]
  constructor
  · rintro ⟨q, hq, heq⟩
    cases q with
    | handle c i => simp at heq
    | element el' => exact Option.some.inj heq ▸ hq
  · exact fun hel => ⟨_, hel, rfl⟩

theorem Workable.patchable (hP : Workable ctx custom mm P) :
    Patchable ctx custom mm (elementsAmong P) where
  lawful el hel := hP.lawful el (mem_elementsAmong.mp hel)
  apart _ hel _ hel' hne :=
    hP.apart _ (mem_elementsAmong.mp hel) _ (mem_elementsAmong.mp hel') fun heq =>
      hne (Part.element.inj heq)
  hasBytes _ hel := hP.hasBytes _ (mem_elementsAmong.mp hel)

theorem patchChunk_eq (hP : Workable ctx custom mm P) (hp : Bounded p)
    (hoff : ∀ j < s.count, HeadersOff (P.map Part.bytes) a ct s.c (s.start + j))
    (hsub : ∀ q ∈ sliceParts ctx mm a ct s, q ∈ P) (h : AgreeOff (P.map Part.bytes) mm mm')
    (hs : mm'.patchChunk ctx a ct s p = some mm'') :
    mm'' = (sliceParts ctx mm a ct s).foldl (patchPart ctx p) mm' := by
  have hhandles := ((hP.separate hp).foldl
    (fun q hq => hsub q (List.mem_append_left _ hq)) h).1
  rw [patchChunk, patchHandles_eq ctx] at hs
  rw [sliceParts, List.foldl_append, foldl_elements]
  refine patch_slice hP.patchable (fun el hel => ?_) hoff (fun el hel => ?_) hhandles hs
  · exact List.mem_map.mpr ⟨_, mem_elementsAmong.mp hel, rfl⟩
  · exact mem_elementsAmong.mpr (hsub _ (List.mem_append_right _ (List.mem_map_of_mem hel)))

end Memory

namespace Memory

theorem mem_sliceElements {ctx : Context} {mm : Memory} {a : Archetype} {ct : AllocType}
    {s : ChunkSlice} {el : Element} : el ∈ sliceElements ctx mm a ct s ↔
      ∃ j < s.count, el ∈ elements ctx mm a ct s.c (s.start + j) := by
  simp only [sliceElements, sliceColumn, elements, List.mem_flatMap, List.mem_range]
  constructor
  · rintro ⟨k, hk, j, hj, hel⟩
    exact ⟨j, hj, k, hk, hel⟩
  · rintro ⟨j, hj, k, hk, hel⟩
    exact ⟨k, hk, j, hj, hel⟩

end Memory

/-! ## All chunks of a world -/

namespace World

variable {ctx : Context} {custom : TypeIndex → List UInt8 → List Entity} {w : World}
  {cs : List ChunkId} {c : ChunkId} {i : Nat} {e : Entity} {el : Element} {p : Entity → Entity}

/-- The parts of a chunk in an archetype. -/
def chunkParts (ctx : Context) (w : World) (c : ChunkId) : List Part :=
  match w.archetypeOf c with
  | none => []
  | some (_, a) =>
      w.memory.sliceParts ctx a (w.store.ct c) { c := c, start := 0, count := w.store.count c }

/-- The handles in some chunks. -/
def handlesIn (w : World) (cs : List ChunkId) : List Entity :=
  cs.flatMap fun c => w.handles { c := c, start := 0, count := w.store.count c }

/-- The program keeps the buffers of all live entities in order. -/
def AllTidy (ctx : Context) (custom : TypeIndex → List UInt8 → List Entity) (w : World) : Prop :=
  ∀ members, (∀ e ∈ members, w.Alive e) → w.Tidy ctx custom members

/-- `cs` are the chunks of a world in good order. -/
structure AllChunks (ctx : Context) (custom : TypeIndex → List UInt8 → List Entity) (w : World)
    (cs : List ChunkId) : Prop where
  sound : Sound ctx nowhere w
  listed : w.store.Listed ctx
  small : w.ents.size < 2 ^ 24
  tidy : w.AllTidy ctx custom
  nodup : cs.Nodup
  mem : ∀ c, c ∈ cs ↔ w.store.type c ≠ none

theorem AllChunks.inSlot (h : AllChunks ctx custom w cs) (hf : w.Found e c i) :
    ∃ g a, w.InSlot e c i g a := by
  obtain ⟨g, hg⟩ := Option.ne_none_iff_exists'.mp hf.occupied.1
  obtain ⟨a, ha⟩ := h.listed.alive c g hg
  exact ⟨g, a, hf, archetypeOf_eq_some.mpr ⟨hg, ha⟩⟩

theorem AllChunks.mem_handlesIn (h : AllChunks ctx custom w cs) :
    e ∈ w.handlesIn cs ↔ w.Alive e := by
  simp only [handlesIn, handles, List.mem_flatMap, List.mem_map, List.mem_range, Nat.zero_add]
  constructor
  · rintro ⟨c, hc, i, hi, rfl⟩
    exact ⟨c, i, h.sound.found ⟨(h.mem c).mp hc, hi⟩⟩
  · rintro ⟨c, i, hf⟩
    exact ⟨c, (h.mem c).mpr hf.occupied.1, i, hf.occupied.2, hf.handle⟩

theorem AllChunks.members (h : AllChunks ctx custom w cs) :
    w.Tidy ctx custom (w.handlesIn cs) :=
  h.tidy _ fun _ he => h.mem_handlesIn.mp he

theorem AllChunks.mem_handle (h : AllChunks ctx custom w cs) :
    Part.handle c i ∈ cs.flatMap (w.chunkParts ctx) ↔ w.store.Occupied c i := by
  rw [List.mem_flatMap]
  constructor
  · rintro ⟨d, hd, hq⟩
    rw [chunkParts] at hq
    split at hq
    · simp at hq
    · rcases List.mem_append.mp hq with hq | hq
      · obtain ⟨j, hj, heq⟩ := List.mem_map.mp hq
        rw [Part.handle.injEq, Nat.zero_add] at heq
        obtain ⟨rfl, rfl⟩ := heq
        exact ⟨(h.mem d).mp hd, List.mem_range.mp hj⟩
      · simp at hq
  · intro hi
    obtain ⟨g, a, hslot⟩ := h.inSlot (h.sound.found hi)
    refine ⟨c, (h.mem c).mpr hi.1, ?_⟩
    rw [chunkParts, hslot.archetype]
    refine List.mem_append_left _ (List.mem_map.mpr ⟨i, List.mem_range.mpr hi.2, ?_⟩)
    rw [Nat.zero_add]

theorem AllChunks.mem_element (h : AllChunks ctx custom w cs) :
    Part.element el ∈ cs.flatMap (w.chunkParts ctx) ↔
      el ∈ (w.handlesIn cs).flatMap (w.elementsOf ctx) := by
  rw [List.mem_flatMap, List.mem_flatMap]
  constructor
  · rintro ⟨c, hc, hq⟩
    rw [chunkParts] at hq
    split at hq
    · simp at hq
    next g a harch =>
      rcases List.mem_append.mp hq with hq | hq
      · simp at hq
      · obtain ⟨el', hel, heq⟩ := List.mem_map.mp hq
        obtain rfl := Part.element.inj heq
        obtain ⟨i, hi, hel⟩ := Memory.mem_sliceElements.mp hel
        rw [Nat.zero_add] at hel
        have hf := h.sound.found (show w.store.Occupied c i from ⟨(h.mem c).mp hc, hi⟩)
        refine ⟨_, h.mem_handlesIn.mpr ⟨c, i, hf⟩, ?_⟩
        rwa [InSlot.elementsOf ⟨hf, harch⟩ h.small]
  · rintro ⟨e, he, hel⟩
    obtain ⟨c, i, g, a, hslot⟩ := h.members.live e he
    rw [hslot.elementsOf h.small] at hel
    refine ⟨c, (h.mem c).mpr hslot.found.occupied.1, ?_⟩
    rw [chunkParts, hslot.archetype]
    refine List.mem_append_right _ (List.mem_map_of_mem (Memory.mem_sliceElements.mpr ?_))
    exact ⟨i, hslot.found.occupied.2, (Nat.zero_add i).symm ▸ hel⟩

/-- The handles lie before the columns. -/
theorem AllChunks.handle_before (h : AllChunks ctx custom w cs) (hi : w.store.Occupied c i)
    {g : ArchetypeId} {a : Archetype} (ha : w.archetypeOf c = some (g, a)) {k j : Nat}
    (hk : k < a.firstTag) :
    sizeofEntity * i + sizeofEntity ≤ a.address (w.store.ct c) k j := by
  obtain ⟨htype, harch⟩ := archetypeOf_eq_some.mp ha
  have hlay : Layout a := constructArchetype_layout (h.listed.built g a harch).2
  have hlt : i < a.chunkCapacity (w.store.ct c) :=
    hi.2.trans_le (h.listed.count_le c g a htype harch)
  have hmul := Nat.mul_le_mul_left sizeofEntity (Nat.succ_le_of_lt hlt)
  rw [Nat.mul_succ] at hmul
  exact (hmul.trans (hlay.handles_le _ k hk)).trans (Nat.le_add_right ..)

/-- A handle does not meet an element. -/
theorem AllChunks.handle_apart (h : AllChunks ctx custom w cs) (hi : w.store.Occupied c i)
    (hel : el ∈ (w.handlesIn cs).flatMap (w.elementsOf ctx)) (hpl : el.place = .chunk c) :
    sizeofEntity * i + sizeofEntity ≤ el.addr := by
  obtain ⟨e, he, hel⟩ := List.mem_flatMap.mp hel
  obtain ⟨c', i', g, a, k, hslot, hk, hel⟩ := h.members.column h.listed.toWf h.small he hel
  rcases Memory.place_of_mem (h.members.slot e he c' i' g a hslot) hel with
    ⟨hpl', hlo, -, -⟩ | ⟨-, -, hpl'⟩
  · obtain rfl : c = c' := Place.chunk.inj (hpl.symm.trans hpl')
    exact (h.handle_before hi hslot.archetype hk).trans hlo
  · rw [hpl'] at hpl
    simp at hpl

theorem AllChunks.workable (h : AllChunks ctx custom w cs) :
    w.memory.Workable ctx custom (cs.flatMap (w.chunkParts ctx)) where
  lawful el hel := (h.members.patchable h.listed.toWf h.small).lawful el (h.mem_element.mp hel)
  apart q hq q' hq' hne hpl := by
    cases q with
    | handle c i =>
        have hi := h.mem_handle.mp hq
        cases q' with
        | handle c' i' =>
            obtain rfl : c = c' := Place.chunk.inj hpl
            have hii : i ≠ i' := fun heq => hne (heq ▸ rfl)
            change 4 * i + 4 ≤ 4 * i' ∨ 4 * i' + 4 ≤ 4 * i
            omega
        | element el' => exact Or.inl (h.handle_apart hi (h.mem_element.mp hq') hpl.symm)
    | element el =>
        cases q' with
        | handle c' i' =>
            exact Or.inr (h.handle_apart (h.mem_handle.mp hq') (h.mem_element.mp hq) hpl)
        | element el' =>
            exact (h.members.patchable h.listed.toWf h.small).apart el (h.mem_element.mp hq) el'
              (h.mem_element.mp hq') (fun heq => hne (heq ▸ rfl)) hpl
  hasBytes q hq := by
    cases q with
    | handle c i => trivial
    | element el =>
        exact (h.members.patchable h.listed.toWf h.small).hasBytes el (h.mem_element.mp hq)

theorem AllChunks.headersOff (h : AllChunks ctx custom w cs) (hi : w.store.Occupied c i)
    {g : ArchetypeId} {a : Archetype} (ha : w.archetypeOf c = some (g, a)) :
    Memory.HeadersOff ((cs.flatMap (w.chunkParts ctx)).map Part.bytes) a (w.store.ct c) c i := by
  intro k hlo hhi el hel x hxlo hxhi hcov
  obtain ⟨q, hq, rfl⟩ := List.mem_map.mp hel
  have hf := h.sound.found hi
  have hslot : w.InSlot _ c i g a := ⟨hf, ha⟩
  cases q with
  | handle c' j =>
      obtain ⟨hpl, -, hlt⟩ := hcov
      obtain rfl : c' = c := Place.chunk.inj hpl
      have hk : k < a.firstTag := hhi.trans_le (hslot.layout h.listed.toWf).managed_le
      have hbefore : sizeofEntity * j + sizeofEntity ≤ a.address (w.store.ct c') k i :=
        h.handle_before (h.mem_handle.mp hq) ha hk
      exact absurd (hlt.trans_le (hbefore.trans hxlo)) (lt_irrefl x)
  | element el =>
      exact h.members.headersOff h.listed.toWf h.small (h.mem_handlesIn.mpr ⟨c, i, hf⟩) hslot k hlo
        hhi el (h.mem_element.mp hq) x hxlo hxhi hcov

/-! ## Each part is worked on once -/

theorem AllChunks.count_handle (h : AllChunks ctx custom w cs) (hi : w.store.Occupied c i) :
    (cs.flatMap (w.chunkParts ctx)).count (.handle c i) = 1 := by
  obtain ⟨g, a, hslot⟩ := h.inSlot (h.sound.found hi)
  rw [count_flatMap (a := c), h.nodup.count, if_pos ((h.mem c).mpr hi.1)]
  · have hinj : Function.Injective fun j => Part.handle c (0 + j) := fun j j' hj => by
      simpa using hj
    have hnone : ∀ L : List Element, (L.map Part.element).count (.handle c i) = 0 := fun L =>
      List.count_eq_zero_of_not_mem (by simp)
    have hone := List.count_map_of_injective (List.range (w.store.count c)) _ hinj i
    rw [Nat.zero_add, List.nodup_range.count, if_pos (List.mem_range.mpr hi.2)] at hone
    rw [chunkParts, hslot.archetype]
    exact (List.count_append ..).trans (congrArg₂ (· + ·) hone (hnone _))
  · intro d _ hne hq
    rw [chunkParts] at hq
    split at hq
    · simp at hq
    · rcases List.mem_append.mp hq with hq | hq
      · obtain ⟨j, -, heq⟩ := List.mem_map.mp hq
        exact hne (Part.handle.inj heq).1
      · simp at hq

theorem AllChunks.count_element (h : AllChunks ctx custom w cs) (he : w.Alive e)
    (hel : el ∈ w.elementsOf ctx e) (hlen : 0 < el.len) :
    (cs.flatMap (w.chunkParts ctx)).count (.element el) = 1 := by
  have hwf := h.listed.toWf
  have hmem := h.mem_handlesIn.mpr he
  obtain ⟨c, i, g, a, k, hslot, hk, hcol⟩ := h.members.column hwf h.small hmem hel
  have hinj : Function.Injective Part.element := fun _ _ => Part.element.inj
  have hself : ¬ el.Apart el := fun hap => by
    have := hap rfl
    omega
  -- the column of another slot does not have it
  have hother : ∀ d j l g' b, w.store.Occupied d j → w.archetypeOf d = some (g', b) →
      l < b.firstTag → ¬ (c = d ∧ i = j ∧ k = l) →
      el ∉ w.memory.columnElements ctx b (w.store.ct d) d j l := by
    intro d j l g' b hj harch hl hne hel'
    have hf := h.sound.found hj
    have hmem' := h.mem_handlesIn.mpr ⟨d, j, hf⟩
    exact hself (h.members.apart_columns hwf hmem hmem' hslot ⟨hf, harch⟩ hk hl hcol hel' hne)
  have hi := hslot.found.occupied
  have hlay := hslot.layout hwf
  rw [count_flatMap (a := c), h.nodup.count, if_pos ((h.mem c).mpr hi.1)]
  · rw [chunkParts, hslot.archetype]
    dsimp only
    rw [Memory.sliceParts, List.count_append, List.count_eq_zero_of_not_mem (by simp),
      Nat.zero_add, List.count_map_of_injective _ _ hinj, Memory.sliceElements,
      count_flatMap (a := k), (Memory.nodup_patchOrder hlay).count,
      if_pos ((Memory.mem_patchOrder hlay).mpr hk)]
    · rw [Memory.sliceColumn, count_flatMap (a := i), List.nodup_range.count,
        if_pos (List.mem_range.mpr hi.2)]
      · rw [Nat.zero_add]
        exact Memory.count_column hcol hlen
      · intro j hj hne
        rw [Nat.zero_add]
        exact hother c j k g a ⟨hi.1, List.mem_range.mp hj⟩ hslot.archetype hk fun heq =>
          hne heq.2.1.symm
    · intro l hl hne hmem'
      obtain ⟨j, hj, hel'⟩ := List.mem_flatMap.mp hmem'
      rw [Nat.zero_add] at hel'
      exact hother c j l g a ⟨hi.1, List.mem_range.mp hj⟩ hslot.archetype
        ((Memory.mem_patchOrder hlay).mp hl) (fun heq => hne heq.2.2.symm) hel'
  · intro d hd hne hq
    rw [chunkParts] at hq
    split at hq
    · simp at hq
    next g' b harch =>
      rcases List.mem_append.mp hq with hq | hq
      · simp at hq
      · obtain ⟨el', hel', heq⟩ := List.mem_map.mp hq
        obtain rfl := Part.element.inj heq
        obtain ⟨l, hl, hel'⟩ := List.mem_flatMap.mp hel'
        obtain ⟨j, hj, hel'⟩ := List.mem_flatMap.mp hel'
        rw [Nat.zero_add] at hel'
        have hj' : w.store.Occupied d j := ⟨(h.mem d).mp hd, List.mem_range.mp hj⟩
        have hlay' := InSlot.layout hwf ⟨h.sound.found hj', harch⟩
        exact hother d j l g' b hj' harch ((Memory.mem_patchOrder hlay').mp hl)
          (fun heq => hne heq.1.symm) hel'

/-- The loop over the chunks is one over their parts. -/
theorem AllChunks.patchMoved_eq (h : AllChunks ctx custom w cs) (hp : Memory.Bounded p)
    {mm : Memory} (hs : cs.foldlM (patchMoved ctx p w) w.memory = some mm) :
    mm = (cs.flatMap (w.chunkParts ctx)).foldl (Memory.patchPart ctx p) w.memory := by
  refine (foldlM_initial (I := fun l mm =>
    Memory.AgreeOff ((cs.flatMap (w.chunkParts ctx)).map Part.bytes) w.memory mm ∧
      mm = (l.flatMap (w.chunkParts ctx)).foldl (Memory.patchPart ctx p) w.memory)
    (fun l c mm₁ mm₂ hc hone hI => ?_) hs ⟨.refl _ _, rfl⟩).2
  obtain ⟨hagree, heq⟩ := hI
  simp only [patchMoved, Option.bind_eq_bind, Option.bind_eq_some_iff] at hone
  obtain ⟨⟨g, a⟩, harch, hpatch⟩ := hone
  have hparts : w.chunkParts ctx c = w.memory.sliceParts ctx a (w.store.ct c)
      { c := c, start := 0, count := w.store.count c } := by
    rw [chunkParts, harch]
  have hsub : ∀ q ∈ w.chunkParts ctx c, q ∈ cs.flatMap (w.chunkParts ctx) := fun q hq =>
    List.mem_flatMap.mpr ⟨c, hc, hq⟩
  have hchunk := Memory.patchChunk_eq h.workable hp (fun j hj => by
    rw [Nat.zero_add]
    exact h.headersOff ⟨(h.mem c).mp hc, hj⟩ harch) (hparts ▸ hsub) hagree hpatch
  rw [← hparts] at hchunk
  refine ⟨?_, ?_⟩
  · rw [hchunk]
    exact ((h.workable.separate hp).foldl hsub hagree).1
  · rw [hchunk, heq, List.flatMap_append, List.flatMap_singleton, List.foldl_append]

/-- What `patch_chunk` on all chunks makes of handles and elements. -/
theorem AllChunks.patched (h : AllChunks ctx custom w cs) (hp : Memory.Bounded p)
    {mm : Memory} (hs : cs.foldlM (patchMoved ctx p w) w.memory = some mm) :
    (∀ c i, w.store.Occupied c i → mm.entityAt c i = p (w.memory.entityAt c i)) ∧
      ∀ e, w.Alive e → ∀ el ∈ w.elementsOf ctx e,
        mm.element el = Memory.patched ctx el.type p (w.memory.element el) := by
  have hval := ((h.workable.separate hp).foldl (fun _ hq => hq) (.refl _ _)).2
  rw [← h.patchMoved_eq hp hs] at hval
  constructor
  · intro c i hi
    have hhandle := hval _ (h.mem_handle.mpr hi)
    rw [h.count_handle hi, Function.iterate_one] at hhandle
    exact Sum.inl.inj hhandle
  · intro e he el hel
    have hmem := List.mem_flatMap.mpr ⟨e, h.mem_handlesIn.mpr he, hel⟩
    have helem := hval _ (h.mem_element.mpr hmem)
    have hlaw := h.workable.lawful el (h.mem_element.mpr hmem)
    have hlength : (w.memory.element el).length = el.len := Memory.length_read ..
    rcases Nat.eq_zero_or_pos el.len with hzero | hpos
    · -- an element without bytes
      have hnil : ∀ mm : Memory, mm.element el = [] := fun mm =>
        List.length_eq_zero_iff.mp ((Memory.length_read ..).trans hzero)
      have hlen := Memory.length_patched (hlength ▸ hlaw) p
      rw [hlength, hzero] at hlen
      rw [hnil mm, List.length_eq_zero_iff.mp hlen]
    · rw [h.count_element he hel hpos, Function.iterate_one] at helem
      exact Sum.inr.inj helem

end World

/-! ## References -/

namespace Memory

variable {ctx : Context} {custom : TypeIndex → List UInt8 → List Entity} {t : TypeIndex}
  {bs : List UInt8} {n : Nat} {p : Entity → Entity}

/-- A custom patch function takes the `custom` references to what the patcher makes of them.
They are not among those that the registry lists. -/
structure LawfulRefs (ctx : Context) (custom : TypeIndex → List UInt8 → List Entity)
    (t : TypeIndex) (n : Nat) : Prop extends LawfulPatch ctx custom t n where
  none : ∀ bs, (ctx.info t).vtable.patch = none → bs.length = n → custom t bs = []
  renamed : ∀ f p bs, (ctx.info t).vtable.patch = some f → bs.length = n → Bounded p →
    custom t (f p bs) = (custom t bs).map p
  others : ∀ p bs, bs.length = n → Bounded p → custom t (mapRefs ctx t p bs) = custom t bs
  kept : ∀ f p bs, (ctx.info t).vtable.patch = some f → bs.length = n → Bounded p →
    ∀ r ∈ refOffsets ctx t, Mem.readWord (ofBytes (f p bs)) r 4 = Mem.readWord (ofBytes bs) r 4

theorem readWord_mapRefs (hl : LawfulPatch ctx custom t bs.length) (hp : Bounded p) {r : Nat}
    (hr : r ∈ refOffsets ctx t) : Mem.readWord (ofBytes (mapRefs ctx t p bs)) r 4 =
      (p ⟨Mem.readWord (ofBytes bs) r 4⟩).value := by
  have hin := hl.inside r hr
  have hword := hl.apart.readWord_mapWords (ofBytes bs) 0 hp.words hr
  rw [Nat.zero_add] at hword
  rw [← hword]
  apply Mem.readWord_congr
  intro i hi
  have hbyte : ofBytes (mapRefs ctx t p bs) (0 + (r + i)) = _ := ofBytes_read _ 0 (by omega)
  rwa [Nat.zero_add] at hbyte

theorem references_mapRefs (hl : LawfulRefs ctx custom t bs.length) (hp : Bounded p) :
    references ctx custom t (mapRefs ctx t p bs) =
      ((refOffsets ctx t).map fun r => p ⟨Mem.readWord (ofBytes bs) r 4⟩) ++ custom t bs := by
  rw [references, hl.others p bs rfl hp]
  congr 1
  exact List.map_congr_left fun r hr => Entity.ext (readWord_mapRefs hl.toLawfulPatch hp hr)

/-- Patching takes each reference to what the patcher makes of it. -/
theorem references_patched (hl : LawfulRefs ctx custom t bs.length) (hp : Bounded p) :
    references ctx custom t (patched ctx t p bs) = (references ctx custom t bs).map p := by
  have hlength : (mapRefs ctx t p bs).length = bs.length := length_mapRefs ..
  have hlisted : ∀ cu : List Entity, ((refOffsets ctx t).map fun r =>
      p ⟨Mem.readWord (ofBytes bs) r 4⟩) ++ cu.map p =
        (((refOffsets ctx t).map fun r => (⟨Mem.readWord (ofBytes bs) r 4⟩ : Entity)) ++ cu).map p :=
    fun cu => by rw [List.map_append, List.map_map]; rfl
  have hmap := references_mapRefs hl hp
  cases hf : (ctx.info t).vtable.patch with
  | none =>
      have hnone : custom t bs = [] := hl.none bs hf rfl
      simp only [patched, hf]
      rw [hmap, references, ← hlisted, hnone]
      rfl
  | some f =>
      simp only [patched, hf]
      rw [references, references, ← hlisted, hl.renamed f p _ hf hlength hp, hl.others p bs rfl hp]
      congr 1
      refine List.map_congr_left fun r hr => Entity.ext ?_
      exact (hl.kept f p _ hf hlength hp r hr).trans (readWord_mapRefs hl.toLawfulPatch hp hr)

end Memory

/-! ## The table -/

namespace Entities

variable {ents ents' : Entities} {mm : Memory} {L : Slots} {n i : Nat} {es : List Entity}

theorem newEntitiesArray_size_le (hs : ents.newEntitiesArray n = some (ents', es)) :
    ents.size ≤ ents'.size := by
  induction n generalizing ents es with
  | zero =>
      obtain ⟨rfl, -⟩ := Prod.mk.inj (Option.some.inj hs)
      exact le_rfl
  | succ n ih =>
      simp only [newEntitiesArray, Option.bind_eq_bind, Option.bind_eq_some_iff,
        Option.some.injEq, Prod.mk.injEq] at hs
      obtain ⟨⟨ents₁, e⟩, htake, ⟨ents₂, es'⟩, hrest, rfl, -⟩ := hs
      exact (takeId_size_le htake).trans (ih hrest)

/-- The new handles. -/
theorem newEntitiesArray_spec (h : Tracks ents mm L)
    (hs : ents.newEntitiesArray n = some (ents', es)) (hsize : ents'.size < 2 ^ 24) :
    Tracks ents' mm L ∧ es.length = n ∧ ∀ e ∈ es, e.id < ents'.size ∧ e.value < 2 ^ 32 := by
  induction n generalizing ents es with
  | zero =>
      obtain ⟨rfl, rfl⟩ := Prod.mk.inj (Option.some.inj hs)
      exact ⟨h, rfl, fun e he => absurd he List.not_mem_nil⟩
  | succ n ih =>
      simp only [newEntitiesArray, Option.bind_eq_bind, Option.bind_eq_some_iff,
        Option.some.injEq, Prod.mk.injEq] at hs
      obtain ⟨⟨ents₁, e⟩, htake, ⟨ents₂, es'⟩, hrest, rfl, rfl⟩ := hs
      have hle : ents₁.size ≤ ents₂.size := newEntitiesArray_size_le hrest
      obtain ⟨h₁, hvalue, hid, -⟩ := takeId_spec h htake (hle.trans_lt hsize).le
      obtain ⟨h₂, hlength, hall⟩ := ih h₁ hrest
      refine ⟨h₂, congrArg (· + 1) hlength, fun e' he' => ?_⟩
      rcases List.mem_cons.mp he' with rfl | he'
      · exact ⟨hid.trans_le hle, hvalue⟩
      · exact hall e' he'

theorem validBefore_lt (hi : i < n) (hc : (ents.datas i).c.notNull = true) :
    (ents.validBefore i).length < (ents.validBefore n).length := by
  have hsplit : n = (i + 1) + (n - (i + 1)) := by omega
  rw [validBefore, validBefore, hsplit, List.range_add, List.filter_append, List.range_succ,
    List.filter_append, List.filter_singleton, hc]
  simp only [List.length_append, cond_true, List.length_singleton]
  omega

end Entities

variable {sents : Entities} {es : List Entity} {e x : Entity} {raw : Nat → Nat}

theorem read_renamingOf : (renamingOf sents es).read x =
    if sents.size < x.id then none else some x.id := by
  simp only [Renaming.read, renamingOf, Nat.not_lt_zero, false_or, Nat.zero_add, gt_iff_lt,
    Nat.sub_zero]

theorem bounded_patch (hes : ∀ e ∈ es, e.value < 2 ^ 32) :
    Memory.Bounded ((renamingOf sents es).patch raw) := by
  intro x _
  rw [Renaming.patch]
  split
  · decide
  next i _ =>
    cases ht : (renamingOf sents es).target i with
    | none => exact Nat.mod_lt _ (by decide)
    | some e =>
        simp only [renamingOf] at ht
        split_ifs at ht
        exact hes e (List.mem_of_getElem? ht)

end Dots

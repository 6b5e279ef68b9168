import Dots.Database.Lookup
import Dots.Database.Saving
import Dots.Database.Undisturbed

/-!
# `gather_reference`

The references of a group that go out of it. `serialize_group` writes the members of nested
groups with it; `gather_reference` looks at the entries of the group alone.
-/

namespace Dots

open Library

namespace Mem

theorem write_read (m : Mem) (a n : Nat) : m.write a (m.read a n) = m := by
  funext x
  simp only [Library.Mem.write, Library.Mem.length_read]
  split_ifs with h
  · rw [List.getD_eq_getElem?_getD]
    simp [Library.Mem.read, show x - a < n by omega, show a + (x - a) = x by omega]
  · rfl

end Mem

namespace Context

variable {ctx : Context}

/-- The group is a buffer of references. -/
theorem Built.group (h : ctx.Built) :
    (ctx.infos[2]?).map (fun i =>
        (i.elementSize, i.entityRefCount, ctx.entityRefs[i.entityRefs]?)) =
      some (sizeofEntity, 1, some 0) := by
  induction h with
  | initial guid => cases guid <;> decide
  | @register ctx h desc ih =>
      obtain ⟨i, hget, hi⟩ := Option.map_eq_some_iff.mp ih
      obtain ⟨hsize, hcount, hrefs⟩ := by simpa only [Prod.mk.injEq] using hi
      have hlen := (List.getElem?_eq_some_iff.mp hget).1
      have hlen' := (List.getElem?_eq_some_iff.mp hrefs).1
      unfold Context.registerType
      split
      · exact ih
      · dsimp only
        rw [List.getElem?_append_left hlen, hget, Option.map_some,
          List.getElem?_append_left hlen', hsize, hcount, hrefs]

theorem Built.info_group (h : ctx.Built) : ∃ i, ctx.info ctx.groupId = i ∧
    i.elementSize = sizeofEntity ∧ i.entityRefCount = 1 ∧
      ctx.entityRefs[i.entityRefs]? = some 0 := by
  obtain ⟨i, hget, hi⟩ := Option.map_eq_some_iff.mp h.group
  refine ⟨i, ?_, by simpa only [Prod.mk.injEq] using hi⟩
  rw [h.ids.2.2.1, info, List.getD_eq_getElem?_getD,
    show TypeIndex.index (TypeIndex.make 2 .buffer) = 2 from rfl, hget, Option.getD_some]

/-- Each entry of a group is one reference. -/
theorem Built.refOffsets_group (h : ctx.Built) : Memory.refOffsets ctx ctx.groupId = [0] := by
  obtain ⟨i, hinfo, -, hcount, hrefs⟩ := h.info_group
  obtain ⟨hlt, hzero⟩ := List.getElem?_eq_some_iff.mp hrefs
  rw [Memory.refOffsets, hinfo, hcount, List.drop_eq_getElem_cons hlt, hzero]
  rfl

end Context

namespace Memory

variable {ctx : Context} {custom : TypeIndex → List UInt8 → List Entity} {mm : Memory}
  {a : Archetype} {ct : AllocType} {c : ChunkId} {i : Nat} {t : TypeIndex} {n : Nat}

/-! ## A patcher that gives each reference back -/

theorem bounded_id : Bounded id := fun _ => id

theorem patchElement_id (hl : LawfulPatch ctx custom t n) (m : Mem) (x : Nat) :
    patchElement ctx t n id m x = m := by
  have hwords : Mem.mapWords (fun v => (id (⟨v⟩ : Entity)).value) m x (refOffsets ctx t) = m := by
    apply Mem.mapWords_fix
    intro r _
    rfl
  simp only [Mem.mapWords] at hwords
  simp only [patchElement, hwords]
  split
  · rfl
  · next f hf =>
    rw [hl.fix f id _ hf (length_read ..) bounded_id fun _ _ => rfl,
      List.take_of_length_le (length_read ..).le, Mem.write_read]

/-- What the program sees to in a slot that is patched: lawful patch functions, and buffers whose
elements have a size and whose block is there. -/
structure GoodSlot (ctx : Context) (custom : TypeIndex → List UInt8 → List Entity) (mm : Memory)
    (a : Archetype) (ct : AllocType) (c : ChunkId) (i : Nat) : Prop where
  plain : ∀ k < a.firstTag, ¬ a.IsBuffer k → LawfulPatch ctx custom (a.types.getD k 0) (a.size k)
  buffer : ∀ k, a.IsBuffer k →
    LawfulPatch ctx custom (a.types.getD k 0) (ctx.info (a.types.getD k 0)).elementSize
  sized : ∀ k, a.IsBuffer k → 0 < (ctx.info (a.types.getD k 0)).elementSize
  block : ∀ k, a.IsBuffer k → (Mem.readBuffer (mm.data c) (a.address ct k i)).d ≠ 0 →
    mm.heap (Mem.readBuffer (mm.data c) (a.address ct k i)).d ≠ none

theorem setData_self (mm : Memory) (c : ChunkId) : mm.setData c (mm.data c) = mm := by
  rw [setData, Function.update_eq_self]

theorem patchColumn_id {k : Nat} (hl : LawfulPatch ctx custom (a.types.getD k 0) (a.size k))
    (s : ChunkSlice) : patchColumn ctx a ct s (fun _ => id) mm k = mm := by
  have hall : (List.range s.count).foldl (fun m j => patchElement ctx (a.types.getD k 0) (a.size k)
      id m (a.address ct k (s.start + j))) (mm.data s.c) = mm.data s.c :=
    foldl_stays fun _ _ => patchElement_id hl _ _
  rw [patchColumn, hall, setData_self]

theorem patchBufferAt_id {addr : Nat} (hl : LawfulPatch ctx custom t (ctx.info t).elementSize)
    (hsize : 0 < (ctx.info t).elementSize)
    (hblock : (Mem.readBuffer (mm.data c) addr).d ≠ 0 →
      mm.heap (Mem.readBuffer (mm.data c) addr).d ≠ none) :
    patchBufferAt ctx t c id mm addr = some mm := by
  have hall : ∀ (m : Mem) (base n : Nat), (List.range n).foldl (fun m l =>
      patchElement ctx t (ctx.info t).elementSize id m
        (base + (ctx.info t).elementSize * l)) m = m := fun m base n =>
    foldl_stays fun _ _ => patchElement_id hl _ _
  simp only [patchBufferAt, hall, if_neg hsize.ne', setData_self]
  split_ifs with hd
  · rfl
  · cases hheap : mm.heap (Mem.readBuffer (mm.data c) addr).d with
    | none => exact absurd hheap (hblock hd)
    | some block =>
        dsimp only
        rw [← hheap, Function.update_eq_self]

/-- Nothing changes. -/
theorem patch_id (hl : Layout a) (h : GoodSlot ctx custom mm a ct c i) :
    mm.patch ctx a ct { c := c, start := i, count := 1 } (fun _ => id) = some mm := by
  have hman := hl.managed_le
  have hbuf := hl.buffer_le
  have hplain : ∀ lo hi, (hi ≤ a.firstBuffer ∨ a.firstManaged ≤ lo) → hi ≤ a.firstTag →
      (columns lo hi).foldl (patchColumn ctx a ct { c := c, start := i, count := 1 }
        fun _ => id) mm = mm := by
    intro lo hi hout hhi
    refine foldl_stays fun k hk => patchColumn_id (h.plain k ?_ ?_) _
    · exact (mem_columns.mp hk).2.trans_le hhi
    · rintro ⟨hlo', hhi'⟩
      have hk := mem_columns.mp hk
      omega
  rw [patch, hplain _ _ (.inl le_rfl) (by omega), hplain _ _ (.inr le_rfl) le_rfl]
  refine foldlM_stays fun k hk => ?_
  have hk : a.IsBuffer k := mem_columns.mp hk
  refine foldlM_stays fun j hj => ?_
  obtain rfl : j = 0 := Nat.lt_one_iff.mp (List.mem_range.mp hj)
  exact patchBufferAt_id (h.buffer k hk) (h.sized k hk) (h.block k hk)

end Memory

namespace World

variable {ctx : Context} {custom : TypeIndex → List UInt8 → List Entity} {w w' : World}
  {e x : Entity} {c : ChunkId} {addr : Nat} {entries members : List Entity} {fuel : Nat}

/-! ## The calls -/

/-- The metatypes of an entity's archetype. -/
def metatypesOf (w : World) (e : Entity) : List Entity :=
  (((w.asSlice e).bind fun s => w.archetypeOf s.c).map fun p => p.2.metatypes).getD []

/-- What `p.patch` is handed for an entity, in order: the metatypes, and what `chunk::patch`
comes to in its components. -/
def heldBy (ctx : Context) (custom : TypeIndex → List UInt8 → List Entity) (w : World)
    (e : Entity) : List Entity :=
  w.metatypesOf e ++ w.referencesOf ctx custom e

/-- One entity of `gather_reference`. The patcher gives each reference back; it pushes those
that are not in `source`. -/
def gatherEntity (ctx : Context) (custom : TypeIndex → List UInt8 → List Entity)
    (source : List Entity) (p : World × List Entity) (e : Entity) :
    Option (World × List Entity) := do
  let w ← p.1.patchEntity ctx e fun _ => id
  some (w, p.2 ++ (p.1.heldBy ctx custom e).filter fun x => !source.contains x)

/-- The entries of the group at `addr`, `memcpy(members, group_data->data(), …)`. -/
def groupEntries (w : World) (c : ChunkId) (addr : Nat) : Option (List Entity) :=
  (List.range (w.groupSize c addr)).mapM fun i => w.groupMember c addr i

/-- `world::gather_reference`. -/
def gatherReference (ctx : Context) (custom : TypeIndex → List UInt8 → List Entity) (w : World)
    (e : Entity) : Option (World × List Entity) := do
  match ← w.getComponentRo e ctx.groupId with
  | none => gatherEntity ctx custom [e] (w, []) e
  | some (c, addr) =>
      let members ← w.groupEntries c addr
      members.foldlM (gatherEntity ctx custom members) (w, [])

/-- What is held by the entities of a list and not in it. One that is listed twice counts
twice. -/
def externalReferences (ctx : Context) (custom : TypeIndex → List UInt8 → List Entity) (w : World)
    (members : List Entity) : List Entity :=
  members.flatMap fun e => (w.heldBy ctx custom e).filter fun x => !members.contains x

/-! ## What it returns -/

/-- An entity that is patched without harm. -/
def InOrder (ctx : Context) (custom : TypeIndex → List UInt8 → List Entity) (w : World)
    (e : Entity) : Prop :=
  ∃ s g a, w.asSlice e = some s ∧ w.archetypeOf s.c = some (g, a) ∧
    Memory.GoodSlot ctx custom w.memory a (w.store.ct s.c) s.c s.start

theorem patchEntity_id (hbuilt : w.store.Constructed ctx) (h : w.InOrder ctx custom e) :
    w.patchEntity ctx e (fun _ => id) = some w := by
  obtain ⟨s, g, a, hslice, harch, hgood⟩ := h
  have hlayout : Layout a :=
    constructArchetype_layout (hbuilt g a (archetypeOf_eq_some.mp harch).2)
  have hone : s = { c := s.c, start := s.start, count := 1 } := by
    rw [← entrySlice_count hslice]
  simp only [patchEntity, hslice, harch, Option.bind_eq_bind, Option.bind_some]
  rw [hone, Memory.patch_id hlayout hgood]
  rfl

theorem gatherEntities_eq (hbuilt : w.store.Constructed ctx) (es : List Entity)
    (h : ∀ e ∈ es, w.InOrder ctx custom e) (source result : List Entity) :
    es.foldlM (gatherEntity ctx custom source) (w, result) = some (w, result ++
      es.flatMap fun e => (w.heldBy ctx custom e).filter fun x => !source.contains x) := by
  induction es generalizing result with
  | nil => rw [List.flatMap_nil, List.append_nil]; rfl
  | cons e es ih =>
      have hturn : gatherEntity ctx custom source (w, result) e = some (w, result ++
          (w.heldBy ctx custom e).filter fun x => !source.contains x) := by
        simp only [gatherEntity, patchEntity_id hbuilt (h e List.mem_cons_self),
          Option.bind_eq_bind, Option.bind_some]
      rw [List.foldlM_cons, hturn, Option.bind_eq_bind, Option.bind_some,
        ih (fun e' he' => h e' (List.mem_cons_of_mem e he')), List.flatMap_cons, List.append_assoc]

/-- `gather_reference` of a group looks at its entries, and leaves everything as it is. -/
theorem gatherReference_eq (hbuilt : w.store.Constructed ctx)
    (hgroup : w.getComponentRo e ctx.groupId = some (some (c, addr)))
    (hentries : w.groupEntries c addr = some entries)
    (h : ∀ x ∈ entries, w.InOrder ctx custom x) :
    w.gatherReference ctx custom e = some (w, w.externalReferences ctx custom entries) := by
  simp only [gatherReference, hgroup, hentries, Option.bind_eq_bind, Option.bind_some]
  rw [gatherEntities_eq hbuilt entries h, List.nil_append]
  rfl

/-! ## Entries and members -/

/-- What an entry becomes in the flattened group. -/
def flattenEntry (ctx : Context) (fuel : Nat) (w : World) (e : Entity) : Option (List Entity) := do
  match ← w.getComponentRo e ctx.groupId with
  | some (c, addr) => w.flattenGroup ctx fuel c addr
  | none => some [e]

/-- Every group has its own root as entry 0. -/
def Rooted (ctx : Context) (w : World) : Prop :=
  ∀ e : Entity, e.value < 2 ^ 32 → ∀ c addr,
    w.getComponentRo e ctx.groupId = some (some (c, addr)) →
    0 < w.groupSize c addr ∧ w.groupMember c addr 0 = some e

theorem value_lt_of_groupEntries (h : w.groupEntries c addr = some entries) :
    ∀ x ∈ entries, x.value < 2 ^ 32 := by
  intro x hx
  obtain ⟨j, -, hmember⟩ := of_mem_mapM h hx
  simp only [groupMember] at hmember
  split_ifs at hmember
  · rw [← Option.some.inj hmember]
    exact Mem.readWord_lt _ _ 4
  · obtain ⟨block, -, rfl⟩ := Option.map_eq_some_iff.mp hmember
    exact Mem.readWord_lt _ _ 4

/-- The root, and what becomes of the other entries. -/
theorem flattenGroup_parts (hsize : 0 < w.groupSize c addr)
    (hs : w.flattenGroup ctx (fuel + 1) c addr = some members) :
    ∃ root rest parts, w.groupMember c addr 0 = some root ∧
      w.groupEntries c addr = some (root :: rest) ∧
      rest.mapM (w.flattenEntry ctx fuel) = some parts ∧ members = root :: parts.flatten := by
  simp only [flattenGroup, Option.bind_eq_bind, Option.bind_eq_some_iff] at hs
  obtain ⟨root, hroot, parts, hparts, hs⟩ := hs
  obtain rfl := Option.some.inj hs
  obtain ⟨rest, hrest, hflat⟩ := mapM_bind_eq_some
    (f := fun i => w.groupMember c addr (i + 1)) (g := w.flattenEntry ctx fuel) hparts
  refine ⟨root, rest, parts, hroot, ?_, hflat, rfl⟩
  rw [groupEntries, ← Nat.sub_add_cancel hsize, mapM_range_succ, hroot, hrest]
  rfl

theorem Rooted.head (hrooted : w.Rooted ctx) (he : e.value < 2 ^ 32) {part : List Entity}
    (hs : w.flattenEntry ctx fuel e = some part) : ∃ more, part = e :: more := by
  obtain ⟨group, hgroup, hs⟩ := Option.bind_eq_some_iff.mp hs
  cases group with
  | none => exact ⟨[], (Option.some.inj hs).symm⟩
  | some at_ =>
      obtain ⟨hsize, hroot⟩ := hrooted e he _ _ hgroup
      cases fuel with
      | zero => exact absurd hs nofun
      | succ fuel =>
          obtain ⟨root, rest, parts, hroot', -, -, rfl⟩ := flattenGroup_parts hsize hs
          obtain rfl := Option.some.inj (hroot.symm.trans hroot')
          exact ⟨parts.flatten, rfl⟩

theorem Rooted.sublist_flatten (hrooted : w.Rooted ctx) {rest : List Entity}
    (hrest : ∀ x ∈ rest, x.value < 2 ^ 32) {parts : List (List Entity)}
    (hs : rest.mapM (w.flattenEntry ctx fuel) = some parts) : rest.Sublist parts.flatten := by
  induction rest generalizing parts with
  | nil => exact List.nil_sublist _
  | cons x rest ih =>
      simp only [List.mapM_cons, Option.pure_def, Option.bind_eq_bind,
        Option.bind_eq_some_iff, Option.some.injEq] at hs
      obtain ⟨part, hpart, parts, hparts, rfl⟩ := hs
      obtain ⟨more, rfl⟩ := hrooted.head (hrest x List.mem_cons_self) hpart
      rw [List.flatten_cons, List.cons_append]
      have hrest' := ih (fun y hy => hrest y (List.mem_cons_of_mem x hy)) hparts
      exact (hrest'.trans (List.sublist_append_right more _)).cons_cons x

/-- The members have the entries among them. -/
theorem Rooted.sublist (hrooted : w.Rooted ctx) (he : e.value < 2 ^ 32)
    (hgroup : w.getComponentRo e ctx.groupId = some (some (c, addr)))
    (hflat : w.flattenGroup ctx fuel c addr = some members)
    (hentries : w.groupEntries c addr = some entries) : entries.Sublist members := by
  cases fuel with
  | zero => exact absurd hflat nofun
  | succ fuel =>
      obtain ⟨root, rest, parts, -, hentries', hparts, rfl⟩ :=
        flattenGroup_parts (hrooted e he c addr hgroup).1 hflat
      obtain rfl := Option.some.inj (hentries'.symm.trans hentries)
      refine (hrooted.sublist_flatten (fun x hx => ?_) hparts).cons_cons root
      exact value_lt_of_groupEntries hentries x (List.mem_cons_of_mem root hx)

/-- The entries of the groups of entries are members too. -/
theorem Rooted.nested_mem (hrooted : w.Rooted ctx) (he : e.value < 2 ^ 32)
    (hgroup : w.getComponentRo e ctx.groupId = some (some (c, addr)))
    (hflat : w.flattenGroup ctx fuel c addr = some members)
    (hentries : w.groupEntries c addr = some entries) {c' : ChunkId} {addr' : Nat}
    {nested : List Entity} (hx : x ∈ entries)
    (hgroup' : w.getComponentRo x ctx.groupId = some (some (c', addr')))
    (hnested : w.groupEntries c' addr' = some nested) : ∀ n ∈ nested, n ∈ members := by
  intro n hn
  cases fuel with
  | zero => exact absurd hflat nofun
  | succ fuel =>
      have hvalue := value_lt_of_groupEntries hentries x hx
      have hsub := hrooted.sublist he hgroup hflat hentries
      obtain ⟨hsize, hzero⟩ := hrooted e he c addr hgroup
      obtain ⟨root, rest, parts, hroot, hentries', hparts, rfl⟩ := flattenGroup_parts hsize hflat
      obtain rfl := Option.some.inj (hentries'.symm.trans hentries)
      obtain rfl := Option.some.inj (hzero.symm.trans hroot)
      rcases List.mem_cons.mp hx with rfl | hx
      · -- the group of the root is the one looked at
        rw [hgroup, Option.some.injEq, Option.some.injEq, Prod.mk.injEq] at hgroup'
        obtain ⟨rfl, rfl⟩ := hgroup'
        obtain rfl := Option.some.inj (hnested.symm.trans hentries)
        exact hsub.subset hn
      · obtain ⟨part, hmem, hpart⟩ := mem_of_mapM hparts hx
        rw [flattenEntry, hgroup', Option.bind_eq_bind, Option.bind_some] at hpart
        have hin := (hrooted.sublist hvalue hgroup' hpart hnested).subset hn
        exact List.mem_cons_of_mem _ (List.mem_flatten.mpr ⟨part, hmem, hin⟩)

/-- The entries of the groups of these entities are among them. -/
def EntriesIn (ctx : Context) (w : World) (entries : List Entity) : Prop :=
  ∀ x ∈ entries, ∀ c addr nested, w.getComponentRo x ctx.groupId = some (some (c, addr)) →
    w.groupEntries c addr = some nested → ∀ y ∈ nested, y ∈ entries

/-- Nothing is reached from entities that have the entries of all their groups among them. -/
theorem EntriesIn.mem_of_flatten (h : w.EntriesIn ctx entries) (hrooted : w.Rooted ctx)
    (hvalues : ∀ x ∈ entries, x.value < 2 ^ 32) (he : e ∈ entries)
    (hgroup : w.getComponentRo e ctx.groupId = some (some (c, addr)))
    (hflat : w.flattenGroup ctx fuel c addr = some members) : ∀ y ∈ members, y ∈ entries := by
  induction fuel generalizing e c addr members with
  | zero => exact absurd hflat nofun
  | succ fuel ih =>
      obtain ⟨root, rest, parts, -, hentries, hparts, rfl⟩ :=
        flattenGroup_parts (hrooted e (hvalues e he) c addr hgroup).1 hflat
      have hnested := h e he c addr _ hgroup hentries
      intro y hy
      rcases List.mem_cons.mp hy with rfl | hy
      · exact hnested y List.mem_cons_self
      · obtain ⟨part, hpart, hy⟩ := List.mem_flatten.mp hy
        obtain ⟨x, hx, hpart⟩ := of_mem_mapM hparts hpart
        have hin : x ∈ entries := hnested x (List.mem_cons_of_mem root hx)
        obtain ⟨group, hgroup', hs⟩ := Option.bind_eq_some_iff.mp hpart
        cases group with
        | none =>
            obtain rfl := Option.some.inj hs
            exact List.mem_singleton.mp hy ▸ hin
        | some at_ => exact ih hin hgroup' hs y hy

/-! ## The entries of a nested group -/

/-- The group of an entity is in a buffer column of its archetype. -/
theorem groupColumn (hctx : ctx.Built) (hbuilt : w.store.Constructed ctx)
    (hsorted : w.store.SortedKeys)
    (hwidth : ∀ g a, w.store.archetype g = some a → a.types.length < 2 ^ 16)
    (hgroup : w.getComponentRo e ctx.groupId = some (some (c, addr))) :
    ∃ i g a k, w.asSlice e = some { c := c, start := i, count := 1 } ∧
      w.archetypeOf c = some (g, a) ∧ a.IsBuffer k ∧ a.types.getD k 0 = ctx.groupId ∧
      a.address (w.store.ct c) k i = addr := by
  simp only [getComponentRo] at hgroup
  split_ifs at hgroup
  swap
  · simp at hgroup
  simp only [Option.bind_eq_bind, Option.bind_eq_some_iff] at hgroup
  obtain ⟨s, hslice, hgroup⟩ := hgroup
  simp only [sliceComponentRo, Option.bind_eq_bind, Option.bind_eq_some_iff] at hgroup
  obtain ⟨⟨g, a⟩, harch, hgroup⟩ := hgroup
  dsimp only at hgroup
  split_ifs at hgroup with htag
  · simp at hgroup
  simp only [Option.some.injEq, Prod.mk.injEq] at hgroup
  obtain ⟨rfl, rfl⟩ := hgroup
  have ha := (archetypeOf_eq_some.mp harch).2
  have hfirst := firstTag_le hbuilt ha (hwidth g a ha)
  have hmem : ctx.groupId ∈ a.types := mem_of_index (by omega)
  have hindex := (index_lt (hsorted g a ha) (hwidth g a ha) hmem).1
  have hlt := Archetype.column_lt hmem
  have hbounds := Archetype.boundaries (hbuilt g a ha) (hsorted g a ha) hlt
  have hbits : TypeIndex.bits (TypeIndex.make 2 .buffer) = 1 := by decide
  rw [Archetype.types_column hmem, hctx.ids.2.2.1, hbits] at hbounds
  refine ⟨s.start, g, a, a.column ctx.groupId, ?_, harch, ⟨?_, ?_⟩, ?_, by rw [hindex]⟩
  · rw [hslice, ← entrySlice_count hslice]
  · rw [hctx.ids.2.2.1]
    omega
  · rw [hctx.ids.2.2.1]
    omega
  · rw [List.getD_eq_getElem?_getD, List.getElem?_eq_getElem hlt, Option.getD_some,
      Archetype.types_column hmem]

/-- The entries of an entity's group are references that it holds. -/
theorem mem_referencesOf_group (hctx : ctx.Built) (hbuilt : w.store.Constructed ctx)
    (hsorted : w.store.SortedKeys)
    (hwidth : ∀ g a, w.store.archetype g = some a → a.types.length < 2 ^ 16)
    (hgroup : w.getComponentRo e ctx.groupId = some (some (c, addr)))
    (hentries : w.groupEntries c addr = some entries) :
    ∀ y ∈ entries, y ∈ w.referencesOf ctx custom e := by
  intro y hy
  obtain ⟨i, g, a, k, hslice, harch, hbuf, htype, rfl⟩ :=
    groupColumn hctx hbuilt hsorted hwidth hgroup
  obtain ⟨info, hinfo, hsize, -, -⟩ := hctx.info_group
  obtain ⟨j, hj, hmember⟩ := of_mem_mapM hentries hy
  have hlay : Layout a := constructArchetype_layout (hbuilt g a (archetypeOf_eq_some.mp harch).2)
  have hk : k ∈ Memory.patchOrder a :=
    (Memory.mem_patchOrder hlay).mpr (hbuf.2.trans_le hlay.managed_le)
  have hj : j < (Mem.readBuffer (w.memory.data c) (a.address (w.store.ct c) k i)).size /
      sizeofEntity % 2 ^ 16 := by
    have hlt : (Mem.readBuffer (w.memory.data c) (a.address (w.store.ct c) k i)).size < 2 ^ 16 :=
      Mem.readWord_lt _ _ 2
    rw [Nat.mod_eq_of_lt ((Nat.div_le_self _ _).trans_lt hlt)]
    exact List.mem_range.mp hj
  -- the element that holds the entry
  have helement : ∀ el : Element, el.type = ctx.groupId → el.len = sizeofEntity →
      el ∈ w.memory.columnElements ctx a (w.store.ct c) c i k →
        y = ⟨Mem.readWord (w.memory.bytesAt el.place) el.addr 4⟩ →
          y ∈ w.referencesOf ctx custom e := by
    intro el hel hlen hin hread
    refine List.mem_flatMap.mpr ⟨el, ?_, List.mem_append_left _ ?_⟩
    · simp only [elementsOf, hslice, harch]
      exact List.mem_flatMap.mpr ⟨k, hk, hin⟩
    · rw [hel, hctx.refOffsets_group, List.map_singleton, List.mem_singleton, hread,
        Memory.element, hlen]
      exact congrArg Entity.mk
        (Mem.readWord_congr fun b hb => (Memory.ofBytes_read _ _ hb).symm)
  have hcolumn : a.firstBuffer ≤ k ∧ k < a.firstManaged := hbuf
  simp only [groupMember] at hmember
  by_cases hd : (Mem.readBuffer (w.memory.data c) (a.address (w.store.ct c) k i)).d = 0
  · rw [if_pos hd] at hmember
    refine helement ⟨.chunk c, a.address (w.store.ct c) k i + sizeofBuffer + sizeofEntity * j,
      ctx.groupId, sizeofEntity⟩ rfl rfl ?_ (Option.some.inj hmember).symm
    simp only [Memory.columnElements, if_pos hcolumn, htype, hinfo, hsize, if_pos hd]
    exact List.mem_map.mpr ⟨j, List.mem_range.mpr hj, rfl⟩
  · rw [if_neg hd] at hmember
    obtain ⟨block, hblock, hmember⟩ := Option.map_eq_some_iff.mp hmember
    refine helement ⟨.block (Mem.readBuffer (w.memory.data c) (a.address (w.store.ct c) k i)).d,
      sizeofEntity * j, ctx.groupId, sizeofEntity⟩ rfl rfl ?_ ?_
    · simp only [Memory.columnElements, if_pos hcolumn, htype, hinfo, hsize, if_neg hd]
      exact List.mem_map.mpr ⟨j, List.mem_range.mpr hj, rfl⟩
    · rw [← hmember]
      simp only [Memory.bytesAt, hblock]
      rfl

/-! ## When the references are all -/

/-- Every member is an entry of the group, and the references of those that are members more
often are to members. -/
structure GathersAll (ctx : Context) (custom : TypeIndex → List UInt8 → List Entity) (w : World)
    (entries members : List Entity) : Prop where
  direct : ∀ x ∈ members, x ∈ entries
  again : ∀ x ∈ members.diff entries, ∀ y ∈ w.heldBy ctx custom x, y ∈ members

/-- The members are the entries, and others. -/
theorem perm_append_diff (h : entries.Sublist members) :
    (entries ++ members.diff entries).Perm members :=
  List.subperm_append_diff_self_of_count_le fun x _ => h.count_le x

/-- With the same members to compare with, only the others are left out. -/
theorem externalReferences_perm (h : entries.Sublist members) (hin : ∀ x ∈ members, x ∈ entries) :
    (w.externalReferences ctx custom members).Perm (w.externalReferences ctx custom entries ++
      (members.diff entries).flatMap fun x =>
        (w.heldBy ctx custom x).filter fun y => !members.contains y) := by
  have hsame : ∀ y, members.contains y = entries.contains y := by
    intro y
    rw [Bool.eq_iff_iff, List.contains_iff_mem, List.contains_iff_mem]
    exact ⟨hin y, fun hy => h.subset hy⟩
  have hfirst : w.externalReferences ctx custom entries = entries.flatMap fun x =>
      (w.heldBy ctx custom x).filter fun y => !members.contains y := by
    simp only [externalReferences, hsame]
  rw [hfirst, ← List.flatMap_append]
  exact ((perm_append_diff h).symm.flatMap_right _)

/-- An entry that has a group with an entity that is not one gives it away. -/
theorem mem_externalReferences {n : Entity} (hx : x ∈ entries)
    (hheld : n ∈ w.referencesOf ctx custom x) (hn : n ∉ entries) :
    n ∈ w.externalReferences ctx custom entries := by
  refine List.mem_flatMap.mpr ⟨x, hx, List.mem_filter.mpr ⟨List.mem_append_right _ hheld, ?_⟩⟩
  simpa using hn

theorem not_mem_externalReferences {n : Entity} (hn : n ∈ members) :
    n ∉ w.externalReferences ctx custom members := by
  intro h
  obtain ⟨x, -, h⟩ := List.mem_flatMap.mp h
  have := (List.mem_filter.mp h).2
  simp [hn] at this

/-- In every world that calls with sorted keys reach, `gather_reference` of a group that can be
patched returns what its members refer to outside, and leaves the world as it is, if and only if
`GathersAll` holds. -/
theorem gatherReference_iff (hctx : ctx.Built) (hreg : ctx.tracks.length < 2 ^ 30)
    (hw : Reachable ctx (fun _ op => op.SortedKeys) w)
    (hwidth : ∀ g a, w.store.archetype g = some a → a.types.length < 2 ^ 16)
    (hrooted : w.Rooted ctx) (he : e.value < 2 ^ 32)
    (hgroup : w.getComponentRo e ctx.groupId = some (some (c, addr)))
    (hentries : w.groupEntries c addr = some entries)
    (hflat : w.flattenGroup ctx fuel c addr = some members)
    (horder : ∀ x ∈ members, w.InOrder ctx custom x) :
    (∃ refs, w.gatherReference ctx custom e = some (w, refs) ∧
      refs.Perm (w.externalReferences ctx custom members)) ↔
        w.GathersAll ctx custom entries members := by
  have hbuilt : w.store.Constructed ctx :=
    hw.invariant constructed_initial fun _ _ _ _ _ _ hrun h => constructed_run h hrun
  have hsorted : w.store.SortedKeys :=
    hw.invariant sorted_initial fun _ _ _ _ _ hkeys hrun h => sorted_run hctx hreg h hkeys hrun
  have hsub := hrooted.sublist he hgroup hflat hentries
  have heq := gatherReference_eq hbuilt hgroup hentries fun x hx => horder x (hsub.subset hx)
  constructor
  · rintro ⟨refs, hrefs, hperm⟩
    obtain rfl := (Prod.mk.inj (Option.some.inj (heq.symm.trans hrefs))).2
    -- an entry whose group goes further gives a member away
    have hin : w.EntriesIn ctx entries := by
      intro x hx c' addr' nested hgroup' hnested n hn
      by_contra hout
      have hheld : n ∈ w.referencesOf ctx custom x :=
        mem_referencesOf_group hctx hbuilt hsorted hwidth hgroup' hnested n hn
      have hmember := hrooted.nested_mem he hgroup hflat hentries hx hgroup' hnested n hn
      exact not_mem_externalReferences hmember
        (hperm.subset (mem_externalReferences hx hheld hout))
    have hroot : e ∈ entries := by
      obtain ⟨hsize, hzero⟩ := hrooted e he c addr hgroup
      obtain ⟨y, hy, hread⟩ := mem_of_mapM hentries (List.mem_range.mpr hsize)
      rwa [Option.some.inj (hzero.symm.trans hread)]
    have hvalues := value_lt_of_groupEntries hentries
    have hdirect := hin.mem_of_flatten hrooted hvalues hroot hgroup hflat
    refine ⟨hdirect, ?_⟩
    have hlen := (hperm.trans (externalReferences_perm hsub hdirect)).length_eq
    rw [List.length_append, Nat.left_eq_add, List.length_eq_zero_iff, List.flatMap_eq_nil_iff]
      at hlen
    intro x hx y hy
    by_contra hout
    have hnone := List.filter_eq_nil_iff.mp (hlen x hx) y hy
    simp [hout] at hnone
  · rintro ⟨hdirect, hagain⟩
    refine ⟨_, heq, ?_⟩
    have hnone : ((members.diff entries).flatMap fun x =>
        (w.heldBy ctx custom x).filter fun y => !members.contains y) = [] := by
      refine List.flatMap_eq_nil_iff.mpr fun x hx => List.filter_eq_nil_iff.mpr fun y hy => ?_
      simp [hagain x hx y hy]
    have hperm : (w.externalReferences ctx custom members).Perm _ :=
      externalReferences_perm hsub hdirect
    rw [hnone, List.append_nil] at hperm
    exact hperm.symm

/-! The group of 0 has 256 as an entry, and 256 a group of its own. -/

/-- Two entities with groups, and one with a reference. -/
def groupPair : Option World :=
  runAll linked 4 blank
    [.allocate { types := [linked.groupId] } 2, .allocate { types := [4] } 1]

/-- The program makes 256 an entry of the group of 0. The group of 256 is the first `n` bytes of
256 and 512. -/
def writeGroups (n : Nat) (w : World) : Memory :=
  let first := Mem.writeWord (Mem.writeWord (w.memory.data 0) 168 1 8) 176 8 2
  let m := w.memory.setData 0 (Mem.writeWord (Mem.writeWord first 188 2 8) 196 n 2)
  let pair (e f : Entity) : Block :=
    { size := 8, bytes := Mem.writeEntity (Mem.writeEntity (fun _ => 0) 0 e) 1 f }
  { m with
    heap := Function.update (Function.update m.heap 1 (some (pair ⟨0⟩ ⟨256⟩))) 2
      (some (pair ⟨256⟩ ⟨512⟩))
    freshBlock := 3 }

def nestedGroup (n : Nat) (w : World) : World := { w with memory := writeGroups n w }

theorem writeGroups_keeps {n : Nat} (hcount : w.store.count 0 = 2) (c : ChunkId) (i : Nat)
    (hi : w.store.Occupied c i) : (writeGroups n w).entityAt c i = w.memory.entityAt c i := by
  have hword : ∀ (m : Mem) (a v k : Nat), 168 ≤ a →
      Mem.SameOff (fun x => 168 ≤ x) m (Mem.writeWord m a v k) := fun m a v k ha =>
    Mem.SameOff.writeWord v fun x hx _ => ha.trans hx
  have hall := (hword (w.memory.data 0) 168 1 8 le_rfl).trans (hword _ 176 8 2 (by decide))
  have hwrites : Memory.Writes 0 (fun x => 168 ≤ x) w.memory (w.memory.setData 0 _) :=
    Memory.Writes.setData ((hall.trans (hword _ 188 2 8 (by decide))).trans
      (hword _ 196 n 2 (by decide)))
  have hlt := hi.2
  refine (Entities.entityAt_of_writes hwrites ?_ :)
  rintro rfl x hx
  unfold sizeofEntity
  omega

theorem reachable_nestedGroup (n : Nat) : ∃ w, groupPair = some w ∧
    Reachable linked (fun _ op => op.SortedKeys) (nestedGroup n w) := by
  have hsome : groupPair.map (fun w => w.store.count 0) = some 2 := by decide +kernel
  obtain ⟨w, hw, hcount⟩ := Option.map_eq_some_iff.mp hsome
  have hreach : Reachable linked (fun _ op => op.SortedKeys) w := by
    refine (reachable_blank linked _).runAll ?_ hw
    intro op hop v
    rcases List.mem_pair.mp hop with rfl | rfl
    · exact ⟨trivial, List.pairwise_singleton _ _, by decide⟩
    · exact ⟨trivial, List.pairwise_singleton _ _, by decide⟩
  exact ⟨w, hw, hreach.step (.write (writeGroups n w)) (writeGroups_keeps hcount) trivial
    (show Op.run linked 0 w (.write (writeGroups n w)) = some _ from rfl)⟩

/-- Where the groups are, and what is their first entry. -/
theorem groups_nestedGroup {n : Nat} (hn : n ∈ [4, 8]) (hw : groupPair = some w) :
    [(nestedGroup n w).getComponentRo ⟨0⟩ linked.groupId,
        (nestedGroup n w).getComponentRo ⟨256⟩ linked.groupId,
        (nestedGroup n w).getComponentRo ⟨512⟩ linked.groupId] =
      [some (some (0, 168)), some (some (0, 188)), some none] ∧
    [(nestedGroup n w).groupSize 0 168, (nestedGroup n w).groupSize 0 188] = [2, n / 4] ∧
    [(nestedGroup n w).groupMember 0 168 0, (nestedGroup n w).groupMember 0 188 0] =
      [some ⟨0⟩, some ⟨256⟩] := by
  have hgroups : ∀ n ∈ [4, 8], groupPair.map (fun w =>
      [(nestedGroup n w).getComponentRo ⟨0⟩ linked.groupId,
        (nestedGroup n w).getComponentRo ⟨256⟩ linked.groupId,
        (nestedGroup n w).getComponentRo ⟨512⟩ linked.groupId]) =
      some [some (some (0, 168)), some (some (0, 188)), some none] := by decide +kernel
  have hsizes : ∀ n ∈ [4, 8], groupPair.map (fun w =>
      [(nestedGroup n w).groupSize 0 168, (nestedGroup n w).groupSize 0 188]) =
      some [2, n / 4] := by decide +kernel
  have hroots : ∀ n ∈ [4, 8], groupPair.map (fun w =>
      [(nestedGroup n w).groupMember 0 168 0, (nestedGroup n w).groupMember 0 188 0]) =
      some [some ⟨0⟩, some ⟨256⟩] := by decide +kernel
  have hgroups := hgroups n hn
  have hsizes := hsizes n hn
  have hroots := hroots n hn
  rw [hw, Option.map_some, Option.some.injEq] at hgroups hsizes hroots
  exact ⟨hgroups, hsizes, hroots⟩

theorem rooted_nestedGroup {n : Nat} (hn : n ∈ [4, 8]) (hw : groupPair = some w) :
    (nestedGroup n w).Rooted linked := by
  obtain ⟨hgroups, hsizes, hroots⟩ := groups_nestedGroup hn hw
  simp only [List.cons.injEq, and_true] at hgroups hsizes hroots
  obtain ⟨hzero, hone, htwo⟩ := hgroups
  have hpos : 0 < n / 4 := by
    rcases List.mem_pair.mp hn with rfl | rfl <;> decide
  have hentries : groupPair.map (fun w =>
      [w.ents.size, (w.ents.datas 0).v, (w.ents.datas 1).v, (w.ents.datas 2).v]) =
      some [3, 0, 0, 0] := by decide +kernel
  rw [hw, Option.map_some, Option.some.injEq] at hentries
  simp only [List.cons.injEq, and_true] at hentries
  obtain ⟨hsize, hv₀, hv₁, hv₂⟩ := hentries
  intro e he c addr hgroup
  cases hexist : w.ents.exist e with
  | false =>
      have hnone : (nestedGroup n w).getComponentRo e linked.groupId = some none :=
        if_neg (by simp [nestedGroup, hexist])
      simp [hnone] at hgroup
  | true =>
      simp only [Entities.exist, Bool.and_eq_true, decide_eq_true_eq, beq_iff_eq] at hexist
      obtain ⟨hid, hversion⟩ := hexist
      obtain h0 | h1 | h2 : e.id = 0 ∨ e.id = 1 ∨ e.id = 2 := by omega
      · obtain rfl : e = ⟨0⟩ := Entity.eq_of_id_version he (by decide) h0
          (hversion.trans ((congrArg (fun i => (w.ents.datas i).v) h0).trans hv₀))
        rw [hzero, Option.some.injEq, Option.some.injEq, Prod.mk.injEq] at hgroup
        obtain ⟨rfl, rfl⟩ := hgroup
        exact ⟨by omega, hroots.1⟩
      · obtain rfl : e = ⟨256⟩ := Entity.eq_of_id_version he (by decide) h1
          (hversion.trans ((congrArg (fun i => (w.ents.datas i).v) h1).trans hv₁))
        rw [hone, Option.some.injEq, Option.some.injEq, Prod.mk.injEq] at hgroup
        obtain ⟨rfl, rfl⟩ := hgroup
        exact ⟨by omega, hroots.2⟩
      · obtain rfl : e = ⟨512⟩ := Entity.eq_of_id_version he (by decide) h2
          (hversion.trans ((congrArg (fun i => (w.ents.datas i).v) h2).trans hv₂))
        simp [htwo] at hgroup

theorem inOrder_nestedGroup (custom : TypeIndex → List UInt8 → List Entity)
    (hw : groupPair = some w) :
    (nestedGroup 4 w).InOrder linked custom ⟨0⟩ ∧
      (nestedGroup 4 w).InOrder linked custom ⟨256⟩ := by
  have hslices : groupPair.map (fun w => [w.asSlice ⟨0⟩, w.asSlice ⟨256⟩]) =
      some [some ⟨0, 0, 1⟩, some ⟨0, 1, 1⟩] := by decide +kernel
  have hfacts : groupPair.bind (fun w => (w.archetypeOf 0).map fun p =>
      ([p.2.firstTag, p.2.firstManaged, p.2.firstBuffer, p.2.types.getD 0 0],
        [0, 1].map fun i =>
          (Mem.readBuffer ((nestedGroup 4 w).memory.data 0) (p.2.address (w.store.ct 0) 0 i)).d)) =
      some ([1, 1, 0, linked.groupId], [1, 2]) := by decide +kernel
  rw [hw, Option.map_some, Option.some.injEq] at hslices
  rw [hw, Option.bind_some] at hfacts
  obtain ⟨⟨g, a⟩, ha, hfacts⟩ := Option.map_eq_some_iff.mp hfacts
  simp only [List.map_cons, List.map_nil, Prod.mk.injEq, List.cons.injEq, and_true]
    at hfacts hslices
  obtain ⟨⟨htag, hman, hbuf, htype⟩, hd₀, hd₁⟩ := hfacts
  have hzero : ∀ k, a.IsBuffer k → k = 0 := fun k hk => Nat.lt_one_iff.mp (hman ▸ hk.2)
  have hgood : ∀ i d, (Mem.readBuffer ((nestedGroup 4 w).memory.data 0)
      (a.address (w.store.ct 0) 0 i)).d = d → (nestedGroup 4 w).memory.heap d ≠ none →
      Memory.GoodSlot linked custom (nestedGroup 4 w).memory a (w.store.ct 0) 0 i := by
    intro i d hd hblock
    refine ⟨fun k hk hplain => absurd ⟨by omega, by omega⟩ hplain, fun k hk => ?_, fun k hk => ?_,
      fun k hk _ => ?_⟩
    · rw [hzero k hk, htype]
      exact lawful_linked (by decide) (by decide)
    · rw [hzero k hk, htype]
      decide
    · rw [hzero k hk, hd]
      exact hblock
  have hblock : (nestedGroup 4 w).memory.heap 1 ≠ none := by simp [nestedGroup, writeGroups]
  have hblock' : (nestedGroup 4 w).memory.heap 2 ≠ none := by simp [nestedGroup, writeGroups]
  exact ⟨⟨{ c := 0, start := 0, count := 1 }, g, a, hslices.1, ha, hgood 0 1 hd₀ hblock⟩,
    ⟨{ c := 0, start := 1, count := 1 }, g, a, hslices.2, ha, hgood 1 2 hd₁ hblock'⟩⟩

theorem gatherReference_nested : ∃ w refs, groupPair = some w ∧
    (nestedGroup 4 w).gatherReference linked (fun _ _ => []) ⟨0⟩ = some (nestedGroup 4 w, refs) ∧
    refs.Perm ((nestedGroup 4 w).externalReferences linked (fun _ _ => []) [⟨0⟩, ⟨256⟩]) := by
  have hentries : (groupPair.bind fun w => (nestedGroup 4 w).groupEntries 0 168) =
      some [⟨0⟩, ⟨256⟩] := by decide +kernel
  have hflat : (groupPair.bind fun w => (nestedGroup 4 w).flattenGroup linked 4 0 168) =
      some [⟨0⟩, ⟨256⟩] := by decide +kernel
  have hwidths : groupPair.map (fun w => (w.store.freshArchetype,
      [(w.store.archetype 0).map fun a => a.types.length,
        (w.store.archetype 1).map fun a => a.types.length])) = some (2, [some 1, some 1]) := by
    decide +kernel
  obtain ⟨w, hw, hreach⟩ := reachable_nestedGroup 4
  rw [hw, Option.bind_some] at hentries hflat
  rw [hw, Option.map_some, Option.some.injEq] at hwidths
  simp only [Prod.mk.injEq, List.cons.injEq, and_true] at hwidths
  obtain ⟨hfresh, hzero, hone⟩ := hwidths
  have hwidth : ∀ g a, (nestedGroup 4 w).store.archetype g = some a → a.types.length < 2 ^ 16 := by
    intro g a ha
    have hknown : (nestedGroup 4 w).store.Known :=
      hreach.invariant known_initial fun _ _ _ _ _ _ hrun h => (renewed_run hrun).known h
    have hlt : g < 2 := hfresh ▸ hknown.numbered g a ha
    obtain rfl | rfl := Nat.le_one_iff_eq_zero_or_eq_one.mp (Nat.le_of_lt_succ hlt)
    · obtain ⟨a', ha', hlen⟩ := Option.map_eq_some_iff.mp hzero
      obtain rfl := Option.some.inj (ha'.symm.trans ha)
      omega
    · obtain ⟨a', ha', hlen⟩ := Option.map_eq_some_iff.mp hone
      obtain rfl := Option.some.inj (ha'.symm.trans ha)
      omega
  have hn : 4 ∈ [4, 8] := by decide
  have hgroup := (groups_nestedGroup hn hw).1
  simp only [List.cons.injEq] at hgroup
  obtain ⟨horder, horder'⟩ := inOrder_nestedGroup (fun _ _ => []) hw
  have hall : ∀ x ∈ [(⟨0⟩ : Entity), ⟨256⟩],
      (nestedGroup 4 w).InOrder linked (fun _ _ => []) x := by
    intro x hx
    rcases List.mem_pair.mp hx with rfl | rfl
    · exact horder
    · exact horder'
  have hgathers := (gatherReference_iff built_linked (by decide) hreach hwidth
    (rooted_nestedGroup hn hw) (by decide) hgroup.1 hentries hflat hall).mpr
      ⟨fun x hx => hx, fun x hx => absurd hx (by simp)⟩
  obtain ⟨refs, hrefs, hperm⟩ := hgathers
  exact ⟨w, refs, hw, hrefs, hperm⟩

/-- 256 is an entry of the group of 0, and its own group has 512, which is a member of the group
of 0 too. -/
theorem gathers_member_nested : ∃ w w', groupPair = some w ∧
    Reachable linked (fun _ op => op.SortedKeys) (nestedGroup 8 w) ∧
    (nestedGroup 8 w).Rooted linked ∧
    (nestedGroup 8 w).getComponentRo ⟨0⟩ linked.groupId = some (some (0, 168)) ∧
    (nestedGroup 8 w).flattenGroup linked 4 0 168 = some [⟨0⟩, ⟨256⟩, ⟨512⟩] ∧
    (nestedGroup 8 w).externalReferences linked (fun _ _ => []) [⟨0⟩, ⟨256⟩, ⟨512⟩] = [] ∧
    (nestedGroup 8 w).gatherReference linked (fun _ _ => []) ⟨0⟩ = some (w', [⟨512⟩]) := by
  have hflat : (groupPair.bind fun w => (nestedGroup 8 w).flattenGroup linked 4 0 168) =
      some [⟨0⟩, ⟨256⟩, ⟨512⟩] := by decide +kernel
  have hexternal : groupPair.map (fun w =>
      (nestedGroup 8 w).externalReferences linked (fun _ _ => []) [⟨0⟩, ⟨256⟩, ⟨512⟩]) =
      some [] := by decide +kernel
  have hgathered : (groupPair.bind fun w =>
      ((nestedGroup 8 w).gatherReference linked (fun _ _ => []) ⟨0⟩).map Prod.snd) =
      some [⟨512⟩] := by decide +kernel
  obtain ⟨w, hw, hreach⟩ := reachable_nestedGroup 8
  have hn : 8 ∈ [4, 8] := by decide
  have hzero := (groups_nestedGroup hn hw).1
  simp only [List.cons.injEq] at hzero
  rw [hw, Option.bind_some] at hflat hgathered
  rw [hw, Option.map_some, Option.some.injEq] at hexternal
  obtain ⟨⟨w', refs⟩, hgathered, rfl⟩ := Option.map_eq_some_iff.mp hgathered
  exact ⟨w, w', hw, hreach, rooted_nestedGroup hn hw, hzero.1, hflat, hexternal, hgathered⟩

end World

end Dots

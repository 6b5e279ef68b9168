import Dots.Database.Changes
import Dots.Database.Instances

/-!
# What components hold over a run

A component holds the bytes that were written to it last, wherever the calls in between move its
entity: to another slot when a hole is filled, to another chunk, or to another archetype.
-/

namespace Dots

open Library Entities

namespace World

variable {ctx : Context} {w w₁ w' : World} {g h : ArchetypeId} {a b : Archetype} {c d : ChunkId}
  {i j k : Nat} {e : Entity} {t : TypeIndex} {bs : List UInt8} {K : Watched}

/-- The bytes of component `t` where `get_component_ro` points. -/
def readComponent (ctx : Context) (w : World) (e : Entity) (t : TypeIndex) :
    Option (List UInt8) := do
  let p ← w.getComponentRo e t
  let (c, addr) ← p
  some (Mem.read (w.memory.data c) addr (ctx.info t).size)

/-- A write through the pointer of `get_owned_rw`. -/
def writeOwned (w : World) (e : Entity) (t : TypeIndex) (bs : List UInt8) : Option World := do
  let (w, p) ← w.getOwnedRw e t
  let (c, addr) ← p
  some { w with memory := w.memory.setData c (Mem.write (w.memory.data c) addr bs) }

/-- The cell of component `t` of `e` holds the bytes `bs`. -/
def Stores (w : World) (e : Entity) (t : TypeIndex) (bs : List UInt8) : Prop :=
  ∃ c i g a, w.Found e c i ∧ w.archetypeOf c = some (g, a) ∧ t ∈ a.types ∧ t.isTag = false ∧
    w.memory.cell c a (w.store.ct c) (a.column t) i = bs

/-- The types of an archetype are counted in 16 bits. -/
def Short (w : World) : Prop := ∀ g a, w.store.archetype g = some a → a.types.length < 2 ^ 16

/-! ## Cells -/

theorem Orderly.column_lt (hw : Orderly ctx w) (ha : w.store.archetype g = some a)
    (ht : t ∈ a.types) : a.column t < a.firstTag ↔ t.isTag = false := by
  rw [(Archetype.boundaries (hw.listed.built g a ha).2 (hw.sorted g a ha)
    (Archetype.column_lt ht)).1, Archetype.types_column ht]
  have hbits := Archetype.bits_lt t
  simp only [TypeIndex.isTag, ComponentType.bits, beq_eq_false_iff_ne, ne_eq]
  omega

/-- A cell is as wide as its component. -/
theorem Orderly.size_column (hw : Orderly ctx w) (ha : w.store.archetype g = some a)
    (ht : t ∈ a.types) (htag : t.isTag = false) :
    a.size (a.column t) = (ctx.info t).size := by
  rw [Memory.size_eq (hw.listed.built g a ha).2 ((hw.column_lt ha ht).mpr htag),
    List.getD_eq_getElem?_getD, List.getElem?_eq_getElem (Archetype.column_lt ht),
    Option.getD_some, Archetype.types_column ht]

/-- The entity is carried elsewhere, with this component. -/
theorem Stores.of_carried (hw : Orderly ctx w) (hw' : Orderly ctx w') (hf : w.Found e c i)
    (ht : t ∈ a.types) (htag : t.isTag = false)
    (hcell : w.memory.cell c a (w.store.ct c) (a.column t) i = bs)
    (hocc : w'.store.Occupied d j) (hcar : Carried K g a w c i w' d j)
    (hK : K a (a.column t)) : w'.Stores e t bs := by
  have hlt := (hw.column_lt (archetypeOf_eq_some.mp hcar.before).2 ht).mpr htag
  refine ⟨d, j, g, a, hcar.found hw' hf hocc, hcar.after, ht, htag, ?_⟩
  rw [hcar.cells _ hlt hK, hcell]

/-- What is held is what is read, from whole blocks. -/
theorem Stores.read (h : w.Stores e t bs) (hw : Orderly ctx w) (hsize : w.ents.size < 2 ^ 24)
    (hshort : w.Short) (hlaid : w.store.Laid) : w.whole.readComponent ctx e t = some bs := by
  obtain ⟨c, i, g, a, hf, harch, ht, htag, hcell⟩ := h
  obtain ⟨htype, ha⟩ := archetypeOf_eq_some.mp harch
  have hat := hf.entry hsize
  obtain ⟨hindex, -⟩ := index_lt (hw.sorted g a ha) (hshort g a ha) ht
  have hlt := (hw.column_lt ha ht).mpr htag
  have hro : w.getComponentRo e t =
      some (some (c, a.address (w.store.ct c) (a.column t) i)) := by
    simp only [getComponentRo, hat.1, if_true, asSlice_of_at hat, sliceComponentRo, harch, hindex,
      Option.bind_eq_bind, Option.bind_some]
    rw [if_neg (Nat.not_le.mpr hlt)]
  have hro' : w.whole.getComponentRo e t =
      some (some (c, a.address (w.store.ct c) (a.column t) i)) := hro
  simp only [readComponent, hro', Option.bind_eq_bind, Option.bind_some]
  rw [← hw.size_column ha ht htag, ← hcell, ← (hw.whole hlaid).cells c i g a harch hf.occupied _ hlt]
  rfl

/-! ## Writes -/

/-- `get_owned_rw` points to the cell. -/
theorem writeOwned_spec (hw : Orderly ctx w) (hsize : w.ents.size < 2 ^ 24) (hshort : w.Short)
    (halive : w.Alive e) (hs : w.writeOwned e t bs = some w') :
    ∃ c i g a, w.Found e c i ∧ w.archetypeOf c = some (g, a) ∧ t ∈ a.types ∧ t.isTag = false ∧
      w' = { w with
        store := w.store.mark c (a.column t)
        memory := w.memory.setData c (Mem.write (w.memory.data c)
          (a.address (w.store.ct c) (a.column t) i) bs) } := by
  obtain ⟨c, i, hf⟩ := halive
  obtain ⟨g, hc⟩ := Option.ne_none_iff_exists'.mp hf.occupied.1
  obtain ⟨a, ha⟩ := hw.listed.alive c g hc
  have harch := archetypeOf_eq_some.mpr ⟨hc, ha⟩
  have hat := hf.entry hsize
  simp only [writeOwned, getOwnedRw, hat.1, if_true, asSlice_of_at hat, sliceOwnedRw, harch,
    Option.bind_eq_bind, Option.bind_some] at hs
  split_ifs at hs with hid
  · simp at hs
  · obtain ⟨hvalid, hlt⟩ := not_or.mp hid
    have ht := mem_of_index hvalid
    obtain ⟨hindex, -⟩ := index_lt (hw.sorted g a ha) (hshort g a ha) ht
    rw [hindex] at hlt
    refine ⟨c, i, g, a, hf, harch, ht, (hw.column_lt ha ht).mp (Nat.not_le.mp hlt), ?_⟩
    simp only [Option.bind_some, Option.some.injEq, hindex] at hs
    exact hs.symm

/-- What `writeOwned` does to the bytes of a chunk. -/
theorem writes_cell (w : World) (c : ChunkId) (a : Archetype) (k i : Nat)
    (hlen : bs.length = a.size k) :
    Memory.Writes c (fun x => a.address (w.store.ct c) k i ≤ x ∧
        x < a.address (w.store.ct c) k i + a.size k) w.memory
      (w.memory.setData c (Mem.write (w.memory.data c) (a.address (w.store.ct c) k i) bs)) :=
  Memory.Writes.setData (Mem.SameOff.write fun _ hlo hhi => ⟨hlo, hlen ▸ hhi⟩)

theorem Orderly.slot_lt (hw : Orderly ctx w) (harch : w.archetypeOf c = some (g, a))
    (hi : w.store.Occupied c i) : i < a.chunkCapacity (w.store.ct c) := by
  obtain ⟨hc, ha⟩ := archetypeOf_eq_some.mp harch
  exact hi.2.trans_le (hw.listed.count_le c g a hc ha)

/-- It writes over no handle. -/
theorem entityAt_writeCell (hw : Orderly ctx w) (harch : w.archetypeOf c = some (g, a))
    (hk : k < a.firstTag) (hlen : bs.length = a.size k) (hj : w.store.Occupied d j) :
    (w.memory.setData c (Mem.write (w.memory.data c)
      (a.address (w.store.ct c) k i) bs)).entityAt d j = w.memory.entityAt d j := by
  refine entityAt_of_writes (writes_cell w c a k i hlen) ?_
  rintro rfl x ⟨hlo, -⟩
  have hlayout := constructArchetype_layout (hw.listed.built g a (archetypeOf_eq_some.mp harch).2).2
  have hhandles := hlayout.handles_le (w.store.ct d) k hk
  have hslot := hw.slot_lt harch hj
  have hmul := Nat.mul_le_mul_left sizeofEntity (show j + 1 ≤ _ from hslot)
  simp only [Archetype.address] at hlo
  omega

/-- It leaves the cells of other entities, and of other components. -/
theorem cell_writeCell (hw : Orderly ctx w) (harch : w.archetypeOf c = some (g, a))
    (harch' : w.archetypeOf d = some (h, b)) (hi : w.store.Occupied c i)
    (hj : w.store.Occupied d j) {l : Nat} (hk : k < a.firstTag) (hl : l < b.firstTag)
    (hlen : bs.length = a.size k) (hne : ¬ (d = c ∧ j = i ∧ l = k)) :
    (w.memory.setData c (Mem.write (w.memory.data c) (a.address (w.store.ct c) k i) bs)).cell d b
      (w.store.ct d) l j = w.memory.cell d b (w.store.ct d) l j := by
  refine Memory.cell_of_writes (writes_cell w c a k i hlen) ?_
  rintro rfl y hy ⟨hlo, hhi⟩
  obtain ⟨rfl, rfl⟩ := Prod.mk.inj (Option.some.inj (harch.symm.trans harch'))
  have hlayout := constructArchetype_layout (hw.listed.built g a (archetypeOf_eq_some.mp harch).2).2
  by_cases hkl : l = k
  · subst hkl
    have hij : j < i ∨ i + 1 ≤ j := by
      have : j ≠ i := fun hij => hne ⟨rfl, hij, rfl⟩
      omega
    have happart : a.address (w.store.ct d) l j + y < a.address (w.store.ct d) l i ∨
        a.address (w.store.ct d) l i + a.size l * 1 ≤ a.address (w.store.ct d) l j + y :=
      Archetype.cell_apart hij hy
    omega
  · have hcol : a.Column (w.store.ct d) l (a.address (w.store.ct d) l j + y) :=
      Archetype.column_of_cell (hw.slot_lt harch' hj) hy
    refine hcol.apart hlayout hl hk hkl ?_
    exact Archetype.column_of_range (n := 1) (hw.slot_lt harch hi) hlo (by omega)

end World

/-! ## Runs -/

/-- The calls of a program that also writes components. -/
inductive DataOp
  | call (op : Op)
  | write (e : Entity) (t : TypeIndex) (bs : List UInt8)

def DataOp.run (ctx : Context) (fuel : Nat) (w : World) : DataOp → Option World
  | .call op => op.run ctx fuel w
  | .write e t bs => w.writeOwned e t bs

/-- A component of a living entity is written as a whole. -/
def DataOp.Orderly (ctx : Context) (w : World) : DataOp → Prop
  | .call op => op.Valid w ∧ op.Orderly ctx w
  | .write e t bs => w.Alive e ∧ bs.length = (ctx.info t).size

/-- The call leaves component `t` to `e`, and what it writes itself fits its indices. -/
def Op.Spares (ctx : Context) (w : World) (e : Entity) (t : TypeIndex) : Op → Prop
  | .allocate type _ => ∀ a, constructArchetype ctx type = some a → a.Roomy
  | .instantiate src n => ∃ c i g a, w.Instantiable ctx src c i g a n ∧ 0 < n ∧
      w.SameOffsets ctx c a n
  | .destroy s => e ∉ w.handles s ∧ Op.DataFits ctx w (.destroy s)
  | .cast s diff => Op.DataFits ctx w (.cast s diff) ∧ (e ∈ w.handles s →
      ∀ g a, w.archetypeOf s.c = some (g, a) → a.cleaning = false ∧
        t ∈ (World.castedType ctx a diff false).types)
  | .castType s type => (∀ g a w₁ g' b, w.archetypeOf s.c = some (g, a) →
      w.getArchetype ctx type = some (w₁, g') → w₁.store.archetype g' = some b → g ≠ g' →
        World.CastFits World.everyColumn ctx w₁ s g a g' b) ∧ (e ∈ w.handles s → t ∈ type.types)
  | .getArchetype _ | .query _ => True
  | .write memory => ∀ c i g a, w.Found e c i → w.archetypeOf c = some (g, a) →
      memory.cell c a (w.store.ct c) (a.column t) i =
        w.memory.cell c a (w.store.ct c) (a.column t) i

/-- The call does not write component `t` of `e`. -/
def DataOp.Spares (ctx : Context) (w : World) (e : Entity) (t : TypeIndex) : DataOp → Prop
  | .call op => op.Spares ctx w e t
  | .write e' t' _ => ¬ (e' = e ∧ t' = t)

namespace World

variable {ctx : Context} {w w₁ w' : World} {g h : ArchetypeId} {a b : Archetype} {c d : ChunkId}
  {i j k fuel : Nat} {e : Entity} {t : TypeIndex} {bs : List UInt8} {op : Op}

/-- A call that completes. -/
def DataStep (ctx : Context) (w w' : World) : Prop :=
  ∃ (op : DataOp) (fuel : Nat), op.Orderly ctx w ∧ op.run ctx fuel w = some w' ∧ w'.Short ∧
    w'.store.Laid

/-- One that spares component `t` of `e`. -/
def SparingStep (ctx : Context) (e : Entity) (t : TypeIndex) (w w' : World) : Prop :=
  ∃ (op : DataOp) (fuel : Nat), op.Orderly ctx w ∧ op.Spares ctx w e t ∧
    op.run ctx fuel w = some w' ∧ w'.Short ∧ w'.store.Laid

/-! ### Calls -/

theorem allocate_carries (hctx : ctx.Built) {fuel n : Nat} {type : EntityType}
    {ss : List ChunkSlice} (hl : w.store.Listed ctx)
    (hs : w.allocate ctx fuel type n = some (w', ss)) (hb : w.archetypeOf c = some (h, b))
    (hi : w.store.Occupied c i) : ∃ a, constructArchetype ctx type = some a ∧
      w'.store.Occupied c i ∧ Carried (fun _ _ => a.Roomy) h b w c i w' c i := by
  simp only [World.allocate, Option.bind_eq_bind, Option.bind_eq_some_iff] at hs
  obtain ⟨⟨w₁, g⟩, hget, hs⟩ := hs
  obtain ⟨st, hst, rfl⟩ := getArchetype_eq_some hget
  obtain ⟨-, hext, a, ha, rfl⟩ := hl.toWf.getArchetype hst
  have hl₁ := (hl.getArchetype hst).1
  have hcar := Carried.of_extended (i := i) hb hext
  obtain ⟨hocc, hkept⟩ := allocateLoop_keeps (w := { w with store := st }) hctx hl₁ ha hs hcar.after
    ((occupied_congr hext.type hext.count c i).mpr hi)
  exact ⟨a, (hl₁.built g a ha).2, hocc, hcar.watch.trans hkept⟩

theorem mem_handles_of_slots {s : ChunkSlice} (hf : w.Found e c i) (hin : Slots.of s c i) :
    ∃ j < s.count, c = s.c ∧ i = s.start + j ∧ e ∈ w.handles s := by
  obtain ⟨rfl, hlo, hhi⟩ := hin
  refine ⟨i - s.start, by omega, rfl, by omega, mem_handles.mpr ⟨i - s.start, by omega, ?_⟩⟩
  rw [Nat.add_sub_cancel' hlo, hf.handle]

theorem Stores.cast {s : ChunkSlice} {diff : TypeDiff} (hctx : ctx.Built)
    (hreg : ctx.tracks.length < 2 ^ 30) (hst : w.Stores e t bs) (hw : Orderly ctx w)
    (hw' : Orderly ctx w') (hv : w.ValidSlice s) (hkeys : Op.SortedKeys (.cast s diff))
    (hspare : Op.Spares ctx w e t (.cast s diff)) {ss : List ChunkSlice}
    (hs : w.cast ctx fuel s diff = some (w', ss)) : w'.Stores e t bs := by
  obtain ⟨c, i, g, a, hf, harch, ht, htag, hcell⟩ := hst
  obtain ⟨hfit, hkept⟩ := hspare
  have hall := undisturbed_cast hctx hw hw' hv hreg hkeys hfit hs
  by_cases hin : Slots.of s c i
  · obtain ⟨j, hj, rfl, rfl, hmem⟩ := mem_handles_of_slots hf hin
    obtain ⟨hclean, htype⟩ := hkept hmem g a harch
    obtain ⟨g', b, hb, hslice, -⟩ := hall.inside diff g a rfl harch hclean
    obtain ⟨d, i', hf', hre⟩ := hslice e j hj hf
    have htb : t ∈ b.types := by rwa [Archetype.types, hb]
    exact ⟨d, i', g', b, hf', hre.after, htb, htag, (hre.cells t ht htb htag trivial).trans hcell⟩
  · obtain ⟨d, j, hf', hcar⟩ := hall.outside e c i g a hf hin harch
    exact .of_carried hw hw' hf ht htag hcell hf'.occupied hcar trivial

theorem Stores.castType {s : ChunkSlice} {type : EntityType} (hctx : ctx.Built)
    (hst : w.Stores e t bs) (hw : Orderly ctx w) (hw' : Orderly ctx w') (hv : w.ValidSlice s)
    (hkeys : SortedTypes type.types) (hspare : Op.Spares ctx w e t (.castType s type))
    {ss : List ChunkSlice} (hs : w.castType ctx fuel s type = some (w', ss)) :
    w'.Stores e t bs := by
  obtain ⟨c, i, g, a, hf, harch, ht, htag, hcell⟩ := hst
  obtain ⟨hfit, hkept⟩ := hspare
  simp only [World.castType, Option.bind_eq_bind, Option.bind_eq_some_iff] at hs
  obtain ⟨⟨w₁, g'⟩, hget, hs⟩ := hs
  obtain ⟨-, hext, -, -, b, hb, htype⟩ := hw.sound.getArchetype hget
  obtain ⟨st, hget', rfl⟩ := getArchetype_eq_some hget
  obtain ⟨g₀, hc₀⟩ := Option.ne_none_iff_exists'.mp hv.typed
  obtain ⟨a₀, ha₀⟩ := hw.listed.alive s.c g₀ hc₀
  have harch₀ := archetypeOf_eq_some.mpr ⟨hc₀, ha₀⟩
  obtain ⟨hothers, hslice⟩ := castTo_keeps (K := everyColumn) hctx
    (hw.listed.getArchetype hget').1 hw'.listed (hw.sorted.getArchetype hkeys hget')
    (hv.extend hext) (Carried.of_extended (i := 0) harch₀ hext).after hb
    (hfit g₀ a₀ _ g' b harch₀ hget hb) hs
  have hcar := Carried.of_extended (i := i) harch hext
  have hocc := (occupied_congr hext.type hext.count c i).mpr hf.occupied
  by_cases hin : Slots.of s c i
  · obtain ⟨j, hj, rfl, rfl, hmem⟩ := mem_handles_of_slots hf hin
    obtain ⟨rfl, rfl⟩ := Prod.mk.inj (Option.some.inj (harch₀.symm.trans harch))
    obtain ⟨d, i', hre⟩ := hslice j hj
    have htb : t ∈ b.types := by
      rw [Archetype.types, htype]
      exact hkept hmem
    have hf' := hw'.sound.found hre.occupied
    rw [hre.handle] at hf'
    have hlt := (hw.column_lt ha₀ ht).mpr htag
    refine ⟨d, i', g', b, hf.handle ▸ hf', hre.after, htb, htag, ?_⟩
    rw [hre.cells t ht htb htag trivial, ← hcell]
    exact hcar.cells _ hlt trivial
  · obtain ⟨d, j, hocc', hkept'⟩ := hothers c i g a hcar.after hocc hin
    exact .of_carried hw hw' hf ht htag hcell hocc' (hcar.trans hkept') trivial

/-- A call of the database. -/
theorem Stores.call (hctx : ctx.Built) (hreg : ctx.tracks.length < 2 ^ 30)
    (hst : w.Stores e t bs) (hw : Orderly ctx w) (hv : op.Valid w) (hp : op.Orderly ctx w)
    (hspare : op.Spares ctx w e t) (hs : op.run ctx fuel w = some w')
    (hsize : w'.ents.size < 2 ^ 24) : w'.Stores e t bs := by
  have hw' := hw.step hctx hreg hv hp hs
  obtain ⟨c, i, g, a, hf, harch, ht, htag, hcell⟩ := id hst
  cases op with
  | allocate type n =>
      obtain ⟨⟨_, ss⟩, hrun, rfl⟩ := Option.map_eq_some_iff.mp hs
      obtain ⟨b, hb, hocc, hcar⟩ := allocate_carries hctx hw.listed hrun harch hf.occupied
      exact .of_carried hw hw' hf ht htag hcell hocc hcar (hspare b hb)
  | instantiate src n =>
      obtain ⟨⟨w₂, ss⟩, hrun, rfl⟩ := Option.map_eq_some_iff.mp hs
      obtain ⟨c₀, i₀, g₀, a₀, hsrc, hn, hoffsets⟩ := hspare
      have hgroup : w.getComponentRo src ctx.groupId = some none := hp.noGroup
      have hsingle : w.instantiateSingle ctx fuel src n = some (w₂, ss) := by
        rwa [World.instantiate, hgroup] at hrun
      obtain ⟨⟨-, -, g', b, -, hdup⟩, -⟩ :=
        copies_of_sameOffsets hctx hreg hw hsrc hn hoffsets hsingle hsize
      obtain ⟨hocc, hcar⟩ := hdup.others c i g a harch hf.occupied
      exact .of_carried hw hw' hf ht htag hcell hocc hcar trivial
  | destroy s =>
      obtain ⟨hout, hfit⟩ := hspare
      have hall := undisturbed_destroy hctx hw hw' hv (memberless_of_noGroup hp.noGroup) hfit hs
      have hin : ¬ Slots.of s c i := fun hin => by
        obtain ⟨-, -, -, -, hmem⟩ := mem_handles_of_slots hf hin
        exact hout hmem
      obtain ⟨d, j, hf', hcar⟩ := hall.outside e c i g a hf hin harch
      exact .of_carried hw hw' hf ht htag hcell hf'.occupied hcar trivial
  | cast s diff =>
      obtain ⟨⟨_, ss⟩, hrun, rfl⟩ := Option.map_eq_some_iff.mp hs
      exact hst.cast hctx hreg hw hw' hv hp.keys hspare hrun
  | castType s type =>
      obtain ⟨⟨_, ss⟩, hrun, rfl⟩ := Option.map_eq_some_iff.mp hs
      exact hst.castType hctx hw hw' hv hp.keys hspare hrun
  | getArchetype type =>
      obtain ⟨⟨_, g'⟩, hrun, rfl⟩ := Option.map_eq_some_iff.mp hs
      obtain ⟨-, hext, -⟩ := hw.sound.getArchetype hrun
      obtain ⟨st, hst', rfl⟩ := getArchetype_eq_some hrun
      exact .of_carried hw hw' hf ht htag hcell
        ((occupied_congr hext.type hext.count c i).mpr hf.occupied)
        (Carried.of_extended harch hext) trivial
  | query f =>
      obtain ⟨⟨_, q⟩, hrun, rfl⟩ := Option.map_eq_some_iff.mp hs
      obtain ⟨queries, rfl⟩ := query_eq_some hrun
      exact ⟨c, i, g, a, ⟨hf.occupied, hf.handle, hf.entry⟩, harch, ht, htag, hcell⟩
  | write memory =>
      obtain rfl := Option.some.inj hs
      refine ⟨c, i, g, a, ?_, harch, ht, htag, (hspare c i g a hf harch).trans hcell⟩
      exact ⟨hf.occupied, (hv c i hf.occupied).trans hf.handle, hf.entry⟩

/-! ### Writes -/

theorem orderly_writeOwned (hctx : ctx.Built) (hreg : ctx.tracks.length < 2 ^ 30)
    (hw : Orderly ctx w) (hsize : w.ents.size < 2 ^ 24) (hshort : w.Short)
    (hp : DataOp.Orderly ctx w (.write e t bs)) (hs : w.writeOwned e t bs = some w') :
    Orderly ctx w' := by
  obtain ⟨c, i, g, a, -, harch, ht, htag, rfl⟩ :=
    writeOwned_spec hw hsize hshort hp.1 hs
  have ha := (archetypeOf_eq_some.mp harch).2
  have hk := (hw.column_lt ha ht).mpr htag
  have hlen := hp.2.trans (hw.size_column ha ht htag).symm
  have hshape := mark_shape w.store c (a.column t)
  have hmarked := hw.congr hshape
  refine @Orderly.step ctx _ _ hctx hreg (.write _) 0 hmarked ?_
    ⟨trivial, trivial, trivial, trivial⟩ rfl
  exact fun d j hj => entityAt_writeCell hw harch hk hlen ((occupied_congr hshape.type
    hshape.count d j).mp hj)

/-- What is written is held. -/
theorem stores_writeOwned (hw : Orderly ctx w) (hsize : w.ents.size < 2 ^ 24) (hshort : w.Short)
    (hp : DataOp.Orderly ctx w (.write e t bs)) (hs : w.writeOwned e t bs = some w') :
    w'.Stores e t bs := by
  obtain ⟨c, i, g, a, hf, harch, ht, htag, rfl⟩ := writeOwned_spec hw hsize hshort hp.1 hs
  have ha := (archetypeOf_eq_some.mp harch).2
  have hk := (hw.column_lt ha ht).mpr htag
  have hlen := hp.2.trans (hw.size_column ha ht htag).symm
  refine ⟨c, i, g, a, ⟨hf.occupied, ?_, hf.entry⟩, harch, ht, htag, ?_⟩
  · exact (entityAt_writeCell hw harch hk hlen hf.occupied).trans hf.handle
  · change Mem.read (Function.update w.memory.data c _ c) _ _ = bs
    rw [Function.update_self]
    change Mem.read (Mem.write _ (a.address (w.store.ct c) (a.column t) i) bs)
      (a.address (w.store.ct c) (a.column t) i) _ = bs
    rw [Mem.read_write _ _ hlen.le, List.drop_of_length_le, List.append_nil]
    rw [Mem.length_read, hlen]

/-- A write to another component. -/
theorem Stores.writeOwned {e' : Entity} {t' : TypeIndex} {bs' : List UInt8}
    (hst : w.Stores e t bs) (hw : Orderly ctx w) (hsize : w.ents.size < 2 ^ 24)
    (hshort : w.Short) (hp : DataOp.Orderly ctx w (.write e' t' bs'))
    (hne : ¬ (e' = e ∧ t' = t)) (hs : w.writeOwned e' t' bs' = some w') : w'.Stores e t bs := by
  obtain ⟨c, i, g, a, hf, harch, ht, htag, hcell⟩ := hst
  obtain ⟨c', i', g', a', hf', harch', ht', htag', rfl⟩ :=
    writeOwned_spec hw hsize hshort hp.1 hs
  have ha := (archetypeOf_eq_some.mp harch).2
  have ha' := (archetypeOf_eq_some.mp harch').2
  have hk := (hw.column_lt ha ht).mpr htag
  have hk' := (hw.column_lt ha' ht').mpr htag'
  have hlen := hp.2.trans (hw.size_column ha' ht' htag').symm
  refine ⟨c, i, g, a, ⟨hf.occupied, ?_, hf.entry⟩, harch, ht, htag, ?_⟩
  · exact (entityAt_writeCell hw harch' hk' hlen hf.occupied).trans hf.handle
  · refine (cell_writeCell hw harch' harch hf'.occupied hf.occupied hk' hk hlen ?_).trans hcell
    rintro ⟨rfl, rfl, hcol⟩
    obtain ⟨rfl, rfl⟩ := Prod.mk.inj (Option.some.inj (harch.symm.trans harch'))
    refine hne ⟨hf'.handle.symm.trans hf.handle, ?_⟩
    have hcolumn := Archetype.types_column ht (Archetype.column_lt ht)
    simp only [hcol] at hcolumn
    exact (Archetype.types_column ht' (Archetype.column_lt ht')).symm.trans hcolumn

/-! ### From one write to a later read -/

/-- A write leaves the archetypes and the table of entities. -/
theorem writeOwned_same (hs : w.writeOwned e t bs = some w') :
    w'.store.archetype = w.store.archetype ∧
      w'.store.freshArchetype = w.store.freshArchetype ∧ w'.ents = w.ents := by
  simp only [World.writeOwned, Option.bind_eq_bind, Option.bind_eq_some_iff,
    Option.some.injEq] at hs
  obtain ⟨⟨w₁, p⟩, hrw, ⟨c, addr⟩, -, rfl⟩ := hs
  rcases getOwnedRw_cases hrw with ⟨-, rfl⟩ | ⟨d, g, a, addr', -, -, -, -, -, rfl⟩
  · exact ⟨rfl, rfl, rfl⟩
  · exact ⟨rfl, rfl, rfl⟩

theorem size_le_dataStep (hs : DataStep ctx w w') : w.ents.size ≤ w'.ents.size := by
  obtain ⟨op, fuel, hp, hs, -⟩ := hs
  cases op with
  | call op => exact (aged_step hp.2.noGroup hs).size_le
  | write e t bs => rw [(writeOwned_same hs).2.2]

theorem SparingStep.dataStep (h : SparingStep ctx e t w w') : DataStep ctx w w' := by
  obtain ⟨op, fuel, hp, -, hs⟩ := h
  exact ⟨op, fuel, hp, hs⟩

/-- What is known of every world a run with writes reaches. -/
structure Readable (ctx : Context) (w : World) : Prop where
  orderly : Orderly ctx w
  short : w.Short
  laid : w.store.Laid

theorem readable_initial (ctx : Context) (timestamp : Nat) (raw : Nat → Nat) (data : ChunkId → Mem)
    (guids : Nat → List UInt8) : Readable ctx (World.initial timestamp raw data guids) where
  orderly := orderly_initial ctx timestamp raw data guids
  short := by simp [Short, World.initial]
  laid _ hg := absurd hg (Nat.not_lt_zero _)

theorem Readable.step (hctx : ctx.Built) (hreg : ctx.tracks.length < 2 ^ 30)
    (hw : Readable ctx w) (hsize : w.ents.size < 2 ^ 24) (hs : DataStep ctx w w') :
    Readable ctx w' := by
  obtain ⟨op, fuel, hp, hs, hshort, hlaid⟩ := hs
  refine ⟨?_, hshort, hlaid⟩
  cases op with
  | call op => exact hw.orderly.step hctx hreg hp.1 hp.2 hs
  | write e t bs => exact orderly_writeOwned hctx hreg hw.orderly hsize hw.short hp hs

theorem readable_of_run (hctx : ctx.Built) (hreg : ctx.tracks.length < 2 ^ 30) {timestamp : Nat}
    {raw : Nat → Nat} {data : ChunkId → Mem} {guids : Nat → List UInt8}
    (hrun : Relation.ReflTransGen (DataStep ctx) (World.initial timestamp raw data guids) w)
    (hsize : w.ents.size < 2 ^ 24) : Readable ctx w := by
  refine invariant_of_run (P := fun v => v.ents.size < 2 ^ 24 → Readable ctx v) ?_ hrun
    (fun _ => readable_initial ctx timestamp raw data guids) hsize
  intro v v' hs hv hlt
  have hlt' := (size_le_dataStep hs).trans_lt hlt
  exact (hv hlt').step hctx hreg hlt' hs

/-- One call keeps what it spares. -/
theorem Stores.step (hctx : ctx.Built) (hreg : ctx.tracks.length < 2 ^ 30)
    (hst : w.Stores e t bs) (hw : Readable ctx w) (hs : SparingStep ctx e t w w')
    (hsize : w'.ents.size < 2 ^ 24) : w'.Stores e t bs := by
  have hlt := (size_le_dataStep hs.dataStep).trans_lt hsize
  obtain ⟨op, fuel, hp, hspare, hs, -, -⟩ := hs
  cases op with
  | call op => exact hst.call hctx hreg hw.orderly hp.1 hp.2 hspare hs hsize
  | write e' t' bs' => exact hst.writeOwned hw.orderly hlt hw.short hp hspare hs

/-- A component is read as it was written last, after any calls that leave it to its entity, where
the parts of all blocks are apart. -/
theorem reads_of_run (hctx : ctx.Built) (hreg : ctx.tracks.length < 2 ^ 30) {timestamp : Nat}
    {raw : Nat → Nat} {data : ChunkId → Mem} {guids : Nat → List UInt8}
    (hbefore : Relation.ReflTransGen (DataStep ctx) (World.initial timestamp raw data guids) w)
    (hwrite : DataOp.Orderly ctx w (.write e t bs)) (hs : w.writeOwned e t bs = some w₁)
    (hafter : Relation.ReflTransGen (SparingStep ctx e t) w₁ w')
    (hsize : w'.ents.size < 2 ^ 24) : w'.whole.readComponent ctx e t = some bs := by
  suffices hinv : w'.ents.size < 2 ^ 24 → Readable ctx w' ∧ w'.Stores e t bs by
    obtain ⟨hw', hst⟩ := hinv hsize
    exact hst.read hw'.orderly hsize hw'.short hw'.laid
  refine invariant_of_run
    (P := fun v => v.ents.size < 2 ^ 24 → Readable ctx v ∧ v.Stores e t bs) ?_ hafter ?_
  · intro v v' hstep hv hlt
    have hlt' := (size_le_dataStep hstep.dataStep).trans_lt hlt
    obtain ⟨hreadable, hst⟩ := hv hlt'
    exact ⟨hreadable.step hctx hreg hlt' hstep.dataStep, hst.step hctx hreg hreadable hstep hlt⟩
  · intro hlt
    obtain ⟨harchetype, hfresh, hents⟩ := writeOwned_same hs
    rw [hents] at hlt
    have hw := readable_of_run hctx hreg hbefore hlt
    have hshort : w₁.Short := fun g a ha => hw.short g a (harchetype ▸ ha)
    have hlaid : w₁.store.Laid := fun g hg a ha => hw.laid g (hfresh ▸ hg) a (harchetype ▸ ha)
    exact ⟨⟨orderly_writeOwned hctx hreg hw.orderly hlt hw.short hwrite hs, hshort, hlaid⟩,
      stores_writeOwned hw.orderly hlt hw.short hwrite hs⟩

theorem short_of_one (hw : Orderly ctx w) (hfresh : w.store.freshArchetype = 1)
    {types : List TypeIndex} (htypes : (w.store.archetype 0).map Archetype.types = some types)
    (hlen : types.length < 2 ^ 16) : w.Short := by
  intro g a ha
  have hknown := (hw.listed.built g a ha).1
  rw [hfresh] at hknown
  obtain rfl : g = 0 := Nat.lt_one_iff.mp hknown
  rw [ha, Option.map_some, Option.some.injEq] at htypes
  rwa [htypes]

/-- The second of two entities is written, and moves when the first one is destroyed. -/
theorem reads_of_moved : ∃ w w₁ w', Op.run oneByte 2 blank (.allocate { types := [4] } 2) = some w ∧
    w.writeOwned ⟨256⟩ 4 [7] = some w₁ ∧
    Op.run oneByte 2 w₁ (.destroy { c := 0, start := 0, count := 1 }) = some w' ∧
    w'.whole.readComponent oneByte ⟨256⟩ 4 = some [7] := by
  have hfacts : (Op.run oneByte 2 blank (.allocate { types := [4] } 2)).map (fun w =>
      ((w.store.freshArchetype, (w.store.archetype 0).map Archetype.types), w.store.type 0,
        [w.store.count 0, (w.memory.entityAt 0 1).value, w.ents.size], decide w.store.Laid)) =
      some ((1, some [4]), some 0, [2, 256, 2], true) := by decide +kernel
  obtain ⟨w, hw, hfacts⟩ := Option.map_eq_some_iff.mp hfacts
  simp only [Prod.mk.injEq, List.cons.injEq, and_true, decide_eq_true_eq] at hfacts
  obtain ⟨⟨hfresh, htypes⟩, htype, ⟨hcount, hhandle, hsize⟩, hlaid⟩ := hfacts
  have hfacts₁ : ((Op.run oneByte 2 blank (.allocate { types := [4] } 2)).bind fun w =>
      w.writeOwned ⟨256⟩ 4 [7]).bind (fun w => (w.archetypeOf 0).map fun p =>
        ((w.store.type 0, w.store.count 0, (w.memory.entityAt 0 0).value),
          p.2.index oneByte.groupId, leavesDead oneByte p.2)) =
      some ((some 0, 2, 0), invalidIndex, false) := by decide +kernel
  rw [hw, Option.bind_some] at hfacts₁
  obtain ⟨w₁, hwrite, hfacts₁⟩ := Option.bind_eq_some_iff.mp hfacts₁
  obtain ⟨⟨g, a⟩, harch, hfacts₁⟩ := Option.map_eq_some_iff.mp hfacts₁
  simp only [Prod.mk.injEq] at hfacts₁
  obtain ⟨⟨htype₁, hcount₁, hhandle₁⟩, hindex, hdead⟩ := hfacts₁
  have hfacts' : (((Op.run oneByte 2 blank (.allocate { types := [4] } 2)).bind fun w =>
      w.writeOwned ⟨256⟩ 4 [7]).bind fun w =>
        Op.run oneByte 2 w (.destroy { c := 0, start := 0, count := 1 })).map (fun w =>
          (w.store.freshArchetype, (w.store.archetype 0).map Archetype.types, w.ents.size,
            decide w.store.Laid)) =
      some (1, some [4], 2, true) := by decide +kernel
  rw [hw, Option.bind_some, hwrite, Option.bind_some] at hfacts'
  obtain ⟨w', hdestroy, hfacts'⟩ := Option.map_eq_some_iff.mp hfacts'
  simp only [Prod.mk.injEq, decide_eq_true_eq] at hfacts'
  obtain ⟨hfresh', htypes', hsize', hlaid'⟩ := hfacts'
  have hreg : oneByte.tracks.length < 2 ^ 30 := by decide
  have hkey : SortedTypes [4] := ⟨by decide, by decide⟩
  have hp : (Op.allocate { types := [4] } 2).Orderly oneByte blank :=
    ⟨trivial, trivial, trivial, hkey⟩
  have hv₀ : Op.Valid blank (.allocate { types := [4] } 2) := trivial
  have hord : Orderly oneByte w :=
    (orderly_initial oneByte 1 _ _ _).step built_oneByte hreg hv₀ hp hw
  have hshort := short_of_one hord hfresh htypes (by decide)
  have hput : DataOp.Orderly oneByte w (.write ⟨256⟩ 4 [7]) := by
    refine ⟨⟨0, 1, ?_⟩, by decide⟩
    rw [show (⟨256⟩ : Entity) = w.memory.entityAt 0 1 from (Entity.ext hhandle).symm]
    exact hord.sound.found ⟨by simp [htype], by omega⟩
  have hord₁ := orderly_writeOwned built_oneByte hreg hord (by omega) hshort hput hwrite
  have hsame : ∀ g' a', w₁.archetypeOf 0 = some (g', a') → a' = a := fun g' a' ha' =>
    (Prod.mk.inj (Option.some.inj (ha'.symm.trans harch))).2
  have hv : Op.Valid w₁ (.destroy { c := 0, start := 0, count := 1 }) :=
    ⟨by simp [htype₁], by simp, by simp [hcount₁]⟩
  have hp₁ : Op.Orderly oneByte w₁ (.destroy { c := 0, start := 0, count := 1 }) :=
    ⟨fun g' a' ha' => hsame g' a' ha' ▸ hindex, trivial,
      fun g' a' ha' => Or.inl (hsame g' a' ha' ▸ hindex), trivial⟩
  have hspare : Op.Spares oneByte w₁ ⟨256⟩ 4 (.destroy { c := 0, start := 0, count := 1 }) := by
    constructor
    · rw [handles, List.range_one, List.map_singleton, List.mem_singleton, Nat.zero_add]
      intro heq
      rw [← heq] at hhandle₁
      simp at hhandle₁
    · intro g' a' ha' _
      rw [hsame g' a' ha', hdead, if_neg Bool.false_ne_true]
      intro g₁ a₁ _ j _ k _ _
      simp only [tailStart, tailCount, hcount₁]
      rfl
  have hord' := hord₁.step built_oneByte hreg hv hp₁ hdestroy
  have hstep : SparingStep oneByte ⟨256⟩ 4 w₁ w' :=
    ⟨.call _, 2, ⟨hv, hp₁⟩, hspare, hdestroy, short_of_one hord' hfresh' htypes' (by decide), hlaid'⟩
  refine ⟨w, w₁, w', hw, hwrite, hdestroy, ?_⟩
  exact reads_of_run built_oneByte hreg (.single ⟨.call _, 2, ⟨hv₀, hp⟩, hw, hshort, hlaid⟩) hput
    hwrite (.single hstep) (by omega)

end World

end Dots

import Dots.Database.Renaming

/-!
# What `move_context` makes of references

A reference to a live entity of the source becomes its new handle. Any other should become null:
it does when its id lies behind the table. Otherwise `patch` reads an entry that was not written,
or gives out the new handle of another entity, as it compares no versions.
-/

namespace Dots

open Library Entities

/-- The chunks that went over have the timestamps of the target at the end of their blocks. -/
def Merging.whole (s : Merging) (base : Nat) : Merging :=
  let arrived : World :=
    { s.dst with memory := { s.moved with data := fun c => s.moved.data (c - base) } }
  { s with moved := { s.moved with data := fun c => arrived.wholeBlock (base + c) } }

theorem Merging.whole_of_lt {s : Merging} {base c x : Nat} {g : ArchetypeId} {a : Archetype}
    (h : s.dst.archetypeOf (base + c) = some (g, a))
    (hx : x < a.wordsStart (s.dst.store.ct (base + c))) :
    (s.whole base).moved.data c x = s.moved.data c x := by
  let arrived : World :=
    { s.dst with memory := { s.moved with data := fun c => s.moved.data (c - base) } }
  have hblock : arrived.wholeBlock (base + c) x = arrived.memory.data (base + c) x :=
    World.wholeBlock_of_lt h hx
  refine hblock.trans ?_
  simp only [arrived, Nat.add_sub_cancel_left]

namespace World

/-! ## Bytes before the timestamps -/

section SameFront

variable {ctx : Context} {custom : TypeIndex → List UInt8 → List Entity} {w v : World}
  {mm mm' : Memory} {e : Entity} {el : Element} {c : ChunkId} {i k : Nat} {g : ArchetypeId}
  {a : Archetype}

/-- `mm'` is `mm` up to the timestamps in the blocks of `w`. -/
structure SameFront (w : World) (mm mm' : Memory) : Prop where
  heap : mm'.heap = mm.heap
  front : ∀ c g a, w.archetypeOf c = some (g, a) → ∀ x < a.wordsStart (w.store.ct c),
    mm'.data c x = mm.data c x

theorem sameFront_whole (w : World) : SameFront w w.memory w.whole.memory :=
  ⟨rfl, fun _ _ _ harch _ hx => wholeBlock_of_lt harch hx⟩

variable (hwf : w.store.Wf ctx) (hlaid : w.store.Laid)

include hwf hlaid

theorem SameFront.entityAt (h : SameFront w mm mm') (harch : w.archetypeOf c = some (g, a))
    (hi : w.store.Occupied c i) : mm'.entityAt c i = mm.entityAt c i := by
  obtain ⟨hfits, hlt⟩ := slot_fits hwf hlaid harch hi
  have hle := hfits.handle_le hlt
  refine Entity.ext (Mem.readWord_congr fun y hy => h.front c g a harch _ ?_)
  have hentity : sizeofEntity = 4 := rfl
  omega

/-- The elements of the entities lie there. -/
theorem SameFront.element (h : SameFront w mm mm') (hsize : w.ents.size < 2 ^ 24)
    (ht : w.AllTidy ctx custom) (he : w.Alive e) (hel : el ∈ w.elementsOf ctx e) :
    mm'.element el = mm.element el := by
  have hmember := ht [e] fun e' he' => List.mem_singleton.mp he' ▸ he
  obtain ⟨c, i, g, a, k, hslot, hk, hel⟩ := hmember.column hwf hsize List.mem_cons_self hel
  obtain ⟨hfits, hlt⟩ := slot_fits hwf hlaid hslot.archetype hslot.found.occupied
  rcases Memory.place_of_mem (hmember.slot e List.mem_cons_self c i g a hslot) hel with
    ⟨hpl, hlo, hhi, -⟩ | ⟨-, -, hpl⟩
  · refine Mem.read_eq fun y hy => ?_
    rw [hpl]
    refine h.front c g a hslot.archetype _ ?_
    have hle := hfits.cell_le hk hlt (by omega)
    omega
  · unfold Memory.element
    rw [hpl, Memory.bytesAt, Memory.bytesAt, h.heap]

/-! ## Worlds with the same entities -/

variable (hs : SameSlots w v)

include hs

theorem InSlot.header (h : w.InSlot e c i g a) (hk : a.IsBuffer k) :
    Mem.readBuffer (v.memory.data c) (a.address (w.store.ct c) k i) =
      Mem.readBuffer (w.memory.data c) (a.address (w.store.ct c) k i) :=
  hs.readBuffer h.archetype h.found.occupied (hk.2.trans_le (h.layout hwf).managed_le)
    ((hlaid.of_wf hwf (archetypeOf_eq_some.mp h.archetype).2).roomy k hk.1 hk.2)

omit hwf hlaid in
theorem InSlot.sameSlots (h : w.InSlot e c i g a) : v.InSlot e c i g a :=
  ⟨h.found.sameSlots hs, (hs.archetypeOf c).trans h.archetype⟩

omit hwf hlaid in
theorem alive_sameSlots : v.Alive e ↔ w.Alive e :=
  ⟨fun ⟨c, i, hf⟩ => ⟨c, i, hf.sameSlots hs.symm⟩, fun ⟨c, i, hf⟩ => ⟨c, i, hf.sameSlots hs⟩⟩

theorem AllTidy.sameSlots (h : w.AllTidy ctx custom) : v.AllTidy ctx custom := by
  intro members hmembers
  have ht := h members fun e he => (alive_sameSlots hs).mp (hmembers e he)
  refine ⟨fun e he => ?_, fun e he c i g a hslot => ?_,
    fun e he e' he' c i g a c' i' g' a' hslot hslot' k k' hk hk' hd heq => ?_⟩
  · obtain ⟨c, i, g, a, hslot⟩ := ht.live e he
    exact ⟨c, i, g, a, hslot.sameSlots hs⟩
  · have hslot := hslot.sameSlots hs.symm
    obtain ⟨hplain, hbuffer, hroom, hinline, hblock⟩ := ht.slot e he c i g a hslot
    rw [hs.store]
    refine ⟨hplain, hbuffer, hroom, fun k hk => ?_, fun k hk => ?_⟩
    · rw [hslot.header hwf hlaid hs hk]
      exact hinline k hk
    · rw [hslot.header hwf hlaid hs hk, hs.heap]
      exact hblock k hk
  · have hslot := hslot.sameSlots hs.symm
    have hslot' := hslot'.sameSlots hs.symm
    rw [hs.store, hslot.header hwf hlaid hs hk] at hd heq
    rw [hslot'.header hwf hlaid hs hk'] at heq
    exact ht.own e he e' he' c i g a c' i' g' a' hslot hslot' k k' hk hk' hd heq

theorem elementsOf_sameSlots (hsize : w.ents.size < 2 ^ 24) (ht : w.AllTidy ctx custom)
    (he : w.Alive e) : v.elementsOf ctx e = w.elementsOf ctx e := by
  have hmember := ht [e] fun e' he' => List.mem_singleton.mp he' ▸ he
  obtain ⟨c, i, g, a, hslot⟩ := hmember.live e List.mem_cons_self
  rw [(hslot.sameSlots hs).elementsOf (hs.ents.symm ▸ hsize), hslot.elementsOf hsize, hs.store]
  refine List.flatMap_congr fun k _ => ?_
  by_cases hbuf : a.firstBuffer ≤ k ∧ k < a.firstManaged
  · simp only [Memory.columnElements, if_pos hbuf, hslot.header hwf hlaid hs hbuf]
  · simp only [Memory.columnElements, if_neg hbuf]

end SameFront

/-! ## References -/

variable {ctx : Context} {custom : TypeIndex → List UInt8 → List Entity} {fuel : Nat}
  {raw : Nat → Nat} {dst src : World} {r : Merging × Renaming} {es : List Entity} {x : Entity}

/-- `x'` is the new handle of `x`, or null if `x` is no live entity. -/
def RenamedTo (src : World) (moved : Memory) (x x' : Entity) : Prop :=
  (∃ c i, src.Found x c i ∧ x' = moved.entityAt c i) ∨ ¬ src.Alive x ∧ x' = Entity.null

/-- References are renamed as handles are, and only entries that were written are read. -/
structure Renames (ctx : Context) (custom : TypeIndex → List UInt8 → List Entity) (src : World)
    (r : Merging × Renaming) : Prop where
  references : ∀ e, src.Alive e → ∀ el ∈ src.elementsOf ctx e,
    List.Forall₂ (RenamedTo src r.1.moved)
      (Memory.references ctx custom el.type (src.memory.element el))
      (Memory.references ctx custom el.type (r.1.moved.element el))
  written : ∀ e, src.Alive e → ∀ x ∈ e :: src.referencesOf ctx custom e, ∀ i,
    r.2.read x = some i → r.2.target i ≠ none

/-- Every reference in the source is to a live entity, or has an id behind the table. -/
def Referable (ctx : Context) (custom : TypeIndex → List UInt8 → List Entity) (src : World) :
    Prop :=
  ∀ e, src.Alive e → ∀ x ∈ src.referencesOf ctx custom e, src.Alive x ∨ src.ents.size < x.id

/-- What is known of the two worlds after the call. -/
structure Moved (ctx : Context) (raw : Nat → Nat) (src : World)
    (r : Merging × Renaming) (es : List Entity) : Prop where
  table : r.2 = renamingOf src.ents es
  length : es.length = (src.ents.validBefore src.ents.size).length
  entities : ∀ e ∈ es, e.id < r.1.dst.ents.size
  handles : ∀ c i, src.store.Occupied c i →
    r.1.moved.entityAt c i = r.2.patch raw (src.memory.entityAt c i)
  elements : ∀ e, src.Alive e → ∀ el ∈ src.elementsOf ctx e,
    r.1.moved.element el = Memory.patched ctx el.type (r.2.patch raw) (src.memory.element el)
  bounded : Memory.Bounded (r.2.patch raw)

theorem Absorbed.moved {cs : List ChunkId} (h : Absorbed ctx raw dst src r es cs)
    (hdst : dst.Orderly ctx) (hsrc : src.Orderly ctx) (hsize : src.ents.size < 2 ^ 24)
    (ht : src.AllTidy ctx custom) (hsize' : r.1.dst.ents.size < 2 ^ 24) :
    Moved ctx raw src r es := by
  have hle := newEntitiesArray_size_le h.taken
  obtain ⟨-, hlength, hall⟩ := newEntitiesArray_spec
    (hdst.sound.tracks (hle.trans_lt hsize')) h.taken hsize'
  have hbounded : Memory.Bounded (r.2.patch raw) := by
    rw [h.table]
    exact bounded_patch fun e he => (hall e he).2
  have hchunks : src.AllChunks ctx custom cs :=
    ⟨hsrc.sound, hsrc.listed, hsize, ht, h.nodup, h.mem⟩
  obtain ⟨hhandles, helements⟩ := hchunks.patched hbounded h.patched
  exact ⟨h.table, hlength, fun e he => (hall e he).1, hhandles, helements, hbounded⟩

/-- A chunk of the source arrives under its archetype. -/
theorem Absorbed.sameFront {cs : List ChunkId} (h : Absorbed ctx raw dst src r es cs) :
    SameFront src r.1.moved (r.1.whole dst.store.freshChunk).moved where
  heap := rfl
  front c g a harch x hx := by
    obtain ⟨hc, ha⟩ := archetypeOf_eq_some.mp harch
    obtain ⟨g', hg', ha'⟩ :=
      h.arriving.landed c ((h.mem c).mpr (hc ▸ Option.some_ne_none g)) g a hc ha
    exact Merging.whole_of_lt (archetypeOf_eq_some.mpr ⟨hg', ha'⟩) (h.arriving.ct c ▸ hx)

/-- What is known holds in the whole blocks. -/
theorem Absorbed.movedWhole {cs : List ChunkId} (h : Absorbed ctx raw dst src r es cs)
    (hdst : dst.Orderly ctx) (hsrc : src.Orderly ctx) (hlaid : src.store.Laid)
    (hsize : src.ents.size < 2 ^ 24) (ht : src.AllTidy ctx custom)
    (hsize' : r.1.dst.ents.size < 2 ^ 24) :
    Moved ctx raw src.whole (r.1.whole dst.store.freshChunk, r.2) es := by
  have hm := h.moved hdst hsrc hsize ht hsize'
  have hwf := hsrc.listed.toWf
  have hs := hsrc.whole hlaid
  refine ⟨hm.table, hm.length, hm.entities, fun c i hi => ?_, fun e he el hel => ?_, hm.bounded⟩
  · have hi : src.store.Occupied c i := hi
    obtain ⟨g, hg⟩ := Option.ne_none_iff_exists'.mp hi.1
    obtain ⟨a, ha⟩ := hsrc.listed.alive c g hg
    have harch : src.archetypeOf c = some (g, a) := archetypeOf_eq_some.mpr ⟨hg, ha⟩
    rw [h.sameFront.entityAt hwf hlaid harch hi, hs.handle c i hi]
    exact hm.handles c i hi
  · have he := (alive_sameSlots hs).mp he
    rw [elementsOf_sameSlots hwf hlaid hs hsize ht he] at hel
    rw [h.sameFront.element hwf hlaid hsize ht he hel,
      (sameFront_whole src).element hwf hlaid hsize ht he hel]
    exact hm.elements e he el hel

theorem moved_of_moveContext (hdst : dst.Orderly ctx) (hsrc : src.Orderly ctx)
    (hlaid : src.store.Laid) (hk : src.store.Known) (hsize : src.ents.size < 2 ^ 24)
    (ht : src.whole.AllTidy ctx custom) (hs : moveContext ctx fuel raw dst src = some r)
    (hsize' : r.1.dst.ents.size < 2 ^ 24) :
    ∃ es, Moved ctx raw src.whole (r.1.whole dst.store.freshChunk, r.2) es := by
  obtain ⟨es, cs, h⟩ := moveContext_spec hdst.listed.toWf hsrc.listed hk hs
  have ht := AllTidy.sameSlots (w := src.whole) hsrc.listed.toWf hlaid (hsrc.whole hlaid).symm ht
  exact ⟨es, h.movedWhole hdst hsrc hlaid hsize ht hsize'⟩

/-- The entry of a live entity was written. -/
theorem Moved.target (h : Moved ctx raw src r es) (hsize : src.ents.size < 2 ^ 24)
    (hx : src.Alive x) : ∃ y, r.2.read x = some x.id ∧ r.2.target x.id = some y := by
  obtain ⟨c, i, hf⟩ := hx
  obtain ⟨hexist, hc, -⟩ := hf.entry hsize
  simp only [Entities.exist, Bool.and_eq_true, decide_eq_true_eq] at hexist
  have hvalid : (src.ents.datas x.id).c.notNull = true := by
    rw [hc]
    rfl
  have hlt : (src.ents.validBefore x.id).length < es.length :=
    h.length ▸ validBefore_lt hexist.1 hvalid
  refine ⟨es[(src.ents.validBefore x.id).length], ?_, ?_⟩
  · rw [h.table, read_renamingOf, if_neg hexist.1.not_gt]
  · rw [h.table]
    simp only [renamingOf, hexist.1, hvalid, and_self, if_true]
    exact List.getElem?_eq_getElem hlt

/-- No new handle is null. -/
theorem Moved.ne_null (h : Moved ctx raw src r es) (hsize' : r.1.dst.ents.size < 2 ^ 24) {i : Nat}
    {y : Entity} (hy : r.2.target i = some y) : y ≠ Entity.null := by
  rw [h.table] at hy
  simp only [renamingOf] at hy
  split_ifs at hy
  have hlt := h.entities y (List.mem_of_getElem? hy)
  rintro rfl
  have hid : Entity.null.id = 2 ^ 24 - 1 := by decide
  omega

/-- The references of an element, one by one. -/
theorem Moved.references (h : Moved ctx raw src r es) {e : Entity} (he : src.Alive e)
    {el : Element} (hel : el ∈ src.elementsOf ctx e)
    (hl : Memory.LawfulRefs ctx custom el.type el.len) :
    Memory.references ctx custom el.type (r.1.moved.element el) =
      (Memory.references ctx custom el.type (src.memory.element el)).map (r.2.patch raw) := by
  have hlength : (src.memory.element el).length = el.len := Memory.length_read ..
  rw [h.elements e he el hel]
  exact Memory.references_patched (hlength ▸ hl) h.bounded

theorem Moved.renames_iff (h : Moved ctx raw src r es) (hsize : src.ents.size < 2 ^ 24)
    (hsize' : r.1.dst.ents.size < 2 ^ 24)
    (hrefs : ∀ e, src.Alive e → ∀ el ∈ src.elementsOf ctx e,
      Memory.LawfulRefs ctx custom el.type el.len) :
    Renames ctx custom src r ↔ Referable ctx custom src := by
  have hbehind : ∀ x, src.ents.size < x.id → r.2.read x = none := fun x hx => by
    rw [h.table, read_renamingOf, if_pos hx]
  constructor
  · intro hr e he x hx
    refine or_iff_not_imp_left.mpr fun hdead => Nat.lt_of_not_le fun hle => ?_
    have hread : r.2.read x = some x.id := by
      rw [h.table, read_renamingOf, if_neg hle.not_gt]
    -- the entry was written, so that it has the new handle of some entity
    obtain ⟨y, hy⟩ := Option.ne_none_iff_exists'.mp
      (hr.written e he x (List.mem_cons_of_mem e hx) x.id hread)
    obtain ⟨el, hel, hx⟩ := List.mem_flatMap.mp hx
    have hall := hr.references e he el hel
    rw [h.references he hel (hrefs e he el hel), List.forall₂_map_right_iff,
      List.forall₂_same] at hall
    rcases hall x hx with ⟨c, i, hf, -⟩ | ⟨-, hnull⟩
    · exact hdead ⟨c, i, hf⟩
    · rw [Renaming.patch, hread] at hnull
      simp only [hy, Option.getD_some] at hnull
      exact h.ne_null hsize' hy hnull
  · intro hr
    refine ⟨fun e he el hel => ?_, fun e he x hx i hi => ?_⟩
    · rw [h.references he hel (hrefs e he el hel), List.forall₂_map_right_iff, List.forall₂_same]
      intro x hx
      by_cases halive : src.Alive x
      · obtain ⟨c, i, hf⟩ := halive
        refine Or.inl ⟨c, i, hf, ?_⟩
        rw [h.handles c i hf.occupied, hf.handle]
      · have hid := (hr e he x (List.mem_flatMap.mpr ⟨el, hel, hx⟩)).resolve_left halive
        exact Or.inr ⟨halive, by rw [Renaming.patch, hbehind x hid]⟩
    · have hx' : src.Alive x ∨ src.ents.size < x.id := by
        rcases List.mem_cons.mp hx with rfl | hx
        · exact Or.inl he
        · exact hr e he x hx
      rcases hx' with halive | hid
      · obtain ⟨y, hread, hy⟩ := h.target hsize halive
        obtain rfl : x.id = i := Option.some.inj (hread.symm.trans hi)
        exact hy ▸ Option.some_ne_none y
      · rw [hbehind x hid] at hi
        simp at hi

/-- `move_context` renames the references of the source, and reads no entry that was not written,
exactly when each of them is to a live entity or has an id that was never issued and is not the
next one. The calls that made the source laid out what they built. -/
theorem moveContext_renames_iff (hctx : ctx.Built) (hreg : ctx.tracks.length < 2 ^ 30)
    (hdst : Reachable ctx (fun w op => op.Orderly ctx w) dst)
    (hsrc : Reachable ctx (fun w op => op.Orderly ctx w ∧ op.LaysOut ctx w) src)
    (hsize : src.ents.size < 2 ^ 24) (ht : src.whole.AllTidy ctx custom)
    (hrefs : ∀ e, src.whole.Alive e → ∀ el ∈ src.whole.elementsOf ctx e,
      Memory.LawfulRefs ctx custom el.type el.len)
    (hs : moveContext ctx fuel raw dst src = some r) (hsize' : r.1.dst.ents.size < 2 ^ 24) :
    Renames ctx custom src.whole (r.1.whole dst.store.freshChunk, r.2) ↔
      Referable ctx custom src.whole := by
  obtain ⟨hw, hlaid⟩ := laid_of_reachable hctx hreg hsrc
  obtain ⟨es, h⟩ := moved_of_moveContext (orderly_of_reachable hctx hreg hdst) hw hlaid
    (known_of_reachable hsrc) hsize ht hs hsize'
  exact h.renames_iff hsize hsize' hrefs

/-! Entity 1 was destroyed and its id given out again, with the next version. Entity 0 refers to
the new one, or still to the old one. -/

/-- The entities with the handles 0 and 257. -/
def renewedPair : Option World :=
  runAll linked 4 blank [.allocate { types := [4] } 2,
    .destroy { c := 0, start := 1, count := 1 }, .allocate { types := [4] } 1]

/-- The program makes `x` the reference of 0. -/
def referTo (x : Entity) (w : World) : World :=
  { w with memory := w.memory.setData 0 (Mem.writeWord (w.memory.data 0) 496 x.value 4) }

/-- A target with one entity. -/
def soleEntity : Option World := runAll linked 4 blank [.allocate { types := [4] } 1]

theorem reachable_soleEntity : ∃ dst, soleEntity = some dst ∧
    Reachable linked (fun w op => op.Orderly linked w) dst := by
  have hsome : soleEntity.isSome = true := by decide +kernel
  obtain ⟨dst, hdst⟩ := Option.isSome_iff_exists.mp hsome
  refine ⟨dst, hdst, (reachable_blank linked _).runAll (fun op hop v => ?_) hdst⟩
  obtain rfl := List.mem_singleton.mp hop
  exact ⟨trivial, trivial, trivial, trivial, by decide, by decide⟩

theorem referTo_keeps (x : Entity) {w : World} (hcount : w.store.count 0 = 2) {c : ChunkId} {i : Nat}
    (hi : w.store.Occupied c i) : (referTo x w).memory.entityAt c i = w.memory.entityAt c i := by
  have hwrites : Memory.Writes 0 (fun y => 496 ≤ y) w.memory (referTo x w).memory :=
    .setData (Mem.SameOff.writeWord x.value fun y hy _ => hy)
  refine entityAt_of_writes hwrites ?_
  rintro rfl y hy
  have hlt : i < 2 := hcount ▸ hi.2
  unfold sizeofEntity
  omega

theorem reachable_renewedPair (x : Entity) : ∃ w, renewedPair = some w ∧
    Reachable linked (fun w op => op.Orderly linked w ∧ op.LaysOut linked w) (referTo x w) := by
  have hfacts : ((runAll linked 4 blank [.allocate { types := [4] } 2]).bind fun w =>
      (Op.run linked 4 w (.destroy { c := 0, start := 1, count := 1 })).bind fun w₁ =>
        (Op.run linked 4 w₁ (.allocate { types := [4] } 1)).bind fun w₂ =>
          (w.archetypeOf 0).map fun p => (w.store.type 0, w.store.count 0,
            (w.store.archetype 0).map fun a => a.index linked.groupId, w₂.store.count 0,
            leavesDead linked p.2)) =
      some (some 0, 2, some invalidIndex, 2, false) := by decide +kernel
  obtain ⟨w, hw, hfacts⟩ := Option.bind_eq_some_iff.mp hfacts
  obtain ⟨w₁, hw₁, hfacts⟩ := Option.bind_eq_some_iff.mp hfacts
  obtain ⟨w₂, hw₂, hfacts⟩ := Option.bind_eq_some_iff.mp hfacts
  obtain ⟨⟨g, a⟩, harch, hfacts⟩ := Option.map_eq_some_iff.mp hfacts
  simp only [Prod.mk.injEq] at hfacts
  obtain ⟨htype, hcount, hgroup, hcount₂, hdead⟩ := hfacts
  have hallocate : ∀ v n, Op.Valid v (.allocate { types := [4] } n) ∧
      Op.Orderly linked v (.allocate { types := [4] } n) ∧
      Op.LaysOut linked v (.allocate { types := [4] } n) := fun v n =>
    ⟨trivial, ⟨trivial, trivial, trivial, by decide, by decide⟩,
      Op.laysOut_allocate n (by decide +kernel)⟩
  have hpair : Reachable linked (fun w op => op.Orderly linked w ∧ op.LaysOut linked w) w := by
    refine (reachable_blank linked _).runAll (fun op hop v => ?_) hw
    obtain rfl := List.mem_singleton.mp hop
    exact hallocate v 2
  have hvalid : Op.Valid w (.destroy { c := 0, start := 1, count := 1 }) :=
    ⟨by simp [htype], by simp, by simp [hcount]⟩
  have hone := hpair.step _ hvalid ⟨orderly_destroy htype hgroup,
    Op.laysOut_destroy harch fun hleaves => by simp [hdead] at hleaves⟩ hw₁
  have hreach := hone.step _ (hallocate w₁ 1).1 (hallocate w₁ 1).2 hw₂
  refine ⟨w₂, ?_, hreach.step (.write (referTo x w₂).memory) (fun c i hi => ?_)
    ⟨⟨trivial, trivial, trivial, trivial⟩, fun _ => False.elim⟩
    (show Op.run linked 0 w₂ (.write (referTo x w₂).memory) = some _ from rfl)⟩
  · simp only [renewedPair, runAll, List.foldlM_cons, List.foldlM_nil, Option.bind_eq_bind,
      Option.pure_def, Option.bind_fun_some] at hw ⊢
    rw [hw, Option.bind_some, hw₁, Option.bind_some, hw₂]
  · exact referTo_keeps x hcount₂ hi

/-- The two are alive, and no component has a buffer. -/
theorem reachable_referTo (x : Entity) : ∃ w, renewedPair = some w ∧ w.ents.size = 2 ∧
    Reachable linked (fun w op => op.Orderly linked w ∧ op.LaysOut linked w) (referTo x w) ∧
    (∀ e, (referTo x w).whole.Alive e ↔ e = ⟨0⟩ ∨ e = ⟨257⟩) ∧
    (referTo x w).whole.AllTidy linked (fun _ _ => []) ∧
    ∀ e, (referTo x w).whole.Alive e → ∀ el ∈ (referTo x w).whole.elementsOf linked e,
      Memory.LawfulRefs linked (fun _ _ => []) el.type el.len := by
  have hfacts : (renewedPair.bind fun w => (w.archetypeOf 0).map fun p =>
      (w.ents.size, [w.memory.entityAt 0 0, w.memory.entityAt 0 1], w.store.count 0,
        [p.2.firstTag, p.2.firstManaged, p.2.firstBuffer, p.2.size 0, p.2.types.getD 0 0])) =
      some (2, [⟨0⟩, ⟨257⟩], 2, [1, 1, 1, 4, 4]) := by decide +kernel
  obtain ⟨w, hw, hreach⟩ := reachable_renewedPair x
  rw [hw, Option.bind_some] at hfacts
  obtain ⟨⟨g, a⟩, harch, hfacts⟩ := Option.map_eq_some_iff.mp hfacts
  simp only [Prod.mk.injEq, List.cons.injEq, and_true] at hfacts
  obtain ⟨hsize, ⟨hzero, hone⟩, hcount, htag, hman, hbuf, hcell, hfour⟩ := hfacts
  obtain ⟨hgood, hlaid⟩ := laid_of_reachable built_linked (by decide) hreach
  have hsmall : (referTo x w).ents.size < 2 ^ 24 := hsize.trans_lt (by decide)
  have htracks := hgood.sound.tracks hsmall
  obtain ⟨htype, -⟩ := archetypeOf_eq_some.mp harch
  have hoccupied : ∀ i < 2, (referTo x w).store.Occupied 0 i := fun i hi =>
    ⟨htype ▸ Option.some_ne_none g, hcount.symm ▸ hi⟩
  have hhandle : (referTo x w).memory.entityAt 0 0 = ⟨0⟩ ∧
      (referTo x w).memory.entityAt 0 1 = ⟨257⟩ :=
    ⟨(referTo_keeps x hcount (hoccupied 0 (by decide))).trans hzero,
      (referTo_keeps x hcount (hoccupied 1 (by decide))).trans hone⟩
  -- both ids are in chunk 0
  have hchunk : ∀ {e c i}, (referTo x w).Found e c i → c = 0 := by
    intro e c i hf
    obtain ⟨hlt, -⟩ := htracks.entry c i ⟨hf.occupied, not_false⟩
    have hlt' : ((referTo x w).memory.entityAt c i).id < 2 := hsize ▸ hlt
    have hsame : ∀ j < 2, ((referTo x w).memory.entityAt 0 j).id =
        ((referTo x w).memory.entityAt c i).id → c = 0 := fun j hj heq =>
      (htracks.unique ⟨hoccupied j hj, not_false⟩ ⟨hf.occupied, not_false⟩ heq).1.symm
    have hcases : ((referTo x w).memory.entityAt c i).id = 0 ∨
        ((referTo x w).memory.entityAt c i).id = 1 := by omega
    rcases hcases with h | h
    · exact hsame 0 (by decide) (by rw [h, hhandle.1]; decide)
    · exact hsame 1 (by decide) (by rw [h, hhandle.2]; decide)
  have harchs : ∀ {e c i g' a'}, (referTo x w).InSlot e c i g' a' → a' = a := by
    intro e c i g' a' hs
    obtain rfl := hchunk hs.found
    exact (Prod.mk.inj (Option.some.inj (hs.archetype.symm.trans harch))).2
  have hplain : ∀ k, ¬ a.IsBuffer k := fun k hk => absurd (hk.1.trans_lt hk.2) (by omega)
  have hlawful : Memory.LawfulPatch linked (fun _ _ => []) 4 4 :=
    lawful_linked (by decide) (by decide)
  have htidy : (referTo x w).AllTidy linked fun _ _ => [] := by
    intro members hmembers
    refine ⟨fun e he => ?_, fun e he c i g' a' hs => ?_, ?_⟩
    · obtain ⟨c, i, hf⟩ := hmembers e he
      obtain rfl := hchunk hf
      exact ⟨0, i, g, a, hf, harch⟩
    · obtain rfl := harchs hs
      refine ⟨fun k hk _ => ?_, fun k hk => absurd hk (hplain k), fun k hk => absurd hk (hplain k),
        fun k hk => absurd hk (hplain k), fun k hk => absurd hk (hplain k)⟩
      obtain rfl : k = 0 := by omega
      rw [hfour, hcell]
      exact hlawful
    · intro e _ e' _ c i g' a' c' i' g'' a'' hs _ k k' hk
      obtain rfl := harchs hs
      exact absurd hk (hplain k)
  have hwhole := hgood.whole hlaid
  refine ⟨w, hw, hsize, hreach, fun e => (alive_sameSlots hwhole).trans ⟨?_, ?_⟩,
    htidy.sameSlots hgood.listed.toWf hlaid hwhole, fun e he el hel => ?_⟩
  · rintro ⟨c, i, hf⟩
    obtain rfl := hchunk hf
    have hi : i < 2 := hcount ▸ hf.occupied.2
    obtain rfl | rfl : i = 0 ∨ i = 1 := by omega
    · exact Or.inl (hf.handle.symm.trans hhandle.1)
    · exact Or.inr (hf.handle.symm.trans hhandle.2)
  · rintro (rfl | rfl)
    · exact ⟨0, 0, hhandle.1 ▸ hgood.sound.found (hoccupied 0 (by decide))⟩
    · exact ⟨0, 1, hhandle.2 ▸ hgood.sound.found (hoccupied 1 (by decide))⟩
  · have he := (alive_sameSlots hwhole).mp he
    rw [elementsOf_sameSlots hgood.listed.toWf hlaid hwhole hsmall htidy he] at hel
    have hmember := htidy [e] fun e' he' => List.mem_singleton.mp he' ▸ he
    obtain ⟨c, i, g', a', k, hs, hk, hel⟩ :=
      hmember.column hgood.listed.toWf hsmall List.mem_cons_self hel
    obtain rfl := harchs hs
    obtain rfl : k = 0 := by omega
    rw [Memory.columnElements_plain (Or.inl (by omega)), List.mem_singleton] at hel
    rw [hel, hfour, hcell]
    have hnone : (linked.info 4).vtable.patch = none := by decide
    exact ⟨hlawful, fun _ _ _ => rfl, fun f _ _ hf => absurd (hnone.symm.trans hf) (by simp),
      fun _ _ _ _ => rfl, fun f _ _ hf => absurd (hnone.symm.trans hf) (by simp)⟩

/-- The new entity 1 gets another handle, and the reference to it as well. -/
theorem moveContext_renames_newer : ∃ dst w r, soleEntity = some dst ∧ renewedPair = some w ∧
    moveContext linked 4 (fun _ => 7) dst (referTo ⟨257⟩ w) = some r ∧
    Renames linked (fun _ _ => []) (referTo ⟨257⟩ w).whole
      (r.1.whole dst.store.freshChunk, r.2) := by
  have hfacts : (soleEntity.bind fun dst => renewedPair.bind fun w =>
      (moveContext linked 4 (fun _ => 7) dst (referTo ⟨257⟩ w)).map fun r =>
        (r.1.dst.ents.size, (referTo ⟨257⟩ w).whole.referencesOf linked (fun _ _ => []) ⟨0⟩,
          (referTo ⟨257⟩ w).whole.referencesOf linked (fun _ _ => []) ⟨257⟩)) =
      some (3, [⟨257⟩], [⟨0⟩]) := by decide +kernel
  obtain ⟨dst, hdst, hreach⟩ := reachable_soleEntity
  obtain ⟨w, hw, hsize, hsrc, halive, htidy, hrefs⟩ := reachable_referTo ⟨257⟩
  rw [hdst, Option.bind_some, hw, Option.bind_some] at hfacts
  obtain ⟨r, hr, hfacts⟩ := Option.map_eq_some_iff.mp hfacts
  simp only [Prod.mk.injEq] at hfacts
  obtain ⟨hsize', hzero, hone⟩ := hfacts
  refine ⟨dst, w, r, hdst, hw, hr, (moveContext_renames_iff built_linked (by decide) hreach hsrc
    (hsize.trans_lt (by decide)) htidy hrefs hr (hsize'.trans_lt (by decide))).mpr ?_⟩
  intro e he x hx
  refine Or.inl ((halive x).mpr ?_)
  rcases (halive e).mp he with rfl | rfl
  · rw [hzero, List.mem_singleton] at hx
    exact Or.inr hx
  · rw [hone, List.mem_singleton] at hx
    exact Or.inl hx

/-- The reference to the old entity 1 becomes one to the new. -/
theorem not_moveContext_renames_older : ∃ dst w r, soleEntity = some dst ∧ renewedPair = some w ∧
    Reachable linked (fun w op => op.Orderly linked w ∧ op.LaysOut linked w) (referTo ⟨256⟩ w) ∧
    moveContext linked 4 (fun _ => 7) dst (referTo ⟨256⟩ w) = some r ∧
    ¬ (referTo ⟨256⟩ w).whole.Alive ⟨256⟩ ∧
    Mem.readWord ((referTo ⟨256⟩ w).wholeBlock 0) 496 4 = 256 ∧
    (r.1.whole dst.store.freshChunk).moved.entityAt 0 1 = ⟨512⟩ ∧
    Mem.readWord ((r.1.whole dst.store.freshChunk).moved.data 0) 496 4 = 512 ∧
    ¬ Renames linked (fun _ _ => []) (referTo ⟨256⟩ w).whole
      (r.1.whole dst.store.freshChunk, r.2) := by
  have hfacts : (soleEntity.bind fun dst => renewedPair.bind fun w =>
      (moveContext linked 4 (fun _ => 7) dst (referTo ⟨256⟩ w)).map fun r =>
        (r.1.dst.ents.size, (referTo ⟨256⟩ w).whole.referencesOf linked (fun _ _ => []) ⟨0⟩,
          [Mem.readWord ((referTo ⟨256⟩ w).wholeBlock 0) 496 4,
            ((r.1.whole dst.store.freshChunk).moved.entityAt 0 1).value,
            Mem.readWord ((r.1.whole dst.store.freshChunk).moved.data 0) 496 4])) =
      some (3, [⟨256⟩], [256, 512, 512]) := by decide +kernel
  obtain ⟨dst, hdst, hreach⟩ := reachable_soleEntity
  obtain ⟨w, hw, hsize, hsrc, halive, htidy, hrefs⟩ := reachable_referTo ⟨256⟩
  obtain ⟨hgood, hlaid⟩ := laid_of_reachable built_linked (by decide) hsrc
  rw [hdst, Option.bind_some, hw, Option.bind_some] at hfacts
  obtain ⟨r, hr, hfacts⟩ := Option.map_eq_some_iff.mp hfacts
  simp only [Prod.mk.injEq, List.cons.injEq, and_true] at hfacts
  obtain ⟨hsize', hzero, hbefore, hhandle, hafter⟩ := hfacts
  have hsmall : (referTo ⟨256⟩ w).ents.size < 2 ^ 24 := hsize.trans_lt (by decide)
  have hsmall' : r.1.dst.ents.size < 2 ^ 24 := hsize'.trans_lt (by decide)
  have hdead : ¬ (referTo ⟨256⟩ w).whole.Alive ⟨256⟩ := by
    rw [halive]
    decide
  refine ⟨dst, w, r, hdst, hw, hsrc, hr, hdead, hbefore, Entity.ext hhandle, hafter, ?_⟩
  obtain ⟨es, hmoved⟩ := moved_of_moveContext (orderly_of_reachable built_linked (by decide) hreach)
    hgood hlaid (known_of_reachable hsrc) hsmall htidy hr hsmall'
  rw [hmoved.renames_iff hsmall hsmall' hrefs]
  intro hall
  have hlive : (referTo ⟨256⟩ w).whole.Alive ⟨0⟩ := (halive _).mpr (Or.inl rfl)
  rcases hall ⟨0⟩ hlive ⟨256⟩ (hzero ▸ List.mem_cons_self) with hcase | hcase
  · exact hdead hcase
  · have hid : (⟨256⟩ : Entity).id = 1 := by decide
    have hsize₂ : (referTo ⟨256⟩ w).ents.size = 2 := hsize
    change (referTo ⟨256⟩ w).ents.size < _ at hcase
    omega

end World

end Dots

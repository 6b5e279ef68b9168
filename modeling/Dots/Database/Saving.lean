import Dots.Database.Serialize
import Dots.Database.Tidy
import Mathlib.Logic.Function.Iterate

/-!
# Saving a group

`serialize_group` turns the references of the members into indices and back. It gives back
the world it found, unless a member refers to an entity outside the group.
-/

namespace Dots

open Library Entities

namespace World

variable {ctx : Context} {custom : TypeIndex → List UInt8 → List Entity} {w w' : World}
  {members : List Entity} {e : Entity} {p q : Entity → Entity} {fuel : Nat}

/-! ## Loops over the members -/

section

variable (hwf : w.store.Wf ctx) (ht : w.Tidy ctx custom members) (hsize : w.ents.size < 2 ^ 24)

include hwf ht hsize

/-- One member. -/
theorem Tidy.patchEntity (he : e ∈ members) {mm : Memory}
    (hmm : Memory.AgreeOff (members.flatMap (w.elementsOf ctx)) w.memory mm)
    (hs : World.patchEntity ctx { w with memory := mm } e (fun _ => p) = some w') :
    w' = { w with memory := (w.elementsOf ctx e).foldl (Memory.patchAt ctx p) mm } := by
  obtain ⟨c, i, g, a, hslot⟩ := ht.live e he
  have hslice : World.asSlice { w with memory := mm } e = some { c := c, start := i, count := 1 } :=
    hslot.asSlice hsize
  have harch : World.archetypeOf { w with memory := mm } c = some (g, a) := hslot.archetype
  simp only [World.patchEntity, hslice, harch, Option.bind_eq_bind, Option.bind_some,
    Option.bind_eq_some_iff, Option.some.injEq] at hs
  obtain ⟨mm', hpatch, rfl⟩ := hs
  rw [hslot.elementsOf hsize]
  congr 1
  refine Memory.patch_eq (ht.patchable hwf hsize) (ht.headersOff hwf hsize he hslot) ?_ hmm hpatch
  intro el hel
  rw [← hslot.elementsOf hsize] at hel
  exact List.mem_flatMap.mpr ⟨e, he, hel⟩

/-- Some members, one after the other. -/
theorem Tidy.patchEntities {es : List Entity} (hes : ∀ e ∈ es, e ∈ members) {mm : Memory}
    (hmm : Memory.AgreeOff (members.flatMap (w.elementsOf ctx)) w.memory mm)
    (hs : es.foldlM (fun w e => World.patchEntity ctx w e fun _ => p) { w with memory := mm } =
      some w') :
    w' = { w with
      memory := (es.flatMap (w.elementsOf ctx)).foldl (Memory.patchAt ctx p) mm } := by
  induction es generalizing mm with
  | nil => exact (Option.some.inj hs).symm
  | cons e es ih =>
      simp only [List.foldlM_cons, Option.bind_eq_bind, Option.bind_eq_some_iff] at hs
      obtain ⟨w₁, hone, hs⟩ := hs
      have he := hes e List.mem_cons_self
      rw [ht.patchEntity hwf hsize he hmm hone] at hs
      rw [List.flatMap_cons, List.foldl_append]
      refine ih (fun e' he' => hes e' (List.mem_cons_of_mem e he')) ?_ hs
      refine (((ht.patchable hwf hsize).separate p).foldl (fun el hel => ?_) hmm).1
      exact List.mem_flatMap.mpr ⟨e, he, hel⟩

end

/-! ## Indices and back -/

/-- The references of an entity. -/
def referencesOf (ctx : Context) (custom : TypeIndex → List UInt8 → List Entity) (w : World)
    (e : Entity) : List Entity :=
  (w.elementsOf ctx e).flatMap fun el =>
    Memory.references ctx custom el.type (w.memory.element el)

theorem bounded_toPrefab (members : List Entity) (keepExternal : Bool) :
    Memory.Bounded (toPrefab members keepExternal) := by
  intro e he
  simp only [toPrefab]
  split_ifs
  · exact Entity.make_value_lt ..
  · exact he
  · decide

theorem bounded_fromPrefab {count : Nat} (h : ∀ e ∈ members, e.value < 2 ^ 32) :
    Memory.Bounded (fromPrefab members count) := by
  intro e he
  simp only [fromPrefab]
  split_ifs
  · exact he
  · rw [List.getD_eq_getElem?_getD]
    cases hget : members[e.id]? with
    | none => decide
    | some m => exact h m (List.mem_of_getElem? hget)

theorem fromPrefab_null {count : Nat} (h : count < 2 ^ 24 - 1) :
    fromPrefab members count Entity.null = Entity.null := by
  have hid : Entity.null.id = 2 ^ 24 - 1 := by decide
  simp only [fromPrefab, hid, decide_eq_true h, Bool.true_or, if_true]

/-- A member. -/
theorem fromPrefab_toPrefab (hlen : members.length < 2 ^ 24 - 1) {keepExternal : Bool}
    (he : e ∈ members) :
    fromPrefab members members.length (toPrefab members keepExternal e) = e := by
  have hfind : members.findIdx (fun m => e == m) < members.length :=
    List.findIdx_lt_length_of_exists ⟨e, he, beq_self_eq_true e⟩
  have hget : e = members[members.findIdx fun m => e == m] := by
    have h := List.findIdx_getElem (w := hfind)
    exact beq_iff_eq.mp h
  simp only [toPrefab, if_pos hfind]
  generalize members.findIdx (fun m => e == m) = i at hfind hget
  have hid : (Entity.makeTransient i).id = i := Entity.id_make _ (by omega)
  have htransient : (Entity.makeTransient i).isTransient = true := by
    rw [Entity.isTransient, Entity.makeTransient, Entity.version_make _ (by decide)]
    decide
  have hle : ¬ i > members.length := by omega
  simp only [fromPrefab, hid, htransient, decide_eq_false hle, Bool.not_true, Bool.or_self,
    Bool.false_eq_true, if_false]
  rw [List.getD_eq_getElem?_getD, List.getElem?_eq_getElem hfind, Option.getD_some]
  exact hget.symm

/-- Every reference of a member is null, or to a member; those of an entity that is listed
twice are null. -/
def ClosedReferences (ctx : Context) (custom : TypeIndex → List UInt8 → List Entity) (w : World)
    (members : List Entity) : Prop :=
  ∀ e ∈ members, ∀ x ∈ w.referencesOf ctx custom e,
    x = Entity.null ∨ x ∈ members ∧ members.count e = 1

theorem value_lt_of_inSlot {c : ChunkId} {i : Nat} {g : ArchetypeId} {a : Archetype}
    (h : w.InSlot e c i g a) : e.value < 2 ^ 32 := by
  rw [← h.found.handle]
  exact Mem.readWord_lt _ _ 4

theorem null_not_mem (ht : w.Tidy ctx custom members) (hsize : w.ents.size < 2 ^ 24) :
    Entity.null ∉ members := by
  intro hnull
  obtain ⟨c, i, g, a, hslot⟩ := ht.live _ hnull
  have hexist := (hslot.found.entry hsize).1
  simp only [Entities.exist, Bool.and_eq_true, decide_eq_true_eq] at hexist
  have hid : Entity.null.id = 2 ^ 24 - 1 := by decide
  omega

theorem toPrefab_null (h : Entity.null ∉ members) :
    toPrefab members false Entity.null = Entity.null := by
  have hnone : ¬ members.findIdx (fun m => Entity.null == m) < members.length := by
    rw [List.findIdx_lt_length]
    rintro ⟨m, hm, heq⟩
    exact h (beq_iff_eq.mp heq ▸ hm)
  simp only [toPrefab, if_neg hnone, Bool.false_eq_true, if_false]

/-- What becomes of one element that was worked on `n` times. -/
theorem element_back {t : TypeIndex} {bs : List UInt8} {n : Nat}
    (hl : Memory.LawfulPatch ctx custom t bs.length) (hp : Memory.Bounded p)
    (hq : Memory.Bounded q) (hnull : p Entity.null = Entity.null)
    (hnull' : q Entity.null = Entity.null)
    (h : ∀ x ∈ Memory.references ctx custom t bs, x = Entity.null ∨ q (p x) = x ∧ (bs ≠ [] → n = 1)) :
    (Memory.patched ctx t q)^[n] ((Memory.patched ctx t p)^[n] bs) = bs := by
  by_cases hn : n = 1
  · subst hn
    rw [Function.iterate_one, Function.iterate_one]
    refine Memory.patched_undo hl hp hq fun x hx => ?_
    rcases h x hx with rfl | ⟨hback, -⟩
    · rw [hnull, hnull']
    · exact hback
  · -- no reference but null ones: neither patcher changes anything
    have hfix : ∀ r : Entity → Entity, Memory.Bounded r → r Entity.null = Entity.null →
        Memory.patched ctx t r bs = bs := by
      intro r hr hrnull
      by_cases hbs : bs = []
      · subst hbs
        exact List.length_eq_zero_iff.mp (Memory.length_patched hl r)
      · refine Memory.patched_fix hl hr fun x hx => ?_
        rcases h x hx with rfl | ⟨-, hone⟩
        · exact hrnull
        · exact absurd (hone hbs) hn
    rw [Function.iterate_fixed (hfix p hp hnull), Function.iterate_fixed (hfix q hq hnull')]

/-- References of members back and forth. -/
theorem patch_back (hwf : w.store.Wf ctx) (ht : w.Tidy ctx custom members)
    (hsize : w.ents.size < 2 ^ 24) (hlen : members.length < 2 ^ 24 - 1)
    (hclosed : w.ClosedReferences ctx custom members) :
    (members.flatMap (w.elementsOf ctx)).foldl
      (Memory.patchAt ctx (fromPrefab members members.length))
      ((members.flatMap (w.elementsOf ctx)).foldl
        (Memory.patchAt ctx (toPrefab members false)) w.memory) = w.memory := by
  have hL := ht.patchable hwf hsize
  have hq : Memory.Bounded (fromPrefab members members.length) :=
    bounded_fromPrefab fun e he => by
      obtain ⟨c, i, g, a, hslot⟩ := ht.live e he
      exact value_lt_of_inSlot hslot
  obtain ⟨hagree, hback⟩ := (hL.separate (toPrefab members false)).undo
    (hL.separate (fromPrefab members members.length)) (.refl _ _) fun el hel => by
      obtain ⟨e, he, hel'⟩ := List.mem_flatMap.mp hel
      have hlength : (w.memory.element el).length = el.len := Memory.length_read ..
      refine element_back (hlength ▸ hL.lawful el hel) (bounded_toPrefab members false) hq
        (toPrefab_null (null_not_mem ht hsize)) (fromPrefab_null hlen) fun x hx => ?_
      rcases hclosed e he x (List.mem_flatMap.mpr ⟨el, hel', hx⟩) with hx | ⟨hmem, hone⟩
      · exact Or.inl hx
      · refine Or.inr ⟨fromPrefab_toPrefab hlen hmem, fun hbs => ?_⟩
        have hpos : 0 < el.len := hlength ▸ List.length_pos_iff.mpr hbs
        rw [ht.count hwf hsize he hel' hpos, hone]
  exact Memory.eq_of_elements hagree hback

/-! ## `serialize` -/

/-- What `serialize_group` asks of a group with these members. -/
structure SavesBack (ctx : Context) (custom : TypeIndex → List UInt8 → List Entity) (w : World)
    (members : List Entity) : Prop where
  tidy : w.Tidy ctx custom members
  closed : w.ClosedReferences ctx custom members
  length_lt : members.length < 2 ^ 24 - 1

theorem serializeGroup_unchanged (hwf : w.store.Wf ctx) (hsize : w.ents.size < 2 ^ 24)
    {c : ChunkId} {addr : Nat} {bytes : List UInt8}
    (hsaves : ∀ members, w.flattenGroup ctx fuel c addr = some members →
      w.SavesBack ctx custom members)
    (hs : w.serializeGroup ctx fuel c addr = some (w', bytes)) : w' = w := by
  simp only [serializeGroup, Option.bind_eq_bind, Option.bind_eq_some_iff] at hs
  obtain ⟨members, hflat, w₁, hto, _, -, w₂, hfrom, heq⟩ := hs
  obtain ⟨rfl, -⟩ := Prod.mk.inj (Option.some.inj heq)
  obtain ⟨ht, hclosed, hlen⟩ := hsaves members hflat
  have hL := ht.patchable hwf hsize
  have hw₁ := ht.patchEntities hwf hsize (fun _ he => he) (.refl _ _) hto
  rw [hw₁] at hfrom
  have hagree := ((hL.separate (toPrefab members false)).foldl (fun _ hel => hel) (.refl _ _)).1
  have hw₂ := ht.patchEntities hwf hsize (fun _ he => he) hagree hfrom
  rw [hw₂, patch_back hwf ht hsize hlen hclosed]

/-- In every world that calls keeping the chunk lists reach, `serialize` leaves everything
as it was, when all references of a group are to its members. -/
theorem serialize_unchanged (hctx : ctx.Built)
    (h : Reachable ctx (fun w op => op.KeepsLists ctx w) w) (hsize : w.ents.size < 2 ^ 24)
    (hsaves : ∀ c addr members, w.getComponentRo e ctx.groupId = some (some (c, addr)) →
      w.flattenGroup ctx fuel c addr = some members → w.SavesBack ctx custom members)
    {bytes : List UInt8} (hs : w.serializeEntity ctx fuel e = some (w', bytes)) : w' = w := by
  have hlisted : w.store.Listed ctx :=
    h.invariant (Store.listed_initial ctx) fun _ _ _ _ hv hp hs hl => listed_step hctx hl hv hp hs
  simp only [serializeEntity, Option.bind_eq_bind, Option.bind_eq_some_iff] at hs
  obtain ⟨group, hgroup, hs⟩ := hs
  cases group with
  | none =>
      obtain ⟨_, -, heq⟩ := Option.bind_eq_some_iff.mp hs
      exact (Prod.mk.inj (Option.some.inj heq)).1.symm
  | some addr =>
      exact serializeGroup_unchanged hlisted.toWf hsize
        (fun members hflat => hsaves _ _ members hgroup hflat) hs

/-! A group of the entities 0 and 1, where 1 refers to its root; then 1 refers to 2, outside
the group. -/

/-- A registry of one component that is a reference. -/
def linked : Context :=
  ((Context.initial false).registerType { guid := 10, size := 4, entityRefs := some [0] }).1

theorem built_linked : linked.Built := .register (.initial false) _

/-- An entity with a group, and two with references. -/
def threeEntities : Option World :=
  runAll linked 4 blank
    [.allocate { types := [linked.groupId] } 1, .allocate { types := [4] } 2]

/-- The program makes 0 and 1 the members of the group, and `r` the reference of 1. -/
def writeMembers (r : Entity) (w : World) : Memory :=
  let m := w.memory.setData 0
    (Mem.writeWord (Mem.writeWord (w.memory.data 0) 168 1 8) 176 8 2)
  let m := m.setData 1 (Mem.writeWord (w.memory.data 1) 496 r.value 4)
  let bytes := Mem.writeEntity (Mem.writeEntity (fun _ => 0) 0 ⟨0⟩) 1 ⟨256⟩
  { m with
    heap := Function.update m.heap 1 (some { size := 8, bytes := bytes })
    freshBlock := 2 }

theorem writeMembers_keeps (r : Entity) (hcount : w.store.count 0 = 1)
    (hcount' : w.store.count 1 = 2) (c : ChunkId) (i : Nat) (hi : w.store.Occupied c i) :
    (writeMembers r w).entityAt c i = w.memory.entityAt c i := by
  have hfirst : Memory.Writes 0 (fun x => 168 ≤ x) w.memory (w.memory.setData 0
      (Mem.writeWord (Mem.writeWord (w.memory.data 0) 168 1 8) 176 8 2)) := by
    apply Memory.Writes.setData
    refine (Mem.SameOff.writeWord 1 fun x hx _ => hx).trans
      (Mem.SameOff.writeWord 8 fun x hx _ => ?_)
    omega
  have hsecond : ∀ mm : Memory, mm.data 1 = w.memory.data 1 →
      Memory.Writes 1 (fun x => 496 ≤ x) mm (mm.setData 1
        (Mem.writeWord (w.memory.data 1) 496 r.value 4)) := by
    intro mm hmm
    apply Memory.Writes.setData
    rw [hmm]
    exact Mem.SameOff.writeWord r.value fun x hx _ => hx
  have hlt := hi.2
  refine (entityAt_of_writes (hsecond _ ?_) ?_).trans (entityAt_of_writes hfirst ?_)
  · rfl
  · rintro rfl x hx
    unfold sizeofEntity
    omega
  · rintro rfl x hx
    unfold sizeofEntity
    omega

theorem reachable_linked (r : Entity) : ∃ w, threeEntities = some w ∧
    Reachable linked (fun w op => op.Orderly linked w) { w with memory := writeMembers r w } := by
  have hsome : threeEntities.map (fun w => (w.store.count 0, w.store.count 1)) = some (1, 2) := by
    decide +kernel
  obtain ⟨w, hw, hcounts⟩ := Option.map_eq_some_iff.mp hsome
  obtain ⟨hcount, hcount'⟩ := Prod.mk.inj hcounts
  have hreach : Reachable linked (fun w op => op.Orderly linked w) w := by
    refine (reachable_blank linked _).runAll ?_ hw
    intro op hop v
    rcases List.mem_pair.mp hop with rfl | rfl
    · exact ⟨trivial, trivial, trivial, trivial, by decide, by decide⟩
    · exact ⟨trivial, trivial, trivial, trivial, by decide, by decide⟩
  refine ⟨w, hw, ?_⟩
  exact hreach.step (.write (writeMembers r w)) (writeMembers_keeps r hcount hcount')
    ⟨trivial, trivial, trivial, trivial⟩
    (show Op.run linked 0 w (.write (writeMembers r w)) = some _ from rfl)

theorem lawful_linked {custom : TypeIndex → List UInt8 → List Entity} {t : TypeIndex}
    (hrefs : Memory.refOffsets linked t = [0]) (hpatch : (linked.info t).vtable.patch = none) :
    Memory.LawfulPatch linked custom t 4 where
  inside r hr := by
    rw [hrefs, List.mem_singleton] at hr
    omega
  apart := by
    rw [hrefs]
    exact ⟨List.nodup_singleton 0, fun r hr q hq hne =>
      absurd ((List.mem_singleton.mp hr).trans (List.mem_singleton.mp hq).symm) hne⟩
  length f _ _ hf := by simp [hpatch] at hf
  fix f _ _ hf := by simp [hpatch] at hf
  undo f _ _ _ hf := by simp [hpatch] at hf
  listed f _ _ _ hf := by simp [hpatch] at hf

/-- With the group written, 1 refers to the root. -/
def closedGroup (w : World) : World := { w with memory := writeMembers ⟨0⟩ w }

theorem tidy_closedGroup (custom : TypeIndex → List UInt8 → List Entity)
    (hw : threeEntities = some w) : (closedGroup w).Tidy linked custom [⟨0⟩, ⟨256⟩] := by
  have hfacts : threeEntities.bind (fun w => (w.archetypeOf 0).bind fun p =>
      (w.archetypeOf 1).map fun q =>
        ([w.store.type 0, w.store.type 1],
          [w.store.count 0, w.store.count 1, w.ents.size, ((closedGroup w).memory.entityAt 0 0).value,
            ((closedGroup w).memory.entityAt 1 0).value],
          [p.2.firstTag, p.2.firstManaged, p.2.firstBuffer, p.2.size 0, p.2.types.getD 0 0,
            p.2.address (w.store.ct 0) 0 0,
            (Mem.readBuffer ((closedGroup w).memory.data 0) (p.2.address (w.store.ct 0) 0 0)).d],
          [q.2.firstTag, q.2.firstManaged, q.2.firstBuffer, q.2.size 0, q.2.types.getD 0 0])) =
      some ([some 0, some 1], [1, 2, 3, 0, 256], [1, 1, 0, 20, linked.groupId, 168, 1],
        [1, 1, 1, 4, 4]) := by
    decide +kernel
  rw [hw, Option.bind_some] at hfacts
  obtain ⟨⟨g, a⟩, ha, hfacts⟩ := Option.bind_eq_some_iff.mp hfacts
  obtain ⟨⟨h, b⟩, hb, hfacts⟩ := Option.map_eq_some_iff.mp hfacts
  simp only [Prod.mk.injEq, List.cons.injEq, and_true] at hfacts
  obtain ⟨⟨htype, htype'⟩, ⟨hcount, hcount', hsize, hhandle, hhandle'⟩,
    ⟨htag, hman, hbuf, hsize₀, hgroup, haddr, hd⟩, htag', hman', hbuf', hsize₁, hfour⟩ := hfacts
  obtain ⟨w₁, hw₁, hreach⟩ := reachable_linked ⟨0⟩
  obtain rfl : w₁ = w := Option.some.inj (hw₁.symm.trans hw)
  have hgood := orderly_of_reachable built_linked (by decide) hreach
  have hroot : (closedGroup w₁).Found ⟨0⟩ 0 0 := by
    rw [show (⟨0⟩ : Entity) = (closedGroup w₁).memory.entityAt 0 0 from Entity.ext hhandle.symm]
    exact hgood.sound.found ⟨by simp [htype], by rw [hcount]; decide⟩
  have hmember : (closedGroup w₁).Found ⟨256⟩ 1 0 := by
    rw [show (⟨256⟩ : Entity) = (closedGroup w₁).memory.entityAt 1 0 from Entity.ext hhandle'.symm]
    exact hgood.sound.found ⟨by simp [htype'], by rw [hcount']; decide⟩
  -- the only slots of the two
  have htracks := hgood.sound.tracks (show w₁.ents.size < 2 ^ 24 by omega)
  have hslot : ∀ e ∈ [(⟨0⟩ : Entity), ⟨256⟩], ∀ c i g' a', (closedGroup w₁).InSlot e c i g' a' →
      (c = 0 ∧ i = 0 ∧ a' = a) ∨ (c = 1 ∧ i = 0 ∧ a' = b) := by
    intro e he c i g' a' hs
    rcases List.mem_pair.mp he with rfl | rfl
    · obtain ⟨rfl, rfl⟩ := htracks.unique ⟨hs.found.occupied, not_false⟩
        ⟨hroot.occupied, not_false⟩ (congrArg Entity.id (hs.found.handle.trans hroot.handle.symm))
      exact Or.inl ⟨rfl, rfl, (Prod.mk.inj (Option.some.inj (hs.archetype.symm.trans ha))).2⟩
    · obtain ⟨rfl, rfl⟩ := htracks.unique ⟨hs.found.occupied, not_false⟩
        ⟨hmember.occupied, not_false⟩
        (congrArg Entity.id (hs.found.handle.trans hmember.handle.symm))
      exact Or.inr ⟨rfl, rfl, (Prod.mk.inj (Option.some.inj (hs.archetype.symm.trans hb))).2⟩
  have hbuffer : ∀ e ∈ [(⟨0⟩ : Entity), ⟨256⟩], ∀ c i g' a' k, (closedGroup w₁).InSlot e c i g' a' →
      a'.IsBuffer k → c = 0 ∧ i = 0 ∧ k = 0 ∧ a' = a := by
    intro e he c i g' a' k hs hk
    rcases hslot e he c i g' a' hs with ⟨rfl, rfl, rfl⟩ | ⟨rfl, rfl, rfl⟩
    · exact ⟨rfl, rfl, Nat.lt_one_iff.mp (hman ▸ hk.2), rfl⟩
    · exact absurd (hk.1.trans_lt hk.2) (by omega)
  refine ⟨fun e he => ?_, fun e he c i g' a' hs => ?_, ?_⟩
  · rcases List.mem_pair.mp he with rfl | rfl
    · exact ⟨0, 0, g, a, hroot, ha⟩
    · exact ⟨1, 0, h, b, hmember, hb⟩
  · rcases hslot e he c i g' a' hs with ⟨rfl, rfl, rfl⟩ | ⟨rfl, rfl, rfl⟩
    · have hd' : (Mem.readBuffer ((closedGroup w₁).memory.data 0)
          (a'.address ((closedGroup w₁).store.ct 0) 0 0)).d = 1 := hd
      have hzero : ∀ k, a'.IsBuffer k → k = 0 := fun k hk => Nat.lt_one_iff.mp (hman ▸ hk.2)
      refine ⟨fun k hk hbuf => absurd ⟨by omega, by omega⟩ hbuf, fun k hk => ?_, fun k hk => ?_,
        fun k hk => ?_, fun k hk _ => ?_⟩
      · rw [hzero k hk, hgroup]
        exact lawful_linked (by decide) (by decide)
      · rw [hzero k hk, hsize₀]
        decide
      · rw [hzero k hk, hd']
        exact fun h => absurd h (by decide)
      · rw [hzero k hk, hd']
        exact fun h => by simp [closedGroup, writeMembers] at h
    · have hnone : ∀ k, ¬ a'.IsBuffer k := fun k hk => absurd (hk.1.trans_lt hk.2) (by omega)
      refine ⟨fun k hk _ => ?_, fun k hk => absurd hk (hnone k), fun k hk => absurd hk (hnone k),
        fun k hk => absurd hk (hnone k), fun k hk => absurd hk (hnone k)⟩
      obtain rfl : k = 0 := by omega
      rw [hfour, hsize₁]
      exact lawful_linked (by decide) (by decide)
  · intro e he e' he' c i g' a' c' i' g'' a'' hs hs' k k' hk hk' _ _
    obtain ⟨rfl, rfl, rfl, -⟩ := hbuffer e he c i g' a' k hs hk
    obtain ⟨rfl, rfl, rfl, -⟩ := hbuffer e' he' c' i' g'' a'' k' hs' hk'
    exact ⟨rfl, rfl, rfl⟩

theorem serialize_unchanged_closed : ∃ w bytes, threeEntities = some w ∧
    (closedGroup w).serializeEntity linked 4 ⟨0⟩ = some (closedGroup w, bytes) := by
  have hsome : (threeEntities.bind fun w => (closedGroup w).serializeEntity linked 4 ⟨0⟩).isSome =
      true := by decide +kernel
  have hgroup : (threeEntities.bind fun w => (closedGroup w).getComponentRo ⟨0⟩ linked.groupId) =
      some (some (0, 168)) := by decide +kernel
  have hmembers : (threeEntities.bind fun w => (closedGroup w).flattenGroup linked 4 0 168) =
      some [⟨0⟩, ⟨256⟩] := by decide +kernel
  have hrefs : threeEntities.map (fun w =>
      ((closedGroup w).referencesOf linked (fun _ _ => []) ⟨0⟩,
        (closedGroup w).referencesOf linked (fun _ _ => []) ⟨256⟩)) =
      some ([⟨0⟩, ⟨256⟩], [⟨0⟩]) := by decide +kernel
  have hsize : threeEntities.map (fun w => w.ents.size) = some 3 := by decide +kernel
  obtain ⟨w, hw, hreach⟩ := reachable_linked ⟨0⟩
  rw [hw, Option.bind_some] at hsome hgroup hmembers
  rw [hw, Option.map_some, Option.some.injEq] at hrefs hsize
  obtain ⟨⟨w', bytes⟩, hs⟩ := Option.isSome_iff_exists.mp hsome
  obtain ⟨hfirst, hsecond⟩ := Prod.mk.inj hrefs
  have hsmall : (closedGroup w).ents.size < 2 ^ 24 := by
    change w.ents.size < 2 ^ 24
    omega
  have hsaves : ∀ c addr members,
      (closedGroup w).getComponentRo ⟨0⟩ linked.groupId = some (some (c, addr)) →
        (closedGroup w).flattenGroup linked 4 c addr = some members →
          (closedGroup w).SavesBack linked (fun _ _ => []) members := by
    intro c addr members hc hm
    rw [hgroup, Option.some.injEq, Option.some.injEq, Prod.mk.injEq] at hc
    obtain ⟨rfl, rfl⟩ := hc
    obtain rfl : members = [⟨0⟩, ⟨256⟩] := Option.some.inj (hm.symm.trans hmembers)
    refine ⟨tidy_closedGroup _ hw, fun e he x hx => Or.inr ?_, by decide⟩
    rcases List.mem_pair.mp he with rfl | rfl
    · rw [hfirst] at hx
      exact ⟨hx, by decide⟩
    · rw [hsecond] at hx
      exact ⟨by rw [List.mem_singleton.mp hx]; decide, by decide⟩
  have hsame : w' = closedGroup w :=
    serialize_unchanged built_linked (hreach.mono fun _ _ hp => hp.lists) hsmall hsaves hs
  rw [hsame] at hs
  exact ⟨w, bytes, hw, hs⟩

/-- The reference of 1 to an entity outside the group is null afterwards. -/
theorem not_serialize_unchanged_outside : ∃ w w' bytes, threeEntities = some w ∧
    Reachable linked (fun w op => op.Orderly linked w) { w with memory := writeMembers ⟨512⟩ w } ∧
    w.ents.exist ⟨0⟩ = true ∧ w.ents.exist ⟨256⟩ = true ∧ w.ents.exist ⟨512⟩ = true ∧
    World.serializeEntity linked 4 { w with memory := writeMembers ⟨512⟩ w } ⟨0⟩ =
      some (w', bytes) ∧
    Mem.readWord ((writeMembers ⟨512⟩ w).data 1) 496 4 = 512 ∧
    Mem.readWord (w'.memory.data 1) 496 4 = Entity.null.value ∧
    w' ≠ { w with memory := writeMembers ⟨512⟩ w } := by
  have hsome : (threeEntities.bind fun w =>
      (World.serializeEntity linked 4 { w with memory := writeMembers ⟨512⟩ w } ⟨0⟩).map fun p =>
        ([w.ents.exist ⟨0⟩, w.ents.exist ⟨256⟩, w.ents.exist ⟨512⟩],
          Mem.readWord ((writeMembers ⟨512⟩ w).data 1) 496 4,
          Mem.readWord (p.1.memory.data 1) 496 4)) =
      some ([true, true, true], 512, Entity.null.value) := by decide +kernel
  obtain ⟨w, hw, hreach⟩ := reachable_linked ⟨512⟩
  rw [hw, Option.bind_some] at hsome
  obtain ⟨⟨w', bytes⟩, hs, hfacts⟩ := Option.map_eq_some_iff.mp hsome
  simp only [Prod.mk.injEq, List.cons.injEq, and_true] at hfacts
  obtain ⟨⟨hroot, hmember, houtside⟩, hbefore, hafter⟩ := hfacts
  refine ⟨w, w', bytes, hw, hreach, hroot, hmember, houtside, hs, hbefore, hafter, ?_⟩
  rintro rfl
  rw [hbefore] at hafter
  exact absurd hafter (by decide)

end World

end Dots

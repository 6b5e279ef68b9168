import Dots.Database.Growth
import Dots.Database.Progress

/-!
# Enable masks

An archetype with the mask component keeps 32 bits for each entity. Bit `k` belongs to
the `k`-th type of the archetype, so every change of the type list moves the bits.
-/

namespace Dots

open Library Entities

/-! ## The calls -/

def Mem.readMask (m : Mem) (x : Nat) : Mask := BitVec.ofNat 32 (Mem.readWord m x sizeofMask)

def Mem.writeMask (m : Mem) (x : Nat) (mask : Mask) : Mem :=
  Mem.writeWord m x mask.toNat sizeofMask

namespace World

/-- `data() + offsets[ct][id] + i * sizes[id]`, for the mask component. -/
def maskAddress (ctx : Context) (a : Archetype) (ct : AllocType) (i : Nat) : Nat :=
  a.address ct (a.index ctx.maskId) i

/-- The mask of slot `i` of a chunk of archetype `a`. -/
def maskAt (ctx : Context) (w : World) (a : Archetype) (c : ChunkId) (i : Nat) : Mask :=
  Mem.readMask (w.memory.data c) (maskAddress ctx a (w.store.ct c) i)

/-- `timestamps(c)[id] = timestamp` and the write of the mask. -/
def setMask (ctx : Context) (w : World) (a : Archetype) (c : ChunkId) (i : Nat) (mask : Mask) :
    World :=
  { w with
    store := { w.store with
      timestamps := Function.update w.store.timestamps c
        (Function.update (w.store.timestamps c) (a.index ctx.maskId) w.store.timestamp) }
    memory := w.memory.setData c
      (Mem.writeMask (w.memory.data c) (maskAddress ctx a (w.store.ct c) i) mask) }

/-- `world::enable_component` and `world::disable_component`, which differ in their last
line: `m` becomes `f m mm`. -/
def editMask (ctx : Context) (f : Mask → Mask → Mask) (w : World) (e : Entity)
    (type : List TypeIndex) : Option World :=
  if w.ents.exist e then
    match (w.ents.datas e.id).c with
    | .chunk c => do
        let i := (w.ents.datas e.id).i
        let (_, a) ← w.archetypeOf c
        if !a.withMask then some w
        else
          let mm ← a.getMask type
          some (w.setMask ctx a c i (f (w.maskAt ctx a c i) mm))
    | _ => none
  else some w

/-- `world::enable_component`. -/
def enableComponent (ctx : Context) (w : World) (e : Entity) (type : List TypeIndex) :
    Option World :=
  editMask ctx (fun m mm => m ||| mm) w e type

/-- `world::disable_component`. -/
def disableComponent (ctx : Context) (w : World) (e : Entity) (type : List TypeIndex) :
    Option World :=
  editMask ctx (fun m mm => m &&& ~~~mm) w e type

/-- `world::is_component_enabled`. -/
def isComponentEnabled (ctx : Context) (w : World) (e : Entity) (type : List TypeIndex) :
    Option Bool :=
  if w.ents.exist e then
    match (w.ents.datas e.id).c with
    | .chunk c => do
        let (_, a) ← w.archetypeOf c
        if !a.withMask then some true
        else
          let mm ← a.getMask type
          some (w.maskAt ctx a c (w.ents.datas e.id).i &&& mm == mm)
    | _ => none
  else some false

end World

/-! ## `get_mask` -/

theorem getLsbD_bit {i : Nat} (hi : i < 32) (j : Nat) :
    (1#32 <<< i).getLsbD j = decide (j = i) := by
  rw [BitVec.getLsbD_shiftLeft, BitVec.getLsbD_one]
  by_cases hj : j = i
  · subst hj
    simp [hi]
  · have hne : ¬ (j < 32 ∧ i ≤ j ∧ j - i = 0) := by omega
    simp only [hj, decide_false]
    grind

theorem mem_dropWhile_lt {tb : List TypeIndex} {t u : TypeIndex} (htu : t ≤ u) :
    u ∈ tb.dropWhile (fun v => decide (v < t)) ↔ u ∈ tb := by
  induction tb with
  | nil => rfl
  | cons v tb ih =>
      by_cases hv : v < t
      · rw [List.dropWhile_cons_of_pos (by simpa using hv), ih, List.mem_cons]
        constructor
        · exact Or.inr
        · rintro (rfl | hmem)
          · exact absurd hv (not_lt.mpr htu)
          · exact hmem
      · rw [List.dropWhile_cons_of_neg (by simpa using hv)]

/-- Bit `k` of the mask of a set of types is on for the types of the archetype in it. -/
theorem maskFrom_spec {ta tb : List TypeIndex} (ha : Set.Sorted ta) (hb : Set.Sorted tb) {i : Nat}
    (hi : i + ta.length ≤ 32) :
    ∃ m, maskFrom i ta tb = some m ∧
      ∀ j, m.getLsbD j = true ↔ i ≤ j ∧ ∃ t, ta[j - i]? = some t ∧ t ∈ tb := by
  induction ta generalizing i tb with
  | nil => exact ⟨0, rfl, by simp⟩
  | cons t ta ih =>
      obtain ⟨hlt, ha⟩ := List.pairwise_cons.mp ha
      have hbelow : ∀ u ∈ t :: ta, (u ∈ tb.dropWhile (fun v => decide (v < t)) ↔ u ∈ tb) := by
        intro u hu
        apply mem_dropWhile_lt
        rcases List.mem_cons.mp hu with rfl | hu
        · exact le_rfl
        · exact (hlt u hu).le
      have hdrop : (tb.dropWhile fun v => decide (v < t)).Pairwise (· < ·) :=
        hb.sublist (List.dropWhile_sublist _)
      have hsucc : ∀ {j : Nat} {u : TypeIndex}, i + 1 ≤ j →
          ((t :: ta)[j - i]? = some u ↔ ta[j - (i + 1)]? = some u) := by
        intro j u hj
        rw [show j - i = j - (i + 1) + 1 by omega, List.getElem?_cons_succ]
      simp only [maskFrom]
      rw [List.length_cons] at hi
      cases hrest : tb.dropWhile (fun v => decide (v < t)) with
      | nil =>
          refine ⟨0, rfl, fun j => ?_⟩
          simp only [BitVec.ofNat_eq_ofNat, BitVec.getLsbD_zero, Bool.false_eq_true, false_iff,
            not_and, not_exists]
          intro _ u hget hmem
          have hnone := (hbelow u (List.mem_of_getElem? hget)).mpr hmem
          simp [hrest] at hnone
      | cons u tb' =>
          rw [hrest] at hbelow hdrop
          have hge : t ≤ u := by
            have hhead := List.head?_dropWhile_not (fun v => decide (v < t)) tb
            simp only [hrest, List.head?_cons, decide_eq_false_iff_not, not_lt] at hhead
            exact hhead
          obtain ⟨hhead, htail⟩ := List.pairwise_cons.mp hdrop
          by_cases htu : t < u
          · obtain ⟨m, hm, hbits⟩ := ih ha hdrop (i := i + 1) (by omega)
            have hout : t ∉ u :: tb' := by
              intro hmem
              rcases List.mem_cons.mp hmem with rfl | hmem
              · exact lt_irrefl _ htu
              · exact lt_asymm htu (hhead t hmem)
            refine ⟨m, by dsimp only; rw [if_pos htu, hm], fun j => ?_⟩
            rw [hbits]
            constructor
            · rintro ⟨hj, v, hget, hmem⟩
              exact ⟨by omega, v, (hsucc hj).mpr hget,
                (hbelow v (List.mem_cons_of_mem _ (List.mem_of_getElem? hget))).mp hmem⟩
            · rintro ⟨hj, v, hget, hmem⟩
              have hmem' := (hbelow v (List.mem_of_getElem? hget)).mpr hmem
              obtain rfl | hj' : j = i ∨ i + 1 ≤ j := by omega
              · rw [Nat.sub_self] at hget
                obtain rfl := Option.some.inj hget
                exact absurd hmem' hout
              · exact ⟨hj', v, (hsucc hj').mp hget, hmem'⟩
          · obtain rfl : t = u := le_antisymm hge (not_lt.mp htu)
            obtain ⟨m, hm, hbits⟩ := ih ha htail (i := i + 1) (by omega)
            refine ⟨m ||| (1#32 <<< i), ?_, fun j => ?_⟩
            · dsimp only
              rw [if_neg htu, hm, Option.bind_eq_bind, Option.bind_some, if_pos (by omega)]
            rw [BitVec.getLsbD_or, getLsbD_bit (by omega), Bool.or_eq_true, hbits,
              decide_eq_true_eq]
            constructor
            · rintro (⟨hj, v, hget, hmem⟩ | rfl)
              · exact ⟨by omega, v, (hsucc hj).mpr hget,
                  (hbelow v (List.mem_cons_of_mem _ (List.mem_of_getElem? hget))).mp
                    (List.mem_cons_of_mem _ hmem)⟩
              · exact ⟨le_rfl, t, by simp, (hbelow t List.mem_cons_self).mp List.mem_cons_self⟩
            · rintro ⟨hj, v, hget, hmem⟩
              obtain rfl | hj' : j = i ∨ i + 1 ≤ j := by omega
              · exact Or.inr rfl
              · have hget' := (hsucc hj').mp hget
                have hlt' := hlt v (List.mem_of_getElem? hget')
                rcases List.mem_cons.mp ((hbelow v (List.mem_of_getElem? hget)).mpr hmem) with
                  rfl | hmem'
                · exact absurd hlt' (lt_irrefl _)
                · exact Or.inl ⟨hj', v, hget', hmem'⟩

/-- The bits of a set of types. -/
theorem getMask_spec {a : Archetype} (hs : Set.Sorted a.types) (hlen : a.types.length ≤ 32)
    {type : List TypeIndex} (ht : Set.Sorted type) :
    ∃ m, a.getMask type = some m ∧
      ∀ t ∈ a.types, (m.getLsbD (a.column t) = true ↔ t ∈ type) := by
  obtain ⟨m, hm, hbits⟩ := maskFrom_spec hs ht (i := 0) (by omega)
  refine ⟨m, hm, fun t hmem => ?_⟩
  have hget : a.types[a.column t]? = some t := by
    rw [List.getElem?_eq_getElem (Archetype.column_lt hmem), Archetype.types_column hmem]
  rw [hbits, Nat.sub_zero, hget]
  simp

/-- The mask of one type is one bit. -/
theorem getMask_single {a : Archetype} (hs : Set.Sorted a.types) (hlen : a.types.length ≤ 32)
    {t : TypeIndex} (ht : t ∈ a.types) :
    ∃ m, a.getMask [t] = some m ∧ ∀ n : Mask, (n &&& m == m) = n.getLsbD (a.column t) := by
  obtain ⟨m, hm, hbits⟩ := maskFrom_spec hs (List.pairwise_singleton _ t) (i := 0) (by omega)
  have hcol := Archetype.column_lt ht
  have hbit : ∀ j, m.getLsbD j = decide (j = a.column t) := by
    intro j
    rw [Bool.eq_iff_iff, hbits, decide_eq_true_eq, Nat.sub_zero]
    constructor
    · rintro ⟨-, u, hget, hmem⟩
      obtain rfl := List.mem_singleton.mp hmem
      obtain ⟨hj, rfl⟩ := List.getElem?_eq_some_iff.mp hget
      exact (hs.nodup.idxOf_getElem j hj).symm
    · rintro rfl
      refine ⟨Nat.zero_le _, t, ?_, List.mem_singleton_self t⟩
      rw [List.getElem?_eq_getElem hcol, Archetype.types_column ht]
  refine ⟨m, hm, fun n => ?_⟩
  rw [Bool.eq_iff_iff, beq_iff_eq]
  constructor
  · intro h
    have hcolumn := hbit (a.column t)
    rw [← h, BitVec.getLsbD_and] at hcolumn
    simp only [decide_true, Bool.and_eq_true] at hcolumn
    exact hcolumn.1
  · intro h
    apply BitVec.eq_of_getLsbD_eq
    intro j hj
    rw [BitVec.getLsbD_and, hbit]
    by_cases hjc : j = a.column t
    · subst hjc
      simp [h]
    · simp [hjc]

/-! ## The mask component -/

namespace Context

/-- The mask is a plain component of four bytes without a twin. -/
theorem Built.mask {ctx : Context} (h : ctx.Built) :
    (ctx.infos[3]?).map TypeRegistry.size = some sizeofMask ∧
      ctx.tracks[3]? ≠ some { copying := true } ∧ ctx.tracks[4]? ≠ some { copying := true } := by
  induction h with
  | initial guid => cases guid <;> decide
  | @register ctx h desc ih =>
      obtain ⟨hinfo, hmask, hnext⟩ := ih
      have hfirst : ∀ (twin : Bool) (s : TrackState), s.copying = false →
          (if twin then [s, { copying := true }] else [s])[0]? ≠ some { copying := true } := by
        rintro twin s hs heq
        have hs' : s = { copying := true } := by
          cases twin <;> simpa using heq
        simp [hs'] at hs
      have hlen : 3 < ctx.infos.length := by
        by_contra hlt
        rw [List.getElem?_eq_none (by omega)] at hinfo
        simp at hinfo
      have hlen' : 3 < ctx.tracks.length := h.paired.1 ▸ hlen
      unfold Context.registerType
      split
      · exact ⟨hinfo, hmask, hnext⟩
      · dsimp only
        refine ⟨?_, ?_, ?_⟩
        · rwa [List.getElem?_append_left hlen]
        · rwa [List.getElem?_append_left hlen']
        · by_cases hlt : 4 < ctx.tracks.length
          · rwa [List.getElem?_append_left hlt]
          · -- the type registered next is not a twin
            rw [List.getElem?_append_right (by omega), show 4 - ctx.tracks.length = 0 by omega]
            exact hfirst _ _ rfl

theorem Built.size_mask {ctx : Context} (h : ctx.Built) :
    (ctx.info ctx.maskId).size = sizeofMask := by
  have hinfo := h.mask.1
  rw [h.ids.2.2.2, info, List.getD_eq_getElem?_getD, show TypeIndex.index (TypeIndex.make 3 .pod) = 3
    from rfl]
  cases hget : ctx.infos[3]? with
  | none => simp [hget] at hinfo
  | some i => simpa [hget] using hinfo

/-- No type but the mask stands for it. -/
theorem Built.valid_mask {ctx : Context} (h : ctx.Built) {t : TypeIndex} :
    ctx.toValidType t = ctx.maskId ↔ t = ctx.maskId := by
  obtain ⟨-, hmask, hnext⟩ := h.mask
  have htrack : ∀ u : TypeIndex, ctx.track u = { copying := true } →
      ctx.tracks[u.index]? = some { copying := true } := by
    intro u hu
    rw [track, List.getD_eq_getElem?_getD] at hu
    cases hget : ctx.tracks[u.index]? with
    | none => simp [hget] at hu
    | some s => simpa [hget] using hu
  rw [h.ids.2.2.2]
  constructor
  · intro hvalid
    unfold toValidType at hvalid
    split_ifs at hvalid with htwin
    · have hget := htrack t htwin
      have hindex : TypeIndex.index t = 4 := by
        have ht : t = TypeIndex.make 3 .pod + 1 := by
          have hpos : t ≠ 0 := by
            rintro rfl
            exact absurd hvalid (by decide)
          exact Nat.pred_eq_succ_iff.mp hvalid
        rw [ht]
        rfl
      rw [hindex] at hget
      exact absurd hget hnext
    · exact hvalid
  · rintro rfl
    rw [toValidType, if_neg]
    intro htwin
    exact hmask (htrack _ htwin)

end Context

/-- A set of at most 32 types, the mask among them. -/
structure MaskKey (ctx : Context) (key : EntityType) : Prop where
  sorted : Set.Sorted key.types
  lt : ∀ t ∈ key.types, t < 2 ^ 32
  mask : ctx.maskId ∈ key.types
  short : key.types.length ≤ 32

theorem MaskKey.sortedTypes {ctx : Context} {key : EntityType} (h : MaskKey ctx key) :
    SortedTypes key.types :=
  ⟨h.sorted.imp le_of_lt, h.lt⟩

/-- An archetype of such a key. -/
structure Masking (ctx : Context) (a : Archetype) : Prop where
  key : MaskKey ctx a.type
  built : constructArchetype ctx a.type = some a

namespace Masking

variable {ctx : Context} {a b : Archetype}

theorem mem (h : Masking ctx a) : ctx.maskId ∈ a.types := h.key.mask

theorem withMask (hctx : ctx.Built) (h : Masking ctx a) : a.withMask = true := by
  obtain ⟨key, hkey⟩ : ∃ key, key = a.type := ⟨_, rfl⟩
  have hbuilt := h.built
  have hmem := h.mem
  rw [Archetype.types] at hmem
  rw [← hkey] at hbuilt hmem
  simp only [constructArchetype] at hbuilt
  split_ifs at hbuilt
  rw [← Option.some.inj hbuilt, List.any_eq_true]
  refine ⟨ctx.maskId, hmem, ?_⟩
  rw [hctx.ids.1, hctx.ids.2.1, hctx.ids.2.2.2]
  decide

theorem index (h : Masking ctx a) :
    a.index ctx.maskId = a.column ctx.maskId ∧ a.index ctx.maskId ≠ invalidIndex :=
  World.index_lt h.key.sortedTypes (h.key.short.trans_lt (by decide)) h.mem

theorem column_lt (hctx : ctx.Built) (h : Masking ctx a) :
    a.column ctx.maskId < a.firstBuffer := by
  have hlt := Archetype.column_lt h.mem
  rw [(Archetype.boundaries h.built h.key.sortedTypes hlt).2.2, Archetype.types_column h.mem,
    hctx.ids.2.2.2]
  decide

theorem column_lt_tag (hctx : ctx.Built) (h : Masking ctx a) :
    a.column ctx.maskId < a.firstTag := by
  have hl := constructArchetype_layout h.built
  exact (h.column_lt hctx).trans_le (hl.buffer_le.trans hl.managed_le)

theorem size (hctx : ctx.Built) (h : Masking ctx a) :
    a.size (a.column ctx.maskId) = sizeofMask := by
  have hlt := Archetype.column_lt h.mem
  rw [Memory.size_eq h.built (h.column_lt_tag hctx), List.getD_eq_getElem?_getD,
    List.getElem?_eq_getElem hlt, Option.getD_some, Archetype.types_column h.mem, hctx.size_mask]

theorem address (h : Masking ctx a) (ct : AllocType) (i : Nat) :
    World.maskAddress ctx a ct i = a.address ct (a.column ctx.maskId) i := by
  rw [World.maskAddress, h.index.1]

end Masking

/-! ## The words -/

theorem Mem.readMask_congr {m m' : Mem} {x y : Nat} (h : ∀ i < sizeofMask, m (x + i) = m' (y + i)) :
    Mem.readMask m x = Mem.readMask m' y := by
  rw [Mem.readMask, Mem.readMask, Mem.readWord_congr h]

theorem Mem.readMask_writeMask (m : Mem) (x : Nat) (mask : Mask) :
    Mem.readMask (Mem.writeMask m x mask) x = mask := by
  rw [Mem.readMask, Mem.writeMask, Mem.readWord_write _ _ _ _ (mask.isLt.trans_eq (by decide)),
    BitVec.ofNat_toNat, BitVec.setWidth_eq]

theorem Mem.readMask_ones {m : Mem} {x : Nat} (h : ∀ i < sizeofMask, m (x + i) = 0xff) :
    Mem.readMask m x = BitVec.allOnes 32 := by
  have hword : Mem.readMask m x = Mem.readMask (fun _ => 0xff) 0 := Mem.readMask_congr h
  rw [hword]
  decide

namespace World

variable {ctx : Context} {w w' : World} {g : ArchetypeId} {a b : Archetype} {c d : ChunkId}
  {i j : Nat} {s : ChunkSlice}

/-- The column of the mask. -/
abbrev maskColumn (ctx : Context) : Watched := fun a k => k = a.column ctx.maskId

theorem maskAt_of_cell (hctx : ctx.Built) (ha : Masking ctx a) (hb : Masking ctx b)
    (h : w'.memory.cell d b (w'.store.ct d) (b.column ctx.maskId) j =
      w.memory.cell c a (w.store.ct c) (a.column ctx.maskId) i) :
    w'.maskAt ctx b d j = w.maskAt ctx a c i := by
  simp only [Memory.cell, ha.size hctx, hb.size hctx] at h
  rw [maskAt, maskAt, ha.address, hb.address]
  exact Mem.readMask_congr fun i hi => Mem.read_inj h hi

theorem maskAt_of_carried {K : Watched} (hctx : ctx.Built) (ha : Masking ctx a)
    (h : Carried K g a w c i w' d j) (hK : K a (a.column ctx.maskId)) :
    w'.maskAt ctx a d j = w.maskAt ctx a c i :=
  maskAt_of_cell hctx ha ha (h.cells _ (ha.column_lt_tag hctx) hK)

/-! ## What a call does to the masks -/

theorem setMask_shape (ctx : Context) (w : World) (a : Archetype) (c : ChunkId) (i : Nat)
    (mask : Mask) : Store.SameShape w.store (w.setMask ctx a c i mask).store :=
  ⟨rfl, rfl, rfl, rfl, rfl, rfl, rfl, rfl, rfl, rfl, rfl⟩

/-- The four bytes of a mask are behind the handles and apart from other slots. -/
theorem setMask_writes (hctx : ctx.Built) (ha : Masking ctx a) (w : World) (c : ChunkId) (i : Nat)
    (mask : Mask) : Memory.Writes c (a.Cells (w.store.ct c) i 1) w.memory
      (w.setMask ctx a c i mask).memory := by
  apply Memory.Writes.setData
  apply Mem.SameOff.writeWord
  intro x hlo hhi
  rw [ha.address] at hlo hhi
  refine ⟨a.column ctx.maskId, ha.column_lt_tag hctx, hlo, ?_⟩
  rw [ha.size hctx]
  omega

theorem entityAt_setMask (hctx : ctx.Built) (ha : Masking ctx a) (hl : w.store.Listed ctx)
    (hc : w.archetypeOf c = some (g, a)) (mask : Mask) (hj : w.store.Occupied d j) :
    (w.setMask ctx a c i mask).memory.entityAt d j = w.memory.entityAt d j := by
  apply entityAt_of_writes (setMask_writes hctx ha w c i mask)
  rintro rfl x hx
  obtain ⟨htype, harch⟩ := archetypeOf_eq_some.mp hc
  have hcap := hl.count_le d g a htype harch
  have hlt := hj.2
  exact (Nat.mul_le_mul_left _ (by omega)).trans
    (hx.handles_le (constructArchetype_layout ha.built))

theorem maskAt_setMask_self (w : World) (a : Archetype) (c : ChunkId) (i : Nat) (mask : Mask) :
    (w.setMask ctx a c i mask).maskAt ctx a c i = mask := by
  simp only [maskAt, setMask, Memory.setData, Function.update_self]
  exact Mem.readMask_writeMask _ _ _

theorem maskAt_setMask_ne (hctx : ctx.Built) (ha : Masking ctx a) (hb : Masking ctx b)
    (hl : w.store.Listed ctx) (hc : w.archetypeOf c = some (g, a)) {h : ArchetypeId}
    (hd : w.archetypeOf d = some (h, b)) (hi : w.store.Occupied c i) (hj : w.store.Occupied d j)
    (hne : ¬ (d = c ∧ j = i)) (mask : Mask) :
    (w.setMask ctx a c i mask).maskAt ctx b d j = w.maskAt ctx b d j := by
  obtain ⟨htype, harch⟩ := archetypeOf_eq_some.mp hc
  have hcap := hl.count_le c g a htype harch
  have hlt := hi.2
  apply maskAt_of_cell hctx hb hb
  apply Memory.cell_of_writes (setMask_writes hctx ha w c i mask)
  rintro rfl y hy
  obtain ⟨rfl, rfl⟩ := Prod.mk.inj (Option.some.inj (hc.symm.trans hd))
  have hlt' := hj.2
  have hji : j ≠ i := fun h => hne ⟨rfl, h⟩
  exact Archetype.Cells.not_cell (constructArchetype_layout ha.built) (by omega)
    (ha.column_lt_tag hctx) (by omega) (by omega) hy

/-- The masks of the slots `allocate` fills are all on. -/
theorem Filled.mask (hctx : ctx.Built) (ha : Masking ctx a) {n : Nat} {w₁ : World}
    (h : Filled ctx g a n w w₁ s w') (hj : Slots.of s d j) :
    w'.archetypeOf d = some (g, a) ∧ w'.maskAt ctx a d j = BitVec.allOnes 32 := by
  obtain ⟨rfl, hlo, hhi⟩ := hj
  have hle := h.slots.le
  have hcol := ha.column_lt_tag hctx
  refine ⟨archetypeOf_eq_some.mpr ⟨by rw [h.slots.type, Function.update_self], h.target⟩, ?_⟩
  apply Mem.readMask_ones
  intro y hy
  rw [ha.address]
  rw [← ha.size hctx] at hy
  have hroom : j < a.chunkCapacity (w'.store.ct s.c) := by omega
  have hcolumn := Archetype.column_of_cell hroom hy
  have hbehind := hcolumn.handles_le (constructArchetype_layout ha.built) hcol
  have hmul := Nat.mul_le_mul_left sizeofEntity hle
  rw [h.writes.same _ fun hx => by have := hx.2; omega]
  simp only [Memory.construct, Memory.setData, Function.update_self]
  rw [if_neg ha.index.2, ha.index.1, Mem.fill, if_pos]
  have hrange : a.size (a.column ctx.maskId) * (j + 1) ≤
      a.size (a.column ctx.maskId) * (s.start + s.count) := Nat.mul_le_mul_left _ (by omega)
  have hstart := Nat.mul_le_mul_left (a.size (a.column ctx.maskId)) hlo
  rw [Nat.mul_add, Nat.mul_add, Nat.mul_one] at hrange
  simp only [Archetype.address]
  omega

theorem allocateLoop_fills (hctx : ctx.Built) {fuel n : Nat} {ss : List ChunkSlice}
    (hl : w.store.Listed ctx) (ha : w.store.archetype g = some a) (hm : Masking ctx a)
    (hroomy : a.Roomy) (hs : World.allocateLoop ctx g fuel n w = some (w', ss)) :
    w'.store.archetype = w.store.archetype ∧ ∀ d j, w'.store.Occupied d j →
      w.store.Occupied d j ∨
        w'.archetypeOf d = some (g, a) ∧ w'.maskAt ctx a d j = BitVec.allOnes 32 := by
  refine (allocateLoop_invariant (I := fun v => v.store.Listed ctx ∧
    v.store.archetype g = some a ∧ v.store.archetype = w.store.archetype ∧
      ∀ d j, v.store.Occupied d j → w.store.Occupied d j ∨
        v.archetypeOf d = some (g, a) ∧ v.maskAt ctx a d j = BitVec.allOnes 32) ?_
    ⟨hl, ha, rfl, fun _ _ => Or.inl⟩ hs).2.2
  rintro v v₁ v₂ n s g' a' ⟨hl, ha, hsame, hold⟩ - halloc harch hnew
  have hfill := Filled.of_turn hctx hl ha halloc harch hnew
  refine ⟨hfill.listed, hfill.target, hfill.slots.archetype.trans hsame, fun d j hj => ?_⟩
  rcases (occupied_of_allocated hfill.slots d j).mp hj with hj | hj
  · rcases hold d j hj with hj' | ⟨hd, hmask⟩
    · exact Or.inl hj'
    · obtain ⟨-, hcar⟩ := hfill.keeps d j g a hd hj
      exact Or.inr ⟨hcar.after, (maskAt_of_carried hctx hm hcar hroomy).trans hmask⟩
  · exact Or.inr (hfill.mask hctx hm hj)

/-- The fast path of `cast` leaves the words of the masks as they are. -/
theorem maskAt_of_relinks (hctx : ctx.Built) (hl : w.store.Listed ctx) (hl' : w'.store.Listed ctx)
    {srcG : ArchetypeId} (hsrc : w.archetypeOf s.c = some (srcG, a))
    (hb : w.store.archetype g = some b) (hg : srcG ≠ g) (hma : Masking ctx a) (hmb : Masking ctx b)
    (hfast : Relinks ctx w s srcG g a b w') (i : Nat) :
    w'.maskAt ctx b s.c i = w.maskAt ctx a s.c i := by
  obtain ⟨-, hmem, hct, -⟩ := relink_target hctx hl hl' hsrc hb hg hfast
  obtain ⟨htag, hsizes, hoffsets⟩ :=
    layout_of_staticCastable hctx.paired hma.built hmb.built hfast.castable
  have hcolumn : b.column ctx.maskId = a.column ctx.maskId := by
    have hlt := hma.column_lt_tag hctx
    have hlt' := htag.symm ▸ hlt
    have hlen := hlt'.trans_le (constructArchetype_layout hmb.built).tag_le
    have hvalid := valid_of_staticCastable hctx.paired hma.built hmb.built hfast.castable hlt
    rw [List.getD_eq_getElem?_getD, List.getD_eq_getElem?_getD,
      List.getElem?_eq_getElem (Archetype.column_lt hma.mem), List.getElem?_eq_getElem hlen,
      Option.getD_some, Option.getD_some, Archetype.types_column hma.mem,
      hctx.valid_mask.mpr rfl, eq_comm, hctx.valid_mask] at hvalid
    have hcol : b.types.idxOf b.types[a.column ctx.maskId] = a.column ctx.maskId :=
      hmb.key.sorted.nodup.idxOf_getElem _ hlen
    rwa [hvalid] at hcol
  rw [maskAt, maskAt, hma.address, hmb.address, hmem, hct, hcolumn]
  simp only [Archetype.address, Archetype.size, hsizes, hoffsets]

end World

/-! ## Runs -/

/-- `e` is in some slot. -/
def World.Alive (w : World) (e : Entity) : Prop := ∃ c i, w.Found e c i

inductive MaskCall
  | allocate (type : EntityType) (count : Nat)
  | enable (e : Entity) (type : List TypeIndex)
  | disable (e : Entity) (type : List TypeIndex)
  | cast (s : ChunkSlice) (diff : TypeDiff)

namespace MaskCall

def run (ctx : Context) (fuel : Nat) (w : World) : MaskCall → Option World
  | .allocate type count => (w.allocate ctx fuel type count).map Prod.fst
  | .enable e type => w.enableComponent ctx e type
  | .disable e type => w.disableComponent ctx e type
  | .cast s diff => (w.cast ctx fuel s diff).map Prod.fst

/-- Type lists are sets, of at most 32 types with the mask where they are those of an
archetype; slices are valid, and a handle that exists is that of an entity. -/
def Valid (ctx : Context) (w : World) : MaskCall → Prop
  | .allocate type _ => MaskKey ctx type
  | .enable e type => Set.Sorted type ∧ (w.ents.exist e = true → w.Alive e)
  | .disable e type => Set.Sorted type ∧ (w.ents.exist e = true → w.Alive e)
  | .cast s diff => w.ValidSlice s ∧ Set.Sorted diff.extend.types ∧
      (∀ t ∈ diff.extend.types, t < 2 ^ 32) ∧ ∀ g a, w.archetypeOf s.c = some (g, a) →
        ctx.maskId ∈ (World.castedType ctx a diff false).types ∧
          (World.castedType ctx a diff false).types.length ≤ 32

/-- Whether the last call on `e` that named `t` since `e` got it was an `enable`, or there
was none; `enabled` tells so before this call. -/
def enabled (w : World) (enabled : Entity → TypeIndex → Prop) (call : MaskCall)
    (e : Entity) (t : TypeIndex) : Prop :=
  match call with
  | .allocate _ _ => w.Alive e → enabled e t
  | .enable e' type => e = e' ∧ t ∈ type ∨ enabled e t
  | .disable e' type => ¬ (e = e' ∧ t ∈ type) ∧ enabled e t
  | .cast s _ => enabled e t ∨
      e ∈ w.handles s ∧ ∀ g a, w.archetypeOf s.c = some (g, a) → t ∉ a.types

end MaskCall

/-- The worlds that calls satisfying `P` reach, and what the masks should say there. -/
inductive MaskRun (ctx : Context) (P : World → MaskCall → Prop) :
    World → (Entity → TypeIndex → Prop) → Prop
  | initial (timestamp : Nat) (raw : Nat → Nat) (data : ChunkId → Mem) (guids : Nat → List UInt8) :
      MaskRun ctx P (World.initial timestamp raw data guids) fun _ _ => True
  | step {w w' : World} {enabled : Entity → TypeIndex → Prop} {fuel : Nat}
      (h : MaskRun ctx P w enabled) (call : MaskCall) (hv : call.Valid ctx w) (hp : P w call)
      (hs : call.run ctx fuel w = some w') : MaskRun ctx P w' (call.enabled w enabled)

theorem MaskRun.mono {ctx : Context} {P Q : World → MaskCall → Prop} {w : World}
    {enabled : Entity → TypeIndex → Prop} (h : MaskRun ctx P w enabled)
    (hPQ : ∀ w call, P w call → Q w call) : MaskRun ctx Q w enabled := by
  induction h with
  | initial timestamp raw data guids => exact .initial timestamp raw data guids
  | step _ call hv hp hs ih => exact ih.step call hv (hPQ _ _ hp) hs

/-- The whole slice goes over to archetype `b`, and each bit is where `b` has its type: the
bit of the same type of `a`, or one that is on for a new type. -/
structure MovesBits (ctx : Context) (w : World) (s : ChunkSlice) (a b : Archetype) : Prop where
  full : w.full s = true
  castable : World.staticCastable ctx a.type b.type = true
  bits : ∀ j < s.count, ∀ t ∈ b.types,
    (w.maskAt ctx a s.c (s.start + j)).getLsbD (b.column t) =
      (decide (t ∉ a.types) || (w.maskAt ctx a s.c (s.start + j)).getLsbD (a.column t))

/-- The calls that keep the masks and return. -/
def MaskCall.KeepsMasks (ctx : Context) (w : World) : MaskCall → Prop
  | .allocate type count => w.store.Obtainable ctx w.ents type ∧
      ∀ a, constructArchetype ctx type = some a → a.Roomy ∧ Store.RoomFor a count
  | .enable _ _ => True
  | .disable _ _ => True
  | .cast s diff => ∀ g a, w.archetypeOf s.c = some (g, a) → w.castedFits ctx a diff false = true ∧
      if World.castFrees ctx a diff then
        World.TailFits (World.maskColumn ctx) w s ∧
          (s.count = w.store.count s.c → ∀ w₁, w.freeEntities s = some w₁ →
            w.store.Detachable w₁.ents g a s.c)
      else
        w.store.Obtainable ctx w.ents (World.castedType ctx a diff false) ∧
          w.RelinkKeepsOrder ctx s (World.castedType ctx a diff false) ∧
          ∀ w₁ g' b, w.getArchetype ctx (World.castedType ctx a diff false) = some (w₁, g') →
            w₁.store.archetype g' = some b → g ≠ g' →
              MovesBits ctx w s a b ∧ w₁.store.Detachable w.ents g a s.c

/-- An archetype that the call would build has the parts of its blocks apart. -/
def MaskCall.LaysOut (ctx : Context) (w : World) : MaskCall → Prop
  | .allocate type count => (Op.allocate type count).LaysOut ctx w
  | .enable _ _ => True
  | .disable _ _ => True
  | .cast s diff => (Op.cast s diff).LaysOut ctx w

/-- The masks tell what was enabled. -/
def MasksSurvive (ctx : Context) (w : World) (enabled : Entity → TypeIndex → Prop) : Prop :=
  ∀ e c i g a, w.Found e c i → w.archetypeOf c = some (g, a) → ∀ t ∈ a.types,
    ∃ b, w.isComponentEnabled ctx e [t] = some b ∧ (b = true ↔ enabled e t)

theorem MaskKey.casted {ctx : Context} (hreg : ctx.tracks.length < 2 ^ 30) {a : Archetype}
    {diff : TypeDiff} (ha : MaskKey ctx a.type) (hext : Set.Sorted diff.extend.types)
    (hlt : ∀ t ∈ diff.extend.types, t < 2 ^ 32)
    (hmask : ctx.maskId ∈ (World.castedType ctx a diff false).types)
    (hshort : (World.castedType ctx a diff false).types.length ≤ 32) :
    MaskKey ctx (World.castedType ctx a diff false) where
  sorted := castedType_types (P := Set.Sorted) ha.sorted (Or.inr rfl)
    (fun _ h => Set.sorted_merge h hext) fun _ _ h hs => h.sublist hs
  lt := (SortedTypes.casted hreg ha.sortedTypes ⟨hext.imp le_of_lt, hlt⟩).lt
  mask := hmask
  short := hshort

namespace World

/-- The invariant of the runs. -/
structure Masked (ctx : Context) (w : World) (enabled : Entity → TypeIndex → Prop) : Prop where
  orderly : Orderly ctx w
  keys : ∀ g a, w.store.archetype g = some a → MaskKey ctx a.type
  small : w.ents.size < 2 ^ 24
  bits : ∀ c i g a, w.archetypeOf c = some (g, a) → w.store.Occupied c i → ∀ t ∈ a.types,
    ((w.maskAt ctx a c i).getLsbD (a.column t) = true ↔ enabled (w.memory.entityAt c i) t)

variable {ctx : Context} {w w' : World} {g : ArchetypeId} {a b : Archetype} {c d : ChunkId}
  {i j : Nat} {s : ChunkSlice} {enabled : Entity → TypeIndex → Prop}

theorem Masked.masking (h : Masked ctx w enabled) (ha : w.store.archetype g = some a) :
    Masking ctx a :=
  ⟨h.keys g a ha, (h.orderly.listed.built g a ha).2⟩

/-- A slot is that of its entity alone. -/
theorem Orderly.unique (h : Orderly ctx w) (hsize : w.ents.size < 2 ^ 24)
    (hi : w.store.Occupied c i) (hj : w.store.Occupied d j)
    (he : w.memory.entityAt c i = w.memory.entityAt d j) : c = d ∧ i = j :=
  (h.sound.tracks hsize).unique ⟨hi, not_false⟩ ⟨hj, not_false⟩ (congrArg Entity.id he)

/-- The masks are read from whole blocks. -/
theorem Masked.survive (hctx : ctx.Built) (h : Masked ctx w enabled) (hlaid : w.store.Laid) :
    MasksSurvive ctx w.whole enabled := by
  intro e c i g a hf ha t ht
  have hs := h.orderly.whole hlaid
  replace hf := hf.sameSlots hs.symm
  rw [hs.archetypeOf] at ha
  obtain ⟨-, harch⟩ := archetypeOf_eq_some.mp ha
  have hm := h.masking harch
  obtain ⟨hexist, hc, hi⟩ := hf.entry h.small
  obtain ⟨mm, hmm, hbit⟩ := getMask_single hm.key.sorted hm.key.short ht
  have hmask : w.whole.maskAt ctx a c i = w.maskAt ctx a c i :=
    maskAt_of_cell hctx hm hm (hs.cells c i g a ha hf.occupied _ (hm.column_lt_tag hctx))
  have hread : w.whole.isComponentEnabled ctx e [t] =
      some (w.whole.maskAt ctx a c i &&& mm == mm) := by
    have ha' : w.whole.archetypeOf c = some (g, a) := ha
    have hexist' : w.whole.ents.exist e = true := hexist
    have hc' : (w.whole.ents.datas e.id).c = .chunk c := hc
    have hi' : (w.whole.ents.datas e.id).i = i := hi
    simp only [isComponentEnabled, if_pos hexist', hc', hi', ha', hm.withMask hctx, hmm,
      Option.bind_eq_bind, Option.bind_some, Bool.not_true, Bool.false_eq_true, if_false]
  refine ⟨(w.maskAt ctx a c i).getLsbD (a.column t), by rw [hread, hbit, hmask], ?_⟩
  rw [← hf.handle]
  exact h.bits c i g a ha hf.occupied t ht

/-! ### `enable_component` and `disable_component` -/

theorem Orderly.setMask (hctx : ctx.Built) (h : Orderly ctx w) (ha : Masking ctx a)
    (hc : w.archetypeOf c = some (g, a)) (i : Nat) (mask : Mask) :
    Orderly ctx (w.setMask ctx a c i mask) := by
  have hshape := setMask_shape ctx w a c i mask
  have hmem : ∀ d j, w.store.Occupied d j →
      (w.setMask ctx a c i mask).memory.entityAt d j = w.memory.entityAt d j :=
    fun d j hj => entityAt_setMask hctx ha h.listed hc mask hj
  have hocc := occupied_congr hshape.type hshape.count
  refine ⟨⟨h.sound.wf.congr hshape, fun hsize => ?_⟩, h.listed.congr hshape, ?_⟩
  · exact ((h.sound.tracks hsize).mono fun c i hi => ⟨(hocc c i).mp hi.1, hi.2⟩).memory
      fun c i hi => hmem c i ((hocc c i).mp hi.1)
  · exact h.sorted

theorem Masked.setMask (hctx : ctx.Built) (h : Masked ctx w enabled)
    (hc : w.archetypeOf c = some (g, a)) (hi : w.store.Occupied c i) {mask : Mask}
    {enabled' : Entity → TypeIndex → Prop}
    (hself : ∀ t ∈ a.types, (mask.getLsbD (a.column t) = true ↔
      enabled' (w.memory.entityAt c i) t))
    (hother : ∀ e t, e ≠ w.memory.entityAt c i → (enabled e t ↔ enabled' e t)) :
    Masked ctx (w.setMask ctx a c i mask) enabled' := by
  have hshape := setMask_shape ctx w a c i mask
  have hm := h.masking (archetypeOf_eq_some.mp hc).2
  refine ⟨h.orderly.setMask hctx hm hc i mask, hshape.archetype ▸ h.keys, h.small, ?_⟩
  intro d j g' b hd hj t ht
  have hd' : w.archetypeOf d = some (g', b) := hd
  have hj' : w.store.Occupied d j := hj
  have hmb := h.masking (archetypeOf_eq_some.mp hd').2
  rw [entityAt_setMask hctx hm h.orderly.listed hc mask hj']
  by_cases hdc : d = c ∧ j = i
  · obtain ⟨rfl, rfl⟩ := hdc
    obtain ⟨rfl, rfl⟩ := Prod.mk.inj (Option.some.inj (hc.symm.trans hd'))
    rw [maskAt_setMask_self]
    exact hself t ht
  · rw [maskAt_setMask_ne hctx hm hmb h.orderly.listed hc hd' hi hj' hdc,
      h.bits d j g' b hd' hj' t ht]
    apply hother
    intro he
    exact hdc (h.orderly.unique h.small hj' hi he)

/-- An edit of the mask returns, and changes nothing or the bits of one entity. -/
theorem Masked.edit (hctx : ctx.Built) (h : Masked ctx w enabled) {f : Mask → Mask → Mask}
    {e : Entity} {type : List TypeIndex} (ht : Set.Sorted type)
    (halive : w.ents.exist e = true → w.Alive e) {enabled' : Entity → TypeIndex → Prop}
    (hself : ∀ (m mm : Mask) k, k < 32 → ∀ t, (m.getLsbD k = true ↔ enabled e t) →
      (mm.getLsbD k = true ↔ t ∈ type) → ((f m mm).getLsbD k = true ↔ enabled' e t))
    (hother : ∀ e' t, e' ≠ e → (enabled e' t ↔ enabled' e' t)) :
    ∃ w', w.editMask ctx f e type = some w' ∧ Masked ctx w' enabled' := by
  by_cases hexist : w.ents.exist e = true
  · obtain ⟨c, i, hf⟩ := halive hexist
    obtain ⟨-, hc, hi⟩ := hf.entry h.small
    obtain ⟨g, hg⟩ := Option.ne_none_iff_exists'.mp hf.occupied.1
    obtain ⟨a, harch⟩ := h.orderly.listed.alive c g hg
    have ha : w.archetypeOf c = some (g, a) := archetypeOf_eq_some.mpr ⟨hg, harch⟩
    have hm := h.masking harch
    obtain ⟨mm, hmm, hbits⟩ := getMask_spec hm.key.sorted hm.key.short ht
    refine ⟨w.setMask ctx a c i (f (w.maskAt ctx a c i) mm), ?_, ?_⟩
    · simp only [editMask, if_pos hexist, hc, hi, ha, hm.withMask hctx, hmm, Option.bind_eq_bind,
        Option.bind_some, Bool.not_true, Bool.false_eq_true, if_false]
    · apply h.setMask hctx ha hf.occupied
      · intro t htype
        rw [hf.handle]
        have hbit := h.bits c i g a ha hf.occupied t htype
        rw [hf.handle] at hbit
        exact hself _ _ _ ((Archetype.column_lt htype).trans_le hm.key.short) t hbit (hbits t htype)
      · rw [hf.handle]
        exact hother
  · refine ⟨w, by simp [editMask, hexist], h.orderly, h.keys, h.small, ?_⟩
    intro c i g a ha hi t htype
    rw [h.bits c i g a ha hi t htype]
    apply hother
    rintro rfl
    exact hexist ((h.orderly.sound.found hi).entry h.small).1

theorem Masked.enable (hctx : ctx.Built) (h : Masked ctx w enabled) {e : Entity}
    {type : List TypeIndex} (hv : MaskCall.Valid ctx w (.enable e type)) :
    ∃ w', w.enableComponent ctx e type = some w' ∧
      Masked ctx w' (MaskCall.enabled w enabled (.enable e type)) := by
  apply h.edit hctx hv.1 hv.2
  · intro m mm k hk t hm hmm
    rw [BitVec.getLsbD_or, Bool.or_eq_true, hm, hmm]
    simp only [MaskCall.enabled, true_and]
    exact or_comm
  · intro e' t he
    simp [MaskCall.enabled, he]

theorem Masked.disable (hctx : ctx.Built) (h : Masked ctx w enabled) {e : Entity}
    {type : List TypeIndex} (hv : MaskCall.Valid ctx w (.disable e type)) :
    ∃ w', w.disableComponent ctx e type = some w' ∧
      Masked ctx w' (MaskCall.enabled w enabled (.disable e type)) := by
  apply h.edit hctx hv.1 hv.2
  · intro m mm k hk t hm hmm
    rw [BitVec.getLsbD_and, BitVec.getLsbD_not, Bool.and_eq_true, hm]
    simp only [hk, decide_true, Bool.true_and, Bool.not_eq_true', MaskCall.enabled, true_and]
    rw [← hmm, Bool.not_eq_true]
    exact and_comm
  · intro e' t he
    simp [MaskCall.enabled, he]

/-! ### `allocate` -/

theorem Masked.allocate (hctx : ctx.Built) (hreg : ctx.tracks.length < 2 ^ 30)
    (h : Masked ctx w enabled) {type : EntityType} {count fuel : Nat} {ss : List ChunkSlice}
    (hv : MaskCall.Valid ctx w (.allocate type count))
    (hp : MaskCall.KeepsMasks ctx w (.allocate type count))
    (hs : w.allocate ctx fuel type count = some (w', ss)) (hsize : w'.ents.size < 2 ^ 24) :
    Masked ctx w' (MaskCall.enabled w enabled (.allocate type count)) := by
  have hkey : MaskKey ctx type := hv
  have hrun : Op.run ctx fuel w (.allocate type count) = some w' := by simp [Op.run, hs]
  have hop : Op.Orderly ctx w (.allocate type count) :=
    ⟨trivial, trivial, trivial, hkey.sortedTypes⟩
  have hvalid : Op.Valid w (.allocate type count) := trivial
  have horderly := h.orderly.step hctx hreg hvalid hop hrun
  simp only [World.allocate, Option.bind_eq_bind, Option.bind_eq_some_iff] at hs
  obtain ⟨⟨w₁, g⟩, hget, hs⟩ := hs
  obtain ⟨st, hst, rfl⟩ := getArchetype_eq_some hget
  obtain ⟨-, hext, a, ha, htype⟩ := h.orderly.listed.toWf.getArchetype hst
  have hl₁ := (h.orderly.listed.getArchetype hst).1
  have hm : Masking ctx a := ⟨htype ▸ hkey, (hl₁.built g a ha).2⟩
  have hroomy := (hp.2 a (htype ▸ hm.built)).1
  obtain ⟨harch, hfills⟩ :=
    allocateLoop_fills (w := { w with store := st }) hctx hl₁ ha hm hroomy hs
  have hocc := occupied_congr hext.type hext.count
  have hkept : ∀ c i g' b, w.archetypeOf c = some (g', b) → w.store.Occupied c i →
      w'.store.Occupied c i ∧ Carried (fun _ _ => a.Roomy) g' b w c i w' c i := by
    intro c i g' b hb hi
    have hcar := Carried.of_extended (i := i) hb hext
    obtain ⟨hi', hkept⟩ := allocateLoop_keeps (w := { w with store := st }) hctx hl₁ ha hs hcar.after
      ((hocc c i).mpr hi)
    exact ⟨hi', hcar.watch.trans hkept⟩
  have hkeys : ∀ g' b, w'.store.archetype g' = some b → MaskKey ctx b.type := by
    intro g' b hb
    rw [harch] at hb
    rcases Store.archetype_of_getArchetype hst hb with hold | hnew
    · exact h.keys g' b hold
    · exact (constructArchetype_type hnew).symm ▸ hkey
  refine ⟨horderly, hkeys, hsize, fun c i g' b hb hi t ht => ?_⟩
  by_cases hold : w.store.Occupied c i
  · obtain ⟨g₀, hg₀⟩ := Option.ne_none_iff_exists'.mp hold.1
    obtain ⟨b₀, hb₀⟩ := h.orderly.listed.alive c g₀ hg₀
    have hc₀ := archetypeOf_eq_some.mpr ⟨hg₀, hb₀⟩
    obtain ⟨-, hcar⟩ := hkept c i g₀ b₀ hc₀ hold
    obtain ⟨rfl, rfl⟩ := Prod.mk.inj (Option.some.inj (hcar.after.symm.trans hb))
    rw [maskAt_of_carried hctx (h.masking hb₀) hcar hroomy, hcar.handle,
      h.bits c i g₀ b₀ hc₀ hold t ht]
    constructor
    · exact fun hon _ => hon
    · exact fun hon => hon ⟨c, i, h.orderly.sound.found hold⟩
  · rcases hfills c i hi with hi' | ⟨hnew, hones⟩
    · exact absurd ((hocc c i).mp hi') hold
    · obtain ⟨rfl, rfl⟩ := Prod.mk.inj (Option.some.inj (hnew.symm.trans hb))
      have hlt := (Archetype.column_lt ht).trans_le hm.key.short
      rw [hones, BitVec.getLsbD_allOnes, decide_eq_true hlt]
      -- a new entity was not alive before: it would still be in its old slot
      simp only [true_iff, MaskCall.enabled]
      rintro ⟨d, j, hf⟩
      obtain ⟨g₀, hg₀⟩ := Option.ne_none_iff_exists'.mp hf.occupied.1
      obtain ⟨b₀, hb₀⟩ := h.orderly.listed.alive d g₀ hg₀
      obtain ⟨hj, hcar⟩ := hkept d j g₀ b₀ (archetypeOf_eq_some.mpr ⟨hg₀, hb₀⟩) hf.occupied
      obtain ⟨rfl, rfl⟩ := horderly.unique hsize hj hi (hcar.handle.trans hf.handle)
      exact absurd hf.occupied hold

/-! ### `cast` -/

theorem not_mem_handles (h : Orderly ctx w) (hsize : w.ents.size < 2 ^ 24) (hv : w.ValidSlice s)
    (hi : w.store.Occupied c i) (hout : ¬ Slots.of s c i) :
    w.memory.entityAt c i ∉ w.handles s := by
  intro hmem
  obtain ⟨k, hk, he⟩ := Entities.mem_handlesFrom hmem
  have hle := hv.le
  obtain ⟨rfl, rfl⟩ := h.unique hsize ⟨hv.typed, by omega⟩ hi he
  exact hout ⟨rfl, by omega, by omega⟩

/-- The entities that a cast leaves out of the slice keep their masks. -/
theorem enabled_cast {diff : TypeDiff} {e : Entity} {t : TypeIndex} (he : e ∉ w.handles s) :
    MaskCall.enabled w enabled (.cast s diff) e t ↔ enabled e t := by
  simp [MaskCall.enabled, he]

/-- A bit of a slot that holds what a slot outside the slice held. -/
theorem Masked.outside (h : Masked ctx w enabled) {diff : TypeDiff} (hv : w.ValidSlice s)
    (hc : w.archetypeOf c = some (g, a)) (hi : w.store.Occupied c i) (hout : ¬ Slots.of s c i)
    (hmask : w'.maskAt ctx a d j = w.maskAt ctx a c i)
    (hhandle : w'.memory.entityAt d j = w.memory.entityAt c i) {t : TypeIndex} (ht : t ∈ a.types) :
    (w'.maskAt ctx a d j).getLsbD (a.column t) = true ↔
      MaskCall.enabled w enabled (.cast s diff) (w'.memory.entityAt d j) t := by
  rw [hmask, hhandle, enabled_cast (not_mem_handles h.orderly h.small hv hi hout)]
  exact h.bits c i g a hc hi t ht

theorem Masked.release (hctx : ctx.Built) (h : Masked ctx w enabled)
    (hsize : w'.ents.size < 2 ^ 24) (diff : TypeDiff) (hv : w.ValidSlice s)
    (hfit : TailFits (maskColumn ctx) w s) (hs : w.release s = some w') :
    Masked ctx w' (MaskCall.enabled w enabled (.cast s diff)) := by
  have hold := older_release hs
  have hin := hv.le
  have horderly : Orderly ctx w' :=
    ⟨h.orderly.sound.release hv hs, listed_release h.orderly.listed hv.pos (by omega) hs,
      h.orderly.sorted.older hold⟩
  refine ⟨horderly, fun g a ha => h.keys g a (hold g a ha), hsize, fun d j g b hb hj t ht => ?_⟩
  obtain ⟨ents, g₀, a₀, hc, hfreed⟩ := freed_of_release h.orderly.listed hv hs
  obtain ⟨hj', hlt⟩ := (hfreed.occupied d j).mp hj
  have hle := hv.le
  have htail : w.tailCount s ≤ s.count ∧ w.tailCount s ≤ w.store.count s.c - s.start - s.count ∧
      (w.tailCount s = s.count ∨ w.tailCount s = w.store.count s.c - s.start - s.count) := by
    unfold tailCount
    omega
  have hstart : w.tailStart s + w.tailCount s = w.store.count s.c := by
    unfold tailStart
    omega
  by_cases hfilled : Slots.of (w.filled s) d j
  · obtain ⟨rfl, hlo, hhi⟩ := hfilled
    dsimp only at hlo hhi
    obtain ⟨k, rfl⟩ := Nat.exists_eq_add_of_le hlo
    have hk : k < w.tailCount s := by omega
    obtain ⟨-, hafter, hhandle, hcells⟩ := hfreed.moves k hk
    obtain ⟨rfl, rfl⟩ := Prod.mk.inj (Option.some.inj (hafter.symm.trans hb))
    have hm := h.masking (archetypeOf_eq_some.mp hc).2
    have hcol := hm.column_lt_tag hctx
    have hi : w.store.Occupied s.c (w.tailStart s + k) := ⟨hv.typed, by omega⟩
    have hout : ¬ Slots.of s s.c (w.tailStart s + k) := by
      rintro ⟨-, -, hin⟩
      omega
    refine h.outside hv hc hi hout ?_ hhandle ht
    apply maskAt_of_cell hctx hm hm
    exact (hcells _ hcol).trans (hfit _ _ hc k hk _ hcol rfl)
  · obtain ⟨g', hg'⟩ := Option.ne_none_iff_exists'.mp hj'.1
    obtain ⟨b', hb'⟩ := h.orderly.listed.alive d g' hg'
    have hd : w.archetypeOf d = some (g', b') := archetypeOf_eq_some.mpr ⟨hg', hb'⟩
    have hcar := hfreed.stays d j g' b' hd hj hfilled
    obtain ⟨rfl, rfl⟩ := Prod.mk.inj (Option.some.inj (hcar.after.symm.trans hb))
    have hmask := maskAt_of_carried hctx (h.masking hb') hcar trivial
    refine h.outside hv hd hj' ?_ hmask hcar.handle ht
    rintro ⟨rfl, hlo, hhi⟩
    have hlt' := hlt rfl
    have hno : ¬ (s.start ≤ j ∧ j < s.start + w.tailCount s) := fun hin => hfilled ⟨rfl, hin⟩
    dsimp only at hlt'
    omega

theorem Masked.relink (hctx : ctx.Built) (h : Masked ctx w enabled) {st : Store}
    (hext : Store.Extended w.store st) (hl : st.Listed ctx)
    (hkeys : ∀ g a, st.archetype g = some a → MaskKey ctx a.type) (horderly : Orderly ctx w')
    (hsize : w'.ents.size < 2 ^ 24) (diff : TypeDiff) (hv : w.ValidSlice s) {srcG : ArchetypeId}
    (hsrc : w.archetypeOf s.c = some (srcG, a)) (hb : st.archetype g = some b) (hg : srcG ≠ g)
    (hbits : MovesBits ctx w s a b)
    (hfast : Relinks ctx { w with store := st } s srcG g a b w') (hold : Store.Older st w'.store) :
    Masked ctx w' (MaskCall.enabled w enabled (.cast s diff)) := by
  have hsrc₁ := (Carried.of_extended (i := 0) hsrc hext).after
  have hma : Masking ctx a := h.masking (archetypeOf_eq_some.mp hsrc).2
  have hmb : Masking ctx b := ⟨hkeys g b hb, (hl.built g b hb).2⟩
  have hocc := occupied_congr hext.type hext.count
  obtain ⟨hafter, hmem, -, hsame⟩ :=
    relink_target (w := { w with store := st }) hctx hl horderly.listed hsrc₁ hb hg hfast
  refine ⟨horderly, fun g a ha => hkeys g a (hold g a ha), hsize, fun d j g' b' hb' hj t ht => ?_⟩
  have hj' : w.store.Occupied d j := (hocc d j).mp ((hsame d j).mp hj)
  by_cases hin : Slots.of s d j
  · obtain ⟨rfl, hlo, hhi⟩ := hin
    obtain ⟨rfl, rfl⟩ := Prod.mk.inj (Option.some.inj (hafter.symm.trans hb'))
    obtain ⟨k, rfl⟩ := Nat.exists_eq_add_of_le hlo
    have hmask : w'.maskAt ctx b s.c (s.start + k) = w.maskAt ctx a s.c (s.start + k) := by
      rw [maskAt_of_relinks (w := { w with store := st }) hctx hl horderly.listed hsrc₁ hb hg hma
        hmb hfast]
      simp only [maskAt, hext.ct]
    have hhandle : w'.memory.entityAt s.c (s.start + k) ∈ w.handles s := by
      rw [hmem]
      exact List.mem_map.mpr ⟨k, List.mem_range.mpr (by omega), rfl⟩
    rw [hmask, hbits.bits k (by omega) t ht, Bool.or_eq_true, decide_eq_true_eq]
    by_cases hta : t ∈ a.types
    · rw [h.bits s.c _ srcG a hsrc hj' t hta]
      simp only [hta, not_true_eq_false, false_or, MaskCall.enabled]
      rw [hmem]
      constructor
      · exact Or.inl
      · rintro (hon | ⟨-, hnew⟩)
        · exact hon
        · exact absurd hta (hnew srcG a hsrc)
    · simp only [hta, not_false_eq_true, true_or, true_iff, MaskCall.enabled]
      refine Or.inr ⟨hhandle, fun g₁ a₁ hsrc₁ => ?_⟩
      obtain ⟨rfl, rfl⟩ := Prod.mk.inj (Option.some.inj (hsrc.symm.trans hsrc₁))
      exact hta
  · obtain ⟨g₀, hg₀⟩ := Option.ne_none_iff_exists'.mp hj'.1
    obtain ⟨b₀, hb₀⟩ := h.orderly.listed.alive d g₀ hg₀
    have hd : w.archetypeOf d = some (g₀, b₀) := archetypeOf_eq_some.mpr ⟨hg₀, hb₀⟩
    have hput := Carried.of_extended (i := j) hd hext
    obtain ⟨-, hcar⟩ := relink_stays (w := { w with store := st }) hctx hl horderly.listed hsrc₁ hb
      hg hfast hput.after ((hocc d j).mpr hj') hin
    have hall := hput.trans hcar
    obtain ⟨rfl, rfl⟩ := Prod.mk.inj (Option.some.inj (hall.after.symm.trans hb'))
    exact h.outside hv hd hj' hin (maskAt_of_carried hctx (h.masking hb₀) hall trivial) hall.handle ht

/-- A cast to the archetype of the slice. -/
theorem Masked.same (h : Masked ctx w enabled) {st : Store} (hext : Store.Extended w.store st)
    (hkeys : ∀ g a, st.archetype g = some a → MaskKey ctx a.type)
    (horderly : Orderly ctx { w with store := st }) (diff : TypeDiff) (hv : w.ValidSlice s)
    {srcG : ArchetypeId} (hsrc : w.archetypeOf s.c = some (srcG, a)) :
    Masked ctx { w with store := st } (MaskCall.enabled w enabled (.cast s diff)) := by
  refine ⟨horderly, hkeys, h.small, fun d j g b hb hj t ht => ?_⟩
  have hj' : w.store.Occupied d j := (occupied_congr hext.type hext.count d j).mp hj
  obtain ⟨g₀, hg₀⟩ := Option.ne_none_iff_exists'.mp hj'.1
  obtain ⟨b₀, hb₀⟩ := h.orderly.listed.alive d g₀ hg₀
  have hd : w.archetypeOf d = some (g₀, b₀) := archetypeOf_eq_some.mpr ⟨hg₀, hb₀⟩
  obtain ⟨rfl, rfl⟩ := Prod.mk.inj (Option.some.inj
    ((Carried.of_extended (i := j) hd hext).after.symm.trans hb))
  have hmask : World.maskAt ctx { w with store := st } b₀ d j = w.maskAt ctx b₀ d j := by
    simp only [maskAt, hext.ct]
  by_cases hin : Slots.of s d j
  · obtain ⟨rfl, -, -⟩ := hin
    obtain ⟨rfl, rfl⟩ := Prod.mk.inj (Option.some.inj (hsrc.symm.trans hd))
    rw [hmask, h.bits s.c j srcG a hd hj' t ht]
    constructor
    · exact Or.inl
    · rintro (hon | ⟨-, hnew⟩)
      · exact hon
      · exact absurd ht (hnew srcG a hsrc)
  · exact h.outside hv hd hj' hin hmask rfl ht

theorem Masked.cast (hctx : ctx.Built) (hreg : ctx.tracks.length < 2 ^ 30)
    (h : Masked ctx w enabled) {diff : TypeDiff} {fuel : Nat} {ss : List ChunkSlice}
    (hv : MaskCall.Valid ctx w (.cast s diff)) (hp : MaskCall.KeepsMasks ctx w (.cast s diff))
    (hs : w.cast ctx fuel s diff = some (w', ss)) (hsize : w'.ents.size < 2 ^ 24) :
    Masked ctx w' (MaskCall.enabled w enabled (.cast s diff)) := by
  obtain ⟨hslice, hextend, hlt, hmask⟩ := hv
  have hrun : Op.run ctx fuel w (.cast s diff) = some w' := by simp [Op.run, hs]
  simp only [World.cast, Option.bind_eq_bind, Option.bind_eq_some_iff] at hs
  obtain ⟨⟨srcG, a⟩, hsrc, ⟨w₁, target⟩, hcasted, hs⟩ := hs
  obtain ⟨hmem, hshort⟩ := hmask srcG a hsrc
  obtain ⟨hfits, hkeep⟩ := hp srcG a hsrc
  dsimp only at hcasted hs
  rcases getCasted_cases hcasted with ⟨rfl, rfl, hfrees⟩ | ⟨g, rfl, hget, hfrees⟩
  · rw [hfrees rfl, if_pos rfl] at hkeep
    exact h.release hctx hsize diff hslice hkeep.1 (castTo_none hs)
  · rw [hfrees rfl, if_neg Bool.false_ne_true] at hkeep
    obtain ⟨-, horder, hmoves⟩ := hkeep
    have hlists : Op.KeepsLists ctx w (.cast s diff) := by
      intro g' a' hsrc'
      obtain ⟨rfl, rfl⟩ := Prod.mk.inj (Option.some.inj (hsrc.symm.trans hsrc'))
      exact horder
    have hop : Op.Orderly ctx w (.cast s diff) :=
      ⟨trivial, trivial, hlists, ⟨hextend.imp le_of_lt, hlt⟩⟩
    have hvalid : Op.Valid w (.cast s diff) := hslice
    have horderly := h.orderly.step hctx hreg hvalid hop hrun
    have hkey := (h.keys srcG a (archetypeOf_eq_some.mp hsrc).2).casted hreg hextend hlt hmem hshort
    obtain ⟨-, hext, -, -, b, hb, htype⟩ := h.orderly.sound.getArchetype hget
    have hmoves' := hmoves w₁ g b hget hb
    obtain ⟨st, hst, rfl⟩ := getArchetype_eq_some hget
    have hl := (h.orderly.listed.getArchetype hst).1
    have hkeys : ∀ g' b', st.archetype g' = some b' → MaskKey ctx b'.type := by
      intro g' b' hb'
      rcases Store.archetype_of_getArchetype hst hb' with hold | hnew
      · exact h.keys g' b' hold
      · exact (constructArchetype_type hnew).symm ▸ hkey
    have hold := older_castTo hs
    obtain ⟨srcG', a', b', hc, ha', hb', hcase⟩ := castTo_cases hs
    have hsrc₁ := (Carried.of_extended (i := 0) hsrc hext).after
    obtain ⟨rfl, rfl⟩ := Prod.mk.inj (Option.some.inj
      (hsrc₁.symm.trans (archetypeOf_eq_some.mpr ⟨hc, ha'⟩)))
    obtain rfl : b = b' := Option.some.inj (hb.symm.trans hb')
    rcases hcase with ⟨rfl, rfl⟩ | ⟨hg, hfast⟩ | ⟨hg, hslow, -⟩
    · exact h.same hext hkeys horderly diff hslice hsrc
    · exact h.relink hctx hext hl hkeys horderly hsize diff hslice hsrc hb hg (hmoves' hg).1 hfast
        hold
    · have hfull : World.full { w with store := st } s = true := by
        rw [World.full, hext.count]
        exact (hmoves' hg).1.full
      exact absurd ⟨hfull, (hmoves' hg).1.castable⟩ hslow

/-! ### All calls -/

theorem editMask_ents {f : Mask → Mask → Mask} {e : Entity} {type : List TypeIndex}
    (hs : w.editMask ctx f e type = some w') : w'.ents = w.ents := by
  simp only [editMask] at hs
  split_ifs at hs
  · split at hs
    · simp only [Option.bind_eq_bind, Option.bind_eq_some_iff] at hs
      obtain ⟨⟨g, a⟩, -, hs⟩ := hs
      split_ifs at hs
      · rw [← Option.some.inj hs]
      · obtain ⟨mm, -, hs⟩ := Option.bind_eq_some_iff.mp hs
        rw [← Option.some.inj hs]
        rfl
    · simp at hs
  · rw [← Option.some.inj hs]

theorem editMask_shape {f : Mask → Mask → Mask} {e : Entity} {type : List TypeIndex}
    (hs : w.editMask ctx f e type = some w') : Store.SameShape w.store w'.store := by
  simp only [editMask] at hs
  split_ifs at hs
  · split at hs
    · simp only [Option.bind_eq_bind, Option.bind_eq_some_iff] at hs
      obtain ⟨⟨g, a⟩, -, hs⟩ := hs
      split_ifs at hs
      · exact Option.some.inj hs ▸ Store.SameShape.refl _
      · obtain ⟨mm, -, hs⟩ := Option.bind_eq_some_iff.mp hs
        exact Option.some.inj hs ▸ setMask_shape ctx w a _ _ _
    · simp at hs
  · exact Option.some.inj hs ▸ Store.SameShape.refl _

theorem laid_of_call {call : MaskCall} {fuel : Nat} (hwf : w.store.Wf ctx) (h : w.store.Laid)
    (hlays : call.LaysOut ctx w) (hs : call.run ctx fuel w = some w') : w'.store.Laid := by
  cases call with
  | allocate type count =>
      have hgroup : Op.NoGroup ctx w (.allocate type count) := trivial
      exact (builds_run hgroup hs).laid hwf h hlays
  | enable e type =>
      simp only [MaskCall.run, enableComponent] at hs
      exact h.of_older hwf (Store.Older.of_eq (editMask_shape hs).archetype)
  | disable e type =>
      simp only [MaskCall.run, disableComponent] at hs
      exact h.of_older hwf (Store.Older.of_eq (editMask_shape hs).archetype)
  | cast s diff =>
      have hgroup : Op.NoGroup ctx w (.cast s diff) := trivial
      exact (builds_run hgroup hs).laid hwf h hlays

theorem size_le_of_call {call : MaskCall} {fuel : Nat} (hs : call.run ctx fuel w = some w') :
    w.ents.size ≤ w'.ents.size := by
  cases call with
  | allocate type count =>
      obtain ⟨r, hrun, rfl⟩ := Option.map_eq_some_iff.mp hs
      have hgroup : Op.NoGroup ctx w (.allocate type count) := trivial
      have hop : Op.run ctx fuel w (.allocate type count) = some r.1 := by
        rw [Op.run, hrun, Option.map_some]
      exact (aged_step hgroup hop).size_le
  | enable e type =>
      simp only [MaskCall.run, enableComponent] at hs
      exact (congrArg Entities.size (editMask_ents hs)).ge
  | disable e type =>
      simp only [MaskCall.run, disableComponent] at hs
      exact (congrArg Entities.size (editMask_ents hs)).ge
  | cast s diff =>
      obtain ⟨r, hrun, rfl⟩ := Option.map_eq_some_iff.mp hs
      have hgroup : Op.NoGroup ctx w (.cast s diff) := trivial
      have hop : Op.run ctx fuel w (.cast s diff) = some r.1 := by
        rw [Op.run, hrun, Option.map_some]
      exact (aged_step hgroup hop).size_le

theorem Masked.step (hctx : ctx.Built) (hreg : ctx.tracks.length < 2 ^ 30)
    (h : Masked ctx w enabled) {call : MaskCall} {fuel : Nat} (hv : call.Valid ctx w)
    (hp : call.KeepsMasks ctx w) (hs : call.run ctx fuel w = some w')
    (hsize : w'.ents.size < 2 ^ 24) : Masked ctx w' (call.enabled w enabled) := by
  cases call with
  | allocate type count =>
      obtain ⟨⟨_, ss⟩, hrun, rfl⟩ := Option.map_eq_some_iff.mp hs
      exact h.allocate hctx hreg hv hp hrun hsize
  | enable e type =>
      obtain ⟨w₁, hrun, hmasked⟩ := h.enable hctx hv
      obtain rfl : w₁ = w' := Option.some.inj (hrun.symm.trans hs)
      exact hmasked
  | disable e type =>
      obtain ⟨w₁, hrun, hmasked⟩ := h.disable hctx hv
      obtain rfl : w₁ = w' := Option.some.inj (hrun.symm.trans hs)
      exact hmasked
  | cast s diff =>
      obtain ⟨⟨_, ss⟩, hrun, rfl⟩ := Option.map_eq_some_iff.mp hs
      exact h.cast hctx hreg hv hp hrun hsize

theorem masked_initial (hctx : ctx.Built) (hreg : ctx.tracks.length < 2 ^ 30) (timestamp : Nat)
    (raw : Nat → Nat) (data : ChunkId → Mem) (guids : Nat → List UInt8) :
    Masked ctx (World.initial timestamp raw data guids) fun _ _ => True := by
  have hreach : Reachable ctx (fun w op => op.Orderly ctx w)
      (World.initial timestamp raw data guids) := .initial ctx _ timestamp raw data guids
  refine ⟨orderly_of_reachable hctx hreg hreach, ?_, ?_, ?_⟩
  · intro g a ha
    simp [World.initial] at ha
  · change 0 < 2 ^ 24
    decide
  · intro c i g a ha
    simp [World.archetypeOf, World.initial] at ha

theorem masked_of_run (hctx : ctx.Built) (hreg : ctx.tracks.length < 2 ^ 30)
    (h : MaskRun ctx (fun w call => call.KeepsMasks ctx w) w enabled)
    (hsize : w.ents.size < 2 ^ 24) : Masked ctx w enabled := by
  induction h with
  | initial timestamp raw data guids => exact masked_initial hctx hreg timestamp raw data guids
  | step h call hv hp hs ih =>
      exact (ih ((size_le_of_call hs).trans_lt hsize)).step hctx hreg hv hp hs hsize

theorem cast_returns (h : Masked ctx w enabled) {diff : TypeDiff}
    (hv : MaskCall.Valid ctx w (.cast s diff)) (hp : MaskCall.KeepsMasks ctx w (.cast s diff)) :
    ∃ fuel r, w.cast ctx fuel s diff = some r := by
  obtain ⟨hslice, -⟩ := hv
  obtain ⟨srcG, hc⟩ := Option.ne_none_iff_exists'.mp hslice.typed
  obtain ⟨a, ha⟩ := h.orderly.listed.alive s.c srcG hc
  have hsrc : w.archetypeOf s.c = some (srcG, a) := archetypeOf_eq_some.mpr ⟨hc, ha⟩
  obtain ⟨hfits, hkeep⟩ := hp srcG a hsrc
  refine ⟨0, ?_⟩
  simp only [World.cast, hsrc, Option.bind_eq_bind, Option.bind_some, World.getCasted,
    Bool.false_and, Bool.false_eq_true, if_false, hfits, Bool.not_true]
  by_cases hfrees : castFrees ctx a diff = true
  · rw [if_pos hfrees] at hkeep
    obtain ⟨w₁, hw₁⟩ := release_returns h.orderly.listed hslice hsrc hkeep.2
    obtain ⟨w₂, hfree, hslice'⟩ := Option.bind_eq_some_iff.mp hw₁
    have hnone : (a.cleaning && isCleaned (castedType ctx a diff false)) = true := hfrees
    rw [if_pos hnone]
    simp only [Option.bind_some, World.castTo, hfree, hslice', Option.bind_eq_bind]
    exact ⟨_, rfl⟩
  · rw [if_neg hfrees] at hkeep
    obtain ⟨hkey, -, hmoves⟩ := hkeep
    obtain ⟨w₁, g, hget⟩ := getArchetype_returns hkey
    obtain ⟨-, hext, -, -, b, hb, -⟩ := h.orderly.sound.getArchetype hget
    have hmoves' := hmoves w₁ g b hget hb
    obtain ⟨st, hst, rfl⟩ := getArchetype_eq_some hget
    have hl := (h.orderly.listed.getArchetype hst).1
    have hsrc₁ := (Carried.of_extended (i := 0) hsrc hext).after
    have hb' : st.archetype g = some b := hb
    have hsome : ¬ (a.cleaning && isCleaned (castedType ctx a diff false)) = true := hfrees
    rw [if_neg hsome]
    simp only [hget, Option.bind_some, World.castTo, Option.bind_eq_bind, hsrc₁, hb']
    by_cases hg : srcG = g
    · rw [if_pos hg]
      exact ⟨_, rfl⟩
    · obtain ⟨hbits, hdetach⟩ := hmoves' hg
      obtain ⟨hc₁, ha₁⟩ := archetypeOf_eq_some.mp hsrc₁
      obtain ⟨st₁, st₂, hrem, hadd⟩ := relink_returns hl hc₁ ha₁ hb' hg hdetach
      have hfull : World.full { w with store := st } s = true := by
        rw [World.full, hext.count]
        exact hbits.full
      rw [if_neg hg, hfull, hbits.castable]
      simp only [Bool.and_self, if_true, hrem, Option.bind_some, hadd]
      exact ⟨_, rfl⟩

theorem laid_of_run (hctx : ctx.Built) (hreg : ctx.tracks.length < 2 ^ 30)
    (h : MaskRun ctx (fun w call => call.KeepsMasks ctx w ∧ call.LaysOut ctx w) w enabled)
    (hsize : w.ents.size < 2 ^ 24) : w.store.Laid := by
  induction h with
  | initial timestamp raw data guids => exact laid_initial timestamp raw data guids
  | step h call hv hp hs ih =>
      have hsize₀ := (size_le_of_call hs).trans_lt hsize
      have hmasked := masked_of_run hctx hreg (h.mono fun _ _ hp => hp.1) hsize₀
      exact laid_of_call hmasked.orderly.sound.wf (ih hsize₀) hp.2 hs

/-- In a run of calls that keep the masks and lay out what they build, the masks tell what was
enabled, and the next such call returns. -/
theorem masksSurvive_of_run (hctx : ctx.Built) (hreg : ctx.tracks.length < 2 ^ 30)
    (h : MaskRun ctx (fun w call => call.KeepsMasks ctx w ∧ call.LaysOut ctx w) w enabled)
    (hsize : w.ents.size < 2 ^ 24) : MasksSurvive ctx w.whole enabled ∧
      ∀ call : MaskCall, call.Valid ctx w → call.KeepsMasks ctx w →
        ∃ fuel w', call.run ctx fuel w = some w' := by
  have hmasked := masked_of_run hctx hreg (h.mono fun _ _ hp => hp.1) hsize
  refine ⟨hmasked.survive hctx (laid_of_run hctx hreg h hsize), fun call hv hp => ?_⟩
  cases call with
  | allocate type count =>
      obtain ⟨r, hr⟩ := allocate_returns hmasked.orderly.listed hp.1
        (fun a ha => (hp.2 a ha).2) ((hmasked.orderly.sound.tracks hsize).poppable hsize)
        (Nat.lt_succ_self count)
      exact ⟨count + 1, r.1, by simp [MaskCall.run, hr]⟩
  | enable e type =>
      obtain ⟨w', hrun, -⟩ := hmasked.enable hctx hv
      exact ⟨0, w', hrun⟩
  | disable e type =>
      obtain ⟨w', hrun, -⟩ := hmasked.disable hctx hv
      exact ⟨0, w', hrun⟩
  | cast s diff =>
      obtain ⟨fuel, r, hr⟩ := cast_returns hmasked hv hp
      exact ⟨fuel, r.1, by simp [MaskCall.run, hr]⟩

/-! ### Runs with one tag -/

def oneTag : Context := ((Context.initial false).registerType { guid := 10, size := 0 }).1

theorem built_oneTag : oneTag.Built := .register (.initial false) _

/-- Masks with all bits on move in any way. -/
theorem MovesBits.of_allOnes (hfull : w.full s = true)
    (hcast : World.staticCastable ctx a.type b.type = true)
    (hmask : ∀ j < s.count, w.maskAt ctx a s.c (s.start + j) = BitVec.allOnes 32)
    (ha : a.types.length ≤ 32) (hb : b.types.length ≤ 32) : MovesBits ctx w s a b where
  full := hfull
  castable := hcast
  bits := by
    intro j hj t ht
    have hcol : b.column t < 32 := (Archetype.column_lt ht).trans_le hb
    rw [hmask j hj, BitVec.getLsbD_allOnes, BitVec.getLsbD_allOnes, decide_eq_true hcol]
    by_cases hta : t ∈ a.types
    · rw [decide_eq_true ((Archetype.column_lt hta).trans_le ha), Bool.or_true]
    · rw [decide_eq_true hta, Bool.true_or]

/-- Slot 0 of chunk 0 is that of handle 0. -/
theorem found_origin {w : World} (h : (w.store.type 0, w.store.count 0, w.memory.entityAt 0 0,
    w.ents.exist ⟨0⟩, (w.ents.datas 0).c, (w.ents.datas 0).i) =
      (some g, 1, ⟨0⟩, true, .chunk 0, 0)) : w.Found ⟨0⟩ 0 0 := by
  simp only [Prod.mk.injEq] at h
  obtain ⟨htype, hcount, hentity, hexist, hc, hi⟩ := h
  refine ⟨⟨?_, ?_⟩, hentity, fun _ => ⟨hexist, hc, hi⟩⟩
  · rw [htype]
    exact Option.some_ne_none g
  · rw [hcount]
    exact Nat.one_pos

/-- One entity with a mask. -/
def masked : Option World := MaskCall.run oneTag 4 blank (.allocate { types := [3] } 1)

def gainTag : TypeDiff := { extend := { types := [TypeIndex.make 4 .tag] } }

/-- The tag moves in behind the mask. -/
theorem keepsMasks_masked {w : World} (hw : masked = some w) :
    MaskCall.Valid oneTag w (.cast { c := 0, start := 0, count := 1 } gainTag) ∧
      MaskCall.KeepsMasks oneTag w (.cast { c := 0, start := 0, count := 1 } gainTag) := by
  have hslots : masked.map (fun w => (w.store.type 0, w.store.count 0)) = some (some 0, 1) := by
    decide +kernel
  have harch : (masked.bind fun w => w.store.archetype 0).map (fun a =>
      (castFrees oneTag a gainTag, a.type, castedType oneTag a gainTag false)) =
      some (false, { types := [3] }, { types := [3, TypeIndex.make 4 .tag] }) := by decide +kernel
  have hstack : (masked.bind fun w => (w.store.archetype 0).map fun a =>
      w.castedFits oneTag a gainTag false) = some true := by decide +kernel
  have hmask : (masked.bind fun w => (w.store.archetype 0).map fun a => w.maskAt oneTag a 0 0) =
      some (BitVec.allOnes 32) := by decide +kernel
  have hnone : masked.map (fun w => w.store.findArchetype { types := [3, TypeIndex.make 4 .tag] }) =
      some none := by decide +kernel
  rw [hw, Option.map_some, Option.some.injEq, Prod.mk.injEq] at hslots
  rw [hw, Option.map_some, Option.some.injEq] at hnone
  have hnew : (masked.bind fun w => w.getArchetype oneTag
      { types := [3, TypeIndex.make 4 .tag] }).map (fun p => (p.1.store.archetype p.2).map
        fun b => b.type) = some (some { types := [3, TypeIndex.make 4 .tag] }) := by decide +kernel
  rw [hw, Option.bind_some] at harch hmask hnew hstack
  obtain ⟨a, ha, hfacts⟩ := Option.map_eq_some_iff.mp harch
  simp only [Prod.mk.injEq] at hfacts
  obtain ⟨hfrees, htype, hcasted⟩ := hfacts
  obtain ⟨hc, hcount⟩ := hslots
  rw [ha, Option.map_some, Option.some.injEq] at hmask hstack
  have hsrc : ∀ g' a', w.archetypeOf 0 = some (g', a') → a' = a := fun g' a' h' =>
    (Prod.mk.inj (Option.some.inj (h'.symm.trans (archetypeOf_eq_some.mpr ⟨hc, ha⟩)))).2
  refine ⟨⟨⟨?_, Nat.one_pos, hcount.ge⟩, by decide, by decide, fun g' a' h' => ?_⟩,
    fun g' a' h' => ?_⟩
  · change w.store.type 0 ≠ none
    rw [hc]
    exact Option.some_ne_none 0
  · rw [hsrc g' a' h', hcasted]
    decide
  · rw [hsrc g' a' h', if_neg (ne_true_of_eq_false hfrees), hcasted]
    obtain ⟨b, hb⟩ := Option.isSome_iff_exists.mp
      (show (constructArchetype oneTag { types := [3, TypeIndex.make 4 .tag] }).isSome = true by
        decide +kernel)
    refine ⟨hstack, Store.Obtainable.of_metatypes _ _ rfl hb, ?_, ?_⟩
    · intro _ _ _ _ _ hfind
      rw [hnone] at hfind
      simp at hfind
    · intro w₁ g' b' hget hb' _
      obtain ⟨st, hst, rfl⟩ := getArchetype_eq_some hget
      have htype' : b'.type = { types := [3, TypeIndex.make 4 .tag] } := by
        rw [hget, Option.map_some, Option.some.injEq] at hnew
        change st.archetype g' = some b' at hb'
        rw [show ({ w with store := st } : World).store.archetype g' = some b' from hb',
          Option.map_some, Option.some.injEq] at hnew
        exact hnew
      refine ⟨MovesBits.of_allOnes ?_ ?_ ?_ ?_ ?_, fun _ => ?_⟩
      · rw [World.full, hcount]
        rfl
      · rw [htype, htype']
        decide
      · intro j hj
        obtain rfl : j = 0 := Nat.lt_one_iff.mp hj
        exact hmask
      · rw [Archetype.types, htype]
        decide
      · rw [Archetype.types, htype']
        decide
      · rw [Store.sharedType_of_metatypes _ _ (by rw [Archetype.metatypes, htype])]
        exact Option.some_ne_none _

theorem laysOut_masked {w : World} (hw : masked = some w) :
    MaskCall.LaysOut oneTag w (.cast { c := 0, start := 0, count := 1 } gainTag) := by
  have hcasted : (masked.bind fun w => w.archetypeOf 0).map (fun p =>
      castedType oneTag p.2 gainTag false) = some { types := [3, TypeIndex.make 4 .tag] } := by
    decide +kernel
  rw [hw, Option.bind_some] at hcasted
  obtain ⟨⟨g, a⟩, harch, hcasted⟩ := Option.map_eq_some_iff.mp hcasted
  refine Op.laysOut_cast harch fun _ => ?_
  rw [show castedType oneTag a gainTag false = _ from hcasted]
  decide +kernel

/-- One entity with a mask gets the tag, which is then disabled. -/
theorem masksSurvive_oneTag : ∃ w enabled,
    MaskRun oneTag (fun w call => call.KeepsMasks oneTag w ∧ call.LaysOut oneTag w) w enabled ∧
    w.Found ⟨0⟩ 0 0 ∧ ¬ enabled ⟨0⟩ (TypeIndex.make 4 .tag) ∧
    MasksSurvive oneTag w.whole enabled ∧
    ∀ call : MaskCall, call.Valid oneTag w → call.KeepsMasks oneTag w →
      ∃ fuel w', call.run oneTag fuel w = some w' := by
  have hrun : (masked.bind fun w₁ =>
      (MaskCall.run oneTag 4 w₁ (.cast { c := 0, start := 0, count := 1 } gainTag)).bind fun w₂ =>
      MaskCall.run oneTag 4 w₂ (.disable ⟨0⟩ [TypeIndex.make 4 .tag])).isSome = true := by
    decide +kernel
  have hfacts₂ : (masked.bind fun w₁ =>
      MaskCall.run oneTag 4 w₁ (.cast { c := 0, start := 0, count := 1 } gainTag)).map (fun w =>
        (w.store.type 0, w.store.count 0, w.memory.entityAt 0 0, w.ents.exist ⟨0⟩,
          (w.ents.datas 0).c, (w.ents.datas 0).i)) =
      some (some 1, 1, ⟨0⟩, true, .chunk 0, 0) := by decide +kernel
  have hfacts₃ : ((masked.bind fun w₁ =>
      MaskCall.run oneTag 4 w₁ (.cast { c := 0, start := 0, count := 1 } gainTag)).bind fun w₂ =>
      MaskCall.run oneTag 4 w₂ (.disable ⟨0⟩ [TypeIndex.make 4 .tag])).map (fun w =>
        (w.store.type 0, w.store.count 0, w.memory.entityAt 0 0, w.ents.exist ⟨0⟩,
          (w.ents.datas 0).c, (w.ents.datas 0).i)) =
      some (some 1, 1, ⟨0⟩, true, .chunk 0, 0) := by decide +kernel
  have hsize : ((masked.bind fun w₁ =>
      MaskCall.run oneTag 4 w₁ (.cast { c := 0, start := 0, count := 1 } gainTag)).bind fun w₂ =>
      MaskCall.run oneTag 4 w₂ (.disable ⟨0⟩ [TypeIndex.make 4 .tag])).map (fun w =>
        w.ents.size) = some 1 := by decide +kernel
  obtain ⟨w₃, hp⟩ := Option.isSome_iff_exists.mp hrun
  obtain ⟨w₁, hw₁, hp⟩ := Option.bind_eq_some_iff.mp hp
  obtain ⟨w₂, hw₂, hw₃⟩ := Option.bind_eq_some_iff.mp hp
  rw [hw₁, Option.bind_some, hw₂] at hfacts₂ hfacts₃ hsize
  rw [Option.bind_some, hw₃] at hfacts₃ hsize
  simp only [Option.map_some, Option.some.injEq] at hsize
  have hfound₂ : w₂.Found ⟨0⟩ 0 0 := found_origin (Option.some.inj hfacts₂)
  have hfound₃ : w₃.Found ⟨0⟩ 0 0 := found_origin (Option.some.inj hfacts₃)
  obtain ⟨a, ha⟩ := Option.isSome_iff_exists.mp
    (show (constructArchetype oneTag { types := [3] }).isSome = true by decide +kernel)
  have hcaps : (constructArchetype oneTag { types := [3] }).map (fun a => (a.firstBuffer,
      a.firstManaged, a.chunkCapacity .smallbin, a.chunkCapacity .fastbin,
        a.chunkCapacity .largebin)) = some (1, 1, 123, 8187, 131067) := by decide +kernel
  have hroom : ∀ a', constructArchetype oneTag { types := [3] } = some a' →
      a'.Roomy ∧ Store.RoomFor a' 1 := by
    intro a' ha'
    rw [ha', Option.map_some, Option.some.injEq] at hcaps
    simp only [Prod.mk.injEq] at hcaps
    obtain ⟨hbuffer, hmanaged, hsmall, hfast, hlarge⟩ := hcaps
    refine ⟨fun k hk hk' => by omega, fun k n _ _ => ?_⟩
    cases Store.newChunkBin k (n * a'.entitySize % 2 ^ 32) <;> omega
  have hrun₁ : MaskRun oneTag
      (fun w call => call.KeepsMasks oneTag w ∧ call.LaysOut oneTag w) w₁ _ :=
    (MaskRun.initial 1 (fun _ => 0) (fun _ _ => 0) fun _ => []).step (.allocate { types := [3] } 1)
      ⟨by decide, by decide, by decide, by decide⟩
      ⟨⟨.of_metatypes _ _ rfl ha, hroom⟩,
        Op.laysOut_allocate 1 (by decide +kernel)⟩ hw₁
  obtain ⟨hv₂, hk₂⟩ := keepsMasks_masked hw₁
  have hrun₃ := (hrun₁.step _ hv₂ ⟨hk₂, laysOut_masked hw₁⟩ hw₂).step
    (.disable ⟨0⟩ [TypeIndex.make 4 .tag])
    ⟨by decide, fun _ => ⟨0, 0, hfound₂⟩⟩ ⟨trivial, trivial⟩ hw₃
  refine ⟨w₃, _, hrun₃, hfound₃, fun h => h.1 ⟨rfl, List.mem_singleton_self _⟩,
    masksSurvive_of_run built_oneTag (by decide) hrun₃ (by omega)⟩

/-- One entity with a mask and the tag. -/
def maskAndTag : Option World :=
  MaskCall.run oneTag 4 blank (.allocate { types := [3, TypeIndex.make 4 .tag] } 1)

def gainDisable : TypeDiff := { extend := { types := [oneTag.disableId] } }

/-- The tag of one entity is disabled before a tag sorted in front of it moves in: the bits
stay where they are. -/
theorem not_masksSurvive_cast : ∃ w enabled,
    MaskRun oneTag (fun w call => call.LaysOut oneTag w) w enabled ∧ w.ents.size < 2 ^ 24 ∧
    w.Found ⟨0⟩ 0 0 ∧ ¬ enabled ⟨0⟩ (TypeIndex.make 4 .tag) ∧
    w.whole.isComponentEnabled oneTag ⟨0⟩ [TypeIndex.make 4 .tag] = some true ∧
    ¬ MasksSurvive oneTag w.whole enabled := by
  have hrun : (maskAndTag.bind fun w₁ =>
      (MaskCall.run oneTag 4 w₁ (.disable ⟨0⟩ [TypeIndex.make 4 .tag])).bind fun w₂ =>
      MaskCall.run oneTag 4 w₂ (.cast { c := 0, start := 0, count := 1 } gainDisable)).isSome =
      true := by decide +kernel
  have hfacts₁ : maskAndTag.map (fun w => (w.store.type 0, w.store.count 0, w.memory.entityAt 0 0,
      w.ents.exist ⟨0⟩, (w.ents.datas 0).c, (w.ents.datas 0).i)) =
      some (some 0, 1, ⟨0⟩, true, .chunk 0, 0) := by decide +kernel
  have hfacts₂ : (maskAndTag.bind fun w₁ =>
      MaskCall.run oneTag 4 w₁ (.disable ⟨0⟩ [TypeIndex.make 4 .tag])).map (fun w =>
        (w.store.type 0, w.store.count 0, (w.store.archetype 0).map fun a =>
          (a.types, castedType oneTag a gainDisable false))) =
      some (some 0, 1, some ([3, TypeIndex.make 4 .tag],
        { types := [3, oneTag.disableId, TypeIndex.make 4 .tag] })) := by decide +kernel
  have hfacts₃ : (maskAndTag.bind fun w₁ =>
      (MaskCall.run oneTag 4 w₁ (.disable ⟨0⟩ [TypeIndex.make 4 .tag])).bind fun w₂ =>
      MaskCall.run oneTag 4 w₂ (.cast { c := 0, start := 0, count := 1 } gainDisable)).map (fun w =>
        (w.store.type 0, w.store.count 0, w.memory.entityAt 0 0, w.ents.exist ⟨0⟩,
          (w.ents.datas 0).c, (w.ents.datas 0).i)) =
      some (some 1, 1, ⟨0⟩, true, .chunk 0, 0) := by decide +kernel
  have henabled : (maskAndTag.bind fun w₁ =>
      (MaskCall.run oneTag 4 w₁ (.disable ⟨0⟩ [TypeIndex.make 4 .tag])).bind fun w₂ =>
      MaskCall.run oneTag 4 w₂ (.cast { c := 0, start := 0, count := 1 } gainDisable)).map (fun w =>
        (w.whole.isComponentEnabled oneTag ⟨0⟩ [TypeIndex.make 4 .tag], w.ents.size,
          (w.store.archetype 1).map Archetype.types, (w.whole.memory.entityAt 0 0).value)) =
      some (some true, 1, some [3, oneTag.disableId, TypeIndex.make 4 .tag], 0) := by
    decide +kernel
  obtain ⟨w₃, hp⟩ := Option.isSome_iff_exists.mp hrun
  obtain ⟨w₁, hw₁, hp⟩ := Option.bind_eq_some_iff.mp hp
  obtain ⟨w₂, hw₂, hw₃⟩ := Option.bind_eq_some_iff.mp hp
  rw [hw₁] at hfacts₁
  rw [hw₁, Option.bind_some, hw₂] at hfacts₂ hfacts₃ henabled
  rw [Option.bind_some, hw₃] at hfacts₃ henabled
  simp only [Option.map_some, Option.some.injEq, Prod.mk.injEq] at hfacts₂ henabled
  obtain ⟨htype₂, hcount₂, hcasted⟩ := hfacts₂
  obtain ⟨hon, hsize, htypes, hhandle⟩ := henabled
  obtain ⟨a, ha, hlists⟩ := Option.map_eq_some_iff.mp hcasted
  obtain ⟨hown, hcasted⟩ := Prod.mk.inj hlists
  obtain ⟨b, hb, htypes⟩ := Option.map_eq_some_iff.mp htypes
  have harch₂ : w₂.archetypeOf 0 = some (0, a) := archetypeOf_eq_some.mpr ⟨htype₂, ha⟩
  have hfound₁ : w₁.Found ⟨0⟩ 0 0 := found_origin (Option.some.inj hfacts₁)
  have hfound₃ : w₃.Found ⟨0⟩ 0 0 := found_origin (Option.some.inj hfacts₃)
  have htype₃ : w₃.store.type 0 = some 1 := (Prod.mk.inj (Option.some.inj hfacts₃)).1
  have hv₃ : MaskCall.Valid oneTag w₂ (.cast { c := 0, start := 0, count := 1 } gainDisable) := by
    refine ⟨⟨?_, Nat.one_pos, hcount₂.ge⟩, by decide, by decide, fun g a' ha' => ?_⟩
    · change w₂.store.type 0 ≠ none
      rw [htype₂]
      exact Option.some_ne_none 0
    · obtain ⟨-, rfl⟩ := Prod.mk.inj (Option.some.inj (ha'.symm.trans harch₂))
      rw [hcasted]
      decide
  have hlays₃ : MaskCall.LaysOut oneTag w₂
      (.cast { c := 0, start := 0, count := 1 } gainDisable) := by
    refine Op.laysOut_cast harch₂ fun _ => ?_
    rw [hcasted]
    decide +kernel
  have hrun₃ := (((MaskRun.initial 1 (fun _ => 0) (fun _ _ => 0) fun _ => []).step
    (P := fun w call => call.LaysOut oneTag w) (.allocate { types := [3, TypeIndex.make 4 .tag] } 1)
    ⟨by decide, by decide, by decide, by decide⟩
    (Op.laysOut_allocate 1 (by decide +kernel)) hw₁).step
    (.disable ⟨0⟩ [TypeIndex.make 4 .tag]) ⟨by decide, fun _ => ⟨0, 0, hfound₁⟩⟩ trivial hw₂).step
    (.cast { c := 0, start := 0, count := 1 } gainDisable) hv₃ hlays₃ hw₃
  have hoff : ∀ enabled, ¬ MaskCall.enabled w₂
      (MaskCall.enabled w₁ enabled (.disable ⟨0⟩ [TypeIndex.make 4 .tag]))
      (.cast { c := 0, start := 0, count := 1 } gainDisable) ⟨0⟩ (TypeIndex.make 4 .tag) := by
    rintro enabled (h | ⟨-, h⟩)
    · exact h.1 ⟨rfl, List.mem_singleton_self _⟩
    · exact h 0 a harch₂ (by rw [hown]; decide)
  have hwhole : w₃.whole.Found ⟨0⟩ 0 0 := ⟨hfound₃.occupied, Entity.ext hhandle, hfound₃.entry⟩
  refine ⟨w₃, _, hrun₃, by omega, hfound₃, hoff _, hon, fun hsurvive => ?_⟩
  obtain ⟨on, hread, hiff⟩ := hsurvive ⟨0⟩ 0 0 1 b hwhole
    (archetypeOf_eq_some.mpr ⟨htype₃, hb⟩) (TypeIndex.make 4 .tag) (by rw [htypes]; decide)
  rw [hon, Option.some.injEq] at hread
  exact hoff _ (hiff.mp hread.symm)

end World

end Dots

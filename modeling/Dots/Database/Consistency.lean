import Dots.Database.Location
import Dots.Database.Run
import Dots.Database.Wellformed

/-!
# Location consistency

Handles, entity table and free list agree after every call, as long as
`chunk::duplicate` stays clear of the handles of the chunk it fills.
-/

namespace Dots

open Library Entities

namespace World

/-! ## What one call keeps -/

/-- Between two steps of a call: the slots `V` are already, or still, void. -/
structure Sound (ctx : Context) (V : Slots) (w : World) : Prop where
  wf : w.store.Wf ctx
  tracks : w.ents.size < 2 ^ 24 →
    Tracks w.ents w.memory fun c i => w.store.Occupied c i ∧ ¬ V c i

/-- No slot. -/
abbrev nowhere : Slots := fun _ _ => False

variable {ctx : Context} {V : Slots} {w w' : World} {g : ArchetypeId} {a : Archetype}

/-- A change of the store that keeps chunks and what they hold. -/
theorem Sound.store (h : Sound ctx V w) {st : Store} (hwf : st.Wf ctx)
    (hocc : ∀ c i, st.Occupied c i ↔ w.store.Occupied c i) :
    Sound ctx V { w with store := st } where
  wf := hwf
  tracks hsize := (h.tracks hsize).mono fun c i hi => ⟨(hocc c i).mp hi.1, hi.2⟩

theorem occupied_congr {st st' : Store} (htype : st'.type = st.type)
    (hcount : st'.count = st.count) (c : ChunkId) (i : Nat) :
    st'.Occupied c i ↔ st.Occupied c i := by
  simp only [Store.Occupied, htype, hcount]

theorem Sound.congr (h : Sound ctx V w) {st : Store} (hs : Store.SameShape w.store st) :
    Sound ctx V { w with store := st } :=
  h.store (h.wf.congr hs) (occupied_congr hs.type hs.count)


/-- A cell of a chunk is behind the handles of its entities. -/
theorem handle_le_span {st : Store} (h : st.Wf ctx) (ha : st.archetype g = some a) {c : ChunkId}
    {start n i x : Nat} (hi : i < a.chunkCapacity (st.ct c)) (hx : a.Span (st.ct c) start n x) :
    sizeofEntity * (i + 1) ≤ x :=
  (Nat.mul_le_mul_left _ hi).trans (hx.handles_le (constructArchetype_layout (h.built g a ha).2))

section Allocated

variable {st st' : Store} {s : ChunkSlice} {n : Nat}

/-- The slots that hold an entity after `allocate_slice`. -/
theorem occupied_of_allocated (h : Store.Allocated st st' g a s n) (c : ChunkId) (i : Nat) :
    st'.Occupied c i ↔ st.Occupied c i ∨ Slots.of s c i := by
  simp only [Store.Occupied, h.type, h.count, Function.update_apply, Slots.of]
  by_cases hc : c = s.c
  · subst hc
    simp only [if_true, ne_eq, reduceCtorEq, not_false_eq_true, true_and]
    rcases h.old with ⟨htype, hstart⟩ | ⟨htype, hstart, -⟩
    · simp only [htype, reduceCtorEq, not_false_eq_true, true_and]
      omega
    · simp only [htype, not_true_eq_false, false_and, false_or]
      omega
  · simp only [hc, if_false, false_and, or_false]

/-- Before, its chunk held the slots in front of the new slice. -/
theorem occupied_iff_lt_start (h : Store.Allocated st st' g a s n) (i : Nat) :
    st.Occupied s.c i ↔ i < s.start := by
  simp only [Store.Occupied]
  rcases h.old with ⟨htype, hstart⟩ | ⟨htype, hstart, -⟩
  · simp [htype, hstart]
  · simp [htype, hstart]

end Allocated

/-- One turn of the loops that make entities: `allocate_slice`, component data, and
`new_entities`. -/
theorem Sound.fill {w₁ w₂ : World} {n : Nat} {s : ChunkSlice} {mm : Memory} {W : Nat → Prop}
    (h : Sound ctx nowhere w) (ha : w.store.archetype g = some a)
    (hs : w.allocateSlice g n = some (w₁, s)) (hty : w₁.store.type s.c ≠ none)
    (hw : Memory.Writes s.c W w₁.memory mm)
    (hW : w₂.ents.size < 2 ^ 24 → ∀ i < s.start, ∀ x, W x → sizeofEntity * (i + 1) ≤ x)
    (hnew : { w₁ with memory := mm }.newEntities s = some w₂) :
    Sound ctx nowhere w₂ ∧ w₂.store = w₁.store ∧ w.ents.size ≤ w₂.ents.size ∧
      (w₂.ents.size < 2 ^ 24 → ∀ id < w.ents.size, ∀ c, (w.ents.datas id).c = .chunk c →
        w₂.ents.datas id = w.ents.datas id) := by
  obtain ⟨st, hst, rfl⟩ := allocateSlice_eq_some.mp hs
  obtain ⟨hwf, hall⟩ := h.wf.allocateSlice ha hst hty
  obtain ⟨hstore, hle⟩ := newEntities_store hnew
  have hbefore : w₂.ents.size < 2 ^ 24 → Tracks w.ents mm w.store.Occupied := by
    intro hsize
    have hold := (h.tracks (hle.trans_lt hsize)).mono fun c i hi => ⟨hi, not_false⟩
    exact hold.writes hw fun i hi => hW hsize i ((occupied_iff_lt_start hall i).mp hi)
  have hrun := fun hsize : w₂.ents.size < 2 ^ 24 =>
    tracks_newEntities (w := { w with store := st, memory := mm }) (hbefore hsize)
      (occupied_iff_lt_start hall) hnew hsize
  refine ⟨⟨hstore ▸ hwf, fun hsize => ?_⟩, hstore, hle, fun hsize => (hrun hsize).2⟩
  apply (hrun hsize).1.mono
  intro c i hi
  rw [hstore] at hi
  exact (occupied_of_allocated hall c i).mp hi.1

/-- Constructors of a new slice write behind the handles in front of it. -/
theorem construct_behind (hm : ctx.maskId < 3 * 2 ^ 30) {w₁ : World} {n : Nat} {s : ChunkSlice}
    {g' : ArchetypeId} {a' : Archetype} (h : w.store.Wf ctx) (ha : w.store.archetype g = some a)
    (halloc : w.allocateSlice g n = some (w₁, s)) (harch : w₁.archetypeOf s.c = some (g', a')) :
    w₁.store.type s.c ≠ none ∧ w₁.store.archetype g = some a ∧
      ∃ W, Memory.Writes s.c W w₁.memory (w₁.memory.construct ctx a' (w₁.store.ct s.c) s) ∧
        ∀ i < s.start, ∀ x, W x → sizeofEntity * (i + 1) ≤ x := by
  obtain ⟨st, hst, rfl⟩ := allocateSlice_eq_some.mp halloc
  obtain ⟨htype, harch⟩ := archetypeOf_eq_some.mp harch
  have hty : st.type s.c ≠ none := by
    rw [htype]
    exact Option.some_ne_none g'
  obtain ⟨hwf, hall⟩ := h.allocateSlice ha hst hty
  have hlayout := constructArchetype_layout (hwf.built g' a' harch).2
  have hcap : ∀ i < s.start, i < a.chunkCapacity (st.ct s.c) := by
    intro i hi
    have := hall.le
    omega
  rw [hall.type, Function.update_self, Option.some.injEq] at htype
  subst htype
  rw [hall.archetype, ha, Option.some.injEq] at harch
  subst harch
  exact ⟨hty, hall.archetype ▸ ha, _, Memory.construct_writes hm _ hlayout _ s,
    fun i hi x hx => handle_le_span hwf (hall.archetype ▸ ha) (hcap i hi) hx⟩

/-- The loop of `allocate`. -/
theorem Sound.allocateLoop (hm : ctx.maskId < 3 * 2 ^ 30) {fuel n : Nat} {ss : List ChunkSlice}
    (h : Sound ctx nowhere w) (ha : w.store.archetype g = some a)
    (hs : World.allocateLoop ctx g fuel n w = some (w', ss)) : Sound ctx nowhere w' := by
  refine (allocateLoop_invariant (I := fun w => Sound ctx nowhere w ∧ w.store.archetype g = some a)
    ?_ ⟨h, ha⟩ hs).1
  rintro w w₁ w₂ n s g' a' ⟨h, ha⟩ - halloc harch hnew
  obtain ⟨hty, ha₁, W, hwrites, hbehind⟩ := construct_behind hm h.wf ha halloc harch
  obtain ⟨h₂, hstore, -, -⟩ := h.fill ha halloc hty hwrites (fun _ => hbehind) hnew
  exact ⟨h₂, hstore ▸ ha₁⟩

/-! ## Moving entities out of a slice -/

/-- After the tail moved, the slots past the shorter end are void. -/
theorem tracks_moveTail {s : ChunkSlice} (hwf : w.store.Wf ctx)
    (h : Tracks w.ents w.memory fun c i => w.store.Occupied c i ∧ ¬ Slots.of s c i)
    (hc : w.store.type s.c = some g) (ha : w.store.archetype g = some a)
    (hle : s.start + s.count ≤ w.store.count s.c) :
    Tracks (w.moveTail a s).ents (w.moveTail a s).memory fun c i =>
      w.store.Occupied c i ∧ (c = s.c → i < w.store.count s.c - s.count) := by
  have hcap := hwf.count_le s.c g a hc ha
  have hlt := hwf.capacity_lt ha (w.store.ct s.c)
  have hrest : sub32 (sub32 (w.store.count s.c) s.start) s.count =
      w.store.count s.c - s.start - s.count := by
    rw [sub32_of_le (a := w.store.count s.c) (b := s.start) (by omega) (by omega),
      sub32_of_le (by omega) (by omega)]
  simp only [moveTail, hrest]
  generalize hm : min s.count (w.store.count s.c - s.start - s.count) = m
  have hocc : ∀ i, w.store.Occupied s.c i ↔ i < w.store.count s.c := by
    intro i
    simp [Store.Occupied, hc]
  split_ifs with hpos
  · have hL := h.writes (Memory.moveWithin_writes w.memory a (w.store.ct s.c)
      { c := s.c, start := s.start, count := m } (w.store.count s.c - m)) fun i hi x hx =>
        handle_le_span hwf ha (((hocc i).mp hi.1).trans_le hcap) hx
    have hlast := h.slot_lt s.c (w.store.count s.c - 1)
      ⟨(hocc _).mpr (by omega), fun hin => by have := hin.2.2; omega⟩
    apply (tracks_fillEntities hL _ _ _).mono
    · rintro c i ⟨hi, hshort⟩
      by_cases hcs : c = s.c
      · subst hcs
        have hi' := hshort rfl
        by_cases hhole : i < s.start + m
        · by_cases hbefore : i < s.start
          · exact Or.inr ⟨⟨hi, fun hin => hin.2.1.not_gt hbefore⟩, fun hin => by
              have := hin.2.1
              dsimp only at this
              omega⟩
          · exact Or.inl ⟨rfl, Nat.le_of_not_lt hbefore, hhole⟩
        · refine Or.inr ⟨⟨hi, fun hin => ?_⟩, fun hin => ?_⟩
          · have := hin.2
            omega
          · have := hin.2.1
            dsimp only at this
            omega
      · exact Or.inr ⟨⟨hi, fun hin => hcs hin.1⟩, fun hin => hcs hin.1⟩
    · intro k hk
      dsimp only at hk
      exact ⟨(hocc _).mpr (by omega), fun hin => by have := hin.2.2; omega⟩
    · dsimp only
      omega
    · rintro c i ⟨hcs, hlo, hhi⟩ hin
      dsimp only at hcs hlo hhi
      exact hin.2 ⟨hcs, hlo, by omega⟩
  · apply h.mono
    rintro c i ⟨hi, hshort⟩
    refine ⟨hi, ?_⟩
    rintro ⟨rfl, hlo, hhi⟩
    have := hshort rfl
    omega

/-- The slots that hold an entity after a chunk was resized. -/
theorem occupied_of_resize {st st' : Store} {c : ChunkId} {n : Nat} (hc : st.type c = some g)
    (h : n = 0 ∧ Store.Removed st st' g c ∨ n ≠ 0 ∧ Store.Resized st st' c n) (d : ChunkId)
    (i : Nat) : st'.Occupied d i ↔ if d = c then i < n else st.Occupied d i := by
  simp only [Store.Occupied]
  rcases h with ⟨rfl, h⟩ | ⟨-, h⟩
  · rw [h.type, h.count, Function.update_apply]
    split_ifs with hd
    · simp
    · rfl
  · rw [h.type, h.count, Function.update_apply]
    split_ifs with hd
    · subst hd
      simp [hc]
    · rfl

/-- `free_slice`. -/
theorem Sound.freeSlice {s : ChunkSlice} (h : Sound ctx (Slots.of s) w) (hpos : 0 < s.count)
    (hle : s.start + s.count ≤ w.store.count s.c) (hs : w.freeSlice s = some w') :
    Sound ctx nowhere w' := by
  obtain ⟨g, a, st₁, w₂, st, hc, ha, hst₁, hw₂, hres, rfl⟩ := freeSlice_spec hs
  have hshape : Store.SameShape w.store st₁ := hst₁ ▸
    (Store.structuralChange_shape w.store g a s.c).trans (Store.subSize_shape _ g s.count)
  have h₁ := h.congr hshape
  have hc₁ : st₁.type s.c = some g := hshape.type ▸ hc
  have ha₁ : st₁.archetype g = some a := hshape.archetype ▸ ha
  rw [← hshape.count] at hle
  have hwf₁ : st₁.Wf ctx := h₁.wf
  have hcap := hwf₁.count_le s.c g a hc₁ ha₁
  have hlt := hwf₁.capacity_lt ha₁ (st₁.ct s.c)
  rw [sub32_of_le (by omega) (by omega)] at hres
  have hcase := hwf₁.resizeChunk hc₁ ha₁ (by omega) (fun _ hfull => by omega) hres
  refine ⟨hcase.1, fun hsize => ?_⟩
  have hmoved := tracks_moveTail h₁.wf
    (h₁.tracks (by rwa [hw₂, (moveTail_store _ _ _).2] at hsize)) hc₁ ha₁ hle
  rw [← hw₂] at hmoved
  apply hmoved.mono
  rintro c i ⟨hi, -⟩
  have hocc := (occupied_of_resize hc₁ hcase.2 c i).mp hi
  split_ifs at hocc with hcs
  · subst hcs
    refine ⟨⟨?_, ?_⟩, fun _ => hocc⟩
    · change st₁.type s.c ≠ none
      rw [hc₁]
      exact Option.some_ne_none g
    · change i < st₁.count s.c
      omega
  · exact ⟨hocc, fun hcs' => absurd hcs' hcs⟩

/-- New slots are not in a chunk of another archetype. -/
theorem other_of_allocated {st st' : Store} {s : ChunkSlice} {c : ChunkId} {srcG : ArchetypeId}
    {n : Nat} (hall : Store.Allocated st st' g a s n) (hc : st.type c = some srcG)
    (hg : srcG ≠ g) : s.c ≠ c := by
  intro hcs
  rcases hall.old with ⟨htype, -⟩ | ⟨htype, -⟩
  · rw [hcs, hc, Option.some.injEq] at htype
    exact hg htype
  · simp [hcs, hc] at htype

/-- The slots of `s` in front of the `k`-th. -/
abbrev firstOf (s : ChunkSlice) (k : Nat) : Slots := Slots.of { s with count := k }

/-- The table after a turn of `cast_slice`: the handles behind the first `k` moved. -/
theorem Sound.castTurn {src s : ChunkSlice} {srcG : ArchetypeId} {k : Nat} {st : Store}
    {mm : Memory} (h : Sound ctx (firstOf src k) w) (ha : w.store.archetype g = some a)
    (hwf : st.Wf ctx) (hall : Store.Allocated w.store st g a s (src.count - k))
    (hc : w.store.type src.c = some srcG) (hg : srcG ≠ g)
    (hle : src.start + src.count ≤ w.store.count src.c) (hk : k < src.count)
    (hw : Memory.Writes s.c (a.Span (st.ct s.c) s.start s.count) w.memory mm) :
    Sound ctx (firstOf src (k + s.count))
      ({ w with store := st, memory := mm }.moveEntities s src.c (src.start + k)) := by
  have hsrc := other_of_allocated hall hc hg
  have hcount := hall.count_le
  refine ⟨hwf, fun hsize => ?_⟩
  have hsize' : w.ents.size < 2 ^ 24 := by
    rwa [← moveEntities_size s.c _ s.start w.ents]
  have hold := (h.tracks hsize').writes hw fun i hi x hx =>
    handle_le_span hwf (hall.archetype ▸ ha) (by
      have := (occupied_iff_lt_start hall i).mp hi.1
      have := hall.le
      omega) hx
  have hmoved : ∀ j < s.count, w.store.Occupied src.c (src.start + k + j) ∧
      ¬ firstOf src k src.c (src.start + k + j) := by
    intro j hj
    refine ⟨⟨?_, by omega⟩, fun hin => ?_⟩
    · rw [hc]
      exact Option.some_ne_none srcG
    · have := hin.2.2
      dsimp only at this
      omega
  have hbefore : ∀ i < s.start, w.store.Occupied s.c i ∧ ¬ firstOf src k s.c i :=
    fun i hi => ⟨(occupied_iff_lt_start hall i).mpr hi, fun hin => hsrc hin.1⟩
  have hbound : s.start + s.count ≤ w.ents.size := by
    apply hold.card_le (f := fun i =>
      if i < s.start then (s.c, i) else (src.c, src.start + k + (i - s.start)))
    · intro i hi
      split_ifs with hlt
      · exact hbefore i hlt
      · exact hmoved _ (by omega)
    · intro i _ j _ hij
      dsimp only at hij
      split_ifs at hij with hi hj hj
      · exact (Prod.mk.inj hij).2
      · exact absurd (Prod.mk.inj hij).1 hsrc
      · exact absurd (Prod.mk.inj hij).1.symm hsrc
      · have := (Prod.mk.inj hij).2
        omega
  apply (tracks_moveEntities (w := { w with store := st, memory := mm }) hold hmoved
    (by omega) _).mono
  · rintro c i ⟨hi, hvoid⟩
    by_cases hnew : Slots.of s c i
    · exact Or.inl hnew
    · have hi' := ((occupied_of_allocated hall c i).mp hi).resolve_right hnew
      refine Or.inr ⟨⟨hi', fun hin => hvoid ?_⟩, fun hin => hvoid ?_⟩
      · exact ⟨hin.1, hin.2.1, by have := hin.2.2; dsimp only at this ⊢; omega⟩
      · obtain ⟨hcs, hlo, hhi⟩ := hin
        dsimp only at hcs hlo hhi
        exact ⟨hcs, by dsimp only; omega, by dsimp only; omega⟩
  · rintro c i ⟨rfl, hlo, -⟩ hin
    have := (occupied_iff_lt_start hall i).mp hin.1
    omega

/-- Between two turns of the loop of `cast_slice`: `k` slots of the source are void. -/
structure Casting (ctx : Context) (src : ChunkSlice) (srcG g : ArchetypeId) (a : Archetype)
    (k : Nat) (w : World) : Prop where
  sound : Sound ctx (firstOf src k) w
  target : w.store.archetype g = some a
  source : w.store.type src.c = some srcG
  le : src.start + src.count ≤ w.store.count src.c
  done : k ≤ src.count

/-- What a turn of the loop of `cast_slice` hands out and writes. -/
structure CastTurn (ctx : Context) (src : ChunkSlice) (g : ArchetypeId) (a : Archetype) (k : Nat)
    (w w₁ : World) (s : ChunkSlice) (mm : Memory) : Prop where
  slots : Store.Allocated w.store w₁.store g a s (src.count - k)
  wf : w₁.store.Wf ctx
  memory : w₁.memory = w.memory
  ents : w₁.ents = w.ents
  writes : Memory.Writes s.c (a.Span (w₁.store.ct s.c) s.start s.count) w.memory mm
  other : s.c ≠ src.c

theorem Casting.turn (hm : ctx.maskId < 3 * 2 ^ 30) {src s : ChunkSlice} {srcG : ArchetypeId}
    {k : Nat} {w₁ : World} {dst side : Memory.CastSide} {mm : Memory}
    (h : Casting ctx src srcG g a k w) (hg : srcG ≠ g) (hlt : k < src.count)
    (halloc : w.allocateSlice g (src.count - k) = some (w₁, s))
    (hdst : w₁.side s.c s.start = some dst)
    (hcast : w₁.memory.cast ctx dst side s.count true = some mm) :
    CastTurn ctx src g a k w w₁ s mm ∧ Casting ctx src srcG g a (k + s.count)
      ({ w₁ with memory := mm }.moveEntities s src.c (src.start + k)) := by
  obtain ⟨h, ha, hc, hle, -⟩ := h
  obtain ⟨st, hst, rfl⟩ := allocateSlice_eq_some.mp halloc
  obtain ⟨g', a', htype, harch, rfl⟩ := side_eq_some.mp hdst
  have hty : st.type s.c ≠ none := by
    rw [htype]
    exact Option.some_ne_none g'
  obtain ⟨hwf, hall⟩ := h.wf.allocateSlice ha hst hty
  rw [hall.type, Function.update_self, Option.some.injEq] at htype
  subst htype
  rw [hall.archetype, ha, Option.some.injEq] at harch
  subst harch
  have hwrites := Memory.cast_writes hm (constructArchetype_layout (h.wf.built g a ha).2) hcast
  have hne := other_of_allocated hall hc hg
  have hturn := h.castTurn ha hwf hall hc hg hle hlt hwrites
  have hc' : st.type src.c = some srcG := by
    rw [type_of_allocated hall (by rw [hc]; exact Option.some_ne_none srcG), hc]
  have hcount := count_of_allocated hall hc hg
  have := hall.count_le
  exact ⟨⟨hall, hwf, rfl, rfl, hwrites, hne⟩,
    ⟨hturn, hall.archetype ▸ ha, hc', by exact hcount ▸ hle, by omega⟩⟩

/-- The loop of `cast_slice`. -/
theorem Casting.castLoop (hm : ctx.maskId < 3 * 2 ^ 30) {src : ChunkSlice} {srcG : ArchetypeId}
    {fuel : Nat} {ss : List ChunkSlice} (h : Casting ctx src srcG g a 0 w) (hg : srcG ≠ g)
    (hs : World.castLoop ctx src g fuel 0 w = some (w', ss)) :
    Casting ctx src srcG g a src.count w' := by
  suffices hinv : ∃ k, src.count ≤ k ∧ Casting ctx src srcG g a k w' by
    obtain ⟨k, hk, h'⟩ := hinv
    exact Nat.le_antisymm h'.done hk ▸ h'
  exact castLoop_invariant (fun w w₁ k s dst side mm h hlt halloc hdst _ hcast =>
    (h.turn hm hg hlt halloc hdst hcast).2) h hs

/-- Before the loop of `cast_slice`. -/
theorem Sound.casting {src : ChunkSlice} {srcG : ArchetypeId} (h : Sound ctx nowhere w)
    (hv : w.ValidSlice src) (ha : w.store.archetype g = some a)
    (hc : w.store.type src.c = some srcG) (g' : ArchetypeId) (a' : Archetype) :
    Casting ctx src srcG g a 0
      { w with store := (w.store.structuralChange g' a' src.c).subSize g' src.count } := by
  have hshape := (Store.structuralChange_shape w.store g' a' src.c).trans
    (Store.subSize_shape _ g' src.count)
  have hle := hv.le
  rw [← hshape.count] at hle
  refine ⟨⟨(h.congr hshape).wf, fun hsize => ((h.congr hshape).tracks hsize).mono ?_⟩,
    hshape.archetype ▸ ha, hshape.type ▸ hc, hle, Nat.zero_le _⟩
  exact fun c i hi => ⟨hi.1, not_false⟩

/-- `cast_slice` to another archetype. -/
theorem Sound.castSlice (hm : ctx.maskId < 3 * 2 ^ 30) {src : ChunkSlice} {srcG : ArchetypeId}
    {fuel : Nat} {ss : List ChunkSlice} (h : Sound ctx nowhere w) (hv : w.ValidSlice src)
    (ha : w.store.archetype g = some a) (hc : w.store.type src.c = some srcG) (hg : srcG ≠ g)
    (hs : World.castSlice ctx fuel w src g = some (w', ss)) : Sound ctx nowhere w' := by
  obtain ⟨g', a', w₁, -, -, hloop, hfree⟩ := castSlice_spec hs
  have hdone := (h.casting hv ha hc g' a').castLoop hm hg hloop
  exact hdone.sound.freeSlice hv.pos hdone.le hfree

theorem occupied_of_valid {s : ChunkSlice} (hv : w.ValidSlice s) (c : ChunkId) (i : Nat)
    (hi : Slots.of s c i) : w.store.Occupied c i := by
  obtain ⟨rfl, -, hlt⟩ := hi
  exact ⟨hv.typed, hlt.trans_le hv.le⟩

/-- `free_entities` on one slice. -/
theorem Sound.freeEntities {s : ChunkSlice} (h : Sound ctx nowhere w) (hv : w.ValidSlice s)
    (hs : w.freeEntities s = some w') : Sound ctx (Slots.of s) w' := by
  obtain ⟨hstore, -, hsize⟩ := freeEntities_store hs
  refine ⟨hstore ▸ h.wf, fun hlt => ?_⟩
  have hold := (h.tracks (hsize ▸ hlt)).mono fun c i hi => ⟨hi, not_false⟩
  rw [hstore]
  exact tracks_freeEntities hold (occupied_of_valid hv) hs

/-- `free_entities` and `free_slice` on one slice. -/
theorem Sound.release {s : ChunkSlice} (h : Sound ctx nowhere w) (hv : w.ValidSlice s)
    (hs : w.release s = some w') : Sound ctx nowhere w' := by
  obtain ⟨w₁, hf, hs⟩ := Option.bind_eq_some_iff.mp hs
  obtain ⟨hstore, -, -⟩ := freeEntities_store hf
  refine (h.freeEntities hv hf).freeSlice hv.pos ?_ hs
  rw [hstore]
  exact hv.le

/-- `get_archetype`. -/
theorem Sound.getArchetype {V : Slots} {key : EntityType} (h : Sound ctx V w)
    (hs : w.getArchetype ctx key = some (w', g)) :
    Sound ctx V w' ∧ Store.Extended w.store w'.store ∧ w'.ents = w.ents ∧ w'.memory = w.memory ∧
      ∃ a, w'.store.archetype g = some a ∧ a.type = key := by
  obtain ⟨st, hget, rfl⟩ := getArchetype_eq_some hs
  obtain ⟨hwf, hext, halive⟩ := h.wf.getArchetype hget
  exact ⟨h.store hwf (occupied_congr hext.type hext.count), hext, rfl, rfl, halive⟩

/-- The fast path of `cast`: a whole chunk goes over to another archetype. -/
theorem relink (hctx : ctx.Paired) {st st₁ st₂ : Store} {ents : Entities} (h : st.Wf ctx)
    {c : ChunkId} {srcG : ArchetypeId} {srcA : Archetype} (hc : st.type c = some srcG)
    (hsrcA : st.archetype srcG = some srcA) (ha : st.archetype g = some a) (hg : srcG ≠ g)
    (hcast : staticCastable ctx srcA.type a.type = true)
    (hrem : st.removeChunk ents srcG c = some st₁) (hadd : st₁.addChunk g c = some st₂) :
    st₂.Wf ctx ∧ ∀ d i, st₂.Occupied d i ↔ st.Occupied d i := by
  obtain ⟨hwf₁, hremoved⟩ := h.removeChunk hc hrem
  have hcap : srcA.chunkCapacity = a.chunkCapacity :=
    capacity_of_staticCastable hctx (h.built srcG srcA hsrcA).2 (h.built g a ha).2 hcast
  have hfresh : c < st.freshChunk := by
    by_contra hge
    simp [h.fresh c (Nat.le_of_not_lt hge)] at hc
  obtain ⟨hwf₂, hadded, -⟩ := hwf₁.addChunk (a := a) (hremoved.archetype g (Ne.symm hg) ▸ ha)
    (by rw [hremoved.type, Function.update_self]) (hremoved.freshChunk ▸ hfresh)
    (by
      rw [hremoved.count, hremoved.ct, ← hcap]
      exact h.count_le c srcG srcA hc hsrcA)
    hadd
  refine ⟨hwf₂, fun d i => ?_⟩
  simp only [Store.Occupied, hadded.type, hadded.count, hremoved.type, hremoved.count,
    Function.update_apply]
  split_ifs with hd
  · subst hd
    simp [hc]
  · rfl

/-- `cast(chunk_slice, archetype*)`. -/
theorem Sound.castTo (hctx : ctx.Built) {s : ChunkSlice} {fuel : Nat}
    {target : Option ArchetypeId} {ss : List ChunkSlice} (h : Sound ctx nowhere w)
    (hv : w.ValidSlice s) (hs : w.castTo ctx fuel s target = some (w', ss)) :
    Sound ctx nowhere w' := by
  have hm : ctx.maskId < 3 * 2 ^ 30 := by
    rw [hctx.ids.2.2.2]
    decide
  cases target with
  | none => exact h.release hv (castTo_none hs)
  | some g =>
      obtain ⟨srcG, srcA, a, hc, hsrcA, ha, hcase⟩ := castTo_cases hs
      rcases hcase with ⟨-, rfl⟩ | ⟨hg, hfast⟩ | ⟨hg, -, hcast⟩
      · exact h
      · -- the whole chunk changes its archetype
        obtain ⟨st₁, st₂, hrem, hadd, rfl⟩ := hfast.store
        obtain ⟨hwf, hocc⟩ := relink hctx.paired h.wf hc hsrcA ha hg hfast.castable hrem hadd
        exact h.store hwf hocc
      · exact h.castSlice hm hv ha hc hg hcast

/-- The dead archetype is another one. -/
theorem Sound.dead_ne {g' : ArchetypeId} (hctx : ctx.Built) (h : Sound ctx V w)
    (ha : w.store.archetype g = some a) (hclean : a.cleaning = false)
    (hget : w.getArchetype ctx (cleaningKey ctx a) = some (w', g')) : g ≠ g' := by
  obtain ⟨h', hext, -, -, b, hb, hkey⟩ := h.getArchetype hget
  rintro rfl
  obtain rfl : b = a := Option.some.inj (hb.symm.trans (hext.archetype _ a ha))
  have hbuilt := (h'.wf.built g b hb).2
  rw [hkey] at hbuilt
  simp [cleaning_of_key hctx hbuilt] at hclean

/-- `destroy_single`. -/
theorem Sound.destroySingle (hctx : ctx.Built) {s : ChunkSlice} {fuel : Nat}
    (h : Sound ctx nowhere w) (hv : w.ValidSlice s)
    (hs : w.destroySingle ctx fuel s = some w') : Sound ctx nowhere w' := by
  have hm : ctx.maskId < 3 * 2 ^ 30 := by
    rw [hctx.ids.2.2.2]
    decide
  obtain ⟨g, a, hc, ha, hcase⟩ := destroySingle_cases hs
  rcases hcase with ⟨-, rfl⟩ | ⟨-, -, hrel⟩ | ⟨hclean, -, w₁, g', ss, hget, hcast⟩
  · exact h
  · exact h.release hv hrel
  · obtain ⟨h₁, hext, -, -, b, hb, -⟩ := h.getArchetype hget
    exact h₁.castSlice hm (hv.extend hext) hb (hext.type ▸ hc) (h.dead_ne hctx ha hclean hget) hcast

/-! ## `instantiate` -/

/-- No column of the source, addressed in its own bin at `slot`, is among the handles
of the slots before `slot`. -/
def Clear (side : Memory.CastSide) (slot : Nat) : Prop :=
  ∀ i < side.a.firstTag, sizeofEntity * slot ≤ side.a.address side.ct i slot

/-- The slices that `allocate_slice` hands out for `n` entities, call after call. The
entity table plays no part in it. -/
inductive Handed (g : ArchetypeId) : Store → Nat → ChunkSlice → Prop
  | now {st st' : Store} {ents : Entities} {n : Nat} {s : ChunkSlice} (hn : 0 < n)
      (hs : st.allocateSlice ents g n = some (st', s)) : Handed g st n s
  | later {st st' : Store} {ents : Entities} {n : Nat} {s t : ChunkSlice} (hn : 0 < n)
      (hs : st.allocateSlice ents g n = some (st', s)) (ht : Handed g st' (n - s.count) t) :
      Handed g st n t

/-- In every slice that instances of `src` go to, `chunk::duplicate` stays clear of
the handles that are there. -/
def ClearOfHandles (ctx : Context) (w : World) (src : Entity) (count : Nat) : Prop :=
  ∀ s side w' g t, w.asSlice src = some s → w.side s.c s.start = some side →
    w.getCasted ctx side.a {} true = some (w', some g) → Handed g w'.store count t →
      Clear side t.start

theorem asSlice_eq_some {e : Entity} {s : ChunkSlice} (h : w.asSlice e = some s) :
    e.id < w.ents.size ∧ ∃ c, (w.ents.datas e.id).c = .chunk c := by
  simp only [World.asSlice, World.entrySlice] at h
  split_ifs at h with hid
  split at h
  · rename_i c hc
    exact ⟨hid, c, hc⟩
  · simp at h

theorem asSlice_congr {e : Entity} (hsize : w.ents.size ≤ w'.ents.size)
    (hid : e.id < w.ents.size) (hentry : w'.ents.datas e.id = w.ents.datas e.id) :
    w'.asSlice e = w.asSlice e := by
  simp only [World.asSlice, World.entrySlice, if_pos hid, if_pos (hid.trans_le hsize), hentry]

/-- The loop of `instantiate_single` finds its source and its target. -/
structure Sourced (ctx : Context) (src : Entity) (s : ChunkSlice) (side : Memory.CastSide)
    (g : ArchetypeId) (a : Archetype) (w : World) : Prop where
  sound : Sound ctx nowhere w
  target : w.store.archetype g = some a
  kept : w.side s.c s.start = some side
  source : w.ents.size < 2 ^ 24 → w.asSlice src = some s

/-- A turn of the loop of `instantiate_single`. -/
theorem Sourced.turn {src : Entity} {s t from_ : ChunkSlice} {side side' : Memory.CastSide}
    {n : Nat} {w₁ w₂ : World} {g' : ArchetypeId} {a' : Archetype} {mm : Memory}
    (h : Sourced ctx src s side g a w) (hclear : Clear side t.start)
    (halloc : w.allocateSlice g n = some (w₁, t)) (hfrom : w₁.asSlice src = some from_)
    (hside' : w₁.side from_.c from_.start = some side')
    (harch : w₁.archetypeOf t.c = some (g', a'))
    (hdup : w₁.memory.duplicate ctx a' t side' = some mm)
    (hnew : { w₁ with memory := mm }.newEntities t = some w₂) :
    Sourced ctx src s side g a w₂ ∧ w₂.store = w₁.store ∧
      (w₂.ents.size < 2 ^ 24 → ∀ i < t.start, ∀ x, Memory.Behind side' t.start x →
        sizeofEntity * (i + 1) ≤ x) := by
  obtain ⟨h, ha, hside, hsrc⟩ := h
  obtain ⟨st, hst, rfl⟩ := allocateSlice_eq_some.mp halloc
  obtain ⟨htype, -⟩ := archetypeOf_eq_some.mp harch
  have hty : st.type t.c ≠ none := by
    rw [htype]
    exact Option.some_ne_none g'
  obtain ⟨hwf, hall⟩ := h.wf.allocateSlice ha hst hty
  obtain ⟨g₀, a₀, hc₀, ha₀, hside₀⟩ := side_eq_some.mp hside
  have hkeep : ∀ {v : World}, v.store = st → v.side s.c s.start = some side := by
    intro v hv
    have htyped : w.store.type s.c ≠ none := by
      rw [hc₀]
      exact Option.some_ne_none g₀
    refine side_eq_some.mpr ⟨g₀, a₀, ?_, ?_, ?_⟩
    · rw [hv, type_of_allocated hall htyped, hc₀]
    · rw [hv, hall.archetype, ha₀]
    · rw [hv, hall.ct _ htyped]
      exact hside₀
  obtain ⟨gₛ, b, -, hb, hb'⟩ := side_eq_some.mp hside'
  have hlayout : Layout side'.a := by
    rw [hb']
    exact constructArchetype_layout (hwf.built gₛ b hb).2
  have hbehind : w₂.ents.size < 2 ^ 24 → ∀ i < t.start, ∀ x, Memory.Behind side' t.start x →
      sizeofEntity * (i + 1) ≤ x := by
    intro hsize i hi x hx
    have hsize' : w.ents.size < 2 ^ 24 := (newEntities_store hnew).2.trans_lt hsize
    obtain rfl : s = from_ := Option.some.inj ((hsrc hsize').symm.trans hfrom)
    obtain rfl : side = side' := Option.some.inj ((hkeep rfl).symm.trans hside')
    obtain ⟨k, hk, hx⟩ := hx
    exact (Nat.mul_le_mul_left _ hi).trans ((hclear k hk).trans hx)
  obtain ⟨h₂, hstore, hle, hkept⟩ := h.fill ha halloc hty
    (Memory.duplicate_writes hlayout hdup) hbehind hnew
  refine ⟨⟨h₂, ?_, hkeep hstore, fun hsize => ?_⟩, hstore, hbehind⟩
  · rw [hstore, hall.archetype]
    exact ha
  · have hold := hsrc (hle.trans_lt hsize)
    obtain ⟨hid, c, hc⟩ := asSlice_eq_some hold
    rw [asSlice_congr hle hid (hkept hsize _ hid c hc)]
    exact hold

/-- Between two turns of the loop of `instantiate_single`, `n` instances before its end. -/
structure Instantiating (ctx : Context) (src : Entity) (s : ChunkSlice) (side : Memory.CastSide)
    (g : ArchetypeId) (a : Archetype) (n : Nat) (w : World) : Prop where
  sound : Sound ctx nowhere w
  target : w.store.archetype g = some a
  kept : w.side s.c s.start = some side
  source : w.ents.size < 2 ^ 24 → w.asSlice src = some s
  clear : ∀ t, Handed g w.store n t → Clear side t.start

/-- A turn of the loop that stays clear of the handles. -/
theorem Instantiating.turn {src : Entity} {s t from_ : ChunkSlice} {side side' : Memory.CastSide}
    {n : Nat} {w₁ w₂ : World} {g' : ArchetypeId} {a' : Archetype} {mm : Memory}
    (h : Instantiating ctx src s side g a n w) (hn : 0 < n)
    (halloc : w.allocateSlice g n = some (w₁, t)) (hfrom : w₁.asSlice src = some from_)
    (hside' : w₁.side from_.c from_.start = some side')
    (harch : w₁.archetypeOf t.c = some (g', a'))
    (hdup : w₁.memory.duplicate ctx a' t side' = some mm)
    (hnew : { w₁ with memory := mm }.newEntities t = some w₂) :
    Instantiating ctx src s side g a (n - t.count) w₂ ∧
      (w₂.ents.size < 2 ^ 24 → ∀ i < t.start, ∀ x, Memory.Behind side' t.start x →
        sizeofEntity * (i + 1) ≤ x) := by
  obtain ⟨hsound, ha, hside, hsrc, hclear⟩ := h
  have hsourced : Sourced ctx src s side g a w := ⟨hsound, ha, hside, hsrc⟩
  obtain ⟨st, hst, hw₁⟩ := allocateSlice_eq_some.mp halloc
  obtain ⟨⟨h₂, ha₂, hside₂, hsrc₂⟩, hstore, hbehind⟩ :=
    hsourced.turn (hclear t (.now hn hst)) halloc hfrom hside' harch hdup hnew
  refine ⟨⟨h₂, ha₂, hside₂, hsrc₂, fun t' ht' => ?_⟩, hbehind⟩
  rw [hstore, hw₁] at ht'
  exact hclear t' (.later hn hst ht')

/-- The loop of `instantiate_single`. -/
theorem Instantiating.instantiateLoop {src : Entity} {s : ChunkSlice} {side : Memory.CastSide}
    {fuel n : Nat} {ss : List ChunkSlice} (h : Instantiating ctx src s side g a n w)
    (hs : World.instantiateLoop ctx src g fuel n w = some (w', ss)) :
    ∃ m, Instantiating ctx src s side g a m w' :=
  instantiateLoop_invariant (fun _ _ _ _ _ _ _ _ _ _ h hn halloc hfrom hside harch hdup hnew =>
    (h.turn hn halloc hfrom hside harch hdup hnew).1) h hs

/-- `get_casted`. -/
theorem Sound.getCasted {diff : TypeDiff} {inst : Bool} {target : Option ArchetypeId}
    (h : Sound ctx nowhere w) (hs : w.getCasted ctx a diff inst = some (w', target)) :
    Sound ctx nowhere w' ∧ Store.Extended w.store w'.store ∧ w'.ents = w.ents ∧
      w'.memory = w.memory ∧ ∀ g, target = some g → ∃ b, w'.store.archetype g = some b := by
  rcases getCasted_cases hs with ⟨rfl, rfl, -⟩ | ⟨g, rfl, hget, -⟩
  · exact ⟨h, ⟨rfl, rfl, rfl, rfl, fun _ _ => id⟩, rfl, rfl, by simp⟩
  · obtain ⟨h₁, hext, hents, hmem, b, hb, -⟩ := h.getArchetype hget
    refine ⟨h₁, hext, hents, hmem, ?_⟩
    intro g' hg'
    exact ⟨b, Option.some.inj hg' ▸ hb⟩

/-- `instantiate` of an entity that is no group is one call of the loop. -/
theorem instantiate_cases {src : Entity} {count fuel : Nat} {ss : List ChunkSlice}
    (h : Sound ctx nowhere w) (hgroup : w.getComponentRo src ctx.groupId = some none)
    (hclear : w.ClearOfHandles ctx src count)
    (hs : w.instantiate ctx fuel src count = some (w', ss)) :
    ∃ w₁, Sound ctx nowhere w₁ ∧ (∃ a target, w.getCasted ctx a {} true = some (w₁, target)) ∧
      (w' = w₁ ∨ ∃ s side g b,
        Instantiating ctx src s side g b count w₁ ∧
          World.instantiateLoop ctx src g fuel count w₁ = some (w', ss)) := by
  simp only [World.instantiate, hgroup, Option.bind_eq_bind, Option.bind_some,
    World.instantiateSingle, Option.bind_eq_some_iff] at hs
  obtain ⟨s, hsrc, ⟨g₀, a₀⟩, harch, ⟨w₁, target⟩, hcasted, hs⟩ := hs
  obtain ⟨hc₀, ha₀⟩ := archetypeOf_eq_some.mp harch
  obtain ⟨h₁, hext, hents, -, htarget⟩ := h.getCasted hcasted
  refine ⟨w₁, h₁, ⟨a₀, target, hcasted⟩, ?_⟩
  cases target with
  | none =>
      simp only at hs
      split_ifs at hs
      obtain ⟨rfl, -⟩ := Prod.mk.inj (Option.some.inj hs)
      exact Or.inl rfl
  | some g =>
      obtain ⟨b, hb⟩ := htarget g rfl
      have hside : w.side s.c s.start =
          some { c := s.c, a := a₀, ct := w.store.ct s.c, start := s.start } :=
        side_eq_some.mpr ⟨g₀, a₀, hc₀, ha₀, rfl⟩
      have hside₁ : w₁.side s.c s.start =
          some { c := s.c, a := a₀, ct := w.store.ct s.c, start := s.start } :=
        side_eq_some.mpr ⟨g₀, a₀, hext.type ▸ hc₀, hext.archetype _ _ ha₀, hext.ct ▸ rfl⟩
      refine Or.inr ⟨s, _, g, b, ⟨h₁, hb, hside₁, fun _ => ?_, fun t ht =>
        hclear s _ w₁ g t hsrc hside hcasted ht⟩, hs⟩
      simp only [World.asSlice, World.entrySlice, hents]
      exact hsrc

theorem Sound.instantiate {src : Entity} {count fuel : Nat} {ss : List ChunkSlice}
    (h : Sound ctx nowhere w) (hgroup : w.getComponentRo src ctx.groupId = some none)
    (hclear : w.ClearOfHandles ctx src count)
    (hs : w.instantiate ctx fuel src count = some (w', ss)) : Sound ctx nowhere w' := by
  obtain ⟨w₁, h₁, -, rfl | ⟨s, side, g, b, hstart, hloop⟩⟩ :=
    instantiate_cases h hgroup hclear hs
  · exact h₁
  · obtain ⟨m, hend⟩ := hstart.instantiateLoop hloop
    exact hend.sound

/-! ## Runs -/

theorem Sound.query {f : ArchetypeFilter} {q : QueryCache} (h : Sound ctx nowhere w)
    (hs : w.query ctx f = some (w', q)) : Sound ctx nowhere w' := by
  obtain ⟨queries, rfl⟩ := query_eq_some hs
  exact h.congr ⟨rfl, rfl, rfl, rfl, rfl, rfl, rfl, rfl, rfl, rfl, rfl⟩

theorem sound_initial (ctx : Context) (timestamp : Nat) (raw : Nat → Nat) (data : ChunkId → Mem)
    (guids : Nat → List UInt8) : Sound ctx nowhere (initial timestamp raw data guids) where
  wf := Store.wf_initial ctx timestamp raw data guids
  tracks _ :=
    { entry := fun _ _ hi => absurd rfl hi.1.1
      slot_lt := fun _ _ hi => absurd rfl hi.1.1
      freeList := ⟨[], rfl, by simp⟩
      version := by simp [World.initial] }

end World

/-- The calls are about entities and slices without the group component. -/
def Op.NoGroup (ctx : Context) (w : World) : Op → Prop
  | .instantiate src _ => w.getComponentRo src ctx.groupId = some none
  | .destroy s => ∀ g a, w.archetypeOf s.c = some (g, a) → a.index ctx.groupId = invalidIndex
  | _ => True

/-- `instantiate` writes no component over a handle. -/
def Op.ClearOfHandles (ctx : Context) (w : World) : Op → Prop
  | .instantiate src count => w.ClearOfHandles ctx src count
  | _ => True

namespace World

variable {ctx : Context} {w w' : World}

theorem noGroup_destroy {s : ChunkSlice} {g : ArchetypeId} (htype : w.store.type s.c = some g)
    (hgroup : (w.store.archetype g).map (fun a => a.index ctx.groupId) = some invalidIndex) :
    Op.NoGroup ctx w (.destroy s) := by
  intro g' a harch
  obtain ⟨hc, ha⟩ := archetypeOf_eq_some.mp harch
  obtain rfl : g' = g := Option.some.inj (hc.symm.trans htype)
  rw [ha] at hgroup
  exact Option.some.inj hgroup

/-- Every call keeps handles, table and free list in agreement. -/
theorem Sound.step (hctx : ctx.Built) {op : Op} {fuel : Nat} (h : Sound ctx nowhere w)
    (hv : op.Valid w) (hgroup : op.NoGroup ctx w) (hclear : op.ClearOfHandles ctx w)
    (hs : op.run ctx fuel w = some w') : Sound ctx nowhere w' := by
  have hm : ctx.maskId < 3 * 2 ^ 30 := by
    rw [hctx.ids.2.2.2]
    decide
  cases op with
  | allocate type count =>
      obtain ⟨⟨_, ss⟩, hrun, rfl⟩ := Option.map_eq_some_iff.mp hs
      simp only [World.allocate, Option.bind_eq_bind, Option.bind_eq_some_iff] at hrun
      obtain ⟨⟨w₁, g⟩, hget, hrun⟩ := hrun
      obtain ⟨h₁, -, -, -, a, ha, -⟩ := h.getArchetype hget
      exact h₁.allocateLoop hm ha hrun
  | instantiate src count =>
      obtain ⟨⟨_, ss⟩, hrun, rfl⟩ := Option.map_eq_some_iff.mp hs
      exact h.instantiate hgroup hclear hrun
  | destroy s =>
      cases fuel with
      | zero => simp [Op.run, World.destroy] at hs
      | succ fuel =>
          simp only [Op.run, World.destroy, Option.bind_eq_bind, Option.bind_eq_some_iff] at hs
          obtain ⟨⟨g, a⟩, harch, hs⟩ := hs
          rw [if_pos (hgroup g a harch), Option.bind_some] at hs
          exact h.destroySingle hctx hv hs
  | cast s diff =>
      obtain ⟨⟨_, ss⟩, hrun, rfl⟩ := Option.map_eq_some_iff.mp hs
      simp only [World.cast, Option.bind_eq_bind, Option.bind_eq_some_iff] at hrun
      obtain ⟨⟨g, a⟩, harch, ⟨w₁, target⟩, hcasted, hrun⟩ := hrun
      obtain ⟨h₁, hext, -⟩ := h.getCasted hcasted
      exact h₁.castTo hctx (hv.extend hext) hrun
  | castType s type =>
      obtain ⟨⟨_, ss⟩, hrun, rfl⟩ := Option.map_eq_some_iff.mp hs
      simp only [World.castType, Option.bind_eq_bind, Option.bind_eq_some_iff] at hrun
      obtain ⟨⟨w₁, g⟩, hget, hrun⟩ := hrun
      obtain ⟨h₁, hext, -⟩ := h.getArchetype hget
      exact h₁.castTo hctx (hv.extend hext) hrun
  | getArchetype type =>
      obtain ⟨⟨_, g⟩, hrun, rfl⟩ := Option.map_eq_some_iff.mp hs
      exact (h.getArchetype hrun).1
  | query f =>
      obtain ⟨⟨_, q⟩, hrun, rfl⟩ := Option.map_eq_some_iff.mp hs
      exact h.query hrun
  | write memory =>
      obtain rfl := Option.some.inj hs
      exact ⟨h.wf, fun hsize => (h.tracks hsize).memory fun c i hi => hv c i hi.1⟩

/-- `e` is alive, in slot `i` of chunk `c`. -/
def At (w : World) (e : Entity) (c : ChunkId) (i : Nat) : Prop :=
  w.ents.exist e = true ∧ (w.ents.datas e.id).c = .chunk c ∧ (w.ents.datas e.id).i = i

/-- Handles, entity table and free list agree. -/
structure Located (w : World) : Prop where
  entry : ∀ c i, w.store.Occupied c i → w.ents.datas (w.memory.entityAt c i).id =
    { c := .chunk c, i := i, v := (w.memory.entityAt c i).version }
  unique : ∀ c i d j, w.store.Occupied c i → w.store.Occupied d j →
    (w.memory.entityAt c i).id = (w.memory.entityAt d j).id → c = d ∧ i = j
  notFree : ∀ c i, w.store.Occupied c i → ¬ w.ents.OnFreeList (w.memory.entityAt c i).id

/-- In every world reached by calls that write no component over a handle, with fewer
than 2^24 ids issued, all handles are where the table says. -/
theorem located_of_reachable (hctx : ctx.Built)
    (h : Reachable ctx (fun w op => op.NoGroup ctx w ∧ op.ClearOfHandles ctx w) w)
    (hsize : w.ents.size < 2 ^ 24) : w.Located := by
  have hsound : Sound ctx nowhere w := by
    refine h.invariant (sound_initial ctx) ?_
    intro w op fuel w' hv hp hs hw
    exact hw.step hctx hv hp.1 hp.2 hs
  have htracks := hsound.tracks hsize
  exact
    { entry := fun c i hi => (htracks.entry c i ⟨hi, not_false⟩).2
      unique := fun c i d j hi hj => htracks.unique ⟨hi, not_false⟩ ⟨hj, not_false⟩
      notFree := fun c i hi => htracks.not_onFreeList ⟨hi, not_false⟩ }

/-- A registry of a one-byte component and a wide one. -/
def narrowWide : Context :=
  (((Context.initial false).registerType { guid := 10, size := 1, alignment := 1 }).1.registerType
    { guid := 11, size := 400, alignment := 4 }).1

theorem built_narrowWide : narrowWide.Built := .register (.register (.initial false) _) _

/-- Two entities, which fill a small chunk, and five in a fast one. -/
def smallThenFast : Option World :=
  runAll narrowWide 2 blank
    [.allocate { types := [4, 5] } 2, .allocate { types := [4, 5] } 5]

theorem reachable_smallThenFast {P : World → Op → Prop}
    (hP : ∀ w type count, P w (.allocate type count)) :
    ∃ w, smallThenFast = some w ∧ Reachable narrowWide P w := by
  have hsome : smallThenFast.isSome = true := by decide +kernel
  obtain ⟨w, hw⟩ := Option.isSome_iff_exists.mp hsome
  refine ⟨w, hw, (reachable_blank narrowWide P).runAll ?_ hw⟩
  intro op hop v
  rcases List.mem_pair.mp hop with rfl | rfl
  · exact ⟨trivial, hP ..⟩
  · exact ⟨trivial, hP ..⟩

/-- A column of at least four bytes a slot grows no slower than the handles. -/
theorem clear_of_wide {side : Memory.CastSide} (slot : Nat)
    (h : ∀ i < side.a.firstTag, sizeofEntity ≤ side.a.size i) : Clear side slot := by
  intro i hi
  have hle : sizeofEntity * slot ≤ side.a.size i * slot := Nat.mul_le_mul_right slot (h i hi)
  rw [Archetype.address]
  omega

/-- Two entities with the wide component fill a small chunk, and two instances of the first one go
to a new chunk. -/
theorem located_wideInstances : ∃ w w',
    runAll narrowWide 3 blank [.allocate { types := [5] } 2] = some w ∧
    Op.run narrowWide 3 w (.instantiate ⟨0⟩ 2) = some w' ∧ w'.store.count 1 = 2 ∧ w'.Located := by
  have hsome : ((runAll narrowWide 3 blank [.allocate { types := [5] } 2]).bind fun w =>
      (Op.run narrowWide 3 w (.instantiate ⟨0⟩ 2)).bind fun w' =>
      (w.asSlice ⟨0⟩).bind fun s => (w.side s.c s.start).map fun side =>
        (decide (w.getComponentRo ⟨0⟩ narrowWide.groupId = some none),
          [w'.ents.size, w'.store.count 1, side.a.firstTag, side.a.size 0])) =
      some (true, [4, 2, 1, 400]) := by decide +kernel
  obtain ⟨w, hw, hsome⟩ := Option.bind_eq_some_iff.mp hsome
  obtain ⟨w', hw', hsome⟩ := Option.bind_eq_some_iff.mp hsome
  obtain ⟨s, hslice, hsome⟩ := Option.bind_eq_some_iff.mp hsome
  obtain ⟨side, hside, hfacts⟩ := Option.map_eq_some_iff.mp hsome
  simp only [Prod.mk.injEq, List.cons.injEq, and_true, decide_eq_true_eq] at hfacts
  obtain ⟨hgroup, hsize, hcount, htag, hwide⟩ := hfacts
  have hreach : Reachable narrowWide
      (fun w op => op.NoGroup narrowWide w ∧ op.ClearOfHandles narrowWide w) w := by
    refine (reachable_blank narrowWide _).runAll (fun op hop v => ?_) hw
    rw [List.mem_singleton.mp hop]
    exact ⟨trivial, trivial, trivial⟩
  have hclear : w.ClearOfHandles narrowWide ⟨0⟩ 2 := by
    intro s' side' w₁ g t hs hside' _ _
    obtain rfl := Option.some.inj (hslice.symm.trans hs)
    obtain rfl := Option.some.inj (hside.symm.trans hside')
    refine clear_of_wide t.start fun i hi => ?_
    obtain rfl : i = 0 := by omega
    rw [hwide]
    decide
  refine ⟨w, w', hw, hw', hcount, located_of_reachable built_narrowWide
    (hreach.step (.instantiate ⟨0⟩ 2) trivial ⟨hgroup, hclear⟩ hw') ?_⟩
  rw [hsize]
  decide

/-- An instance of an entity of the small chunk goes to the fast one, where the
one-byte column of the small layout lies over the handles. -/
theorem not_located_instantiate : ∃ w w', smallThenFast = some w ∧
    Op.run narrowWide 2 w (.instantiate ⟨0⟩ 1) = some w' ∧
    Reachable narrowWide (fun w op => op.NoGroup narrowWide w) w' ∧ w'.ents.size < 2 ^ 24 ∧
    (∀ g ∈ w'.store.archetypes, ∃ a, w'.store.archetype g = some a ∧
      a.index narrowWide.groupId = invalidIndex ∧ ∀ ct, 0 < a.chunkCapacity ct) ∧
    ¬ w'.Located := by
  obtain ⟨w, hw, hreach⟩ := reachable_smallThenFast (P := fun w op => op.NoGroup narrowWide w)
    fun _ _ _ => trivial
  have hgroup : smallThenFast.bind (fun w => w.getComponentRo ⟨0⟩ narrowWide.groupId) =
      some none := by decide +kernel
  have hsome : (smallThenFast.bind fun w =>
      Op.run narrowWide 2 w (.instantiate ⟨0⟩ 1)).isSome = true := by decide +kernel
  have hfacts : (smallThenFast.bind fun w => Op.run narrowWide 2 w (.instantiate ⟨0⟩ 1)).map
      (fun w => (w.ents.size, w.store.archetypes, w.store.type 1, w.store.count 1,
        (w.memory.entityAt 1 3).value, (w.ents.datas 0).c)) =
      some (8, [0], some 0, 6, 0, .chunk 0) := by decide +kernel
  have harch : ((smallThenFast.bind fun w => Op.run narrowWide 2 w (.instantiate ⟨0⟩ 1)).bind
      fun w => w.store.archetype 0).map (fun a => (a.index narrowWide.groupId,
        a.chunkCapacity .smallbin, a.chunkCapacity .fastbin, a.chunkCapacity .largebin)) =
      some (invalidIndex, 2, 161, 2588) := by decide +kernel
  rw [hw, Option.bind_some] at hgroup hsome hfacts harch
  obtain ⟨w', hw'⟩ := Option.isSome_iff_exists.mp hsome
  rw [hw', Option.map_some, Option.some.injEq] at hfacts
  simp only [Prod.mk.injEq] at hfacts
  obtain ⟨hsize, harchs, htype, hcount, hentity, hdata⟩ := hfacts
  refine ⟨w, w', hw, hw', hreach.step (.instantiate ..) trivial hgroup hw', by omega, ?_,
    fun hloc => ?_⟩
  · intro g hg
    obtain rfl : g = 0 := by simpa [harchs] using hg
    rw [hw', Option.bind_some] at harch
    obtain ⟨a, ha, hcaps⟩ := Option.map_eq_some_iff.mp harch
    simp only [Prod.mk.injEq] at hcaps
    refine ⟨a, ha, hcaps.1, fun ct => ?_⟩
    cases ct <;> omega
  · have hentry := hloc.entry 1 3 ⟨by simp [htype], by omega⟩
    have hzero : (w'.memory.entityAt 1 3).id = 0 := by simp [Entity.id, hentity]
    rw [hzero] at hentry
    simp [hentry] at hdata

end World

end Dots

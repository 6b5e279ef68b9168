import Dots.Database.LifeCycle
import Dots.Database.Masks

/-!
# One new entity

`allocate` and `instantiate` report the slices they filled. Where these hold one handle, the
call made that entity and no other.
-/

namespace Dots

open Library Entities

namespace World

variable {ctx : Context} {w w₁ w₂ w' : World} {g h : ArchetypeId} {a b : Archetype}
  {c d : ChunkId} {i j n fuel : Nat} {s : ChunkSlice} {ss : List ChunkSlice} {e : Entity}

/-! ## The slices of a loop -/

/-- `ss` are the `n` slots that were taken since `w`, in chunks of `g`. -/
structure Took (g : ArchetypeId) (n : Nat) (w : World) (ss : List ChunkSlice) (w' : World) :
    Prop where
  total : (ss.map ChunkSlice.count).sum = n
  archetype : w'.store.archetype = w.store.archetype
  typed : ∀ d, w.store.type d ≠ none → w'.store.type d = w.store.type d
  occupied : ∀ d j, w'.store.Occupied d j ↔ w.store.Occupied d j ∨ ∃ s ∈ ss, Slots.of s d j
  fresh : ∀ s ∈ ss, ∀ d j, Slots.of s d j → ¬ w.store.Occupied d j
  target : ∀ s ∈ ss, w'.store.type s.c = some g

theorem Took.nil (g : ArchetypeId) (w : World) : Took g 0 w [] w where
  total := rfl
  archetype := rfl
  typed _ _ := rfl
  occupied := by simp
  fresh := by simp
  target := by simp

/-- A turn, and the turns after it. -/
theorem Took.cons (hall : Store.Allocated w.store w₁.store g a s n)
    (h : Took g (n - s.count) w₁ ss w') : Took g n w (s :: ss) w' := by
  have hs : w₁.store.type s.c = some g := by rw [hall.type, Function.update_self]
  constructor
  · rw [List.map_cons, List.sum_cons, h.total, Nat.add_sub_cancel' hall.count_le]
  · exact h.archetype.trans hall.archetype
  · intro d hd
    have hd₁ := type_of_allocated hall hd
    rw [h.typed d (hd₁ ▸ hd), hd₁]
  · intro d j
    rw [h.occupied, occupied_of_allocated hall, or_assoc, List.exists_mem_cons_iff]
  · intro t ht d j hj hold
    rcases List.mem_cons.mp ht with rfl | ht
    · obtain ⟨rfl, hlo, -⟩ := hj
      have hlt := (occupied_iff_lt_start hall j).mp hold
      omega
    · exact h.fresh t ht d j hj ((occupied_of_allocated hall d j).mpr (Or.inl hold))
  · intro t ht
    rcases List.mem_cons.mp ht with rfl | ht
    · rw [h.typed t.c (by simp [hs]), hs]
    · exact h.target t ht

theorem took_turn (hl : w.store.Listed ctx) (ha : w.store.archetype g = some a)
    (halloc : w.allocateSlice g n = some (w₁, s)) (htype : w₁.store.type s.c ≠ none)
    (hstore : w₂.store = w₁.store) :
    w₂.store.Listed ctx ∧ Store.Allocated w.store w₂.store g a s n := by
  obtain ⟨st, hst, rfl⟩ := allocateSlice_eq_some.mp halloc
  obtain ⟨hl', hall⟩ := hl.allocateSlice ha hst htype
  exact ⟨hstore ▸ hl', hstore ▸ hall⟩

theorem took_allocateLoop (hl : w.store.Listed ctx) (ha : w.store.archetype g = some a)
    (hs : allocateLoop ctx g fuel n w = some (w', ss)) : Took g n w ss w' := by
  induction fuel generalizing n w ss with
  | zero => simp [allocateLoop] at hs
  | succ fuel ih =>
      rw [allocateLoop] at hs
      split_ifs at hs with hn
      · simp only [Option.bind_eq_bind, Option.bind_eq_some_iff] at hs
        obtain ⟨⟨w₁, s⟩, halloc, ⟨g', a'⟩, harch, w₂, hnew, ⟨w₃, ss'⟩, hloop, hs⟩ := hs
        obtain ⟨rfl, rfl⟩ := Prod.mk.inj (Option.some.inj hs)
        have harch : w₁.archetypeOf s.c = some (g', a') := harch
        have htype : w₁.store.type s.c ≠ none := by
          rw [(archetypeOf_eq_some.mp harch).1]
          exact Option.some_ne_none g'
        obtain ⟨hl', hall⟩ := took_turn hl ha halloc htype (newEntities_store hnew).1
        exact .cons hall (ih hl' (hall.archetype ▸ ha) hloop)
      · obtain ⟨rfl, rfl⟩ := Prod.mk.inj (Option.some.inj hs)
        obtain rfl : n = 0 := by omega
        exact .nil g w

theorem took_instantiateLoop {src : Entity} (hl : w.store.Listed ctx)
    (ha : w.store.archetype g = some a)
    (hs : instantiateLoop ctx src g fuel n w = some (w', ss)) : Took g n w ss w' := by
  induction fuel generalizing n w ss with
  | zero => simp [instantiateLoop] at hs
  | succ fuel ih =>
      rw [instantiateLoop] at hs
      split_ifs at hs with hn
      · simp only [Option.bind_eq_bind, Option.bind_eq_some_iff] at hs
        obtain ⟨⟨w₁, s⟩, halloc, from_, -, side, -, ⟨g', a'⟩, harch, mm, -, w₂, hnew,
          ⟨w₃, ss'⟩, hloop, hs⟩ := hs
        obtain ⟨rfl, rfl⟩ := Prod.mk.inj (Option.some.inj hs)
        have harch : w₁.archetypeOf s.c = some (g', a') := harch
        have htype : w₁.store.type s.c ≠ none := by
          rw [(archetypeOf_eq_some.mp harch).1]
          exact Option.some_ne_none g'
        obtain ⟨hl', hall⟩ := took_turn hl ha halloc htype (newEntities_store hnew).1
        exact .cons hall (ih hl' (hall.archetype ▸ ha) hloop)
      · obtain ⟨rfl, rfl⟩ := Prod.mk.inj (Option.some.inj hs)
        obtain rfl : n = 0 := by omega
        exact .nil g w

theorem Took.length (h : Took g n w ss w') : (ss.flatMap w'.handles).length = n := by
  have hlength : (fun s => (w'.handles s).length) = ChunkSlice.count := by
    funext s
    simp [World.handles]
  rw [List.length_flatMap, hlength, h.total]

/-! ## The entity of the slices -/

/-- `e` was made, with the given type, and nothing else. -/
structure Born (w : World) (e : Entity) (type : EntityType) (w' : World) : Prop where
  lives : ∃ a, a.type = type ∧ w'.Lives e a
  new : ¬ w.Alive e
  only : ∀ e', w'.Alive e' → w.Alive e' ∨ e' = e
  stays : ∀ e' a, w.Lives e' a → w'.Lives e' a
  alive : ∀ e', w.Alive e' → w'.Alive e'

theorem Born.of_took {type : EntityType} (hw : Orderly ctx w) (hw' : Orderly ctx w')
    (hsize : w'.ents.size < 2 ^ 24) (htook : Took g 1 w₁ ss w')
    (hocc : ∀ c i, w₁.store.Occupied c i ↔ w.store.Occupied c i)
    (ha : w₁.store.archetype g = some a) (htype : a.type = type)
    (hkept : ∀ c i h b, w.archetypeOf c = some (h, b) → w.store.Occupied c i →
      w'.store.Occupied c i ∧ Carried noColumn h b w c i w' c i) :
    ∃ e, ss.flatMap w'.handles = [e] ∧ Born w e type w' := by
  obtain ⟨e, hone⟩ := List.length_eq_one_iff.mp htook.length
  refine ⟨e, hone, ?_⟩
  have harch : ∀ c i, w.store.Occupied c i → ∃ h b, w.archetypeOf c = some (h, b) := by
    intro c i hi
    obtain ⟨h, hc⟩ := Option.ne_none_iff_exists'.mp hi.1
    obtain ⟨b, hb⟩ := hw.listed.alive c h hc
    exact ⟨h, b, archetypeOf_eq_some.mpr ⟨hc, hb⟩⟩
  obtain ⟨s, hs, he⟩ : ∃ s ∈ ss, e ∈ w'.handles s :=
    List.mem_flatMap.mp (hone ▸ List.mem_singleton_self e)
  obtain ⟨j, hj, hhandle⟩ := mem_handles.mp he
  have hslot : Slots.of s s.c (s.start + j) := ⟨rfl, by omega, by omega⟩
  have hnow : w'.store.Occupied s.c (s.start + j) :=
    (htook.occupied _ _).mpr (Or.inr ⟨s, hs, hslot⟩)
  have hfound := hw'.sound.found hnow
  rw [hhandle] at hfound
  constructor
  · exact ⟨a, htype, s.c, s.start + j, g, hfound,
      archetypeOf_eq_some.mpr ⟨htook.target s hs, htook.archetype ▸ ha⟩⟩
  · -- it would still be in its old slot
    rintro ⟨c, i, hf⟩
    obtain ⟨h, b, hb⟩ := harch c i hf.occupied
    obtain ⟨hi, hcar⟩ := hkept c i h b hb hf.occupied
    obtain ⟨rfl, rfl⟩ := hw'.unique hsize hi hnow ((hcar.handle.trans hf.handle).trans hhandle.symm)
    exact htook.fresh s hs _ _ hslot ((hocc _ _).mpr hf.occupied)
  · rintro e' ⟨c, i, hf⟩
    rcases (htook.occupied c i).mp hf.occupied with hold | ⟨t, ht, hin⟩
    · have hi := (hocc c i).mp hold
      obtain ⟨h, b, hb⟩ := harch c i hi
      obtain ⟨-, hcar⟩ := hkept c i h b hb hi
      have hfound' := hw.sound.found hi
      rw [← hcar.handle, hf.handle] at hfound'
      exact Or.inl ⟨c, i, hfound'⟩
    · obtain ⟨rfl, hlo, hhi⟩ := hin
      have hmem : e' ∈ ss.flatMap w'.handles := by
        refine List.mem_flatMap.mpr ⟨t, ht, mem_handles.mpr ⟨i - t.start, by omega, ?_⟩⟩
        rw [Nat.add_sub_cancel' hlo]
        exact hf.handle
      rw [hone] at hmem
      exact Or.inr (List.mem_singleton.mp hmem)
  · rintro e' b ⟨c, i, h, hf, hb⟩
    obtain ⟨hi, hcar⟩ := hkept c i h b hb hf.occupied
    exact ⟨c, i, h, hcar.found hw' hf hi, hcar.after⟩
  · rintro e' ⟨c, i, hf⟩
    obtain ⟨h, b, hb⟩ := harch c i hf.occupied
    obtain ⟨hi, hcar⟩ := hkept c i h b hb hf.occupied
    exact ⟨c, i, hcar.found hw' hf hi⟩

/-- `allocate(type, 1)`. -/
theorem born_allocate (hctx : ctx.Built) (hreg : ctx.tracks.length < 2 ^ 30) {type : EntityType}
    (hw : Orderly ctx w) (hkey : SortedTypes type.types)
    (hs : w.allocate ctx fuel type 1 = some (w', ss)) (hsize : w'.ents.size < 2 ^ 24) :
    Orderly ctx w' ∧ ∃ e, ss.flatMap w'.handles = [e] ∧ Born w e type w' := by
  have hv : (Op.allocate type 1).Valid w := trivial
  have hp : (Op.allocate type 1).Orderly ctx w := ⟨trivial, trivial, trivial, hkey⟩
  have hrun : (Op.allocate type 1).run ctx fuel w = some w' := by
    simp only [Op.run, hs, Option.map_some]
  have hw' := hw.step hctx hreg hv hp hrun
  refine ⟨hw', ?_⟩
  have hkept := fun c i h b hb hi => allocate_keeps (c := c) (i := i) (h := h) (b := b) hctx
    hw.listed hs hb hi
  simp only [World.allocate, Option.bind_eq_bind, Option.bind_eq_some_iff] at hs
  obtain ⟨⟨w₁, g⟩, hget, hs⟩ := hs
  obtain ⟨-, hext, -, -, a, ha, htype⟩ := hw.sound.getArchetype hget
  obtain ⟨st, hst, rfl⟩ := getArchetype_eq_some hget
  have htook := took_allocateLoop (hw.listed.getArchetype hst).1 ha hs
  refine Born.of_took hw hw' hsize htook (occupied_congr hext.type hext.count) ha htype ?_
  intro c i h b hb hi
  obtain ⟨_, -, hocc, hcar⟩ := hkept c i h b hb hi
  exact ⟨hocc, hcar.mono fun _ => False.elim⟩

/-- `instantiate(src, 1)`, for a source without a group. -/
theorem born_instantiate (hctx : ctx.Built) (hreg : ctx.tracks.length < 2 ^ 30) {src : Entity}
    (hw : Orderly ctx w) (hp : (Op.instantiate src 1).Orderly ctx w)
    (hs : w.instantiate ctx fuel src 1 = some (w', ss)) (hsize : w'.ents.size < 2 ^ 24) :
    Orderly ctx w' ∧ ∃ s g a e, w.asSlice src = some s ∧ w.archetypeOf s.c = some (g, a) ∧
      ss.flatMap w'.handles = [e] ∧ Born w e (castedType ctx a {} true) w' := by
  have hv : (Op.instantiate src 1).Valid w := trivial
  have hrun : (Op.instantiate src 1).run ctx fuel w = some w' := by
    simp only [Op.run, hs, Option.map_some]
  have hw' := hw.step hctx hreg hv hp hrun
  refine ⟨hw', ?_⟩
  have hgroup : w.getComponentRo src ctx.groupId = some none := hp.noGroup
  have hkept := fun c i h b hb hi => instantiate_keeps (c := c) (i := i) (h := h) (b := b)
    hw.sound hw.listed hgroup hp.clear hs hsize hb hi
  simp only [World.instantiate, hgroup, Option.bind_eq_bind, Option.bind_some,
    World.instantiateSingle, Option.bind_eq_some_iff] at hs
  obtain ⟨s, hsrc, ⟨g₀, a₀⟩, harch, ⟨w₁, target⟩, hcasted, hs⟩ := hs
  have hl₁ : w₁.store.Listed ctx := (listed_grows ctx).getCasted hw.listed hcasted
  obtain ⟨-, hext, -, -, -⟩ := hw.sound.getCasted hcasted
  rcases getCasted_cases hcasted with ⟨rfl, -, -⟩ | ⟨g, rfl, hget, -⟩
  · simp at hs
  · obtain ⟨-, -, -, -, a, ha, htype⟩ := hw.sound.getArchetype hget
    have htook := took_instantiateLoop hl₁ ha hs
    obtain ⟨e, hone, hborn⟩ := Born.of_took hw hw' hsize htook
      (occupied_congr hext.type hext.count) ha htype
      fun c i h b hb hi => (hkept c i h b hb hi).imp_right fun hcar => hcar.mono fun _ => False.elim
    exact ⟨s, g₀, a₀, e, hsrc, harch, hone, hborn⟩

end World

end Dots

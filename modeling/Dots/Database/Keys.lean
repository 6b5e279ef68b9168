import Dots.Database.ChunkList
import Dots.Database.Columns
import Dots.Database.Consistency

/-!
# The types of archetypes are sets

Archetypes are built for keys that callers give, or that a call computes from the types
of an archetype. All of them stay sorted.
-/

namespace Dots

open Library

/-! ## Computed keys -/

section Types

variable {ctx : Context} {ts us : List TypeIndex}

theorem SortedTypes.sublist (h : SortedTypes ts) (hs : us.Sublist ts) : SortedTypes us where
  sorted := h.sorted.sublist hs
  lt t ht := h.lt t (hs.subset ht)

theorem SortedTypes.merge (ht : SortedTypes ts) (hu : SortedTypes us) :
    SortedTypes (Set.merge ts us) where
  sorted := Set.pairwise_merge le_of_lt le_trans ht.sorted hu.sorted
  lt t hmem := ((Set.mem_merge ts us t).mp hmem).elim (ht.lt t) (hu.lt t)

/-- A manually copied type becomes its twin. -/
theorem SortedTypes.twins (hreg : ctx.tracks.length < 2 ^ 30) (h : SortedTypes ts) :
    SortedTypes (ts.map fun t => if (ctx.track t).manualCopying then t + 1 else t) where
  sorted := by
    rw [List.pairwise_map]
    apply h.sorted.imp
    intro t u htu
    rcases htu.lt_or_eq with hlt | rfl
    · split_ifs
      · exact Nat.succ_le_succ htu
      · exact hlt
      · exact htu.trans (Nat.le_succ u)
      · exact htu
    · exact le_rfl
  lt := by
    intro t ht
    obtain ⟨u, hu, rfl⟩ := List.mem_map.mp ht
    have hlt := h.lt u hu
    split_ifs with hcopy
    · have hindex : u.index < ctx.tracks.length := by
        by_contra hge
        rw [Context.track, List.getD_eq_getElem?_getD, List.getElem?_eq_none (not_lt.mp hge)] at hcopy
        simp at hcopy
      have hplain : ∀ x n : Nat, x < 2 ^ 32 → x % 2 ^ 30 < n → n < 2 ^ 30 → x + 1 < 2 ^ 32 := by
        intro x n hx hn hn'
        omega
      exact hplain u _ hlt hindex hreg
    · exact hlt

theorem zipCopying_sublist (ctx : Context) : ∀ ts, (World.zipCopying ctx ts).Sublist ts
  | [] => List.Sublist.refl []
  | [t] => List.Sublist.refl [t]
  | t :: u :: ts => by
      rw [World.zipCopying]
      split_ifs
      · exact ((zipCopying_sublist ctx ts).cons u).cons_cons t
      · exact (zipCopying_sublist ctx (u :: ts)).cons_cons t

/-- What merging with the extension and leaving out types keep, `get_casted` keeps. -/
theorem castedType_types {P : List TypeIndex → Prop} {a : Archetype} {diff : TypeDiff} {inst : Bool}
    (ha : P a.types)
    (htwins : P (a.types.map fun t => if (ctx.track t).manualCopying then t + 1 else t) ∨
      inst = false)
    (hmerge : ∀ ts, P ts → P (Set.merge ts diff.extend.types))
    (hsub : ∀ ts us, P ts → us.Sublist ts → P us) :
    P (World.castedType ctx a diff inst).types := by
  have h₀ : P (if inst && a.withTracked then
      ({ a.type with types := a.type.types.map fun t =>
          if (ctx.track t).manualCopying then t + 1 else t } : EntityType) else a.type).types := by
    split_ifs with hinst
    · rcases htwins with h | rfl
      · exact h
      · simp at hinst
    · exact ha
  simp only [World.castedType]
  generalize (if inst && a.withTracked then
      ({ a.type with types := a.type.types.map fun t =>
          if (ctx.track t).manualCopying then t + 1 else t } : EntityType) else a.type) = key at h₀ ⊢
  have h₁ : P (if diff.extend ≠ EntityType.empty then key.merge diff.extend else key).types := by
    split_ifs
    · exact hmerge _ h₀
    · exact h₀
  revert h₁
  generalize (if diff.extend ≠ EntityType.empty then key.merge diff.extend else key) = key₁
  intro h₁
  have h₂ : P (if a.copying && decide (diff.extend ≠ EntityType.empty) then
      ({ key₁ with types := World.zipCopying ctx key₁.types } : EntityType) else key₁).types := by
    split_ifs
    · exact hsub _ _ h₁ (zipCopying_sublist ctx _)
    · exact h₁
  revert h₂
  generalize (if a.copying && decide (diff.extend ≠ EntityType.empty) then
      ({ key₁ with types := World.zipCopying ctx key₁.types } : EntityType) else key₁) = key₂
  intro h₂
  split_ifs
  · exact hsub _ _ h₂ (Set.substract_sublist _ _)
  · exact hsub _ _ h₂ (Set.substract_sublist _ _)
  · exact h₂

theorem SortedTypes.casted (hreg : ctx.tracks.length < 2 ^ 30) {a : Archetype} {diff : TypeDiff}
    {inst : Bool} (ha : SortedTypes a.types) (hext : SortedTypes diff.extend.types) :
    SortedTypes (World.castedType ctx a diff inst).types :=
  castedType_types ha (Or.inl (ha.twins hreg)) (fun _ h => h.merge hext) fun _ _ h => h.sublist

theorem SortedTypes.cleaning (hctx : ctx.Built) {a : Archetype} (ha : SortedTypes a.types) :
    SortedTypes (World.cleaningTypes ctx a) where
  sorted := List.pairwise_insertionSort (· ≤ ·) _
  lt t ht := by
    rw [World.cleaningTypes, (List.perm_insertionSort _ _).mem_iff] at ht
    rcases List.mem_cons.mp ht with rfl | ht
    · rw [hctx.ids.2.1]
      decide
    · exact ha.lt t (List.mem_filter.mp ht).1

end Types

/-! ## Archetypes of a store -/

namespace Store

variable {ctx : Context} {st st' st'' : Store} {g : ArchetypeId} {a : Archetype} {c : ChunkId}
  {ents : Entities} {n : Nat}

/-- `st'` has no archetype that `st` does not have. -/
def Older (st st' : Store) : Prop :=
  ∀ g a, st'.archetype g = some a → st.archetype g = some a

theorem Older.refl (st : Store) : Older st st := fun _ _ => id

theorem Older.trans (h : Older st st') (h' : Older st' st'') : Older st st'' :=
  fun g a ha => h g a (h' g a ha)

theorem Older.of_eq (h : st'.archetype = st.archetype) : Older st st' :=
  fun _ _ ha => h ▸ ha

theorem older_addChunk (hs : st.addChunk g c = some st') : Older st st' := by
  simp only [Store.addChunk, Option.bind_eq_bind, Option.bind_eq_some_iff] at hs
  obtain ⟨a, -, hs⟩ := hs
  obtain ⟨-, -, -, -, -, harch⟩ := splice_retyped hs
  exact Older.of_eq (harch.trans (structuralChange_shape st g a c).archetype)

theorem older_freeArchetype (hs : st.freeArchetype ents g a = some st') : Older st st' := by
  obtain ⟨st₁, hshape, rfl⟩ := freeArchetype_spec hs
  intro h b hb
  change Function.update st₁.archetype g none h = some b at hb
  rw [Function.update_apply] at hb
  split_ifs at hb
  exact hshape.archetype ▸ hb

theorem older_removeChunk (hs : st.removeChunk ents g c = some st') : Older st st' := by
  simp only [Store.removeChunk, Option.bind_eq_bind, Option.bind_eq_some_iff] at hs
  obtain ⟨a, -, hs⟩ := hs
  have hsame : (takeOut ((st.structuralChange g a c).subSize g (st.count c)) g c).archetype =
      st.archetype := (structuralChange_shape st g a c).archetype
  change (if (takeOut ((st.structuralChange g a c).subSize g (st.count c)) g c).firstChunk g = none
    then (takeOut ((st.structuralChange g a c).subSize g (st.count c)) g c).freeArchetype ents g a
    else some (takeOut ((st.structuralChange g a c).subSize g (st.count c)) g c)) = some st' at hs
  split_ifs at hs
  · exact (Older.of_eq hsame).trans (older_freeArchetype hs)
  · exact Older.of_eq (Option.some.inj hs ▸ hsame)

theorem older_resizeChunk (hs : st.resizeChunk ents c n = some st') : Older st st' := by
  simp only [Store.resizeChunk, Option.bind_eq_bind, Option.bind_eq_some_iff] at hs
  obtain ⟨g, -, a, -, hs⟩ := hs
  split_ifs at hs with hzero hfull hroom
  · exact older_removeChunk hs
  · apply Older.of_eq
    rw [← Option.some.inj hs]
    simp only [unmarkFree]
    split_ifs <;> rfl
  · exact Older.of_eq (Option.some.inj hs ▸ rfl)
  · exact Older.of_eq (Option.some.inj hs ▸ rfl)

theorem older_allocateSlice {s : ChunkSlice} (hs : st.allocateSlice ents g n = some (st', s)) :
    Older st st' := by
  simp only [Store.allocateSlice, Option.bind_eq_bind, Option.bind_eq_some_iff] at hs
  obtain ⟨a, ha, hs⟩ := hs
  have hlast : ∀ {st₁ : Store} {c : ChunkId} {m k : Nat}, Older st st₁ →
      ((st₁.structuralChange g a c).addSize g m).resizeChunk ents c k = some st' →
      Older st st' := by
    intro st₁ c m k h₁ hres
    refine h₁.trans (Older.trans (Older.of_eq ?_) (older_resizeChunk hres))
    exact (structuralChange_shape st₁ g a c).archetype
  cases hf : st.firstFree g with
  | some c =>
      simp only [hf, Option.bind_eq_some_iff, Option.some.injEq, Prod.mk.injEq] at hs
      obtain ⟨_, rfl, st₂, hres, rfl, -⟩ := hs
      exact hlast (Older.refl st) hres
  | none =>
      simp only [hf, Option.bind_eq_some_iff, Option.some.injEq, Prod.mk.injEq] at hs
      obtain ⟨⟨st₁, c⟩, hchunk, st₂, hres, rfl, -⟩ := hs
      simp only [Store.newChunk, ha, Option.bind_eq_bind, Option.bind_some,
        Option.bind_eq_some_iff, Option.some.injEq, Prod.mk.injEq] at hchunk
      obtain ⟨st₃, hadd, rfl, rfl⟩ := hchunk
      have hadd' := older_addChunk hadd
      exact hlast hadd' hres

/-- All archetypes are built for keys with `P`. -/
def KeysAre (P : EntityType → Prop) (st : Store) : Prop :=
  ∀ g a, st.archetype g = some a → P a.type

theorem KeysAre.older {P : EntityType → Prop} (h : st.KeysAre P) (hold : Older st st') :
    st'.KeysAre P :=
  fun g a ha => h g a (hold g a ha)

/-- All archetypes are built for sets. -/
def SortedKeys (st : Store) : Prop := ∀ g a, st.archetype g = some a → SortedTypes a.types

theorem SortedKeys.older (h : st.SortedKeys) (hold : Older st st') : st'.SortedKeys :=
  fun g a ha => h g a (hold g a ha)

/-- The only archetype `get_archetype` makes is the one of its key. -/
theorem archetype_of_getArchetype {key : EntityType} {g' : ArchetypeId} {b : Archetype}
    (hs : Store.getArchetype ctx st ents key = some (st', g)) (hb : st'.archetype g' = some b) :
    st.archetype g' = some b ∨ constructArchetype ctx key = some b := by
  unfold Store.getArchetype at hs
  cases hf : st.findArchetype key with
  | some g' =>
      simp only [hf, Option.some.injEq, Prod.mk.injEq] at hs
      exact Or.inl (hs.1 ▸ hb)
  | none =>
      simp only [hf, Option.bind_eq_bind, Option.bind_eq_some_iff, Option.some.injEq,
        Prod.mk.injEq, addArchetype] at hs
      obtain ⟨a, ha, st₂, ⟨st₁, hup, rfl⟩, rfl, rfl⟩ := hs
      change st₁.archetype g' = some b at hb
      rw [(updateQueries_shape hup).archetype, newArchetype_archetype] at hb
      split_ifs at hb
      · exact Or.inr (Option.some.inj hb ▸ ha)
      · exact Or.inl hb

/-- What `get_archetype` returned is found from then on. -/
theorem findArchetype_of_getArchetype {key : EntityType}
    (hs : Store.getArchetype ctx st ents key = some (st', g)) : st'.findArchetype key = some g := by
  unfold Store.getArchetype at hs
  cases hf : st.findArchetype key with
  | some g' =>
      simp only [hf, Option.some.injEq, Prod.mk.injEq] at hs
      obtain ⟨rfl, rfl⟩ := hs
      exact hf
  | none =>
      simp only [hf, Option.bind_eq_bind, Option.bind_eq_some_iff, Option.some.injEq,
        Prod.mk.injEq, addArchetype] at hs
      obtain ⟨a, ha, st₂, ⟨st₁, hup, rfl⟩, rfl, rfl⟩ := hs
      have harch : ∀ g, st₁.archetype g = if g = st.freshArchetype then some a else st.archetype g :=
        fun g => by rw [(updateQueries_shape hup).archetype, newArchetype_archetype]
      have hlist : st₁.archetypes = st.archetypes := by
        simp only [updateQueries, Option.bind_eq_bind, Option.bind_eq_some_iff,
          Option.some.injEq] at hup
        obtain ⟨type, -, rfl⟩ := hup
        rfl
      have hkey : a.type = key := constructArchetype_type ha
      -- an older entry has the key only if it is the new archetype
      simp only [findArchetype, List.find?_eq_none, decide_eq_true_eq] at hf
      simp only [findArchetype, hlist, List.find?_append, harch]
      cases hold : List.find? (fun g => decide (Option.map Archetype.type
          (if g = st.freshArchetype then some a else st.archetype g) = some key)) st.archetypes with
      | some g' =>
          have hg' := List.find?_some hold
          have hmem := List.mem_of_find?_eq_some hold
          by_cases heq : g' = st.freshArchetype
          · rw [heq]
            rfl
          · simp only [if_neg heq, decide_eq_true_eq] at hg'
            exact absurd hg' (hf g' hmem)
      | none => simp [newArchetype, hkey]

/-- `get_archetype` finds the key, or can build an archetype for it whose metatypes can
be followed. -/
def Obtainable (ctx : Context) (st : Store) (ents : Entities) (key : EntityType) : Prop :=
  st.findArchetype key = none → ∃ a, constructArchetype ctx key = some a ∧
    (st.newArchetype a).1.sharedType ents a ≠ none

theorem updateQueries_returns (add : Bool) (h : st.sharedType ents a ≠ none) :
    ∃ st', st.updateQueries ents g a add = some st' := by
  obtain ⟨type, htype⟩ := Option.ne_none_iff_exists'.mp h
  simp only [updateQueries, htype, Option.bind_eq_bind, Option.bind_some]
  exact ⟨_, rfl⟩

theorem obtainable_iff {key : EntityType} : st.Obtainable ctx ents key ↔
    ∃ st' g, Store.getArchetype ctx st ents key = some (st', g) := by
  unfold Store.getArchetype
  constructor
  · intro h
    cases hf : st.findArchetype key with
    | some g => exact ⟨st, g, rfl⟩
    | none =>
        obtain ⟨a, ha, hshared⟩ := h hf
        obtain ⟨st₁, hst₁⟩ := updateQueries_returns (g := (st.newArchetype a).2) true hshared
        simp only [ha, Option.bind_eq_bind, Option.bind_some, Store.addArchetype, hst₁]
        exact ⟨_, _, rfl⟩
  · rintro ⟨st', g, hs⟩ hf
    simp only [hf, Option.bind_eq_bind, Option.bind_eq_some_iff, addArchetype] at hs
    obtain ⟨a, ha, st₂, ⟨st₁, hup, -⟩, -⟩ := hs
    refine ⟨a, ha, fun hnone => ?_⟩
    rw [updateQueries, hnone] at hup
    exact Option.some_ne_none _ hup.symm

theorem KeysAre.getArchetype {P : EntityType → Prop} (h : st.KeysAre P) {key : EntityType}
    (hkey : P key) (hs : Store.getArchetype ctx st ents key = some (st', g)) : st'.KeysAre P := by
  intro g' b hb
  rcases archetype_of_getArchetype hs hb with hold | hnew
  · exact h g' b hold
  · rw [constructArchetype_type hnew]
    exact hkey

theorem SortedKeys.getArchetype (h : st.SortedKeys) {key : EntityType}
    (hkey : SortedTypes key.types) (hs : Store.getArchetype ctx st ents key = some (st', g)) :
    st'.SortedKeys :=
  KeysAre.getArchetype (P := fun key => SortedTypes key.types) h hkey hs

/-- All archetypes are as `construct_archetype` makes them. -/
def Constructed (ctx : Context) (st : Store) : Prop :=
  ∀ g a, st.archetype g = some a → constructArchetype ctx a.type = some a

theorem Constructed.older (h : st.Constructed ctx) (hold : Older st st') : st'.Constructed ctx :=
  fun g a ha => h g a (hold g a ha)

theorem grows_constructed (ctx : Context) : World.Grows ctx (Constructed ctx) where
  getArchetype h hs g b hb := by
    rcases archetype_of_getArchetype hs hb with hold | hnew
    · exact h g b hold
    · exact (constructArchetype_type hnew).symm ▸ hnew
  allocateSlice h _ hs _ := h.older (older_allocateSlice hs)

end Store

namespace World

variable {ctx : Context} {w w' : World} {g : ArchetypeId} {a : Archetype}

theorem older_freeSlice {s : ChunkSlice} (hs : w.freeSlice s = some w') :
    Store.Older w.store w'.store := by
  obtain ⟨g, a, st₁, w₂, st, -, -, rfl, -, hres, rfl⟩ := freeSlice_spec hs
  refine Store.Older.trans (Store.Older.of_eq ?_) (Store.older_resizeChunk hres)
  exact (Store.structuralChange_shape w.store g a s.c).archetype

theorem older_release {s : ChunkSlice} (hs : w.release s = some w') :
    Store.Older w.store w'.store := by
  simp only [World.release, Option.bind_eq_bind, Option.bind_eq_some_iff] at hs
  obtain ⟨w₁, hfree, hs⟩ := hs
  exact (freeEntities_store hfree).1 ▸ older_freeSlice hs

theorem older_allocateLoop {fuel n : Nat} {ss : List ChunkSlice}
    (hs : allocateLoop ctx g fuel n w = some (w', ss)) : Store.Older w.store w'.store := by
  refine allocateLoop_invariant (I := fun v => Store.Older w.store v.store) ?_ (Store.Older.refl _) hs
  intro v v₁ v₂ n s g' a hv _ halloc _ hnew
  obtain ⟨st, hst, rfl⟩ := allocateSlice_eq_some.mp halloc
  exact (newEntities_store hnew).1 ▸ hv.trans (Store.older_allocateSlice hst)

theorem older_instantiateLoop {src : Entity} {fuel n : Nat} {ss : List ChunkSlice}
    (hs : instantiateLoop ctx src g fuel n w = some (w', ss)) : Store.Older w.store w'.store := by
  obtain ⟨-, hold⟩ := instantiateLoop_invariant (I := fun _ v => Store.Older w.store v.store)
    (fun v v₁ v₂ n s from_ side g' a mm hv _ halloc _ _ _ _ hnew => by
      obtain ⟨st, hst, rfl⟩ := allocateSlice_eq_some.mp halloc
      exact (newEntities_store hnew).1 ▸ hv.trans (Store.older_allocateSlice hst))
    (Store.Older.refl _) hs
  exact hold

theorem older_castSlice {s : ChunkSlice} {fuel : Nat} {ss : List ChunkSlice}
    (hs : w.castSlice ctx fuel s g = some (w', ss)) : Store.Older w.store w'.store := by
  obtain ⟨srcG, a, w₁, -, -, hloop, hfree⟩ := castSlice_spec hs
  obtain ⟨-, -, hold⟩ := castLoop_invariant (I := fun _ v => Store.Older w.store v.store)
    (fun v v₁ k t dst side mm hv _ halloc _ _ _ => by
      obtain ⟨st, hst, rfl⟩ := allocateSlice_eq_some.mp halloc
      exact hv.trans (Store.older_allocateSlice hst))
    (Store.Older.of_eq (Store.structuralChange_shape w.store srcG a s.c).archetype) hloop
  exact hold.trans (older_freeSlice hfree)

theorem older_castTo {s : ChunkSlice} {fuel : Nat} {target : Option ArchetypeId}
    {ss : List ChunkSlice} (hs : w.castTo ctx fuel s target = some (w', ss)) :
    Store.Older w.store w'.store := by
  cases target with
  | none => exact older_release (castTo_none hs)
  | some g =>
      obtain ⟨srcG, srcA, a, -, -, -, hcase⟩ := castTo_cases hs
      rcases hcase with ⟨-, rfl⟩ | ⟨-, hfast⟩ | ⟨-, -, hcast⟩
      · exact Store.Older.refl _
      · obtain ⟨st₁, st₂, hrem, hadd, rfl⟩ := hfast.store
        exact (Store.older_removeChunk hrem).trans (Store.older_addChunk hadd)
      · exact older_castSlice hcast

/-- `get_archetype` returns an archetype of the key. -/
theorem type_of_getArchetype {key : EntityType} (hs : w.getArchetype ctx key = some (w', g)) :
    ∃ b, w'.store.archetype g = some b ∧ b.type = key := by
  obtain ⟨st, hget, rfl⟩ := getArchetype_eq_some hs
  have hfound := Store.findArchetype_of_getArchetype hget
  have htype := List.find?_some hfound
  rw [decide_eq_true_eq] at htype
  obtain ⟨b, hb, hkey⟩ := Option.map_eq_some_iff.mp htype
  exact ⟨b, hb, hkey⟩

theorem getArchetype_returns {key : EntityType} (h : w.store.Obtainable ctx w.ents key) :
    ∃ w' g, w.getArchetype ctx key = some (w', g) := by
  obtain ⟨st, g, hst⟩ := Store.obtainable_iff.mp h
  exact ⟨{ w with store := st }, g, by simp [World.getArchetype, hst]⟩

/-- An archetype that is there needs no more of the stack. -/
theorem castedFits_of_found {diff : TypeDiff} {inst : Bool}
    (hfits : w.castedFits ctx a diff inst = true)
    (hfound : w'.store.findArchetype (castedType ctx a diff inst) = some g) :
    w'.castedFits ctx a diff inst = true := by
  obtain ⟨left, hroom, -⟩ := (Option.any_eq_true _ _).mp hfits
  refine (Option.any_eq_true _ _).mpr ⟨left, hroom, ?_⟩
  rw [Store.getArchetypeFits, hfound]
  simp

/-- A second lookup changes nothing. -/
theorem getCasted_again {diff : TypeDiff} {inst : Bool} {target : Option ArchetypeId}
    (hs : w.getCasted ctx a diff inst = some (w', target)) :
    w'.getCasted ctx a diff inst = some (w', target) := by
  simp only [World.getCasted] at hs ⊢
  split_ifs at hs with hinst hfits hclean
  · obtain ⟨rfl, rfl⟩ := Prod.mk.inj (Option.some.inj hs)
    rw [if_pos hinst]
  · obtain ⟨rfl, rfl⟩ := Prod.mk.inj (Option.some.inj hs)
    rw [if_neg hinst, if_neg hfits, if_pos hclean]
  · simp only [Option.bind_eq_bind, Option.bind_eq_some_iff] at hs
    obtain ⟨⟨w₁, g⟩, hgot, heq⟩ := hs
    obtain ⟨rfl, rfl⟩ := Prod.mk.inj (Option.some.inj heq)
    obtain ⟨st, hget, rfl⟩ := getArchetype_eq_some hgot
    have hfound := Store.findArchetype_of_getArchetype hget
    have hfits' : ¬ (!castedFits ctx { w with store := st } a diff inst) = true := by
      rw [castedFits_of_found (by simpa using hfits) hfound]
      exact Bool.false_ne_true
    rw [if_neg hinst, if_neg hfits', if_neg hclean]
    simp only [World.getArchetype, Store.getArchetype, hfound, Option.bind_eq_bind,
      Option.bind_some]

end World

/-- A property of keys that the keys a call computes have, if those it starts from do. -/
structure KeyClosed (ctx : Context) (P : EntityType → Prop) : Prop where
  empty : P EntityType.empty
  casted : ∀ {a : Archetype} {diff : TypeDiff} {inst : Bool}, P a.type → P diff.extend →
    P (World.castedType ctx a diff inst)
  cleaning : ∀ {a : Archetype}, P a.type → P (World.cleaningKey ctx a)

/-- The keys a caller gives have `P`. -/
def Op.KeysAre (P : EntityType → Prop) : Op → Prop
  | .allocate type _ => P type
  | .cast _ diff => P diff.extend
  | .castType _ type => P type
  | .getArchetype type => P type
  | _ => True

namespace World

section

variable {ctx : Context} {w w' : World} {g : ArchetypeId} {a : Archetype} {P : EntityType → Prop}

theorem keys_getCasted {diff : TypeDiff} {inst : Bool} {target : Option ArchetypeId}
    (h : w.store.KeysAre P) (hkey : P (castedType ctx a diff inst))
    (hs : w.getCasted ctx a diff inst = some (w', target)) : w'.store.KeysAre P := by
  rcases getCasted_cases hs with ⟨-, rfl, -⟩ | ⟨g, -, hgot, -⟩
  · exact h
  · obtain ⟨st, hget, rfl⟩ := getArchetype_eq_some hgot
    exact h.getArchetype hkey hget

theorem keys_destroySingle (hclean : ∀ {a : Archetype}, P a.type → P (cleaningKey ctx a))
    {s : ChunkSlice} {fuel : Nat} (h : w.store.KeysAre P)
    (hs : w.destroySingle ctx fuel s = some w') : w'.store.KeysAre P := by
  obtain ⟨g, a, -, ha, hcase⟩ := destroySingle_cases hs
  rcases hcase with ⟨-, rfl⟩ | ⟨-, -, hrel⟩ | ⟨-, -, w₁, g', ss, hgot, hcast⟩
  · exact h
  · exact h.older (older_release hrel)
  · obtain ⟨st, hget, rfl⟩ := getArchetype_eq_some hgot
    exact (h.getArchetype (hclean (h g a ha)) hget).older (older_castSlice hcast)

theorem keys_allocate {fuel n : Nat} {type : EntityType} {ss : List ChunkSlice}
    (h : w.store.KeysAre P) (hkey : P type) (hs : w.allocate ctx fuel type n = some (w', ss)) :
    w'.store.KeysAre P := by
  simp only [World.allocate, Option.bind_eq_bind, Option.bind_eq_some_iff] at hs
  obtain ⟨⟨w₁, g⟩, hgot, hs⟩ := hs
  obtain ⟨st, hget, rfl⟩ := getArchetype_eq_some hgot
  exact (h.getArchetype hkey hget).older (older_allocateLoop hs)

theorem keys_instantiateSingle (hP : KeyClosed ctx P) {src : Entity} {fuel n : Nat}
    {ss : List ChunkSlice} (h : w.store.KeysAre P)
    (hs : w.instantiateSingle ctx fuel src n = some (w', ss)) : w'.store.KeysAre P := by
  simp only [World.instantiateSingle, Option.bind_eq_bind, Option.bind_eq_some_iff] at hs
  obtain ⟨s, -, ⟨g₀, a₀⟩, harch, ⟨w₁, target⟩, hcasted, hs⟩ := hs
  have h₁ := keys_getCasted h (hP.casted (h g₀ a₀ (archetypeOf_eq_some.mp harch).2) hP.empty) hcasted
  cases target with
  | none =>
      simp only at hs
      split_ifs at hs
      obtain ⟨rfl, -⟩ := Prod.mk.inj (Option.some.inj hs)
      exact h₁
  | some g => exact h₁.older (older_instantiateLoop hs)

theorem keys_instantiateMembers (hP : KeyClosed ctx P) {fuel n : Nat} {es : List Entity}
    {members : List (List ChunkSlice × List Entity)} (h : w.store.KeysAre P)
    (hs : instantiateMembers ctx fuel n es w = some (w', members)) : w'.store.KeysAre P := by
  induction es generalizing w members with
  | nil =>
      obtain ⟨rfl, -⟩ := Prod.mk.inj (Option.some.inj hs)
      exact h
  | cons e es ih =>
      simp only [World.instantiateMembers, Option.bind_eq_bind, Option.bind_eq_some_iff] at hs
      obtain ⟨⟨w₁, ss⟩, hsingle, ⟨w₂, rest⟩, hrest, hs⟩ := hs
      obtain ⟨rfl, -⟩ := Prod.mk.inj (Option.some.inj hs)
      exact ih (keys_instantiateSingle hP h hsingle) hrest

theorem keys_instantiate (hP : KeyClosed ctx P) {src : Entity} {fuel n : Nat}
    {ss : List ChunkSlice} (h : w.store.KeysAre P)
    (hs : w.instantiate ctx fuel src n = some (w', ss)) : w'.store.KeysAre P := by
  simp only [World.instantiate, Option.bind_eq_bind, Option.bind_eq_some_iff] at hs
  obtain ⟨group, -, hs⟩ := hs
  cases group with
  | none => exact keys_instantiateSingle hP h hs
  | some at_ =>
      simp only [Option.bind_eq_some_iff, World.instantiatePrefab, Option.bind_eq_bind] at hs
      obtain ⟨es, -, w₁, hto, ⟨w₂, ss'⟩, ⟨⟨w₃, table⟩, hmembers, w₄, hpatch, heq⟩, w₅, hback,
        hs⟩ := hs
      obtain ⟨rfl, -⟩ := Prod.mk.inj (Option.some.inj hs)
      obtain ⟨rfl, -⟩ := Prod.mk.inj (Option.some.inj heq)
      have h₃ := keys_instantiateMembers hP ((groupToPrefab_store hto).symm ▸ h) hmembers
      have hpatched : w₄.store = w₃.store :=
        foldlM_invariant (P := fun v => v.store = w₃.store)
          (fun _ _ _ _ hp hv => (patchSlices_store hp).trans hv) hpatch rfl
      rw [prefabToGroup_store hback, hpatched]
      exact h₃

theorem keys_destroy (hP : KeyClosed ctx P) {s : ChunkSlice} {fuel : Nat}
    (h : w.store.KeysAre P) (hs : w.destroy ctx fuel s = some w') : w'.store.KeysAre P := by
  cases fuel with
  | zero => simp [World.destroy] at hs
  | succ fuel =>
      obtain ⟨g, a, w₁, -, -, hgroups, hsingle⟩ := destroy_cases hs
      refine keys_destroySingle hP.cleaning ?_ hsingle
      rcases hgroups with ⟨-, rfl⟩ | ⟨-, hgroups⟩
      · exact h
      · refine destroyGroups_invariant (I := fun v => v.store.KeysAre P) ?_ h hgroups
        intro v t v' hone hv hrun
        refine destroy_invariant (I := fun u => u.store.KeysAre P) ?_ hone hv hrun
        intro u u' _ _ _ hu hs'
        exact keys_destroySingle hP.cleaning hu hs'

/-- Every call keeps a property of keys. -/
theorem keys_run (hP : KeyClosed ctx P) {op : Op} {fuel : Nat} (h : w.store.KeysAre P)
    (hkeys : op.KeysAre P) (hs : op.run ctx fuel w = some w') : w'.store.KeysAre P := by
  cases op with
  | allocate type count =>
      obtain ⟨⟨_, ss⟩, hrun, rfl⟩ := Option.map_eq_some_iff.mp hs
      exact keys_allocate h hkeys hrun
  | instantiate src count =>
      obtain ⟨⟨_, ss⟩, hrun, rfl⟩ := Option.map_eq_some_iff.mp hs
      exact keys_instantiate hP h hrun
  | destroy s => exact keys_destroy hP h hs
  | cast s diff =>
      obtain ⟨⟨_, ss⟩, hrun, rfl⟩ := Option.map_eq_some_iff.mp hs
      simp only [World.cast, Option.bind_eq_bind, Option.bind_eq_some_iff] at hrun
      obtain ⟨⟨g, a⟩, harch, ⟨w₁, target⟩, hcasted, hrun⟩ := hrun
      have h₁ := keys_getCasted h (hP.casted (h g a (archetypeOf_eq_some.mp harch).2) hkeys) hcasted
      exact h₁.older (older_castTo hrun)
  | castType s type =>
      obtain ⟨⟨_, ss⟩, hrun, rfl⟩ := Option.map_eq_some_iff.mp hs
      simp only [World.castType, Option.bind_eq_bind, Option.bind_eq_some_iff] at hrun
      obtain ⟨⟨w₁, g⟩, hgot, hrun⟩ := hrun
      obtain ⟨st, hget, rfl⟩ := getArchetype_eq_some hgot
      have h₁ := h.getArchetype hkeys hget
      exact h₁.older (older_castTo hrun)
  | getArchetype type =>
      obtain ⟨⟨_, g⟩, hrun, rfl⟩ := Option.map_eq_some_iff.mp hs
      obtain ⟨st, hget, rfl⟩ := getArchetype_eq_some hrun
      exact h.getArchetype hkeys hget
  | query f =>
      obtain ⟨⟨_, q⟩, hrun, rfl⟩ := Option.map_eq_some_iff.mp hs
      obtain ⟨queries, rfl⟩ := query_eq_some hrun
      exact h
  | write memory =>
      obtain rfl := Option.some.inj hs
      exact h

end

end World

/-! ## Sorted types -/

theorem keyClosed_sorted {ctx : Context} (hctx : ctx.Built) (hreg : ctx.tracks.length < 2 ^ 30) :
    KeyClosed ctx fun key => SortedTypes key.types where
  empty := ⟨List.Pairwise.nil, fun _ ht => absurd ht List.not_mem_nil⟩
  casted ha hext := SortedTypes.casted hreg ha hext
  cleaning ha := SortedTypes.cleaning hctx ha

/-- The types a caller gives are sets. -/
def Op.SortedKeys : Op → Prop
  | .allocate type _ => SortedTypes type.types
  | .cast _ diff => SortedTypes diff.extend.types
  | .castType _ type => SortedTypes type.types
  | .getArchetype type => SortedTypes type.types
  | _ => True

namespace World

variable {ctx : Context} {w w' : World} {a : Archetype}

theorem sorted_destroySingle (hctx : ctx.Built) {s : ChunkSlice} {fuel : Nat}
    (h : w.store.SortedKeys) (hs : w.destroySingle ctx fuel s = some w') : w'.store.SortedKeys :=
  keys_destroySingle (P := fun key => SortedTypes key.types) (SortedTypes.cleaning hctx) h hs

theorem sorted_getCasted (hreg : ctx.tracks.length < 2 ^ 30) {diff : TypeDiff} {inst : Bool}
    {target : Option ArchetypeId} (h : w.store.SortedKeys) (ha : SortedTypes a.types)
    (hext : SortedTypes diff.extend.types)
    (hs : w.getCasted ctx a diff inst = some (w', target)) : w'.store.SortedKeys :=
  keys_getCasted (P := fun key => SortedTypes key.types) h (ha.casted hreg hext) hs

/-- Every call keeps the types of archetypes sorted. -/
theorem sorted_run (hctx : ctx.Built) (hreg : ctx.tracks.length < 2 ^ 30) {op : Op} {fuel : Nat}
    (h : w.store.SortedKeys) (hkeys : op.SortedKeys) (hs : op.run ctx fuel w = some w') :
    w'.store.SortedKeys := by
  refine keys_run (keyClosed_sorted hctx hreg) h ?_ hs
  cases op <;> exact hkeys

theorem constructed_destroySingle {s : ChunkSlice} {fuel : Nat} (h : w.store.Constructed ctx)
    (hs : w.destroySingle ctx fuel s = some w') : w'.store.Constructed ctx := by
  obtain ⟨g, a, -, ha, hcase⟩ := destroySingle_cases hs
  rcases hcase with ⟨-, rfl⟩ | ⟨-, -, hrel⟩ | ⟨-, -, w₁, g', ss, hgot, hcast⟩
  · exact h
  · exact h.older (older_release hrel)
  · obtain ⟨st, hget, rfl⟩ := getArchetype_eq_some hgot
    exact ((Store.grows_constructed ctx).getArchetype h hget).older (older_castSlice hcast)

theorem constructed_destroy {s : ChunkSlice} {fuel : Nat} (h : w.store.Constructed ctx)
    (hs : w.destroy ctx fuel s = some w') : w'.store.Constructed ctx := by
  cases fuel with
  | zero => simp [World.destroy] at hs
  | succ fuel =>
      obtain ⟨g, a, w₁, -, -, hgroups, hsingle⟩ := destroy_cases hs
      refine constructed_destroySingle ?_ hsingle
      rcases hgroups with ⟨-, rfl⟩ | ⟨-, hgroups⟩
      · exact h
      · refine destroyGroups_invariant (I := fun v => v.store.Constructed ctx) ?_ h hgroups
        intro v t v' hone hv hrun
        refine destroy_invariant (I := fun u => u.store.Constructed ctx) ?_ hone hv hrun
        intro u u' _ _ _ hu hs'
        exact constructed_destroySingle hu hs'

/-- No call changes the constant part of an archetype. -/
theorem constructed_run {op : Op} {fuel : Nat} (h : w.store.Constructed ctx)
    (hs : op.run ctx fuel w = some w') : w'.store.Constructed ctx := by
  have hgrows := Store.grows_constructed ctx
  cases op with
  | allocate type count =>
      obtain ⟨⟨_, ss⟩, hrun, rfl⟩ := Option.map_eq_some_iff.mp hs
      exact hgrows.allocate h hrun
  | instantiate src count =>
      obtain ⟨⟨_, ss⟩, hrun, rfl⟩ := Option.map_eq_some_iff.mp hs
      exact hgrows.instantiate h hrun
  | destroy s => exact constructed_destroy h hs
  | cast s diff =>
      obtain ⟨⟨_, ss⟩, hrun, rfl⟩ := Option.map_eq_some_iff.mp hs
      simp only [World.cast, Option.bind_eq_bind, Option.bind_eq_some_iff] at hrun
      obtain ⟨⟨g, a⟩, -, ⟨w₁, target⟩, hcasted, hrun⟩ := hrun
      exact (hgrows.getCasted h hcasted).older (older_castTo hrun)
  | castType s type =>
      obtain ⟨⟨_, ss⟩, hrun, rfl⟩ := Option.map_eq_some_iff.mp hs
      simp only [World.castType, Option.bind_eq_bind, Option.bind_eq_some_iff] at hrun
      obtain ⟨⟨w₁, g⟩, hgot, hrun⟩ := hrun
      obtain ⟨st, hget, rfl⟩ := getArchetype_eq_some hgot
      exact (hgrows.getArchetype h hget).older (older_castTo hrun)
  | getArchetype type =>
      obtain ⟨⟨_, g⟩, hrun, rfl⟩ := Option.map_eq_some_iff.mp hs
      obtain ⟨st, hget, rfl⟩ := getArchetype_eq_some hrun
      exact hgrows.getArchetype h hget
  | query f =>
      obtain ⟨⟨_, q⟩, hrun, rfl⟩ := Option.map_eq_some_iff.mp hs
      obtain ⟨queries, rfl⟩ := query_eq_some hrun
      exact h
  | write memory =>
      obtain rfl := Option.some.inj hs
      exact h

theorem constructed_initial (timestamp : Nat) (raw : Nat → Nat) (data : ChunkId → Mem)
    (guids : Nat → List UInt8) : (initial timestamp raw data guids).store.Constructed ctx := by
  simp [Store.Constructed, World.initial]

theorem sorted_initial (timestamp : Nat) (raw : Nat → Nat) (data : ChunkId → Mem)
    (guids : Nat → List UInt8) : (initial timestamp raw data guids).store.SortedKeys := by
  simp [Store.SortedKeys, World.initial]

end World

end Dots

import Dots.Database.LifeCycle
import Dots.Database.Metatypes

/-!
# Calls that resolve shared types

`update_queries` and the first evaluation of a query follow the metatypes of an archetype:
where an archetype is made, where one is freed with its last chunk, and for every archetype
a new query looks at. Here is where each call of the interface does so, and that it comes to
an end as long as metatypes are alive and no archetype is below itself.
-/

namespace Dots

open Library Entities

namespace Store

variable {ctx : Context} {st st' st₁ : Store} {ents ents' : Entities} {g : ArchetypeId}
  {a : Archetype} {c : ChunkId} {n : Nat}

/-- `world::estimate_shared_size`. -/
def sharedSizeFrom (st : Store) (ents : Entities) : Nat → Nat → Archetype → Option Nat
  | 0, _, _ => none
  | fuel + 1, size, a =>
      a.metatypes.foldlM (fun size m => do
        let g ← st.getArchetypeOf ents m
        st.sharedSizeFrom ents fuel ((size + g.types.length) % 2 ^ 16) g) size

/-- `estimate_shared_size` and `get_shared_type` return for `a`, having followed metatypes
that exist. -/
def Resolves (st : Store) (ents : Entities) (a : Archetype) : Prop :=
  st.sharedSizeFrom ents (st.freshArchetype + 1) 0 a ≠ none ∧ st.sharedType ents a ≠ none

/-- The two recursions are one walk. -/
theorem sharedSizeFrom_ne_none (size : Nat) (type : List TypeIndex) :
    st.sharedSizeFrom ents n size a ≠ none ↔ st.sharedTypeFrom ents n type a ≠ none := by
  induction n generalizing a size type with
  | zero => simp [sharedSizeFrom, sharedTypeFrom]
  | succ n ih =>
      have hsize := foldlM_ne_none (l := a.metatypes)
        (P := fun m => ∃ b, st.getArchetypeOf ents m = some b ∧
          st.sharedTypeFrom ents n [] b ≠ none)
        (f := fun size m => (st.getArchetypeOf ents m).bind fun g =>
          st.sharedSizeFrom ents n ((size + g.types.length) % 2 ^ 16) g) ?_ size
      · have htype := foldlM_ne_none (l := a.metatypes)
          (P := fun m => ∃ b, st.getArchetypeOf ents m = some b ∧
            st.sharedTypeFrom ents n [] b ≠ none)
          (f := fun type m => (st.getArchetypeOf ents m).bind fun g =>
            st.sharedTypeFrom ents n (Set.merge g.types type) g) ?_ type
        · rw [sharedSizeFrom, sharedTypeFrom]
          exact hsize.trans htype.symm
        · intro m type
          cases hb : st.getArchetypeOf ents m with
          | none => simp
          | some b =>
              simp only [Option.bind_some, Option.some.injEq, exists_eq_left']
              rw [← ih 0 (Set.merge b.types type), ih 0 []]
      · intro m size
        cases hb : st.getArchetypeOf ents m with
        | none => simp
        | some b =>
            simp only [Option.bind_some, Option.some.injEq, exists_eq_left']
            exact ih _ []

theorem resolves_iff : st.Resolves ents a ↔ st.sharedType ents a ≠ none :=
  ⟨fun h => h.2, fun h => ⟨(sharedSizeFrom_ne_none 0 []).mpr h, h⟩⟩

/-! ## Where the store resolves -/

/-- `get_archetype` makes an archetype. -/
def GetArchetypeResolves (ctx : Context) (st : Store) (ents : Entities) (key : EntityType) : Prop :=
  st.findArchetype key = none → ∀ a, constructArchetype ctx key = some a →
    (st.newArchetype a).1.Resolves ents a

/-- `remove_chunk` frees the archetype. -/
def RemoveChunkResolves (st : Store) (ents : Entities) (g : ArchetypeId) (c : ChunkId) : Prop :=
  ∀ a, st.archetype g = some a →
    let st := ((st.structuralChange g a c).subSize g (st.count c)).takeOut g c
    st.firstChunk g = none → st.Resolves ents a

/-- `resize_chunk` removes the chunk. -/
def ResizeChunkResolves (st : Store) (ents : Entities) (c : ChunkId) (count : Nat) : Prop :=
  ∀ g, st.type c = some g → count = 0 → st.RemoveChunkResolves ents g c

/-- `allocate_slice`, which resizes a chunk to nothing where a new one has no room. -/
def AllocateSliceResolves (st : Store) (ents : Entities) (g : ArchetypeId) (count : Nat) : Prop :=
  ∀ a st₁ c, st.archetype g = some a →
    (match st.firstFree g with
      | some c => some (st, c)
      | none => st.newChunk g count) = some (st₁, c) →
    let st := st₁.structuralChange g a c
    let start := st.count c
    let allocated := min count (sub32 (a.chunkCapacity (st.ct c)) start)
    (st.addSize g allocated).ResizeChunkResolves ents c (start + allocated)

/-- `get_query_cache` evaluates a filter. -/
def QueryResolves (st : Store) (ents : Entities) (f : ArchetypeFilter) : Prop :=
  (st.queries.find? fun q => decide (q.filter = f)) = none →
    ∀ g ∈ st.archetypes, ∀ a, st.archetype g = some a → st.Resolves ents a

end Store

namespace World

/-! ## Where a world resolves -/

/-- `free_slice`. -/
def FreeSliceResolves (w : World) (s : ChunkSlice) : Prop :=
  ∀ g a, w.archetypeOf s.c = some (g, a) →
    let w := { w with store := (w.store.structuralChange g a s.c).subSize g s.count }
    let n := w.store.count s.c
    let w := w.moveTail a s
    w.store.ResizeChunkResolves w.ents s.c (sub32 n s.count)

/-- The loop of `allocate`, turn by turn. -/
def AllocateLoopResolves (ctx : Context) (g : ArchetypeId) : Nat → Nat → World → Prop
  | 0, _, _ => True
  | fuel + 1, n, w =>
      0 < n → w.store.AllocateSliceResolves w.ents g n ∧
        ∀ w₁ s g' a w₂, w.allocateSlice g n = some (w₁, s) → w₁.archetypeOf s.c = some (g', a) →
          { w₁ with memory := w₁.memory.construct ctx a (w₁.store.ct s.c) s }.newEntities s =
            some w₂ →
          AllocateLoopResolves ctx g fuel (n - s.count) w₂

/-- The loop of `cast_slice`, turn by turn. -/
def CastLoopResolves (ctx : Context) (src : ChunkSlice) (g : ArchetypeId) :
    Nat → Nat → World → Prop
  | 0, _, _ => True
  | fuel + 1, k, w =>
      k < src.count → w.store.AllocateSliceResolves w.ents g (src.count - k) ∧
        ∀ w₁ s dst side mm, w.allocateSlice g (src.count - k) = some (w₁, s) →
          w₁.side s.c s.start = some dst → w₁.side src.c (src.start + k) = some side →
          w₁.memory.cast ctx dst side s.count true = some mm →
          CastLoopResolves ctx src g fuel (k + s.count)
            ({ w₁ with memory := mm }.moveEntities s src.c (src.start + k))

/-- `cast_slice`. -/
def CastSliceResolves (ctx : Context) (fuel : Nat) (w : World) (src : ChunkSlice)
    (g : ArchetypeId) : Prop :=
  ∀ srcG a, w.archetypeOf src.c = some (srcG, a) →
    let w := { w with store := (w.store.structuralChange srcG a src.c).subSize srcG src.count }
    CastLoopResolves ctx src g fuel 0 w ∧
      ∀ w' ss, castLoop ctx src g fuel 0 w = some (w', ss) → w'.FreeSliceResolves src

/-- `cast(chunk_slice, archetype*)`; `none` is the null archetype. -/
def CastToResolves (ctx : Context) (fuel : Nat) (w : World) (s : ChunkSlice)
    (g : Option ArchetypeId) : Prop :=
  match g with
  | none => ∀ w', w.freeEntities s = some w' → w'.FreeSliceResolves s
  | some g =>
      ∀ srcG srcA a, w.archetypeOf s.c = some (srcG, srcA) → w.store.archetype g = some a →
        srcG ≠ g →
        if w.full s && staticCastable ctx srcA.type a.type then
          w.store.RemoveChunkResolves w.ents srcG s.c
        else w.CastSliceResolves ctx fuel s g

/-- `destroy_single`. -/
def DestroySingleResolves (ctx : Context) (fuel : Nat) (w : World) (s : ChunkSlice) : Prop :=
  ∀ g a, w.archetypeOf s.c = some (g, a) → a.cleaning = false →
    if leavesDead ctx a then
      w.store.GetArchetypeResolves ctx w.ents (cleaningKey ctx a) ∧
        ∀ w₁ g', w.getArchetype ctx (cleaningKey ctx a) = some (w₁, g') →
          w₁.CastSliceResolves ctx fuel s g'
    else w.CastToResolves ctx fuel s none

end World

/-- The shared types that a call resolves. Entities that are destroyed have no groups, and
`instantiate` is not among the calls. -/
def Op.Resolves (ctx : Context) (fuel : Nat) (w : World) : Op → Prop
  | .allocate type count =>
      w.store.GetArchetypeResolves ctx w.ents type ∧
        ∀ w₁ g, w.getArchetype ctx type = some (w₁, g) →
          World.AllocateLoopResolves ctx g fuel count w₁
  | .instantiate _ _ => True
  | .destroy s => w.DestroySingleResolves ctx fuel s
  | .cast s diff =>
      ∀ g a, w.archetypeOf s.c = some (g, a) →
        (World.castFrees ctx a diff = false →
          w.store.GetArchetypeResolves ctx w.ents (World.castedType ctx a diff false)) ∧
        ∀ w₁ target, w.getCasted ctx a diff false = some (w₁, target) →
          w₁.CastToResolves ctx fuel s target
  | .castType s type =>
      w.store.GetArchetypeResolves ctx w.ents type ∧
        ∀ w₁ g, w.getArchetype ctx type = some (w₁, g) → w₁.CastToResolves ctx fuel s (some g)
  | .getArchetype type => w.store.GetArchetypeResolves ctx w.ents type
  | .query f => w.store.QueryResolves w.ents f
  | .write _ => True

namespace Store

variable {ctx : Context} {st st' st₁ : Store} {ents ents' : Entities} {g : ArchetypeId}
  {a : Archetype} {c : ChunkId} {n : Nat}

/-! ## The list that is not empty -/

theorem firstChunk_addChunk {head : ChunkId} (hhead : st.firstChunk g = some head)
    (hs : st.addChunk g c = some st') : st'.firstChunk g = some head := by
  simp only [addChunk, Option.bind_eq_bind, Option.bind_eq_some_iff] at hs
  obtain ⟨a, -, hs⟩ := hs
  have hshape := (structuralChange_shape st g a c).trans
    (addSize_shape (st.structuralChange g a c) g (st.count c))
  revert hs hshape
  generalize (st.structuralChange g a c).addSize g (st.count c) = st₁
  intro hs hshape
  have hfirst : st₁.firstChunk g = some head := hshape.firstChunk ▸ hhead
  simp only [splice, hfirst] at hs
  split at hs
  · cases hlast : st₁.lastChunk g with
    | none => simp [hlast] at hs
    | some last =>
        simp only [hlast, Option.some.injEq] at hs
        rw [← hs]
        exact hfirst
  · rw [← Option.some.inj hs]
    exact hfirst

theorem firstChunk_newChunk {head : ChunkId} {hint : Nat} (hhead : st.firstChunk g = some head)
    (hs : st.newChunk g hint = some (st', c)) : st'.firstChunk g = some head := by
  simp only [newChunk, Option.bind_eq_bind, Option.bind_eq_some_iff, Option.some.injEq,
    Prod.mk.injEq] at hs
  obtain ⟨a, -, st₂, hadd, rfl, -⟩ := hs
  have hhead' : ∀ ct, (st.mallocChunk ct).1.firstChunk g = some head := fun _ => hhead
  exact firstChunk_addChunk (hhead' _) hadd

theorem firstChunk_takeOut {head : ChunkId} (hhead : st.firstChunk g = some head)
    (hne : head ≠ c) : (st.takeOut g c).firstChunk g = some head := by
  change Function.update st.firstChunk g (if st.firstChunk g = some c then st.links.next c
    else st.firstChunk g) g = some head
  rw [Function.update_self, if_neg, hhead]
  rw [hhead]
  exact fun heq => hne (Option.some.inj heq)

/-! ## Archetypes that are freed -/

theorem Spares.congr (h : Spares st ents g st₁ ents') (hs : SameShape st₁ st') :
    Spares st ents g st' ents' where
  archetype k b hb := hs.archetype ▸ h.archetype k b hb
  fresh := hs.freshArchetype ▸ h.fresh
  ids k d hd m hm j hid hj := by
    rw [← h.ids k d hd m hm j hid hj]
    simp only [archetypeIdOf, hs.type]

/-- A chunk of `g` changes its type. -/
theorem Spares.setType (h : Spares st ents g st₁ ents') {t : Option ArchetypeId}
    (hc : ∀ k, st₁.type c = some k → k = g) (htype : st'.type = Function.update st₁.type c t)
    (harch : st'.archetype = st₁.archetype) (hfresh : st'.freshArchetype = st₁.freshArchetype) :
    Spares st ents g st' ents' where
  archetype k b hb := harch ▸ h.archetype k b hb
  fresh := hfresh ▸ h.fresh
  ids k d hd m hm j hid hj := by
    have hold := h.ids k d hd m hm j hid hj
    simp only [archetypeIdOf] at hold ⊢
    split_ifs at hold ⊢ with hexist
    cases hloc : (ents'.datas m.id).c with
    | chunk d =>
        simp only [hloc] at hold ⊢
        rw [htype, Function.update_of_ne, hold]
        rintro rfl
        exact hj (hc j hold)
    | nextFree => simp [hloc] at hold
    | raw => simp [hloc] at hold

section Live

variable (hlive : st.MetasLive ents) (hn : st.Numbered) (hac : st.Acyclic ents)

include hlive hn hac

theorem Spares.removeChunk (h : Spares st ents g st' ents') (ha : st.archetype g = some a)
    (hc : st'.type c = some g) : st'.RemoveChunkResolves ents' g c := by
  intro b hb
  obtain rfl := Option.some.inj ((h.archetype g a ha).symm.trans hb)
  intro st₂ _
  have hshape := (structuralChange_shape st' g a c).trans
    (subSize_shape (st'.structuralChange g a c) g (st'.count c))
  have hout : Spares st ents g st₂ ents' := by
    refine (h.congr hshape).setType (c := c) (t := none) ?_ rfl rfl rfl
    intro k hk
    rw [hshape.type, hc] at hk
    exact (Option.some.inj hk).symm
  exact resolves_iff.mpr (hout.sharedType hlive hn hac ha)

theorem Spares.resizeChunk (h : Spares st ents g st' ents') (ha : st.archetype g = some a)
    (hc : n = 0 → st'.type c = some g) : st'.ResizeChunkResolves ents' c n := by
  intro k hk hzero
  obtain rfl := Option.some.inj (hk.symm.trans (hc hzero))
  exact h.removeChunk hlive hn hac ha hk

/-- A new archetype. -/
theorem getArchetypeResolves {key : EntityType}
    (hkey : ∀ m ∈ key.metatypes, st.getArchetypeOf ents m ≠ none) :
    st.GetArchetypeResolves ctx ents key := by
  intro _ a ha
  refine resolves_iff.mpr (sharedType_newArchetype hlive hn hac fun m hm => hkey m ?_)
  rw [Archetype.metatypes, constructArchetype_type ha] at hm
  exact hm

theorem queryResolves (f : ArchetypeFilter) : st.QueryResolves ents f := by
  intro _ g _ a ha
  exact resolves_iff.mpr ((Spares.refl st ents g).sharedType hlive hn hac ha)

end Live

section Allocate

/-- The chunk that `allocate_slice` takes is there already, or new. -/
theorem chosen_cases (hl : st.Listed ctx) (ha : st.archetype g = some a)
    (hs : (match st.firstFree g with
      | some c => some (st, c)
      | none => st.newChunk g n) = some (st₁, c)) :
    st₁ = st ∧ st.type c = some g ∨
      st.newChunk g n = some (st₁, c) ∧ st.type c = none ∧
        st₁.type = Function.update st.type c (some g) ∧
        st₁.archetype = st.archetype ∧ st₁.freshArchetype = st.freshArchetype := by
  cases hf : st.firstFree g with
  | some d =>
      simp only [hf, Option.some.injEq, Prod.mk.injEq] at hs
      obtain ⟨rfl, rfl⟩ := hs
      exact Or.inl ⟨rfl, hl.free g a d ha hf⟩
  | none =>
      simp only [hf] at hs
      obtain ⟨-, rfl, -, htype, -, -, hfresh, harch, -⟩ := hl.toWf.newChunk ha hf hs
      exact Or.inr ⟨hs, hl.fresh _ le_rfl, htype, harch, hfresh⟩

/-- A slice of an archetype that has chunks. -/
theorem allocateSliceResolves_of_chunk (hl : st.Listed ctx) {d : ChunkId}
    (hd : st.type d = some g) (n : Nat) : st.AllocateSliceResolves ents g n := by
  intro a st₁ c ha hs st₂ start allocated k hk hzero
  have hshape := structuralChange_shape st₁ g a c
  have hcount : st₁.count c = 0 := by
    have hstart : start = 0 := by omega
    rw [← hstart]
    exact (congrFun hshape.count c).symm
  rcases chosen_cases hl ha hs with ⟨rfl, hc⟩ | ⟨hnew, hc, htype, -, -⟩
  · -- a chunk that is there holds an entity
    exact absurd hcount (hl.nonempty c g hc).ne'
  · -- a new one is not the first
    obtain ⟨fulls, frees, hch⟩ := hl.chain g a ha
    obtain ⟨head, hhead⟩ : ∃ head, st.firstChunk g = some head := by
      cases hf : st.firstChunk g with
      | some head => exact ⟨head, rfl⟩
      | none =>
          have hmem := (hch.mem d).mpr hd
          rw [hch.spans.first_eq_none.mp hf] at hmem
          simp at hmem
    have hne : head ≠ c := by
      rintro rfl
      rw [hl.first g a head ha hhead] at hc
      simp at hc
    have hkg : k = g := by
      have hk' : st₁.type c = some k := hshape.type ▸ hk
      rw [htype, Function.update_self] at hk'
      exact (Option.some.inj hk').symm
    subst hkg
    intro b _ st₃ hfirst
    have hshape₂ := (hshape.trans (addSize_shape st₂ k allocated)).trans
      ((structuralChange_shape (st₂.addSize k allocated) k b c).trans
        (subSize_shape _ k ((st₂.addSize k allocated).count c)))
    have hlist := firstChunk_takeOut (c := c)
      (hshape₂.firstChunk ▸ firstChunk_newChunk hhead hnew) hne
    exact absurd (hfirst.symm.trans hlist) (Option.some_ne_none head).symm

/-- A slice of any archetype, while all metatypes are there. -/
theorem Spares.allocateSlice (h : Spares st ents g st' ents') (hl : st'.Listed ctx)
    (hlive : st.MetasLive ents) (hn : st.Numbered) (hac : st.Acyclic ents)
    (ha : st.archetype g = some a) (n : Nat) : st'.AllocateSliceResolves ents' g n := by
  intro b st₁ c hb hs st₂ start allocated
  have hshape := (structuralChange_shape st₁ g b c).trans (addSize_shape st₂ g allocated)
  have hchosen : Spares st ents g st₁ ents' ∧ st₁.type c = some g := by
    rcases chosen_cases hl hb hs with ⟨rfl, hc⟩ | ⟨-, hc, htype, harch, hfresh⟩
    · exact ⟨h, hc⟩
    · refine ⟨h.setType (c := c) ?_ htype harch hfresh, ?_⟩
      · simp [hc]
      · rw [htype, Function.update_self]
  exact (hchosen.1.congr hshape).resizeChunk hlive hn hac ha fun _ => hshape.type ▸ hchosen.2

end Allocate

end Store

namespace World

variable {ctx : Context} {w w' w₁ : World} {g srcG : ArchetypeId} {a srcA : Archetype}
  {c : ChunkId} {s src : ChunkSlice} {fuel n k : Nat}

/-! ## The loops -/

/-- Once the loop has handed out a slice, the archetype has a chunk. -/
theorem allocateLoopResolves (hl : w.store.Listed ctx) (ha : w.store.archetype g = some a)
    (hfirst : w.store.AllocateSliceResolves w.ents g n) :
    AllocateLoopResolves ctx g fuel n w := by
  induction fuel generalizing w n with
  | zero => trivial
  | succ fuel ih =>
      intro _
      refine ⟨hfirst, fun w₁ s g' a' w₂ halloc harch hnew => ?_⟩
      obtain ⟨st, hst, rfl⟩ := allocateSlice_eq_some.mp halloc
      have htyped : st.type s.c ≠ none := by
        rw [(archetypeOf_eq_some.mp harch).1]
        exact Option.some_ne_none g'
      obtain ⟨hl', hall⟩ := hl.allocateSlice ha hst htyped
      have hstore : w₂.store = st := (newEntities_store hnew).1
      have hc : w₂.store.type s.c = some g := by rw [hstore, hall.type, Function.update_self]
      apply ih
      · exact hstore ▸ hl'
      · rw [hstore, hall.archetype]
        exact ha
      · exact Store.allocateSliceResolves_of_chunk (hstore ▸ hl') hc _

theorem castLoopResolves (hl : w.store.Listed ctx) (ha : w.store.archetype g = some a)
    (hfirst : w.store.AllocateSliceResolves w.ents g (src.count - k)) :
    CastLoopResolves ctx src g fuel k w := by
  induction fuel generalizing w k with
  | zero => trivial
  | succ fuel ih =>
      intro _
      refine ⟨hfirst, fun w₁ s dst side mm halloc hdst _ _ => ?_⟩
      obtain ⟨st, hst, rfl⟩ := allocateSlice_eq_some.mp halloc
      obtain ⟨g', a', htype, -, -⟩ := side_eq_some.mp hdst
      have htyped : st.type s.c ≠ none := by
        rw [htype]
        exact Option.some_ne_none g'
      obtain ⟨hl', hall⟩ := hl.allocateSlice ha hst htyped
      have hc : st.type s.c = some g := by rw [hall.type, Function.update_self]
      apply ih
      · exact hl'
      · change st.archetype g = some a
        rw [hall.archetype]
        exact ha
      · exact Store.allocateSliceResolves_of_chunk hl' hc _

/-- The loop of `cast_slice` makes and frees no archetype, and no entity. -/
theorem castLoop_same {ss : List ChunkSlice} (hl : w.store.Listed ctx)
    (ha : w.store.archetype g = some a)
    (hs : castLoop ctx src g fuel 0 w = some (w', ss)) :
    w'.store.archetype = w.store.archetype ∧
      w'.store.freshArchetype = w.store.freshArchetype ∧ w'.ents.size = w.ents.size := by
  suffices hinv : ∃ k, src.count ≤ k ∧ w'.store.Listed ctx ∧
      w'.store.archetype = w.store.archetype ∧
        w'.store.freshArchetype = w.store.freshArchetype ∧ w'.ents.size = w.ents.size from
    hinv.choose_spec.2.2
  refine castLoop_invariant (I := fun _ v => v.store.Listed ctx ∧
    v.store.archetype = w.store.archetype ∧ v.store.freshArchetype = w.store.freshArchetype ∧
      v.ents.size = w.ents.size) ?_ ⟨hl, rfl, rfl, rfl⟩ hs
  rintro v v₁ k s dst side mm ⟨hl, harch, hfresh, hsize⟩ - halloc hdst - -
  obtain ⟨st, hst, rfl⟩ := allocateSlice_eq_some.mp halloc
  obtain ⟨g', a', htype, -, -⟩ := side_eq_some.mp hdst
  have htyped : st.type s.c ≠ none := by
    rw [htype]
    exact Option.some_ne_none g'
  obtain ⟨hl', hall⟩ := hl.allocateSlice (harch ▸ ha) hst htyped
  exact ⟨hl', hall.archetype.trans harch, hall.freshArchetype.trans hfresh,
    (moveEntities_size ..).trans hsize⟩

/-! ## Slices that are released -/

section Release

variable {st : Store} {ents : Entities} (hlive : st.MetasLive ents) (hn : st.Numbered)
  (hac : st.Acyclic ents)

include hlive hn hac

theorem freeSliceResolves (h : Store.Spares st ents g w.store w.ents)
    (hl : w.store.Listed ctx) (hv : w.ValidSlice s) (hc : w.store.type s.c = some g)
    (ha : st.archetype g = some a) : w.FreeSliceResolves s := by
  intro g' a' harch w₁ n w₂ k hk hzero
  obtain ⟨hc', ha'⟩ := archetypeOf_eq_some.mp harch
  obtain rfl := Option.some.inj (hc.symm.trans hc')
  obtain rfl := Option.some.inj ((h.archetype g a ha).symm.trans ha')
  have hshape : Store.SameShape w.store w₁.store :=
    (Store.structuralChange_shape w.store g a s.c).trans (Store.subSize_shape _ g s.count)
  have hcap := hl.count_le s.c g a hc ha'
  have hlt := hl.capacity_lt ha' (w.store.ct s.c)
  have hle := hv.le
  have hcount : n = w.store.count s.c := congrFun hshape.count s.c
  rw [hcount, sub32_of_le (by omega) (by omega)] at hzero
  -- the whole chunk goes, and nothing moves up
  have htail : w₁.tailCount s = 0 := by
    rw [tailCount, show w₁.store.count s.c = n from rfl, hcount]
    omega
  have hmove : w₂ = w₁ := moveTail_eq (by
    rw [show w₁.store.count s.c = n from rfl, hcount]
    exact hle) (by
    rw [show w₁.store.count s.c = n from rfl, hcount]
    omega) htail
  rw [hmove] at hk ⊢
  obtain rfl := Option.some.inj (hk.symm.trans (hshape.type ▸ hc))
  exact (h.congr hshape).removeChunk hlive hn hac ha hk

end Release

end World

end Dots

import Dots.Database.Growth
import Dots.Database.Timestamps
import Dots.Library.Stamps

/-!
# Change filters over a run

A structural change stamps the chunks whose entities it moves, so a filter on a component finds
every chunk in which an entity came to own it, or was written, since the filter looked last.
-/

namespace Dots

open Library Entities

namespace Store

variable {ctx : Context} {st st₁ st' : Store} {ents : Entities} {g : ArchetypeId} {a : Archetype}
  {c : ChunkId} {s : ChunkSlice} {n k : Nat}

/-! ## Timestamps written by the store -/

/-- The timestamps of chunk `c` alone change, and only to the time of the world. -/
structure Stamps (st st' : Store) (c : ChunkId) : Prop where
  now : st'.timestamp = st.timestamp
  other : ∀ d, d ≠ c → st'.timestamps d = st.timestamps d
  kept : ∀ k, st.timestamps c k = st.timestamp → st'.timestamps c k = st.timestamp

theorem Stamps.of_eq (hnow : st'.timestamp = st.timestamp)
    (hsame : st'.timestamps = st.timestamps) (c : ChunkId) : Stamps st st' c where
  now := hnow
  other := fun d _ => by rw [hsame]
  kept := fun k hk => by rw [hsame, hk]

theorem Stamps.trans (h : Stamps st st₁ c) (h' : Stamps st₁ st' c) : Stamps st st' c where
  now := h'.now.trans h.now
  other := fun d hd => (h'.other d hd).trans (h.other d hd)
  kept := by
    intro k hk
    have hfirst : st₁.timestamps c k = st₁.timestamp := by rw [h.kept k hk, h.now]
    rw [h'.kept k hfirst, h.now]

/-- `structural_change` stamps every word of the types of the archetype. -/
theorem timestamps_structuralChange (hk : k < a.types.length) :
    (st.structuralChange g a c).timestamps c k = st.timestamp := by
  unfold structuralChange
  split_ifs <;> simp only [Function.update_self, if_pos hk]

theorem Stamps.structuralChange (st : Store) (g : ArchetypeId) (a : Archetype) (c : ChunkId) :
    Stamps st (st.structuralChange g a c) c where
  now := by
    unfold Store.structuralChange
    split_ifs <;> rfl
  other := by
    intro d hd
    unfold Store.structuralChange
    split_ifs <;> exact Function.update_of_ne hd _ _
  kept := by
    intro k hk
    by_cases hlt : k < a.types.length
    · exact timestamps_structuralChange hlt
    · unfold Store.structuralChange
      split_ifs <;> simp only [Function.update_self, if_neg hlt, hk]

theorem Stamps.addSize (st : Store) (g : ArchetypeId) (n : Nat) (c : ChunkId) :
    Stamps st (st.addSize g n) c :=
  ⟨rfl, fun _ _ => rfl, fun _ hk => hk⟩

theorem Stamps.subSize (st : Store) (g : ArchetypeId) (n : Nat) (c : ChunkId) :
    Stamps st (st.subSize g n) c :=
  ⟨rfl, fun _ _ => rfl, fun _ hk => hk⟩

theorem updateQueries_timestamps {add : Bool} (hs : st.updateQueries ents g a add = some st') :
    st'.timestamp = st.timestamp ∧ st'.timestamps = st.timestamps := by
  simp only [updateQueries, Option.bind_eq_bind, Option.bind_eq_some_iff, Option.some.injEq] at hs
  obtain ⟨type, -, rfl⟩ := hs
  exact ⟨rfl, rfl⟩

/-- The end of `remove_chunk`. -/
theorem freeArchetype_timestamps {p : Prop} [Decidable p]
    (hs : (if p then st.freeArchetype ents g a else some st) = some st') :
    st'.timestamp = st.timestamp ∧ st'.timestamps = st.timestamps := by
  split_ifs at hs
  · simp only [freeArchetype, Option.bind_eq_bind, Option.bind_eq_some_iff,
      Option.some.injEq] at hs
    obtain ⟨st₁, hqueries, rfl⟩ := hs
    have hupdate := updateQueries_timestamps hqueries
    exact hupdate
  · obtain rfl := Option.some.inj hs
    exact ⟨rfl, rfl⟩

theorem splice_timestamps (hs : st.splice g a c = some st') :
    st'.timestamp = st.timestamp ∧ st'.timestamps = st.timestamps := by
  unfold splice at hs
  split at hs
  · obtain rfl := Option.some.inj hs
    exact ⟨rfl, rfl⟩
  · split at hs
    · split at hs
      · simp at hs
      · obtain rfl := Option.some.inj hs
        exact ⟨rfl, rfl⟩
    · obtain rfl := Option.some.inj hs
      exact ⟨rfl, rfl⟩

theorem unmarkFree_timestamps (st : Store) (g : ArchetypeId) (c : ChunkId) :
    (st.unmarkFree g c).timestamp = st.timestamp ∧
      (st.unmarkFree g c).timestamps = st.timestamps := by
  unfold unmarkFree
  split_ifs <;> exact ⟨rfl, rfl⟩

/-- `add_chunk` stamps the chunk for its new archetype. -/
theorem Stamps.addChunk (ha : st.archetype g = some a) (hs : st.addChunk g c = some st') :
    Stamps st st' c ∧ ∀ k < a.types.length, st'.timestamps c k = st.timestamp := by
  simp only [Store.addChunk, ha, Option.bind_eq_bind, Option.bind_some] at hs
  have hsplice := splice_timestamps hs
  have hnow : st'.timestamp = (st.structuralChange g a c).timestamp := hsplice.1
  have hsame : st'.timestamps = (st.structuralChange g a c).timestamps := hsplice.2
  refine ⟨(Stamps.structuralChange st g a c).trans (.of_eq hnow hsame c), fun k hk => ?_⟩
  rw [hsame]
  exact timestamps_structuralChange hk

theorem Stamps.removeChunk (hs : st.removeChunk ents g c = some st') : Stamps st st' c := by
  simp only [Store.removeChunk, Option.bind_eq_bind, Option.bind_eq_some_iff] at hs
  obtain ⟨a, -, hs⟩ := hs
  have hfree := freeArchetype_timestamps hs
  have hnow : st'.timestamp = (st.structuralChange g a c).timestamp := hfree.1
  have hsame : st'.timestamps = (st.structuralChange g a c).timestamps := hfree.2
  exact (Stamps.structuralChange st g a c).trans (.of_eq hnow hsame c)

theorem Stamps.resizeChunk (hs : st.resizeChunk ents c n = some st') : Stamps st st' c := by
  simp only [Store.resizeChunk, Option.bind_eq_bind, Option.bind_eq_some_iff] at hs
  obtain ⟨g, -, a, -, hs⟩ := hs
  by_cases hn : n = 0
  · rw [if_pos hn] at hs
    exact .removeChunk hs
  · rw [if_neg hn] at hs
    suffices hsame : st'.timestamp = st.timestamp ∧ st'.timestamps = st.timestamps from
      .of_eq hsame.1 hsame.2 c
    obtain rfl := Option.some.inj hs
    split_ifs
    · exact unmarkFree_timestamps st g c
    · exact ⟨rfl, rfl⟩
    · exact ⟨rfl, rfl⟩

theorem Stamps.newChunk {hint : Nat} (hs : st.newChunk g hint = some (st', c)) :
    Stamps st st' c := by
  simp only [Store.newChunk, Option.bind_eq_bind, Option.bind_eq_some_iff] at hs
  obtain ⟨a, ha, st₁, hadd, hs⟩ := hs
  obtain ⟨rfl, rfl⟩ := Prod.mk.inj (Option.some.inj hs)
  have hmalloc : Stamps st (st.mallocChunk (newChunkBin (st.chunkCount g)
      (hint * a.entitySize % 2 ^ 32))).1 st.freshChunk :=
    ⟨rfl, fun _ _ => rfl, fun _ hk => hk⟩
  have ha' : (st.mallocChunk (newChunkBin (st.chunkCount g)
      (hint * a.entitySize % 2 ^ 32))).1.archetype g = some a := ha
  exact hmalloc.trans (Stamps.addChunk ha' hadd).1

/-- The part of `allocate_slice` after the chunk is chosen. -/
theorem Stamps.allocateIn {m : Nat}
    (hs : ((st.structuralChange g a c).addSize g n).resizeChunk ents c m = some st') :
    Stamps st st' c ∧ ∀ k < a.types.length, st'.timestamps c k = st.timestamp := by
  have hchange := Stamps.structuralChange st g a c
  have hrest := (Stamps.addSize (st.structuralChange g a c) g n c).trans (.resizeChunk hs)
  refine ⟨hchange.trans hrest, fun k hk => ?_⟩
  have hword : (st.structuralChange g a c).timestamps c k =
      (st.structuralChange g a c).timestamp := by
    rw [timestamps_structuralChange hk, hchange.now]
  rw [hrest.kept k hword, hchange.now]

/-- `allocate_slice` stamps the chunk of the slice. -/
theorem Stamps.allocateSlice (ha : st.archetype g = some a)
    (hs : st.allocateSlice ents g n = some (st', s)) :
    Stamps st st' s.c ∧ ∀ k < a.types.length, st'.timestamps s.c k = st.timestamp := by
  simp only [Store.allocateSlice, ha, Option.bind_eq_bind, Option.bind_some] at hs
  cases hfree : st.firstFree g with
  | some c =>
      simp only [hfree, Option.bind_eq_some_iff, Option.some.injEq, Prod.mk.injEq] at hs
      obtain ⟨st₂, hresize, rfl, rfl⟩ := hs
      exact Stamps.allocateIn hresize
  | none =>
      simp only [hfree, Option.bind_eq_some_iff, Option.some.injEq, Prod.mk.injEq] at hs
      obtain ⟨⟨st₁, c⟩, hnew, st₂, hresize, rfl, rfl⟩ := hs
      have hchunk := Stamps.newChunk hnew
      obtain ⟨hrest, hwords⟩ := Stamps.allocateIn hresize
      exact ⟨hchunk.trans hrest, fun k hk => (hwords k hk).trans hchunk.now⟩

theorem getArchetype_timestamps {key : EntityType}
    (hs : Store.getArchetype ctx st ents key = some (st', g)) :
    st'.timestamp = st.timestamp ∧ st'.timestamps = st.timestamps := by
  unfold Store.getArchetype at hs
  split at hs
  · obtain ⟨rfl, -⟩ := Prod.mk.inj (Option.some.inj hs)
    exact ⟨rfl, rfl⟩
  · simp only [addArchetype, Option.bind_eq_bind, Option.bind_eq_some_iff, Option.some.injEq,
      Prod.mk.injEq] at hs
    obtain ⟨a, -, st₁, ⟨st₂, hqueries, rfl⟩, rfl, -⟩ := hs
    have hupdate := updateQueries_timestamps hqueries
    exact hupdate

end Store

namespace World

variable {ctx : Context} {w w₁ w' : World} {g : ArchetypeId} {a : Archetype} {c : ChunkId}
  {s : ChunkSlice} {fuel n : Nat}

/-! ## Calls that stamp what they move -/

/-- Chunk `d` keeps its archetype and its timestamps, and takes no entity in. -/
structure Untouched (w w' : World) (d : ChunkId) (h : ArchetypeId) (b : Archetype) : Prop where
  archetype : w.archetypeOf d = some (h, b)
  timestamps : w'.store.timestamps d = w.store.timestamps d
  slots : ∀ i, w'.store.Occupied d i →
    w.store.Occupied d i ∧ w'.memory.entityAt d i = w.memory.entityAt d i

/-- Every chunk that is not untouched has the time of the world on all types it holds. -/
structure Stamped (w w' : World) : Prop where
  now : w'.store.timestamp = w.store.timestamp
  chunk : ∀ d h b, w'.archetypeOf d = some (h, b) →
    (∀ k < b.types.length, w'.store.timestamps d k = w'.store.timestamp) ∨ w.Untouched w' d h b

theorem Stamped.trans (h : Stamped w w₁) (h' : Stamped w₁ w') : Stamped w w' where
  now := h'.now.trans h.now
  chunk := by
    intro d g a harch
    rcases h'.chunk d g a harch with hnow | hsecond
    · exact Or.inl hnow
    rcases h.chunk d g a hsecond.archetype with hnow | hfirst
    · left
      intro k hk
      rw [hsecond.timestamps, hnow k hk, h'.now]
    · right
      refine ⟨hfirst.archetype, hsecond.timestamps.trans hfirst.timestamps, fun i hi => ?_⟩
      obtain ⟨hmid, hhandle⟩ := hsecond.slots i hi
      obtain ⟨hocc, hhandle'⟩ := hfirst.slots i hmid
      exact ⟨hocc, hhandle.trans hhandle'⟩

/-- The store keeps its chunks, and the handles stay. -/
theorem Stamped.of_handles (hstore : w'.store = w.store)
    (hhandle : ∀ d i, w.store.Occupied d i → w'.memory.entityAt d i = w.memory.entityAt d i) :
    Stamped w w' where
  now := by rw [hstore]
  chunk := by
    intro d h b harch
    right
    have hback : w.archetypeOf d = some (h, b) := by
      rw [archetypeOf_eq_some, ← hstore]
      exact archetypeOf_eq_some.mp harch
    refine ⟨hback, by rw [hstore], fun i hi => ?_⟩
    rw [hstore] at hi
    exact ⟨hi, hhandle d i hi⟩

theorem Stamped.refl (w : World) : Stamped w w :=
  .of_handles rfl fun _ _ _ => rfl

/-- Chunk `c` is stamped, and the others are untouched. -/
theorem Stamped.of_stamps (h : Store.Stamps w.store w'.store c)
    (hwords : ∀ g a, w'.archetypeOf c = some (g, a) →
      ∀ k < a.types.length, w'.store.timestamps c k = w.store.timestamp)
    (harch : ∀ d g a, d ≠ c → w'.archetypeOf d = some (g, a) → w.archetypeOf d = some (g, a))
    (hslots : ∀ d i, d ≠ c → w'.store.Occupied d i →
      w.store.Occupied d i ∧ w'.memory.entityAt d i = w.memory.entityAt d i) : Stamped w w' where
  now := h.now
  chunk := by
    intro d g a hd
    by_cases hdc : d = c
    · left
      intro k hk
      rw [hdc] at hd ⊢
      rw [hwords g a hd k hk, h.now]
    · right
      exact ⟨harch d g a hdc hd, h.other d hdc, fun i => hslots d i hdc⟩

/-- Component data and handles go to the slots that `allocate_slice` handed out. -/
theorem Stamped.of_allocated {st : Store} {ents : Entities} (ha : w.store.archetype g = some a)
    (hs : w.store.allocateSlice ents g n = some (st, s))
    (hall : Store.Allocated w.store st g a s n) (hstore : w'.store = st)
    (hother : ∀ d i, d ≠ s.c → w'.memory.entityAt d i = w.memory.entityAt d i) : Stamped w w' := by
  subst hstore
  obtain ⟨hstamps, hwords⟩ := Store.Stamps.allocateSlice ha hs
  apply Stamped.of_stamps hstamps
  · intro g' a' harch
    obtain ⟨htype, ha'⟩ := archetypeOf_eq_some.mp harch
    rw [hall.type, Function.update_self, Option.some.injEq] at htype
    rw [hall.archetype, ← htype, ha, Option.some.injEq] at ha'
    rw [← ha']
    exact hwords
  · intro d h b hd harch
    rw [archetypeOf_eq_some, hall.type, Function.update_of_ne hd, hall.archetype] at harch
    exact archetypeOf_eq_some.mpr harch
  · intro d i hd hi
    refine ⟨((occupied_of_allocated hall d i).mp hi).resolve_right ?_, hother d i hd⟩
    exact fun hin => hd hin.1

theorem entityAt_fillEntities {d : ChunkId} {i : Nat} (w : World) (k : Nat) (hd : d ≠ s.c) :
    (w.fillEntities s k).memory.entityAt d i = w.memory.entityAt d i := by
  have hcopy := entityAt_copyHandles w s.c s.start s.c k s.count d i
  rw [if_neg fun hin => hd hin.1] at hcopy
  exact hcopy

theorem entityAt_moveTail {d : ChunkId} {i : Nat} (w : World) (a : Archetype) (s : ChunkSlice)
    (hd : d ≠ s.c) : (w.moveTail a s).memory.entityAt d i = w.memory.entityAt d i := by
  simp only [moveTail]
  split_ifs
  · apply (entityAt_fillEntities _ _ (by exact hd)).trans
    exact entityAt_of_writes (Memory.moveWithin_writes ..) fun hc => absurd hc hd
  · rfl

/-- `free_slice` stamps the chunk whose tail it moves. -/
theorem Stamped.freeSlice (hwf : w.store.Wf ctx) (hpos : 0 < s.count)
    (hle : s.start + s.count ≤ w.store.count s.c) (hs : w.freeSlice s = some w') :
    Stamped w w' := by
  obtain ⟨g, a, st₁, w₂, st, hc, ha, hst₁, hw₂, hres, rfl⟩ := freeSlice_spec hs
  have hshape : Store.SameShape w.store st₁ := hst₁ ▸
    (Store.structuralChange_shape w.store g a s.c).trans (Store.subSize_shape _ g s.count)
  have hwf₁ : st₁.Wf ctx := hwf.congr hshape
  have hc₁ : st₁.type s.c = some g := hshape.type ▸ hc
  have ha₁ : st₁.archetype g = some a := hshape.archetype ▸ ha
  have hle₁ : s.start + s.count ≤ st₁.count s.c := hshape.count ▸ hle
  have hcap := hwf₁.count_le s.c g a hc₁ ha₁
  have hlt := hwf₁.capacity_lt ha₁ (st₁.ct s.c)
  have hchange : Store.Stamps w.store st₁ s.c := hst₁ ▸
    (Store.Stamps.structuralChange w.store g a s.c).trans (.subSize _ g s.count s.c)
  have hresize := Store.Stamps.resizeChunk hres
  rw [sub32_of_le (by omega) (by omega)] at hres
  obtain ⟨-, hcase⟩ := hwf₁.resizeChunk hc₁ ha₁ (by omega) (fun _ hfull => by omega) hres
  have hocc := occupied_of_resize hc₁ hcase
  apply Stamped.of_stamps (hchange.trans hresize)
  · intro g' a' harch k hk
    obtain ⟨htype, ha'⟩ := archetypeOf_eq_some.mp harch
    rcases hcase with ⟨-, hremoved⟩ | ⟨-, hresized⟩
    · rw [hremoved.type, Function.update_self] at htype
      simp at htype
    · rw [hresized.type, hc₁, Option.some.injEq] at htype
      rw [hresized.archetype, ← htype, ha₁, Option.some.injEq] at ha'
      rw [← ha'] at hk
      have hword : st₁.timestamps s.c k = st₁.timestamp := by
        rw [hchange.now, hst₁]
        exact Store.timestamps_structuralChange hk
      rw [hresize.kept k hword, hchange.now]
  · intro d h b hd harch
    obtain ⟨htype, hb⟩ := archetypeOf_eq_some.mp harch
    rw [archetypeOf_eq_some, ← hshape.type, ← hshape.archetype]
    rcases hcase with ⟨-, hremoved⟩ | ⟨-, hresized⟩
    · rw [hremoved.type, Function.update_of_ne hd] at htype
      exact ⟨htype, hremoved.alive hb⟩
    · rw [hresized.type] at htype
      rw [hresized.archetype] at hb
      exact ⟨htype, hb⟩
  · intro d i hd hi
    rw [hocc d i, if_neg hd, occupied_congr hshape.type hshape.count] at hi
    refine ⟨hi, ?_⟩
    rw [hw₂]
    exact entityAt_moveTail _ a s hd

theorem Stamped.release (h : Sound ctx nowhere w) (hv : w.ValidSlice s)
    (hs : w.release s = some w') : Stamped w w' := by
  obtain ⟨w₁, hfree, hs⟩ := Option.bind_eq_some_iff.mp hs
  obtain ⟨hstore, hmem, -⟩ := freeEntities_store hfree
  have hfirst : Stamped w w₁ := .of_handles hstore fun _ _ _ => by rw [hmem]
  have hwf : w₁.store.Wf ctx := hstore ▸ h.wf
  have hle : s.start + s.count ≤ w₁.store.count s.c := hstore ▸ hv.le
  exact hfirst.trans (.freeSlice hwf hv.pos hle hs)

theorem Stamped.getArchetype {key : EntityType} (h : Sound ctx nowhere w)
    (halive : ∀ c g, w.store.type c = some g → ∃ a, w.store.archetype g = some a)
    (hs : w.getArchetype ctx key = some (w', g)) : Stamped w w' := by
  obtain ⟨-, hext, -, hmem, -⟩ := h.getArchetype hs
  obtain ⟨st, hget, rfl⟩ := getArchetype_eq_some hs
  obtain ⟨hnow, hsame⟩ := Store.getArchetype_timestamps hget
  refine ⟨hnow, fun d h b harch => Or.inr ⟨?_, congrFun hsame d, fun i hi => ?_⟩⟩
  · obtain ⟨htype, hb⟩ := archetypeOf_eq_some.mp harch
    rw [hext.type] at htype
    obtain ⟨b', hb'⟩ := halive d h htype
    obtain rfl : b' = b := Option.some.inj ((hext.archetype h b' hb').symm.trans hb)
    exact archetypeOf_eq_some.mpr ⟨htype, hb'⟩
  · exact ⟨(occupied_congr hext.type hext.count d i).mp hi, rfl⟩

/-- The loop of `allocate`. -/
theorem Stamped.allocateLoop (hm : ctx.maskId < 3 * 2 ^ 30) {ss : List ChunkSlice}
    (h : Sound ctx nowhere w) (ha : w.store.archetype g = some a)
    (hs : World.allocateLoop ctx g fuel n w = some (w', ss)) : Stamped w w' := by
  refine (allocateLoop_invariant (I := fun v => (Sound ctx nowhere v ∧
    v.store.archetype g = some a) ∧ Stamped w v) ?_ ⟨⟨h, ha⟩, .refl w⟩ hs).2
  rintro v v₁ v₂ n s g' a' ⟨⟨hv, ha⟩, hstamped⟩ - halloc harch hnew
  obtain ⟨hty, ha₁, W, hwrites, hbehind⟩ := construct_behind hm hv.wf ha halloc harch
  obtain ⟨h₂, hstore, -, -⟩ := hv.fill ha halloc hty hwrites (fun _ => hbehind) hnew
  refine ⟨⟨h₂, hstore ▸ ha₁⟩, hstamped.trans ?_⟩
  obtain ⟨st, hst, rfl⟩ := allocateSlice_eq_some.mp halloc
  obtain ⟨-, hall⟩ := hv.wf.allocateSlice ha hst hty
  apply Stamped.of_allocated ha hst hall hstore
  intro d i hd
  exact (entityAt_of_writes (newEntities_writes hnew) fun hc => absurd hc hd).trans
    (entityAt_of_writes hwrites fun hc => absurd hc hd)

/-- The loop of `instantiate_single`. -/
theorem Stamped.instantiateLoop {src : Entity} {t : ChunkSlice} {side : Memory.CastSide}
    {ss : List ChunkSlice} (h₀ : Instantiating ctx src t side g a n w)
    (hs : World.instantiateLoop ctx src g fuel n w = some (w', ss)) : Stamped w w' := by
  suffices hinv : ∃ m, Instantiating ctx src t side g a m w' ∧ Stamped w w' from
    hinv.choose_spec.2
  refine instantiateLoop_invariant (I := fun n v => Instantiating ctx src t side g a n v ∧
    Stamped w v) ?_ ⟨h₀, .refl w⟩ hs
  rintro v v₁ v₂ n s from_ side' g' a' mm ⟨hv, hstamped⟩ hn halloc hfrom hside' harch hdup hnew
  obtain ⟨hnext, -⟩ := hv.turn hn halloc hfrom hside' harch hdup hnew
  refine ⟨hnext, hstamped.trans ?_⟩
  obtain ⟨st, hst, rfl⟩ := allocateSlice_eq_some.mp halloc
  have hty : st.type s.c ≠ none := by
    rw [(archetypeOf_eq_some.mp harch).1]
    exact Option.some_ne_none g'
  obtain ⟨hwf, hall⟩ := hv.sound.wf.allocateSlice hv.target hst hty
  obtain ⟨gₛ, aₛ, -, haₛ, hsideₛ⟩ := side_eq_some.mp hside'
  have hlayout : Layout side'.a := by
    rw [hsideₛ]
    exact constructArchetype_layout (hwf.built gₛ aₛ haₛ).2
  apply Stamped.of_allocated hv.target hst hall (newEntities_store hnew).1
  intro d i hd
  exact (entityAt_of_writes (newEntities_writes hnew) fun hc => absurd hc hd).trans
    (entityAt_of_writes (Memory.duplicate_writes hlayout hdup) fun hc => absurd hc hd)

/-- `cast_slice` stamps the slices it fills and the chunk it takes them from. -/
theorem Stamped.castSlice (hm : ctx.maskId < 3 * 2 ^ 30) {srcG : ArchetypeId}
    {ss : List ChunkSlice} (h : Sound ctx nowhere w) (hv : w.ValidSlice s)
    (ha : w.store.archetype g = some a) (hc : w.store.type s.c = some srcG) (hg : srcG ≠ g)
    (hs : World.castSlice ctx fuel w s g = some (w', ss)) : Stamped w w' := by
  obtain ⟨g', a', w₁, hc', ha', hloop, hfree⟩ := castSlice_spec hs
  have hshape := (Store.structuralChange_shape w.store g' a' s.c).trans
    (Store.subSize_shape _ g' s.count)
  have hbegin : Stamped w { w with
      store := (w.store.structuralChange g' a' s.c).subSize g' s.count } := by
    apply Stamped.of_stamps (c := s.c)
      ((Store.Stamps.structuralChange w.store g' a' s.c).trans (.subSize _ g' s.count s.c))
    · intro g'' a'' harch k hk
      obtain ⟨htype, hb⟩ := archetypeOf_eq_some.mp harch
      rw [hshape.type, hc', Option.some.injEq] at htype
      rw [hshape.archetype, ← htype, ha', Option.some.injEq] at hb
      rw [← hb] at hk
      exact Store.timestamps_structuralChange hk
    · intro d g'' a'' _ harch
      rw [archetypeOf_eq_some, hshape.type, hshape.archetype] at harch
      exact archetypeOf_eq_some.mpr harch
    · intro d i _ hi
      exact ⟨(occupied_congr hshape.type hshape.count d i).mp hi, rfl⟩
  suffices hinv : ∃ k, s.count ≤ k ∧ Casting ctx s srcG g a k w₁ ∧ Stamped w w₁ by
    obtain ⟨k, -, hcasting, hstamped⟩ := hinv
    exact hstamped.trans (.freeSlice hcasting.sound.wf hv.pos hcasting.le hfree)
  refine castLoop_invariant (I := fun k v => Casting ctx s srcG g a k v ∧ Stamped w v) ?_
    ⟨h.casting hv ha hc g' a', hbegin⟩ hloop
  rintro v v₁ k t dst side mm ⟨hcasting, hstamped⟩ hlt halloc hdst hside hcast
  obtain ⟨hturn, hnext⟩ := hcasting.turn hm hg hlt halloc hdst hcast
  refine ⟨hnext, hstamped.trans ?_⟩
  obtain ⟨st, hst, rfl⟩ := allocateSlice_eq_some.mp halloc
  apply Stamped.of_allocated hcasting.target hst hturn.slots rfl
  intro d i hd
  have hcopy := entityAt_copyHandles { v with store := st, memory := mm } t.c t.start s.c
    (s.start + k) t.count d i
  rw [if_neg fun hin => hd hin.1] at hcopy
  exact hcopy.trans (entityAt_of_writes hturn.writes fun hc => absurd hc hd)

/-- A whole chunk that goes over to another archetype is stamped for its new types. -/
theorem Stamped.relink (hctx : ctx.Paired) {srcG : ArchetypeId} {srcA : Archetype}
    (h : w.store.Wf ctx) (hc : w.store.type s.c = some srcG)
    (hsrcA : w.store.archetype srcG = some srcA) (ha : w.store.archetype g = some a)
    (hg : srcG ≠ g) (hfast : Relinks ctx w s srcG g srcA a w') : Stamped w w' := by
  obtain ⟨st₁, st, hrem, hadd, rfl⟩ := hfast.store
  obtain ⟨hwf₁, hremoved⟩ := h.removeChunk hc hrem
  have ha₁ : st₁.archetype g = some a := (hremoved.archetype g (Ne.symm hg)).trans ha
  have hcap : srcA.chunkCapacity = a.chunkCapacity :=
    capacity_of_staticCastable hctx (h.built srcG srcA hsrcA).2 (h.built g a ha).2 hfast.castable
  have hfresh : s.c < w.store.freshChunk := by
    by_contra hge
    simp [h.fresh s.c (Nat.le_of_not_lt hge)] at hc
  obtain ⟨-, hretyped, harchs⟩ := hwf₁.addChunk ha₁
    (by rw [hremoved.type, Function.update_self]) (hremoved.freshChunk ▸ hfresh)
    (by
      rw [hremoved.count, hremoved.ct, ← hcap]
      exact h.count_le s.c srcG srcA hc hsrcA) hadd
  have hfirst := Store.Stamps.removeChunk hrem
  obtain ⟨hsecond, hwords⟩ := Store.Stamps.addChunk ha₁ hadd
  apply Stamped.of_stamps (hfirst.trans hsecond)
  · intro g' a' harch k hk
    obtain ⟨htype, ha'⟩ := archetypeOf_eq_some.mp harch
    rw [hretyped.type, Function.update_self, Option.some.injEq] at htype
    rw [harchs, ← htype, ha₁, Option.some.injEq] at ha'
    rw [← ha'] at hk
    exact (hwords k hk).trans hfirst.now
  · intro d h b hd harch
    obtain ⟨htype, hb⟩ := archetypeOf_eq_some.mp harch
    rw [hretyped.type, Function.update_of_ne hd, hremoved.type, Function.update_of_ne hd] at htype
    rw [harchs] at hb
    exact archetypeOf_eq_some.mpr ⟨htype, hremoved.alive hb⟩
  · intro d i hd hi
    simp only [Store.Occupied, hretyped.type, hretyped.count, hremoved.type, hremoved.count,
      Function.update_of_ne hd] at hi
    exact ⟨hi, rfl⟩

theorem Stamped.castTo (hctx : ctx.Built) {target : Option ArchetypeId} {ss : List ChunkSlice}
    (h : Sound ctx nowhere w) (hv : w.ValidSlice s)
    (hs : w.castTo ctx fuel s target = some (w', ss)) : Stamped w w' := by
  have hm : ctx.maskId < 3 * 2 ^ 30 := by
    rw [hctx.ids.2.2.2]
    decide
  cases target with
  | none => exact .release h hv (castTo_none hs)
  | some g =>
      obtain ⟨srcG, srcA, a, hc, hsrcA, ha, hcase⟩ := castTo_cases hs
      rcases hcase with ⟨-, rfl⟩ | ⟨hg, hfast⟩ | ⟨hg, -, hcast⟩
      · exact .refl w'
      · exact .relink hctx.paired h.wf hc hsrcA ha hg hfast
      · exact .castSlice hm h hv ha hc hg hcast

/-- Every call stamps the chunks to which it brings an entity. -/
theorem stamped_step (hctx : ctx.Built) {op : Op} (hw : Orderly ctx w) (hv : op.Valid w)
    (hp : op.Orderly ctx w) (hs : op.run ctx fuel w = some w') : Stamped w w' := by
  have hm : ctx.maskId < 3 * 2 ^ 30 := by
    rw [hctx.ids.2.2.2]
    decide
  have halive := hw.listed.alive
  cases op with
  | allocate type count =>
      obtain ⟨⟨_, ss⟩, hrun, rfl⟩ := Option.map_eq_some_iff.mp hs
      simp only [World.allocate, Option.bind_eq_bind, Option.bind_eq_some_iff] at hrun
      obtain ⟨⟨w₁, g⟩, hget, hrun⟩ := hrun
      obtain ⟨h₁, -, -, -, a, ha, -⟩ := hw.sound.getArchetype hget
      exact (Stamped.getArchetype hw.sound halive hget).trans (.allocateLoop hm h₁ ha hrun)
  | instantiate src count =>
      obtain ⟨⟨_, ss⟩, hrun, rfl⟩ := Option.map_eq_some_iff.mp hs
      obtain ⟨w₁, h₁, ⟨a, target, hcasted⟩, hcase⟩ :=
        instantiate_cases hw.sound hp.noGroup hp.clear hrun
      have hfirst : Stamped w w₁ := by
        rcases getCasted_cases hcasted with ⟨-, rfl, -⟩ | ⟨g, -, hget, -⟩
        · exact .refl w₁
        · exact .getArchetype hw.sound halive hget
      rcases hcase with hsame | ⟨s, side, g, b, hstart, hloop⟩
      · exact hsame ▸ hfirst
      · exact hfirst.trans (.instantiateLoop hstart hloop)
  | destroy s =>
      obtain ⟨g, a, harch, hcase⟩ := destroy_moves hctx hw (memberless_of_noGroup hp.noGroup) hs
      rcases hcase with ⟨-, rfl⟩ | ⟨-, -, hrel⟩ | ⟨-, -, st, g', b, ss, hget, hext, -, -, hb, -, hg,
        hcast⟩
      · exact .refl w'
      · exact .release hw.sound hv hrel
      · obtain ⟨hc, -⟩ := archetypeOf_eq_some.mp harch
        have h₁ := (hw.sound.getArchetype hget).1
        exact (Stamped.getArchetype hw.sound halive hget).trans
          (.castSlice hm h₁ (ValidSlice.extend hv hext) hb (hext.type ▸ hc) hg hcast)
  | cast s diff =>
      obtain ⟨⟨_, ss⟩, hrun, rfl⟩ := Option.map_eq_some_iff.mp hs
      simp only [World.cast, Option.bind_eq_bind, Option.bind_eq_some_iff] at hrun
      obtain ⟨⟨g, a⟩, harch, ⟨w₁, target⟩, hcasted, hrun⟩ := hrun
      obtain ⟨h₁, hext, -⟩ := hw.sound.getCasted hcasted
      have hfirst : Stamped w w₁ := by
        rcases getCasted_cases hcasted with ⟨-, rfl, -⟩ | ⟨g, -, hget, -⟩
        · exact .refl w₁
        · exact .getArchetype hw.sound halive hget
      exact hfirst.trans (.castTo hctx h₁ (ValidSlice.extend hv hext) hrun)
  | castType s type =>
      obtain ⟨⟨_, ss⟩, hrun, rfl⟩ := Option.map_eq_some_iff.mp hs
      simp only [World.castType, Option.bind_eq_bind, Option.bind_eq_some_iff] at hrun
      obtain ⟨⟨w₁, g⟩, hget, hrun⟩ := hrun
      obtain ⟨h₁, hext, -⟩ := hw.sound.getArchetype hget
      exact (Stamped.getArchetype hw.sound halive hget).trans
        (.castTo hctx h₁ (ValidSlice.extend hv hext) hrun)
  | getArchetype type =>
      obtain ⟨⟨_, g⟩, hrun, rfl⟩ := Option.map_eq_some_iff.mp hs
      exact .getArchetype hw.sound halive hrun
  | query f =>
      obtain ⟨⟨_, q⟩, hrun, rfl⟩ := Option.map_eq_some_iff.mp hs
      obtain ⟨queries, rfl⟩ := query_eq_some hrun
      exact ⟨rfl, fun d h b harch => Or.inr ⟨harch, rfl, fun i hi => ⟨hi, rfl⟩⟩⟩
  | write memory =>
      obtain rfl := Option.some.inj hs
      exact .of_handles rfl hv

/-! ## The clock -/

/-- `world::inc_timestamp`. -/
def incTimestamp (w : World) : World :=
  { w with store := { w.store with timestamp := (w.store.timestamp + 1) % 2 ^ 32 } }

/-- The types of every archetype are a set of at most 65535 components, all with a column. -/
def Columnar (w : World) : Prop :=
  ∀ g a, w.store.archetype g = some a →
    Set.Sorted a.types ∧ (∀ t ∈ a.types, t.isTag = false) ∧ a.types.length < 2 ^ 16

end World

/-- The calls of a program that looks for changes. -/
inductive TimedOp
  | call (op : Op)
  | getOwnedRw (e : Entity) (t : TypeIndex)
  | incTimestamp

def TimedOp.run (ctx : Context) (fuel : Nat) (w : World) : TimedOp → Option World
  | .call op => op.run ctx fuel w
  | .getOwnedRw e t => (w.getOwnedRw e t).map Prod.fst
  | .incTimestamp => some w.incTimestamp

/-- The clock does not wrap around. -/
def TimedOp.Orderly (ctx : Context) (w : World) : TimedOp → Prop
  | .call op => op.Valid w ∧ op.Orderly ctx w
  | .getOwnedRw _ _ => True
  | .incTimestamp => w.store.timestamp + 1 < 2 ^ 32

namespace World

/-- One call that completes. -/
def TimedStep (ctx : Context) (w w' : World) : Prop :=
  ∃ (op : TimedOp) (fuel : Nat), op.Orderly ctx w ∧ op.run ctx fuel w = some w' ∧ w'.Columnar ∧
    w'.store.Laid

/-- `e` owns component `t`. -/
def Owns (w : World) (e : Entity) (t : TypeIndex) : Prop :=
  ∃ c i g a, w.Found e c i ∧ w.archetypeOf c = some (g, a) ∧ t ∈ a.types

/-- A call that gives component `t` to `e`, or hands it out for writing. -/
inductive Changes (ctx : Context) (e : Entity) (t : TypeIndex) (w w' : World) : Prop
  | comes (hs : TimedStep ctx w w') (hno : ¬ w.Owns e t) (howns : w'.Owns e t)
  | written (p : ChunkId × Nat) (hs : w.getOwnedRw e t = some (w', some p))
      (hsize : w.ents.size < 2 ^ 24)

/-- Where the owners of component `t` are, and the timestamps of their chunks for `t`. -/
def clock (t : TypeIndex) : Library.Stamps World Entity ChunkId Nat where
  now w := w.store.timestamp
  lies w e c := ∃ i g a, w.Found e c i ∧ w.archetypeOf c = some (g, a) ∧ t ∈ a.types
  stamp w c := (w.archetypeOf c).elim 0 fun p => (w.store.getTimestamp p.2 c t).1

variable {ctx : Context} {w w₁ w' : World} {g : ArchetypeId} {a : Archetype} {c : ChunkId}
  {i : Nat} {e : Entity} {t : TypeIndex}

theorem stamp_clock (harch : w.archetypeOf c = some (g, a)) :
    (clock t).stamp w c = (w.store.getTimestamp a c t).1 := by
  simp only [clock, harch, Option.elim_some]

theorem Columnar.index_lt (hcol : w.Columnar) (hsorted : w.store.SortedKeys)
    (ha : w.store.archetype g = some a) (ht : t ∈ a.types) :
    a.index t = a.column t ∧ a.index t ≠ invalidIndex :=
  World.index_lt (hsorted g a ha) (hcol g a ha).2.2 ht

/-- The word of a component that is owned. -/
theorem stamp_eq (hcol : w.Columnar) (hsorted : w.store.SortedKeys)
    (harch : w.archetypeOf c = some (g, a)) (ht : t ∈ a.types) :
    (clock t).stamp w c = w.store.timestamps c (a.column t) := by
  obtain ⟨hindex, hvalid⟩ := hcol.index_lt hsorted (archetypeOf_eq_some.mp harch).2 ht
  rw [stamp_clock harch, Store.getTimestamp, if_neg hvalid, hindex]

/-! ## Steps under the clock -/

/-- Timestamps alone change. -/
theorem Orderly.congr (h : Orderly ctx w) {st : Store} (hs : Store.SameShape w.store st) :
    Orderly ctx { w with store := st } where
  sound := h.sound.congr hs
  listed := h.listed.congr hs
  sorted := fun g a ha => h.sorted g a (hs.archetype ▸ ha)

theorem mark_shape (st : Store) (c : ChunkId) (id : Nat) : Store.SameShape st (st.mark c id) :=
  ⟨rfl, rfl, rfl, rfl, rfl, rfl, rfl, rfl, rfl, rfl, rfl⟩

/-- `get_owned_rw` leaves the world alone or marks a word of the chunk of the entity. -/
theorem getOwnedRw_cases {p : Option (ChunkId × Nat)} (hs : w.getOwnedRw e t = some (w', p)) :
    p = none ∧ w' = w ∨
      ∃ d g a addr, p = some (d, addr) ∧ w.ents.exist e = true ∧
        (w.ents.datas e.id).c = .chunk d ∧ w.archetypeOf d = some (g, a) ∧
        a.index t ≠ invalidIndex ∧ w' = { w with store := w.store.mark d (a.index t) } := by
  simp only [World.getOwnedRw] at hs
  split_ifs at hs with hexist
  · obtain ⟨s, hslice, hs⟩ := Option.bind_eq_some_iff.mp hs
    simp only [sliceOwnedRw, Option.bind_eq_bind, Option.bind_eq_some_iff] at hs
    obtain ⟨⟨g, a⟩, harch, hs⟩ := hs
    split_ifs at hs with hid
    · obtain ⟨rfl, rfl⟩ := Prod.mk.inj (Option.some.inj hs)
      exact Or.inl ⟨rfl, rfl⟩
    · obtain ⟨rfl, rfl⟩ := Prod.mk.inj (Option.some.inj hs)
      exact Or.inr ⟨s.c, g, a, _, rfl, hexist, TimestampCall.entry_of_asSlice hslice, harch,
        fun hinvalid => hid (Or.inl hinvalid), rfl⟩
  · obtain ⟨rfl, rfl⟩ := Prod.mk.inj (Option.some.inj hs)
    exact Or.inl ⟨rfl, rfl⟩

theorem orderly_timed (hctx : ctx.Built) (hreg : ctx.tracks.length < 2 ^ 30)
    (hw : Orderly ctx w) (hs : TimedStep ctx w w') : Orderly ctx w' := by
  obtain ⟨op, fuel, hp, hs, -⟩ := hs
  cases op with
  | call op => exact hw.step hctx hreg hp.1 hp.2 hs
  | getOwnedRw e u =>
      obtain ⟨⟨_, p⟩, hrun, rfl⟩ := Option.map_eq_some_iff.mp hs
      rcases getOwnedRw_cases hrun with ⟨-, rfl⟩ | ⟨d, g, a, addr, -, -, -, -, -, rfl⟩
      · exact hw
      · exact hw.congr (mark_shape w.store d (a.index u))
  | incTimestamp =>
      obtain rfl := Option.some.inj hs
      exact hw.congr ⟨rfl, rfl, rfl, rfl, rfl, rfl, rfl, rfl, rfl, rfl, rfl⟩

/-- Where timestamps alone change, entities are where they were. -/
theorem found_congr {st : Store} (hs : Store.SameShape w.store st) :
    { w with store := st }.Found e c i ↔ w.Found e c i := by
  have hocc := occupied_congr hs.type hs.count c i
  constructor
  · intro h
    exact ⟨hocc.mp h.occupied, h.handle, h.entry⟩
  · intro h
    exact ⟨hocc.mpr h.occupied, h.handle, h.entry⟩

theorem archetypeOf_congr {st : Store} (hs : Store.SameShape w.store st) :
    { w with store := st }.archetypeOf c = w.archetypeOf c := by
  simp only [archetypeOf, hs.type, hs.archetype]

/-- Every call stamps the chunks to which an owner comes. -/
theorem honest_timed (hctx : ctx.Built) (hreg : ctx.tracks.length < 2 ^ 30) (hw : Orderly ctx w)
    (hs : TimedStep ctx w w') : (clock t).Honest w w' := by
  have hw' := orderly_timed hctx hreg hw hs
  obtain ⟨op, fuel, hp, hs, hcol, -⟩ := hs
  cases op with
  | call op =>
      have hstamped := stamped_step hctx hw hp.1 hp.2 hs
      refine ⟨hstamped.now.ge, ?_⟩
      rintro e c ⟨i, g, a, hfound, harch, ht⟩
      rw [stamp_eq hcol hw'.sorted harch ht]
      rcases hstamped.chunk c g a harch with hnow | hkept
      · exact Or.inl (hnow _ (Archetype.column_lt ht))
      · right
        obtain ⟨hocc, hhandle⟩ := hkept.slots i hfound.occupied
        have hfound' := hw.sound.found hocc
        rw [← hhandle, hfound.handle] at hfound'
        refine ⟨⟨i, g, a, hfound', hkept.archetype, ht⟩, ?_⟩
        have hcolumn := (hcol.index_lt hw'.sorted (archetypeOf_eq_some.mp harch).2 ht)
        rw [stamp_clock hkept.archetype, Store.getTimestamp, if_neg hcolumn.2, hcolumn.1,
          hkept.timestamps]
  | getOwnedRw x u =>
      obtain ⟨⟨_, p⟩, hrun, rfl⟩ := Option.map_eq_some_iff.mp hs
      rcases getOwnedRw_cases hrun with ⟨-, rfl⟩ | ⟨d, h, b, addr, -, -, -, hb, -, rfl⟩
      · exact ⟨le_rfl, fun e c hlies => Or.inr ⟨hlies, rfl⟩⟩
      · have hshape := mark_shape w.store d (b.index u)
        refine ⟨le_rfl, ?_⟩
        rintro e c ⟨i, g, a, hfound, harch, ht⟩
        rw [found_congr hshape] at hfound
        rw [stamp_eq hcol hw'.sorted harch ht]
        rw [archetypeOf_congr hshape] at harch
        by_cases hword : c = d ∧ a.column t = b.index u
        · left
          obtain ⟨rfl, hsame⟩ := hword
          change Function.update w.store.timestamps c _ c _ = w.store.timestamp
          rw [Function.update_self, hsame, Function.update_self]
        · right
          refine ⟨⟨i, g, a, hfound, harch, ht⟩, ?_⟩
          have hcolumn := hcol.index_lt hw'.sorted (archetypeOf_eq_some.mp harch).2 ht
          rw [stamp_clock harch, Store.getTimestamp, if_neg hcolumn.2, hcolumn.1]
          by_contra hne
          exact hword (TimestampCall.mark_of_ne hne)
  | incTimestamp =>
      obtain rfl := Option.some.inj hs
      have hshape : Store.SameShape w.store w.incTimestamp.store :=
        ⟨rfl, rfl, rfl, rfl, rfl, rfl, rfl, rfl, rfl, rfl, rfl⟩
      have hwrap : (w.store.timestamp + 1) % 2 ^ 32 = w.store.timestamp + 1 :=
        Nat.mod_eq_of_lt hp
      refine ⟨?_, ?_⟩
      · change w.store.timestamp ≤ (w.store.timestamp + 1) % 2 ^ 32
        omega
      · rintro e c ⟨i, g, a, hfound, harch, ht⟩
        exact Or.inr ⟨⟨i, g, a, (found_congr hshape).mp hfound, harch, ht⟩, rfl⟩

/-! ## Runs -/

/-- What is known of every world a run under the clock reaches. -/
structure Timed (ctx : Context) (w : World) : Prop where
  orderly : Orderly ctx w
  columnar : w.Columnar
  laid : w.store.Laid

theorem timed_initial (ctx : Context) (timestamp : Nat) (raw : Nat → Nat) (data : ChunkId → Mem)
    (guids : Nat → List UInt8) : Timed ctx (World.initial timestamp raw data guids) where
  orderly := orderly_initial ctx timestamp raw data guids
  columnar := by simp [Columnar, World.initial]
  laid _ hg := absurd hg (Nat.not_lt_zero _)

theorem Timed.step (hctx : ctx.Built) (hreg : ctx.tracks.length < 2 ^ 30) (hw : Timed ctx w)
    (hs : TimedStep ctx w w') : Timed ctx w' := by
  obtain ⟨op, fuel, -, -, hcol, hlaid⟩ := id hs
  exact ⟨orderly_timed hctx hreg hw.orderly hs, hcol, hlaid⟩

theorem Changes.timedStep (h : Changes ctx e t w w') (hw : Timed ctx w) : TimedStep ctx w w' := by
  cases h with
  | comes hs => exact hs
  | written p hs _ =>
      refine ⟨.getOwnedRw e t, 0, trivial, by rw [TimedOp.run, hs, Option.map_some], ?_⟩
      rcases getOwnedRw_cases hs with ⟨hnone, -⟩ | ⟨d, g, a, addr, -, -, -, -, -, rfl⟩
      · simp at hnone
      · exact ⟨hw.columnar, hw.laid⟩

/-- The chunk of the entity is stamped by the change. -/
theorem Changes.since (hctx : ctx.Built) (hreg : ctx.tracks.length < 2 ^ 30) (hw : Timed ctx w)
    (h : Changes ctx e t w w') : (clock t).Since w' e w'.store.timestamp := by
  have honest : (clock t).Honest w w' := honest_timed hctx hreg hw.orderly (h.timedStep hw)
  cases h with
  | comes _ hno _ =>
      apply honest.arrives
      rintro c ⟨i, g, a, hlies⟩
      exact hno ⟨c, i, g, a, hlies⟩
  | written p hs hsize =>
      rcases getOwnedRw_cases hs with ⟨hnone, -⟩ | ⟨d, h, b, addr, -, -, hentry, hb, hvalid, rfl⟩
      · simp at hnone
      · have hshape := mark_shape w.store d (b.index t)
        rintro c ⟨i, g, a, hfound, harch, ht⟩
        obtain ⟨-, hchunk, -⟩ := ((found_congr hshape).mp hfound).entry hsize
        obtain rfl : c = d := Location.chunk.inj (hchunk.symm.trans hentry)
        rw [stamp_clock harch]
        rw [archetypeOf_congr hshape, hb] at harch
        obtain ⟨-, rfl⟩ := Prod.mk.inj (Option.some.inj harch)
        rw [Store.getTimestamp, if_neg hvalid]
        change _ ≤ Function.update w.store.timestamps c _ c _
        rw [Function.update_self, Function.update_self]
        exact le_rfl

end World

/-- A word of the set that is recent enough ends the scan. -/
theorem markedFrom_of_recent {stamps : Nat → Nat} {prev j k : Nat} {changed types : List TypeIndex}
    {u : TypeIndex} (hu : types[k]? = some u) (hmem : u ∈ changed) (hprev : prev ≤ stamps (j + k)) :
    (markedFrom stamps prev changed j types).1 = true := by
  induction types generalizing j k with
  | nil => simp at hu
  | cons v types ih =>
      rw [markedFrom]
      cases k with
      | zero =>
          obtain rfl : v = u := Option.some.inj hu
          rw [Nat.add_zero] at hprev
          rw [if_pos hmem, if_pos hprev]
      | succ k =>
          have hrest : (markedFrom stamps prev changed (j + 1) types).1 = true := by
            apply ih hu
            rwa [show j + 1 + k = j + (k + 1) by omega]
          split_ifs
          · rfl
          · exact hrest
          · exact hrest

theorem ChunkFilter.match_of_recent (f : ChunkFilter) {stamps : Nat → Nat} {k : Nat}
    {types : List TypeIndex} {u : TypeIndex} (hs : Set.Sorted types) (hu : types[k]? = some u)
    (hmem : u ∈ f.changed) (hprev : f.prevTimestamp ≤ stamps k) :
    (f.match types stamps).1 = true := by
  unfold ChunkFilter.match
  split_ifs
  · rfl
  · rw [matchChanged_eq f.sorted hs]
    apply markedFrom_of_recent hu hmem
    rwa [Nat.zero_add]

namespace World

variable {ctx : Context} {w w₁ w' : World} {g : ArchetypeId} {a : Archetype} {c : ChunkId}
  {i : Nat} {e : Entity} {t : TypeIndex}

/-- A filter on component `t` that looked last when `e` came to own it or was handed out for
writing, or before, finds the chunk of `e` in every later state in which `e` owns `t`. The words it
looks at are in the blocks, where the parts of these are apart. -/
theorem finds_of_changes (hctx : ctx.Built) (hreg : ctx.tracks.length < 2 ^ 30) {timestamp : Nat}
    {raw : Nat → Nat} {data : ChunkId → Mem} {guids : Nat → List UInt8}
    (hbefore : Relation.ReflTransGen (TimedStep ctx) (World.initial timestamp raw data guids) w)
    (hchange : Changes ctx e t w w₁) (hafter : Relation.ReflTransGen (TimedStep ctx) w₁ w')
    (f : ChunkFilter) (hchanged : t ∈ f.changed) (hprev : f.prevTimestamp ≤ w₁.store.timestamp)
    (hfound : w'.Found e c i) (harch : w'.archetypeOf c = some (g, a)) (ht : t ∈ a.types) :
    w'.InBlocks ∧ ∃ l, Complete w'.store g a l ∧ c ∈ w'.store.queryChunks a f l := by
  have hw : Timed ctx w :=
    invariant_of_run (fun _ _ hs hv => hv.step hctx hreg hs) hbefore
      (timed_initial ctx timestamp raw data guids)
  have hw₁ := hw.step hctx hreg (hchange.timedStep hw)
  obtain ⟨hw', hsince⟩ := Library.Stamps.since_of_run (V := clock t) (I := Timed ctx)
    (fun v v' hv hs => ⟨honest_timed hctx hreg hv.orderly hs, hv.step hctx hreg hs⟩) hafter hw₁
    le_rfl (hchange.since hctx hreg hw)
  obtain ⟨htype, ha⟩ := archetypeOf_eq_some.mp harch
  obtain ⟨fulls, frees, hchain⟩ := hw'.orderly.listed.chain g a ha
  have hstamp : w₁.store.timestamp ≤ w'.store.timestamps c (a.column t) := by
    rw [← stamp_eq hw'.columnar hw'.orderly.sorted harch ht]
    exact hsince c ⟨i, g, a, hfound, harch, ht⟩
  have hword : a.types[a.column t]? = some t := by
    rw [List.getElem?_eq_getElem (Archetype.column_lt ht), Archetype.types_column ht]
  have hmatch : (f.match a.types (w'.store.timestamps c)).1 = true :=
    f.match_of_recent (hw'.columnar g a ha).1 hword hchanged (hprev.trans hstamp)
  refine ⟨inBlocks_of_laid hw'.orderly.listed.toWf hw'.laid, _,
    complete_of_chain hw'.orderly.listed.toLinked hchain, ?_⟩
  have hmem : c ∈ fulls ++ frees := (hchain.mem c).mpr htype
  rw [Store.queryChunks]
  split_ifs
  · exact hmem
  · exact List.mem_filter.mpr ⟨hmem, hmatch⟩

/-- An entity is made at time 1, and the clock ticks. -/
theorem finds_of_tick : ∃ w₁ a l,
    Op.run oneByte 2 blank (.allocate { types := [4] } 1) = some w₁ ∧
      w₁.incTimestamp.InBlocks ∧ Complete w₁.incTimestamp.store 0 a l ∧ 0 ∈ w₁.incTimestamp.store.queryChunks a
        { changed := [4], prevTimestamp := 1, sorted := List.pairwise_singleton _ _ } l := by
  have hsome : (Op.run oneByte 2 blank (.allocate { types := [4] } 1)).bind
      (fun w => (w.store.archetype 0).map fun a => (w.store.freshArchetype, a.types,
        w.store.type 0, [w.store.timestamp, w.store.count 0, (w.memory.entityAt 0 0).value],
        decide w.store.Laid)) =
      some (1, [4], some 0, [1, 1, 0], true) := by decide +kernel
  obtain ⟨w₁, hrun, hsome⟩ := Option.bind_eq_some_iff.mp hsome
  obtain ⟨a, ha, hfacts⟩ := Option.map_eq_some_iff.mp hsome
  simp only [Prod.mk.injEq, List.cons.injEq, and_true, decide_eq_true_eq] at hfacts
  obtain ⟨hfresh, htypes, htype, ⟨hnow, hcount, hhandle⟩, hlaid⟩ := hfacts
  have hp : (Op.allocate { types := [4] } 1).Orderly oneByte blank :=
    ⟨trivial, trivial, trivial, show SortedTypes [4] from ⟨by decide, by decide⟩⟩
  have hv : (Op.allocate { types := [4] } 1).Valid blank := trivial
  have hreg : oneByte.tracks.length < 2 ^ 30 := by decide
  have hw₁ : Orderly oneByte w₁ :=
    (orderly_initial oneByte 1 _ _ _).step built_oneByte hreg hv hp hrun
  have hcol : w₁.Columnar := by
    intro g b hb
    have hknown := (hw₁.listed.built g b hb).1
    rw [hfresh] at hknown
    obtain rfl : g = 0 := Nat.lt_one_iff.mp hknown
    obtain rfl : b = a := Option.some.inj (hb.symm.trans ha)
    rw [htypes]
    exact ⟨by decide, by decide, by decide⟩
  have hfound : w₁.Found ⟨0⟩ 0 0 := by
    have hhandle' : w₁.memory.entityAt 0 0 = ⟨0⟩ := Entity.ext hhandle
    rw [← hhandle']
    exact hw₁.sound.found ⟨by simp [htype], by omega⟩
  have harch : w₁.archetypeOf 0 = some (0, a) := archetypeOf_eq_some.mpr ⟨htype, ha⟩
  have hmem : 4 ∈ a.types := by
    rw [htypes]
    exact List.mem_singleton_self 4
  have hmake : TimedStep oneByte blank w₁ := ⟨.call _, 2, ⟨hv, hp⟩, hrun, hcol, hlaid⟩
  have htick : TimedStep oneByte w₁ w₁.incTimestamp :=
    ⟨.incTimestamp, 0, by simp [TimedOp.Orderly, hnow], rfl, hcol, hlaid⟩
  have hshape : Store.SameShape w₁.store w₁.incTimestamp.store :=
    ⟨rfl, rfl, rfl, rfl, rfl, rfl, rfl, rfl, rfl, rfl, rfl⟩
  have hchange : Changes oneByte ⟨0⟩ 4 blank w₁ := by
    refine .comes hmake ?_ ⟨0, 0, 0, a, hfound, harch, hmem⟩
    rintro ⟨c, i, g, b, hf, -⟩
    exact hf.occupied.1 rfl
  obtain ⟨hstamped, l, hl⟩ := finds_of_changes built_oneByte hreg .refl hchange (.single htick)
    { changed := [4], prevTimestamp := 1, sorted := List.pairwise_singleton _ _ }
    (List.mem_singleton_self 4) hnow.ge ((found_congr hshape).mpr hfound)
    ((archetypeOf_congr hshape).trans harch) hmem
  exact ⟨w₁, a, l, hrun, hstamped, hl⟩

end World

end Dots

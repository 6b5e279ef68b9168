import Dots.Database.Undisturbed

/-!
# Calls that return

When the entity table, the lists of chunks and the metatypes can be followed, each of
the calls below comes to an end with a result.
-/

namespace Dots

open Library Entities

namespace Store

variable {ctx : Context} {st st' : Store} {ents : Entities} {g : ArchetypeId} {a : Archetype}
  {c : ChunkId} {n : Nat}

theorem sharedType_of_metatypes (st : Store) (ents : Entities) (h : a.metatypes = []) :
    st.sharedType ents a = some [] := by
  rw [sharedType, sharedTypeFrom, h]
  rfl

theorem Obtainable.of_metatypes (st : Store) (ents : Entities) {key : EntityType}
    (hkey : key.metatypes = []) (ha : constructArchetype ctx key = some a) :
    st.Obtainable ctx ents key := by
  intro _
  refine ⟨a, ha, ?_⟩
  rw [sharedType_of_metatypes _ _
    ((congrArg EntityType.metatypes (constructArchetype_type ha)).trans hkey)]
  exact Option.some_ne_none _

/-! ## The lists of one archetype -/

/-- The list of a living archetype has a tail when it has a head. -/
theorem splice_returns (hlast : ∀ head, st.firstChunk g = some head → st.lastChunk g ≠ none) :
    ∃ st', st.splice g a c = some st' := by
  unfold Store.splice
  cases hf : st.firstChunk g with
  | none => exact ⟨_, rfl⟩
  | some head =>
      obtain ⟨last, hl⟩ := Option.ne_none_iff_exists'.mp (hlast head hf)
      simp only [hl]
      split
      · exact ⟨_, rfl⟩
      · exact ⟨_, rfl⟩

theorem addChunk_returns {fulls frees : List ChunkId} (hch : Chain st g a fulls frees)
    (ha : st.archetype g = some a) (c : ChunkId) : ∃ st', st.addChunk g c = some st' := by
  have hshape := (structuralChange_shape st g a c).trans
    (addSize_shape (st.structuralChange g a c) g (st.count c))
  simp only [Store.addChunk, ha, Option.bind_eq_bind, Option.bind_some]
  revert hshape
  generalize (st.structuralChange g a c).addSize g (st.count c) = st₁
  intro hshape
  apply splice_returns
  intro head hhead hlast
  have hspans := (hch.congr hshape).spans
  rw [hspans.first_none_iff.mpr hlast] at hhead
  simp at hhead

/-- The metatypes of `a` can be followed once chunk `c` has left it, if it was the last. -/
def Detachable (st : Store) (ents : Entities) (g : ArchetypeId) (a : Archetype) (c : ChunkId) :
    Prop :=
  (∀ d, st.type d = some g → d = c) →
    Store.sharedType { st with type := Function.update st.type c none } ents a ≠ none

theorem sharedTypeFrom_congr (htype : st'.type = st.type) (harch : st'.archetype = st.archetype)
    (fuel : Nat) (type : List TypeIndex) (a : Archetype) :
    st'.sharedTypeFrom ents fuel type a = st.sharedTypeFrom ents fuel type a := by
  induction fuel generalizing type a with
  | zero => rfl
  | succ fuel ih =>
      simp only [sharedTypeFrom, ih, getArchetypeOf, archetypeIdOf, htype, harch]

theorem sharedType_congr (htype : st'.type = st.type) (harch : st'.archetype = st.archetype)
    (hfresh : st'.freshArchetype = st.freshArchetype) (a : Archetype) :
    st'.sharedType ents a = st.sharedType ents a := by
  rw [sharedType, sharedType, hfresh, sharedTypeFrom_congr htype harch]

theorem freeArchetype_returns (h : st.sharedType ents a ≠ none) :
    ∃ st', st.freeArchetype ents g a = some st' := by
  simp only [Store.freeArchetype, Option.bind_eq_bind]
  generalize hst : Store.mk _ _ _ _ _ _ _ _ _ _ _ _ _ _ _ _ _ _ = st₁
  have hshared : st₁.sharedType ents a = st.sharedType ents a := by
    rw [← hst]
    apply sharedType_congr
    · rfl
    · rfl
    · rfl
  obtain ⟨st₂, hst₂⟩ := updateQueries_returns (g := g) false (hshared ▸ h)
  simp only [hst₂, Option.bind_some]
  exact ⟨_, rfl⟩

theorem removeChunk_returns (hl : Listed ctx st) (ha : st.archetype g = some a)
    (hc : st.type c = some g) (hmeta : st.Detachable ents g a c) :
    ∃ st', st.removeChunk ents g c = some st' := by
  have hshape := (structuralChange_shape st g a c).trans
    (subSize_shape (st.structuralChange g a c) g (st.count c))
  simp only [Store.removeChunk, ha, Option.bind_eq_bind, Option.bind_some]
  revert hshape
  generalize (st.structuralChange g a c).subSize g (st.count c) = st₁
  intro hshape
  have hl₁ := hl.congr hshape
  obtain ⟨fulls, frees, hch⟩ := hl₁.chain g a (hshape.archetype ▸ ha)
  have hc₁ : st₁.type c = some g := hshape.type ▸ hc
  obtain ⟨fulls', frees', hch'⟩ := hch.takeOut hl₁.toLinked hc₁
  change ∃ st', (if (st₁.takeOut g c).firstChunk g = none then
    (st₁.takeOut g c).freeArchetype ents g a else some (st₁.takeOut g c)) = some st'
  split_ifs with hfirst
  · -- the list is empty, so the chunk was the only one
    have hnil := hch'.spans.first_eq_none.mp hfirst
    have honly : ∀ d, st.type d = some g → d = c := by
      intro d hd
      by_contra hdc
      have hmem := (hch'.mem d).mpr (by
        change Function.update st₁.type c none d = some g
        rw [Function.update_of_ne hdc, hshape.type]
        exact hd)
      simp [hnil] at hmem
    have hshared := hmeta honly
    have htype : (st₁.takeOut g c).type = Function.update st.type c none := by
      change Function.update st₁.type c none = _
      rw [hshape.type]
    have harch : (st₁.takeOut g c).archetype = st.archetype := hshape.archetype
    have hfresh : (st₁.takeOut g c).freshArchetype = st.freshArchetype := hshape.freshArchetype
    apply freeArchetype_returns
    have hsame : (st₁.takeOut g c).sharedType ents a =
        Store.sharedType { st with type := Function.update st.type c none } ents a := by
      apply sharedType_congr
      · exact htype
      · exact harch
      · exact hfresh
    rwa [hsame]
  · exact ⟨_, rfl⟩

theorem resizeChunk_returns (ents : Entities) (hl : Listed ctx st) (ha : st.archetype g = some a)
    (hc : st.type c = some g) (hmeta : n = 0 → st.Detachable ents g a c) :
    ∃ st', st.resizeChunk ents c n = some st' := by
  simp only [Store.resizeChunk, hc, ha, Option.bind_eq_bind, Option.bind_some]
  by_cases hn : n = 0
  · rw [if_pos hn]
    exact removeChunk_returns hl ha hc (hmeta hn)
  · rw [if_neg hn]
    exact ⟨_, rfl⟩

theorem resizeChunk_nonzero (ents : Entities) (ha : st.archetype g = some a)
    (hc : st.type c = some g) (hn : n ≠ 0) :
    ∃ st', st.resizeChunk ents c n = some st' ∧ st'.type = st.type := by
  obtain ⟨st', hs⟩ : ∃ st', st.resizeChunk ents c n = some st' := by
    simp only [Store.resizeChunk, hc, ha, Option.bind_eq_bind, Option.bind_some, if_neg hn]
    exact ⟨_, rfl⟩
  refine ⟨st', hs, ?_⟩
  obtain ⟨links, firstChunk, lastChunk, firstFree, rfl⟩ := resizeChunk_lists hn hs
  rfl

/-! ## `allocate_slice` -/

/-- A new chunk for some of `count` entities has room for one of them. -/
def RoomFor (a : Archetype) (count : Nat) : Prop :=
  ∀ k n, 0 < n → n ≤ count → 0 < a.chunkCapacity (newChunkBin k (n * a.entitySize % 2 ^ 32))

theorem newChunk_returns (hl : Listed ctx st) (ha : st.archetype g = some a) (hint : Nat) :
    ∃ st' c, st.newChunk g hint = some (st', c) := by
  obtain ⟨fulls, frees, hch⟩ := hl.chain g a ha
  simp only [Store.newChunk, ha, Option.bind_eq_bind, Option.bind_some]
  generalize newChunkBin (st.chunkCount g) (hint * a.entitySize % 2 ^ 32) = t
  have hmalloc := hch.apart (mallocChunk_apart hl.toWf (g + 1) t) (Nat.succ_ne_self g).symm
  obtain ⟨st', hst'⟩ := addChunk_returns hmalloc ha (st.mallocChunk t).2
  simp only [hst', Option.bind_some]
  exact ⟨_, _, rfl⟩

/-- The part of `allocate_slice` after the chunk is chosen. -/
theorem allocateIn_returns (ents : Entities) (hwf : Wf ctx st) (ha : st.archetype g = some a)
    (hc : st.type c = some g) (hroom : st.count c < a.chunkCapacity (st.ct c)) (hn : 0 < n) :
    0 < min n (sub32 (a.chunkCapacity (st.ct c)) (st.count c)) ∧
    ∃ st', ((st.structuralChange g a c).addSize g
      (min n (sub32 (a.chunkCapacity (st.ct c)) (st.count c)))).resizeChunk ents c
        (st.count c + min n (sub32 (a.chunkCapacity (st.ct c)) (st.count c))) = some st' ∧
      st'.type c ≠ none := by
  rw [sub32_of_le hroom.le (hwf.capacity_lt ha _)]
  have hpos : 0 < min n (a.chunkCapacity (st.ct c) - st.count c) := by omega
  have hshape := (structuralChange_shape st g a c).trans (addSize_shape
    (st.structuralChange g a c) g (min n (a.chunkCapacity (st.ct c) - st.count c)))
  obtain ⟨st', hst', htype⟩ := resizeChunk_nonzero ents (c := c) (hshape.archetype ▸ ha)
    (hshape.type ▸ hc) (Nat.ne_of_gt (hpos.trans_le (Nat.le_add_left _ (st.count c))))
  refine ⟨hpos, st', hst', ?_⟩
  rw [htype, hshape.type, hc]
  exact Option.some_ne_none g

theorem RoomFor.mono {m : Nat} (h : RoomFor a n) (hm : m ≤ n) : RoomFor a m :=
  fun k j hj hjm => h k j hj (hjm.trans hm)

/-- `allocate_slice` hands out at least one slot. -/
theorem allocateSlice_returns (ents : Entities) (hl : Listed ctx st) (ha : st.archetype g = some a)
    (hn : 0 < n) (hroom : st.firstFree g = none →
      0 < a.chunkCapacity (newChunkBin (st.chunkCount g) (n * a.entitySize % 2 ^ 32))) :
    ∃ st' s, st.allocateSlice ents g n = some (st', s) ∧ st'.type s.c ≠ none ∧ 0 < s.count := by
  obtain ⟨fulls, frees, hch⟩ := hl.chain g a ha
  simp only [Store.allocateSlice, ha, Option.bind_eq_bind, Option.bind_some]
  cases hf : st.firstFree g with
  | some c =>
      have hfree : c ∈ frees := by
        apply List.mem_of_mem_head?
        rw [← hch.firstFree, hf]
        rfl
      have hc := (hch.mem c).mp (List.mem_append_right _ hfree)
      obtain ⟨hpos, st', hst', htype⟩ :=
        allocateIn_returns ents hl.toWf ha hc (hch.room c hfree) hn
      have hshape := structuralChange_shape st g a c
      refine ⟨st', ⟨c, st.count c, _⟩, ?_, htype, hpos⟩
      simp only [hshape.count, hshape.ct, hst', Option.bind_some]
  | none =>
      obtain ⟨st₁, c, hchunk⟩ := newChunk_returns hl ha n
      obtain ⟨h₁, rfl, -, htype, hcount, hct, -, harch, -⟩ := hl.toWf.newChunk ha hf hchunk
      have hlt : st₁.count st.freshChunk < a.chunkCapacity (st₁.ct st.freshChunk) := by
        rw [hcount, hct, Function.update_self, Function.update_self]
        exact hroom hf
      obtain ⟨hpos, st', hst', htype'⟩ := allocateIn_returns ents h₁ (harch ▸ ha)
        (by rw [htype, Function.update_self]) hlt hn
      have hshape := structuralChange_shape st₁ g a st.freshChunk
      refine ⟨st', ⟨st.freshChunk, st₁.count st.freshChunk, _⟩, ?_, htype', hpos⟩
      simp only [hchunk, Option.bind_some, hshape.count, hshape.ct, hst']

theorem Detachable.congr (h : st.Detachable ents g a c) (hs : SameShape st st') :
    st'.Detachable ents g a c := by
  intro honly
  rw [hs.type] at honly ⊢
  rw [sharedType_congr]
  · exact h honly
  · rfl
  · exact hs.archetype
  · exact hs.freshArchetype

end Store

namespace Entities

variable {ents : Entities}

/-- The free list can be popped to its end: no id on it is cut off in a handle. -/
def Poppable (ents : Entities) : Prop := ∃ l, FreeList ents l ∧ ∀ id ∈ l, id < 2 ^ 24

theorem Tracks.poppable {mm : Memory} {L : Slots} (h : Tracks ents mm L)
    (hsize : ents.size < 2 ^ 24) : Poppable ents := by
  obtain ⟨l, hl⟩ := h.freeList
  exact ⟨l, hl, fun id hid => (hl.free id hid).1.trans hsize⟩

/-- The table grows only once the free list is empty, and an empty one stays empty. -/
theorem takeId_returns (h : Poppable ents) (c : ChunkId) (slot : Nat) :
    ∃ ents' e, ents.takeId = some (ents', e) ∧ Poppable (ents'.place e c slot) := by
  obtain ⟨l, hl, hlt⟩ := h
  simp only [takeId]
  split_ifs with hfree
  · refine ⟨_, _, rfl, [], ⟨?_, by simp⟩, by simp⟩
    change freeLink ents.free = none
    rw [hfree]
    rfl
  · have hhead := hl.path.head
    rw [freeLink_eq_some.mpr ⟨rfl, hfree⟩] at hhead
    cases l with
    | nil => simp at hhead
    | cons p l =>
        obtain rfl : ents.free = p := Option.some.inj hhead
        obtain ⟨-, n, hn⟩ := hl.free ents.free List.mem_cons_self
        have hnew := (List.nodup_cons.mp hl.path.nodup).1
        simp only [hn]
        refine ⟨_, _, rfl, l, ⟨?_, fun id hid => ?_⟩, fun id hid =>
          hlt id (List.mem_cons_of_mem _ hid)⟩
        · have htail := hl.path.2
          rw [freeNext_of_nextFree hn] at htail
          refine htail.congr fun id hid => freeNext_congr ?_
          rw [place_datas, Entity.id_make _ (hlt _ List.mem_cons_self), if_neg]
          rintro rfl
          exact hnew hid
        · have hne : id ≠ ents.free := by
            rintro rfl
            exact hnew hid
          rw [place_datas, Entity.id_make _ (hlt _ List.mem_cons_self), if_neg hne]
          exact hl.free id (List.mem_cons_of_mem _ hid)

theorem newEntities_returns (h : Poppable ents) (c : ChunkId) (n slot : Nat) (m : Mem) :
    ∃ ents' m', newEntities c n slot ents m = some (ents', m') ∧ Poppable ents' := by
  induction n generalizing slot ents m with
  | zero => exact ⟨ents, m, rfl, h⟩
  | succ n ih =>
      obtain ⟨ents₁, e, htake, h₁⟩ := takeId_returns h c slot
      obtain ⟨ents', m', hrest, h'⟩ := ih h₁ (slot + 1) (Mem.writeEntity m slot e)
      refine ⟨ents', m', ?_, h'⟩
      simp only [newEntities, htake, Option.bind_eq_bind, Option.bind_some]
      exact hrest

end Entities

namespace World

variable {ctx : Context} {w w' : World} {g srcG : ArchetypeId} {a srcA : Archetype}
  {s : ChunkSlice}

/-! ## `allocate` -/

theorem newEntities_returns (h : Entities.Poppable w.ents) (s : ChunkSlice) :
    ∃ w', w.newEntities s = some w' ∧ Entities.Poppable w'.ents := by
  obtain ⟨ents', m', hnew, h'⟩ :=
    Entities.newEntities_returns h s.c s.count s.start (w.memory.data s.c)
  refine ⟨{ w with ents := ents', memory := w.memory.setData s.c m' }, ?_, h'⟩
  simp only [World.newEntities, hnew, Option.bind_eq_bind, Option.bind_some]

/-- Each turn takes at least one slot. -/
theorem allocateLoop_returns {n fuel : Nat} (hl : w.store.Listed ctx)
    (ha : w.store.archetype g = some a) (hroom : Store.RoomFor a n)
    (hpop : Entities.Poppable w.ents) (hfuel : n < fuel) :
    ∃ r, allocateLoop ctx g fuel n w = some r := by
  induction fuel generalizing n w with
  | zero => exact absurd hfuel (Nat.not_lt_zero n)
  | succ fuel ih =>
      by_cases hn : 0 < n
      · obtain ⟨st, s, hst, hty, hpos⟩ := Store.allocateSlice_returns w.ents hl ha hn
          fun _ => hroom _ n hn le_rfl
        obtain ⟨hl', hall⟩ := hl.allocateSlice ha hst hty
        have ha' : st.archetype g = some a := hall.archetype ▸ ha
        have harch : World.archetypeOf { w with store := st } s.c = some (g, a) :=
          archetypeOf_eq_some.mpr ⟨by rw [hall.type, Function.update_self], ha'⟩
        have hpop₁ : Entities.Poppable (World.ents { w with
          store := st, memory := w.memory.construct ctx a (st.ct s.c) s }) := hpop
        obtain ⟨w₂, hnew, hpop'⟩ := newEntities_returns hpop₁ s
        have hstore : w₂.store = st := (newEntities_store hnew).1
        obtain ⟨r, hrest⟩ := ih (n := n - s.count) (hstore ▸ hl') (hstore ▸ ha')
          (hroom.mono (Nat.sub_le _ _)) hpop' (by omega)
        refine ⟨(r.1, s :: r.2), ?_⟩
        simp only [World.allocateLoop, if_pos hn, World.allocateSlice, hst, Option.bind_eq_bind,
          Option.bind_some, harch, hnew, hrest]
      · exact ⟨(w, []), by simp [allocateLoop, hn]⟩

theorem allocate_returns {type : EntityType} {n fuel : Nat} (hl : w.store.Listed ctx)
    (hkey : w.store.Obtainable ctx w.ents type)
    (hroom : ∀ a, constructArchetype ctx type = some a → Store.RoomFor a n)
    (hpop : Entities.Poppable w.ents) (hfuel : n < fuel) :
    ∃ r, w.allocate ctx fuel type n = some r := by
  obtain ⟨w₁, g, hget⟩ := getArchetype_returns hkey
  obtain ⟨st, hst, rfl⟩ := getArchetype_eq_some hget
  obtain ⟨hl₁, -⟩ := hl.getArchetype hst
  obtain ⟨-, -, a, ha, htype⟩ := hl.toWf.getArchetype hst
  have hbuilt := (hl₁.built g a ha).2
  rw [htype] at hbuilt
  obtain ⟨r, hloop⟩ := allocateLoop_returns (w := { w with store := st }) hl₁ ha
    (hroom a hbuilt) hpop hfuel
  exact ⟨r, by simp only [World.allocate, hget, Option.bind_eq_bind, Option.bind_some, hloop]⟩

/-! ## `cast` -/

theorem freeSlice_returns (hl : w.store.Listed ctx) (hv : w.ValidSlice s)
    (harch : w.archetypeOf s.c = some (g, a))
    (hmeta : s.count = w.store.count s.c → w.store.Detachable w.ents g a s.c) :
    ∃ w', w.freeSlice s = some w' := by
  obtain ⟨hc, ha⟩ := archetypeOf_eq_some.mp harch
  have hcap := hl.count_le s.c g a hc ha
  have hlt := hl.capacity_lt ha (w.store.ct s.c)
  have hle := hv.le
  have hshape := (Store.structuralChange_shape w.store g a s.c).trans
    (Store.subSize_shape _ g s.count)
  simp only [World.freeSlice, harch, Option.bind_eq_bind, Option.bind_some, (moveTail_store _ _ _).1]
  revert hshape
  generalize (w.store.structuralChange g a s.c).subSize g s.count = st₁
  intro hshape
  rw [hshape.count, sub32_of_le (by omega) (by omega)]
  obtain ⟨st, hst⟩ := Store.resizeChunk_returns
    (World.moveTail { w with store := st₁ } a s).ents (n := w.store.count s.c - s.count)
    (hl.congr hshape) (hshape.archetype ▸ ha) (hshape.type ▸ hc) fun hzero => by
      have htail : World.tailCount { w with store := st₁ } s = 0 := by
        simp only [World.tailCount, hshape.count]
        omega
      rw [moveTail_eq (w := { w with store := st₁ }) (by rw [hshape.count]; exact hle)
        (by rw [hshape.count]; omega) htail]
      exact (hmeta (by omega)).congr hshape
  simp only [hst, Option.bind_some]
  exact ⟨_, rfl⟩

theorem release_returns (hl : w.store.Listed ctx) (hv : w.ValidSlice s)
    (harch : w.archetypeOf s.c = some (g, a))
    (hmeta : s.count = w.store.count s.c → ∀ w₁, w.freeEntities s = some w₁ →
      w.store.Detachable w₁.ents g a s.c) : ∃ w', w.release s = some w' := by
  have hfreed : ∃ ents, w.freeEntities s = some { w with ents := ents } := by
    obtain ⟨n, hn⟩ := Nat.exists_eq_succ_of_ne_zero hv.pos.ne'
    have hcons : w.handles s = w.memory.entityAt s.c s.start ::
        (List.range n).map fun k => w.memory.entityAt s.c (s.start + 1 + k) := by
      rw [World.handles, hn, Entities.handlesFrom_succ]
    simp only [World.freeEntities, hcons, Entities.freeEntities, Option.bind_eq_bind,
      Option.bind_some]
    exact ⟨_, rfl⟩
  obtain ⟨ents, hfree⟩ := hfreed
  obtain ⟨w', hw'⟩ := freeSlice_returns (w := { w with ents := ents }) hl
    ⟨hv.typed, hv.pos, hv.le⟩ harch fun hall => hmeta hall _ hfree
  exact ⟨w', by simp only [World.release, hfree, Option.bind_eq_bind, Option.bind_some, hw']⟩

/-- The fast path of `cast`. -/
theorem relink_returns {st : Store} {ents : Entities} {c : ChunkId} (hl : st.Listed ctx)
    (hc : st.type c = some srcG) (hsrc : st.archetype srcG = some srcA)
    (ha : st.archetype g = some a) (hg : srcG ≠ g) (hmeta : st.Detachable ents srcG srcA c) :
    ∃ st₁ st₂, st.removeChunk ents srcG c = some st₁ ∧ st₁.addChunk g c = some st₂ := by
  obtain ⟨st₁, hrem⟩ := Store.removeChunk_returns hl hsrc hc hmeta
  obtain ⟨hl₁, hremoved, -⟩ := hl.removeChunk hc hrem
  have ha₁ : st₁.archetype g = some a := (hremoved.archetype g hg.symm).trans ha
  obtain ⟨fulls, frees, hch⟩ := hl₁.chain g a ha₁
  obtain ⟨st₂, hadd⟩ := Store.addChunk_returns hch ha₁ c
  exact ⟨st₁, st₂, hrem, hadd⟩

end World

end Dots

import Dots.Database.Bins
import Dots.Database.Serialize

/-!
# Where loaded slices go

`deserialize_slice` looks for a free chunk by capacities, but sizes a new one by the bytes of
the entities alone, against the size of the whole block.
-/

namespace Dots

open Library

namespace Store

variable {ctx : Context} {st st' : Store} {ents : Entities} {g : ArchetypeId} {a : Archetype}
  {c : ChunkId} {count : Nat} {s : ChunkSlice}

/-- The scan accepts a chunk when the sum, in 32 bits, is within its capacity. -/
def accepts (st : Store) (a : Archetype) (count : Nat) (c : ChunkId) : Bool :=
  decide ((st.count c + count) % 2 ^ 32 ≤ a.chunkCapacity (st.ct c))

/-- The first free chunk that the scan accepts has room, or there is none and a new one of the
bin that is chosen has. -/
def LoadFits (st : Store) (g : ArchetypeId) (a : Archetype) (count : Nat)
    (frees : List ChunkId) : Prop :=
  match frees.find? (st.accepts a count) with
  | some c => st.count c + count ≤ a.chunkCapacity (st.ct c)
  | none => count ≤ a.chunkCapacity
      (loadChunkBin (st.chunkCount g) (count * a.entitySize % 2 ^ 32))

/-- The slots of a loaded slice, in a chunk of `g` and below its capacity. -/
def Loads (st : Store) (ents : Entities) (g : ArchetypeId) (a : Archetype) (count : Nat) : Prop :=
  ∃ st' s, st.loadSlots ents g count = some (st', s) ∧ st'.type s.c = some g ∧ s.count = count ∧
    s.start + s.count ≤ a.chunkCapacity (st'.ct s.c)

/-! ## The scan -/

theorem findRoom_eq {p : Option ChunkId} {l : List ChunkId} (h : Links.Path st.links.next p l)
    {fuel : Nat} (hfuel : l.length < fuel) :
    st.findRoom a count fuel p = some (l.find? (st.accepts a count)) := by
  induction l generalizing p fuel with
  | nil =>
      obtain rfl : p = none := h
      cases fuel with
      | zero => exact absurd hfuel (Nat.not_lt_zero _)
      | succ fuel => rfl
  | cons c l ih =>
      obtain ⟨rfl, hrest⟩ := h
      cases fuel with
      | zero => exact absurd hfuel (Nat.not_lt_zero _)
      | succ fuel =>
          rw [findRoom]
          split_ifs with hgt
          · rw [ih hrest (Nat.lt_of_succ_lt_succ hfuel), List.find?_cons_of_neg]
            simp only [accepts, decide_eq_true_eq]
            omega
          · rw [List.find?_cons_of_pos]
            simp only [accepts, decide_eq_true_eq]
            omega

theorem Wf.type_of_path (hwf : Wf ctx st) {p : Option ChunkId} {l : List ChunkId}
    (hpath : Links.Path st.links.next p l) (hp : ∀ c, p = some c → st.type c = some g) :
    ∀ c ∈ l, st.type c = some g := by
  induction l generalizing p with
  | nil => simp
  | cons d l ih =>
      obtain ⟨rfl, hrest⟩ := hpath
      have hd := hp d rfl
      intro c hc
      rcases List.mem_cons.mp hc with rfl | hc
      · exact hd
      · exact ih hrest (fun e he => hwf.type_next hd he) c hc

theorem findRoom_path (count : Nat) (hwf : Wf ctx st) (ha : st.archetype g = some a)
    {frees : List ChunkId} (hpath : Links.Path st.links.next (st.firstFree g) frees) :
    st.findRoom a count (st.freshChunk + 1) (st.firstFree g) =
      some (frees.find? (st.accepts a count)) := by
  apply findRoom_eq hpath
  have hsub : frees ⊆ st.chunksOf g := fun c hc =>
    (mem_chunksOf hwf).mpr (hwf.type_of_path hpath (hwf.free g a · ha) c hc)
  have hle := (List.subperm_of_subset hpath.nodup hsub).length_le
  have hall : (st.chunksOf g).length ≤ st.freshChunk :=
    (List.length_filter_le _ _).trans_eq List.length_range
  omega

/-- The free list of an archetype. -/
theorem Chain.path_frees {fulls frees : List ChunkId} (h : Chain st g a fulls frees) :
    Links.Path st.links.next (st.firstFree g) frees := by
  rw [h.firstFree]
  cases frees with
  | nil => rfl
  | cons c frees => exact ⟨rfl, h.spans.path.suffix⟩

/-! ## The chunk that is chosen -/

theorem loadSlots_found (ha : st.archetype g = some a)
    (hfound : st.findRoom a count (st.freshChunk + 1) (st.firstFree g) = some (some c)) :
    st.loadSlots ents g count =
      (st.resizeChunk ents c ((st.count c + count) % 2 ^ 32)).map fun st' =>
        (st', { c := c, start := st.count c, count := count }) := by
  simp only [loadSlots, ha, Option.bind_eq_bind, Option.bind_some, hfound]
  cases st.resizeChunk ents c ((st.count c + count) % 2 ^ 32) <;> rfl

theorem loadSlots_open (ents : Entities) (ha : st.archetype g = some a)
    (hfound : st.findRoom a count (st.freshChunk + 1) (st.firstFree g) = some none) :
    st.loadSlots ents g count = ((st.mallocChunk
      (loadChunkBin (st.chunkCount g) (count * a.entitySize % 2 ^ 32))).1.addChunk g
        st.freshChunk).bind fun st₁ =>
          (st₁.resizeChunk ents st.freshChunk ((st₁.count st.freshChunk + count) % 2 ^ 32)).map
            fun st' => (st', ⟨st.freshChunk, st₁.count st.freshChunk, count⟩) := by
  simp only [loadSlots, ha, Option.bind_eq_bind, Option.bind_some, hfound]
  change (((st.mallocChunk _).1.addChunk g st.freshChunk).map fun st' =>
    (st', st.freshChunk)).bind _ = _
  rw [Option.bind_map]
  congr 1
  funext st₁
  cases h : st₁.resizeChunk ents st.freshChunk ((st₁.count st.freshChunk + count) % 2 ^ 32)
  · simp only [Function.comp_apply, h, Option.bind_none, Option.map_none]
  · simp only [Function.comp_apply, h, Option.bind_some, Option.map_some]

/-- A chunk with room goes behind the tail of the list, which `add_chunk` follows. -/
theorem splice_iff (hroom : st.count c < a.chunkCapacity (st.ct c)) :
    (∃ st', st.splice g a c = some st') ↔ (st.firstChunk g ≠ none → st.lastChunk g ≠ none) := by
  refine ⟨?_, fun h => splice_returns fun head hhead => h (by simp [hhead])⟩
  rintro ⟨st', hs⟩ hfirst
  obtain ⟨head, hhead⟩ := Option.ne_none_iff_exists'.mp hfirst
  rw [splice, hhead] at hs
  dsimp only at hs
  rw [if_pos hroom] at hs
  intro hlast
  rw [hlast] at hs
  cases hs

theorem addChunk_iff (ha : st.archetype g = some a)
    (hroom : st.count c < a.chunkCapacity (st.ct c)) :
    (∃ st', st.addChunk g c = some st') ↔ (st.firstChunk g ≠ none → st.lastChunk g ≠ none) := by
  have hshape := (structuralChange_shape st g a c).trans
    (addSize_shape (st.structuralChange g a c) g (st.count c))
  simp only [Store.addChunk, ha, Option.bind_eq_bind, Option.bind_some]
  revert hshape
  generalize (st.structuralChange g a c).addSize g (st.count c) = st₁
  intro hshape
  rw [splice_iff (by dsimp only; rwa [hshape.count, hshape.ct])]
  dsimp only
  rw [hshape.firstChunk, hshape.lastChunk]

theorem resizeChunk_ct {n : Nat} (hn : n ≠ 0) (hs : st.resizeChunk ents c n = some st') :
    st'.ct = st.ct := by
  obtain ⟨links, firstChunk, lastChunk, firstFree, rfl⟩ := resizeChunk_lists hn hs
  rfl

/-- The slots fit the chunk that is chosen if and only if they are placed there. -/
theorem resizeChunk_fits_iff (ents : Entities) (hwf : Wf ctx st) (ha : st.archetype g = some a)
    (hc : st.type c = some g) (hcount : 0 < count) (start : Nat) :
    (∃ st', st.resizeChunk ents c ((start + count) % 2 ^ 32) = some st' ∧ st'.type c = some g ∧
      start + count ≤ a.chunkCapacity (st'.ct c)) ↔
    start + count ≤ a.chunkCapacity (st.ct c) := by
  constructor
  · rintro ⟨st', hs, htype, hle⟩
    by_cases hzero : (start + count) % 2 ^ 32 = 0
    · simp only [resizeChunk, hc, ha, Option.bind_eq_bind, Option.bind_some, if_pos hzero] at hs
      rw [(hwf.removeChunk hc hs).2.type, Function.update_self] at htype
      simp at htype
    · rwa [resizeChunk_ct hzero hs] at hle
  · intro hle
    have hlt := hwf.capacity_lt ha (st.ct c)
    have hn : start + count ≠ 0 := by omega
    rw [Nat.mod_eq_of_lt (hle.trans_lt hlt)]
    obtain ⟨st', hs, htype⟩ := resizeChunk_nonzero ents ha hc hn
    exact ⟨st', hs, htype ▸ hc, by rwa [resizeChunk_ct hn hs]⟩

/-- The new chunk, empty and of the bin that is chosen, once it is in the list. -/
theorem loads_open_iff (hwf : Wf ctx st) (ha : st.archetype g = some a) (ents : Entities)
    (hfound : st.findRoom a count (st.freshChunk + 1) (st.firstFree g) = some none)
    (hcount : 0 < count) :
    st.Loads ents g a count ↔ count ≤ a.chunkCapacity
        (loadChunkBin (st.chunkCount g) (count * a.entitySize % 2 ^ 32)) ∧
      (st.firstChunk g ≠ none → st.lastChunk g ≠ none) := by
  have hslots := loadSlots_open ents ha hfound
  revert hslots
  generalize loadChunkBin (st.chunkCount g) (count * a.entitySize % 2 ^ 32) = t
  intro hslots
  have hnone : st.type st.freshChunk = none := hwf.fresh _ le_rfl
  have hzero : (st.mallocChunk t).1.count st.freshChunk = 0 := Function.update_self ..
  have hct : (st.mallocChunk t).1.ct st.freshChunk = t := Function.update_self ..
  have ha₁ : (st.mallocChunk t).1.archetype g = some a := ha
  -- what the chunk is once it has been added
  have hadded : ∀ st₁, (st.mallocChunk t).1.addChunk g st.freshChunk = some st₁ →
      Wf ctx st₁ ∧ st₁.type st.freshChunk = some g ∧ st₁.archetype g = some a ∧
        st₁.count st.freshChunk = 0 ∧ st₁.ct st.freshChunk = t := by
    intro st₁ hadd
    obtain ⟨hwf₁, hadded, harch⟩ := (hwf.mallocChunk t).addChunk ha₁ hnone
      (Nat.lt_succ_self _) (hzero ▸ Nat.zero_le _) hadd
    exact ⟨hwf₁, by rw [hadded.type, Function.update_self], harch ▸ ha,
      by rw [hadded.count, hzero], by rw [hadded.ct, hct]⟩
  constructor
  · rintro ⟨st', s, hs, htype, -, hle⟩
    rw [hslots, Option.bind_eq_some_iff] at hs
    obtain ⟨st₁, hadd, hs⟩ := hs
    obtain ⟨st₂, hres, heq⟩ := Option.map_eq_some_iff.mp hs
    obtain ⟨rfl, rfl⟩ := Prod.mk.inj heq
    obtain ⟨hwf₁, hc, ha₂, hzero₁, hct₁⟩ := hadded st₁ hadd
    rw [hzero₁] at hres hle
    have hfit := (resizeChunk_fits_iff ents hwf₁ ha₂ hc hcount 0).mp ⟨st₂, hres, htype, hle⟩
    rw [hct₁, Nat.zero_add] at hfit
    refine ⟨hfit, ?_⟩
    have hroom : (st.mallocChunk t).1.count st.freshChunk <
        a.chunkCapacity ((st.mallocChunk t).1.ct st.freshChunk) := by
      rw [hzero, hct]
      omega
    exact (addChunk_iff ha₁ hroom).mp ⟨st₁, hadd⟩
  · rintro ⟨hle, htail⟩
    have hroom : (st.mallocChunk t).1.count st.freshChunk <
        a.chunkCapacity ((st.mallocChunk t).1.ct st.freshChunk) := by
      rw [hzero, hct]
      omega
    obtain ⟨st₁, hadd⟩ := (addChunk_iff ha₁ hroom).mpr htail
    obtain ⟨hwf₁, hc, ha₂, hzero₁, hct₁⟩ := hadded st₁ hadd
    obtain ⟨st', hs, htype, hfit⟩ := (resizeChunk_fits_iff ents hwf₁ ha₂ hc hcount 0).mpr
      (by rwa [hct₁, Nat.zero_add])
    refine ⟨st', ⟨st.freshChunk, 0, count⟩, ?_, htype, rfl, hfit⟩
    rw [hslots, hadd, Option.bind_some, hzero₁, hs]
    rfl

/-- A loaded slice lies below the capacity of its chunk if and only if the first chunk that the
scan accepts has room, or there is none, the bin of the new one has, and a list with a head has a
tail to put it behind. -/
theorem loads_iff (hwf : Wf ctx st) (ha : st.archetype g = some a) {frees : List ChunkId}
    (hpath : Links.Path st.links.next (st.firstFree g) frees) (ents : Entities)
    (hcount : 0 < count) :
    st.Loads ents g a count ↔ st.LoadFits g a count frees ∧
      (frees.find? (st.accepts a count) = none → st.firstChunk g ≠ none →
        st.lastChunk g ≠ none) := by
  have hroom := findRoom_path count hwf ha hpath
  cases hfound : frees.find? (st.accepts a count) with
  | some c =>
      rw [hfound] at hroom
      have hc : st.type c = some g := hwf.type_of_path hpath (hwf.free g a · ha) c
        (List.mem_of_find?_eq_some hfound)
      have hfits := resizeChunk_fits_iff ents hwf ha hc hcount (st.count c)
      rw [LoadFits, hfound, and_iff_left (fun h => absurd h (Option.some_ne_none c))]
      change _ ↔ st.count c + count ≤ a.chunkCapacity (st.ct c)
      rw [← hfits]
      simp only [Loads, loadSlots_found ha hroom, Option.map_eq_some_iff]
      constructor
      · rintro ⟨st', s, ⟨st₂, hs, heq⟩, htype, -, hle⟩
        obtain ⟨rfl, rfl⟩ := Prod.mk.inj heq
        exact ⟨st₂, hs, htype, hle⟩
      · rintro ⟨st', hs, htype, hle⟩
        exact ⟨st', _, ⟨st', hs, rfl⟩, htype, rfl, hle⟩
  | none =>
      rw [hfound] at hroom
      rw [LoadFits, hfound, loads_open_iff hwf ha ents hroom hcount]
      simp only [forall_const]

theorem Chain.last_of_first {fulls frees : List ChunkId} (h : Chain st g a fulls frees)
    (hfirst : st.firstChunk g ≠ none) : st.lastChunk g ≠ none :=
  fun hlast => hfirst (h.spans.first_none_iff.mpr hlast)

/-- Where sums fit 32 bits, any chunk with room will do. -/
theorem loadFits_of_room {fulls frees : List ChunkId} (hch : Chain st g a fulls frees)
    (hwidth : ∀ ct, a.chunkCapacity ct < 2 ^ 31) (hcount : 0 < count)
    (hlargest : ∃ ct, count ≤ a.chunkCapacity ct) (hc : st.type c = some g)
    (hroom : st.count c + count ≤ a.chunkCapacity (st.ct c)) : st.LoadFits g a count frees := by
  obtain ⟨ct, hct⟩ := hlargest
  have hwide := hwidth ct
  have hmem : c ∈ frees := by
    rcases List.mem_append.mp ((hch.mem c).mpr hc) with hfull | hfree
    · have heq := hch.full c hfull
      omega
    · exact hfree
  rw [LoadFits]
  cases hfound : frees.find? (st.accepts a count) with
  | some d =>
      have haccept := List.find?_some hfound
      have hlt := (hch.room d (List.mem_of_find?_eq_some hfound)).trans (hwidth (st.ct d))
      simp only [accepts, decide_eq_true_eq] at haccept
      change st.count d + count ≤ a.chunkCapacity (st.ct d)
      omega
  | none =>
      have hreject := List.find?_eq_none.mp hfound c hmem
      have hcap := hwidth (st.ct c)
      simp only [accepts, decide_eq_true_eq] at hreject
      omega

end Store

namespace World

variable {w w' : World} {g : ArchetypeId} {s : ChunkSlice} {bs bs' : List UInt8}

/-- `deserialize_slice` loads into the slots that were placed. -/
theorem deserializeSlice_slots (h : w.deserializeSlice g bs = some (w', some s, bs')) :
    ∃ count rest, Mem.takeWord 4 bs = some (count, rest) ∧ 0 < count ∧
      w.store.loadSlots w.ents g count = some (w'.store, s) := by
  simp only [deserializeSlice, Option.bind_eq_bind, Option.bind_eq_some_iff] at h
  obtain ⟨⟨count, rest⟩, htake, h⟩ := h
  split_ifs at h with hzero
  · simp at h
  · simp only [Option.bind_eq_some_iff, Option.some.injEq, Prod.mk.injEq] at h
    obtain ⟨⟨st, t⟩, hslots, -, -, ⟨mm, bs₂⟩, -, rfl, rfl, -⟩ := h
    exact ⟨count, rest, htake, Nat.pos_of_ne_zero hzero, hslots⟩

/-- A slice that is read from a stream lies below the capacity of its chunk if and only if the
first chunk that the scan accepts has room, or there is none, the bin of the new one has, and
there is a tail to put it behind. -/
theorem deserializeSlice_inside_iff {ctx : Context} {a : Archetype} {frees : List ChunkId}
    (hwf : w.store.Wf ctx) (ha : w.store.archetype g = some a)
    (hpath : Links.Path w.store.links.next (w.store.firstFree g) frees) {count : Nat}
    (htake : Mem.takeWord 4 bs = some (count, bs')) (hcount : 0 < count) :
    (w.store.Loads w.ents g a count ↔ w.store.LoadFits g a count frees ∧
      (frees.find? (w.store.accepts a count) = none → w.store.firstChunk g ≠ none →
        w.store.lastChunk g ≠ none)) ∧
    ∀ w' s rest, w.deserializeSlice g bs = some (w', some s, rest) →
      w.store.loadSlots w.ents g count = some (w'.store, s) := by
  refine ⟨Store.loads_iff hwf ha hpath w.ents hcount, fun w' s rest h => ?_⟩
  obtain ⟨count', rest', htake', -, hslots⟩ := deserializeSlice_slots h
  obtain ⟨rfl, -⟩ := Prod.mk.inj (Option.some.inj (htake.symm.trans htake'))
  exact hslots

/-- The free list of a new world is empty. -/
theorem frees_of_room {ctx : Context} {a : Archetype} {fulls frees : List ChunkId}
    (hl : w.store.Listed ctx) (ha : w.store.archetype g = some a)
    (hch : Store.Chain w.store g a fulls frees) (hroom : w.store.freeRoom g a = 0) : frees = [] := by
  rw [← List.head?_eq_none_iff, ← hch.firstFree]
  exact (Store.firstFree_eq_none_iff hl ha).mpr hroom

/-- A hundred entities of 8 bytes go to a small bin, which has room for 123. -/
theorem loads_hundred : ∃ (w : World) (g : ArchetypeId) (a : Archetype),
    w.store.archetype g = some a ∧ a.types = [5] ∧ w.store.Loads w.ents g a 100 := by
  have hfirst : firstSizes 5 = some [8, 123, 8187, 131067, 0, 0] := by decide +kernel
  obtain ⟨w, g, a, hl, ha, htypes, -, he, hsmall, -, -, hcount, hroom⟩ := exists_first hfirst
  obtain ⟨fulls, frees, hch⟩ := hl.chain g a ha
  obtain rfl := frees_of_room hl ha hch hroom
  have htake : Mem.takeWord 4 [100, 0, 0, 0] = some (100, []) := by decide
  refine ⟨w, g, a, ha, htypes,
    (deserializeSlice_inside_iff hl.toWf ha hch.path_frees htake (by decide)).1.mpr
      ⟨?_, fun _ => hch.last_of_first⟩⟩
  have hbin : Store.loadChunkBin 0 (100 * 8 % 2 ^ 32) = .smallbin := by decide
  change 100 ≤ a.chunkCapacity _
  rw [hcount, he, hbin, hsmall]
  decide

/-- A hundred and twenty-five entities of 8 bytes have 1000 bytes, and overrun a small bin. -/
theorem not_loads_more : ∃ (w : World) (g : ArchetypeId) (a : Archetype),
    w.store.Listed wideContext ∧ w.store.archetype g = some a ∧ a.types = [5] ∧
    125 ≤ a.chunkCapacity .largebin ∧ ¬ w.store.Loads w.ents g a 125 := by
  have hfirst : firstSizes 5 = some [8, 123, 8187, 131067, 0, 0] := by decide +kernel
  obtain ⟨w, g, a, hl, ha, htypes, -, he, hsmall, -, hlarge, hcount, hroom⟩ := exists_first hfirst
  obtain ⟨fulls, frees, hch⟩ := hl.chain g a ha
  obtain rfl := frees_of_room hl ha hch hroom
  refine ⟨w, g, a, hl, ha, htypes, by rw [hlarge]; decide, fun h => ?_⟩
  have hbin : Store.loadChunkBin 0 (125 * 8 % 2 ^ 32) = .smallbin := by decide
  have hle : 125 ≤ a.chunkCapacity
      (Store.loadChunkBin (w.store.chunkCount g) (125 * a.entitySize % 2 ^ 32)) :=
    ((Store.loads_iff hl.toWf ha hch.path_frees w.ents (by decide)).mp h).1
  rw [hcount, he, hbin, hsmall] at hle
  exact absurd hle (by decide)

end World

end Dots

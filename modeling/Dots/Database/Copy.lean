import Dots.Database.Consistency

/-!
# Copying a world

The source and its copy live in one heap, which holds the chunks, the archetypes and
the buffers of both. While `world::world(const world&)` runs, the heap is in the store
of the copy; afterwards the source sees the same heap.
-/

namespace Dots

open Library

/-- The heap of `st`, with the fields that belong to the world of `own`. -/
def Store.seenFrom (st own : Store) : Store :=
  { st with
    archetypes := own.archetypes
    queries := own.queries
    typeTimestamps := own.typeTimestamps
    timestamp := own.timestamp }

/-- `memcpy` of a chunk header. -/
def Store.cloneChunk (st : Store) (c dst : ChunkId) : Store :=
  { st with
    links := (st.links.setPrev dst (st.links.prev c)).setNext dst (st.links.next c)
    type := Function.update st.type dst (st.type c)
    count := Function.update st.count dst (st.count c)
    ct := Function.update st.ct dst (st.ct c)
    timestamps := Function.update st.timestamps dst (st.timestamps c) }

/-- The types of the copying stage. -/
def copyingTypes (ctx : Context) (ts : List TypeIndex) : List TypeIndex :=
  ts.map fun t => if (ctx.track t).manualCopying then t + 1 else t

def Archetype.markCopying (ctx : Context) (a : Archetype) : Archetype :=
  { a with type := { a.type with types := copyingTypes ctx a.types } }

/-- `memcpy` of an archetype. The pointers of the block still lead to the arrays of
`g`, so marking the types of the new archetype marks those of `g` too. -/
def Store.cloneArchetype (ctx : Context) (st : Store) (g : ArchetypeId) (a : Archetype) :
    Store × ArchetypeId :=
  let newG := st.freshArchetype
  let marked := some (a.markCopying ctx)
  ({ st with
      archetype := Function.update (Function.update st.archetype g marked) newG marked
      firstChunk := Function.update st.firstChunk newG none
      lastChunk := Function.update st.lastChunk newG none
      firstFree := Function.update st.firstFree newG none
      chunkCount := Function.update st.chunkCount newG (st.chunkCount g)
      size := Function.update st.size newG (st.size g)
      archetypeTimestamp := Function.update st.archetypeTimestamp newG (st.archetypeTimestamp g)
      freshArchetype := newG + 1 }, newG)

/-- The managed columns of `chunk::clone`, from the second element on. -/
def Memory.cloneManaged (ctx : Context) (a : Archetype) (ct : AllocType) (c dst : ChunkId)
    (count : Nat) (mm : Memory) (i : Nat) : Memory :=
  match (ctx.info (a.types.getD i 0)).vtable.copy with
  | none => mm
  | some copy =>
      mm.setData dst ((List.range count).foldl (fun m j =>
        let x := a.address ct i (j + 1)
        Mem.write m x ((copy (Mem.read m x (a.size i))
          (Mem.read (mm.data c) x (a.size i))).take (a.size i))) (mm.data dst))

/-- `chunk::clone`. The buffers, again from the second element on, get new blocks in the
chunk that is cloned. The functions of a managed column are those of its type before the
types were marked. -/
def Memory.clone (ctx : Context) (mm : Memory) (a : Archetype) (ct : AllocType)
    (c dst : ChunkId) (count : Nat) : Option Memory :=
  let mm := mm.setData dst (mm.data c)
  let mm := (columns a.firstManaged a.firstTag).foldl (cloneManaged ctx a ct c dst count) mm
  (columns a.firstBuffer a.firstManaged).foldlM (fun mm i =>
    (List.range count).foldlM (fun mm j => mm.cloneBuffer c (a.address ct i (j + 1))) mm) mm

/-- The copy so far, and for each of its archetypes the one whose block holds its
arrays. -/
structure Copying where
  copy : World
  blocks : List (ArchetypeId × ArchetypeId)

/-- What the copy constructor leaves. -/
structure Copied extends Copying where
  source : World

namespace World

/-- The loop over the chunks of one archetype: the clone stays out of every list, and
`add_chunk` gets the chunk of the source. -/
def cloneChunks (ctx : Context) (a : Archetype) (newG : ArchetypeId) :
    Nat → Option ChunkId → World → Option World
  | 0, _, _ => none
  | _ + 1, none, w => some w
  | fuel + 1, some c, w => do
      let (st, newC) := w.store.mallocChunk (w.store.ct c)
      let st := st.cloneChunk c newC
      let mm ← w.memory.clone ctx a (st.ct c) c newC (st.count c)
      let st ← st.addChunk newG c
      cloneChunks ctx a newG fuel (st.links.next c) { w with store := st, memory := mm }

/-- One archetype of the copy. -/
def copyArchetype (ctx : Context) (fuel : Nat) (g : ArchetypeId) (a : Archetype)
    (s : Copying) : Option Copying := do
  let (st, newG) := s.copy.store.cloneArchetype ctx g a
  let w ← cloneChunks ctx a newG fuel (st.firstChunk g) { s.copy with store := st }
  let a ← w.store.archetype newG
  let st ← w.store.addArchetype w.ents newG a
  some { copy := { w with store := st }, blocks := s.blocks ++ [(newG, g)] }

/-- The copy before the first archetype; `raw` is the memory behind its table. -/
def copyStart (raw : Nat → Nat) (w : World) : Copying where
  copy :=
    { w with
      store := { w.store with archetypes := [], queries := [], typeTimestamps := fun _ => 0 }
      ents := { w.ents with raw := raw } }
  blocks := []

/-- `world::world(const world&)`. -/
def copyOf (ctx : Context) (fuel : Nat) (raw : Nat → Nat) (w : World) : Option Copied := do
  let s ← w.store.archetypes.foldlM (fun s g => do
    let a ← w.store.archetype g
    if a.cleaning then some s else copyArchetype ctx fuel g a s) (copyStart raw w)
  some { s with
    source := { w with store := s.copy.store.seenFrom w.store, memory := s.copy.memory } }

/-! ## What a copy is -/

/-- The contents of column `k` in a slot: what a buffer holds, or the bytes. -/
def contents (w : World) (c : ChunkId) (a : Archetype) (k i : Nat) : Option (List UInt8) :=
  let x := a.address (w.store.ct c) k i
  if a.firstBuffer ≤ k ∧ k < a.firstManaged then w.memory.bufferBytes c x
  else some (Mem.read (w.memory.data c) x (a.size k))

/-- Contents that were copied: by the function of a managed type, if it has one. -/
def CopiedFrom (ctx : Context) (a : Archetype) (k : Nat) (bs bs' : Option (List UInt8)) : Prop :=
  match (ctx.info (a.types.getD k 0)).vtable.copy with
  | none => bs' = bs
  | some copy =>
      if a.firstManaged ≤ k then ∃ old, bs' = bs.map fun bs => (copy old bs).take (a.size k)
      else bs' = bs

/-- The chunks that the pointers of a world lead to. -/
inductive Holds (w : World) : ChunkId → Prop
  | entry {id : Nat} {c : ChunkId} (h : id < w.ents.size)
      (hc : (w.ents.datas id).c = .chunk c) : Holds w c
  | first {g : ArchetypeId} {c : ChunkId} (hg : g ∈ w.store.archetypes)
      (hc : w.store.firstChunk g = some c) : Holds w c
  | next {c d : ChunkId} (h : Holds w c) (hn : w.store.links.next c = some d) : Holds w d

/-- The chunks in the list of one archetype. -/
inductive InList (w : World) (g : ArchetypeId) : ChunkId → Prop
  | first {c : ChunkId} (hc : w.store.firstChunk g = some c) : InList w g c
  | next {c d : ChunkId} (h : InList w g c) (hn : w.store.links.next c = some d) : InList w g d

/-- The heap blocks of the buffers in the chunks of a world. -/
def HoldsBlock (w : World) (d : Nat) : Prop :=
  ∃ c g a k i, w.Holds c ∧ w.archetypeOf c = some (g, a) ∧ a.firstBuffer ≤ k ∧
    k < a.firstManaged ∧ i < w.store.count c ∧ d ≠ 0 ∧
    (Mem.readBuffer (w.memory.data c) (a.address (w.store.ct c) k i)).d = d

/-- `r` is `w`, unchanged, and a copy of it that shares nothing with it. -/
structure IsCopy (ctx : Context) (w : World) (r : Copied) : Prop where
  table : r.source.ents = w.ents
  archetypes : r.source.store.archetypes = w.store.archetypes
  types : ∀ g ∈ w.store.archetypes,
    (r.source.store.archetype g).map Archetype.type = (w.store.archetype g).map Archetype.type
  lists : ∀ g ∈ w.store.archetypes,
    r.source.store.firstChunk g = w.store.firstChunk g ∧
      r.source.store.lastChunk g = w.store.lastChunk g ∧
      r.source.store.firstFree g = w.store.firstFree g ∧
      r.source.store.chunkCount g = w.store.chunkCount g ∧
      r.source.store.size g = w.store.size g
  chunks : ∀ c, w.Holds c →
    r.source.store.type c = w.store.type c ∧ r.source.store.count c = w.store.count c ∧
      r.source.store.links.next c = w.store.links.next c ∧
      r.source.store.links.prev c = w.store.links.prev c
  live : ∀ e c i g a, w.At e c i → w.archetypeOf c = some (g, a) → a.cleaning = false →
    ∃ c' i' g' a', r.copy.At e c' i' ∧ r.copy.archetypeOf c' = some (g', a') ∧
      g' ∈ r.copy.store.archetypes ∧ r.copy.InList g' c' ∧
      a'.type = { a.type with types := copyingTypes ctx a.types } ∧
      ∀ k < a.firstTag, CopiedFrom ctx a k (w.contents c a k i) (r.copy.contents c' a' k i')
  chunksApart : ∀ c, r.source.Holds c → ¬ r.copy.Holds c
  archetypesApart : ∀ p ∈ r.blocks, p.1 ∉ r.source.store.archetypes ∧
    p.2 ∉ r.source.store.archetypes
  blocksApart : ∀ d, r.source.HoldsBlock d → ¬ r.copy.HoldsBlock d

/-! ## What the constructor does -/

variable {ctx : Context} {w w' : World} {fuel : Nat} {raw : Nat → Nat}

theorem cloneChunks_ents {a : Archetype} {newG : ArchetypeId} {c : Option ChunkId}
    (hs : cloneChunks ctx a newG fuel c w = some w') : w'.ents = w.ents := by
  induction fuel generalizing c w with
  | zero => simp [cloneChunks] at hs
  | succ fuel ih =>
      cases c with
      | none => rw [← Option.some.inj hs]
      | some c =>
          simp only [cloneChunks, Option.bind_eq_bind, Option.bind_eq_some_iff] at hs
          obtain ⟨mm, -, st, -, hs⟩ := hs
          have hrest := ih hs
          exact hrest

theorem copyArchetype_spec {g : ArchetypeId} {a : Archetype} {s s' : Copying}
    (hs : copyArchetype ctx fuel g a s = some s') :
    s'.copy.ents = s.copy.ents ∧ ∃ newG, s'.blocks = s.blocks ++ [(newG, g)] := by
  simp only [copyArchetype, Option.bind_eq_bind, Option.bind_eq_some_iff] at hs
  obtain ⟨v, hclone, a', -, st, -, hs⟩ := hs
  obtain rfl := Option.some.inj hs
  have hents := cloneChunks_ents hclone
  exact ⟨hents, _, rfl⟩

/-- The table of the copy is that of the source, and each archetype that is not cleaning
is copied with the arrays it has. -/
theorem copyOf_spec {r : Copied} (hs : copyOf ctx fuel raw w = some r) :
    r.copy.ents = { w.ents with raw := raw } ∧ r.source.ents = w.ents ∧
      r.source.store.archetypes = w.store.archetypes ∧
      ∀ g ∈ w.store.archetypes, ∃ a, w.store.archetype g = some a ∧
        (a.cleaning = false → ∃ newG, (newG, g) ∈ r.blocks) := by
  simp only [copyOf, Option.bind_eq_bind, Option.bind_eq_some_iff] at hs
  obtain ⟨s, hfold, hs⟩ := hs
  obtain rfl := Option.some.inj hs
  suffices hall : ∀ (gs : List ArchetypeId) (s₀ : Copying),
      gs.foldlM (fun s g => (w.store.archetype g).bind fun a =>
        if a.cleaning then some s else copyArchetype ctx fuel g a s) s₀ = some s →
      s.copy.ents = s₀.copy.ents ∧ s₀.blocks ⊆ s.blocks ∧
        ∀ g ∈ gs, ∃ a, w.store.archetype g = some a ∧
          (a.cleaning = false → ∃ newG, (newG, g) ∈ s.blocks) by
    obtain ⟨hents, -, hgs⟩ := hall _ _ hfold
    exact ⟨hents, rfl, rfl, hgs⟩
  intro gs
  induction gs with
  | nil =>
      intro s₀ h
      obtain rfl := Option.some.inj h
      exact ⟨rfl, List.Subset.refl _, by simp⟩
  | cons g gs ih =>
      intro s₀ h
      rw [List.foldlM_cons, Option.bind_eq_bind, Option.bind_eq_some_iff] at h
      obtain ⟨s₁, hone, hrest⟩ := h
      obtain ⟨a, ha, hone⟩ := Option.bind_eq_some_iff.mp hone
      obtain ⟨hents, hsub, hgs⟩ := ih s₁ hrest
      have hstep : s₁.copy.ents = s₀.copy.ents ∧ s₀.blocks ⊆ s₁.blocks ∧
          (a.cleaning = false → ∃ newG, (newG, g) ∈ s₁.blocks) := by
        split_ifs at hone with hcl
        · obtain rfl := Option.some.inj hone
          exact ⟨rfl, List.Subset.refl _, fun hno => by simp [hcl] at hno⟩
        · obtain ⟨he, newG, hb⟩ := copyArchetype_spec hone
          exact ⟨he, by simp [hb], fun _ => ⟨newG, by simp [hb]⟩⟩
      refine ⟨hents.trans hstep.1, List.Subset.trans hstep.2.1 hsub, ?_⟩
      intro k hk
      rcases List.mem_cons.mp hk with rfl | hk
      · exact ⟨a, ha, fun hno => (hstep.2.2 hno).imp fun newG hmem => hsub hmem⟩
      · exact hgs k hk

/-- With a chunk in the table, source and copy hold it both. -/
theorem IsCopy.no_chunk {r : Copied} (hs : copyOf ctx fuel raw w = some r)
    (h : IsCopy ctx w r) {id : Nat} (hid : id < w.ents.size) (c : ChunkId) :
    (w.ents.datas id).c ≠ .chunk c := by
  intro hc
  obtain ⟨hcopy, hsource, -⟩ := copyOf_spec hs
  apply h.chunksApart c
  · refine @Holds.entry _ id _ ?_ ?_
    · rwa [hsource]
    · rwa [hsource]
  · refine @Holds.entry _ id _ ?_ ?_
    · rwa [hcopy]
    · rwa [hcopy]

/-- Only cleaning archetypes are in the source: the others share their arrays. -/
theorem IsCopy.cleaning {r : Copied} (hs : copyOf ctx fuel raw w = some r)
    (h : IsCopy ctx w r) {g : ArchetypeId} (hg : g ∈ w.store.archetypes) :
    ∃ a, w.store.archetype g = some a ∧ a.cleaning = true := by
  obtain ⟨-, -, harchs, hgs⟩ := copyOf_spec hs
  obtain ⟨a, ha, hblock⟩ := hgs g hg
  refine ⟨a, ha, ?_⟩
  cases hcl : a.cleaning with
  | true => rfl
  | false =>
      obtain ⟨newG, hmem⟩ := hblock hcl
      exact absurd (harchs ▸ hg) (h.archetypesApart _ hmem).2

theorem copyOf_cleaning (hall : ∀ g ∈ w.store.archetypes, ∃ a, w.store.archetype g = some a ∧
    a.cleaning = true) :
    copyOf ctx fuel raw w = some { copyStart raw w with source := w } := by
  have hfold : ∀ gs : List ArchetypeId, (∀ g ∈ gs, ∃ a, w.store.archetype g = some a ∧
      a.cleaning = true) → gs.foldlM (fun s g => (w.store.archetype g).bind fun a =>
        if a.cleaning then some s else copyArchetype ctx fuel g a s) (copyStart raw w) =
      some (copyStart raw w) := by
    intro gs hgs
    induction gs with
    | nil => rfl
    | cons g gs ih =>
        obtain ⟨a, ha, hcl⟩ := hgs g List.mem_cons_self
        rw [List.foldlM_cons, ha, Option.bind_some, if_pos hcl, Option.bind_eq_bind,
          Option.bind_some]
        exact ih fun k hk => hgs k (List.mem_cons_of_mem g hk)
  simp only [copyOf, Option.bind_eq_bind]
  rw [hfold _ hall, Option.bind_some]
  rfl

/-- The constructor makes a copy of a world exactly when there is nothing to copy: all
archetypes are cleaning, and no entry of the table is in use. -/
theorem isCopy_iff (ctx : Context) (raw : Nat → Nat) (w : World) :
    (∃ fuel r, copyOf ctx fuel raw w = some r ∧ IsCopy ctx w r) ↔
      (∀ g ∈ w.store.archetypes, ∃ a, w.store.archetype g = some a ∧ a.cleaning = true) ∧
        ∀ id < w.ents.size, ∀ c, (w.ents.datas id).c ≠ .chunk c := by
  constructor
  · rintro ⟨fuel, r, hs, h⟩
    exact ⟨fun g hg => h.cleaning hs hg, fun id hid c => h.no_chunk hs hid c⟩
  · rintro ⟨hall, hempty⟩
    have hholds : ∀ c, ¬ (copyStart raw w).copy.Holds c := by
      intro c hc
      induction hc with
      | entry hid hc => exact hempty _ hid _ hc
      | first hg => simp [copyStart] at hg
      | next _ _ ih => exact ih
    refine ⟨0, _, copyOf_cleaning hall, ?_⟩
    exact
      { table := rfl
        archetypes := rfl
        types := fun _ _ => rfl
        lists := fun _ _ => ⟨rfl, rfl, rfl, rfl, rfl⟩
        chunks := fun _ _ => ⟨rfl, rfl, rfl, rfl⟩
        live := by
          rintro e c i g a ⟨hexist, hc, -⟩ - -
          simp only [Entities.exist, Bool.and_eq_true, decide_eq_true_eq] at hexist
          exact absurd hc (hempty _ hexist.1 c)
        chunksApart := fun c _ => hholds c
        archetypesApart := by simp [copyStart]
        blocksApart := by
          rintro d - ⟨c, -, -, -, -, hc, -⟩
          exact hholds c hc }

/-- One entity: the chunk of the source goes to the archetype of the copy, and both
tables point to it. -/
theorem not_isCopy_one : ∃ w,
    runAll narrowWide 2 blank [.allocate { types := [4] } 1] = some w ∧
    Reachable narrowWide (fun _ _ => True) w ∧
    (∃ r, copyOf narrowWide 2 (fun _ => 0) w = some r ∧ w.store.type 0 = some 0 ∧
      r.source.store.type 0 = some 1 ∧ (r.source.ents.datas 0).c = .chunk 0 ∧
      (r.copy.ents.datas 0).c = .chunk 0) ∧
    ¬ ∃ fuel r, copyOf narrowWide fuel (fun _ => 0) w = some r ∧ IsCopy narrowWide w r := by
  have hfacts : ((runAll narrowWide 2 blank [.allocate { types := [4] } 1]).bind fun w =>
      (copyOf narrowWide 2 (fun _ => 0) w).map fun r =>
        ([w.store.type 0, r.source.store.type 0], w.ents.size,
          [(w.ents.datas 0).c, (r.source.ents.datas 0).c, (r.copy.ents.datas 0).c])) =
      some ([some 0, some 1], 1, [.chunk 0, .chunk 0, .chunk 0]) := by decide +kernel
  obtain ⟨w, hw, hfacts⟩ := Option.bind_eq_some_iff.mp hfacts
  obtain ⟨r, hr, hfacts⟩ := Option.map_eq_some_iff.mp hfacts
  simp only [Prod.mk.injEq, List.cons.injEq, and_true] at hfacts
  obtain ⟨⟨htype, htype'⟩, hsize, hentry, hsource, hcopy⟩ := hfacts
  refine ⟨w, hw, ?_, ⟨r, hr, htype, htype', hsource, hcopy⟩, ?_⟩
  · refine (reachable_blank narrowWide _).runAll (fun op hop v => ⟨?_, trivial⟩) hw
    obtain rfl := List.mem_singleton.mp hop
    exact trivial
  · rintro ⟨fuel, r, hs, h⟩
    exact h.no_chunk hs (by omega) 0 hentry

end World

end Dots

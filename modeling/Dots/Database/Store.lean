import Dots.Database.Archetype
import Dots.Library.Links

/-!
# Chunk lists, archetypes and query caches

The headers of all chunks and the mutable fields of all archetypes, one map for
each field of the source. `none` is a null pointer; a function that would
follow a null or freed archetype pointer, or never return, gives `none`.
Entity handles and component bytes are elsewhere.
-/

namespace Dots

open Library

abbrev ChunkId := Nat

abbrev ArchetypeId := Nat

/-- `mask`, a `std::bitset<32>`. -/
abbrev Mask := BitVec 32

structure ArchetypeFilter where
  all : EntityType := {}
  any : EntityType := {}
  none : EntityType := {}
  shared : List TypeIndex := []
  owned : List TypeIndex := []
  deriving DecidableEq

structure MatchedArchetype where
  type : ArchetypeId
  matched : Mask := 0
  deriving DecidableEq

structure QueryCache where
  includeDisabled : Bool
  includeClean : Bool
  filter : ArchetypeFilter
  archetypes : List MatchedArchetype

structure ChunkSlice where
  c : ChunkId
  start : Nat
  count : Nat
  deriving DecidableEq, Repr

/-- What an entry of the entity table holds: the union of the chunk pointer and
the free link. `raw` is memory of the chunk pool that was never written. -/
inductive Location
  | chunk (c : ChunkId)
  | nextFree (id : Nat)
  | raw
  deriving DecidableEq, Repr

/-- `world::entities::data`. -/
structure EntityData where
  c : Location
  i : Nat
  v : Nat
  deriving DecidableEq, Repr

/-- `world::entities`. Fresh entries take their version from `raw`, the bytes
the pool happens to hand out. -/
structure Entities where
  datas : Nat → EntityData
  size : Nat
  free : Nat
  raw : Nat → Nat

/-- `world::exist`. -/
def Entities.exist (ents : Entities) (e : Entity) : Bool :=
  decide (e.id < ents.size) && e.version == (ents.datas e.id).v

structure Store where
  links : Links ChunkId
  /-- `chunk::type`, null for a chunk that is in no archetype. -/
  type : ChunkId → Option ArchetypeId
  count : ChunkId → Nat
  ct : ChunkId → AllocType
  timestamps : ChunkId → Nat → Nat
  freshChunk : ChunkId
  /-- `none` for an archetype that is not allocated, or freed. -/
  archetype : ArchetypeId → Option Archetype
  firstChunk : ArchetypeId → Option ChunkId
  lastChunk : ArchetypeId → Option ChunkId
  firstFree : ArchetypeId → Option ChunkId
  chunkCount : ArchetypeId → Nat
  size : ArchetypeId → Nat
  archetypeTimestamp : ArchetypeId → Nat
  freshArchetype : ArchetypeId
  /-- The values of the map `archetypes`; the key of an entry is its type. -/
  archetypes : List ArchetypeId
  queries : List QueryCache
  typeTimestamps : Nat → Nat
  timestamp : Nat

/-- 32-bit subtraction. -/
def sub32 (a b : Nat) : Nat := (a + 2 ^ 32 - b) % 2 ^ 32

theorem sub32_of_le {a b : Nat} (h : b ≤ a) (ha : a < 2 ^ 32) : sub32 a b = a - b := by
  simp only [sub32]
  omega

/-- `archetype::get_mask` from local index `i` on. `bitset::set` throws past its
width. -/
def maskFrom : Nat → List TypeIndex → List TypeIndex → Option Mask
  | _, [], _ => some 0
  | i, t :: ta, tb =>
      match tb.dropWhile fun u => decide (u < t) with
      | [] => some 0
      | u :: tb =>
          if t < u then maskFrom (i + 1) ta (u :: tb)
          else do
            let m ← maskFrom (i + 1) ta tb
            if i < 32 then some (m ||| (1#32 <<< i)) else none

def Archetype.getMask (a : Archetype) (subtype : List TypeIndex) : Option Mask :=
  maskFrom 0 a.types subtype

/-- `archetype_filter::match`. -/
def ArchetypeFilter.match (f : ArchetypeFilter) (t : EntityType) (sharedT : List TypeIndex) :
    Bool :=
  let components := Set.merge t.types sharedT
  let nonOwned := Set.substract f.none.types f.shared
  let nonShared := Set.substract f.none.types f.owned
  Set.all components f.all.types
    && !(decide (f.any.types.length > 0) && !Set.any components f.any.types)
    && !Set.any t.types nonOwned
    && !Set.any sharedT nonShared
    && Set.all t.types f.owned
    && Set.all sharedT f.shared
    && Set.all t.metatypes f.all.metatypes
    && !(decide (f.any.metatypes.length > 0) && !Set.any t.metatypes f.any.metatypes)
    && !Set.any t.metatypes f.none.metatypes

/-- The arrays of `archetype_filter::match` fit what is left of the stack. Two of them are for
entity types that have what the filter asks for. -/
def ArchetypeFilter.matchFits (f : ArchetypeFilter) (left : Nat) (t : EntityType)
    (sharedT : List TypeIndex) : Bool :=
  let components := Set.merge t.types sharedT
  (stackRoom left [4 * (t.types.length + sharedT.length)]).any fun left =>
    !Set.all components f.all.types
      || (decide (f.any.types.length > 0) && !Set.any components f.any.types)
      || (stackRoom left [4 * f.none.types.length, 4 * f.none.types.length]).isSome

namespace Store

/-- `world::get_archetype(entity)`, where the result is not null. -/
def archetypeIdOf (st : Store) (ents : Entities) (e : Entity) : Option ArchetypeId :=
  if ents.exist e then
    match (ents.datas e.id).c with
    | .chunk c => st.type c
    | _ => none
  else none

/-- `world::get_archetype(entity)`, followed by a use of the result. -/
def getArchetypeOf (st : Store) (ents : Entities) (e : Entity) : Option Archetype :=
  (st.archetypeIdOf ents e).bind st.archetype

/-- `world::estimate_shared_size`. -/
def estimateFrom (st : Store) (ents : Entities) : Nat → Nat → Archetype → Option Nat
  | 0, _, _ => none
  | fuel + 1, size, t =>
      t.metatypes.foldlM (fun size m => do
        let g ← st.getArchetypeOf ents m
        estimateFrom st ents fuel ((size + g.componentCount) % 2 ^ 16) g) size

/-- `world::get_shared_type`: the types of all metas, nested ones included. -/
def sharedTypeFrom (st : Store) (ents : Entities) :
    Nat → List TypeIndex → Archetype → Option (List TypeIndex)
  | 0, _, _ => none
  | fuel + 1, type, a =>
      a.metatypes.foldlM (fun type m => do
        let g ← st.getArchetypeOf ents m
        st.sharedTypeFrom ents fuel (Set.merge g.types type) g) type

/-- The recursion follows one archetype for each level, so a depth past the
number of archetypes ever made meets one of them twice and never returns. -/
def sharedType (st : Store) (ents : Entities) (a : Archetype) : Option (List TypeIndex) :=
  st.sharedTypeFrom ents (st.freshArchetype + 1) [] a

/-- `includeClean < g->cleaning || includeDisabled < g->disabled`, negated, and
the filter. -/
def matchCache (st : Store) (ents : Entities) (includeClean includeDisabled : Bool)
    (f : ArchetypeFilter) (a : Archetype) : Option Bool :=
  if !includeClean && a.cleaning then some false
  else if !includeDisabled && a.disabled then some false
  else (st.sharedType ents a).map (f.match a.type)

/-- The three flags of `get_query_cache`, as the scan of `all.types` leaves them:
the scan stops at the first copying type. -/
def scanFilter (ctx : Context) : List TypeIndex → Bool × Bool × Bool
  | [] => (false, false, false)
  | t :: ts =>
      let clean := t == ctx.cleanupId
      let disabled := t == ctx.disableId
      if (ctx.track t).copying then (clean, disabled, true)
      else
        let (c, d, k) := scanFilter ctx ts
        (clean || c, disabled || d, k)

/-- `(includeClean, includeDisabled)` of a filter. -/
def includeFlags (ctx : Context) (f : ArchetypeFilter) : Bool × Bool :=
  let (includeClean, includeDisabled, includeCopy) := scanFilter ctx f.all.types
  (includeClean, includeDisabled || (includeCopy || includeClean))

/-- The entries `get_query_cache` computes for a filter that is not cached. -/
def computeQuery (ctx : Context) (st : Store) (ents : Entities) (f : ArchetypeFilter) :
    Option (List MatchedArchetype) := do
  let (includeClean, includeDisabled) := includeFlags ctx f
  let found ← st.archetypes.mapM fun g => do
    let a ← st.archetype g
    if ← st.matchCache ents includeClean includeDisabled f a then
      let m ← a.getMask (Set.merge f.all.types f.any.types)
      some [({ type := g, matched := m } : MatchedArchetype)]
    else some []
  some found.flatten

/-- `world::get_query_cache`. -/
def getQueryCache (ctx : Context) (st : Store) (ents : Entities) (f : ArchetypeFilter) :
    Option (Store × QueryCache) :=
  match st.queries.find? fun q => decide (q.filter = f) with
  | some q => some (st, q)
  | none => do
      let found ← computeQuery ctx st ents f
      let flags := includeFlags ctx f
      let q : QueryCache :=
        { includeClean := flags.1, includeDisabled := flags.2, filter := f, archetypes := found }
      some ({ st with queries := st.queries ++ [q] }, q)

/-- The removal in `update_queries`: the last entry takes the place of `g`. -/
def removeMatched (g : ArchetypeId) (gs : List MatchedArchetype) : List MatchedArchetype :=
  let j := gs.findIdx fun m => m.type == g
  if j = gs.length then gs
  else match gs.getLast? with
    | some m => (gs.set j m).dropLast
    | none => gs

/-- `world::update_queries`. -/
def updateQueries (st : Store) (ents : Entities) (g : ArchetypeId) (a : Archetype) (add : Bool) :
    Option Store := do
  let type ← st.sharedType ents a
  some { st with
    queries := st.queries.map fun q =>
      if (!q.includeClean && a.cleaning) || (!q.includeDisabled && a.disabled)
          || !q.filter.match a.type type then q
      else if add then { q with archetypes := q.archetypes ++ [{ type := g }] }
      else { q with archetypes := removeMatched g q.archetypes } }

/-- The two arrays of `update_queries` fit what is left of the stack, and those of the filters it
goes through. -/
def updateFits (st : Store) (ents : Entities) (left : Nat) (a : Archetype) : Bool :=
  (st.sharedType ents a).all fun type =>
    (st.estimateFrom ents (st.freshArchetype + 1) 0 a).all fun size =>
      (stackRoom left [4 * size, 4 * size]).any fun left =>
        st.queries.all fun q =>
          (!q.includeClean && a.cleaning) || (!q.includeDisabled && a.disabled)
            || q.filter.matchFits left a.type type

/-- `archetypes.find(key)`. -/
def findArchetype (st : Store) (key : EntityType) : Option ArchetypeId :=
  st.archetypes.find? fun g => decide ((st.archetype g).map Archetype.type = some key)

/-- Allocate an archetype built by `construct_archetype`. -/
def newArchetype (st : Store) (a : Archetype) : Store × ArchetypeId :=
  let g := st.freshArchetype
  ({ st with
      archetype := Function.update st.archetype g (some a)
      firstChunk := Function.update st.firstChunk g none
      lastChunk := Function.update st.lastChunk g none
      firstFree := Function.update st.firstFree g none
      chunkCount := Function.update st.chunkCount g 0
      size := Function.update st.size g 0
      archetypeTimestamp := Function.update st.archetypeTimestamp g st.timestamp
      freshArchetype := g + 1 }, g)

/-- `world::add_archetype`. -/
def addArchetype (st : Store) (ents : Entities) (g : ArchetypeId) (a : Archetype) :
    Option Store := do
  let st ← st.updateQueries ents g a true
  some { st with archetypes := st.archetypes ++ [g] }

/-- `world::get_archetype(const entity_type&)`. -/
def getArchetype (ctx : Context) (st : Store) (ents : Entities) (key : EntityType) :
    Option (Store × ArchetypeId) :=
  match st.findArchetype key with
  | some g => some (st, g)
  | none => do
      let a ← constructArchetype ctx key
      let (st, g) := st.newArchetype a
      let st ← st.addArchetype ents g a
      some (st, g)

/-- What is left of the stack is enough for `get_archetype`. -/
def getArchetypeFits (ctx : Context) (st : Store) (ents : Entities) (left : Nat)
    (key : EntityType) : Bool :=
  (st.findArchetype key).isSome || (constructArchetype ctx key).all fun a =>
    (stackRoom left (constructArrays a.firstTag)).isSome &&
      (st.newArchetype a).1.updateFits ents left a

/-- `world::structural_change`. The timestamps of a chunk are the last words of its block, where
`World.whole` shows them. -/
def structuralChange (st : Store) (g : ArchetypeId) (a : Archetype) (c : ChunkId) : Store :=
  let st :=
    if st.archetypeTimestamp g ≠ st.timestamp then
      { st with
        archetypeTimestamp := Function.update st.archetypeTimestamp g st.timestamp
        typeTimestamps := fun t =>
          if ∃ u ∈ a.types, u.index = t then st.timestamp else st.typeTimestamps t }
    else st
  { st with
    timestamps := Function.update st.timestamps c fun i =>
      if i < a.types.length then st.timestamp else st.timestamps c i }

/-! ## Lists of one archetype -/

/-- `g->size += n`. -/
def addSize (st : Store) (g : ArchetypeId) (n : Nat) : Store :=
  { st with size := Function.update st.size g ((st.size g + n) % 2 ^ 32) }

/-- `g->size -= n`. -/
def subSize (st : Store) (g : ArchetypeId) (n : Nat) : Store :=
  { st with size := Function.update st.size g (sub32 (st.size g) n) }

/-- `world::remove` on the list of `g`. -/
def remove (st : Store) (g : ArchetypeId) (c : ChunkId) : Store :=
  { st with
    lastChunk := Function.update st.lastChunk g
      (if st.lastChunk g = some c then st.links.prev c else st.lastChunk g)
    firstChunk := Function.update st.firstChunk g
      (if st.firstChunk g = some c then st.links.next c else st.firstChunk g)
    links := st.links.unlink c }

/-- The list part of `world::add_chunk`. The tail is followed without a test. -/
def splice (st : Store) (g : ArchetypeId) (a : Archetype) (c : ChunkId) : Option Store :=
  match st.firstChunk g with
  | none =>
      some { st with
        firstChunk := Function.update st.firstChunk g (some c)
        lastChunk := Function.update st.lastChunk g (some c)
        firstFree :=
          if st.count c < a.chunkCapacity (st.ct c) then
            Function.update st.firstFree g (some c)
          else st.firstFree }
  | some head =>
      if st.count c < a.chunkCapacity (st.ct c) then
        match st.lastChunk g with
        | none => none
        | some last =>
            some { st with
              links := st.links.link last c
              lastChunk := Function.update st.lastChunk g (some c)
              firstFree :=
                if st.firstFree g = none then Function.update st.firstFree g (some c)
                else st.firstFree }
      else some { st with links := st.links.link head c }

/-- `world::add_chunk`. -/
def addChunk (st : Store) (g : ArchetypeId) (c : ChunkId) : Option Store := do
  let a ← st.archetype g
  let st := (st.structuralChange g a c).addSize g (st.count c)
  let st : Store :=
    { st with
      type := Function.update st.type c (some g)
      chunkCount := Function.update st.chunkCount g ((st.chunkCount g + 1) % 2 ^ 16) }
  st.splice g a c

/-- The end of `world::remove_chunk` when the list became empty. -/
def freeArchetype (st : Store) (ents : Entities) (g : ArchetypeId) (a : Archetype) :
    Option Store := do
  let key := a.type
  let st : Store :=
    { st with
      archetypes := st.archetypes.filter fun g' =>
        decide ((st.archetype g').map Archetype.type ≠ some key) }
  let st ← st.updateQueries ents g a false
  some { st with archetype := Function.update st.archetype g none }

/-- `world::remove_chunk`. -/
def removeChunk (st : Store) (ents : Entities) (g : ArchetypeId) (c : ChunkId) :
    Option Store := do
  let a ← st.archetype g
  let st := (st.structuralChange g a c).subSize g (st.count c)
  let st : Store :=
    { st with
      chunkCount := Function.update st.chunkCount g ((st.chunkCount g + 2 ^ 16 - 1) % 2 ^ 16)
      firstFree :=
        if st.firstFree g = some c then Function.update st.firstFree g (st.links.next c)
        else st.firstFree }
  let st := st.remove g c
  let st : Store := { st with type := Function.update st.type c none }
  if st.firstChunk g = none then st.freeArchetype ents g a else some st

/-- `world::mark_free`. -/
def markFree (st : Store) (g : ArchetypeId) (c : ChunkId) : Store :=
  let st := st.remove g c
  let links := match st.lastChunk g with
    | some last => st.links.link last c
    | none => st.links
  { st with
    links := links
    lastChunk := Function.update st.lastChunk g (some c)
    firstFree :=
      if st.firstFree g = none then Function.update st.firstFree g (some c) else st.firstFree
    firstChunk :=
      if st.firstChunk g = none then Function.update st.firstChunk g (some c)
      else st.firstChunk }

/-- `world::unmark_free`. -/
def unmarkFree (st : Store) (g : ArchetypeId) (c : ChunkId) : Store :=
  if st.firstFree g = some c then
    { st with firstFree := Function.update st.firstFree g (st.links.next c) }
  else
    let st := st.remove g c
    let links := match st.firstChunk g with
      | some head => st.links.linkBefore c head
      | none => st.links
    { st with
      links := links
      firstChunk := Function.update st.firstChunk g (some c)
      lastChunk :=
        if st.lastChunk g = none then Function.update st.lastChunk g (some c)
        else st.lastChunk }

/-- `world::malloc_chunk`. -/
def mallocChunk (st : Store) (type : AllocType) : Store × ChunkId :=
  let c := st.freshChunk
  ({ st with
      ct := Function.update st.ct c type
      count := Function.update st.count c 0
      links := (st.links.setPrev c none).setNext c none
      freshChunk := c + 1 }, c)

/-- The bin `world::new_chunk` chooses. -/
def newChunkBin (chunkCount size : Nat) : AllocType :=
  if chunkCount < kSmallBinThreshold ∧ size < kSmallBinSize then .smallbin
  else if size > kFastBinSize * 8 then .largebin
  else .fastbin

/-- `world::new_chunk`. -/
def newChunk (st : Store) (g : ArchetypeId) (hint : Nat) : Option (Store × ChunkId) := do
  let a ← st.archetype g
  let size := hint * a.entitySize % 2 ^ 32
  let (st, c) := st.mallocChunk (newChunkBin (st.chunkCount g) size)
  let st ← st.addChunk g c
  some (st, c)

/-- `world::resize_chunk`; `destroy_chunk` gives the memory back after
`remove_chunk`, which clears the type. -/
def resizeChunk (st : Store) (ents : Entities) (c : ChunkId) (count : Nat) : Option Store := do
  let g ← st.type c
  let a ← st.archetype g
  if count = 0 then st.removeChunk ents g c
  else
    let st :=
      if count = a.chunkCapacity (st.ct c) then st.unmarkFree g c
      else if st.count c = a.chunkCapacity (st.ct c) then st.markFree g c
      else st
    some { st with count := Function.update st.count c count }

/-- `world::allocate_slice`. -/
def allocateSlice (st : Store) (ents : Entities) (g : ArchetypeId) (count : Nat) :
    Option (Store × ChunkSlice) := do
  let a ← st.archetype g
  let (st, c) ← match st.firstFree g with
    | some c => some (st, c)
    | none => st.newChunk g count
  let st := st.structuralChange g a c
  let start := st.count c
  let allocated := min count (sub32 (a.chunkCapacity (st.ct c)) start)
  let st := st.addSize g allocated
  let st ← st.resizeChunk ents c (start + allocated)
  some (st, { c := c, start := start, count := allocated })

end Store

end Dots

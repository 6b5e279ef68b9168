import Dots.Database.Chunk

/-!
# The entity table and the structural operations of a world

Every loop that waits for `allocate_slice` to hand out slots, and every
recursion through groups, takes fuel; running out of it stands for a call that
has not returned.
-/

namespace Dots

open Library

namespace Entities

def setData (ents : Entities) (id : Nat) (d : EntityData) : Entities :=
  { ents with datas := Function.update ents.datas id d }

/-- One turn of the loops of `new_entities`: pop the free list, or grow the table
by one entry. The source grows it once by all the entries the free list lacks. -/
def takeId (ents : Entities) : Option (Entities × Entity) :=
  if ents.free = 0 then
    let v := ents.raw ents.size % 2 ^ 8
    some ({ ents.setData ents.size { c := .raw, i := 0, v := v } with size := ents.size + 1 },
      Entity.make ents.size v)
  else match (ents.datas ents.free).c with
    | .nextFree n =>
        some ({ ents with free := n }, Entity.make ents.free (ents.datas ents.free).v)
    | _ => none

/-- `datas[e.id].c = c; datas[e.id].i = slot`. -/
def place (ents : Entities) (e : Entity) (c : ChunkId) (slot : Nat) : Entities :=
  ents.setData e.id { ents.datas e.id with c := .chunk c, i := slot % 2 ^ 24 }

/-- `world::entities::new_entities(chunk_slice)`, for `n` slots from `slot` on. -/
def newEntities (c : ChunkId) : Nat → Nat → Entities → Mem → Option (Entities × Mem)
  | 0, _, ents, m => some (ents, m)
  | n + 1, slot, ents, m => do
      let (ents, e) ← ents.takeId
      newEntities c n (slot + 1) (ents.place e c slot) (Mem.writeEntity m slot e)

/-- The entry of a freed id. -/
def freed (d : EntityData) (next : Nat) : EntityData where
  c := .nextFree next
  i := 0
  v := Entity.recycle d.v % 2 ^ 8

/-- Thread the freed entries: each links to the next handle, the last one to the
old head. -/
def freeChain (ents : Entities) : List Entity → Entities
  | [] => ents
  | e :: es =>
      let next := match es with
        | [] => ents.free
        | f :: _ => f.id
      (ents.setData e.id (freed (ents.datas e.id) next)).freeChain es

/-- `world::entities::free_entities` on the handles of a slice. With no handle the
loop bound `s.count - 1` wraps around. -/
def freeEntities (ents : Entities) (es : List Entity) : Option Entities :=
  match es with
  | [] => none
  | e :: _ => some { ents.freeChain es with free := e.id }

/-- The table part of `move_entities`. -/
def moveEntities (c : ChunkId) : Nat → List Entity → Entities → Entities
  | _, [], ents => ents
  | slot, e :: es, ents => moveEntities c (slot + 1) es (ents.place e c slot)

/-- The table part of `fill_entities`: only the slot changes. -/
def fillEntities : Nat → List Entity → Entities → Entities
  | _, [], ents => ents
  | slot, e :: es, ents =>
      fillEntities (slot + 1) es
        (ents.setData e.id { ents.datas e.id with i := slot % 2 ^ 24 })

end Entities

structure World where
  store : Store
  ents : Entities
  memory : Memory

namespace World

/-- `world::world(uint32_t)`. `timestamp` has no initializer, and chunks, the entity
table and heap blocks hold whatever their pools hand out. -/
def initial (timestamp : Nat) (raw : Nat → Nat) (data : ChunkId → Mem)
    (guids : Nat → List UInt8) : World where
  store :=
    { links := { next := fun _ => none, prev := fun _ => none }
      type := fun _ => none, count := fun _ => 0, ct := fun _ => .fastbin
      timestamps := fun _ _ => 0, freshChunk := 0
      archetype := fun _ => none, firstChunk := fun _ => none, lastChunk := fun _ => none
      firstFree := fun _ => none, chunkCount := fun _ => 0, size := fun _ => 0
      archetypeTimestamp := fun _ => 0, freshArchetype := 0, archetypes := [], queries := []
      typeTimestamps := fun _ => 0, timestamp := timestamp }
  ents := { datas := fun _ => { c := .raw, i := 0, v := 0 }, size := 0, free := 0, raw := raw }
  memory :=
    { data := data, heap := fun _ => none, freshBlock := 1, guids := guids, guidCount := 0 }

/-- The archetype of a chunk, when it can be followed. -/
def archetypeOf (w : World) (c : ChunkId) : Option (ArchetypeId × Archetype) := do
  let g ← w.store.type c
  let a ← w.store.archetype g
  some (g, a)

/-- The handles of a slice. -/
def handles (w : World) (s : ChunkSlice) : List Entity :=
  (List.range s.count).map fun j => w.memory.entityAt s.c (s.start + j)

/-- `memcpy` of `n` handles between two chunks. -/
def copyHandles (w : World) (dst : ChunkId) (slot : Nat) (src : ChunkId) (srcSlot n : Nat) :
    World :=
  { w with memory := w.memory.setData dst (Mem.copy (w.memory.data dst) (sizeofEntity * slot)
      (w.memory.data src) (sizeofEntity * srcSlot) (sizeofEntity * n)) }

/-- `ents.move_entities(dst, src, srcIndex)`. -/
def moveEntities (w : World) (dst : ChunkSlice) (src : ChunkId) (srcIndex : Nat) : World :=
  let es := w.handles { c := src, start := srcIndex, count := dst.count }
  { w.copyHandles dst.c dst.start src srcIndex dst.count with
    ents := w.ents.moveEntities dst.c dst.start es }

/-- `ents.fill_entities(dst, srcIndex)`. -/
def fillEntities (w : World) (dst : ChunkSlice) (srcIndex : Nat) : World :=
  let es := w.handles { c := dst.c, start := srcIndex, count := dst.count }
  { w.copyHandles dst.c dst.start dst.c srcIndex dst.count with
    ents := w.ents.fillEntities dst.start es }

/-- `ents.new_entities(s)`. -/
def newEntities (w : World) (s : ChunkSlice) : Option World := do
  let (ents, m) ← Entities.newEntities s.c s.count s.start w.ents (w.memory.data s.c)
  some { w with ents := ents, memory := w.memory.setData s.c m }

/-- `ents.free_entities(s)`. -/
def freeEntities (w : World) (s : ChunkSlice) : Option World := do
  let ents ← w.ents.freeEntities (w.handles s)
  some { w with ents := ents }

/-- `world::get_archetype(const entity_type&)`. -/
def getArchetype (ctx : Context) (w : World) (key : EntityType) :
    Option (World × ArchetypeId) := do
  let (st, g) ← Store.getArchetype ctx w.store w.ents key
  some ({ w with store := st }, g)

/-- `world::allocate_slice`. -/
def allocateSlice (w : World) (g : ArchetypeId) (count : Nat) : Option (World × ChunkSlice) := do
  let (st, s) ← w.store.allocateSlice w.ents g count
  some ({ w with store := st }, s)

/-- The middle of `world::free_slice`: the last entities of the chunk move into the
slots of the slice. -/
def moveTail (w : World) (a : Archetype) (s : ChunkSlice) : World :=
  let n := w.store.count s.c
  let toMoveCount := min s.count (sub32 (sub32 n s.start) s.count)
  if 0 < toMoveCount then
    let moveSlice : ChunkSlice := { c := s.c, start := s.start, count := toMoveCount }
    let mm := w.memory.moveWithin a (w.store.ct s.c) moveSlice (n - toMoveCount)
    { w with memory := mm }.fillEntities moveSlice (n - toMoveCount)
  else w

/-- `world::free_slice`. -/
def freeSlice (w : World) (s : ChunkSlice) : Option World := do
  let (g, a) ← w.archetypeOf s.c
  let w := { w with store := (w.store.structuralChange g a s.c).subSize g s.count }
  let n := w.store.count s.c
  let w := w.moveTail a s
  let st ← w.store.resizeChunk w.ents s.c (sub32 n s.count)
  some { w with store := st }

/-- One side of a component copy. -/
def side (w : World) (c : ChunkId) (start : Nat) : Option Memory.CastSide := do
  let (_, a) ← w.archetypeOf c
  some { c := c, a := a, ct := w.store.ct c, start := start }

/-- The loop of `world::cast_slice`. -/
def castLoop (ctx : Context) (src : ChunkSlice) (g : ArchetypeId) :
    Nat → Nat → World → Option (World × List ChunkSlice)
  | 0, _, _ => none
  | fuel + 1, k, w =>
      if k < src.count then do
        let (w, s) ← w.allocateSlice g (src.count - k)
        let dstSide ← w.side s.c s.start
        let srcSide ← w.side src.c (src.start + k)
        let mm ← w.memory.cast ctx dstSide srcSide s.count true
        let w := { w with memory := mm }.moveEntities s src.c (src.start + k)
        let (w, ss) ← castLoop ctx src g fuel (k + s.count) w
        some (w, s :: ss)
      else some (w, [])

/-- `world::cast_slice`. -/
def castSlice (ctx : Context) (fuel : Nat) (w : World) (src : ChunkSlice) (g : ArchetypeId) :
    Option (World × List ChunkSlice) := do
  let (srcG, a) ← w.archetypeOf src.c
  let w := { w with store := (w.store.structuralChange srcG a src.c).subSize srcG src.count }
  let (w, ss) ← castLoop ctx src g fuel 0 w
  let w ← w.freeSlice src
  some (w, ss)

/-- The loop of `static_castable`, on what is left of the two type lists. -/
def staticCastableFrom (ctx : Context) : List TypeIndex → List TypeIndex → Bool
  | [], [] => true
  | [], dt :: _ => dt.isTag
  | st :: _, [] => st.isTag
  | st :: a, dt :: b =>
      if st.isTag && dt.isTag then true
      else if ctx.toValidType st = ctx.toValidType dt then staticCastableFrom ctx a b
      else false

/-- `static_castable`. -/
def staticCastable (ctx : Context) (a b : EntityType) : Bool :=
  staticCastableFrom ctx a.types b.types

/-- `chunk_slice::full`. -/
def full (w : World) (s : ChunkSlice) : Bool :=
  s.start == 0 && s.count == w.store.count s.c

/-- `world::cast(chunk_slice, archetype*)`; `none` is the null archetype. -/
def castTo (ctx : Context) (fuel : Nat) (w : World) (s : ChunkSlice) (g : Option ArchetypeId) :
    Option (World × List ChunkSlice) :=
  match g with
  | none => do
      let w ← w.freeEntities s
      let w ← w.freeSlice s
      some (w, [])
  | some g => do
      let (srcG, srcA) ← w.archetypeOf s.c
      let a ← w.store.archetype g
      if srcG = g then some (w, [])
      else if w.full s && staticCastable ctx srcA.type a.type then
        let st ← w.store.removeChunk w.ents srcG s.c
        let st ← st.addChunk g s.c
        some ({ w with store := st }, [])
      else w.castSlice ctx fuel s g

/-- The loop of `world::allocate(archetype*, uint32_t)`. -/
def allocateLoop (ctx : Context) (g : ArchetypeId) :
    Nat → Nat → World → Option (World × List ChunkSlice)
  | 0, _, _ => none
  | fuel + 1, n, w =>
      if 0 < n then do
        let (w, s) ← w.allocateSlice g n
        let (_, a) ← w.archetypeOf s.c
        let w := { w with memory := w.memory.construct ctx a (w.store.ct s.c) s }
        let w ← w.newEntities s
        let (w, ss) ← allocateLoop ctx g fuel (n - s.count) w
        some (w, s :: ss)
      else some (w, [])

/-- `world::allocate(const entity_type&, uint32_t)`. -/
def allocate (ctx : Context) (fuel : Nat) (w : World) (type : EntityType) (count : Nat) :
    Option (World × List ChunkSlice) := do
  let (w, g) ← w.getArchetype ctx type
  allocateLoop ctx g fuel count w

/-! ## Target types -/

/-- The types `get_cleaning` collects, sorted. -/
def cleaningTypes (ctx : Context) (a : Archetype) : List TypeIndex :=
  (ctx.cleanupId :: a.types.filter fun t => (ctx.track t).manualCleaning).insertionSort (· ≤ ·)

/-- `dstTypes` of `get_cleaning` fits the stack, and with it what `get_archetype` needs. -/
def cleaningFits (ctx : Context) (w : World) (a : Archetype) : Bool :=
  let dstTypes := cleaningTypes ctx a
  (stackRoom kStackSize [4 * (a.componentCount + 1)]).any fun left =>
    dstTypes.length == 1 ||
      w.store.getArchetypeFits ctx w.ents left { types := dstTypes, metatypes := a.metatypes }

/-- `world::get_cleaning`. -/
def getCleaning (ctx : Context) (w : World) (g : ArchetypeId) (a : Archetype) :
    Option (World × Option ArchetypeId) :=
  if a.cleaning then some (w, some g)
  else if !a.withTracked then some (w, none)
  else if !w.cleaningFits ctx a then none
  else
    let dstTypes := cleaningTypes ctx a
    if dstTypes.length = 1 then some (w, none)
    else do
      let (w, g) ← w.getArchetype ctx { types := dstTypes, metatypes := a.metatypes }
      some (w, some g)

/-- Phase 2 of `get_casted`: a type followed by its twin swallows the twin. -/
def zipCopying (ctx : Context) : List TypeIndex → List TypeIndex
  | [] => []
  | [t] => [t]
  | t :: u :: ts =>
      if (ctx.track t).manualCopying && u == t + 1 then t :: zipCopying ctx ts
      else t :: zipCopying ctx (u :: ts)

/-- Phases 0 to 4 of `get_casted`. -/
def castedType (ctx : Context) (a : Archetype) (diff : TypeDiff) (inst : Bool) : EntityType :=
  let key := a.type
  let key :=
    if inst && a.withTracked then
      { key with types := key.types.map fun t =>
          if (ctx.track t).manualCopying then t + 1 else t }
    else key
  let key := if diff.extend ≠ EntityType.empty then key.merge diff.extend else key
  let key :=
    if a.copying && decide (diff.extend ≠ EntityType.empty) then
      { key with types := zipCopying ctx key.types }
    else key
  let shrink :=
    if a.copying then
      { diff.shrink with types := diff.shrink.types.flatMap fun t =>
          if (ctx.track t).manualCopying then [t, t + 1] else [t] }
    else diff.shrink
  if diff.shrink ≠ EntityType.empty then key.substract shrink else key

/-- `world::is_cleaned`. -/
def isCleaned (type : EntityType) : Bool := type.types.length == 1

/-- The arrays that phases 0 to 4 of `get_casted` take from the stack, in bytes. They are given
back together. -/
def castedArrays (ctx : Context) (a : Archetype) (diff : TypeDiff) (inst : Bool) : List Nat :=
  let bytes := fun key : EntityType => 4 * key.types.length + 4 * key.metatypes.length
  let extending := decide (diff.extend ≠ EntityType.empty)
  let shrinking := decide (diff.shrink ≠ EntityType.empty)
  let key :=
    if inst && a.withTracked then
      { a.type with types := a.type.types.map fun t =>
          if (ctx.track t).manualCopying then t + 1 else t }
    else a.type
  let merged := if extending then key.merge diff.extend else key
  let zipped :=
    if a.copying && extending then { merged with types := zipCopying ctx merged.types } else merged
  (if inst && a.withTracked then [4 * a.componentCount] else [])
    ++ (if extending then [bytes key + bytes diff.extend] else [])
    ++ (if a.copying && extending then [4 * merged.types.length] else [])
    ++ (if a.copying && shrinking then [8 * diff.shrink.types.length] else [])
    ++ (if shrinking then [bytes zipped] else [])

/-- These arrays fit the stack, and with them what `get_archetype` needs. -/
def castedFits (ctx : Context) (w : World) (a : Archetype) (diff : TypeDiff) (inst : Bool) :
    Bool :=
  let key := castedType ctx a diff inst
  (stackRoom kStackSize (castedArrays ctx a diff inst)).any fun left =>
    (a.cleaning && isCleaned key) || w.store.getArchetypeFits ctx w.ents left key

/-- `world::get_casted`. -/
def getCasted (ctx : Context) (w : World) (a : Archetype) (diff : TypeDiff) (inst : Bool) :
    Option (World × Option ArchetypeId) :=
  if inst && a.cleaning then some (w, none)
  else if !w.castedFits ctx a diff inst then none
  else
    let key := castedType ctx a diff inst
    if a.cleaning && isCleaned key then some (w, none)
    else do
      let (w, g) ← w.getArchetype ctx key
      some (w, some g)

/-- `world::cast(chunk_slice, type_diff)`. -/
def cast (ctx : Context) (fuel : Nat) (w : World) (s : ChunkSlice) (diff : TypeDiff) :
    Option (World × List ChunkSlice) := do
  let (_, a) ← w.archetypeOf s.c
  let (w, g) ← w.getCasted ctx a diff false
  w.castTo ctx fuel s g

/-- `world::cast(chunk_slice, const entity_type&)`. -/
def castType (ctx : Context) (fuel : Nat) (w : World) (s : ChunkSlice) (type : EntityType) :
    Option (World × List ChunkSlice) := do
  let (w, g) ← w.getArchetype ctx type
  w.castTo ctx fuel s (some g)

/-- `world::destroy_single`. -/
def destroySingle (ctx : Context) (fuel : Nat) (w : World) (s : ChunkSlice) : Option World := do
  let (g, a) ← w.archetypeOf s.c
  if a.cleaning then some w
  else
    let (w, g) ← w.getCleaning ctx g a
    match g with
    | none =>
        let w ← w.freeEntities s
        w.freeSlice s
    | some g =>
        let (w, _) ← w.castSlice ctx fuel s g
        some w

/-! ## Groups -/

/-- The slice of one entry of the table, when it holds a chunk. -/
def entrySlice (w : World) (id : Nat) : Option ChunkSlice :=
  if id < w.ents.size then
    match (w.ents.datas id).c with
    | .chunk c => some { c := c, start := (w.ents.datas id).i, count := 1 }
    | _ => none
  else none

/-- `world::as_slice`. -/
def asSlice (w : World) (e : Entity) : Option ChunkSlice := w.entrySlice e.id

/-- `world::get_component_ro(chunk_slice, type_index)`: the chunk and address of the
component, or null. The test against `firstTag` comes before the one for an
invalid index, so a component that is not owned is never looked up in the metas. -/
def sliceComponentRo (w : World) (s : ChunkSlice) (t : TypeIndex) :
    Option (Option (ChunkId × Nat)) := do
  let (_, a) ← w.archetypeOf s.c
  let id := a.index t
  if id ≥ a.firstTag then some none
  else some (some (s.c, a.address (w.store.ct s.c) id s.start))

/-- `world::get_component_ro(entity, type_index)`. -/
def getComponentRo (w : World) (e : Entity) (t : TypeIndex) : Option (Option (ChunkId × Nat)) :=
  if w.ents.exist e then do
    let s ← w.asSlice e
    w.sliceComponentRo s t
  else some none

/-- `((entity*)b->data())[j]` for the buffer at address `addr` of chunk `c`. -/
def groupMember (w : World) (c : ChunkId) (addr j : Nat) : Option Entity :=
  let b := Mem.readBuffer (w.memory.data c) addr
  if b.d = 0 then
    some ⟨Mem.readWord (w.memory.data c) (addr + sizeofBuffer + sizeofEntity * j) 4⟩
  else (w.memory.heap b.d).map fun block => ⟨Mem.readWord block.bytes (sizeofEntity * j) 4⟩

/-- `b->size / sizeof(entity)`. -/
def groupSize (w : World) (c : ChunkId) (addr : Nat) : Nat :=
  (Mem.readBuffer (w.memory.data c) addr).size / sizeofEntity

/-- `world::flatten_group`. -/
def flattenGroup (ctx : Context) (w : World) : Nat → ChunkId → Nat → Option (List Entity)
  | 0, _, _ => none
  | fuel + 1, c, addr => do
      let root ← w.groupMember c addr 0
      let rest ← (List.range (w.groupSize c addr - 1)).mapM fun i => do
        let e ← w.groupMember c addr (i + 1)
        match ← w.getComponentRo e ctx.groupId with
        | some (c', addr') => w.flattenGroup ctx fuel c' addr'
        | none => some [e]
      some (root :: rest.flatten)

/-- `chunk::patch({data.c, data.i, 1}, &p)` for the entry of `e`. -/
def patchEntity (ctx : Context) (w : World) (e : Entity) (p : Memory.Patcher) : Option World := do
  let s ← w.asSlice e
  let (_, a) ← w.archetypeOf s.c
  let mm ← w.memory.patch ctx a (w.store.ct s.c) s p
  some { w with memory := mm }

/-- The patcher of `world::group_to_prefab`. -/
def toPrefab (src : List Entity) (keepExternal : Bool) (e : Entity) : Entity :=
  let i := src.findIdx fun m => e == m
  if i < src.length then Entity.makeTransient i
  else if keepExternal then e else Entity.null

/-- `world::group_to_prefab`. -/
def groupToPrefab (ctx : Context) (w : World) (src : List Entity) (keepExternal : Bool) :
    Option World :=
  src.foldlM (fun w e => w.patchEntity ctx e fun _ => toPrefab src keepExternal) w

/-- The patcher of `world::prefab_to_group`; index `count` passes its test. -/
def fromPrefab (members : List Entity) (count : Nat) (e : Entity) : Entity :=
  if e.id > count || !e.isTransient then e else members.getD e.id Entity.null

/-- `world::prefab_to_group`. -/
def prefabToGroup (ctx : Context) (w : World) (members : List Entity) : Option World :=
  members.foldlM (fun w e => w.patchEntity ctx e fun _ => fromPrefab members members.length) w

/-- The loop of `world::instantiate_single`. -/
def instantiateLoop (ctx : Context) (src : Entity) (g : ArchetypeId) :
    Nat → Nat → World → Option (World × List ChunkSlice)
  | 0, _, _ => none
  | fuel + 1, n, w =>
      if 0 < n then do
        let (w, s) ← w.allocateSlice g n
        let from_ ← w.asSlice src
        let srcSide ← w.side from_.c from_.start
        let (_, a) ← w.archetypeOf s.c
        let mm ← w.memory.duplicate ctx a s srcSide
        let w ← { w with memory := mm }.newEntities s
        let (w, ss) ← instantiateLoop ctx src g fuel (n - s.count) w
        some (w, s :: ss)
      else some (w, [])

/-- `world::instantiate_single`. -/
def instantiateSingle (ctx : Context) (fuel : Nat) (w : World) (src : Entity) (count : Nat) :
    Option (World × List ChunkSlice) := do
  let s ← w.asSlice src
  let (_, a) ← w.archetypeOf s.c
  let (w, g) ← w.getCasted ctx a {} true
  match g with
  | none => if count = 0 then some (w, []) else none
  | some g => instantiateLoop ctx src g fuel count w

/-- The first loop of `world::instantiate_prefab`: the slices of each member, and
its column of the table of new handles. -/
def instantiateMembers (ctx : Context) (fuel count : Nat) :
    List Entity → World → Option (World × List (List ChunkSlice × List Entity))
  | [], w => some (w, [])
  | e :: es, w => do
      let (w, ss) ← w.instantiateSingle ctx fuel e count
      let column := ss.flatMap w.handles
      let (w, rest) ← instantiateMembers ctx fuel count es w
      some (w, (ss, column) :: rest)

/-- The patcher of `world::instantiate_prefab`: `curr` stands `row` instances into
the table and advances by one at each move. -/
def prefabPatcher (ret : Nat → Nat → Entity) (size row pos : Nat) (e : Entity) : Entity :=
  if e.id > size || !e.isTransient then e else ret (row + pos + e.id / size) (e.id % size)

/-- Patch the slices of one member, `row` instances into the table. -/
def patchSlices (ctx : Context) (ret : Nat → Nat → Entity) (size : Nat) :
    Nat → List ChunkSlice → World → Option World
  | _, [], w => some w
  | row, s :: ss, w => do
      let (_, a) ← w.archetypeOf s.c
      let mm ← w.memory.patch ctx a (w.store.ct s.c) s (prefabPatcher ret size row)
      patchSlices ctx ret size (row + s.count) ss { w with memory := mm }

/-- `world::instantiate_prefab`. `ret` is the table of new handles, one row for
each instance. -/
def instantiatePrefab (ctx : Context) (fuel : Nat) (w : World) (src : List Entity)
    (count : Nat) : Option (World × List ChunkSlice) := do
  let (w, members) ← instantiateMembers ctx fuel count src w
  let ret := fun row i => (members.getD i ([], [])).2.getD row Entity.null
  let w ← members.foldlM (fun w m => patchSlices ctx ret src.length 0 m.1 w) w
  some (w, members.flatMap Prod.fst)

/-- `world::instantiate`. -/
def instantiate (ctx : Context) (fuel : Nat) (w : World) (src : Entity) (count : Nat) :
    Option (World × List ChunkSlice) := do
  match ← w.getComponentRo src ctx.groupId with
  | none => w.instantiateSingle ctx fuel src count
  | some (c, addr) =>
      let members ← w.flattenGroup ctx fuel c addr
      let w ← w.groupToPrefab ctx members true
      let (w, ss) ← w.instantiatePrefab ctx fuel members count
      let w ← w.prefabToGroup ctx members
      some (w, ss)

/-- The group loops of `world::destroy`, given `world::destroy` itself: element
`i` of the slice is sought at stride `sizes[i]` from slot 0 of the chunk, and each
member makes it destroy the entity of entry `i`. -/
def destroyGroups (rec : World → ChunkSlice → Option World) (g : ArchetypeId) (c : ChunkId)
    (id count : Nat) (w : World) : Option World :=
  (List.range count).foldlM (fun w i => do
    let a ← w.store.archetype g
    if i < a.firstTag then
      let addr := a.address (w.store.ct c) id 0 + i * a.size i
      (List.range (w.groupSize c addr - 1)).foldlM (fun w _ => do
        let s ← w.entrySlice i
        rec w s) w
    else none) w

/-- `world::destroy(chunk_slice)`. -/
def destroy (ctx : Context) : Nat → World → ChunkSlice → Option World
  | 0, _, _ => none
  | fuel + 1, w, s => do
      let (g, a) ← w.archetypeOf s.c
      let id := a.index ctx.groupId
      let w ←
        if id = invalidIndex then some w
        else destroyGroups (destroy ctx fuel) g s.c id s.count w
      w.destroySingle ctx fuel s

end World

end Dots

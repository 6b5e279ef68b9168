import Dots.Database.World

/-!
# Entities as bytes

What the serializers write to a stream, and what the deserializers make of it. A
stream is the list of the bytes that are left; a reader that meets its end has no
result.
-/

namespace Dots

open Library

/-- `core::GUID` as its 16 bytes. -/
def guidBytes (g : GUID) : List UInt8 := (Mem.wordBytes g 16).reverse

/-- `archive(s, uu)` when reading. -/
def takeGuid (bs : List UInt8) : Option (GUID × List UInt8) :=
  (Mem.take 16 bs).map fun (b, rest) => (Mem.ofBytes b.reverse, rest)

def takeEntity (bs : List UInt8) : Option (Entity × List UInt8) :=
  (Mem.takeWord 4 bs).map fun (v, rest) => (⟨v⟩, rest)

namespace Memory

/-! ## `chunk::serialize` -/

/-- `chunk::serialize` to a stream. -/
def saveSlice (mm : Memory) (a : Archetype) (ct : AllocType) (s : ChunkSlice) :
    Option (List UInt8) := do
  let m := mm.data s.c
  let entities := Mem.read m (sizeofEntity * s.start) (sizeofEntity * s.count)
  let arrays := (List.range a.firstTag).flatMap fun i =>
    Mem.read m (a.address ct i s.start) (a.size i * s.count)
  let buffers ← (columns a.firstBuffer a.firstManaged).mapM fun i =>
    (List.range s.count).mapM fun j => mm.bufferBytes s.c (a.address ct i (s.start + j))
  some (entities ++ arrays ++ (buffers.map List.flatten).flatten)

/-- Read a column of a slice. -/
def loadColumn (a : Archetype) (ct : AllocType) (s : ChunkSlice) (mm : Memory) (bs : List UInt8)
    (i : Nat) : Option (Memory × List UInt8) := do
  let (b, bs) ← Mem.take (a.size i * s.count) bs
  some (mm.setData s.c (Mem.write (mm.data s.c) (a.address ct i s.start) b), bs)

/-- Read the contents of the buffer at `addr`. A header that was saved with a heap
block gets a block of its capacity. -/
def loadBuffer (c : ChunkId) (addr : Nat) (mm : Memory) (bs : List UInt8) :
    Option (Memory × List UInt8) := do
  let h := Mem.readBuffer (mm.data c) addr
  let (b, bs) ← Mem.take h.size bs
  if h.d = 0 then some (mm.setData c (Mem.write (mm.data c) (addr + sizeofBuffer) b), bs)
  else
    let (mm, d) := mm.malloc h.capacity (Mem.write (fun _ => 0) 0 b)
    some (mm.setData c (Mem.writeWord (mm.data c) addr d 8), bs)

/-- `chunk::serialize` from a stream. -/
def loadSlice (mm : Memory) (a : Archetype) (ct : AllocType) (s : ChunkSlice) (bs : List UInt8) :
    Option (Memory × List UInt8) := do
  let (b, bs) ← Mem.take (sizeofEntity * s.count) bs
  let mm := mm.setData s.c (Mem.write (mm.data s.c) (sizeofEntity * s.start) b)
  let (mm, bs) ← (List.range a.firstTag).foldlM
    (fun (mm, bs) i => loadColumn a ct s mm bs i) (mm, bs)
  (columns a.firstBuffer a.firstManaged).foldlM (fun (mm, bs) i =>
    (List.range s.count).foldlM (fun (mm, bs) j =>
      loadBuffer s.c (a.address ct i (s.start + j)) mm bs) (mm, bs)) (mm, bs)

end Memory

namespace Store

/-- The scan of `deserialize_slice` for a chunk with room for `count` entities. A list
that does not end within the number of chunks ever made has no end. -/
def findRoom (st : Store) (a : Archetype) (count : Nat) :
    Nat → Option ChunkId → Option (Option ChunkId)
  | 0, _ => none
  | _ + 1, none => some none
  | fuel + 1, some c =>
      if (st.count c + count) % 2 ^ 32 > a.chunkCapacity (st.ct c) then
        st.findRoom a count fuel (st.links.next c)
      else some (some c)

/-- The bin `deserialize_slice` chooses; `new_chunk` has another bound for the large one. -/
def loadChunkBin (chunkCount size : Nat) : AllocType :=
  if chunkCount < kSmallBinThreshold ∧ size < kSmallBinSize then .smallbin
  else if size > kFastBinSize then .largebin
  else .fastbin

/-- The part of `deserialize_slice` before the contents: a chunk and its new size. -/
def loadSlots (st : Store) (ents : Entities) (g : ArchetypeId) (count : Nat) :
    Option (Store × ChunkSlice) := do
  let a ← st.archetype g
  let found ← st.findRoom a count (st.freshChunk + 1) (st.firstFree g)
  let (st, c) ← match found with
    | some c => some (st, c)
    | none =>
        let (st, c) :=
          st.mallocChunk (loadChunkBin (st.chunkCount g) (count * a.entitySize % 2 ^ 32))
        (st.addChunk g c).map fun st => (st, c)
  let start := st.count c
  let st ← st.resizeChunk ents c ((start + count) % 2 ^ 32)
  some (st, { c := c, start := start, count := count })

end Store

namespace World

/-! ## Archetypes and slices -/

/-- `world::serialize_archetype`. -/
def serializeArchetype (ctx : Context) (st : Store) (g : ArchetypeId) (a : Archetype) :
    List UInt8 :=
  Mem.wordBytes (st.size g) 4
    ++ Mem.wordBytes a.types.length 2
    ++ (a.types.flatMap fun t => guidBytes (ctx.info t).guid)
    ++ Mem.wordBytes a.metatypes.length 2
    ++ a.metatypes.flatMap fun e => Mem.wordBytes e.value 4

/-- The key `deserialize_archetype` reads, less the size before it. An unknown GUID is
entered into the map with type 0. -/
def readKey (ctx : Context) (bs : List UInt8) : Option (EntityType × List UInt8) := do
  let (tlength, bs) ← Mem.takeWord 2 bs
  let (guids, bs) ← Mem.takeMany takeGuid tlength bs
  let (mlength, bs) ← Mem.takeWord 2 bs
  let (metas, bs) ← Mem.takeMany takeEntity mlength bs
  some ({ types := guids.map fun uu => (ctx.hash2type.lookup uu).getD 0, metatypes := metas }, bs)

/-- The type `deserialize_archetype` makes of a key: metas patched, those that do not
exist dropped unless the archetype is a new one, both arrays sorted. -/
def loadedType (w : World) (patcher : Option Memory.Patcher) (createNew : Bool)
    (key : EntityType) : EntityType :=
  let metas := match patcher with
    | some p => key.metatypes.map (p 0)
    | none => key.metatypes
  let metas := if createNew then metas else metas.filter w.ents.exist
  { types := key.types.insertionSort (· ≤ ·), metatypes := metas.insertionSort (· ≤ ·) }

/-- `world::deserialize_archetype`, null for a size of zero. -/
def deserializeArchetype (ctx : Context) (w : World) (patcher : Option Memory.Patcher)
    (createNew : Bool) (bs : List UInt8) : Option (World × Option ArchetypeId × List UInt8) := do
  let (size, bs) ← Mem.takeWord 4 bs
  if size = 0 then some (w, none, bs)
  else
    let (key, bs) ← readKey ctx bs
    let type := w.loadedType patcher createNew key
    let (w, g) ←
      if createNew then do
        let a ← constructArchetype ctx type
        let (st, g) := w.store.newArchetype a
        some ({ w with store := st }, g)
      else w.getArchetype ctx type
    some ({ w with store := w.store.addSize g size }, some g, bs)

/-- `world::serialize_slice`. -/
def serializeSlice (w : World) (s : ChunkSlice) : Option (List UInt8) := do
  let (_, a) ← w.archetypeOf s.c
  let bytes ← w.memory.saveSlice a (w.store.ct s.c) s
  some (Mem.wordBytes s.count 4 ++ bytes)

/-- `world::deserialize_slice`, with no slice at the end of a list. -/
def deserializeSlice (w : World) (g : ArchetypeId) (bs : List UInt8) :
    Option (World × Option ChunkSlice × List UInt8) := do
  let (count, bs) ← Mem.takeWord 4 bs
  if count = 0 then some (w, none, bs)
  else
    let (st, s) ← w.store.loadSlots w.ents g count
    let w := { w with store := st }
    let (_, a) ← w.archetypeOf s.c
    let (mm, bs) ← w.memory.loadSlice a (w.store.ct s.c) s bs
    some ({ w with memory := mm }, some s, bs)

/-! ## One entity, or one group -/

/-- `world::serialize_single`. -/
def serializeSingle (ctx : Context) (w : World) (src : Entity) : Option (List UInt8) := do
  let s ← w.asSlice src
  let (g, a) ← w.archetypeOf s.c
  let slice ← w.serializeSlice s
  some (serializeArchetype ctx w.store g a ++ slice)

/-- `world::serialize_group`; the references of the members are indices meanwhile. -/
def serializeGroup (ctx : Context) (fuel : Nat) (w : World) (c : ChunkId) (addr : Nat) :
    Option (World × List UInt8) := do
  let members ← w.flattenGroup ctx fuel c addr
  let w ← w.groupToPrefab ctx members false
  let bytes ← members.mapM (w.serializeSingle ctx)
  let w ← w.prefabToGroup ctx members
  some (w, bytes.flatten)

/-- `world::serialize(serializer_i*, entity)`. -/
def serializeEntity (ctx : Context) (fuel : Nat) (w : World) (src : Entity) :
    Option (World × List UInt8) := do
  match ← w.getComponentRo src ctx.groupId with
  | none =>
      let bytes ← w.serializeSingle ctx src
      some (w, bytes)
  | some (c, addr) => w.serializeGroup ctx fuel c addr

/-- `chunk::patch(slice, patcher)`, when there is a patcher. -/
def patchSlice (ctx : Context) (w : World) (s : ChunkSlice) (patcher : Option Memory.Patcher) :
    Option World :=
  match patcher with
  | none => some w
  | some p => do
      let (_, a) ← w.archetypeOf s.c
      let mm ← w.memory.patch ctx a (w.store.ct s.c) s p
      some { w with memory := mm }

/-- `world::deserialize_single`. -/
def deserializeSingle (ctx : Context) (w : World) (patcher : Option Memory.Patcher)
    (bs : List UInt8) : Option (World × ChunkSlice × List UInt8) := do
  let (w, g, bs) ← w.deserializeArchetype ctx patcher false bs
  let g ← g
  let (w, s, bs) ← w.deserializeSlice g bs
  let s ← s
  let w ← w.newEntities s
  let w ← w.patchSlice ctx s patcher
  some (w, s, bs)

/-- `world::deserialize_prefab`: the members of a group, and of the groups among them. -/
def deserializePrefab (ctx : Context) (patcher : Option Memory.Patcher) :
    Nat → ChunkId → Nat → World → List UInt8 → Option (World × List Entity × List UInt8)
  | 0, _, _, _, _ => none
  | fuel + 1, c, addr, w, bs =>
      (List.range (w.groupSize c addr - 1)).foldlM (fun (w, result, bs) _ => do
        let (w, s, bs) ← w.deserializeSingle ctx patcher bs
        let result := result ++ [w.memory.entityAt s.c s.start]
        match ← w.sliceComponentRo s ctx.groupId with
        | none => some (w, result, bs)
        | some (c', addr') => do
            let (w, members, bs) ← deserializePrefab ctx patcher fuel c' addr' w bs
            some (w, result ++ members, bs)) (w, [], bs)

/-- `world::deserialize(serializer_i*, patcher_i*)`. -/
def deserializeEntity (ctx : Context) (fuel : Nat) (w : World) (patcher : Option Memory.Patcher)
    (bs : List UInt8) : Option (World × Entity × List UInt8) := do
  let (w, root, bs) ← w.deserializeSingle ctx patcher bs
  let result := w.memory.entityAt root.c root.start
  match ← w.sliceComponentRo root ctx.groupId with
  | none => some (w, result, bs)
  | some (c, addr) =>
      let (w, prefab, bs) ← w.deserializePrefab ctx patcher fuel c addr bs
      let w ← w.prefabToGroup ctx (result :: prefab)
      some (w, result, bs)

end World

end Dots

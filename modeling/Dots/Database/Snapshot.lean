import Dots.Database.Difference
import Dots.Library.Streams

/-!
# Saving and loading a whole world

`world::serialize` writes the archetypes that are not cleaning, all keys first and then all
chunks. `world::deserialize` clears the world, makes new archetypes of the keys, and finds places
for the slices as `deserialize_slice` does for any other. The entity table is made from the
handles in the slices.
-/

namespace Dots

open Library

/-- `chunk::destruct`. The destructors of managed types leave no bytes. -/
def Memory.destruct (mm : Memory) (a : Archetype) (ct : AllocType) (s : ChunkSlice) :
    Option Memory :=
  (columns a.firstBuffer a.firstManaged).foldlM (fun mm i =>
    mm.destroyBuffers { c := s.c, a := a, ct := ct, start := s.start } i s.count) mm

namespace Entities

/-- `ents.datas.zero()` for a table of `size` entries; a null chunk is the free link 0. -/
def zeroed (raw : Nat → Nat) (size : Nat) : Entities where
  datas := fun _ => { c := .nextFree 0, i := 0, v := 0 }
  size := size
  free := 0
  raw := raw

/-- The entry of the handle `e`, found in slot `slot` of chunk `c`. -/
def restore (ents : Entities) (c : ChunkId) (slot : Nat) (e : Entity) : Option Entities :=
  if e.id < ents.size then
    some (ents.setData e.id { c := .chunk c, i := slot % 2 ^ 24, v := e.version })
  else none

/-- One turn of the loop that makes the free list: an entry without a chunk goes before the
others. -/
def freeEmpty (ents : Entities) (id : Nat) : Entities :=
  if (ents.datas id).c = .nextFree 0 then
    { ents.setData id { ents.datas id with c := .nextFree ents.free } with free := id }
  else ents

def rebuildFree (ents : Entities) : Entities := (List.range ents.size).foldl freeEmpty ents

end Entities

namespace World

/-! ## `world::clear` -/

/-- A chunk is destructed and goes back to its pool, which `malloc_chunk` takes it from with null
links. -/
def clearChunk (a : Archetype) (w : World) (c : ChunkId) : Option World := do
  let mm ← w.memory.destruct a (w.store.ct c) { c := c, start := 0, count := w.store.count c }
  some { w with
    store := { w.store with
      type := Function.update w.store.type c none
      links := (w.store.links.setPrev c none).setNext c none }
    memory := mm }

/-- The chunks of an archetype, and then the archetype. -/
def clearArchetype (w : World) (g : ArchetypeId) : Option World := do
  let a ← w.store.archetype g
  let chunks ← w.store.chunksFrom (w.store.freshChunk + 1) (w.store.firstChunk g)
  let w ← chunks.foldlM (clearChunk a) w
  some { w with store := { w.store with archetype := Function.update w.store.archetype g none } }

/-- `world::clear`; `raw` is what the pool will hand out for the table. -/
def clear (raw : Nat → Nat) (w : World) : Option World := do
  let w ← w.store.archetypes.foldlM clearArchetype
    { w with store := { w.store with typeTimestamps := fun _ => 0 } }
  some { w with
    store := { w.store with archetypes := [], queries := [] }
    ents := { datas := fun _ => { c := .raw, i := 0, v := 0 }, size := 0, free := 0, raw := raw } }

/-! ## `world::serialize` -/

/-- The archetypes that are saved: those that are not cleaning. -/
def saved (w : World) : Option (List (ArchetypeId × Archetype)) := do
  let ats ← w.store.archetypes.mapM fun g => (w.store.archetype g).map fun a => (g, a)
  some (ats.filter fun p => !p.2.cleaning)

/-- The chunks of an archetype, and the zero that ends them. -/
def serializeChunks (w : World) (g : ArchetypeId) : Option (List UInt8) := do
  let chunks ← w.store.chunksFrom (w.store.freshChunk + 1) (w.store.firstChunk g)
  let slices ← chunks.mapM fun c =>
    w.serializeSlice { c := c, start := 0, count := w.store.count c }
  some (slices.flatten ++ Mem.wordBytes 0 4)

/-- `world::serialize(serializer_i*)`. -/
def serialize (ctx : Context) (w : World) : Option (List UInt8) := do
  let ats ← w.saved
  let chunks ← ats.mapM fun p => w.serializeChunks p.1
  some (Mem.wordBytes w.ents.size 8
    ++ (ats.flatMap (fun p => serializeArchetype ctx w.store p.1 p.2) ++ (Mem.wordBytes 0 4
    ++ chunks.flatten)))

/-! ## `world::deserialize` -/

/-- One turn of the loop over the slices of an archetype. -/
def deserializeChunk (g : ArchetypeId) (w : World) (bs : List UInt8) :
    Option (World × Option ChunkSlice × List UInt8) := do
  let (w, s, bs) ← w.deserializeSlice g bs
  match s with
  | none => some (w, none, bs)
  | some s => do
      let ents ← (List.range s.count).foldlM (fun (ents : Entities) i =>
        ents.restore s.c (s.start + i) (w.memory.entityAt s.c (s.start + i))) w.ents
      some ({ w with ents := ents }, some s, bs)

/-- The slices of an archetype, up to the zero that ends them. -/
def deserializeChunks (p : World × List UInt8) (g : ArchetypeId) : Option (World × List UInt8) := do
  let (w, _, bs) ← Stream.untilNull (deserializeChunk g) (p.2.length + 1) p.1 p.2
  some (w, bs)

/-- `world::deserialize(serializer_i*)`. -/
def deserialize (ctx : Context) (raw : Nat → Nat) (w : World) (bs : List UInt8) :
    Option (World × List UInt8) := do
  let w ← w.clear raw
  let (size, bs) ← Mem.takeWord 8 bs
  let w := { w with ents := Entities.zeroed raw size }
  let (w, ats, bs) ← Stream.untilNull (fun w bs => deserializeArchetype ctx w none true bs)
    (bs.length + 1) w bs
  let (w, bs) ← ats.foldlM deserializeChunks (w, bs)
  let w := { w with ents := w.ents.rebuildFree }
  let w ← ats.foldlM (fun w g => do
    let a ← w.store.archetype g
    let st ← w.store.addArchetype w.ents g a
    some { w with store := st }) w
  some (w, bs)

end World

end Dots

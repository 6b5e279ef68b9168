import Dots.Database.Store
import Dots.Library.Bytes

/-!
# Chunk memory

The bytes behind `chunk::data()` and the heap blocks of buffers. Addresses
count from `data()`: handles first, then the columns at the offsets of the
archetype. Writes past the end of a bin stay in the chunk's own address space,
and the timestamp words at the end of a block are kept in the store:
`World.whole` writes them over the bytes, and as long as the store is `Laid`
no column reaches them.
-/

namespace Dots

open Library

/-- A block of `buffer_malloc`. -/
structure Block where
  size : Nat
  bytes : Mem

structure Memory where
  /-- The blocks behind their headers, less the timestamps. -/
  data : ChunkId → Mem
  /-- Live heap blocks by address; address 0 is the null pointer. -/
  heap : Nat → Option Block
  freshBlock : Nat
  /-- The GUIDs the generator will return, and how many it has returned. -/
  guids : Nat → List UInt8
  guidCount : Nat

/-- The fields of the C++ struct `buffer`, read from the bytes at an address. -/
structure BufferHeader where
  d : Nat
  size : Nat
  capacity : Nat
  deriving DecidableEq, Repr

namespace Mem

def readEntity (m : Mem) (slot : Nat) : Entity := ⟨Mem.readWord m (sizeofEntity * slot) 4⟩

def writeEntity (m : Mem) (slot : Nat) (e : Entity) : Mem :=
  Mem.writeWord m (sizeofEntity * slot) e.value 4

def readBuffer (m : Mem) (a : Nat) : BufferHeader where
  d := Mem.readWord m a 8
  size := Mem.readWord m (a + 8) 2
  capacity := Mem.readWord m (a + 10) 2

/-- `new(a) buffer{cap}`: the inline bytes are left as they are. -/
def newBuffer (m : Mem) (a cap : Nat) : Mem :=
  Mem.writeWord (Mem.writeWord (Mem.writeWord m a 0 8) (a + 8) 0 2) (a + 10) cap 2

/-- `memdup`: after the first copy each round doubles the prefix, up to `count`.
The fuel bounds the number of rounds. -/
def memdupRounds (m : Mem) (dst size count : Nat) : Nat → Nat → Mem
  | 0, _ => m
  | fuel + 1, copied =>
      if copied < count then
        let toCopy := min copied (count - copied)
        memdupRounds (Mem.copy m (dst + copied * size) m dst (toCopy * size)) dst size count
          fuel (copied + toCopy)
      else m

def memdup (m : Mem) (dst : Nat) (src : Mem) (s size count : Nat) : Mem :=
  memdupRounds (Mem.copy m dst src s size) dst size count count 1

end Mem

namespace Memory

def setData (mm : Memory) (c : ChunkId) (m : Mem) : Memory :=
  { mm with data := Function.update mm.data c m }

/-- `chunk::get_entities()[slot]`. -/
def entityAt (mm : Memory) (c : ChunkId) (slot : Nat) : Entity := Mem.readEntity (mm.data c) slot

/-- `buffer_malloc(size)`; its bytes are given by `bytes`. -/
def malloc (mm : Memory) (size : Nat) (bytes : Mem) : Memory × Nat :=
  let d := mm.freshBlock
  ({ mm with
      heap := Function.update mm.heap d (some { size := size, bytes := bytes })
      freshBlock := d + 1 }, d)

/-- `buffer::~buffer` on the header at address `a` of chunk `c`. -/
def destroyBuffer (mm : Memory) (c : ChunkId) (a : Nat) : Option Memory :=
  let b := Mem.readBuffer (mm.data c) a
  if b.d = 0 then some mm
  else match mm.heap b.d with
    | some _ => some { mm with heap := Function.update mm.heap b.d none }
    | none => none

/-- Give the buffer at `a` a heap block of its own when it points at one. -/
def cloneBuffer (mm : Memory) (c : ChunkId) (a : Nat) : Option Memory :=
  let b := Mem.readBuffer (mm.data c) a
  if b.d = 0 then some mm
  else match mm.heap b.d with
    | none => none
    | some block =>
        let (mm, d) := mm.malloc b.size (Mem.copy (fun _ => 0) 0 block.bytes 0 b.size)
        some (mm.setData c (Mem.writeWord (mm.data c) a d 8))

/-- The bytes at `buffer::data()`, for the header at address `a`. -/
def bufferBytes (mm : Memory) (c : ChunkId) (a : Nat) : Option (List UInt8) :=
  let b := Mem.readBuffer (mm.data c) a
  if b.d = 0 then some (Mem.read (mm.data c) (a + sizeofBuffer) b.size)
  else (mm.heap b.d).map fun block => Mem.read block.bytes 0 b.size

/-! ## `chunk` -/

/-- `chunk::move(chunk_slice, tsize_t)`: the source index is a 16-bit value. -/
def moveWithin (mm : Memory) (a : Archetype) (ct : AllocType) (dst : ChunkSlice)
    (srcIndex : Nat) : Memory :=
  let src := srcIndex % 2 ^ 16
  mm.setData dst.c <| (List.range a.firstTag).foldl (fun m i =>
    Mem.copy m (a.address ct i dst.start) m (a.address ct i src) (dst.count * a.size i))
    (mm.data dst.c)

/-- Run the default constructors of one buffer column. -/
def constructBuffers (m : Mem) (a : Archetype) (ct : AllocType) (i start count : Nat) : Mem :=
  (List.range count).foldl (fun m j =>
    Mem.newBuffer m (a.address ct i (start + j)) (a.size i + 2 ^ 16 - sizeofBuffer)) m

/-- Run the managed constructors of one column, for types that have one. Like all
functions of a vtable they only write their own element. -/
def constructManaged (ctx : Context) (m : Mem) (a : Archetype) (ct : AllocType)
    (i start count : Nat) : Mem :=
  match (ctx.info (a.types.getD i 0)).vtable.constructor with
  | none => m
  | some bs => (List.range count).foldl (fun m j =>
      Mem.write m (a.address ct i (start + j)) (bs.take (a.size i))) m

/-- The indices of the columns `[lo, hi)`. -/
def columns (lo hi : Nat) : List Nat := (List.range hi).drop lo

/-- `chunk::construct`. -/
def construct (ctx : Context) (mm : Memory) (a : Archetype) (ct : AllocType) (s : ChunkSlice) :
    Memory :=
  let m := (columns 0 a.firstBuffer).foldl (fun m i =>
    Mem.fill m (a.address ct i s.start) 0 (a.size i * s.count)) (mm.data s.c)
  let m := (columns a.firstBuffer a.firstManaged).foldl (fun m i =>
    constructBuffers m a ct i s.start s.count) m
  let m := (columns a.firstManaged a.firstTag).foldl (fun m i =>
    constructManaged ctx m a ct i s.start s.count) m
  let maskId := a.index ctx.maskId
  let m :=
    if maskId = invalidIndex then m
    else Mem.fill m (a.address ct maskId s.start) 0xff (a.size maskId * s.count)
  mm.setData s.c m

/-- What one step of a phase of `chunk::cast` does with the columns under its
two cursors. -/
inductive CastStep
  | drop (srcI : Nat)
  | make (dstI : Nat)
  | move (srcI dstI : Nat)
  deriving DecidableEq, Repr

/-- The inner cursor of a phase of `chunk::cast`, at one source column. -/
def castStepsFrom (valid : TypeIndex → TypeIndex) (s : Nat × TypeIndex)
    (rest : List (Nat × TypeIndex) → List CastStep) : List (Nat × TypeIndex) → List CastStep
  | [] => .drop s.1 :: rest []
  | d :: ds =>
      if valid s.2 < valid d.2 then .drop s.1 :: rest (d :: ds)
      else if valid d.2 < valid s.2 then .make d.1 :: castStepsFrom valid s rest ds
      else .move s.1 d.1 :: rest ds

/-- The steps of one phase: both cursors while they last, then the rest of the
source is dropped and the rest of the destination is made. -/
def castSteps (valid : TypeIndex → TypeIndex) :
    List (Nat × TypeIndex) → List (Nat × TypeIndex) → List CastStep
  | [], ds => ds.map fun d => .make d.1
  | s :: ss, ds => castStepsFrom valid s (castSteps valid ss) ds

/-- The columns of one segment with their types. -/
def segmentOf (a : Archetype) (lo hi : Nat) : List (Nat × TypeIndex) :=
  (columns lo hi).map fun i => (i, a.types.getD i 0)

/-- A side of `chunk::cast`: a chunk, its archetype and bin, and the first slot. -/
structure CastSide where
  c : ChunkId
  a : Archetype
  ct : AllocType
  start : Nat

def CastSide.address (s : CastSide) (i j : Nat) : Nat := s.a.address s.ct i (s.start + j)

/-- `memcpy` of `count` elements between two columns; the destination's size. -/
def moveColumn (mm : Memory) (dst src : CastSide) (srcI dstI count : Nat) : Memory :=
  mm.setData dst.c (Mem.copy (mm.data dst.c) (dst.address dstI 0) (mm.data src.c)
    (src.address srcI 0) (dst.a.size dstI * count))

def destroyBuffers (mm : Memory) (s : CastSide) (i count : Nat) : Option Memory :=
  (List.range count).foldlM (fun mm j => mm.destroyBuffer s.c (s.address i j)) mm

/-- Phase 0 of `chunk::cast`: plain columns. -/
def castPod (mm : Memory) (dst src : CastSide) (count : Nat) : CastStep → Memory
  | .drop _ => mm
  | .make d => mm.setData dst.c
      (Mem.fill (mm.data dst.c) (dst.address d 0) 0 (dst.a.size d * count))
  | .move s d => mm.moveColumn dst src s d count

/-- Phase 1 of `chunk::cast`: buffer columns. -/
def castBuffer (mm : Memory) (dst src : CastSide) (count : Nat) (destruct : Bool) :
    CastStep → Option Memory
  | .drop s => if destruct then mm.destroyBuffers src s count else some mm
  | .make d => some (mm.setData dst.c
      (constructBuffers (mm.data dst.c) dst.a dst.ct d dst.start count))
  | .move s d => some (mm.moveColumn dst src s d count)

/-- Phase 2 of `chunk::cast`: managed columns. A destructor leaves no bytes. -/
def castManaged (ctx : Context) (mm : Memory) (dst src : CastSide) (count : Nat) :
    CastStep → Memory
  | .drop _ => mm
  | .make d => mm.setData dst.c
      (constructManaged ctx (mm.data dst.c) dst.a dst.ct d dst.start count)
  | .move s d => mm.moveColumn dst src s d count

/-- `chunk::cast`. When both sides own the mask component and a slot is cast, the
loop of the last phase advances no cursor and never returns. -/
def cast (ctx : Context) (mm : Memory) (dst src : CastSide) (count : Nat) (destruct : Bool) :
    Option Memory := do
  let src := { src with start := src.start % 2 ^ 16 }
  let steps := fun lo hi lo' hi' =>
    castSteps ctx.toValidType (segmentOf src.a lo hi) (segmentOf dst.a lo' hi')
  let mm := (steps 0 src.a.firstBuffer 0 dst.a.firstBuffer).foldl
    (fun mm => mm.castPod dst src count) mm
  let mm ← (steps src.a.firstBuffer src.a.firstManaged dst.a.firstBuffer
    dst.a.firstManaged).foldlM (fun mm => mm.castBuffer dst src count destruct) mm
  let mm := (steps src.a.firstManaged src.a.firstTag dst.a.firstManaged dst.a.firstTag).foldl
    (fun mm => mm.castManaged ctx dst src count) mm
  let srcMaskId := src.a.index ctx.maskId
  let dstMaskId := dst.a.index ctx.maskId
  if dstMaskId = invalidIndex then some mm
  else if srcMaskId = invalidIndex then
    some (mm.setData dst.c (Mem.fill (mm.data dst.c) (dst.address dstMaskId 0) 0xff
      (dst.a.size dstMaskId * count)))
  else if count = 0 then some mm
  else none

/-- One plain column of `chunk::duplicate`. The destination address is taken from
the offsets of the source archetype in the bin of the source chunk. -/
def duplicatePod (ctx : Context) (src : CastSide) (dst : ChunkSlice) (mm : Memory) (i : Nat) :
    Memory :=
  let dstData := src.a.address src.ct i dst.start
  if ctx.guidId = some (src.a.types.getD i 0) then
    { mm.setData dst.c ((List.range dst.count).foldl (fun m j =>
        Mem.write m (dstData + 16 * j) ((mm.guids (mm.guidCount + j)).take 16)) (mm.data dst.c)) with
      guidCount := mm.guidCount + dst.count }
  else
    mm.setData dst.c (Mem.memdup (mm.data dst.c) dstData (mm.data src.c) (src.address i 0)
      (src.a.size i) dst.count)

/-- One buffer column of `chunk::duplicate`. -/
def duplicateBuffer (src : CastSide) (dst : ChunkSlice) (mm : Memory) (i : Nat) :
    Option Memory :=
  let dstData := src.a.address src.ct i dst.start
  let mm := mm.setData dst.c (Mem.memdup (mm.data dst.c) dstData (mm.data src.c)
    (src.address i 0) (src.a.size i) dst.count)
  (List.range dst.count).foldlM (fun mm j =>
    mm.cloneBuffer dst.c (dstData + src.a.size i * j)) mm

/-- One managed column of `chunk::duplicate`. -/
def duplicateManaged (ctx : Context) (src : CastSide) (dst : ChunkSlice) (mm : Memory)
    (i : Nat) : Memory :=
  match (ctx.info (src.a.types.getD i 0)).vtable.copy with
  | none => mm
  | some copy =>
      let s := Mem.read (mm.data src.c) (src.address i 0) (src.a.size i)
      mm.setData dst.c ((List.range dst.count).foldl (fun m j =>
        let d := src.a.address src.ct i dst.start + src.a.size i * j
        Mem.write m d ((copy (Mem.read m d (src.a.size i)) s).take (src.a.size i))) (mm.data dst.c))

/-- The column loops of `chunk::duplicate` that compare types: `dstI` advances
only where the two types agree. -/
def duplicateColumns (ctx : Context) (src dst : Archetype)
    (f : Memory → Nat → Option Memory) (is : List Nat) (mm : Memory) (dstI : Nat) :
    Option (Memory × Nat) :=
  is.foldlM (fun (mm, dstI) i =>
    if ctx.toValidType (src.types.getD i 0) = ctx.toValidType (dst.types.getD dstI 0) then
      (f mm i).map fun mm => (mm, dstI + 1)
    else some (mm, dstI)) (mm, dstI)

/-- `chunk::duplicate`. -/
def duplicate (ctx : Context) (mm : Memory) (dstType : Archetype) (dst : ChunkSlice)
    (src : CastSide) : Option Memory := do
  let src := { src with start := src.start % 2 ^ 16 }
  let a := src.a
  let (mm, dstI) ← duplicateColumns ctx a dstType
    (fun mm i => some (duplicatePod ctx src dst mm i)) (columns 0 a.firstBuffer) mm 0
  let mm := (columns a.firstManaged a.firstTag).foldl (duplicateManaged ctx src dst) mm
  let (mm, _) ← duplicateColumns ctx a dstType (duplicateBuffer src dst)
    (columns a.firstBuffer a.firstManaged) mm dstI
  some mm

/-! ## Patching entity references -/

/-- A patcher: what it makes of a reference, `pos` moves after the last reset. -/
abbrev Patcher := Nat → Entity → Entity

/-- The offsets of the references in one element of a type. -/
def refOffsets (ctx : Context) (t : TypeIndex) : List Nat :=
  ((ctx.entityRefs.drop (ctx.info t).entityRefs).take (ctx.info t).entityRefCount)

/-- Patch the references of the element at address `a`, then run the custom patch
function of the type. -/
def patchElement (ctx : Context) (t : TypeIndex) (elementSize : Nat) (p : Entity → Entity)
    (m : Mem) (a : Nat) : Mem :=
  let m := (refOffsets ctx t).foldl (fun m r =>
    Mem.writeWord m (a + r) (p ⟨Mem.readWord m (a + r) 4⟩).value 4) m
  match (ctx.info t).vtable.patch with
  | none => m
  | some f => Mem.write m a ((f p (Mem.read m a elementSize)).take elementSize)

/-- The `patch` lambda of `chunk::patch`, for one column. -/
def patchColumn (ctx : Context) (a : Archetype) (ct : AllocType) (s : ChunkSlice)
    (p : Patcher) (mm : Memory) (i : Nat) : Memory :=
  mm.setData s.c ((List.range s.count).foldl (fun m j =>
    patchElement ctx (a.types.getD i 0) (a.size i) (p j) m (a.address ct i (s.start + j)))
    (mm.data s.c))

/-- The `patchBuffer` lambda of `chunk::patch`, for the buffer of one slot. -/
def patchBufferAt (ctx : Context) (t : TypeIndex) (c : ChunkId) (p : Entity → Entity)
    (mm : Memory) (addr : Nat) : Option Memory :=
  let es := (ctx.info t).elementSize
  let b := Mem.readBuffer (mm.data c) addr
  let patchAll := fun (m : Mem) (base : Nat) =>
    (List.range (b.size / es % 2 ^ 16)).foldl (fun m l =>
      patchElement ctx t es p m (base + es * l)) m
  if es = 0 then none
  else if b.d = 0 then some (mm.setData c (patchAll (mm.data c) (addr + sizeofBuffer)))
  else match mm.heap b.d with
    | none => none
    | some block => some { mm with
        heap := Function.update mm.heap b.d (some { block with bytes := patchAll block.bytes 0 }) }

def patchBuffers (ctx : Context) (a : Archetype) (ct : AllocType) (s : ChunkSlice)
    (p : Patcher) (mm : Memory) (i : Nat) : Option Memory :=
  (List.range s.count).foldlM (fun mm j =>
    patchBufferAt ctx (a.types.getD i 0) s.c (p j) mm (a.address ct i (s.start + j))) mm

/-- `chunk::patch`. -/
def patch (ctx : Context) (mm : Memory) (a : Archetype) (ct : AllocType) (s : ChunkSlice)
    (p : Patcher) : Option Memory :=
  let mm := (columns 0 a.firstBuffer).foldl (patchColumn ctx a ct s p) mm
  let mm := (columns a.firstManaged a.firstTag).foldl (patchColumn ctx a ct s p) mm
  (columns a.firstBuffer a.firstManaged).foldlM (patchBuffers ctx a ct s p) mm

end Memory

end Dots

import Dots.Codebase.Structural

/-!
# Command buffers

Each thread records into a local of its own. What it records for an entity that does not
exist yet is kept under a transient handle. The sets of a recorded type are copied into the
storage of the local; `local::cast` leaves the sets it merged in a buffer of its thread.
The commands that write components are left out.
-/

namespace Dots

open Library

/-! ## Recorded types -/

/-- The words of `thread_local char buffer[100]`. -/
abbrev Scratch := Nat → Nat

def scratchWords : Nat := 25

/-- Where a recorded set points to. What is in the storage stays as it is. -/
inductive WordsRef
  | storage (words : List Nat)
  | scratch (offset length : Nat)

namespace WordsRef

def length : WordsRef → Nat
  | .storage words => words.length
  | .scratch _ n => n

/-- `set::operator[]`. -/
def get (m : Scratch) : WordsRef → Nat → Nat
  | .storage words, i => words.getD i 0
  | .scratch offset _, i => m (offset + i)

def read (m : Scratch) (r : WordsRef) : List Nat := (List.range r.length).map (r.get m)

end WordsRef

/-- `dst[k] = x`, where `dst` is in the buffer. -/
def Scratch.write (m : Scratch) (i x : Nat) : Option Scratch :=
  if i < scratchWords then some (Function.update m i x) else none

/-- The loop of `set::merge`, for at most `n` turns. The operands are read while the result
is written. -/
def mergeWords (lhs rhs : WordsRef) (dst : Nat) :
    Nat → Nat → Nat → Nat → Scratch → Option (Scratch × WordsRef)
  | 0, _, _, k, m => some (m, .scratch dst k)
  | n + 1, i, j, k, m =>
      if i < lhs.length ∧ j < rhs.length then
        if lhs.get m i > rhs.get m j then do
          let m' ← m.write (dst + k) (rhs.get m j)
          mergeWords lhs rhs dst n i (j + 1) (k + 1) m'
        else if lhs.get m i < rhs.get m j then do
          let m' ← m.write (dst + k) (lhs.get m i)
          mergeWords lhs rhs dst n (i + 1) j (k + 1) m'
        else do
          let m' ← m.write (dst + k) (lhs.get m i)
          mergeWords lhs rhs dst n (i + 1) (j + 1) (k + 1) m'
      else if i < lhs.length then do
        let m' ← m.write (dst + k) (lhs.get m i)
        mergeWords lhs rhs dst n (i + 1) j (k + 1) m'
      else if j < rhs.length then do
        let m' ← m.write (dst + k) (rhs.get m j)
        mergeWords lhs rhs dst n i (j + 1) (k + 1) m'
      else some (m, .scratch dst k)

/-- The loop of `set::substract`. -/
def substractWords (lhs rhs : WordsRef) (dst : Nat) :
    Nat → Nat → Nat → Nat → Scratch → Option (Scratch × WordsRef)
  | 0, _, _, k, m => some (m, .scratch dst k)
  | n + 1, i, j, k, m =>
      if i < lhs.length ∧ j < rhs.length then
        if lhs.get m i > rhs.get m j then substractWords lhs rhs dst n i (j + 1) k m
        else if lhs.get m i < rhs.get m j then do
          let m' ← m.write (dst + k) (lhs.get m i)
          substractWords lhs rhs dst n (i + 1) j (k + 1) m'
        else substractWords lhs rhs dst n (i + 1) (j + 1) k m
      else if i < lhs.length then do
        let m' ← m.write (dst + k) (lhs.get m i)
        substractWords lhs rhs dst n (i + 1) j (k + 1) m'
      else some (m, .scratch dst k)

namespace WordsRef

/-- `set::merge`; each turn consumes a word. -/
def merge (m : Scratch) (lhs rhs : WordsRef) (dst : Nat) : Option (Scratch × WordsRef) :=
  mergeWords lhs rhs dst (lhs.length + rhs.length) 0 0 0 m

/-- `set::substract`. -/
def substract (m : Scratch) (lhs rhs : WordsRef) (dst : Nat) : Option (Scratch × WordsRef) :=
  substractWords lhs rhs dst (lhs.length + rhs.length) 0 0 0 m

end WordsRef

/-- An `entity_type` whose sets point elsewhere. -/
structure TypeRef where
  types : WordsRef
  metatypes : WordsRef

namespace TypeRef

/-- A type given by the caller, or copied into the storage. -/
def storage (type : EntityType) : TypeRef where
  types := .storage type.types
  metatypes := .storage (type.metatypes.map Entity.value)

def read (m : Scratch) (r : TypeRef) : EntityType where
  types := r.types.read m
  metatypes := (r.metatypes.read m).map Entity.mk

/-- `get_size`, in words. -/
def size (r : TypeRef) : Nat := r.types.length + r.metatypes.length

/-- `entity_type::merge`. -/
def merge (m : Scratch) (lhs rhs : TypeRef) (dst : Nat) : Option (Scratch × TypeRef) := do
  let (m, ts) ← lhs.types.merge m rhs.types dst
  let (m, ms) ← lhs.metatypes.merge m rhs.metatypes (dst + ts.length)
  some (m, { types := ts, metatypes := ms })

/-- `entity_type::substract`. -/
def substract (m : Scratch) (lhs rhs : TypeRef) (dst : Nat) : Option (Scratch × TypeRef) := do
  let (m, ts) ← lhs.types.substract m rhs.types dst
  let (m, ms) ← lhs.metatypes.substract m rhs.metatypes (dst + ts.length)
  some (m, { types := ts, metatypes := ms })

end TypeRef

/-- A `type_diff` whose sets point elsewhere. -/
structure DiffRef where
  extend : TypeRef
  shrink : TypeRef

namespace DiffRef

def storage (diff : TypeDiff) : DiffRef where
  extend := .storage diff.extend
  shrink := .storage diff.shrink

def read (m : Scratch) (r : DiffRef) : TypeDiff where
  extend := r.extend.read m
  shrink := r.shrink.read m

def size (r : DiffRef) : Nat := r.extend.size + r.shrink.size

/-- `type_diff::merge`. -/
def merge (m : Scratch) (a b : DiffRef) (dst : Nat) : Option (Scratch × DiffRef) := do
  let (m, et) ← a.extend.merge m b.extend dst
  let (m, sr) ← a.shrink.merge m b.shrink (dst + et.size)
  some (m, { extend := et, shrink := sr })

end DiffRef

/-! ## Recording -/

structure CmdAllocate where
  e : Nat
  type : TypeRef

structure CmdInstantiate where
  e : Nat
  source : Entity

structure CmdCast where
  e : Nat
  diff : DiffRef

/-- `e` is the value of a handle. -/
structure CmdDestroy where
  e : Nat

/-- `command_buffer::local`, with the buffer of its thread. -/
structure Local where
  entities : List Entity := []
  /-- The bytes `storage` has handed out. -/
  stored : Nat := 0
  scratch : Scratch := fun _ => 0
  allocates : List CmdAllocate := []
  instantiates : List CmdInstantiate := []
  casts : List CmdCast := []
  destroies : List CmdDestroy := []

namespace Local

/-- `storage_t::push`. Once a chunk is full the new size skips the chunk that is added. -/
def push (l : Local) (words : Nat) : Option Local :=
  if l.stored + 4 * words < kFastBinSize then some { l with stored := l.stored + 4 * words }
  else none

/-- `entities.size - 1`. -/
def current (l : Local) : Nat := (l.entities.length + 2 ^ 64 - 1) % 2 ^ 64

/-- `local::begin`. -/
def begin_ (l : Local) (e : Entity) : Local := { l with entities := l.entities ++ [e] }

/-- `local::cast`. -/
def cast (l : Local) (diff : TypeDiff) : Option Local :=
  match l.casts.getLast?.filter fun cmd => cmd.e == l.current with
  | some last => do
      let (m, newMerged) ← last.diff.merge l.scratch (.storage diff) 0
      let l ← l.push newMerged.size
      some { l with
        scratch := m
        casts := l.casts.dropLast ++ [{ last with diff := newMerged }] }
  | none =>
      match l.allocates.getLast?.filter fun cmd => cmd.e == l.current with
      | some last => do
          let (m, shrinked) ← last.type.substract l.scratch (.storage diff.shrink) 0
          let (m, extended) ← last.type.merge m (.storage diff.extend) shrinked.size
          let l ← l.push extended.size
          some { l with
            scratch := m
            allocates := l.allocates.dropLast ++ [{ last with type := extended }] }
      | none => do
          let d := DiffRef.storage diff
          let l ← l.push d.size
          some { l with casts := l.casts ++ [{ e := l.current, diff := d }] }

/-- `local::destroy`. -/
def destroy (l : Local) (e : Entity) : Local :=
  { l with destroies := l.destroies ++ [{ e := e.value }] }

/-- `local::allocate`, given the transient handle. -/
def allocate (l : Local) (e : Entity) (type : EntityType) : Option Local := do
  let d := TypeRef.storage type
  let l ← l.push d.size
  let l := l.begin_ e
  some { l with allocates := l.allocates ++ [{ e := l.current, type := d }] }

/-- `local::instantiate`, given the transient handle. -/
def instantiate (l : Local) (e source : Entity) : Local :=
  let l := l.begin_ e
  { l with instantiates := l.instantiates ++ [{ e := l.current, source := source }] }

end Local

/-- What a thread records. -/
inductive Command
  | allocate (type : EntityType)
  | instantiate (source : Entity)
  | begin_ (e : Entity)
  | cast (diff : TypeDiff)
  | destroy (e : Entity)

structure CommandBuffer where
  /-- `std::atomic<uint32_t> allocates`. -/
  allocates : Nat := 0
  locals : List Local := []

namespace CommandBuffer

/-- `locals.get()` of the thread with slot `i`; a slot is empty until its thread records. -/
def getLocal (b : CommandBuffer) (i : Nat) : Local := b.locals.getD i ({} : Local)

def setLocal (b : CommandBuffer) (i : Nat) (l : Local) : CommandBuffer :=
  { b with locals := (b.locals ++ List.replicate (i + 1 - b.locals.length) ({} : Local)).set i l }

/-- `allocates++`, and the handle of the number. -/
def nextHandle (b : CommandBuffer) : CommandBuffer × Entity :=
  ({ b with allocates := (b.allocates + 1) % 2 ^ 32 }, Entity.makeTransient b.allocates)

def record (b : CommandBuffer) (i : Nat) : Command → Option CommandBuffer
  | .allocate type => do
      let (b', e) := b.nextHandle
      let l ← (b.getLocal i).allocate e type
      some (b'.setLocal i l)
  | .instantiate source =>
      let (b', e) := b.nextHandle
      some (b'.setLocal i ((b.getLocal i).instantiate e source))
  | .begin_ e => some (b.setLocal i ((b.getLocal i).begin_ e))
  | .cast diff => do
      let l ← (b.getLocal i).cast diff
      some (b.setLocal i l)
  | .destroy e => some (b.setLocal i ((b.getLocal i).destroy e))

/-- The commands of all threads, in the order in which they were recorded. -/
def recordAll (cmds : List (Nat × Command)) : Option CommandBuffer :=
  cmds.foldlM (fun b c => b.record c.1 c.2) {}

end CommandBuffer

/-! ## Execution -/

namespace CommandBuffer

/-- `while (iter != end && iter->type == type) count++;` does not move `iter`: `same` is
what its test says every time. -/
def countEqual (same : Bool) : Nat → Nat → Option Nat
  | 0, _ => none
  | fuel + 1, count => if same then countEqual same fuel (count + 1) else some count

/-- `newEnts[loc.entities[(rb++)->e].id] = es[j]` for all slots of all slices; `es` is what
`rb` goes through. -/
def assign (entities : List Entity) :
    List Nat → List Entity → List Entity → Option (List Entity)
  | _, [], newEnts => some newEnts
  | [], _ :: _, _ => none
  | e :: es, h :: hs, newEnts => do
      let t ← entities[e]?
      if t.id < newEnts.length then assign entities es hs (newEnts.set t.id h) else none

/-- The loop over `loc.allocates`. -/
def createAllocates (ctx : Context) (fuel : Nat) (loc : Local) :
    List CmdAllocate → Pipeline → List Entity → Option (Pipeline × List Entity)
  | [], p, newEnts => some (p, newEnts)
  | cmd :: rest, p, newEnts => do
      let type := cmd.type.read loc.scratch
      let count ← countEqual (rest.head?.any fun c => c.type.read loc.scratch = type) fuel 1
      let (p, ss, _) ← p.allocate ctx fuel type count
      let newEnts ← assign loc.entities ((cmd :: rest).map CmdAllocate.e)
        (ss.flatMap p.world.handles) newEnts
      createAllocates ctx fuel loc rest p newEnts

/-- The loop over `loc.instantiates`. -/
def createInstances (ctx : Context) (fuel : Nat) (loc : Local) :
    List CmdInstantiate → Pipeline → List Entity → Option (Pipeline × List Entity)
  | [], p, newEnts => some (p, newEnts)
  | cmd :: rest, p, newEnts => do
      let count ← countEqual (rest.head?.any fun c => c.source = cmd.source) fuel 1
      let (p, ss, _) ← p.instantiate ctx fuel cmd.source count
      let newEnts ← assign loc.entities ((cmd :: rest).map CmdInstantiate.e)
        (ss.flatMap p.world.handles) newEnts
      createInstances ctx fuel loc rest p newEnts

/-- The first two loops of `command_buffer::execute`. `newEnts` starts with zeros. -/
def create (ctx : Context) (fuel : Nat) (b : CommandBuffer) (p : Pipeline) :
    Option (Pipeline × List Entity) := do
  let newEnts := List.replicate b.allocates (⟨0⟩ : Entity)
  let (p, newEnts) ← b.locals.foldlM
    (fun (p, newEnts) loc => createAllocates ctx fuel loc loc.allocates p newEnts) (p, newEnts)
  b.locals.foldlM
    (fun (p, newEnts) loc => createInstances ctx fuel loc loc.instantiates p newEnts) (p, newEnts)

/-- The third loop: transient handles become the entities created for them. -/
def resolve (newEnts : List Entity) (loc : Local) : Option Local := do
  let entities ← loc.entities.mapM fun e =>
    if e.isTransient then newEnts[e.id]? else some e
  some { loc with entities := entities }

/-- `while (iter != end && canMerge()) s.count++;`, on a test of `s.count`. -/
def mergeSlice (canMerge : Nat → Bool) : Nat → ChunkSlice → Option ChunkSlice
  | 0, _ => none
  | fuel + 1, s =>
      if canMerge s.count then mergeSlice canMerge fuel { s with count := s.count + 1 }
      else some s

/-- `s2.c == s.c && s2.start == s.start + s.count`. -/
def behind (s s2 : ChunkSlice) (count : Nat) : Bool := s2.c == s.c && s2.start == s.start + count

/-- The loop over `loc.casts`. -/
def castAll (ctx : Context) (fuel : Nat) (loc : Local) : List CmdCast → Pipeline → Option Pipeline
  | [], p => some p
  | cmd :: rest, p => do
      let diff := cmd.diff.read loc.scratch
      let e ← loc.entities[cmd.e]?
      let s ← p.world.asSlice e
      let s ← match rest with
        | [] => some s
        | next :: _ => do
            let e2 ← loc.entities[next.e]?
            let s2 ← p.world.asSlice e2
            mergeSlice (fun count =>
              decide (diff = next.diff.read loc.scratch) && behind s s2 count) fuel s
      let (p, _, _) ← p.cast ctx fuel s diff
      castAll ctx fuel loc rest p

/-- The loop over `loc.destroies`. -/
def destroyAll (ctx : Context) (fuel : Nat) : List CmdDestroy → Pipeline → Option Pipeline
  | [], p => some p
  | cmd :: rest, p => do
      let s ← p.world.asSlice ⟨cmd.e % 2 ^ 32⟩
      let s ← match rest with
        | [] => some s
        | next :: _ => do
            let s2 ← p.world.asSlice ⟨next.e % 2 ^ 32⟩
            mergeSlice (behind s s2) fuel s
      let (p, _) ← p.destroy ctx fuel s
      destroyAll ctx fuel rest p

/-- `command_buffer::execute`, without the loop that writes components. -/
def execute (ctx : Context) (fuel : Nat) (b : CommandBuffer) (p : Pipeline) : Option Pipeline := do
  let (p, newEnts) ← create ctx fuel b p
  let locals ← b.locals.mapM (resolve newEnts)
  let p ← locals.foldlM (fun p loc => castAll ctx fuel loc loc.casts p) p
  locals.foldlM (fun p loc => destroyAll ctx fuel loc.destroies p) p

end CommandBuffer

end Dots

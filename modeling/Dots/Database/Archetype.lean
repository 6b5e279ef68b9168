import Dots.Runtime.Context
import Dots.Runtime.Set
import Dots.Runtime.StackAllocator
import Mathlib.Data.List.Sort
import Mathlib.Logic.Function.Basic

/-!
# Archetypes

`world::construct_archetype` computes the constant part of an archetype from
its key: the segments of the type list, the flags, the capacity of each bin
and the offset of each column. Offsets count from `chunk::data()`.
-/

namespace Dots

structure EntityType where
  types : List TypeIndex := []
  metatypes : List Entity := []
  deriving DecidableEq, Repr

namespace EntityType

/-- `EmptyType`. -/
def empty : EntityType := {}

def merge (a b : EntityType) : EntityType where
  types := Set.merge a.types b.types
  metatypes := Set.merge a.metatypes b.metatypes

def substract (a b : EntityType) : EntityType where
  types := Set.substract a.types b.types
  metatypes := Set.substract a.metatypes b.metatypes

end EntityType

structure TypeDiff where
  extend : EntityType := {}
  shrink : EntityType := {}
  deriving DecidableEq, Repr

/-- The fields of `archetype` that `construct_archetype` fixes. The chunk list,
the counters and the timestamp live in the store. -/
structure Archetype where
  type : EntityType
  firstTag : Nat
  firstManaged : Nat
  firstBuffer : Nat
  sizes : List Nat
  entitySize : Nat
  chunkCapacity : AllocType → Nat
  offsets : AllocType → Nat → Nat
  disabled : Bool
  cleaning : Bool
  copying : Bool
  withMask : Bool
  withTracked : Bool
  zerosize : Bool

namespace Archetype

def types (a : Archetype) : List TypeIndex := a.type.types

def metatypes (a : Archetype) : List Entity := a.type.metatypes

def componentCount (a : Archetype) : Nat := a.types.length

def size (a : Archetype) (i : Nat) : Nat := a.sizes.getD i 0

/-- `archetype::index`: `lower_bound` on the sorted type array. -/
def index (a : Archetype) (t : TypeIndex) : Nat :=
  let i := a.types.findIdx fun u => decide (t ≤ u)
  if a.types[i]? = some t then i % 2 ^ 16 else invalidIndex

/-- `data() + offsets[ct][i] + sizes[i] * slot`. -/
def address (a : Archetype) (ct : AllocType) (i slot : Nat) : Nat :=
  a.offsets ct i + a.size i * slot

end Archetype

/-- The length of the longest prefix without a type of kind `p`. -/
def segment (p : TypeIndex → Bool) (ts : List TypeIndex) : Nat :=
  (ts.takeWhile fun t => !p t).length

def binSize : AllocType → Nat
  | .smallbin => kSmallBinSize
  | .fastbin => kFastBinSize
  | .largebin => kLargeBinSize

/-- `(uint32_t)(Caps[i] - sizeof(chunk) - sizeof(uint32_t) * firstTag) / entitySize`. -/
def binCapacity (firstTag entitySize : Nat) (ct : AllocType) : Nat :=
  (2 ^ 64 + binSize ct - sizeofChunk - 4 * firstTag) % 2 ^ 32 / entitySize

/-- The inner loop of the layout: columns are placed in the given order, each
aligned up from the end of the one before. -/
def placeColumns (align size : Nat → Nat) (capacity : Nat) : Nat → List Nat → Nat → Nat
  | _, [] => fun _ => 0
  | offset, id :: rest =>
      let offset := align id * ((offset + align id - 1) / align id)
      Function.update (placeColumns align size capacity (offset + size id * capacity) rest)
        id offset

/-- `stableOrder`: the columns by the GUID of their type. -/
def stableOrder (hash : Nat → GUID) (firstTag : Nat) : List Nat :=
  (List.range firstTag).insertionSort fun i j => hash i ≤ hash j

/-- The arrays of `construct_archetype` on the stack, in bytes: `align`, `hash` and
`stableOrder`. -/
def constructArrays (firstTag : Nat) : List Nat := [8 * firstTag, 16 * firstTag, 2 * firstTag]

/-- 26 bytes for each column, and the headers of the three arrays. -/
theorem constructArrays_eq_none {left firstTag : Nat} :
    stackRoom left (constructArrays firstTag) = none ↔ left < 26 * firstTag + 12 := by
  have hsum : ((constructArrays firstTag).map (· + 4)).sum = 26 * firstTag + 12 := by
    simp only [constructArrays, List.map_cons, List.map_nil, List.sum_cons, List.sum_nil]
    omega
  rw [stackRoom_eq, hsum]
  split_ifs <;> simp <;> omega

/-- `world::construct_archetype`, less the mutable fields. A zero entity size or alignment
divides by zero in the source, and an array that the stack has no room for is written through
all the same. -/
def constructArchetype (ctx : Context) (key : EntityType) : Option Archetype :=
  let firstTag := segment TypeIndex.isTag key.types
  let firstManaged := segment TypeIndex.isManaged (key.types.take firstTag)
  let firstBuffer := segment TypeIndex.isBuffer (key.types.take firstManaged)
  let infos := (key.types.take firstTag).map ctx.info
  let sizes := infos.map TypeRegistry.size
  let entitySize := (sizeofEntity + sizes.sum) % 2 ^ 16
  let capacity := binCapacity firstTag entitySize
  let align := fun i => (infos.getD i {}).alignment
  let order := stableOrder (fun i => (infos.getD i {}).guid) firstTag
  if entitySize = 0 ∨ (∃ i ∈ infos, i.alignment = 0) ∨
      stackRoom kStackSize (constructArrays firstTag) = none then none
  else some
    { type := key
      firstTag := firstTag
      firstManaged := firstManaged
      firstBuffer := firstBuffer
      sizes := sizes
      entitySize := entitySize
      chunkCapacity := capacity
      offsets := fun ct =>
        if capacity ct = 0 then fun _ => 0
        else placeColumns align (fun i => sizes.getD i 0) (capacity ct)
          (sizeofEntity * capacity ct) order
      disabled := key.types.any fun t => t == ctx.disableId
      cleaning := key.types.any fun t => t == ctx.cleanupId && t != ctx.disableId
      copying := key.types.any fun t => (ctx.track t).copying
      withMask := key.types.any fun t =>
        t == ctx.maskId && t != ctx.cleanupId && t != ctx.disableId
      withTracked := key.types.any fun t => (ctx.track t).needCC
      zerosize := entitySize == sizeofEntity }

theorem constructArchetype_type {ctx : Context} {key : EntityType} {a : Archetype}
    (h : constructArchetype ctx key = some a) : a.type = key := by
  simp only [constructArchetype] at h
  split at h
  · simp at h
  · simp only [Option.some.injEq] at h
    rw [← h]

theorem constructArchetype_cleaning {ctx : Context} {key : EntityType} {a : Archetype}
    (h : constructArchetype ctx key = some a) :
    a.cleaning = key.types.any fun t => t == ctx.cleanupId && t != ctx.disableId := by
  simp only [constructArchetype] at h
  split at h
  · simp at h
  · simp only [Option.some.injEq] at h
    rw [← h]

theorem constructArchetype_copying {ctx : Context} {key : EntityType} {a : Archetype}
    (h : constructArchetype ctx key = some a) :
    a.copying = key.types.any fun t => (ctx.track t).copying := by
  simp only [constructArchetype] at h
  split at h
  · simp at h
  · simp only [Option.some.injEq] at h
    rw [← h]

theorem constructArchetype_withTracked {ctx : Context} {key : EntityType} {a : Archetype}
    (h : constructArchetype ctx key = some a) :
    a.withTracked = key.types.any fun t => (ctx.track t).needCC := by
  simp only [constructArchetype] at h
  split at h
  · simp at h
  · simp only [Option.some.injEq] at h
    rw [← h]

theorem constructArchetype_capacity_lt {ctx : Context} {key : EntityType} {a : Archetype}
    (h : constructArchetype ctx key = some a) (ct : AllocType) :
    a.chunkCapacity ct < 2 ^ 32 := by
  simp only [constructArchetype] at h
  split at h
  · simp at h
  · simp only [Option.some.injEq] at h
    rw [← h]
    exact lt_of_le_of_lt (Nat.div_le_self _ _) (Nat.mod_lt _ (by decide))

/-- Every placed column starts at or after the first free offset. -/
theorem le_placeColumns {align size : Nat → Nat} (ha : ∀ i, 0 < align i) (capacity : Nat)
    (order : List Nat) {offset i : Nat} (hi : i ∈ order) :
    offset ≤ placeColumns align size capacity offset order i := by
  induction order generalizing offset with
  | nil => simp at hi
  | cons id rest ih =>
      have hup : offset ≤ align id * ((offset + align id - 1) / align id) := by
        have h1 := Nat.div_add_mod (offset + align id - 1) (align id)
        have h2 := Nat.mod_lt (offset + align id - 1) (ha id)
        have h3 := ha id
        omega
      simp only [placeColumns, Function.update_apply]
      split_ifs with h
      · exact hup
      · have hi' : i ∈ rest := by
          rcases List.mem_cons.mp hi with rfl | hi
          · exact absurd rfl h
          · exact hi
        exact le_trans (le_trans hup (Nat.le_add_right _ _)) (ih hi')

end Dots

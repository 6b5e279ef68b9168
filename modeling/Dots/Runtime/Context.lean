import Mathlib.Algebra.GroupWithZero.Nat
import Mathlib.Data.Nat.Basic
import Mathlib.Order.Basic
import Mathlib.Tactic.Common

/-!
# Handles, type indices and the type registry

The unions `handle` and `type_index` are kept as their 32-bit values; the bit
fields are projections. A registry entry carries what the database reads of
`component_desc`: names are left out.
-/

namespace Dots

/-- `core::entity`: the 32-bit value of the union, 8 low bits of version and 24
bits of id. -/
@[ext] structure Entity where
  value : Nat
  deriving DecidableEq, Repr

namespace Entity

/-- Handles compare by their value. -/
instance : LinearOrder Entity :=
  LinearOrder.lift' Entity.value fun _ _ h => Entity.ext h

def id (e : Entity) : Nat := e.value / 2 ^ 8 % 2 ^ 24

def version (e : Entity) : Nat := e.value % 2 ^ 8

/-- `handle(T i, T v)`: both fields are truncated to their widths. -/
def make (i v : Nat) : Entity := ⟨i % 2 ^ 24 * 2 ^ 8 + v % 2 ^ 8⟩

/-- `NullEntity`. -/
def null : Entity := ⟨2 ^ 32 - 1⟩

def transientMagicNumber : Nat := 2 ^ 8 - 1

def isTransient (e : Entity) : Bool := e.version == transientMagicNumber

def makeTransient (i : Nat) : Entity := make i transientMagicNumber

/-- `handle::recycle`: the next version, stepping over the transient one. The
result is a `uint32_t`; the bit field it is stored in truncates it. -/
def recycle (version : Nat) : Nat :=
  if version + 1 = transientMagicNumber then version + 2 else version + 1

theorem id_make {i : Nat} (v : Nat) (hi : i < 2 ^ 24) : (make i v).id = i := by
  simp only [id, make]
  omega

theorem version_make (i : Nat) {v : Nat} (hv : v < 2 ^ 8) : (make i v).version = v := by
  simp only [version, make]
  omega

theorem make_value_lt (i v : Nat) : (make i v).value < 2 ^ 32 := by
  simp only [make]
  omega

theorem version_lt (e : Entity) : e.version < 2 ^ 8 := Nat.mod_lt _ (by decide)

/-- A 32-bit handle is determined by its two fields. -/
theorem eq_of_id_version {e f : Entity} (he : e.value < 2 ^ 32) (hf : f.value < 2 ^ 32)
    (hi : e.id = f.id) (hv : e.version = f.version) : e = f := by
  apply Entity.ext
  simp only [id, version] at hi hv
  omega

end Entity

/-- `type_index`: 30 low bits of registry index, 2 bits of `component_type`. -/
abbrev TypeIndex := Nat

/-- `component_type`, in the order of its two bits. -/
inductive ComponentType
  | pod
  | buffer
  | managed
  | tag
  deriving DecidableEq, Repr

def ComponentType.bits : ComponentType → Nat
  | .pod => 0
  | .buffer => 1
  | .managed => 2
  | .tag => 3

namespace TypeIndex

def index (t : TypeIndex) : Nat := t % 2 ^ 30

def bits (t : TypeIndex) : Nat := t / 2 ^ 30 % 4

def make (a : Nat) (t : ComponentType) : TypeIndex := a % 2 ^ 30 + t.bits * 2 ^ 30

def isPod (t : TypeIndex) : Bool := t.bits == ComponentType.pod.bits

def isBuffer (t : TypeIndex) : Bool := t.bits == ComponentType.buffer.bits

def isTag (t : TypeIndex) : Bool := t.bits == ComponentType.tag.bits

def isManaged (t : TypeIndex) : Bool := t.bits == ComponentType.managed.bits

end TypeIndex

/-- `InvalidIndex`, the 16-bit `-1`. -/
def invalidIndex : Nat := 2 ^ 16 - 1

/-- `alloc_type`. -/
inductive AllocType
  | smallbin
  | fastbin
  | largebin
  deriving DecidableEq, Repr

def kFastBinSize : Nat := 64 * 1024
def kSmallBinThreshold : Nat := 8
def kSmallBinSize : Nat := 1024
def kLargeBinSize : Nat := 1024 * 1024

/-- `sizeof(entity)`, `sizeof(chunk)`, `sizeof(buffer)` and `sizeof(mask)` on x64. -/
def sizeofEntity : Nat := 4
def sizeofChunk : Nat := 32
def sizeofBuffer : Nat := 16
def sizeofMask : Nat := 4

/-- `core::GUID`: its 16 bytes read as one big-endian number, so that the byte
order of the source is the numeric one. -/
abbrev GUID := Nat

/-- `component_vtable`. The functions belong to the registering program; each is
given by what it does to the bytes of one element. -/
structure ComponentVtable where
  patch : Option ((Entity → Entity) → List UInt8 → List UInt8) := none
  copy : Option (List UInt8 → List UInt8 → List UInt8) := none
  constructor : Option (List UInt8) := none
  destructor : Bool := false

structure ComponentDesc where
  isElement : Bool := false
  isManaged : Bool := false
  manualCopy : Bool := false
  manualClean : Bool := false
  guid : GUID := 0
  size : Nat := 0
  elementSize : Nat := 0
  alignment : Nat := 8
  /-- `entityRefs`, `none` for the null pointer; the count is its length. -/
  entityRefs : Option (List Nat) := none
  vtable : ComponentVtable := {}

/-- `track_state`, one field for each bit. -/
structure TrackState where
  copying : Bool := false
  manualCopying : Bool := false
  manualCleaning : Bool := false
  deriving DecidableEq, Repr

/-- `(s & NeedCC) != 0`. -/
def TrackState.needCC (s : TrackState) : Bool := s.manualCopying || s.manualCleaning

structure TypeRegistry where
  guid : GUID := 0
  size : Nat := 0
  elementSize : Nat := 0
  alignment : Nat := 8
  /-- Where the references start in `context::entityRefs`. -/
  entityRefs : Nat := 0
  entityRefCount : Nat := 0
  vtable : ComponentVtable := {}

/-- `context`, less its allocators. -/
structure Context where
  infos : List TypeRegistry
  tracks : List TrackState
  entityRefs : List Nat
  hash2type : List (GUID × TypeIndex)
  disableId : TypeIndex
  cleanupId : TypeIndex
  groupId : TypeIndex
  maskId : TypeIndex
  /-- `none` when built without `ENABLE_GUID_COMPONENT`. -/
  guidId : Option TypeIndex

namespace Context

def info (ctx : Context) (t : TypeIndex) : TypeRegistry := ctx.infos.getD t.index {}

def track (ctx : Context) (t : TypeIndex) : TrackState := ctx.tracks.getD t.index {}

/-- `context::register_type`. -/
def registerType (ctx : Context) (desc : ComponentDesc) : Context × TypeIndex :=
  match ctx.hash2type.lookup desc.guid with
  | some t => (ctx, t)
  | none =>
      let rid := if desc.entityRefs.isSome then ctx.entityRefs.length else 0
      let refs := desc.entityRefs.getD []
      let type : ComponentType :=
        if desc.size = 0 then .tag
        else if desc.isElement then .buffer
        else if desc.isManaged then .managed
        else .pod
      let manualClean := desc.manualClean && type != .managed
      let manualCopy := desc.manualCopy && type != .managed
      let id := TypeIndex.make ctx.infos.length type
      let i : TypeRegistry :=
        { guid := desc.guid, size := desc.size, elementSize := desc.elementSize,
          alignment := desc.alignment, entityRefs := rid, entityRefCount := refs.length,
          vtable := desc.vtable }
      let s : TrackState := { manualCleaning := manualClean, manualCopying := manualCopy }
      let twin : TrackState := { copying := true }
      ({ ctx with
          entityRefs := ctx.entityRefs ++ refs
          infos := ctx.infos ++ if manualCopy then [i, i] else [i]
          tracks := ctx.tracks ++ if manualCopy then [s, twin] else [s]
          hash2type := ctx.hash2type ++ [(desc.guid, id)] },
        id)

/-- `context::context`; `guid` says whether `ENABLE_GUID_COMPONENT` is defined. -/
def initial (guid : Bool) : Context :=
  let ctx : Context :=
    { infos := [], tracks := [], entityRefs := [], hash2type := [], disableId := 0,
      cleanupId := 0, groupId := 0, maskId := 0, guidId := none }
  let (ctx, cleanup) := ctx.registerType { guid := 1 }
  let (ctx, disable) := ctx.registerType { guid := 2 }
  let (ctx, group) := ctx.registerType
    { guid := 3, size := sizeofEntity * 5, isElement := true, elementSize := sizeofEntity,
      entityRefs := some [0] }
  let (ctx, mask) := ctx.registerType { guid := 4, size := sizeofMask }
  let (ctx, guidId) :=
    if guid then
      let (ctx, g) := ctx.registerType { guid := 5, size := 16, manualClean := true }
      (ctx, some g)
    else (ctx, none)
  { ctx with
    disableId := disable, cleanupId := cleanup, groupId := group, maskId := mask,
    guidId := guidId }

/-- The registries a program can build: calls of `register_type` on the initial one. -/
inductive Built : Context → Prop
  | initial (guid : Bool) : Built (Context.initial guid)
  | register {ctx : Context} (h : Built ctx) (desc : ComponentDesc) :
      Built (ctx.registerType desc).1

/-- `to_valid_type`: a copying twin stands for the type before it. -/
def toValidType (ctx : Context) (t : TypeIndex) : TypeIndex :=
  if ctx.track t = { copying := true } then t - 1 else t

theorem registerType_ids (ctx : Context) (desc : ComponentDesc) :
    (ctx.registerType desc).1.disableId = ctx.disableId ∧
      (ctx.registerType desc).1.cleanupId = ctx.cleanupId ∧
      (ctx.registerType desc).1.groupId = ctx.groupId ∧
      (ctx.registerType desc).1.maskId = ctx.maskId := by
  unfold registerType
  split <;> exact ⟨rfl, rfl, rfl, rfl⟩

/-- The built-in types have the same indices in every registry. -/
theorem Built.ids {ctx : Context} (h : Built ctx) :
    ctx.disableId = TypeIndex.make 1 .tag ∧ ctx.cleanupId = TypeIndex.make 0 .tag ∧
      ctx.groupId = TypeIndex.make 2 .buffer ∧ ctx.maskId = TypeIndex.make 3 .pod := by
  induction h with
  | initial guid => cases guid <;> decide
  | register h desc ih =>
      obtain ⟨h1, h2, h3, h4⟩ := registerType_ids _ desc
      rw [h1, h2, h3, h4]
      exact ih

/-- A copying twin follows its type and has the same description. -/
def Paired (ctx : Context) : Prop :=
  ctx.tracks.length = ctx.infos.length ∧
    ∀ k, ctx.tracks[k]? = some { copying := true } →
      0 < k ∧ ctx.infos[k]? = ctx.infos[k - 1]?

/-- Appending an entry, or an entry and its twin. -/
theorem Paired.append {ctx ctx' : Context} (h : Paired ctx) {i : TypeRegistry} {s : TrackState}
    (hs : s.copying = false) (twin : Bool)
    (hi : ctx'.infos = ctx.infos ++ if twin then [i, i] else [i])
    (ht : ctx'.tracks = ctx.tracks ++ if twin then [s, { copying := true }] else [s]) :
    Paired ctx' := by
  obtain ⟨hlen, hpair⟩ := h
  have hne : s ≠ { copying := true } := by
    rintro rfl
    simp at hs
  refine ⟨?_, fun k hk => ?_⟩
  · rw [hi, ht]
    cases twin <;> simp [hlen]
  · rw [ht] at hk
    rw [hi]
    obtain hlt | hge := Nat.lt_or_ge k ctx.tracks.length
    · rw [List.getElem?_append_left hlt] at hk
      obtain ⟨hpos, heq⟩ := hpair k hk
      rw [List.getElem?_append_left (by omega), List.getElem?_append_left (by omega)]
      exact ⟨hpos, heq⟩
    · rw [List.getElem?_append_right hge] at hk
      cases twin with
      | false =>
          obtain ⟨hlt, hlast⟩ := List.getElem?_eq_some_iff.mp hk
          simp [hne] at hlast
      | true =>
          obtain ⟨hlt, hlast⟩ := List.getElem?_eq_some_iff.mp hk
          simp only [if_true, List.length_cons, List.length_nil] at hlt
          obtain hk0 | hk1 : k - ctx.tracks.length = 0 ∨ k - ctx.tracks.length = 1 := by omega
          · simp [hk0, hne] at hlast
          · rw [List.getElem?_append_right (by omega), List.getElem?_append_right (by omega),
              show k - ctx.infos.length = 1 by omega, show k - 1 - ctx.infos.length = 0 by omega]
            exact ⟨by omega, rfl⟩

theorem Paired.registerType {ctx : Context} (h : Paired ctx) (desc : ComponentDesc) :
    Paired (ctx.registerType desc).1 := by
  unfold Context.registerType
  split
  · exact h
  · exact h.append rfl _ rfl rfl

theorem Built.paired {ctx : Context} (h : Built ctx) : Paired ctx := by
  induction h with
  | initial guid =>
      refine ⟨?_, fun k hk => ?_⟩
      · cases guid <;> rfl
      · have hnone : { copying := true } ∉ (Context.initial guid).tracks := by
          cases guid <;> decide
        exact absurd (List.mem_of_getElem? hk) hnone
  | register h desc ih => exact ih.registerType desc

theorem Paired.toValidType {ctx : Context} (h : Paired ctx) (t : TypeIndex) :
    ctx.info (ctx.toValidType t) = ctx.info t ∧
      (ctx.toValidType t).isTag = t.isTag := by
  unfold Context.toValidType
  split_ifs with ht
  · simp only [track, List.getD_eq_getElem?_getD] at ht
    have hk : ctx.tracks[t.index]? = some { copying := true } := by
      cases hk : ctx.tracks[t.index]? with
      | none => simp [hk] at ht
      | some s => simpa [hk] using ht
    obtain ⟨hpos, heq⟩ := h.2 _ hk
    have hindex : TypeIndex.index (t - 1) = t.index - 1 := by
      unfold TypeIndex.index at hpos ⊢
      omega
    have hbits : TypeIndex.bits (t - 1) = t.bits := by
      unfold TypeIndex.index at hpos
      unfold TypeIndex.bits
      omega
    constructor
    · simp only [info, List.getD_eq_getElem?_getD, hindex, heq]
    · simp only [TypeIndex.isTag, hbits]
  · exact ⟨rfl, rfl⟩

end Context

end Dots

import Dots.Database.World
import Dots.Library.Ledger

/-!
# Pass dependencies of a pipeline

A pipeline keeps, for every component of every archetype and for every shared
resource, the pass that wrote it last and the passes that read it since. A new
pass collects its dependencies from these entries while it registers itself in
them. Passes expire when their last owner lets go of them; what is kept of an
expired pass is a weak pointer.
-/

namespace Dots

open Library

/-- Passes in the order of their creation: `passIndex`. -/
abbrev PassId := Nat

/-- `dependency_entry`: `owned`, where `none` is an empty weak pointer, and `shared`. -/
abbrev DependencyEntry := Entry PassId

/-- Where a dependency entry is: the array of an archetype has one for each of its
components before `firstTag` and, at `firstTag`, one for its entities. -/
inductive EntryId
  | column (g : ArchetypeId) (i : Nat)
  | entities (g : ArchetypeId)
  | resource (r : Nat)
  deriving DecidableEq, Repr

/-- `shared_entry`; `entry` numbers the shared resources. -/
structure SharedEntry where
  readonly : Bool
  entry : Nat

/-- One parameter of a pass: its bits of `types`, `readonly` and `randomAccess`. -/
structure Param where
  type : TypeIndex
  readonly : Bool := false
  randomAccess : Bool := false

/-- What a pass is created with: for `create_pass`, the archetypes its filter
matched, its parameters and the changed filter; for both, the shared entries. -/
inductive Request
  | pass (archetypes : List ArchetypeId) (params : List Param) (changed : List TypeIndex)
      (sharedEntries : List SharedEntry)
  | custom (sharedEntries : List SharedEntry)

structure Pass where
  request : Request
  dependencies : List PassId

/-- `pipeline`. `dependencyEntries` is split into its keys, in the order in which the
map iterates, and its values. -/
structure Pipeline where
  world : World
  keys : List ArchetypeId
  entries : EntryId → DependencyEntry
  passes : List Pass
  /-- Whether `expired()` is false for a weak pointer to the pass. -/
  live : PassId → Bool

/-- The pairs the local state of `setup_pass_dependency` looks for are compared by value. -/
instance : LawfulBEq (ArchetypeId × TypeIndex) := inferInstance

/-- The local state of `setup_pass_dependency`, and the entries it updates. The
branches all synchronisations share are `Ledger.read` and `Ledger.write`. -/
structure Setup where
  ledger : Ledger EntryId PassId
  syncedEntry : List (ArchetypeId × TypeIndex) := []

namespace Setup

def access (live : PassId → Bool) (k : PassId) (x : EntryId) (readonly : Bool) (s : Setup) :
    Setup :=
  { s with ledger := s.ledger.access false live k x readonly }

/-- `setup_shared_dependency`, which inserts expired readers as well. -/
def shared (live : PassId → Bool) (k : PassId) (sharedEntries : List SharedEntry)
    (s : Ledger EntryId PassId) : Ledger EntryId PassId :=
  sharedEntries.foldl (fun s i => s.access true live k (.resource i.entry) i.readonly) s

/-- The `sync_entry` lambda. -/
def syncEntry (p : Pipeline) (live : PassId → Bool) (k : PassId) (g : ArchetypeId)
    (localType : TypeIndex) (readonly : Bool) (s : Setup) : Option Setup :=
  if (g, localType) ∈ s.syncedEntry then some s
  else
    let s := { s with syncedEntry := (g, localType) :: s.syncedEntry }
    if g ∉ p.keys then some s
    else do
      let a ← p.world.store.archetype g
      if localType ≥ a.firstTag ∨ localType = invalidIndex then some s
      else some (s.access live k (.column g localType) readonly)

/-- The `sync_type` lambda, on the keys the loop has not reached yet. It returns at
the first archetype without the type. -/
def syncType (p : Pipeline) (live : PassId → Bool) (k : PassId) (type : TypeIndex)
    (readonly : Bool) : List ArchetypeId → Setup → Option Setup
  | [], s => some s
  | g :: gs, s => do
      let a ← p.world.store.archetype g
      let localType := a.index type
      if localType ≥ a.firstTag ∨ localType = invalidIndex then some s
      else
        let s := s.access live k (.column g localType) readonly
        syncType p live k type readonly gs s

/-- The `sync_entities` lambda. -/
def syncEntities (p : Pipeline) (live : PassId → Bool) (k : PassId) (g : ArchetypeId)
    (s : Setup) : Setup :=
  if g ∉ p.keys then s
  else
    let entry := s.ledger.entries (.entities g)
    let entry := { entry with shared := entry.shared.filter live ++ [k] }
    { s with ledger :=
      { s.ledger with entries := Function.update s.ledger.entries (.entities g) entry } }

end Setup

/-- `HELPER::get_owning_archetype`. -/
def Store.owningArchetypeFrom (st : Store) (ents : Entities) (type : TypeIndex) :
    Nat → ArchetypeId → Option (Option ArchetypeId)
  | 0, _ => none
  | fuel + 1, sharing => do
      let a ← st.archetype sharing
      if a.index type ≠ invalidIndex then some (some sharing)
      else a.metatypes.foldlM (fun owning m =>
        match owning with
        | some g => some (some g)
        | none => do
            let g ← st.archetypeIdOf ents m
            st.owningArchetypeFrom ents type fuel g) none

/-- As for `sharedType`, a depth past the number of archetypes meets one twice. -/
def Store.owningArchetype (st : Store) (ents : Entities) (type : TypeIndex)
    (sharing : ArchetypeId) : Option (Option ArchetypeId) :=
  st.owningArchetypeFrom ents type (st.freshArchetype + 1) sharing

/-- A call of one of the three lambdas of `setup_pass_dependency`. -/
inductive SyncCall
  | type (type : TypeIndex) (readonly : Bool)
  | entry (g : ArchetypeId) (localType : TypeIndex) (readonly : Bool)
  | entities (g : ArchetypeId)
  deriving DecidableEq, Repr

namespace World

/-- What the loop body for one parameter calls, if anything. -/
def paramCall (w : World) (g : ArchetypeId) (a : Archetype) (p : Param) :
    Option (Option SyncCall) :=
  if p.randomAccess then some (some (.type p.type p.readonly))
  else
    let localType := a.index p.type
    if localType = invalidIndex then do
      match ← w.store.owningArchetype w.ents p.type g with
      | none => some none
      | some oat =>
          let owner ← w.store.archetype oat
          some (some (.entry oat (owner.index p.type) true))
    else some (some (.entry g localType p.readonly))

/-- The calls of the main loop for one matched archetype. -/
def archetypeCalls (w : World) (params : List Param) (changed : List TypeIndex)
    (g : ArchetypeId) : Option (List SyncCall) := do
  let a ← w.store.archetype g
  let calls ← params.mapM (w.paramCall g a)
  some (calls.reduceOption ++ SyncCall.entities g ::
    changed.map fun t => SyncCall.entry g (a.index t) true)

/-- The calls of the main loop. -/
def calls (w : World) (archetypes : List ArchetypeId) (params : List Param)
    (changed : List TypeIndex) : Option (List SyncCall) :=
  (archetypes.mapM (w.archetypeCalls params changed)).map List.flatten

end World

namespace Pipeline

def call (p : Pipeline) (live : PassId → Bool) (k : PassId) (s : Setup) :
    SyncCall → Option Setup
  | .type t readonly => s.syncType p live k t readonly p.keys
  | .entry g localType readonly => s.syncEntry p live k g localType readonly
  | .entities g => some (s.syncEntities p live k g)

/-- `setup_custom_pass_dependency` and `setup_pass_dependency`. -/
def setup (p : Pipeline) (live : PassId → Bool) (k : PassId) :
    Request → Option (Ledger EntryId PassId)
  | .custom sharedEntries => some (Setup.shared live k sharedEntries { entries := p.entries })
  | .pass archetypes params changed sharedEntries => do
      let cs ← p.world.calls archetypes params changed
      let s ← cs.foldlM (p.call live k)
        { ledger := Setup.shared live k sharedEntries { entries := p.entries } }
      some s.ledger

/-- `create_pass` and `create_custom_pass`. -/
def create (p : Pipeline) (request : Request) : Option Pipeline := do
  let k := p.passes.length
  let live := Function.update p.live k true
  let s ← p.setup live k request
  some { p with
    entries := s.entries
    passes := p.passes ++ [{ request := request, dependencies := s.dependencies }]
    live := live }

/-- The last owner of a pass lets go of it. -/
def expire (p : Pipeline) (k : PassId) : Pipeline :=
  { p with live := Function.update p.live k false }

/-- `pipeline::pipeline(world&&)`; `keys` are the archetypes of the world. -/
def initial (w : World) (keys : List ArchetypeId) : Pipeline where
  world := w
  keys := keys
  entries := fun _ => {}
  passes := []
  live := fun _ => true

inductive Step : Pipeline → Pipeline → Prop
  | create {p p' : Pipeline} (request : Request) (h : p.create request = some p') : Step p p'
  | expire (p : Pipeline) (k : PassId) : Step p (p.expire k)

/-- The recorded dependencies of a pass. -/
def dependencies (p : Pipeline) (k : PassId) : List PassId :=
  match p.passes[k]? with
  | some pass => pass.dependencies
  | none => []

end Pipeline

end Dots

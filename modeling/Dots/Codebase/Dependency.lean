import Dots.Codebase.Pipeline
import Dots.Library.Partial
import Mathlib.Data.List.ReduceOption

/-!
# The order of passes

Creating a pass amounts to a list of visits of dependency entries that depends on
the request and the archetypes only. From that list the dependencies are those of
a ledger, so that a pass depends on itself exactly when it visits an entry again
other than for reading, and conflicting passes are ordered where the visits cover
what the pass accesses and passes expire after what they depend on.
-/

namespace Dots

open Library

namespace World

variable (w : World) (keys : List ArchetypeId)

/-- The column of a type in an archetype that owns it, tags aside. -/
def ownedColumn (t : TypeIndex) (g : ArchetypeId) : Option EntryId := do
  let a ← w.store.archetype g
  if a.index t ≥ a.firstTag ∨ a.index t = invalidIndex then none
  else some (.column g (a.index t))

/-- What a call of `sync_entry` visits, the first time. -/
def entryVisits (g : ArchetypeId) (i : TypeIndex) (readonly : Bool) :
    Option (List (Visit EntryId)) :=
  if g ∉ keys then some []
  else do
    let a ← w.store.archetype g
    if i ≥ a.firstTag ∨ i = invalidIndex then some [] else some [⟨.column g i, readonly⟩]

/-- What a call of `sync_type` visits among the given keys. -/
def typeVisits (t : TypeIndex) (readonly : Bool) :
    List ArchetypeId → Option (List (Visit EntryId))
  | [] => some []
  | g :: gs => do
      let a ← w.store.archetype g
      if a.index t ≥ a.firstTag ∨ a.index t = invalidIndex then some []
      else do
        let vs ← typeVisits t readonly gs
        some (⟨.column g (a.index t), readonly⟩ :: vs)

/-- What the calls of the main loop visit, given the pairs that are synced. -/
def callVisits : List (ArchetypeId × TypeIndex) → List SyncCall → Option (List (Visit EntryId))
  | _, [] => some []
  | synced, .type t readonly :: cs => do
      let vs ← w.typeVisits t readonly keys
      let rest ← callVisits synced cs
      some (vs ++ rest)
  | synced, .entry g i readonly :: cs =>
      if (g, i) ∈ synced then callVisits synced cs
      else do
        let vs ← w.entryVisits keys g i readonly
        let rest ← callVisits ((g, i) :: synced) cs
        some (vs ++ rest)
  | synced, .entities g :: cs => do
      let rest ← callVisits synced cs
      some ((if g ∈ keys then [⟨.entities g, true⟩] else []) ++ rest)

def sharedVisits (sharedEntries : List SharedEntry) : List (Visit EntryId) :=
  sharedEntries.map fun i => ⟨.resource i.entry, i.readonly⟩

/-- The visits a request leads to. -/
def visits : Request → Option (List (Visit EntryId))
  | .custom sharedEntries => some (sharedVisits sharedEntries)
  | .pass archetypes params changed sharedEntries => do
      let cs ← w.calls archetypes params changed
      let vs ← w.callVisits keys [] cs
      some (sharedVisits sharedEntries ++ vs)

end World

/-- The entries where a writer inserts expired readers too. -/
def EntryId.isResource : EntryId → Bool
  | .resource _ => true
  | _ => false

/-- Passes only read the entities of an archetype. -/
def EntitiesReadonly (v : Visit EntryId) : Prop :=
  ∀ g, v.entry = .entities g → v.readonly = true

/-- No pass owns the entities of an archetype. -/
def NoOwner (E : EntryId → DependencyEntry) : Prop :=
  ∀ g, (E (.entities g)).owned = none

theorem NoOwner.visit {live : PassId → Bool} {k : PassId} {s : Ledger EntryId PassId}
    (h : NoOwner s.entries) {v : Visit EntryId} (hv : EntitiesReadonly v) :
    NoOwner (s.visit EntryId.isResource live k v).entries := by
  obtain ⟨x, readonly⟩ := v
  intro g
  cases readonly with
  | true =>
      change ((s.read live k x).entries _).owned = none
      rw [Ledger.entry_read]
      split
      · rename_i hx
        exact hx ▸ h g
      · exact h g
  | false =>
      change ((s.write _ live k x).entries _).owned = none
      rw [Ledger.entry_write]
      split
      · rename_i hx
        exact absurd (hv g hx.symm) (by simp)
      · exact h g

theorem NoOwner.replay {live : PassId → Bool} {k : PassId} {vs : List (Visit EntryId)}
    (hvs : ∀ v ∈ vs, EntitiesReadonly v) {s : Ledger EntryId PassId} (h : NoOwner s.entries) :
    NoOwner (s.replay EntryId.isResource live k vs).entries := by
  induction vs generalizing s with
  | nil => exact h
  | cons v vs ih =>
      exact ih (fun u hu => hvs u (List.mem_cons_of_mem v hu))
        (h.visit (hvs v List.mem_cons_self))

theorem replay_append {live : PassId → Bool} {k : PassId} (vs vs' : List (Visit EntryId))
    (s : Ledger EntryId PassId) :
    s.replay EntryId.isResource live k (vs ++ vs') =
      (s.replay EntryId.isResource live k vs).replay EntryId.isResource live k vs' := by
  simp only [Ledger.replay, List.foldl_append]

namespace Setup

variable {p : Pipeline} {live : PassId → Bool} {k : PassId}

theorem shared_eq_replay (sharedEntries : List SharedEntry) (s : Ledger EntryId PassId) :
    shared live k sharedEntries s =
      s.replay EntryId.isResource live k (World.sharedVisits sharedEntries) := by
  simp only [shared, World.sharedVisits, Ledger.replay, List.foldl_map, Ledger.visit,
    EntryId.isResource]

theorem syncEntry_spec {g : ArchetypeId} {i : TypeIndex} {readonly : Bool} {s s' : Setup}
    (hs : (g, i) ∉ s.syncedEntry) (h : syncEntry p live k g i readonly s = some s') :
    ∃ vs, p.world.entryVisits p.keys g i readonly = some vs ∧
      s' = { ledger := s.ledger.replay EntryId.isResource live k vs
             syncedEntry := (g, i) :: s.syncedEntry } := by
  rw [syncEntry, if_neg hs] at h
  unfold World.entryVisits
  by_cases hg : g ∉ p.keys
  · rw [if_pos hg] at h ⊢
    exact ⟨[], rfl, by simpa [Ledger.replay] using h.symm⟩
  · rw [if_neg hg] at h ⊢
    cases ha : p.world.store.archetype g with
    | none => simp [ha] at h
    | some a =>
        simp only [ha, Option.bind_eq_bind, Option.bind_some] at h ⊢
        split at h
        · rename_i hi
          exact ⟨[], by rw [if_pos hi], by simpa [Ledger.replay] using h.symm⟩
        · rename_i hi
          exact ⟨[⟨.column g i, readonly⟩], by rw [if_neg hi], by
            simpa [Ledger.replay, Ledger.visit, EntryId.isResource, access] using h.symm⟩

theorem syncType_spec {t : TypeIndex} {readonly : Bool} {gs : List ArchetypeId} {s s' : Setup}
    (h : syncType p live k t readonly gs s = some s') :
    ∃ vs, p.world.typeVisits t readonly gs = some vs ∧
      s' = { s with ledger := s.ledger.replay EntryId.isResource live k vs } := by
  induction gs generalizing s with
  | nil => exact ⟨[], rfl, by simpa [syncType, Ledger.replay] using h.symm⟩
  | cons g gs ih =>
      rw [World.typeVisits]
      cases ha : p.world.store.archetype g with
      | none => simp [syncType, ha] at h
      | some a =>
          simp only [syncType, ha, Option.bind_eq_bind, Option.bind_some] at h ⊢
          split at h
          · rename_i hi
            exact ⟨[], by rw [if_pos hi], by simpa [Ledger.replay] using h.symm⟩
          · rename_i hi
            obtain ⟨vs, hvs, rfl⟩ := ih h
            exact ⟨⟨.column g (a.index t), readonly⟩ :: vs, by simp [if_neg hi, hvs], by
              simp [Ledger.replay, Ledger.visit, EntryId.isResource, access]⟩

theorem syncEntities_eq {g : ArchetypeId} {s : Setup} (h : NoOwner s.ledger.entries) :
    syncEntities p live k g s =
      { s with
        ledger := s.ledger.replay EntryId.isResource live k
          (if g ∈ p.keys then [⟨.entities g, true⟩] else []) } := by
  unfold syncEntities
  by_cases hg : g ∈ p.keys
  · simp [hg, Ledger.replay, Ledger.visit, Ledger.access, Ledger.read, h g, insertOwned]
  · simp [hg, Ledger.replay]

end Setup

namespace World

variable {w : World} {keys : List ArchetypeId}

theorem entitiesReadonly_shared (sharedEntries : List SharedEntry) :
    ∀ v ∈ sharedVisits sharedEntries, EntitiesReadonly v := by
  intro v hv g hg
  obtain ⟨i, -, rfl⟩ := List.mem_map.mp hv
  simp at hg

theorem entitiesReadonly_entry {g : ArchetypeId} {i : TypeIndex} {readonly : Bool}
    {vs : List (Visit EntryId)} (h : w.entryVisits keys g i readonly = some vs) :
    ∀ v ∈ vs, EntitiesReadonly v := by
  intro v hv g' hg'
  unfold entryVisits at h
  split at h
  · obtain rfl : [] = vs := by simpa using h
    simp at hv
  · cases ha : w.store.archetype g with
    | none => simp [ha] at h
    | some a =>
        simp only [ha, Option.bind_eq_bind, Option.bind_some] at h
        split at h
        · obtain rfl : [] = vs := by simpa using h
          simp at hv
        · obtain rfl : [_] = vs := by simpa using h
          rw [List.mem_singleton] at hv
          subst hv
          simp at hg'

theorem entitiesReadonly_type {t : TypeIndex} {readonly : Bool} {gs : List ArchetypeId}
    {vs : List (Visit EntryId)} (h : w.typeVisits t readonly gs = some vs) :
    ∀ v ∈ vs, EntitiesReadonly v := by
  induction gs generalizing vs with
  | nil =>
      obtain rfl : [] = vs := by simpa [typeVisits] using h
      simp
  | cons g gs ih =>
      rw [typeVisits] at h
      cases ha : w.store.archetype g with
      | none => simp [ha] at h
      | some a =>
          simp only [ha, Option.bind_eq_bind, Option.bind_some] at h
          split at h
          · obtain rfl : [] = vs := by simpa using h
            simp
          · obtain ⟨us, hus, h⟩ := Option.bind_eq_some_iff.mp h
            obtain rfl : _ :: us = vs := by simpa using h
            intro v hv
            rcases List.mem_cons.mp hv with rfl | hv
            · intro g' hg'
              simp at hg'
            · exact ih hus v hv

end World

namespace Pipeline

variable {p p' : Pipeline} {live : PassId → Bool} {k : PassId}

/-- The main loop replays the visits of its calls. -/
theorem foldlM_call_spec {cs : List SyncCall} {s s' : Setup}
    (h : cs.foldlM (p.call live k) s = some s') (hs : NoOwner s.ledger.entries) :
    ∃ vs, p.world.callVisits p.keys s.syncedEntry cs = some vs ∧
      s'.ledger = s.ledger.replay EntryId.isResource live k vs ∧ NoOwner s'.ledger.entries := by
  induction cs generalizing s with
  | nil =>
      obtain rfl : s = s' := by simpa using h
      exact ⟨[], rfl, rfl, hs⟩
  | cons c cs ih =>
      simp only [List.foldlM_cons, Option.bind_eq_bind, Option.bind_eq_some_iff] at h
      obtain ⟨t, ht, h⟩ := h
      cases c with
      | type ty readonly =>
          obtain ⟨vs, hvs, rfl⟩ := Setup.syncType_spec ht
          obtain ⟨us, hus, hled, hno⟩ := ih h (hs.replay (World.entitiesReadonly_type hvs))
          refine ⟨vs ++ us, ?_, by rw [hled, replay_append], hno⟩
          simp only [World.callVisits, hvs, Option.bind_eq_bind, Option.bind_some]
          rw [hus]
          rfl
      | entry g i readonly =>
          by_cases hg : (g, i) ∈ s.syncedEntry
          · obtain rfl : s = t := by simpa [call, Setup.syncEntry, hg] using ht
            obtain ⟨us, hus, hled, hno⟩ := ih h hs
            exact ⟨us, by rw [World.callVisits, if_pos hg, hus], hled, hno⟩
          · obtain ⟨vs, hvs, rfl⟩ := Setup.syncEntry_spec hg ht
            obtain ⟨us, hus, hled, hno⟩ := ih h (hs.replay (World.entitiesReadonly_entry hvs))
            refine ⟨vs ++ us, ?_, by rw [hled, replay_append], hno⟩
            simp only [World.callVisits, if_neg hg, hvs, Option.bind_eq_bind, Option.bind_some]
            rw [hus]
            rfl
      | entities g =>
          obtain rfl : s.syncEntities p live k g = t := by simpa [call] using ht
          rw [Setup.syncEntities_eq hs] at h
          have hread : ∀ v ∈ (if g ∈ p.keys then [⟨EntryId.entities g, true⟩] else []),
              EntitiesReadonly v := by
            intro v hv
            split at hv
            · rw [List.mem_singleton] at hv
              subst hv
              exact fun _ _ => rfl
            · simp at hv
          obtain ⟨us, hus, hled, hno⟩ := ih h (hs.replay hread)
          refine ⟨_ ++ us, ?_, by rw [hled, replay_append], hno⟩
          simp only [World.callVisits, Option.bind_eq_bind]
          rw [hus]
          rfl

/-- Setting up a pass replays the visits of its request. -/
theorem setup_spec {request : Request} {s : Ledger EntryId PassId}
    (h : p.setup live k request = some s) (hE : NoOwner p.entries) :
    ∃ vs, p.world.visits p.keys request = some vs ∧
      s = Ledger.replay EntryId.isResource live k vs { entries := p.entries } ∧
      NoOwner s.entries := by
  have hshared : ∀ sharedEntries, NoOwner
      (Setup.shared live k sharedEntries { entries := p.entries }).entries := by
    intro sharedEntries
    rw [Setup.shared_eq_replay]
    exact NoOwner.replay (World.entitiesReadonly_shared sharedEntries) hE
  cases request with
  | custom sharedEntries =>
      obtain rfl := Option.some.inj h
      exact ⟨_, rfl, Setup.shared_eq_replay _ _, hshared sharedEntries⟩
  | pass archetypes params changed sharedEntries =>
      simp only [setup, Option.bind_eq_bind, Option.bind_eq_some_iff] at h
      obtain ⟨cs, hcs, t, ht, h⟩ := h
      obtain rfl := Option.some.inj h
      obtain ⟨vs, hvs, hled, hno⟩ := foldlM_call_spec ht (hshared sharedEntries)
      refine ⟨World.sharedVisits sharedEntries ++ vs, ?_, ?_, hno⟩
      · simp only [World.visits, hcs, Option.bind_eq_bind, Option.bind_some]
        rw [hvs]
        rfl
      · rw [hled, Setup.shared_eq_replay, ← replay_append]

/-- What a call of `create_pass` or `create_custom_pass` does. -/
theorem create_spec {request : Request} (h : p.create request = some p')
    (hE : NoOwner p.entries) :
    ∃ vs, p.world.visits p.keys request = some vs ∧ NoOwner p'.entries ∧
      p' = { p with
        entries := (Ledger.replay EntryId.isResource
          (Function.update p.live p.passes.length true) p.passes.length vs
          { entries := p.entries }).entries
        passes := p.passes ++ [{
          request := request
          dependencies := (Ledger.replay EntryId.isResource
            (Function.update p.live p.passes.length true) p.passes.length vs
            { entries := p.entries }).dependencies }]
        live := Function.update p.live p.passes.length true } := by
  simp only [create, Option.bind_eq_bind, Option.bind_eq_some_iff, Option.some.injEq] at h
  obtain ⟨s, hs, rfl⟩ := h
  obtain ⟨vs, hvs, rfl, hno⟩ := setup_spec hs hE
  exact ⟨vs, hvs, hno, rfl⟩

/-! ## No pass depends on itself -/

end Pipeline

/-- A request that visits no entry twice, unless all visits of it are for reading. -/
def World.VisitsOnce (w : World) (keys : List ArchetypeId) (request : Request) : Prop :=
  ∃ vs, w.visits keys request = some vs ∧ vs.Pairwise Ledger.Compatible

namespace Pipeline

variable {w : World} {keys : List ArchetypeId}

/-- What holds in every run of a pipeline over the world `w`. -/
structure Sound (w : World) (keys : List ArchetypeId) (p : Pipeline) : Prop where
  sameWorld : p.world = w
  sameKeys : p.keys = keys
  noOwner : NoOwner p.entries
  within : Ledger.Within (fun t => t < p.passes.length)
    ({ entries := p.entries } : Ledger EntryId PassId)
  passes : ∀ (k : PassId) (pass : Pass), p.passes[k]? = some pass → ∃ vs,
    w.visits keys pass.request = some vs ∧ (∀ d ∈ pass.dependencies, d ≤ k) ∧
      (k ∈ pass.dependencies ↔ ¬ vs.Pairwise Ledger.Compatible)

theorem Sound.initial (w : World) (keys : List ArchetypeId) : Sound w keys (initial w keys) where
  sameWorld := rfl
  sameKeys := rfl
  noOwner _ := rfl
  within :=
    { owned := fun x t h => by simp [Pipeline.initial] at h
      shared := fun x t h => by simp [Pipeline.initial] at h
      dependencies := by simp }
  passes := by simp [Pipeline.initial]

theorem Sound.fresh {p : Pipeline} (h : Sound w keys p) : Ledger.Fresh p.passes.length p.entries :=
  fun x => ⟨fun ho => lt_irrefl _ (h.within.owned x _ ho),
    fun hs => lt_irrefl _ (h.within.shared x _ hs)⟩

theorem Sound.create {p p' : Pipeline} (h : Sound w keys p) {request : Request}
    (hc : p.create request = some p') : Sound w keys p' := by
  obtain ⟨vs, hvs, hno, rfl⟩ := create_spec hc h.noOwner
  have hwithin : Ledger.Within (fun t => t < p.passes.length + 1)
      (Ledger.replay EntryId.isResource (Function.update p.live p.passes.length true)
        p.passes.length vs { entries := p.entries }) := by
    have h0 : Ledger.Within (fun t => t < p.passes.length + 1)
        ({ entries := p.entries } : Ledger EntryId PassId) :=
      { owned := fun x t ht => Nat.lt_succ_of_lt (h.within.owned x t ht)
        shared := fun x t ht => Nat.lt_succ_of_lt (h.within.shared x t ht)
        dependencies := by simp }
    exact Ledger.Within.replay (P := fun t => t < p.passes.length + 1)
      (Nat.lt_succ_self p.passes.length) _ vs h0
  refine ⟨h.sameWorld, h.sameKeys, hno, ⟨fun x t ht => ?_, fun x t ht => ?_, by simp⟩, ?_⟩
  · rw [List.length_append]
    exact hwithin.owned x t ht
  · rw [List.length_append]
    exact hwithin.shared x t ht
  · intro k pass hk
    rcases lt_trichotomy k p.passes.length with hlt | rfl | hgt
    · rw [List.getElem?_append_left hlt] at hk
      exact h.passes k pass hk
    · rw [List.getElem?_concat_length, Option.some.injEq] at hk
      subst hk
      rw [h.sameWorld, h.sameKeys] at hvs
      exact ⟨vs, hvs, fun d hd => Nat.le_of_lt_succ (hwithin.dependencies d hd),
        Ledger.self_mem_replay_iff (Function.update_self ..) _ h.fresh vs⟩
    · rw [List.getElem?_eq_none (by rw [List.length_append]; exact hgt)] at hk
      simp at hk

theorem Sound.step {p p' : Pipeline} (hs : Step p p') (h : Sound w keys p) : Sound w keys p' := by
  cases hs with
  | create request hc => exact h.create hc
  | expire k => exact ⟨h.sameWorld, h.sameKeys, h.noOwner, h.within, h.passes⟩

/-- In every run, the recorded dependencies of a pass were all created before it
exactly when its request visits no entry twice other than for reading. -/
theorem dependencies_earlier_iff {p : Pipeline}
    (h : Relation.ReflTransGen Step (initial w keys) p) (k : PassId) (pass : Pass)
    (hk : p.passes[k]? = some pass) :
    (∀ d ∈ pass.dependencies, d < k) ↔ w.VisitsOnce keys pass.request := by
  have hsound := invariant_of_run (fun _ _ hs => Sound.step hs) h (Sound.initial w keys)
  obtain ⟨vs, hvs, hle, hself⟩ := hsound.passes k pass hk
  have honce : w.VisitsOnce keys pass.request ↔ vs.Pairwise Ledger.Compatible := by
    simp [World.VisitsOnce, hvs]
  rw [honce, ← not_iff_not, ← hself]
  constructor
  · intro hall
    push Not at hall
    obtain ⟨d, hd, hkd⟩ := hall
    exact Nat.le_antisymm (hle d hd) hkd ▸ hd
  · intro hd hall
    exact lt_irrefl k (hall k hd)

/-- Two component types, registered right after the built-in ones. -/
def twoTypes : Context :=
  let ctx := ((Context.initial false).registerType { guid := 10, size := 4, alignment := 4 }).1
  (ctx.registerType { guid := 11, size := 4, alignment := 4 }).1

/-- A world with the archetypes of the first type alone and of both types. -/
def twoArchetypes : Option World := do
  let (w, _) ← (World.initial 1 (fun _ => 0) (fun _ _ => 0) fun _ => []).getArchetype
    twoTypes { types := [4] }
  let (w, _) ← w.getArchetype twoTypes { types := [4, 5] }
  some w

/-- A pass that writes the first type with random access and matches both archetypes. -/
def randomWriter : Request := .pass [0, 1] [{ type := 4, randomAccess := true }] [] []

/-- The condition on a pass of the run that creates `randomWriter` first. -/
theorem dependencies_earlier_randomWriter : ∃ w p pass, twoArchetypes = some w ∧
    (initial w [0, 1]).create randomWriter = some p ∧ p.passes[0]? = some pass ∧
    ((∀ d ∈ pass.dependencies, d < 0) ↔ w.VisitsOnce [0, 1] pass.request) := by
  refine ⟨twoArchetypes.get (by decide +kernel), _, _, Option.some_get _ |>.symm,
    (Option.some_get (by decide +kernel)).symm, (Option.some_get (by decide +kernel)).symm, ?_⟩
  exact dependencies_earlier_iff
    (.single (.create randomWriter (Option.some_get (by decide +kernel)).symm)) 0 _
    (Option.some_get (by decide +kernel)).symm

/-- It meets the column of each archetype twice, and records itself. -/
theorem randomWriter_depends_on_itself : ∃ w p pass, twoArchetypes = some w ∧
    (initial w [0, 1]).create randomWriter = some p ∧ p.passes[0]? = some pass ∧
    ¬ ∀ d ∈ pass.dependencies, d < 0 := by
  refine ⟨twoArchetypes.get (by decide +kernel), _, _, Option.some_get _ |>.symm,
    (Option.some_get (by decide +kernel)).symm, (Option.some_get (by decide +kernel)).symm, ?_⟩
  decide +kernel

end Pipeline

end Dots

import Dots.Codebase.Dependency

/-!
# Conflicting passes are ordered

What a pass accesses is read off its request alone. The visits that register the
pass cover these accesses where the archetypes that own a random-access type come
first in `dependencyEntries` and where no column is synced for reading before it
is synced for writing. If moreover passes expire after the passes they depend on,
every pass is reachable from the later passes it conflicts with.
-/

namespace Dots

open Library

namespace World

variable (w : World) (keys : List ArchetypeId)

/-- The dependency entries a pass accesses, and whether for reading only. -/
inductive Accesses : Request → EntryId → Bool → Prop
  | customEntry {se : List SharedEntry} {i : SharedEntry} (h : i ∈ se) :
      Accesses (.custom se) (.resource i.entry) i.readonly
  | sharedEntry {gs : List ArchetypeId} {params : List Param} {changed : List TypeIndex}
      {se : List SharedEntry} {i : SharedEntry} (h : i ∈ se) :
      Accesses (.pass gs params changed se) (.resource i.entry) i.readonly
  /-- A random-access parameter may reach every archetype that owns its type. -/
  | randomParam {gs : List ArchetypeId} {params : List Param} {changed : List TypeIndex}
      {se : List SharedEntry} {q : Param} {g : ArchetypeId} {x : EntryId} (hgs : gs ≠ [])
      (hq : q ∈ params) (hr : q.randomAccess = true) (hg : g ∈ keys)
      (hx : w.ownedColumn q.type g = some x) :
      Accesses (.pass gs params changed se) x q.readonly
  /-- A local parameter, in a matched archetype that owns its type. -/
  | ownedParam {gs : List ArchetypeId} {params : List Param} {changed : List TypeIndex}
      {se : List SharedEntry} {q : Param} {g : ArchetypeId} {x : EntryId}
      (hq : q ∈ params) (hr : q.randomAccess = false) (hgs : g ∈ gs) (hg : g ∈ keys)
      (hx : w.ownedColumn q.type g = some x) :
      Accesses (.pass gs params changed se) x q.readonly
  /-- A parameter that a matched archetype shares through a meta entity. -/
  | metaParam {gs : List ArchetypeId} {params : List Param} {changed : List TypeIndex}
      {se : List SharedEntry} {q : Param} {g o : ArchetypeId} {a : Archetype} {x : EntryId}
      (hq : q ∈ params) (hr : q.randomAccess = false) (hgs : g ∈ gs)
      (ha : w.store.archetype g = some a) (hi : a.index q.type = invalidIndex)
      (ho : w.store.owningArchetype w.ents q.type g = some (some o)) (hg : o ∈ keys)
      (hx : w.ownedColumn q.type o = some x) :
      Accesses (.pass gs params changed se) x true
  | changedFilter {gs : List ArchetypeId} {params : List Param} {changed : List TypeIndex}
      {se : List SharedEntry} {t : TypeIndex} {g : ArchetypeId} {x : EntryId}
      (ht : t ∈ changed) (hgs : g ∈ gs) (hg : g ∈ keys) (hx : w.ownedColumn t g = some x) :
      Accesses (.pass gs params changed se) x true

/-- Two passes access one entry, and one of them writes it. -/
def Conflicting (r r' : Request) : Prop :=
  ∃ x b b', w.Accesses keys r x b ∧ w.Accesses keys r' x b' ∧ (b = false ∨ b' = false)

/-- The archetypes that own a type come before those that do not. -/
def OwnersFirst (t : TypeIndex) : Prop :=
  keys.Pairwise fun g g' => (w.ownedColumn t g').isSome → (w.ownedColumn t g).isSome

/-- A column synced for reading and then for writing: `syncedEntry` drops the
second call. -/
def WriteLost (c c' : SyncCall) : Prop :=
  ∃ g i, c = .entry g i true ∧ c' = .entry g i false ∧
    w.entryVisits keys g i false ≠ some []

/-- The requests whose visits cover their accesses. -/
def Covered : Request → Prop
  | .custom _ => True
  | .pass gs params changed _ =>
      (gs ≠ [] → ∀ q ∈ params, q.randomAccess = true → w.OwnersFirst keys q.type) ∧
        ∀ cs, w.calls gs params changed = some cs → cs.Pairwise fun c c' =>
          ¬ w.WriteLost keys c c'

variable {w keys}

/-- A visit at least as strong as an access. -/
def Covers (vs : List (Visit EntryId)) (x : EntryId) (readonly : Bool) : Prop :=
  ∃ v ∈ vs, v.entry = x ∧ (v.readonly = true → readonly = true)

theorem Covers.mono {vs us : List (Visit EntryId)} {x : EntryId} {b : Bool}
    (h : Covers vs x b) (hsub : vs ⊆ us) : Covers us x b := by
  obtain ⟨v, hv, hx⟩ := h
  exact ⟨v, hsub hv, hx⟩

theorem covers_shared {se : List SharedEntry} {i : SharedEntry} (h : i ∈ se) :
    Covers (sharedVisits se) (.resource i.entry) i.readonly :=
  ⟨_, List.mem_map_of_mem h, rfl, id⟩

/-- `sync_type` reaches every archetype that owns the type when they come first. -/
theorem covers_type {t : TypeIndex} {b : Bool} {gs : List ArchetypeId}
    (hfirst : gs.Pairwise fun g g' => (w.ownedColumn t g').isSome → (w.ownedColumn t g).isSome)
    {vs : List (Visit EntryId)} (h : w.typeVisits t b gs = some vs) {g : ArchetypeId}
    (hg : g ∈ gs) {x : EntryId} (hx : w.ownedColumn t g = some x) : Covers vs x b := by
  induction gs generalizing vs with
  | nil => simp at hg
  | cons g' gs ih =>
      obtain ⟨hhead, htail⟩ := List.pairwise_cons.mp hfirst
      have howns : (w.ownedColumn t g').isSome := by
        rcases List.mem_cons.mp hg with rfl | hg
        · simp [hx]
        · exact hhead g hg (by simp [hx])
      rw [typeVisits] at h
      cases ha : w.store.archetype g' with
      | none => simp [ha] at h
      | some a =>
          have hi : ¬ (a.index t ≥ a.firstTag ∨ a.index t = invalidIndex) := by
            intro hi
            simp [ownedColumn, ha, hi] at howns
          simp only [ha, Option.bind_eq_bind, Option.bind_some, if_neg hi] at h
          obtain ⟨us, hus, h⟩ := Option.bind_eq_some_iff.mp h
          obtain rfl : _ :: us = vs := by simpa using h
          rcases List.mem_cons.mp hg with rfl | hg
          · obtain rfl : EntryId.column g (a.index t) = x := by
              simpa [ownedColumn, ha, hi] using hx
            exact ⟨_, List.mem_cons_self, rfl, id⟩
          · exact (ih htail hus hg).mono (List.subset_cons_self _ _)

/-- The visit a call of `sync_entry` stands for, when it is not dropped. -/
theorem entryVisits_of_ownedColumn {t : TypeIndex} {g : ArchetypeId} {a : Archetype}
    {x : EntryId} (hg : g ∈ keys) (ha : w.store.archetype g = some a)
    (hx : w.ownedColumn t g = some x) (b : Bool) :
    w.entryVisits keys g (a.index t) b = some [⟨x, b⟩] := by
  by_cases hi : a.index t ≥ a.firstTag ∨ a.index t = invalidIndex
  · simp [ownedColumn, ha, hi] at hx
  · obtain rfl : EntryId.column g (a.index t) = x := by simpa [ownedColumn, ha, hi] using hx
    simp [entryVisits, hg, ha, hi]

/-- The calls of `sync_entry` are covered: the first call for an entry counts, and it
is one for writing if any is. -/
theorem covers_entry {cs : List SyncCall}
    (hlost : cs.Pairwise fun c c' => ¬ w.WriteLost keys c c')
    {synced : List (ArchetypeId × TypeIndex)} {vs : List (Visit EntryId)}
    (h : w.callVisits keys synced cs = some vs) {g : ArchetypeId} {i : TypeIndex} {b : Bool}
    (hc : SyncCall.entry g i b ∈ cs) (hs : (g, i) ∉ synced) {x : EntryId}
    (hx : ∀ b, w.entryVisits keys g i b = some [⟨x, b⟩]) : Covers vs x b := by
  induction cs generalizing synced vs with
  | nil => simp at hc
  | cons c cs ih =>
      obtain ⟨hhead, htail⟩ := List.pairwise_cons.mp hlost
      cases c with
      | type t b' =>
          simp only [callVisits, Option.bind_eq_bind, Option.bind_eq_some_iff] at h
          obtain ⟨us, -, rest, hrest, h⟩ := h
          obtain rfl : us ++ rest = vs := by simpa using h
          exact (ih htail hrest (by simpa using hc) hs).mono (List.subset_append_right _ _)
      | entities g' =>
          simp only [callVisits, Option.bind_eq_bind, Option.bind_eq_some_iff] at h
          obtain ⟨rest, hrest, h⟩ := h
          obtain rfl : _ ++ rest = vs := by simpa using h
          exact (ih htail hrest (by simpa using hc) hs).mono (List.subset_append_right _ _)
      | entry g' i' b' =>
          by_cases heq : (g', i') = (g, i)
          · obtain ⟨rfl, rfl⟩ := Prod.mk.injEq .. ▸ heq
            rw [callVisits, if_neg hs, hx b'] at h
            simp only [Option.bind_eq_bind, Option.bind_some, Option.bind_eq_some_iff] at h
            obtain ⟨rest, -, h⟩ := h
            obtain rfl : [⟨x, b'⟩] ++ rest = vs := by simpa using h
            refine ⟨_, List.mem_cons_self, rfl, fun hb' => ?_⟩
            by_contra hb
            have hb' : b' = true := hb'
            have hb : b = false := by simpa using hb
            subst hb hb'
            have hin : SyncCall.entry g' i' false ∈ cs := by simpa using hc
            exact hhead _ hin ⟨g', i', rfl, rfl, by simp [hx]⟩
          · have hc' : SyncCall.entry g i b ∈ cs := by
              rcases List.mem_cons.mp hc with hc | hc
              · exact absurd (by simp at hc; simp [hc]) heq
              · exact hc
            by_cases hsynced : (g', i') ∈ synced
            · rw [callVisits, if_pos hsynced] at h
              exact ih htail h hc' hs
            · rw [callVisits, if_neg hsynced] at h
              simp only [Option.bind_eq_bind, Option.bind_eq_some_iff] at h
              obtain ⟨us, -, rest, hrest, h⟩ := h
              obtain rfl : us ++ rest = vs := by simpa using h
              refine (ih htail hrest hc' ?_).mono (List.subset_append_right _ _)
              simpa [not_or] using
                ⟨fun h => by simpa [eq_comm] using fun h' => heq (by simp [h, h']), hs⟩

/-- The calls of `sync_type`. -/
theorem covers_typeCall {cs : List SyncCall} {synced : List (ArchetypeId × TypeIndex)}
    {vs : List (Visit EntryId)} (h : w.callVisits keys synced cs = some vs) {t : TypeIndex}
    {b : Bool} (hc : SyncCall.type t b ∈ cs) :
    ∃ us, w.typeVisits t b keys = some us ∧ us ⊆ vs := by
  induction cs generalizing synced vs with
  | nil => simp at hc
  | cons c cs ih =>
      cases c with
      | type t' b' =>
          simp only [callVisits, Option.bind_eq_bind, Option.bind_eq_some_iff] at h
          obtain ⟨us, hus, rest, hrest, h⟩ := h
          obtain rfl : us ++ rest = vs := by simpa using h
          rcases List.mem_cons.mp hc with hc | hc
          · obtain ⟨rfl, rfl⟩ : t = t' ∧ b = b' := by simpa using hc
            exact ⟨us, hus, List.subset_append_left _ _⟩
          · obtain ⟨us', hus', hsub⟩ := ih hrest hc
            exact ⟨us', hus', List.Subset.trans hsub (List.subset_append_right _ _)⟩
      | entities g' =>
          simp only [callVisits, Option.bind_eq_bind, Option.bind_eq_some_iff] at h
          obtain ⟨rest, hrest, h⟩ := h
          obtain rfl : _ ++ rest = vs := by simpa using h
          obtain ⟨us', hus', hsub⟩ := ih hrest (by simpa using hc)
          exact ⟨us', hus', List.Subset.trans hsub (List.subset_append_right _ _)⟩
      | entry g' i' b' =>
          have hc : SyncCall.type t b ∈ cs := by simpa using hc
          by_cases hsynced : (g', i') ∈ synced
          · rw [callVisits, if_pos hsynced] at h
            exact ih h hc
          · rw [callVisits, if_neg hsynced] at h
            simp only [Option.bind_eq_bind, Option.bind_eq_some_iff] at h
            obtain ⟨us, -, rest, hrest, h⟩ := h
            obtain rfl : us ++ rest = vs := by simpa using h
            obtain ⟨us', hus', hsub⟩ := ih hrest hc
            exact ⟨us', hus', List.Subset.trans hsub (List.subset_append_right _ _)⟩

/-! ## The calls of a pass -/

theorem archetypeCalls_subset {gs : List ArchetypeId} {params : List Param}
    {changed : List TypeIndex} {cs : List SyncCall} (h : w.calls gs params changed = some cs)
    {g : ArchetypeId} (hg : g ∈ gs) :
    ∃ us, w.archetypeCalls params changed g = some us ∧ us ⊆ cs := by
  obtain ⟨uss, huss, rfl⟩ := Option.map_eq_some_iff.mp h
  obtain ⟨us, hus, hgus⟩ := mem_of_mapM huss hg
  exact ⟨us, hgus, fun c hc => List.mem_flatten_of_mem hus hc⟩

theorem mem_calls_param {gs : List ArchetypeId} {params : List Param}
    {changed : List TypeIndex} {cs : List SyncCall} (h : w.calls gs params changed = some cs)
    {g : ArchetypeId} (hg : g ∈ gs) {q : Param} (hq : q ∈ params) :
    ∃ a, w.store.archetype g = some a ∧ ∃ oc, w.paramCall g a q = some oc ∧
      ∀ c, oc = some c → c ∈ cs := by
  obtain ⟨us, hus, hsub⟩ := archetypeCalls_subset h hg
  simp only [archetypeCalls, Option.bind_eq_bind, Option.bind_eq_some_iff] at hus
  obtain ⟨a, ha, ps, hps, hus⟩ := hus
  obtain rfl := Option.some.inj hus
  obtain ⟨oc, hoc, hcall⟩ := mem_of_mapM hps hq
  refine ⟨a, ha, oc, hcall, ?_⟩
  rintro c rfl
  exact hsub (List.mem_append_left _ (List.reduceOption_mem_iff.mpr hoc))

theorem mem_calls_changed {gs : List ArchetypeId} {params : List Param}
    {changed : List TypeIndex} {cs : List SyncCall} (h : w.calls gs params changed = some cs)
    {g : ArchetypeId} (hg : g ∈ gs) {t : TypeIndex} (ht : t ∈ changed) :
    ∃ a, w.store.archetype g = some a ∧ SyncCall.entry g (a.index t) true ∈ cs := by
  obtain ⟨us, hus, hsub⟩ := archetypeCalls_subset h hg
  simp only [archetypeCalls, Option.bind_eq_bind, Option.bind_eq_some_iff] at hus
  obtain ⟨a, ha, ps, hps, hus⟩ := hus
  obtain rfl := Option.some.inj hus
  refine ⟨a, ha, hsub (List.mem_append_right _ (List.mem_cons_of_mem _ ?_))⟩
  exact List.mem_map.mpr ⟨t, ht, rfl⟩

/-- The visits of a covered request cover its accesses. -/
theorem covers_of_accesses {r : Request} {x : EntryId} {b : Bool} (hcov : w.Covered keys r)
    {vs : List (Visit EntryId)} (hvs : w.visits keys r = some vs) (h : w.Accesses keys r x b) :
    Covers vs x b := by
  cases r with
  | custom se =>
      obtain rfl := Option.some.inj hvs
      cases h with
      | customEntry h => exact covers_shared h
  | pass gs params changed se =>
      simp only [visits, Option.bind_eq_bind, Option.bind_eq_some_iff] at hvs
      obtain ⟨cs, hcs, us, hus, h'⟩ := hvs
      obtain rfl := Option.some.inj h'
      obtain ⟨hfirst, hlost⟩ := hcov
      have hright : us ⊆ sharedVisits se ++ us := List.subset_append_right _ _
      cases h with
      | sharedEntry h => exact (covers_shared h).mono (List.subset_append_left _ _)
      | @randomParam _ _ _ _ q g _ hgs hq hr hg hx =>
          obtain ⟨g', hg'⟩ := List.exists_mem_of_ne_nil gs hgs
          obtain ⟨a, -, oc, hcall, hmem⟩ := mem_calls_param hcs hg' hq
          rw [paramCall, if_pos hr] at hcall
          obtain rfl := Option.some.inj hcall
          obtain ⟨ts, hts, hsub⟩ := covers_typeCall hus (hmem _ rfl)
          exact (covers_type (hfirst hgs q hq hr) hts hg hx).mono (List.Subset.trans hsub hright)
      | @ownedParam _ _ _ _ q g _ hq hr hgs hg hx =>
          obtain ⟨a, ha, oc, hcall, hmem⟩ := mem_calls_param hcs hgs hq
          have hi : a.index q.type ≠ invalidIndex := by
            intro hi
            simp [ownedColumn, ha, hi] at hx
          simp only [paramCall, hr, Bool.false_eq_true, if_false, if_neg hi] at hcall
          obtain rfl := Option.some.inj hcall
          exact (covers_entry (hlost cs hcs) hus (hmem _ rfl) (by simp)
            (entryVisits_of_ownedColumn hg ha hx)).mono hright
      | @metaParam _ _ _ _ q g o a _ hq hr hgs ha hi ho hg hx =>
          obtain ⟨a', ha', oc, hcall, hmem⟩ := mem_calls_param hcs hgs hq
          obtain rfl : a = a' := by simpa using ha.symm.trans ha'
          simp only [paramCall, hr, Bool.false_eq_true, if_false, if_pos hi, ho,
            Option.bind_eq_bind, Option.bind_some] at hcall
          obtain ⟨owner, howner, hcall⟩ := Option.bind_eq_some_iff.mp hcall
          obtain rfl := Option.some.inj hcall
          exact (covers_entry (hlost cs hcs) hus (hmem _ rfl) (by simp)
            (entryVisits_of_ownedColumn hg howner hx)).mono hright
      | @changedFilter _ _ _ _ t g _ ht hgs hg hx =>
          obtain ⟨a, ha, hmem⟩ := mem_calls_changed hcs hgs ht
          exact (covers_entry (hlost cs hcs) hus hmem (by simp)
            (entryVisits_of_ownedColumn hg ha hx)).mono hright

theorem conflict_of_covers {r r' : Request} {vs vs' : List (Visit EntryId)}
    (hr : w.Covered keys r) (hr' : w.Covered keys r') (hvs : w.visits keys r = some vs)
    (hvs' : w.visits keys r' = some vs') (h : w.Conflicting keys r r') :
    Ledger.Conflict vs vs' := by
  obtain ⟨x, b, b', hb, hb', hw⟩ := h
  obtain ⟨v, hv, hvx, hvb⟩ := covers_of_accesses hr hvs hb
  obtain ⟨v', hv', hvx', hvb'⟩ := covers_of_accesses hr' hvs' hb'
  refine ⟨v, hv, v', hv', hvx.trans hvx'.symm, hw.imp (fun hw => ?_) fun hw => ?_⟩
  · by_contra hne
    exact absurd (hvb (by simpa using hne)) (by simp [hw])
  · by_contra hne
    exact absurd (hvb' (by simpa using hne)) (by simp [hw])

end World

/-! ## Runs -/

namespace Pipeline

variable {w : World} {keys : List ArchetypeId} {p p' : Pipeline}

/-- The visits of a pass. -/
def log (p : Pipeline) (k : PassId) : List (Visit EntryId) :=
  match p.passes[k]? with
  | some pass => (p.world.visits p.keys pass.request).getD []
  | none => []

/-- The steps that create passes whose visits cover their accesses, and that let
passes expire only after the passes they depend on. -/
inductive CarefulStep : Pipeline → Pipeline → Prop
  | create {p p' : Pipeline} (request : Request) (h : p.create request = some p')
      (hcov : p.world.Covered p.keys request) : CarefulStep p p'
  | expire (p : Pipeline) (k : PassId)
      (hdeps : ∀ d ∈ p.dependencies k, d ≠ k → p.live d = false) : CarefulStep p (p.expire k)

/-- What holds in every run of such steps. -/
structure InOrder (w : World) (keys : List ArchetypeId) (p : Pipeline) : Prop where
  sound : Sound w keys p
  covered : ∀ pass ∈ p.passes, w.Covered keys pass.request
  ordered : Ledger.Ordered p.dependencies p.live p.log p.entries
  reach : ∀ a b, a < b → p.live a = true → Ledger.Conflict (p.log a) (p.log b) →
    Ledger.Reach p.dependencies b a

theorem InOrder.initial (w : World) (keys : List ArchetypeId) :
    InOrder w keys (initial w keys) where
  sound := Sound.initial w keys
  covered := by simp [Pipeline.initial]
  ordered := by
    have hd : (Pipeline.initial w keys).dependencies = fun _ => [] := rfl
    have hl : (Pipeline.initial w keys).log = fun _ => [] := rfl
    rw [hd, hl]
    exact Ledger.Ordered.initial _
  reach := by
    rintro a b - - ⟨v, hv, -⟩
    simp [log, Pipeline.initial] at hv

theorem dependencies_eq_nil (hk : p.passes.length ≤ k) : p.dependencies k = [] := by
  simp [dependencies, List.getElem?_eq_none hk]

theorem log_eq_nil (hk : p.passes.length ≤ k) : p.log k = [] := by
  simp [log, List.getElem?_eq_none hk]

theorem getElem?_concat_ne {α : Type*} {l : List α} {a : α} {k : Nat} (hk : k ≠ l.length) :
    (l ++ [a])[k]? = l[k]? := by
  rcases Nat.lt_or_ge k l.length with hlt | hge
  · rw [List.getElem?_append_left hlt]
  · rw [List.getElem?_eq_none (by simp; omega), List.getElem?_eq_none hge]

/-- No pass depends on one that is not created yet. -/
theorem Sound.not_mem_dependencies (h : Sound w keys p) (a : PassId) :
    p.passes.length ∉ p.dependencies a := by
  intro hd
  unfold dependencies at hd
  split at hd
  · rename_i pass ha
    obtain ⟨_, -, hle, -⟩ := h.passes a pass ha
    have hlt := (List.getElem?_eq_some_iff.mp ha).1
    exact absurd (lt_of_lt_of_le hlt (hle _ hd)) (lt_irrefl a)
  · simp at hd

theorem InOrder.create (h : InOrder w keys p) {request : Request}
    (hc : p.create request = some p') (hcov : p.world.Covered p.keys request) :
    InOrder w keys p' := by
  have hsound' := h.sound.create hc
  obtain ⟨vs, hvs, -, hp'⟩ := create_spec hc h.sound.noOwner
  have hreg := (h.ordered.revive h.sound.fresh h.sound.not_mem_dependencies
    (log_eq_nil le_rfl)).register (Function.update_self ..) (dependencies_eq_nil le_rfl)
    (log_eq_nil le_rfl) EntryId.isResource vs
  have hdeps : p'.dependencies = Function.update p.dependencies p.passes.length
      (Ledger.replay EntryId.isResource (Function.update p.live p.passes.length true)
        p.passes.length vs { entries := p.entries }).dependencies := by
    funext k
    by_cases hk : k = p.passes.length
    · subst hk
      simp [dependencies, hp']
    · rw [Function.update_of_ne hk]
      simp only [dependencies, hp', getElem?_concat_ne hk]
  have hlog : p'.log = Function.update p.log p.passes.length vs := by
    funext k
    by_cases hk : k = p.passes.length
    · subst hk
      simp [log, hp', hvs]
    · rw [Function.update_of_ne hk]
      simp only [log, hp', getElem?_concat_ne hk]
  have hmono : ∀ a, p.dependencies a ⊆ p'.dependencies a := by
    intro a
    rw [hdeps]
    by_cases ha : a = p.passes.length
    · subst ha
      simp [dependencies_eq_nil (p := p) le_rfl]
    · simp [ha]
  refine ⟨hsound', ?_, ?_, ?_⟩
  · rw [hp']
    intro pass hpass
    rcases List.mem_append.mp hpass with hpass | hpass
    · exact h.covered pass hpass
    · rw [List.mem_singleton] at hpass
      subst hpass
      rw [h.sound.sameWorld, h.sound.sameKeys] at hcov
      exact hcov
  · rw [hdeps, hlog]
    have hrest : p'.live = Function.update p.live p.passes.length true ∧
        p'.entries = (Ledger.replay EntryId.isResource
          (Function.update p.live p.passes.length true) p.passes.length vs
          { entries := p.entries }).entries := by
      rw [hp']
      exact ⟨rfl, rfl⟩
    rw [hrest.1, hrest.2]
    exact hreg.ordered
  · intro a b hab ha hconf
    have hlive : p'.live = Function.update p.live p.passes.length true := by rw [hp']
    rw [hlive] at ha
    rw [hlog] at hconf
    rcases lt_trichotomy b p.passes.length with hb | rfl | hb
    · have han : a ≠ p.passes.length := (lt_trans hab hb).ne
      rw [Function.update_of_ne han] at ha hconf
      rw [Function.update_of_ne hb.ne] at hconf
      exact (h.reach a b hab ha hconf).mono hmono
    · rw [hdeps]
      rw [Function.update_of_ne hab.ne, Function.update_self] at hconf
      exact hreg.reach a hab.ne ha hconf
    · rw [Function.update_of_ne hb.ne', log_eq_nil hb.le] at hconf
      obtain ⟨-, -, v, hv, -⟩ := hconf
      simp at hv

theorem InOrder.step (hs : CarefulStep p p') (h : InOrder w keys p) : InOrder w keys p' := by
  cases hs with
  | create request hc hcov => exact h.create hc hcov
  | expire k hdeps =>
      refine ⟨Sound.step (.expire p k) h.sound, h.covered, h.ordered.expire hdeps, ?_⟩
      intro a b hab ha hconf
      refine h.reach a b hab ?_ hconf
      by_cases hak : a = k
      · simp [expire, hak] at ha
      · simpa [expire, hak] using ha

/-- In every run of such steps, a live pass is reachable from every later pass that
conflicts with it. -/
theorem reach_of_conflicting (h : Relation.ReflTransGen CarefulStep (initial w keys) p)
    {a b : PassId} {passA passB : Pass} (ha : p.passes[a]? = some passA)
    (hb : p.passes[b]? = some passB) (hab : a < b) (hlive : p.live a = true)
    (hconf : w.Conflicting keys passA.request passB.request) :
    Ledger.Reach p.dependencies b a := by
  have hin := invariant_of_run (fun _ _ hs => InOrder.step hs) h (InOrder.initial w keys)
  obtain ⟨vs, hvs, -⟩ := hin.sound.passes a passA ha
  obtain ⟨us, hus, -⟩ := hin.sound.passes b passB hb
  have hlogA : p.log a = vs := by simp [log, ha, hin.sound.sameWorld, hin.sound.sameKeys, hvs]
  have hlogB : p.log b = us := by simp [log, hb, hin.sound.sameWorld, hin.sound.sameKeys, hus]
  refine hin.reach a b hab hlive ?_
  rw [hlogA, hlogB]
  exact World.conflict_of_covers (hin.covered _ (List.mem_of_getElem? ha))
    (hin.covered _ (List.mem_of_getElem? hb)) hvs hus hconf

/-- Two passes that write the second type on the second archetype, the second one of
them with random access or not. -/
def writers (randomAccess : Bool) : Request × Request :=
  (.pass [1] [{ type := 5 }] [] [], .pass [1] [{ type := 5, randomAccess := randomAccess }] [] [])

/-- Both passes can be created. The second records the first only when it writes
locally: with random access it stops at the archetype without its type. -/
theorem twoWriters_spec (randomAccess : Bool) : ∃ w p p', twoArchetypes = some w ∧
    (initial w [0, 1]).create (writers randomAccess).1 = some p ∧
    p.create (writers randomAccess).2 = some p' ∧
    w.ownedColumn 5 1 = some (.column 1 1) ∧
    w.calls [1] [{ type := 5 }] [] = some [.entry 1 1 false, .entities 1] ∧
    p'.live 0 = true ∧ p'.dependencies 1 = if randomAccess then [] else [0] := by
  cases randomAccess with
  | false =>
      exact ⟨twoArchetypes.get (by decide +kernel), _, _, Option.some_get _ |>.symm,
        (Option.some_get (by decide +kernel)).symm, (Option.some_get (by decide +kernel)).symm,
        by decide +kernel, by decide +kernel, by decide +kernel, by decide +kernel⟩
  | true =>
      exact ⟨twoArchetypes.get (by decide +kernel), _, _, Option.some_get _ |>.symm,
        (Option.some_get (by decide +kernel)).symm, (Option.some_get (by decide +kernel)).symm,
        by decide +kernel, by decide +kernel, by decide +kernel, by decide +kernel⟩

theorem conflicting_writers {w : World} (h : w.ownedColumn 5 1 = some (.column 1 1))
    (randomAccess : Bool) :
    w.Conflicting [0, 1] (writers randomAccess).1 (writers randomAccess).2 := by
  refine ⟨.column 1 1, false, false, ?_, ?_, Or.inl rfl⟩
  · exact .ownedParam (q := { type := 5 }) (g := 1) (by simp) rfl (by simp) (by simp) h
  · cases randomAccess with
    | false =>
        exact .ownedParam (q := { type := 5 }) (g := 1) (by simp) rfl (by simp) (by simp) h
    | true =>
        exact .randomParam (q := { type := 5, randomAccess := true }) (g := 1) (by simp)
          (by simp) rfl (by simp) h

theorem covered_writer {w : World}
    (h : w.calls [1] [{ type := 5 }] [] = some [.entry 1 1 false, .entities 1]) :
    w.Covered [0, 1] (.pass [1] [{ type := 5 }] [] []) := by
  refine ⟨by simp, fun cs hcs => ?_⟩
  obtain rfl := Option.some.inj (h.symm.trans hcs)
  simp [World.WriteLost]

theorem create_request {request : Request} (h : p.create request = some p') :
    p'.world = p.world ∧ p'.keys = p.keys ∧
      ∃ ds, p'.passes = p.passes ++ [{ request := request, dependencies := ds }] := by
  simp only [create, Option.bind_eq_bind, Option.bind_eq_some_iff, Option.some.injEq] at h
  obtain ⟨s, -, rfl⟩ := h
  exact ⟨rfl, rfl, _, rfl⟩

/-- The later one of two local writers reaches the earlier one. -/
theorem reach_twoWriters : ∃ w p p', twoArchetypes = some w ∧
    (initial w [0, 1]).create (writers false).1 = some p ∧
    p.create (writers false).2 = some p' ∧ Ledger.Reach p'.dependencies 1 0 := by
  obtain ⟨w, p, p', hw, hp, hp', hcol, hcalls, hlive, -⟩ := twoWriters_spec false
  obtain ⟨hworld, hkeys, ds, hpasses⟩ := create_request hp
  obtain ⟨-, -, ds', hpasses'⟩ := create_request hp'
  refine ⟨w, p, p', hw, hp, hp', ?_⟩
  rw [hpasses] at hpasses'
  refine reach_of_conflicting
    (.tail (.single (.create _ hp (covered_writer hcalls))) (.create _ hp' ?_))
    (a := 0) (b := 1) (by rw [hpasses']; rfl) (by rw [hpasses']; rfl) (by decide) hlive
    (conflicting_writers hcol false)
  rw [hworld, hkeys]
  exact covered_writer hcalls

/-- With random access the later writer is not ordered after the earlier one, though
both are live and write the same column. -/
theorem not_reach_twoWriters : ∃ w p p', twoArchetypes = some w ∧
    Relation.ReflTransGen Step (initial w [0, 1]) p ∧ Relation.ReflTransGen Step p p' ∧
    ∃ passA passB, p'.passes[0]? = some passA ∧ p'.passes[1]? = some passB ∧
      p'.live 0 = true ∧ w.Conflicting [0, 1] passA.request passB.request ∧
      ¬ Ledger.Reach p'.dependencies 1 0 := by
  obtain ⟨w, p, p', hw, hp, hp', hcol, -, hlive, hdeps⟩ := twoWriters_spec true
  obtain ⟨-, -, ds, hpasses⟩ := create_request hp
  obtain ⟨-, -, ds', hpasses'⟩ := create_request hp'
  rw [hpasses] at hpasses'
  refine ⟨w, p, p', hw, .single (.create _ hp), .single (.create _ hp'), _, _,
    by rw [hpasses']; rfl, by rw [hpasses']; rfl, hlive, conflicting_writers hcol true, ?_⟩
  intro hreach
  rcases Relation.ReflTransGen.cases_head hreach with h | ⟨c, hc, -⟩
  · exact absurd h (by decide)
  · simp [hdeps] at hc

end Pipeline

end Dots

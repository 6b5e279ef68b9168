import Dots.Database.Renewed
import Dots.Database.Serialize
import Dots.Library.Ordered

/-!
# `world::diff_context`

The entities of two worlds are paired by their guids. The slices that are reported are
modelled, with every guid that is read for them; the bytes stored for a slice are not.
-/

namespace Dots

open Library Entities

/-- `std::map<GUID, entity>`. -/
abbrev EntityMap := OrderedMap GUID Entity

/-- The slices of a `world_delta`. A changed slice comes with the one of the base. -/
structure WorldDelta where
  changed : List (ChunkSlice × ChunkSlice) := []
  created : List ChunkSlice := []
  destroyed : List Entity := []

namespace Store

/-- The walk along `next`. -/
def chunksFrom (st : Store) : Nat → Option ChunkId → Option (List ChunkId)
  | 0, _ => none
  | _ + 1, none => some []
  | fuel + 1, some c => (chunksFrom st fuel (st.links.next c)).map (c :: ·)

end Store

namespace World

/-- `guids[j]` of a chunk; what is behind its entities is not to be read. -/
def guidAt (w : World) (c : ChunkId) (a : Archetype) (l j : Nat) : Option GUID :=
  if j < w.store.count c then
    some (Mem.ofBytes (Mem.read (w.memory.data c) (a.address (w.store.ct c) l j) 16).reverse)
  else none

/-- The loop over the entities of a chunk of the base. -/
def insertGuids (base : World) (c : ChunkId) (a : Archetype) (l : Nat) (m : EntityMap) :
    Option EntityMap :=
  (List.range (base.store.count c)).foldlM (fun m i => do
    let k ← base.guidAt c a l i
    some (m.insert k (base.memory.entityAt c i))) m

/-- The walk over the chunks of an archetype, if it has guids. -/
def overChunks {σ : Type} (guidId : TypeIndex) (fuel : Nat) (w : World)
    (f : ChunkId → Archetype → Nat → σ → Option σ) (s : σ) (g : ArchetypeId) : Option σ := do
  let a ← w.store.archetype g
  let l := a.index guidId
  if l = invalidIndex then some s
  else do
    let chunks ← w.store.chunksFrom fuel (w.store.firstChunk g)
    chunks.foldlM (fun s c => f c a l s) s

/-- The loop over the archetypes, for both worlds. -/
def overGuids {σ : Type} (guidId : TypeIndex) (fuel : Nat) (w : World)
    (f : ChunkId → Archetype → Nat → σ → Option σ) (s : σ) : Option σ :=
  w.store.archetypes.foldlM (overChunks guidId fuel w f) s

/-- The loop that extends a run of entities that are in both worlds. -/
def matchRun (w : World) (c : ChunkId) (a : Archetype) (l : Nat) (base : World) (baseC : ChunkId) :
    Nat → Nat → Nat → EntityMap → Option (Nat × Nat × EntityMap)
  | 0, _, _, _ => none
  | fuel + 1, i, j, m =>
      if i < base.store.count baseC ∧ j < w.store.count c then do
        let k ← w.guidAt c a l j
        match m.find? k with
        | none => some (i, j, m)
        | some e =>
            if base.memory.entityAt baseC i ≠ e then some (i, j, m)
            else matchRun w c a l base baseC fuel (i + 1) (j + 1) (m.erase k)
      else some (i, j, m)

/-- `while (entityMap.find(guids[++i]) == entityMap.end());` -/
def newRun (w : World) (c : ChunkId) (a : Archetype) (l : Nat) (m : EntityMap) :
    Nat → Nat → Option Nat
  | 0, _ => none
  | fuel + 1, i => do
      let k ← w.guidAt c a l (i + 1)
      if (m.find? k).isNone then newRun w c a l m fuel (i + 1) else some (i + 1)

/-- A slice of entities that are in both worlds, `iter` at the first. `iter->second` is read
after `iter` was erased: `erased` is what is found there, which may be anything. The handle that
is found is the index into the entity table, and the start of the base slice is subtracted from
the end of the new one. -/
def changedSlice (erased : Entity → Option Entity) (base w : World) (c : ChunkId) (a : Archetype)
    (l start : Nat) (k : GUID) (e : Entity) (m : EntityMap) :
    Option (ChunkSlice × ChunkSlice × EntityMap) := do
  let e ← erased e
  let baseE := base.ents.datas e.value
  match if e.value < base.ents.size then baseE.c else .raw with
  | .chunk baseC =>
      (matchRun w c a l base baseC (w.store.count c) (baseE.i + 1) (start + 1) (m.erase k)).bind
        fun (i, j, m) =>
          if start + sub32 j baseE.i ≤ w.store.count c then
            some ({ c := c, start := start, count := sub32 j baseE.i },
              { c := baseC, start := baseE.i, count := sub32 i baseE.i }, m)
          else none
  | _ => none

/-- The loop over the slices of a chunk. -/
def diffChunk (erased : Entity → Option Entity) (base w : World) (c : ChunkId) (a : Archetype)
    (l : Nat) : Nat → Nat → EntityMap × WorldDelta → Option (EntityMap × WorldDelta)
  | 0, _, _ => none
  | fuel + 1, start, (m, wd) =>
      if start = w.store.count c then some (m, wd)
      else do
        let k ← w.guidAt c a l start
        match m.find? k with
        | some e => do
            let (s, baseS, m) ← changedSlice erased base w c a l start k e m
            diffChunk erased base w c a l fuel (start + s.count)
              (m, { wd with changed := wd.changed ++ [(s, baseS)] })
        | none => do
            let i ← newRun w c a l m (w.store.count c) start
            diffChunk erased base w c a l fuel i
              (m, { wd with
                created := wd.created ++ [{ c := c, start := start, count := i - start }] })

/-- `world::diff_context`. -/
def diffContext (guidId : TypeIndex) (erased : Entity → Option Entity) (fuel : Nat)
    (w base : World) : Option WorldDelta := do
  let m ← base.overGuids guidId fuel base.insertGuids .empty
  let (m, wd) ← w.overGuids guidId fuel
    (fun c a l => diffChunk erased base w c a l fuel 0) (m, {})
  some { wd with destroyed := m.entries.map Prod.snd }

/-! ## What a difference is -/

/-- The guid of the entity in a slot. -/
def guidOf (guidId : TypeIndex) (w : World) (c : ChunkId) (i : Nat) : Option GUID := do
  let (_, a) ← w.archetypeOf c
  w.guidAt c a (a.index guidId) i

/-- Every entity has a guid, and no two have the same. -/
structure HasGuids (guidId : TypeIndex) (w : World) : Prop where
  owned : ∀ c i g a, w.store.Occupied c i → w.archetypeOf c = some (g, a) →
    a.index guidId ≠ invalidIndex
  unique : ∀ c i d j, w.store.Occupied c i → w.store.Occupied d j →
    w.guidOf guidId c i = w.guidOf guidId d j → c = d ∧ i = j

/-- Some entity has the guid `k`. -/
def HoldsGuid (guidId : TypeIndex) (w : World) (k : GUID) : Prop :=
  ∃ c i, w.store.Occupied c i ∧ w.guidOf guidId c i = some k

/-- The slices classify the entities of both worlds by their guids. -/
structure IsDelta (guidId : TypeIndex) (w base : World) (wd : WorldDelta) : Prop where
  created : ∀ c i, (∃ s ∈ wd.created, Slots.of s c i) ↔
    w.store.Occupied c i ∧ ∀ k, w.guidOf guidId c i = some k → ¬ base.HoldsGuid guidId k
  changed : ∀ c i, (∃ p ∈ wd.changed, Slots.of p.1 c i) ↔
    w.store.Occupied c i ∧ ∃ k, w.guidOf guidId c i = some k ∧ base.HoldsGuid guidId k
  once : (wd.created ++ wd.changed.map Prod.fst).Pairwise fun s t =>
    ∀ c i, Slots.of s c i → ¬ Slots.of t c i
  paired : ∀ p ∈ wd.changed, p.1.count = p.2.count ∧ ∀ j < p.1.count,
    base.store.Occupied p.2.c (p.2.start + j) ∧
      base.guidOf guidId p.2.c (p.2.start + j) = w.guidOf guidId p.1.c (p.1.start + j)
  destroyed : ∀ e, e ∈ wd.destroyed ↔ ∃ c i, base.store.Occupied c i ∧
    base.memory.entityAt c i = e ∧
      ∀ k, base.guidOf guidId c i = some k → ¬ w.HoldsGuid guidId k

variable {ctx : Context} {guidId : TypeIndex} {w base : World} {g : ArchetypeId} {a : Archetype}
  {c : ChunkId} {i l fuel : Nat} {m : EntityMap} {erased : Entity → Option Entity}

/-! ## The walks -/

theorem chunksFrom_eq_some {st : Store} {p : Option ChunkId} {cs : List ChunkId} :
    st.chunksFrom fuel p = some cs ↔ Links.Path st.links.next p cs ∧ cs.length < fuel := by
  induction fuel generalizing p cs with
  | zero => simp [Store.chunksFrom]
  | succ fuel ih =>
      cases p with
      | none =>
          rw [Store.chunksFrom, Option.some.injEq]
          cases cs with
          | nil => simp [Links.Path]
          | cons c cs => simp [Links.Path]
      | some d =>
          rw [Store.chunksFrom, Option.map_eq_some_iff]
          constructor
          · rintro ⟨cs, hrest, rfl⟩
            obtain ⟨hpath, hlen⟩ := ih.mp hrest
            exact ⟨⟨rfl, hpath⟩, Nat.succ_lt_succ hlen⟩
          · rintro ⟨hpath, hlen⟩
            cases cs with
            | nil => exact absurd hpath (Option.some_ne_none d)
            | cons c cs =>
                obtain ⟨hhead, hrest⟩ := hpath
                obtain rfl := Option.some.inj hhead
                exact ⟨cs, ih.mpr ⟨hrest, Nat.lt_of_succ_lt_succ hlen⟩, rfl⟩

/-- The chunks of an archetype are what the walk finds. -/
theorem exists_chunks {st : Store} (hl : st.Listed ctx) (ha : st.archetype g = some a) :
    ∃ cs, (∀ c, c ∈ cs ↔ st.type c = some g) ∧
      ∀ fuel, (st.freshChunk < fuel → st.chunksFrom fuel (st.firstChunk g) = some cs) ∧
        ∀ ds, st.chunksFrom fuel (st.firstChunk g) = some ds → ds = cs := by
  obtain ⟨fulls, frees, hch⟩ := hl.chain g a ha
  refine ⟨fulls ++ frees, hch.mem, fun fuel => ⟨fun hfuel => ?_, fun ds hds => ?_⟩⟩
  · refine chunksFrom_eq_some.mpr ⟨hch.spans.1, ?_⟩
    have hsub : fulls ++ frees ⊆ List.range st.freshChunk := by
      intro c hc
      rw [List.mem_range]
      by_contra hge
      have htype := (hch.mem c).mp hc
      rw [hl.fresh c (Nat.not_lt.mp hge)] at htype
      exact absurd htype (Option.some_ne_none g).symm
    have hnd : (fulls ++ frees).Nodup := hch.spans.1.nodup
    have hle := (List.subperm_of_subset hnd hsub).length_le
    rw [List.length_range] at hle
    exact hle.trans_lt hfuel
  · exact (chunksFrom_eq_some.mp hds).1.unique hch.spans.1

/-- The chunks of some archetypes that have guids, in the order in which the two loops come by
them. -/
structure Visited (guidId : TypeIndex) (w : World) (gs : List ArchetypeId)
    (todo : List (Archetype × ChunkId)) : Prop where
  mem : ∀ a c, (a, c) ∈ todo ↔
    (∃ g ∈ gs, w.archetypeOf c = some (g, a)) ∧ a.index guidId ≠ invalidIndex
  runs : ∀ {σ : Type} (f : ChunkId → Archetype → Nat → σ → Option σ) (fuel : Nat) (s : σ),
    w.store.freshChunk < fuel → gs.foldlM (overChunks guidId fuel w f) s =
      todo.foldlM (fun s p => f p.2 p.1 (p.1.index guidId) s) s
  returns : ∀ {σ : Type} (f : ChunkId → Archetype → Nat → σ → Option σ) (fuel : Nat) (s s' : σ),
    gs.foldlM (overChunks guidId fuel w f) s = some s' →
      todo.foldlM (fun s p => f p.2 p.1 (p.1.index guidId) s) s = some s'

theorem Visited.nil (guidId : TypeIndex) (w : World) : Visited guidId w [] [] where
  mem a c := by simp
  runs f fuel s _ := rfl
  returns f fuel s s' hs := hs

/-- An archetype without guids is passed over. -/
theorem Visited.skip {gs : List ArchetypeId} {todo : List (Archetype × ChunkId)}
    (h : Visited guidId w gs todo) (ha : w.store.archetype g = some a)
    (hno : a.index guidId = invalidIndex) : Visited guidId w (g :: gs) todo where
  mem b c := by
    rw [h.mem]
    refine and_congr_left fun hb => ?_
    rw [List.exists_mem_cons_iff, or_iff_right]
    intro harch
    obtain rfl := Option.some.inj (ha.symm.trans (archetypeOf_eq_some.mp harch).2)
    exact hb hno
  runs f fuel s hfuel := by
    rw [List.foldlM_cons, overChunks, ha, Option.bind_eq_bind, Option.bind_eq_bind,
      Option.bind_some, if_pos hno, Option.bind_some, h.runs f fuel s hfuel]
  returns f fuel s s' hs := by
    rw [List.foldlM_cons, overChunks, ha, Option.bind_eq_bind, Option.bind_eq_bind,
      Option.bind_some, if_pos hno, Option.bind_some] at hs
    exact h.returns f fuel s s' hs

/-- The chunks of an archetype with guids come before the rest. -/
theorem Visited.cons {gs : List ArchetypeId} {todo : List (Archetype × ChunkId)}
    (h : Visited guidId w gs todo) (hl : w.store.Listed ctx) (ha : w.store.archetype g = some a)
    (hguid : a.index guidId ≠ invalidIndex) :
    ∃ cs : List ChunkId, Visited guidId w (g :: gs) (cs.map (Prod.mk a) ++ todo) := by
  obtain ⟨cs, hmem, hwalk⟩ := exists_chunks hl ha
  have hone : ∀ {σ : Type} (f : ChunkId → Archetype → Nat → σ → Option σ) (s : σ),
      (cs.map (Prod.mk a)).foldlM (fun s p => f p.2 p.1 (p.1.index guidId) s) s =
        cs.foldlM (fun s c => f c a (a.index guidId) s) s := by
    intro σ f s
    rw [List.foldlM_map]
  refine ⟨cs, ?_, ?_, ?_⟩
  · intro b c
    rw [List.mem_append, h.mem, List.exists_mem_cons_iff, or_and_right]
    refine or_congr_left ?_
    rw [List.mem_map, archetypeOf_eq_some, ha]
    constructor
    · rintro ⟨d, hd, heq⟩
      obtain ⟨rfl, rfl⟩ := Prod.mk.inj heq
      exact ⟨⟨(hmem d).mp hd, rfl⟩, hguid⟩
    · rintro ⟨⟨htype, heq⟩, -⟩
      obtain rfl := Option.some.inj heq
      exact ⟨c, (hmem c).mpr htype, rfl⟩
  · intro σ f fuel s hfuel
    rw [List.foldlM_append, List.foldlM_cons, overChunks, ha, Option.bind_eq_bind,
      Option.bind_eq_bind, Option.bind_some, if_neg hguid, (hwalk fuel).1 hfuel, hone]
    simp only [Option.bind_eq_bind, Option.bind_some, h.runs f fuel _ hfuel]
  · intro σ f fuel s s' hs
    rw [List.foldlM_cons, overChunks, ha, Option.bind_eq_bind, Option.bind_eq_bind,
      Option.bind_some, if_neg hguid] at hs
    obtain ⟨s₁, hfirst, hrest⟩ := Option.bind_eq_some_iff.mp hs
    obtain ⟨ds, hds, hfirst⟩ := Option.bind_eq_some_iff.mp hfirst
    obtain rfl := (hwalk fuel).2 ds hds
    rw [List.foldlM_append, hone, hfirst]
    exact h.returns f fuel s₁ s' hrest

theorem exists_visited (guidId : TypeIndex) (hl : w.store.Listed ctx) (hk : w.store.Known) :
    ∃ todo, Visited guidId w w.store.archetypes todo := by
  have hall : ∀ gs ⊆ w.store.archetypes, ∃ todo, Visited guidId w gs todo := by
    intro gs hsub
    induction gs with
    | nil => exact ⟨[], .nil guidId w⟩
    | cons g gs ih =>
        obtain ⟨a, ha⟩ := (hk.listed g).mp (hsub List.mem_cons_self)
        obtain ⟨todo, htodo⟩ := ih fun h hh => hsub (List.mem_cons_of_mem g hh)
        by_cases hguid : a.index guidId = invalidIndex
        · exact ⟨todo, htodo.skip ha hguid⟩
        · obtain ⟨cs, hcs⟩ := htodo.cons hl ha hguid
          exact ⟨_, hcs⟩
  exact hall _ (List.Subset.refl _)

theorem Visited.mem_iff {todo : List (Archetype × ChunkId)}
    (h : Visited guidId w w.store.archetypes todo) (hk : w.store.Known) :
    (a, c) ∈ todo ↔ (∃ g, w.archetypeOf c = some (g, a)) ∧ a.index guidId ≠ invalidIndex := by
  rw [h.mem]
  refine and_congr_left fun _ => exists_congr fun g => and_iff_right_of_imp fun harch => ?_
  exact (hk.listed g).mpr ⟨a, (archetypeOf_eq_some.mp harch).2⟩

/-- Without entities no chunk is visited. -/
theorem Visited.eq_nil {todo : List (Archetype × ChunkId)}
    (h : Visited guidId w w.store.archetypes todo) (hl : w.store.Listed ctx) (hk : w.store.Known)
    (hno : ∀ c i, ¬ w.store.Occupied c i) : todo = [] := by
  refine List.eq_nil_iff_forall_not_mem.mpr ?_
  rintro ⟨a, c⟩ hmem
  obtain ⟨⟨g, harch⟩, -⟩ := (h.mem_iff hk).mp hmem
  have htype := (archetypeOf_eq_some.mp harch).1
  refine hno c 0 ⟨?_, hl.nonempty c g htype⟩
  rw [htype]
  exact Option.some_ne_none g

/-- The chunk of an entity is visited. -/
theorem Visited.mem_of_occupied {todo : List (Archetype × ChunkId)}
    (h : Visited guidId w w.store.archetypes todo) (hl : w.store.Listed ctx) (hk : w.store.Known)
    (hguids : w.HasGuids guidId) (hocc : w.store.Occupied c i) : ∃ a, (a, c) ∈ todo := by
  obtain ⟨g, hg⟩ := Option.ne_none_iff_exists'.mp hocc.1
  obtain ⟨a, ha⟩ := hl.alive c g hg
  have harch := archetypeOf_eq_some.mpr ⟨hg, ha⟩
  exact ⟨a, (h.mem_iff hk).mpr ⟨⟨g, harch⟩, hguids.owned c i g a hocc harch⟩⟩

theorem Visited.pos {todo : List (Archetype × ChunkId)}
    (h : Visited guidId w w.store.archetypes todo) (hl : w.store.Listed ctx) (hk : w.store.Known)
    (hmem : (a, c) ∈ todo) : 0 < w.store.count c := by
  obtain ⟨⟨g, harch⟩, -⟩ := (h.mem_iff hk).mp hmem
  exact hl.nonempty c g (archetypeOf_eq_some.mp harch).1

/-! ## The map of the base -/

/-- The map has the entities of the slots `V`, by their guids. -/
def MapOf (guidId : TypeIndex) (base : World) (V : Slots) (m : EntityMap) : Prop :=
  ∀ k e, (k, e) ∈ m.entries ↔
    ∃ c i, V c i ∧ base.guidOf guidId c i = some k ∧ base.memory.entityAt c i = e

theorem guidOf_eq (guidId : TypeIndex) {j : Nat} (harch : w.archetypeOf c = some (g, a))
    (hj : j < w.store.count c) :
    ∃ k, w.guidAt c a (a.index guidId) j = some k ∧ w.guidOf guidId c j = some k := by
  refine ⟨_, if_pos hj, ?_⟩
  rw [guidOf, harch, Option.bind_eq_bind, Option.bind_some]
  exact if_pos hj

/-- One more entity; it may be there already. -/
theorem MapOf.insert {V : Slots} {k : GUID} (h : base.MapOf guidId V m)
    (hguids : base.HasGuids guidId) (hocc : ∀ d j, V d j → base.store.Occupied d j)
    (hc : base.store.Occupied c i) (hk : base.guidOf guidId c i = some k) :
    base.MapOf guidId (fun d j => V d j ∨ d = c ∧ j = i)
      (m.insert k (base.memory.entityAt c i)) := by
  intro k' e
  rw [OrderedMap.mem_insert, h k' e]
  · constructor
    · rintro (heq | ⟨d, j, hV, hkey, he⟩)
      · obtain ⟨rfl, rfl⟩ := Prod.mk.inj heq
        exact ⟨c, i, Or.inr ⟨rfl, rfl⟩, hk, rfl⟩
      · exact ⟨d, j, Or.inl hV, hkey, he⟩
    · rintro ⟨d, j, hV | ⟨rfl, rfl⟩, hkey, rfl⟩
      · exact Or.inr ⟨d, j, hV, hkey, rfl⟩
      · rw [Option.some.inj (hkey.symm.trans hk)]
        exact Or.inl rfl
  · intro b hb
    obtain ⟨d, j, hV, hkey, rfl⟩ := (h k b).mp hb
    obtain ⟨rfl, rfl⟩ := hguids.unique d j c i (hocc d j hV) hc (hkey.trans hk.symm)
    rfl

/-- The entities of a chunk are put into the map. -/
theorem MapOf.insertGuids {V : Slots} (h : base.MapOf guidId V m) (hguids : base.HasGuids guidId)
    (hocc : ∀ d j, V d j → base.store.Occupied d j) (harch : base.archetypeOf c = some (g, a)) :
    ∃ m', base.insertGuids c a (a.index guidId) m = some m' ∧
      base.MapOf guidId (fun d j => V d j ∨ d = c ∧ j < base.store.count c) m' := by
  have htype : base.store.type c ≠ none := by
    rw [(archetypeOf_eq_some.mp harch).1]
    exact Option.some_ne_none g
  have hall : ∀ n ≤ base.store.count c, ∃ m', (List.range n).foldlM (fun m i => do
      let k ← base.guidAt c a (a.index guidId) i
      some (m.insert k (base.memory.entityAt c i))) m = some m' ∧
        base.MapOf guidId (fun d j => V d j ∨ d = c ∧ j < n) m' := by
    intro n hn
    induction n with
    | zero => exact ⟨m, rfl, by simpa using h⟩
    | succ n ih =>
        obtain ⟨m₁, hrun, hm₁⟩ := ih (Nat.le_of_succ_le hn)
        obtain ⟨k, hat, hkey⟩ := guidOf_eq guidId harch hn
        refine ⟨m₁.insert k (base.memory.entityAt c n), ?_, ?_⟩
        · rw [List.range_succ, List.foldlM_append, hrun]
          simp [hat]
        · have hnext := hm₁.insert hguids ?_ ⟨htype, hn⟩ hkey
          · have hslots : ∀ d j, ((V d j ∨ d = c ∧ j < n) ∨ d = c ∧ j = n) ↔
                V d j ∨ d = c ∧ j < n + 1 := by
              intro d j
              rw [or_assoc, ← and_or_left, Nat.lt_succ_iff_lt_or_eq]
            simpa only [MapOf, hslots] using hnext
          · rintro d j (hV | ⟨rfl, hj⟩)
            · exact hocc d j hV
            · exact ⟨htype, hj.trans hn⟩
  exact hall _ le_rfl

/-- The map has all entities of the base in the end. -/
theorem overGuids_mapOf (hl : base.store.Listed ctx) (hk : base.store.Known)
    (hguids : base.HasGuids guidId) (hfuel : base.store.freshChunk < fuel) :
    ∃ m, base.overGuids guidId fuel base.insertGuids .empty = some m ∧
      base.MapOf guidId base.store.Occupied m := by
  obtain ⟨todo, htodo⟩ := exists_visited guidId hl hk
  have hall : ∀ ps ⊆ todo, ∀ V m₀, base.MapOf guidId V m₀ →
      (∀ d j, V d j → base.store.Occupied d j) →
      ∃ m, ps.foldlM (fun m p => base.insertGuids p.2 p.1 (p.1.index guidId) m) m₀ = some m ∧
        base.MapOf guidId (fun d j => V d j ∨ (∃ b, (b, d) ∈ ps) ∧ j < base.store.count d) m := by
    intro ps hsub
    induction ps with
    | nil => exact fun V m₀ hm₀ _ => ⟨m₀, rfl, by simpa using hm₀⟩
    | cons p ps ih =>
        intro V m₀ hm₀ hocc
        obtain ⟨⟨g, harch⟩, -⟩ := (htodo.mem_iff hk).mp (hsub List.mem_cons_self)
        obtain ⟨m₁, hone, hm₁⟩ := hm₀.insertGuids hguids hocc harch
        obtain ⟨m, hrest, hm⟩ := ih (fun q hq => hsub (List.mem_cons_of_mem p hq)) _ m₁ hm₁ <| by
          rintro d j (hV | ⟨rfl, hj⟩)
          · exact hocc d j hV
          · refine ⟨?_, hj⟩
            rw [(archetypeOf_eq_some.mp harch).1]
            exact Option.some_ne_none g
        refine ⟨m, by rw [List.foldlM_cons, hone]; exact hrest, ?_⟩
        have hslots : ∀ d j, ((V d j ∨ d = p.2 ∧ j < base.store.count p.2) ∨
            (∃ b, (b, d) ∈ ps) ∧ j < base.store.count d) ↔
              V d j ∨ (∃ b, (b, d) ∈ p :: ps) ∧ j < base.store.count d := by
          intro d j
          rw [or_assoc]
          refine or_congr_right ⟨?_, ?_⟩
          · rintro (⟨rfl, hj⟩ | ⟨⟨b, hb⟩, hj⟩)
            · exact ⟨⟨p.1, List.mem_cons_self⟩, hj⟩
            · exact ⟨⟨b, List.mem_cons_of_mem p hb⟩, hj⟩
          · rintro ⟨⟨b, hb⟩, hj⟩
            rcases List.mem_cons.mp hb with rfl | hb
            · exact Or.inl ⟨rfl, hj⟩
            · exact Or.inr ⟨⟨b, hb⟩, hj⟩
        simpa only [MapOf, hslots] using hm
  obtain ⟨m, hrun, hm⟩ := hall todo (List.Subset.refl _) (fun _ _ => False) .empty
    (by simp [MapOf, OrderedMap.empty]) (fun _ _ h => h.elim)
  refine ⟨m, (htodo.runs _ fuel _ hfuel).trans hrun, ?_⟩
  have hslots : ∀ d j, (False ∨ (∃ b, (b, d) ∈ todo) ∧ j < base.store.count d) ↔
      base.store.Occupied d j := by
    intro d j
    rw [false_or]
    constructor
    · rintro ⟨⟨b, hb⟩, hj⟩
      obtain ⟨⟨g, harch⟩, -⟩ := (htodo.mem_iff hk).mp hb
      refine ⟨?_, hj⟩
      rw [(archetypeOf_eq_some.mp harch).1]
      exact Option.some_ne_none g
    · rintro ⟨htype, hj⟩
      obtain ⟨g, hg⟩ := Option.ne_none_iff_exists'.mp htype
      obtain ⟨b, hb⟩ := hl.alive d g hg
      have harch := archetypeOf_eq_some.mpr ⟨hg, hb⟩
      exact ⟨⟨b, (htodo.mem_iff hk).mpr ⟨⟨g, harch⟩, hguids.owned d j g b ⟨htype, hj⟩ harch⟩⟩, hj⟩
  simpa only [MapOf, hslots] using hm

/-! ## The loop over the slices -/

/-- A run of new entities ends at an entity of the chunk that is in the map. -/
theorem newRun_eq_some {j : Nat} (hs : newRun w c a l m fuel i = some j) :
    j < w.store.count c ∧ ∃ k, w.guidAt c a l j = some k ∧ m.find? k ≠ none := by
  induction fuel generalizing i with
  | zero => simp [newRun] at hs
  | succ fuel ih =>
      rw [newRun, Option.bind_eq_bind, Option.bind_eq_some_iff] at hs
      obtain ⟨k, hk, hs⟩ := hs
      split_ifs at hs with hfind
      · exact ih hs
      · obtain rfl := Option.some.inj hs
        refine ⟨?_, k, hk, by simpa using hfind⟩
        by_contra hle
        rw [guidAt, if_neg hle] at hk
        exact absurd hk.symm (Option.some_ne_none k)

/-- Without anything to be read where the iterator was, no chunk is done. -/
theorem diffChunk_erased {start : Nat} {wd : WorldDelta} (h : start < w.store.count c) :
    diffChunk (fun _ => none) base w c a l fuel start (m, wd) = none := by
  induction fuel generalizing start wd with
  | zero => rfl
  | succ fuel ih =>
      rw [diffChunk, if_neg h.ne, Option.bind_eq_bind, Option.bind_eq_none_iff]
      intro k _
      cases m.find? k with
      | some e => rfl
      | none =>
          refine Option.bind_eq_none_iff.mpr fun i hi => ?_
          exact ih (newRun_eq_some hi).1

/-- With no entity of the base left, no chunk is done: the first run does not end. -/
theorem diffChunk_empty {start : Nat} {wd : WorldDelta} (h : start < w.store.count c) :
    diffChunk erased base w c a l fuel start (.empty, wd) = none := by
  cases fuel with
  | zero => rfl
  | succ fuel =>
      rw [diffChunk, if_neg h.ne, Option.bind_eq_bind, Option.bind_eq_none_iff]
      intro k _
      refine Option.bind_eq_none_iff.mpr fun i hi => ?_
      obtain ⟨-, k', -, hfind⟩ := newRun_eq_some hi
      exact absurd rfl hfind

/-! ## When the difference is computed -/

theorem walkable_of_reachable (hctx : ctx.Built)
    (hw : Reachable ctx (fun w op => op.KeepsLists ctx w) w) :
    w.store.Listed ctx ∧ w.store.Known :=
  ⟨hw.invariant (Store.listed_initial ctx) fun _ _ _ _ hv hp hs hl => listed_step hctx hl hv hp hs,
    hw.invariant known_initial fun _ _ _ _ _ _ hs hk => (renewed_run hs).known hk⟩

/-- Where there is an entity, `diff_context` fails if nothing can be read at the erased
iterator. -/
theorem diffContext_erased (hl : w.store.Listed ctx) (hk : w.store.Known)
    (hguids : w.HasGuids guidId) (hocc : w.store.Occupied c i) :
    w.diffContext guidId (fun _ => none) fuel base = none := by
  obtain ⟨todo, htodo⟩ := exists_visited guidId hl hk
  obtain ⟨a, hmem⟩ := htodo.mem_of_occupied hl hk hguids hocc
  rw [diffContext, Option.bind_eq_bind, Option.bind_eq_none_iff]
  intro m _
  refine Option.bind_eq_none_iff.mpr fun r hr => ?_
  have hrun := htodo.returns _ fuel _ r hr
  rw [foldlM_eq_none hmem fun s => diffChunk_erased (htodo.pos hl hk hmem)] at hrun
  exact absurd hrun.symm (Option.some_ne_none r)

/-- A world with an entity is not compared with one that has none. -/
theorem diffContext_empty (hl : w.store.Listed ctx) (hk : w.store.Known)
    (hguids : w.HasGuids guidId) (hocc : w.store.Occupied c i) (hbase : base.store.Listed ctx)
    (hkbase : base.store.Known) (hno : ∀ c i, ¬ base.store.Occupied c i) :
    w.diffContext guidId erased fuel base = none := by
  obtain ⟨todo, htodo⟩ := exists_visited guidId hl hk
  obtain ⟨todo', htodo'⟩ := exists_visited guidId hbase hkbase
  obtain rfl := htodo'.eq_nil hbase hkbase hno
  rw [diffContext, Option.bind_eq_bind, Option.bind_eq_none_iff]
  intro m hm
  obtain rfl := Option.some.inj (htodo'.returns _ fuel _ m hm)
  refine Option.bind_eq_none_iff.mpr fun r hr => ?_
  have hrun := htodo.returns _ fuel _ r hr
  cases todo with
  | nil =>
      obtain ⟨a, hmem⟩ := htodo.mem_of_occupied hl hk hguids hocc
      exact absurd hmem List.not_mem_nil
  | cons p todo =>
      rw [List.foldlM_cons, diffChunk_empty (htodo.pos hl hk List.mem_cons_self)] at hrun
      exact absurd hrun.symm (Option.some_ne_none r)

/-- A world without entities is compared: all entities of the base are destroyed. -/
theorem isDelta_empty (hl : w.store.Listed ctx) (hk : w.store.Known)
    (hno : ∀ c i, ¬ w.store.Occupied c i) (hbase : base.store.Listed ctx)
    (hkbase : base.store.Known) (hguids : base.HasGuids guidId) :
    ∃ fuel wd, w.diffContext guidId erased fuel base = some wd ∧ IsDelta guidId w base wd := by
  let fuel := max w.store.freshChunk base.store.freshChunk + 1
  have hfuel : w.store.freshChunk < fuel := Nat.lt_succ_of_le (le_max_left ..)
  obtain ⟨m, hm, hmap⟩ := overGuids_mapOf hbase hkbase hguids
    (Nat.lt_succ_of_le (le_max_right w.store.freshChunk base.store.freshChunk))
  obtain ⟨todo, htodo⟩ := exists_visited guidId hl hk
  obtain rfl := htodo.eq_nil hl hk hno
  have hnone : ∀ k, ¬ w.HoldsGuid guidId k := fun k ⟨c, i, hocc, _⟩ => hno c i hocc
  refine ⟨fuel, { destroyed := m.entries.map Prod.snd }, ?_, ?_, ?_, ?_, ?_, ?_⟩
  · have hrun : w.overGuids guidId fuel (fun c a l => diffChunk erased base w c a l fuel 0)
        (m, {}) = some (m, {}) := htodo.runs _ fuel _ hfuel
    rw [diffContext, hm]
    simp only [Option.bind_eq_bind, Option.bind_some, hrun]
  · intro c i
    simp [hno]
  · intro c i
    simp [hno]
  · exact .nil
  · simp
  · intro e
    rw [List.mem_map]
    constructor
    · rintro ⟨⟨k, e⟩, hmem, rfl⟩
      obtain ⟨c, i, hocc, -, he⟩ := (hmap k e).mp hmem
      exact ⟨c, i, hocc, he, fun k' _ => hnone k'⟩
    · rintro ⟨c, i, hocc, he, -⟩
      obtain ⟨g, hg⟩ := Option.ne_none_iff_exists'.mp hocc.1
      obtain ⟨a, ha⟩ := hbase.alive c g hg
      obtain ⟨k, -, hk⟩ := guidOf_eq guidId (archetypeOf_eq_some.mpr ⟨hg, ha⟩) hocc.2
      exact ⟨(k, e), (hmap k e).mpr ⟨c, i, hocc, hk, he⟩, rfl⟩

/-- In worlds that calls keeping the chunk lists reach, `diff_context` classifies the entities
by their guids, whatever it reads at the erased iterator, exactly when `w` has none. -/
theorem diffContext_iff (hctx : ctx.Built)
    (hw : Reachable ctx (fun w op => op.KeepsLists ctx w) w)
    (hbase : Reachable ctx (fun w op => op.KeepsLists ctx w) base)
    (hguids : w.HasGuids guidId) (hguids' : base.HasGuids guidId) :
    (∀ erased, ∃ fuel wd, w.diffContext guidId erased fuel base = some wd ∧
      IsDelta guidId w base wd) ↔ ∀ c i, ¬ w.store.Occupied c i := by
  obtain ⟨hl, hk⟩ := walkable_of_reachable hctx hw
  obtain ⟨hl', hk'⟩ := walkable_of_reachable hctx hbase
  constructor
  · intro hall c i hocc
    obtain ⟨fuel, wd, hrun, -⟩ := hall fun _ => none
    rw [diffContext_erased hl hk hguids hocc] at hrun
    exact absurd hrun.symm (Option.some_ne_none wd)
  · exact fun hno erased => isDelta_empty hl hk hno hl' hk' hguids'

/-! A world with one entity, and one without. -/

/-- A registry with guids. -/
abbrev guided : Context := .initial true

def oneGuid : Option World := runAll guided 2 blank [.allocate { types := [4] } 1]

theorem reachable_oneGuid {P : World → Op → Prop}
    (hP : ∀ w type count, P w (.allocate type count)) (hw : oneGuid = some w) :
    Reachable guided P w := by
  refine (reachable_blank guided P).runAll ?_ hw
  intro op hop v
  obtain rfl := List.mem_singleton.mp hop
  exact ⟨trivial, hP ..⟩

theorem not_occupied_blank (c : ChunkId) (i : Nat) : ¬ blank.store.Occupied c i :=
  fun h => h.1 rfl

theorem hasGuids_blank : blank.HasGuids guidId where
  owned c i _ _ hocc := absurd hocc (not_occupied_blank c i)
  unique c i _ _ hocc := absurd hocc (not_occupied_blank c i)

theorem hasGuids_oneGuid (hw : oneGuid = some w) :
    w.HasGuids 4 ∧ w.store.Occupied 0 0 := by
  have hsome : oneGuid.bind (fun w => (w.archetypeOf 0).map fun p =>
      ([w.store.count 0, w.store.freshChunk, p.2.index 4, p.1], w.store.type 0)) =
        some ([1, 1, 0, 0], some 0) := by decide +kernel
  rw [hw, Option.bind_some] at hsome
  obtain ⟨⟨g, a⟩, ha, hfacts⟩ := Option.map_eq_some_iff.mp hsome
  simp only [Prod.mk.injEq, List.cons.injEq, and_true] at hfacts
  obtain ⟨⟨hcount, hfresh, hindex, -⟩, htype⟩ := hfacts
  obtain ⟨hl, -⟩ := walkable_of_reachable (.initial true)
    (reachable_oneGuid (P := fun w op => op.KeepsLists guided w) (fun _ _ _ => trivial) hw)
  have honly : ∀ c i, w.store.Occupied c i → c = 0 ∧ i = 0 := by
    rintro c i ⟨hc, hi⟩
    obtain rfl : c = 0 := by
      by_contra hne
      exact hc (hl.fresh c (hfresh.trans_le (Nat.one_le_iff_ne_zero.mpr hne)))
    exact ⟨rfl, by omega⟩
  refine ⟨⟨?_, ?_⟩, ?_, hcount.symm ▸ Nat.one_pos⟩
  · intro c i h b hocc hb
    obtain ⟨rfl, -⟩ := honly c i hocc
    obtain ⟨-, rfl⟩ := Prod.mk.inj (Option.some.inj (ha.symm.trans hb))
    rw [hindex]
    decide
  · intro c i d j hocc hocc' _
    obtain ⟨rfl, rfl⟩ := honly c i hocc
    obtain ⟨rfl, rfl⟩ := honly d j hocc'
    exact ⟨rfl, rfl⟩
  · rw [htype]
    exact Option.some_ne_none _

/-- The world without entities against the one with an entity. -/
theorem diffContext_blank : ∃ base, oneGuid = some base ∧ ∀ erased, ∃ fuel wd,
    blank.diffContext 4 erased fuel base = some wd ∧ IsDelta 4 blank base wd := by
  obtain ⟨base, hbase⟩ : ∃ base, oneGuid = some base := by
    refine Option.isSome_iff_exists.mp ?_
    decide +kernel
  exact ⟨base, hbase, (diffContext_iff (.initial true) (reachable_blank guided _)
    (reachable_oneGuid (fun _ _ _ => trivial) hbase) hasGuids_blank (hasGuids_oneGuid hbase).1).mpr
      not_occupied_blank⟩

/-- The other way round: the guids are read past the only entity. -/
theorem not_diffContext_oneGuid : ∃ w, oneGuid = some w ∧
    Reachable guided (fun w op => op.KeepsLists guided w) w ∧
    Reachable guided (fun w op => op.KeepsLists guided w) blank ∧
    w.HasGuids 4 ∧ blank.HasGuids 4 ∧
    ∀ erased fuel, w.diffContext 4 erased fuel blank = none := by
  obtain ⟨w, hw⟩ : ∃ w, oneGuid = some w := by
    refine Option.isSome_iff_exists.mp ?_
    decide +kernel
  have hreach : Reachable guided (fun w op => op.KeepsLists guided w) w :=
    reachable_oneGuid (fun _ _ _ => trivial) hw
  obtain ⟨hguids, hocc⟩ := hasGuids_oneGuid hw
  obtain ⟨hl, hk⟩ := walkable_of_reachable (.initial true) hreach
  obtain ⟨hl', hk'⟩ := walkable_of_reachable (.initial true) (reachable_blank guided _)
  exact ⟨w, hw, hreach, reachable_blank guided _, hguids, hasGuids_blank, fun erased fuel =>
    diffContext_empty hl hk hguids hocc hl' hk' not_occupied_blank⟩

end World

end Dots

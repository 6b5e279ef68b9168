import Dots.Database.Cached
import Dots.Database.Collecting

/-!
# The archetypes that a list names

The masks of a list may be those of an earlier time. The archetypes that it names are the ones that
a fresh query would find, while no entity changes what an archetype inherits in a way that a cached
query can tell.
-/

namespace Dots

open Library

namespace Store

variable {ctx : Context} {st st' : Store} {ents ents' : Entities} {f : ArchetypeFilter}
  {a : Archetype} {q : QueryCache} {g : ArchetypeId} {μ μ' : ArchetypeFilter → Archetype → Mask}

/-- What a list has, where `μ` gives the masks that it stores. -/
def namedEntry (μ : ArchetypeFilter → Archetype → Mask) (ctx : Context) (st : Store)
    (ents : Entities) (f : ArchetypeFilter) (a : Archetype) : Option (Option Mask) :=
  (test ctx st ents f a).map fun r => if r then some (μ f a) else none

theorem namedEntry_congr (h : test ctx st' ents' f a = test ctx st ents f a) :
    namedEntry μ ctx st' ents' f a = namedEntry μ ctx st ents f a := by
  rw [namedEntry, namedEntry, h]

theorem namedEntry_eq (h : μ f a = μ' f a) :
    namedEntry μ ctx st ents f a = namedEntry μ' ctx st ents f a := by
  rw [namedEntry, namedEntry, h]

theorem namedEntry_of_test {r : Bool} (h : test ctx st ents f a = some r) :
    namedEntry μ ctx st ents f a = some (if r then some (μ f a) else none) := by
  rw [namedEntry, h, Option.map_some]

/-- A fresh list stores the masks that it computes. -/
theorem entry_eq_namedEntry (h : entry ctx st ents f a ≠ none)
    (hμ : ∀ m, a.getMask (Set.merge f.all.types f.any.types) = some m → μ f a = m) :
    entry ctx st ents f a = namedEntry μ ctx st ents f a := by
  rw [namedEntry, test]
  rw [entry, entryWith] at h ⊢
  cases htest : matchWith (st.getArchetypeOf ents) (st.freshArchetype + 2) (includeFlags ctx f).1
      (includeFlags ctx f).2 f a with
  | none => simp [htest] at h
  | some r =>
      cases r with
      | false => rfl
      | true =>
          rw [htest, Option.bind_eq_bind, Option.bind_some, if_pos rfl] at h
          cases hm : a.getMask (Set.merge f.all.types f.any.types) with
          | none => simp [hm] at h
          | some m =>
              rw [Option.bind_eq_bind, Option.bind_some, if_pos rfl, Option.map_some,
                Option.map_some, if_pos rfl, hμ m hm]

/-- The archetypes of the map that pass the test of `get_query_cache`. -/
def scan (ctx : Context) (st : Store) (ents : Entities) (f : ArchetypeFilter) : List ArchetypeId :=
  st.archetypes.filter fun g => decide ((st.archetype g).bind
    (st.matchCache ents (includeFlags ctx f).1 (includeFlags ctx f).2 f) = some true)

theorem mem_scan (hk : st.Known) : g ∈ scan ctx st ents f ↔ ∃ a, st.archetype g = some a ∧
    st.matchCache ents (includeFlags ctx f).1 (includeFlags ctx f).2 f a = some true := by
  rw [scan, List.mem_filter, hk.listed, decide_eq_true_iff, Option.bind_eq_some_iff]
  refine and_iff_right_of_imp ?_
  rintro ⟨a, ha, -⟩
  exact ⟨a, ha⟩

/-- The archetypes that a list names. -/
theorem Lists.names (h : Lists ctx (namedEntry μ ctx st ents) st q) (ha : st.archetype g = some a) :
    g ∈ q.archetypes.map MatchedArchetype.type ↔ test ctx st ents q.filter a = some true := by
  rw [List.mem_map]
  constructor
  · rintro ⟨x, hx, rfl⟩
    obtain ⟨b, hb, hfound⟩ := (h.mem x).mp hx
    obtain rfl := Option.some.inj (ha.symm.trans hb)
    obtain ⟨r, hr, hfound⟩ := Option.map_eq_some_iff.mp hfound
    cases r with
    | false => simp at hfound
    | true => exact hr
  · intro htest
    refine ⟨⟨g, μ q.filter a⟩, (h.mem _).mpr ⟨a, ha, ?_⟩, rfl⟩
    rw [namedEntry_of_test htest, if_pos rfl]

theorem Lists.alive {E : ArchetypeFilter → Archetype → Option (Option Mask)}
    (h : Lists ctx E st q) (hg : g ∈ q.archetypes.map MatchedArchetype.type) :
    ∃ a, st.archetype g = some a := by
  obtain ⟨x, hx, rfl⟩ := List.mem_map.mp hg
  obtain ⟨a, ha, -⟩ := (h.mem x).mp hx
  exact ⟨a, ha⟩

end Store

namespace World

open Store (Caches Lists entry namedEntry test)

variable {ctx : Context} {w w' : World} {op : Op} {f : ArchetypeFilter} {q : QueryCache}
  {fuel : Nat}

/-- Each cached query names the archetypes that a fresh one finds. -/
def Names (ctx : Context) (w : World) : Prop :=
  ∃ μ, Caches ctx (namedEntry μ ctx w.store w.ents) w.HasQuery w.store.freshArchetype w.store

theorem Names.query (h : w.Names ctx) (hm : w.Metas) (hl : w.store.Listed ctx)
    (hsize : w.ents.size < 2 ^ 24) (hs : w.query ctx f = some (w', q)) : w'.Names ctx := by
  obtain ⟨μ, h⟩ := h
  simp only [World.query, Option.bind_eq_bind, Option.bind_eq_some_iff, Option.some.injEq,
    Prod.mk.injEq] at hs
  obtain ⟨⟨st, q'⟩, hget, rfl, rfl⟩ := hs
  unfold Store.getQueryCache at hget
  cases hf : w.store.queries.find? fun q => decide (q.filter = f) with
  | some q =>
      simp only [hf, Option.some.injEq, Prod.mk.injEq] at hget
      exact ⟨μ, hget.1 ▸ h⟩
  | none =>
      simp only [hf, Option.bind_eq_bind, Option.bind_eq_some_iff, Option.some.injEq,
        Prod.mk.injEq] at hget
      obtain ⟨l, hcompute, rfl, -⟩ := hget
      -- the masks of the new list are its own, those of the others are as they were
      obtain ⟨μ', hμ'⟩ : ∃ μ' : ArchetypeFilter → Archetype → Mask, ∀ g a, μ' g a =
          if g = f then (a.getMask (Set.merge f.all.types f.any.types)).getD 0 else μ g a :=
        ⟨_, fun _ _ => rfl⟩
      refine ⟨μ', ⟨h.known.numbered, h.known.listed, h.known.distinct⟩, h.nodup, le_rfl,
        fun q hq => ⟨⟨q, hq, rfl⟩, ?_⟩⟩
      rcases List.mem_append.mp hq with hq | hq
      · refine (h.lists q hq).2.congr rfl fun _ a _ => ?_
        have hne : q.filter ≠ f := by simpa using List.find?_eq_none.mp hf q hq
        have hmask : namedEntry μ' ctx w.store w.ents q.filter a =
            namedEntry μ ctx w.store w.ents q.filter a :=
          Store.namedEntry_eq ((hμ' _ a).trans (if_neg hne))
        exact hmask
      · obtain rfl := List.mem_singleton.mp hq
        have hlists := Store.lists_computeQuery h.known h.nodup hcompute
        refine hlists.congr rfl fun g a ha => ?_
        have hentry : entry ctx w.store w.ents f a = _ :=
          Store.entry_eq (hm.metasLive hsize) (numbered hl) hm.acyclic ha
        have hmask : entry ctx w.store w.ents f a = namedEntry μ' ctx w.store w.ents f a := by
          refine Store.entry_eq_namedEntry (hentry.trans_ne (hlists.defined g a ha)) fun m hm => ?_
          rw [hμ', if_pos rfl, hm, Option.getD_some]
        exact hmask.symm.trans hentry

theorem Names.step (hctx : ctx.Built) (hreg : ctx.tracks.length < 2 ^ 30) (h : w.Names ctx)
    (hm : w.Metas) (hw : Orderly ctx w) (hv : op.Valid w) (hp : op.Orderly ctx w)
    (hk : op.KeepsMetas ctx w) (hq : op.KeepsTests ctx w) (hs : op.run ctx fuel w = some w')
    (hsize' : w'.ents.size < 2 ^ 24) : w'.Names ctx := by
  have hsize := (aged_step hp.noGroup hs).size_le.trans_lt hsize'
  by_cases hop : ∃ f, op = .query f
  · obtain ⟨f, rfl⟩ := hop
    obtain ⟨⟨_, q⟩, hrun, rfl⟩ := Option.map_eq_some_iff.mp hs
    exact h.query hm hw.listed hsize hrun
  · obtain ⟨μ, h⟩ := h
    -- a new archetype enters the lists with an empty mask
    obtain ⟨μ', hμ'⟩ : ∃ μ' : ArchetypeFilter → Archetype → Mask, ∀ f a,
        μ' f a = if w.store.findArchetype a.type = none then 0 else μ f a := ⟨_, fun _ _ => rfl⟩
    have hsame : Caches ctx (namedEntry μ' ctx w.store w.ents) w.HasQuery w.store.freshArchetype
        w.store := by
      refine h.now fun f _ g a ha => ?_
      rw [namedEntry, namedEntry, hμ', findArchetype_type h.known ha, if_neg (Option.some_ne_none g)]
    have hnew : ∀ key a, op.Seeks ctx w key → w.store.findArchetype key = none →
        constructArchetype ctx key = some a → ∀ q ∈ w.store.queries, ∀ r,
          test ctx w.store w.ents q.filter a = some r →
            namedEntry μ' ctx w.store w.ents q.filter a = some (if r then some 0 else none) := by
      intro key a _ hf ha q _ r hr
      rw [Store.namedEntry_of_test hr, hμ', constructArchetype_type ha, if_pos hf]
    obtain ⟨⟨N, hcaches⟩, htests⟩ := relisted_step hctx hreg hm hw hv hp hk hq
      (fun f hf => hop ⟨f, hf⟩) hsame (fun f _ g a _ htest => Store.namedEntry_of_test htest)
      hnew hs hsize'
    exact ⟨μ', hcaches.now fun f hf k d hd => Store.namedEntry_congr (htests f hf k d hd)⟩

theorem mem_queries_of_query (hs : w.query ctx f = some (w', q)) :
    q ∈ w'.store.queries ∧ q.filter = f := by
  simp only [World.query, Option.bind_eq_bind, Option.bind_eq_some_iff, Option.some.injEq,
    Prod.mk.injEq] at hs
  obtain ⟨⟨st, q'⟩, hget, rfl, rfl⟩ := hs
  unfold Store.getQueryCache at hget
  cases hfind : w.store.queries.find? fun q => decide (q.filter = f) with
  | some q₁ =>
      simp only [hfind, Option.some.injEq, Prod.mk.injEq] at hget
      obtain ⟨rfl, rfl⟩ := hget
      exact ⟨List.mem_of_find?_eq_some hfind, by simpa using List.find?_some hfind⟩
  | none =>
      simp only [hfind, Option.bind_eq_bind, Option.bind_eq_some_iff, Option.some.injEq,
        Prod.mk.injEq] at hget
      obtain ⟨l, -, rfl, rfl⟩ := hget
      exact ⟨List.mem_append_right _ (List.mem_singleton_self _), rfl⟩

theorem query_of_hasQuery (hf : w.HasQuery f) : ∃ q, w.query ctx f = some (w, q) := by
  cases hfind : w.store.queries.find? fun q => decide (q.filter = f) with
  | none =>
      obtain ⟨q, hq, hfilter⟩ := hf
      exact absurd (decide_eq_true hfilter) (List.find?_eq_none.mp hfind q hq)
  | some q =>
      refine ⟨q, ?_⟩
      simp only [World.query, Store.getQueryCache, hfind, Option.bind_eq_bind, Option.bind_some]

theorem names_initial (timestamp : Nat) (raw : Nat → Nat) (data : ChunkId → Mem)
    (guids : Nat → List UInt8) : (World.initial timestamp raw data guids).Names ctx := by
  refine ⟨fun _ _ => 0, ⟨?_, ?_, ?_⟩, List.nodup_nil, le_rfl, ?_⟩ <;> simp [World.initial]

theorem names_of_reachable (hctx : ctx.Built) (hreg : ctx.tracks.length < 2 ^ 30)
    (hreach : Reachable ctx (fun w op => op.Orderly ctx w ∧ op.KeepsMetas ctx w ∧
      op.KeepsTests ctx w) w) (hsize : w.ents.size < 2 ^ 24) :
    Orderly ctx w ∧ w.Metas ∧ w.Names ctx := by
  suffices hinv : Orderly ctx w ∧ (w.ents.size < 2 ^ 24 → w.Metas ∧ w.Names ctx) from
    ⟨hinv.1, hinv.2 hsize⟩
  refine hreach.invariant
    (I := fun v => Orderly ctx v ∧ (v.ents.size < 2 ^ 24 → v.Metas ∧ v.Names ctx)) ?_ ?_
  · intro timestamp raw data guids
    exact ⟨orderly_initial ctx timestamp raw data guids,
      fun _ => ⟨metas_initial timestamp raw data guids, names_initial timestamp raw data guids⟩⟩
  · rintro v op fuel v' hv ⟨hp, hk, hq⟩ hs ⟨hord, hinv⟩
    refine ⟨hord.step hctx hreg hv hp hs, fun hlt => ?_⟩
    obtain ⟨hm, hnames⟩ := hinv ((aged_step hp.noGroup hs).size_le.trans_lt hlt)
    exact ⟨hm.step hctx hreg hord hv hp hk hs hlt,
      hnames.step hctx hreg hm hord hv hp hk hq hs hlt⟩

/-- What a query returns, whether it was cached or not, in any run that keeps the tests. -/
theorem names_of_query (hctx : ctx.Built) (hreg : ctx.tracks.length < 2 ^ 30)
    (hreach : Reachable ctx (fun w op => op.Orderly ctx w ∧ op.KeepsMetas ctx w ∧
      op.KeepsTests ctx w) w) (hsize : w.ents.size < 2 ^ 24)
    (hs : w.query ctx f = some (w', q)) :
    (q.archetypes.map MatchedArchetype.type).Nodup ∧
      ∀ g, g ∈ q.archetypes.map MatchedArchetype.type ↔ ∃ a, w.store.archetype g = some a ∧
        w.store.matchCache w.ents (Store.includeFlags ctx f).1 (Store.includeFlags ctx f).2 f a =
          some true := by
  have hrun : (Op.query f).run ctx 0 w = some w' := by rw [Op.run, hs, Option.map_some]
  have hreach' := hreach.step (.query f) trivial
    ⟨⟨trivial, trivial, trivial, trivial⟩, trivial, trivial⟩ hrun
  obtain ⟨hq, rfl⟩ := mem_queries_of_query hs
  obtain ⟨queries, rfl⟩ := query_eq_some hs
  obtain ⟨hw, hm, -⟩ := names_of_reachable hctx hreg hreach hsize
  obtain ⟨-, -, μ, hcaches⟩ := names_of_reachable hctx hreg hreach' hsize
  have hlists := (hcaches.lists q hq).2
  have hnames : ∀ g a, w.store.archetype g = some a →
      (g ∈ q.archetypes.map MatchedArchetype.type ↔
        test ctx w.store w.ents q.filter a = some true) := fun g a ha => hlists.names ha
  refine ⟨hlists.distinct, fun g => ⟨fun hg => ?_, ?_⟩⟩
  · obtain ⟨a, ha⟩ := hlists.alive hg
    refine ⟨a, ha, ?_⟩
    rw [Store.matchCache_eq,
      ← Store.test_eq (hm.metasLive hsize) (numbered hw.listed) hm.acyclic ha]
    exact (hnames g a ha).mp hg
  · rintro ⟨a, ha, htest⟩
    rw [Store.matchCache_eq,
      ← Store.test_eq (hm.metasLive hsize) (numbered hw.listed) hm.acyclic ha] at htest
    exact (hnames g a ha).mpr htest

/-- A query that was cached names the archetypes that pass the test now, each of them once. -/
theorem query_perm_scan (hctx : ctx.Built) (hreg : ctx.tracks.length < 2 ^ 30)
    (hreach : Reachable ctx (fun w op => op.Orderly ctx w ∧ op.KeepsMetas ctx w ∧
      op.KeepsTests ctx w) w) (hsize : w.ents.size < 2 ^ 24) (hf : w.HasQuery f) :
    ∃ q, w.query ctx f = some (w, q) ∧
      (q.archetypes.map MatchedArchetype.type).Perm (Store.scan ctx w.store w.ents f) := by
  obtain ⟨-, -, μ, hcaches⟩ := names_of_reachable hctx hreg hreach hsize
  obtain ⟨q, hs⟩ : ∃ q, w.query ctx f = some (w, q) := query_of_hasQuery hf
  obtain ⟨hnodup, hnames⟩ := names_of_query hctx hreg hreach hsize hs
  refine ⟨q, hs, (List.perm_ext_iff_of_nodup hnodup (hcaches.nodup.filter _)).mpr fun g => ?_⟩
  exact (hnames g).trans (Store.mem_scan hcaches.known).symm

/-- A query, and two entities of the type that it asks for. -/
def grown : Option World :=
  runAll narrowWide 2 blank [.query (typesFilter [4]), .allocate { types := [4] } 2]

theorem reachable_grown (hw : grown = some w) : Reachable narrowWide (fun w op =>
    op.Orderly narrowWide w ∧ op.KeepsMetas narrowWide w ∧ op.KeepsTests narrowWide w) w := by
  refine (reachable_blank narrowWide _).runAll (fun op hop v => ?_) hw
  rcases List.mem_pair.mp hop with rfl | rfl
  · exact ⟨trivial, ⟨trivial, trivial, trivial, trivial⟩, trivial, trivial⟩
  · exact ⟨trivial, ⟨trivial, trivial, trivial, by decide, by decide⟩,
      fun _ hm => absurd hm List.not_mem_nil, trivial⟩

theorem query_perm_scan_grown : ∃ w q, grown = some w ∧
    w.query narrowWide (typesFilter [4]) = some (w, q) ∧
    (q.archetypes.map MatchedArchetype.type).Perm
      (Store.scan narrowWide w.store w.ents (typesFilter [4])) := by
  have hfacts : grown.map (fun w => (w.ents.size, w.store.queries.map QueryCache.filter)) =
      some (2, [typesFilter [4]]) := by decide +kernel
  obtain ⟨w, hw, hfacts⟩ := Option.map_eq_some_iff.mp hfacts
  obtain ⟨hsize, hfilters⟩ := Prod.mk.inj hfacts
  obtain ⟨q, hq⟩ := query_perm_scan built_narrowWide (by decide) (reachable_grown hw) (by omega)
    (List.mem_map.mp (hfilters ▸ List.mem_singleton_self _))
  exact ⟨w, q, hw, hq⟩

end World

end Dots

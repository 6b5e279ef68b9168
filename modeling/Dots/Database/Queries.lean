import Dots.Database.Matching
import Dots.Database.Renewed
import Dots.Database.Resolving
import Dots.Database.Shared

/-!
# Lists of queries

`get_query_cache` looks at every archetype once, and `update_queries` adds and removes one at a
time. A list is current when it has the entries that a fresh query would make.
-/

namespace Dots

open Library

/-- What `update_queries` makes of a query whose test of the archetype `g` gave `r`. -/
def QueryCache.update (q : QueryCache) (g : ArchetypeId) (add r : Bool) : QueryCache :=
  if !r then q
  else if add then { q with archetypes := q.archetypes ++ [{ type := g }] }
  else { q with archetypes := Store.removeMatched g q.archetypes }

@[simp] theorem QueryCache.update_filter (q : QueryCache) (g : ArchetypeId) (add r : Bool) :
    (q.update g add r).filter = q.filter := by
  unfold QueryCache.update
  split_ifs <;> rfl

/-- A set that has no type of the archetype has no bit in its mask. -/
theorem maskFrom_disjoint {ta tb : List TypeIndex} (h : ∀ t ∈ tb, t ∉ ta) (i : Nat) :
    maskFrom i ta tb = some 0 := by
  induction ta generalizing i tb with
  | nil => rfl
  | cons t ta ih =>
      rw [maskFrom]
      have hsub := List.dropWhile_suffix (fun u => decide (u < t)) (l := tb)
      have hhead := List.head?_dropWhile_not (fun u => decide (u < t)) tb
      cases hrest : tb.dropWhile fun u => decide (u < t) with
      | nil => rfl
      | cons u rest =>
          rw [hrest] at hsub hhead
          have hne : u ≠ t := by
            rintro rfl
            exact h u (hsub.mem List.mem_cons_self) List.mem_cons_self
          have hlt : t < u := lt_of_le_of_ne (by simpa using hhead) hne.symm
          dsimp only
          rw [if_pos hlt]
          exact ih (fun v hv hmem => h v (hsub.mem hv) (List.mem_cons_of_mem t hmem)) (i + 1)

namespace Store

variable {ctx : Context} {st st' st₁ : Store} {ents ents' : Entities} {g : ArchetypeId}
  {a : Archetype} {n k N : Nat} {f : ArchetypeFilter} {q : QueryCache}
  {ρ ρ' : Entity → Option Archetype}

/-! ## Shared types by what the metatypes are -/

/-- `get_shared_type` where `ρ` gives the archetype of a metatype. -/
def sharedWith (ρ : Entity → Option Archetype) :
    Nat → List TypeIndex → Archetype → Option (List TypeIndex)
  | 0, _, _ => none
  | fuel + 1, type, a =>
      a.metatypes.foldlM (fun type m => do
        let g ← ρ m
        sharedWith ρ fuel (Set.merge g.types type) g) type

theorem sharedTypeFrom_eq (type : List TypeIndex) :
    st.sharedTypeFrom ents n type a = sharedWith (st.getArchetypeOf ents) n type a := by
  induction n generalizing type a with
  | zero => rfl
  | succ n ih =>
      rw [sharedTypeFrom, sharedWith]
      refine foldlM_congr (fun m _ type => ?_) type
      cases st.getArchetypeOf ents m with
      | none => rfl
      | some b => exact ih _

/-- The metatypes below `a` are the same for `ρ`. -/
theorem sharedWith_eq {P : Archetype → Prop} (h : st.EndsIn ents n a) (ha : P a)
    (hP : ∀ d, P d → ∀ m ∈ d.metatypes, ∀ b, st.getArchetypeOf ents m = some b →
      ρ m = some b ∧ P b) (hk : n ≤ k) (type : List TypeIndex) :
    sharedWith ρ k type a = st.sharedTypeFrom ents n type a := by
  induction n generalizing k a type with
  | zero => exact h.elim
  | succ n ih =>
      obtain ⟨k, rfl⟩ := Nat.exists_eq_succ_of_ne_zero (Nat.ne_zero_of_lt hk)
      rw [sharedTypeFrom, sharedWith]
      refine foldlM_congr (fun m hm type => ?_) type
      obtain ⟨b, hb, hend⟩ := h m hm
      obtain ⟨hρ, hPb⟩ := hP a ha m hm b hb
      rw [hb, hρ]
      exact ih hend hPb (Nat.le_of_succ_le_succ hk) _

theorem MetasLive.endsIn (hlive : st.MetasLive ents) (hac : st.Acyclic ents)
    (hN : ∀ g a, st.archetype g = some a → g < N) (ha : st.archetype g = some a) :
    st.EndsIn ents (N + 1) a := by
  have hin : ∀ y x, st.MetaOf ents y x → y ∈ (Finset.range N : Set Nat) := by
    rintro y x ⟨-, b, -, -, -, -, hb⟩
    exact Finset.mem_coe.mpr (Finset.mem_range.mpr (hN y b hb))
  have hall : ∀ n k d, st.archetype k = some d → height (st.MetaOf ents) k < n →
      st.EndsIn ents n d := by
    intro n
    induction n with
    | zero => exact fun k d _ hlt => absurd hlt (Nat.not_lt_zero _)
    | succ n ih =>
        intro k d hd hheight m hm
        obtain ⟨b, hb⟩ := Option.ne_none_iff_exists'.mp (hlive k d hd m hm)
        obtain ⟨h, hid, hb'⟩ := getArchetypeOf_eq_some.mp hb
        have hless := height_lt (Finset.finite_toSet _) hin hac
          (show st.MetaOf ents h k from ⟨d, b, m, hd, hm, hid, hb'⟩)
        exact ⟨b, hb, ih h b hb' (by omega)⟩
  have hle := height_le (Finset.finite_toSet _) hin g
  rw [Set.ncard_coe_finset, Finset.card_range] at hle
  exact hall (N + 1) g a ha (Nat.lt_succ_of_le hle)

/-- An archetype whose metatypes are there ends one level later. -/
theorem endsIn_of_metas (hlive : st.MetasLive ents) (hac : st.Acyclic ents) (hn : st.Numbered)
    (hmetas : ∀ m ∈ a.metatypes, st.getArchetypeOf ents m ≠ none) :
    st.EndsIn ents (st.freshArchetype + 2) a := by
  intro m hm
  obtain ⟨b, hb⟩ := Option.ne_none_iff_exists'.mp (hmetas m hm)
  obtain ⟨h, -, hb'⟩ := getArchetypeOf_eq_some.mp hb
  exact ⟨b, hb, hlive.endsIn hac hn hb'⟩

/-! ## What a filter finds of an archetype -/

/-- The test of `get_query_cache` and `update_queries`. -/
def matchWith (ρ : Entity → Option Archetype) (fuel : Nat) (includeClean includeDisabled : Bool)
    (f : ArchetypeFilter) (a : Archetype) : Option Bool :=
  if !includeClean && a.cleaning then some false
  else if !includeDisabled && a.disabled then some false
  else (sharedWith ρ fuel [] a).map (f.match a.type)

theorem matchCache_eq {clean disabled : Bool} :
    st.matchCache ents clean disabled f a =
      matchWith (st.getArchetypeOf ents) (st.freshArchetype + 1) clean disabled f a := by
  rw [matchCache, sharedType, sharedTypeFrom_eq, matchWith]

theorem matchWith_congr (h : sharedWith ρ n [] a = sharedWith ρ' k [] a) {clean disabled : Bool} :
    matchWith ρ n clean disabled f a = matchWith ρ' k clean disabled f a := by
  rw [matchWith, matchWith, h]

/-- The mask in the entry of `a`, when there is one. -/
def entryWith (ctx : Context) (ρ : Entity → Option Archetype) (fuel : Nat) (f : ArchetypeFilter)
    (a : Archetype) : Option (Option Mask) := do
  if ← matchWith ρ fuel (includeFlags ctx f).1 (includeFlags ctx f).2 f a then
    (a.getMask (Set.merge f.all.types f.any.types)).map some
  else some none

theorem entryWith_congr (h : matchWith ρ n (includeFlags ctx f).1 (includeFlags ctx f).2 f a =
    matchWith ρ' k (includeFlags ctx f).1 (includeFlags ctx f).2 f a) :
    entryWith ctx ρ n f a = entryWith ctx ρ' k f a := by
  rw [entryWith, entryWith, h]

/-- The test of an archetype that may be new. -/
def test (ctx : Context) (st : Store) (ents : Entities) (f : ArchetypeFilter) (a : Archetype) :
    Option Bool :=
  matchWith (st.getArchetypeOf ents) (st.freshArchetype + 2) (includeFlags ctx f).1
    (includeFlags ctx f).2 f a

/-- What a fresh query finds of an archetype that may be new. -/
def entry (ctx : Context) (st : Store) (ents : Entities) (f : ArchetypeFilter) (a : Archetype) :
    Option (Option Mask) :=
  entryWith ctx (st.getArchetypeOf ents) (st.freshArchetype + 2) f a

theorem entry_congr (h : test ctx st' ents' f a = test ctx st ents f a) :
    entry ctx st' ents' f a = entry ctx st ents f a :=
  entryWith_congr h

theorem entry_of_false (h : test ctx st ents f a = some false) :
    entry ctx st ents f a = some none := by
  rw [test] at h
  rw [entry, entryWith, h]
  rfl

/-- The turn of `get_query_cache` for an archetype that is there. -/
theorem queryTurn_eq (ha : st.archetype g = some a) :
    st.queryTurn ctx ents f g =
      (entryWith ctx (st.getArchetypeOf ents) (st.freshArchetype + 1) f a).map fun m =>
        m.toList.map (MatchedArchetype.mk g) := by
  simp only [queryTurn, ha, Option.bind_eq_bind, Option.bind_some, matchCache_eq, entryWith]
  cases matchWith (st.getArchetypeOf ents) (st.freshArchetype + 1) (includeFlags ctx f).1
      (includeFlags ctx f).2 f a with
  | none => rfl
  | some r =>
      cases r with
      | false => rfl
      | true =>
          cases hm : a.getMask (Set.merge f.all.types f.any.types) with
          | none => simp
          | some m => simp

/-! ## The list of one query -/

/-- The list of `q` has the entries that `E` gives the archetypes there are. -/
structure Lists (ctx : Context) (E : ArchetypeFilter → Archetype → Option (Option Mask))
    (st : Store) (q : QueryCache) : Prop where
  flags : (q.includeClean, q.includeDisabled) = includeFlags ctx q.filter
  defined : ∀ g a, st.archetype g = some a → E q.filter a ≠ none
  distinct : (q.archetypes.map MatchedArchetype.type).Nodup
  mem : ∀ x, x ∈ q.archetypes ↔
    ∃ a, st.archetype x.type = some a ∧ E q.filter a = some (some x.matched)

variable {E E' : ArchetypeFilter → Archetype → Option (Option Mask)}

theorem Lists.includeClean (h : Lists ctx E st q) :
    q.includeClean = (includeFlags ctx q.filter).1 :=
  congrArg Prod.fst h.flags

theorem Lists.includeDisabled (h : Lists ctx E st q) :
    q.includeDisabled = (includeFlags ctx q.filter).2 :=
  congrArg Prod.snd h.flags

theorem Lists.congr (h : Lists ctx E st q) (harch : st'.archetype = st.archetype)
    (hE : ∀ g a, st.archetype g = some a → E' q.filter a = E q.filter a) : Lists ctx E' st' q where
  flags := h.flags
  defined g a ha := by
    rw [harch] at ha
    rw [hE g a ha]
    exact h.defined g a ha
  distinct := h.distinct
  mem x := by
    rw [h.mem x, harch]
    refine exists_congr fun a => and_congr_right fun ha => ?_
    rw [hE x.type a ha]

theorem updateQueries_spec {add : Bool} (hs : st.updateQueries ents g a add = some st') :
    ∃ r : QueryCache → Bool,
      (∀ q, st.matchCache ents q.includeClean q.includeDisabled q.filter a = some (r q)) ∧
      st' = { st with queries := st.queries.map fun q => q.update g add (r q) } := by
  simp only [updateQueries, Option.bind_eq_bind, Option.bind_eq_some_iff, Option.some.injEq] at hs
  obtain ⟨type, htype, rfl⟩ := hs
  refine ⟨fun q => !((!q.includeClean && a.cleaning) || (!q.includeDisabled && a.disabled)
    || !q.filter.match a.type type), fun q => ?_, ?_⟩
  · rw [matchCache, htype]
    split_ifs with hclean hdisabled
    · simp [hclean]
    · simp [hdisabled]
    · simp [hclean, hdisabled]
  · simp only [QueryCache.update, Bool.not_not]

/-- The entry that is last takes the place of the one that goes. -/
theorem removeMatched_perm {gs : List MatchedArchetype} (h : (gs.map MatchedArchetype.type).Nodup) :
    (removeMatched g gs).Perm (gs.filter fun x => x.type ≠ g) := by
  cases hfind : gs.find? fun x => x.type == g with
  | none =>
      have hno : ∀ x ∈ gs, x.type ≠ g := by simpa using hfind
      have hidx : gs.findIdx (fun x => x.type == g) = gs.length :=
        List.findIdx_eq_length.mpr (by simpa using hfind)
      rw [removeMatched, if_pos hidx, List.filter_eq_self.mpr (by simpa using hno)]
  | some x =>
      obtain ⟨hx, before, after, rfl, hbefore⟩ := List.find?_eq_some_iff_append.mp hfind
      obtain rfl : x.type = g := eq_of_beq hx
      have hidx : (before ++ x :: after).findIdx (fun y => y.type == x.type) = before.length := by
        rw [List.findIdx_append, List.findIdx_eq_length.mpr (by simpa using hbefore),
          if_neg (lt_irrefl _), List.findIdx_cons, hx]
        simp
      rw [List.map_append, List.map_cons] at h
      have hafter : ∀ y ∈ after, y.type ≠ x.type := by
        intro y hy heq
        refine (List.nodup_cons.mp (List.nodup_append.mp h).2.1).1 ?_
        exact heq ▸ List.mem_map_of_mem hy
      have hfilter :
          (before ++ x :: after).filter (fun y => y.type ≠ x.type) = before ++ after := by
        rw [List.filter_append, List.filter_cons_of_neg (by simp),
          List.filter_eq_self.mpr (by simpa using hbefore),
          List.filter_eq_self.mpr (by simpa using hafter)]
      rw [hfilter, removeMatched, hidx, if_neg (by simp)]
      rcases List.eq_nil_or_concat after with rfl | ⟨rest, y, rfl⟩
      · simp
      · have hsnoc : before ++ x :: rest.concat y = (before ++ x :: rest) ++ [y] := by simp
        have hset : ((before ++ x :: rest) ++ [y]).set before.length y =
            (before ++ y :: rest) ++ [y] := by simp
        rw [hsnoc, List.getLast?_concat]
        dsimp only
        rw [hset, List.dropLast_concat, List.concat_eq_append]
        exact (List.perm_append_singleton y rest).symm.append_left before

/-- The archetypes after one is made, or freed. -/
theorem update_eq_some {x : ArchetypeId} {b : Option Archetype} {P : Archetype → Prop} :
    (∃ a, Function.update st.archetype g b x = some a ∧ P a) ↔
      x = g ∧ (∃ a, b = some a ∧ P a) ∨ x ≠ g ∧ ∃ a, st.archetype x = some a ∧ P a := by
  by_cases hx : x = g
  · subst hx
    simp
  · simp [hx]

theorem Lists.ne_of_none (h : Lists ctx E st q) (hg : st.archetype g = none) :
    ∀ x ∈ q.archetypes, x.type ≠ g := by
  rintro x hx rfl
  obtain ⟨a, ha, -⟩ := (h.mem x).mp hx
  exact Option.some_ne_none a (ha.symm.trans hg)

theorem Lists.add (h : Lists ctx E st q) {r : Bool} (hg : st.archetype g = none)
    (hE : E q.filter a = some (if r then some 0 else none)) :
    Lists ctx E { st with archetype := Function.update st.archetype g (some a) }
      (q.update g true r) := by
  have hdefined : ∀ k b, Function.update st.archetype g (some a) k = some b →
      E q.filter b ≠ none := by
    intro k b hb
    rw [Function.update_apply] at hb
    split_ifs at hb
    · rw [← Option.some.inj hb, hE]
      exact Option.some_ne_none _
    · exact h.defined k b hb
  have hne := h.ne_of_none hg
  cases r with
  | false =>
      refine ⟨h.flags, hdefined, h.distinct, fun x => ?_⟩
      refine (h.mem x).trans (Iff.trans ?_ update_eq_some.symm)
      rw [QueryCache.update_filter]
      by_cases hx : x.type = g
      · simp [hx, hg, hE]
      · simp [hx]
  | true =>
      refine ⟨h.flags, hdefined, ?_, fun x => ?_⟩
      · change ((q.archetypes ++ [MatchedArchetype.mk g 0]).map MatchedArchetype.type).Nodup
        rw [List.map_append, List.map_singleton, List.nodup_append]
        refine ⟨h.distinct, List.nodup_singleton g, ?_⟩
        rintro k hk l hl rfl
        obtain ⟨x, hx, rfl⟩ := List.mem_map.mp hk
        exact hne x hx (List.mem_singleton.mp hl)
      · change x ∈ q.archetypes ++ [MatchedArchetype.mk g 0] ↔ _
        refine Iff.trans ?_ update_eq_some.symm
        rw [List.mem_append, List.mem_singleton, h.mem x, QueryCache.update_filter]
        obtain ⟨k, m⟩ := x
        by_cases hx : k = g
        · subst hx
          simp only [hg, hE, reduceCtorEq, false_and, exists_false, MatchedArchetype.mk.injEq,
            true_and, if_true, Option.some.injEq, exists_eq_left', ne_eq, not_true_eq_false,
            or_false, false_or]
          exact eq_comm
        · simp [hx]

theorem Lists.remove (h : Lists ctx E st q) {r : Bool} (ha : st.archetype g = some a)
    (hE : r = false → E q.filter a = some none) :
    Lists ctx E { st with archetype := Function.update st.archetype g none }
      (q.update g false r) := by
  have hdefined : ∀ k b, Function.update st.archetype g none k = some b →
      E q.filter b ≠ none := by
    intro k b hb
    rw [Function.update_apply] at hb
    split_ifs at hb
    exact h.defined k b hb
  cases r with
  | false =>
      refine ⟨h.flags, hdefined, h.distinct, fun x => ?_⟩
      refine (h.mem x).trans (Iff.trans ?_ update_eq_some.symm)
      rw [QueryCache.update_filter]
      by_cases hx : x.type = g
      · simp [hx, ha, hE rfl]
      · simp [hx]
  | true =>
      have hperm := removeMatched_perm (g := g) h.distinct
      refine ⟨h.flags, hdefined, ?_, fun x => ?_⟩
      · refine (hperm.map MatchedArchetype.type).nodup_iff.mpr ?_
        exact h.distinct.sublist (List.filter_sublist.map MatchedArchetype.type)
      · refine Iff.trans ?_ update_eq_some.symm
        change x ∈ removeMatched g q.archetypes ↔ _
        rw [hperm.mem_iff, List.mem_filter, h.mem x, QueryCache.update_filter]
        simp [and_comm]

/-! ## The map of archetypes, and the lists over it -/

/-- `splice` changes nothing but the lists. -/
theorem splice_lists {c : ChunkId} (hs : st.splice g a c = some st') :
    ∃ links firstChunk lastChunk firstFree, st' =
      { st with
        links := links
        firstChunk := firstChunk
        lastChunk := lastChunk
        firstFree := firstFree } := by
  unfold splice at hs
  cases hf : st.firstChunk g with
  | none =>
      rw [hf] at hs
      exact ⟨_, _, _, _, (Option.some.inj hs).symm⟩
  | some head =>
      simp only [hf] at hs
      by_cases hlt : st.count c < a.chunkCapacity (st.ct c)
      · rw [if_pos hlt] at hs
        cases hl : st.lastChunk g with
        | none => simp [hl] at hs
        | some last =>
            simp only [hl] at hs
            exact ⟨_, _, _, _, (Option.some.inj hs).symm⟩
      · rw [if_neg hlt] at hs
        exact ⟨_, _, _, _, (Option.some.inj hs).symm⟩

/-- Neither an archetype nor a query has changed. -/
structure SameMap (st st' : Store) : Prop where
  queries : st'.queries = st.queries
  archetypes : st'.archetypes = st.archetypes
  archetype : st'.archetype = st.archetype
  freshArchetype : st'.freshArchetype = st.freshArchetype

section SameMap

variable {st'' : Store} {c : ChunkId}

theorem SameMap.refl (st : Store) : SameMap st st := ⟨rfl, rfl, rfl, rfl⟩

theorem SameMap.trans (h : SameMap st st') (h' : SameMap st' st'') : SameMap st st'' :=
  ⟨h'.1.trans h.1, h'.2.trans h.2, h'.3.trans h.3, h'.4.trans h.4⟩

theorem sameMap_structuralChange (st : Store) (g : ArchetypeId) (a : Archetype) (c : ChunkId) :
    SameMap st (st.structuralChange g a c) := by
  unfold structuralChange
  split <;> exact ⟨rfl, rfl, rfl, rfl⟩

theorem sameMap_addSize (st : Store) (g : ArchetypeId) (n : Nat) : SameMap st (st.addSize g n) :=
  ⟨rfl, rfl, rfl, rfl⟩

theorem sameMap_subSize (st : Store) (g : ArchetypeId) (n : Nat) : SameMap st (st.subSize g n) :=
  ⟨rfl, rfl, rfl, rfl⟩

theorem sameMap_addChunk (hs : st.addChunk g c = some st') : SameMap st st' := by
  simp only [Store.addChunk, Option.bind_eq_bind, Option.bind_eq_some_iff] at hs
  obtain ⟨a, -, hs⟩ := hs
  obtain ⟨links, firstChunk, lastChunk, firstFree, rfl⟩ := splice_lists hs
  have hsame := sameMap_structuralChange st g a c
  exact ⟨hsame.queries, hsame.archetypes, hsame.archetype, hsame.freshArchetype⟩

theorem sameMap_resizeChunk (hn : n ≠ 0) (hs : st.resizeChunk ents c n = some st') :
    SameMap st st' := by
  obtain ⟨links, firstChunk, lastChunk, firstFree, rfl⟩ := resizeChunk_lists hn hs
  exact ⟨rfl, rfl, rfl, rfl⟩

theorem sameMap_takeOut (st : Store) (g : ArchetypeId) (c : ChunkId) :
    SameMap st (st.takeOut g c) :=
  ⟨rfl, rfl, rfl, rfl⟩

theorem sameMap_allocateSlice {s : ChunkSlice} (hs : st.allocateSlice ents g n = some (st', s))
    (hpos : 0 < s.start + s.count) : SameMap st st' := by
  simp only [Store.allocateSlice, Option.bind_eq_bind, Option.bind_eq_some_iff] at hs
  obtain ⟨a, ha, hs⟩ := hs
  have hlast : ∀ {st₁ : Store} {c : ChunkId} {m k : Nat}, k ≠ 0 → SameMap st st₁ →
      ((st₁.structuralChange g a c).addSize g m).resizeChunk ents c k = some st' →
      SameMap st st' := by
    intro st₁ c m k hk h₁ hres
    exact h₁.trans ((sameMap_structuralChange st₁ g a c).trans
      ((sameMap_addSize _ g m).trans (sameMap_resizeChunk hk hres)))
  cases hf : st.firstFree g with
  | some c =>
      simp only [hf, Option.bind_eq_some_iff, Option.some.injEq, Prod.mk.injEq] at hs
      obtain ⟨_, rfl, st₂, hres, rfl, rfl⟩ := hs
      exact hlast (Nat.pos_iff_ne_zero.mp hpos) (SameMap.refl st) hres
  | none =>
      simp only [hf, Option.bind_eq_some_iff, Option.some.injEq, Prod.mk.injEq] at hs
      obtain ⟨⟨st₁, c⟩, hchunk, st₂, hres, rfl, rfl⟩ := hs
      simp only [Store.newChunk, ha, Option.bind_eq_bind, Option.bind_some,
        Option.bind_eq_some_iff, Option.some.injEq, Prod.mk.injEq] at hchunk
      obtain ⟨st₃, hadd, rfl, rfl⟩ := hchunk
      have hsame := sameMap_addChunk hadd
      exact hlast (Nat.pos_iff_ne_zero.mp hpos)
        ⟨hsame.queries, hsame.archetypes, hsame.archetype, hsame.freshArchetype⟩ hres

end SameMap

/-- The map is in order, with at most `N` numbers in use, and the list of each query has what
`E` gives. -/
structure Caches (ctx : Context) (E : ArchetypeFilter → Archetype → Option (Option Mask))
    (F : ArchetypeFilter → Prop) (N : Nat) (st : Store) : Prop where
  known : st.Known
  nodup : st.archetypes.Nodup
  fresh : st.freshArchetype ≤ N
  lists : ∀ q ∈ st.queries, F q.filter ∧ Lists ctx E st q

section Caches

variable {F : ArchetypeFilter → Prop} {c : ChunkId}

theorem Caches.congr (h : Caches ctx E F N st) (hs : SameMap st st') : Caches ctx E F N st' where
  known := (Renewed.of_eq hs.archetype hs.freshArchetype hs.archetypes).known h.known
  nodup := hs.archetypes ▸ h.nodup
  fresh := hs.freshArchetype ▸ h.fresh
  lists q hq := by
    obtain ⟨hF, hlists⟩ := h.lists q (hs.queries ▸ hq)
    exact ⟨hF, hlists.congr hs.archetype fun _ _ _ => rfl⟩

/-- The lists, once `E'` gives what `E` gave. -/
theorem Caches.now (h : Caches ctx E F N st)
    (hE : ∀ f, F f → ∀ g a, st.archetype g = some a → E' f a = E f a) :
    Caches ctx E' (fun f => ∃ q ∈ st.queries, q.filter = f) st.freshArchetype st where
  known := h.known
  nodup := h.nodup
  fresh := le_rfl
  lists q hq := by
    obtain ⟨hF, hlists⟩ := h.lists q hq
    exact ⟨⟨q, hq, rfl⟩, hlists.congr rfl (hE q.filter hF)⟩

/-- `get_archetype`, where each query that finds a new archetype has no bit for it. -/
theorem Caches.getArchetype {key : EntityType} (h : Caches ctx E F N st)
    (hs : Store.getArchetype ctx st ents key = some (st', g))
    (hE : ∀ a, st.findArchetype key = none → constructArchetype ctx key = some a →
      ∀ q ∈ st.queries, ∀ r, (st.newArchetype a).1.matchCache ents q.includeClean
        q.includeDisabled q.filter a = some r → E q.filter a = some (if r then some 0 else none)) :
    Caches ctx E F (N + 1) st' := by
  have hknown := (renewed_getArchetype hs).known h.known
  unfold Store.getArchetype at hs
  cases hf : st.findArchetype key with
  | some g' =>
      simp only [hf, Option.some.injEq, Prod.mk.injEq] at hs
      exact hs.1 ▸ ⟨h.known, h.nodup, Nat.le_succ_of_le h.fresh, h.lists⟩
  | none =>
      simp only [hf, Option.bind_eq_bind, Option.bind_eq_some_iff, Option.some.injEq,
        Prod.mk.injEq, addArchetype] at hs
      obtain ⟨a, ha, st₂, ⟨st₁, hup, rfl⟩, rfl, -⟩ := hs
      obtain ⟨r, hr, rfl⟩ := updateQueries_spec hup
      have hfree : st.archetype st.freshArchetype = none := by
        cases hold : st.archetype st.freshArchetype with
        | none => rfl
        | some b => exact absurd (h.known.numbered _ b hold) (lt_irrefl _)
      refine ⟨hknown, ?_, Nat.succ_le_succ h.fresh, ?_⟩
      · change (st.archetypes ++ [st.freshArchetype]).Nodup
        rw [List.nodup_append]
        refine ⟨h.nodup, List.nodup_singleton _, ?_⟩
        rintro k hk l hl rfl
        obtain ⟨b, hb⟩ := (h.known.listed k).mp hk
        rw [List.mem_singleton.mp hl, hfree] at hb
        simp at hb
      · intro q' hq'
        obtain ⟨q, hq, rfl⟩ := List.mem_map.mp hq'
        obtain ⟨hF, hlists⟩ := h.lists q hq
        rw [QueryCache.update_filter]
        have hadd := hlists.add hfree (hE a hf ha q hq (r q) (hr q))
        exact ⟨hF, hadd.congr rfl fun _ _ _ => rfl⟩

/-- `remove_chunk`, where a query whose test of an archetype that is freed fails had no entry
for it. -/
theorem Caches.removeChunk (h : Caches ctx E F N st) (ha : st.archetype g = some a)
    (hs : st.removeChunk ents g c = some st')
    (hE : ∀ st₁, st₁ = ((st.structuralChange g a c).subSize g (st.count c)).takeOut g c →
      ∀ q ∈ st.queries, matchWith (st₁.getArchetypeOf ents) (st₁.freshArchetype + 1)
        q.includeClean q.includeDisabled q.filter a = some false → E q.filter a = some none) :
    Caches ctx E F N st' := by
  have hknown := (renewed_removeChunk hs).known h.known
  simp only [Store.removeChunk, ha, Option.bind_eq_bind, Option.bind_some] at hs
  obtain ⟨st₁, hst₁⟩ : ∃ st₁, st₁ =
    ((st.structuralChange g a c).subSize g (st.count c)).takeOut g c := ⟨_, rfl⟩
  change (if (takeOut ((st.structuralChange g a c).subSize g (st.count c)) g c).firstChunk g = none
    then (takeOut ((st.structuralChange g a c).subSize g (st.count c)) g c).freeArchetype ents g a
    else some (takeOut ((st.structuralChange g a c).subSize g (st.count c)) g c)) = some st' at hs
  rw [← hst₁] at hs
  have hsame : SameMap st st₁ := by
    rw [hst₁]
    exact (sameMap_structuralChange st g a c).trans
      ((sameMap_subSize _ g _).trans (sameMap_takeOut _ g c))
  have h₁ := h.congr hsame
  split_ifs at hs
  · simp only [freeArchetype, Option.bind_eq_bind, Option.bind_eq_some_iff,
      Option.some.injEq] at hs
    obtain ⟨st₂, hup, rfl⟩ := hs
    obtain ⟨r, hr, rfl⟩ := updateQueries_spec hup
    refine ⟨hknown, h₁.nodup.filter _, h₁.fresh, ?_⟩
    intro q' hq'
    obtain ⟨q, hq, rfl⟩ := List.mem_map.mp hq'
    obtain ⟨hF, hlists⟩ := h₁.lists q hq
    have hremove := hlists.remove (r := r q) (hsame.archetype ▸ ha) fun hfalse => by
      refine hE st₁ hst₁ q (hsame.queries ▸ hq) ?_
      rw [← hfalse, ← hr q, matchCache_eq]
      rfl
    rw [QueryCache.update_filter]
    exact ⟨hF, hremove.congr rfl fun _ _ _ => rfl⟩
  · exact Option.some.inj hs ▸ h₁

/-! ## A fresh query -/

/-- The entries of the archetypes `l` for which `μ` has a mask. -/
def found (μ : ArchetypeId → Option Mask) (l : List ArchetypeId) : List MatchedArchetype :=
  l.flatMap fun g => (μ g).toList.map (MatchedArchetype.mk g)

theorem mem_found {μ : ArchetypeId → Option Mask} {l : List ArchetypeId} {x : MatchedArchetype} :
    x ∈ found μ l ↔ x.type ∈ l ∧ μ x.type = some x.matched := by
  simp only [found, List.mem_flatMap, List.mem_map, Option.mem_toList]
  constructor
  · rintro ⟨g, hg, m, hm, rfl⟩
    exact ⟨hg, hm⟩
  · rintro ⟨hg, hm⟩
    exact ⟨x.type, hg, x.matched, hm, rfl⟩

theorem types_found (μ : ArchetypeId → Option Mask) (l : List ArchetypeId) :
    ((found μ l).map MatchedArchetype.type).Sublist l := by
  induction l with
  | nil => exact List.Sublist.refl []
  | cons g l ih =>
      rw [found, List.flatMap_cons, List.map_append]
      cases μ g with
      | none => exact ih.cons g
      | some m => exact ih.cons_cons g

theorem computeQuery_found (hk : st.Known) {μ : ArchetypeId → Option Mask}
    (hμ : ∀ g a, st.archetype g = some a →
      entryWith ctx (st.getArchetypeOf ents) (st.freshArchetype + 1) f a = some (μ g)) :
    computeQuery ctx st ents f = some (found μ st.archetypes) := by
  rw [computeQuery_eq, mapM_eq_map, Option.map_some]
  · rfl
  · intro g hg
    obtain ⟨a, ha⟩ := (hk.listed g).mp hg
    rw [queryTurn_eq ha, hμ g a ha, Option.map_some]

theorem exists_found (hk : st.Known) {l : List MatchedArchetype}
    (hs : computeQuery ctx st ents f = some l) :
    ∃ μ, (∀ g a, st.archetype g = some a →
      entryWith ctx (st.getArchetypeOf ents) (st.freshArchetype + 1) f a = some (μ g)) ∧
      l = found μ st.archetypes := by
  have hμ : ∀ g, ∃ m, ∀ a, st.archetype g = some a →
      entryWith ctx (st.getArchetypeOf ents) (st.freshArchetype + 1) f a = some m := by
    intro g
    cases ha : st.archetype g with
    | none => exact ⟨none, by simp⟩
    | some a =>
        have hcompute := hs
        rw [computeQuery_eq] at hcompute
        obtain ⟨rs, hrs, -⟩ := Option.map_eq_some_iff.mp hcompute
        obtain ⟨r, -, hr⟩ := mem_of_mapM hrs ((hk.listed g).mpr ⟨a, ha⟩)
        rw [queryTurn_eq ha] at hr
        obtain ⟨m, hm, -⟩ := Option.map_eq_some_iff.mp hr
        exact ⟨m, fun b hb => Option.some.inj hb ▸ hm⟩
  choose μ hμ using hμ
  refine ⟨μ, hμ, Option.some.inj ?_⟩
  rw [← hs, computeQuery_found hk hμ]

/-- What `get_query_cache` computes has one entry for each archetype that is found. -/
theorem lists_computeQuery (hk : st.Known) (hnodup : st.archetypes.Nodup)
    {l : List MatchedArchetype} (hs : computeQuery ctx st ents f = some l) :
    Lists ctx (entryWith ctx (st.getArchetypeOf ents) (st.freshArchetype + 1)) st
      { includeClean := (includeFlags ctx f).1, includeDisabled := (includeFlags ctx f).2
        filter := f, archetypes := l } := by
  obtain ⟨μ, hμ, rfl⟩ := exists_found hk hs
  refine ⟨rfl, fun g a ha => ?_, hnodup.sublist (types_found μ _), fun x => ?_⟩
  · rw [hμ g a ha]
    exact Option.some_ne_none _
  · rw [mem_found, hk.listed]
    constructor
    · rintro ⟨⟨a, ha⟩, hm⟩
      exact ⟨a, ha, (hμ x.type a ha).trans (congrArg some hm)⟩
    · rintro ⟨a, ha, hentry⟩
      exact ⟨⟨a, ha⟩, Option.some.inj ((hμ x.type a ha).symm.trans hentry)⟩

/-- A list of all that is found is the one that is computed. -/
theorem Lists.perm (hk : st.Known) (hnodup : st.archetypes.Nodup)
    (h : Lists ctx (entryWith ctx (st.getArchetypeOf ents) (st.freshArchetype + 1)) st q) :
    ∃ l, computeQuery ctx st ents q.filter = some l ∧ q.archetypes.Perm l := by
  have hμ : ∀ g, ∃ m, ∀ a, st.archetype g = some a →
      entryWith ctx (st.getArchetypeOf ents) (st.freshArchetype + 1) q.filter a = some m := by
    intro g
    cases ha : st.archetype g with
    | none => exact ⟨none, by simp⟩
    | some a =>
        obtain ⟨m, hm⟩ := Option.ne_none_iff_exists'.mp (h.defined g a ha)
        exact ⟨m, fun b hb => Option.some.inj hb ▸ hm⟩
  choose μ hμ using hμ
  have hcompute := computeQuery_found hk hμ
  refine ⟨_, hcompute, ?_⟩
  have hfresh := lists_computeQuery hk hnodup hcompute
  refine (List.perm_ext_iff_of_nodup ?_ ?_).mpr fun x => (h.mem x).trans (hfresh.mem x).symm
  · exact List.Nodup.of_map _ h.distinct
  · exact List.Nodup.of_map _ hfresh.distinct

end Caches

/-! ## Archetypes whose metatypes stay -/

section Live

variable {c : ChunkId} {F : ArchetypeFilter → Prop} (hlive : st.MetasLive ents) (hn : st.Numbered)
  (hac : st.Acyclic ents)

include hlive hn hac

theorem sharedWith_live (ha : st.archetype g = some a) (hk : st.freshArchetype < k) :
    sharedWith (st.getArchetypeOf ents) k [] a = st.sharedType ents a := by
  refine sharedWith_eq (P := fun _ => True) (hlive.endsIn hac hn ha) trivial ?_ hk []
  exact fun _ _ _ _ b hb => ⟨hb, trivial⟩

/-- The level that a new archetype needs makes no difference to one that is there. -/
theorem sharedWith_succ (ha : st.archetype g = some a) :
    sharedWith (st.getArchetypeOf ents) (st.freshArchetype + 2) [] a =
      sharedWith (st.getArchetypeOf ents) (st.freshArchetype + 1) [] a := by
  rw [sharedWith_live hlive hn hac ha (Nat.lt_succ_of_lt (Nat.lt_succ_self _)),
    sharedWith_live hlive hn hac ha (Nat.lt_succ_self _)]

theorem test_eq (ha : st.archetype g = some a) :
    test ctx st ents f a = matchWith (st.getArchetypeOf ents) (st.freshArchetype + 1)
      (includeFlags ctx f).1 (includeFlags ctx f).2 f a :=
  matchWith_congr (sharedWith_succ hlive hn hac ha)

theorem entry_eq (ha : st.archetype g = some a) :
    entry ctx st ents f a =
      entryWith ctx (st.getArchetypeOf ents) (st.freshArchetype + 1) f a :=
  entryWith_congr (matchWith_congr (sharedWith_succ hlive hn hac ha))

/-- The shared types of an archetype do not depend on its own entities. -/
theorem Spares.sharedWith_eq (h : Spares st ents g st' ents') (ha : st.archetype g = some a)
    (hk : st.freshArchetype < k) :
    sharedWith (st'.getArchetypeOf ents') k [] a = st.sharedType ents a := by
  refine Store.sharedWith_eq (P := fun d => ∃ x, st.Inherits ents x g ∧ st.archetype x = some d)
    (hlive.endsIn hac hn ha) ⟨g, .refl, ha⟩ ?_ hk []
  rintro d ⟨x, hx, hd⟩ m hm b hb
  obtain ⟨j, hid, hb⟩ := getArchetypeOf_eq_some.mp hb
  have hmeta : st.MetaOf ents j x := ⟨d, b, m, hd, hm, hid, hb⟩
  have hne : j ≠ g := by
    rintro rfl
    exact hac j (Relation.TransGen.head' hmeta hx)
  exact ⟨getArchetypeOf_eq_some.mpr ⟨j, h.ids x d hd m hm j hid hne, h.archetype j b hb⟩,
    j, hx.head hmeta, hb⟩

/-- An archetype that is freed leaves the lists it is in. -/
theorem Caches.removeSpared {st'' : Store} (h : Caches ctx E F N st')
    (hsp : Spares st ents g st' ents') (ha : st.archetype g = some a) (hc : st'.type c = some g)
    (hE : ∀ f, F f → test ctx st ents f a = some false → E f a = some none)
    (hs : st'.removeChunk ents' g c = some st'') : Caches ctx E F N st'' := by
  refine h.removeChunk (hsp.archetype g a ha) hs fun st₁ hst₁ q hq hfalse => ?_
  obtain ⟨hF, hlists⟩ := h.lists q hq
  have hshape := (structuralChange_shape st' g a c).trans
    (subSize_shape (st'.structuralChange g a c) g (st'.count c))
  have hout : Spares st ents g st₁ ents' := by
    rw [hst₁]
    refine (hsp.congr hshape).setType (c := c) (t := none) ?_ rfl rfl rfl
    intro k hk
    rw [hshape.type, hc] at hk
    exact (Option.some.inj hk).symm
  have hshared : sharedWith (st₁.getArchetypeOf ents') (st₁.freshArchetype + 1) [] a =
      sharedWith (st.getArchetypeOf ents) (st.freshArchetype + 1) [] a := by
    rw [hout.sharedWith_eq hlive hn hac ha (Nat.lt_succ_of_le hout.fresh),
      sharedWith_live hlive hn hac ha (Nat.lt_succ_self _)]
  rw [matchWith_congr hshared, hlists.includeClean, hlists.includeDisabled] at hfalse
  exact hE _ hF ((test_eq hlive hn hac ha).trans hfalse)

end Live

end Store

end Dots

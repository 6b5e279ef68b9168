import Dots.Database.Lookup
import Dots.Library.Partial

/-!
# Queries and entity tests

A query for a set of types takes each type from any archetype below a matched one;
`has_component` wants an archetype that owns them all.
-/

namespace Dots

open Library

/-! ## The filter of a set of types -/

/-- `filter.all.types = type`. -/
def typesFilter (type : List TypeIndex) : ArchetypeFilter := { all := { types := type } }

theorem match_typesFilter (t : EntityType) (shared type : List TypeIndex) :
    (typesFilter type).match t shared = Set.all (Set.merge t.types shared) type := by
  simp [typesFilter, ArchetypeFilter.match, Set.substract, Set.any_nil, Set.all_nil]

/-- `get_mask` throws when a type of the set is past the 32 bits. -/
theorem maskFrom_ne_none {ts type : List TypeIndex} (hs : ts.Pairwise (· ≤ ·))
    (htype : Set.Sorted type) (i : Nat) :
    maskFrom i ts type ≠ none ↔ ∀ t ∈ type, t ∈ ts → i + ts.idxOf t < 32 := by
  induction ts generalizing i type with
  | nil => simp [maskFrom]
  | cons t ts ih =>
      obtain ⟨hle, hs'⟩ := List.pairwise_cons.mp hs
      have hdrop := List.takeWhile_append_dropWhile (p := fun u => decide (u < t)) (l := type)
      have hlow : ∀ u ∈ type.takeWhile fun u => decide (u < t), u ∉ t :: ts := by
        intro u hu hmem
        have hlt : u < t := by simpa using List.mem_takeWhile_imp hu
        rcases List.mem_cons.mp hmem with rfl | hmem
        · exact lt_irrefl u hlt
        · exact absurd hlt (not_lt.mpr (hle u hmem))
      have hsame : (∀ u ∈ type, u ∈ t :: ts → i + (t :: ts).idxOf u < 32) ↔
          ∀ u ∈ type.dropWhile fun u => decide (u < t), u ∈ t :: ts →
            i + (t :: ts).idxOf u < 32 := by
        conv_lhs => rw [← hdrop]
        rw [List.forall_mem_append]
        exact and_iff_right fun u hu hmem => absurd hmem (hlow u hu)
      have hsorted : Set.Sorted (type.dropWhile fun u => decide (u < t)) :=
        htype.sublist (List.dropWhile_sublist _)
      rw [hsame, maskFrom]
      cases hrest : type.dropWhile fun u => decide (u < t) with
      | nil => simp
      | cons u rest =>
          have hge : t ≤ u := by
            have hhead := List.head?_dropWhile_not (fun u => decide (u < t)) type
            rw [hrest] at hhead
            simpa using hhead
          rw [hrest] at hsorted
          obtain ⟨hrestlt, hsorted'⟩ := List.pairwise_cons.mp hsorted
          -- behind `t` the columns count from the next one
          have hshift : ∀ v, t < v → ((v ∈ t :: ts → i + (t :: ts).idxOf v < 32) ↔
              (v ∈ ts → i + 1 + ts.idxOf v < 32)) := by
            intro v hv
            rw [List.mem_cons, or_iff_right hv.ne', List.idxOf_cons_ne _ hv.ne]
            exact imp_congr_right fun _ => by omega
          dsimp only
          by_cases hlt : t < u
          · rw [if_pos hlt, ih hs' hsorted]
            refine forall₂_congr fun v hv => (hshift v ?_).symm
            rcases List.mem_cons.mp hv with rfl | hv
            · exact hlt
            · exact hlt.trans (hrestlt v hv)
          · obtain rfl : t = u := le_antisymm hge (not_lt.mp hlt)
            have hfirst : (t ∈ t :: ts → i + (t :: ts).idxOf t < 32) ↔ i < 32 := by
              simp
            have hothers : (∀ v ∈ rest, v ∈ t :: ts → i + (t :: ts).idxOf v < 32) ↔
                maskFrom (i + 1) ts rest ≠ none := by
              rw [ih hs' hsorted']
              exact forall₂_congr fun v hv => hshift v (hrestlt v hv)
            rw [if_neg hlt, List.forall_mem_cons, hfirst, hothers]
            by_cases hi : i < 32
            · cases maskFrom (i + 1) ts rest with
              | none => simp
              | some m => simp [hi]
            · cases maskFrom (i + 1) ts rest with
              | none => simp
              | some m => simp [hi]

namespace Store

variable {ctx : Context} {st : Store} {ents : Entities} {g : ArchetypeId} {a : Archetype}
  {type : List TypeIndex}

/-- What a query for cleaning or disabled archetypes leaves out. -/
def Asked (ctx : Context) (type : List TypeIndex) (a : Archetype) : Prop :=
  ((includeFlags ctx (typesFilter type)).1 = false → a.cleaning = false) ∧
    ((includeFlags ctx (typesFilter type)).2 = false → a.disabled = false)

/-- Each type of the set is owned by `g` or below it. -/
def FindsEach (st : Store) (ents : Entities) (type : List TypeIndex) (g : ArchetypeId) : Prop :=
  ∀ t ∈ type, st.Finds ents (fun d => t ∈ d.types) g

variable (ctx) in
theorem matchCache_spec (hkeys : st.SortedKeys) (hlive : st.MetasLive ents) (hn : st.Numbered)
    (hac : st.Acyclic ents) (htype : Set.Sorted type) (ha : st.archetype g = some a) :
    ∃ r, st.matchCache ents (includeFlags ctx (typesFilter type)).1
        (includeFlags ctx (typesFilter type)).2 (typesFilter type) a = some r ∧
      (r = true ↔ Asked ctx type a ∧ st.FindsEach ents type g) := by
  obtain ⟨shared, hshared, hmem⟩ := sharedType_spec hlive hn hac ha
  have hsorted : (Set.merge a.types shared).Pairwise (· ≤ ·) :=
    Set.pairwise_merge le_of_lt le_trans (hkeys g a ha).sorted
      (sorted_sharedTypeFrom (fun g a ha => (hkeys g a ha).sorted) List.Pairwise.nil hshared)
  have hmatch : (typesFilter type).match a.type shared = true ↔ st.FindsEach ents type g := by
    rw [match_typesFilter]
    change Set.all (Set.merge a.types shared) type = true ↔ _
    rw [Set.all_iff hsorted htype]
    refine forall₂_congr fun t _ => ?_
    rw [Set.mem_merge, hmem, finds_iff ha]
    rfl
  unfold matchCache Asked
  rw [hshared]
  split_ifs with hclean hdisabled
  · refine ⟨false, rfl, iff_of_false (by simp) ?_⟩
    rintro ⟨⟨h, -⟩, -⟩
    simp only [Bool.and_eq_true, Bool.not_eq_true'] at hclean
    simp [hclean.1, hclean.2] at h
  · refine ⟨false, rfl, iff_of_false (by simp) ?_⟩
    rintro ⟨⟨-, h⟩, -⟩
    simp only [Bool.and_eq_true, Bool.not_eq_true'] at hdisabled
    simp [hdisabled.1, hdisabled.2] at h
  · refine ⟨_, rfl, hmatch.trans (and_iff_right ⟨?_, ?_⟩).symm⟩
    · simpa using hclean
    · simpa using hdisabled

/-- The turn of `get_query_cache` for one archetype. -/
def queryTurn (ctx : Context) (st : Store) (ents : Entities) (f : ArchetypeFilter)
    (g : ArchetypeId) : Option (List MatchedArchetype) := do
  let a ← st.archetype g
  if ← st.matchCache ents (includeFlags ctx f).1 (includeFlags ctx f).2 f a then
    let m ← a.getMask (Set.merge f.all.types f.any.types)
    some [({ type := g, matched := m } : MatchedArchetype)]
  else some []

theorem computeQuery_eq (ctx : Context) (st : Store) (ents : Entities) (f : ArchetypeFilter) :
    computeQuery ctx st ents f =
      (st.archetypes.mapM (st.queryTurn ctx ents f)).map List.flatten := by
  rw [computeQuery, Option.map_eq_bind]
  rfl

/-- The types of the set have bits in the masks of an archetype. -/
def HasBits (type : List TypeIndex) (a : Archetype) : Prop :=
  ∀ t ∈ type, t ∈ a.types → a.types.idxOf t < 32

variable (ctx) in
theorem queryTurn_cases (hkeys : st.SortedKeys) (hlive : st.MetasLive ents) (hn : st.Numbered)
    (hac : st.Acyclic ents) (htype : Set.Sorted type) (ha : st.archetype g = some a) :
    ¬ (Asked ctx type a ∧ st.FindsEach ents type g) ∧
        st.queryTurn ctx ents (typesFilter type) g = some [] ∨
      (Asked ctx type a ∧ st.FindsEach ents type g) ∧ HasBits type a ∧
        (∃ m, st.queryTurn ctx ents (typesFilter type) g = some [{ type := g, matched := m }]) ∨
      (Asked ctx type a ∧ st.FindsEach ents type g) ∧ ¬ HasBits type a ∧
        st.queryTurn ctx ents (typesFilter type) g = none := by
  obtain ⟨r, hr, hiff⟩ := matchCache_spec ctx hkeys hlive hn hac htype ha
  have htypes : Set.merge (typesFilter type).all.types (typesFilter type).any.types = type :=
    Set.merge_nil type
  have hmask : a.getMask type ≠ none ↔ HasBits type a := by
    have hbits := maskFrom_ne_none (hkeys g a ha).sorted htype 0
    simp only [Nat.zero_add] at hbits
    exact hbits
  simp only [queryTurn, ha, hr, htypes, Option.bind_eq_bind, Option.bind_some]
  cases r with
  | false => exact Or.inl ⟨fun h => absurd (hiff.mpr h) Bool.false_ne_true, rfl⟩
  | true =>
      refine Or.inr ?_
      have hfound := hiff.mp rfl
      cases hm : a.getMask type with
      | none => exact Or.inr ⟨hfound, fun h => hmask.mpr h hm, rfl⟩
      | some m => exact Or.inl ⟨hfound, hmask.mp (by simp [hm]), m, rfl⟩

/-- The masks of the archetypes that a query finds have room for its types. -/
def Maskable (ctx : Context) (st : Store) (ents : Entities) (type : List TypeIndex) : Prop :=
  ∀ h d, st.archetype h = some d → Asked ctx type d → st.FindsEach ents type h →
    HasBits type d

variable (ctx) in
/-- A fresh query for a set of types finds the archetypes below which each of them is
owned. -/
theorem computeQuery_spec (hkeys : st.SortedKeys) (hlive : st.MetasLive ents) (hk : st.Known)
    (hac : st.Acyclic ents) (htype : Set.Sorted type) :
    (computeQuery ctx st ents (typesFilter type) ≠ none ↔ st.Maskable ctx ents type) ∧
      ∀ found, computeQuery ctx st ents (typesFilter type) = some found →
        ∀ g a, st.archetype g = some a →
          (g ∈ found.map MatchedArchetype.type ↔ Asked ctx type a ∧ st.FindsEach ents type g) := by
  have hturn : ∀ g a, st.archetype g = some a → _ := fun g a ha =>
    queryTurn_cases ctx hkeys hlive hk.numbered hac htype ha
  rw [computeQuery_eq]
  constructor
  · rw [ne_eq, Option.map_eq_none_iff]
    constructor
    · intro hret h d hd hasked heach
      obtain ⟨found, hfound⟩ := Option.ne_none_iff_exists'.mp hret
      obtain ⟨r, -, hr⟩ := mem_of_mapM hfound ((hk.listed h).mpr ⟨d, hd⟩)
      rcases hturn h d hd with ⟨hno, -⟩ | ⟨-, hbits, -⟩ | ⟨-, -, hnone⟩
      · exact absurd ⟨hasked, heach⟩ hno
      · exact hbits
      · simp [hnone] at hr
    · intro hbits
      have hall : ∀ g ∈ st.archetypes, st.queryTurn ctx ents (typesFilter type) g ≠ none := by
        intro g hg
        obtain ⟨a, ha⟩ := (hk.listed g).mp hg
        rcases hturn g a ha with ⟨-, hr⟩ | ⟨-, -, m, hr⟩ | ⟨⟨hasked, heach⟩, hno, -⟩
        · simp [hr]
        · simp [hr]
        · exact absurd (hbits g a ha hasked heach) hno
      obtain ⟨found, hfound⟩ := mapM_returns hall
      simp [hfound]
  · intro found hfound g a ha
    obtain ⟨rs, hrs, rfl⟩ := Option.map_eq_some_iff.mp hfound
    obtain ⟨r, hmem, hr⟩ := mem_of_mapM hrs ((hk.listed g).mpr ⟨a, ha⟩)
    constructor
    · intro hg
      obtain ⟨m, hm, rfl⟩ := List.mem_map.mp hg
      obtain ⟨r', hr', hm⟩ := List.mem_flatten.mp hm
      obtain ⟨g', hg', hturn'⟩ := of_mem_mapM hrs hr'
      obtain ⟨a', ha'⟩ := (hk.listed g').mp hg'
      rcases hturn g' a' ha' with ⟨-, hnil⟩ | ⟨hfinds, -, n, hone⟩ | ⟨-, -, hnone⟩
      · rw [hnil, Option.some.injEq] at hturn'
        exact absurd (hturn' ▸ hm) List.not_mem_nil
      · rw [hone, Option.some.injEq] at hturn'
        rw [← hturn', List.mem_singleton] at hm
        rw [hm] at ha ⊢
        exact Option.some.inj (ha'.symm.trans ha) ▸ hfinds
      · simp [hnone] at hturn'
    · intro hfinds
      rcases hturn g a ha with ⟨hno, -⟩ | ⟨-, -, n, hone⟩ | ⟨-, -, hnone⟩
      · exact absurd hfinds hno
      · rw [hone, Option.some.injEq] at hr
        have hin : ({ type := g, matched := n } : MatchedArchetype) ∈ rs.flatten :=
          List.mem_flatten.mpr ⟨r, hmem, hr ▸ List.mem_singleton_self _⟩
        exact List.mem_map.mpr ⟨_, hin, rfl⟩
      · simp [hnone] at hr

end Store

namespace World

variable {ctx : Context} {w : World} {e : Entity} {g : ArchetypeId} {a : Archetype}
  {type : List TypeIndex}

/-- `has_component` holds exactly when a fresh query for the types includes the archetype of
the entity, that is, when each type is owned by the entity or a metatype below it. -/
def QueriesAgree (ctx : Context) (w : World) (e : Entity) (g : ArchetypeId)
    (type : List TypeIndex) : Prop :=
  ∃ has found, Returns (fun fuel => w.hasComponent fuel e type) has ∧
    Store.computeQuery ctx w.store w.ents (typesFilter type) = some found ∧
    (has = true ↔ g ∈ found.map MatchedArchetype.type) ∧
    (has = true ↔ w.store.FindsEach w.ents type g)

theorem not_queriesAgree (hw : w.Browsable ctx) (htype : Set.Sorted type)
    (he : w.store.archetypeIdOf w.ents e = some g) (ha : w.store.archetype g = some a)
    (heach : w.store.FindsEach w.ents type g)
    (hmixed : ¬ w.store.Finds w.ents (fun d => ∀ t ∈ type, t ∈ d.types) g) :
    ¬ QueriesAgree ctx w e g type := by
  rintro ⟨has, found, hhas, -, -, hiff⟩
  obtain ⟨has', hhas', hiff'⟩ := returns_hasComponent hw htype he ha
  obtain rfl := hhas.unique hhas'
  exact hmixed (hiff'.mp (hiff.mpr heach))

/-- The entity test and the query agree exactly when types that are found one by one are
found together, and the masks of what the query finds have room. -/
theorem queriesAgree_iff (hctx : ctx.Built) (hreg : ctx.tracks.length < 2 ^ 30)
    (hw : Reachable ctx (fun _ op => op.SortedKeys) w) (hac : w.store.Acyclic w.ents)
    (hlive : w.store.MetasLive w.ents) (htype : Set.Sorted type)
    (he : w.store.archetypeIdOf w.ents e = some g) (ha : w.store.archetype g = some a)
    (hclean : a.cleaning = false) (hdisabled : a.disabled = false) :
    QueriesAgree ctx w e g type ↔
      ((∀ t ∈ type, w.store.Finds w.ents (fun d => t ∈ d.types) g) →
        w.store.Finds w.ents (fun d => ∀ t ∈ type, t ∈ d.types) g) ∧
      w.store.Maskable ctx w.ents type := by
  have hb := browsable_of_reachable hctx hreg hw hac fun g a ha m hm _ => hlive g a ha m hm
  obtain ⟨has, hhas, hiff⟩ := returns_hasComponent hb htype he ha
  obtain ⟨hret, hfound⟩ := Store.computeQuery_spec ctx hb.sorted hlive hb.known hac htype
  have hasked : Store.Asked ctx type a := ⟨fun _ => hclean, fun _ => hdisabled⟩
  constructor
  · intro hagree
    refine ⟨fun heach => ?_, ?_⟩
    · by_contra hmixed
      exact not_queriesAgree hb htype he ha heach hmixed hagree
    · obtain ⟨-, found, -, hquery, -⟩ := hagree
      exact hret.mp (hquery ▸ Option.some_ne_none found)
  · rintro ⟨htogether, hmask⟩
    obtain ⟨found, hquery⟩ := Option.ne_none_iff_exists'.mp (hret.mpr hmask)
    have heach : has = true ↔ w.store.FindsEach w.ents type g := by
      rw [hiff]
      refine ⟨?_, htogether⟩
      rintro ⟨h, d, hin, hd, hall⟩ t ht
      exact ⟨h, d, hin, hd, hall t ht⟩
    refine ⟨has, found, hhas, hquery, ?_, heach⟩
    rw [hfound found hquery g a ha, heach]
    exact (and_iff_right hasked).symm

/-- One type is always found alike. -/
theorem queriesAgree_single : ∃ w a b, IsHeir w a b ∧ QueriesAgree narrowWide w ⟨256⟩ 1 [5] := by
  obtain ⟨w, a, b, h⟩ := isHeir
  have hflags : (constructArchetype narrowWide { types := [4], metatypes := [⟨0⟩] }).map
      (fun a => (a.cleaning, a.disabled)) = some (false, false) := by decide +kernel
  have hbuilt := h.browsable.constructed 1 a h.own
  rw [← h.typeA, hbuilt, Option.map_some, Option.some.injEq, Prod.mk.injEq] at hflags
  refine ⟨w, a, b, h, ?_⟩
  refine (queriesAgree_iff built_narrowWide (by decide) h.reach h.acyclic h.metasLive
    (by decide) h.idA h.own hflags.1 hflags.2).mpr ⟨fun _ => ?_, ?_⟩
  · obtain ⟨k, d, hin, hd, hmem⟩ := h.finds
    exact ⟨k, d, hin, hd, by simpa using hmem⟩
  · intro k d hd _ _ t _ ht
    have hlt := List.idxOf_lt_length_of_mem ht
    have hlen : d.types.length = 1 := by
      rcases h.only k d hd with ⟨-, rfl⟩ | ⟨-, rfl⟩
      · rw [Archetype.types, h.typeB]
        rfl
      · rw [Archetype.types, h.typeA]
        rfl
    omega

/-- Component 4 is owned and component 5 inherited: the query finds both, and
`has_component` does not. -/
theorem not_queriesAgree_mixed : ∃ w a b, IsHeir w a b ∧
    ¬ QueriesAgree narrowWide w ⟨256⟩ 1 [4, 5] := by
  obtain ⟨w, a, b, h⟩ := isHeir
  refine ⟨w, a, b, h, not_queriesAgree h.browsable (by decide) h.idA h.own ?_ ?_⟩
  · intro t ht
    rcases List.mem_pair.mp ht with rfl | rfl
    · exact ⟨1, a, .refl, h.own, by simp [h.types_own]⟩
    · exact h.finds
  · rintro ⟨k, d, -, hd, hall⟩
    rcases h.only k d hd with ⟨-, rfl⟩ | ⟨-, rfl⟩
    · have hmem := hall 4 (by simp)
      rw [Archetype.types, h.typeB] at hmem
      exact absurd hmem (by decide)
    · have hmem := hall 5 (by simp)
      rw [h.types_own] at hmem
      exact absurd hmem (by decide)

end World

end Dots

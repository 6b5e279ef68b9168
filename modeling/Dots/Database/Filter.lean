import Dots.Database.Store
import Dots.Runtime.Cursor

/-!
# `archetype_filter::match`

The test runs on sorted arrays, with three of them as scratch space. It says which types are
owned, which are inherited, and which are neither.
-/

namespace Dots

namespace ArchetypeFilter

/-- `if (!test) return false;`, and what is behind it. -/
def require (test rest : Option Bool) : Option Bool := do
  if ← test then rest else some false

/-- `length > 0 && !test`, negated. -/
def whenAny {α : Type*} (xs : List α) (test : Option Bool) : Option Bool :=
  if xs.length > 0 then test else some true

/-- `archetype_filter::match`, on the arrays. `left` is what is left of the stack, and `junk` what
the scratch space holds before. -/
def matchArrays (junk : Nat → TypeIndex) (left : Nat) (f : ArchetypeFilter) (t : EntityType)
    (sharedT : List TypeIndex) : Option Bool := do
  let (_components, left) ← Set.stackArray junk 4 (t.types.length + sharedT.length) left
  let (data, length) ← Set.mergeTo t.types sharedT _components
  let components := data.take length
  require (Set.allOf components f.all.types) <|
    require (whenAny f.any.types (Set.anyOf components f.any.types)) do
      let (_nonOwned, left) ← Set.stackArray junk 4 f.none.types.length left
      let (_nonShared, _) ← Set.stackArray junk 4 f.none.types.length left
      let (data, length) ← Set.substractTo f.none.types f.shared _nonOwned
      let nonOwned := data.take length
      let (data, length) ← Set.substractTo f.none.types f.owned _nonShared
      let nonShared := data.take length
      require ((Set.anyOf t.types nonOwned).map not) <|
        require ((Set.anyOf sharedT nonShared).map not) <|
        require (Set.allOf t.types f.owned) <|
        require (Set.allOf sharedT f.shared) <|
        require (Set.allOf t.metatypes f.all.metatypes) <|
        require (whenAny f.any.metatypes (Set.anyOf t.metatypes f.any.metatypes)) <|
        require ((Set.anyOf t.metatypes f.none.metatypes).map not) (some true)

/-- All sets of a filter are sets. -/
structure IsSets (f : ArchetypeFilter) : Prop where
  all : Set.IsSet f.all.types
  allMetas : Set.IsSet f.all.metatypes
  any : Set.IsSet f.any.types
  anyMetas : Set.IsSet f.any.metatypes
  none : Set.IsSet f.none.types
  noneMetas : Set.IsSet f.none.metatypes
  shared : Set.IsSet f.shared
  owned : Set.IsSet f.owned

/-- What a filter asks of an entity type `t` and the types `s` it inherits. -/
structure Matches (f : ArchetypeFilter) (t : EntityType) (s : List TypeIndex) : Prop where
  all : ∀ u ∈ f.all.types, u ∈ t.types ∨ u ∈ s
  any : f.any.types = [] ∨ ∃ u ∈ f.any.types, u ∈ t.types ∨ u ∈ s
  noneOwned : ∀ u ∈ t.types, ¬ (u ∈ f.none.types ∧ u ∉ f.shared)
  noneShared : ∀ u ∈ s, ¬ (u ∈ f.none.types ∧ u ∉ f.owned)
  owned : ∀ u ∈ f.owned, u ∈ t.types
  shared : ∀ u ∈ f.shared, u ∈ s
  allMetas : ∀ m ∈ f.all.metatypes, m ∈ t.metatypes
  anyMetas : f.any.metatypes = [] ∨ ∃ m ∈ f.any.metatypes, m ∈ t.metatypes
  noneMetas : ∀ m ∈ t.metatypes, m ∉ f.none.metatypes

/-- The stack has room for an array of all types, and for two of those of `none` where an entity
has what `all` and `any` ask for. -/
structure HasRoom (f : ArchetypeFilter) (left : Nat) (t : EntityType) (s : List TypeIndex) :
    Prop where
  components : 4 * (t.types.length + s.length) + 4 ≤ left
  others : (∀ u ∈ f.all.types, u ∈ t.types ∨ u ∈ s) →
    (f.any.types = [] ∨ ∃ u ∈ f.any.types, u ∈ t.types ∨ u ∈ s) →
      4 * (t.types.length + s.length) + 4 + 2 * (4 * f.none.types.length + 4) ≤ left

variable {f : ArchetypeFilter} {t : EntityType} {s : List TypeIndex} {left : Nat}

theorem require_true (rest : Option Bool) : require (some true) rest = rest := rfl

theorem require_false (rest : Option Bool) : require (some false) rest = some false := rfl

@[simp] theorem require_some (a b : Bool) : require (some a) (some b) = some (a && b) := by
  cases a <;> rfl

theorem whenAny_some {α : Type*} (xs : List α) (b : Bool) :
    whenAny xs (some b) = some (!(decide (xs.length > 0) && !b)) := by
  rw [whenAny]
  split_ifs with h
  · simp [h]
  · simp [h]

/-- Two arrays, one after the other, or no room for both. -/
theorem stackArray_pair (junk : Nat → TypeIndex) (n left : Nat) :
    ((stackRoom left [4 * n, 4 * n]).isSome = true ∧ ∃ l₁ l₂,
      Set.stackArray junk 4 n left = some (Set.arrayOf junk n, l₁) ∧
        Set.stackArray junk 4 n l₁ = some (Set.arrayOf junk n, l₂)) ∨
      (stackRoom left [4 * n, 4 * n]).isSome = false ∧
        (Set.stackArray junk 4 n left = Option.none ∨ ∃ l₁,
          Set.stackArray junk 4 n left = some (Set.arrayOf junk n, l₁) ∧
            Set.stackArray junk 4 n l₁ = Option.none) := by
  simp only [Set.stackArray, stackRoom]
  by_cases hfirst : 4 * n + 4 ≤ left
  · by_cases hsecond : 4 * n + 4 ≤ left - (4 * n + 4)
    · simp [hfirst, hsecond]
    · simp [hfirst, hsecond, Nat.lt_of_not_le hsecond]
  · simp [hfirst]

/-- On arrays the test comes out as on lists, if the stack has room for them. -/
theorem matchArrays_eq (hf : f.IsSets) (ht : Set.IsSet t.types) (hm : Set.IsSet t.metatypes)
    (hs : Set.IsSet s) (hlen : t.types.length + s.length < 2 ^ 16) (junk : Nat → TypeIndex)
    (left : Nat) : f.matchArrays junk left t s =
      if f.matchFits left t s then some (f.match t s) else Option.none := by
  have hle := Set.length_merge_le t.types s
  obtain ⟨data, hmerge, -, hdata⟩ := Set.mergeTo_eq
    (Set.arrayOf junk (t.types.length + s.length)) ht.narrow hs.narrow
    (by rwa [Set.length_arrayOf]) (by omega)
  obtain ⟨nonOwned, hown, -, hnonOwned⟩ := Set.substractTo_eq
    (Set.arrayOf junk f.none.types.length) hf.none.narrow hf.shared.narrow
    (by rw [Set.length_arrayOf])
  obtain ⟨nonShared, hsh, -, hnonShared⟩ := Set.substractTo_eq
    (Set.arrayOf junk f.none.types.length) hf.none.narrow hf.owned.narrow
    (by rw [Set.length_arrayOf])
  have hnarrow : ∀ xs, (Set.substract f.none.types xs).length < 2 ^ 16 := fun xs =>
    (Set.substract_sublist f.none.types xs).length_le.trans_lt hf.none.narrow
  have hcomp : (Set.merge t.types s).length < 2 ^ 16 := hle.trans_lt hlen
  rw [matchArrays, matchFits, Set.stackArray]
  cases stackRoom left [4 * (t.types.length + s.length)] with
  | none => rfl
  | some left =>
      simp only [Option.map_some, Option.bind_eq_bind, Option.bind_some, hmerge, hdata,
        Option.any_some, Set.allOf_eq hcomp hf.all.narrow, Set.anyOf_eq hcomp hf.any.narrow,
        whenAny_some]
      by_cases hall : Set.all (Set.merge t.types s) f.all.types = true
      · cases hany : decide (f.any.types.length > 0) &&
            !Set.any (Set.merge t.types s) f.any.types with
        | false =>
          simp only [hall, Bool.not_false, require_true, Bool.not_true, Bool.or_self,
            Bool.false_or]
          rcases stackArray_pair junk f.none.types.length left with
            ⟨hroom, l₁, l₂, hfirst, hsecond⟩ | ⟨hroom, hfirst | ⟨l₁, hfirst, hsecond⟩⟩
          · rw [if_pos hroom]
            simp only [hfirst, hsecond, hown, hsh, hnonOwned, hnonShared, Option.bind_some,
              Set.anyOf_eq ht.narrow (hnarrow f.shared), Set.anyOf_eq hs.narrow (hnarrow f.owned),
              Set.allOf_eq ht.narrow hf.owned.narrow, Set.allOf_eq hs.narrow hf.shared.narrow,
              Set.allOf_eq hm.narrow hf.allMetas.narrow, Set.anyOf_eq hm.narrow hf.anyMetas.narrow,
              Set.anyOf_eq hm.narrow hf.noneMetas.narrow, Option.map_some, whenAny_some,
              require_some, Bool.and_true, ArchetypeFilter.match, hall, hany, Bool.true_and,
              Bool.and_assoc, Bool.not_false]
          · rw [if_neg (ne_true_of_eq_false hroom), hfirst, Option.bind_none]
          · rw [if_neg (ne_true_of_eq_false hroom), hfirst, Option.bind_some, hsecond,
              Option.bind_none]
        | true =>
          simp only [hall, hany, Bool.not_true, require_true, require_false, Bool.or_true,
            Bool.true_or, if_true, ArchetypeFilter.match, Bool.and_false, Bool.false_and]
      · rw [eq_false_of_ne_true hall, require_false]
        simp [ArchetypeFilter.match, eq_false_of_ne_true hall]

theorem whenAny_iff {α : Type*} (xs : List α) (b : Bool) :
    (!(decide (xs.length > 0) && !b)) = true ↔ xs = [] ∨ b = true := by
  cases xs with
  | nil => simp
  | cons x xs => simp

/-- The test on lists, set by set. -/
theorem match_iff (hf : f.IsSets) (ht : Set.IsSet t.types) (hm : Set.IsSet t.metatypes)
    (hs : Set.IsSet s) : f.match t s = true ↔ f.Matches t s := by
  have hcomp : Set.Sorted (Set.merge t.types s) := Set.sorted_merge ht.sorted hs.sorted
  have hmem := Set.mem_merge t.types s
  have hall := Set.all_iff (hcomp.imp le_of_lt) hf.all.sorted
  have hany := Set.any_iff hcomp hf.any.sorted
  have hnonOwned := Set.any_iff ht.sorted (Set.sorted_substract hf.none.sorted f.shared)
  have hnonShared := Set.any_iff hs.sorted (Set.sorted_substract hf.none.sorted f.owned)
  have howned := Set.all_iff (ht.sorted.imp le_of_lt) hf.owned.sorted
  have hshared := Set.all_iff (hs.sorted.imp le_of_lt) hf.shared.sorted
  have hallMetas := Set.all_iff (hm.sorted.imp le_of_lt) hf.allMetas.sorted
  have hanyMetas := Set.any_iff hm.sorted hf.anyMetas.sorted
  have hnoneMetas := Set.any_iff hm.sorted hf.noneMetas.sorted
  have hnot : ∀ b : Bool, (!b) = true ↔ ¬ b = true := by simp
  simp only [hmem] at hall hany
  simp only [Set.mem_substract hf.none.sorted hf.shared.sorted] at hnonOwned
  simp only [Set.mem_substract hf.none.sorted hf.owned.sorted] at hnonShared
  simp only [ArchetypeFilter.match, Bool.and_eq_true, whenAny_iff]
  simp only [hnot, hall, hany, hnonOwned, hnonShared, howned, hshared, hallMetas, hanyMetas,
    hnoneMetas, not_exists]
  constructor
  · rintro ⟨⟨⟨⟨⟨⟨⟨⟨h₁, h₂⟩, h₃⟩, h₄⟩, h₅⟩, h₆⟩, h₇⟩, h₈⟩, h₉⟩
    constructor
    · exact h₁
    · exact h₂.imp_right fun ⟨u, hu, hin⟩ => ⟨u, hin, hu⟩
    · exact fun u hu hin => h₃ u ⟨hu, hin⟩
    · exact fun u hu hin => h₄ u ⟨hu, hin⟩
    · exact h₅
    · exact h₆
    · exact h₇
    · exact h₈.imp_right fun ⟨m, hm, hin⟩ => ⟨m, hin, hm⟩
    · exact fun m hm hin => h₉ m ⟨hm, hin⟩
  · intro h
    refine ⟨⟨⟨⟨⟨⟨⟨⟨h.all, ?_⟩, ?_⟩, ?_⟩, h.owned⟩, h.shared⟩, h.allMetas⟩, ?_⟩, ?_⟩
    · exact h.any.imp_right fun ⟨u, hu, hin⟩ => ⟨u, hin, hu⟩
    · exact fun u ⟨hu, hin⟩ => h.noneOwned u hu hin
    · exact fun u ⟨hu, hin⟩ => h.noneShared u hu hin
    · exact h.anyMetas.imp_right fun ⟨m, hm, hin⟩ => ⟨m, hin, hm⟩
    · exact fun m ⟨hm, hin⟩ => h.noneMetas m hm hin

theorem matchArrays_eq_none (junk : Nat → TypeIndex) (f : ArchetypeFilter) (s : List TypeIndex)
    (h : left < 4 * (t.types.length + s.length) + 4) :
    f.matchArrays junk left t s = Option.none := by
  rw [matchArrays, Set.stackArray, stackRoom, if_neg (Nat.not_le_of_lt h)]
  rfl

/-- The test for room, set by set. -/
theorem matchFits_iff (hf : f.IsSets) (ht : Set.IsSet t.types) (hs : Set.IsSet s) (left : Nat) :
    f.matchFits left t s = true ↔ f.HasRoom left t s := by
  have hcomp : Set.Sorted (Set.merge t.types s) := Set.sorted_merge ht.sorted hs.sorted
  have hmem := Set.mem_merge t.types s
  have hall := Set.all_iff (hcomp.imp le_of_lt) hf.all.sorted
  have hany := Set.any_iff hcomp hf.any.sorted
  have hnone := whenAny_iff f.any.types (Set.any (Set.merge t.types s) f.any.types)
  simp only [hmem] at hall hany
  simp only [Bool.not_eq_true', hany] at hnone
  have hpair : ∀ n left, (stackRoom left [4 * n, 4 * n]).isSome = true ↔
      2 * (4 * n + 4) ≤ left := by
    intro n left
    rw [stackRoom_eq]
    simp only [List.map_cons, List.map_nil, List.sum_cons, List.sum_nil]
    split_ifs <;> simp <;> omega
  rw [matchFits, stackRoom_eq left [_]]
  simp only [List.map_cons, List.map_nil, List.sum_cons, List.sum_nil, Nat.add_zero]
  split_ifs with hle
  · simp only [Option.any_some, Bool.or_eq_true, hpair, Bool.not_eq_true']
    constructor
    · intro h
      refine ⟨hle, fun h₁ h₂ => ?_⟩
      rcases h with (h | h) | h
      · exact absurd (hall.mpr h₁) (ne_true_of_eq_false h)
      · exact absurd h (ne_true_of_eq_false (hnone.mpr (h₂.imp_right fun ⟨u, hu, hin⟩ =>
          ⟨u, hin, hu⟩)))
      · omega
    · intro h
      by_cases h₁ : Set.all (Set.merge t.types s) f.all.types = true
      · cases h₂ : decide (f.any.types.length > 0) &&
            !Set.any (Set.merge t.types s) f.any.types with
        | true => exact Or.inl (Or.inr rfl)
        | false =>
            have hroom := h.others (hall.mp h₁) ((hnone.mp h₂).imp_right fun ⟨u, hin, hu⟩ =>
              ⟨u, hu, hin⟩)
            exact Or.inr (by omega)
      · exact Or.inl (Or.inl (eq_false_of_ne_true h₁))
  · simp only [Option.any_none, Bool.false_eq_true, false_iff]
    exact fun h => hle h.components

/-- `archetype_filter::match` is the test it should be, for all sets whose lengths fit, exactly
when the stack has room for its arrays. -/
theorem matchArrays_iff (hf : f.IsSets) (ht : Set.IsSet t.types) (hm : Set.IsSet t.metatypes)
    (hs : Set.IsSet s) (hlen : t.types.length + s.length ≤ 65535) (junk : Nat → TypeIndex)
    (left : Nat) :
    ((f.matchArrays junk left t s = some true ↔ f.Matches t s) ∧
      (f.matchArrays junk left t s = some false ↔ ¬ f.Matches t s)) ↔ f.HasRoom left t s := by
  rw [matchArrays_eq hf ht hm hs (Nat.lt_succ_of_le hlen) junk, ← match_iff hf ht hm hs,
    ← matchFits_iff hf ht hs]
  split_ifs with hfits
  · simp [hfits]
  · cases f.match t s <;> simp [hfits]

/-- The filter for type 4 without 5 or 6, where 6 may be owned, on an entity that owns 4 and 6
and inherits 7. -/
theorem matchArrays_own : ∃ f : ArchetypeFilter,
    f = { all := { types := [4] }, none := { types := [5, 6] }, shared := [6] } ∧
      ((f.matchArrays (fun _ => 9) kStackSize { types := [4, 6] } [7] = some true ↔
          f.Matches { types := [4, 6] } [7]) ∧
        (f.matchArrays (fun _ => 9) kStackSize { types := [4, 6] } [7] = some false ↔
          ¬ f.Matches { types := [4, 6] } [7])) := by
  refine ⟨_, rfl, (matchArrays_iff ?_ ⟨by decide, by decide⟩ ⟨by decide, by decide⟩
    ⟨by decide, by decide⟩ (by decide) _ _).mpr ⟨by decide, fun _ _ => by decide⟩⟩
  constructor <;> exact ⟨by decide, by decide⟩

/-- 2500 types leave no room for the header of their array. -/
theorem not_matchArrays_many : ∃ ts, ts = List.range 2500 ∧ Set.IsSet ts ∧
    ∀ (f : ArchetypeFilter) (junk : Nat → TypeIndex),
      ¬ ((f.matchArrays junk kStackSize { types := ts } [] = some true ↔
          f.Matches { types := ts } []) ∧
        (f.matchArrays junk kStackSize { types := ts } [] = some false ↔
          ¬ f.Matches { types := ts } [])) := by
  refine ⟨_, rfl, ⟨List.pairwise_lt_range, by rw [List.length_range]; decide⟩, fun f junk h => ?_⟩
  have hnone : f.matchArrays junk kStackSize { types := List.range 2500 } [] = Option.none := by
    apply matchArrays_eq_none
    rw [List.length_range]
    decide
  rw [hnone] at h
  exact Option.some_ne_none _ (h.2.mpr (h.1.mpr.mt (Option.some_ne_none _).symm)).symm

end ArchetypeFilter

end Dots

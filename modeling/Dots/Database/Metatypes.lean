import Dots.Database.Renewed
import Dots.Library.Descent

/-!
# The graph of metatypes

A metatype is an entity; its archetype has metatypes of its own. The shared types of an
archetype are those of the archetypes below it in this graph. They are computed along it, so
it must not have cycles, and no metatype may be gone.
-/

namespace Dots

open Library

namespace Store

variable {ctx : Context} {st : Store} {ents : Entities} {g h : ArchetypeId} {a b : Archetype}

/-- `h` is the archetype of a metatype of `g`. -/
def MetaOf (st : Store) (ents : Entities) (h g : ArchetypeId) : Prop :=
  ∃ a b m, st.archetype g = some a ∧ m ∈ a.metatypes ∧ st.archetypeIdOf ents m = some h ∧
    st.archetype h = some b

/-- No archetype is reached from itself. -/
def Acyclic (st : Store) (ents : Entities) : Prop :=
  ∀ g, ¬ Relation.TransGen (st.MetaOf ents) g g

/-- Archetypes that exist are numbered. -/
def Numbered (st : Store) : Prop := ∀ g a, st.archetype g = some a → g < st.freshArchetype

theorem MetaOf.mem_range (hn : st.Numbered) (hm : st.MetaOf ents h g) :
    h ∈ (Finset.range st.freshArchetype : Set Nat) := by
  obtain ⟨-, b, -, -, -, -, hb⟩ := hm
  exact Finset.mem_coe.mpr (Finset.mem_range.mpr (hn h b hb))

theorem height_metaOf_lt (hn : st.Numbered) (hac : st.Acyclic ents) (hm : st.MetaOf ents h g) :
    height (st.MetaOf ents) h < height (st.MetaOf ents) g :=
  height_lt (Finset.finite_toSet _) (fun _ _ => MetaOf.mem_range hn) hac hm

theorem height_metaOf_le (hn : st.Numbered) (g : ArchetypeId) :
    height (st.MetaOf ents) g ≤ st.freshArchetype := by
  have hin : ∀ y x, st.MetaOf ents y x → y ∈ (Finset.range st.freshArchetype : Set Nat) :=
    fun _ _ => MetaOf.mem_range hn
  have hle := height_le (Finset.finite_toSet _) hin g
  rwa [Set.ncard_coe_finset, Finset.card_range] at hle

/-- `h` is `g` or below it. -/
def Inherits (st : Store) (ents : Entities) (h g : ArchetypeId) : Prop :=
  Relation.ReflTransGen (st.MetaOf ents) h g

/-- `g` or an archetype below it satisfies `Q`. -/
def Finds (st : Store) (ents : Entities) (Q : Archetype → Prop) (g : ArchetypeId) : Prop :=
  ∃ h d, st.Inherits ents h g ∧ st.archetype h = some d ∧ Q d

/-- One level of the graph. -/
theorem finds_iff {Q : Archetype → Prop} (ha : st.archetype g = some a) :
    st.Finds ents Q g ↔
      Q a ∨ ∃ m ∈ a.metatypes, ∃ k, st.archetypeIdOf ents m = some k ∧ st.Finds ents Q k := by
  constructor
  · rintro ⟨h, d, hin, hd, hq⟩
    rcases Relation.ReflTransGen.cases_tail hin with rfl | ⟨k, hk, a', b, m, ha', hm, hid, hb⟩
    · exact Or.inl (Option.some.inj (ha.symm.trans hd) ▸ hq)
    · obtain rfl := Option.some.inj (ha.symm.trans ha')
      exact Or.inr ⟨m, hm, k, hid, h, d, hk, hd, hq⟩
  · rintro (hq | ⟨m, hm, k, hid, h, d, hin, hd, hq⟩)
    · exact ⟨g, a, .refl, ha, hq⟩
    · have hk : ∃ b, st.archetype k = some b := by
        rcases Relation.ReflTransGen.cases_tail hin with rfl | ⟨-, -, b, -, -, hb, -⟩
        · exact ⟨d, hd⟩
        · exact ⟨b, hb⟩
      obtain ⟨b, hb⟩ := hk
      exact ⟨h, d, hin.tail ⟨a, b, m, ha, hm, hid, hb⟩, hd, hq⟩

/-- The metatypes of `a` are there, and a recursion of depth `n` gets to the end. -/
def Within (st : Store) (ents : Entities) (n : Nat) (ms : List Entity) : Prop :=
  ∀ m ∈ ms, ∃ h b, st.archetypeIdOf ents m = some h ∧ st.archetype h = some b ∧
    height (st.MetaOf ents) h < n

/-- All metatypes are there. -/
def MetasLive (st : Store) (ents : Entities) : Prop :=
  ∀ g a, st.archetype g = some a → ∀ m ∈ a.metatypes, st.getArchetypeOf ents m ≠ none

theorem getArchetypeOf_eq_some {m : Entity} :
    st.getArchetypeOf ents m = some b ↔
      ∃ h, st.archetypeIdOf ents m = some h ∧ st.archetype h = some b :=
  Option.bind_eq_some_iff

theorem MetasLive.within (hlive : st.MetasLive ents) (hn : st.Numbered) (hac : st.Acyclic ents)
    (ha : st.archetype g = some a) :
    st.Within ents (height (st.MetaOf ents) g) a.metatypes := by
  intro m hm
  obtain ⟨b, hb⟩ := Option.ne_none_iff_exists'.mp (hlive g a ha m hm)
  obtain ⟨h, hid, hb⟩ := getArchetypeOf_eq_some.mp hb
  exact ⟨h, b, hid, hb, height_metaOf_lt hn hac ⟨a, b, m, ha, hm, hid, hb⟩⟩

/-- The metatype `m` owns `t`, or gets it from a metatype. -/
def Provides (st : Store) (ents : Entities) (m : Entity) (t : TypeIndex) : Prop :=
  ∃ k, st.archetypeIdOf ents m = some k ∧ st.Finds ents (fun d => t ∈ d.types) k

theorem provides_iff {m : Entity} {t : TypeIndex} (hid : st.archetypeIdOf ents m = some h)
    (hb : st.archetype h = some b) :
    st.Provides ents m t ↔ t ∈ b.types ∨ ∃ m' ∈ b.metatypes, st.Provides ents m' t := by
  constructor
  · rintro ⟨k, hk, hfinds⟩
    obtain rfl := Option.some.inj (hid.symm.trans hk)
    exact (finds_iff hb).mp hfinds
  · intro hfinds
    exact ⟨h, hid, (finds_iff hb).mpr hfinds⟩

/-- `get_shared_type` returns the types that the metatypes provide. -/
theorem sharedTypeFrom_spec (hlive : st.MetasLive ents) (hn : st.Numbered)
    (hac : st.Acyclic ents) {n : Nat} (type : List TypeIndex)
    (hw : st.Within ents n a.metatypes) :
    ∃ ts, st.sharedTypeFrom ents (n + 1) type a = some ts ∧
      ∀ t, t ∈ ts ↔ t ∈ type ∨ ∃ m ∈ a.metatypes, st.Provides ents m t := by
  induction n generalizing a type with
  | zero =>
      have hnil : a.metatypes = [] := by
        apply List.eq_nil_iff_forall_not_mem.mpr
        intro m hm
        obtain ⟨h, b, -, -, hlt⟩ := hw m hm
        omega
      exact ⟨type, by rw [sharedTypeFrom, hnil]; rfl, by simp [hnil]⟩
  | succ n ih =>
      rw [sharedTypeFrom]
      -- the loop over the metatypes
      generalize a.metatypes = ms at hw
      induction ms generalizing type with
      | nil => exact ⟨type, rfl, by simp⟩
      | cons m ms ihms =>
          obtain ⟨h, b, hid, hb, hlt⟩ := hw m List.mem_cons_self
          have hin : st.Within ents n b.metatypes := by
            intro m' hm'
            obtain ⟨k, d, hk, hd, hkh⟩ := hlive.within hn hac hb m' hm'
            exact ⟨k, d, hk, hd, by omega⟩
          obtain ⟨ts, hts, hmem⟩ := ih (Set.merge b.types type) hin
          obtain ⟨us, hus, hmem'⟩ := ihms ts fun m' hm' => hw m' (List.mem_cons_of_mem m hm')
          refine ⟨us, ?_, fun t => ?_⟩
          · rw [List.foldlM_cons, getArchetypeOf_eq_some.mpr ⟨h, hid, hb⟩, Option.bind_eq_bind,
              Option.bind_eq_bind, Option.bind_some, hts, Option.bind_some]
            exact hus
          · rw [hmem', hmem, Set.mem_merge, List.exists_mem_cons_iff, provides_iff hid hb]
            simp only [or_assoc, or_left_comm (b := t ∈ type)]

/-- Shared types are sorted like the types of archetypes. -/
theorem sorted_sharedTypeFrom (hkeys : ∀ g a, st.archetype g = some a → a.types.Pairwise (· ≤ ·))
    {n : Nat} {type ts : List TypeIndex} (htype : type.Pairwise (· ≤ ·))
    (hs : st.sharedTypeFrom ents n type a = some ts) : ts.Pairwise (· ≤ ·) := by
  induction n generalizing a type ts with
  | zero => simp [sharedTypeFrom] at hs
  | succ n ih =>
      rw [sharedTypeFrom] at hs
      refine foldlM_invariant (P := fun type : List TypeIndex => type.Pairwise (· ≤ ·)) ?_ hs htype
      intro m _ type type' hturn htype
      simp only [Option.bind_eq_bind, Option.bind_eq_some_iff] at hturn
      obtain ⟨b, hb, hrec⟩ := hturn
      obtain ⟨h, -, hb⟩ := getArchetypeOf_eq_some.mp hb
      exact ih (Set.pairwise_merge le_of_lt le_trans (hkeys h b hb) htype) hrec

theorem sharedType_spec (hlive : st.MetasLive ents) (hn : st.Numbered) (hac : st.Acyclic ents)
    (ha : st.archetype g = some a) :
    ∃ ts, st.sharedType ents a = some ts ∧
      ∀ t, t ∈ ts ↔ ∃ m ∈ a.metatypes, st.Provides ents m t := by
  have hw : st.Within ents st.freshArchetype a.metatypes := by
    intro m hm
    obtain ⟨h, b, hid, hb, hlt⟩ := hlive.within hn hac ha m hm
    exact ⟨h, b, hid, hb, hlt.trans_le (height_metaOf_le hn g)⟩
  obtain ⟨ts, hts, hmem⟩ := sharedTypeFrom_spec hlive hn hac [] hw
  exact ⟨ts, hts, fun t => (hmem t).trans (by simp)⟩

/-- `get_shared_type` returns when the metatypes lead down a rank. -/
theorem sharedTypeFrom_returns {P : ArchetypeId → Prop} (rank : ArchetypeId → Nat)
    (hdown : ∀ k d, P k → st.archetype k = some d → ∀ m ∈ d.metatypes, ∃ h b,
      st.archetypeIdOf ents m = some h ∧ st.archetype h = some b ∧ P h ∧ rank h < rank k)
    {n : Nat} {type : List TypeIndex}
    (hn : ∀ m ∈ a.metatypes, ∃ h b,
      st.archetypeIdOf ents m = some h ∧ st.archetype h = some b ∧ P h ∧ rank h < n) :
    st.sharedTypeFrom ents (n + 1) type a ≠ none := by
  induction n generalizing a type with
  | zero =>
      rw [sharedTypeFrom]
      refine foldlM_returns (fun m hm => ?_) type
      obtain ⟨h, b, -, -, -, hlt⟩ := hn m hm
      exact absurd hlt (Nat.not_lt_zero _)
  | succ n ih =>
      rw [sharedTypeFrom]
      refine foldlM_returns (fun m hm type => ?_) type
      obtain ⟨h, b, hid, hb, hP, hlt⟩ := hn m hm
      rw [getArchetypeOf_eq_some.mpr ⟨h, hid, hb⟩, Option.bind_eq_bind, Option.bind_some]
      refine ih fun m' hm' => ?_
      obtain ⟨h', b', hid', hb', hP', hlt'⟩ := hdown h b hP hb m' hm'
      exact ⟨h', b', hid', hb', hP', by omega⟩

/-! ## Changes of the graph -/

section Change

variable {st' : Store} {ents' : Entities}

/-- The shared types of a new archetype, whose metatypes are there. -/
theorem sharedType_newArchetype (hlive : st.MetasLive ents) (hn : st.Numbered)
    (hac : st.Acyclic ents) (hmetas : ∀ m ∈ a.metatypes, st.getArchetypeOf ents m ≠ none) :
    (st.newArchetype a).1.sharedType ents a ≠ none := by
  have hsame : ∀ h b, st.archetype h = some b → (st.newArchetype a).1.archetype h = some b := by
    intro h b hb
    rw [newArchetype_archetype, if_neg (hn h b hb).ne]
    exact hb
  -- the archetypes there are have their metatypes among themselves
  refine sharedTypeFrom_returns (P := fun k => ∃ d, st.archetype k = some d)
    (height (st.MetaOf ents)) ?_ ?_
  · rintro k d ⟨d', hd'⟩ hd m hm
    obtain rfl := Option.some.inj ((hsame k d' hd').symm.trans hd)
    obtain ⟨b, hb⟩ := Option.ne_none_iff_exists'.mp (hlive k d' hd' m hm)
    obtain ⟨h, hid, hb⟩ := getArchetypeOf_eq_some.mp hb
    exact ⟨h, b, hid, hsame h b hb, ⟨b, hb⟩,
      height_metaOf_lt hn hac ⟨d', b, m, hd', hm, hid, hb⟩⟩
  · intro m hm
    obtain ⟨b, hb⟩ := Option.ne_none_iff_exists'.mp (hmetas m hm)
    obtain ⟨h, hid, hb⟩ := getArchetypeOf_eq_some.mp hb
    exact ⟨h, b, hid, hsame h b hb, ⟨b, hb⟩,
      (height_metaOf_le hn h).trans_lt (Nat.lt_succ_self _)⟩

/-- What there was at `st` and `ents`, outside the archetype `g`, is still there. -/
structure Spares (st : Store) (ents : Entities) (g : ArchetypeId) (st' : Store)
    (ents' : Entities) : Prop where
  archetype : ∀ h b, st.archetype h = some b → st'.archetype h = some b
  fresh : st.freshArchetype ≤ st'.freshArchetype
  ids : ∀ k d, st.archetype k = some d → ∀ m ∈ d.metatypes, ∀ h,
    st.archetypeIdOf ents m = some h → h ≠ g → st'.archetypeIdOf ents' m = some h

theorem Spares.refl (st : Store) (ents : Entities) (g : ArchetypeId) : Spares st ents g st ents where
  archetype _ _ hb := hb
  fresh := le_rfl
  ids _ _ _ _ _ _ hid _ := hid

/-- The shared types of an archetype do not depend on its own entities. -/
theorem Spares.sharedType (h : Spares st ents g st' ents') (hlive : st.MetasLive ents)
    (hn : st.Numbered) (hac : st.Acyclic ents) (ha : st.archetype g = some a) :
    st'.sharedType ents' a ≠ none := by
  have hstep : ∀ k d, st.Inherits ents k g → st.archetype k = some d → ∀ m ∈ d.metatypes,
      ∃ h b, st'.archetypeIdOf ents' m = some h ∧ st'.archetype h = some b ∧
        (st.Inherits ents h g ∧ ∃ b, st.archetype h = some b) ∧
        height (st.MetaOf ents) h < height (st.MetaOf ents) k := by
    intro k d hk hd m hm
    obtain ⟨b, hb⟩ := Option.ne_none_iff_exists'.mp (hlive k d hd m hm)
    obtain ⟨j, hidm, hb⟩ := getArchetypeOf_eq_some.mp hb
    have hmeta : st.MetaOf ents j k := ⟨d, b, m, hd, hm, hidm, hb⟩
    have hne : j ≠ g := by
      rintro rfl
      exact hac j (Relation.TransGen.head' hmeta hk)
    exact ⟨j, b, h.ids k d hd m hm j hidm hne, h.archetype j b hb, ⟨hk.head hmeta, b, hb⟩,
      height_metaOf_lt hn hac hmeta⟩
  refine sharedTypeFrom_returns (P := fun k => st.Inherits ents k g ∧ ∃ b, st.archetype k = some b)
    (height (st.MetaOf ents)) ?_ ?_
  · rintro k d ⟨hk, d', hd'⟩ hd
    obtain rfl := Option.some.inj ((h.archetype k d' hd').symm.trans hd)
    exact hstep k d' hk hd'
  · intro m hm
    obtain ⟨j, b, hidm, hb, hin, hlt⟩ := hstep g a .refl ha m hm
    exact ⟨j, b, hidm, hb, hin, (hlt.trans_le (height_metaOf_le hn g)).trans_le h.fresh⟩

end Change

end Store

end Dots

import Dots.Database.Keys
import Dots.Database.Registry

/-!
# Target types of casts

`get_casted` rewrites a sorted array in several phases. Every phase keeps it strictly sorted,
so the two-cursor loops compute what they say they do.
-/

namespace Dots

open Library

namespace World

variable {ctx : Context} {w w' : World} {a b : Archetype} {diff : TypeDiff} {key : EntityType}
  {ts : List TypeIndex} {t u : TypeIndex}

/-! ## The specification -/

/-- The types of both sets. -/
def Joined (a : Archetype) (diff : TypeDiff) (t : TypeIndex) : Prop :=
  t ∈ a.types ∨ t ∈ diff.extend.types

/-- What is left of them when an extension completes the copies. -/
def Completed (ctx : Context) (a : Archetype) (diff : TypeDiff) (t : TypeIndex) : Prop :=
  Joined a diff t ∧ (a.copying = true → diff.extend ≠ EntityType.empty →
    ∀ u, Joined a diff u → (ctx.track u).manualCopying = true → t ≠ u + 1)

/-- The types that go: with a type, its twin. -/
def Removed (ctx : Context) (a : Archetype) (diff : TypeDiff) (t : TypeIndex) : Prop :=
  t ∈ diff.shrink.types ∨ a.copying = true ∧
    ∃ u ∈ diff.shrink.types, (ctx.track u).manualCopying = true ∧ t = u + 1

/-- Sets that name no twin. -/
structure TwinFree (ctx : Context) (type : EntityType) : Prop where
  types : Set.Sorted type.types
  metatypes : Set.Sorted type.metatypes
  plain : ∀ t ∈ type.types, (ctx.track t).copying = false

/-- The types and metatypes of a cast. -/
structure CastedTo (ctx : Context) (a : Archetype) (diff : TypeDiff) (key : EntityType) : Prop where
  sorted : Set.Sorted key.types
  types : ∀ t, t ∈ key.types ↔ Completed ctx a diff t ∧ ¬ Removed ctx a diff t
  metatypes : ∀ m, m ∈ key.metatypes ↔
    (m ∈ a.metatypes ∨ m ∈ diff.extend.metatypes) ∧ m ∉ diff.shrink.metatypes

/-- No twin next to its type. -/
def Unpaired (ctx : Context) (ts : List TypeIndex) : Prop :=
  ∀ t ∈ ts, (ctx.track t).manualCopying = true → t + 1 ∉ ts

/-! ## The phases -/

theorem mem_zipCopying (htwin : ∀ u, (ctx.track u).manualCopying = true →
      (ctx.track (u + 1)).manualCopying = false) (t : TypeIndex) :
    ∀ {ts : List TypeIndex}, Set.Sorted ts → (t ∈ zipCopying ctx ts ↔
      t ∈ ts ∧ ∀ u ∈ ts, (ctx.track u).manualCopying = true → t ≠ u + 1)
  | [], _ => by simp [zipCopying]
  | [x], _ => by
      rw [zipCopying, List.mem_singleton]
      constructor
      · rintro rfl
        refine ⟨rfl, fun u hu _ => ?_⟩
        rw [List.mem_singleton.mp hu]
        exact (Nat.succ_ne_self _).symm
      · exact fun h => h.1
  | x :: y :: ts, h => by
      obtain ⟨hx, hrest⟩ := List.pairwise_cons.mp h
      obtain ⟨hy, hts⟩ := List.pairwise_cons.mp hrest
      have hxy := hx y List.mem_cons_self
      rw [zipCopying]
      split_ifs with hzip
      · obtain ⟨hm, hsucc⟩ := Bool.and_eq_true_iff.mp hzip
        obtain rfl : y = x + 1 := beq_iff_eq.mp hsucc
        rw [List.mem_cons, mem_zipCopying htwin t hts]
        constructor
        · rintro (rfl | ⟨ht, hnot⟩)
          · refine ⟨List.mem_cons_self, fun u hu _ => ?_⟩
            rcases List.mem_cons.mp hu with rfl | hu
            · exact (Nat.succ_ne_self _).symm
            · exact ((hx u hu).trans (Nat.lt_succ_self u)).ne
          · refine ⟨List.mem_cons_of_mem _ (List.mem_cons_of_mem _ ht), fun u hu hu' => ?_⟩
            have hlt := hy t ht
            rcases List.mem_cons.mp hu with rfl | hu
            · exact hlt.ne'
            · rcases List.mem_cons.mp hu with rfl | hu
              · rw [htwin x hm] at hu'
                exact absurd hu' Bool.false_ne_true
              · exact hnot u hu hu'
        · rintro ⟨ht, hnot⟩
          rcases List.mem_cons.mp ht with rfl | ht
          · exact Or.inl rfl
          · rcases List.mem_cons.mp ht with rfl | ht
            · exact absurd rfl (hnot x List.mem_cons_self hm)
            · exact Or.inr ⟨ht, fun u hu =>
                hnot u (List.mem_cons_of_mem _ (List.mem_cons_of_mem _ hu))⟩
      · have hkeep : (ctx.track x).manualCopying = true → y ≠ x + 1 := by
          rintro hm rfl
          exact hzip (by rw [hm, beq_self_eq_true, Bool.true_and])
        rw [List.mem_cons, mem_zipCopying htwin t hrest]
        constructor
        · rintro (rfl | ⟨ht, hnot⟩)
          · refine ⟨List.mem_cons_self, fun u hu _ => ?_⟩
            rcases List.mem_cons.mp hu with rfl | hu
            · exact (Nat.succ_ne_self _).symm
            · exact ((hx u hu).trans (Nat.lt_succ_self u)).ne
          · refine ⟨List.mem_cons_of_mem _ ht, fun u hu hu' => ?_⟩
            rcases List.mem_cons.mp hu with rfl | hu
            · -- all that follow are past the twin of the first
              have hne := hkeep hu'
              rcases List.mem_cons.mp ht with rfl | ht
              · exact hne
              · exact (lt_of_le_of_lt (Nat.succ_le_of_lt hxy) (hy t ht)).ne'
            · exact hnot u hu hu'
        · rintro ⟨ht, hnot⟩
          rcases List.mem_cons.mp ht with rfl | ht
          · exact Or.inl rfl
          · exact Or.inr ⟨ht, fun u hu => hnot u (List.mem_cons_of_mem _ hu)⟩

/-- Phase 3 keeps the order, since the types to remove are no twins. -/
theorem sorted_withTwins (hplain : ∀ t ∈ ts, (ctx.track t).manualCopying = true → t + 1 ∉ ts)
    (h : Set.Sorted ts) :
    Set.Sorted (ts.flatMap fun t => if (ctx.track t).manualCopying then [t, t + 1] else [t]) := by
  rw [Set.Sorted, List.pairwise_flatMap]
  refine ⟨fun t _ => ?_, h.imp_of_mem fun {t u} ht hu htu x hx y hy => ?_⟩
  · split_ifs
    · exact List.pairwise_pair.mpr (Nat.lt_succ_self t)
    · exact List.pairwise_singleton _ t
  · have hlt : (ctx.track t).manualCopying = true → t + 1 < u := by
      intro hm
      have hne : t + 1 ≠ u := fun heq => hplain t ht hm (heq ▸ hu)
      exact lt_of_le_of_ne (Nat.succ_le_of_lt htu) hne
    have hxu : x < u := by
      split_ifs at hx with hm
      · rcases List.mem_pair.mp hx with rfl | rfl
        · exact htu
        · exact hlt hm
      · exact List.mem_singleton.mp hx ▸ htu
    have huy : u ≤ y := by
      split_ifs at hy
      · rcases List.mem_pair.mp hy with rfl | rfl
        · exact le_rfl
        · exact Nat.le_succ u
      · exact (List.mem_singleton.mp hy).ge
    exact hxu.trans_le huy

theorem mem_withTwins :
    t ∈ ts.flatMap (fun t => if (ctx.track t).manualCopying then [t, t + 1] else [t]) ↔
      t ∈ ts ∨ ∃ u ∈ ts, (ctx.track u).manualCopying = true ∧ t = u + 1 := by
  rw [List.mem_flatMap]
  constructor
  · rintro ⟨u, hu, ht⟩
    split_ifs at ht with hm
    · rcases List.mem_pair.mp ht with rfl | rfl
      · exact Or.inl hu
      · exact Or.inr ⟨u, hu, hm, rfl⟩
    · exact Or.inl (List.mem_singleton.mp ht ▸ hu)
  · rintro (ht | ⟨u, hu, hm, rfl⟩)
    · refine ⟨t, ht, ?_⟩
      split_ifs <;> simp
    · exact ⟨u, hu, by rw [if_pos hm]; simp⟩

/-! ## The whole function -/

section Casted

theorem notManual_twin (hctx : ctx.Built) (hreg : ctx.tracks.length ≤ 2 ^ 30) (u : TypeIndex)
    (hu : (ctx.track u).manualCopying = true) : (ctx.track (u + 1)).manualCopying = false := by
  rw [(track_twin hctx hreg hu).1]

/-- A set that names no twin has none of a member. -/
theorem TwinFree.unpaired (hctx : ctx.Built) (hreg : ctx.tracks.length ≤ 2 ^ 30)
    (h : TwinFree ctx key) : Unpaired ctx key.types := by
  intro t _ hm hmem
  have hplain := h.plain (t + 1) hmem
  rw [(track_twin hctx hreg hm).1] at hplain
  exact Bool.noConfusion hplain

/-- Phases 1 and 2. -/
def extended (ctx : Context) (a : Archetype) (diff : TypeDiff) : EntityType :=
  let key := if diff.extend ≠ EntityType.empty then a.type.merge diff.extend else a.type
  if a.copying && decide (diff.extend ≠ EntityType.empty) then
    { key with types := zipCopying ctx key.types }
  else key

theorem castedType_eq (ctx : Context) (a : Archetype) (diff : TypeDiff) :
    castedType ctx a diff false =
      if diff.shrink ≠ EntityType.empty then
        (extended ctx a diff).substract (if a.copying then
          { diff.shrink with types := diff.shrink.types.flatMap fun t =>
              if (ctx.track t).manualCopying then [t, t + 1] else [t] }
        else diff.shrink)
      else extended ctx a diff := rfl

theorem extended_spec (hctx : ctx.Built) (hreg : ctx.tracks.length ≤ 2 ^ 30)
    (hts : Set.Sorted a.types) (hms : Set.Sorted a.metatypes) (hext : TwinFree ctx diff.extend) :
    Set.Sorted (extended ctx a diff).types ∧ Set.Sorted (extended ctx a diff).metatypes ∧
      (∀ t, t ∈ (extended ctx a diff).types ↔ Completed ctx a diff t) ∧
      ∀ m, m ∈ (extended ctx a diff).metatypes ↔
        m ∈ a.metatypes ∨ m ∈ diff.extend.metatypes := by
  by_cases hempty : diff.extend = EntityType.empty
  · have hkey : extended ctx a diff = a.type := by
      simp [extended, hempty]
    rw [hkey]
    refine ⟨hts, hms, fun t => ?_, fun m => ?_⟩
    · simp only [Completed, Joined, hempty, EntityType.empty, List.not_mem_nil, or_false, ne_eq,
        not_true_eq_false, false_implies, implies_true, and_true]
      rfl
    · simp only [hempty, EntityType.empty, List.not_mem_nil, or_false]
      rfl
  · have hmerged : Set.Sorted (Set.merge a.types diff.extend.types) :=
      Set.sorted_merge hts hext.types
    have hmem : ∀ t, t ∈ Set.merge a.types diff.extend.types ↔ Joined a diff t :=
      fun t => Set.mem_merge _ _ t
    have hmetas := Set.sorted_merge hms hext.metatypes
    have hmem' : ∀ m, m ∈ Set.merge a.metatypes diff.extend.metatypes ↔
        m ∈ a.metatypes ∨ m ∈ diff.extend.metatypes := fun m => Set.mem_merge _ _ m
    cases hcopy : a.copying with
    | false =>
        have hkey : extended ctx a diff = a.type.merge diff.extend := by
          simp [extended, hempty, hcopy]
        rw [hkey]
        refine ⟨hmerged, hmetas, fun t => (hmem t).trans ?_, hmem'⟩
        simp [Completed, hcopy]
    | true =>
        have hkey : extended ctx a diff = { a.type.merge diff.extend with
            types := zipCopying ctx (Set.merge a.types diff.extend.types) } := by
          simp [extended, hempty, hcopy, EntityType.merge, Archetype.types]
        rw [hkey]
        refine ⟨hmerged.sublist (zipCopying_sublist ctx _), hmetas, fun t => ?_, hmem'⟩
        refine (mem_zipCopying (notManual_twin hctx hreg) t hmerged).trans ?_
        simp only [hmem, Completed, hcopy, true_implies, ne_eq, hempty, not_false_eq_true]

/-- The key of a cast. -/
theorem castedTo (hctx : ctx.Built) (hreg : ctx.tracks.length ≤ 2 ^ 30)
    (hts : Set.Sorted a.types) (hms : Set.Sorted a.metatypes) (hext : TwinFree ctx diff.extend)
    (hshr : TwinFree ctx diff.shrink) :
    CastedTo ctx a diff (castedType ctx a diff false) := by
  obtain ⟨hsorted, hmetas, htypes, hmetatypes⟩ := extended_spec hctx hreg hts hms hext
  rw [castedType_eq]
  by_cases hempty : diff.shrink = EntityType.empty
  · rw [if_neg (not_not.mpr hempty)]
    refine ⟨hsorted, fun t => ?_, fun m => ?_⟩
    · rw [htypes]
      simp [Removed, hempty, EntityType.empty]
    · rw [hmetatypes]
      simp [hempty, EntityType.empty]
  · rw [if_pos hempty]
    cases hcopy : a.copying with
    | false =>
        refine ⟨Set.sorted_substract hsorted _, fun t => ?_, fun m => ?_⟩
        · refine (Set.mem_substract hsorted hshr.types t).trans ?_
          rw [htypes]
          simp [Removed, hcopy]
        · refine (Set.mem_substract hmetas hshr.metatypes m).trans ?_
          rw [hmetatypes]
    | true =>
        have htwins := sorted_withTwins (hshr.unpaired hctx hreg) hshr.types
        refine ⟨Set.sorted_substract hsorted _, fun t => ?_, fun m => ?_⟩
        · refine (Set.mem_substract hsorted htwins t).trans ?_
          rw [htypes, mem_withTwins]
          simp only [Removed, hcopy, true_and]
        · refine (Set.mem_substract hmetas hshr.metatypes m).trans ?_
          rw [hmetatypes]

/-- One element is left. -/
theorem isCleaned_iff (h : Set.Sorted key.types) :
    isCleaned key = true ↔ ∃ t, ∀ u, u ∈ key.types ↔ u = t := by
  rw [isCleaned, beq_iff_eq, List.length_eq_one_iff]
  constructor
  · rintro ⟨t, ht⟩
    exact ⟨t, fun u => by rw [ht, List.mem_singleton]⟩
  · rintro ⟨t, ht⟩
    refine ⟨t, ?_⟩
    have hsub : key.types ⊆ [t] := fun u hu => List.mem_singleton.mpr ((ht u).mp hu)
    have hnodup : key.types.Nodup := h.imp ne_of_lt
    have hle := (hnodup.subperm hsub).length_le
    match hkey : key.types with
    | [] => exact absurd ((ht t).mpr rfl) (hkey ▸ List.not_mem_nil)
    | [x] => rw [(ht x).mp (hkey ▸ List.mem_singleton_self x)]
    | x :: y :: l =>
        rw [hkey] at hle
        simp at hle

/-- The types of an instance: manually copied types become their twins. -/
theorem castedType_instance (ha : constructArchetype ctx key = some a) :
    (castedType ctx a {} true).types =
        a.types.map (fun t => if (ctx.track t).manualCopying then t + 1 else t) ∧
      (castedType ctx a {} true).metatypes = a.metatypes := by
  have hempty : ({} : EntityType) = EntityType.empty := rfl
  cases htracked : a.withTracked with
  | true =>
      simp only [castedType, htracked, hempty, Bool.and_self, if_true, ne_eq,
        not_true_eq_false, if_false, decide_false, Bool.and_false, Bool.false_eq_true]
      exact ⟨rfl, rfl⟩
  | false =>
      simp only [castedType, htracked, hempty, Bool.and_false, if_false, ne_eq,
        not_true_eq_false, decide_false, Bool.false_eq_true]
      refine ⟨?_, rfl⟩
      have hid : ∀ t ∈ a.types, (if (ctx.track t).manualCopying then t + 1 else t) = t := by
        intro t ht
        rw [constructArchetype_withTracked ha, List.any_eq_false] at htracked
        have hneed := htracked t (by rwa [← constructArchetype_type ha])
        rw [TrackState.needCC, Bool.or_eq_true, not_or] at hneed
        rw [if_neg hneed.1]
      rw [List.map_congr_left hid, List.map_id']
      rfl

/-- Without pairs the instance is sorted and has no pairs either. -/
theorem sorted_instance (hctx : ctx.Built) (hreg : ctx.tracks.length ≤ 2 ^ 30)
    (h : Set.Sorted ts) (hpair : Unpaired ctx ts) :
    Set.Sorted (ts.map fun t => if (ctx.track t).manualCopying then t + 1 else t) ∧
      Unpaired ctx (ts.map fun t => if (ctx.track t).manualCopying then t + 1 else t) := by
  constructor
  · rw [Set.Sorted, List.pairwise_map]
    refine h.imp_of_mem fun {t u} ht hu htu => ?_
    split_ifs with hm hm'
    · exact Nat.succ_lt_succ htu
    · have hne : t + 1 ≠ u := fun heq => hpair t ht hm (heq ▸ hu)
      exact lt_of_le_of_ne (Nat.succ_le_of_lt htu) hne
    · exact htu.trans (Nat.lt_succ_self u)
    · exact htu
  · -- what is copied manually is no longer there
    intro t ht hm
    obtain ⟨u, hu, heq⟩ := List.mem_map.mp ht
    split_ifs at heq with hu'
    · rw [← heq, notManual_twin hctx hreg u hu'] at hm
      exact absurd hm Bool.false_ne_true
    · rw [heq, hm] at hu'
      exact absurd rfl hu'

/-- A cast by sets that name no twin leaves no pairs. -/
theorem CastedTo.unpaired (hctx : ctx.Built) (hreg : ctx.tracks.length ≤ 2 ^ 30)
    (ha : constructArchetype ctx a.type = some a) (hpair : Unpaired ctx a.types)
    (hext : TwinFree ctx diff.extend) (h : CastedTo ctx a diff key) : Unpaired ctx key.types := by
  intro t ht hm htwin
  obtain ⟨⟨hjoined, -⟩, -⟩ := (h.types t).mp ht
  obtain ⟨⟨hjoined', hcomplete⟩, -⟩ := (h.types (t + 1)).mp htwin
  obtain ⟨htrack, -⟩ := track_twin hctx hreg hm
  rcases hjoined' with hold | hnew
  · have hcopying : a.copying = true := by
      rw [constructArchetype_copying ha, List.any_eq_true]
      exact ⟨t + 1, hold, by rw [htrack]⟩
    by_cases hempty : diff.extend = EntityType.empty
    · -- nothing was added
      have hold' : t ∈ a.types := by
        rcases hjoined with hold' | hnew'
        · exact hold'
        · rw [hempty] at hnew'
          exact absurd hnew' List.not_mem_nil
      exact hpair t hold' hm hold
    · exact hcomplete hcopying hempty t hjoined hm rfl
  · have hplain := hext.plain (t + 1) hnew
    rw [htrack] at hplain
    exact Bool.noConfusion hplain

end Casted

/-! ## Runs of casts -/

/-- The archetypes that casts by sets without twins and instantiations reach from types
without twins. -/
inductive CastReached (ctx : Context) : Archetype → Prop
  | start {key : EntityType} {a : Archetype} (hkey : TwinFree ctx key)
      (ha : constructArchetype ctx key = some a) : CastReached ctx a
  | cast {a b : Archetype} (h : CastReached ctx a) (diff : TypeDiff)
      (hext : TwinFree ctx diff.extend) (hshr : TwinFree ctx diff.shrink)
      (hb : constructArchetype ctx (castedType ctx a diff false) = some b) : CastReached ctx b
  | instantiate {a b : Archetype} (h : CastReached ctx a) (hclean : a.cleaning = false)
      (hb : constructArchetype ctx (castedType ctx a {} true) = some b) : CastReached ctx b

theorem CastReached.unpaired (hctx : ctx.Built) (hreg : ctx.tracks.length ≤ 2 ^ 30)
    (h : CastReached ctx a) : constructArchetype ctx a.type = some a ∧ Set.Sorted a.types ∧
      Set.Sorted a.metatypes ∧ Unpaired ctx a.types := by
  induction h with
  | start hkey ha =>
      have htype := constructArchetype_type ha
      rw [Archetype.types, Archetype.metatypes, htype]
      exact ⟨ha, hkey.types, hkey.metatypes, hkey.unpaired hctx hreg⟩
  | @cast a b h diff hext hshr hb ih =>
      obtain ⟨ha, hts, hms, hpair⟩ := ih
      have hcast := castedTo hctx hreg hts hms hext hshr
      have htype := constructArchetype_type hb
      have hmetas : Set.Sorted (castedType ctx a diff false).metatypes := by
        obtain ⟨-, hmetas, -⟩ := extended_spec hctx hreg hts hms hext
        rw [castedType_eq]
        split_ifs
        · exact Set.sorted_substract hmetas _
        · exact Set.sorted_substract hmetas _
        · exact hmetas
      rw [Archetype.types, Archetype.metatypes, htype]
      exact ⟨hb, hcast.sorted, hmetas, hcast.unpaired hctx hreg ha hpair hext⟩
  | @instantiate a b h hclean hb ih =>
      obtain ⟨ha, hts, hms, hpair⟩ := ih
      obtain ⟨htypes, hmetas⟩ := castedType_instance ha
      have htype := constructArchetype_type hb
      rw [Archetype.types, Archetype.metatypes, htype, htypes, hmetas]
      exact ⟨hb, (sorted_instance hctx hreg hts hpair).1, hms, (sorted_instance hctx hreg hts hpair).2⟩

/-- The arrays of the call fit the stack, and when its key is looked up it is found, or an
archetype can be built for it whose metatypes can be followed. -/
def Castable (ctx : Context) (w : World) (a : Archetype) (diff : TypeDiff) (inst : Bool) : Prop :=
  w.castedFits ctx a diff inst = true ∧ (inst || !castFrees ctx a diff →
    w.store.Obtainable ctx w.ents (castedType ctx a diff inst))

theorem getCasted_returns_iff {inst : Bool} (hlive : inst = true → a.cleaning = false) :
    Castable ctx w a diff inst ↔ ∃ r, w.getCasted ctx a diff inst = some r := by
  have hinst : (inst && a.cleaning) = false := by
    cases inst with
    | false => rfl
    | true => exact hlive rfl
  have hfree : (a.cleaning && isCleaned (castedType ctx a diff inst)) = true ↔
      ¬ (inst || !castFrees ctx a diff) = true := by
    cases inst with
    | false => simp [castFrees]
    | true => simp [hlive rfl]
  simp only [World.getCasted, hinst, Bool.false_eq_true, if_false]
  constructor
  · rintro ⟨hfits, hkey⟩
    rw [hfits, if_neg (by simp)]
    by_cases h : (inst || !castFrees ctx a diff) = true
    · obtain ⟨w', g, hget⟩ := getArchetype_returns (hkey h)
      rw [if_neg (fun hyes => hfree.mp hyes h), hget]
      exact ⟨_, rfl⟩
    · rw [if_pos (hfree.mpr h)]
      exact ⟨_, rfl⟩
  · rintro ⟨r, hs⟩
    split_ifs at hs with hfits hyes
    · exact ⟨by simpa using hfits, fun h => absurd h (hfree.mp hyes)⟩
    · obtain ⟨⟨w', g⟩, hget, -⟩ := Option.bind_eq_some_iff.mp hs
      obtain ⟨st, hst, -⟩ := getArchetype_eq_some hget
      exact ⟨by simpa using hfits, fun _ => Store.obtainable_iff.mpr ⟨st, g, hst⟩⟩

/-- One type is left, to be cleaned. -/
def Cleaned (ctx : Context) (a : Archetype) (diff : TypeDiff) : Prop :=
  a.cleaning = true ∧ ∃ t, ∀ u, Completed ctx a diff u ∧ ¬ Removed ctx a diff u ↔ u = t

/-- `get_casted` returns the archetype of exactly the types and metatypes of the cast, or null
where one type is left to clean. -/
def Casts (ctx : Context) (w : World) (a : Archetype) (diff : TypeDiff) : Prop :=
  ∃ key w' target, CastedTo ctx a diff key ∧ w.getCasted ctx a diff false = some (w', target) ∧
    (target = none ↔ Cleaned ctx a diff) ∧
    ∀ g, target = some g → ∃ b, w'.store.archetype g = some b ∧ b.type = key

/-- `get_casted` returns the archetype with the twins of the types that are copied. -/
def Instances (ctx : Context) (w : World) (a : Archetype) : Prop :=
  ∃ w' g b, w.getCasted ctx a {} true = some (w', some g) ∧ w'.store.archetype g = some b ∧
    b.types = a.types.map (fun t => if (ctx.track t).manualCopying then t + 1 else t) ∧
    b.metatypes = a.metatypes

theorem casts_iff (hctx : ctx.Built) (hreg : ctx.tracks.length ≤ 2 ^ 30)
    (hts : Set.Sorted a.types) (hms : Set.Sorted a.metatypes) (hext : TwinFree ctx diff.extend)
    (hshr : TwinFree ctx diff.shrink) (w : World) :
    Casts ctx w a diff ↔ Castable ctx w a diff false := by
  have hcast := castedTo hctx hreg hts hms hext hshr
  have hone := isCleaned_iff hcast.sorted
  simp only [hcast.types] at hone
  have hfrees : castFrees ctx a diff = true ↔ Cleaned ctx a diff := by
    rw [castFrees, Bool.and_eq_true, hone]
    rfl
  rw [getCasted_returns_iff (by simp)]
  constructor
  · rintro ⟨key, w', target, -, hs, -⟩
    exact ⟨_, hs⟩
  · rintro ⟨⟨w', target⟩, hs⟩
    refine ⟨_, w', target, hcast, hs, ?_⟩
    rcases getCasted_cases hs with ⟨rfl, -, hfree⟩ | ⟨g, rfl, hget, hkept⟩
    · exact ⟨by simp [← hfrees, hfree rfl], by simp⟩
    · refine ⟨by simp [← hfrees, hkept rfl], fun g' hg' => ?_⟩
      exact Option.some.inj hg' ▸ type_of_getArchetype hget

theorem instances_iff (ha : constructArchetype ctx a.type = some a) (hclean : a.cleaning = false)
    (w : World) : Instances ctx w a ↔ Castable ctx w a {} true := by
  rw [getCasted_returns_iff fun _ => hclean]
  constructor
  · rintro ⟨w', g, b, hs, -⟩
    exact ⟨_, hs⟩
  · rintro ⟨⟨w', target⟩, hs⟩
    obtain ⟨g, rfl, hget⟩ : ∃ g, target = some g ∧
        w.getArchetype ctx (castedType ctx a {} true) = some (w', g) := by
      have hrun := hs
      simp only [World.getCasted, hclean, Bool.and_false, Bool.false_and, Bool.false_eq_true,
        if_false] at hrun
      split_ifs at hrun
      obtain ⟨⟨w₁, g⟩, hget, heq⟩ := Option.bind_eq_some_iff.mp hrun
      obtain ⟨rfl, rfl⟩ := Prod.mk.inj (Option.some.inj heq)
      exact ⟨g, rfl, hget⟩
    obtain ⟨b, hb, hkey⟩ := type_of_getArchetype hget
    obtain ⟨htypes, hmetas⟩ := castedType_instance ha
    rw [← hkey] at htypes hmetas
    exact ⟨w', g, b, hs, hb, htypes, hmetas⟩

/-- `get_casted` computes the types and metatypes of a cast, and the twins of an instance,
exactly when its arrays fit the stack and the archetype is there or can be made; types and their
twins do not meet. -/
theorem getCasted_types_iff (hctx : ctx.Built) (hreg : ctx.tracks.length ≤ 2 ^ 30) :
    (∀ (a : Archetype) (diff : TypeDiff), constructArchetype ctx a.type = some a →
      Set.Sorted a.types → Set.Sorted a.metatypes → TwinFree ctx diff.extend →
      TwinFree ctx diff.shrink → ∀ w : World,
        Casts ctx w a diff ↔ Castable ctx w a diff false) ∧
    (∀ a : Archetype, constructArchetype ctx a.type = some a → a.cleaning = false →
      ∀ w : World, Instances ctx w a ↔ Castable ctx w a {} true) ∧
    ∀ a : Archetype, CastReached ctx a → Unpaired ctx a.types :=
  ⟨fun _ _ _ hts hms hext hshr w => casts_iff hctx hreg hts hms hext hshr w,
    fun _ ha hclean w => instances_iff ha hclean w, fun _ h => (h.unpaired hctx hreg).2.2.2⟩

/-- Type 4 has twin 5. -/
def twinned : Context :=
  ((Context.initial false).registerType { guid := 10, size := 4, manualCopy := true }).1

theorem built_twinned : twinned.Built := .register (.initial false) _

theorem twinFree_four : TwinFree twinned { types := [4] } where
  types := List.pairwise_singleton _ _
  metatypes := List.Pairwise.nil
  plain t ht := by
    obtain rfl := List.mem_singleton.mp ht
    decide

/-- The instance of an entity with type 4 has its twin, until type 4 is added again. Both calls
return. -/
theorem getCasted_types_twinned : ∃ a b : Archetype,
    constructArchetype twinned { types := [4] } = some a ∧
    constructArchetype twinned { types := [5] } = some b ∧
    (Castable twinned blank a {} true ∧ Instances twinned blank a) ∧
    (Castable twinned blank b { extend := { types := [4] } } false ∧
      Casts twinned blank b { extend := { types := [4] } }) ∧
    CastReached twinned b ∧ Unpaired twinned b.types := by
  obtain ⟨hcast, hinstance, hrun⟩ := getCasted_types_iff built_twinned (by decide)
  have hsome : ((constructArchetype twinned { types := [4] }).bind fun a =>
      (constructArchetype twinned { types := [5] }).map fun b =>
        [a.cleaning, !decide (castedType twinned a {} true = b.type),
          !(blank.getCasted twinned a {} true).isSome,
          !(blank.getCasted twinned b { extend := { types := [4] } } false).isSome]) =
      some [false, false, false, false] := by decide +kernel
  obtain ⟨a, ha, hsome⟩ := Option.bind_eq_some_iff.mp hsome
  obtain ⟨b, hb, hfacts⟩ := Option.map_eq_some_iff.mp hsome
  simp only [List.cons.injEq, and_true, Bool.not_eq_false', decide_eq_true_eq] at hfacts
  obtain ⟨hclean, hkey, hcopied, hextended⟩ := hfacts
  have hta := constructArchetype_type ha
  have htb := constructArchetype_type hb
  have hnone : TwinFree twinned {} := ⟨List.Pairwise.nil, List.Pairwise.nil, by simp⟩
  have hreached : CastReached twinned b := by
    refine .instantiate (.start twinFree_four ha) hclean ?_
    rw [hkey, htb]
    exact hb
  have hfirst : Castable twinned blank a {} true :=
    (getCasted_returns_iff fun _ => hclean).mpr (Option.isSome_iff_exists.mp hcopied)
  have hsecond : Castable twinned blank b { extend := { types := [4] } } false :=
    (getCasted_returns_iff (by simp)).mpr (Option.isSome_iff_exists.mp hextended)
  refine ⟨a, b, ha, hb, ⟨hfirst, (hinstance a (hta.symm ▸ ha) hclean blank).mpr hfirst⟩,
    ⟨hsecond, ?_⟩, hreached, hrun b hreached⟩
  refine (hcast b _ (htb.symm ▸ hb) ?_ ?_ twinFree_four hnone blank).mpr hsecond
  · rw [Archetype.types, htb]
    exact List.pairwise_singleton _ _
  · rw [Archetype.metatypes, htb]
    exact List.Pairwise.nil

/-- An extension by a metatype that is not alive is not computed: its archetype is null. -/
theorem not_casts_absent : ∃ a, constructArchetype twinned { types := [4] } = some a ∧
    ¬ Casts twinned blank a { extend := { metatypes := [⟨0⟩] } } := by
  have hnone : ((constructArchetype twinned { types := [4] }).map fun a =>
      (blank.getCasted twinned a { extend := { metatypes := [⟨0⟩] } } false).isSome) =
      some false := by decide +kernel
  obtain ⟨a, ha, hnone⟩ := Option.map_eq_some_iff.mp hnone
  refine ⟨a, ha, ?_⟩
  rintro ⟨key, w', target, -, hs, -⟩
  rw [hs] at hnone
  exact absurd hnone (by simp)

end World

end Dots

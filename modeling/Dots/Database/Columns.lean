import Dots.Database.Cells
import Mathlib.Data.List.Sort
import Mathlib.Data.List.TakeWhile

/-!
# Which columns meet

The types of an archetype are a set: sorted, so that the kinds follow one another and the
two cursors of `chunk::cast` find a type on both sides.
-/

namespace Dots

open Library

/-- The types of a set of `type_index`. -/
structure SortedTypes (ts : List TypeIndex) : Prop where
  sorted : ts.Pairwise (· ≤ ·)
  lt : ∀ t ∈ ts, t < 2 ^ 32

theorem bits_mono {t u : TypeIndex} (h : t ≤ u) (hu : u < 2 ^ 32) : t.bits ≤ u.bits := by
  have hplain : ∀ x y : Nat, x ≤ y → y < 2 ^ 32 → x / 2 ^ 30 % 4 ≤ y / 2 ^ 30 % 4 := by
    intro x y hxy hy
    omega
  exact hplain t u h hu

/-- A type before the first one with the kind `n`. -/
theorem lt_segment {p : TypeIndex → Bool} {n : Nat} {ts : List TypeIndex}
    (hp : ∀ t : TypeIndex, t.bits < n → p t = false) (hs : SortedTypes ts) {i : Nat}
    (hi : i < ts.length) (h : ts[i].bits < n) {m : Nat} (hm : i < m) :
    i < segment p (ts.take m) := by
  apply lt_length_takeWhile
  · rw [List.length_take]
    omega
  · intro j hj t ht
    rw [List.getElem?_take_of_lt (by omega)] at ht
    obtain ⟨hjl, rfl⟩ := List.getElem?_eq_some_iff.mp ht
    have hle : ts[j] ≤ ts[i] := by
      rcases hj.lt_or_eq with hlt | rfl
      · exact List.pairwise_iff_getElem.mp hs.sorted j i hjl hi hlt
      · exact le_rfl
    have hbits := bits_mono hle (hs.lt _ (List.getElem_mem hi))
    rw [hp _ (hbits.trans_lt h)]
    rfl

theorem not_of_lt_segment {p : TypeIndex → Bool} {ts : List TypeIndex} {i m : Nat}
    (h : i < segment p (ts.take m)) : ∃ hi : i < ts.length, i < m ∧ p ts[i] = false := by
  have hlen := segment_le p (ts.take m)
  rw [List.length_take] at hlen
  refine ⟨by omega, by omega, ?_⟩
  have hmem := List.getElem_mem h
  have hpre := (List.takeWhile_prefix (l := ts.take m) fun t => !p t).getElem h
  have hall := List.mem_takeWhile_imp hmem
  rw [hpre, List.getElem_take] at hall
  simpa using hall

namespace Archetype

variable {ctx : Context} {key : EntityType} {a : Archetype}

theorem segments (h : constructArchetype ctx key = some a) :
    a.firstTag = segment TypeIndex.isTag (a.types.take a.types.length) ∧
      a.firstManaged = segment TypeIndex.isManaged (a.types.take a.firstTag) ∧
      a.firstBuffer = segment TypeIndex.isBuffer (a.types.take a.firstManaged) := by
  rw [List.take_length]
  simp only [constructArchetype] at h
  split_ifs at h
  obtain rfl := Option.some.inj h
  exact ⟨rfl, rfl, rfl⟩

theorem bits_lt (t : TypeIndex) : t.bits < 4 := Nat.mod_lt _ (by decide)

/-- The kinds of the types tell the segments apart. -/
theorem boundaries (h : constructArchetype ctx key = some a) (hs : SortedTypes a.types) {i : Nat}
    (hi : i < a.types.length) :
    (i < a.firstTag ↔ a.types[i].bits < 3) ∧ (i < a.firstManaged ↔ a.types[i].bits < 2) ∧
      (i < a.firstBuffer ↔ a.types[i].bits < 1) := by
  obtain ⟨htag, hman, hbuf⟩ := segments h
  have hneg : ∀ {t : TypeIndex} {n : Nat}, (t.bits == n) = false ↔ t.bits ≠ n := by simp
  have h₁ : i < a.firstTag ↔ a.types[i].bits < 3 := by
    constructor
    · intro hlt
      rw [htag] at hlt
      obtain ⟨_, -, hno⟩ := not_of_lt_segment hlt
      have := hneg.mp hno
      have := bits_lt a.types[i]
      simp only [ComponentType.bits] at *
      omega
    · intro hlt
      rw [htag]
      refine lt_segment (n := 3) (fun t ht => hneg.mpr ?_) hs hi hlt hi
      simp only [ComponentType.bits]
      omega
  have h₂ : i < a.firstManaged ↔ a.types[i].bits < 2 := by
    constructor
    · intro hlt
      rw [hman] at hlt
      obtain ⟨_, hlt', hno⟩ := not_of_lt_segment hlt
      have := hneg.mp hno
      have := h₁.mp hlt'
      simp only [ComponentType.bits] at *
      omega
    · intro hlt
      rw [hman]
      refine lt_segment (n := 2) (fun t ht => hneg.mpr ?_) hs hi hlt (h₁.mpr (by omega))
      simp only [ComponentType.bits]
      omega
  refine ⟨h₁, h₂, ?_⟩
  constructor
  · intro hlt
    rw [hbuf] at hlt
    obtain ⟨_, hlt', hno⟩ := not_of_lt_segment hlt
    have := hneg.mp hno
    have := h₂.mp hlt'
    simp only [ComponentType.bits] at *
    omega
  · intro hlt
    rw [hbuf]
    refine lt_segment (n := 1) (fun t ht => hneg.mpr ?_) hs hi hlt (h₂.mpr (by omega))
    simp only [ComponentType.bits]
    omega

/-- The column of a type: the first one, as `lower_bound` finds it. -/
def column (a : Archetype) (t : TypeIndex) : Nat := a.types.idxOf t

theorem column_lt {t : TypeIndex} (ht : t ∈ a.types) : a.column t < a.types.length :=
  List.idxOf_lt_length_of_mem ht

theorem types_column {t : TypeIndex} (ht : t ∈ a.types) (hlt : a.column t < a.types.length) :
    a.types[a.column t] = t :=
  List.getElem_idxOf (column_lt ht)

theorem lt_of_lt_column (hs : SortedTypes a.types) {t : TypeIndex} (ht : t ∈ a.types) {j : Nat}
    (hj : j < a.column t) : a.types.getD j 0 < t := by
  have hlen := hj.trans (column_lt ht)
  rw [List.getD_eq_getElem?_getD, List.getElem?_eq_getElem hlen, Option.getD_some]
  refine lt_of_le_of_ne ?_ ?_
  · have hle := List.pairwise_iff_getElem.mp hs.sorted j (a.column t) hlen (column_lt ht) hj
    rwa [types_column ht] at hle
  · have := List.not_of_lt_findIdx hj
    simpa using this

theorem le_of_column_le (hs : SortedTypes a.types) {t : TypeIndex} (ht : t ∈ a.types) {j : Nat}
    (hj : a.column t ≤ j) (hlen : j < a.types.length) : t ≤ a.types[j] := by
  rcases hj.lt_or_eq with hlt | rfl
  · have hle := List.pairwise_iff_getElem.mp hs.sorted (a.column t) j (column_lt ht) hlen hlt
    rwa [types_column ht] at hle
  · exact (types_column ht hlen).ge

/-- Where `lower_bound` finds a type. -/
theorem index_eq (hs : SortedTypes a.types) {t : TypeIndex} (ht : t ∈ a.types) :
    a.index t = a.column t % 2 ^ 16 := by
  have hfind : a.types.findIdx (fun u => decide (t ≤ u)) = a.column t := by
    rw [List.findIdx_eq (column_lt ht)]
    refine ⟨?_, fun j hj => ?_⟩
    · rw [types_column ht]
      simp
    · have hlt := lt_of_lt_column hs ht hj
      rw [List.getD_eq_getElem?_getD, List.getElem?_eq_getElem (hj.trans (column_lt ht)),
        Option.getD_some] at hlt
      simpa using hlt
  simp only [index, hfind]
  rw [List.getElem?_eq_getElem (column_lt ht), types_column ht, if_pos rfl]

end Archetype

/-! ## Twins -/

namespace Context

variable {ctx : Context}

theorem toValidType_le (ctx : Context) (t : TypeIndex) : ctx.toValidType t ≤ t := by
  unfold toValidType
  split_ifs
  · exact Nat.sub_le t 1
  · exact le_rfl

theorem toValidType_le_of_lt (ctx : Context) {t u : TypeIndex} (h : u < t) :
    ctx.toValidType u ≤ ctx.toValidType t := by
  refine (ctx.toValidType_le u).trans ?_
  unfold toValidType
  split_ifs
  · exact Nat.le_sub_one_of_lt h
  · exact h.le

theorem toValidType_of_ne {t : TypeIndex} (h : ctx.toValidType t ≠ t) :
    ctx.toValidType t = t - 1 := by
  unfold toValidType at h ⊢
  split_ifs at h ⊢ with ht
  · rfl
  · exact absurd rfl h

/-- A type in front of `t` that stands for the same valid type is the one `t` is the twin
of. -/
theorem eq_of_toValidType {t u : TypeIndex} (h : u < t)
    (hv : ctx.toValidType u = ctx.toValidType t) : ctx.toValidType t ≠ t ∧ u = t - 1 := by
  have hu := ctx.toValidType_le u
  have ht : ctx.toValidType t ≠ t := fun heq => (hu.trans_lt h).ne (hv.trans heq)
  refine ⟨ht, Nat.le_antisymm (Nat.le_sub_one_of_lt h) ?_⟩
  rwa [hv, toValidType_of_ne ht] at hu

theorem Paired.index_pos (h : ctx.Paired) {t : TypeIndex} (ht : ctx.toValidType t ≠ t) :
    0 < t.index := by
  unfold Context.toValidType at ht
  split_ifs at ht with htrack
  · simp only [track, List.getD_eq_getElem?_getD] at htrack
    cases hk : ctx.tracks[t.index]? with
    | none => simp [hk] at htrack
    | some s =>
        rw [hk, Option.getD_some] at htrack
        exact (h.2 t.index (hk.trans (congrArg some htrack))).1
  · exact absurd rfl ht

theorem bits_pred {t : TypeIndex} (h : 0 < t.index) : TypeIndex.bits (t - 1) = t.bits := by
  have hplain : ∀ x : Nat, 0 < x % 2 ^ 30 → (x - 1) / 2 ^ 30 % 4 = x / 2 ^ 30 % 4 := by
    intro x hx
    omega
  exact hplain t h

end Context

/-- The twins among the types of two archetypes come with the types they are twins of on
both sides, or on neither. -/
def TwinsAgree (ctx : Context) (a b : Archetype) : Prop :=
  ∀ t ∈ a.types, t ∈ b.types → ctx.toValidType t ≠ t →
    a.types.count (t - 1) = b.types.count (t - 1)

/-- How many types in front of `t` stand for the same valid type. -/
def Archetype.before (ctx : Context) (a : Archetype) (t : TypeIndex) : Nat :=
  (a.types.take (a.column t)).countP fun u => ctx.toValidType u = ctx.toValidType t

namespace Archetype

variable {ctx : Context} {key key' : EntityType} {a b : Archetype}

theorem lt_of_mem_take (hs : SortedTypes a.types) {t u : TypeIndex} (ht : t ∈ a.types)
    (hu : u ∈ a.types.take (a.column t)) : u < t := by
  obtain ⟨j, hj, rfl⟩ := List.getElem_of_mem hu
  rw [List.length_take] at hj
  have hlt := lt_of_lt_column hs ht (lt_of_lt_of_le hj (Nat.min_le_left ..))
  rwa [List.getD_eq_getElem?_getD, List.getElem?_eq_getElem (lt_of_lt_of_le hj
    (Nat.min_le_right ..)), Option.getD_some, ← List.getElem_take] at hlt

theorem count_take_column (hs : SortedTypes a.types) {t u : TypeIndex} (ht : t ∈ a.types)
    (hu : u < t) : (a.types.take (a.column t)).count u = a.types.count u := by
  conv_rhs => rw [← List.take_append_drop (a.column t) a.types, List.count_append]
  rw [Nat.left_eq_add, List.count_eq_zero]
  intro hmem
  obtain ⟨j, hj, hju⟩ := List.getElem_of_mem hmem
  rw [List.getElem_drop] at hju
  have hle := le_of_column_le hs ht (Nat.le_add_right (a.column t) j) (by
    rw [List.length_drop] at hj
    omega)
  exact absurd (hju ▸ hle) (not_le.mpr hu)

theorem before_eq_zero (hs : SortedTypes a.types) {t : TypeIndex} (ht : t ∈ a.types)
    (hv : ctx.toValidType t = t) : a.before ctx t = 0 := by
  rw [before, List.countP_eq_zero]
  intro u hu
  simp only [decide_eq_true_eq]
  exact fun heq => (Context.eq_of_toValidType (lt_of_mem_take hs ht hu) heq).1 hv

theorem before_eq_count (hs : SortedTypes a.types) {t : TypeIndex} (ht : t ∈ a.types)
    (hpos : 0 < t) (hv : ctx.toValidType (t - 1) = ctx.toValidType t) :
    a.before ctx t = a.types.count (t - 1) := by
  have hlt : t - 1 < t := Nat.sub_lt hpos Nat.one_pos
  rw [← count_take_column hs ht hlt, before, List.count_eq_countP]
  apply List.countP_congr
  intro u hu
  simp only [decide_eq_true_eq, beq_iff_eq]
  constructor
  · exact fun heq => (Context.eq_of_toValidType (lt_of_mem_take hs ht hu) heq).2
  · rintro rfl
    exact hv

/-- The cursors of `chunk::cast` have passed as many columns of the same valid type. -/
theorem before_eq (hctx : ctx.Paired) (ha : SortedTypes a.types) (hb : SortedTypes b.types)
    (htwins : TwinsAgree ctx a b) {t : TypeIndex} (hta : t ∈ a.types) (htb : t ∈ b.types) :
    a.before ctx t = b.before ctx t := by
  by_cases hv : ctx.toValidType t = t
  · rw [before_eq_zero ha hta hv, before_eq_zero hb htb hv]
  · have hpos : 0 < t := (hctx.index_pos hv).trans_le (Nat.mod_le _ _)
    by_cases hpred : ctx.toValidType (t - 1) = ctx.toValidType t
    · rw [before_eq_count ha hta hpos hpred, before_eq_count hb htb hpos hpred,
        htwins t hta htb hv]
    · have hzero : ∀ c : Archetype, SortedTypes c.types → t ∈ c.types → c.before ctx t = 0 := by
        intro c hc htc
        rw [before, List.countP_eq_zero]
        intro u hu
        simp only [decide_eq_true_eq]
        intro heq
        rw [(Context.eq_of_toValidType (lt_of_mem_take hc htc hu) heq).2] at heq
        exact hpred heq
      rw [hzero a ha hta, hzero b hb htb]

theorem take_types {n : Nat} (hn : n ≤ a.types.length) :
    a.types.take n = (List.range n).map fun j => a.types.getD j 0 := by
  apply List.ext_getElem
  · simp [hn]
  · intro j hj hj'
    rw [List.getElem_take, List.getElem_map, List.getElem_range, List.getD_eq_getElem?_getD,
      List.getElem?_eq_getElem, Option.getD_some]

/-- The columns of a segment in front of the one of `t`. -/
theorem countP_segmentOf (hctx : ctx.Paired) (hs : SortedTypes a.types) {t : TypeIndex}
    (ht : t ∈ a.types) {lo : Nat}
    (hlo : ∀ j (hj : j < a.types.length), j < lo → a.types[j].bits < t.bits) :
    (Memory.segmentOf a lo (a.column t)).countP
      (fun e => ctx.toValidType e.2 = ctx.toValidType t) = a.before ctx t := by
  rw [before, take_types (column_lt ht).le, Memory.segmentOf, Memory.columns, List.countP_map,
    List.countP_map]
  conv_rhs => rw [← List.take_append_drop lo (List.range (a.column t)), List.countP_append]
  suffices hzero : ((List.range (a.column t)).take lo).countP ((fun u =>
      decide (ctx.toValidType u = ctx.toValidType t)) ∘ fun j => a.types.getD j 0) = 0 by
    rw [hzero, Nat.zero_add]
    rfl
  rw [List.countP_eq_zero]
  intro j hj
  rw [List.take_range, List.mem_range] at hj
  have hcol : j < a.column t := hj.trans_le (Nat.min_le_right ..)
  have hlen := hcol.trans (column_lt ht)
  have hlt := lt_of_lt_column hs ht hcol
  have hbits := hlo j hlen (hj.trans_le (Nat.min_le_left ..))
  rw [List.getD_eq_getElem?_getD, List.getElem?_eq_getElem hlen, Option.getD_some] at hlt
  simp only [Function.comp_apply, List.getD_eq_getElem?_getD, List.getElem?_eq_getElem hlen,
    Option.getD_some, decide_eq_true_eq]
  intro heq
  obtain ⟨hv, hpred⟩ := Context.eq_of_toValidType hlt heq
  rw [hpred, Context.bits_pred (hctx.index_pos hv)] at hbits
  exact lt_irrefl _ hbits

theorem segmentOf_column {lo hi : Nat} {t : TypeIndex} (ht : t ∈ a.types) (hlo : lo ≤ a.column t)
    (hhi : a.column t < hi) : Memory.segmentOf a lo hi =
      Memory.segmentOf a lo (a.column t) ++ (a.column t, t) ::
        Memory.segmentOf a (a.column t + 1) hi := by
  have hcols : Memory.columns lo hi =
      Memory.columns lo (a.column t) ++ a.column t :: Memory.columns (a.column t + 1) hi := by
    rw [Memory.columns_eq, Memory.columns_eq, Memory.columns_eq, ← List.range'_succ,
      show hi - lo = (a.column t - lo) + (hi - (a.column t + 1) + 1) by omega,
      ← List.range'_append_1]
    congr 2
    omega
  have htype : a.types.getD (a.column t) 0 = t := by
    rw [List.getD_eq_getElem?_getD, List.getElem?_eq_getElem (column_lt ht), Option.getD_some,
      types_column ht]
  simp only [Memory.segmentOf, hcols, List.map_append, List.map_cons, htype]

end Archetype

namespace Memory

variable {ctx : Context} {key key' : EntityType} {a b : Archetype}

theorem move_mem_segments (hctx : ctx.Paired) (ha : SortedTypes a.types)
    (hb : SortedTypes b.types) (htwins : TwinsAgree ctx a b) {t : TypeIndex} (hta : t ∈ a.types)
    (htb : t ∈ b.types) (lo hi lo' hi' : Nat) (hlo : lo ≤ a.column t ∧ a.column t < hi)
    (hlo' : lo' ≤ b.column t ∧ b.column t < hi')
    (hbits : ∀ j (hj : j < a.types.length), j < lo → a.types[j].bits < t.bits)
    (hbits' : ∀ j (hj : j < b.types.length), j < lo' → b.types[j].bits < t.bits) :
    .move (a.column t) (b.column t) ∈
      castSteps ctx.toValidType (segmentOf a lo hi) (segmentOf b lo' hi') := by
  rw [Archetype.segmentOf_column hta hlo.1 hlo.2, Archetype.segmentOf_column htb hlo'.1 hlo'.2]
  have hle : ∀ c : Archetype, SortedTypes c.types → t ∈ c.types → ∀ l,
      ∀ e ∈ segmentOf c l (c.column t), ctx.toValidType e.2 ≤ ctx.toValidType t := by
    rintro c hc htc l ⟨i, u⟩ he
    obtain ⟨⟨-, hi⟩, rfl⟩ := mem_segmentOf.mp he
    exact ctx.toValidType_le_of_lt (Archetype.lt_of_lt_column hc htc hi)
  apply move_mem_castSteps rfl (hle a ha hta lo) (hle b hb htb lo')
  rw [Archetype.countP_segmentOf hctx ha hta hbits, Archetype.countP_segmentOf hctx hb htb hbits',
    Archetype.before_eq hctx ha hb htwins hta htb]

/-- The cursors of `chunk::cast` meet at the columns of a type that both sides own. -/
theorem meets_of_mem (hctx : ctx.Paired) (ha : constructArchetype ctx key = some a)
    (hb : constructArchetype ctx key' = some b) (hsa : SortedTypes a.types)
    (hsb : SortedTypes b.types) (htwins : TwinsAgree ctx a b) {t : TypeIndex} (hta : t ∈ a.types)
    (htb : t ∈ b.types) (htag : t.isTag = false) : Meets ctx a b (a.column t) (b.column t) := by
  have hbits : t.bits < 3 := by
    have := Archetype.bits_lt t
    simp only [TypeIndex.isTag, ComponentType.bits, beq_eq_false_iff_ne, ne_eq] at htag
    omega
  have hka := Archetype.boundaries ha hsa (Archetype.column_lt hta)
  have hkb := Archetype.boundaries hb hsb (Archetype.column_lt htb)
  rw [Archetype.types_column hta] at hka
  rw [Archetype.types_column htb] at hkb
  have hmeet := move_mem_segments hctx hsa hsb htwins hta htb
  obtain hpod | hbuf | hman : t.bits = 0 ∨ t.bits = 1 ∨ t.bits = 2 := by omega
  · left
    apply hmeet _ _ _ _ ⟨by omega, by omega⟩ ⟨by omega, by omega⟩
    · intro j _ hj
      omega
    · intro j _ hj
      omega
  · right
    left
    apply hmeet _ _ _ _ ⟨by omega, by omega⟩ ⟨by omega, by omega⟩
    · intro j hj hlt
      have := (Archetype.boundaries ha hsa hj).2.2.mp hlt
      omega
    · intro j hj hlt
      have := (Archetype.boundaries hb hsb hj).2.2.mp hlt
      omega
  · right
    right
    apply hmeet _ _ _ _ ⟨by omega, by omega⟩ ⟨by omega, by omega⟩
    · intro j hj hlt
      have := (Archetype.boundaries ha hsa hj).2.1.mp hlt
      omega
    · intro j hj hlt
      have := (Archetype.boundaries hb hsb hj).2.1.mp hlt
      omega

end Memory

end Dots

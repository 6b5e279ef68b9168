import Dots.Database.Masks

/-!
# Words of the timestamp array

A chunk ends with one word for each component with a column. Some calls find their words by
positions in the whole type list, whose tags have none.
-/

namespace Dots

/-- `chunk_filter`. -/
structure ChunkFilter where
  changed : List TypeIndex
  prevTimestamp : Nat
  sorted : Set.Sorted changed

/-- The inner loop of `chunk_filter::match` at `changed[i]`. -/
def changedFrom (stamps : Nat → Nat) (prev : Nat) (t : TypeIndex)
    (rest : Nat → List TypeIndex → Bool × List Nat) : Nat → List TypeIndex → Bool × List Nat
  | _, [] => (false, [])
  | j, u :: types =>
      if u < t then changedFrom stamps prev t rest (j + 1) types
      else if t < u then rest j (u :: types)
      else if prev ≤ stamps j then (true, [j])
      else ((rest (j + 1) types).1, j :: (rest (j + 1) types).2)

/-- The loop of `chunk_filter::match`, with the words it reads. -/
def matchChanged (stamps : Nat → Nat) (prev : Nat) :
    List TypeIndex → Nat → List TypeIndex → Bool × List Nat
  | [], _, _ => (false, [])
  | t :: changed, j, types => changedFrom stamps prev t (matchChanged stamps prev changed) j types

/-- `chunk_filter::match`, with the words it reads. -/
def ChunkFilter.match (f : ChunkFilter) (types : List TypeIndex) (stamps : Nat → Nat) :
    Bool × List Nat :=
  if f.changed.length = 0 then (true, [])
  else matchChanged stamps f.prevTimestamp f.changed 0 types

namespace Store

/-- `chunk::get_timestamp`, with the words it reads. -/
def getTimestamp (st : Store) (a : Archetype) (c : ChunkId) (t : TypeIndex) : Nat × List Nat :=
  let id := a.index t
  if id = invalidIndex then (0, []) else (st.timestamps c id, [id])

/-- `world::query(const archetype*, const chunk_filter&)` over the chunks of the archetype. -/
def queryChunks (st : Store) (a : Archetype) (f : ChunkFilter) (chunks : List ChunkId) :
    List ChunkId :=
  if f.changed.length = 0 then chunks
  else chunks.filter fun c => (f.match a.types (st.timestamps c)).1

/-- `timestamps(c)[id] = timestamp`. -/
def mark (st : Store) (c : ChunkId) (id : Nat) : Store :=
  { st with
    timestamps := Function.update st.timestamps c
      (Function.update (st.timestamps c) id st.timestamp) }

end Store

namespace World

/-- `world::get_owned_rw(chunk_slice, type_index)`. -/
def sliceOwnedRw (w : World) (s : ChunkSlice) (t : TypeIndex) :
    Option (World × Option (ChunkId × Nat)) := do
  let (_, a) ← w.archetypeOf s.c
  let id := a.index t
  if id = invalidIndex ∨ id ≥ a.firstTag then some (w, none)
  else some ({ w with store := w.store.mark s.c id },
    some (s.c, a.address (w.store.ct s.c) id s.start))

/-- `world::get_owned_rw(entity, type_index)`. -/
def getOwnedRw (w : World) (e : Entity) (t : TypeIndex) :
    Option (World × Option (ChunkId × Nat)) :=
  if w.ents.exist e then do
    let s ← w.asSlice e
    w.sliceOwnedRw s t
  else some (w, none)

end World

/-- The calls that use the timestamps of a chunk. -/
inductive TimestampCall
  | structuralChange
  | getTimestamp (t : TypeIndex)
  | query (f : ChunkFilter)
  | getOwnedRw (e : Entity) (t : TypeIndex)
  | enableComponent (e : Entity) (type : List TypeIndex)

namespace TimestampCall

/-- The words of chunk `c` that a call reads or writes. -/
def words (ctx : Context) (w : World) (a : Archetype) (c : ChunkId) : TimestampCall → List Nat
  | structuralChange => List.range a.types.length
  | getTimestamp t => (w.store.getTimestamp a c t).2
  | query f => (f.match a.types (w.store.timestamps c)).2
  | getOwnedRw e t =>
      if w.ents.exist e = true ∧ (w.ents.datas e.id).c = .chunk c ∧
          ¬ (a.index t = invalidIndex ∨ a.index t ≥ a.firstTag) then [a.index t]
      else []
  | enableComponent e _ =>
      if w.ents.exist e = true ∧ (w.ents.datas e.id).c = .chunk c ∧ a.withMask = true then
        [a.index ctx.maskId]
      else []

/-- What a call leaves of the world. -/
def run (ctx : Context) (w : World) (g : ArchetypeId) (a : Archetype) (c : ChunkId) :
    TimestampCall → Option World
  | structuralChange => some { w with store := w.store.structuralChange g a c }
  | getTimestamp _ => some w
  | query _ => some w
  | getOwnedRw e t => (w.getOwnedRw e t).map Prod.fst
  | enableComponent e type => w.enableComponent ctx e type

/-- A call that asks for no tag of the archetype. For a filter it is enough that a component
with a column has changed: the tags come later. -/
def Inside (a : Archetype) (stamps : Nat → Nat) : TimestampCall → Prop
  | structuralChange => ∀ t ∈ a.types, t.isTag = false
  | getTimestamp t => t ∈ a.types → t.isTag = false
  | query f => (∀ t ∈ a.types, t ∈ f.changed → t.isTag = false) ∨
      ∃ (k : Nat) (t : TypeIndex), a.types[k]? = some t ∧ t ∈ f.changed ∧ t.isTag = false ∧
        f.prevTimestamp ≤ stamps k
  | getOwnedRw _ _ => True
  | enableComponent _ _ => True

end TimestampCall

/-! ## The loop of `match` -/

section Match

variable {stamps stamps' : Nat → Nat} {prev : Nat} {changed changed' types : List TypeIndex}

/-- The components of an archetype that are in a set, up to the first that is recent. -/
def markedFrom (stamps : Nat → Nat) (prev : Nat) (changed : List TypeIndex) :
    Nat → List TypeIndex → Bool × List Nat
  | _, [] => (false, [])
  | j, u :: types =>
      if u ∈ changed then
        if prev ≤ stamps j then (true, [j])
        else ((markedFrom stamps prev changed (j + 1) types).1,
          j :: (markedFrom stamps prev changed (j + 1) types).2)
      else markedFrom stamps prev changed (j + 1) types

theorem markedFrom_congr {j : Nat} (h : ∀ u ∈ types, (u ∈ changed ↔ u ∈ changed')) :
    markedFrom stamps prev changed j types = markedFrom stamps prev changed' j types := by
  induction types generalizing j with
  | nil => rfl
  | cons u types ih =>
      simp only [markedFrom, h u List.mem_cons_self,
        ih fun v hv => h v (List.mem_cons_of_mem u hv)]

theorem markedFrom_nil {j : Nat} : markedFrom stamps prev [] j types = (false, []) := by
  induction types generalizing j with
  | nil => rfl
  | cons u types ih => simp [markedFrom, ih]

/-- The two cursors find the components that are in the set. -/
theorem matchChanged_eq (hc : Set.Sorted changed) (ht : Set.Sorted types) (j : Nat) :
    matchChanged stamps prev changed j types = markedFrom stamps prev changed j types := by
  induction changed generalizing j types with
  | nil => rw [matchChanged, markedFrom_nil]
  | cons t changed ih =>
      obtain ⟨hlow, hcs⟩ := List.pairwise_cons.mp hc
      rw [matchChanged]
      induction types generalizing j with
      | nil => rfl
      | cons u types iht =>
          have ht' := ht
          obtain ⟨hlater, hts⟩ := List.pairwise_cons.mp ht
          rw [changedFrom]
          split_ifs with hlt hgt hrecent
          · have hno : u ∉ t :: changed := fun hmem => by
              rcases List.mem_cons.mp hmem with rfl | hmem
              · exact lt_irrefl u hlt
              · exact lt_asymm hlt (hlow u hmem)
            rw [iht hts, markedFrom, if_neg hno]
          · rw [ih hcs ht']
            apply markedFrom_congr
            intro v hv
            have hne : v ≠ t := by
              rcases List.mem_cons.mp hv with rfl | hv
              · exact hgt.ne'
              · exact (hgt.trans (hlater v hv)).ne'
            simp [hne]
          · obtain rfl : u = t := le_antisymm (not_lt.mp hgt) (not_lt.mp hlt)
            rw [markedFrom, if_pos List.mem_cons_self, if_pos hrecent]
          · obtain rfl : u = t := le_antisymm (not_lt.mp hgt) (not_lt.mp hlt)
            have hrest : markedFrom stamps prev changed (j + 1) types =
                markedFrom stamps prev (u :: changed) (j + 1) types :=
              markedFrom_congr fun v hv => by simp [(hlater v hv).ne']
            rw [markedFrom, if_pos List.mem_cons_self, if_neg hrecent, ih hcs hts, hrest]

/-- The result depends on the words that are read. -/
theorem markedFrom_reads {j : Nat}
    (h : ∀ i ∈ (markedFrom stamps prev changed j types).2, stamps' i = stamps i) :
    markedFrom stamps' prev changed j types = markedFrom stamps prev changed j types := by
  induction types generalizing j with
  | nil => rfl
  | cons u types ih =>
      by_cases hmem : u ∈ changed
      · have hj : stamps' j = stamps j := by
          apply h
          rw [markedFrom, if_pos hmem]
          split_ifs <;> simp
        by_cases hrecent : prev ≤ stamps j
        · rw [markedFrom, markedFrom, if_pos hmem, if_pos hmem, hj, if_pos hrecent,
            if_pos hrecent]
        · rw [markedFrom, if_pos hmem, if_neg hrecent] at h
          rw [markedFrom, markedFrom, if_pos hmem, if_pos hmem, hj, if_neg hrecent,
            if_neg hrecent, ih fun i hi => h i (List.mem_cons_of_mem j hi)]
      · rw [markedFrom, if_neg hmem] at h
        rw [markedFrom, markedFrom, if_neg hmem, if_neg hmem, ih h]

/-- The words are below a bound when the components of the set are, or a recent one comes
before. -/
theorem markedFrom_lt_iff {j n : Nat} :
    (∀ i ∈ (markedFrom stamps prev changed j types).2, i < n) ↔
      (∀ k u, types[k]? = some u → u ∈ changed → j + k < n) ∨
      ∃ k u, types[k]? = some u ∧ u ∈ changed ∧ j + k < n ∧ prev ≤ stamps (j + k) := by
  induction types generalizing j with
  | nil => simp [markedFrom]
  | cons u types ih =>
      have hall : (∀ (k : Nat) (v : TypeIndex), (u :: types)[k]? = some v → v ∈ changed → j + k < n) ↔
          (u ∈ changed → j < n) ∧
          ∀ (k : Nat) (v : TypeIndex), types[k]? = some v → v ∈ changed → j + 1 + k < n := by
        constructor
        · refine fun h => ⟨h 0 u rfl, fun k v hv hmem => ?_⟩
          have hlt := h (k + 1) v hv hmem
          omega
        · rintro ⟨hfirst, hrest⟩ k v hv hmem
          cases k with
          | zero =>
              obtain rfl := Option.some.inj hv
              exact hfirst hmem
          | succ k =>
              have hlt := hrest k v hv hmem
              omega
      have hex : (∃ (k : Nat) (v : TypeIndex), (u :: types)[k]? = some v ∧ v ∈ changed ∧
            j + k < n ∧ prev ≤ stamps (j + k)) ↔
          (u ∈ changed ∧ j < n ∧ prev ≤ stamps j) ∨
          ∃ (k : Nat) (v : TypeIndex), types[k]? = some v ∧ v ∈ changed ∧ j + 1 + k < n ∧
            prev ≤ stamps (j + 1 + k) := by
        constructor
        · rintro ⟨k, v, hv, hmem, hlt, hle⟩
          cases k with
          | zero =>
              obtain rfl := Option.some.inj hv
              exact Or.inl ⟨hmem, hlt, hle⟩
          | succ k =>
              refine Or.inr ⟨k, v, hv, hmem, by omega, ?_⟩
              rwa [show j + 1 + k = j + (k + 1) by omega]
        · rintro (⟨hmem, hlt, hle⟩ | ⟨k, v, hv, hmem, hlt, hle⟩)
          · exact ⟨0, u, rfl, hmem, hlt, hle⟩
          · refine ⟨k + 1, v, hv, hmem, by omega, ?_⟩
            rwa [show j + (k + 1) = j + 1 + k by omega]
      rw [hall, hex, markedFrom]
      split_ifs with hmem hrecent
      · simp only [List.mem_singleton, forall_eq, hmem, hrecent, true_imp_iff, true_and, and_true]
        constructor
        · exact fun hlt => Or.inr (Or.inl hlt)
        · rintro (⟨hlt, -⟩ | hlt | ⟨k, v, -, -, hlt, -⟩)
          · exact hlt
          · exact hlt
          · omega
      · simp only [List.mem_cons, forall_eq_or_imp, ih, hmem, hrecent, true_imp_iff, and_false,
          false_or]
        constructor
        · rintro ⟨hlt, hrest | hrest⟩
          · exact Or.inl ⟨hlt, hrest⟩
          · exact Or.inr hrest
        · rintro (⟨hlt, hrest⟩ | ⟨k, v, hv, hin, hlt, hle⟩)
          · exact ⟨hlt, Or.inl hrest⟩
          · exact ⟨by omega, Or.inr ⟨k, v, hv, hin, hlt, hle⟩⟩
      · simp only [ih, hmem, false_imp_iff, true_and, false_and, false_or]

/-- `match` in terms of the components in the set. -/
theorem ChunkFilter.match_words (f : ChunkFilter) (ht : Set.Sorted types) :
    (f.match types stamps).2 = (markedFrom stamps f.prevTimestamp f.changed 0 types).2 := by
  unfold ChunkFilter.match
  split_ifs with hempty
  · rw [List.length_eq_zero_iff.mp hempty, markedFrom_nil]
  · rw [matchChanged_eq f.sorted ht]

/-- What `match` returns depends on the words it reads. -/
theorem ChunkFilter.match_reads (f : ChunkFilter) (ht : Set.Sorted types)
    (h : ∀ i ∈ (f.match types stamps).2, stamps' i = stamps i) :
    f.match types stamps' = f.match types stamps := by
  rw [f.match_words ht] at h
  unfold ChunkFilter.match
  rw [matchChanged_eq f.sorted ht, matchChanged_eq f.sorted ht, markedFrom_reads h]

end Match

/-- What `get_timestamp` returns depends on the word it reads. -/
theorem Store.getTimestamp_reads {st st' : Store} {a : Archetype} {c : ChunkId} {t : TypeIndex}
    (h : ∀ i ∈ (st.getTimestamp a c t).2, st'.timestamps c i = st.timestamps c i) :
    st'.getTimestamp a c t = st.getTimestamp a c t := by
  simp only [Store.getTimestamp] at h ⊢
  by_cases hid : a.index t = invalidIndex
  · rw [if_pos hid, if_pos hid]
  · rw [if_neg hid] at h ⊢
    rw [if_neg hid, h _ (List.mem_singleton_self _)]

/-- The chunks a query returns depend on the words of each that `match` reads. -/
theorem Store.queryChunks_reads {st st' : Store} {a : Archetype} (f : ChunkFilter)
    {chunks : List ChunkId} (ht : Set.Sorted a.types)
    (h : ∀ c ∈ chunks, ∀ i ∈ (f.match a.types (st.timestamps c)).2,
      st'.timestamps c i = st.timestamps c i) :
    st'.queryChunks a f chunks = st.queryChunks a f chunks := by
  unfold Store.queryChunks
  split_ifs
  · rfl
  · apply List.filter_congr
    intro c hc
    rw [f.match_reads ht (h c hc)]

/-! ## The calls -/

namespace TimestampCall

open World

variable {ctx : Context} {w w' : World} {g : ArchetypeId} {a : Archetype} {c : ChunkId}
  {call : TimestampCall}

theorem entry_of_asSlice {e : Entity} {s : ChunkSlice} (h : w.asSlice e = some s) :
    (w.ents.datas e.id).c = .chunk s.c := by
  simp only [asSlice, entrySlice] at h
  split_ifs at h
  split at h
  · rename_i d hd
    obtain rfl := Option.some.inj h
    exact hd
  · simp at h

theorem mark_of_ne {st : Store} {d : ChunkId} {id i : Nat}
    (hne : (st.mark d id).timestamps c i ≠ st.timestamps c i) : c = d ∧ i = id := by
  by_cases hd : c = d
  · subst hd
    by_cases hi : i = id
    · exact ⟨rfl, hi⟩
    · refine absurd ?_ hne
      change Function.update st.timestamps c _ c i = _
      rw [Function.update_self, Function.update_of_ne hi]
  · refine absurd ?_ hne
    change Function.update st.timestamps d _ c i = _
    rw [Function.update_of_ne hd]

/-- A call changes no other word of the chunk. -/
theorem mem_words_of_ne (hc : w.archetypeOf c = some (g, a)) (hs : call.run ctx w g a c = some w')
    {i : Nat} (hne : w'.store.timestamps c i ≠ w.store.timestamps c i) :
    i ∈ call.words ctx w a c := by
  cases call with
  | structuralChange =>
      obtain rfl := Option.some.inj hs
      by_contra hout
      apply hne
      change Function.update (ite _ _ w.store).timestamps c _ c i = _
      rw [Function.update_self, if_neg (by simpa [words] using hout)]
      split_ifs <;> rfl
  | getTimestamp t =>
      obtain rfl := Option.some.inj hs
      exact absurd rfl hne
  | query f =>
      obtain rfl := Option.some.inj hs
      exact absurd rfl hne
  | getOwnedRw e t =>
      obtain ⟨⟨w₁, r⟩, hrun, rfl⟩ := Option.map_eq_some_iff.mp hs
      simp only [World.getOwnedRw] at hrun
      split_ifs at hrun with hexist
      · obtain ⟨s, hslice, hrun⟩ := Option.bind_eq_some_iff.mp hrun
        simp only [sliceOwnedRw, Option.bind_eq_bind, Option.bind_eq_some_iff] at hrun
        obtain ⟨⟨h, b⟩, hb, hrun⟩ := hrun
        split_ifs at hrun with hid
        · obtain ⟨rfl, -⟩ := Prod.mk.inj (Option.some.inj hrun)
          exact absurd rfl hne
        · obtain ⟨rfl, -⟩ := Prod.mk.inj (Option.some.inj hrun)
          obtain ⟨rfl, rfl⟩ := mark_of_ne hne
          obtain ⟨-, rfl⟩ := Prod.mk.inj (Option.some.inj (hc.symm.trans hb))
          rw [words, if_pos ⟨hexist, entry_of_asSlice hslice, hid⟩]
          exact List.mem_singleton_self _
      · obtain ⟨rfl, -⟩ := Prod.mk.inj (Option.some.inj hrun)
        exact absurd rfl hne
  | enableComponent e type =>
      simp only [run, World.enableComponent, World.editMask] at hs
      split_ifs at hs with hexist
      · split at hs
        · rename_i d hd
          simp only [Option.bind_eq_bind, Option.bind_eq_some_iff] at hs
          obtain ⟨⟨h, b⟩, hb, hs⟩ := hs
          cases hmask : b.withMask with
          | false =>
              rw [hmask] at hs
              obtain rfl := Option.some.inj hs
              exact absurd rfl hne
          | true =>
              simp only [hmask, Bool.not_true, Bool.false_eq_true, if_false,
                Option.bind_eq_some_iff, Option.some.injEq] at hs
              obtain ⟨mm, -, rfl⟩ := hs
              obtain ⟨rfl, rfl⟩ := mark_of_ne hne
              obtain ⟨-, rfl⟩ := Prod.mk.inj (Option.some.inj (hc.symm.trans hb))
              rw [words, if_pos ⟨hexist, hd, hmask⟩]
              exact List.mem_singleton_self _
        · simp at hs
      · obtain rfl := Option.some.inj hs
        exact absurd rfl hne

theorem mem_of_withMask (ha : constructArchetype ctx a.type = some a) (h : a.withMask = true) :
    ctx.maskId ∈ a.types := by
  have hmask : a.withMask = a.type.types.any fun t =>
      t == ctx.maskId && t != ctx.cleanupId && t != ctx.disableId := by
    simp only [constructArchetype] at ha
    split_ifs at ha
    conv_lhs => rw [← Option.some.inj ha]
  rw [hmask, List.any_eq_true] at h
  obtain ⟨t, ht, h⟩ := h
  simp only [Bool.and_eq_true, beq_iff_eq] at h
  exact h.1.1 ▸ ht

theorem lt_firstTag_iff (ha : constructArchetype ctx a.type = some a) (hs : Set.Sorted a.types)
    (hlt : ∀ t ∈ a.types, t < 2 ^ 32) {k : Nat} {t : TypeIndex} (ht : a.types[k]? = some t) :
    k < a.firstTag ↔ t.isTag = false := by
  obtain ⟨hk, rfl⟩ := List.getElem?_eq_some_iff.mp ht
  rw [(Archetype.boundaries ha ⟨hs.imp le_of_lt, hlt⟩ hk).1]
  have hbound := Archetype.bits_lt a.types[k]
  simp only [TypeIndex.isTag, ComponentType.bits, beq_eq_false_iff_ne, ne_eq]
  omega

/-- Every word is in the array if and only if the call asks for no tag. -/
theorem words_inside_iff (hctx : ctx.Built) (ha : constructArchetype ctx a.type = some a)
    (hs : Set.Sorted a.types) (hlt : ∀ t ∈ a.types, t < 2 ^ 32) (hlen : a.types.length < 2 ^ 16)
    (w : World) (c : ChunkId) (call : TimestampCall) :
    (∀ i ∈ call.words ctx w a c, i < a.firstTag) ↔ call.Inside a (w.store.timestamps c) := by
  have hst : SortedTypes a.types := ⟨hs.imp le_of_lt, hlt⟩
  have hcolumn : ∀ t ∈ a.types, (a.column t < a.firstTag ↔ t.isTag = false) := fun t ht =>
    lt_firstTag_iff ha hs hlt (by
      rw [List.getElem?_eq_getElem (Archetype.column_lt ht), Archetype.types_column ht])
  cases call with
  | structuralChange =>
      simp only [words, Inside, List.mem_range]
      constructor
      · intro h t ht
        exact (hcolumn t ht).mp (h _ (Archetype.column_lt ht))
      · intro h i hi
        exact (lt_firstTag_iff ha hs hlt (List.getElem?_eq_getElem hi)).mpr
          (h _ (List.getElem_mem hi))
  | getTimestamp t =>
      simp only [words, Inside, Store.getTimestamp]
      split_ifs with hid
      · have hno : t ∉ a.types := fun ht => (index_lt hst hlen ht).2 hid
        simp [hno]
      · have ht := mem_of_index hid
        simp only [List.mem_singleton, forall_eq, ht, true_imp_iff, (index_lt hst hlen ht).1]
        exact hcolumn t ht
  | query f =>
      simp only [words, Inside]
      rw [f.match_words hs, markedFrom_lt_iff]
      simp only [Nat.zero_add]
      constructor
      · rintro (h | ⟨k, t, ht, hin, hk, hle⟩)
        · refine Or.inl fun t ht hin => (hcolumn t ht).mp (h _ t ?_ hin)
          rw [List.getElem?_eq_getElem (Archetype.column_lt ht), Archetype.types_column ht]
        · exact Or.inr ⟨k, t, ht, hin, (lt_firstTag_iff ha hs hlt ht).mp hk, hle⟩
      · rintro (h | ⟨k, t, ht, hin, htag, hle⟩)
        · exact Or.inl fun k t ht hin =>
            (lt_firstTag_iff ha hs hlt ht).mpr (h t (List.mem_of_getElem? ht) hin)
        · exact Or.inr ⟨k, t, ht, hin, (lt_firstTag_iff ha hs hlt ht).mpr htag, hle⟩
  | getOwnedRw e t =>
      simp only [words, Inside, iff_true]
      split_ifs with hcase
      · simp only [List.mem_singleton, forall_eq]
        exact Nat.lt_of_not_le fun hle => hcase.2.2 (Or.inr hle)
      · simp
  | enableComponent e type =>
      simp only [words, Inside, iff_true]
      split_ifs with hcase
      · simp only [List.mem_singleton, forall_eq]
        have hmem : ctx.maskId ∈ a.types := mem_of_withMask ha hcase.2.2
        apply (constructArchetype_layout ha).index_lt
        · rw [hctx.ids.2.2.2]
          decide
        · exact (index_lt hst hlen hmem).2
      · simp

/-- `get_timestamp` of the mask of disabled entities. -/
theorem words_inside_mask : ∃ a : Archetype,
    constructArchetype (Context.initial false)
      { types := [(Context.initial false).maskId, (Context.initial false).disableId] } = some a ∧
    ∀ (w : World) (c : ChunkId),
      ∀ i ∈ (getTimestamp (Context.initial false).maskId).words (Context.initial false) w a c,
        i < a.firstTag := by
  have hsome : (constructArchetype (Context.initial false)
      { types := [(Context.initial false).maskId, (Context.initial false).disableId] }).isSome =
        true := by decide +kernel
  obtain ⟨a, ha⟩ := Option.isSome_iff_exists.mp hsome
  have htypes : a.types =
      [(Context.initial false).maskId, (Context.initial false).disableId] := by
    rw [Archetype.types, constructArchetype_type ha]
  refine ⟨a, ha, fun w c => ?_⟩
  refine (words_inside_iff (.initial false) ((constructArchetype_type ha).symm ▸ ha) ?_ ?_ ?_ w c
    _).mpr ?_
  · rw [htypes]
    decide
  · rw [htypes]
    decide
  · rw [htypes]
    decide
  · exact fun _ => by decide

/-- `structural_change` on a chunk of disabled entities without components. -/
theorem not_words_inside_tag : ∃ a : Archetype,
    constructArchetype (Context.initial false) { types := [(Context.initial false).disableId] } =
      some a ∧ ∀ (w : World) (c : ChunkId),
      ¬ ∀ i ∈ structuralChange.words (Context.initial false) w a c, i < a.firstTag := by
  have hsome : (constructArchetype (Context.initial false)
      { types := [(Context.initial false).disableId] }).map (fun a =>
        (a.types.length, a.firstTag)) = some (1, 0) := by decide +kernel
  obtain ⟨a, ha, hfacts⟩ := Option.map_eq_some_iff.mp hsome
  obtain ⟨hlen, htag⟩ := Prod.mk.inj hfacts
  refine ⟨a, ha, fun w c h => ?_⟩
  have hlt := h 0 (List.mem_range.mpr (hlen.symm ▸ Nat.one_pos))
  rw [htag] at hlt
  exact Nat.not_lt_zero 0 hlt

end TimestampCall

end Dots

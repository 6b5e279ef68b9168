import Dots.Database.Wellformed

/-!
# Chunk lists

The list of an archetype: its full chunks first, then the chunks with room, the
first of which is `firstFree`. Each function that splices a list keeps this shape,
but for `add_chunk` on a full chunk, which goes behind the head whatever that is.
-/

namespace Dots

open Library

namespace Store

/-- The list of the archetype `g`: `fulls`, then `frees`. -/
structure Chain (st : Store) (g : ArchetypeId) (a : Archetype) (fulls frees : List ChunkId) :
    Prop where
  spans : st.links.Spans (st.firstChunk g) (st.lastChunk g) (fulls ++ frees)
  mem : ∀ c, c ∈ fulls ++ frees ↔ st.type c = some g
  full : ∀ c ∈ fulls, st.count c = a.chunkCapacity (st.ct c)
  room : ∀ c ∈ frees, st.count c < a.chunkCapacity (st.ct c)
  firstFree : st.firstFree g = frees.head?
  chunkCount : st.chunkCount g = (fulls ++ frees).length % 2 ^ 16

/-- What an operation on the list of `g` leaves alone. -/
structure Apart (g : ArchetypeId) (st st' : Store) : Prop where
  next : ∀ b h, h ≠ g → st.type b = some h → st'.links.next b = st.links.next b
  prev : ∀ b h, h ≠ g → st.type b = some h → st'.links.prev b = st.links.prev b
  type : ∀ b h, h ≠ g → (st'.type b = some h ↔ st.type b = some h)
  count : ∀ b h, h ≠ g → st.type b = some h → st'.count b = st.count b
  ct : ∀ b h, h ≠ g → st.type b = some h → st'.ct b = st.ct b
  firstChunk : ∀ h, h ≠ g → st'.firstChunk h = st.firstChunk h
  lastChunk : ∀ h, h ≠ g → st'.lastChunk h = st.lastChunk h
  firstFree : ∀ h, h ≠ g → st'.firstFree h = st.firstFree h
  chunkCount : ∀ h, h ≠ g → st'.chunkCount h = st.chunkCount h
  archetype : ∀ h, h ≠ g → st'.archetype h = st.archetype h

variable {ctx : Context} {st st' st'' : Store} {g h : ArchetypeId} {a : Archetype}
  {fulls frees : List ChunkId} {c : ChunkId}

theorem Apart.of_shape (g : ArchetypeId) (hs : SameShape st st') : Apart g st st' where
  next _ _ _ _ := by rw [hs.links]
  prev _ _ _ _ := by rw [hs.links]
  type _ _ _ := by rw [hs.type]
  count _ _ _ _ := by rw [hs.count]
  ct _ _ _ _ := by rw [hs.ct]
  firstChunk _ _ := by rw [hs.firstChunk]
  lastChunk _ _ := by rw [hs.lastChunk]
  firstFree _ _ := by rw [hs.firstFree]
  chunkCount _ _ := by rw [hs.chunkCount]
  archetype _ _ := by rw [hs.archetype]

theorem Apart.trans (h₁ : Apart g st st') (h₂ : Apart g st' st'') : Apart g st st'' where
  next b h hg hb := (h₂.next b h hg ((h₁.type b h hg).mpr hb)).trans (h₁.next b h hg hb)
  prev b h hg hb := (h₂.prev b h hg ((h₁.type b h hg).mpr hb)).trans (h₁.prev b h hg hb)
  type b h hg := (h₂.type b h hg).trans (h₁.type b h hg)
  count b h hg hb := (h₂.count b h hg ((h₁.type b h hg).mpr hb)).trans (h₁.count b h hg hb)
  ct b h hg hb := (h₂.ct b h hg ((h₁.type b h hg).mpr hb)).trans (h₁.ct b h hg hb)
  firstChunk h hg := (h₂.firstChunk h hg).trans (h₁.firstChunk h hg)
  lastChunk h hg := (h₂.lastChunk h hg).trans (h₁.lastChunk h hg)
  firstFree h hg := (h₂.firstFree h hg).trans (h₁.firstFree h hg)
  chunkCount h hg := (h₂.chunkCount h hg).trans (h₁.chunkCount h hg)
  archetype h hg := (h₂.archetype h hg).trans (h₁.archetype h hg)

/-- The lists of the other archetypes are as they were. -/
theorem Chain.apart (hc : Chain st h a fulls frees) (hap : Apart g st st') (hg : h ≠ g) :
    Chain st' h a fulls frees where
  spans := by
    rw [hap.firstChunk h hg, hap.lastChunk h hg]
    exact hc.spans.congr (fun b hb => hap.next b h hg ((hc.mem b).mp hb))
      fun b hb => hap.prev b h hg ((hc.mem b).mp hb)
  mem b := (hc.mem b).trans (hap.type b h hg).symm
  full b hb := by
    have hb' := (hc.mem b).mp (List.mem_append_left _ hb)
    rw [hap.count b h hg hb', hap.ct b h hg hb']
    exact hc.full b hb
  room b hb := by
    have hb' := (hc.mem b).mp (List.mem_append_right _ hb)
    rw [hap.count b h hg hb', hap.ct b h hg hb']
    exact hc.room b hb
  firstFree := by
    rw [hap.firstFree h hg]
    exact hc.firstFree
  chunkCount := by
    rw [hap.chunkCount h hg]
    exact hc.chunkCount

theorem Chain.congr (hc : Chain st g a fulls frees) (hs : SameShape st st') :
    Chain st' g a fulls frees where
  spans := by
    rw [hs.links, hs.firstChunk, hs.lastChunk]
    exact hc.spans
  mem := by
    rw [hs.type]
    exact hc.mem
  full := by
    rw [hs.count, hs.ct]
    exact hc.full
  room := by
    rw [hs.count, hs.ct]
    exact hc.room
  firstFree := by
    rw [hs.firstFree]
    exact hc.firstFree
  chunkCount := by
    rw [hs.chunkCount]
    exact hc.chunkCount

/-- Linking a chunk behind another one of `g` changes no pointer of the other lists. -/
theorem link_apart (hl : Linked st) {x : ChunkId} (hx : st.type x = some g)
    (hc : st.type c = none ∨ st.type c = some g) (hxc : x ≠ c) {b : ChunkId} (hg : h ≠ g)
    (hb : st.type b = some h) :
    (st.links.link x c).next b = st.links.next b ∧ (st.links.link x c).prev b = st.links.prev b := by
  have hbx : b ≠ x := by
    rintro rfl
    exact hg (Option.some.inj (hb.symm.trans hx))
  have hbc : b ≠ c := by
    rintro rfl
    rcases hc with hc | hc
    · simp [hb] at hc
    · exact hg (Option.some.inj (hb.symm.trans hc))
  have hnext : st.links.next x ≠ some b := by
    intro hxb
    exact hg (Option.some.inj (hb.symm.trans (hl.type_next hx hxb)))
  rw [Links.link_next _ hxc, Links.link_prev _ hxc, if_neg hbx, if_neg hbc, if_neg hnext,
    if_neg hbc]
  exact ⟨rfl, rfl⟩

theorem unlink_apart (hl : Linked st) (hc : st.type c = some g) {b : ChunkId} (hg : h ≠ g)
    (hb : st.type b = some h) :
    (st.links.unlink c).next b = st.links.next b ∧ (st.links.unlink c).prev b = st.links.prev b := by
  have hbc : b ≠ c := by
    rintro rfl
    exact hg (Option.some.inj (hb.symm.trans hc))
  have hnext : st.links.next b ≠ some c := by
    intro hn
    exact hg (Option.some.inj ((hl.type_next hb hn).symm.trans hc))
  have hprev : st.links.prev b ≠ some c := by
    intro hp
    exact hg (Option.some.inj ((hl.type_prev hb hp).symm.trans hc))
  rw [Links.unlink_next hl.consistent, Links.unlink_prev hl.consistent, if_neg hbc, if_neg hbc,
    if_neg hnext, if_neg hprev]
  exact ⟨rfl, rfl⟩

/-! ## `add_chunk` -/

/-- The chunk has room, or the list is empty, or it starts with a full chunk that is
not its last. -/
def KeepsOrder (st : Store) (g : ArchetypeId) (a : Archetype) (c : ChunkId) : Prop :=
  st.count c < a.chunkCapacity (st.ct c) ∨ ∀ head, st.firstChunk g = some head →
    st.count head = a.chunkCapacity (st.ct head) ∧ st.lastChunk g ≠ some head

/-- The list of `g` with one more chunk in it. -/
theorem Chain.insert (hch : Chain st g a fulls frees) {fulls' frees' : List ChunkId}
    (hspans : st'.links.Spans (st'.firstChunk g) (st'.lastChunk g) (fulls' ++ frees'))
    (htype : st'.type = Function.update st.type c (some g)) (hcount : st'.count = st.count)
    (hct : st'.ct = st.ct)
    (hfulls : ∀ x ∈ fulls', x ∈ fulls ∨ x = c ∧ st.count c = a.chunkCapacity (st.ct c))
    (hfrees : ∀ x ∈ frees', x ∈ frees ∨ x = c ∧ st.count c < a.chunkCapacity (st.ct c))
    (hmem : ∀ x, x ∈ fulls' ++ frees' ↔ x = c ∨ x ∈ fulls ++ frees)
    (hfree : st'.firstFree g = frees'.head?)
    (hcc : st'.chunkCount g = (st.chunkCount g + 1) % 2 ^ 16)
    (hlen : (fulls' ++ frees').length = (fulls ++ frees).length + 1) :
    Chain st' g a fulls' frees' where
  spans := hspans
  mem x := by
    rw [hmem, hch.mem, htype, Function.update_apply]
    split_ifs with hx
    · simp [hx]
    · simp [hx]
  full x hx := by
    rw [hcount, hct]
    rcases hfulls x hx with hold | ⟨rfl, hfull⟩
    · exact hch.full x hold
    · exact hfull
  room x hx := by
    rw [hcount, hct]
    rcases hfrees x hx with hold | ⟨rfl, hroom⟩
    · exact hch.room x hold
    · exact hroom
  firstFree := hfree
  chunkCount := by
    rw [hcc, hch.chunkCount, hlen]
    omega

theorem splice_apart (hl : Linked st) (ha : st.archetype g = some a) (hc : st.type c = none)
    (hs : ({ st with
      type := Function.update st.type c (some g)
      chunkCount := Function.update st.chunkCount g ((st.chunkCount g + 1) % 2 ^ 16) } :
        Store).splice g a c = some st') : Apart g st st' := by
  have htype : ∀ b h, h ≠ g → (Function.update st.type c (some g) b = some h ↔ st.type b = some h) := by
    intro b h hg
    rw [Function.update_apply]
    split_ifs with hb
    · subst hb
      simp [hc, Ne.symm hg]
    · rfl
  have hcc : ∀ h, h ≠ g → Function.update st.chunkCount g ((st.chunkCount g + 1) % 2 ^ 16) h =
      st.chunkCount h := fun h hg => update_ne hg
  unfold splice at hs
  cases hf : st.firstChunk g with
  | none =>
      simp only [hf] at hs
      obtain rfl := Option.some.inj hs
      refine ⟨fun _ _ _ _ => rfl, fun _ _ _ _ => rfl, htype, fun _ _ _ _ => rfl,
        fun _ _ _ _ => rfl, fun h hg => update_ne hg, fun h hg => update_ne hg, fun h hg => ?_,
        hcc, fun _ _ => rfl⟩
      dsimp only
      split_ifs
      · exact update_ne hg
      · rfl
  | some head =>
      simp only [hf] at hs
      have hlink : ∀ {x : ChunkId}, st.type x = some g → ∀ b h, h ≠ g → st.type b = some h →
          (st.links.link x c).next b = st.links.next b ∧
            (st.links.link x c).prev b = st.links.prev b := by
        intro x hx b h hg hb
        apply link_apart hl hx (Or.inl hc) _ hg hb
        rintro rfl
        simp [hc] at hx
      by_cases hlt : st.count c < a.chunkCapacity (st.ct c)
      · rw [if_pos hlt] at hs
        cases hlast : st.lastChunk g with
        | none => simp [hlast] at hs
        | some last =>
            simp only [hlast] at hs
            obtain rfl := Option.some.inj hs
            have hx := hl.last g a last ha hlast
            refine ⟨fun b h hg hb => (hlink hx b h hg hb).1, fun b h hg hb => (hlink hx b h hg hb).2,
              htype, fun _ _ _ _ => rfl, fun _ _ _ _ => rfl, fun _ _ => rfl,
              fun h hg => update_ne hg, fun h hg => ?_, hcc, fun _ _ => rfl⟩
            dsimp only
            split_ifs
            · exact update_ne hg
            · rfl
      · rw [if_neg hlt] at hs
        obtain rfl := Option.some.inj hs
        have hx := hl.first g a head ha hf
        exact ⟨fun b h hg hb => (hlink hx b h hg hb).1, fun b h hg hb => (hlink hx b h hg hb).2,
          htype, fun _ _ _ _ => rfl, fun _ _ _ _ => rfl, fun _ _ => rfl, fun _ _ => rfl,
          fun _ _ => rfl, hcc, fun _ _ => rfl⟩

/-- The list part of `add_chunk`. -/
theorem Chain.splice (hl : Linked st) (hch : Chain st g a fulls frees) (hc : st.type c = none)
    (hcap : st.count c ≤ a.chunkCapacity (st.ct c)) (hkeep : KeepsOrder st g a c)
    (hs : ({ st with
      type := Function.update st.type c (some g)
      chunkCount := Function.update st.chunkCount g ((st.chunkCount g + 1) % 2 ^ 16) } :
        Store).splice g a c = some st') : ∃ fulls' frees', Chain st' g a fulls' frees' := by
  have hdet := hl.detached hc
  have hnew : c ∉ fulls ++ frees := by
    rw [hch.mem, hc]
    simp
  unfold Store.splice at hs
  cases hf : st.firstChunk g with
  | none =>
      obtain ⟨rfl, rfl⟩ := List.append_eq_nil_iff.mp (hch.spans.first_eq_none.mp hf)
      simp only [hf] at hs
      obtain rfl := Option.some.inj hs
      have hspans : st.links.Spans (some c) (some c) [c] :=
        ⟨⟨rfl, hdet.1⟩, rfl, fun d hd => Option.some.inj hd ▸ hdet.2⟩
      have hhead : ∀ f : ArchetypeId → Option ChunkId, Function.update f g (some c) g = some c :=
        fun f => Function.update_self ..
      by_cases hlt : st.count c < a.chunkCapacity (st.ct c)
      · refine ⟨[], [c], hch.insert ?_ rfl rfl rfl (by simp) (by simp [hlt]) (by simp) ?_
          (Function.update_self ..) rfl⟩
        · dsimp only
          rw [hhead, hhead]
          exact hspans
        · dsimp only
          rw [if_pos hlt]
          exact hhead _
      · refine ⟨[c], [], hch.insert ?_ rfl rfl rfl ?_ (by simp) (by simp) ?_
          (Function.update_self ..) rfl⟩
        · dsimp only
          rw [hhead, hhead]
          exact hspans
        · simpa using Nat.le_antisymm hcap (Nat.le_of_not_lt hlt)
        · dsimp only
          rw [if_neg hlt]
          exact hch.firstFree
  | some head =>
      simp only [hf] at hs
      by_cases hlt : st.count c < a.chunkCapacity (st.ct c)
      · rw [if_pos hlt] at hs
        cases hlast : st.lastChunk g with
        | none => simp [hlast] at hs
        | some last =>
            simp only [hlast] at hs
            obtain rfl := Option.some.inj hs
            have hspans := hch.spans
            rw [hlast] at hspans
            have hlink := hspans.link_last hnew
            rw [List.append_assoc] at hlink
            refine ⟨fulls, frees ++ [c], hch.insert ?_ rfl rfl rfl (fun x hx => Or.inl hx) ?_ ?_ ?_
              (Function.update_self ..) (by simp [Nat.add_assoc])⟩
            · dsimp only
              rw [Function.update_self]
              exact hlink
            · intro x hx
              rcases List.mem_append.mp hx with hx | hx
              · exact Or.inl hx
              · exact Or.inr ⟨List.mem_singleton.mp hx, hlt⟩
            · intro x
              simp only [List.mem_append, List.mem_singleton]
              tauto
            · dsimp only
              rw [hch.firstFree]
              cases hfr : frees with
              | nil => simp
              | cons f fs => simp [hch.firstFree, hfr]
      · -- the head is full and has a successor
        rw [if_neg hlt] at hs
        obtain rfl := Option.some.inj hs
        obtain ⟨hfull, hne⟩ := (hkeep.resolve_left hlt) head hf
        have hhead := hch.spans.path.head
        rw [hf] at hhead
        cases hfu : fulls with
        | nil =>
            rw [hfu, List.nil_append] at hhead
            have := hch.room head (List.mem_of_mem_head? hhead.symm)
            omega
        | cons f fs =>
            rw [hfu, List.cons_append, List.head?_cons, Option.some.injEq] at hhead
            subst hhead
            cases hrest : fs ++ frees with
            | nil =>
                apply absurd _ hne
                rw [hch.spans.last, hfu, List.cons_append, hrest]
                rfl
            | cons b ys =>
                have hlist : fulls ++ frees = head :: b :: ys := by
                  rw [hfu, List.cons_append, hrest]
                have hspans := hch.spans
                rw [hlist] at hspans
                have hlink := hspans.link_first (hlist ▸ hnew)
                refine ⟨head :: c :: fs, frees, hch.insert ?_ rfl rfl rfl ?_
                  (fun x hx => Or.inl hx) ?_ hch.firstFree (Function.update_self ..) ?_⟩
                · rw [List.cons_append, List.cons_append, hrest]
                  exact hlink
                · intro x hx
                  rw [hfu]
                  simp only [List.mem_cons] at hx ⊢
                  rcases hx with rfl | rfl | hx
                  · exact Or.inl (Or.inl rfl)
                  · exact Or.inr ⟨rfl, Nat.le_antisymm hcap (Nat.le_of_not_lt hlt)⟩
                  · exact Or.inl (Or.inr hx)
                · intro x
                  rw [hfu]
                  simp only [List.cons_append, List.mem_cons]
                  tauto
                · rw [hfu]
                  simp only [List.cons_append, List.length_cons]

/-- `add_chunk` leaves the other lists alone. -/
theorem addChunk_apart (hl : Linked st) (ha : st.archetype g = some a) (hc : st.type c = none)
    (hs : st.addChunk g c = some st') : Apart g st st' := by
  simp only [Store.addChunk, ha, Option.bind_eq_bind, Option.bind_some] at hs
  have hshape := (structuralChange_shape st g a c).trans
    (addSize_shape (st.structuralChange g a c) g (st.count c))
  revert hs hshape
  generalize (st.structuralChange g a c).addSize g (st.count c) = st₁
  intro hs hshape
  have hc₁ : st₁.type c = none := by rw [hshape.type]; exact hc
  have ha₁ : st₁.archetype g = some a := by rw [hshape.archetype]; exact ha
  exact (Apart.of_shape g hshape).trans (splice_apart (hl.congr hshape) ha₁ hc₁ hs)

/-- `add_chunk`, where it keeps the order of the list. -/
theorem Chain.addChunk (hwf : Wf ctx st) (hch : Chain st g a fulls frees)
    (ha : st.archetype g = some a) (hc : st.type c = none)
    (hcap : st.count c ≤ a.chunkCapacity (st.ct c)) (hkeep : KeepsOrder st g a c)
    (hs : st.addChunk g c = some st') :
    Apart g st st' ∧ ∃ fulls' frees', Chain st' g a fulls' frees' := by
  refine ⟨addChunk_apart hwf.toLinked ha hc hs, ?_⟩
  simp only [Store.addChunk, ha, Option.bind_eq_bind, Option.bind_some] at hs
  have hshape := (structuralChange_shape st g a c).trans
    (addSize_shape (st.structuralChange g a c) g (st.count c))
  revert hs hshape
  generalize (st.structuralChange g a c).addSize g (st.count c) = st₁
  intro hs hshape
  have hl := hwf.toLinked.congr hshape
  have hc₁ : st₁.type c = none := by rw [hshape.type]; exact hc
  have hkeep₁ : KeepsOrder st₁ g a c := by
    unfold KeepsOrder
    rw [hshape.count, hshape.ct, hshape.firstChunk, hshape.lastChunk]
    exact hkeep
  refine (hch.congr hshape).splice hl hc₁ ?_ hkeep₁ hs
  rw [hshape.count, hshape.ct]
  exact hcap

/-! ## `remove`, `remove_chunk` -/

/-- `world::remove` splices a chunk out and moves both pointers off it. -/
theorem spans_remove (hl : st.links.Consistent) {xs ys : List ChunkId}
    (h : st.links.Spans (st.firstChunk g) (st.lastChunk g) (xs ++ c :: ys)) :
    (st.remove g c).links.Spans ((st.remove g c).firstChunk g) ((st.remove g c).lastChunk g)
      (xs ++ ys) := by
  have hspans := h.unlink hl
  simp only [Store.remove, Function.update_self]
  exact hspans

theorem remove_apart (hl : Linked st) (hc : st.type c = some g) : Apart g st (st.remove g c) where
  next _ _ hg hb := (unlink_apart hl hc hg hb).1
  prev _ _ hg hb := (unlink_apart hl hc hg hb).2
  type _ _ _ := Iff.rfl
  count _ _ _ _ := rfl
  ct _ _ _ _ := rfl
  firstChunk _ hg := update_ne hg
  lastChunk _ hg := update_ne hg
  firstFree _ _ := rfl
  chunkCount _ _ := rfl
  archetype _ _ := rfl

/-- The list of `g` with one chunk less. -/
theorem Chain.erase (hch : Chain st g a fulls frees) {fulls' frees' : List ChunkId}
    (hspans : st'.links.Spans (st'.firstChunk g) (st'.lastChunk g) (fulls' ++ frees'))
    (htype : st'.type = Function.update st.type c none) (hcount : st'.count = st.count)
    (hct : st'.ct = st.ct) (hfulls : ∀ x ∈ fulls', x ∈ fulls) (hfrees : ∀ x ∈ frees', x ∈ frees)
    (hmem : ∀ x, x ∈ fulls' ++ frees' ↔ x ≠ c ∧ x ∈ fulls ++ frees)
    (hfree : st'.firstFree g = frees'.head?)
    (hcc : st'.chunkCount g = (st.chunkCount g + 2 ^ 16 - 1) % 2 ^ 16)
    (hlen : (fulls' ++ frees').length + 1 = (fulls ++ frees).length) :
    Chain st' g a fulls' frees' where
  spans := hspans
  mem x := by
    rw [hmem, hch.mem, htype, Function.update_apply]
    split_ifs with hx
    · simp [hx]
    · simp [hx]
  full x hx := by
    rw [hcount, hct]
    exact hch.full x (hfulls x hx)
  room x hx := by
    rw [hcount, hct]
    exact hch.room x (hfrees x hx)
  firstFree := hfree
  chunkCount := by
    rw [hcc, hch.chunkCount, ← hlen]
    omega

/-- `remove_chunk` up to the test for an empty list. -/
def takeOut (st : Store) (g : ArchetypeId) (c : ChunkId) : Store :=
  let st : Store :=
    { st with
      chunkCount := Function.update st.chunkCount g ((st.chunkCount g + 2 ^ 16 - 1) % 2 ^ 16)
      firstFree :=
        if st.firstFree g = some c then Function.update st.firstFree g (st.links.next c)
        else st.firstFree }
  let st := st.remove g c
  { st with type := Function.update st.type c none }

theorem takeOut_apart (hl : Linked st) (hc : st.type c = some g) : Apart g st (st.takeOut g c) where
  next _ _ hg hb := (unlink_apart hl hc hg hb).1
  prev _ _ hg hb := (unlink_apart hl hc hg hb).2
  type b h hg := by
    simp only [takeOut, Store.remove, Function.update_apply]
    split_ifs with hb
    · subst hb
      simp [hc, Ne.symm hg]
    · rfl
  count _ _ _ _ := rfl
  ct _ _ _ _ := rfl
  firstChunk _ hg := update_ne hg
  lastChunk _ hg := update_ne hg
  firstFree h hg := by
    simp only [takeOut, Store.remove]
    split_ifs
    · exact update_ne hg
    · rfl
  chunkCount _ hg := update_ne hg
  archetype _ _ := rfl

theorem Chain.takeOut (hl : Linked st) (hch : Chain st g a fulls frees)
    (hc : st.type c = some g) : ∃ fulls' frees', Chain (st.takeOut g c) g a fulls' frees' := by
  have hnd := hch.spans.path.nodup
  rcases List.mem_append.mp ((hch.mem c).mpr hc) with hmem | hmem
  · -- a full chunk: `firstFree` stays
    obtain ⟨xs, ys, rfl⟩ := List.append_of_mem hmem
    have hout : c ∉ frees := fun hin =>
      (List.nodup_append.mp hnd).2.2 c hmem c hin rfl
    have hne : st.firstFree g ≠ some c := by
      rw [hch.firstFree]
      exact fun hhead => hout (List.mem_of_mem_head? hhead)
    have hnd' : (xs ++ c :: (ys ++ frees)).Nodup := by simpa using hnd
    have hnotin := (List.nodup_cons.mp (List.nodup_middle.mp hnd')).1
    refine ⟨xs ++ ys, frees, hch.erase ?_ rfl rfl rfl ?_ (fun x hx => hx) ?_ ?_
      (Function.update_self ..) ?_⟩
    · have hspans := hch.spans
      rw [List.append_assoc, List.cons_append] at hspans
      rw [List.append_assoc]
      exact spans_remove hl.consistent hspans
    · intro x hx
      simp only [List.mem_append, List.mem_cons] at hx ⊢
      tauto
    · intro x
      simp only [List.mem_append, List.mem_cons] at hnotin ⊢
      constructor
      · intro hx
        refine ⟨?_, by tauto⟩
        rintro rfl
        tauto
      · tauto
    · simp only [Store.takeOut, Store.remove, if_neg hne]
      exact hch.firstFree
    · simp only [List.length_append, List.length_cons]
      omega
  · -- a chunk with room: `firstFree` moves on when it was the first
    obtain ⟨xs, ys, rfl⟩ := List.append_of_mem hmem
    have hnd' : ((fulls ++ xs) ++ c :: ys).Nodup := by simpa using hnd
    have hnotin := (List.nodup_cons.mp (List.nodup_middle.mp hnd')).1
    have hspans := hch.spans
    rw [← List.append_assoc] at hspans
    refine ⟨fulls, xs ++ ys, hch.erase ?_ rfl rfl rfl (fun x hx => hx) ?_ ?_ ?_
      (Function.update_self ..) ?_⟩
    · rw [← List.append_assoc]
      exact spans_remove hl.consistent hspans
    · intro x hx
      simp only [List.mem_append, List.mem_cons] at hx ⊢
      tauto
    · intro x
      simp only [List.mem_append, List.mem_cons] at hnotin ⊢
      constructor
      · intro hx
        refine ⟨?_, by tauto⟩
        rintro rfl
        tauto
      · tauto
    · simp only [Store.takeOut, Store.remove]
      cases xs with
      | nil =>
          have hfree : st.firstFree g = some c := hch.firstFree
          rw [if_pos hfree, Function.update_self, List.nil_append]
          exact hspans.path.next_eq
      | cons x xs =>
          have hx : x ≠ c := by
            rintro rfl
            simp at hnotin
          have hfree : st.firstFree g = some x := hch.firstFree
          rw [if_neg (by rw [hfree]; simpa using hx)]
          exact hfree
    · simp only [List.length_append, List.length_cons]
      omega

/-- `remove_chunk` takes the chunk out of the list; the archetype goes with the last
one. -/
theorem Chain.removeChunk (hwf : Wf ctx st) (hch : Chain st g a fulls frees) {ents : Entities}
    (ha : st.archetype g = some a) (hc : st.type c = some g)
    (hs : st.removeChunk ents g c = some st') :
    Apart g st st' ∧ (st'.archetype g = some a → ∃ fulls' frees', Chain st' g a fulls' frees') ∧
      (st'.archetype g = none → ∀ d, st'.type d ≠ some g) := by
  simp only [Store.removeChunk, ha, Option.bind_eq_bind, Option.bind_some] at hs
  have hshape := (structuralChange_shape st g a c).trans
    (subSize_shape (st.structuralChange g a c) g (st.count c))
  revert hs hshape
  generalize (st.structuralChange g a c).subSize g (st.count c) = st₁
  intro hs hshape
  have hl := hwf.toLinked.congr hshape
  have hch₁ := hch.congr hshape
  have hc₁ : st₁.type c = some g := by rw [hshape.type]; exact hc
  have ha₁ : st₁.archetype g = some a := by rw [hshape.archetype]; exact ha
  have hap := (Apart.of_shape g hshape).trans (takeOut_apart hl hc₁)
  obtain ⟨fulls', frees', hch₂⟩ := hch₁.takeOut hl hc₁
  change (if (st₁.takeOut g c).firstChunk g = none then (st₁.takeOut g c).freeArchetype ents g a
    else some (st₁.takeOut g c)) = some st' at hs
  split_ifs at hs with hnil
  · obtain ⟨st₂, hshape₂, rfl⟩ := freeArchetype_spec hs
    have hnone : Function.update st₂.archetype g none g = none := Function.update_self ..
    have hap₂ := hap.trans (Apart.of_shape g hshape₂)
    refine ⟨{ hap₂ with archetype := fun h hg => ?_ }, fun hsome => ?_, fun _ d hd => ?_⟩
    · exact (update_ne hg).trans (hap₂.archetype h hg)
    · exact absurd (hnone.symm.trans hsome) (by simp)
    · have hd' : (st₁.takeOut g c).type d = some g := by
        rw [← hshape₂.type]
        exact hd
      have hmem := (hch₂.mem d).mpr hd'
      rw [hch₂.spans.first_eq_none.mp hnil] at hmem
      simp at hmem
  · obtain rfl := Option.some.inj hs
    refine ⟨hap, fun _ => ⟨fulls', frees', hch₂⟩, fun hnone => ?_⟩
    exact absurd (hnone.symm.trans ha₁) (by simp)

/-! ## `mark_free`, `unmark_free` and `resize_chunk` -/

theorem markFree_apart (hl : Linked st) (ha : st.archetype g = some a) (hc : st.type c = some g) :
    Apart g st (st.markFree g c) := by
  have hrem := remove_apart hl hc
  have hl' := hl.remove hc
  have hlinks : ∀ b h, h ≠ g → st.type b = some h →
      (st.markFree g c).links.next b = (st.remove g c).links.next b ∧
        (st.markFree g c).links.prev b = (st.remove g c).links.prev b := by
    intro b h hg hb
    simp only [Store.markFree]
    cases hlast : (st.remove g c).lastChunk g with
    | none => exact ⟨rfl, rfl⟩
    | some x =>
        have hxc : x ≠ c := fun hxc => remove_lastChunk_ne hl (hxc ▸ hlast)
        exact link_apart hl' (hl'.last g a x ha hlast) (Or.inr hc) hxc hg hb
  refine ⟨fun b h hg hb => (hlinks b h hg hb).1.trans (hrem.next b h hg hb),
    fun b h hg hb => (hlinks b h hg hb).2.trans (hrem.prev b h hg hb), fun _ _ _ => Iff.rfl,
    fun _ _ _ _ => rfl, fun _ _ _ _ => rfl, fun h hg => ?_, fun h hg => ?_, fun h hg => ?_,
    fun _ _ => rfl, fun _ _ => rfl⟩
  · rw [← hrem.firstChunk h hg]
    simp only [Store.markFree]
    split_ifs
    · exact update_ne hg
    · rfl
  · rw [← hrem.lastChunk h hg]
    exact update_ne hg
  · rw [← hrem.firstFree h hg]
    simp only [Store.markFree]
    split_ifs
    · exact update_ne hg
    · rfl

/-- `mark_free` takes a full chunk to the end of the list, behind the chunks with room. -/
theorem Chain.markFree (hl : Linked st) {xs ys : List ChunkId}
    (hch : Chain st g a (xs ++ c :: ys) frees) :
    (st.markFree g c).links.Spans ((st.markFree g c).firstChunk g) ((st.markFree g c).lastChunk g)
        ((xs ++ ys) ++ (frees ++ [c])) ∧
      (st.markFree g c).firstFree g = (frees ++ [c]).head? := by
  have hspans := hch.spans
  rw [List.append_assoc, List.cons_append] at hspans
  have hnotin := (List.nodup_cons.mp (List.nodup_middle.mp hspans.path.nodup)).1
  have hrem := spans_remove hl.consistent hspans
  have hdet : (st.remove g c).links.Detached c := remove_detached hl
  have hfree : (st.remove g c).firstFree g = frees.head? := hch.firstFree
  constructor
  · simp only [Store.markFree, Function.update_self]
    cases hlast : (st.remove g c).lastChunk g with
    | none =>
        have hfirst := hrem.first_none_iff.mpr hlast
        have hnil := hrem.first_eq_none.mp hfirst
        rw [if_pos hfirst, Function.update_self, ← List.append_assoc, List.append_assoc xs, hnil]
        exact ⟨⟨rfl, hdet.1⟩, rfl, fun d hd => Option.some.inj hd ▸ hdet.2⟩
    | some x =>
        rw [hlast] at hrem
        have hfirst : (st.remove g c).firstChunk g ≠ none := by
          intro hnone
          simpa using hrem.first_none_iff.mp hnone
        rw [if_neg hfirst, ← List.append_assoc, List.append_assoc xs]
        exact hrem.link_last hnotin
  · simp only [Store.markFree]
    rw [hfree]
    cases hfr : frees with
    | nil => simp
    | cons f fs => simp [hfree, hfr]

theorem Apart.setCount (h : Apart g st st') (hc : st.type c = some g) (n : Nat) :
    Apart g st { st' with count := Function.update st'.count c n } where
  next := h.next
  prev := h.prev
  type := h.type
  count b k hg hb := by
    have hbc : b ≠ c := by
      rintro rfl
      exact hg (Option.some.inj (hb.symm.trans hc))
    exact (update_ne hbc).trans (h.count b k hg hb)
  ct := h.ct
  firstChunk := h.firstChunk
  lastChunk := h.lastChunk
  firstFree := h.firstFree
  chunkCount := h.chunkCount
  archetype := h.archetype

/-- `resize_chunk` that leaves entities in the chunk changes its count and the lists. -/
theorem resizeChunk_lists {ents : Entities} {n : Nat} (hn : n ≠ 0)
    (hs : st.resizeChunk ents c n = some st') :
    ∃ links firstChunk lastChunk firstFree, st' =
      { st with
        links := links
        firstChunk := firstChunk
        lastChunk := lastChunk
        firstFree := firstFree
        count := Function.update st.count c n } := by
  simp only [Store.resizeChunk, Option.bind_eq_bind, Option.bind_eq_some_iff, if_neg hn] at hs
  obtain ⟨g, -, a, -, hs⟩ := hs
  rw [← Option.some.inj hs]
  unfold Store.unmarkFree
  split_ifs
  · exact ⟨_, _, _, _, rfl⟩
  · exact ⟨_, _, _, _, rfl⟩
  · exact ⟨_, _, _, _, rfl⟩
  · exact ⟨_, _, _, _, rfl⟩

/-- A chunk is filled up only where `firstFree` points. -/
theorem resizeChunk_apart (hl : Linked st) {ents : Entities} {n : Nat}
    (ha : st.archetype g = some a) (hc : st.type c = some g) (hn0 : n ≠ 0)
    (hfull : n = a.chunkCapacity (st.ct c) → st.firstFree g = some c)
    (hs : st.resizeChunk ents c n = some st') : Apart g st st' := by
  have hshape : Apart g st st := Apart.of_shape g (SameShape.refl st)
  simp only [Store.resizeChunk, hc, ha, Option.bind_eq_bind, Option.bind_some, if_neg hn0] at hs
  obtain rfl := Option.some.inj hs
  split_ifs with hcap hwas
  · rw [Store.unmarkFree, if_pos (hfull hcap)]
    have hap : Apart g st { st with
        firstFree := Function.update st.firstFree g (st.links.next c) } :=
      { hshape with firstFree := fun h hg => update_ne hg }
    exact hap.setCount hc n
  · exact (markFree_apart hl ha hc).setCount hc n
  · exact hshape.setCount hc n

/-- The list after `resize_chunk`. -/
theorem Chain.resizeChunk (hl : Linked st) (hch : Chain st g a fulls frees) {ents : Entities}
    {n : Nat} (ha : st.archetype g = some a) (hc : st.type c = some g) (hn0 : n ≠ 0)
    (hn : n ≤ a.chunkCapacity (st.ct c))
    (hfull : n = a.chunkCapacity (st.ct c) → st.firstFree g = some c)
    (hs : st.resizeChunk ents c n = some st') :
    Apart g st st' ∧ ∃ fulls' frees', Chain st' g a fulls' frees' := by
  refine ⟨resizeChunk_apart hl ha hc hn0 hfull hs, ?_⟩
  have hnd := hch.spans.path.nodup
  have hcount : ∀ x, x ≠ c → Function.update st.count c n x = st.count x :=
    fun x hx => update_ne hx
  have hself : Function.update st.count c n c = n := Function.update_self ..
  simp only [Store.resizeChunk, hc, ha, Option.bind_eq_bind, Option.bind_some, if_neg hn0] at hs
  obtain rfl := Option.some.inj hs
  split_ifs with hcap hwas
  · -- the first chunk with room becomes the last full one
    have hfree := hfull hcap
    have hhead := hch.firstFree
    rw [hfree] at hhead
    obtain ⟨ys, rfl⟩ : ∃ ys, frees = c :: ys := by
      cases frees with
      | nil => simp at hhead
      | cons f fs => exact ⟨fs, by rw [Option.some.inj hhead]⟩
    have hnotin := (List.nodup_cons.mp (List.nodup_middle.mp hnd)).1
    have hlist : (fulls ++ [c]) ++ ys = fulls ++ c :: ys := by simp
    rw [Store.unmarkFree, if_pos hfree]
    refine ⟨fulls ++ [c], ys, ?_⟩
    · refine ⟨hlist ▸ hch.spans, hlist ▸ hch.mem, fun x hx => ?_, fun x hx => ?_, ?_,
        hlist ▸ hch.chunkCount⟩
      · dsimp only
        rcases List.mem_append.mp hx with hx | hx
        · rw [hcount x (fun hxc => hnotin (hxc ▸ List.mem_append_left _ hx))]
          exact hch.full x hx
        · rw [List.mem_singleton.mp hx, hself]
          exact hcap
      · dsimp only
        rw [hcount x (fun hxc => hnotin (hxc ▸ List.mem_append_right _ hx))]
        exact hch.room x (List.mem_cons_of_mem c hx)
      · exact (Function.update_self ..).trans hch.spans.path.next_eq
  · -- a full chunk gets room and goes behind the others that have some
    have hmem : c ∈ fulls := by
      rcases List.mem_append.mp ((hch.mem c).mpr hc) with hmem | hmem
      · exact hmem
      · exact absurd (hch.room c hmem) (by omega)
    obtain ⟨xs, ys, rfl⟩ := List.append_of_mem hmem
    have hnotin : c ∉ xs ++ ys ++ frees := by
      have hnd' : (xs ++ c :: (ys ++ frees)).Nodup := by simpa using hnd
      simpa using (List.nodup_cons.mp (List.nodup_middle.mp hnd')).1
    obtain ⟨hspans, hfree⟩ := hch.markFree hl
    refine ⟨xs ++ ys, frees ++ [c], hspans, fun x => ?_, fun x hx => ?_, fun x hx => ?_, hfree, ?_⟩
    · change _ ↔ st.type x = some g
      rw [← hch.mem]
      simp only [List.mem_append, List.mem_cons, List.not_mem_nil, or_false]
      tauto
    · change Function.update st.count c n x = _
      rw [hcount x (fun hxc => hnotin (hxc ▸ List.mem_append_left _ hx))]
      apply hch.full
      simp only [List.mem_append, List.mem_cons] at hx ⊢
      tauto
    · change Function.update st.count c n x < a.chunkCapacity (st.ct x)
      rcases List.mem_append.mp hx with hx | hx
      · rw [hcount x (fun hxc => hnotin (hxc ▸ List.mem_append_right _ hx))]
        exact hch.room x hx
      · rw [List.mem_singleton.mp hx, hself]
        omega
    · change st.chunkCount g = _
      rw [hch.chunkCount]
      simp only [List.length_append, List.length_cons, List.length_nil]
      omega
  · -- a chunk with room stays where it is
    have hmem : c ∈ frees := by
      rcases List.mem_append.mp ((hch.mem c).mpr hc) with hmem | hmem
      · exact absurd (hch.full c hmem) hwas
      · exact hmem
    have hout : c ∉ fulls := fun hin => (List.nodup_append.mp hnd).2.2 c hin c hmem rfl
    refine ⟨fulls, frees, hch.spans, hch.mem, fun x hx => ?_, fun x hx => ?_, hch.firstFree,
      hch.chunkCount⟩
    · dsimp only
      rw [hcount x (fun hxc => hout (hxc ▸ hx))]
      exact hch.full x hx
    · dsimp only
      by_cases hxc : x = c
      · rw [hxc, hself]
        omega
      · rw [hcount x hxc]
        exact hch.room x hx

/-! ## The invariant -/

/-- Every living archetype has its list, and every chunk of a list holds an entity. -/
structure Listed (ctx : Context) (st : Store) : Prop extends Wf ctx st where
  chain : ∀ g a, st.archetype g = some a → ∃ fulls frees, Chain st g a fulls frees
  alive : ∀ c g, st.type c = some g → ∃ a, st.archetype g = some a
  nonempty : ∀ c g, st.type c = some g → 0 < st.count c

theorem Listed.congr (hl : Listed ctx st) (hs : SameShape st st') : Listed ctx st' where
  toWf := hl.toWf.congr hs
  chain g a ha := by
    rw [hs.archetype] at ha
    obtain ⟨fulls, frees, hch⟩ := hl.chain g a ha
    exact ⟨fulls, frees, hch.congr hs⟩
  alive := by
    rw [hs.type, hs.archetype]
    exact hl.alive
  nonempty := by
    rw [hs.type, hs.count]
    exact hl.nonempty

/-- An operation on the list of one archetype. -/
theorem Listed.of_apart (hl : Listed ctx st) (hwf : Wf ctx st') (hap : Apart g st st')
    (hchain : ∀ a, st'.archetype g = some a → ∃ fulls frees, Chain st' g a fulls frees)
    (halive : st'.archetype g = none → ∀ c, st'.type c ≠ some g)
    (hnon : ∀ c, st'.type c = some g → 0 < st'.count c) : Listed ctx st' where
  toWf := hwf
  chain h b hb := by
    by_cases hg : h = g
    · subst hg
      exact hchain b hb
    · rw [hap.archetype h hg] at hb
      obtain ⟨fulls, frees, hch⟩ := hl.chain h b hb
      exact ⟨fulls, frees, hch.apart hap hg⟩
  alive c h hc := by
    by_cases hg : h = g
    · subst hg
      cases ha : st'.archetype h with
      | none => exact absurd hc (halive ha c)
      | some a => exact ⟨a, rfl⟩
    · rw [hap.archetype h hg]
      exact hl.alive c h ((hap.type c h hg).mp hc)
  nonempty c h hc := by
    by_cases hg : h = g
    · subst hg
      exact hnon c hc
    · have hc' := (hap.type c h hg).mp hc
      rw [hap.count c h hg hc']
      exact hl.nonempty c h hc'

theorem mallocChunk_apart (hwf : Wf ctx st) (g : ArchetypeId) (t : AllocType) :
    Apart g st (st.mallocChunk t).1 := by
  have hnone : st.type st.freshChunk = none := hwf.fresh _ le_rfl
  have hdet := hwf.toLinked.detached hnone
  have hlinks : (st.mallocChunk t).1.links = st.links := by
    simp only [Store.mallocChunk, Links.setPrev, Links.setNext]
    rw [← hdet.1, Function.update_eq_self, hdet.1, ← hdet.2, Function.update_eq_self]
  have hne : ∀ b h, st.type b = some h → b ≠ st.freshChunk := by
    rintro b h hb rfl
    simp [hnone] at hb
  exact
    { next := fun _ _ _ _ => by rw [hlinks]
      prev := fun _ _ _ _ => by rw [hlinks]
      type := fun _ _ _ => Iff.rfl
      count := fun b h _ hb => update_ne (hne b h hb)
      ct := fun b h _ hb => update_ne (hne b h hb)
      firstChunk := fun _ _ => rfl
      lastChunk := fun _ _ => rfl
      firstFree := fun _ _ => rfl
      chunkCount := fun _ _ => rfl
      archetype := fun _ _ => rfl }

/-- `new_chunk`. -/
theorem newChunk_apart (hwf : Wf ctx st) {hint : Nat} (ha : st.archetype g = some a)
    (hs : st.newChunk g hint = some (st', c)) : Apart g st st' := by
  simp only [Store.newChunk, ha, Option.bind_eq_bind, Option.bind_some,
    Option.bind_eq_some_iff, Option.some.injEq, Prod.mk.injEq] at hs
  obtain ⟨st₂, hs, rfl, rfl⟩ := hs
  have hnone : st.type st.freshChunk = none := hwf.fresh _ le_rfl
  exact (mallocChunk_apart hwf g _).trans
    (addChunk_apart (hwf.mallocChunk _).toLinked ha hnone hs)

/-- The part of `allocate_slice` after the chunk is chosen. -/
theorem allocateIn_apart (hl : Linked st) {ents : Entities} {m n : Nat}
    (ha : st.archetype g = some a) (hc : st.type c = some g) (hn0 : n ≠ 0)
    (hfree : 0 < a.chunkCapacity (st.ct c) → st.firstFree g = some c)
    (hs : ((st.structuralChange g a c).addSize g m).resizeChunk ents c n = some st') :
    Apart g st st' := by
  have hshape := (structuralChange_shape st g a c).trans
    (addSize_shape (st.structuralChange g a c) g m)
  refine (Apart.of_shape g hshape).trans (resizeChunk_apart (hl.congr hshape)
    (hshape.archetype ▸ ha) (hshape.type ▸ hc) hn0 (fun hcap => ?_) hs)
  rw [hshape.ct] at hcap
  rw [hshape.firstFree]
  exact hfree (by omega)

/-- `allocate_slice`, when it did not give its chunk back at once. -/
theorem Wf.allocateSlice_apart (hwf : Wf ctx st) {ents : Entities} {n : Nat} {s : ChunkSlice}
    (ha : st.archetype g = some a) (hs : st.allocateSlice ents g n = some (st', s))
    (hty : st'.type s.c ≠ none) : Apart g st st' := by
  obtain ⟨-, hall⟩ := hwf.allocateSlice ha hs hty
  have hpos := hall.pos
  simp only [Store.allocateSlice, ha, Option.bind_eq_bind, Option.bind_some] at hs
  cases hf : st.firstFree g with
  | some c =>
      simp only [hf, Option.bind_eq_some_iff, Option.some.injEq, Prod.mk.injEq] at hs
      obtain ⟨st₂, hres, rfl, rfl⟩ := hs
      exact allocateIn_apart hwf.toLinked ha (hwf.free g a c ha hf) (Nat.pos_iff_ne_zero.mp hpos)
        (fun _ => hf) hres
  | none =>
      simp only [hf, Option.bind_eq_some_iff, Option.some.injEq, Prod.mk.injEq] at hs
      obtain ⟨⟨st₁, c⟩, hchunk, st₂, hres, rfl, rfl⟩ := hs
      obtain ⟨hwf₁, -, -, htype, -, -, -, harch, hfree⟩ := hwf.newChunk ha hf hchunk
      have ha₁ : st₁.archetype g = some a := harch ▸ ha
      have hc₁ : st₁.type c = some g := by rw [htype, Function.update_self]
      exact (newChunk_apart hwf ha hchunk).trans
        (allocateIn_apart hwf₁.toLinked ha₁ hc₁ (Nat.pos_iff_ne_zero.mp hpos) hfree hres)

/-- `new_chunk`, in a bin that has room for an entity. -/
theorem Chain.newChunk (hwf : Wf ctx st) (hch : Chain st g a fulls frees) {hint : Nat}
    (ha : st.archetype g = some a) (hs : st.newChunk g hint = some (st', c))
    (hcap : 0 < a.chunkCapacity (newChunkBin (st.chunkCount g) (hint * a.entitySize % 2 ^ 32))) :
    ∃ fulls' frees', Chain st' g a fulls' frees' := by
  simp only [Store.newChunk, ha, Option.bind_eq_bind, Option.bind_some,
    Option.bind_eq_some_iff, Option.some.injEq, Prod.mk.injEq] at hs
  obtain ⟨st₂, hs, rfl, rfl⟩ := hs
  revert hcap hs
  generalize newChunkBin (st.chunkCount g) (hint * a.entitySize % 2 ^ 32) = t
  intro hcap hs
  have hnone : st.type st.freshChunk = none := hwf.fresh _ le_rfl
  have hcount : (st.mallocChunk t).1.count st.freshChunk = 0 := Function.update_self ..
  have hct : (st.mallocChunk t).1.ct st.freshChunk = t := Function.update_self ..
  have hroom : (st.mallocChunk t).1.count st.freshChunk <
      a.chunkCapacity ((st.mallocChunk t).1.ct st.freshChunk) := by
    rw [hcount, hct]
    exact hcap
  have hmalloc := hch.apart (mallocChunk_apart hwf (g + 1) t) (Nat.succ_ne_self g).symm
  exact (hmalloc.addChunk (hwf.mallocChunk t) ha hnone hroom.le (Or.inl hroom) hs).2

/-- The part of `allocate_slice` after the chunk is chosen. -/
theorem Chain.allocateIn (hl : Linked st) (hch : Chain st g a fulls frees) {ents : Entities}
    {m n : Nat} (ha : st.archetype g = some a) (hc : st.type c = some g)
    (hfree : st.firstFree g = some c) (hn0 : n ≠ 0) (hn : n ≤ a.chunkCapacity (st.ct c))
    (hs : ((st.structuralChange g a c).addSize g m).resizeChunk ents c n = some st') :
    ∃ fulls' frees', Chain st' g a fulls' frees' := by
  have hshape := (structuralChange_shape st g a c).trans
    (addSize_shape (st.structuralChange g a c) g m)
  exact ((hch.congr hshape).resizeChunk (hl.congr hshape) (hshape.archetype ▸ ha)
    (hshape.type ▸ hc) hn0 (hshape.ct ▸ hn) (fun _ => hshape.firstFree ▸ hfree) hs).2

/-- `allocate_slice`. -/
theorem Listed.allocateSlice (hl : Listed ctx st) {ents : Entities} {n : Nat} {s : ChunkSlice}
    (ha : st.archetype g = some a) (hs : st.allocateSlice ents g n = some (st', s))
    (hty : st'.type s.c ≠ none) : Listed ctx st' ∧ Allocated st st' g a s n := by
  obtain ⟨hwf, hall⟩ := hl.toWf.allocateSlice ha hs hty
  refine ⟨?_, hall⟩
  obtain ⟨fulls, frees, hch⟩ := hl.chain g a ha
  suffices hlist : ∃ fulls' frees', Chain st' g a fulls' frees' by
    refine hl.of_apart hwf (hl.toWf.allocateSlice_apart ha hs hty) (fun b hb => ?_)
      (fun hnone => ?_) (fun c hc => ?_)
    · rw [hall.archetype, ha] at hb
      exact Option.some.inj hb ▸ hlist
    · rw [hall.archetype, ha] at hnone
      simp at hnone
    · rw [hall.count, Function.update_apply]
      split_ifs with hcs
      · exact hall.pos
      · rw [hall.type, Function.update_of_ne hcs] at hc
        exact hl.nonempty c g hc
  have hpos := hall.pos
  have hle := hall.le
  simp only [Store.allocateSlice, ha, Option.bind_eq_bind, Option.bind_some] at hs
  cases hf : st.firstFree g with
  | some c =>
      simp only [hf, Option.bind_eq_some_iff, Option.some.injEq, Prod.mk.injEq] at hs
      obtain ⟨st₂, hres, rfl, rfl⟩ := hs
      have hc := hl.free g a c ha hf
      have hct := hall.ct c (by rw [hc]; exact Option.some_ne_none g)
      exact hch.allocateIn hl.toLinked ha hc hf (Nat.pos_iff_ne_zero.mp hpos) (hct ▸ hle) hres
  | none =>
      simp only [hf, Option.bind_eq_some_iff, Option.some.injEq, Prod.mk.injEq] at hs
      obtain ⟨⟨st₁, c⟩, hchunk, st₂, hres, rfl, rfl⟩ := hs
      obtain ⟨hwf₁, -, -, htype, hcount, hct, -, harch, hfree⟩ := hl.toWf.newChunk ha hf hchunk
      have ha₁ : st₁.archetype g = some a := harch ▸ ha
      have hc₁ : st₁.type c = some g := by rw [htype, Function.update_self]
      have hzero : st₁.count c = 0 := by rw [hcount, Function.update_self]
      have hshape := structuralChange_shape st₁ g a c
      -- what was handed out fits, so the new chunk has room
      simp only [hshape.count, hshape.ct, hzero, Nat.zero_add] at hres hpos
      rw [sub32_of_le (Nat.zero_le _) (hwf₁.capacity_lt ha₁ _), Nat.sub_zero] at hres hpos
      have hcap : 0 < a.chunkCapacity (st₁.ct c) := hpos.trans_le (Nat.min_le_right ..)
      have hbin := hcap
      rw [hct, Function.update_self] at hbin
      obtain ⟨fulls', frees', hch₁⟩ := hch.newChunk hl.toWf ha hchunk hbin
      exact hch₁.allocateIn hwf₁.toLinked ha₁ hc₁ (hfree hcap) (Nat.pos_iff_ne_zero.mp hpos)
        (Nat.min_le_right ..) hres

end Store

end Dots

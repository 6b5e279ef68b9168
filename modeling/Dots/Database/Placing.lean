import Dots.Database.Loading

/-!
# The slots of a loaded slice

`deserialize_slice` takes the first chunk with room for the whole slice, which need not be the
first one with room. A chunk that it fills up goes before the head of its list. Where the slice
fits, the lists are in order again.
-/

namespace Dots

open Library

namespace Store

variable {ctx : Context} {st st' : Store} {ents : Entities} {g : ArchetypeId} {a : Archetype}
  {c : ChunkId} {fulls frees : List ChunkId} {n : Nat}

/-! ## A chunk that fills up -/

/-- `unmark_free` leaves the other lists alone. -/
theorem unmarkFree_apart (hl : Linked st) (ha : st.archetype g = some a) (hc : st.type c = some g)
    (hhead : Headed st g) : Apart g st (st.unmarkFree g c) := by
  have hself : Apart g st st := Apart.of_shape g (SameShape.refl st)
  by_cases hfree : st.firstFree g = some c
  · rw [Store.unmarkFree, if_pos hfree]
    exact { hself with firstFree := fun _ hg => update_ne hg }
  · have hrem := remove_apart hl hc
    have hlinks : ∀ b h, h ≠ g → st.type b = some h →
        (st.unmarkFree g c).links.next b = (st.remove g c).links.next b ∧
          (st.unmarkFree g c).links.prev b = (st.remove g c).links.prev b := by
      intro b h hg hb
      simp only [Store.unmarkFree, if_neg hfree]
      cases hfirst : (st.remove g c).firstChunk g with
      | none => exact ⟨rfl, rfl⟩
      | some x =>
          have hxc : c ≠ x := fun hxc => remove_firstChunk_ne hl (hxc ▸ hfirst)
          have hbc : b ≠ c := by
            rintro rfl
            exact hg (Option.some.inj (hb.symm.trans hc))
          have hbx : b ≠ x := by
            rintro rfl
            exact hg (Option.some.inj (hb.symm.trans ((hl.remove hc).first g a _ ha hfirst)))
          dsimp only
          rw [Links.linkBefore_next _ hxc, Links.linkBefore_prev (hl.remove hc).consistent hxc
            (hhead.remove hl c x hfirst), if_neg hbc, if_neg hbx]
          exact ⟨rfl, rfl⟩
    refine ⟨fun b h hg hb => (hlinks b h hg hb).1.trans (hrem.next b h hg hb),
      fun b h hg hb => (hlinks b h hg hb).2.trans (hrem.prev b h hg hb), fun b h hg => ?_,
      fun b h _ _ => ?_, fun b h _ _ => ?_, fun h hg => ?_, fun h hg => ?_, fun h _ => ?_,
      fun h _ => ?_, fun h _ => ?_⟩
    · rw [(unmarkFree_resized st g c).1]
    · rw [(unmarkFree_resized st g c).2.1]
    · rw [(unmarkFree_resized st g c).2.2.1]
    · rw [Store.unmarkFree, if_neg hfree]
      exact (update_ne hg).trans (hrem.firstChunk h hg)
    · rw [Store.unmarkFree, if_neg hfree, ← hrem.lastChunk h hg]
      dsimp only
      split_ifs
      · exact update_ne hg
      · rfl
    · rw [Store.unmarkFree, if_neg hfree]
      rfl
    · rw [Store.unmarkFree, if_neg hfree]
      rfl
    · rw [(unmarkFree_resized st g c).2.2.2.2.2]

/-- A chunk that is not the first with room goes before all others. -/
theorem Chain.unmarkFront (hl : Linked st) {xs ys : List ChunkId}
    (hch : Chain st g a fulls (xs ++ c :: ys)) (hfree : st.firstFree g ≠ some c) :
    (st.unmarkFree g c).links.Spans ((st.unmarkFree g c).firstChunk g)
        ((st.unmarkFree g c).lastChunk g) (c :: fulls ++ (xs ++ ys)) ∧
      (st.unmarkFree g c).firstFree g = (xs ++ ys).head? := by
  have hspans := hch.spans
  rw [← List.append_assoc] at hspans
  have hnotin := (List.nodup_cons.mp (List.nodup_middle.mp hspans.path.nodup)).1
  rw [List.append_assoc] at hnotin
  have hrem := spans_remove hl.consistent hspans
  rw [List.append_assoc] at hrem
  obtain ⟨x, xs, rfl⟩ : ∃ x xs', xs = x :: xs' := by
    refine List.exists_cons_of_ne_nil ?_
    rintro rfl
    exact hfree hch.firstFree
  have hdet : (st.remove g c).links.Detached c := remove_detached hl
  obtain ⟨f, hf⟩ : ∃ f, (st.remove g c).firstChunk g = some f := by
    refine Option.ne_none_iff_exists'.mp fun hnone => ?_
    have hnil := hrem.first_eq_none.mp hnone
    simp at hnil
  have hlast : (st.remove g c).lastChunk g ≠ none := fun hnone => by
    rw [hrem.first_none_iff.mpr hnone] at hf
    exact absurd hf (Option.some_ne_none f).symm
  rw [Store.unmarkFree, if_neg hfree]
  simp only [hf, if_neg hlast, Function.update_self]
  rw [hf] at hrem
  exact ⟨hrem.link_before (hl.consistent.unlink c) hdet hnotin, hch.firstFree⟩

theorem Chain.headed (hch : Chain st g a fulls frees) : Headed st g := hch.spans.head

theorem Chain.mem_frees (hch : Chain st g a fulls frees) (hc : st.type c = some g)
    (hlt : st.count c < a.chunkCapacity (st.ct c)) : c ∈ frees := by
  rcases List.mem_append.mp ((hch.mem c).mpr hc) with hfull | hfree
  · exact absurd (hch.full c hfull) hlt.ne
  · exact hfree

theorem Chain.fillFront (hl : Linked st) (hch : Chain st g a fulls frees)
    (ha : st.archetype g = some a) (hc : st.type c = some g) (hn0 : n ≠ 0)
    (hcap : n = a.chunkCapacity (st.ct c)) (hmem : c ∈ frees) (hfree : st.firstFree g ≠ some c)
    (hs : st.resizeChunk ents c n = some st') :
    Apart g st st' ∧ ∃ fulls' frees', Chain st' g a fulls' frees' := by
  obtain ⟨xs, ys, rfl⟩ := List.append_of_mem hmem
  have hnd := hch.spans.path.nodup
  rw [← List.append_assoc] at hnd
  have hnotin := (List.nodup_cons.mp (List.nodup_middle.mp hnd)).1
  have hcount : ∀ x ∈ fulls ++ xs ++ ys, Function.update st.count c n x = st.count x :=
    fun x hx => update_ne fun hxc => hnotin (hxc ▸ hx)
  obtain ⟨htype, hsame, hct, -, -, -⟩ := unmarkFree_resized st g c
  obtain ⟨hspans, hfirst⟩ := hch.unmarkFront hl hfree
  simp only [Store.resizeChunk, hc, ha, Option.bind_eq_bind, Option.bind_some, if_neg hn0,
    if_pos hcap] at hs
  obtain rfl := Option.some.inj hs
  refine ⟨(unmarkFree_apart hl ha hc hch.headed).setCount hc n, c :: fulls, xs ++ ys, hspans,
    fun x => ?_, fun x hx => ?_, fun x hx => ?_, hfirst, ?_⟩
  · rw [htype, ← hch.mem]
    simp only [List.mem_append, List.mem_cons]
    tauto
  · dsimp only
    rw [hsame, hct]
    rcases List.mem_cons.mp hx with rfl | hx
    · rw [Function.update_self]
      exact hcap
    · rw [hcount x (List.mem_append_left _ (List.mem_append_left _ hx))]
      exact hch.full x hx
  · dsimp only
    rw [hsame, hct, hcount x (by simp only [List.mem_append] at hx ⊢; tauto)]
    exact hch.room x (by simp only [List.mem_append, List.mem_cons] at hx ⊢; tauto)
  · have hcc : (st.unmarkFree g c).chunkCount = st.chunkCount := by
      rw [Store.unmarkFree, if_neg hfree]
      rfl
    change (st.unmarkFree g c).chunkCount g = _
    rw [hcc, hch.chunkCount]
    simp only [List.length_append, List.length_cons]
    omega

/-- More entities in a chunk with room for them. -/
theorem Chain.grow (hwf : Wf ctx st) (hch : Chain st g a fulls frees)
    (ha : st.archetype g = some a) (hc : st.type c = some g) (hlt : st.count c < n)
    (hn : n ≤ a.chunkCapacity (st.ct c)) (hs : st.resizeChunk ents c n = some st') :
    Wf ctx st' ∧ Resized st st' c n ∧ Apart g st st' ∧
      ∃ fulls' frees', Chain st' g a fulls' frees' := by
  have hl := hwf.toLinked
  have hn0 : n ≠ 0 := Nat.ne_zero_of_lt hlt
  have hmem := hch.mem_frees hc (hlt.trans_le hn)
  have hlinked : Linked (st.unmarkFree g c) := by
    by_cases hfree : st.firstFree g = some c
    · exact hl.unmarkFree hc hfree
    · exact hl.unmarkFront ha hc hfree hch.headed
  obtain ⟨hwf', hcase⟩ := hwf.resizeChunk_linked hc ha hn (fun _ _ => hlinked) hs
  have hresized := (hcase.resolve_left fun h => hn0 h.1).2
  refine ⟨hwf', hresized, ?_⟩
  by_cases hfirst : n = a.chunkCapacity (st.ct c) → st.firstFree g = some c
  · exact hch.resizeChunk hl ha hc hn0 hn hfirst hs
  · obtain ⟨hcap, hfree⟩ := Classical.not_imp.mp hfirst
    exact hch.fillFront hl ha hc hn0 hcap hmem hfree hs

/-! ## `deserialize_slice` -/

/-- A new chunk with room goes to the end of the list. -/
structure Opened (ctx : Context) (st st' : Store) (g : ArchetypeId) (a : Archetype)
    (t : AllocType) : Prop where
  wf : Wf ctx st'
  apart : Apart g st st'
  chain : ∃ fulls frees, Chain st' g a fulls frees
  type : st'.type = Function.update st.type st.freshChunk (some g)
  count : st'.count = Function.update st.count st.freshChunk 0
  ct : st'.ct = Function.update st.ct st.freshChunk t
  archetype : st'.archetype = st.archetype
  freshArchetype : st'.freshArchetype = st.freshArchetype
  freshChunk : st'.freshChunk = st.freshChunk + 1

theorem Listed.open (hl : Listed ctx st) (ha : st.archetype g = some a)
    (hch : Chain st g a fulls frees) {t : AllocType} (hcap : 0 < a.chunkCapacity t) :
    ∃ st', (st.mallocChunk t).1.addChunk g st.freshChunk = some st' ∧ Opened ctx st st' g a t := by
  have hnone : st.type st.freshChunk = none := hl.fresh _ le_rfl
  have hzero : (st.mallocChunk t).1.count st.freshChunk = 0 := Function.update_self ..
  have hct : (st.mallocChunk t).1.ct st.freshChunk = t := Function.update_self ..
  have hroom : (st.mallocChunk t).1.count st.freshChunk <
      a.chunkCapacity ((st.mallocChunk t).1.ct st.freshChunk) := by
    rw [hzero, hct]
    exact hcap
  have hwf := hl.toWf.mallocChunk t
  have hap := mallocChunk_apart hl.toWf g t
  have hmalloc := hch.apart (mallocChunk_apart hl.toWf (g + 1) t) (Nat.succ_ne_self g).symm
  have ha₁ : (st.mallocChunk t).1.archetype g = some a := ha
  obtain ⟨st', hadd⟩ := addChunk_returns hmalloc ha₁ st.freshChunk
  obtain ⟨hwf', hadded, harch⟩ := hwf.addChunk ha₁ hnone (Nat.lt_succ_self _) hroom.le hadd
  obtain ⟨hap', hchain⟩ := hmalloc.addChunk hwf ha₁ hnone hroom.le (Or.inl hroom) hadd
  exact ⟨st', hadd, hwf', hap.trans hap', hchain, hadded.type, hadded.count, hadded.ct, harch,
    hadded.freshArchetype, hadded.freshChunk⟩

/-- Where the slice fits, `deserialize_slice` hands out slots as `allocate_slice` does, all of
them in one chunk. -/
theorem Listed.loadSlots (hl : Listed ctx st) (ha : st.archetype g = some a) (hn : 0 < n)
    (hfits : ∀ fulls frees, Chain st g a fulls frees → st.LoadFits g a n frees)
    (ents : Entities) : ∃ st' s, st.loadSlots ents g n = some (st', s) ∧ s.count = n ∧
      Listed ctx st' ∧ Allocated st st' g a s n := by
  obtain ⟨fulls, frees, hch⟩ := hl.chain g a ha
  have hfit := hfits fulls frees hch
  have hroom := findRoom_path n hl.toWf ha hch.path_frees
  rw [LoadFits] at hfit
  cases hfound : frees.find? (st.accepts a n) with
  | some c =>
      rw [hfound] at hfit
      have hc : st.type c = some g :=
        (hch.mem c).mp (List.mem_append_right _ (List.mem_of_find?_eq_some hfound))
      have hle : st.count c + n ≤ a.chunkCapacity (st.ct c) := hfit
      have hlt := hl.toWf.capacity_lt ha (st.ct c)
      obtain ⟨st', hs, -⟩ := resizeChunk_nonzero ents ha hc (n := st.count c + n) (by omega)
      obtain ⟨hwf, hres, hap, hchain⟩ := hch.grow hl.toWf ha hc (by omega) hle hs
      refine ⟨st', { c := c, start := st.count c, count := n }, ?_, rfl, ?_, ?_⟩
      · rw [loadSlots_found ha (hroom.trans (congrArg some hfound)), Nat.mod_eq_of_lt (hle.trans_lt hlt), hs]
        rfl
      · refine hl.of_apart hwf hap (fun b hb => ?_) (fun hnone => ?_) fun d hd => ?_
        · rw [hres.archetype, ha] at hb
          exact Option.some.inj hb ▸ hchain
        · rw [hres.archetype, ha] at hnone
          exact absurd hnone (Option.some_ne_none a)
        · rw [hres.type] at hd
          rw [hres.count, Function.update_apply]
          split_ifs
          · omega
          · exact hl.nonempty d g hd
      · refine ⟨?_, hres.count, hres.archetype, hres.freshArchetype, hres.freshChunk.ge,
          fun d _ => by rw [hres.ct], Or.inl ⟨hc, rfl⟩, Nat.add_pos_right _ hn, ?_, le_rfl⟩
        · rw [hres.type, ← hc, Function.update_eq_self]
        · rw [hres.ct]
          exact hle
  | none =>
      rw [hfound] at hfit
      have hle : n ≤ a.chunkCapacity
          (loadChunkBin (st.chunkCount g) (n * a.entitySize % 2 ^ 32)) := hfit
      have hlt := hl.toWf.capacity_lt ha
        (loadChunkBin (st.chunkCount g) (n * a.entitySize % 2 ^ 32))
      obtain ⟨st₁, hadd, hopen⟩ := hl.open ha hch (hn.trans_le hle)
      obtain ⟨fulls₁, frees₁, hch₁⟩ := hopen.chain
      have hc₁ : st₁.type st.freshChunk = some g := by rw [hopen.type, Function.update_self]
      have ha₁ : st₁.archetype g = some a := hopen.archetype ▸ ha
      have hzero : st₁.count st.freshChunk = 0 := by rw [hopen.count, Function.update_self]
      have hct₁ : st₁.ct st.freshChunk =
          loadChunkBin (st.chunkCount g) (n * a.entitySize % 2 ^ 32) := by
        rw [hopen.ct, Function.update_self]
      obtain ⟨st', hs, -⟩ := resizeChunk_nonzero ents ha₁ hc₁ (Nat.pos_iff_ne_zero.mp hn)
      obtain ⟨hwf, hres, hap, hchain⟩ :=
        hch₁.grow hopen.wf ha₁ hc₁ (hzero ▸ hn) (hct₁ ▸ hle) hs
      have hcount : st'.count = Function.update st.count st.freshChunk n := by
        rw [hres.count, hopen.count, Function.update_idem]
      have htype : st'.type = Function.update st.type st.freshChunk (some g) := by
        rw [hres.type, hopen.type]
      refine ⟨st', { c := st.freshChunk, start := 0, count := n }, ?_, rfl, ?_, ?_⟩
      · rw [loadSlots_open ents ha (hroom.trans (congrArg some hfound)), hadd, Option.bind_some, hzero,
          Nat.zero_add, Nat.mod_eq_of_lt (hle.trans_lt hlt), hs]
        rfl
      · refine hl.of_apart hwf (hopen.apart.trans hap) (fun b hb => ?_) (fun hnone => ?_)
          fun d hd => ?_
        · rw [hres.archetype, ha₁] at hb
          exact Option.some.inj hb ▸ hchain
        · rw [hres.archetype, ha₁] at hnone
          exact absurd hnone (Option.some_ne_none a)
        · rw [hcount, Function.update_apply]
          split_ifs with hdc
          · exact hn
          · rw [htype, Function.update_of_ne hdc] at hd
            exact hl.nonempty d g hd
      · refine ⟨htype, by rw [hcount, Nat.zero_add], hres.archetype.trans hopen.archetype,
          hres.freshArchetype.trans hopen.freshArchetype, ?_, fun d hd => ?_,
          Or.inr ⟨hl.fresh _ le_rfl, rfl, rfl⟩, Nat.add_pos_right _ hn, ?_, le_rfl⟩
        · rw [hres.freshChunk, hopen.freshChunk]
          exact Nat.le_succ _
        · rw [hres.ct, hopen.ct, Function.update_of_ne]
          rintro rfl
          exact hd (hl.fresh _ le_rfl)
        · rw [hres.ct, hct₁, Nat.zero_add]
          exact hle

end Store

end Dots

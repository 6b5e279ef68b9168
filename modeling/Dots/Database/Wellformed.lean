import Dots.Database.Store
import Dots.Library.Partial

/-!
# Well-formed stores

The invariant of the chunk lists that every structural operation keeps, whatever
the order in which it links chunks: neighbours are of one archetype, the pointers
of a living archetype lead to its own chunks, and no chunk holds more than its
bin. That the lists are complete is a stronger property and is elsewhere.
-/

namespace Dots

open Library

namespace Store

/-- The fields that say where chunks are and how much they hold are the same. -/
structure SameShape (st st' : Store) : Prop where
  links : st'.links = st.links
  type : st'.type = st.type
  count : st'.count = st.count
  ct : st'.ct = st.ct
  freshChunk : st'.freshChunk = st.freshChunk
  archetype : st'.archetype = st.archetype
  firstChunk : st'.firstChunk = st.firstChunk
  lastChunk : st'.lastChunk = st.lastChunk
  firstFree : st'.firstFree = st.firstFree
  chunkCount : st'.chunkCount = st.chunkCount
  freshArchetype : st'.freshArchetype = st.freshArchetype

theorem SameShape.refl (st : Store) : SameShape st st :=
  ⟨rfl, rfl, rfl, rfl, rfl, rfl, rfl, rfl, rfl, rfl, rfl⟩

theorem SameShape.trans {st st' st'' : Store} (h : SameShape st st') (h' : SameShape st' st'') :
    SameShape st st'' where
  links := h'.links.trans h.links
  type := h'.type.trans h.type
  count := h'.count.trans h.count
  ct := h'.ct.trans h.ct
  freshChunk := h'.freshChunk.trans h.freshChunk
  archetype := h'.archetype.trans h.archetype
  firstChunk := h'.firstChunk.trans h.firstChunk
  lastChunk := h'.lastChunk.trans h.lastChunk
  firstFree := h'.firstFree.trans h.firstFree
  chunkCount := h'.chunkCount.trans h.chunkCount
  freshArchetype := h'.freshArchetype.trans h.freshArchetype

theorem structuralChange_shape (st : Store) (g : ArchetypeId) (a : Archetype) (c : ChunkId) :
    SameShape st (st.structuralChange g a c) := by
  unfold structuralChange
  split <;> exact ⟨rfl, rfl, rfl, rfl, rfl, rfl, rfl, rfl, rfl, rfl, rfl⟩

theorem addSize_shape (st : Store) (g : ArchetypeId) (n : Nat) : SameShape st (st.addSize g n) :=
  ⟨rfl, rfl, rfl, rfl, rfl, rfl, rfl, rfl, rfl, rfl, rfl⟩

theorem subSize_shape (st : Store) (g : ArchetypeId) (n : Nat) : SameShape st (st.subSize g n) :=
  ⟨rfl, rfl, rfl, rfl, rfl, rfl, rfl, rfl, rfl, rfl, rfl⟩

theorem updateQueries_shape {st st' : Store} {ents : Entities} {g : ArchetypeId} {a : Archetype}
    {add : Bool} (h : st.updateQueries ents g a add = some st') : SameShape st st' := by
  simp only [updateQueries, Option.bind_eq_bind, Option.bind_eq_some_iff,
    Option.some.injEq] at h
  obtain ⟨type, -, rfl⟩ := h
  exact ⟨rfl, rfl, rfl, rfl, rfl, rfl, rfl, rfl, rfl, rfl, rfl⟩

/-- The pointers between chunks and from archetypes. Those of a freed archetype are
never followed again. -/
structure Linked (st : Store) : Prop where
  consistent : st.links.Consistent
  ends : st.links.Ends
  same : ∀ c d, st.links.next c = some d → ∃ g, st.type c = some g ∧ st.type d = some g
  first : ∀ g a c, st.archetype g = some a → st.firstChunk g = some c → st.type c = some g
  last : ∀ g a c, st.archetype g = some a → st.lastChunk g = some c → st.type c = some g
  free : ∀ g a c, st.archetype g = some a → st.firstFree g = some c → st.type c = some g

/-- The invariant of the store. -/
structure Wf (ctx : Context) (st : Store) : Prop extends Linked st where
  fresh : ∀ c, st.freshChunk ≤ c → st.type c = none
  known : ∀ c g, st.type c = some g → g < st.freshArchetype
  built : ∀ g a, st.archetype g = some a →
    g < st.freshArchetype ∧ constructArchetype ctx a.type = some a
  count_le : ∀ c g a, st.type c = some g → st.archetype g = some a →
    st.count c ≤ a.chunkCapacity (st.ct c)

theorem Linked.congr {st st' : Store} (h : Linked st) (hs : SameShape st st') : Linked st' where
  consistent := hs.links ▸ h.consistent
  ends := hs.links ▸ h.ends
  same := by rw [hs.links, hs.type]; exact h.same
  first := by rw [hs.archetype, hs.firstChunk, hs.type]; exact h.first
  last := by rw [hs.archetype, hs.lastChunk, hs.type]; exact h.last
  free := by rw [hs.archetype, hs.firstFree, hs.type]; exact h.free

theorem Wf.congr {ctx : Context} {st st' : Store} (h : Wf ctx st) (hs : SameShape st st') :
    Wf ctx st' where
  toLinked := h.toLinked.congr hs
  fresh := by rw [hs.freshChunk, hs.type]; exact h.fresh
  known := by rw [hs.freshArchetype, hs.type]; exact h.known
  built := by rw [hs.freshArchetype, hs.archetype]; exact h.built
  count_le := by rw [hs.type, hs.archetype, hs.count, hs.ct]; exact h.count_le

/-! ## Pointer operations -/

section Pointers

variable {st st' : Store} {g : ArchetypeId} {a : Archetype} {c : ChunkId}

theorem Linked.detached (h : Linked st) (hc : st.type c = none) : st.links.Detached c := by
  constructor
  · cases hn : st.links.next c with
    | none => rfl
    | some d =>
        obtain ⟨g, hg, -⟩ := h.same c d hn
        simp [hc] at hg
  · cases hp : st.links.prev c with
    | none => rfl
    | some b =>
        obtain ⟨g, -, hg⟩ := h.same b c ((h.consistent b c).mpr hp)
        simp [hc] at hg

theorem Linked.type_next (h : Linked st) (hc : st.type c = some g) {d : ChunkId}
    (hd : st.links.next c = some d) : st.type d = some g := by
  obtain ⟨g', hg, hg'⟩ := h.same c d hd
  rw [hc] at hg
  exact hg ▸ hg'

theorem Linked.type_prev (h : Linked st) (hc : st.type c = some g) {d : ChunkId}
    (hd : st.links.prev c = some d) : st.type d = some g := by
  obtain ⟨g', hg', hg⟩ := h.same d c ((h.consistent d c).mpr hd)
  rw [hc] at hg
  exact hg ▸ hg'

/-- The neighbours of an unlinked chunk become neighbours: all three are of one
archetype. -/
theorem Linked.remove (h : Linked st) (hc : st.type c = some g) : Linked (st.remove g c) where
  consistent := h.consistent.unlink c
  ends := h.ends.unlink h.consistent c
  same x d hx := by
    change (st.links.unlink c).next x = some d at hx
    change ∃ g, st.type x = some g ∧ st.type d = some g
    rw [Links.unlink_next h.consistent] at hx
    split_ifs at hx with hxc hxn
    · obtain ⟨g', hx', hc'⟩ := h.same x c hxn
      exact ⟨g', hx', h.type_next hc' hx⟩
    · exact h.same x d hx
  first g' b d hb hd := by
    change Function.update st.firstChunk g _ g' = some d at hd
    change st.type d = some g'
    by_cases hg : g' = g
    · subst hg
      rw [Function.update_self] at hd
      split_ifs at hd with hf
      · exact h.type_next hc hd
      · exact h.first g' b d hb hd
    · rw [Function.update_of_ne hg] at hd
      exact h.first g' b d hb hd
  last g' b d hb hd := by
    change Function.update st.lastChunk g _ g' = some d at hd
    change st.type d = some g'
    by_cases hg : g' = g
    · subst hg
      rw [Function.update_self] at hd
      split_ifs at hd with hf
      · exact h.type_prev hc hd
      · exact h.last g' b d hb hd
    · rw [Function.update_of_ne hg] at hd
      exact h.last g' b d hb hd
  free := h.free

theorem remove_detached (h : Linked st) : (st.remove g c).links.Detached c :=
  Links.unlink_detached h.consistent c

theorem remove_firstChunk_ne (h : Linked st) : (st.remove g c).firstChunk g ≠ some c := by
  change Function.update st.firstChunk g _ g ≠ some c
  rw [Function.update_self]
  split_ifs with hf
  · exact h.ends.next_ne_self c
  · exact hf

theorem remove_lastChunk_ne (h : Linked st) : (st.remove g c).lastChunk g ≠ some c := by
  change Function.update st.lastChunk g _ g ≠ some c
  rw [Function.update_self]
  split_ifs with hf
  · exact Links.Ends.prev_ne_self h.consistent h.ends c
  · exact hf

/-- Two stores with the same links and types are both linked when the pointers of
each living archetype of the second one are right. -/
theorem Linked.heads (h : Linked st) (hl : st'.links = st.links) (ht : st'.type = st.type)
    (hfirst : ∀ g a c, st'.archetype g = some a → st'.firstChunk g = some c → st.type c = some g)
    (hlast : ∀ g a c, st'.archetype g = some a → st'.lastChunk g = some c → st.type c = some g)
    (hfree : ∀ g a c, st'.archetype g = some a → st'.firstFree g = some c → st.type c = some g) :
    Linked st' where
  consistent := hl ▸ h.consistent
  ends := hl ▸ h.ends
  same := by rw [hl, ht]; exact h.same
  first := by rw [ht]; exact hfirst
  last := by rw [ht]; exact hlast
  free := by rw [ht]; exact hfree

/-- A pointer of `g` that is moved to a chunk of `g`. -/
theorem type_of_update {f : ArchetypeId → Option ChunkId} {p : Option ChunkId}
    (hp : ∀ d, p = some d → st.type d = some g)
    (hf : ∀ g a c, st.archetype g = some a → f g = some c → st.type c = some g)
    (g' : ArchetypeId) (b : Archetype) (d : ChunkId) (hb : st.archetype g' = some b)
    (hd : Function.update f g p g' = some d) : st.type d = some g' := by
  by_cases hg : g' = g
  · subst hg
    rw [Function.update_self] at hd
    exact hp d hd
  · rw [Function.update_of_ne hg] at hd
    exact hf g' b d hb hd

/-- Linking a chunk of the archetype that is in no list behind another one. -/
theorem Linked.link (h : Linked st) (hc : st.type c = some g) {x : ChunkId}
    (hx : st.type x = some g) (hxc : x ≠ c) (hdet : st.links.Detached c) :
    Linked { st with links := st.links.link x c } where
  consistent := h.consistent.link hxc hdet
  ends := h.ends.link h.consistent hxc hdet
  same y d hy := by
    change (st.links.link x c).next y = some d at hy
    change ∃ g, st.type y = some g ∧ st.type d = some g
    rw [Links.link_next st.links hxc] at hy
    split_ifs at hy with hyx hyc
    · rw [Option.some.injEq] at hy
      exact ⟨g, hyx ▸ hx, hy ▸ hc⟩
    · exact ⟨g, hyc ▸ hc, h.type_next hx hy⟩
    · exact h.same y d hy
  first := h.first
  last := h.last
  free := h.free

theorem Linked.markFree (h : Linked st) (ha : st.archetype g = some a)
    (hc : st.type c = some g) : Linked (st.markFree g c) := by
  have hr := h.remove hc
  have hself : ∀ d, some c = some d → (st.remove g c).type d = some g := by
    intro d hd
    rw [← Option.some.inj hd]
    exact hc
  have hlinks : Linked { st.remove g c with links := (st.markFree g c).links } := by
    simp only [Store.markFree]
    cases hlast : (st.remove g c).lastChunk g with
    | none => exact hr
    | some x =>
        have hxc : x ≠ c := fun hxc => remove_lastChunk_ne h (hxc ▸ hlast)
        exact hr.link hc (hr.last g a x ha hlast) hxc (remove_detached h)
  refine hlinks.heads rfl rfl ?_ ?_ ?_
  · intro g' b d hb hd
    simp only [Store.markFree] at hd
    split_ifs at hd with hf
    · exact type_of_update hself hr.first g' b d hb hd
    · exact hr.first g' b d hb hd
  · exact type_of_update hself hr.last
  · intro g' b d hb hd
    simp only [Store.markFree] at hd
    split_ifs at hd with hf
    · exact type_of_update hself hr.free g' b d hb hd
    · exact hr.free g' b d hb hd

/-- `unmark_free` on the chunk `firstFree` points at. -/
theorem Linked.unmarkFree (h : Linked st) (hc : st.type c = some g)
    (hf : st.firstFree g = some c) : Linked (st.unmarkFree g c) := by
  rw [Store.unmarkFree, if_pos hf]
  refine h.heads rfl rfl h.first h.last ?_
  exact type_of_update (fun d hd => h.type_next hc hd) h.free

/-- The list of `g` starts at its first chunk. -/
def Headed (st : Store) (g : ArchetypeId) : Prop :=
  ∀ d, st.firstChunk g = some d → st.links.prev d = none

theorem Headed.congr (h : Headed st g) (hs : SameShape st st') : Headed st' g := by
  rw [Headed, hs.firstChunk, hs.links]
  exact h

theorem Headed.remove (h : Linked st) (hhead : Headed st g) (c : ChunkId) :
    Headed (st.remove g c) g := by
  intro d hd
  change Function.update st.firstChunk g _ g = some d at hd
  rw [Function.update_self] at hd
  change (st.links.unlink c).prev d = none
  rw [Links.unlink_prev h.consistent]
  split_ifs at hd with hc
  · have hprev := (h.consistent c d).mp hd
    rw [if_pos hprev]
    split_ifs
    · rfl
    · exact hhead c hc
  · rw [hhead d hd, if_neg (Option.some_ne_none c).symm]
    exact ite_self none

/-- `unmark_free` on another chunk, which goes to the front of the list. -/
theorem Linked.unmarkFront (h : Linked st) (ha : st.archetype g = some a)
    (hc : st.type c = some g) (hf : st.firstFree g ≠ some c) (hhead : Headed st g) :
    Linked (st.unmarkFree g c) := by
  have hr := h.remove hc
  have hself : ∀ d, some c = some d → (st.remove g c).type d = some g := by
    intro d hd
    rw [← Option.some.inj hd]
    exact hc
  have hlinks : Linked { st.remove g c with links := (st.unmarkFree g c).links } := by
    simp only [Store.unmarkFree, if_neg hf]
    cases hfirst : (st.remove g c).firstChunk g with
    | none => exact hr
    | some x =>
        have hxc : c ≠ x := fun hxc => remove_firstChunk_ne h (hxc ▸ hfirst)
        have hdet := remove_detached (g := g) (c := c) h
        refine ⟨hr.consistent.linkBefore hxc hdet (hhead.remove h c x hfirst),
          hr.ends.linkBefore hr.consistent hxc hdet, fun y d hy => ?_, hr.first, hr.last, hr.free⟩
        change ((st.remove g c).links.linkBefore c x).next y = some d at hy
        rw [Links.linkBefore_next _ hxc] at hy
        split_ifs at hy with hyc
        · refine ⟨g, hyc ▸ hc, Option.some.inj hy ▸ hr.first g a x ha hfirst⟩
        · exact hr.same y d hy
  rw [Store.unmarkFree, if_neg hf]
  refine hlinks.heads (by rw [Store.unmarkFree, if_neg hf]) rfl (type_of_update hself hr.first) ?_
    hr.free
  intro g' b d hb hd
  dsimp only at hd
  split_ifs at hd
  · exact type_of_update hself hr.last g' b d hb hd
  · exact hr.last g' b d hb hd

/-- A chunk in no list may lose its type when no living archetype points at it. -/
theorem Linked.untype (h : Linked st) (hdet : st.links.Detached c)
    (hfirst : ∀ g a, st.archetype g = some a → st.firstChunk g ≠ some c)
    (hlast : ∀ g a, st.archetype g = some a → st.lastChunk g ≠ some c)
    (hfree : ∀ g a, st.archetype g = some a → st.firstFree g ≠ some c) (t : Option ArchetypeId) :
    Linked { st with type := Function.update st.type c t } := by
  have hne : ∀ {d : ChunkId}, d ≠ c → Function.update st.type c t d = st.type d :=
    fun hd => Function.update_of_ne hd ..
  refine ⟨h.consistent, h.ends, fun x d hx => ?_, fun g a d ha hd => ?_, fun g a d ha hd => ?_,
    fun g a d ha hd => ?_⟩
  · have hxc : x ≠ c := by
      rintro rfl
      exact absurd (hdet.1.symm.trans hx) (by simp)
    have hdc : d ≠ c := fun hdc => h.consistent.next_ne hdet x (hdc ▸ hx)
    change ∃ g, Function.update st.type c t x = some g ∧ Function.update st.type c t d = some g
    rw [hne hxc, hne hdc]
    exact h.same x d hx
  · exact (hne fun hdc => hfirst g a ha (hdc ▸ hd)).trans (h.first g a d ha hd)
  · exact (hne fun hdc => hlast g a ha (hdc ▸ hd)).trans (h.last g a d ha hd)
  · exact (hne fun hdc => hfree g a ha (hdc ▸ hd)).trans (h.free g a d ha hd)

/-- The list part of `add_chunk`. -/
theorem Linked.splice (h : Linked st) (ha : st.archetype g = some a) (hc : st.type c = some g)
    (hdet : st.links.Detached c) (hfirst : st.firstChunk g ≠ some c)
    (hlast : st.lastChunk g ≠ some c) (hs : st.splice g a c = some st') : Linked st' := by
  have hself : ∀ d, some c = some d → st.type d = some g := by
    intro d hd
    rw [← Option.some.inj hd]
    exact hc
  unfold Store.splice at hs
  cases hf : st.firstChunk g with
  | none =>
      rw [hf] at hs
      obtain rfl := Option.some.inj hs
      refine h.heads rfl rfl (type_of_update hself h.first) (type_of_update hself h.last) ?_
      intro g' b d hb hd
      split_ifs at hd
      · exact type_of_update hself h.free g' b d hb hd
      · exact h.free g' b d hb hd
  | some head =>
      simp only [hf] at hs
      by_cases hlt : st.count c < a.chunkCapacity (st.ct c)
      · rw [if_pos hlt] at hs
        cases hl : st.lastChunk g with
        | none => simp [hl] at hs
        | some last =>
            simp only [hl] at hs
            obtain rfl := Option.some.inj hs
            have hlink := h.link hc (h.last g a last ha hl) (fun hx => hlast (hx ▸ hl)) hdet
            refine hlink.heads rfl rfl hlink.first (type_of_update hself hlink.last) ?_
            intro g' b d hb hd
            split_ifs at hd
            · exact type_of_update hself hlink.free g' b d hb hd
            · exact hlink.free g' b d hb hd
      · rw [if_neg hlt] at hs
        obtain rfl := Option.some.inj hs
        exact h.link hc (h.first g a head ha hf) (fun hx => hfirst (hx ▸ hf)) hdet

end Pointers

/-! ## Structural operations -/

/-- Everything about chunks and archetypes but the pointers between them is as
before, except that `c` has the type `t`. -/
structure Retyped (st st' : Store) (c : ChunkId) (t : Option ArchetypeId) : Prop where
  type : st'.type = Function.update st.type c t
  count : st'.count = st.count
  ct : st'.ct = st.ct
  freshChunk : st'.freshChunk = st.freshChunk
  freshArchetype : st'.freshArchetype = st.freshArchetype

/-- `freeArchetype` frees `g` and leaves the rest. -/
theorem freeArchetype_spec {st st' : Store} {ents : Entities} {g : ArchetypeId} {a : Archetype}
    (h : st.freeArchetype ents g a = some st') :
    ∃ st₁, SameShape st st₁ ∧
      st' = { st₁ with archetype := Function.update st₁.archetype g none } := by
  simp only [freeArchetype, Option.bind_eq_bind, Option.bind_eq_some_iff,
    Option.some.injEq] at h
  obtain ⟨st₁, h₁, rfl⟩ := h
  have hu := updateQueries_shape h₁
  exact ⟨st₁, ⟨hu.links, hu.type, hu.count, hu.ct, hu.freshChunk, hu.archetype, hu.firstChunk,
    hu.lastChunk, hu.firstFree, hu.chunkCount, hu.freshArchetype⟩, rfl⟩

/-- Freeing an archetype only makes fewer archetypes alive. -/
theorem Wf.free_archetype {ctx : Context} {st : Store} (h : Wf ctx st) (g : ArchetypeId) :
    Wf ctx { st with archetype := Function.update st.archetype g none } := by
  have halive : ∀ {g' : ArchetypeId} {b : Archetype},
      Function.update st.archetype g none g' = some b → st.archetype g' = some b := by
    intro g' b hb
    by_cases hg : g' = g
    · subst hg
      simp at hb
    · rwa [Function.update_of_ne hg] at hb
  exact
    { consistent := h.consistent
      ends := h.ends
      same := h.same
      first := fun g' b d hb => h.first g' b d (halive hb)
      last := fun g' b d hb => h.last g' b d (halive hb)
      free := fun g' b d hb => h.free g' b d (halive hb)
      fresh := h.fresh
      known := h.known
      built := fun g' b hb => h.built g' b (halive hb)
      count_le := fun d g' b hd hb => h.count_le d g' b hd (halive hb) }

theorem update_ne {α β : Type*} [DecidableEq α] {f : α → β} {a b : α} {x : β} (h : b ≠ a) :
    Function.update f a x b = f b := Function.update_of_ne h ..

/-- A store that differs in the type of a chunk is well-formed when its pointers are. -/
theorem Wf.retype {ctx : Context} {st st' : Store} (h : Wf ctx st) {c : ChunkId}
    {t : Option ArchetypeId} (hr : Retyped st st' c t) (hl : Linked st')
    (ha : st'.archetype = st.archetype)
    (ht : ∀ g, t = some g → c < st.freshChunk ∧ g < st.freshArchetype ∧
      ∀ a, st.archetype g = some a → st.count c ≤ a.chunkCapacity (st.ct c)) : Wf ctx st' where
  toLinked := hl
  fresh d hd := by
    rw [hr.freshChunk] at hd
    rw [hr.type]
    by_cases hdc : d = c
    · subst hdc
      rw [Function.update_self]
      cases t with
      | none => rfl
      | some g => exact absurd (ht g rfl).1 (Nat.not_lt.mpr hd)
    · rw [update_ne hdc]
      exact h.fresh d hd
  known d g hd := by
    rw [hr.type] at hd
    rw [hr.freshArchetype]
    by_cases hdc : d = c
    · subst hdc
      rw [Function.update_self] at hd
      exact (ht g hd).2.1
    · rw [update_ne hdc] at hd
      exact h.known d g hd
  built g a hg := by
    rw [ha] at hg
    rw [hr.freshArchetype]
    exact h.built g a hg
  count_le d g a hd hg := by
    rw [hr.type] at hd
    rw [ha] at hg
    rw [hr.count, hr.ct]
    by_cases hdc : d = c
    · subst hdc
      rw [Function.update_self] at hd
      exact (ht g hd).2.2 a hg
    · rw [update_ne hdc] at hd
      exact h.count_le d g a hd hg

theorem splice_retyped {st st' : Store} {g : ArchetypeId} {a : Archetype} {c : ChunkId}
    (h : st.splice g a c = some st') : st'.type = st.type ∧ st'.count = st.count ∧
      st'.ct = st.ct ∧ st'.freshChunk = st.freshChunk ∧
      st'.freshArchetype = st.freshArchetype ∧ st'.archetype = st.archetype := by
  unfold splice at h
  cases hf : st.firstChunk g with
  | none =>
      rw [hf] at h
      obtain rfl := Option.some.inj h
      exact ⟨rfl, rfl, rfl, rfl, rfl, rfl⟩
  | some head =>
      simp only [hf] at h
      by_cases hlt : st.count c < a.chunkCapacity (st.ct c)
      · rw [if_pos hlt] at h
        cases hl : st.lastChunk g with
        | none => simp [hl] at h
        | some last =>
            simp only [hl] at h
            obtain rfl := Option.some.inj h
            exact ⟨rfl, rfl, rfl, rfl, rfl, rfl⟩
      · rw [if_neg hlt] at h
        obtain rfl := Option.some.inj h
        exact ⟨rfl, rfl, rfl, rfl, rfl, rfl⟩

/-- `add_chunk` on a chunk without an archetype. -/
theorem Wf.addChunk {ctx : Context} {st st' : Store} (h : Wf ctx st) {g : ArchetypeId}
    {a : Archetype} {c : ChunkId} (ha : st.archetype g = some a) (hc : st.type c = none)
    (hfresh : c < st.freshChunk) (hcap : st.count c ≤ a.chunkCapacity (st.ct c))
    (hs : st.addChunk g c = some st') :
    Wf ctx st' ∧ Retyped st st' c (some g) ∧ st'.archetype = st.archetype := by
  simp only [Store.addChunk, ha, Option.bind_eq_bind, Option.bind_some] at hs
  have hshape := (structuralChange_shape st g a c).trans
    (addSize_shape (st.structuralChange g a c) g (st.count c))
  revert hs hshape
  generalize (st.structuralChange g a c).addSize g (st.count c) = st₁
  intro hs hshape
  have h₁ := h.congr hshape
  have hc₁ : st₁.type c = none := by rw [hshape.type]; exact hc
  have hhead : ∀ {f : ArchetypeId → Option ChunkId},
      (∀ g a c, st₁.archetype g = some a → f g = some c → st₁.type c = some g) →
      ∀ g' b, st₁.archetype g' = some b → f g' ≠ some c := by
    intro f hf g' b hb hd
    have := hf g' b c hb hd
    simp [hc₁] at this
  have hdet := h₁.toLinked.detached hc₁
  have hl := h₁.toLinked.untype hdet (hhead h₁.first) (hhead h₁.last) (hhead h₁.free) (some g)
  have ha₁ : st₁.archetype g = some a := by rw [hshape.archetype]; exact ha
  have hl' : Linked { st₁ with
      type := Function.update st₁.type c (some g)
      chunkCount := Function.update st₁.chunkCount g ((st₁.chunkCount g + 1) % 2 ^ 16) } :=
    ⟨hl.consistent, hl.ends, hl.same, hl.first, hl.last, hl.free⟩
  have hlinked := hl'.splice ha₁ (Function.update_self ..) hdet (hhead h₁.first g a ha₁)
    (hhead h₁.last g a ha₁) hs
  obtain ⟨htype, hcount, hct, hfc, hfa, harch⟩ := splice_retyped hs
  have hret : Retyped st st' c (some g) :=
    { type := by rw [htype, ← hshape.type]
      count := by rw [hcount, ← hshape.count]
      ct := by rw [hct, ← hshape.ct]
      freshChunk := by rw [hfc, ← hshape.freshChunk]
      freshArchetype := by rw [hfa, ← hshape.freshArchetype] }
  have harch' : st'.archetype = st.archetype := by rw [harch, ← hshape.archetype]
  refine ⟨h.retype hret hlinked harch' ?_, hret, harch'⟩
  intro g' hg'
  obtain rfl := Option.some.inj hg'
  refine ⟨hfresh, (h.built g a ha).1, fun b hb => ?_⟩
  rw [ha] at hb
  exact Option.some.inj hb ▸ hcap

/-- What a living archetype points at when the pointer is not the given chunk. -/
theorem ne_of_head {st : Store} {g : ArchetypeId} {c : ChunkId} (hc : st.type c = some g)
    {f : ArchetypeId → Option ChunkId} (hg : f g ≠ some c)
    (hf : ∀ g a d, st.archetype g = some a → f g = some d → st.type d = some g)
    (g' : ArchetypeId) (b : Archetype) (hb : st.archetype g' = some b) : f g' ≠ some c := by
  intro hd
  have := hf g' b c hb hd
  rw [hc, Option.some.injEq] at this
  exact hg (this ▸ hd)

/-- A chunk leaves its archetype; the archetype goes with its last chunk. -/
structure Removed (st st' : Store) (g : ArchetypeId) (c : ChunkId) : Prop
    extends Retyped st st' c none where
  archetype : ∀ g', g' ≠ g → st'.archetype g' = st.archetype g'
  dead : st'.archetype g = st.archetype g ∨ st'.archetype g = none

theorem Removed.alive {st st' : Store} {g : ArchetypeId} {c : ChunkId} (h : Removed st st' g c)
    {g' : ArchetypeId} {a : Archetype} (ha : st'.archetype g' = some a) :
    st.archetype g' = some a := by
  by_cases hg : g' = g
  · subst hg
    rcases h.dead with hd | hd
    · exact hd ▸ ha
    · simp [hd] at ha
  · exact h.archetype g' hg ▸ ha

/-- `remove_chunk` on a chunk of `g`. -/
theorem Wf.removeChunk {ctx : Context} {st st' : Store} (h : Wf ctx st) {ents : Entities}
    {g : ArchetypeId} {c : ChunkId} (hc : st.type c = some g)
    (hs : st.removeChunk ents g c = some st') : Wf ctx st' ∧ Removed st st' g c := by
  simp only [Store.removeChunk, Option.bind_eq_bind, Option.bind_eq_some_iff] at hs
  obtain ⟨a, ha, hs⟩ := hs
  have hshape := (structuralChange_shape st g a c).trans
    (subSize_shape (st.structuralChange g a c) g (st.count c))
  revert hs hshape
  generalize (st.structuralChange g a c).subSize g (st.count c) = st₁
  intro hs hshape
  have h₁ := h.congr hshape
  have hc₁ : st₁.type c = some g := by rw [hshape.type]; exact hc
  have ha₁ : st₁.archetype g = some a := by rw [hshape.archetype]; exact ha
  -- the pointer to the free chunks moves on first
  generalize hst₂ : ({ st₁ with
    chunkCount := Function.update st₁.chunkCount g ((st₁.chunkCount g + 2 ^ 16 - 1) % 2 ^ 16)
    firstFree := if st₁.firstFree g = some c then
        Function.update st₁.firstFree g (st₁.links.next c) else st₁.firstFree } : Store) = st₂ at hs
  have h₂ : Linked st₂ := by
    rw [← hst₂]
    refine h₁.toLinked.heads rfl rfl h₁.first h₁.last fun g' b d hb hd => ?_
    split_ifs at hd
    · exact type_of_update (fun d hd => h₁.type_next hc₁ hd) h₁.free g' b d hb hd
    · exact h₁.free g' b d hb hd
  have hfree : st₂.firstFree g ≠ some c := by
    rw [← hst₂]
    dsimp only
    split_ifs with hf
    · rw [Function.update_self]
      exact h₁.ends.next_ne_self c
    · exact hf
  have hret₂ : st₂.type = st₁.type ∧ st₂.count = st₁.count ∧ st₂.ct = st₁.ct ∧
      st₂.freshChunk = st₁.freshChunk ∧ st₂.freshArchetype = st₁.freshArchetype ∧
      st₂.archetype = st₁.archetype := by
    rw [← hst₂]
    exact ⟨rfl, rfl, rfl, rfl, rfl, rfl⟩
  obtain ⟨htype, hcount, hct, hfc, hfa, harch⟩ := hret₂
  have hc₂ : st₂.type c = some g := by rw [htype]; exact hc₁
  have h₃ := h₂.remove hc₂
  have hl := h₃.untype (remove_detached h₂)
    (ne_of_head hc₂ (remove_firstChunk_ne h₂) h₃.first)
    (ne_of_head hc₂ (remove_lastChunk_ne h₂) h₃.last)
    (ne_of_head hc₂ hfree h₃.free) none
  have hret : Retyped st { st₂.remove g c with
      type := Function.update (st₂.remove g c).type c none } c none :=
    { type := by rw [← hshape.type, ← htype]; rfl
      count := by rw [← hshape.count, ← hcount]; rfl
      ct := by rw [← hshape.ct, ← hct]; rfl
      freshChunk := by rw [← hshape.freshChunk, ← hfc]; rfl
      freshArchetype := by rw [← hshape.freshArchetype, ← hfa]; rfl }
  have harch' : (st₂.remove g c).archetype = st.archetype := by
    rw [← hshape.archetype, ← harch]
    rfl
  have hwf := h.retype hret hl harch' (by simp)
  split_ifs at hs with hnil
  · obtain ⟨st₄, hshape₄, rfl⟩ := freeArchetype_spec hs
    refine ⟨(hwf.congr hshape₄).free_archetype g, ?_, ?_, ?_⟩
    · exact ⟨hshape₄.type.trans hret.type, hshape₄.count.trans hret.count,
        hshape₄.ct.trans hret.ct, hshape₄.freshChunk.trans hret.freshChunk,
        hshape₄.freshArchetype.trans hret.freshArchetype⟩
    · intro g' hg'
      change Function.update st₄.archetype g none g' = _
      rw [update_ne hg', hshape₄.archetype]
      exact congrFun harch' g'
    · exact Or.inr (Function.update_self ..)
  · obtain rfl := Option.some.inj hs
    exact ⟨hwf, hret, fun g' _ => congrFun harch' g', Or.inl (congrFun harch' g)⟩

/-- A chunk with room is where `allocate_slice` looks next when nothing else has. -/
theorem addChunk_firstFree {st st' : Store} {g : ArchetypeId} {a : Archetype} {c : ChunkId}
    (ha : st.archetype g = some a) (hfree : st.firstFree g = none)
    (hlt : st.count c < a.chunkCapacity (st.ct c)) (hs : st.addChunk g c = some st') :
    st'.firstFree g = some c := by
  simp only [Store.addChunk, ha, Option.bind_eq_bind, Option.bind_some] at hs
  have hshape := (structuralChange_shape st g a c).trans
    (addSize_shape (st.structuralChange g a c) g (st.count c))
  revert hs hshape
  generalize (st.structuralChange g a c).addSize g (st.count c) = st₁
  intro hs hshape
  rw [← hshape.count, ← hshape.ct] at hlt
  rw [← hshape.firstFree] at hfree
  unfold splice at hs
  cases hf : st₁.firstChunk g with
  | none =>
      simp only [hf, if_pos hlt] at hs
      obtain rfl := Option.some.inj hs
      exact Function.update_self ..
  | some head =>
      simp only [hf, if_pos hlt, if_pos hfree] at hs
      cases hl : st₁.lastChunk g with
      | none => simp [hl] at hs
      | some last =>
          simp only [hl] at hs
          obtain rfl := Option.some.inj hs
          exact Function.update_self ..

/-- `malloc_chunk`. -/
theorem Wf.mallocChunk {ctx : Context} {st : Store} (h : Wf ctx st) (t : AllocType) :
    Wf ctx (st.mallocChunk t).1 := by
  have hnone : st.type st.freshChunk = none := h.fresh _ le_rfl
  have hdet := h.toLinked.detached hnone
  have hlinks : (st.mallocChunk t).1.links = st.links := by
    simp only [Store.mallocChunk, Links.setPrev, Links.setNext]
    rw [← hdet.1, Function.update_eq_self, hdet.1, ← hdet.2, Function.update_eq_self]
  have hne : ∀ {d : ChunkId} {g : ArchetypeId}, st.type d = some g → d ≠ st.freshChunk := by
    rintro d g hd rfl
    simp [hnone] at hd
  exact
    { consistent := hlinks ▸ h.consistent
      ends := hlinks ▸ h.ends
      same := hlinks ▸ h.same
      first := h.first
      last := h.last
      free := h.free
      fresh := fun d hd => h.fresh d (Nat.le_of_succ_le hd)
      known := h.known
      built := h.built
      count_le := fun d g a hd ha => by
        change Function.update st.count st.freshChunk 0 d ≤
          a.chunkCapacity (Function.update st.ct st.freshChunk t d)
        rw [update_ne (hne hd), update_ne (hne hd)]
        exact h.count_le d g a hd ha }

/-- `new_chunk`. -/
theorem Wf.newChunk {ctx : Context} {st st' : Store} (h : Wf ctx st) {g : ArchetypeId}
    {a : Archetype} {hint : Nat} {c : ChunkId} (ha : st.archetype g = some a)
    (hfree : st.firstFree g = none) (hs : st.newChunk g hint = some (st', c)) :
    Wf ctx st' ∧ c = st.freshChunk ∧ st'.freshChunk = st.freshChunk + 1 ∧
      st'.type = Function.update st.type c (some g) ∧
      st'.count = Function.update st.count c 0 ∧
      st'.ct = Function.update st.ct c
        (newChunkBin (st.chunkCount g) (hint * a.entitySize % 2 ^ 32)) ∧
      st'.freshArchetype = st.freshArchetype ∧ st'.archetype = st.archetype ∧
      (0 < a.chunkCapacity (st'.ct c) → st'.firstFree g = some c) := by
  simp only [Store.newChunk, ha, Option.bind_eq_bind, Option.bind_some,
    Option.bind_eq_some_iff, Option.some.injEq, Prod.mk.injEq] at hs
  obtain ⟨st₂, hs, rfl, rfl⟩ := hs
  generalize hbin : newChunkBin (st.chunkCount g) (hint * a.entitySize % 2 ^ 32) = t at hs ⊢
  have hnone : st.type st.freshChunk = none := h.fresh _ le_rfl
  have hcount : (st.mallocChunk t).1.count st.freshChunk = 0 := Function.update_self ..
  obtain ⟨hwf, hret, harch⟩ := (h.mallocChunk t).addChunk (c := st.freshChunk) ha hnone
    (Nat.lt_succ_self _) (hcount ▸ Nat.zero_le _) hs
  refine ⟨hwf, rfl, hret.freshChunk, hret.type, hret.count, hret.ct, hret.freshArchetype,
    harch, fun hcap => ?_⟩
  have ha' : (st.mallocChunk t).1.archetype g = some a := ha
  refine addChunk_firstFree ha' hfree ?_ hs
  rw [hret.ct] at hcap
  exact hcount ▸ hcap

/-! ## `resize_chunk` and what is built on it -/

/-- Only the number of entities of `c` is different. -/
structure Resized (st st' : Store) (c : ChunkId) (n : Nat) : Prop where
  type : st'.type = st.type
  count : st'.count = Function.update st.count c n
  ct : st'.ct = st.ct
  freshChunk : st'.freshChunk = st.freshChunk
  freshArchetype : st'.freshArchetype = st.freshArchetype
  archetype : st'.archetype = st.archetype

theorem Wf.resize {ctx : Context} {st : Store} (h : Wf ctx st) {g : ArchetypeId} {a : Archetype}
    {c : ChunkId} {n : Nat} (hc : st.type c = some g) (ha : st.archetype g = some a)
    (hn : n ≤ a.chunkCapacity (st.ct c)) :
    Wf ctx { st with count := Function.update st.count c n } where
  toLinked := ⟨h.consistent, h.ends, h.same, h.first, h.last, h.free⟩
  fresh := h.fresh
  known := h.known
  built := h.built
  count_le d g' b hd hb := by
    change Function.update st.count c n d ≤ b.chunkCapacity (st.ct d)
    by_cases hdc : d = c
    · subst hdc
      change st.type d = some g' at hd
      rw [hc, Option.some.injEq] at hd
      subst hd
      rw [Function.update_self]
      rw [show st.archetype g = some b from hb, Option.some.injEq] at ha
      exact ha ▸ hn
    · rw [update_ne hdc]
      exact h.count_le d g' b hd hb

theorem unmarkFree_resized (st : Store) (g : ArchetypeId) (c : ChunkId) :
    (st.unmarkFree g c).type = st.type ∧ (st.unmarkFree g c).count = st.count ∧
      (st.unmarkFree g c).ct = st.ct ∧ (st.unmarkFree g c).freshChunk = st.freshChunk ∧
      (st.unmarkFree g c).freshArchetype = st.freshArchetype ∧
      (st.unmarkFree g c).archetype = st.archetype := by
  unfold unmarkFree
  split_ifs <;> exact ⟨rfl, rfl, rfl, rfl, rfl, rfl⟩

/-- `resize_chunk`, where filling the chunk up keeps the pointers right. -/
theorem Wf.resizeChunk_linked {ctx : Context} {st st' : Store} (h : Wf ctx st) {ents : Entities}
    {g : ArchetypeId} {a : Archetype} {c : ChunkId} {n : Nat} (hc : st.type c = some g)
    (ha : st.archetype g = some a) (hn : n ≤ a.chunkCapacity (st.ct c))
    (hfull : n ≠ 0 → n = a.chunkCapacity (st.ct c) → Linked (st.unmarkFree g c))
    (hs : st.resizeChunk ents c n = some st') :
    Wf ctx st' ∧ (n = 0 ∧ Removed st st' g c ∨ n ≠ 0 ∧ Resized st st' c n) := by
  simp only [Store.resizeChunk, hc, ha, Option.bind_eq_bind, Option.bind_some] at hs
  by_cases hn0 : n = 0
  · rw [if_pos hn0] at hs
    obtain ⟨hwf, hrem⟩ := h.removeChunk hc hs
    exact ⟨hwf, Or.inl ⟨hn0, hrem⟩⟩
  · rw [if_neg hn0] at hs
    obtain rfl := Option.some.inj hs
    suffices hlist : ∀ st₁ : Store, Linked st₁ → st₁.type = st.type → st₁.count = st.count →
        st₁.ct = st.ct → st₁.freshChunk = st.freshChunk →
        st₁.freshArchetype = st.freshArchetype → st₁.archetype = st.archetype →
        Wf ctx { st₁ with count := Function.update st₁.count c n } ∧
          (n = 0 ∧ Removed st { st₁ with count := Function.update st₁.count c n } g c ∨
            n ≠ 0 ∧ Resized st { st₁ with count := Function.update st₁.count c n } c n) by
      split_ifs with hcap hwas
      · obtain ⟨htype, hcount, hct, hfc, hfa, harch⟩ := unmarkFree_resized st g c
        exact hlist _ (hfull hn0 hcap) htype hcount hct hfc hfa harch
      · exact hlist _ (h.toLinked.markFree ha hc) rfl rfl rfl rfl rfl rfl
      · exact hlist st h.toLinked rfl rfl rfl rfl rfl rfl
    intro st₁ hl htype hcount hct hfc hfa harch
    have h₁ : Wf ctx st₁ :=
      { toLinked := hl
        fresh := by rw [hfc, htype]; exact h.fresh
        known := by rw [hfa, htype]; exact h.known
        built := by rw [hfa, harch]; exact h.built
        count_le := by rw [htype, harch, hcount, hct]; exact h.count_le }
    have hc₁ : st₁.type c = some g := by rw [htype]; exact hc
    have ha₁ : st₁.archetype g = some a := by rw [harch]; exact ha
    exact ⟨h₁.resize hc₁ ha₁ (by rw [hct]; exact hn),
      Or.inr ⟨hn0, htype, by rw [hcount], hct, hfc, hfa, harch⟩⟩

/-- `resize_chunk` that fills up no chunk but the first free one. -/
theorem Wf.resizeChunk {ctx : Context} {st st' : Store} (h : Wf ctx st) {ents : Entities}
    {g : ArchetypeId} {a : Archetype} {c : ChunkId} {n : Nat} (hc : st.type c = some g)
    (ha : st.archetype g = some a) (hn : n ≤ a.chunkCapacity (st.ct c))
    (hfull : n ≠ 0 → n = a.chunkCapacity (st.ct c) → st.firstFree g = some c)
    (hs : st.resizeChunk ents c n = some st') :
    Wf ctx st' ∧ (n = 0 ∧ Removed st st' g c ∨ n ≠ 0 ∧ Resized st st' c n) :=
  h.resizeChunk_linked hc ha hn
    (fun hn0 hcap => h.toLinked.unmarkFree hc (hfull hn0 hcap)) hs

theorem Wf.capacity_lt {ctx : Context} {st : Store} (h : Wf ctx st) {g : ArchetypeId}
    {a : Archetype} (ha : st.archetype g = some a) (ct : AllocType) :
    a.chunkCapacity ct < 2 ^ 32 :=
  constructArchetype_capacity_lt (h.built g a ha).2 ct

/-- What `allocate_slice` hands out: the slots behind the entities of a chunk of the
archetype, which may be a new chunk. -/
structure Allocated (st st' : Store) (g : ArchetypeId) (a : Archetype) (s : ChunkSlice)
    (n : Nat) : Prop where
  type : st'.type = Function.update st.type s.c (some g)
  count : st'.count = Function.update st.count s.c (s.start + s.count)
  archetype : st'.archetype = st.archetype
  freshArchetype : st'.freshArchetype = st.freshArchetype
  freshChunk : st.freshChunk ≤ st'.freshChunk
  ct : ∀ d, st.type d ≠ none → st'.ct d = st.ct d
  old : st.type s.c = some g ∧ s.start = st.count s.c ∨
    st.type s.c = none ∧ s.start = 0 ∧ s.c = st.freshChunk
  pos : 0 < s.start + s.count
  le : s.start + s.count ≤ a.chunkCapacity (st'.ct s.c)
  count_le : s.count ≤ n

/-- The part of `allocate_slice` after the chunk is chosen. -/
theorem Wf.allocateIn {ctx : Context} {st st' : Store} (h : Wf ctx st) {ents : Entities}
    {g : ArchetypeId} {a : Archetype} {c : ChunkId} {n start : Nat}
    (ha : st.archetype g = some a) (hc : st.type c = some g) (hstart : start = st.count c)
    (hfree : 0 < a.chunkCapacity (st.ct c) → st.firstFree g = some c)
    (hs : ((st.structuralChange g a c).addSize g
      (min n (sub32 (a.chunkCapacity (st.ct c)) start))).resizeChunk ents c
        (start + min n (sub32 (a.chunkCapacity (st.ct c)) start)) = some st')
    (hty : st'.type c ≠ none) :
    Wf ctx st' ∧ start + min n (a.chunkCapacity (st.ct c) - start) ≠ 0 ∧
      start + min n (a.chunkCapacity (st.ct c) - start) ≤ a.chunkCapacity (st.ct c) ∧
      Resized st st' c (start + min n (a.chunkCapacity (st.ct c) - start)) := by
  have hle := h.count_le c g a hc ha
  rw [← hstart] at hle
  rw [sub32_of_le hle (h.capacity_lt ha _)] at hs
  generalize hk : min n (a.chunkCapacity (st.ct c) - start) = k at hs ⊢
  have hcap : start + k ≤ a.chunkCapacity (st.ct c) := by omega
  have hshape := (structuralChange_shape st g a c).trans
    (addSize_shape (st.structuralChange g a c) g k)
  revert hs hshape
  generalize (st.structuralChange g a c).addSize g k = st₁
  intro hs hshape
  have hc₁ : st₁.type c = some g := by rw [hshape.type]; exact hc
  have ha₁ : st₁.archetype g = some a := by rw [hshape.archetype]; exact ha
  have hres := (h.congr hshape).resizeChunk hc₁ ha₁ (by rw [hshape.ct]; exact hcap)
    (fun h0 hfull => by
      rw [hshape.ct] at hfull
      rw [hshape.firstFree]
      exact hfree (by omega)) hs
  obtain ⟨hwf, ⟨-, hrem⟩ | ⟨hn0, hres⟩⟩ := hres
  · refine absurd ?_ hty
    rw [hrem.type, Function.update_self]
  · refine ⟨hwf, hn0, hcap, ?_⟩
    exact
      { type := hres.type.trans hshape.type
        count := by rw [hres.count, hshape.count]
        ct := hres.ct.trans hshape.ct
        freshChunk := hres.freshChunk.trans hshape.freshChunk
        freshArchetype := hres.freshArchetype.trans hshape.freshArchetype
        archetype := hres.archetype.trans hshape.archetype }

/-- `allocate_slice`, when it did not give its chunk back at once for want of room. -/
theorem Wf.allocateSlice {ctx : Context} {st st' : Store} (h : Wf ctx st) {ents : Entities}
    {g : ArchetypeId} {a : Archetype} {n : Nat} {s : ChunkSlice} (ha : st.archetype g = some a)
    (hs : st.allocateSlice ents g n = some (st', s)) (hty : st'.type s.c ≠ none) :
    Wf ctx st' ∧ Allocated st st' g a s n := by
  simp only [Store.allocateSlice, ha, Option.bind_eq_bind, Option.bind_some] at hs
  cases hf : st.firstFree g with
  | some c =>
      have hshape := structuralChange_shape st g a c
      simp only [hf, Option.bind_eq_some_iff, Option.some.injEq, Prod.mk.injEq, hshape.count,
        hshape.ct] at hs
      obtain ⟨st₂, hres, rfl, rfl⟩ := hs
      have hc := h.free g a c ha hf
      obtain ⟨hwf, hpos, hcap, hr⟩ := h.allocateIn ha hc rfl (fun _ => hf) hres hty
      rw [sub32_of_le (h.count_le c g a hc ha) (h.capacity_lt ha _)]
      refine ⟨hwf, ?_⟩
      exact
        { type := by rw [hr.type, ← hc, Function.update_eq_self]
          count := hr.count
          archetype := hr.archetype
          freshArchetype := hr.freshArchetype
          freshChunk := hr.freshChunk.ge
          ct := fun d _ => congrFun hr.ct d
          old := Or.inl ⟨hc, rfl⟩
          pos := Nat.pos_of_ne_zero hpos
          le := by rw [hr.ct]; exact hcap
          count_le := Nat.min_le_left ..  }
  | none =>
      simp only [hf, Option.bind_eq_some_iff, Option.some.injEq, Prod.mk.injEq] at hs
      obtain ⟨⟨st₁, c⟩, hchunk, st₂, hres, rfl, rfl⟩ := hs
      have hshape := structuralChange_shape st₁ g a c
      simp only [hshape.count, hshape.ct] at hres ⊢
      obtain ⟨h₁, rfl, hfc, htype, hcount, hct, hfa, harch, hfree⟩ := h.newChunk ha hf hchunk
      have ha₁ : st₁.archetype g = some a := by rw [harch]; exact ha
      have hc₁ : st₁.type st.freshChunk = some g := by rw [htype, Function.update_self]
      obtain ⟨hwf, hpos, hcap, hr⟩ := h₁.allocateIn ha₁ hc₁ rfl hfree hres hty
      have hzero : st₁.count st.freshChunk = 0 := by rw [hcount, Function.update_self]
      rw [sub32_of_le (h₁.count_le _ g a hc₁ ha₁) (h₁.capacity_lt ha₁ _)]
      refine ⟨hwf, ?_⟩
      exact
        { type := hr.type.trans htype
          count := by rw [hr.count, hcount, Function.update_idem]
          archetype := hr.archetype.trans harch
          freshArchetype := hr.freshArchetype.trans hfa
          freshChunk := by rw [hr.freshChunk, hfc]; exact Nat.le_succ _
          ct := fun d hd => by
            rw [hr.ct, hct, update_ne]
            rintro rfl
            exact hd (h.fresh _ le_rfl)
          old := Or.inr ⟨h.fresh _ le_rfl, hzero, rfl⟩
          pos := Nat.pos_of_ne_zero hpos
          le := by rw [hr.ct]; exact hcap
          count_le := Nat.min_le_left .. }

/-! ## Archetypes -/

/-- Chunks are untouched, and living archetypes stay. -/
structure Extended (st st' : Store) : Prop where
  type : st'.type = st.type
  count : st'.count = st.count
  ct : st'.ct = st.ct
  freshChunk : st'.freshChunk = st.freshChunk
  archetype : ∀ g a, st.archetype g = some a → st'.archetype g = some a

theorem newArchetype_archetype {st : Store} {a : Archetype} {g : ArchetypeId} :
    (st.newArchetype a).1.archetype g =
      if g = st.freshArchetype then some a else st.archetype g := by
  simp only [newArchetype, Function.update_apply]

theorem Wf.newArchetype {ctx : Context} {st : Store} (h : Wf ctx st) {a : Archetype}
    (ha : constructArchetype ctx a.type = some a) : Wf ctx (st.newArchetype a).1 := by
  have hhead : ∀ {f : ArchetypeId → Option ChunkId},
      (∀ g a c, st.archetype g = some a → f g = some c → st.type c = some g) →
      ∀ g b c, (st.newArchetype a).1.archetype g = some b →
        Function.update f st.freshArchetype none g = some c → st.type c = some g := by
    intro f hf g b c hb hc
    rw [newArchetype_archetype] at hb
    split_ifs at hb with hg
    · subst hg
      simp at hc
    · rw [update_ne hg] at hc
      exact hf g b c hb hc
  exact
    { consistent := h.consistent
      ends := h.ends
      same := h.same
      first := hhead h.first
      last := hhead h.last
      free := hhead h.free
      fresh := h.fresh
      known := fun c g hc => Nat.lt_succ_of_lt (h.known c g hc)
      built := fun g b hb => by
        rw [newArchetype_archetype] at hb
        split_ifs at hb with hg
        · subst hg
          exact ⟨Nat.lt_succ_self _, Option.some.inj hb ▸ ha⟩
        · exact ⟨Nat.lt_succ_of_lt (h.built g b hb).1, (h.built g b hb).2⟩
      count_le := fun c g b hc hb => by
        rw [newArchetype_archetype] at hb
        split_ifs at hb with hg
        · subst hg
          exact absurd (h.known c _ hc) (lt_irrefl _)
        · exact h.count_le c g b hc hb }

/-- `get_archetype` of a key: a living archetype of that type, made if need be. -/
theorem Wf.getArchetype {ctx : Context} {st st' : Store} (h : Wf ctx st) {ents : Entities}
    {key : EntityType} {g : ArchetypeId}
    (hs : Store.getArchetype ctx st ents key = some (st', g)) :
    Wf ctx st' ∧ Extended st st' ∧ ∃ a, st'.archetype g = some a ∧ a.type = key := by
  unfold Store.getArchetype at hs
  cases hf : st.findArchetype key with
  | some g' =>
      simp only [hf, Option.some.injEq, Prod.mk.injEq] at hs
      obtain ⟨rfl, rfl⟩ := hs
      have hfind : st.archetypes.find? _ = some g' := hf
      have hkey := List.find?_some hfind
      rw [decide_eq_true_eq] at hkey
      obtain ⟨a, ha, hkey⟩ := Option.map_eq_some_iff.mp hkey
      exact ⟨h, ⟨rfl, rfl, rfl, rfl, fun _ _ => id⟩, a, ha, hkey⟩
  | none =>
      simp only [hf, Option.bind_eq_bind, Option.bind_eq_some_iff, Option.some.injEq,
        Prod.mk.injEq, addArchetype] at hs
      obtain ⟨a, ha, st₂, ⟨st₁, hup, rfl⟩, rfl, rfl⟩ := hs
      have hkey := constructArchetype_type ha
      have hshape := updateQueries_shape hup
      have hnew := h.newArchetype (hkey.symm ▸ ha)
      refine ⟨(hnew.congr hshape).congr ⟨rfl, rfl, rfl, rfl, rfl, rfl, rfl, rfl, rfl, rfl, rfl⟩, ?_, ?_⟩
      · refine ⟨hshape.type, hshape.count, hshape.ct, hshape.freshChunk, fun g b hb => ?_⟩
        change st₁.archetype g = some b
        rw [hshape.archetype, newArchetype_archetype, if_neg]
        · exact hb
        · exact ((h.built g b hb).1).ne
      · refine ⟨a, ?_, hkey⟩
        change st₁.archetype st.freshArchetype = some a
        rw [hshape.archetype, newArchetype_archetype, if_pos rfl]

end Store

end Dots

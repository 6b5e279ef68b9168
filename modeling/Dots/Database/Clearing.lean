import Dots.Database.Headers
import Dots.Database.Renewed

/-!
# A world that is cleared

`world::clear` walks the lists of all archetypes. Since every chunk is in one of these lists,
nothing of the chunks and the archetypes is left.
-/

namespace Dots

open Library

namespace Memory

variable {mm mm' : Memory} {a : Archetype} {ct : AllocType} {s : ChunkSlice}

theorem Mallocs.destroyBuffer {c : ChunkId} {addr : Nat} (hm : mm.Mallocs)
    (h : mm.destroyBuffer c addr = some mm') : mm'.Mallocs ∧ mm'.freshBlock = mm.freshBlock := by
  simp only [Memory.destroyBuffer] at h
  split_ifs at h
  · exact Option.some.inj h ▸ ⟨hm, rfl⟩
  · split at h
    · obtain rfl := Option.some.inj h
      refine ⟨⟨hm.pos, fun d hd => ?_⟩, rfl⟩
      dsimp only
      rw [Function.update_apply]
      split_ifs
      · rfl
      · exact hm.fresh d hd
    · exact absurd h (Option.some_ne_none mm').symm

/-- The destructors free blocks, and no address is handed out. -/
theorem Mallocs.destruct (hm : mm.Mallocs) (h : mm.destruct a ct s = some mm') :
    mm'.Mallocs ∧ mm'.freshBlock = mm.freshBlock := by
  refine foldlM_invariant (P := fun m : Memory => m.Mallocs ∧ m.freshBlock = mm.freshBlock)
    (fun i _ m m' hi hP => ?_) h ⟨hm, rfl⟩
  refine foldlM_invariant (P := fun m : Memory => m.Mallocs ∧ m.freshBlock = mm.freshBlock)
    (fun j _ m m' hj hP => ?_) hi hP
  obtain ⟨hm', hfresh⟩ := hP.1.destroyBuffer hj
  exact ⟨hm', hfresh.trans hP.2⟩

end Memory

namespace World

variable {ctx : Context} {v w w' : World} {g : ArchetypeId} {a : Archetype} {c : ChunkId}
  {Z : ChunkId → Prop} {raw : Nat → Nat}

/-- Of `v` the chunks `Z` have gone. -/
structure Cleared (v : World) (Z : ChunkId → Prop) (w : World) : Prop where
  type : ∀ c g, w.store.type c = some g → ¬ Z c ∧ v.store.type c = some g
  next : ∀ c d, w.store.links.next c = some d → ¬ Z c ∧ v.store.links.next c = some d
  prev : ∀ c d, w.store.links.prev c = some d → ¬ Z c ∧ v.store.links.prev c = some d
  kept : ∀ c, ¬ Z c → w.store.links.next c = v.store.links.next c
  firstChunk : w.store.firstChunk = v.store.firstChunk
  freshChunk : w.store.freshChunk = v.store.freshChunk
  mallocs : w.memory.Mallocs
  freshBlock : w.memory.freshBlock = v.memory.freshBlock

theorem Cleared.chunk (h : Cleared v Z w) (hs : clearChunk a w c = some w') :
    Cleared v (fun x => Z x ∨ x = c) w' ∧ w'.store.archetype = w.store.archetype := by
  simp only [clearChunk, Option.bind_eq_bind, Option.bind_eq_some_iff, Option.some.injEq] at hs
  obtain ⟨mm, hmm, rfl⟩ := hs
  obtain ⟨hm, hfresh⟩ := h.mallocs.destruct hmm
  have hgone : ∀ {β : Type} {x : ChunkId} {p q : Option β} {y : β}, (p = some y →
      ¬ Z x ∧ q = some y) → (if x = c then none else p) = some y →
        ¬ (Z x ∨ x = c) ∧ q = some y := by
    intro β x p q y hp hif
    split_ifs at hif with hx
    exact ⟨not_or.mpr ⟨(hp hif).1, hx⟩, (hp hif).2⟩
  refine ⟨⟨fun x k hx => ?_, fun x d hx => ?_, fun x d hx => ?_, fun x hx => ?_, h.firstChunk,
    h.freshChunk, hm, hfresh.trans h.freshBlock⟩, rfl⟩
  · dsimp only at hx
    rw [Function.update_apply] at hx
    exact hgone (h.type x k) hx
  · rw [Links.setNext_next] at hx
    exact hgone (h.next x d) hx
  · rw [Links.setNext_prev, Links.setPrev_prev] at hx
    exact hgone (h.prev x d) hx
  · obtain ⟨hZ, hne⟩ := not_or.mp hx
    rw [Links.setNext_next, if_neg hne]
    exact h.kept x hZ

theorem Cleared.chunks {cs : List ChunkId} (h : Cleared v Z w)
    (hs : cs.foldlM (clearChunk a) w = some w') :
    Cleared v (fun x => Z x ∨ x ∈ cs) w' ∧ w'.store.archetype = w.store.archetype := by
  induction cs generalizing w Z with
  | nil =>
      obtain rfl := Option.some.inj hs
      simpa using h
  | cons c cs ih =>
      rw [List.foldlM_cons, Option.bind_eq_bind, Option.bind_eq_some_iff] at hs
      obtain ⟨w₁, hchunk, hrest⟩ := hs
      obtain ⟨h₁, harch₁⟩ := h.chunk hchunk
      obtain ⟨h', harch'⟩ := ih h₁ hrest
      refine ⟨?_, harch'.trans harch₁⟩
      simpa only [List.mem_cons, or_assoc] using h'

/-- The archetypes `done` of `v` have gone, with all their chunks. -/
structure ClearedOf (v : World) (done : List ArchetypeId) (w : World) : Prop extends
    Cleared v (fun c => ∃ g ∈ done, v.store.type c = some g) w where
  archetype : ∀ g a, w.store.archetype g = some a → g ∉ done ∧ v.store.archetype g = some a

theorem ClearedOf.turn {done : List ArchetypeId} (h : ClearedOf v done w)
    (hv : v.store.Listed ctx) (hs : w.clearArchetype g = some w') :
    ClearedOf v (done ++ [g]) w' := by
  simp only [clearArchetype, Option.bind_eq_bind, Option.bind_eq_some_iff, Option.some.injEq] at hs
  obtain ⟨a, ha, cs, hcs, w₁, hrun, rfl⟩ := hs
  obtain ⟨hnot, hva⟩ := h.archetype g a ha
  obtain ⟨fulls, frees, hch⟩ := hv.chain g a hva
  -- the list of an archetype that is still there is as it was
  have hpath : Links.Path w.store.links.next (w.store.firstChunk g) (fulls ++ frees) := by
    rw [h.firstChunk]
    refine hch.spans.1.congr fun c hc => h.kept c ?_
    rintro ⟨k, hk, hck⟩
    rw [(hch.mem c).mp hc, Option.some.injEq] at hck
    exact hnot (hck ▸ hk)
  obtain rfl := (chunksFrom_eq_some.mp hcs).1.unique hpath
  obtain ⟨h₁, harch⟩ := h.toCleared.chunks hrun
  have hZ : ∀ c, (∃ k ∈ done ++ [g], v.store.type c = some k) ↔
      (∃ k ∈ done, v.store.type c = some k) ∨ c ∈ fulls ++ frees := by
    intro c
    rw [hch.mem]
    simp only [List.mem_append, List.mem_singleton, or_and_right, exists_or, exists_eq_left]
  refine ⟨?_, fun k b hb => ?_⟩
  · simp only [hZ]
    exact ⟨h₁.type, h₁.next, h₁.prev, h₁.kept, h₁.firstChunk, h₁.freshChunk, h₁.mallocs,
      h₁.freshBlock⟩
  · dsimp only at hb
    rw [Function.update_apply] at hb
    split_ifs at hb with hk
    obtain ⟨hdone, hvb⟩ := h.archetype k b (harch ▸ hb)
    exact ⟨by simp [hdone, hk], hvb⟩

theorem clearedOf_run (hv : v.store.Listed ctx) {gs done : List ArchetypeId}
    (h : ClearedOf v done w) (hs : gs.foldlM clearArchetype w = some w') :
    ClearedOf v (done ++ gs) w' := by
  induction gs generalizing w done with
  | nil =>
      obtain rfl := Option.some.inj hs
      rwa [List.append_nil]
  | cons g gs ih =>
      rw [List.foldlM_cons, Option.bind_eq_bind, Option.bind_eq_some_iff] at hs
      obtain ⟨w₁, hturn, hrest⟩ := hs
      have hall := ih (h.turn hv hturn) hrest
      rwa [List.append_assoc] at hall

/-- A store without chunks, archetypes and links. -/
theorem listed_of_none {st : Store} (htype : ∀ c, st.type c = none)
    (harch : ∀ g, st.archetype g = none) (hnext : ∀ c, st.links.next c = none)
    (hprev : ∀ c, st.links.prev c = none) : st.Listed ctx where
  consistent c d := by simp [hnext, hprev]
  ends c := ⟨[], rfl, hnext c⟩
  same c d h := by simp [hnext] at h
  first g a c h := by simp [harch] at h
  last g a c h := by simp [harch] at h
  free g a c h := by simp [harch] at h
  fresh c _ := htype c
  known c g h := by simp [htype] at h
  built g a h := by simp [harch] at h
  count_le c g a h := by simp [htype] at h
  chain g a h := by simp [harch] at h
  alive c g h := by simp [htype] at h
  nonempty c g h := by simp [htype] at h

/-- After `world::clear` nothing is left. -/
theorem vacant_clear (hv : v.store.Listed ctx) (hk : v.store.Known) (hm : v.memory.Mallocs)
    (hs : v.clear raw = some w) :
    Vacant ctx w ∧ w.memory.freshBlock = v.memory.freshBlock := by
  simp only [clear, Option.bind_eq_bind, Option.bind_eq_some_iff, Option.some.injEq] at hs
  obtain ⟨w₁, hrun, rfl⟩ := hs
  have hstart : ClearedOf v [] { v with store := { v.store with typeTimestamps := fun _ => 0 } } :=
    ⟨⟨fun _ _ h => ⟨by simp, h⟩, fun _ _ h => ⟨by simp, h⟩, fun _ _ h => ⟨by simp, h⟩,
      fun _ _ => rfl, rfl, rfl, hm, rfl⟩, fun _ _ h => ⟨List.not_mem_nil, h⟩⟩
  have hend := clearedOf_run hv hstart hrun
  rw [List.nil_append] at hend
  have hall : ∀ c g, v.store.type c = some g →
      ∃ g ∈ v.store.archetypes, v.store.type c = some g := by
    intro c g hc
    exact ⟨g, (hk.listed g).mpr (hv.alive c g hc), hc⟩
  have htype : ∀ c, w₁.store.type c = none := by
    intro c
    by_contra hne
    obtain ⟨g, hg⟩ := Option.ne_none_iff_exists'.mp hne
    obtain ⟨hnot, hc⟩ := hend.type c g hg
    exact hnot (hall c g hc)
  have harch : ∀ g, w₁.store.archetype g = none := by
    intro g
    by_contra hne
    obtain ⟨a, ha⟩ := Option.ne_none_iff_exists'.mp hne
    obtain ⟨hnot, hva⟩ := hend.archetype g a ha
    exact hnot ((hk.listed g).mpr ⟨a, hva⟩)
  have hnext : ∀ c, w₁.store.links.next c = none := by
    intro c
    by_contra hne
    obtain ⟨d, hd⟩ := Option.ne_none_iff_exists'.mp hne
    obtain ⟨hnot, hvd⟩ := hend.next c d hd
    obtain ⟨g, hc, -⟩ := hv.same c d hvd
    exact hnot (hall c g hc)
  have hprev : ∀ c, w₁.store.links.prev c = none := by
    intro c
    by_contra hne
    obtain ⟨d, hd⟩ := Option.ne_none_iff_exists'.mp hne
    obtain ⟨hnot, hvd⟩ := hend.prev c d hd
    obtain ⟨g, -, hc⟩ := hv.same d c ((hv.consistent d c).mpr hvd)
    exact hnot (hall c g hc)
  have hlisted : w₁.store.Listed ctx := listed_of_none htype harch hnext hprev
  exact ⟨⟨hlisted.congr ⟨rfl, rfl, rfl, rfl, rfl, rfl, rfl, rfl, rfl, rfl, rfl⟩, htype, harch,
    rfl, rfl, hend.mallocs⟩, hend.freshBlock⟩

end World

end Dots

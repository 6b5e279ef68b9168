import Dots.Database.References

/-!
# Entities of worlds that are merged

`move_context` takes handles for the entities of the source, and renames them in the chunks, but
the records of the new handles stay as `new_entities` leaves them: none has the slot of its entity.
-/

namespace Dots

open Library Entities

namespace Entities

variable {ents ents' : Entities} {mm : Memory} {L : Slots} {n : Nat} {es : List Entity}

/-- The record of an id that was taken holds no slot; the others are kept. -/
theorem takeId_record (h : Tracks ents mm L) {e : Entity} (hs : ents.takeId = some (ents', e))
    (hsize : ents'.size < 2 ^ 24) : (∀ c, (ents'.datas e.id).c ≠ .chunk c) ∧
      ∀ id < ents.size, ents'.datas id = ents.datas id := by
  obtain ⟨l, hl⟩ := h.freeList
  simp only [takeId] at hs
  split_ifs at hs with hfree
  · obtain ⟨hents, rfl⟩ := Prod.mk.inj (Option.some.inj hs)
    have hsize' : ents'.size = ents.size + 1 := hents ▸ rfl
    have hdatas : ∀ id, ents'.datas id = if id = ents.size then
        { c := .raw, i := 0, v := ents.raw ents.size % 2 ^ 8 } else ents.datas id := fun id => by
      rw [← hents]
      exact Function.update_apply ..
    refine ⟨fun c => ?_, fun id hid => ?_⟩
    · rw [Entity.id_make _ (by omega), hdatas, if_pos rfl]
      simp
    · rw [hdatas, if_neg hid.ne]
  · split at hs
    · rename_i n hn
      obtain ⟨rfl, rfl⟩ := Prod.mk.inj (Option.some.inj hs)
      have hlt : ents.free < ents.size := (hl.free _ (hl.mem_of_onFreeList (.head hfree))).1
      have hsize' : ents.size < 2 ^ 24 := hsize
      refine ⟨fun c => ?_, fun _ _ => rfl⟩
      rw [Entity.id_make _ (by omega), hn]
      simp
    · simp at hs

theorem newEntitiesArray_record (h : Tracks ents mm L)
    (hs : ents.newEntitiesArray n = some (ents', es)) (hsize : ents'.size < 2 ^ 24) :
    (∀ e ∈ es, ∀ c, (ents'.datas e.id).c ≠ .chunk c) ∧
      ∀ id < ents.size, ents'.datas id = ents.datas id := by
  induction n generalizing ents es with
  | zero =>
      obtain ⟨rfl, rfl⟩ := Prod.mk.inj (Option.some.inj hs)
      exact ⟨fun e he => absurd he List.not_mem_nil, fun _ _ => rfl⟩
  | succ n ih =>
      simp only [newEntitiesArray, Option.bind_eq_bind, Option.bind_eq_some_iff,
        Option.some.injEq, Prod.mk.injEq] at hs
      obtain ⟨⟨ents₁, e⟩, htake, ⟨ents₂, es'⟩, hrest, rfl, rfl⟩ := hs
      have hle : ents₁.size ≤ ents₂.size := newEntitiesArray_size_le hrest
      have hsize₁ : ents₁.size < 2 ^ 24 := hle.trans_lt hsize
      obtain ⟨h₁, -, hid, -⟩ := takeId_spec h htake hsize₁.le
      obtain ⟨hnew, hold⟩ := takeId_record h htake hsize₁
      obtain ⟨hnews, holds⟩ := ih h₁ hrest
      refine ⟨fun e' he' => ?_, fun id hlt => ?_⟩
      · rcases List.mem_cons.mp he' with rfl | he'
        · rw [holds e'.id hid]
          exact hnew
        · exact hnews e' he'
      · exact (holds id (hlt.trans_le (takeId_size_le htake))).trans (hold id hlt)

end Entities

namespace World

variable {ctx : Context} {custom : TypeIndex → List UInt8 → List Entity} {fuel : Nat}
  {raw : Nat → Nat} {dst src : World} {r : Merging × Renaming} {es : List Entity}
  {cs : List ChunkId} {e : Entity} {c : ChunkId} {i : Nat}

/-- The handle in a slot of the merged world, whose chunks from `base` on come from the source. -/
def mergedAt (base : Nat) (m : Merging) (c : ChunkId) (i : Nat) : Entity :=
  if c < base then m.dst.memory.entityAt c i else m.moved.entityAt (c - base) i

/-- `m` is `dst` with the entities of `src`, renamed by `f`. -/
structure MergesInto (ctx : Context) (dst src : World) (m : Merging) (f : Entity → Entity) :
    Prop where
  injective : ∀ e e', src.Alive e → src.Alive e' → f e = f e' → e = e'
  new : ∀ e, src.Alive e → ¬ dst.Alive (f e)
  live : ∀ e, (∃ c i, m.dst.store.Occupied c i ∧ mergedAt dst.store.freshChunk m c i = e) ↔
    dst.Alive e ∨ ∃ e₀, src.Alive e₀ ∧ e = f e₀
  old : ∀ e c i, dst.Found e c i → m.dst.store.Occupied c i ∧ m.dst.At e c i
  oldData : m.dst.memory = dst.memory
  located : ∀ e, src.Alive e → m.dst.ents.exist (f e) = true ∧ ∃ c i,
    m.dst.asSlice (f e) = some { c := c, start := i, count := 1 } ∧ m.dst.store.Occupied c i ∧
      mergedAt dst.store.freshChunk m c i = f e
  data : ∀ e, src.Alive e → ∀ el ∈ src.elementsOf ctx e,
    m.moved.element el = Memory.patched ctx el.type f (src.memory.element el)
  metatypes : ∀ e c i g a, src.InSlot e c i g a → ∃ g' a',
    m.dst.archetypeOf (dst.store.freshChunk + c) = some (g', a') ∧ a'.types = a.types ∧
      ∀ x, x ∈ a'.metatypes ↔ ∃ y ∈ a.metatypes, x = f y
  linked : ∀ c, src.store.type c ≠ none → ∃ g l,
    m.dst.store.type (dst.store.freshChunk + c) = some g ∧
      Links.Path m.dst.store.links.next (m.dst.store.firstChunk g) l ∧
      l.count (dst.store.freshChunk + c) = 1
  emptied : m.src.store.archetypes = [] ∧ m.src.ents.size = 0

/-- The chunks of the target hold what they held. -/
theorem Absorbed.occupied_old (h : Absorbed ctx raw dst src r es cs)
    (hc : c < dst.store.freshChunk) :
    r.1.dst.store.Occupied c i ↔ dst.store.Occupied c i := by
  rw [Store.Occupied, Store.Occupied, h.arriving.oldType c hc, h.arriving.oldCount c hc]

/-- The others are those of the source. -/
theorem Absorbed.occupied_new (h : Absorbed ctx raw dst src r es cs)
    (hi : r.1.dst.store.Occupied (dst.store.freshChunk + c) i) : src.store.Occupied c i := by
  refine ⟨(h.mem c).mp (h.arriving.arrived c hi.1), ?_⟩
  rw [← h.arriving.count c]
  exact hi.2

/-- A handle in a chunk that went over is one of the new ones. -/
theorem Moved.mem_handles (h : Moved ctx raw src r es) (hsize : src.ents.size < 2 ^ 24)
    (hs : Sound ctx nowhere src) (hi : src.store.Occupied c i) : r.1.moved.entityAt c i ∈ es := by
  obtain ⟨y, hread, hy⟩ := h.target hsize ⟨c, i, hs.found hi⟩
  rw [h.handles c i hi, Renaming.patch, hread]
  simp only [hy, Option.getD_some]
  rw [h.table] at hy
  simp only [renamingOf] at hy
  split_ifs at hy
  exact List.mem_of_getElem? hy

theorem Absorbed.merges_iff (h : Absorbed ctx raw dst src r es cs) (hm : Moved ctx raw src r es)
    (hdst : dst.Orderly ctx) (hsrc : src.Orderly ctx) (hsize : src.ents.size < 2 ^ 24)
    (hsize' : r.1.dst.ents.size < 2 ^ 24) :
    (∃ f, MergesInto ctx dst src r.1 f) ↔ ∀ e, ¬ src.Alive e := by
  have hle := newEntitiesArray_size_le h.taken
  have htracks := hdst.sound.tracks (hle.trans_lt hsize')
  obtain ⟨hnews, holds⟩ := newEntitiesArray_record htracks h.taken hsize'
  constructor
  · rintro ⟨f, hf⟩ e he
    obtain ⟨-, c, i, hslice, hocc, hat⟩ := hf.located e he
    by_cases hc : c < dst.store.freshChunk
    · -- the slot of an entity of the target
      refine hf.new e he ⟨c, i, ?_⟩
      rw [mergedAt, if_pos hc, h.memory] at hat
      exact hat ▸ hdst.sound.found ((h.occupied_old hc).mp hocc)
    · obtain ⟨d, rfl⟩ := Nat.exists_eq_add_of_le (Nat.le_of_not_lt hc)
      rw [mergedAt, if_neg hc, Nat.add_sub_cancel_left] at hat
      have hmem := hm.mem_handles hsize hsrc.sound (h.occupied_new hocc)
      rw [hat] at hmem
      simp only [World.asSlice, World.entrySlice] at hslice
      split_ifs at hslice
      split at hslice
      next d' hd' => exact hnews _ hmem d' hd'
      next => simp at hslice
  · intro hnone
    have hempty : ∀ c i, ¬ src.store.Occupied c i := fun c i hi =>
      hnone _ ⟨c, i, hsrc.sound.found hi⟩
    have hlt : ∀ c i, r.1.dst.store.Occupied c i → c < dst.store.freshChunk := by
      intro c i hi
      by_contra hc
      obtain ⟨d, rfl⟩ := Nat.exists_eq_add_of_le (Nat.le_of_not_lt hc)
      exact hempty d i (h.occupied_new hi)
    have hbelow : ∀ c i, dst.store.Occupied c i → c < dst.store.freshChunk := by
      intro c i hi
      by_contra hc
      exact hi.1 (hdst.listed.fresh c (Nat.le_of_not_lt hc))
    refine ⟨id, fun e _ he => absurd he (hnone e), fun e he => absurd he (hnone e),
      fun e => ⟨?_, ?_⟩, fun e c i hf => ?_, h.memory, fun e he => absurd he (hnone e),
      fun e he => absurd he (hnone e), fun e c i g a hs => absurd ⟨c, i, hs.found⟩ (hnone e),
      fun c hc => ?_, h.archetypes, ?_⟩
    · rintro ⟨c, i, hi, rfl⟩
      have hc := hlt c i hi
      rw [mergedAt, if_pos hc, h.memory]
      exact Or.inl ⟨c, i, hdst.sound.found ((h.occupied_old hc).mp hi)⟩
    · rintro (⟨c, i, hf⟩ | ⟨e₀, he₀, -⟩)
      · have hc := hbelow c i hf.occupied
        refine ⟨c, i, (h.occupied_old hc).mpr hf.occupied, ?_⟩
        rw [mergedAt, if_pos hc, h.memory]
        exact hf.handle
      · exact absurd he₀ (hnone e₀)
    · obtain ⟨hexist, hchunk, hindex⟩ := hf.entry (hle.trans_lt hsize')
      simp only [Entities.exist, Bool.and_eq_true, decide_eq_true_eq] at hexist
      have hsame := holds e.id hexist.1
      refine ⟨(h.occupied_old (hbelow c i hf.occupied)).mpr hf.occupied, ?_, ?_, ?_⟩
      · simp only [Entities.exist, hsame, Bool.and_eq_true, decide_eq_true_eq]
        exact ⟨hexist.1.trans_le hle, hexist.2⟩
      · rw [hsame, hchunk]
      · rw [hsame, hindex]
    · obtain ⟨g, hg⟩ := Option.ne_none_iff_exists'.mp hc
      exact absurd ⟨hc, hsrc.listed.nonempty c g hg⟩ (hempty c 0)
    · rw [h.cleared]
      rfl

/-- `move_context` merges the worlds exactly when the source has no entity. -/
theorem moveContext_merges_iff (hctx : ctx.Built) (hreg : ctx.tracks.length < 2 ^ 30)
    (hdst : Reachable ctx (fun w op => op.Orderly ctx w) dst)
    (hsrc : Reachable ctx (fun w op => op.Orderly ctx w) src) (hsize : src.ents.size < 2 ^ 24)
    (ht : src.AllTidy ctx custom) (hs : moveContext ctx fuel raw dst src = some r)
    (hsize' : r.1.dst.ents.size < 2 ^ 24) :
    (∃ f, MergesInto ctx dst src r.1 f) ↔ ∀ e, ¬ src.Alive e := by
  have hd := orderly_of_reachable hctx hreg hdst
  have hsr := orderly_of_reachable hctx hreg hsrc
  obtain ⟨es, cs, h⟩ := moveContext_spec hd.listed.toWf hsr.listed (known_of_reachable hsrc) hs
  exact h.merges_iff (h.moved hd hsr hsize ht hsize') hd hsr hsize hsize'

/-- A source without entities. -/
theorem moveContext_merges_blank : ∃ dst r f, soleEntity = some dst ∧
    moveContext linked 4 (fun _ => 7) dst blank = some r ∧ MergesInto linked dst blank r.1 f := by
  have hfacts : (soleEntity.bind fun dst =>
      (moveContext linked 4 (fun _ => 7) dst blank).map fun r => r.1.dst.ents.size) = some 1 := by
    decide +kernel
  obtain ⟨dst, hdst, hreach⟩ := reachable_soleEntity
  rw [hdst, Option.bind_some] at hfacts
  obtain ⟨r, hr, hsize⟩ := Option.map_eq_some_iff.mp hfacts
  have hnone : ∀ e, ¬ blank.Alive e := fun e ⟨c, i, hf⟩ => hf.occupied.1 rfl
  have htidy : blank.AllTidy linked fun _ _ => [] := fun members hall =>
    ⟨fun e he => absurd (hall e he) (hnone e), fun e he => absurd (hall e he) (hnone e),
      fun e he => absurd (hall e he) (hnone e)⟩
  obtain ⟨f, hf⟩ := (moveContext_merges_iff built_linked (by decide) hreach
    (reachable_blank linked _) (by decide) htidy hr (hsize.trans_lt (by decide))).mpr hnone
  exact ⟨dst, r, f, hdst, hr, hf⟩

/-- Two entities go over; the table does not find them. -/
theorem not_moveContext_merges_pair : ∃ dst w r, soleEntity = some dst ∧ renewedPair = some w ∧
    Reachable linked (fun w op => op.Orderly linked w) (referTo ⟨257⟩ w) ∧
    moveContext linked 4 (fun _ => 7) dst (referTo ⟨257⟩ w) = some r ∧
    r.1.moved.entityAt 0 1 = ⟨512⟩ ∧ r.1.dst.ents.exist ⟨512⟩ = true ∧
    r.1.dst.asSlice ⟨512⟩ = none ∧ ¬ ∃ f, MergesInto linked dst (referTo ⟨257⟩ w) r.1 f := by
  have hfacts : (soleEntity.bind fun dst => renewedPair.bind fun w =>
      (moveContext linked 4 (fun _ => 7) dst (referTo ⟨257⟩ w)).map fun r =>
        (r.1.dst.ents.size, (r.1.moved.entityAt 0 1).value, r.1.dst.ents.exist ⟨512⟩,
          r.1.dst.asSlice ⟨512⟩)) = some (3, 512, true, none) := by decide +kernel
  obtain ⟨dst, hdst, hreach⟩ := reachable_soleEntity
  obtain ⟨w, hw, hsize, hsrc, halive, htidy, -⟩ := reachable_referTo ⟨257⟩
  rw [hdst, Option.bind_some, hw, Option.bind_some] at hfacts
  obtain ⟨r, hr, hfacts⟩ := Option.map_eq_some_iff.mp hfacts
  simp only [Prod.mk.injEq] at hfacts
  obtain ⟨hsize', hhandle, hexist, hslice⟩ := hfacts
  have hd := orderly_of_reachable built_linked (by decide) hreach
  obtain ⟨hs, hlaid⟩ := laid_of_reachable built_linked (by decide) hsrc
  have hsrc := hsrc.mono fun _ _ h => h.1
  have hwhole := hs.whole hlaid
  have htidy := AllTidy.sameSlots (w := (referTo ⟨257⟩ w).whole) hs.listed.toWf hlaid hwhole.symm htidy
  have hsmall : (referTo ⟨257⟩ w).ents.size < 2 ^ 24 := hsize.trans_lt (by decide)
  have hsmall' : r.1.dst.ents.size < 2 ^ 24 := hsize'.trans_lt (by decide)
  obtain ⟨es, cs, h⟩ := moveContext_spec hd.listed.toWf hs.listed (known_of_reachable hsrc) hr
  refine ⟨dst, w, r, hdst, hw, hsrc, hr, Entity.ext hhandle, hexist, hslice, ?_⟩
  rw [h.merges_iff (h.moved hd hs hsmall htidy hsmall') hd hs hsmall hsmall']
  exact fun hnone => hnone ⟨0⟩ ((alive_sameSlots hwhole).mp ((halive _).mpr (Or.inl rfl)))

end World

end Dots

import Dots.Codebase.Structural
import Dots.Database.Progress
import Dots.Database.Undisturbed

/-!
# What a structural change waits for

An archetype is touched when entities come to it or leave it. Every touched archetype
should have been waited for; `pipeline::destroy` forgets the archetype of the dead and
those of group members, and `pipeline::instantiate` the members of nested groups.
-/

namespace Dots

open Library

namespace Store

variable {ctx : Context} {st st' st'' : Store} {g : ArchetypeId} {a : Archetype} {c : ChunkId}
  {G : ArchetypeId → Prop}

/-- Slot `i` of chunk `c` holds an entity of archetype `g`. -/
def Holds (st : Store) (g : ArchetypeId) (c : ChunkId) (i : Nat) : Prop :=
  st.type c = some g ∧ i < st.count c

/-- Entities came to the archetype, or left it. -/
def Touches (st st' : Store) (g : ArchetypeId) : Prop :=
  ∃ c i, ¬ (st'.Holds g c i ↔ st.Holds g c i)

/-- Only archetypes of `G` were touched. -/
structure Touching (ctx : Context) (G : ArchetypeId → Prop) (st st' : Store) : Prop where
  wf : st'.Wf ctx
  same : ∀ g c i, ¬ G g → (st'.Holds g c i ↔ st.Holds g c i)

theorem Touching.touched (h : Touching ctx G st st') (ht : st.Touches st' g) : G g := by
  obtain ⟨c, i, hne⟩ := ht
  by_contra hg
  exact hne (h.same g c i hg)

theorem Touching.refl (h : st.Wf ctx) : Touching ctx G st st := ⟨h, fun _ _ _ _ => Iff.rfl⟩

theorem Touching.trans (h : Touching ctx G st st') (h' : Touching ctx G st' st'') :
    Touching ctx G st st'' :=
  ⟨h'.wf, fun g c i hg => (h'.same g c i hg).trans (h.same g c i hg)⟩

theorem Touching.mono {H : ArchetypeId → Prop} (h : Touching ctx G st st')
    (hGH : ∀ g, G g → H g) : Touching ctx H st st' :=
  ⟨h.wf, fun g c i hg => h.same g c i fun hG => hg (hGH g hG)⟩

theorem Touching.of_same (hwf : st'.Wf ctx) (htype : st'.type = st.type)
    (hcount : st'.count = st.count) : Touching ctx G st st' :=
  ⟨hwf, fun g c i _ => by rw [Holds, Holds, htype, hcount]⟩

/-- Only chunk `c` is another one, and both its archetypes are in `G`. -/
theorem Touching.of_chunk (hwf : st'.Wf ctx)
    (hother : ∀ d, d ≠ c → st'.type d = st.type d ∧ st'.count d = st.count d)
    (hold : ∀ g, st.type c = some g → G g) (hnew : ∀ g, st'.type c = some g → G g) :
    Touching ctx G st st' := by
  refine ⟨hwf, fun g d i hg => ?_⟩
  by_cases hd : d = c
  · subst hd
    exact ⟨fun h => absurd (hnew g h.1) hg, fun h => absurd (hold g h.1) hg⟩
  · obtain ⟨htype, hcount⟩ := hother d hd
    rw [Holds, Holds, htype, hcount]

theorem touching_allocated {s : ChunkSlice} {n : Nat} (hwf : st'.Wf ctx)
    (h : Allocated st st' g a s n) : Touching ctx (· = g) st st' := by
  refine .of_chunk (c := s.c) hwf (fun d hd => ?_) (fun g' hg' => ?_) fun g' hg' => ?_
  · rw [h.type, h.count, update_ne hd, update_ne hd]
    exact ⟨rfl, rfl⟩
  · rcases h.old with ⟨hc, -⟩ | ⟨hc, -⟩
    · exact Option.some.inj (hg'.symm.trans hc)
    · simp [hc] at hg'
  · rw [h.type, Function.update_self] at hg'
    exact (Option.some.inj hg').symm

theorem touching_resize {n : Nat} (hwf : st'.Wf ctx) (hc : st.type c = some g)
    (h : n = 0 ∧ Removed st st' g c ∨ n ≠ 0 ∧ Resized st st' c n) :
    Touching ctx (· = g) st st' := by
  rcases h with ⟨-, h⟩ | ⟨-, h⟩
  · refine .of_chunk (c := c) hwf (fun d hd => ?_) (fun g' hg' => ?_) fun g' hg' => ?_
    · rw [h.type, h.count, update_ne hd]
      exact ⟨rfl, rfl⟩
    · exact Option.some.inj (hg'.symm.trans hc)
    · rw [h.type, Function.update_self] at hg'
      simp at hg'
  · refine .of_chunk (c := c) hwf (fun d hd => ?_) (fun g' hg' => ?_) fun g' hg' => ?_
    · rw [h.type, h.count, update_ne hd]
      exact ⟨rfl, rfl⟩
    · exact Option.some.inj (hg'.symm.trans hc)
    · rw [h.type, hc] at hg'
      exact (Option.some.inj hg').symm

theorem Extended.trans (h : Extended st st') (h' : Extended st' st'') : Extended st st'' where
  type := h'.type.trans h.type
  count := h'.count.trans h.count
  ct := h'.ct.trans h.ct
  freshChunk := h'.freshChunk.trans h.freshChunk
  archetype k b hb := h'.archetype k b (h.archetype k b hb)

/-- Archetypes, chunks and entities are all still there. -/
structure Kept (st st' : Store) : Prop where
  archetype : ∀ h b, st.archetype h = some b → st'.archetype h = some b
  type : ∀ c h, st.type c = some h → st'.type c = some h
  holds : ∀ h c i, st.Holds h c i → st'.Holds h c i

theorem Kept.refl (st : Store) : Kept st st := ⟨fun _ _ => id, fun _ _ => id, fun _ _ _ => id⟩

theorem Kept.trans (h : Kept st st') (h' : Kept st' st'') : Kept st st'' where
  archetype k b hb := h'.archetype k b (h.archetype k b hb)
  type c k hc := h'.type c k (h.type c k hc)
  holds k c i hi := h'.holds k c i (h.holds k c i hi)

theorem Kept.of_same (harch : ∀ h b, st.archetype h = some b → st'.archetype h = some b)
    (htype : st'.type = st.type) (hcount : st'.count = st.count) : Kept st st' where
  archetype := harch
  type c k hc := htype ▸ hc
  holds k c i hi := by rwa [Holds, htype, hcount]

/-- Once `n` is positive, there is one more entity of `g`. -/
structure Fuller (g : ArchetypeId) (n : Nat) (st st' : Store) : Prop extends Kept st st' where
  more : 0 < n → ∃ c i, st'.Holds g c i ∧ ¬ st.Holds g c i

theorem Kept.fuller (h : Kept st st') (g : ArchetypeId) : Fuller g 0 st st' :=
  ⟨h, fun hpos => absurd hpos (Nat.lt_irrefl 0)⟩

theorem Fuller.trans {m n : Nat} (h : Fuller g m st st') (h' : Fuller g n st' st'') :
    Fuller g (m + n) st st'' where
  toKept := h.toKept.trans h'.toKept
  more hpos := by
    by_cases hm : 0 < m
    · obtain ⟨c, i, hin, hout⟩ := h.more hm
      exact ⟨c, i, h'.holds g c i hin, hout⟩
    · obtain ⟨c, i, hin, hout⟩ := h'.more (by omega)
      exact ⟨c, i, hin, fun hi => hout (h.holds g c i hi)⟩

theorem Fuller.le {m n : Nat} (h : Fuller g n st st') (hm : m ≤ n) : Fuller g m st st' :=
  ⟨h.toKept, fun hpos => h.more (hpos.trans_le hm)⟩

theorem fuller_allocated {s : ChunkSlice} {n : Nat} (h : Allocated st st' g a s n) :
    Fuller g s.count st st' where
  archetype k b hb := h.archetype ▸ hb
  type c k hc := by
    rw [World.type_of_allocated h, hc]
    rw [hc]
    exact Option.some_ne_none k
  holds k c i hi := by
    obtain ⟨hc, hlt⟩ := hi
    rw [Holds, h.type, h.count, Function.update_apply, Function.update_apply]
    split_ifs with hcs
    · subst hcs
      rcases h.old with ⟨htype, hstart⟩ | ⟨htype, -⟩
      · exact ⟨htype.symm.trans hc, by omega⟩
      · simp [htype] at hc
    · exact ⟨hc, hlt⟩
  more hpos := by
    refine ⟨s.c, s.start, ?_, ?_⟩
    · rw [Holds, h.type, h.count, Function.update_self, Function.update_self]
      exact ⟨rfl, by omega⟩
    · rintro ⟨hc, hlt⟩
      rcases h.old with ⟨-, hstart⟩ | ⟨htype, -⟩
      · omega
      · simp [htype] at hc

end Store

namespace Entities

variable {ents ents' ents₁ : Entities}

/-- `new_entities` takes no id that a chunk is at. -/
theorem takeId_keeps {e : Entity} (hpop : Poppable ents) (hsize : ents₁.size < 2 ^ 24)
    (hs : ents.takeId = some (ents₁, e)) (c : ChunkId) (slot : Nat) {id : Nat} {d : ChunkId}
    (hid : id < ents.size) (hd : (ents.datas id).c = .chunk d) :
    (ents₁.place e c slot).datas id = ents.datas id := by
  simp only [takeId] at hs
  split_ifs at hs with hfree
  · obtain ⟨rfl, rfl⟩ := Prod.mk.inj (Option.some.inj hs)
    change ents.size + 1 < 2 ^ 24 at hsize
    rw [place_datas, Entity.id_make _ (by omega), if_neg hid.ne, setData_datas, if_neg hid.ne]
  · obtain ⟨l, hl, hlt⟩ := hpop
    have hmem : ents.free ∈ l := hl.mem_of_onFreeList (.head hfree)
    split at hs
    · obtain ⟨rfl, rfl⟩ := Prod.mk.inj (Option.some.inj hs)
      rw [place_datas, Entity.id_make _ (hlt _ hmem), if_neg]
      rintro rfl
      exact hl.not_mem_of_chunk hd hmem
    · simp at hs

theorem newEntities_keeps {c : ChunkId} {n slot : Nat} {m m' : Mem} (hpop : Poppable ents)
    (hs : newEntities c n slot ents m = some (ents', m')) (hsize : ents'.size < 2 ^ 24) :
    Poppable ents' ∧ ∀ id < ents.size, ∀ d, (ents.datas id).c = .chunk d →
      ents'.datas id = ents.datas id := by
  induction n generalizing slot ents m with
  | zero =>
      obtain ⟨rfl, -⟩ := Prod.mk.inj (Option.some.inj hs)
      exact ⟨hpop, fun _ _ _ _ => rfl⟩
  | succ n ih =>
      simp only [newEntities, Option.bind_eq_bind, Option.bind_eq_some_iff] at hs
      obtain ⟨⟨ents₁, e⟩, htake, hs⟩ := hs
      have hle : (ents₁.place e c slot).size ≤ ents'.size := newEntities_size_le hs
      change ents₁.size ≤ ents'.size at hle
      obtain ⟨ents₂, e₂, htake₂, hpop₂⟩ := takeId_returns hpop c slot
      obtain ⟨rfl, rfl⟩ := Prod.mk.inj (Option.some.inj (htake₂.symm.trans htake))
      obtain ⟨hpop', hkeep⟩ := ih hpop₂ hs
      refine ⟨hpop', fun id hid d hd => ?_⟩
      have hone := takeId_keeps hpop (hle.trans_lt hsize) htake c slot hid hd
      have hgrow : id < ents₂.size := hid.trans_le (takeId_size_le htake)
      rw [hkeep id hgrow d (hone.symm ▸ hd), hone]

end Entities

namespace World

variable {ctx : Context} {w w' : World} {g srcG : ArchetypeId} {a b : Archetype} {fuel n : Nat}
  {s : ChunkSlice} {ss : List ChunkSlice}

theorem touching_freeSlice (hwf : w.store.Wf ctx) (hc : w.store.type s.c = some g)
    (hpos : 0 < s.count) (hle : s.start + s.count ≤ w.store.count s.c)
    (hs : w.freeSlice s = some w') : Store.Touching ctx (· = g) w.store w'.store := by
  obtain ⟨g', a, st₁, w₂, st, hc', ha, hst₁, hw₂, hres, rfl⟩ := freeSlice_spec hs
  obtain rfl : g' = g := Option.some.inj (hc'.symm.trans hc)
  have hshape : Store.SameShape w.store st₁ := hst₁ ▸
    (Store.structuralChange_shape w.store g' a s.c).trans (Store.subSize_shape _ g' s.count)
  have hwf₁ := hwf.congr hshape
  have hc₁ : st₁.type s.c = some g' := hshape.type ▸ hc
  have ha₁ : st₁.archetype g' = some a := hshape.archetype ▸ ha
  rw [← hshape.count] at hle
  have hcap := hwf₁.count_le s.c g' a hc₁ ha₁
  have hlt := hwf₁.capacity_lt ha₁ (st₁.ct s.c)
  rw [sub32_of_le (by omega) (by omega)] at hres
  obtain ⟨hwf', hcase⟩ := hwf₁.resizeChunk hc₁ ha₁ (by omega) (fun _ hfull => by omega) hres
  exact (Store.Touching.of_same hwf₁ hshape.type hshape.count).trans
    (Store.touching_resize hwf' hc₁ hcase)

theorem touching_release (hwf : w.store.Wf ctx) (hv : w.ValidSlice s)
    (hc : w.store.type s.c = some g) (hs : w.release s = some w') :
    Store.Touching ctx (· = g) w.store w'.store := by
  simp only [World.release, Option.bind_eq_bind, Option.bind_eq_some_iff] at hs
  obtain ⟨w₁, hfree, hs⟩ := hs
  obtain ⟨hstore, -, -⟩ := freeEntities_store hfree
  rw [← hstore] at hwf hc ⊢
  exact touching_freeSlice hwf hc hv.pos (hstore ▸ hv.le) hs

/-- One `allocate_slice` that found room. -/
theorem touching_allocateSlice {w₁ : World} (hwf : w.store.Wf ctx)
    (ha : w.store.archetype g = some a) (halloc : w.allocateSlice g n = some (w₁, s))
    (hty : w₁.store.type s.c ≠ none) :
    Store.Touching ctx (· = g) w.store w₁.store ∧ Store.Fuller g s.count w.store w₁.store ∧
      s.count ≤ n := by
  obtain ⟨st, hst, rfl⟩ := allocateSlice_eq_some.mp halloc
  obtain ⟨hwf', hall⟩ := hwf.allocateSlice ha hst hty
  exact ⟨Store.touching_allocated hwf' hall, Store.fuller_allocated hall, hall.count_le⟩

theorem touching_allocateLoop (hwf : w.store.Wf ctx) (ha : w.store.archetype g = some a)
    (hs : allocateLoop ctx g fuel n w = some (w', ss)) :
    Store.Touching ctx (· = g) w.store w'.store := by
  refine (allocateLoop_invariant (I := fun v => Store.Touching ctx (· = g) w.store v.store ∧
    v.store.archetype g = some a) ?_ ⟨.refl hwf, ha⟩ hs).1
  rintro v v₁ v₂ n s g' a' ⟨hv, hva⟩ - halloc harch hnew
  have hty : v₁.store.type s.c ≠ none := by
    rw [(archetypeOf_eq_some.mp harch).1]
    exact Option.some_ne_none g'
  obtain ⟨htouch, hfuller, -⟩ := touching_allocateSlice hv.wf hva halloc hty
  rw [(newEntities_store hnew).1]
  exact ⟨hv.trans htouch, hfuller.archetype g a hva⟩

/-- `cast_slice` touches its two archetypes, the target in any case. -/
theorem touching_castSlice (hwf : w.store.Wf ctx) (hv : w.ValidSlice s)
    (hc : w.store.type s.c = some srcG) (ha : w.store.archetype g = some a) (hg : srcG ≠ g)
    (hs : w.castSlice ctx fuel s g = some (w', ss)) :
    Store.Touching ctx (fun h => h = srcG ∨ h = g) w.store w'.store ∧
      w.store.Touches w'.store g := by
  obtain ⟨g', a', w₁, -, -, hloop, hfree⟩ := castSlice_spec hs
  let st₀ := (w.store.structuralChange g' a' s.c).subSize g' s.count
  have hshape : Store.SameShape w.store st₀ :=
    (Store.structuralChange_shape w.store g' a' s.c).trans (Store.subSize_shape _ g' s.count)
  have hstart : Store.Touching ctx (· = g) w.store st₀ :=
    .of_same (hwf.congr hshape) hshape.type hshape.count
  have hfull : Store.Fuller g 0 w.store st₀ :=
    (Store.Kept.of_same (fun _ _ hb => hshape.archetype ▸ hb) hshape.type hshape.count).fuller g
  obtain ⟨k, hk, htouch, hmore⟩ := castLoop_invariant
    (I := fun k v => Store.Touching ctx (· = g) w.store v.store ∧ Store.Fuller g k w.store v.store)
    (fun v v₁ k t dst side mm hI _ halloc hdst _ _ => by
      obtain ⟨hv, hm⟩ := hI
      obtain ⟨g₁, a₁, htype, -, -⟩ := side_eq_some.mp hdst
      have hty : v₁.store.type t.c ≠ none := by
        rw [htype]
        exact Option.some_ne_none g₁
      obtain ⟨htouch, hfuller, -⟩ :=
        touching_allocateSlice hv.wf (hm.archetype g a ha) halloc hty
      exact ⟨hv.trans htouch, hm.trans hfuller⟩) ⟨hstart, hfull⟩ hloop
  -- the source is still where it was
  have hpos := hv.pos
  have hle := hv.le
  have hlast := hmore.holds srcG s.c (s.start + s.count - 1) ⟨hc, by omega⟩
  have hle₁ : s.start + s.count ≤ w₁.store.count s.c := by
    have := hlast.2
    omega
  have hfreed := touching_freeSlice htouch.wf hlast.1 hpos hle₁ hfree
  refine ⟨(htouch.mono fun _ => Or.inr).trans (hfreed.mono fun _ => Or.inl), ?_⟩
  obtain ⟨c, i, hin, hout⟩ := hmore.more (hpos.trans_le hk)
  exact ⟨c, i, fun hiff => hout (hiff.mp ((hfreed.same g c i (Ne.symm hg)).mpr hin))⟩

/-- A cast touches its two archetypes. -/
theorem touching_castTo (hctx : ctx.Paired) (hwf : w.store.Wf ctx) (hv : w.ValidSlice s)
    (hc : w.store.type s.c = some srcG) (hs : w.castTo ctx fuel s (some g) = some (w', ss)) :
    Store.Touching ctx (fun h => h = srcG ∨ h = g) w.store w'.store := by
  obtain ⟨srcG', srcA, a, hc', hsrcA, ha, hcase⟩ := castTo_cases hs
  obtain rfl : srcG' = srcG := Option.some.inj (hc'.symm.trans hc)
  rcases hcase with ⟨-, rfl⟩ | ⟨hg, hfast⟩ | ⟨hg, -, hcast⟩
  · exact .refl hwf
  · obtain ⟨st₁, st₂, hrem, hadd, rfl⟩ := hfast.store
    obtain ⟨hwf₂, -⟩ := relink hctx hwf hc hsrcA ha hg hfast.castable hrem hadd
    obtain ⟨htype, hcount, -⟩ := relink_fields hwf hc hrem hadd
    refine .of_chunk (c := s.c) hwf₂ (fun d hd => ?_) (fun h hh => ?_) fun h hh => ?_
    · change st₂.type d = _ ∧ st₂.count d = _
      rw [htype, hcount, Store.update_ne hd]
      exact ⟨rfl, rfl⟩
    · exact Or.inl (Option.some.inj (hh.symm.trans hc))
    · change st₂.type s.c = some h at hh
      rw [htype, Function.update_self] at hh
      exact Or.inr (Option.some.inj hh).symm
  · exact (touching_castSlice hwf hv hc ha hg hcast).1

/-- Destroying entities touches their archetype alone, unless it leaves dead ones. -/
theorem touched_destroySingle (hctx : ctx.Built) (hwf : w.store.Wf ctx) (hv : w.ValidSlice s)
    (harch : w.archetypeOf s.c = some (g, a)) (hs : w.destroySingle ctx fuel s = some w') :
    (∀ h, w.store.Touches w'.store h → h = g) ↔
      a.cleaning = true ∨ leavesDead ctx a = false := by
  obtain ⟨g₀, a₀, hc, ha, hcase⟩ := destroySingle_cases hs
  obtain ⟨rfl, rfl⟩ := Prod.mk.inj (Option.some.inj
    ((archetypeOf_eq_some.mpr ⟨hc, ha⟩).symm.trans harch))
  rcases hcase with ⟨hclean, rfl⟩ | ⟨-, hdead, hrel⟩ | ⟨hclean, hdead, w₁, g', ss, hgot, hcast⟩
  · refine iff_of_true (fun h ht => ?_) (Or.inl hclean)
    obtain ⟨c, i, hne⟩ := ht
    exact absurd Iff.rfl hne
  · exact iff_of_true (fun h ht => (touching_release hwf hv hc hrel).touched ht) (Or.inr hdead)
  · refine iff_of_false (fun honly => ?_) (by simp [hclean, hdead])
    obtain ⟨st, hget, rfl⟩ := getArchetype_eq_some hgot
    obtain ⟨hwf₁, hext, b, hb, hkey⟩ := hwf.getArchetype hget
    have hne : g₀ ≠ g' := by
      rintro rfl
      obtain rfl : b = a₀ := Option.some.inj (hb.symm.trans (hext.archetype _ a₀ ha))
      have hbuilt := (hwf₁.built g₀ b hb).2
      rw [hkey] at hbuilt
      simp [cleaning_of_key hctx hbuilt] at hclean
    obtain ⟨-, c, i, ht⟩ := touching_castSlice hwf₁ (hv.extend hext) (hext.type ▸ hc) hb hne hcast
    refine hne.symm (honly g' ⟨c, i, fun hiff => ht (hiff.trans ?_)⟩)
    rw [Store.Holds, Store.Holds, hext.type, hext.count]

/-! ## `instantiate` -/

theorem touching_instantiateLoop {src : Entity} (hwf : w.store.Wf ctx)
    (ha : w.store.archetype g = some a)
    (hs : instantiateLoop ctx src g fuel n w = some (w', ss)) :
    Store.Touching ctx (fun h => 0 < n ∧ h = g) w.store w'.store ∧
      Store.Fuller g n w.store w'.store := by
  induction fuel generalizing n w ss with
  | zero => simp [instantiateLoop] at hs
  | succ fuel ih =>
      rw [instantiateLoop] at hs
      split_ifs at hs with hn
      · simp only [Option.bind_eq_bind, Option.bind_eq_some_iff] at hs
        obtain ⟨⟨w₁, s⟩, halloc, from_, -, side, -, ⟨g', a'⟩, harch, mm, -, w₂, hnew,
          ⟨w₃, ss'⟩, hloop, hs⟩ := hs
        obtain ⟨rfl, -⟩ := Prod.mk.inj (Option.some.inj hs)
        have hty : w₁.store.type s.c ≠ none := by
          rw [(archetypeOf_eq_some.mp harch).1]
          exact Option.some_ne_none g'
        obtain ⟨htouch, hfuller, hle⟩ := touching_allocateSlice hwf ha halloc hty
        have hstore : w₂.store = w₁.store := (newEntities_store hnew).1
        rw [← hstore] at htouch hfuller
        obtain ⟨htouch', hfuller'⟩ := ih htouch.wf (hfuller.archetype g a ha) hloop
        refine ⟨(htouch.mono fun _ hh => ⟨hn, hh⟩).trans (htouch'.mono fun _ hh => ⟨hn, hh.2⟩),
          (hfuller.trans hfuller').le ?_⟩
        change n ≤ s.count + (n - s.count)
        omega
      · obtain ⟨rfl, -⟩ := Prod.mk.inj (Option.some.inj hs)
        exact ⟨.refl hwf, ((Store.Kept.refl _).fuller g).le (by omega)⟩

/-- The type `instantiate` makes of an entity. -/
def instanceType (ctx : Context) (w : World) (e : Entity) : Option EntityType := do
  let s ← w.asSlice e
  let (_, a) ← w.archetypeOf s.c
  some (castedType ctx a {} true)

/-- What `instantiate_single` touches: the archetype of the instances. -/
theorem touching_instantiateSingle {e : Entity} (hwf : w.store.Wf ctx)
    (hs : w.instantiateSingle ctx fuel e n = some (w', ss)) :
    ∃ key, w.instanceType ctx e = some key ∧
      (n = 0 ∧ w' = w ∨
        ∃ g b, w'.store.archetype g = some b ∧ b.type = key ∧
          Store.Touching ctx (fun h => 0 < n ∧ h = g) w.store w'.store ∧
            Store.Fuller g n w.store w'.store) := by
  simp only [World.instantiateSingle, Option.bind_eq_bind, Option.bind_eq_some_iff] at hs
  obtain ⟨s, hslice, ⟨g₀, a₀⟩, harch, ⟨w₁, target⟩, hcasted, hs⟩ := hs
  refine ⟨castedType ctx a₀ {} true, by simp [instanceType, hslice, harch], ?_⟩
  rcases getCasted_cases hcasted with ⟨rfl, rfl, -⟩ | ⟨g, rfl, hgot, -⟩
  · simp only at hs
    split_ifs at hs with hn
    obtain ⟨rfl, -⟩ := Prod.mk.inj (Option.some.inj hs)
    exact Or.inl ⟨hn, rfl⟩
  · obtain ⟨st, hget, rfl⟩ := getArchetype_eq_some hgot
    obtain ⟨hwf₁, hext, b, hb, hkey⟩ := hwf.getArchetype hget
    obtain ⟨htouch, hfuller⟩ := touching_instantiateLoop hwf₁ hb hs
    refine Or.inr ⟨g, b, hfuller.archetype g b hb, hkey,
      (Store.Touching.of_same hwf₁ hext.type hext.count).trans htouch, ?_⟩
    have hkept := Store.Kept.of_same hext.archetype hext.type hext.count
    exact ((hkept.fuller g).trans hfuller).le (by omega)

/-- The entities that are somewhere stay there. -/
structure Stays (w w' : World) : Prop where
  poppable : Entities.Poppable w'.ents
  size : w.ents.size ≤ w'.ents.size
  datas : ∀ id < w.ents.size, ∀ c, (w.ents.datas id).c = .chunk c →
    w'.ents.datas id = w.ents.datas id

theorem Stays.of_eq (hpop : Entities.Poppable w.ents) (h : w'.ents = w.ents) : Stays w w' :=
  ⟨h ▸ hpop, h ▸ le_rfl, fun _ _ _ _ => h ▸ rfl⟩

theorem Stays.trans {w'' : World} (h : Stays w w') (h' : Stays w' w'') : Stays w w'' where
  poppable := h'.poppable
  size := h.size.trans h'.size
  datas id hid c hc := by
    have h₁ := h.datas id hid c hc
    rw [h'.datas id (hid.trans_le h.size) c (h₁.symm ▸ hc), h₁]

theorem stays_newEntities (hpop : Entities.Poppable w.ents) (hs : w.newEntities s = some w')
    (hsize : w'.ents.size < 2 ^ 24) : Stays w w' := by
  simp only [World.newEntities, Option.bind_eq_bind, Option.bind_eq_some_iff] at hs
  obtain ⟨⟨ents, m⟩, hnew, hs⟩ := hs
  rw [← Option.some.inj hs] at hsize ⊢
  obtain ⟨hpop', hkeep⟩ := Entities.newEntities_keeps hpop hnew hsize
  exact ⟨hpop', Entities.newEntities_size_le hnew, hkeep⟩

theorem stays_instantiateLoop {src : Entity} (hpop : Entities.Poppable w.ents)
    (hs : instantiateLoop ctx src g fuel n w = some (w', ss)) (hsize : w'.ents.size < 2 ^ 24) :
    Stays w w' := by
  induction fuel generalizing n w ss with
  | zero => simp [instantiateLoop] at hs
  | succ fuel ih =>
      rw [instantiateLoop] at hs
      split_ifs at hs with hn
      · simp only [Option.bind_eq_bind, Option.bind_eq_some_iff] at hs
        obtain ⟨⟨w₁, s⟩, halloc, from_, -, side, -, ⟨g', a'⟩, -, mm, -, w₂, hnew,
          ⟨w₃, ss'⟩, hloop, hs⟩ := hs
        obtain ⟨rfl, -⟩ := Prod.mk.inj (Option.some.inj hs)
        obtain ⟨st, -, rfl⟩ := allocateSlice_eq_some.mp halloc
        have hle : w₂.ents.size ≤ w₃.ents.size := (aged_instantiateLoop hloop).size_le
        have hnext := stays_newEntities (w := { w with store := st, memory := mm }) hpop hnew
          (hle.trans_lt hsize)
        have hstay : Stays w w₂ := ⟨hnext.poppable, hnext.size, hnext.datas⟩
        exact hstay.trans (ih hstay.poppable hloop)
      · obtain ⟨rfl, -⟩ := Prod.mk.inj (Option.some.inj hs)
        exact .of_eq hpop rfl

theorem size_instantiateSingle {e : Entity}
    (hs : w.instantiateSingle ctx fuel e n = some (w', ss)) : w.ents.size ≤ w'.ents.size := by
  simp only [World.instantiateSingle, Option.bind_eq_bind, Option.bind_eq_some_iff] at hs
  obtain ⟨s, -, ⟨g₀, a₀⟩, -, ⟨w₁, target⟩, hcasted, hs⟩ := hs
  rcases getCasted_cases hcasted with ⟨rfl, rfl, -⟩ | ⟨g, rfl, hgot, -⟩
  · simp only at hs
    split_ifs at hs with hn
    obtain ⟨rfl, -⟩ := Prod.mk.inj (Option.some.inj hs)
    exact le_rfl
  · obtain ⟨st, -, rfl⟩ := getArchetype_eq_some hgot
    exact (aged_instantiateLoop hs).size_le

theorem stays_instantiateSingle {e : Entity} (hpop : Entities.Poppable w.ents)
    (hs : w.instantiateSingle ctx fuel e n = some (w', ss)) (hsize : w'.ents.size < 2 ^ 24) :
    Stays w w' := by
  simp only [World.instantiateSingle, Option.bind_eq_bind, Option.bind_eq_some_iff] at hs
  obtain ⟨s, -, ⟨g₀, a₀⟩, -, ⟨w₁, target⟩, hcasted, hs⟩ := hs
  rcases getCasted_cases hcasted with ⟨rfl, rfl, -⟩ | ⟨g, rfl, hgot, -⟩
  · simp only at hs
    split_ifs at hs with hn
    obtain ⟨rfl, -⟩ := Prod.mk.inj (Option.some.inj hs)
    exact .of_eq hpop rfl
  · obtain ⟨st, -, rfl⟩ := getArchetype_eq_some hgot
    have hstay := stays_instantiateLoop (w := { w with store := st }) hpop hs hsize
    exact ⟨hstay.poppable, hstay.size, hstay.datas⟩

/-- An entity stays where it is, in an archetype that stays. -/
theorem instanceType_congr {e : Entity} {key : EntityType} (hstay : Stays w w')
    (hkept : Store.Kept w.store w'.store) (h : w.instanceType ctx e = some key) :
    w'.instanceType ctx e = some key := by
  simp only [instanceType, Option.bind_eq_bind, Option.bind_eq_some_iff] at h ⊢
  obtain ⟨s, hslice, ⟨g, a⟩, harch, hkey⟩ := h
  obtain ⟨hc, ha⟩ := archetypeOf_eq_some.mp harch
  refine ⟨s, ?_, (g, a), archetypeOf_eq_some.mpr
    ⟨hkept.type _ _ hc, hkept.archetype _ _ ha⟩, hkey⟩
  obtain ⟨hid, c, hat⟩ := asSlice_eq_some hslice
  rw [asSlice_congr hstay.size hid (hstay.datas e.id hid c hat), hslice]

/-- `n` instances of each of the entities were made, and nothing else. -/
structure Copies (ctx : Context) (n : Nat) (es : List Entity) (w w' : World) : Prop where
  stays : Stays w w'
  kept : Store.Kept w.store w'.store
  only : Store.Touching ctx (fun h => 0 < n ∧ ∃ e ∈ es, ∃ b, w'.store.archetype h = some b ∧
    w.instanceType ctx e = some b.type) w.store w'.store
  each : 0 < n → ∀ e ∈ es, ∃ h b, w'.store.archetype h = some b ∧
    w.instanceType ctx e = some b.type ∧
    ∃ c i, w'.store.Holds h c i ∧ ¬ w.store.Holds h c i

theorem copies_single {e : Entity} (hwf : w.store.Wf ctx) (hpop : Entities.Poppable w.ents)
    (hs : w.instantiateSingle ctx fuel e n = some (w', ss)) (hsize : w'.ents.size < 2 ^ 24) :
    Copies ctx n [e] w w' := by
  have hstay := stays_instantiateSingle hpop hs hsize
  obtain ⟨key, hkey, hcase⟩ := touching_instantiateSingle hwf hs
  rcases hcase with ⟨hn, rfl⟩ | ⟨g, b, hb, rfl, htouch, hfuller⟩
  · exact ⟨hstay, .refl _, .refl hwf, fun hpos => absurd hn hpos.ne'⟩
  · refine ⟨hstay, hfuller.toKept, htouch.mono fun h hh => ?_, fun hpos e' he' => ?_⟩
    · exact ⟨hh.1, e, List.mem_singleton_self e, b, hh.2 ▸ hb, hkey⟩
    · rw [List.mem_singleton.mp he']
      exact ⟨g, b, hb, hkey, hfuller.more hpos⟩

theorem Copies.cons {e : Entity} {es : List Entity} {w₁ : World} (h : Copies ctx n [e] w w₁)
    (h' : Copies ctx n es w₁ w') (hall : ∀ e ∈ es, ∃ key, w.instanceType ctx e = some key) :
    Copies ctx n (e :: es) w w' := by
  have hsame : ∀ e' ∈ es, w₁.instanceType ctx e' = w.instanceType ctx e' := by
    intro e' he'
    obtain ⟨key, hkey⟩ := hall e' he'
    rw [hkey, instanceType_congr h.stays h.kept hkey]
  refine ⟨h.stays.trans h'.stays, h.kept.trans h'.kept, ?_, fun hpos e' he' => ?_⟩
  · refine (h.only.mono fun g hg => ?_).trans (h'.only.mono fun g hg => ?_)
    · obtain ⟨hpos, e', he', b, hb, hkey⟩ := hg
      rw [List.mem_singleton.mp he'] at hkey
      exact ⟨hpos, e, List.mem_cons_self, b, h'.kept.archetype g b hb, hkey⟩
    · obtain ⟨hpos, e', he', b, hb, hkey⟩ := hg
      exact ⟨hpos, e', List.mem_cons_of_mem e he', b, hb, (hsame e' he').symm.trans hkey⟩
  · rcases List.mem_cons.mp he' with rfl | he'
    · obtain ⟨g, b, hb, hkey, c, i, hin, hout⟩ := h.each hpos e' (List.mem_singleton_self e')
      exact ⟨g, b, h'.kept.archetype g b hb, hkey, c, i, h'.kept.holds g c i hin, hout⟩
    · obtain ⟨g, b, hb, hkey, c, i, hin, hout⟩ := h'.each hpos e' he'
      exact ⟨g, b, hb, (hsame e' he').symm.trans hkey, c, i, hin,
        fun hi => hout (h.kept.holds g c i hi)⟩

theorem size_instantiateMembers {es : List Entity}
    {members : List (List ChunkSlice × List Entity)}
    (hs : instantiateMembers ctx fuel n es w = some (w', members)) :
    w.ents.size ≤ w'.ents.size := by
  induction es generalizing w members with
  | nil =>
      obtain ⟨rfl, -⟩ := Prod.mk.inj (Option.some.inj hs)
      exact le_rfl
  | cons e es ih =>
      simp only [World.instantiateMembers, Option.bind_eq_bind, Option.bind_eq_some_iff] at hs
      obtain ⟨⟨w₁, ss⟩, hsingle, ⟨w₂, rest⟩, hrest, hs⟩ := hs
      obtain ⟨rfl, -⟩ := Prod.mk.inj (Option.some.inj hs)
      exact (size_instantiateSingle hsingle).trans (ih hrest)

theorem copies_members {es : List Entity} {members : List (List ChunkSlice × List Entity)}
    (hwf : w.store.Wf ctx) (hpop : Entities.Poppable w.ents)
    (hall : ∀ e ∈ es, ∃ key, w.instanceType ctx e = some key)
    (hs : instantiateMembers ctx fuel n es w = some (w', members)) (hsize : w'.ents.size < 2 ^ 24) :
    Copies ctx n es w w' := by
  induction es generalizing w members with
  | nil =>
      obtain ⟨rfl, -⟩ := Prod.mk.inj (Option.some.inj hs)
      exact ⟨.of_eq hpop rfl, .refl _, .refl hwf, fun _ e he => absurd he List.not_mem_nil⟩
  | cons e es ih =>
      simp only [World.instantiateMembers, Option.bind_eq_bind, Option.bind_eq_some_iff] at hs
      obtain ⟨⟨w₁, ss⟩, hsingle, ⟨w₂, rest⟩, hrest, hs⟩ := hs
      obtain ⟨rfl, -⟩ := Prod.mk.inj (Option.some.inj hs)
      have hle : w₁.ents.size ≤ w₂.ents.size := size_instantiateMembers hrest
      have h₁ := copies_single hwf hpop hsingle (hle.trans_lt hsize)
      refine h₁.cons (ih h₁.only.wf h₁.stays.poppable (fun e' he' => ?_) hrest) fun e' he' =>
        hall e' (List.mem_cons_of_mem e he')
      obtain ⟨key, hkey⟩ := hall e' (List.mem_cons_of_mem e he')
      exact ⟨key, instanceType_congr h₁.stays h₁.kept hkey⟩

/-- Patching leaves the entities where they are; a patched one is somewhere. -/
theorem patched_somewhere {es : List Entity} {p : Memory.Patcher}
    (hs : es.foldlM (fun w e => w.patchEntity ctx e p) w = some w') :
    w'.store = w.store ∧ w'.ents = w.ents ∧ ∀ e ∈ es, ∃ key, w.instanceType ctx e = some key := by
  induction es generalizing w with
  | nil =>
      simp only [List.foldlM_nil, Option.pure_def, Option.some.injEq] at hs
      exact ⟨hs ▸ rfl, hs ▸ rfl, fun e he => absurd he List.not_mem_nil⟩
  | cons e es ih =>
      simp only [List.foldlM_cons, Option.bind_eq_bind, Option.bind_eq_some_iff] at hs
      obtain ⟨w₁, hpatch, hs⟩ := hs
      simp only [World.patchEntity, Option.bind_eq_bind, Option.bind_eq_some_iff] at hpatch
      obtain ⟨s, hslice, ⟨g, a⟩, harch, mm, -, hpatch⟩ := hpatch
      obtain rfl := Option.some.inj hpatch
      obtain ⟨hstore, hents, hall⟩ := ih hs
      refine ⟨hstore, hents, fun e' he' => ?_⟩
      rcases List.mem_cons.mp he' with rfl | he'
      · exact ⟨castedType ctx a {} true, by simp [instanceType, hslice, harch]⟩
      · exact hall e' he'

/-- `instantiate_group` makes instances of the flattened members. -/
theorem copies_group {c : ChunkId} {addr : Nat} (hwf : w.store.Wf ctx)
    (hpop : Entities.Poppable w.ents)
    (hs : w.instantiateGroup ctx fuel c addr n = some (w', ss)) (hsize : w'.ents.size < 2 ^ 24) :
    ∃ members, w.flattenGroup ctx fuel c addr = some members ∧ Copies ctx n members w w' := by
  simp only [World.instantiateGroup, Option.bind_eq_some_iff, World.instantiatePrefab,
    Option.bind_eq_bind] at hs
  obtain ⟨members, hflat, w₁, hto, ⟨w₂, ss'⟩, ⟨⟨w₃, table⟩, hmembers, w₄, hpatch, heq⟩, w₅, hback,
    hs⟩ := hs
  obtain ⟨rfl, -⟩ := Prod.mk.inj (Option.some.inj hs)
  obtain ⟨rfl, -⟩ := Prod.mk.inj (Option.some.inj heq)
  obtain ⟨hstore₁, hents₁, hall⟩ := patched_somewhere hto
  obtain ⟨hstore₅, hents₅, -⟩ := patched_somewhere hback
  have hpatched : w₄.store = w₃.store ∧ w₄.ents = w₃.ents :=
    foldlM_invariant (P := fun v => v.store = w₃.store ∧ v.ents = w₃.ents)
      (fun _ _ _ _ hp hv => ⟨(patchSlices_store hp).trans hv.1, (patchSlices_ents hp).trans hv.2⟩)
      hpatch ⟨rfl, rfl⟩
  have hsame : ∀ e, w₁.instanceType ctx e = w.instanceType ctx e := by
    intro e
    simp only [instanceType, World.asSlice, World.entrySlice, World.archetypeOf, hstore₁, hents₁]
  have hcopies : Copies ctx n members w₁ w₃ := by
    refine copies_members (hstore₁ ▸ hwf) (hents₁ ▸ hpop) (fun e he => ?_) hmembers ?_
    · rw [hsame e]
      exact hall e he
    · rwa [← hpatched.2, ← hents₅]
  refine ⟨members, hflat, ?_⟩
  obtain ⟨hstays, hkept, honly, heach⟩ := hcopies
  simp only [hsame] at honly heach
  rw [← hpatched.1, ← hstore₅, hstore₁] at hkept honly heach
  refine ⟨⟨?_, ?_, ?_⟩, hkept, honly, heach⟩
  · rw [hents₅, hpatched.2]
    exact hstays.poppable
  · rw [hents₅, hpatched.2, ← hents₁]
    exact hstays.size
  · rw [hents₅, hpatched.2, ← hents₁]
    exact hstays.datas

/-- Groups are read from the memory, the table and the archetypes of the chunks. -/
theorem flattenGroup_congr (hmem : w'.memory = w.memory) (hents : w'.ents = w.ents)
    (hct : w'.store.ct = w.store.ct) (harch : ∀ c, w'.archetypeOf c = w.archetypeOf c)
    (fuel : Nat) (c : ChunkId) (addr : Nat) :
    w'.flattenGroup ctx fuel c addr = w.flattenGroup ctx fuel c addr := by
  have hmember : ∀ c addr j, w'.groupMember c addr j = w.groupMember c addr j := by
    intro c addr j
    simp only [World.groupMember, hmem]
  have hsize : ∀ c addr, w'.groupSize c addr = w.groupSize c addr := by
    intro c addr
    simp only [World.groupSize, hmem]
  have hcomp : ∀ e t, w'.getComponentRo e t = w.getComponentRo e t := by
    intro e t
    simp only [World.getComponentRo, World.asSlice, World.entrySlice, World.sliceComponentRo,
      hents, hct, harch]
  induction fuel generalizing c addr with
  | zero => rfl
  | succ fuel ih => simp only [World.flattenGroup, hmember, hsize, hcomp, ih]

theorem size_instantiateGroup {c : ChunkId} {addr : Nat}
    (hs : w.instantiateGroup ctx fuel c addr n = some (w', ss)) :
    w.ents.size ≤ w'.ents.size := by
  simp only [World.instantiateGroup, Option.bind_eq_some_iff, World.instantiatePrefab,
    Option.bind_eq_bind] at hs
  obtain ⟨members, -, w₁, hto, ⟨w₂, ss'⟩, ⟨⟨w₃, table⟩, hmembers, w₄, hpatch, heq⟩, w₅, hback,
    hs⟩ := hs
  obtain ⟨rfl, -⟩ := Prod.mk.inj (Option.some.inj hs)
  obtain ⟨rfl, -⟩ := Prod.mk.inj (Option.some.inj heq)
  have hpatched : w₄.ents = w₃.ents :=
    foldlM_invariant (P := fun v => v.ents = w₃.ents)
      (fun _ _ _ _ hp hv => (patchSlices_ents hp).trans hv) hpatch rfl
  rw [(patched_somewhere hback).2.1, hpatched, ← (patched_somewhere hto).2.1]
  exact size_instantiateMembers hmembers

/-- The type of an entity. -/
def ownType (w : World) (e : Entity) : Option EntityType := do
  let s ← w.asSlice e
  let (_, a) ← w.archetypeOf s.c
  some a.type

end World

namespace Pipeline

variable {ctx : Context} {p p' : Pipeline} {log : SyncLog} {g : ArchetypeId} {a : Archetype}
  {s : ChunkSlice} {ss : List ChunkSlice} {fuel n : Nat}

/-- All archetypes that entities came to or left were waited for. -/
def Awaits (p p' : Pipeline) (log : SyncLog) : Prop :=
  ∀ g, p.world.store.Touches p'.world.store g → g ∈ log.archetypes

/-! ## What is waited for -/

/-- For each of the entities, its archetype and the one of its instances were waited for. -/
structure Synced (ctx : Context) (es : List Entity) (p p' : Pipeline) (log : SyncLog) : Prop where
  wf : p'.world.store.Wf ctx
  extended : Store.Extended p.world.store p'.world.store
  renewed : Store.Renewed p.world.store p'.world.store
  ents : p'.world.ents = p.world.ents
  memory : p'.world.memory = p.world.memory
  each : ∀ e ∈ es, ∃ g a h b, g ∈ log.archetypes ∧ p'.world.store.archetype g = some a ∧
    p.world.ownType e = some a.type ∧ h ∈ log.archetypes ∧
    p'.world.store.archetype h = some b ∧ p.world.instanceType ctx e = some b.type
  only : ∀ h ∈ log.archetypes, ∃ e ∈ es, ∃ b, p'.world.store.archetype h = some b ∧
    (p.world.ownType e = some b.type ∨ p.world.instanceType ctx e = some b.type)

theorem syncInstance_synced {e : Entity} (hwf : p.world.store.Wf ctx)
    (hs : p.syncInstance ctx e = some (p', log)) : Synced ctx [e] p p' log := by
  simp only [Pipeline.syncInstance, Option.bind_eq_bind, Option.bind_eq_some_iff] at hs
  obtain ⟨g, hg, ⟨p₁, log₁⟩, hsync₁, a, ha, ⟨w, target⟩, hcasted, ⟨p₂, log₂⟩, hsync₂, hs⟩ := hs
  obtain ⟨rfl, rfl⟩ := Prod.mk.inj (Option.some.inj hs)
  obtain ⟨g₁, a₁, entries₁, hg₁, -, -, rfl, -, rfl⟩ := syncArchetype_spec hsync₁
  obtain ⟨h, b₀, entries₂, rfl, -, -, rfl, -, rfl⟩ := syncArchetype_spec hsync₂
  obtain rfl := Option.some.inj hg₁
  rcases World.getCasted_cases hcasted with ⟨hnone, -, -⟩ | ⟨h', hsome, hgot, -⟩
  · simp at hnone
  · obtain rfl := Option.some.inj hsome
    obtain ⟨st, hget, rfl⟩ := World.getArchetype_eq_some hgot
    obtain ⟨hwf', hext, b, hb, hkey⟩ := hwf.getArchetype hget
    -- the entity is in a chunk of its archetype
    have hplace : ∃ t : ChunkSlice, p.world.asSlice e = some t ∧
        p.world.archetypeOf t.c = some (g, a) := by
      simp only [Store.archetypeIdOf] at hg
      split_ifs at hg with hexist
      split at hg
      · rename_i c hc
        simp only [Entities.exist, Bool.and_eq_true, decide_eq_true_eq] at hexist
        refine ⟨{ c := c, start := (p.world.ents.datas e.id).i, count := 1 }, ?_,
          World.archetypeOf_eq_some.mpr ⟨hg, ha⟩⟩
        simp only [World.asSlice, World.entrySlice, if_pos hexist.1, hc]
      · simp at hg
    obtain ⟨t, hslice, harch⟩ := hplace
    have hown : p.world.ownType e = some a.type := by simp [World.ownType, hslice, harch]
    have hinst : p.world.instanceType ctx e = some b.type := by
      simp [World.instanceType, hslice, harch, hkey]
    have ha' : st.archetype g = some a := hext.archetype g a ha
    refine ⟨hwf', hext, Store.renewed_getArchetype hget, rfl, rfl, fun e' he' => ?_,
      fun k hk => ?_⟩
    · rw [List.mem_singleton.mp he']
      exact ⟨g, a, h, b, by simp [SyncLog.append], ha', hown, by simp [SyncLog.append], hb, hinst⟩
    · have hk' : k = g ∨ k = h := by simpa [SyncLog.append] using hk
      rcases hk' with rfl | rfl
      · exact ⟨e, List.mem_singleton_self e, a, ha', Or.inl hown⟩
      · exact ⟨e, List.mem_singleton_self e, b, hb, Or.inr hinst⟩

/-- Chunks have the archetypes they had. -/
theorem Synced.archetypeOf {es : List Entity} (h : Synced ctx es p p' log)
    (hwf : p.world.store.Wf ctx) (c : ChunkId) :
    p'.world.archetypeOf c = p.world.archetypeOf c := by
  apply Option.ext
  rintro ⟨g, a⟩
  rw [World.archetypeOf_eq_some, World.archetypeOf_eq_some, h.extended.type]
  refine and_congr_right fun hc => ⟨fun ha => ?_, h.extended.archetype g a⟩
  exact h.renewed.older g (hwf.known c g hc) a ha

/-- Entities have the types they had. -/
theorem Synced.types {es : List Entity} (h : Synced ctx es p p' log)
    (hwf : p.world.store.Wf ctx) (e : Entity) :
    p'.world.instanceType ctx e = p.world.instanceType ctx e ∧
      p'.world.ownType e = p.world.ownType e := by
  simp only [World.instanceType, World.ownType, World.asSlice, World.entrySlice, h.ents,
    h.archetypeOf hwf]
  trivial

theorem syncInstances_synced {es : List Entity} (hwf : p.world.store.Wf ctx)
    (hs : syncInstances ctx es p = some (p', log)) : Synced ctx es p p' log := by
  induction es generalizing p log with
  | nil =>
      obtain ⟨rfl, rfl⟩ := Prod.mk.inj (Option.some.inj hs)
      exact ⟨hwf, ⟨rfl, rfl, rfl, rfl, fun _ _ => id⟩, .refl _, rfl, rfl,
        fun e he => absurd he List.not_mem_nil, fun h hh => absurd hh List.not_mem_nil⟩
  | cons e es ih =>
      simp only [Pipeline.syncInstances, Option.bind_eq_bind, Option.bind_eq_some_iff] at hs
      obtain ⟨⟨p₁, log₁⟩, hsync, ⟨p₂, log₂⟩, hrest, hs⟩ := hs
      obtain ⟨rfl, rfl⟩ := Prod.mk.inj (Option.some.inj hs)
      have h₁ := syncInstance_synced hwf hsync
      have h₂ := ih h₁.wf hrest
      have hold := h₂.extended.archetype
      refine ⟨h₂.wf, h₁.extended.trans h₂.extended, h₁.renewed.trans h₂.renewed,
        h₂.ents.trans h₁.ents, h₂.memory.trans h₁.memory, fun e' he' => ?_, fun h hh => ?_⟩
      · rcases List.mem_cons.mp he' with rfl | he'
        · obtain ⟨g, a, h, b, hg, ha, hown, hh, hb, hinst⟩ := h₁.each e' (List.mem_singleton_self e')
          exact ⟨g, a, h, b, List.mem_append_left _ hg, hold g a ha, hown,
            List.mem_append_left _ hh, hold h b hb, hinst⟩
        · obtain ⟨g, a, h, b, hg, ha, hown, hh, hb, hinst⟩ := h₂.each e' he'
          obtain ⟨hinst', hown'⟩ := h₁.types hwf e'
          exact ⟨g, a, h, b, List.mem_append_right _ hg, ha, hown' ▸ hown,
            List.mem_append_right _ hh, hb, hinst' ▸ hinst⟩
      · rcases List.mem_append.mp hh with hh | hh
        · obtain ⟨e', he', b, hb, htype⟩ := h₁.only h hh
          rw [List.mem_singleton.mp he'] at htype
          exact ⟨e, List.mem_cons_self, b, hold h b hb, htype⟩
        · obtain ⟨e', he', b, hb, htype⟩ := h₂.only h hh
          obtain ⟨hinst', hown'⟩ := h₁.types hwf e'
          rw [hinst', hown'] at htype
          exact ⟨e', List.mem_cons_of_mem e he', b, hb, htype⟩

/-! ## The calls -/

/-- The slices of a call are valid. -/
def Call.Valid (p : Pipeline) : Call → Prop
  | .destroy s => p.world.ValidSlice s
  | .cast s _ => p.world.ValidSlice s
  | .castTo s _ => p.world.ValidSlice s
  | _ => True

/-- The call does not destroy members of groups. -/
def Call.Memberless (ctx : Context) (p : Pipeline) : Call → Prop
  | .destroy s => p.world.Memberless ctx s
  | _ => True

/-- What is destroyed leaves no dead behind, and has no members. Every member of a group
that is instantiated goes where a direct member, or its instances, are. -/
def Call.Foreseen (ctx : Context) (fuel : Nat) (p : Pipeline) : Call → Prop
  | .destroy s => p.world.Memberless ctx s ∧ ∀ g a, p.world.archetypeOf s.c = some (g, a) →
      a.cleaning = true ∨ World.leavesDead ctx a = false
  | .instantiate src count => ∀ c addr direct members,
      p.world.getComponentRo src ctx.groupId = some (some (c, addr)) →
      (List.range (p.world.groupSize c addr)).mapM (p.world.groupMember c addr) = some direct →
      p.world.flattenGroup ctx fuel c addr = some members → 0 < count →
      ∀ e ∈ members, ∃ e' ∈ direct, ∃ key, p.world.instanceType ctx e = some key ∧
        (p.world.ownType e' = some key ∨ p.world.instanceType ctx e' = some key)
  | _ => True

theorem awaits_allocateIn (hwf : p.world.store.Wf ctx)
    (hs : p.allocateIn ctx fuel g n = some (p', ss, log)) :
    log.archetypes = [g] ∧ Store.Touching ctx (· = g) p.world.store p'.world.store := by
  simp only [Pipeline.allocateIn, Option.bind_eq_bind, Option.bind_eq_some_iff] at hs
  obtain ⟨⟨p₁, log₁⟩, hsync, ⟨w, ss'⟩, hloop, hs⟩ := hs
  obtain ⟨g', a, entries, hg, -, ha, rfl, -, rfl⟩ := syncArchetype_spec hsync
  obtain rfl := Option.some.inj hg
  simp only [Option.some.injEq, Prod.mk.injEq] at hs
  obtain ⟨rfl, -, rfl⟩ := hs
  exact ⟨rfl, World.touching_allocateLoop hwf ha hloop⟩

theorem awaits_allocate {type : EntityType} (hwf : p.world.store.Wf ctx)
    (hs : p.allocate ctx fuel type n = some (p', ss, log)) : Awaits p p' log := by
  simp only [Pipeline.allocate, Option.bind_eq_bind, Option.bind_eq_some_iff] at hs
  obtain ⟨⟨w, g⟩, hgot, hs⟩ := hs
  obtain ⟨st, hget, rfl⟩ := World.getArchetype_eq_some hgot
  obtain ⟨hwf₁, hext, -⟩ := hwf.getArchetype hget
  obtain ⟨hlog, htouch⟩ :=
    awaits_allocateIn (p := p.withWorld { p.world with store := st }) hwf₁ hs
  have hall := (Store.Touching.of_same hwf₁ hext.type hext.count).trans htouch
  intro h hh
  rw [hlog, List.mem_singleton]
  exact hall.touched hh

theorem awaits_castTo (hctx : ctx.Paired) (hwf : p.world.store.Wf ctx)
    (hv : p.world.ValidSlice s) {target : Option ArchetypeId}
    (hs : p.castTo ctx fuel s target = some (p', ss, log)) : Awaits p p' log := by
  simp only [Pipeline.castTo, Option.bind_eq_bind, Option.bind_eq_some_iff] at hs
  obtain ⟨⟨p₁, log₁⟩, hsync₁, ⟨p₂, log₂⟩, hsync₂, ⟨w, ss'⟩, hcast, hs⟩ := hs
  obtain ⟨srcG, a, entries₁, hsrc, -, -, rfl, -, rfl⟩ := syncArchetype_spec hsync₁
  obtain ⟨g, b, entries₂, rfl, -, -, rfl, -, rfl⟩ := syncArchetype_spec hsync₂
  simp only [Option.some.injEq, Prod.mk.injEq] at hs
  obtain ⟨rfl, -, rfl⟩ := hs
  have htouch := World.touching_castTo hctx hwf hv hsrc hcast
  intro h hh
  have hmem := htouch.touched hh
  simpa [SyncLog.append] using hmem

theorem awaits_cast (hctx : ctx.Paired) (hwf : p.world.store.Wf ctx)
    (hv : p.world.ValidSlice s) {diff : TypeDiff}
    (hs : p.cast ctx fuel s diff = some (p', ss, log)) : Awaits p p' log := by
  simp only [Pipeline.cast, Option.bind_eq_bind, Option.bind_eq_some_iff] at hs
  obtain ⟨⟨g, a⟩, -, ⟨w, target⟩, hcasted, hs⟩ := hs
  rcases World.getCasted_cases hcasted with ⟨rfl, rfl, -⟩ | ⟨g', rfl, hgot, -⟩
  · exact awaits_castTo (p := p.withWorld p.world) hctx hwf hv hs
  · obtain ⟨st, hget, rfl⟩ := World.getArchetype_eq_some hgot
    obtain ⟨hwf₁, hext, -⟩ := hwf.getArchetype hget
    have hv₁ : World.ValidSlice { p.world with store := st } s := hv.extend hext
    have hcast := awaits_castTo (p := p.withWorld { p.world with store := st }) hctx hwf₁ hv₁ hs
    intro h hh
    obtain ⟨c, i, hne⟩ := hh
    refine hcast h ⟨c, i, fun hiff => hne (hiff.trans ?_)⟩
    change st.Holds h c i ↔ p.world.store.Holds h c i
    rw [Store.Holds, Store.Holds, hext.type, hext.count]

/-- A `destroy` waits for what it touches, unless it leaves dead ones behind. -/
theorem awaits_destroy (hctx : ctx.Built) (hwf : p.world.store.Wf ctx)
    (hv : p.world.ValidSlice s) (hm : p.world.Memberless ctx s)
    (hs : p.destroy ctx fuel s = some (p', log)) :
    Awaits p p' log ↔ ∀ g a, p.world.archetypeOf s.c = some (g, a) →
      a.cleaning = true ∨ World.leavesDead ctx a = false := by
  simp only [Pipeline.destroy, Option.bind_eq_bind, Option.bind_eq_some_iff] at hs
  obtain ⟨⟨p₁, log₁⟩, hsync, w, hdestroy, hs⟩ := hs
  obtain ⟨g, a, entries, hc, -, ha, rfl, -, rfl⟩ := syncArchetype_spec hsync
  simp only [Option.some.injEq, Prod.mk.injEq] at hs
  obtain ⟨rfl, rfl⟩ := hs
  have harch : p.world.archetypeOf s.c = some (g, a) := World.archetypeOf_eq_some.mpr ⟨hc, ha⟩
  cases fuel with
  | zero => simp [World.destroy] at hdestroy
  | succ fuel =>
      have hsingle := World.destroy_memberless hm hdestroy
      have hiff := World.touched_destroySingle hctx hwf hv harch hsingle
      constructor
      · intro hawaits g' a' harch'
        obtain ⟨rfl, rfl⟩ := Prod.mk.inj (Option.some.inj (harch'.symm.trans harch))
        exact hiff.mp fun h hh => List.mem_singleton.mp (hawaits h hh)
      · intro hdead h hh
        exact List.mem_singleton.mpr (hiff.mpr (hdead g a harch) h hh)

/-- Instances are made where the entities that were waited for are, or their instances. -/
theorem awaits_copies {p₁ : Pipeline} {w : World} {es members : List Entity}
    (hwf : p.world.store.Wf ctx) (hsync : Synced ctx es p p₁ log)
    (hcopy : World.Copies ctx n members p₁.world w) (hknown : w.store.Known) :
    Awaits p (p₁.withWorld w) log ↔ (0 < n → ∀ e ∈ members, ∃ e' ∈ es, ∃ key,
      p.world.instanceType ctx e = some key ∧
        (p.world.ownType e' = some key ∨ p.world.instanceType ctx e' = some key)) := by
  have hholds : ∀ g c i, p₁.world.store.Holds g c i ↔ p.world.store.Holds g c i := by
    intro g c i
    rw [Store.Holds, Store.Holds, hsync.extended.type, hsync.extended.count]
  constructor
  · intro hawaits hpos e he
    obtain ⟨g, b, hb, hinst, c, i, hin, hout⟩ := hcopy.each hpos e he
    have hmem := hawaits g ⟨c, i, fun hiff => hout ((hholds g c i).mpr (hiff.mp hin))⟩
    obtain ⟨e', he', b', hb', htype⟩ := hsync.only g hmem
    obtain rfl : b' = b := Option.some.inj ((hcopy.kept.archetype g b' hb').symm.trans hb)
    exact ⟨e', he', b'.type, (hsync.types hwf e).1 ▸ hinst, htype⟩
  · rintro hforeseen g ⟨c, i, hne⟩
    obtain ⟨hpos, e, he, b, hb, hinst⟩ := hcopy.only.touched
      ⟨c, i, fun hiff => hne (hiff.trans (hholds g c i))⟩
    obtain ⟨e', he', key, hkey, htype⟩ := hforeseen hpos e he
    rw [(hsync.types hwf e).1, hkey, Option.some.injEq] at hinst
    obtain ⟨g₁, a₁, g₂, a₂, hg₁, ha₁, hown, hg₂, ha₂, hinst'⟩ := hsync.each e' he'
    have hsame : ∀ k d, p₁.world.store.archetype k = some d → d.type = key → k = g :=
      fun k d hd hk => hknown.distinct k g d b (hcopy.kept.archetype k d hd) hb (hk.trans hinst)
    rcases htype with htype | htype
    · rw [hown, Option.some.injEq] at htype
      exact hsame g₁ a₁ ha₁ htype ▸ hg₁
    · rw [hinst', Option.some.injEq] at htype
      exact hsame g₂ a₂ ha₂ htype ▸ hg₂

/-- An `instantiate` waits for what it touches, unless a nested group has a member of
another type. -/
theorem awaits_instantiate {src : Entity} (h : p.Hooked) (hwf : p.world.store.Wf ctx)
    (htracks : p.world.ents.size < 2 ^ 24 → Entities.Poppable p.world.ents)
    (hs : p.instantiate ctx fuel src n = some (p', ss, log)) (hsize : p'.world.ents.size < 2 ^ 24) :
    Awaits p p' log ↔ (Call.instantiate src n).Foreseen ctx fuel p := by
  simp only [Pipeline.instantiate, Option.bind_eq_bind, Option.bind_eq_some_iff] at hs
  obtain ⟨group, hgroup, hs⟩ := hs
  cases group with
  | none =>
      simp only [Option.bind_eq_some_iff] at hs
      obtain ⟨⟨p₁, log₁⟩, hsync, ⟨w, ss'⟩, hrun, hs⟩ := hs
      simp only [Option.some.injEq, Prod.mk.injEq] at hs
      obtain ⟨rfl, -, rfl⟩ := hs
      have hsynced := syncInstance_synced hwf hsync
      have hle : p.world.ents.size ≤ w.ents.size :=
        hsynced.ents ▸ World.size_instantiateSingle hrun
      have hcopy := World.copies_single hsynced.wf
        (hsynced.ents.symm ▸ htracks (hle.trans_lt hsize)) hrun hsize
      have hknown := ((Store.grows_renewed ctx _).instantiateSingle (Store.Renewed.refl _) hrun).known
        (h.syncInstance hsync).known
      refine iff_of_true ((awaits_copies hwf hsynced hcopy hknown).mpr fun _ e he => ?_)
        fun c addr direct members hsome => ?_
      · obtain ⟨g, a, k, b, -, -, -, -, -, hinst⟩ := hsynced.each e he
        exact ⟨e, he, b.type, hinst, Or.inr hinst⟩
      · rw [hgroup] at hsome
        simp at hsome
  | some place =>
      obtain ⟨c, addr⟩ := place
      simp only [Option.bind_eq_some_iff] at hs
      obtain ⟨direct, hdirect, ⟨p₁, log₁⟩, hsync, ⟨w, ss'⟩, hrun, hs⟩ := hs
      simp only [Option.some.injEq, Prod.mk.injEq] at hs
      obtain ⟨rfl, -, rfl⟩ := hs
      have hsynced := syncInstances_synced hwf hsync
      have hle : p.world.ents.size ≤ w.ents.size :=
        hsynced.ents ▸ World.size_instantiateGroup hrun
      obtain ⟨members, hflat, hcopy⟩ := World.copies_group hsynced.wf
        (hsynced.ents.symm ▸ htracks (hle.trans_lt hsize)) hrun hsize
      have hknown := ((Store.grows_renewed ctx _).instantiateGroup (Store.Renewed.refl _) hrun).known
        (h.syncInstances hsync).known
      rw [awaits_copies hwf hsynced hcopy hknown]
      have hflat' : p.world.flattenGroup ctx fuel c addr = some members := by
        rw [← hflat]
        exact (World.flattenGroup_congr hsynced.memory hsynced.ents hsynced.extended.ct
          (hsynced.archetypeOf hwf) fuel c addr).symm
      constructor
      · intro hall c' addr' direct' members' hsome hdirect' hmembers' hpos e he
        rw [hgroup, Option.some.injEq, Option.some.injEq, Prod.mk.injEq] at hsome
        obtain ⟨rfl, rfl⟩ := hsome
        obtain rfl := Option.some.inj (hdirect'.symm.trans hdirect)
        obtain rfl := Option.some.inj (hmembers'.symm.trans hflat')
        exact hall hpos e he
      · intro hforeseen hpos e he
        exact hforeseen c addr direct members hgroup hdirect hflat' hpos e he

/-- A call waits for all archetypes it touches when they are foreseen, and, leaving members
of destroyed groups aside, only then. -/
theorem awaits_iff {c : Call} (hctx : ctx.Built) (h : Reached ctx p)
    (hw : World.Sound ctx World.nowhere p.world) (hv : c.Valid p)
    (hs : c.run ctx fuel p = some (p', log)) (hsize : p'.world.ents.size < 2 ^ 24) :
    (c.Foreseen ctx fuel p → Awaits p p' log) ∧
      (c.Memberless ctx p → Awaits p p' log → c.Foreseen ctx fuel p) := by
  have hooked := hooked_of_reached h
  cases c with
  | allocate type count =>
      obtain ⟨⟨_, ss, _⟩, hrun, heq⟩ := Option.map_eq_some_iff.mp hs
      obtain ⟨rfl, rfl⟩ := Prod.mk.inj heq
      exact ⟨fun _ => awaits_allocate hw.wf hrun, fun _ _ => trivial⟩
  | allocateIn g count =>
      obtain ⟨⟨_, ss, _⟩, hrun, heq⟩ := Option.map_eq_some_iff.mp hs
      obtain ⟨rfl, rfl⟩ := Prod.mk.inj heq
      obtain ⟨hlog, htouch⟩ := awaits_allocateIn hw.wf hrun
      refine ⟨fun _ k hk => ?_, fun _ _ => trivial⟩
      rw [hlog, List.mem_singleton]
      exact htouch.touched hk
  | instantiate src count =>
      obtain ⟨⟨_, ss, _⟩, hrun, heq⟩ := Option.map_eq_some_iff.mp hs
      obtain ⟨rfl, rfl⟩ := Prod.mk.inj heq
      have hiff := awaits_instantiate hooked hw.wf
        (fun hlt => (hw.tracks hlt).poppable hlt) hrun hsize
      exact ⟨hiff.mpr, fun _ => hiff.mp⟩
  | destroy s =>
      refine ⟨fun hf => (awaits_destroy hctx hw.wf hv hf.1 hs).mpr hf.2, fun hm hawaits => ?_⟩
      exact ⟨hm, (awaits_destroy hctx hw.wf hv hm hs).mp hawaits⟩
  | cast s diff =>
      obtain ⟨⟨_, ss, _⟩, hrun, heq⟩ := Option.map_eq_some_iff.mp hs
      obtain ⟨rfl, rfl⟩ := Prod.mk.inj heq
      exact ⟨fun _ => awaits_cast hctx.paired hw.wf hv hrun, fun _ _ => trivial⟩
  | castTo s g =>
      obtain ⟨⟨_, ss, _⟩, hrun, heq⟩ := Option.map_eq_some_iff.mp hs
      obtain ⟨rfl, rfl⟩ := Prod.mk.inj heq
      exact ⟨fun _ => awaits_castTo hctx.paired hw.wf hv hrun, fun _ _ => trivial⟩

/-- The first entity of the first chunk. -/
def firstEntity : ChunkSlice := { c := 0, start := 0, count := 1 }

theorem sound_allocated {type : EntityType} (hctx : ctx.Built) {w : World}
    (hs : runAll ctx 4 World.blank [.allocate type 1] = some w) :
    World.Sound ctx World.nowhere w := by
  have hrun : Op.run ctx 4 World.blank (.allocate type 1) = some w := by
    simpa [runAll] using hs
  have hv : (Op.allocate type 1).Valid World.blank := trivial
  have hgroup : (Op.allocate type 1).NoGroup ctx World.blank := trivial
  have hclear : (Op.allocate type 1).ClearOfHandles ctx World.blank := trivial
  exact (World.sound_initial ctx _ _ _ _).step hctx hv hgroup hclear hrun

/-- An entity without tracked components is destroyed. -/
theorem awaits_untracked : ∃ w p' log,
    runAll World.tracked 4 World.blank [.allocate { types := [5] } 1] = some w ∧
    (Call.destroy firstEntity).run World.tracked 4 (onWorld w) = some (p', log) ∧
    Awaits (onWorld w) p' log := by
  have hsome : ((runAll World.tracked 4 World.blank [.allocate { types := [5] } 1]).bind fun w =>
      ((Call.destroy firstEntity).run World.tracked 4 (onWorld w)).bind fun r =>
        (w.archetypeOf 0).map fun q => ([w.store.count 0, r.1.world.ents.size,
          q.2.index World.tracked.groupId], w.store.type 0,
          World.leavesDead World.tracked q.2)) =
      some ([1, 1, invalidIndex], some 0, false) := by decide +kernel
  obtain ⟨w, hw, hsome⟩ := Option.bind_eq_some_iff.mp hsome
  obtain ⟨⟨p', log⟩, hrun, hsome⟩ := Option.bind_eq_some_iff.mp hsome
  obtain ⟨⟨g, a⟩, harch, hfacts⟩ := Option.map_eq_some_iff.mp hsome
  simp only [Prod.mk.injEq, List.cons.injEq, and_true] at hfacts
  obtain ⟨⟨hcount, hsize, hgroup⟩, htype, hdead⟩ := hfacts
  have hsame : ∀ {g' a'}, w.archetypeOf 0 = some (g', a') → a' = a := fun h' =>
    (Prod.mk.inj (Option.some.inj (h'.symm.trans harch))).2
  have hv : (Call.destroy firstEntity).Valid (onWorld w) :=
    ⟨by simp [onWorld, initial, firstEntity, htype], by simp [firstEntity],
      by simp [onWorld, initial, firstEntity, hcount]⟩
  refine ⟨w, p', log, hw, hrun, (awaits_iff (p := onWorld w) World.built_tracked
    (reached_onWorld (World.known_runAll (World.known_initial _ _ _ _) hw))
    (sound_allocated World.built_tracked hw) hv hrun (by omega)).1 ⟨?_, ?_⟩⟩
  · intro g' a' h'
    exact Or.inl (hsame h' ▸ hgroup)
  · intro g' a' h'
    exact Or.inr (hsame h' ▸ hdead)

/-- The archetype of the dead is not waited for. -/
theorem not_awaits_dead : ∃ w p' log,
    runAll World.tracked 4 World.blank [.allocate { types := [4] } 1] = some w ∧
    Reached World.tracked (onWorld w) ∧ World.Sound World.tracked World.nowhere w ∧
    (Call.destroy firstEntity).Valid (onWorld w) ∧
    (Call.destroy firstEntity).run World.tracked 4 (onWorld w) = some (p', log) ∧
    log.archetypes = [0] ∧ p'.world.store.type 1 = some 1 ∧ ¬ Awaits (onWorld w) p' log := by
  have hsome : ((runAll World.tracked 4 World.blank [.allocate { types := [4] } 1]).bind fun w =>
      ((Call.destroy firstEntity).run World.tracked 4 (onWorld w)).map fun r =>
        ([w.store.type 0, w.store.type 1, r.1.world.store.type 1],
          w.store.count 0 :: r.1.world.store.count 1 :: r.2.archetypes)) =
      some ([some 0, none, some 1], [1, 1, 0]) := by decide +kernel
  obtain ⟨w, hw, hsome⟩ := Option.bind_eq_some_iff.mp hsome
  obtain ⟨⟨p', log⟩, hrun, hfacts⟩ := Option.map_eq_some_iff.mp hsome
  simp only [Prod.mk.injEq, List.cons.injEq, and_true] at hfacts
  obtain ⟨⟨htype, hnone, htype₁⟩, hcount, hcount₁, hlog⟩ := hfacts
  refine ⟨w, p', log, hw, reached_onWorld (World.known_runAll (World.known_initial _ _ _ _) hw),
    sound_allocated World.built_tracked hw,
    ⟨by simp [onWorld, initial, firstEntity, htype], by simp [firstEntity],
      by simp [onWorld, initial, firstEntity, hcount]⟩, hrun, hlog, htype₁, fun hawaits => ?_⟩
  have hmem := hawaits 1 ⟨1, 0, fun hiff => ?_⟩
  · rw [hlog] at hmem
    simp at hmem
  · have hold := (hiff.mp ⟨htype₁, by omega⟩).1
    change w.store.type 1 = some 1 at hold
    rw [hnone] at hold
    simp at hold

end Pipeline

end Dots

import Dots.Database.Directory
import Dots.Database.FreeIds
import Dots.Database.Instances
import Dots.Library.Rows

/-!
# Where the entities stand

A chunk is a row. `destroy` of one entity puts the last one of the chunk into its slot, unless
they are dead already: these stay where they are.
-/

namespace Dots

open Library Entities

namespace World

variable {ctx : Context} {w w₁ w' : World} {g g' srcG h : ArchetypeId} {a b srcA : Archetype}
  {c d : ChunkId} {i j fuel : Nat} {e x : Entity} {es ys : List Entity}

/-- The chunks as rows. -/
def rows (w : World) : Rows ChunkId Entity where
  place e := (w.asSlice e).map fun s => (s.c, s.start)
  length := w.store.count
  stays e := ((w.asSlice e).bind fun s => w.archetypeOf s.c).any fun p => p.2.cleaning

theorem place_rows (hsize : w.ents.size < 2 ^ 24) (hf : w.Found e c i) :
    w.rows.place e = some (c, i) := by
  simp only [rows, asSlice_of_at (hf.entry hsize), Option.map_some]

theorem stays_rows (hsize : w.ents.size < 2 ^ 24) (hf : w.Found e c i)
    (harch : w.archetypeOf c = some (g, a)) : w.rows.stays e = a.cleaning := by
  simp only [rows, asSlice_of_at (hf.entry hsize), Option.bind_some, harch, Option.any_some]

theorem Found.unique (hsize : w.ents.size < 2 ^ 24) (hf : w.Found e c i) (hf' : w.Found e d j) :
    c = d ∧ i = j := by
  obtain ⟨hc, hi⟩ := Prod.mk.inj (Option.some.inj ((place_rows hsize hf).symm.trans
    (place_rows hsize hf')))
  exact ⟨hc, hi⟩

/-! ## A slot is closed -/

/-- The slot of one entity. -/
abbrev single (c : ChunkId) (i : Nat) : ChunkSlice := { c := c, start := i, count := 1 }

/-- Where what is in slot `j` of chunk `d` goes when slot `i` of chunk `c` is closed. -/
def closedAt (w : World) (c : ChunkId) (i : Nat) (d : ChunkId) (j : Nat) : Nat :=
  if d = c ∧ j = w.store.count c - 1 then i else j

/-- What was in slot `j` of chunk `d` when slot `i` of chunk `c` was closed. Chunks of dead
entities may have grown. -/
structure Closed (w : World) (c : ChunkId) (i : Nat) (w' : World) (d : ChunkId) (j : Nat) :
    Prop where
  occupied : w'.store.Occupied d (w.closedAt c i d j)
  handle : w'.memory.entityAt d (w.closedAt c i d j) = w.memory.entityAt d j
  archetype : w'.archetypeOf d = w.archetypeOf d
  count : ∀ h b, w.archetypeOf d = some (h, b) → b.cleaning = false →
    w'.store.count d = if d = c then w.store.count c - 1 else w.store.count d

theorem Freed.count (hfreed : Freed w (single c i) g a w') (hj : w'.store.Occupied d j) :
    w'.store.count d = if d = c then w.store.count c - 1 else w.store.count d := by
  obtain ⟨hold, -⟩ := (hfreed.occupied d j).mp hj
  have hlt : ∀ m, m < w'.store.count d ↔
      m < w.store.count d ∧ (d = c → m < w.store.count c - 1) := by
    intro m
    have hiff := hfreed.occupied d m
    simpa only [Store.Occupied, hj.1, hold.1, ne_eq, not_false_eq_true, true_and] using hiff
  split_ifs with hd
  · subst hd
    have h₁ := hlt (w'.store.count d)
    have h₂ := hlt (w.store.count d - 1)
    simp only [forall_true_left] at h₁ h₂
    omega
  · have h₁ := hlt (w'.store.count d)
    have h₂ := hlt (w.store.count d)
    simp only [hd, false_implies, and_true] at h₁ h₂
    omega

theorem Freed.closed (hl : w.store.Listed ctx) (hfreed : Freed w (single c i) g a w')
    (harch : w.archetypeOf c = some (g, a)) (hlt : i < w.store.count c)
    (hj : w.store.Occupied d j) (hne : ¬ (d = c ∧ j = i)) : Closed w c i w' d j := by
  suffices h : w'.store.Occupied d (w.closedAt c i d j) ∧
      w'.memory.entityAt d (w.closedAt c i d j) = w.memory.entityAt d j ∧
      w'.archetypeOf d = w.archetypeOf d from
    ⟨h.1, h.2.1, h.2.2, fun _ _ _ _ => hfreed.count h.1⟩
  have htail : w.tailCount (single c i) = min 1 (w.store.count c - i - 1) := rfl
  have hstart : w.tailStart (single c i) =
      w.store.count c - min 1 (w.store.count c - i - 1) := rfl
  by_cases hlast : d = c ∧ j = w.store.count c - 1
  · -- the last one fills the slot
    obtain ⟨rfl, rfl⟩ := hlast
    have hne' : w.store.count d - 1 ≠ i := fun hi => hne ⟨rfl, hi⟩
    have hmove : w.tailCount (single d i) = 1 := by omega
    obtain ⟨hocc, harch', hhandle, -⟩ := hfreed.moves 0 (by omega)
    rw [show w.tailStart (single d i) + 0 = w.store.count d - 1 by omega] at hhandle
    rw [closedAt, if_pos ⟨rfl, rfl⟩]
    exact ⟨hocc, hhandle, harch'.trans harch.symm⟩
  · have hocc : w'.store.Occupied d j := (hfreed.occupied d j).mpr ⟨hj, fun hd => by
      have hlt' := hj.2
      subst hd
      have hne' : j ≠ w.store.count d - 1 := fun hj => hlast ⟨rfl, hj⟩
      dsimp only
      omega⟩
    obtain ⟨h, hd⟩ := Option.ne_none_iff_exists'.mp hj.1
    obtain ⟨b, hb⟩ := hl.alive d h hd
    have hold := archetypeOf_eq_some.mpr ⟨hd, hb⟩
    have hcar := hfreed.stays d j h b hold hocc (by
      rintro ⟨hdc, hlo, hhi⟩
      dsimp only at hdc hlo hhi
      exact hne ⟨hdc, by omega⟩)
    rw [closedAt, if_neg hlast]
    exact ⟨hocc, hcar.handle, hcar.after.trans hold.symm⟩

/-- The loop of `cast_slice` fills chunks of the target. -/
theorem counts_castLoop (hctx : ctx.Built) {src : ChunkSlice} {ss : List ChunkSlice}
    (h : Casting ctx src srcG g a 0 w) (hg : srcG ≠ g)
    (hs : World.castLoop ctx src g fuel 0 w = some (w', ss)) :
    (∀ d h, w.store.type d = some h → h ≠ g →
      w'.store.type d = some h ∧ w'.store.count d = w.store.count d) ∧
    w'.ents.size = w.ents.size := by
  have hm : ctx.maskId < 3 * 2 ^ 30 := by
    rw [hctx.ids.2.2.2]
    decide
  suffices hinv : ∃ k, src.count ≤ k ∧ Casting ctx src srcG g a k w' ∧
      (∀ d h, w.store.type d = some h → h ≠ g →
        w'.store.type d = some h ∧ w'.store.count d = w.store.count d) ∧
      w'.ents.size = w.ents.size from hinv.choose_spec.2.2
  apply castLoop_invariant (I := fun k v => Casting ctx src srcG g a k v ∧
    (∀ d h, w.store.type d = some h → h ≠ g →
      v.store.type d = some h ∧ v.store.count d = w.store.count d) ∧
    v.ents.size = w.ents.size) _ ⟨h, fun _ _ hd _ => ⟨hd, rfl⟩, rfl⟩ hs
  rintro v v₁ k s dst side mm ⟨hv, hcounts, hsize⟩ hlt halloc hdst - hcast
  obtain ⟨hturn, hnext⟩ := hv.turn hm hg hlt halloc hdst hcast
  refine ⟨hnext, fun d h hd hne => ?_, ?_⟩
  · obtain ⟨hold, hcount⟩ := hcounts d h hd hne
    refine ⟨?_, (count_of_allocated hturn.slots hold hne).trans hcount⟩
    exact (type_of_allocated hturn.slots (by
      rw [hold]
      exact Option.some_ne_none h)).trans hold
  · calc ({ v₁ with memory := mm }.moveEntities s src.c (src.start + k)).ents.size
      _ = v₁.ents.size := (shifted_moveEntities s.c s.start ({ v₁ with memory := mm }.handles
        { c := src.c, start := src.start + k, count := s.count }) v₁.ents).size
      _ = v.ents.size := congrArg Entities.size hturn.ents
      _ = w.ents.size := hsize

theorem freeSlice_size {s : ChunkSlice} (hs : w.freeSlice s = some w') :
    w'.ents.size = w.ents.size := by
  obtain ⟨g, a, st₁, w₂, st, -, -, -, rfl, -, rfl⟩ := freeSlice_spec hs
  exact (moveTail_store _ _ _).2

theorem closed_castSlice (hctx : ctx.Built) {ss : List ChunkSlice} (hw : Sound ctx nowhere w)
    (hl : w.store.Listed ctx) (hv : w.ValidSlice (single c i))
    (hsrc : w.archetypeOf c = some (srcG, srcA)) (ha : w.store.archetype g = some a)
    (hg : srcG ≠ g) (hclean : a.cleaning = true)
    (hs : World.castSlice ctx fuel w (single c i) g = some (w', ss)) :
    w'.ents.size = w.ents.size ∧
      ∀ d j, w.store.Occupied d j → ¬ (d = c ∧ j = i) → Closed w c i w' d j := by
  obtain ⟨srcG', srcA', w₁, hc, hsrcA, hloop, hfree⟩ := castSlice_spec hs
  obtain ⟨hc', hsrcA'⟩ := archetypeOf_eq_some.mp hsrc
  obtain rfl : srcG = srcG' := Option.some.inj (hc'.symm.trans hc)
  obtain rfl : srcA = srcA' := Option.some.inj (hsrcA'.symm.trans hsrcA)
  have hshape := w.castStart_shape srcG srcA (single c i)
  have hend := (Moving.start hl hv hsrc ha).castLoop hctx hg hloop
  obtain ⟨hcounts, hsize⟩ := counts_castLoop hctx (hw.casting hv ha hc srcG srcA) hg hloop
  obtain ⟨g₁, a₁, harch₁, hfreed⟩ := Freed.of_freeSlice hend.listed hv.pos hend.le hfree
  have hcount : w₁.store.count c = w.store.count c :=
    hend.count.trans (congrFun hshape.count c)
  refine ⟨(freeSlice_size hfree).trans hsize, fun d j hj hne => ?_⟩
  obtain ⟨h, hd⟩ := Option.ne_none_iff_exists'.mp hj.1
  obtain ⟨b, hb⟩ := hl.alive d h hd
  have hold := archetypeOf_eq_some.mpr ⟨hd, hb⟩
  obtain ⟨hj₁, hcar⟩ := hend.kept d j h b
    (archetypeOf_eq_some.mpr ⟨hshape.type ▸ hd, hshape.archetype ▸ hb⟩)
    ((occupied_congr hshape.type hshape.count d j).mpr hj)
  have hlt : i < w.store.count c := hv.le
  have hclosed := hfreed.closed hend.listed harch₁ (hcount ▸ hlt) hj₁ hne
  have hat : w₁.closedAt c i d j = w.closedAt c i d j := by simp only [closedAt, hcount]
  have harch : w'.archetypeOf d = w.archetypeOf d := calc
    w'.archetypeOf d = w₁.archetypeOf d := hclosed.archetype
    _ = some (h, b) := hcar.after
    _ = w.archetypeOf d := hold.symm
  refine ⟨hat ▸ hclosed.occupied, hat ▸ hclosed.handle.trans hcar.handle, harch,
    fun h' b' hb' hlive => ?_⟩
  obtain ⟨rfl, rfl⟩ := Prod.mk.inj (Option.some.inj (hold.symm.trans hb'))
  -- what is in `d` is not dead, so the chunk is none of the target
  have hne' : h ≠ g := by
    rintro rfl
    obtain rfl := Option.some.inj (hb.symm.trans ha)
    rw [hclean] at hlive
    exact Bool.noConfusion hlive
  have hsame : w₁.store.count d = w.store.count d := calc
    w₁.store.count d = _ := (hcounts d h (hshape.type ▸ hd) hne').2
    _ = w.store.count d := congrFun hshape.count d
  rw [hfreed.count hclosed.occupied, hcount, hsame]

/-- What `destroy` of the entity in slot `i` of chunk `c` does to the slots. -/
theorem closed_destroy (hctx : ctx.Built) (hw : Orderly ctx w) (hf : w.Found x c i)
    (hgroup : w.Memberless ctx (single c i)) (hs : w.destroy ctx fuel (single c i) = some w') :
    w'.ents.size = w.ents.size ∧ ∃ g a, w.archetypeOf c = some (g, a) ∧
      (a.cleaning = true ∧ w' = w ∨ a.cleaning = false ∧
        ∀ d j, w.store.Occupied d j → ¬ (d = c ∧ j = i) → Closed w c i w' d j) := by
  have hv : w.ValidSlice (single c i) := ⟨hf.occupied.1, Nat.one_pos, hf.occupied.2⟩
  obtain ⟨g, a, harch, hcase⟩ := destroy_moves hctx hw hgroup hs
  rcases hcase with ⟨hclean, rfl⟩ | ⟨hclean, -, hrel⟩ | ⟨hclean, -, st, g', b, ss, hget, hext, hl,
    -, hb, hkey, hg, hcast⟩
  · exact ⟨rfl, g, a, harch, .inl ⟨hclean, rfl⟩⟩
  · obtain ⟨ents, g₁, a₁, harch₁, hfreed⟩ := freed_of_release hw.listed hv hrel
    refine ⟨release_size hrel, g, a, harch, .inr ⟨hclean, fun d j hj hne => ?_⟩⟩
    have hclosed := hfreed.closed (w := { w with ents := ents }) hw.listed harch₁ hf.occupied.2 hj hne
    exact ⟨hclosed.occupied, hclosed.handle, hclosed.archetype, hclosed.count⟩
  · have hsrc := (Carried.of_extended (i := 0) harch hext).after
    have hbuilt := (hl.built g' b hb).2
    rw [hkey] at hbuilt
    obtain ⟨hsize, hclosed⟩ := closed_castSlice hctx (hw.sound.getArchetype hget).1 hl (hv.extend hext)
      hsrc hb hg (cleaning_of_key hctx hbuilt) hcast
    refine ⟨hsize, g, a, harch, .inr ⟨hclean, fun d j hj hne => ?_⟩⟩
    obtain ⟨h, hd⟩ := Option.ne_none_iff_exists'.mp hj.1
    obtain ⟨b', hb'⟩ := hw.listed.alive d h hd
    have hold := archetypeOf_eq_some.mpr ⟨hd, hb'⟩
    have hext' := (Carried.of_extended (i := 0) hold hext).after
    have hend := hclosed d j ((occupied_congr hext.type hext.count d j).mpr hj) hne
    have hat : closedAt { w with store := st } c i d j = w.closedAt c i d j := by
      simp only [closedAt, hext.count]
    have harch' : w'.archetypeOf d = w.archetypeOf d := calc
      w'.archetypeOf d = _ := hend.archetype
      _ = some (h, b') := hext'
      _ = w.archetypeOf d := hold.symm
    refine ⟨hat ▸ hend.occupied, hat ▸ hend.handle, harch', fun h₁ b₁ hb₁ hlive => ?_⟩
    obtain ⟨rfl, rfl⟩ := Prod.mk.inj (Option.some.inj (hold.symm.trans hb₁))
    rw [hend.count h b' hext' hlive, hext.count]

/-! ## What a `destroy` leaves -/

/-- The entities own no groups. -/
def Groupless (ctx : Context) (w : World) (es : List Entity) : Prop :=
  ∀ e ∈ es, ∀ c i g a, w.Found e c i → w.archetypeOf c = some (g, a) →
    a.index ctx.groupId = invalidIndex

/-- What becomes of a world when the entities `es` are destroyed, one after the other: the rows
close up behind them, and the directory changes at them alone. -/
structure Parted (ctx : Context) (w : World) (es : List Entity) (w' : World) : Prop where
  reach : Reachable ctx (fun w op => op.Orderly ctx w) w'
  size : w'.ents.size = w.ents.size
  inherits : Inherits w w'
  others : ∀ e d j, e ∉ es → w.Found e d j →
    (∃ k, w'.Found e d k) ∧ w'.archetypeOf d = w.archetypeOf d
  agree : ∀ ys, (∀ y ∈ ys, w.Alive y ∧ y ∉ es) → (w.rows.leaveAll es).Agree w'.rows ys
  directory : w'.directory = w.directory.alter es (remains ctx)

theorem parted_nil (h : Reachable ctx (fun w op => op.Orderly ctx w) w) : Parted ctx w [] w where
  reach := h
  size := rfl
  inherits := .refl w
  others _ _ j _ hf := ⟨⟨j, hf⟩, rfl⟩
  agree ys _ := .refl _ ys
  directory := by
    funext e
    exact (Population.alter_of_not_mem List.not_mem_nil).symm

theorem Parted.trans (hctx : ctx.Built) (hreg : ctx.tracks.length < 2 ^ 30)
    (hreach : Reachable ctx (fun w op => op.Orderly ctx w) w) (h : Parted ctx w es w₁)
    (h' : Parted ctx w₁ ys w') (hys : ∀ y ∈ ys, w.Alive y ∧ y ∉ es) :
    Parted ctx w (es ++ ys) w' where
  reach := h'.reach
  size := h'.size.trans h.size
  inherits := h.inherits.trans h'.inherits
  others e d j he hf := by
    rw [List.mem_append, not_or] at he
    obtain ⟨⟨k, hf₁⟩, harch⟩ := h.others e d j he.1 hf
    exact (h'.others e d k he.2 hf₁).imp_right fun harch' => harch'.trans harch
  agree zs hzs := by
    have hw := orderly_of_reachable hctx hreg hreach
    have hsplit : ∀ z ∈ zs, (w.Alive z ∧ z ∉ es) ∧ z ∉ ys := fun z hz => by
      obtain ⟨halive, hz⟩ := hzs z hz
      rw [List.mem_append, not_or] at hz
      exact ⟨⟨halive, hz.1⟩, hz.2⟩
    have hfirst := (h.agree (ys ++ zs) fun y hy => (List.mem_append.mp hy).elim (hys y)
      fun hz => (hsplit y hz).1).leaveAll
    have hsecond := h'.agree zs fun z hz => by
      obtain ⟨⟨⟨c, i, hf⟩, hes⟩, hys⟩ := hsplit z hz
      obtain ⟨⟨k, hf₁⟩, -⟩ := h.others z c i hes hf
      exact ⟨⟨c, k, hf₁⟩, hys⟩
    rw [Rows.leaveAll_append]
    exact hfirst.trans hsecond
  directory := by
    rw [h'.directory, h.directory]
    funext e
    by_cases hes : e ∈ es
    · rw [Population.alter_of_mem (List.mem_append_left ys hes),
        Population.alter_of_not_mem fun hy => (hys e hy).2 hes, Population.alter_of_mem hes]
    · simp only [Population.alter, List.mem_append, hes, if_false, false_or]

theorem Closed.found (hw' : Sound ctx nowhere w') (h : Closed w c i w' d j) (hf : w.Found e d j) :
    w'.Found e d (w.closedAt c i d j) := by
  have hfound := hw'.found h.occupied
  rwa [h.handle, hf.handle] at hfound

/-- Where all others are moved up, the row closes. -/
theorem agree_of_closed (hw : Orderly ctx w) (hw' : Orderly ctx w') (hsize : w.ents.size < 2 ^ 24)
    (hsize' : w'.ents.size < 2 ^ 24) (hf : w.Found x c i)
    (hclosed : ∀ d j, w.store.Occupied d j → ¬ (d = c ∧ j = i) → Closed w c i w' d j)
    (hys : ∀ y ∈ ys, w.Alive y ∧ y ≠ x) : (w.rows.close c i).Agree w'.rows ys := by
  have hstand : ∀ y ∈ ys, ∃ d j h b, w.Found y d j ∧ w.archetypeOf d = some (h, b) ∧
      Closed w c i w' d j := by
    intro y hy
    obtain ⟨⟨d, j, hfy⟩, hne⟩ := hys y hy
    obtain ⟨h, b, harch, -⟩ := lives_of_found hw hfy
    refine ⟨d, j, h, b, hfy, harch, hclosed d j hfy.occupied ?_⟩
    rintro ⟨rfl, rfl⟩
    exact hne (hfy.handle.symm.trans hf.handle)
  refine ⟨fun y hy => ?_, fun y hy => ?_, fun y hy hlive k m hk => ?_⟩
  · obtain ⟨d, j, h, b, hfy, -, hend⟩ := hstand y hy
    rw [place_rows hsize' (hend.found hw'.sound hfy)]
    simp only [Rows.close, place_rows hsize hfy, Option.some.injEq, Prod.mk.injEq, closedAt]
    by_cases hlast : d = c ∧ j = w.store.count c - 1
    · have hlast' : d = c ∧ j = w.rows.length c - 1 := hlast
      rw [if_pos hlast, if_pos hlast', hlast.1]
    · have hlast' : ¬ (d = c ∧ j = w.rows.length c - 1) := hlast
      rw [if_neg hlast, if_neg hlast']
  · obtain ⟨d, j, h, b, hfy, harch, hend⟩ := hstand y hy
    rw [stays_rows hsize' (hend.found hw'.sound hfy) (hend.archetype.trans harch)]
    exact (stays_rows hsize hfy harch).symm
  · obtain ⟨d, j, h, b, hfy, harch, hend⟩ := hstand y hy
    obtain ⟨m', hk'⟩ := Rows.row_of_close hk
    obtain ⟨rfl, -⟩ := Prod.mk.inj (Option.some.inj ((place_rows hsize hfy).symm.trans hk'))
    have hlive' : b.cleaning = false := (stays_rows hsize hfy harch).symm.trans hlive
    simp only [Rows.close, Function.update_apply]
    exact hend.count h b harch hlive'

theorem Found.handles (hf : w.Found x c i) : w.handles (single c i) = [x] := by
  rw [World.handles, ← hf.handle]
  rfl

/-- `destroy` of one entity. -/
theorem parted_of_destroy (hctx : ctx.Built) (hreg : ctx.tracks.length < 2 ^ 30)
    (hreach : Reachable ctx (fun w op => op.Orderly ctx w) w) (hsize : w.ents.size < 2 ^ 24)
    (hf : w.Found x c i) (hgroup : w.Groupless ctx [x])
    (hs : w.destroy ctx fuel (single c i) = some w') : Parted ctx w [x] w' := by
  have hw := orderly_of_reachable hctx hreg hreach
  have hv : w.ValidSlice (single c i) := ⟨hf.occupied.1, Nat.one_pos, hf.occupied.2⟩
  have hno : Op.NoGroup ctx w (.destroy (single c i)) := fun g a harch =>
    hgroup x (List.mem_singleton.mpr rfl) c i g a hf harch
  have hp : (Op.destroy (single c i)).Orderly ctx w :=
    ⟨hno, trivial, fun g a harch => Or.inl (hno g a harch), trivial⟩
  have hvalid : (Op.destroy (single c i)).Valid w := hv
  have hrun : (Op.destroy (single c i)).run ctx fuel w = some w' := hs
  have hreach' := hreach.step (.destroy (single c i)) hv hp hrun
  have hw' := orderly_of_reachable hctx hreg hreach'
  obtain ⟨hsame, g, a, harch, hcase⟩ := closed_destroy hctx hw hf (memberless_of_noGroup hno) hs
  have hsize' : w'.ents.size < 2 ^ 24 := hsame ▸ hsize
  refine ⟨hreach', hsame, .destroy hctx hw hv (memberless_of_noGroup hno) hs,
    fun e d j he hfe => ?_, fun ys hys => ?_, ?_⟩
  · rcases hcase with ⟨-, rfl⟩ | ⟨-, hclosed⟩
    · exact ⟨⟨j, hfe⟩, rfl⟩
    · have hend := hclosed d j hfe.occupied (by
        rintro ⟨rfl, rfl⟩
        exact he (List.mem_singleton.mpr (hfe.handle.symm.trans hf.handle)))
      exact ⟨⟨_, hend.found hw'.sound hfe⟩, hend.archetype⟩
  · have hstays := stays_rows hsize hf harch
    change (w.rows.leave x).Agree w'.rows ys
    rcases hcase with ⟨hclean, rfl⟩ | ⟨hclean, hclosed⟩
    · rw [Rows.leave_of_stays (hstays.trans hclean)]
      exact .refl _ ys
    · rw [Rows.leave_of_place (hstays.trans hclean) (place_rows hsize hf)]
      exact agree_of_closed hw hw' hsize hsize' hf hclosed fun y hy =>
        (hys y hy).imp_right (mt List.mem_singleton.mpr)
  · have hhandles := hf.handles
    have hstep : Population.Step w.directory (.change [x] (remains ctx)) w'.directory := by
      refine event_step hctx hreg hw hw' hvalid hp hrun trivial hsize'
        (fun s hslice => ?_) fun e he => ⟨a, lives_of_handle hw hv harch (hhandles ▸ he), ?_⟩
      · obtain rfl := Option.some.inj hslice
        exact hhandles.symm
      · exact directory_destroy hctx hw hw' hv hp hs hsize' harch (hhandles ▸ he)
    exact hstep.eq_alter

theorem Parted.groupless (hctx : ctx.Built) (hreg : ctx.tracks.length < 2 ^ 30)
    (hreach : Reachable ctx (fun w op => op.Orderly ctx w) w) (hsize : w.ents.size < 2 ^ 24)
    (h : Parted ctx w es w') (hgroup : w.Groupless ctx ys) (hys : ∀ y ∈ ys, y ∉ es) :
    w'.Groupless ctx ys := by
  intro e he c i g a hf harch
  obtain ⟨d, j, hf₀⟩ := h.inherits.alive (orderly_of_reachable hctx hreg hreach) ⟨c, i, hf⟩
  obtain ⟨⟨k, hf'⟩, hsame⟩ := h.others e d j (hys e he) hf₀
  obtain ⟨rfl, -⟩ := Found.unique (h.size ▸ hsize) hf hf'
  exact hgroup e he c j g a hf₀ (hsame ▸ harch)

theorem Parted.alive (h : Parted ctx w es w') (he : w.Alive e) (hne : e ∉ es) : w'.Alive e := by
  obtain ⟨c, i, hf⟩ := he
  obtain ⟨⟨k, hf'⟩, -⟩ := h.others e c i hne hf
  exact ⟨c, k, hf'⟩

/-! ## One after the other -/

/-- The entities of a list are destroyed, one after the other. -/
def destroyEach (ctx : Context) (fuel : Nat) : List Entity → World → Option World
  | [], w => some w
  | e :: es, w => do
      let s ← w.asSlice e
      let w ← w.destroy ctx fuel s
      destroyEach ctx fuel es w

theorem destroyEach_append (es ys : List Entity) (w : World) :
    destroyEach ctx fuel (es ++ ys) w =
      (destroyEach ctx fuel es w).bind (destroyEach ctx fuel ys) := by
  induction es generalizing w with
  | nil => rfl
  | cons e es ih =>
      simp only [List.cons_append, destroyEach, ih, Option.bind_eq_bind, Option.bind_assoc]

/-- The entity in the slot that the table has for an id. -/
def leads (w : World) (e : Entity) : Option Entity :=
  (w.asSlice e).map fun s => w.memory.entityAt s.c s.start

theorem leads_eq_some (hctx : ctx.Built) (hreg : ctx.tracks.length < 2 ^ 30)
    (hreach : Reachable ctx (fun w op => op.Orderly ctx w) w) (hsize : w.ents.size < 2 ^ 24) :
    w.leads x = some e ↔ w.Alive e ∧ e.id = x.id := by
  constructor
  · intro h
    obtain ⟨s, hs, rfl⟩ := Option.map_eq_some_iff.mp h
    simp only [asSlice, entrySlice] at hs
    split_ifs at hs with hid
    split at hs
    · rename_i c hc
      obtain rfl := Option.some.inj hs
      obtain ⟨hocc, hsame⟩ := current_of_reachable hctx
        (hreach.mono fun _ _ hp => ⟨hp.noGroup, hp.clear⟩) hsize x.id hid c hc
      have hw := orderly_of_reachable hctx hreg hreach
      exact ⟨⟨c, _, hw.sound.found hocc⟩, hsame⟩
    · simp at hs
  · rintro ⟨⟨c, i, hf⟩, hid⟩
    have hslice := asSlice_of_at (hf.entry hsize)
    rw [asSlice, hid] at hslice
    rw [leads, asSlice, hslice, Option.map_some, hf.handle]

/-- The entities are dead already, or have no tracked components and no metatypes. -/
def Plain (w : World) (es : List Entity) : Prop :=
  ∀ e ∈ es, ∀ c i g a, w.Found e c i → w.archetypeOf c = some (g, a) →
    a.cleaning = true ∨ a.withTracked = false ∧ a.metatypes = []

/-- Such entities can be destroyed. -/
theorem destroyEach_returns (hctx : ctx.Built) (hreg : ctx.tracks.length < 2 ^ 30)
    (hreach : Reachable ctx (fun w op => op.Orderly ctx w) w) (hsize : w.ents.size < 2 ^ 24)
    (hnodup : es.Nodup) (hgroup : w.Groupless ctx es) (halive : ∀ e ∈ es, w.Alive e)
    (hplain : w.Plain es) :
    ∃ w', destroyEach ctx (fuel + 1) es w = some w' := by
  induction es generalizing w with
  | nil => exact ⟨w, rfl⟩
  | cons x es ih =>
      obtain ⟨hx, hnodup⟩ := List.nodup_cons.mp hnodup
      have hw := orderly_of_reachable hctx hreg hreach
      obtain ⟨c, i, hf⟩ := halive x List.mem_cons_self
      obtain ⟨g, a, harch, -⟩ := lives_of_found hw hf
      have hno := hgroup x List.mem_cons_self c i g a hf harch
      have hv : w.ValidSlice (single c i) := ⟨hf.occupied.1, Nat.one_pos, hf.occupied.2⟩
      obtain ⟨w₁, hs⟩ : ∃ w₁, w.destroy ctx (fuel + 1) (single c i) = some w₁ := by
        simp only [World.destroy, harch, Option.bind_eq_bind, Option.bind_some, if_pos hno,
          World.destroySingle]
        split_ifs with hclean
        · exact ⟨w, rfl⟩
        · obtain ⟨htracked, hmetas⟩ := (hplain x List.mem_cons_self c i g a hf harch).resolve_left
            hclean
          obtain ⟨w₁, hrel⟩ := release_returns hw.listed hv harch fun _ _ _ _ => by
            rw [Store.sharedType_of_metatypes _ _ hmetas]
            exact Option.some_ne_none []
          simp only [World.getCleaning, if_neg hclean, htracked, Bool.not_false, if_true,
            Option.bind_some]
          exact ⟨w₁, hrel⟩
      have hparted := parted_of_destroy hctx hreg hreach hsize hf
        (fun e he => List.mem_singleton.mp he ▸ hgroup x List.mem_cons_self) hs
      have hne : ∀ e ∈ es, e ∉ [x] := fun e he hex => hx (List.mem_singleton.mp hex ▸ he)
      obtain ⟨w', hrest⟩ := ih hparted.reach (hparted.size ▸ hsize) hnodup
        (hparted.groupless hctx hreg hreach hsize (fun e he => hgroup e (List.mem_cons_of_mem x he))
          hne)
        (fun e he => hparted.alive (halive e (List.mem_cons_of_mem x he)) (hne e he))
        fun e he d j g' b hf' harch' => by
          obtain ⟨d₀, j₀, hf₀⟩ := halive e (List.mem_cons_of_mem x he)
          obtain ⟨⟨k, hk⟩, hsame⟩ := hparted.others e d₀ j₀ (hne e he) hf₀
          obtain ⟨rfl, -⟩ := Found.unique (hparted.size ▸ hsize) hf' hk
          exact hplain e (List.mem_cons_of_mem x he) d j₀ g' b hf₀ (hsame ▸ harch')
      refine ⟨w', ?_⟩
      simp only [destroyEach, asSlice_of_at (hf.entry hsize), hs, Option.bind_eq_bind,
        Option.bind_some, hrest]

end World

end Dots

import Dots.Database.Capacity
import Dots.Database.Casted
import Dots.Database.Progress

/-!
# When a whole chunk changes over

`static_castable` compares the types before the tags position by position, up to twins. The
layout depends on the entries of these types only, so both archetypes find a component of an
entity in the same bytes.
-/

namespace Dots

namespace World

variable {ctx : Context} {w w' : World} {key key' : EntityType} {a b : Archetype} {t u : TypeIndex}
  {ts us : List TypeIndex}

/-- The types with a column, twins as the types they stand for. -/
def dataTypes (ctx : Context) (ts : List TypeIndex) : List TypeIndex :=
  (ts.filter fun t => !t.isTag).map ctx.toValidType

/-- In a set the tags come last. -/
theorem takeWhile_of_sorted (h : SortedTypes ts) :
    (ts.takeWhile fun t => !t.isTag) = ts.filter fun t => !t.isTag := by
  obtain ⟨hsorted, hlt⟩ := h
  induction ts with
  | nil => rfl
  | cons t ts ih =>
      obtain ⟨hle, hsorted⟩ := List.pairwise_cons.mp hsorted
      have hrest := ih hsorted fun u hu => hlt u (List.mem_cons_of_mem t hu)
      cases htag : t.isTag with
      | false =>
          rw [List.takeWhile_cons_of_pos (by simp [htag]), List.filter_cons_of_pos (by simp [htag]),
            hrest]
      | true =>
          rw [List.takeWhile_cons_of_neg (by simp [htag]), List.filter_cons_of_neg (by simp [htag])]
          refine (List.filter_eq_nil_iff.mpr fun u hu => ?_).symm
          have hbits := bits_mono (hle u hu) (hlt u (List.mem_cons_of_mem t hu))
          have hbound := Archetype.bits_lt u
          simp only [TypeIndex.isTag, ComponentType.bits, beq_iff_eq] at htag
          simp only [TypeIndex.isTag, ComponentType.bits, Bool.not_eq_true', beq_eq_false_iff_ne,
            ne_eq, not_not]
          omega

/-- Lists that agree before the tags pass the loop. -/
theorem staticCastableFrom_of_valid
    (h : (ts.takeWhile fun t => !t.isTag).map ctx.toValidType =
      (us.takeWhile fun t => !t.isTag).map ctx.toValidType) :
    staticCastableFrom ctx ts us = true := by
  induction ts generalizing us with
  | nil =>
      cases us with
      | nil => rfl
      | cons u us =>
          cases htag : u.isTag with
          | true => exact htag
          | false => simp [htag] at h
  | cons t ts ih =>
      cases us with
      | nil =>
          cases htag : t.isTag with
          | true => exact htag
          | false => simp [htag] at h
      | cons u us =>
          rw [staticCastableFrom]
          cases htt : t.isTag with
          | true =>
              cases htu : u.isTag with
              | true => rfl
              | false => simp [htt, htu] at h
          | false =>
              cases htu : u.isTag with
              | true => simp [htt, htu] at h
              | false =>
                  simp only [List.takeWhile_cons, htt, htu, Bool.not_false, if_true, List.map_cons,
                    List.cons.injEq] at h
                  rw [Bool.and_false, if_neg Bool.false_ne_true, if_pos h.1]
                  exact ih h.2

/-- The predicate compares the types with a column. -/
theorem staticCastable_iff (hctx : ctx.Paired) (hs : SortedTypes key.types)
    (hs' : SortedTypes key'.types) : staticCastable ctx key key' = true ↔
      dataTypes ctx key.types = dataTypes ctx key'.types := by
  rw [dataTypes, dataTypes, ← takeWhile_of_sorted hs, ← takeWhile_of_sorted hs']
  exact ⟨valid_of_staticCastableFrom hctx, staticCastableFrom_of_valid⟩

/-- A twin follows its type. -/
theorem manual_of_twin {returned : List Registration} (h : Registered ctx returned)
    (ht : ctx.track t = { copying := true }) :
    (ctx.track (t - 1)).manualCopying = true ∧ t - 1 + 1 = t := by
  have hplain : ∀ x j : Nat, x % 2 ^ 30 = j + 1 → (x - 1) % 2 ^ 30 = j ∧ x - 1 + 1 = x := by
    intro x j hx
    omega
  cases hs : ctx.tracks[t.index]? with
  | none => simp [Context.track, List.getD_eq_getElem?_getD, hs] at ht
  | some s =>
      have hcopying : s.copying = true := by
        rw [Context.track, List.getD_eq_getElem?_getD, hs, Option.getD_some] at ht
        rw [ht]
      obtain ⟨j, s', hj, hs', hmanual⟩ := h.copying _ s hs hcopying
      obtain ⟨hindex, hsucc⟩ := hplain t j hj
      refine ⟨?_, hsucc⟩
      rw [Context.track, List.getD_eq_getElem?_getD, TypeIndex.index, hindex, hs', Option.getD_some]
      exact hmanual

/-- Without pairs a type is the only one that stands for its valid type. -/
theorem Unpaired.eq_of_valid (hctx : ctx.Built) (hreg : ctx.tracks.length ≤ 2 ^ 30)
    (h : Unpaired ctx ts) (ht : t ∈ ts) (hu : u ∈ ts)
    (hv : ctx.toValidType t = ctx.toValidType u) : t = u := by
  have hregistered := registered_of_built hctx hreg
  have hno : ∀ x ∈ ts, ∀ y ∈ ts, x < y → ctx.toValidType x ≠ ctx.toValidType y := by
    intro x hx y hy hlt heq
    obtain ⟨hvalid, rfl⟩ := Context.eq_of_toValidType hlt heq
    have htrack : ctx.track y = { copying := true } := by
      by_contra hne
      exact hvalid (if_neg hne)
    obtain ⟨hmanual, hsucc⟩ := manual_of_twin hregistered htrack
    exact h (y - 1) hx hmanual (hsucc ▸ hy)
  rcases lt_trichotomy t u with hlt | heq | hlt
  · exact absurd hv (hno t ht u hu hlt)
  · exact heq
  · exact absurd hv.symm (hno u hu t ht hlt)

/-- What two archetypes share when the chunks of one can be those of the other. -/
structure SameLayout (ctx : Context) (a b : Archetype) : Prop where
  entitySize : a.entitySize = b.entitySize
  chunkCapacity : a.chunkCapacity = b.chunkCapacity
  firstTag : a.firstTag = b.firstTag
  column : ∀ i < a.firstTag, a.size i = b.size i ∧ ∀ ct, a.offsets ct i = b.offsets ct i
  index : ∀ t ∈ a.types, ∀ u ∈ b.types, t.isTag = false →
    ctx.toValidType t = ctx.toValidType u → a.index t = b.index u

theorem index_of_staticCastable (hctx : ctx.Built) (hreg : ctx.tracks.length ≤ 2 ^ 30)
    (ha : constructArchetype ctx key = some a) (hb : constructArchetype ctx key' = some b)
    (hsa : SortedTypes a.types) (hsb : SortedTypes b.types) (hnd : b.types.Nodup)
    (hpair : Unpaired ctx b.types) (hs : staticCastable ctx key key' = true) (hta : t ∈ a.types)
    (hub : u ∈ b.types) (htag : t.isTag = false) (hv : ctx.toValidType t = ctx.toValidType u) :
    a.index t = b.index u := by
  have hcolumn := column_lt_firstTag ha hsa hta htag
  have hlen : a.column t < b.types.length :=
    (hcolumn.trans_eq (layout_of_staticCastable hctx.paired ha hb hs).1.symm).trans_le
      (constructArchetype_layout hb).tag_le
  have hsame := valid_of_staticCastable hctx.paired ha hb hs hcolumn
  rw [List.getD_eq_getElem?_getD, List.getD_eq_getElem?_getD,
    List.getElem?_eq_getElem (Archetype.column_lt hta), List.getElem?_eq_getElem hlen,
    Option.getD_some, Option.getD_some, Archetype.types_column hta, hv] at hsame
  have hu : u = b.types[a.column t] :=
    hpair.eq_of_valid hctx hreg hub (List.getElem_mem hlen) hsame
  have hcol : b.column u = a.column t := by
    rw [hu]
    exact hnd.idxOf_getElem _ _
  rw [Archetype.index_eq hsa hta, Archetype.index_eq hsb hub, hcol]

theorem sameLayout_of_staticCastable (hctx : ctx.Built) (hreg : ctx.tracks.length ≤ 2 ^ 30)
    (ha : constructArchetype ctx key = some a) (hb : constructArchetype ctx key' = some b)
    (hsa : SortedTypes a.types) (hsb : SortedTypes b.types) (hnd : b.types.Nodup)
    (hpair : Unpaired ctx b.types) (hs : staticCastable ctx key key' = true) :
    SameLayout ctx a b := by
  obtain ⟨htag, hsizes, hoffsets⟩ := layout_of_staticCastable hctx.paired ha hb hs
  have hsize : ∀ i, a.size i = b.size i := fun i => by
    rw [Archetype.size, Archetype.size, hsizes]
  refine ⟨?_, capacity_of_staticCastable hctx.paired ha hb hs, htag.symm,
    fun i _ => ⟨hsize i, fun ct => by rw [hoffsets]⟩, fun t hta u hub hdata hv =>
    index_of_staticCastable hctx hreg ha hb hsa hsb hnd hpair hs hta hub hdata hv⟩
  have hinfos := infos_of_staticCastableFrom hctx.paired hs
  rw [← take_segment, ← take_segment] at hinfos
  simp only [constructArchetype] at ha hb
  split_ifs at ha hb
  rw [← Option.some.inj ha, ← Option.some.inj hb]
  simp only [hinfos]

/-- Bytes that hold the entities of one of them hold those of the other. -/
theorem SameLayout.cell (h : SameLayout ctx a b) (hta : t ∈ a.types) (hub : u ∈ b.types)
    (htag : t.isTag = false) (hk : a.index t < a.firstTag)
    (hv : ctx.toValidType t = ctx.toValidType u) (mm : Memory) (c : ChunkId) (ct : AllocType)
    (i : Nat) : mm.cell c b ct (b.index u) i = mm.cell c a ct (a.index t) i := by
  obtain ⟨hsize, hoffsets⟩ := h.column _ hk
  rw [← h.index t hta u hub htag hv, Memory.cell, Memory.cell, Archetype.address,
    Archetype.address, hsize, hoffsets ct]

/-- A chunk that changed over, with all its bytes but the timestamps. -/
structure ChangedOver (w : World) (c : ChunkId) (a : Archetype) (g : ArchetypeId) (w' : World) :
    Prop where
  type : w'.store.type c = some g
  count : w'.store.count c = w.store.count c
  ct : w'.store.ct c = w.store.ct c
  ents : w'.ents = w.ents
  heap : w'.memory.heap = w.memory.heap
  front : ∀ x < a.wordsStart (w.store.ct c), w'.wholeBlock c x = w.wholeBlock c x

/-- The fast path of `cast`. -/
theorem changedOver_of_castTo (hwf : w.store.Wf ctx) {s : ChunkSlice} {srcG g : ArchetypeId}
    {fuel : Nat} {ss : List ChunkSlice} (hsrc : w.archetypeOf s.c = some (srcG, a))
    (hb : w.store.archetype g = some b) (hg : srcG ≠ g) (hfull : w.full s = true)
    (hctx : ctx.Paired) (hcast : staticCastable ctx a.type b.type = true)
    (htag : a.firstTag = b.firstTag)
    (hs : w.castTo ctx fuel s (some g) = some (w', ss)) :
    w.ChangedOver s.c a g w' ∧ w'.archetypeOf s.c = some (g, b) ∧ w'.store.Wf ctx := by
  obtain ⟨hc, hsrcA⟩ := archetypeOf_eq_some.mp hsrc
  obtain ⟨srcG', srcA', b', hc', hsrcA', hb', hcase⟩ := castTo_cases hs
  obtain rfl := Option.some.inj (hc.symm.trans hc')
  obtain rfl := Option.some.inj (hsrcA.symm.trans hsrcA')
  obtain rfl := Option.some.inj (hb.symm.trans hb')
  rcases hcase with ⟨heq, -⟩ | ⟨-, hfast⟩ | ⟨-, hslow, -⟩
  · exact absurd heq hg
  · obtain ⟨st₁, st₂, hrem, hadd, rfl⟩ := hfast.store
    obtain ⟨htype, hcount, hct⟩ := relink_fields hwf hc hrem hadd
    have hself : st₂.type s.c = some g := by rw [htype, Function.update_self]
    have hkept : st₂.archetype g = some b := by
      obtain ⟨-, hremoved⟩ := hwf.removeChunk hc hrem
      simp only [Store.addChunk, Option.bind_eq_bind, Option.bind_eq_some_iff] at hadd
      obtain ⟨b', hb', hadd⟩ := hadd
      obtain ⟨-, -, -, -, -, harch⟩ := Store.splice_retyped hadd
      rw [harch]
      change (st₁.structuralChange g b' s.c).archetype g = some b
      rw [(Store.structuralChange_shape st₁ g b' s.c).archetype, hremoved.archetype g hg.symm]
      exact hb
    have harch : archetypeOf { w with store := st₂ } s.c = some (g, b) :=
      archetypeOf_eq_some.mpr ⟨hself, hkept⟩
    refine ⟨⟨hself, congrFun hcount s.c, congrFun hct s.c, rfl, rfl, fun x hx => ?_⟩, harch, ?_⟩
    · rw [wholeBlock_of_lt hsrc hx, wholeBlock_of_lt harch]
      change x < b.wordsStart (st₂.ct s.c)
      rwa [hct, Archetype.wordsStart, ← htag]
    · exact (relink hctx hwf hc hsrcA hb hg hfast.castable hrem hadd).1
  · exact absurd ⟨hfull, hcast⟩ hslow

/-- It returns where the list of the chunk is in order. -/
theorem castTo_returns (hl : w.store.Listed ctx) {s : ChunkSlice} {srcG g : ArchetypeId}
    (hsrc : w.archetypeOf s.c = some (srcG, a)) (hb : w.store.archetype g = some b) (hg : srcG ≠ g)
    (hfull : w.full s = true) (hcast : staticCastable ctx a.type b.type = true)
    (hmeta : w.store.Detachable w.ents srcG a s.c) (fuel : Nat) :
    ∃ w', w.castTo ctx fuel s (some g) = some (w', []) := by
  obtain ⟨hc, ha⟩ := archetypeOf_eq_some.mp hsrc
  obtain ⟨st₁, st₂, hrem, hadd⟩ := relink_returns hl hc ha hb hg hmeta
  refine ⟨{ w with store := st₂ }, ?_⟩
  simp only [World.castTo, hsrc, hb, Option.bind_eq_bind, Option.bind_some, if_neg hg, hfull, hcast,
    Bool.and_self, if_true, hrem, hadd]

/-- The fast path applies to archetypes whose types with a column are the same up to twins;
these have the same layout, so that bytes that hold the entities of the one hold those of the other,
and a chunk that changes over keeps every component where its parts are apart. -/
theorem staticCastable_sound (hctx : ctx.Built) (hreg : ctx.tracks.length ≤ 2 ^ 30)
    (ha : constructArchetype ctx key = some a) (hb : constructArchetype ctx key' = some b)
    (hkey : Set.Sorted key.types) (hkey' : Set.Sorted key'.types)
    (hlt : ∀ t ∈ key.types, t < 2 ^ 32) (hlt' : ∀ t ∈ key'.types, t < 2 ^ 32)
    (hpair : Unpaired ctx key'.types) :
    (staticCastable ctx key key' = true ↔ dataTypes ctx key.types = dataTypes ctx key'.types) ∧
    (staticCastable ctx key key' = true → SameLayout ctx a b ∧
      (∀ t ∈ a.types, ∀ u ∈ b.types, t.isTag = false → ctx.toValidType t = ctx.toValidType u →
        ∀ (mm : Memory) (c : ChunkId) (ct : AllocType) (i : Nat),
          mm.cell c b ct (b.index u) i = mm.cell c a ct (a.index t) i) ∧
      ∀ (w : World) (s : ChunkSlice) (srcG g : ArchetypeId) (fuel : Nat), w.store.Wf ctx →
        w.archetypeOf s.c = some (srcG, a) → w.store.archetype g = some b → srcG ≠ g →
        w.full s = true →
        (w.store.Listed ctx → w.store.Detachable w.ents srcG a s.c →
          ∃ w', w.castTo ctx fuel s (some g) = some (w', [])) ∧
        ∀ w' ss, w.castTo ctx fuel s (some g) = some (w', ss) → w.ChangedOver s.c a g w' ∧
          (a.FitsBin (w.store.ct s.c) → ∀ t ∈ a.types, ∀ u ∈ b.types, t.isTag = false →
            ctx.toValidType t = ctx.toValidType u → ∀ i < s.count,
              w'.whole.memory.cell s.c b (w'.store.ct s.c) (b.index u) i =
                w.whole.memory.cell s.c a (w.store.ct s.c) (a.index t) i)) := by
  have hsa : SortedTypes key.types := ⟨hkey.imp le_of_lt, hlt⟩
  have hsb : SortedTypes key'.types := ⟨hkey'.imp le_of_lt, hlt'⟩
  have hta := constructArchetype_type ha
  have htb := constructArchetype_type hb
  have hsorted : SortedTypes a.types := by rwa [Archetype.types, hta]
  refine ⟨staticCastable_iff hctx.paired hsa hsb, fun hs => ?_⟩
  have hlayout : SameLayout ctx a b := by
    apply sameLayout_of_staticCastable hctx hreg ha hb hsorted
    · rwa [Archetype.types, htb]
    · rw [Archetype.types, htb]
      exact hkey'.nodup
    · rwa [Archetype.types, htb]
    · exact hs
  have hindex : ∀ t ∈ a.types, t.isTag = false → a.index t < a.firstTag := by
    intro t ht htag
    rw [Archetype.index_eq hsorted ht]
    exact (Nat.mod_le _ _).trans_lt (column_lt_firstTag ha hsorted ht htag)
  have hcells : ∀ t ∈ a.types, ∀ u ∈ b.types, t.isTag = false →
      ctx.toValidType t = ctx.toValidType u → ∀ (mm : Memory) (c : ChunkId) (ct : AllocType)
        (i : Nat), mm.cell c b ct (b.index u) i = mm.cell c a ct (a.index t) i :=
    fun t ht u hu htag hv => hlayout.cell ht hu htag (hindex t ht htag) hv
  refine ⟨hlayout, hcells, fun w s srcG g fuel hwf hsrc hg hne hfull => ⟨fun hl hmeta => ?_, ?_⟩⟩
  · exact castTo_returns hl hsrc hg hne hfull (by rwa [hta, htb]) hmeta fuel
  intro w' ss hrun
  obtain ⟨hover, harch, hwf'⟩ := changedOver_of_castTo hwf hsrc hg hne hfull hctx.paired
    (by rwa [hta, htb]) hlayout.firstTag hrun
  refine ⟨hover, fun hfits t ht u hu htag hv i hi => ?_⟩
  have hk := hindex t ht htag
  obtain ⟨hc, hsrcA⟩ := archetypeOf_eq_some.mp hsrc
  have hslot : i < a.chunkCapacity (w.store.ct s.c) := by
    have hcount := hwf.count_le s.c srcG a hc hsrcA
    simp only [full, Bool.and_eq_true, beq_iff_eq] at hfull
    omega
  rw [hover.ct, hcells t ht u hu htag hv]
  refine Library.Mem.read_eq fun y hy => hover.front _ ?_
  have hle := hfits.cell_le hk hslot (Nat.zero_lt_of_lt hy)
  omega

/-- Two entities of a type that has a twin. -/
def twoTwins : Option World := runAll twinned 2 blank [.allocate { types := [4] } 2]

theorem wf_twoTwins (hw : ((twoTwins.bind fun w =>
    w.getArchetype twinned { types := [5, twinned.disableId] }).map Prod.fst) = some w) :
    w.store.Wf twinned := by
  obtain ⟨⟨_, g⟩, hget, rfl⟩ := Option.map_eq_some_iff.mp hw
  obtain ⟨w₀, hw₀, hget⟩ := Option.bind_eq_some_iff.mp hget
  have hreach : Reachable twinned (fun w op => op.Orderly twinned w) w₀ := by
    refine (reachable_blank twinned _).runAll ?_ hw₀
    intro op hop v
    obtain rfl := List.mem_singleton.mp hop
    exact ⟨trivial, trivial, trivial, trivial, show SortedTypes [4] from ⟨by decide, by decide⟩⟩
  exact ((orderly_of_reachable built_twinned (by decide) hreach).sound.getArchetype hget).1.wf

/-- A chunk of two entities changes over, from a type to its twin and a tag. -/
theorem staticCastable_twinned : ∃ (a b : Archetype) (w w' : World),
    ((twoTwins.bind fun w => w.getArchetype twinned { types := [5, twinned.disableId] }).map
      Prod.fst) = some w ∧
    w.archetypeOf 0 = some (0, a) ∧ w.store.archetype 1 = some b ∧
    staticCastable twinned { types := [4] } { types := [5, twinned.disableId] } = true ∧
    SameLayout twinned a b ∧
    w.castTo twinned 0 { c := 0, start := 0, count := 2 } (some 1) = some (w', []) ∧
    w.ChangedOver 0 a 1 w' ∧ ∀ i < 2,
      w'.whole.memory.cell 0 b (w'.store.ct 0) (b.index 5) i =
        w.whole.memory.cell 0 a (w.store.ct 0) (a.index 4) i := by
  have hsome : ((twoTwins.bind fun w =>
      w.getArchetype twinned { types := [5, twinned.disableId] }).map Prod.fst).bind (fun w =>
        (w.archetypeOf 0).bind fun p => (w.store.archetype 1).bind fun b =>
          (w.castTo twinned 0 { c := 0, start := 0, count := 2 } (some 1)).map fun q =>
            (p.1, p.2.type, b.type, w.full { c := 0, start := 0, count := 2 },
              decide (p.2.FitsBin (w.store.ct 0)), q.2.length)) =
      some (0, { types := [4] }, { types := [5, twinned.disableId] }, true, true, 0) := by
    decide +kernel
  obtain ⟨w, hw, hsome⟩ := Option.bind_eq_some_iff.mp hsome
  obtain ⟨⟨g, a⟩, hsrc, hsome⟩ := Option.bind_eq_some_iff.mp hsome
  obtain ⟨b, hb, hsome⟩ := Option.bind_eq_some_iff.mp hsome
  obtain ⟨⟨w', ss⟩, hrun, hfacts⟩ := Option.map_eq_some_iff.mp hsome
  simp only [Prod.mk.injEq, decide_eq_true_eq, List.length_eq_zero_iff] at hfacts
  obtain ⟨rfl, hta, htb, hfull, hfits, rfl⟩ := hfacts
  have hwf : w.store.Wf twinned := wf_twoTwins hw
  have ha := (hwf.built 0 a (archetypeOf_eq_some.mp hsrc).2).2
  have hbuilt := (hwf.built 1 b hb).2
  rw [hta] at ha
  rw [htb] at hbuilt
  obtain ⟨hiff, hsame⟩ := staticCastable_sound built_twinned (by decide) ha hbuilt
    (List.pairwise_singleton _ _) (by decide) (by decide) (by decide) (by
      intro t ht
      rcases List.mem_cons.mp ht with rfl | ht
      · exact fun h => absurd h (by decide)
      · obtain rfl := List.mem_singleton.mp ht
        exact fun h => absurd h (by decide))
  have hcast := hiff.mpr (by decide)
  obtain ⟨hlayout, -, hover⟩ := hsame hcast
  obtain ⟨hchanged, hcells⟩ :=
    (hover w { c := 0, start := 0, count := 2 } 0 1 0 hwf hsrc hb (by decide) hfull).2 w' [] hrun
  refine ⟨a, b, w, w', hw, hsrc, hb, hcast, hlayout, hrun, hchanged, ?_⟩
  exact hcells hfits 4 (by rw [Archetype.types, hta]; exact List.mem_singleton_self 4) 5
    (by rw [Archetype.types, htb]; exact List.mem_cons_self) (by decide) (by decide)

end World

end Dots

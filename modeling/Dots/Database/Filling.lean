import Dots.Database.Clearing
import Dots.Database.Metas
import Dots.Database.Reloaded

/-!
# The bytes of a world

A world is written with the keys of its archetypes first and their chunks behind. The loader
makes the archetypes, and then fills them chunk by chunk.
-/

namespace Dots

open Library Entities

/-- A place for a slice is found in an archetype; the map of the archetypes is not touched. -/
theorem Store.sameMap_loadSlots {st st' : Store} {ents : Entities} {g : ArchetypeId} {n : Nat}
    {s : ChunkSlice} (hs : st.loadSlots ents g n = some (st', s))
    (hpos : (s.start + s.count) % 2 ^ 32 ≠ 0) : SameMap st st' := by
  simp only [Store.loadSlots, Option.bind_eq_bind, Option.bind_eq_some_iff] at hs
  obtain ⟨a, -, found, -, hs⟩ := hs
  have hlast : ∀ {st₁ : Store} {c : ChunkId}, SameMap st st₁ →
      (st₁.resizeChunk ents c ((st₁.count c + n) % 2 ^ 32)).bind
        (fun st => some (st, { c := c, start := st₁.count c, count := n })) = some (st', s) →
      SameMap st st' := by
    intro st₁ c h₁ hs₁
    obtain ⟨st₂, hres, heq⟩ := Option.bind_eq_some_iff.mp hs₁
    obtain ⟨rfl, rfl⟩ := Prod.mk.inj (Option.some.inj heq)
    exact h₁.trans (sameMap_resizeChunk hpos hres)
  cases found with
  | some c => exact hlast (SameMap.refl st) hs
  | none =>
      obtain ⟨⟨st₁, c⟩, hplace, hs⟩ := Option.bind_eq_some_iff.mp hs
      obtain ⟨st₂, hadd, heq⟩ := Option.map_eq_some_iff.mp hplace
      obtain ⟨rfl, rfl⟩ := Prod.mk.inj heq
      have hsame := sameMap_addChunk hadd
      exact hlast ⟨hsame.queries, hsame.archetypes, hsame.archetype, hsame.freshArchetype⟩ hs

namespace World

variable {ctx : Context} {w v v₀ v' : World} {g h : ArchetypeId} {a b : Archetype}
  {c d : ChunkId} {i j F : Nat} {e : Entity} {done : List ChunkId}

/-! ## What is written -/

/-- An archetype that is saved. -/
def Saves (w : World) (g : ArchetypeId) (a : Archetype) : Prop :=
  w.store.archetype g = some a ∧ a.cleaning = false

/-- The chunks of an archetype, in the order of its list. -/
def chunksOf (w : World) (g : ArchetypeId) : List ChunkId :=
  (w.store.chunksFrom (w.store.freshChunk + 1) (w.store.firstChunk g)).getD []

/-- The bytes of a chunk. -/
def chunkBytes (w : World) (c : ChunkId) : List UInt8 :=
  (w.serializeSlice { c := c, start := 0, count := w.store.count c }).getD []

/-- The bytes of the chunks of an archetype. -/
def chunksBytes (w : World) (g : ArchetypeId) : List UInt8 :=
  (w.chunksOf g).flatMap w.chunkBytes ++ Mem.wordBytes 0 4

/-- A world that can be saved and read again. The size zero would end the list of the archetypes,
metatypes are sorted when they are read, and a metatype that is not saved would be lost. -/
structure Savable (ctx : Context) (w : World) : Prop where
  size_lt : w.ents.size < 2 ^ 24
  sizes : ∀ g a, w.Saves g a → w.store.size g ≠ 0 ∧ w.store.size g < 2 ^ 32
  lengths : ∀ g a, w.Saves g a → a.types.length < 2 ^ 16 ∧ a.metatypes.length < 2 ^ 16
  guids : ∀ g a, w.Saves g a → ∀ t ∈ a.types,
    (ctx.info t).guid < 2 ^ 128 ∧ ctx.hash2type.lookup (ctx.info t).guid = some t
  sorted : ∀ g a, w.Saves g a → a.metatypes.Pairwise (· ≤ ·)
  metas : ∀ g a, w.Saves g a → ∀ m ∈ a.metatypes, ∃ h b, w.LivesIn m h ∧ w.Saves h b
  chunk : ∀ c g a, w.archetypeOf c = some (g, a) → a.cleaning = false → w.SavableChunk c a

theorem mem_chunksOf (hw : w.store.Listed ctx) (ha : w.store.archetype g = some a) :
    w.store.chunksFrom (w.store.freshChunk + 1) (w.store.firstChunk g) = some (w.chunksOf g) ∧
      (w.chunksOf g).Nodup ∧ ∀ c, c ∈ w.chunksOf g ↔ w.store.type c = some g := by
  obtain ⟨cs, hmem, hwalk⟩ := exists_chunks hw ha
  have hcs := (hwalk (w.store.freshChunk + 1)).1 (Nat.lt_succ_self _)
  have heq : w.chunksOf g = cs := by rw [chunksOf, hcs, Option.getD_some]
  rw [heq]
  exact ⟨hcs, (chunksFrom_eq_some.mp hcs).1.nodup, hmem⟩

theorem SavableChunk.serializeSlice (h : w.SavableChunk c a)
    (hsrc : w.archetypeOf c = some (g, a)) :
    w.serializeSlice { c := c, start := 0, count := w.store.count c } = some (w.chunkBytes c) := by
  obtain ⟨contents, -, hsave⟩ := Memory.saveSlice_contents w.memory a (w.store.ct c)
    { c := c, start := 0, count := w.store.count c } (fun k j hk hk' hj => by
      rw [Nat.zero_add]
      exact h.stored j hj k hk hk')
  have hsome : ∃ bs, w.serializeSlice { c := c, start := 0, count := w.store.count c } =
      some bs := by
    simp only [World.serializeSlice, hsrc, Option.bind_eq_bind, Option.bind_some, hsave]
    exact ⟨_, rfl⟩
  obtain ⟨bs, hbs⟩ := hsome
  rw [chunkBytes, hbs, Option.getD_some]

theorem chunkBytes_ne_nil (h : w.SavableChunk c a) (hsrc : w.archetypeOf c = some (g, a)) :
    w.chunkBytes c ≠ [] := by
  have hbs := h.serializeSlice hsrc
  simp only [World.serializeSlice, hsrc, Option.bind_eq_bind, Option.bind_some,
    Option.bind_eq_some_iff, Option.some.injEq] at hbs
  obtain ⟨body, -, hbytes⟩ := hbs
  rw [← hbytes]
  refine List.ne_nil_of_length_pos ?_
  rw [List.length_append, Mem.length_wordBytes]
  exact Nat.add_pos_left (by decide) _

theorem serializeChunks_eq (hw : w.store.Listed ctx) (hsave : w.Savable ctx) (hk : w.Saves g a) :
    w.serializeChunks g = some (w.chunksBytes g) := by
  obtain ⟨hwalk, -, hmem⟩ := mem_chunksOf hw hk.1
  have hslices : (w.chunksOf g).mapM (fun c =>
      w.serializeSlice { c := c, start := 0, count := w.store.count c }) =
        some ((w.chunksOf g).map w.chunkBytes) := by
    refine mapM_eq_map fun c hc => ?_
    have hsrc := archetypeOf_eq_some.mpr ⟨(hmem c).mp hc, hk.1⟩
    exact (hsave.chunk c g a hsrc hk.2).serializeSlice hsrc
  rw [serializeChunks, hwalk, Option.bind_eq_bind, Option.bind_some, hslices]
  simp only [Option.bind_eq_bind, Option.bind_some, chunksBytes, List.flatMap_def]

theorem saved_eq (hk : w.store.Known) (hnd : w.store.archetypes.Nodup) : ∃ ats,
    w.saved = some ats ∧ (∀ p, p ∈ ats ↔ w.Saves p.1 p.2) ∧ (ats.map Prod.fst).Nodup := by
  have hall : ∀ g ∈ w.store.archetypes,
      ((w.store.archetype g).map fun a => (g, a)) ≠ none := by
    intro g hg
    obtain ⟨a, ha⟩ := (hk.listed g).mp hg
    rw [ha]
    exact Option.some_ne_none (g, a)
  refine ⟨_, by rw [saved, mapM_eq_filterMap hall]; rfl, fun p => ?_, ?_⟩
  · rw [List.mem_filter, List.mem_filterMap]
    constructor
    · rintro ⟨⟨g, -, hp⟩, hclean⟩
      obtain ⟨a, ha, rfl⟩ := Option.map_eq_some_iff.mp hp
      exact ⟨ha, by simpa using hclean⟩
    · rintro ⟨ha, hclean⟩
      exact ⟨⟨p.1, (hk.listed p.1).mpr ⟨p.2, ha⟩, by rw [ha]; rfl⟩, by simpa using hclean⟩
  · refine (List.filter_sublist.map Prod.fst).nodup ?_
    rw [List.map_filterMap]
    refine hnd.filterMap fun g g' k hg hg' => ?_
    simp only [Option.map_map, Option.mem_def, Option.map_eq_some_iff,
      Function.comp_apply] at hg hg'
    obtain ⟨_, -, rfl⟩ := hg
    obtain ⟨_, -, rfl⟩ := hg'
    rfl

/-- The sizes of all, the keys of all, and then the chunks of each. -/
theorem serialize_eq (hw : w.store.Listed ctx) (hsave : w.Savable ctx)
    {ats : List (ArchetypeId × Archetype)} (hats : w.saved = some ats)
    (hmem : ∀ p ∈ ats, w.Saves p.1 p.2) : w.serialize ctx = some (Mem.wordBytes w.ents.size 8
      ++ (ats.flatMap (fun p => serializeArchetype ctx w.store p.1 p.2) ++ (Mem.wordBytes 0 4
      ++ ats.flatMap fun p => w.chunksBytes p.1))) := by
  have hchunks : ats.mapM (fun p => w.serializeChunks p.1) =
      some (ats.map fun p => w.chunksBytes p.1) :=
    mapM_eq_map fun p hp => serializeChunks_eq hw hsave (hmem p hp)
  rw [serialize, hats, Option.bind_eq_bind, Option.bind_some, hchunks]
  rfl

/-! ## What is read -/

/-- The chunks of the archetypes that are saved, and the blocks that loading them takes. -/
structure SavedChunks (w : World) (F : Nat) (all : List ChunkId) : Prop where
  nodup : all.Nodup
  saved : ∀ c ∈ all, ∃ g a, w.archetypeOf c = some (g, a) ∧ a.cleaning = false
  space : F + (all.map w.blocks).sum ≤ 2 ^ 64

theorem sameMap_deserializeChunk {bs rest : List UInt8} {s : ChunkSlice}
    (hs : deserializeChunk h v bs = some (v', some s, rest))
    (hpos : (s.start + s.count) % 2 ^ 32 ≠ 0) : Store.SameMap v.store v'.store := by
  simp only [deserializeChunk, Option.bind_eq_bind, Option.bind_eq_some_iff] at hs
  obtain ⟨⟨v₁, _ | s₁, bs₁⟩, hslice, hs⟩ := hs
  · exact absurd (Prod.mk.inj (Option.some.inj hs)).2 (by simp)
  · simp only [Option.bind_eq_some_iff, Option.some.injEq, Prod.mk.injEq] at hs
    obtain ⟨ents, -, rfl, rfl, -⟩ := hs
    simp only [deserializeSlice, Option.bind_eq_bind, Option.bind_eq_some_iff] at hslice
    obtain ⟨⟨n, bs₂⟩, -, hslice⟩ := hslice
    split_ifs at hslice with hn
    · exact absurd (Prod.mk.inj (Prod.mk.inj (Option.some.inj hslice)).2).1 (by simp)
    · simp only [Option.bind_eq_some_iff, Option.some.injEq, Prod.mk.injEq] at hslice
      obtain ⟨⟨st, s₂⟩, hslots, ⟨_, a⟩, -, ⟨mm, bs₃⟩, -, rfl, rfl, -⟩ := hslice
      exact Store.sameMap_loadSlots hslots hpos

/-- The chunks `done` have been loaded into the archetypes of `v₀`. -/
structure Filling (ctx : Context) (F : Nat) (w v₀ : World) (done : List ChunkId) (v : World) :
    Prop extends Reloading ctx F w done v where
  map : Store.SameMap v₀.store v.store

theorem Filling.chunk {all later : List ChunkId} (hf : Filling ctx F w v₀ done v)
    (hw : Orderly ctx w) (hsave : w.Savable ctx) (hall : w.SavedChunks F all)
    (hsplit : all = done ++ c :: later) (hsrc : w.archetypeOf c = some (g, a))
    (ha : v₀.store.archetype h = some a) (rest : List UInt8) : ∃ v' s,
      deserializeChunk h v (w.chunkBytes c ++ rest) = some (v', some s, rest) ∧
        Filling ctx F w v₀ (done ++ [c]) v' := by
  have hmem : ∀ x ∈ done ++ [c], x ∈ all := by
    intro x hx
    rw [hsplit]
    simp only [List.mem_append, List.mem_cons] at hx ⊢
    tauto
  have hnew : c ∉ done := by
    have hnd := hsplit ▸ hall.nodup
    exact fun hc => List.disjoint_of_nodup_append hnd hc List.mem_cons_self
  have hchunk : ∀ x ∈ done ++ [c], ∀ g a, w.archetypeOf x = some (g, a) → w.SavableChunk x a := by
    intro x hx g a hx'
    obtain ⟨g', a', hx'', hclean⟩ := hall.saved x (hmem x hx)
    obtain ⟨-, rfl⟩ := Prod.mk.inj (Option.some.inj (hx''.symm.trans hx'))
    exact hsave.chunk x _ _ hx'' hclean
  have hc := hchunk c (List.mem_append_right _ List.mem_cons_self) g a hsrc
  have hva : v.store.archetype h = some a := by rw [hf.map.archetype, ha]
  have hblocks : w.blocks c = a.firstTag * w.store.count c := by rw [blocks, hsrc]
  have hsum : (all.map w.blocks).sum = (done.map w.blocks).sum + (w.blocks c +
      (later.map w.blocks).sum) := by
    rw [hsplit, List.map_append, List.sum_append, List.map_cons, List.sum_cons]
  obtain ⟨s, v', hrun, hl⟩ := deserializeChunk_append hf.listed hva hsrc hw hc hf.mallocs
    (by have := hf.le_first; have := hall.space; omega)
    (fun i hi => by
      have hocc : w.store.Occupied c i :=
        ⟨by rw [(archetypeOf_eq_some.mp hsrc).1]; exact Option.some_ne_none g, hi⟩
      rw [hf.size]
      exact ((hw.sound.tracks hsave.size_lt).entry c i ⟨hocc, not_false⟩).1)
    (hc.serializeSlice hsrc) rest
  refine ⟨v', s, hrun, hf.toReloading.chunk hw hsave.size_lt hchunk hnew hsrc hva hl,
    hf.map.trans (sameMap_deserializeChunk hrun ?_)⟩
  have hcap := hl.slots.le.trans_lt (hc.small _)
  have hpos := hw.listed.nonempty c g (archetypeOf_eq_some.mp hsrc).1
  rw [hl.count] at hcap ⊢
  omega

/-- The chunks of an archetype. -/
theorem Filling.chunks {all later : List ChunkId} (hf : Filling ctx F w v₀ done v)
    (hw : Orderly ctx w) (hsave : w.Savable ctx) (hall : w.SavedChunks F all)
    (hk : w.Saves g a) (hsplit : all = done ++ (w.chunksOf g ++ later))
    (ha : v₀.store.archetype h = some a) (rest : List UInt8) : ∃ v',
      deserializeChunks (v, w.chunksBytes g ++ rest) h = some (v', rest) ∧
        Filling ctx F w v₀ (done ++ w.chunksOf g) v' := by
  obtain ⟨-, -, hmem⟩ := mem_chunksOf hw.listed hk.1
  have hsrc : ∀ c ∈ w.chunksOf g, w.archetypeOf c = some (g, a) :=
    fun c hc => archetypeOf_eq_some.mpr ⟨(hmem c).mp hc, hk.1⟩
  have hlen : (w.chunksOf g).length ≤ ((w.chunksOf g).flatMap w.chunkBytes).length :=
    Stream.length_le_flatMap fun c hc =>
      chunkBytes_ne_nil (hsave.chunk c g a (hsrc c hc) hk.2) (hsrc c hc)
  have hrun : ∃ v' out, Stream.untilNull (deserializeChunk h) ((w.chunksBytes g ++ rest).length + 1)
      v ((w.chunksOf g).flatMap w.chunkBytes ++ (Mem.wordBytes 0 4 ++ rest)) =
        some (v', out, rest) ∧ Filling ctx F w v₀ (done ++ w.chunksOf g) v' := by
    refine Stream.untilNull_append
      (I := fun cs (_ : List ChunkSlice) v => Filling ctx F w v₀ (done ++ cs) v) ?_ ?_ ?_ rest ?_
    · intro cs c more out v bs hcs hv
      have hnext : all = (done ++ cs) ++ c :: (more ++ later) := by
        rw [hsplit, hcs]
        simp only [List.append_assoc, List.cons_append]
      obtain ⟨v', s, hrun, hv'⟩ := hv.chunk hw hsave hall hnext
        (hsrc c (hcs ▸ List.mem_append_right _ List.mem_cons_self)) ha bs
      rw [List.append_assoc] at hv'
      exact ⟨v', s, hrun, hv'⟩
    · intro v bs
      rw [deserializeChunk, deserializeSlice, Mem.takeWord_append (by decide)]
      rfl
    · rwa [List.append_nil]
    · rw [chunksBytes, List.length_append, List.length_append]
      omega
  obtain ⟨v', out, hrun, hend⟩ := hrun
  refine ⟨v', ?_, hend⟩
  simp only [deserializeChunks, chunksBytes, List.append_assoc] at hrun ⊢
  rw [hrun]
  rfl

/-- The chunks of all archetypes. -/
theorem filling_run {ats : List (ArchetypeId × Archetype)} {out : List ArchetypeId}
    (hf : Filling ctx F w v₀ [] v₀) (hw : Orderly ctx w) (hsave : w.Savable ctx)
    (hall : w.SavedChunks F (ats.flatMap fun p => w.chunksOf p.1))
    (hats : ∀ p ∈ ats, w.Saves p.1 p.2)
    (hout : List.Forall₂ (fun p h => v₀.store.archetype h = some p.2) ats out)
    (rest : List UInt8) : ∃ v,
      out.foldlM deserializeChunks (v₀, ats.flatMap (fun p => w.chunksBytes p.1) ++ rest) =
        some (v, rest) ∧ Filling ctx F w v₀ (ats.flatMap fun p => w.chunksOf p.1) v := by
  have hlen := hout.length_eq
  have hfst : (ats.zip out).map Prod.fst = ats := List.map_fst_zip hlen.le
  have hsnd : (ats.zip out).map Prod.snd = out := List.map_snd_zip hlen.ge
  have hflat : ∀ {β : Type} (f : ArchetypeId × Archetype → List β),
      (ats.zip out).flatMap (fun x => f x.1) = ats.flatMap f := by
    intro β f
    conv_rhs => rw [← hfst, List.flatMap_map]
  have hrun : ∃ v, (ats.zip out).foldlM (fun p x => deserializeChunks p x.2)
      (v₀, (ats.zip out).flatMap (fun x => w.chunksBytes x.1.1) ++ rest) = some (v, rest) ∧
        Filling ctx F w v₀ ((ats.zip out).flatMap fun x => w.chunksOf x.1.1) v := by
    refine Stream.foldlM_append
      (I := fun done v =>
        Filling ctx F w v₀ (done.flatMap fun x : (_ × _) × _ => w.chunksOf x.1.1) v) ?_ hf rest
    intro done x later v bs hxs hv
    have hx : x ∈ ats.zip out := hxs ▸ List.mem_append_right _ List.mem_cons_self
    have hsplit : (ats.flatMap fun p => w.chunksOf p.1) =
        (done.flatMap fun y => w.chunksOf y.1.1) ++ (w.chunksOf x.1.1 ++
          later.flatMap fun y => w.chunksOf y.1.1) := by
      rw [← hflat fun p => w.chunksOf p.1, hxs, List.flatMap_append, List.flatMap_cons]
    obtain ⟨v', hrun, hv'⟩ := hv.chunks hw hsave hall (hats x.1 (List.of_mem_zip hx).1) hsplit
      (List.forall₂_zip hout hx) bs
    refine ⟨v', hrun, ?_⟩
    rwa [List.flatMap_append, List.flatMap_singleton]
  obtain ⟨v, hrun, hend⟩ := hrun
  rw [hflat fun p => w.chunksOf p.1] at hend
  refine ⟨v, ?_, hend⟩
  rw [hflat fun p => w.chunksBytes p.1] at hrun
  rw [← hsnd, List.foldlM_map]
  exact hrun

end World

end Dots

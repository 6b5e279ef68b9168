import Dots.Database.Renewed
import Dots.Database.Tidy

/-!
# `world::move_context`

The entities of the source get handles of the target, and its chunks go over with them. A table,
indexed by the ids of the source, renames the handles in the chunks and the references of
components. Both worlds live in one process: behind the chunks of the target come those of the
source.
-/

namespace Dots

open Library

/-- `c != nullptr`: the pointer of a freed entry overlaps its link of the free list. -/
def Location.notNull : Location → Bool
  | .nextFree n => n != 0
  | _ => true

namespace Entities

/-- `entities::clear`. -/
def clear (ents : Entities) : Entities := { ents with size := 0, free := 0 }

/-- `world::entities::new_entities(entity*, uint32_t)`. -/
def newEntitiesArray : Nat → Entities → Option (Entities × List Entity)
  | 0, ents => some (ents, [])
  | n + 1, ents => do
      let (ents, e) ← ents.takeId
      let (ents, es) ← newEntitiesArray n ents
      some (ents, e :: es)

/-- The entries below `n` that `move_context` counts. -/
def validBefore (ents : Entities) (n : Nat) : List Nat :=
  (List.range n).filter fun i => (ents.datas i).c.notNull

end Entities

/-- `patcher` of `world::move_context`; an entry of `target` that was not written is `none`. -/
structure Renaming where
  start : Nat
  target : Nat → Option Entity
  count : Nat

/-- The table: the entries that were counted get the new handles in turn. -/
def renamingOf (sents : Entities) (entities : List Entity) : Renaming where
  start := 0
  target i :=
    if i < sents.size ∧ (sents.datas i).c.notNull then
      entities[(sents.validBefore i).length]?
    else none
  count := sents.size

/-- The entry of the table that `patch` reads. -/
def Renaming.read (p : Renaming) (e : Entity) : Option Nat :=
  if e.id < p.start ∨ e.id > p.start + p.count then none else some (e.id - p.start)

/-- What was not written reads as the memory that is there. -/
def Renaming.patch (p : Renaming) (raw : Nat → Nat) (e : Entity) : Entity :=
  match p.read e with
  | none => Entity.null
  | some i => (p.target i).getD ⟨raw i % 2 ^ 32⟩

/-- The chunks of `src` get the numbers from `st.freshChunk` on. -/
def Store.beside (st src : Store) : Store :=
  let base := st.freshChunk
  { st with
    links :=
      { next := fun c =>
          if c < base then st.links.next c else (src.links.next (c - base)).map (base + ·)
        prev := fun c =>
          if c < base then st.links.prev c else (src.links.prev (c - base)).map (base + ·) }
    type := fun c => if c < base then st.type c else none
    count := fun c => if c < base then st.count c else src.count (c - base)
    ct := fun c => if c < base then st.ct c else src.ct (c - base)
    timestamps := fun c => if c < base then st.timestamps c else src.timestamps (c - base)
    freshChunk := base + src.freshChunk }

namespace Memory

/-- `patch` on the handles of a slice. -/
def patchHandles (mm : Memory) (s : ChunkSlice) (p : Entity → Entity) : Memory :=
  mm.setData s.c ((List.range s.count).foldl (fun m i =>
    Mem.writeEntity m (s.start + i) (p (Mem.readEntity m (s.start + i)))) (mm.data s.c))

/-- `world::patch_chunk`. -/
def patchChunk (ctx : Context) (mm : Memory) (a : Archetype) (ct : AllocType) (s : ChunkSlice)
    (p : Entity → Entity) : Option Memory :=
  (mm.patchHandles s p).patch ctx a ct s fun _ => p

end Memory

/-- The two worlds while they are merged. The chunks that go over keep their bytes, and those of
their buffers, in `moved`, where they have the numbers of the source. -/
structure Merging where
  dst : World
  src : World
  moved : Memory

namespace World

/-- The body of the loop over the chunks of one archetype. -/
def moveChunk (ctx : Context) (p : Entity → Entity) (base : Nat) (dstG : ArchetypeId)
    (s : Merging) (c : ChunkId) : Option Merging := do
  let st ← s.dst.store.addChunk dstG c
  let dst := { s.dst with store := st }
  let (_, a) ← dst.archetypeOf c
  let slice : ChunkSlice := { c := c - base, start := 0, count := st.count c }
  let moved ← s.moved.patchChunk ctx a (st.ct c) slice p
  some { s with dst := dst, moved := moved }

def moveChunks (ctx : Context) (p : Entity → Entity) (base : Nat) (dstG : ArchetypeId) :
    Nat → Option ChunkId → Merging → Option Merging
  | 0, _, _ => none
  | _ + 1, none, s => some s
  | fuel + 1, some c, s => do
      let next := s.dst.store.links.next c
      let s ← moveChunk ctx p base dstG s c
      moveChunks ctx p base dstG fuel next s

/-- The body of the loop over the archetypes of the source. -/
def moveArchetype (ctx : Context) (fuel : Nat) (p : Entity → Entity) (base : Nat) (s : Merging)
    (g : ArchetypeId) : Option Merging := do
  let a ← s.src.store.archetype g
  let (dst, dstG) ← s.dst.getArchetype ctx a.type
  let first := (s.src.store.firstChunk g).map (base + ·)
  let s ← moveChunks ctx p base dstG fuel first { s with dst := dst }
  let st ← s.src.store.updateQueries s.src.ents g a false
  let st : Store := { st with archetype := Function.update st.archetype g none }
  some { s with src := { s.src with store := st } }

/-- `world::move_context`, and its table. `raw` is the memory of the table. -/
def moveContext (ctx : Context) (fuel : Nat) (raw : Nat → Nat) (w src : World) :
    Option (Merging × Renaming) := do
  let (ents, entities) ← w.ents.newEntitiesArray (src.ents.validBefore src.ents.size).length
  let p := renamingOf src.ents entities
  let dst := { w with store := w.store.beside src.store, ents := ents }
  let s ← src.store.archetypes.foldlM
    (moveArchetype ctx fuel (p.patch raw) w.store.freshChunk)
    { dst := dst, src := { src with ents := src.ents.clear }, moved := src.memory }
  let st : Store := { s.src.store with archetypes := [] }
  some ({ s with src := { s.src with store := st } }, p)

end World

/-! ## The chunks that go over -/

namespace Store

variable {ctx : Context} {st st' st₀ src : Store} {g : ArchetypeId} {a : Archetype} {c : ChunkId}
  {ents : Entities} {done : List ChunkId}

/-- `add_chunk` moves the two ends of one list at most, and only to the chunk. -/
structure Spliced (g : ArchetypeId) (c : ChunkId) (st st' : Store) : Prop where
  type : st'.type = Function.update st.type c (some g)
  count : st'.count = st.count
  ct : st'.ct = st.ct
  archetype : st'.archetype = st.archetype
  freshArchetype : st'.freshArchetype = st.freshArchetype
  ends : ∀ h d, st'.firstChunk h = some d ∨ st'.lastChunk h = some d →
    h = g ∧ d = c ∨ st.firstChunk h = some d ∨ st.lastChunk h = some d
  next : st.firstChunk g ≠ some c → st.lastChunk g ≠ some c → ∀ d, d ≠ c →
    st.firstChunk g ≠ some d → st.lastChunk g ≠ some d → st'.links.next d = st.links.next d

theorem splice_spliced (htype : st.type c = some g) (hs : st.splice g a c = some st') :
    Spliced g c st st' := by
  have hsame : st.type = Function.update st.type c (some g) :=
    htype ▸ (Function.update_eq_self c st.type).symm
  have hends : ∀ {f : ArchetypeId → Option ChunkId} {h : ArchetypeId} {d : ChunkId},
      Function.update f g (some c) h = some d → h = g ∧ d = c ∨ f h = some d := by
    intro f h d hd
    rw [Function.update_apply] at hd
    split_ifs at hd with hh
    · exact Or.inl ⟨hh, (Option.some.inj hd).symm⟩
    · exact Or.inr hd
  rw [splice] at hs
  cases hhead : st.firstChunk g with
  | none =>
      rw [hhead] at hs
      obtain rfl := Option.some.inj hs
      exact ⟨hsame, rfl, rfl, rfl, rfl, fun h d hd => hd.elim (fun hd => (hends hd).imp_right Or.inl)
        fun hd => (hends hd).imp_right Or.inr, fun _ _ _ _ _ _ => rfl⟩
  | some head =>
      rw [hhead] at hs
      dsimp only at hs
      by_cases hroom : st.count c < a.chunkCapacity (st.ct c)
      · rw [if_pos hroom] at hs
        cases hlast : st.lastChunk g with
        | none => simp [hlast] at hs
        | some last =>
            rw [hlast] at hs
            obtain rfl := Option.some.inj hs
            refine ⟨hsame, rfl, rfl, rfl, rfl, fun h d hd => ?_, fun _ hne d hdc _ hd => ?_⟩
            · exact hd.elim (fun hd => Or.inr (Or.inl hd)) fun hd => (hends hd).imp_right Or.inr
            · have hlc : last ≠ c := fun h => hne (hlast.trans (h ▸ rfl))
              have hdl : d ≠ last := fun h => hd (hlast.trans (h ▸ rfl))
              exact (Links.link_next st.links hlc d).trans (by rw [if_neg hdl, if_neg hdc])
      · rw [if_neg hroom] at hs
        obtain rfl := Option.some.inj hs
        refine ⟨hsame, rfl, rfl, rfl, rfl, fun h d hd => Or.inr hd, fun hne _ d hdc hd _ => ?_⟩
        have hhc : head ≠ c := fun h => hne (hhead.trans (h ▸ rfl))
        have hdh : d ≠ head := fun h => hd (hhead.trans (h ▸ rfl))
        exact (Links.link_next st.links hhc d).trans (by rw [if_neg hdh, if_neg hdc])

theorem addChunk_spliced (hs : st.addChunk g c = some st') : Spliced g c st st' := by
  simp only [Store.addChunk, Option.bind_eq_bind, Option.bind_eq_some_iff] at hs
  obtain ⟨a, -, hs⟩ := hs
  have hshape := (structuralChange_shape st g a c).trans
    (addSize_shape (st.structuralChange g a c) g (st.count c))
  revert hs hshape
  generalize (st.structuralChange g a c).addSize g (st.count c) = st₁
  intro hs hshape
  have h := splice_spliced (Function.update_self ..) hs
  exact
    { type := by
        rw [h.type, Function.update_idem, hshape.type]
      count := h.count.trans hshape.count
      ct := h.ct.trans hshape.ct
      archetype := h.archetype.trans hshape.archetype
      freshArchetype := h.freshArchetype.trans hshape.freshArchetype
      ends := hshape.firstChunk ▸ hshape.lastChunk ▸ h.ends
      next := hshape.firstChunk ▸ hshape.lastChunk ▸ hshape.links ▸ h.next }

/-- The target `st₀` while chunks of `src` go over: those that have not are as they were. -/
structure Arriving (ctx : Context) (src st₀ : Store) (done : List ChunkId) (st : Store) : Prop where
  next : ∀ c, c ∉ done →
    st.links.next (st₀.freshChunk + c) = (src.links.next c).map (st₀.freshChunk + ·)
  count : ∀ c, st.count (st₀.freshChunk + c) = src.count c
  ct : ∀ c, st.ct (st₀.freshChunk + c) = src.ct c
  ends : ∀ g a, st.archetype g = some a → ∀ d, st.firstChunk g = some d ∨ st.lastChunk g = some d →
    d < st₀.freshChunk ∨ ∃ c ∈ done, d = st₀.freshChunk + c
  oldType : ∀ c < st₀.freshChunk, st.type c = st₀.type c
  oldCount : ∀ c < st₀.freshChunk, st.count c = st₀.count c
  arrived : ∀ c, st.type (st₀.freshChunk + c) ≠ none → c ∈ done
  built : ∀ g a, st.archetype g = some a → constructArchetype ctx a.type = some a
  known : ∀ g a, st.archetype g = some a → g < st.freshArchetype
  landed : ∀ c ∈ done, ∀ g a, src.type c = some g → src.archetype g = some a →
    ∃ g', st.type (st₀.freshChunk + c) = some g' ∧ st.archetype g' = some a

theorem arriving_beside (hwf : st.Wf ctx) (src : Store) :
    Arriving ctx src st [] (st.beside src) where
  next c _ := by simp [beside]
  count c := by simp [beside]
  ct c := by simp [beside]
  oldType c hc := if_pos hc
  oldCount c hc := if_pos hc
  arrived c hc := by simp [beside] at hc
  ends g a ha d hd := by
    refine Or.inl (Nat.lt_of_not_le fun hle => ?_)
    have htype : st.type d = some g := hd.elim (hwf.first g a d ha) (hwf.last g a d ha)
    rw [hwf.fresh d hle] at htype
    simp at htype
  built g a ha := (hwf.built g a ha).2
  known g a ha := (hwf.built g a ha).1
  landed c hc := absurd hc List.not_mem_nil

theorem Arriving.addChunk (h : Arriving ctx src st₀ done st) (ha : st.archetype g = some a)
    (hc : c ∉ done) (hsrc : ∀ h b, src.type c = some h → src.archetype h = some b → a = b)
    (hs : st.addChunk g (st₀.freshChunk + c) = some st') :
    Arriving ctx src st₀ (done ++ [c]) st' := by
  have hsp := addChunk_spliced hs
  -- an end of a list is not a chunk that has still to go over
  have hapart : ∀ d, d ∉ done → st.firstChunk g ≠ some (st₀.freshChunk + d) ∧
      st.lastChunk g ≠ some (st₀.freshChunk + d) := by
    intro d hd
    have hend : ¬ (st.firstChunk g = some (st₀.freshChunk + d) ∨
        st.lastChunk g = some (st₀.freshChunk + d)) := by
      intro hend
      rcases h.ends g a ha _ hend with hlt | ⟨d', hd', heq⟩
      · exact absurd hlt (Nat.le_add_right st₀.freshChunk d).not_gt
      · exact hd (Nat.add_left_cancel heq ▸ hd')
    exact not_or.mp hend
  refine ⟨fun d hd => ?_, fun d => ?_, fun d => ?_, fun g' a' ha' d hd => ?_, fun d hd => ?_,
    fun d hd => ?_, fun d hd => ?_, ?_, ?_, fun d hd h' b hd' hb => ?_⟩
  · rw [List.mem_append, List.mem_singleton, not_or] at hd
    have hdc : st₀.freshChunk + d ≠ st₀.freshChunk + c := fun heq => hd.2 (Nat.add_left_cancel heq)
    rw [hsp.next (hapart c hc).1 (hapart c hc).2 _ hdc (hapart d hd.1).1 (hapart d hd.1).2]
    exact h.next d hd.1
  · rw [hsp.count]
    exact h.count d
  · rw [hsp.ct]
    exact h.ct d
  · rw [hsp.archetype] at ha'
    rcases hsp.ends g' d hd with ⟨-, rfl⟩ | hd
    · exact Or.inr ⟨c, List.mem_append_right _ List.mem_cons_self, rfl⟩
    · refine (h.ends g' a' ha' d hd).imp_right ?_
      rintro ⟨c', hc', heq⟩
      exact ⟨c', List.mem_append_left _ hc', heq⟩
  · rw [hsp.type, Function.update_of_ne (hd.trans_le (Nat.le_add_right ..)).ne]
    exact h.oldType d hd
  · rw [hsp.count]
    exact h.oldCount d hd
  · rw [List.mem_append, List.mem_singleton]
    by_cases hdc : d = c
    · exact Or.inr hdc
    · rw [hsp.type, Function.update_of_ne fun heq => hdc (Nat.add_left_cancel heq)] at hd
      exact Or.inl (h.arrived d hd)
  · rw [hsp.archetype]
    exact h.built
  · rw [hsp.archetype, hsp.freshArchetype]
    exact h.known
  · rw [hsp.type, hsp.archetype]
    by_cases hdc : d = c
    · subst hdc
      exact ⟨g, Function.update_self .., hsrc h' b hd' hb ▸ ha⟩
    · have hmem : d ∈ done := by
        rcases List.mem_append.mp hd with hd | hd
        · exact hd
        · exact absurd (List.mem_singleton.mp hd) hdc
      obtain ⟨g', hg', hb'⟩ := h.landed d hmem h' b hd' hb
      exact ⟨g', (Function.update_of_ne (fun heq => hdc (Nat.add_left_cancel heq)) ..).trans hg', hb'⟩

/-- `get_archetype` finds or builds the archetype of the key. -/
theorem Arriving.getArchetype {key : EntityType} (h : Arriving ctx src st₀ done st)
    (hs : Store.getArchetype ctx st ents key = some (st', g)) :
    Arriving ctx src st₀ done st' ∧ ∃ a, st'.archetype g = some a ∧
      constructArchetype ctx key = some a := by
  unfold Store.getArchetype at hs
  cases hf : st.findArchetype key with
  | some g' =>
      simp only [hf, Option.some.injEq, Prod.mk.injEq] at hs
      obtain ⟨rfl, rfl⟩ := hs
      have hfind : st.archetypes.find? _ = some g' := hf
      have hkey := List.find?_some hfind
      rw [decide_eq_true_eq] at hkey
      obtain ⟨a, ha, rfl⟩ := Option.map_eq_some_iff.mp hkey
      exact ⟨h, a, ha, h.built g' a ha⟩
  | none =>
      simp only [hf, Option.bind_eq_bind, Option.bind_eq_some_iff, Option.some.injEq,
        Prod.mk.injEq, addArchetype] at hs
      obtain ⟨a, ha, st₂, ⟨st₁, hup, rfl⟩, rfl, rfl⟩ := hs
      have hshape := updateQueries_shape hup
      have harch : ∀ g, st₁.archetype g =
          if g = st.freshArchetype then some a else st.archetype g := fun g => by
        rw [hshape.archetype, newArchetype_archetype]
      refine ⟨⟨fun c hc => ?_, fun c => ?_, fun c => ?_, fun g' b hb d hd => ?_, fun c hc => ?_,
        fun c hc => ?_, fun c hc => ?_, fun g' b hb => ?_, fun g' b hb => ?_,
        fun c hc g' b hg hb => ?_⟩, a, ?_, ha⟩
      · change st₁.links.next _ = _
        rw [hshape.links]
        exact h.next c hc
      · change st₁.count _ = _
        rw [hshape.count]
        exact h.count c
      · change st₁.ct _ = _
        rw [hshape.ct]
        exact h.ct c
      · change st₁.archetype g' = some b at hb
        change st₁.firstChunk g' = some d ∨ st₁.lastChunk g' = some d at hd
        rw [hshape.firstChunk, hshape.lastChunk] at hd
        rw [harch] at hb
        simp only [newArchetype, Function.update_apply] at hd
        split_ifs at hb hd with hg
        · simp at hd
        · exact h.ends g' b hb d hd
      · change st₁.type c = _
        rw [hshape.type]
        exact h.oldType c hc
      · change st₁.count c = _
        rw [hshape.count]
        exact h.oldCount c hc
      · change st₁.type _ ≠ none at hc
        rw [hshape.type] at hc
        exact h.arrived c hc
      · change st₁.archetype g' = some b at hb
        rw [harch] at hb
        split_ifs at hb with hg
        · obtain rfl := Option.some.inj hb
          exact constructArchetype_type ha ▸ ha
        · exact h.built g' b hb
      · change g' < st₁.freshArchetype
        change st₁.archetype g' = some b at hb
        rw [harch] at hb
        rw [hshape.freshArchetype]
        split_ifs at hb with hg
        · exact hg ▸ Nat.lt_succ_self _
        · exact (h.known g' b hb).trans (Nat.lt_succ_self _)
      · obtain ⟨h', hh, hb'⟩ := h.landed c hc g' b hg hb
        refine ⟨h', ?_, ?_⟩
        · change st₁.type _ = _
          rw [hshape.type]
          exact hh
        · change st₁.archetype _ = _
          rw [harch, if_neg (h.known h' b hb').ne]
          exact hb'
      · change st₁.archetype st.freshArchetype = some a
        rw [harch, if_pos rfl]

end Store

namespace World

open Store

variable {ctx : Context} {p : Entity → Entity} {fuel : Nat} {src w : World} {st₀ : Store}
  {done l : List ChunkId} {first : Option ChunkId} {g dstG : ArchetypeId} {a : Archetype}
  {s s' : Merging}

/-- `patch_chunk` on a chunk of the source, under its archetype there. -/
def patchMoved (ctx : Context) (p : Entity → Entity) (src : World) (mm : Memory) (c : ChunkId) :
    Option Memory := do
  let (_, a) ← src.archetypeOf c
  mm.patchChunk ctx a (src.store.ct c) { c := c, start := 0, count := src.store.count c } p

/-- One chunk. -/
theorem moveChunk_eq {c : ChunkId} (h : Arriving ctx src.store st₀ done s.dst.store)
    (ha : s.dst.store.archetype dstG = some a) (hc : c ∉ done)
    (htype : src.archetypeOf c = some (g, a))
    (hs : moveChunk ctx p st₀.freshChunk dstG s (st₀.freshChunk + c) = some s') :
    Arriving ctx src.store st₀ (done ++ [c]) s'.dst.store ∧
      s'.dst.store.archetype dstG = some a ∧ s'.dst = { s.dst with store := s'.dst.store } ∧
      s'.src = s.src ∧ patchMoved ctx p src s.moved c = some s'.moved := by
  simp only [moveChunk, Option.bind_eq_bind, Option.bind_eq_some_iff, Option.some.injEq] at hs
  obtain ⟨st, hadd, ⟨g', b⟩, harch, moved, hpatch, rfl⟩ := hs
  obtain ⟨hsrcG, hsrcA⟩ := archetypeOf_eq_some.mp htype
  have hst := h.addChunk ha hc (fun g' b hg' hb => by
    obtain rfl := Option.some.inj (hsrcG.symm.trans hg')
    exact Option.some.inj (hsrcA.symm.trans hb)) hadd
  have hsp := addChunk_spliced hadd
  have ha' : st.archetype dstG = some a := hsp.archetype ▸ ha
  obtain ⟨htype', hb⟩ := archetypeOf_eq_some.mp harch
  change st.type _ = some g' at htype'
  rw [hsp.type, Function.update_self] at htype'
  obtain rfl := Option.some.inj htype'
  obtain rfl : a = b := Option.some.inj (ha'.symm.trans hb)
  refine ⟨hst, ha', rfl, rfl, ?_⟩
  rw [Nat.add_sub_cancel_left, hst.count, hst.ct] at hpatch
  rw [patchMoved, htype, Option.bind_eq_bind, Option.bind_some]
  exact hpatch

/-- The walk meets the chunks of the list in the source: `next` is read before it changes. -/
theorem moveChunks_eq (hl : Links.Path src.store.links.next first l) (hdone : ∀ c ∈ l, c ∉ done)
    (htype : ∀ c ∈ l, src.archetypeOf c = some (g, a))
    (h : Arriving ctx src.store st₀ done s.dst.store) (ha : s.dst.store.archetype dstG = some a)
    (hs : moveChunks ctx p st₀.freshChunk dstG fuel (first.map (st₀.freshChunk + ·)) s =
      some s') :
    Arriving ctx src.store st₀ (done ++ l) s'.dst.store ∧
      s'.dst = { s.dst with store := s'.dst.store } ∧ s'.src = s.src ∧
      l.foldlM (patchMoved ctx p src) s.moved = some s'.moved := by
  induction l generalizing fuel first done s with
  | nil =>
      obtain rfl : first = none := hl
      cases fuel with
      | zero => simp [moveChunks] at hs
      | succ fuel =>
          obtain rfl := Option.some.inj hs
          exact ⟨(List.append_nil done).symm ▸ h, rfl, rfl, rfl⟩
  | cons c l ih =>
      have hnd := List.nodup_cons.mp hl.nodup
      obtain ⟨rfl, hl⟩ := hl
      cases fuel with
      | zero => simp [moveChunks] at hs
      | succ fuel =>
          have hc := hdone c List.mem_cons_self
          simp only [Option.map_some, moveChunks, Option.bind_eq_bind, Option.bind_eq_some_iff,
            h.next c hc] at hs
          obtain ⟨s₁, hone, hs⟩ := hs
          obtain ⟨h₁, ha₁, hdst, hsrc, hpatch⟩ :=
            moveChunk_eq h ha hc (htype c List.mem_cons_self) hone
          have hdone₁ : ∀ d ∈ l, d ∉ done ++ [c] := by
            intro d hd hmem
            rcases List.mem_append.mp hmem with hmem | hmem
            · exact hdone d (List.mem_cons_of_mem c hd) hmem
            · exact hnd.1 (List.mem_singleton.mp hmem ▸ hd)
          obtain ⟨h', hdst', hsrc', hrest⟩ := ih hl hdone₁
            (fun d hd => htype d (List.mem_cons_of_mem c hd)) h₁ ha₁ hs
          refine ⟨?_, ?_, hsrc'.trans hsrc, ?_⟩
          · rwa [List.append_cons]
          · rw [hdst', hdst]
          · rw [List.foldlM_cons, hpatch, Option.bind_eq_bind, Option.bind_some]
            exact hrest

/-- After the archetypes `gs`, whose chunks are `cs`. -/
structure Merged (ctx : Context) (p : Entity → Entity) (src dst : World) (ents : Entities)
    (gs : List ArchetypeId) (cs : List ChunkId) (s : Merging) : Prop where
  arriving : Arriving ctx src.store dst.store cs s.dst.store
  nodup : cs.Nodup
  mem : ∀ c, c ∈ cs ↔ ∃ g ∈ gs, src.store.type c = some g
  archetype : ∀ g a, s.src.store.archetype g = some a → g ∉ gs ∧ src.store.archetype g = some a
  firstChunk : s.src.store.firstChunk = src.store.firstChunk
  patched : cs.foldlM (patchMoved ctx p src) src.memory = some s.moved
  target : s.dst = { dst with store := s.dst.store, ents := ents }
  cleared : s.src.ents = src.ents.clear

theorem Merged.moveArchetype {dst : World} {ents : Entities} {gs : List ArchetypeId}
    {cs : List ChunkId} (hl : src.store.Listed ctx) (h : Merged ctx p src dst ents gs cs s)
    (hs : moveArchetype ctx fuel p dst.store.freshChunk s g = some s') :
    ∃ l, Merged ctx p src dst ents (gs ++ [g]) (cs ++ l) s' := by
  simp only [World.moveArchetype, Option.bind_eq_bind, Option.bind_eq_some_iff,
    Option.some.injEq] at hs
  obtain ⟨a, ha, ⟨dst₁, dstG⟩, hget, s₁, hmove, st, hup, rfl⟩ := hs
  obtain ⟨hg, hsrc⟩ := h.archetype g a ha
  obtain ⟨fulls, frees, hch⟩ := hl.chain g a hsrc
  obtain ⟨st₁, hfound, rfl⟩ := getArchetype_eq_some hget
  obtain ⟨harr, b, hb, hkey⟩ := h.arriving.getArchetype hfound
  obtain rfl : a = b := Option.some.inj ((hl.built g a hsrc).2.symm.trans hkey)
  have hdone : ∀ c ∈ fulls ++ frees, c ∉ cs := by
    intro c hc hmem
    obtain ⟨g', hg', htype⟩ := (h.mem c).mp hmem
    obtain rfl : g = g' := Option.some.inj (((hch.mem c).mp hc).symm.trans htype)
    exact hg hg'
  have htype : ∀ c ∈ fulls ++ frees, src.archetypeOf c = some (g, a) := fun c hc =>
    archetypeOf_eq_some.mpr ⟨(hch.mem c).mp hc, hsrc⟩
  rw [h.firstChunk] at hmove
  obtain ⟨harr', hdst, hsrc', hpatch⟩ := moveChunks_eq hch.spans.path hdone htype harr hb hmove
  have hshape := updateQueries_shape hup
  refine ⟨fulls ++ frees, harr', ?_, fun c => ?_, fun g' b hb' => ?_, ?_, ?_, ?_, ?_⟩
  · exact List.nodup_append'.mpr ⟨h.nodup, hch.spans.path.nodup, fun c hc hc' => hdone c hc' hc⟩
  · rw [List.mem_append, h.mem, hch.mem]
    simp only [List.mem_append, List.mem_singleton, or_and_right, exists_or, exists_eq_left]
  · change Function.update st.archetype g none g' = some b at hb'
    rw [Function.update_apply] at hb'
    split_ifs at hb' with hgg
    rw [hshape.archetype, hsrc'] at hb'
    obtain ⟨hnot, hb'⟩ := h.archetype g' b hb'
    refine ⟨?_, hb'⟩
    rw [List.mem_append, List.mem_singleton, not_or]
    exact ⟨hnot, hgg⟩
  · change st.firstChunk = _
    rw [hshape.firstChunk, hsrc']
    exact h.firstChunk
  · rw [List.foldlM_append, h.patched, Option.bind_eq_bind, Option.bind_some]
    exact hpatch
  · change s₁.dst = { dst with store := s₁.dst.store, ents := ents }
    rw [hdst, h.target]
  · change s₁.src.ents = _
    rw [hsrc']
    exact h.cleared

/-- What the call has done: every chunk of the source went over once, and `patch_chunk` has worked
on it. -/
structure Absorbed (ctx : Context) (raw : Nat → Nat) (dst src : World) (r : Merging × Renaming)
    (es : List Entity) (cs : List ChunkId) : Prop where
  taken : dst.ents.newEntitiesArray (src.ents.validBefore src.ents.size).length =
    some (r.1.dst.ents, es)
  table : r.2 = renamingOf src.ents es
  memory : r.1.dst.memory = dst.memory
  arriving : Arriving ctx src.store dst.store cs r.1.dst.store
  nodup : cs.Nodup
  mem : ∀ c, c ∈ cs ↔ src.store.type c ≠ none
  patched : cs.foldlM (patchMoved ctx (r.2.patch raw) src) src.memory = some r.1.moved
  cleared : r.1.src.ents = src.ents.clear
  archetypes : r.1.src.store.archetypes = []

theorem moveContext_spec {raw : Nat → Nat} {dst : World} {r : Merging × Renaming}
    (hdst : dst.store.Wf ctx) (hl : src.store.Listed ctx) (hk : src.store.Known)
    (hs : moveContext ctx fuel raw dst src = some r) :
    ∃ es cs, Absorbed ctx raw dst src r es cs := by
  simp only [moveContext, Option.bind_eq_bind, Option.bind_eq_some_iff, Option.some.injEq] at hs
  obtain ⟨⟨ents, es⟩, hnew, s, hloop, rfl⟩ := hs
  obtain ⟨cs, hend⟩ := foldlM_initial (I := fun gs s => ∃ cs,
      Merged ctx ((renamingOf src.ents es).patch raw) src dst ents gs cs s)
    (fun gs g s s' _ hstep hI => by
      obtain ⟨cs, hI⟩ := hI
      obtain ⟨l, hI'⟩ := hI.moveArchetype hl hstep
      exact ⟨cs ++ l, hI'⟩) hloop
    ⟨[], arriving_beside hdst src.store, List.nodup_nil, by simp, fun g a ha =>
      ⟨List.not_mem_nil, ha⟩, rfl, rfl, rfl, rfl⟩
  have hents : s.dst.ents = ents := by rw [hend.target]
  have hmemory : s.dst.memory = dst.memory := by rw [hend.target]
  refine ⟨es, cs, hents ▸ hnew, rfl, hmemory, hend.arriving, hend.nodup, fun c => ?_, hend.patched,
    hend.cleared, rfl⟩
  rw [hend.mem]
  constructor
  · rintro ⟨g, -, hg⟩
    exact hg ▸ Option.some_ne_none g
  · intro hne
    obtain ⟨g, hg⟩ := Option.ne_none_iff_exists'.mp hne
    exact ⟨g, (hk.listed g).mpr (hl.alive c g hg), hg⟩

end World

end Dots

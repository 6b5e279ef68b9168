import Dots.Database.Run
import Dots.Database.Serialize

/-!
# The reads of a load

`deserialize` of an entity or of a group is one `deserialize_single` after the other, each from
the world and the bytes that the one before left; what lies between them only looks at the
world. Every read takes bytes off the stream.
-/

namespace Dots

open Library

namespace Memory

/-! ## Bytes that are taken -/

theorem takes_loadColumn (a : Archetype) (ct : AllocType) (s : ChunkSlice) (mm : Memory) (i : Nat) :
    Mem.Takes fun bs => loadColumn a ct s mm bs i := by
  intro bs mm' rest h
  simp only [loadColumn, Option.bind_eq_bind, Option.bind_eq_some_iff] at h
  obtain ⟨⟨b, bs₁⟩, htake, heq⟩ := h
  obtain ⟨-, rfl⟩ := Prod.mk.inj (Option.some.inj heq)
  have := Mem.length_take htake
  dsimp only
  omega

theorem takes_loadBuffer (c : ChunkId) (addr : Nat) (mm : Memory) :
    Mem.Takes fun bs => loadBuffer c addr mm bs := by
  intro bs mm' rest h
  simp only [loadBuffer, Option.bind_eq_bind, Option.bind_eq_some_iff] at h
  obtain ⟨⟨b, bs₁⟩, htake, heq⟩ := h
  have hle := Mem.length_take htake
  split_ifs at heq
  · obtain ⟨-, rfl⟩ := Prod.mk.inj (Option.some.inj heq)
    dsimp only
    omega
  · obtain ⟨-, rfl⟩ := Prod.mk.inj (Option.some.inj heq)
    dsimp only
    omega

/-- A loop of readers. -/
theorem takes_foldlM {α : Type*} {turn : Memory → List UInt8 → α → Option (Memory × List UInt8)}
    {l : List α} (h : ∀ mm x, Mem.Takes fun bs => turn mm bs x) (mm : Memory) :
    Mem.Takes fun bs => l.foldlM (fun (mm, bs) x => turn mm bs x) (mm, bs) := by
  intro bs mm' rest hs
  refine foldlM_invariant (P := fun r : Memory × List UInt8 => r.2.length ≤ bs.length) ?_ hs le_rfl
  rintro x - ⟨mm₁, bs₁⟩ ⟨mm₂, bs₂⟩ hturn hle
  exact (h mm₁ x _ _ _ hturn).trans hle

theorem takes_loadSlice (mm : Memory) (a : Archetype) (ct : AllocType) (s : ChunkSlice) :
    Mem.Takes fun bs => mm.loadSlice a ct s bs := by
  intro bs mm' rest h
  simp only [loadSlice, Option.bind_eq_bind, Option.bind_eq_some_iff] at h
  obtain ⟨⟨b, bs₁⟩, htake, ⟨mm₁, bs₂⟩, hcolumns, hbuffers⟩ := h
  have hhandles := Mem.length_take htake
  have harrays := takes_foldlM (fun mm i => takes_loadColumn a ct s mm i) _ _ _ _ hcolumns
  have hrest := takes_foldlM (fun mm i =>
    takes_foldlM (fun mm j => takes_loadBuffer s.c (a.address ct i (s.start + j)) mm) mm)
    _ _ _ _ hbuffers
  dsimp only at harrays hrest
  omega

end Memory

namespace World

variable {ctx : Context} {w w' : World} {p : Option Memory.Patcher}

theorem takes_readKey (ctx : Context) : Mem.Takes (readKey ctx) := by
  intro bs key rest h
  simp only [readKey, Option.bind_eq_bind, Option.bind_eq_some_iff] at h
  obtain ⟨⟨n, bs₁⟩, hn, ⟨guids, bs₂⟩, hguids, ⟨m, bs₃⟩, hm, ⟨metas, bs₄⟩, hmetas, heq⟩ := h
  obtain ⟨-, rfl⟩ := Prod.mk.inj (Option.some.inj heq)
  have hguid : Mem.Takes takeGuid := by
    intro bs x rest h
    obtain ⟨⟨b, rest'⟩, hb, heq⟩ := Option.map_eq_some_iff.mp h
    obtain ⟨-, rfl⟩ := Prod.mk.inj heq
    have := Mem.length_take hb
    omega
  have hentity : Mem.Takes takeEntity := by
    intro bs x rest h
    obtain ⟨⟨v, rest'⟩, hv, heq⟩ := Option.map_eq_some_iff.mp h
    obtain ⟨-, rfl⟩ := Prod.mk.inj heq
    have := Mem.length_takeWord hv
    omega
  have h₁ := Mem.length_takeWord hn
  have h₂ := Mem.takes_many hguid n _ _ _ hguids
  have h₃ := Mem.length_takeWord hm
  have h₄ := Mem.takes_many hentity m _ _ _ hmetas
  dsimp only at h₂ h₃ h₄ ⊢
  omega

/-- What `deserialize_archetype` reads before it looks at the world. -/
theorem deserializeArchetype_spec {g : ArchetypeId} {bs rest : List UInt8}
    (h : w.deserializeArchetype ctx p false bs = some (w', some g, rest)) :
    ∃ size bs₁ key w₁, Mem.takeWord 4 bs = some (size, bs₁) ∧ size ≠ 0 ∧
      readKey ctx bs₁ = some (key, rest) ∧
      w.getArchetype ctx (w.loadedType p false key) = some (w₁, g) ∧
      w' = { w₁ with store := w₁.store.addSize g size } := by
  simp only [deserializeArchetype, Option.bind_eq_bind, Option.bind_eq_some_iff,
    Bool.false_eq_true, if_false] at h
  obtain ⟨⟨size, bs₁⟩, hsize, h⟩ := h
  split_ifs at h with hzero
  · simp at h
  · simp only [Option.bind_eq_some_iff] at h
    obtain ⟨⟨key, bs₂⟩, hkey, ⟨w₁, g'⟩, hget, heq⟩ := h
    obtain ⟨rfl, hrest⟩ := Prod.mk.inj (Option.some.inj heq)
    obtain ⟨hg, rfl⟩ := Prod.mk.inj hrest
    obtain rfl := Option.some.inj hg
    exact ⟨size, bs₁, key, w₁, hsize, hzero, hkey, hget, rfl⟩

/-- The contents of a slice are read into the slots that were made for it. -/
theorem deserializeSlice_spec {g : ArchetypeId} {s : ChunkSlice} {bs rest : List UInt8}
    (h : w.deserializeSlice g bs = some (w', some s, rest)) :
    ∃ count bs₁ st a mm, Mem.takeWord 4 bs = some (count, bs₁) ∧ 0 < count ∧
      w.store.loadSlots w.ents g count = some (st, s) ∧ st.type s.c ≠ none ∧
      mm.2 = rest ∧ w.memory.loadSlice a (st.ct s.c) s bs₁ = some mm ∧
      w' = { w with store := st, memory := mm.1 } := by
  simp only [deserializeSlice, Option.bind_eq_bind, Option.bind_eq_some_iff] at h
  obtain ⟨⟨count, bs₁⟩, hcount, h⟩ := h
  split_ifs at h with hzero
  · simp at h
  · simp only [Option.bind_eq_some_iff] at h
    obtain ⟨⟨st, t⟩, hslots, ⟨g', a⟩, harch, ⟨mm, bs₂⟩, hload, heq⟩ := h
    obtain ⟨rfl, hrest⟩ := Prod.mk.inj (Option.some.inj heq)
    obtain ⟨ht, rfl⟩ := Prod.mk.inj hrest
    obtain rfl := Option.some.inj ht
    have htype : st.type t.c = some g' := (archetypeOf_eq_some.mp harch).1
    exact ⟨count, bs₁, st, a, (mm, bs₂), hcount, Nat.pos_of_ne_zero hzero, hslots,
      htype ▸ Option.some_ne_none g', rfl, hload, rfl⟩

theorem patchSlice_store {s : ChunkSlice} (h : w.patchSlice ctx s p = some w') :
    w'.store = w.store := by
  cases p with
  | none => exact congrArg store (Option.some.inj h).symm
  | some p =>
      simp only [patchSlice, Option.bind_eq_bind, Option.bind_eq_some_iff] at h
      obtain ⟨⟨g, a⟩, -, mm, -, heq⟩ := h
      rw [← Option.some.inj heq]

/-- `deserialize_single`: an archetype, a slice of it, handles and references. -/
theorem deserializeSingle_spec {s : ChunkSlice} {bs rest : List UInt8}
    (h : w.deserializeSingle ctx p bs = some (w', s, rest)) :
    ∃ w₁ g bs₁ w₂ w₃, w.deserializeArchetype ctx p false bs = some (w₁, some g, bs₁) ∧
      w₁.deserializeSlice g bs₁ = some (w₂, some s, rest) ∧ w₂.newEntities s = some w₃ ∧
      w₃.patchSlice ctx s p = some w' := by
  simp only [deserializeSingle, Option.bind_eq_bind, Option.bind_eq_some_iff] at h
  obtain ⟨⟨w₁, target, bs₁⟩, harch, g, hg, ⟨w₂, slice, bs₂⟩, hslice, t, ht, w₃, hnew, w₄, hpatch,
    heq⟩ := h
  obtain ⟨rfl, hrest⟩ := Prod.mk.inj (Option.some.inj heq)
  obtain ⟨rfl, rfl⟩ := Prod.mk.inj hrest
  dsimp only at hg ht
  subst hg ht
  exact ⟨w₁, g, bs₁, w₂, w₃, harch, hslice, hnew, hpatch⟩

/-- A read takes its header off the stream, at least. -/
theorem length_deserializeSingle {s : ChunkSlice} {bs rest : List UInt8}
    (h : w.deserializeSingle ctx p bs = some (w', s, rest)) : rest.length < bs.length := by
  obtain ⟨w₁, g, bs₁, w₂, w₃, harch, hslice, -, -⟩ := deserializeSingle_spec h
  obtain ⟨size, bs₂, key, w₀, hsize, -, hkey, -, -⟩ := deserializeArchetype_spec harch
  obtain ⟨count, bs₃, st, a, mm, hcount, -, -, -, rfl, hload, -⟩ := deserializeSlice_spec hslice
  have h₁ := Mem.length_takeWord hsize
  have h₂ := takes_readKey ctx _ _ _ hkey
  have h₃ := Mem.length_takeWord hcount
  have h₄ := Memory.takes_loadSlice _ _ _ _ _ _ _ hload
  omega

/-! ## One read after the other -/

/-- The worlds and the bytes between the reads that start at `w` and `bs`. -/
inductive Reads (ctx : Context) (p : Option Memory.Patcher) (w : World) (bs : List UInt8) :
    World → List UInt8 → Prop
  | start : Reads ctx p w bs w bs
  | next {w₁ w₂ : World} {bs₁ bs₂ : List UInt8} {s : ChunkSlice} (h : Reads ctx p w bs w₁ bs₁)
      (hs : w₁.deserializeSingle ctx p bs₁ = some (w₂, s, bs₂)) : Reads ctx p w bs w₂ bs₂

theorem Reads.length_le {bs rest : List UInt8} (h : Reads ctx p w bs w' rest) :
    rest.length ≤ bs.length := by
  induction h with
  | start => exact le_rfl
  | next _ hs ih => exact (length_deserializeSingle hs).le.trans ih

/-- What every read keeps that starts before the end of the load, the load keeps. -/
theorem Reads.invariant {I : World → Prop} {bs rest : List UInt8} (h : Reads ctx p w bs w' rest)
    (hread : ∀ w₁ bs₁ w₂ s bs₂, Reads ctx p w bs w₁ bs₁ → rest.length < bs₁.length → I w₁ →
      w₁.deserializeSingle ctx p bs₁ = some (w₂, s, bs₂) → I w₂) (hI : I w) : I w' := by
  induction h with
  | start => exact hI
  | next h hs ih =>
      have hlt := length_deserializeSingle hs
      refine hread _ _ _ _ _ h hlt (ih fun w₁ bs₁ w₂ s bs₂ h₁ hlt₁ => ?_) hs
      exact hread w₁ bs₁ w₂ s bs₂ h₁ (hlt.trans hlt₁)

/-- The members of a group, and of the groups among them. -/
theorem reads_deserializePrefab {w₀ : World} {bs₀ bs rest : List UInt8} {fuel : Nat} {c : ChunkId}
    {addr : Nat} {members : List Entity} (hr : Reads ctx p w₀ bs₀ w bs)
    (h : deserializePrefab ctx p fuel c addr w bs = some (w', members, rest)) :
    Reads ctx p w₀ bs₀ w' rest := by
  induction fuel generalizing c addr w bs w' members rest with
  | zero => simp [deserializePrefab] at h
  | succ fuel ih =>
      rw [deserializePrefab] at h
      refine foldlM_invariant
        (P := fun r : World × List Entity × List UInt8 => Reads ctx p w₀ bs₀ r.1 r.2.2) ?_ h hr
      rintro i - ⟨w₁, result, bs₁⟩ ⟨w₂, result', bs₂⟩ hturn hr₁
      simp only [Option.bind_eq_bind, Option.bind_eq_some_iff] at hturn
      obtain ⟨⟨w₃, s, bs₃⟩, hsingle, group, -, hturn⟩ := hturn
      have hr₃ := hr₁.next hsingle
      cases group with
      | none =>
          obtain ⟨rfl, hrest⟩ := Prod.mk.inj (Option.some.inj hturn)
          obtain ⟨-, rfl⟩ := Prod.mk.inj hrest
          exact hr₃
      | some at_ =>
          simp only [Option.bind_eq_some_iff] at hturn
          obtain ⟨⟨w₄, inner, bs₄⟩, hprefab, heq⟩ := hturn
          obtain ⟨rfl, hrest⟩ := Prod.mk.inj (Option.some.inj heq)
          obtain ⟨-, rfl⟩ := Prod.mk.inj hrest
          exact ih hr₃ hprefab

/-- `deserialize` is a run of reads; behind it the references of a group are set. -/
theorem reads_deserializeEntity {bs rest : List UInt8} {fuel : Nat} {e : Entity}
    (h : w.deserializeEntity ctx fuel p bs = some (w', e, rest)) :
    ∃ w₁, Reads ctx p w bs w₁ rest ∧ w'.store = w₁.store := by
  simp only [deserializeEntity, Option.bind_eq_bind, Option.bind_eq_some_iff] at h
  obtain ⟨⟨w₁, root, bs₁⟩, hsingle, group, -, h⟩ := h
  have hr : Reads ctx p w bs w₁ bs₁ := .next .start hsingle
  cases group with
  | none =>
      obtain ⟨rfl, hrest⟩ := Prod.mk.inj (Option.some.inj h)
      obtain ⟨-, rfl⟩ := Prod.mk.inj hrest
      exact ⟨_, hr, rfl⟩
  | some at_ =>
      simp only [Option.bind_eq_some_iff] at h
      obtain ⟨⟨w₂, prefab, bs₂⟩, hprefab, w₃, hback, heq⟩ := h
      obtain ⟨rfl, hrest⟩ := Prod.mk.inj (Option.some.inj heq)
      obtain ⟨-, rfl⟩ := Prod.mk.inj hrest
      exact ⟨w₂, reads_deserializePrefab hr hprefab, prefabToGroup_store hback⟩

/-- Saving an entity or a group leaves the store as it is. -/
theorem serializeEntity_store {fuel : Nat} {src : Entity} {bs : List UInt8}
    (h : w.serializeEntity ctx fuel src = some (w', bs)) : w'.store = w.store := by
  simp only [serializeEntity, Option.bind_eq_bind, Option.bind_eq_some_iff] at h
  obtain ⟨group, -, h⟩ := h
  cases group with
  | none =>
      simp only [Option.bind_eq_some_iff] at h
      obtain ⟨bytes, -, heq⟩ := h
      obtain ⟨rfl, -⟩ := Prod.mk.inj (Option.some.inj heq)
      rfl
  | some at_ =>
      simp only [serializeGroup, Option.bind_eq_bind, Option.bind_eq_some_iff] at h
      obtain ⟨members, -, w₁, hto, bytes, -, w₂, hback, heq⟩ := h
      obtain ⟨rfl, -⟩ := Prod.mk.inj (Option.some.inj heq)
      exact (prefabToGroup_store hback).trans (groupToPrefab_store hto)

end World

end Dots

import Dots.Database.Duplication
import Dots.Database.Integrity
import Dots.Database.Keys
import Dots.Database.Queries
import Dots.Database.Snapshot

/-!
# The keys of a saved world

The loader makes a new archetype of each key that was written. A key that is a set, whose types
are registered, is read as it was; and where no archetype was, those that are made afterwards
are one for each key.
-/

namespace Dots

open Library

/-- A key that is read as it was written. -/
structure SavableKey (ctx : Context) (key : EntityType) : Prop where
  types : key.types.length < 2 ^ 16
  metatypes : key.metatypes.length < 2 ^ 16
  guids : ∀ t ∈ key.types,
    (ctx.info t).guid < 2 ^ 128 ∧ ctx.hash2type.lookup (ctx.info t).guid = some t
  handles : ∀ m ∈ key.metatypes, m.value < 2 ^ 32
  sortedTypes : SortedTypes key.types
  sortedMetas : key.metatypes.Pairwise (· ≤ ·)

theorem takeGuid_append {uu : GUID} (h : uu < 2 ^ 128) (rest : List UInt8) :
    takeGuid (guidBytes uu ++ rest) = some (uu, rest) := by
  have hlen : (guidBytes uu).length = 16 := by
    rw [guidBytes, List.length_reverse, Mem.length_wordBytes]
  rw [takeGuid, Mem.take_append hlen, Option.map_some]
  dsimp only
  rw [guidBytes, List.reverse_reverse, Mem.ofBytes_wordBytes (by omega)]

theorem takeEntity_append {e : Entity} (h : e.value < 2 ^ 32) (rest : List UInt8) :
    takeEntity (Mem.wordBytes e.value 4 ++ rest) = some (e, rest) := by
  rw [takeEntity, Mem.takeWord_append (by omega)]
  rfl

namespace World

variable {ctx : Context} {w v v₀ : World} {st : Store} {g : ArchetypeId} {a : Archetype}
  {key : EntityType}

/-- The bytes of a key. -/
def keyBytes (ctx : Context) (key : EntityType) : List UInt8 :=
  Mem.wordBytes key.types.length 2
    ++ ((key.types.flatMap fun t => guidBytes (ctx.info t).guid)
    ++ (Mem.wordBytes key.metatypes.length 2
    ++ key.metatypes.flatMap fun e => Mem.wordBytes e.value 4))

theorem serializeArchetype_eq (ctx : Context) (st : Store) (g : ArchetypeId) (a : Archetype) :
    serializeArchetype ctx st g a = Mem.wordBytes (st.size g) 4 ++ keyBytes ctx a.type := by
  simp only [serializeArchetype, keyBytes, List.append_assoc]
  rfl

theorem readKey_append (h : SavableKey ctx key) (rest : List UInt8) :
    readKey ctx (keyBytes ctx key ++ rest) = some (key, rest) := by
  have hguids : ∀ bs, Mem.takeMany takeGuid key.types.length
      ((key.types.flatMap fun t => guidBytes (ctx.info t).guid) ++ bs) =
        some (key.types.map fun t => (ctx.info t).guid, bs) := by
    intro bs
    have hmany : Mem.takeMany takeGuid (key.types.map fun t => (ctx.info t).guid).length
        ((key.types.map fun t => (ctx.info t).guid).flatMap guidBytes ++ bs) =
          some (key.types.map fun t => (ctx.info t).guid, bs) :=
      Mem.takeMany_append (fun uu huu bs => by
        obtain ⟨t, ht, rfl⟩ := List.mem_map.mp huu
        exact takeGuid_append (h.guids t ht).1 bs) bs
    rwa [List.length_map, List.flatMap_map] at hmany
  have hmetas : ∀ bs, Mem.takeMany takeEntity key.metatypes.length
      ((key.metatypes.flatMap fun e => Mem.wordBytes e.value 4) ++ bs) =
        some (key.metatypes, bs) :=
    fun bs => Mem.takeMany_append (fun e he bs => takeEntity_append (h.handles e he) bs) bs
  have hback : (key.types.map fun t => (ctx.info t).guid).map
      (fun uu => (ctx.hash2type.lookup uu).getD 0) = key.types := by
    rw [List.map_map]
    refine (List.map_congr_left fun t ht => ?_).trans (List.map_id _)
    simp only [Function.comp_apply, (h.guids t ht).2, Option.getD_some, id_eq]
  simp only [readKey, keyBytes, List.append_assoc, Option.bind_eq_bind]
  rw [Mem.takeWord_append (h.types.trans_eq (by decide)), Option.bind_some]
  dsimp only
  rw [hguids, Option.bind_some]
  dsimp only
  rw [Mem.takeWord_append (h.metatypes.trans_eq (by decide)), Option.bind_some]
  dsimp only
  rw [hmetas, Option.bind_some]
  dsimp only
  rw [hback]

/-- Without a patcher the type of a new archetype is the key. -/
theorem loadedType_new (h : SavableKey ctx key) (v : World) :
    v.loadedType none true key = key := by
  simp only [loadedType, if_true, h.sortedTypes.1.insertionSort_eq,
    h.sortedMetas.insertionSort_eq]

/-- The archetype of a key that was saved. -/
theorem deserializeArchetype_append (ha : constructArchetype ctx a.type = some a)
    (hkey : SavableKey ctx a.type) (hpos : st.size g ≠ 0) (hlt : st.size g < 2 ^ 32) (v : World)
    (rest : List UInt8) :
    v.deserializeArchetype ctx none true (serializeArchetype ctx st g a ++ rest) =
      some ({ v with store :=
        (v.store.newArchetype a).1.addSize v.store.freshArchetype (st.size g) },
        some v.store.freshArchetype, rest) := by
  simp only [serializeArchetype_eq, List.append_assoc, deserializeArchetype, Option.bind_eq_bind]
  rw [Mem.takeWord_append (hlt.trans_eq (by decide)), Option.bind_some]
  dsimp only
  rw [if_neg hpos, readKey_append hkey, Option.bind_some]
  dsimp only
  rw [loadedType_new hkey, if_pos trivial, ha]
  rfl

/-! ## All keys -/

/-- A world in which nothing is left: no chunk, no archetype, no query. -/
structure Vacant (ctx : Context) (v : World) : Prop where
  listed : v.store.Listed ctx
  type : ∀ c, v.store.type c = none
  archetype : ∀ g, v.store.archetype g = none
  archetypes : v.store.archetypes = []
  queries : v.store.queries = []
  mallocs : v.memory.Mallocs

/-- What `w` is to save of an archetype: a key that comes back, and a size, since the size zero
ends the list. -/
structure SavableArchetype (ctx : Context) (st : Store) (g : ArchetypeId) (a : Archetype) :
    Prop where
  key : SavableKey ctx a.type
  size_ne : st.size g ≠ 0
  size_lt : st.size g < 2 ^ 32

/-- The archetypes `done` have been made, and nothing else has happened. -/
structure Made (ctx : Context) (v₀ : World) (done : List (ArchetypeId × Archetype))
    (out : List ArchetypeId) (v : World) : Prop where
  listed : v.store.Listed ctx
  ents : v.ents = v₀.ents
  memory : v.memory = v₀.memory
  type : ∀ c, v.store.type c = none
  archetypes : v.store.archetypes = []
  queries : v.store.queries = []
  archetype : List.Forall₂ (fun p h => v.store.archetype h = some p.2) done out
  alive : ∀ h, h ∈ out ↔ ∃ b, v.store.archetype h = some b
  nodup : out.Nodup

theorem Made.start (h : Vacant ctx v₀) : Made ctx v₀ [] [] v₀ where
  listed := h.listed
  ents := rfl
  memory := rfl
  type := h.type
  archetypes := h.archetypes
  queries := h.queries
  archetype := .nil
  alive g := by simp [h.archetype]
  nodup := List.nodup_nil

/-- One more archetype. -/
theorem Made.turn {done : List (ArchetypeId × Archetype)} {out : List ArchetypeId} {n : Nat}
    (h : Made ctx v₀ done out v) (ha : constructArchetype ctx a.type = some a) (g : ArchetypeId) :
    Made ctx v₀ (done ++ [(g, a)]) (out ++ [v.store.freshArchetype])
      { v with store := (v.store.newArchetype a).1.addSize v.store.freshArchetype n } := by
  have hnew : ∀ h b, (v.store.newArchetype a).1.archetype h = some b ↔
      h = v.store.freshArchetype ∧ a = b ∨ h ≠ v.store.freshArchetype ∧
        v.store.archetype h = some b := by
    intro h b
    rw [Store.newArchetype_archetype]
    split_ifs with heq
    · simp [heq]
    · simp [heq]
  have hold : ∀ h b, v.store.archetype h = some b → h ≠ v.store.freshArchetype :=
    fun h' b hb heq => absurd (h.listed.built h' b hb).1 (heq ▸ lt_irrefl _)
  refine ⟨?_, h.ents, h.memory, h.type, h.archetypes, h.queries, ?_, ?_, ?_⟩
  · exact (h.listed.newArchetype ha).congr (Store.addSize_shape _ _ _)
  · refine List.rel_append ?_ (.cons ?_ .nil)
    · exact h.archetype.imp fun p k hk => (hnew k p.2).mpr (Or.inr ⟨hold k _ hk, hk⟩)
    · exact (hnew _ a).mpr (Or.inl ⟨rfl, rfl⟩)
  · intro k
    rw [List.mem_append, List.mem_singleton, h.alive]
    constructor
    · rintro (⟨b, hb⟩ | rfl)
      · exact ⟨b, (hnew k b).mpr (Or.inr ⟨hold k b hb, hb⟩)⟩
      · exact ⟨a, (hnew _ a).mpr (Or.inl ⟨rfl, rfl⟩)⟩
    · rintro ⟨b, hb⟩
      exact ((hnew k b).mp hb).symm.imp (fun hb => ⟨b, hb.2⟩) And.left
  · refine List.nodup_append.mpr ⟨h.nodup, List.nodup_singleton _, fun k hk l hl => ?_⟩
    obtain ⟨b, hb⟩ := (h.alive k).mp hk
    exact List.mem_singleton.mp hl ▸ hold k b hb

/-- Every archetype was made of a key. -/
theorem Made.source {ats : List (ArchetypeId × Archetype)} {out : List ArchetypeId}
    (hmade : Made ctx v₀ ats out v) {h : ArchetypeId} (ha : v.store.archetype h = some a) :
    ∃ x ∈ ats.zip out, x.2 = h ∧ x.1.2 = a := by
  have hout : h ∈ (ats.zip out).map Prod.snd := by
    rw [List.map_snd_zip hmade.archetype.length_eq.ge, hmade.alive]
    exact ⟨a, ha⟩
  obtain ⟨x, hx, rfl⟩ := List.mem_map.mp hout
  have hmakes := List.forall₂_zip hmade.archetype hx
  exact ⟨x, hx, rfl, Option.some.inj (hmakes.symm.trans ha)⟩

/-- Of keys that are in one archetype each no two are made into archetypes of one key. -/
theorem Made.distinct {ats : List (ArchetypeId × Archetype)} {out : List ArchetypeId}
    (hmade : Made ctx v₀ ats out v)
    (hkeys : ∀ p ∈ ats, ∀ q ∈ ats, p.2.type = q.2.type → p.1 = q.1)
    (hnd : (ats.map Prod.fst).Nodup) {h k : ArchetypeId} {b : Archetype}
    (ha : v.store.archetype h = some a) (hb : v.store.archetype k = some b)
    (htype : a.type = b.type) : h = k := by
  obtain ⟨x, hx, rfl, rfl⟩ := hmade.source ha
  obtain ⟨y, hy, rfl, rfl⟩ := hmade.source hb
  have hsame := hkeys x.1 (List.of_mem_zip hx).1 y.1 (List.of_mem_zip hy).1 htype
  have hinj : ((ats.zip out).map fun x => x.1.1).Nodup := by
    have hmap := List.map_fst_zip hmade.archetype.length_eq.le
    rw [← hmap, List.map_map] at hnd
    exact hnd
  rw [List.inj_on_of_nodup_map hinj hx hy hsame]

/-- The new archetypes are entered into the map in their order. -/
theorem Made.known {ats : List (ArchetypeId × Archetype)} {out : List ArchetypeId}
    (hmade : Made ctx v₀ ats out v)
    (hkeys : ∀ p ∈ ats, ∀ q ∈ ats, p.2.type = q.2.type → p.1 = q.1)
    (hnd : (ats.map Prod.fst).Nodup) (harch : st.archetype = v.store.archetype)
    (hlist : st.archetypes = out)
    (hnumbered : ∀ g a, st.archetype g = some a → g < st.freshArchetype) : st.Known where
  numbered := hnumbered
  listed g := by rw [hlist, hmade.alive, harch]
  distinct g h a b ha hb htype :=
    hmade.distinct hkeys hnd (harch ▸ ha) (harch ▸ hb) htype

theorem length_le_keys (ctx : Context) (st : Store) (ats : List (ArchetypeId × Archetype)) :
    ats.length ≤ (ats.flatMap fun p => serializeArchetype ctx st p.1 p.2).length := by
  refine Stream.length_le_flatMap fun p _ => List.ne_nil_of_length_pos ?_
  rw [serializeArchetype_eq, List.length_append, Mem.length_wordBytes]
  exact Nat.add_pos_left (by decide) _

/-- The list of the keys is read to its end. -/
theorem made_run (h : Vacant ctx v₀) {ats : List (ArchetypeId × Archetype)}
    (hbuilt : ∀ p ∈ ats, constructArchetype ctx p.2.type = some p.2)
    (hsave : ∀ p ∈ ats, SavableArchetype ctx w.store p.1 p.2) (rest : List UInt8) {fuel : Nat}
    (hfuel : ats.length < fuel) : ∃ v out,
      Stream.untilNull (fun v bs => deserializeArchetype ctx v none true bs) fuel v₀
        (ats.flatMap (fun p => serializeArchetype ctx w.store p.1 p.2) ++
          (Mem.wordBytes 0 4 ++ rest)) = some (v, out, rest) ∧ Made ctx v₀ ats out v := by
  refine Stream.untilNull_append (I := Made ctx v₀) ?_ ?_ (Made.start h) rest hfuel
  · intro done p later out v bs hats hdone
    have hmem : p ∈ ats := hats ▸ List.mem_append_right _ List.mem_cons_self
    have hp := hsave p hmem
    exact ⟨_, _, deserializeArchetype_append (hbuilt p hmem) hp.key hp.size_ne hp.size_lt v bs,
      hdone.turn (hbuilt p hmem) p.1⟩
  · intro v bs
    rw [deserializeArchetype, Mem.takeWord_append (by decide)]
    rfl

end World

end Dots

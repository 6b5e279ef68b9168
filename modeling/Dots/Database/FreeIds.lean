import Dots.Database.Carry
import Dots.Database.Handles

/-!
# Ids that get lost

Id 0 is the end mark of the free list. Until it is freed itself, every id of the table
is that of a slot or on the list. The other ids, lost or not, have no slot in their entries.
-/

namespace Dots

open Library

namespace Entities

variable {ents ents' : Entities} {mm mm' : Memory} {L L' : Slots}
  {R : Entities → Nat → Prop} {P : List Nat → Prop}

/-- Some slot of `L` holds `id`. -/
def Held (mm : Memory) (L : Slots) (id : Nat) : Prop :=
  ∃ c i, L c i ∧ (mm.entityAt c i).id = id

theorem Held.mono {id : Nat} (h : Held mm L id)
    (hL : ∀ c i, L c i → L' c i ∧ mm'.entityAt c i = mm.entityAt c i) : Held mm' L' id := by
  obtain ⟨c, i, hi, rfl⟩ := h
  obtain ⟨hi', hsame⟩ := hL c i hi
  exact ⟨c, i, hi', congrArg Entity.id hsame⟩

/-! ## The free list of a later table -/

theorem onFreeList_of_zero (h : ents.free = 0) (id : Nat) : ¬ OnFreeList ents id := by
  intro hid
  induction hid with
  | head h0 => exact h0 h
  | next _ _ _ ih => exact ih

/-- Entries that change, change to those of ids in chunks. -/
structure Shifted (ents ents' : Entities) : Prop where
  free : ents'.free = ents.free
  size : ents'.size = ents.size
  entry : ∀ id, (ents'.datas id).c = (ents.datas id).c ∨ ∃ c, (ents'.datas id).c = .chunk c

theorem Shifted.refl (ents : Entities) : Shifted ents ents := ⟨rfl, rfl, fun _ => Or.inl rfl⟩

theorem Shifted.trans {ents'' : Entities} (h : Shifted ents ents') (h' : Shifted ents' ents'') :
    Shifted ents ents'' where
  free := h'.free.trans h.free
  size := h'.size.trans h.size
  entry id := by
    rcases h'.entry id with hsame | hchunk
    · rw [hsame]
      exact h.entry id
    · exact Or.inr hchunk

theorem shifted_place (ents : Entities) (e : Entity) (c : ChunkId) (slot : Nat) :
    Shifted ents (ents.place e c slot) := by
  refine ⟨rfl, rfl, fun id => ?_⟩
  rw [place_datas]
  split_ifs
  · exact Or.inr ⟨c, rfl⟩
  · exact Or.inl rfl

theorem shifted_moveEntities (c : ChunkId) (slot : Nat) (es : List Entity) (ents : Entities) :
    Shifted ents (Entities.moveEntities c slot es ents) := by
  induction es generalizing slot ents with
  | nil => exact .refl ents
  | cons e es ih => exact (shifted_place ents e c slot).trans (ih (slot + 1) _)

/-- The ids whose entries change are those of the entities. -/
theorem mem_of_moveEntities {c : ChunkId} {slot : Nat} {es : List Entity} {ents : Entities} {id : Nat}
    (hne : ((Entities.moveEntities c slot es ents).datas id).c ≠ (ents.datas id).c) :
    id ∈ es.map Entity.id := by
  induction es generalizing slot ents with
  | nil => exact absurd rfl hne
  | cons e es ih =>
      rw [List.map_cons, List.mem_cons]
      refine or_iff_not_imp_left.mpr fun hid => ?_
      have hplace : (ents.place e c slot).datas id = ents.datas id := by rw [place_datas, if_neg hid]
      exact ih fun heq => hne (heq.trans (congrArg EntityData.c hplace))

theorem shifted_fillEntities (slot : Nat) (es : List Entity) (ents : Entities) :
    Shifted ents (Entities.fillEntities slot es ents) := by
  induction es generalizing slot ents with
  | nil => exact .refl ents
  | cons e es ih =>
      have hset : Shifted ents
          (ents.setData e.id { ents.datas e.id with i := slot % 2 ^ 24 }) := by
        refine ⟨rfl, rfl, fun id => Or.inl ?_⟩
        rw [setData_datas]
        split_ifs with h
        · rw [h]
        · rfl
      exact hset.trans (ih (slot + 1) _)

theorem fillEntities_c (slot : Nat) (es : List Entity) (ents : Entities) (id : Nat) :
    ((Entities.fillEntities slot es ents).datas id).c = (ents.datas id).c := by
  induction es generalizing slot ents with
  | nil => rfl
  | cons e es ih =>
      refine (ih (slot + 1) _).trans ?_
      rw [setData_datas]
      split_ifs with h
      · rw [h]
      · rfl

/-- A list that still ends keeps its ids: one that went into a chunk would break it. -/
theorem Shifted.onFreeList (h : Shifted ents ents') {l : List Nat} (hl : FreeList ents' l) {id : Nat}
    (hid : OnFreeList ents id) : OnFreeList ents' id := by
  induction hid with
  | head h0 =>
      rw [← h.free]
      exact .head (h.free ▸ h0)
  | @next id n _ hn h0 ih =>
      refine .next ih ?_ h0
      rcases h.entry id with hsame | ⟨c, hc⟩
      · rw [hsame, hn]
      · exact absurd (hl.mem_of_onFreeList ih) (hl.not_mem_of_chunk hc)

/-! ### Taking ids -/

/-- The list without its head. -/
theorem onFreeList_tail {n : Nat} (hn : (ents.datas ents.free).c = .nextFree n) {id : Nat}
    (hid : OnFreeList ents id) : id = ents.free ∨ OnFreeList { ents with free := n } id := by
  induction hid with
  | head => exact Or.inl rfl
  | @next id m _ hm h0 ih =>
      rcases ih with rfl | hon
      · obtain rfl : n = m := Location.nextFree.inj (hn.symm.trans hm)
        exact Or.inr (.head h0)
      · exact Or.inr (.next hon hm h0)

/-- The id taken is the only new one. -/
theorem takeId_lt {e : Entity} (hs : ents.takeId = some (ents', e)) (hsize : ents'.size < 2 ^ 24)
    {id : Nat} (hid : id < ents'.size) : id = e.id ∨ id < ents.size := by
  simp only [takeId] at hs
  split_ifs at hs with hfree
  · obtain ⟨hents, rfl⟩ := Prod.mk.inj (Option.some.inj hs)
    have hsize' : ents'.size = ents.size + 1 := hents ▸ rfl
    rw [Entity.id_make _ (by omega)]
    omega
  · split at hs
    · obtain ⟨rfl, rfl⟩ := Prod.mk.inj (Option.some.inj hs)
      exact Or.inr hid
    · simp at hs

/-- It is the only one that leaves the list. -/
theorem takeId_leaves {e : Entity} (hs : ents.takeId = some (ents', e)) (hsize : ents'.size < 2 ^ 24)
    {l : List Nat} (hl : FreeList ents l) {id : Nat} (hid : OnFreeList ents id) :
    id = e.id ∨ OnFreeList ents' id := by
  simp only [takeId] at hs
  split_ifs at hs with hfree
  · exact absurd hid (onFreeList_of_zero hfree id)
  · split at hs
    · rename_i n hn
      obtain ⟨rfl, rfl⟩ := Prod.mk.inj (Option.some.inj hs)
      have hlt : ents.free < ents.size := (hl.free _ (hl.mem_of_onFreeList (.head hfree))).1
      have hsize' : ents.size < 2 ^ 24 := hsize
      rw [Entity.id_make _ (by omega)]
      exact onFreeList_tail hn hid
    · simp at hs

/-- No other entry changes. -/
theorem takeId_c {e : Entity} (hs : ents.takeId = some (ents', e)) (hsize : ents'.size < 2 ^ 24)
    {id : Nat} (hid : id ≠ e.id) : (ents'.datas id).c = (ents.datas id).c := by
  simp only [takeId] at hs
  split_ifs at hs with hfree
  · obtain ⟨hents, rfl⟩ := Prod.mk.inj (Option.some.inj hs)
    have hsize' : ents'.size = ents.size + 1 := hents ▸ rfl
    rw [Entity.id_make _ (by omega)] at hid
    rw [← hents]
    exact congrArg EntityData.c (Function.update_of_ne hid ..)
  · split at hs
    · obtain ⟨rfl, rfl⟩ := Prod.mk.inj (Option.some.inj hs)
      rfl
    · simp at hs

/-! ### Giving ids back -/

/-- The entry of a freed id links to the next handle, the last one to the old list. -/
theorem freeChain_datas {pre post : List Entity} {e : Entity}
    (hnd : ((pre ++ e :: post).map Entity.id).Nodup) :
    ((ents.freeChain (pre ++ e :: post)).datas e.id).c = .nextFree (chainHead ents.free post) := by
  induction pre generalizing ents with
  | nil =>
      have hlast : ∀ (fs : List Entity) (ents : Entities), e.id ∉ fs.map Entity.id →
          (ents.freeChain fs).datas e.id = ents.datas e.id := by
        intro fs
        induction fs with
        | nil => exact fun _ _ => rfl
        | cons f fs ih =>
            intro ents hne
            rw [List.map_cons, List.mem_cons, not_or] at hne
            rw [freeChain_cons, ih _ hne.2, setData_datas, if_neg hne.1]
      rw [List.nil_append, List.map_cons] at hnd
      rw [List.nil_append, freeChain_cons, hlast _ _ (List.nodup_cons.mp hnd).1, setData_datas,
        if_pos rfl]
      rfl
  | cons p pre ih =>
      rw [List.cons_append, List.map_cons] at hnd
      rw [List.cons_append, freeChain_cons, ih (List.nodup_cons.mp hnd).2]
      rfl

/-- Each link of the chain is on the list, and what the last one links to, when no id is 0. -/
theorem onFreeList_freeChain {e : Entity} {es : List Entity}
    (hnd : ((e :: es).map Entity.id).Nodup) (h0 : 0 ∉ (e :: es).map Entity.id)
    (pre post : List Entity) (hes : e :: es = pre ++ post)
    (hpost : chainHead ents.free post ≠ 0) :
    OnFreeList { ents.freeChain (e :: es) with free := e.id } (chainHead ents.free post) := by
  induction pre using List.reverseRecOn generalizing post with
  | nil =>
      obtain rfl : e :: es = post := hes
      exact .head hpost
  | append_singleton pre f ih =>
      rw [List.append_assoc, List.singleton_append] at hes
      have hf : f.id ≠ 0 := by
        rintro hf
        apply h0
        rw [hes, ← hf]
        exact List.mem_map_of_mem (List.mem_append_right _ List.mem_cons_self)
      have hon := ih (f :: post) hes hf
      refine .next hon ?_ hpost
      rw [hes] at hnd ⊢
      exact freeChain_datas hnd

/-! ## Every id is somewhere -/

/-- `R` is said of ids that are in no slot. It stays when ids are moved, unless they are put into
a slot, and when others are taken, and comes to ids that are freed if `P` is true of them. -/
structure Spares (R : Entities → Nat → Prop) (P : List Nat → Prop) : Prop where
  shift : ∀ {ents ents' : Entities} {l : List Nat} {id : Nat}, Shifted ents ents' →
    FreeList ents' l → R ents id → R ents' id ∨ (ents'.datas id).c ≠ (ents.datas id).c
  take : ∀ {ents ents' : Entities} {e : Entity} {l : List Nat} {id : Nat},
    ents.takeId = some (ents', e) → ents'.size < 2 ^ 24 → FreeList ents l → R ents id →
      id = e.id ∨ R ents' id
  free : ∀ {ents : Entities} {l : List Nat} {e : Entity} {es : List Entity} {id : Nat},
    FreeList ents l → ((e :: es).map Entity.id).Nodup →
      (∀ f ∈ e :: es, f.id ∉ l ∧ f.id < ents.size) → P ((e :: es).map Entity.id) →
      R ents id ∨ id ∈ (e :: es).map Entity.id →
        R { ents.freeChain (e :: es) with free := e.id } id

/-- The ids on the free list, as long as id 0 is not freed. -/
theorem spares_onFreeList : Spares OnFreeList fun ids => 0 ∉ ids where
  shift hs hl hid := Or.inl (hs.onFreeList hl hid)
  take hs hsize hl hid := takeId_leaves hs hsize hl hid
  free := by
    intro ents l e es id hl hnd hfree h0 hid
    obtain ⟨hother, -⟩ := freeChain_spec hl hnd hfree
    rcases hid with hid | hid
    · induction hid with
      | head hne => exact onFreeList_freeChain hnd h0 _ [] (List.append_nil _).symm hne
      | @next id n hid hn hne ih =>
          refine .next ih ?_ hne
          have hout : id ∉ (e :: es).map Entity.id := by
            intro hmem
            obtain ⟨f, hf, rfl⟩ := List.mem_map.mp hmem
            exact (hfree f hf).1 (hl.mem_of_onFreeList hid)
          exact (congrArg EntityData.c (hother id hout)).trans hn
    · obtain ⟨f, hf, rfl⟩ := List.mem_map.mp hid
      obtain ⟨pre, post, hes⟩ := List.append_of_mem hf
      exact onFreeList_freeChain hnd h0 pre (f :: post) hes fun hzero => h0 (hzero ▸ hid)

/-- The entry has no slot. -/
def Vacant (ents : Entities) (id : Nat) : Prop := ∀ c, (ents.datas id).c ≠ .chunk c

/-- The ids whose entries have no slot, whatever is freed. -/
theorem spares_vacant : Spares Vacant fun _ => True where
  shift _ _ hid := or_iff_not_imp_right.mpr fun hsame c => not_not.mp hsame ▸ hid c
  take hs hsize _ hid := or_iff_not_imp_left.mpr fun hne c => takeId_c hs hsize hne ▸ hid c
  free := by
    intro ents l e es id hl hnd hfree _ hid c
    obtain ⟨hother, -⟩ := freeChain_spec hl hnd hfree
    by_cases hmem : id ∈ (e :: es).map Entity.id
    · obtain ⟨f, hf, rfl⟩ := List.mem_map.mp hmem
      obtain ⟨pre, post, hes⟩ := List.append_of_mem hf
      change ((ents.freeChain (e :: es)).datas f.id).c ≠ .chunk c
      rw [hes] at hnd ⊢
      rw [freeChain_datas hnd]
      nofun
    · exact (congrArg EntityData.c (hother id hmem)).trans_ne (hid.resolve_right hmem c)

/-- Every id is in a slot or spare. -/
def NoLeak (R : Entities → Nat → Prop) (ents : Entities) (mm : Memory) (L : Slots) : Prop :=
  ∀ id < ents.size, Held mm L id ∨ R ents id

/-- Ids that are moved. -/
theorem NoLeak.shift (hR : Spares R P) (h : NoLeak R ents mm L) (hs : Shifted ents ents')
    {l : List Nat} (hl : FreeList ents' l) (hheld : ∀ id, Held mm L id → Held mm' L' id)
    (hnew : ∀ id, (ents'.datas id).c ≠ (ents.datas id).c → Held mm' L' id) :
    NoLeak R ents' mm' L' := by
  intro id hid
  rw [hs.size] at hid
  rcases h id hid with hslot | hspare
  · exact Or.inl (hheld id hslot)
  · exact (hR.shift hs hl hspare).symm.imp_left (hnew id)

/-- `new_entities`: the slots get spare ids, or new ones. -/
theorem NoLeak.newEntities (hR : Spares R P) (h : NoLeak R ents mm L) (ht : Tracks ents mm L) {c : ChunkId}
    {n slot : Nat} {m' : Mem} (hL : ∀ i, L c i ↔ i < slot)
    (hs : newEntities c n slot ents (mm.data c) = some (ents', m')) (hsize : ents'.size < 2 ^ 24) :
    NoLeak R ents' (mm.setData c m')
      fun d i => L d i ∨ Slots.of { c := c, start := slot, count := n } d i := by
  induction n generalizing slot ents mm L with
  | zero =>
      obtain ⟨rfl, rfl⟩ := Prod.mk.inj (Option.some.inj hs)
      intro id hid
      apply (h id hid).imp_left
      intro hheld
      refine hheld.mono fun d i hi => ⟨Or.inl hi, ?_⟩
      simp only [Memory.setData, Function.update_eq_self]
  | succ n ih =>
      simp only [Entities.newEntities, Option.bind_eq_bind, Option.bind_eq_some_iff] at hs
      obtain ⟨⟨ents₁, e⟩, htake, hs⟩ := hs
      have hle : (ents₁.place e c slot).size ≤ ents'.size := newEntities_size_le hs
      change ents₁.size ≤ ents'.size at hle
      obtain ⟨hwrite, ht₂, -⟩ := ht.newTurn hL htake (by omega)
      obtain ⟨l, hl⟩ := ht.freeList
      obtain ⟨l₂, hl₂⟩ := ht₂.freeList
      have h₂ : NoLeak R (ents₁.place e c slot)
          (mm.setData c (Mem.writeEntity (mm.data c) slot e))
          fun d i => L d i ∨ d = c ∧ i = slot := by
        intro id hid
        by_cases heid : id = e.id
        · refine Or.inl ⟨c, slot, Or.inr ⟨rfl, rfl⟩, ?_⟩
          rw [hwrite, if_pos ⟨rfl, rfl⟩, heid]
        · have hold := (takeId_lt htake (by omega) hid).resolve_left heid
          refine (h id hold).imp ?_ ?_
          · intro hheld
            refine hheld.mono fun d i hi => ⟨Or.inl hi, ?_⟩
            rw [hwrite, if_neg]
            rintro ⟨rfl, rfl⟩
            exact lt_irrefl i ((hL i).mp hi)
          · intro hspare
            have hleft := (hR.take htake (by omega) hl hspare).resolve_left heid
            refine (hR.shift (shifted_place ents₁ e c slot) hl₂ hleft).resolve_right ?_
            rw [place_datas, if_neg heid]
            exact not_not.mpr rfl
      rw [← setData_data mm c (Mem.writeEntity (mm.data c) slot e)] at hs
      have hnext := ih h₂ ht₂ (fun i => by simp only [true_and, hL i]; omega) hs
      rw [setData_setData] at hnext
      intro id hid
      exact (hnext id hid).imp_left fun hheld =>
        hheld.mono fun d i hi => ⟨slots_of_turn.mpr hi, rfl⟩

/-- `free_entities`. -/
theorem NoLeak.freeEntities (hR : Spares R P) (h : NoLeak R ents mm L) (ht : Tracks ents mm L)
    {s : ChunkSlice} (hs : ∀ c i, Slots.of s c i → L c i)
    (h0 : P (((List.range s.count).map fun k => mm.entityAt s.c (s.start + k)).map Entity.id))
    (hf : ents.freeEntities ((List.range s.count).map fun k => mm.entityAt s.c (s.start + k)) =
      some ents') :
    NoLeak R ents' mm fun c i => L c i ∧ ¬ Slots.of s c i := by
  obtain ⟨l, hl⟩ := ht.freeList
  obtain ⟨hnd, hfree⟩ := ht.handles hs hl
  have hin : ∀ c i, Slots.of s c i →
      mm.entityAt c i ∈ (List.range s.count).map fun k => mm.entityAt s.c (s.start + k) := by
    rintro c i ⟨rfl, hlo, hhi⟩
    refine List.mem_map.mpr ⟨i - s.start, List.mem_range.mpr (by omega), ?_⟩
    rw [Nat.add_sub_cancel' hlo]
  revert hf hnd hfree hin h0
  generalize ((List.range s.count).map fun k => mm.entityAt s.c (s.start + k)) = es
  intro h0 hf hnd hfree hin
  cases es with
  | nil => simp [Entities.freeEntities] at hf
  | cons e es =>
      have hsize := freeChain_size ents (e :: es)
      obtain rfl := Option.some.inj hf
      intro id hid
      rcases h id (hid.trans_eq hsize) with ⟨c, i, hi, rfl⟩ | hspare
      · by_cases hslot : Slots.of s c i
        · exact Or.inr (hR.free hl hnd hfree h0 (Or.inr (List.mem_map_of_mem (hin c i hslot))))
        · exact Or.inl ⟨c, i, ⟨hi, hslot⟩, rfl⟩
      · exact Or.inr (hR.free hl hnd hfree h0 (Or.inl hspare))

end Entities

namespace World

open Entities

variable {ctx : Context} {V : Slots} {w w' : World} {g : ArchetypeId} {a : Archetype}
  {R : Entities → Nat → Prop} {P : List Nat → Prop}

/-! ## What one call keeps -/

/-- Between two steps of a call: every id is in a slot outside `V` or spare. -/
def Tight (R : Entities → Nat → Prop) (V : Slots) (w : World) : Prop :=
  w.ents.size < 2 ^ 24 → NoLeak R w.ents w.memory fun c i => w.store.Occupied c i ∧ ¬ V c i

/-- A change of the store that keeps what the chunks hold. -/
theorem Tight.store (h : Tight R V w) {st : Store}
    (hocc : ∀ c i, w.store.Occupied c i → st.Occupied c i) : Tight R V { w with store := st } :=
  fun hsize id hid => (h hsize id hid).imp_left fun hheld =>
    hheld.mono fun c i hi => ⟨⟨hocc c i hi.1, hi.2⟩, rfl⟩

/-- `allocate_slice`, component data, and `new_entities`. -/
theorem Tight.fill (hR : Spares R P) {w₁ w₂ : World} {n : Nat} {s : ChunkSlice} {mm : Memory}
    {W : Nat → Prop} (hk : Tight R nowhere w) (h : Sound ctx nowhere w) (ha : w.store.archetype g = some a)
    (hs : w.allocateSlice g n = some (w₁, s)) (hty : w₁.store.type s.c ≠ none)
    (hw : Memory.Writes s.c W w₁.memory mm)
    (hW : w₂.ents.size < 2 ^ 24 → ∀ i < s.start, ∀ x, W x → sizeofEntity * (i + 1) ≤ x)
    (hnew : { w₁ with memory := mm }.newEntities s = some w₂) : Tight R nowhere w₂ := by
  obtain ⟨st, hst, rfl⟩ := allocateSlice_eq_some.mp hs
  obtain ⟨-, hall⟩ := h.wf.allocateSlice ha hst hty
  obtain ⟨hstore, hle⟩ := newEntities_store hnew
  intro hsize
  have hkeep : ∀ c i, w.store.Occupied c i → mm.entityAt c i = w.memory.entityAt c i :=
    fun c i hi => entityAt_of_writes hw fun hc =>
      hW hsize i ((occupied_iff_lt_start hall i).mp (hc ▸ hi))
  have htracks : Tracks w.ents mm w.store.Occupied :=
    ((h.tracks (hle.trans_lt hsize)).mono fun c i hi => ⟨hi, not_false⟩).memory hkeep
  have hnone : NoLeak R w.ents mm w.store.Occupied := fun id hid =>
    (hk (hle.trans_lt hsize) id hid).imp_left fun hheld =>
      hheld.mono fun c i hi => ⟨hi.1, hkeep c i hi.1⟩
  simp only [World.newEntities, Option.bind_eq_bind, Option.bind_eq_some_iff] at hnew
  obtain ⟨⟨ents, m⟩, hnew, hw₂⟩ := hnew
  obtain rfl := Option.some.inj hw₂
  intro id hid
  refine (hnone.newEntities hR htracks (occupied_iff_lt_start hall) hnew hsize id hid).imp_left ?_
  exact fun hheld => hheld.mono fun c i hi =>
    ⟨⟨(occupied_of_allocated hall c i).mpr hi, not_false⟩, rfl⟩

/-- The ids of the tail are in the hole afterwards. -/
theorem held_moveTail {s : ChunkSlice} (hwf : w.store.Wf ctx) (hc : w.store.type s.c = some g)
    (ha : w.store.archetype g = some a) (hle : s.start + s.count ≤ w.store.count s.c) {id : Nat}
    (h : Held w.memory (fun c i => w.store.Occupied c i ∧ ¬ Slots.of s c i) id) :
    Held (w.moveTail a s).memory (fun c i => w.store.Occupied c i ∧
      (c = s.c → i < w.store.count s.c - s.count)) id := by
  have hcap := hwf.count_le s.c g a hc ha
  have hlt := hwf.capacity_lt ha (w.store.ct s.c)
  have hm : w.tailCount s ≤ s.count ∧ w.tailCount s ≤ w.store.count s.c - s.start - s.count ∧
      (w.tailCount s = s.count ∨ w.tailCount s = w.store.count s.c - s.start - s.count) := by
    unfold tailCount
    omega
  have hts : w.tailStart s + w.tailCount s = w.store.count s.c := by
    unfold tailStart
    omega
  obtain ⟨c, i, ⟨hi, hout⟩, hid⟩ := h
  have hslot : c = s.c → i < w.store.count s.c ∧ (i < s.start ∨ s.start + s.count ≤ i) := by
    rintro rfl
    have hlt := hi.2
    have hout' : ¬ (s.start ≤ i ∧ i < s.start + s.count) := fun hin => hout ⟨rfl, hin⟩
    omega
  obtain hzero | hpos := Nat.eq_zero_or_pos (w.tailCount s)
  · rw [moveTail_eq hle (by omega) hzero]
    refine ⟨c, i, ⟨hi, fun hcs => ?_⟩, hid⟩
    have := hslot hcs
    omega
  · rw [moveTail_memory hle (by omega) hpos]
    have hcells : ∀ j < w.store.count s.c, (w.memory.moveWithin a (w.store.ct s.c) (w.filled s)
        (w.tailStart s)).entityAt s.c j = w.memory.entityAt s.c j := fun j hj =>
      entityAt_of_writes (Memory.moveWithin_writes w.memory a (w.store.ct s.c) (w.filled s)
        (w.tailStart s)) fun _ x hx => handle_le_span hwf ha (by omega) hx
    by_cases htail : c = s.c ∧ w.tailStart s ≤ i
    · obtain ⟨rfl, hge⟩ := htail
      have hi' := hi.2
      refine ⟨s.c, s.start + (i - w.tailStart s), ⟨⟨hi.1, by omega⟩, fun _ => by omega⟩, ?_⟩
      rw [entityAt_copyHandles, if_pos ⟨rfl, by omega, by omega⟩, Nat.add_sub_cancel_left,
        Nat.add_sub_cancel' hge]
      exact (congrArg Entity.id (hcells i hi')).trans hid
    · refine ⟨c, i, ⟨hi, fun hcs => ?_⟩, ?_⟩
      · have := hslot hcs
        have hbefore : ¬ w.tailStart s ≤ i := fun hge => htail ⟨hcs, hge⟩
        omega
      · rw [entityAt_copyHandles, if_neg]
        · by_cases hcs : c = s.c
          · subst hcs
            exact (congrArg Entity.id (hcells i hi.2)).trans hid
          · have hother := (Memory.moveWithin_writes w.memory a (w.store.ct s.c) (w.filled s)
              (w.tailStart s)).other c hcs
            simp only [Memory.entityAt] at hid ⊢
            rw [hother, hid]
        · rintro ⟨hcs, hlo, hhi⟩
          have := hslot hcs
          have hbefore : ¬ w.tailStart s ≤ i := fun hge => htail ⟨hcs, hge⟩
          omega

theorem moveTail_c (w : World) (a : Archetype) (s : ChunkSlice) (id : Nat) :
    ((w.moveTail a s).ents.datas id).c = (w.ents.datas id).c := by
  simp only [moveTail]
  split_ifs
  · exact fillEntities_c ..
  · rfl

theorem shifted_moveTail (w : World) (a : Archetype) (s : ChunkSlice) :
    Shifted w.ents (w.moveTail a s).ents := by
  simp only [moveTail]
  split_ifs
  · exact shifted_fillEntities ..
  · exact .refl _

/-- `free_slice`. -/
theorem Tight.freeSlice (hR : Spares R P) {s : ChunkSlice} (hk : Tight R (Slots.of s) w)
    (h : Sound ctx (Slots.of s) w) (hpos : 0 < s.count) (hle : s.start + s.count ≤ w.store.count s.c)
    (hs : w.freeSlice s = some w') : Tight R nowhere w' := by
  have hend := h.freeSlice hpos hle hs
  obtain ⟨g, a, st₁, w₂, st, hc, ha, hst₁, hw₂, hres, rfl⟩ := freeSlice_spec hs
  have hshape : Store.SameShape w.store st₁ := hst₁ ▸
    (Store.structuralChange_shape w.store g a s.c).trans (Store.subSize_shape _ g s.count)
  have hwf₁ : st₁.Wf ctx := h.wf.congr hshape
  have hc₁ : st₁.type s.c = some g := hshape.type ▸ hc
  have ha₁ : st₁.archetype g = some a := hshape.archetype ▸ ha
  rw [← hshape.count] at hle
  have hcap := hwf₁.count_le s.c g a hc₁ ha₁
  have hlt := hwf₁.capacity_lt ha₁ (st₁.ct s.c)
  rw [sub32_of_le (by omega) (by omega)] at hres
  have hcase := (hwf₁.resizeChunk hc₁ ha₁ (by omega) (fun _ hfull => by omega) hres).2
  have hshift : Shifted w.ents w₂.ents := hw₂ ▸ shifted_moveTail { w with store := st₁ } a s
  intro hsize
  obtain ⟨l, hl⟩ := (hend.tracks hsize).freeList
  have hk₁ : Tight R (Slots.of s) { w with store := st₁ } :=
    hk.store fun c i => (occupied_congr hshape.type hshape.count c i).mpr
  refine (hk₁ (hshift.size ▸ hsize)).shift hR hshift hl (fun id hheld => ?_) fun id hne =>
    absurd (hw₂ ▸ moveTail_c { w with store := st₁ } a s id) hne
  have hmoved := held_moveTail hwf₁ hc₁ ha₁ hle hheld
  rw [← hw₂] at hmoved
  refine hmoved.mono fun c i ⟨hi, hshort⟩ => ⟨⟨?_, not_false⟩, rfl⟩
  refine (occupied_of_resize hc₁ hcase c i).mpr ?_
  split_ifs with hcs
  · exact hshort hcs
  · exact hi

/-- A turn of the loop of `cast_slice`. -/
theorem Tight.castTurn (hR : Spares R P) {src s : ChunkSlice} {k : Nat} {st : Store} {mm : Memory}
    (hk : Tight R (firstOf src k) w) (ha : w.store.archetype g = some a)
    (ht : CastTurn ctx src g a k w { w with store := st } s mm)
    (hend : Sound ctx (firstOf src (k + s.count))
      ({ w with store := st, memory := mm }.moveEntities s src.c (src.start + k))) :
    Tight R (firstOf src (k + s.count))
      ({ w with store := st, memory := mm }.moveEntities s src.c (src.start + k)) := by
  obtain ⟨hall, hwf, -, -, hw, hne⟩ := ht
  intro hsize
  obtain ⟨l, hl⟩ := (hend.tracks hsize).freeList
  have hshift := shifted_moveEntities s.c s.start ({ w with store := st, memory := mm }.handles
    { c := src.c, start := src.start + k, count := s.count }) w.ents
  have hmem : ∀ c i, w.store.Occupied c i → mm.entityAt c i = w.memory.entityAt c i := by
    intro c i hi
    refine entityAt_of_writes hw fun hc x hx => handle_le_span hwf (hall.archetype ▸ ha) ?_ hx
    have := (occupied_iff_lt_start hall i).mp (hc ▸ hi)
    have := hall.le
    omega
  -- the copies are in slots that stay
  have hcopied : ∀ j < s.count, ∀ id, (mm.entityAt src.c (src.start + k + j)).id = id →
      Held ({ w with store := st, memory := mm }.moveEntities s src.c (src.start + k)).memory
        (fun c i => st.Occupied c i ∧ ¬ firstOf src (k + s.count) c i) id := by
    intro j hj id hid
    refine ⟨s.c, s.start + j, ⟨?_, fun hin => hne hin.1⟩, ?_⟩
    · exact (occupied_of_allocated hall _ _).mpr (Or.inr ⟨rfl, by omega, by omega⟩)
    · change ((copyHandles { w with store := st, memory := mm } ..).memory.entityAt ..).id = _
      rw [entityAt_copyHandles, if_pos ⟨rfl, by omega, by omega⟩, Nat.add_sub_cancel_left]
      exact hid
  refine (hk (hshift.size ▸ hsize)).shift hR hshift hl (fun id hheld => ?_) fun id hnew => ?_
  swap
  · obtain ⟨e, he, hid⟩ := List.mem_map.mp (mem_of_moveEntities hnew)
    obtain ⟨j, hj, rfl⟩ := List.mem_map.mp he
    exact hcopied j (List.mem_range.mp hj) id hid
  obtain ⟨c, i, ⟨hi, hout⟩, hid⟩ := hheld
  have hidle := not_of_allocated hall hi
  by_cases hmoved : Slots.of { c := src.c, start := src.start + k, count := s.count } c i
  · obtain ⟨hcs, hlo, hhi⟩ := hmoved
    dsimp only at hcs hlo hhi
    subst hcs
    refine hcopied (i - (src.start + k)) (by omega) id ?_
    rw [Nat.add_sub_cancel' hlo]
    exact (congrArg Entity.id (hmem _ i hi)).trans hid
  · refine ⟨c, i, ⟨?_, fun hin => ?_⟩, ?_⟩
    · exact (occupied_of_allocated hall c i).mpr (Or.inl hi)
    · obtain ⟨hcs, hlo, hhi⟩ := hin
      dsimp only at hcs hlo hhi
      by_cases hnew : src.start + k ≤ i
      · exact hmoved ⟨hcs, hnew, by dsimp only; omega⟩
      · exact hout ⟨hcs, hlo, by dsimp only; omega⟩
    · change ((copyHandles { w with store := st, memory := mm } ..).memory.entityAt ..).id = _
      have hkept : ¬ (c = s.c ∧ s.start ≤ i ∧ i < s.start + s.count) := hidle
      rw [entityAt_copyHandles, if_neg hkept]
      exact (congrArg Entity.id (hmem c i hi)).trans hid

/-- The loop of `cast_slice`. -/
theorem Tight.castLoop (hR : Spares R P) (hm : ctx.maskId < 3 * 2 ^ 30) {src : ChunkSlice}
    {srcG : ArchetypeId} {fuel : Nat} {ss : List ChunkSlice} (hk : Tight R nowhere w)
    (h : Casting ctx src srcG g a 0 w) (hg : srcG ≠ g)
    (hs : World.castLoop ctx src g fuel 0 w = some (w', ss)) : Tight R (Slots.of src) w' := by
  have hend := h.castLoop hm hg hs
  suffices hinv : ∃ k, src.count ≤ k ∧ Casting ctx src srcG g a k w' ∧ Tight R (firstOf src k) w' by
    obtain ⟨k, hle, h', hk'⟩ := hinv
    obtain rfl : k = src.count := Nat.le_antisymm h'.done hle
    exact hk'
  have hstart : Tight R (firstOf src 0) w := fun hsize id hid =>
    (hk hsize id hid).imp_left fun hheld => hheld.mono fun c i hi =>
      ⟨⟨hi.1, fun hin => by have := hin.2; dsimp only at this; omega⟩, rfl⟩
  refine castLoop_invariant (I := fun k v => Casting ctx src srcG g a k v ∧ Tight R (firstOf src k) v)
    ?_ ⟨h, hstart⟩ hs
  rintro w w₁ k s dst side mm ⟨h, hk⟩ hlt halloc hdst hside hcast
  obtain ⟨hturn, h'⟩ := h.turn hm hg hlt halloc hdst hcast
  obtain ⟨st, -, rfl⟩ := allocateSlice_eq_some.mp halloc
  exact ⟨h', hk.castTurn hR h.target hturn h'.sound⟩

/-- `cast_slice` to another archetype. -/
theorem Tight.castSlice (hR : Spares R P) (hm : ctx.maskId < 3 * 2 ^ 30) {src : ChunkSlice}
    {srcG : ArchetypeId} {fuel : Nat} {ss : List ChunkSlice} (hk : Tight R nowhere w) (h : Sound ctx nowhere w)
    (hv : w.ValidSlice src) (ha : w.store.archetype g = some a)
    (hc : w.store.type src.c = some srcG) (hg : srcG ≠ g)
    (hs : World.castSlice ctx fuel w src g = some (w', ss)) : Tight R nowhere w' := by
  obtain ⟨g', a', w₁, -, -, hloop, hfree⟩ := castSlice_spec hs
  have hshape := w.castStart_shape g' a' src
  have hcasting := h.casting hv ha hc g' a'
  have hdone := hcasting.castLoop hm hg hloop
  have hk₀ : Tight R nowhere (w.castStart g' a' src) :=
    hk.store fun c i => (occupied_congr hshape.type hshape.count c i).mpr
  exact (hk₀.castLoop hR hm hcasting hg hloop).freeSlice hR hdone.sound hv.pos hdone.le hfree

/-- `free_entities` and `free_slice`. -/
theorem Tight.release (hR : Spares R P) {s : ChunkSlice} (hk : Tight R nowhere w)
    (h : Sound ctx nowhere w) (hv : w.ValidSlice s) (h0 : P ((w.handles s).map Entity.id))
    (hs : w.release s = some w') : Tight R nowhere w' := by
  obtain ⟨w₁, hf, hs⟩ := Option.bind_eq_some_iff.mp hs
  obtain ⟨hstore, hmem, hsize⟩ := freeEntities_store hf
  have hle : s.start + s.count ≤ w₁.store.count s.c := by
    rw [hstore]
    exact hv.le
  refine Tight.freeSlice hR ?_ (h.freeEntities hv hf) hv.pos hle hs
  intro hlt
  rw [hsize] at hlt
  have hold : Tracks w.ents w.memory w.store.Occupied :=
    (h.tracks hlt).mono fun c i hi => ⟨hi, not_false⟩
  have hnone : NoLeak R w.ents w.memory w.store.Occupied := fun id hid =>
    (hk hlt id hid).imp_left fun hheld => hheld.mono fun c i hi => ⟨hi.1, rfl⟩
  simp only [World.freeEntities, Option.bind_eq_bind, Option.bind_eq_some_iff] at hf
  obtain ⟨ents, hfree, hw₁⟩ := hf
  obtain rfl := Option.some.inj hw₁
  exact hnone.freeEntities hR hold (occupied_of_valid hv) h0 hfree

theorem Tight.allocateLoop (hR : Spares R P) (hm : ctx.maskId < 3 * 2 ^ 30) {fuel n : Nat}
    {ss : List ChunkSlice} (hk : Tight R nowhere w) (h : Sound ctx nowhere w) (ha : w.store.archetype g = some a)
    (hs : World.allocateLoop ctx g fuel n w = some (w', ss)) : Tight R nowhere w' := by
  refine (allocateLoop_invariant (I := fun v =>
    Sound ctx nowhere v ∧ v.store.archetype g = some a ∧ Tight R nowhere v) ?_ ⟨h, ha, hk⟩ hs).2.2
  rintro w w₁ w₂ n s g' a' ⟨h, ha, hk⟩ - halloc harch hnew
  obtain ⟨hty, ha₁, W, hwrites, hbehind⟩ := construct_behind hm h.wf ha halloc harch
  obtain ⟨h₂, hstore, -, -⟩ := h.fill ha halloc hty hwrites (fun _ => hbehind) hnew
  exact ⟨h₂, hstore ▸ ha₁, hk.fill hR h ha halloc hty hwrites (fun _ => hbehind) hnew⟩

theorem Tight.instantiateLoop (hR : Spares R P) {src : Entity} {s : ChunkSlice}
    {side : Memory.CastSide} {fuel n : Nat} {ss : List ChunkSlice} (hk : Tight R nowhere w)
    (h : Instantiating ctx src s side g a n w)
    (hs : World.instantiateLoop ctx src g fuel n w = some (w', ss)) : Tight R nowhere w' := by
  obtain ⟨-, -, hend⟩ := instantiateLoop_invariant (I := fun n v =>
    Instantiating ctx src s side g a n v ∧ Tight R nowhere v) (by
      rintro w w₁ w₂ n t from_ side' g' a' mm ⟨h, hk⟩ hn halloc hfrom hside' harch hdup hnew
      obtain ⟨h', hbehind⟩ := h.turn hn halloc hfrom hside' harch hdup hnew
      obtain ⟨st, hst, rfl⟩ := allocateSlice_eq_some.mp halloc
      obtain ⟨htype, -⟩ := archetypeOf_eq_some.mp harch
      have hty : st.type t.c ≠ none := by
        rw [htype]
        exact Option.some_ne_none g'
      obtain ⟨hwf, -⟩ := h.sound.wf.allocateSlice h.target hst hty
      obtain ⟨gₛ, b, -, hb, hb'⟩ := side_eq_some.mp hside'
      have hlayout : Layout side'.a := by
        rw [hb']
        exact constructArchetype_layout (hwf.built gₛ b hb).2
      exact ⟨h', hk.fill hR h.sound h.target halloc hty (Memory.duplicate_writes hlayout hdup)
        hbehind hnew⟩) ⟨h, hk⟩ hs
  exact hend

theorem Tight.getArchetype {key : EntityType} (hk : Tight R V w) (h : Sound ctx V w)
    (hs : w.getArchetype ctx key = some (w', g)) : Tight R V w' := by
  obtain ⟨-, hext, -⟩ := h.getArchetype hs
  obtain ⟨st, -, rfl⟩ := getArchetype_eq_some hs
  exact hk.store fun c i => (occupied_congr hext.type hext.count c i).mpr

theorem Tight.getCasted {diff : TypeDiff} {inst : Bool} {target : Option ArchetypeId}
    (hk : Tight R nowhere w) (h : Sound ctx nowhere w)
    (hs : w.getCasted ctx a diff inst = some (w', target)) : Tight R nowhere w' := by
  rcases getCasted_cases hs with ⟨-, rfl, -⟩ | ⟨g, -, hget, -⟩
  · exact hk
  · exact hk.getArchetype h hget

/-- `cast(chunk_slice, archetype*)` to an archetype. -/
theorem Tight.castTo (hR : Spares R P) (hctx : ctx.Built) {s : ChunkSlice} {fuel : Nat}
    {ss : List ChunkSlice} (hk : Tight R nowhere w) (h : Sound ctx nowhere w) (hv : w.ValidSlice s)
    (hs : w.castTo ctx fuel s (some g) = some (w', ss)) : Tight R nowhere w' := by
  have hm : ctx.maskId < 3 * 2 ^ 30 := by
    rw [hctx.ids.2.2.2]
    decide
  obtain ⟨srcG, srcA, a, hc, hsrcA, ha, hcase⟩ := castTo_cases hs
  rcases hcase with ⟨-, rfl⟩ | ⟨hg, hfast⟩ | ⟨hg, -, hcast⟩
  · exact hk
  · obtain ⟨st₁, st₂, hrem, hadd, rfl⟩ := hfast.store
    obtain ⟨-, hocc⟩ := relink hctx.paired h.wf hc hsrcA ha hg hfast.castable hrem hadd
    exact hk.store fun c i => (hocc c i).mpr
  · exact hk.castSlice hR hm h hv ha hc hg hcast

/-- `destroy_single`. -/
theorem Tight.destroySingle (hR : Spares R P) (hctx : ctx.Built) {s : ChunkSlice} {fuel : Nat}
    (hk : Tight R nowhere w) (h : Sound ctx nowhere w) (hv : w.ValidSlice s)
    (h0 : P ((Op.freed ctx w (.destroy s)).map Entity.id))
    (hs : w.destroySingle ctx fuel s = some w') : Tight R nowhere w' := by
  have hm : ctx.maskId < 3 * 2 ^ 30 := by
    rw [hctx.ids.2.2.2]
    decide
  obtain ⟨g, a, hc, ha, hcase⟩ := destroySingle_cases hs
  have harch := archetypeOf_eq_some.mpr ⟨hc, ha⟩
  rcases hcase with ⟨-, rfl⟩ | ⟨hclean, hdead, hrel⟩ | ⟨hclean, -, w₁, g', ss, hget, hcast⟩
  · exact hk
  · simp only [Op.freed, Op.released, harch, Option.bind_eq_bind, Option.bind_some, hclean,
      hdead, Bool.or_self, Bool.false_eq_true, if_false] at h0
    exact hk.release hR h hv h0 hrel
  · obtain ⟨h₁, hext, -, -, b, hb, hkey⟩ := h.getArchetype hget
    refine (hk.getArchetype h hget).castSlice hR hm h₁ (hv.extend hext) hb (hext.type ▸ hc) ?_ hcast
    exact h.dead_ne hctx ha hclean hget

end World

/-! ## Runs -/

/-- The call frees no entity with id 0. -/
def Op.SparesZero (ctx : Context) (w : World) (op : Op) : Prop :=
  0 ∉ (op.freed ctx w).map Entity.id

namespace World

open Entities

variable {ctx : Context} {w w' : World} {R : Entities → Nat → Prop} {P : List Nat → Prop}

theorem Tight.step (hR : Spares R P) (hctx : ctx.Built) {op : Op} {fuel : Nat}
    (hk : Tight R nowhere w) (h : Sound ctx nowhere w) (hv : op.Valid w) (hp : Clean ctx w op)
    (h0 : P ((op.freed ctx w).map Entity.id)) (hs : op.run ctx fuel w = some w') :
    Tight R nowhere w' := by
  have hm : ctx.maskId < 3 * 2 ^ 30 := by
    rw [hctx.ids.2.2.2]
    decide
  cases op with
  | allocate type count =>
      obtain ⟨⟨_, ss⟩, hrun, rfl⟩ := Option.map_eq_some_iff.mp hs
      simp only [World.allocate, Option.bind_eq_bind, Option.bind_eq_some_iff] at hrun
      obtain ⟨⟨w₁, g⟩, hget, hrun⟩ := hrun
      obtain ⟨h₁, -, -, -, a, ha, -⟩ := h.getArchetype hget
      exact (hk.getArchetype h hget).allocateLoop hR hm h₁ ha hrun
  | instantiate src count =>
      obtain ⟨⟨_, ss⟩, hrun, rfl⟩ := Option.map_eq_some_iff.mp hs
      obtain ⟨w₁, -, ⟨a, target, hcasted⟩, rfl | ⟨s, side, g, b, hstart, hloop⟩⟩ :=
        instantiate_cases h hp.1 hp.2 hrun
      · exact hk.getCasted h hcasted
      · exact (hk.getCasted h hcasted).instantiateLoop hR hstart hloop
  | destroy s =>
      cases fuel with
      | zero => simp [Op.run, World.destroy] at hs
      | succ fuel =>
          simp only [Op.run, World.destroy, Option.bind_eq_bind, Option.bind_eq_some_iff] at hs
          obtain ⟨⟨g, a⟩, harch, hs⟩ := hs
          rw [if_pos (hp.1 g a harch), Option.bind_some] at hs
          exact hk.destroySingle hR hctx h hv h0 hs
  | cast s diff =>
      obtain ⟨⟨_, ss⟩, hrun, rfl⟩ := Option.map_eq_some_iff.mp hs
      simp only [World.cast, Option.bind_eq_bind, Option.bind_eq_some_iff] at hrun
      obtain ⟨⟨g, a⟩, harch, ⟨w₁, target⟩, hcasted, hrun⟩ := hrun
      rcases getCasted_cases hcasted with ⟨rfl, rfl, hfrees⟩ | ⟨g', rfl, hget, -⟩
      · refine hk.release hR h hv ?_ (castTo_none hrun)
        simpa only [Op.freed, Op.released, harch, Option.bind_eq_bind,
          Option.bind_some, if_pos (hfrees rfl)] using h0
      · obtain ⟨h₁, hext, -⟩ := h.getArchetype hget
        exact (hk.getArchetype h hget).castTo hR hctx h₁ (hv.extend hext) hrun
  | castType s type =>
      obtain ⟨⟨_, ss⟩, hrun, rfl⟩ := Option.map_eq_some_iff.mp hs
      simp only [World.castType, Option.bind_eq_bind, Option.bind_eq_some_iff] at hrun
      obtain ⟨⟨w₁, g⟩, hget, hrun⟩ := hrun
      obtain ⟨h₁, hext, -⟩ := h.getArchetype hget
      exact (hk.getArchetype h hget).castTo hR hctx h₁ (hv.extend hext) hrun
  | getArchetype type =>
      obtain ⟨⟨_, g⟩, hrun, rfl⟩ := Option.map_eq_some_iff.mp hs
      exact hk.getArchetype h hrun
  | query f =>
      obtain ⟨⟨_, q⟩, hrun, rfl⟩ := Option.map_eq_some_iff.mp hs
      obtain ⟨queries, rfl⟩ := query_eq_some hrun
      exact hk.store fun _ _ => id
  | write memory =>
      obtain rfl := Option.some.inj hs
      intro hsize id hid
      exact (hk hsize id hid).imp_left fun hheld => hheld.mono fun c i hi => ⟨hi, hv c i hi.1⟩

/-- An entity with this id is alive. -/
def LiveId (w : World) (id : Nat) : Prop :=
  ∃ e c i, e.id = id ∧ w.store.Occupied c i ∧ w.memory.entityAt c i = e ∧ w.At e c i

/-- Every id of the table is that of a live entity or on the free list. -/
def Leakless (w : World) : Prop :=
  ∀ id < w.ents.size, w.LiveId id ∨ w.ents.OnFreeList id

theorem Tight.leakless (hk : Tight OnFreeList nowhere w) (h : Sound ctx nowhere w)
    (hsize : w.ents.size < 2 ^ 24) : w.Leakless := by
  intro id hid
  refine (hk hsize id hid).imp_left ?_
  rintro ⟨c, i, hi, rfl⟩
  obtain ⟨hlt, hentry⟩ := (h.tracks hsize).entry c i hi
  refine ⟨_, c, i, rfl, hi.1, rfl, ?_, congrArg EntityData.c hentry, congrArg EntityData.i hentry⟩
  simp [Entities.exist, hlt, hentry]

/-- A slot that the table has for an id holds the entity with this id. -/
def Current (w : World) : Prop :=
  ∀ id < w.ents.size, ∀ c, (w.ents.datas id).c = .chunk c →
    w.store.Occupied c (w.ents.datas id).i ∧ (w.memory.entityAt c (w.ents.datas id).i).id = id

theorem current_of_reachable (hctx : ctx.Built) (h : Reachable ctx (Clean ctx) w)
    (hsize : w.ents.size < 2 ^ 24) : w.Current := by
  have hkept : Sound ctx nowhere w ∧ Tight Vacant nowhere w := by
    refine h.invariant (I := fun v => Sound ctx nowhere v ∧ Tight Vacant nowhere v) ?_ ?_
    · intro timestamp raw data guids
      exact ⟨sound_initial ctx timestamp raw data guids,
        fun _ id hid => absurd hid (Nat.not_lt_zero id)⟩
    · rintro w op fuel w' hv hp hs ⟨hw, hk⟩
      exact ⟨hw.step hctx hv hp.1 hp.2 hs, hk.step spares_vacant hctx hw hv hp trivial hs⟩
  intro id hid c hc
  rcases hkept.2 hsize id hid with ⟨d, i, hi, rfl⟩ | hvacant
  · obtain ⟨-, hentry⟩ := (hkept.1.tracks hsize).entry d i hi
    rw [hentry] at hc ⊢
    obtain rfl := Location.chunk.inj hc
    exact ⟨hi.1, rfl⟩
  · exact absurd hc (hvacant c)

/-- In every world reached by calls that free no entity with id 0, no id is lost, and the
table grows only when all ids are those of live entities. -/
theorem leakless_of_reachable (hctx : ctx.Built)
    (h : Reachable ctx (fun w op => Clean ctx w op ∧ op.SparesZero ctx w) w)
    (hsize : w.ents.size < 2 ^ 24) : w.Leakless ∧
      ∀ ents e, w.ents.takeId = some (ents, e) → w.ents.size < ents.size →
        ∀ id < w.ents.size, w.LiveId id := by
  have hkept : Sound ctx nowhere w ∧ Tight OnFreeList nowhere w := by
    refine h.invariant (I := fun v => Sound ctx nowhere v ∧ Tight OnFreeList nowhere v) ?_ ?_
    · intro timestamp raw data guids
      exact ⟨sound_initial ctx timestamp raw data guids,
        fun _ id hid => absurd hid (Nat.not_lt_zero id)⟩
    · rintro w op fuel w' hv ⟨hp, h0⟩ hs ⟨hw, hk⟩
      exact ⟨hw.step hctx hv hp.1 hp.2 hs, hk.step spares_onFreeList hctx hw hv hp h0 hs⟩
  have hnone := hkept.2.leakless hkept.1 hsize
  refine ⟨hnone, fun ents e htake hgrow id hid => (hnone id hid).resolve_right ?_⟩
  have hfree : w.ents.free = 0 := by
    by_contra hne
    simp only [takeId, if_neg hne] at htake
    split at htake
    · obtain ⟨rfl, -⟩ := Prod.mk.inj (Option.some.inj htake)
      exact absurd hgrow (lt_irrefl _)
    · simp at htake
  exact onFreeList_of_zero hfree id

theorem clean_destroy {s : ChunkSlice} {g : ArchetypeId} (htype : w.store.type s.c = some g)
    (hgroup : (w.store.archetype g).map (fun a => a.index ctx.groupId) = some invalidIndex) :
    Clean ctx w (.destroy s) :=
  ⟨noGroup_destroy htype hgroup, trivial⟩

theorem reachable_pair {P : World → Op → Prop}
    (hP : ∀ w type count, P w (.allocate type count)) (hw : runAll narrowWide 2 blank
      [.allocate { types := [4] } 2] = some w) : Reachable narrowWide P w := by
  refine (reachable_blank narrowWide P).runAll (fun op hop v => ?_) hw
  obtain rfl := List.mem_singleton.mp hop
  exact ⟨trivial, hP ..⟩

/-- Two entities, the second of which is destroyed. -/
theorem leakless_second : ∃ w w₁,
    runAll narrowWide 2 blank [.allocate { types := [4] } 2] = some w ∧
    Op.run narrowWide 2 w (.destroy { c := 0, start := 1, count := 1 }) = some w₁ ∧
    w₁.ents.size = 2 ∧ w₁.Leakless := by
  have hfacts : ((runAll narrowWide 2 blank [.allocate { types := [4] } 2]).bind fun w =>
      (Op.run narrowWide 2 w (.destroy { c := 0, start := 1, count := 1 })).map fun w₁ =>
        (w.store.type 0, w.store.count 0,
          (w.store.archetype 0).map fun a => a.index narrowWide.groupId,
          Op.freed narrowWide w (.destroy { c := 0, start := 1, count := 1 }),
          w₁.ents.size)) = some (some 0, 2, some invalidIndex, [⟨256⟩], 2) := by decide +kernel
  obtain ⟨w, hw, hfacts⟩ := Option.bind_eq_some_iff.mp hfacts
  obtain ⟨w₁, hw₁, hfacts⟩ := Option.map_eq_some_iff.mp hfacts
  simp only [Prod.mk.injEq] at hfacts
  obtain ⟨htype, hcount, hgroup, hfreed, hsize⟩ := hfacts
  have hspares : ∀ w type count, Clean narrowWide w (.allocate type count) ∧
      Op.SparesZero narrowWide w (.allocate type count) :=
    fun _ _ _ => ⟨⟨trivial, trivial⟩, List.not_mem_nil⟩
  have hdestroy : Op.SparesZero narrowWide w (.destroy { c := 0, start := 1, count := 1 }) := by
    rw [Op.SparesZero, hfreed]
    decide
  have hvalid : Op.Valid w (.destroy { c := 0, start := 1, count := 1 }) :=
    ⟨by simp [htype], by simp, by simp [hcount]⟩
  have hpair : Reachable narrowWide (fun w op => Clean narrowWide w op ∧ op.SparesZero narrowWide w)
      w := reachable_pair hspares hw
  have hreach := hpair.step _ hvalid ⟨clean_destroy htype hgroup, hdestroy⟩ hw₁
  exact ⟨w, w₁, hw, hw₁, hsize, (leakless_of_reachable built_narrowWide hreach (by omega)).1⟩

/-- Two entities, the first of which is destroyed: its id is lost, and the table grows. -/
theorem not_leakless_first : ∃ w w₁ ents e,
    runAll narrowWide 2 blank [.allocate { types := [4] } 2] = some w ∧
    Op.run narrowWide 2 w (.destroy { c := 0, start := 0, count := 1 }) = some w₁ ∧
    Reachable narrowWide (Clean narrowWide) w₁ ∧ w₁.ents.size < 2 ^ 24 ∧ ¬ w₁.Leakless ∧
    w₁.ents.takeId = some (ents, e) ∧ w₁.ents.size < ents.size := by
  have hfacts : ((runAll narrowWide 2 blank [.allocate { types := [4] } 2]).bind fun w =>
      (Op.run narrowWide 2 w (.destroy { c := 0, start := 0, count := 1 })).bind fun w₁ =>
        w₁.ents.takeId.map fun p => ((w.store.type 0, w.store.count 0,
          (w.store.archetype 0).map fun a => a.index narrowWide.groupId),
          w₁.ents.size, (w₁.ents.datas 0).c, w₁.ents.free, p.1.size)) =
      some ((some 0, 2, some invalidIndex), 2, .nextFree 0, 0, 3) := by decide +kernel
  obtain ⟨w, hw, hfacts⟩ := Option.bind_eq_some_iff.mp hfacts
  obtain ⟨w₁, hw₁, hfacts⟩ := Option.bind_eq_some_iff.mp hfacts
  obtain ⟨⟨ents, e⟩, htake, hfacts⟩ := Option.map_eq_some_iff.mp hfacts
  simp only [Prod.mk.injEq] at hfacts
  obtain ⟨⟨htype, hcount, hgroup⟩, hsize, hentry, hfree, hgrown⟩ := hfacts
  have hvalid : Op.Valid w (.destroy { c := 0, start := 0, count := 1 }) :=
    ⟨by simp [htype], by simp, by simp [hcount]⟩
  have hpair : Reachable narrowWide (Clean narrowWide) w :=
    reachable_pair (fun _ _ _ => ⟨trivial, trivial⟩) hw
  have hreach := hpair.step _ hvalid (clean_destroy htype hgroup) hw₁
  refine ⟨w, w₁, ents, e, hw, hw₁, hreach, by omega, fun hnone => ?_, htake, by omega⟩
  rcases hnone 0 (by omega) with ⟨e, c, i, hid, -, -, -, hc, -⟩ | hon
  · rw [hid, hentry] at hc
    simp at hc
  · exact onFreeList_of_zero hfree 0 hon

end World

end Dots

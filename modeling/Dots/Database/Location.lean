import Dots.Database.Frame
import Dots.Database.World
import Mathlib.Data.Finset.Card

/-!
# Handles in slots and the entity table

The table says in which slot each id is; the handles in the chunks say which id is
in each slot. `Tracks` relates the two over a set of slots, so that it can be used
between two steps of an operation, where some slots are still, or already, void.
-/

namespace Dots

open Library

namespace Entities

/-! ## The free list -/

/-- A link of the free list: id 0 is the null link. -/
def freeLink (n : Nat) : Option Nat := if n = 0 then none else some n

/-- Where the free list goes on behind an entry. -/
def freeNext (ents : Entities) (id : Nat) : Option Nat :=
  match (ents.datas id).c with
  | .nextFree n => freeLink n
  | _ => none

theorem freeLink_eq_some {n m : Nat} : freeLink n = some m ↔ n = m ∧ m ≠ 0 := by
  unfold freeLink
  split_ifs with h
  · simp only [false_iff, not_and, not_not]
    exact fun hn => hn ▸ h
  · simp only [Option.some.injEq]
    constructor
    · exact fun hn => ⟨hn, hn ▸ h⟩
    · exact And.left

theorem freeNext_of_nextFree {ents : Entities} {id n : Nat}
    (h : (ents.datas id).c = .nextFree n) : ents.freeNext id = freeLink n := by
  simp only [freeNext, h]

theorem freeNext_congr {ents ents' : Entities} {id : Nat} (h : ents'.datas id = ents.datas id) :
    ents'.freeNext id = ents.freeNext id := by
  simp only [freeNext, h]

/-- The ids that `nextFree` leads to from `free`. -/
inductive OnFreeList (ents : Entities) : Nat → Prop
  | head (h : ents.free ≠ 0) : OnFreeList ents ents.free
  | next {id n : Nat} (h : OnFreeList ents id) (hn : (ents.datas id).c = .nextFree n)
      (h0 : n ≠ 0) : OnFreeList ents n

/-- `l` is the free list: it ends, and all its entries are free. -/
structure FreeList (ents : Entities) (l : List Nat) : Prop where
  path : Links.Path ents.freeNext (freeLink ents.free) l
  free : ∀ id ∈ l, id < ents.size ∧ ∃ n, (ents.datas id).c = .nextFree n

theorem FreeList.mem_of_onFreeList {ents : Entities} {l : List Nat} (h : FreeList ents l)
    {id : Nat} (hid : OnFreeList ents id) : id ∈ l := by
  induction hid with
  | head h0 =>
      have hhead := h.path.head
      rw [freeLink_eq_some.mpr ⟨rfl, h0⟩] at hhead
      exact List.mem_of_mem_head? hhead.symm
  | next _ hn h0 ih =>
      apply h.path.mem_next ih
      rw [freeNext_of_nextFree hn]
      exact freeLink_eq_some.mpr ⟨rfl, h0⟩

theorem FreeList.congr {ents ents' : Entities} {l : List Nat} (h : FreeList ents l)
    (hfree : ents'.free = ents.free) (hsize : ents.size ≤ ents'.size)
    (hdatas : ∀ id ∈ l, ents'.datas id = ents.datas id) : FreeList ents' l where
  path := by
    rw [hfree]
    exact h.path.congr fun id hid => freeNext_congr (hdatas id hid)
  free id hid := by
    rw [hdatas id hid]
    exact ⟨(h.free id hid).1.trans_le hsize, (h.free id hid).2⟩

theorem FreeList.not_mem_of_chunk {ents : Entities} {l : List Nat} (h : FreeList ents l)
    {id : Nat} {c : ChunkId} (hid : (ents.datas id).c = .chunk c) : id ∉ l := by
  intro hmem
  obtain ⟨-, n, hn⟩ := h.free id hmem
  simp [hid] at hn

@[simp] theorem setData_datas (ents : Entities) (id : Nat) (d : EntityData) (j : Nat) :
    (ents.setData id d).datas j = if j = id then d else ents.datas j := by
  simp only [setData, Function.update_apply]

@[simp] theorem place_datas (ents : Entities) (e : Entity) (c : ChunkId) (slot j : Nat) :
    (ents.place e c slot).datas j =
      if j = e.id then { c := .chunk c, i := slot % 2 ^ 24, v := (ents.datas e.id).v }
      else ents.datas j := by
  simp only [place, setData_datas]

/-! ## Sets of slots -/

/-- A set of slots. -/
abbrev Slots := ChunkId → Nat → Prop

/-- The slots of a slice. -/
def Slots.of (s : ChunkSlice) : Slots :=
  fun c i => c = s.c ∧ s.start ≤ i ∧ i < s.start + s.count

/-- Over the slots `L`, the handles in memory and the entries of the table agree. -/
structure Tracks (ents : Entities) (mm : Memory) (L : Slots) : Prop where
  entry : ∀ c i, L c i → (mm.entityAt c i).id < ents.size ∧
    ents.datas (mm.entityAt c i).id =
      { c := .chunk c, i := i, v := (mm.entityAt c i).version }
  slot_lt : ∀ c i, L c i → i < 2 ^ 24
  freeList : ∃ l, FreeList ents l
  version : ∀ id < ents.size, (ents.datas id).v < 2 ^ 8

variable {ents ents' : Entities} {mm mm' : Memory} {L L' : Slots}

theorem Tracks.mono (h : Tracks ents mm L) (hL : ∀ c i, L' c i → L c i) : Tracks ents mm L' :=
  ⟨fun c i hi => h.entry c i (hL c i hi), fun c i hi => h.slot_lt c i (hL c i hi), h.freeList,
    h.version⟩

/-- Memory that keeps the handles of the slots. -/
theorem Tracks.memory (h : Tracks ents mm L)
    (hmm : ∀ c i, L c i → mm'.entityAt c i = mm.entityAt c i) : Tracks ents mm' L where
  entry c i hi := by
    rw [hmm c i hi]
    exact h.entry c i hi
  slot_lt := h.slot_lt
  freeList := h.freeList
  version := h.version

/-- No id is in two slots. -/
theorem Tracks.unique (h : Tracks ents mm L) {c d : ChunkId} {i j : Nat} (hi : L c i)
    (hj : L d j) (hid : (mm.entityAt c i).id = (mm.entityAt d j).id) : c = d ∧ i = j := by
  have h1 := (h.entry c i hi).2
  have h2 := (h.entry d j hj).2
  rw [hid, h2] at h1
  simp only [EntityData.mk.injEq, Location.chunk.injEq] at h1
  exact ⟨h1.1.symm, h1.2.1.symm⟩

/-- No id in a slot is on the free list. -/
theorem Tracks.not_onFreeList (h : Tracks ents mm L) {c : ChunkId} {i : Nat} (hi : L c i) :
    ¬ OnFreeList ents (mm.entityAt c i).id := by
  obtain ⟨l, hl⟩ := h.freeList
  intro hon
  apply hl.not_mem_of_chunk (c := c) _ (hl.mem_of_onFreeList hon)
  rw [(h.entry c i hi).2]

/-- There are at most as many slots as ids. -/
theorem Tracks.card_le (h : Tracks ents mm L) {n : Nat} {f : Nat → ChunkId × Nat}
    (hf : ∀ i < n, L (f i).1 (f i).2) (hinj : Set.InjOn f (Finset.range n)) : n ≤ ents.size := by
  have hcard := Finset.card_le_card_of_injOn (s := Finset.range n) (t := Finset.range ents.size)
    (fun i => (mm.entityAt (f i).1 (f i).2).id)
    (fun i hi => by
      rw [Finset.coe_range, Set.mem_Iio] at hi ⊢
      exact (h.entry _ _ (hf i hi)).1)
    (fun i hi j hj hij => by
      apply hinj hi hj
      rw [Finset.coe_range, Set.mem_Iio] at hi hj
      obtain ⟨hc, hslot⟩ := h.unique (hf i hi) (hf j hj) hij
      exact Prod.ext hc hslot)
  rwa [Finset.card_range, Finset.card_range] at hcard

/-- Put an id into a slot. -/
theorem Tracks.place (h : Tracks ents mm L) {e : Entity} {c : ChunkId} {slot : Nat}
    (hid : e.id < ents.size) (hv : (ents.datas e.id).v = e.version)
    (hfree : ∃ l, FreeList ents l ∧ e.id ∉ l) (he : mm.entityAt c slot = e)
    (hslot : slot < 2 ^ 24)
    (hL : ∀ d i, L' d i → d = c ∧ i = slot ∨ L d i ∧ (mm.entityAt d i).id ≠ e.id) :
    Tracks (ents.place e c slot) mm L' where
  entry d i hi := by
    rw [place_datas]
    rcases hL d i hi with ⟨rfl, rfl⟩ | ⟨hold, hne⟩
    · rw [he, if_pos rfl, hv, Nat.mod_eq_of_lt hslot]
      exact ⟨hid, rfl⟩
    · rw [if_neg hne]
      exact h.entry d i hold
  slot_lt d i hi := by
    rcases hL d i hi with ⟨-, rfl⟩ | ⟨hold, -⟩
    · exact hslot
    · exact h.slot_lt d i hold
  freeList := by
    obtain ⟨l, hl, hel⟩ := hfree
    refine ⟨l, hl.congr rfl le_rfl ?_⟩
    intro id hmem
    rw [place_datas, if_neg]
    rintro rfl
    exact hel hmem
  version id hlt := by
    rw [place_datas]
    split_ifs
    · exact h.version e.id hid
    · exact h.version id hlt

/-- Move the id of one slot into another one, whose handle is already its. -/
theorem Tracks.move (h : Tracks ents mm L) {c d : ChunkId} {i j : Nat} (hi : L c i)
    (hj : j < 2 ^ 24) (he : mm.entityAt d j = mm.entityAt c i)
    (hL : ∀ c' i', L' c' i' → c' = d ∧ i' = j ∨ L c' i' ∧ ¬ (c' = c ∧ i' = i)) :
    Tracks (ents.place (mm.entityAt c i) d j) mm L' := by
  obtain ⟨hid, hentry⟩ := h.entry c i hi
  obtain ⟨l, hl⟩ := h.freeList
  apply h.place hid
  · rw [hentry]
  · refine ⟨l, hl, hl.not_mem_of_chunk (c := c) ?_⟩
    rw [hentry]
  · exact he
  · exact hj
  · intro c' i' hL'
    rcases hL c' i' hL' with hnew | ⟨hold, hne⟩
    · exact Or.inl hnew
    · exact Or.inr ⟨hold, fun hid' => hne (h.unique hold hi hid')⟩

/-! ## Taking and giving back ids -/

theorem takeId_spec (h : Tracks ents mm L) {e : Entity} (hs : ents.takeId = some (ents', e))
    (hsize : ents'.size ≤ 2 ^ 24) :
    Tracks ents' mm L ∧ e.value < 2 ^ 32 ∧ e.id < ents'.size ∧ (ents'.datas e.id).v = e.version ∧
      (∃ l, FreeList ents' l ∧ e.id ∉ l) ∧
      ∀ id < ents.size, ∀ c, (ents.datas id).c = .chunk c →
        id ≠ e.id ∧ ents'.datas id = ents.datas id := by
  obtain ⟨l, hl⟩ := h.freeList
  simp only [takeId] at hs
  split_ifs at hs with hfree
  · -- the table grows by one entry
    obtain ⟨hents, rfl⟩ := Prod.mk.inj (Option.some.inj hs)
    have hsize' : ents'.size = ents.size + 1 := hents ▸ rfl
    have hfresh : ents'.datas ents.size =
        { c := .raw, i := 0, v := ents.raw ents.size % 2 ^ 8 } := by
      rw [← hents]
      exact Function.update_self ..
    have hother : ∀ {id : Nat}, id < ents.size → ents'.datas id = ents.datas id := by
      intro id hid
      rw [← hents]
      exact Function.update_of_ne hid.ne ..
    have hl' : FreeList ents' l :=
      hl.congr (hents ▸ rfl) (by omega) fun id hid => hother (hl.free id hid).1
    rw [Entity.id_make _ (by omega), Entity.version_make _ (Nat.mod_lt _ (by decide)), hfresh]
    refine ⟨⟨fun c i hi => ?_, h.slot_lt, ⟨l, hl'⟩, fun id hid => ?_⟩, Entity.make_value_lt ..,
      by omega, rfl, ⟨l, hl', fun hmem => (hl.free _ hmem).1.ne rfl⟩,
        fun id hid _ _ => ⟨hid.ne, hother hid⟩⟩
    · obtain ⟨hid, hentry⟩ := h.entry c i hi
      exact ⟨by omega, (hother hid).trans hentry⟩
    · obtain hlt | rfl : id < ents.size ∨ id = ents.size := by omega
      · rw [hother hlt]
        exact h.version id hlt
      · rw [hfresh]
        exact Nat.mod_lt _ (by decide)
  · -- the head of the free list is taken off
    split at hs
    · rename_i n hn
      obtain ⟨rfl, rfl⟩ := Prod.mk.inj (Option.some.inj hs)
      have hhead := hl.path.head
      rw [freeLink_eq_some.mpr ⟨rfl, hfree⟩] at hhead
      cases l with
      | nil => simp at hhead
      | cons p l =>
          obtain rfl : ents.free = p := Option.some.inj hhead
          obtain ⟨hlt, -⟩ := hl.free ents.free List.mem_cons_self
          have hl' : FreeList { ents with free := n } l := by
            refine ⟨?_, fun id hid => hl.free id (List.mem_cons_of_mem _ hid)⟩
            have htail := hl.path.2
            rw [freeNext_of_nextFree hn] at htail
            exact htail
          have hnew := (List.nodup_cons.mp hl.path.nodup).1
          have hlt' : ents.free < 2 ^ 24 := hlt.trans_le hsize
          rw [Entity.id_make _ hlt', Entity.version_make _ (h.version _ hlt)]
          refine ⟨⟨h.entry, h.slot_lt, ⟨l, hl'⟩, h.version⟩, Entity.make_value_lt .., hlt, rfl,
            ⟨l, hl', hnew⟩, fun id hid c hc => ⟨?_, rfl⟩⟩
          rintro rfl
          simp [hc] at hn
    · simp at hs

theorem takeId_size_le {e : Entity} (hs : ents.takeId = some (ents', e)) :
    ents.size ≤ ents'.size := by
  simp only [takeId] at hs
  split_ifs at hs
  · obtain ⟨rfl, -⟩ := Prod.mk.inj (Option.some.inj hs)
    exact Nat.le_succ _
  · split at hs
    · obtain ⟨rfl, -⟩ := Prod.mk.inj (Option.some.inj hs)
      exact le_rfl
    · simp at hs

theorem newEntities_size_le {c : ChunkId} {n slot : Nat} {m m' : Mem}
    (hs : newEntities c n slot ents m = some (ents', m')) : ents.size ≤ ents'.size := by
  induction n generalizing slot ents m with
  | zero =>
      obtain ⟨rfl, -⟩ := Prod.mk.inj (Option.some.inj hs)
      exact le_rfl
  | succ n ih =>
      simp only [newEntities, Option.bind_eq_bind, Option.bind_eq_some_iff] at hs
      obtain ⟨⟨ents₁, e⟩, htake, hs⟩ := hs
      exact (takeId_size_le htake).trans (@ih (ents₁.place e c slot) _ _ hs)

theorem entityAt_writeEntity (mm : Memory) (c d : ChunkId) (i slot : Nat) {e : Entity}
    (he : e.value < 2 ^ 32) :
    (mm.setData c (Mem.writeEntity (mm.data c) slot e)).entityAt d i =
      if d = c ∧ i = slot then e else mm.entityAt d i := by
  by_cases hd : d = c
  · subst hd
    simp only [Memory.entityAt, Memory.setData, Function.update_self, true_and,
      Mem.readEntity_writeEntity _ _ _ he]
  · simp only [Memory.entityAt, Memory.setData, Function.update_of_ne hd, hd, false_and, if_false]

/-- One turn of `new_entities`: the slot behind the entities of a chunk gets an id. -/
theorem Tracks.newTurn (h : Tracks ents mm L) {c : ChunkId} {slot : Nat} {e : Entity}
    {ents₁ : Entities} (hL : ∀ i, L c i ↔ i < slot) (htake : ents.takeId = some (ents₁, e))
    (hsize : ents₁.size < 2 ^ 24) :
    (∀ d i, (mm.setData c (Mem.writeEntity (mm.data c) slot e)).entityAt d i =
        if d = c ∧ i = slot then e else mm.entityAt d i) ∧
      Tracks (ents₁.place e c slot) (mm.setData c (Mem.writeEntity (mm.data c) slot e))
        (fun d i => L d i ∨ d = c ∧ i = slot) ∧
      ∀ id < ents.size, ∀ d, (ents.datas id).c = .chunk d →
        (ents₁.place e c slot).datas id = ents.datas id := by
  obtain ⟨h₁, hval, hid, hv, hfree, hnew⟩ := takeId_spec h htake (by omega)
  have hslot : slot ≤ ents₁.size := h₁.card_le (f := fun i => (c, i))
    (fun i hi => (hL i).mpr hi) fun i _ j _ hij => (Prod.mk.inj hij).2
  have hwrite : ∀ d i, (mm.setData c (Mem.writeEntity (mm.data c) slot e)).entityAt d i =
      if d = c ∧ i = slot then e else mm.entityAt d i :=
    fun d i => entityAt_writeEntity _ _ _ _ _ hval
  -- the handle is written over a slot that is void
  have hmem : ∀ d i, L d i →
      (mm.setData c (Mem.writeEntity (mm.data c) slot e)).entityAt d i = mm.entityAt d i := by
    intro d i hi
    rw [hwrite, if_neg]
    rintro ⟨rfl, rfl⟩
    exact lt_irrefl i ((hL i).mp hi)
  refine ⟨hwrite, ?_, fun id hid d hd => ?_⟩
  · apply (h₁.memory hmem).place hid hv hfree
    · rw [hwrite, if_pos ⟨rfl, rfl⟩]
    · omega
    · rintro d i (hi | hi)
      · obtain ⟨hlt, hentry⟩ := h.entry d i hi
        refine Or.inr ⟨hi, ?_⟩
        rw [hmem d i hi]
        exact (hnew _ hlt d (hentry ▸ rfl)).1
      · exact Or.inl hi
  · obtain ⟨hne, hsame⟩ := hnew id hid d hd
    rw [place_datas, if_neg hne, hsame]

/-- The slots behind the first `slot`, after one of them got an id. -/
theorem slots_of_turn {c : ChunkId} {n slot : Nat} {d : ChunkId} {i : Nat} :
    L d i ∨ Slots.of { c := c, start := slot, count := n + 1 } d i ↔
      (L d i ∨ d = c ∧ i = slot) ∨ Slots.of { c := c, start := slot + 1, count := n } d i := by
  simp only [Slots.of, or_assoc]
  refine or_congr_right ⟨?_, ?_⟩
  · rintro ⟨rfl, hlo, hhi⟩
    obtain rfl | hlt : i = slot ∨ slot + 1 ≤ i := by omega
    · exact Or.inl ⟨rfl, rfl⟩
    · exact Or.inr ⟨rfl, hlt, by omega⟩
  · rintro (⟨rfl, rfl⟩ | ⟨rfl, hlo, hhi⟩)
    · exact ⟨rfl, le_rfl, by omega⟩
    · exact ⟨rfl, by omega, by omega⟩

theorem setData_data (mm : Memory) (c : ChunkId) (m : Mem) : (mm.setData c m).data c = m :=
  Function.update_self ..

theorem setData_setData (mm : Memory) (c : ChunkId) (m m' : Mem) :
    (mm.setData c m).setData c m' = mm.setData c m' := by
  simp only [Memory.setData, Function.update_idem]

/-- `new_entities` on the slots behind the entities of a chunk. -/
theorem Tracks.newEntities (h : Tracks ents mm L) {c : ChunkId} {n slot : Nat} {m' : Mem}
    (hL : ∀ i, L c i ↔ i < slot)
    (hs : newEntities c n slot ents (mm.data c) = some (ents', m')) (hsize : ents'.size < 2 ^ 24) :
    Tracks ents' (mm.setData c m')
        (fun d i => L d i ∨ Slots.of { c := c, start := slot, count := n } d i) ∧
      ∀ id < ents.size, ∀ d, (ents.datas id).c = .chunk d → ents'.datas id = ents.datas id := by
  induction n generalizing slot ents mm L with
  | zero =>
      obtain ⟨rfl, rfl⟩ := Prod.mk.inj (Option.some.inj hs)
      refine ⟨?_, fun _ _ _ _ => rfl⟩
      have hdata : mm.setData c (mm.data c) = mm := by
        simp only [Memory.setData, Function.update_eq_self]
      rw [hdata]
      apply h.mono
      rintro d i (hi | ⟨-, hi, hi'⟩)
      · exact hi
      · exact absurd hi' (Nat.not_lt.mpr hi)
  | succ n ih =>
      simp only [Entities.newEntities, Option.bind_eq_bind, Option.bind_eq_some_iff] at hs
      obtain ⟨⟨ents₁, e⟩, htake, hs⟩ := hs
      have hle : (ents₁.place e c slot).size ≤ ents'.size := newEntities_size_le hs
      change ents₁.size ≤ ents'.size at hle
      obtain ⟨-, h₂, hsame⟩ := h.newTurn hL htake (by omega)
      rw [← setData_data mm c (Mem.writeEntity (mm.data c) slot e)] at hs
      obtain ⟨hnext, hkept⟩ := ih h₂ (fun i => by simp only [true_and, hL i]; omega) hs
      rw [setData_setData] at hnext
      refine ⟨hnext.mono fun d i hi => slots_of_turn.mp hi, fun id hid d hd => ?_⟩
      have hplace := hsame id hid d hd
      rw [← hplace]
      apply hkept id _ d
      · rw [hplace]
        exact hd
      · have hle₁ : ents.size ≤ ents₁.size := takeId_size_le htake
        exact hid.trans_le hle₁

theorem freeChain_size (ents : Entities) (es : List Entity) :
    (ents.freeChain es).size = ents.size := by
  induction es generalizing ents with
  | nil => rfl
  | cons e es ih => exact ih _

/-- Where the free list starts when handles are threaded in front of it. -/
def chainHead (free : Nat) : List Entity → Nat
  | [] => free
  | e :: _ => e.id

theorem freeChain_cons (ents : Entities) (e : Entity) (es : List Entity) :
    ents.freeChain (e :: es) =
      (ents.setData e.id (freed (ents.datas e.id) (chainHead ents.free es))).freeChain es := by
  cases es <;> rfl

/-- `freeChain` threads the ids in front of the free list; an id 0 cuts it off. -/
theorem freeChain_spec {l : List Nat} (hl : FreeList ents l) {es : List Entity}
    (hnd : (es.map Entity.id).Nodup) (hes : ∀ e ∈ es, e.id ∉ l ∧ e.id < ents.size) :
    (∀ id, id ∉ es.map Entity.id → (ents.freeChain es).datas id = ents.datas id) ∧
      (∀ id ∈ es.map Entity.id, ((ents.freeChain es).datas id).v < 2 ^ 8) ∧
      ∃ l', FreeList { ents.freeChain es with free := chainHead ents.free es } l' ∧
        ∀ id ∈ l', id ∈ l ∨ id ∈ es.map Entity.id := by
  induction es generalizing ents with
  | nil => exact ⟨fun _ _ => rfl, by simp, l, hl, fun _ => Or.inl⟩
  | cons e es ih =>
      obtain ⟨hel, heid⟩ := hes e List.mem_cons_self
      obtain ⟨hfresh, hnd⟩ := List.nodup_cons.mp hnd
      generalize hents : ents.setData e.id (freed (ents.datas e.id) (chainHead ents.free es)) = ents₁
      have hchain : ents.freeChain (e :: es) = ents₁.freeChain es := by
        rw [← hents, freeChain_cons]
      have hdatas : ∀ id, ents₁.datas id = if id = e.id
          then freed (ents.datas e.id) (chainHead ents.free es) else ents.datas id := by
        intro id
        rw [← hents, setData_datas]
      have hfree₁ : ents₁.free = ents.free := hents ▸ rfl
      have hsize₁ : ents₁.size = ents.size := hents ▸ rfl
      have hl₁ : FreeList ents₁ l := hl.congr hfree₁ hsize₁.ge fun id hid => by
        rw [hdatas, if_neg]
        rintro rfl
        exact hel hid
      obtain ⟨hother, hv, l₁, hl₂, hmem⟩ := ih hl₁ hnd fun f hf => by
        rw [hsize₁]
        exact hes f (List.mem_cons_of_mem e hf)
      rw [hchain]
      have hentry := hother e.id hfresh
      rw [hdatas, if_pos rfl] at hentry
      refine ⟨fun id hid => ?_, fun id hid => ?_, ?_⟩
      · rw [List.map_cons, List.mem_cons, not_or] at hid
        rw [hother id hid.2, hdatas, if_neg hid.1]
      · rw [List.map_cons] at hid
        rcases List.mem_cons.mp hid with rfl | hid
        · rw [hentry]
          exact Nat.mod_lt _ (by decide)
        · exact hv id hid
      · by_cases h0 : e.id = 0
        · refine ⟨[], ⟨?_, by simp⟩, by simp⟩
          simp [Links.Path, chainHead, freeLink, h0]
        · refine ⟨e.id :: l₁, ⟨⟨?_, ?_⟩, ?_⟩, ?_⟩
          · exact freeLink_eq_some.mpr ⟨rfl, h0⟩
          · have hnext : (ents₁.freeChain es).freeNext e.id = freeLink (chainHead ents.free es) :=
              freeNext_of_nextFree (hentry ▸ rfl)
            change Links.Path (ents₁.freeChain es).freeNext ((ents₁.freeChain es).freeNext e.id) l₁
            rw [hnext, ← hfree₁]
            exact hl₂.path
          · intro id hid
            rcases List.mem_cons.mp hid with rfl | hid
            · refine ⟨?_, chainHead ents.free es, ?_⟩
              · change e.id < (ents₁.freeChain es).size
                rw [freeChain_size]
                omega
              · change ((ents₁.freeChain es).datas e.id).c = _
                rw [hentry]
                rfl
            · exact hl₂.free id hid
          · intro id hid
            rw [List.map_cons]
            rcases List.mem_cons.mp hid with rfl | hid
            · exact Or.inr List.mem_cons_self
            · exact (hmem id hid).imp_right (List.mem_cons_of_mem _)

theorem mem_handlesFrom {c : ChunkId} {start n : Nat} {e : Entity}
    (he : e ∈ (List.range n).map fun k => mm.entityAt c (start + k)) :
    ∃ k < n, mm.entityAt c (start + k) = e := by
  obtain ⟨k, hk, rfl⟩ := List.mem_map.mp he
  exact ⟨k, List.mem_range.mp hk, rfl⟩

/-- The handles of occupied slots have different ids, none of them on the free list. -/
theorem Tracks.handles (h : Tracks ents mm L) {s : ChunkSlice} (hs : ∀ c i, Slots.of s c i → L c i)
    {l : List Nat} (hl : FreeList ents l) :
    (((List.range s.count).map fun k => mm.entityAt s.c (s.start + k)).map Entity.id).Nodup ∧
      ∀ e ∈ (List.range s.count).map fun k => mm.entityAt s.c (s.start + k),
        e.id ∉ l ∧ e.id < ents.size := by
  have hin : ∀ k < s.count, L s.c (s.start + k) :=
    fun k hk => hs _ _ ⟨rfl, Nat.le_add_right .., by omega⟩
  constructor
  · rw [List.map_map]
    apply List.Nodup.map_on _ List.nodup_range
    intro i hi j hj hij
    have := (h.unique (hin i (List.mem_range.mp hi)) (hin j (List.mem_range.mp hj)) hij).2
    omega
  · intro e he
    obtain ⟨k, hk, rfl⟩ := mem_handlesFrom he
    obtain ⟨hid, hentry⟩ := h.entry _ _ (hin k hk)
    exact ⟨hl.not_mem_of_chunk (by rw [hentry]), hid⟩

/-- `free_entities`: the slots of the slice become void. -/
theorem Tracks.freeEntities (h : Tracks ents mm L) {s : ChunkSlice}
    (hs : ∀ c i, Slots.of s c i → L c i)
    (hf : ents.freeEntities ((List.range s.count).map fun k => mm.entityAt s.c (s.start + k)) =
      some ents') :
    Tracks ents' mm fun c i => L c i ∧ ¬ Slots.of s c i := by
  obtain ⟨l, hl⟩ := h.freeList
  have hin : ∀ k < s.count, L s.c (s.start + k) :=
    fun k hk => hs _ _ ⟨rfl, Nat.le_add_right .., by omega⟩
  obtain ⟨hnd, hfree⟩ := h.handles hs hl
  obtain ⟨hother, hv, l', hl', -⟩ := freeChain_spec hl hnd hfree
  revert hf hother hv hl'
  generalize hes : ((List.range s.count).map fun k => mm.entityAt s.c (s.start + k)) = es
  intro hf hother hv hl'
  cases es with
  | nil => simp [Entities.freeEntities] at hf
  | cons e es =>
      have hsize := freeChain_size ents (e :: es)
      obtain rfl := Option.some.inj hf
      refine ⟨fun c i hi => ?_, fun c i hi => h.slot_lt c i hi.1, ⟨l', hl'⟩, fun id hid => ?_⟩
      · obtain ⟨hid, hentry⟩ := h.entry c i hi.1
        have hout : (mm.entityAt c i).id ∉ (e :: es).map Entity.id := by
          intro hin'
          obtain ⟨f, hf, hfid⟩ := List.mem_map.mp hin'
          obtain ⟨k, hk, rfl⟩ := mem_handlesFrom (hes ▸ hf)
          obtain ⟨rfl, rfl⟩ := h.unique (hin k hk) hi.1 hfid
          exact hi.2 ⟨rfl, Nat.le_add_right .., by omega⟩
        exact ⟨hid.trans_eq hsize.symm, (hother _ hout).trans hentry⟩
      · by_cases hin' : id ∈ (e :: es).map Entity.id
        · exact hv id hin'
        · change ((ents.freeChain (e :: es)).datas id).v < 2 ^ 8
          rw [hother id hin']
          exact h.version id (hid.trans_eq hsize)

/-! ## Moving handles -/

theorem handlesFrom_succ (c : ChunkId) (start n : Nat) :
    ((List.range (n + 1)).map fun k => mm.entityAt c (start + k)) =
      mm.entityAt c start :: (List.range n).map fun k => mm.entityAt c (start + 1 + k) := by
  rw [List.range_succ_eq_map, List.map_cons, List.map_map]
  congr 2
  funext k
  simp only [Function.comp_apply, Nat.succ_eq_add_one]
  congr 1
  omega

/-- `move_entities`, after the handles were copied to slots that were void. -/
theorem Tracks.moveEntities (h : Tracks ents mm L) {src dst : ChunkId} {srcIndex slot n : Nat}
    (hsrc : ∀ k < n, L src (srcIndex + k))
    (hcopy : ∀ k < n, mm.entityAt dst (slot + k) = mm.entityAt src (srcIndex + k))
    (hslot : slot + n ≤ 2 ^ 24)
    (hout : ∀ k < n, ¬ Slots.of { c := src, start := srcIndex, count := n } dst (slot + k))
    (hL : ∀ c i, L' c i → Slots.of { c := dst, start := slot, count := n } c i ∨
      L c i ∧ ¬ Slots.of { c := src, start := srcIndex, count := n } c i) :
    Tracks (ents.moveEntities dst slot
      ((List.range n).map fun k => mm.entityAt src (srcIndex + k))) mm L' := by
  induction n generalizing ents srcIndex slot L with
  | zero =>
      apply h.mono
      intro c i hi
      rcases hL c i hi with ⟨-, hlo, hhi⟩ | ⟨hold, -⟩
      · exact absurd hhi (Nat.not_lt.mpr hlo)
      · exact hold
  | succ n ih =>
      rw [handlesFrom_succ]
      have h₁ : Tracks (ents.place (mm.entityAt src srcIndex) dst slot) mm
          fun c i => c = dst ∧ i = slot ∨ L c i ∧ ¬ (c = src ∧ i = srcIndex) :=
        h.move (hsrc 0 (Nat.succ_pos n)) (by omega) (hcopy 0 (Nat.succ_pos n)) fun _ _ => id
      apply ih h₁
      · intro k hk
        refine Or.inr ⟨?_, by omega⟩
        have := hsrc (k + 1) (by omega)
        rwa [show srcIndex + (k + 1) = srcIndex + 1 + k by omega] at this
      · intro k hk
        have := hcopy (k + 1) (by omega)
        rwa [show srcIndex + (k + 1) = srcIndex + 1 + k by omega,
          show slot + (k + 1) = slot + 1 + k by omega] at this
      · omega
      · rintro k hk ⟨hd, hlo, hhi⟩
        dsimp only at hlo hhi
        exact hout (k + 1) (by omega) ⟨hd, by dsimp only; omega, by dsimp only; omega⟩
      · intro c i hi
        rcases hL c i hi with ⟨rfl, hlo, hhi⟩ | ⟨hold, hkept⟩
        · dsimp only at hlo hhi
          obtain rfl | hlt : i = slot ∨ slot + 1 ≤ i := by omega
          · refine Or.inr ⟨Or.inl ⟨rfl, rfl⟩, ?_⟩
            rintro ⟨hd, hlo', hhi'⟩
            dsimp only at hlo' hhi'
            exact hout 0 (Nat.succ_pos n) ⟨hd, by dsimp only; omega, by dsimp only; omega⟩
          · exact Or.inl ⟨rfl, hlt, by dsimp only; omega⟩
        · refine Or.inr ⟨Or.inr ⟨hold, ?_⟩, ?_⟩
          · rintro ⟨rfl, rfl⟩
            exact hkept ⟨rfl, le_rfl, by dsimp only; omega⟩
          · rintro ⟨rfl, hlo, hhi⟩
            dsimp only at hlo hhi
            exact hkept ⟨rfl, by dsimp only; omega, by dsimp only; omega⟩

/-- Within one chunk, only the slot of an entry changes. -/
theorem fillEntities_eq {c : ChunkId} {es : List Entity} {slot : Nat}
    (hes : ∀ e ∈ es, (ents.datas e.id).c = .chunk c) :
    ents.fillEntities slot es = ents.moveEntities c slot es := by
  induction es generalizing ents slot with
  | nil => rfl
  | cons e es ih =>
      have hstep : ents.setData e.id { ents.datas e.id with i := slot % 2 ^ 24 } =
          ents.place e c slot := by
        rw [place, ← hes e List.mem_cons_self]
      simp only [Entities.fillEntities, Entities.moveEntities]
      rw [hstep]
      apply ih
      intro f hf
      rw [place_datas]
      split_ifs
      · rfl
      · exact hes f (List.mem_cons_of_mem e hf)

/-- A handle in front of everything that is written. -/
theorem entityAt_of_writes {c d : ChunkId} {i : Nat} {W : Nat → Prop}
    (hw : Memory.Writes d W mm mm') (hW : c = d → ∀ x, W x → sizeofEntity * (i + 1) ≤ x) :
    mm'.entityAt c i = mm.entityAt c i := by
  have hsize : sizeofEntity = 4 := rfl
  simp only [Memory.entityAt, Mem.readEntity]
  by_cases hc : c = d
  · subst hc
    congr 1
    apply Mem.readWord_congr
    intro k hk
    apply hw.same
    intro hx
    have := hW rfl _ hx
    rw [hsize] at this
    omega
  · rw [hw.other c hc]

/-- Writes behind the handles of the slots. -/
theorem Tracks.writes (h : Tracks ents mm L) {c : ChunkId} {W : Nat → Prop}
    (hw : Memory.Writes c W mm mm')
    (hW : ∀ i, L c i → ∀ x, W x → sizeofEntity * (i + 1) ≤ x) : Tracks ents mm' L :=
  h.memory fun _ i hi => entityAt_of_writes hw fun hc => hW i (hc ▸ hi)

end Entities

namespace World

open Entities

variable {w : World} {L : Slots}

/-- `memcpy` of handles changes the destination slots only. -/
theorem entityAt_copyHandles (w : World) (dst : ChunkId) (slot : Nat) (src : ChunkId)
    (srcSlot n : Nat) (c : ChunkId) (i : Nat) :
    (w.copyHandles dst slot src srcSlot n).memory.entityAt c i =
      if c = dst ∧ slot ≤ i ∧ i < slot + n then w.memory.entityAt src (srcSlot + (i - slot))
      else w.memory.entityAt c i := by
  have hsize : sizeofEntity = 4 := rfl
  simp only [copyHandles, Memory.entityAt, Memory.setData, Mem.readEntity, Function.update_apply,
    hsize]
  split_ifs with hc hin hin
  · congr 1
    apply Mem.readWord_congr
    intro k hk
    rw [Mem.copy_of_mem _ _ _ (by omega) (by omega)]
    congr 1
    omega
  · subst hc
    congr 1
    apply Mem.readWord_congr
    intro k hk
    simp only [true_and] at hin
    obtain hlt | hge : i < slot ∨ slot + n ≤ i := by omega
    · exact Mem.copy_of_lt _ _ _ _ (by omega)
    · exact Mem.copy_of_ge _ _ _ (by omega)
  · exact absurd hin.1 hc
  · rfl

/-- `move_entities` into void slots. -/
theorem tracks_moveEntities (h : Tracks w.ents w.memory L) {s : ChunkSlice} {src : ChunkId}
    {srcIndex : Nat} (hsrc : ∀ k < s.count, L src (srcIndex + k))
    (hslot : s.start + s.count ≤ 2 ^ 24) (hvoid : ∀ c i, Slots.of s c i → ¬ L c i) :
    Tracks (w.moveEntities s src srcIndex).ents (w.moveEntities s src srcIndex).memory fun c i =>
      Slots.of s c i ∨ L c i ∧ ¬ Slots.of { c := src, start := srcIndex, count := s.count } c i := by
  have hcopied : ∀ c i, Slots.of s c i →
      (w.copyHandles s.c s.start src srcIndex s.count).memory.entityAt c i =
        w.memory.entityAt src (srcIndex + (i - s.start)) := by
    intro c i hi
    rw [entityAt_copyHandles]
    exact if_pos hi
  have hkept : ∀ c i, L c i → (w.copyHandles s.c s.start src srcIndex s.count).memory.entityAt c i =
      w.memory.entityAt c i := by
    intro c i hi
    rw [entityAt_copyHandles]
    exact if_neg fun hin => hvoid c i hin hi
  have hdst : ∀ k < s.count, Slots.of s s.c (s.start + k) :=
    fun k hk => ⟨rfl, Nat.le_add_right .., by omega⟩
  have hes : w.handles { c := src, start := srcIndex, count := s.count } =
      (List.range s.count).map fun k =>
        (w.copyHandles s.c s.start src srcIndex s.count).memory.entityAt src (srcIndex + k) := by
    apply List.map_congr_left
    intro k hk
    exact (hkept _ _ (hsrc k (List.mem_range.mp hk))).symm
  simp only [World.moveEntities]
  rw [hes]
  apply Tracks.moveEntities (h.memory hkept) hsrc
  · intro k hk
    rw [hcopied _ _ (hdst k hk), hkept _ _ (hsrc k hk)]
    congr 1
    omega
  · exact hslot
  · rintro k hk ⟨hc, hlo, hhi⟩
    dsimp only at hc hlo hhi
    apply hvoid s.c (s.start + k) (hdst k hk)
    have := hsrc (s.start + k - srcIndex) (by omega)
    rwa [← hc, Nat.add_sub_cancel' hlo] at this
  · exact fun c i hi => hi

/-- `fill_entities` into void slots of the same chunk. -/
theorem tracks_fillEntities (h : Tracks w.ents w.memory L) {s : ChunkSlice} {srcIndex : Nat}
    (hsrc : ∀ k < s.count, L s.c (srcIndex + k)) (hslot : s.start + s.count ≤ 2 ^ 24)
    (hvoid : ∀ c i, Slots.of s c i → ¬ L c i) :
    Tracks (w.fillEntities s srcIndex).ents (w.fillEntities s srcIndex).memory fun c i =>
      Slots.of s c i ∨ L c i ∧ ¬ Slots.of { c := s.c, start := srcIndex, count := s.count } c i := by
  have hfill : w.fillEntities s srcIndex = w.moveEntities s s.c srcIndex := by
    simp only [World.fillEntities, World.moveEntities]
    rw [fillEntities_eq]
    intro e he
    obtain ⟨k, hk, rfl⟩ := mem_handlesFrom he
    rw [(h.entry _ _ (hsrc k hk)).2]
  rw [hfill]
  exact tracks_moveEntities h hsrc hslot hvoid

/-- `new_entities` on a slice behind the entities of its chunk. -/
theorem tracks_newEntities {w' : World} (h : Tracks w.ents w.memory L) {s : ChunkSlice}
    (hL : ∀ i, L s.c i ↔ i < s.start) (hs : w.newEntities s = some w')
    (hsize : w'.ents.size < 2 ^ 24) :
    Tracks w'.ents w'.memory (fun c i => L c i ∨ Slots.of s c i) ∧
      ∀ id < w.ents.size, ∀ c, (w.ents.datas id).c = .chunk c →
        w'.ents.datas id = w.ents.datas id := by
  simp only [World.newEntities, Option.bind_eq_bind, Option.bind_eq_some_iff] at hs
  obtain ⟨⟨ents, m⟩, hnew, hs⟩ := hs
  obtain rfl := Option.some.inj hs
  exact h.newEntities hL hnew hsize

theorem newEntities_store {w' : World} {s : ChunkSlice} (hs : w.newEntities s = some w') :
    w'.store = w.store ∧ w.ents.size ≤ w'.ents.size := by
  simp only [World.newEntities, Option.bind_eq_bind, Option.bind_eq_some_iff] at hs
  obtain ⟨⟨ents, m⟩, hnew, hs⟩ := hs
  obtain rfl := Option.some.inj hs
  exact ⟨rfl, Entities.newEntities_size_le hnew⟩

theorem freeEntities_store {w' : World} {s : ChunkSlice} (hs : w.freeEntities s = some w') :
    w'.store = w.store ∧ w'.memory = w.memory ∧ w'.ents.size = w.ents.size := by
  simp only [World.freeEntities, Option.bind_eq_bind, Option.bind_eq_some_iff] at hs
  obtain ⟨ents, hfree, hs⟩ := hs
  obtain rfl := Option.some.inj hs
  refine ⟨rfl, rfl, ?_⟩
  unfold Entities.freeEntities at hfree
  split at hfree
  · simp at hfree
  · rw [← Option.some.inj hfree]
    exact freeChain_size ..

/-- `free_entities` on occupied slots. -/
theorem tracks_freeEntities {w' : World} (h : Tracks w.ents w.memory L) {s : ChunkSlice}
    (hL : ∀ c i, Slots.of s c i → L c i) (hs : w.freeEntities s = some w') :
    Tracks w'.ents w'.memory fun c i => L c i ∧ ¬ Slots.of s c i := by
  simp only [World.freeEntities, Option.bind_eq_bind, Option.bind_eq_some_iff] at hs
  obtain ⟨ents, hfree, hs⟩ := hs
  obtain rfl := Option.some.inj hs
  exact h.freeEntities hL hfree

end World

end Dots

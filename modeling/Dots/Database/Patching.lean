import Dots.Database.Cells
import Dots.Library.Parts

/-!
# Patching, element by element

`chunk::patch` hands each component, and each element of each buffer, to the patcher. The
elements of different slots, columns and buffers do not overlap, so that patching works on
each of them alone, and in any order.
-/

namespace Dots

open Library

/-- What holds bytes: a chunk or a heap block. -/
inductive Place
  | chunk (c : ChunkId)
  | block (d : Nat)
  deriving DecidableEq, Repr

/-- A plain or managed component, or an element of a buffer. -/
structure Element where
  place : Place
  addr : Nat
  type : TypeIndex
  len : Nat
  deriving DecidableEq, Repr

/-- The two share no byte. -/
def Element.Apart (el el' : Element) : Prop :=
  el.place = el'.place → el.addr + el.len ≤ el'.addr ∨ el'.addr + el'.len ≤ el.addr

/-- The byte at `x` is one of the element's. -/
def Element.Covers (el : Element) (pl : Place) (x : Nat) : Prop :=
  el.place = pl ∧ el.addr ≤ x ∧ x < el.addr + el.len

namespace Memory

variable {ctx : Context} {mm mm' mm'' : Memory} {pl : Place} {m : Mem} {el : Element}
  {L : List Element} {p q : Entity → Entity}

/-- The bytes of a place; those of no block are all 0. -/
def bytesAt (mm : Memory) : Place → Mem
  | .chunk c => mm.data c
  | .block d => ((mm.heap d).map Block.bytes).getD fun _ => 0

def setBytes (mm : Memory) (pl : Place) (m : Mem) : Memory :=
  match pl with
  | .chunk c => mm.setData c m
  | .block d =>
      { mm with
        heap := Function.update mm.heap d ((mm.heap d).map fun b => { b with bytes := m }) }

/-- There are bytes: chunks always have some. -/
def HasBytes (mm : Memory) : Place → Prop
  | .chunk _ => True
  | .block d => mm.heap d ≠ none

theorem bytesAt_setBytes (h : mm.HasBytes pl) : (mm.setBytes pl m).bytesAt pl = m := by
  cases pl with
  | chunk c => exact Function.update_self ..
  | block d =>
      obtain ⟨b, hb⟩ := Option.ne_none_iff_exists'.mp h
      simp [setBytes, bytesAt, hb]

theorem bytesAt_setBytes_ne {pl' : Place} (h : pl' ≠ pl) :
    (mm.setBytes pl m).bytesAt pl' = mm.bytesAt pl' := by
  cases pl with
  | chunk c =>
      cases pl' with
      | chunk c' => exact Function.update_of_ne (fun hc => h (congrArg Place.chunk hc)) ..
      | block d => rfl
  | block d =>
      cases pl' with
      | chunk c => rfl
      | block d' =>
          have hd : d' ≠ d := fun hd => h (congrArg Place.block hd)
          simp [setBytes, bytesAt, hd]

theorem setBytes_bytesAt (mm : Memory) (pl : Place) : mm.setBytes pl (mm.bytesAt pl) = mm := by
  cases pl with
  | chunk c => simp [setBytes, bytesAt, setData]
  | block d =>
      have hsame : (mm.heap d).map (fun b => { b with bytes := mm.bytesAt (.block d) }) =
          mm.heap d := by
        cases hd : mm.heap d with
        | none => rfl
        | some b => simp [bytesAt, hd]
      simp only [setBytes, hsame, Function.update_eq_self]

theorem setBytes_setBytes (mm : Memory) (pl : Place) (m m' : Mem) :
    (mm.setBytes pl m).setBytes pl m' = mm.setBytes pl m' := by
  cases pl with
  | chunk c => simp [setBytes, setData]
  | block d => simp [setBytes, Function.comp_def]

/-- The bytes of an element. -/
def element (mm : Memory) (el : Element) : List UInt8 :=
  Mem.read (mm.bytesAt el.place) el.addr el.len

/-- Patch one element. -/
def patchAt (ctx : Context) (p : Entity → Entity) (mm : Memory) (el : Element) : Memory :=
  mm.setBytes el.place (patchElement ctx el.type el.len p (mm.bytesAt el.place) el.addr)

/-! ## What patching makes of an element -/

/-- The patcher makes 32-bit values of 32-bit values. -/
def Bounded (p : Entity → Entity) : Prop := ∀ e : Entity, e.value < 2 ^ 32 → (p e).value < 2 ^ 32

/-- The bytes as the start of a memory. -/
def ofBytes (bs : List UInt8) : Mem := Mem.write (fun _ => 0) 0 bs

/-- The bytes of an element with its listed references patched. -/
def mapRefs (ctx : Context) (t : TypeIndex) (p : Entity → Entity) (bs : List UInt8) : List UInt8 :=
  Mem.read (Mem.mapWords (fun v => (p ⟨v⟩).value) (ofBytes bs) 0 (refOffsets ctx t)) 0 bs.length

/-- The bytes of an element, patched. -/
def patched (ctx : Context) (t : TypeIndex) (p : Entity → Entity) (bs : List UInt8) : List UInt8 :=
  match (ctx.info t).vtable.patch with
  | none => mapRefs ctx t p bs
  | some f => f p (mapRefs ctx t p bs)

/-- The references of an element: those the registry lists, and the `custom` ones. -/
def references (ctx : Context) (custom : TypeIndex → List UInt8 → List Entity) (t : TypeIndex)
    (bs : List UInt8) : List Entity :=
  ((refOffsets ctx t).map fun r => ⟨Mem.readWord (ofBytes bs) r 4⟩) ++ custom t bs

/-- The registry lists words of four bytes within the element that do not overlap, and a
custom patch function rewrites the `custom` references and nothing else. -/
structure LawfulPatch (ctx : Context) (custom : TypeIndex → List UInt8 → List Entity)
    (t : TypeIndex) (n : Nat) : Prop where
  inside : ∀ r ∈ refOffsets ctx t, r + 4 ≤ n
  apart : Mem.Apart (refOffsets ctx t)
  length : ∀ f p bs, (ctx.info t).vtable.patch = some f → bs.length = n → (f p bs).length = n
  fix : ∀ f p bs, (ctx.info t).vtable.patch = some f → bs.length = n → Bounded p →
    (∀ e ∈ custom t bs, p e = e) → f p bs = bs
  undo : ∀ f p q bs, (ctx.info t).vtable.patch = some f → bs.length = n → Bounded p → Bounded q →
    (∀ e ∈ custom t bs, q (p e) = e) → f q (f p bs) = bs
  listed : ∀ f p q bs, (ctx.info t).vtable.patch = some f → bs.length = n → Bounded p → Bounded q →
    f p (mapRefs ctx t q bs) = mapRefs ctx t q (f p bs)

variable {custom : TypeIndex → List UInt8 → List Entity} {t : TypeIndex} {n : Nat}
  {bs : List UInt8}

theorem ofBytes_apply {i : Nat} (hi : i < bs.length) : ofBytes bs (0 + i) = bs.getD i 0 := by
  simp only [ofBytes, Mem.write]
  rw [if_pos ⟨by omega, by omega⟩, Nat.add_sub_cancel_left]

@[simp] theorem length_read (m : Mem) (a n : Nat) : (Mem.read m a n).length = n := by
  simp [Mem.read]

theorem ofBytes_read (m : Mem) (a : Nat) {n i : Nat} (hi : i < n) :
    ofBytes (Mem.read m a n) (0 + i) = m (a + i) := by
  rw [ofBytes_apply (by rwa [length_read])]
  simp [Mem.read, List.getD_eq_getElem?_getD, hi]

theorem read_ofBytes (bs : List UInt8) : Mem.read (ofBytes bs) 0 bs.length = bs := by
  apply List.ext_getElem
  · rw [length_read]
  · intro i _ hi
    simp only [Mem.read, List.getElem_map, List.getElem_range]
    rw [ofBytes_apply hi, List.getD_eq_getElem?_getD, List.getElem?_eq_getElem hi,
      Option.getD_some]

@[simp] theorem length_mapRefs (ctx : Context) (t : TypeIndex) (p : Entity → Entity)
    (bs : List UInt8) : (mapRefs ctx t p bs).length = bs.length :=
  length_read ..

/-- Wherever the element is. -/
theorem read_mapWords (hin : ∀ r ∈ refOffsets ctx t, r + 4 ≤ n) (p : Entity → Entity) (m : Mem)
    (a : Nat) : Mem.read (Mem.mapWords (fun v => (p ⟨v⟩).value) m a (refOffsets ctx t)) a n =
      mapRefs ctx t p (Mem.read m a n) := by
  rw [mapRefs, length_read]
  apply Mem.read_eq
  exact Mem.mapWords_agree hin fun i hi => (ofBytes_read m a hi).symm

theorem Bounded.words (hp : Bounded p) : ∀ v < 256 ^ 4, (p ⟨v⟩).value < 256 ^ 4 :=
  fun v hv => hp ⟨v⟩ hv

theorem mapRefs_fix (h : ∀ r ∈ refOffsets ctx t, p ⟨Mem.readWord (ofBytes bs) r 4⟩ =
    ⟨Mem.readWord (ofBytes bs) r 4⟩) : mapRefs ctx t p bs = bs := by
  rw [mapRefs, Mem.mapWords_fix, read_ofBytes]
  intro r hr
  rw [Nat.zero_add, h r hr]

theorem mapRefs_undo (hl : LawfulPatch ctx custom t bs.length) (hp : Bounded p) (hq : Bounded q)
    (h : ∀ r ∈ refOffsets ctx t, q (p ⟨Mem.readWord (ofBytes bs) r 4⟩) =
      ⟨Mem.readWord (ofBytes bs) r 4⟩) : mapRefs ctx t q (mapRefs ctx t p bs) = bs := by
  have hinner : _ = mapRefs ctx t q (mapRefs ctx t p bs) := read_mapWords hl.inside q
    (Mem.mapWords (fun v => (p ⟨v⟩).value) (ofBytes bs) 0 (refOffsets ctx t)) 0
  rw [← hinner, hl.apart.mapWords_undo hp.words hq.words, read_ofBytes]
  intro r hr
  rw [Nat.zero_add, h r hr]

theorem length_patched (hl : LawfulPatch ctx custom t bs.length) (p : Entity → Entity) :
    (patched ctx t p bs).length = bs.length := by
  unfold patched
  split
  · exact length_mapRefs ..
  next f hf => exact hl.length f p _ hf (length_mapRefs ..)

theorem mem_references {r : Nat} (hr : r ∈ refOffsets ctx t) :
    ⟨Mem.readWord (ofBytes bs) r 4⟩ ∈ references ctx custom t bs :=
  List.mem_append_left _ (List.mem_map.mpr ⟨r, hr, rfl⟩)

/-- A patcher that changes no reference of an element changes no byte. -/
theorem patched_fix (hl : LawfulPatch ctx custom t bs.length) (hp : Bounded p)
    (h : ∀ e ∈ references ctx custom t bs, p e = e) : patched ctx t p bs = bs := by
  have hrefs : mapRefs ctx t p bs = bs := mapRefs_fix fun r hr => h _ (mem_references hr)
  unfold patched
  split
  · exact hrefs
  next f hf =>
    rw [hrefs]
    exact hl.fix f p bs hf rfl hp fun e he => h e (List.mem_append_right _ he)

/-- A patcher takes another one back where it does so on all references. -/
theorem patched_undo (hl : LawfulPatch ctx custom t bs.length) (hp : Bounded p) (hq : Bounded q)
    (h : ∀ e ∈ references ctx custom t bs, q (p e) = e) :
    patched ctx t q (patched ctx t p bs) = bs := by
  have hrefs : mapRefs ctx t q (mapRefs ctx t p bs) = bs :=
    mapRefs_undo hl hp hq fun r hr => h _ (mem_references hr)
  unfold patched
  split
  · exact hrefs
  next f hf =>
    rw [← hl.listed f p q _ hf (length_mapRefs ..) hp hq, hrefs]
    exact hl.undo f p q bs hf rfl hp hq fun e he => h e (List.mem_append_right _ he)

theorem read_write (m : Mem) (a : Nat) {bs : List UInt8} (h : bs.length = n) :
    Mem.read (Mem.write m a bs) a n = bs := by
  subst h
  apply List.ext_getElem
  · rw [length_read]
  · intro i _ hi
    simp only [Mem.read, List.getElem_map, List.getElem_range, Mem.write]
    rw [if_pos ⟨by omega, by omega⟩, Nat.add_sub_cancel_left, List.getD_eq_getElem?_getD,
      List.getElem?_eq_getElem hi, Option.getD_some]

theorem read_patchElement (hl : LawfulPatch ctx custom t n) (p : Entity → Entity) (m : Mem)
    (a : Nat) : Mem.read (patchElement ctx t n p m a) a n = patched ctx t p (Mem.read m a n) := by
  have hrefs := read_mapWords hl.inside p m a
  cases hf : (ctx.info t).vtable.patch with
  | none =>
      simp only [patched, patchElement, hf]
      exact hrefs
  | some f =>
      have hlen : ∀ m : Mem, (f p (Mem.read m a n)).length = n := fun m =>
        hl.length f p _ hf (length_read ..)
      simp only [patched, patchElement, hf, ← hrefs, List.take_of_length_le (hlen _).le]
      exact read_write _ a (hlen _)

theorem sameOff_patchElement (hin : ∀ r ∈ refOffsets ctx t, r + 4 ≤ n) (p : Entity → Entity)
    (m : Mem) (a : Nat) :
    Mem.SameOff (fun x => a ≤ x ∧ x < a + n) m (patchElement ctx t n p m a) := by
  have hrefs : Mem.SameOff (fun x => a ≤ x ∧ x < a + n) m
      (Mem.mapWords (fun v => (p ⟨v⟩).value) m a (refOffsets ctx t)) := by
    apply Mem.sameOff_mapWords
    intro r hr x hlo hhi
    have := hin r hr
    exact ⟨by omega, by omega⟩
  cases hf : (ctx.info t).vtable.patch with
  | none =>
      simp only [patchElement, hf]
      exact hrefs
  | some f =>
      simp only [patchElement, hf]
      refine hrefs.trans (.write fun x hlo hhi => ⟨hlo, ?_⟩)
      rw [List.length_take] at hhi
      omega

/-! ## Independence -/

/-- The second memory differs from the first in bytes of `L` at most. -/
structure AgreeOff (L : List Element) (mm mm' : Memory) : Prop where
  bytes : ∀ pl x, (∀ el ∈ L, ¬ el.Covers pl x) → mm'.bytesAt pl x = mm.bytesAt pl x
  sizes : ∀ d, (mm'.heap d).map Block.size = (mm.heap d).map Block.size
  freshBlock : mm'.freshBlock = mm.freshBlock
  guids : mm'.guids = mm.guids
  guidCount : mm'.guidCount = mm.guidCount

theorem AgreeOff.refl (L : List Element) (mm : Memory) : AgreeOff L mm mm :=
  ⟨fun _ _ _ => rfl, fun _ => rfl, rfl, rfl, rfl⟩

theorem AgreeOff.hasBytes (h : AgreeOff L mm mm') : mm'.HasBytes pl ↔ mm.HasBytes pl := by
  cases pl with
  | chunk c => exact Iff.rfl
  | block d =>
      have hsize := h.sizes d
      rw [HasBytes, HasBytes, not_iff_not, ← Option.map_eq_none_iff (f := Block.size), hsize,
        Option.map_eq_none_iff]

theorem eq_of_bytesAt (hbytes : ∀ pl, mm'.bytesAt pl = mm.bytesAt pl)
    (h : AgreeOff L mm mm') : mm' = mm := by
  have hdata : mm'.data = mm.data := funext fun c => hbytes (.chunk c)
  have hheap : mm'.heap = mm.heap := by
    funext d
    have hsize := h.sizes d
    have hd := hbytes (.block d)
    cases hb : mm.heap d with
    | none =>
        rw [hb, Option.map_none, Option.map_eq_none_iff] at hsize
        exact hsize
    | some b =>
        rw [hb, Option.map_some] at hsize
        obtain ⟨b', hb', hsize⟩ := Option.map_eq_some_iff.mp hsize
        rw [hb', Option.some.injEq]
        simp only [bytesAt, hb, hb', Option.map_some, Option.getD_some] at hd
        cases b
        cases b'
        simp_all
  have hfresh := h.freshBlock
  have hguids := h.guids
  have hcount := h.guidCount
  cases mm
  cases mm'
  simp_all

/-- Memories that agree off `L` and on each of its elements are the same. -/
theorem eq_of_elements (h : AgreeOff L mm mm') (hel : ∀ el ∈ L, mm'.element el = mm.element el) :
    mm' = mm := by
  apply eq_of_bytesAt _ h
  intro pl
  funext x
  by_cases hx : ∃ el ∈ L, el.Covers pl x
  · obtain ⟨el, hmem, rfl, hlo, hhi⟩ := hx
    have hread := Mem.read_inj (hel el hmem) (i := x - el.addr) (by omega)
    rwa [Nat.add_sub_cancel' hlo] at hread
  · exact h.bytes pl x fun el hmem hc => hx ⟨el, hmem, hc⟩

/-- Elements of a list that do not overlap and have bytes, of types with lawful patches. -/
structure Patchable (ctx : Context) (custom : TypeIndex → List UInt8 → List Entity)
    (mm : Memory) (L : List Element) : Prop where
  lawful : ∀ el ∈ L, LawfulPatch ctx custom el.type el.len
  apart : ∀ el ∈ L, ∀ el' ∈ L, el ≠ el' → el.Apart el'
  hasBytes : ∀ el ∈ L, mm.HasBytes el.place

theorem agreeOff_patchAt (hmem : el ∈ L) (hin : ∀ r ∈ refOffsets ctx el.type, r + 4 ≤ el.len)
    (hbytes : mm'.HasBytes el.place) (h : AgreeOff L mm mm') :
    AgreeOff L mm (mm'.patchAt ctx p el) := by
  have hoff := sameOff_patchElement hin p (mm'.bytesAt el.place) el.addr
  refine ⟨fun pl x hx => ?_, fun d => ?_, ?_, ?_, ?_⟩
  · rw [← h.bytes pl x hx, patchAt]
    by_cases hpl : pl = el.place
    · subst hpl
      rw [bytesAt_setBytes hbytes]
      exact hoff x fun hin => hx el hmem ⟨rfl, hin⟩
    · rw [bytesAt_setBytes_ne hpl]
  · rw [← h.sizes d, patchAt]
    cases hpl : el.place with
    | chunk c => rfl
    | block d' =>
        simp only [setBytes, Function.update_apply]
        split_ifs with hd
        · rw [hd, Option.map_map]
          rfl
        · rfl
  · rw [← h.freshBlock, patchAt]
    cases el.place <;> rfl
  · rw [← h.guids, patchAt]
    cases el.place <;> rfl
  · rw [← h.guidCount, patchAt]
    cases el.place <;> rfl

theorem Patchable.separate (h : Patchable ctx custom mm L) (p : Entity → Entity) :
    Separate (AgreeOff L mm) (fun el mm => mm.element el) L (fun el mm => mm.patchAt ctx p el)
      fun el => patched ctx el.type p where
  keeps el hel mm' hmm :=
    agreeOff_patchAt hel (h.lawful el hel).inside (hmm.hasBytes.mpr (h.hasBytes el hel)) hmm
  self el hel mm' hmm := by
    rw [element, patchAt, bytesAt_setBytes (hmm.hasBytes.mpr (h.hasBytes el hel))]
    exact read_patchElement (h.lawful el hel) p _ _
  other el hel el' hel' hne mm' hmm := by
    rw [element, patchAt, element]
    by_cases hpl : el'.place = el.place
    · rw [hpl, bytesAt_setBytes (hmm.hasBytes.mpr (h.hasBytes el hel))]
      apply Mem.read_eq
      intro i hi
      apply sameOff_patchElement (h.lawful el hel).inside
      rcases h.apart el hel el' hel' hne hpl.symm with happart | happart
      · omega
      · omega
    · rw [bytesAt_setBytes_ne hpl]

/-! ## The elements of one slot -/

/-- The elements of one column. -/
def columnElements (ctx : Context) (mm : Memory) (a : Archetype) (ct : AllocType) (c : ChunkId)
    (i k : Nat) : List Element :=
  let t := a.types.getD k 0
  let addr := a.address ct k i
  if a.firstBuffer ≤ k ∧ k < a.firstManaged then
    let es := (ctx.info t).elementSize
    let b := Mem.readBuffer (mm.data c) addr
    (List.range (b.size / es % 2 ^ 16)).map fun l =>
      if b.d = 0 then ⟨.chunk c, addr + sizeofBuffer + es * l, t, es⟩
      else ⟨.block b.d, es * l, t, es⟩
  else [⟨.chunk c, addr, t, a.size k⟩]

/-- The columns in the order in which `chunk::patch` takes them. -/
def patchOrder (a : Archetype) : List Nat :=
  columns 0 a.firstBuffer ++ columns a.firstManaged a.firstTag
    ++ columns a.firstBuffer a.firstManaged

def elements (ctx : Context) (mm : Memory) (a : Archetype) (ct : AllocType) (c : ChunkId)
    (i : Nat) : List Element :=
  (patchOrder a).flatMap (columnElements ctx mm a ct c i)

variable {a : Archetype} {ct : AllocType} {c : ChunkId} {i k : Nat}

/-- No element of `L` meets the headers of the slot's buffers. -/
def HeadersOff (L : List Element) (a : Archetype) (ct : AllocType) (c : ChunkId) (i : Nat) : Prop :=
  ∀ k, a.firstBuffer ≤ k → k < a.firstManaged → ∀ el ∈ L, ∀ x, a.address ct k i ≤ x →
    x < a.address ct k i + sizeofBuffer → ¬ el.Covers (.chunk c) x

theorem AgreeOff.readBuffer (h : AgreeOff L mm mm') (hoff : HeadersOff L a ct c i)
    (hlo : a.firstBuffer ≤ k) (hhi : k < a.firstManaged) :
    Mem.readBuffer (mm'.data c) (a.address ct k i) =
      Mem.readBuffer (mm.data c) (a.address ct k i) := by
  have hsame : ∀ j < sizeofBuffer, mm'.data c (a.address ct k i + j) =
      mm.data c (a.address ct k i + j) := fun j hj =>
    h.bytes (.chunk c) _ fun el hel =>
      hoff k hlo hhi el hel _ (Nat.le_add_right ..) (Nat.add_lt_add_left hj _)
  simp only [Mem.readBuffer, BufferHeader.mk.injEq]
  unfold sizeofBuffer at hsame
  refine ⟨Mem.readWord_congr fun j hj => hsame j (by omega), ?_, ?_⟩
  · apply Mem.readWord_congr
    intro j hj
    simpa only [Nat.add_assoc] using hsame (8 + j) (by omega)
  · apply Mem.readWord_congr
    intro j hj
    simpa only [Nat.add_assoc] using hsame (10 + j) (by omega)

theorem AgreeOff.columnElements (h : AgreeOff L mm mm') (hoff : HeadersOff L a ct c i) (k : Nat) :
    columnElements ctx mm' a ct c i k = columnElements ctx mm a ct c i k := by
  by_cases hbuf : a.firstBuffer ≤ k ∧ k < a.firstManaged
  · simp only [Memory.columnElements, if_pos hbuf, h.readBuffer hoff hbuf.1 hbuf.2]
  · simp only [Memory.columnElements, if_neg hbuf]

/-- Elements of one place, one after the other. -/
theorem setBytes_foldl (h : mm.HasBytes pl) (t : TypeIndex) (n : Nat) (addr : Nat → Nat)
    (ls : List Nat) :
    mm.setBytes pl (ls.foldl (fun m l => patchElement ctx t n p m (addr l)) (mm.bytesAt pl)) =
      (ls.map fun l => (⟨pl, addr l, t, n⟩ : Element)).foldl (patchAt ctx p) mm := by
  induction ls generalizing mm with
  | nil => exact setBytes_bytesAt mm pl
  | cons l ls ih =>
      rw [List.map_cons, List.foldl_cons, List.foldl_cons, ← ih, patchAt, bytesAt_setBytes h,
        setBytes_setBytes]
      cases pl with
      | chunk c => trivial
      | block d =>
          obtain ⟨b, hb⟩ := Option.ne_none_iff_exists'.mp h
          simp [HasBytes, patchAt, setBytes, hb]

theorem setBlock_foldl {d : Nat} {b : Block} (hb : mm.heap d = some b) (t : TypeIndex) (es : Nat)
    (ls : List Nat) : { mm with heap := Function.update mm.heap d (some { b with
      bytes := ls.foldl (fun m l => patchElement ctx t es p m (0 + es * l)) b.bytes }) } =
      (ls.map fun l => (⟨.block d, es * l, t, es⟩ : Element)).foldl (patchAt ctx p) mm := by
  have hall : mm.setBytes (.block d) (ls.foldl (fun m l => patchElement ctx t es p m (0 + es * l))
      (mm.bytesAt (.block d))) = _ := setBytes_foldl (by simp [HasBytes, hb]) t es (0 + es * ·) ls
  simpa only [setBytes, bytesAt, hb, Option.map_some, Option.getD_some, Nat.zero_add] using hall

theorem patchBufferAt_eq (hlo : a.firstBuffer ≤ k) (hhi : k < a.firstManaged)
    (hs : patchBufferAt ctx (a.types.getD k 0) c p mm (a.address ct k i) = some mm') :
    mm' = (columnElements ctx mm a ct c i k).foldl (patchAt ctx p) mm := by
  simp only [patchBufferAt] at hs
  simp only [Memory.columnElements, if_pos (And.intro hlo hhi)]
  split_ifs at hs with hes hd
  · obtain rfl := Option.some.inj hs
    simp only [hd, if_true]
    have hbytes : mm.HasBytes (.chunk c) := trivial
    exact setBytes_foldl hbytes _ _ _ _
  · cases hb : mm.heap (Mem.readBuffer (mm.data c) (a.address ct k i)).d with
    | none => simp [hb] at hs
    | some b =>
        simp only [hb, Option.some.injEq] at hs
        simp only [hd, if_false]
        rw [← hs]
        exact setBlock_foldl hb _ _ _

theorem columnElements_plain (h : k < a.firstBuffer ∨ a.firstManaged ≤ k) :
    columnElements ctx mm a ct c i k =
      [⟨.chunk c, a.address ct k i, a.types.getD k 0, a.size k⟩] := by
  simp only [Memory.columnElements]
  rw [if_neg (by omega)]

/-! ## Slices -/

variable {s : ChunkSlice} {M : List Element}

/-- The elements of one column in a slice. -/
def sliceColumn (ctx : Context) (mm : Memory) (a : Archetype) (ct : AllocType) (s : ChunkSlice)
    (k : Nat) : List Element :=
  (List.range s.count).flatMap fun j => columnElements ctx mm a ct s.c (s.start + j) k

/-- Those of a slice, in the order in which `chunk::patch` takes them. -/
def sliceElements (ctx : Context) (mm : Memory) (a : Archetype) (ct : AllocType)
    (s : ChunkSlice) : List Element :=
  (patchOrder a).flatMap (sliceColumn ctx mm a ct s)

theorem sliceElements_one :
    sliceElements ctx mm a ct { c := c, start := i, count := 1 } = elements ctx mm a ct c i := by
  have hcolumn : ∀ k, sliceColumn ctx mm a ct { c := c, start := i, count := 1 } k =
      columnElements ctx mm a ct c i k := fun k => List.append_nil _
  rw [sliceElements, elements, funext hcolumn]

/-- A plain column. -/
theorem patchColumn_eq (h : k < a.firstBuffer ∨ a.firstManaged ≤ k) :
    patchColumn ctx a ct s (fun _ => p) mm' k =
      (sliceColumn ctx mm a ct s k).foldl (patchAt ctx p) mm' := by
  have hbytes : mm'.HasBytes (.chunk s.c) := trivial
  simp only [sliceColumn, columnElements_plain h]
  rw [← List.map_eq_flatMap]
  exact setBytes_foldl hbytes _ _ (fun j => a.address ct k (s.start + j)) _

/-- Patching elements of `M` keeps what the elements of a larger list do not cover. -/
theorem AgreeOff.patchAll (h : AgreeOff L mm mm') (hM : Patchable ctx custom mm M)
    (hML : ∀ el ∈ M, el ∈ L) {els : List Element} (hels : ∀ el ∈ els, el ∈ M) :
    AgreeOff L mm (els.foldl (patchAt ctx p) mm') := by
  induction els generalizing mm' with
  | nil => exact h
  | cons el els ih =>
      have hel := hels el List.mem_cons_self
      refine ih ?_ fun el' hel' => hels el' (List.mem_cons_of_mem el hel')
      exact agreeOff_patchAt (hML el hel) (hM.lawful el hel).inside
        (h.hasBytes.mpr (hM.hasBytes el hel)) h

/-- A loop whose steps work on their elements. -/
theorem AgreeOff.foldlM {ι : Type*} {step : Memory → ι → Option Memory} {els : ι → List Element}
    {xs : List ι} (hM : Patchable ctx custom mm M) (hML : ∀ el ∈ M, el ∈ L)
    (hstep : ∀ x ∈ xs, ∀ mm₁ mm₂, AgreeOff L mm mm₁ → step mm₁ x = some mm₂ →
      mm₂ = (els x).foldl (patchAt ctx p) mm₁)
    (hsub : ∀ el ∈ xs.flatMap els, el ∈ M) (h : AgreeOff L mm mm')
    (hs : xs.foldlM step mm' = some mm'') :
    mm'' = (xs.flatMap els).foldl (patchAt ctx p) mm' := by
  induction xs generalizing mm' with
  | nil => exact (Option.some.inj hs).symm
  | cons x xs ih =>
      simp only [List.foldlM_cons, Option.bind_eq_bind, Option.bind_eq_some_iff] at hs
      obtain ⟨mm₁, hone, hs⟩ := hs
      have heq := hstep x List.mem_cons_self mm' mm₁ h hone
      rw [List.flatMap_cons] at hsub ⊢
      rw [List.foldl_append, ← heq]
      refine ih (fun x' hx' => hstep x' (List.mem_cons_of_mem x hx'))
        (fun el hel => hsub el (List.mem_append_right _ hel)) ?_ hs
      rw [heq]
      exact h.patchAll hM hML fun el hel => hsub el (List.mem_append_left _ hel)

/-- The plain columns. -/
theorem patchColumns_eq {ks : List Nat} (h : ∀ k ∈ ks, k < a.firstBuffer ∨ a.firstManaged ≤ k) :
    ks.foldl (patchColumn ctx a ct s fun _ => p) mm' =
      (ks.flatMap (sliceColumn ctx mm a ct s)).foldl (patchAt ctx p) mm' := by
  induction ks generalizing mm' with
  | nil => rfl
  | cons k ks ih =>
      rw [List.foldl_cons, List.flatMap_cons, List.foldl_append,
        patchColumn_eq (h k List.mem_cons_self)]
      exact ih fun k' hk' => h k' (List.mem_cons_of_mem k hk')

/-- `chunk::patch` is a loop over the elements of the slice. -/
theorem patch_slice (hM : Patchable ctx custom mm M) (hML : ∀ el ∈ M, el ∈ L)
    (hoff : ∀ j < s.count, HeadersOff L a ct s.c (s.start + j))
    (hsub : ∀ el ∈ sliceElements ctx mm a ct s, el ∈ M) (h : AgreeOff L mm mm')
    (hs : mm'.patch ctx a ct s (fun _ => p) = some mm'') :
    mm'' = (sliceElements ctx mm a ct s).foldl (patchAt ctx p) mm' := by
  have hplain : ∀ k ∈ columns 0 a.firstBuffer ++ columns a.firstManaged a.firstTag,
      k < a.firstBuffer ∨ a.firstManaged ≤ k := by
    intro k hk
    rcases List.mem_append.mp hk with hk | hk
    · exact Or.inl (mem_columns.mp hk).2
    · exact Or.inr (mem_columns.mp hk).1
  have hsplit : sliceElements ctx mm a ct s =
      (columns 0 a.firstBuffer ++ columns a.firstManaged a.firstTag).flatMap
        (sliceColumn ctx mm a ct s) ++
      (columns a.firstBuffer a.firstManaged).flatMap (sliceColumn ctx mm a ct s) :=
    List.flatMap_append
  rw [hsplit] at hsub ⊢
  rw [patch, ← List.foldl_append, patchColumns_eq hplain] at hs
  rw [List.foldl_append]
  refine AgreeOff.foldlM hM hML (fun k hk mm₁ mm₂ h₁ hone => ?_)
    (fun el hel => hsub el (List.mem_append_right _ hel))
    (h.patchAll hM hML fun el hel => hsub el (List.mem_append_left _ hel)) hs
  obtain ⟨hlo, hhi⟩ := mem_columns.mp hk
  refine AgreeOff.foldlM hM hML (fun j hj mm₃ mm₄ h₃ hbuf => ?_) (fun el hel => ?_) h₁ hone
  · rw [← h₃.columnElements (hoff j (List.mem_range.mp hj))]
    exact patchBufferAt_eq hlo hhi hbuf
  · exact hsub el (List.mem_append_right _ (List.mem_flatMap.mpr ⟨k, hk, hel⟩))

/-- The same for one slot. -/
theorem patch_eq (hL : Patchable ctx custom mm L) (hoff : HeadersOff L a ct c i)
    (hsub : ∀ el ∈ elements ctx mm a ct c i, el ∈ L) (h : AgreeOff L mm mm')
    (hs : mm'.patch ctx a ct { c := c, start := i, count := 1 } (fun _ => p) = some mm'') :
    mm'' = (elements ctx mm a ct c i).foldl (patchAt ctx p) mm' := by
  rw [← sliceElements_one] at hsub ⊢
  refine patch_slice hL (fun _ hel => hel) (fun j hj => ?_) hsub h hs
  obtain rfl : j = 0 := Nat.lt_one_iff.mp hj
  exact hoff

end Memory

end Dots

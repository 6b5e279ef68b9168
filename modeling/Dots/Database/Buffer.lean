import Dots.Database.Chunk
import Dots.Library.Refinement

/-!
# `buffer`

The members of `struct buffer`: a header in a slot of a column, the rest of the slot behind it, and
the heap block the bytes move to when the slot is full. Sizes and capacities have 16 bits. A read
or write outside the bytes there are gives `none`.
-/

namespace Dots

open Library

/-- `struct buffer`, with the bytes of the slot behind it and the block `d` points to. -/
structure Buffer where
  slot : Block
  d : Option Block := none
  size : Nat := 0
  capacity : Nat

namespace Buffer

/-- `new(slot) buffer{ static_cast<uint16_t>(sz - sizeof(buffer)) }`, with what was in the slot. -/
def construct (sz : Nat) (junk : Mem) : Buffer where
  slot := { size := sz - sizeofBuffer, bytes := junk }
  capacity := (sz + 2 ^ 64 - sizeofBuffer) % 2 ^ 16

/-- `data()`, with how many bytes there are. -/
def data (b : Buffer) : Block := b.d.getD b.slot

def setData (b : Buffer) (m : Mem) : Buffer :=
  match b.d with
  | none => { b with slot := { b.slot with bytes := m } }
  | some block => { b with d := some { block with bytes := m } }

/-- `buffer::grow`; `junk` is what is in the new block. A block of no bytes is a block too. -/
def grow (junk : Mem) (hint : Nat) (b : Buffer) : Option Buffer :=
  let newCap := max hint (b.capacity * 2) % 2 ^ 16
  if b.size ≤ b.data.size ∧ b.size ≤ newCap then
    some { b with
      d := some { size := newCap, bytes := junk.copy 0 b.data.bytes 0 b.size }
      capacity := newCap }
  else none

/-- The test at the start of `push`. -/
def makeRoom (junk : Mem) (length : Nat) (b : Buffer) : Option Buffer :=
  if b.size + length ≥ b.capacity then b.grow junk 0 else some b

/-- `buffer::push`. -/
def push (junk : Mem) (x : List UInt8) (b : Buffer) : Option Buffer := do
  let b ← b.makeRoom junk x.length
  if b.size + x.length ≤ b.data.size then
    some { b.setData (b.data.bytes.write b.size x) with size := (b.size + x.length) % 2 ^ 16 }
  else none

/-- `buffer::pop`. -/
def pop (length : Nat) (b : Buffer) : Buffer :=
  { b with size := (b.size + 2 ^ 16 - length) % 2 ^ 16 }

/-- `buffer_t::reserve`. The hint is cut to 16 bits. -/
def reserve (junk : Mem) (newSize sizeofT : Nat) (b : Buffer) : Option Buffer :=
  if newSize * sizeofT > b.capacity then b.grow junk (newSize * sizeofT % 2 ^ 16) else some b

/-- `buffer_t::resize`. -/
def resize (junk : Mem) (newSize sizeofT : Nat) (b : Buffer) : Option Buffer := do
  let b ← b.reserve junk newSize sizeofT
  some { b with size := newSize * sizeofT % 2 ^ 16 }

end Buffer

inductive BufferOp
  | push (x : List UInt8)
  | pop (length : Nat)
  | reserve (newSize sizeofT : Nat)
  | resize (newSize sizeofT : Nat)

namespace Buffer

/-- An operation with what is in the block it may allocate. -/
abbrev Turn := BufferOp × Mem

def turn (b : Buffer) : Turn → Option Buffer
  | (.push x, junk) => b.push junk x
  | (.pop length, _) => some (b.pop length)
  | (.reserve newSize sizeofT, junk) => b.reserve junk newSize sizeofT
  | (.resize newSize sizeofT, junk) => b.resize junk newSize sizeofT

/-! ## The bytes the buffer stands for -/

/-- What the operation does to the bytes. Those a `resize` exposes may be anything. -/
def BytesStep (l : List UInt8) : Turn → List UInt8 → Prop
  | (.push x, _), l' => l' = l ++ x
  | (.pop length, _), l' => l' = l.take (l.length - length)
  | (.reserve _ _, _), l' => l' = l
  | (.resize newSize sizeofT, _), l' => l'.length = newSize * sizeofT ∧
      ∀ k < newSize * sizeofT, k < l.length → l'[k]? = l[k]?

/-- The capacity is what there is, and `data()[0, size)` are the bytes. -/
structure Refines (b : Buffer) (l : List UInt8) : Prop where
  capacity : b.capacity = b.data.size
  size : b.size ≤ b.capacity
  bytes : b.data.bytes.read 0 b.size = l

/-- Lengths have 16 bits, and no more is taken off than there is. -/
def Valid (b : Buffer) : Turn → Prop
  | (.push x, _) => x.length < 2 ^ 16
  | (.pop length, _) => length ≤ b.size
  | (.reserve newSize _, _) => newSize < 2 ^ 16
  | (.resize newSize _, _) => newSize < 2 ^ 16

/-- No need for a block, or doubling the capacity once is possible in 16 bits and enough. -/
def Meets (b : Buffer) : Turn → Prop
  | (.push x, _) => b.size + x.length < b.capacity ∨
      b.capacity < 2 ^ 15 ∧ b.size + x.length ≤ 2 * b.capacity
  | (.pop _, _) => True
  | (.reserve newSize sizeofT, _) => newSize * sizeofT ≤ b.capacity ∨ b.capacity < 2 ^ 15 ∨
      b.size ≤ 2 * b.capacity - 2 ^ 16
  | (.resize newSize sizeofT, _) => newSize * sizeofT ≤ b.capacity ∨
      b.capacity < 2 ^ 15 ∧ newSize * sizeofT < 2 ^ 16

def ValidAlong : List Turn → Buffer → Prop := Along turn Valid

def MeetsAlong : List Turn → Buffer → Prop := Along turn Meets

/-- No access leaves the bytes there are, and the buffer refines the bytes in every state. -/
def BytesAlong : List Turn → Buffer → List UInt8 → Prop := RefinesAlong turn BytesStep Refines

variable {b b' : Buffer} {l l' x : List UInt8} {junk : Mem} {hint n : Nat}

/-- The buffer refines the bytes, and its capacity is a number of 16 bits. -/
structure Tracks (b : Buffer) (l : List UInt8) : Prop extends Refines b l where
  small : b.capacity < 2 ^ 16

theorem Refines.length (h : b.Refines l) : l.length = b.size := by
  rw [← h.bytes, Mem.read, List.length_map, List.length_range]

theorem Refines.getElem? (h : b.Refines l) {i : Nat} (hi : i < b.size) :
    l[i]? = some (b.data.bytes i) := by
  rw [← h.bytes, Mem.read, List.getElem?_map, List.getElem?_range hi, Option.map_some, Nat.zero_add]

theorem data_setData (b : Buffer) (m : Mem) :
    (b.setData m).data = { b.data with bytes := m } := by
  unfold setData
  split <;> simp_all [data]

/-- The bytes move to the new block if that is large enough for them. -/
theorem Tracks.grow (h : b.Tracks l) (junk : Mem) (hint : Nat)
    (hfit : b.size ≤ max hint (b.capacity * 2) % 2 ^ 16) :
    ∃ b', b.grow junk hint = some b' ∧ b'.Tracks l ∧ b'.size = b.size ∧
      b'.capacity = max hint (b.capacity * 2) % 2 ^ 16 := by
  refine ⟨_, if_pos ⟨h.size.trans h.capacity.le, hfit⟩, ⟨⟨rfl, hfit, ?_⟩, ?_⟩, rfl, rfl⟩
  · rw [← h.bytes]
    refine Mem.read_eq fun i hi => ?_
    rw [Nat.zero_add]
    change junk.copy 0 b.data.bytes 0 b.size i = b.data.bytes i
    rw [Mem.copy_of_mem _ _ _ (Nat.zero_le i) (by rwa [Nat.zero_add]), Nat.zero_add, Nat.sub_zero]
  · exact Nat.mod_lt _ (by decide)

theorem capacity_of_grow (hs : b.grow junk hint = some b') :
    b.size ≤ max hint (b.capacity * 2) % 2 ^ 16 ∧ b'.size = b.size ∧
      b'.capacity = max hint (b.capacity * 2) % 2 ^ 16 ∧ b'.data.size = b'.capacity := by
  rw [Buffer.grow] at hs
  split_ifs at hs with hfit
  rw [← Option.some.inj hs]
  exact ⟨hfit.2, rfl, rfl, rfl⟩

theorem size_setData (b : Buffer) (m : Mem) : (b.setData m).size = b.size := by
  unfold setData
  split <;> rfl

theorem capacity_setData (b : Buffer) (m : Mem) : (b.setData m).capacity = b.capacity := by
  unfold setData
  split <;> rfl

/-- There is room for `x` behind the bytes. -/
theorem Tracks.append (h : b.Tracks l) (hfit : b.size + x.length ≤ b.capacity) :
    Tracks { b.setData (b.data.bytes.write b.size x) with size := b.size + x.length } (l ++ x) := by
  have hdata : ({ b.setData (b.data.bytes.write b.size x) with size := b.size + x.length } :
      Buffer).data = { b.data with bytes := b.data.bytes.write b.size x } :=
    data_setData b _
  have hcapacity := capacity_setData b (b.data.bytes.write b.size x)
  refine ⟨⟨?_, ?_, ?_⟩, ?_⟩
  · rw [hdata]
    exact hcapacity.trans h.capacity
  · exact hfit.trans hcapacity.ge
  · rw [hdata]
    refine List.ext_getElem? fun i => ?_
    change (Mem.read _ 0 (b.size + x.length))[i]? = _
    by_cases hi : i < b.size + x.length
    · rw [Mem.read, List.getElem?_map, List.getElem?_range hi, Option.map_some, Nat.zero_add]
      by_cases hold : i < b.size
      · rw [List.getElem?_append_left (by rwa [h.length]), h.getElem? hold]
        exact congrArg some (if_neg (by omega))
      · rw [List.getElem?_append_right (by rw [h.length]; omega), h.length,
          List.getElem?_eq_getElem (by omega), Option.some.injEq]
        refine (if_pos ⟨by omega, hi⟩).trans ?_
        rw [List.getD_eq_getElem?_getD, List.getElem?_eq_getElem (by omega), Option.getD_some]
    · have hlength := h.length
      rw [List.getElem?_eq_none, List.getElem?_eq_none]
      · rw [List.length_append]
        omega
      · rw [Mem.read, List.length_map, List.length_range]
        omega
  · exact hcapacity.trans_lt h.small

theorem Tracks.push (h : b.Tracks l)
    (hmeets : b.size + x.length < b.capacity ∨
      b.capacity < 2 ^ 15 ∧ b.size + x.length ≤ 2 * b.capacity) :
    ∃ b', b.push junk x = some b' ∧ b'.Tracks (l ++ x) := by
  obtain ⟨b₁, hroom, hb₁, hsize, hfit⟩ : ∃ b₁, b.makeRoom junk x.length = some b₁ ∧ b₁.Tracks l ∧
      b₁.size = b.size ∧ b₁.size + x.length ≤ b₁.capacity := by
    have hle := h.size
    rw [makeRoom]
    by_cases hfull : b.size + x.length ≥ b.capacity
    · obtain ⟨b₁, hgrow, hb₁, hsize, hcap⟩ := h.grow junk 0 (by omega)
      exact ⟨b₁, by rw [if_pos hfull, hgrow], hb₁, hsize, by omega⟩
    · exact ⟨b, if_neg hfull, h, rfl, by omega⟩
  have hsmall := hb₁.small
  have hmod : (b₁.size + x.length) % 2 ^ 16 = b₁.size + x.length := Nat.mod_eq_of_lt (by omega)
  refine ⟨_, ?_, hb₁.append hfit⟩
  rw [Buffer.push, hroom, Option.bind_eq_bind, Option.bind_some,
    if_pos (hfit.trans hb₁.capacity.le), hmod]

-- stated of the fields, as the kernel would compare the sizes of the two buffers first
theorem capacity_pop (b : Buffer) (n : Nat) : (b.pop n).capacity = b.capacity := by
  obtain ⟨slot, d, size, capacity⟩ := b
  change capacity = capacity
  rfl

theorem data_pop (b : Buffer) (n : Nat) : (b.pop n).data = b.data := by
  obtain ⟨slot, d, size, capacity⟩ := b
  change d.getD slot = d.getD slot
  rfl

theorem Tracks.size_pop (h : b.Tracks l) (hn : n ≤ b.size) : (b.pop n).size = b.size - n := by
  have hle := h.size
  have hsmall := h.small
  change (b.size + 2 ^ 16 - n) % 2 ^ 16 = _
  omega

theorem Tracks.pop (h : b.Tracks l) (hn : n ≤ b.size) :
    (b.pop n).Tracks (l.take (l.length - n)) := by
  have hle := h.size
  have hsize := h.size_pop hn
  refine ⟨⟨?_, ?_, ?_⟩, ?_⟩
  · rw [capacity_pop, data_pop]
    exact h.capacity
  · rw [hsize, capacity_pop]
    exact (Nat.sub_le ..).trans hle
  · rw [hsize, h.length, ← h.bytes, data_pop, Mem.read, Mem.read, ← List.map_take,
      List.take_range, min_eq_left (Nat.sub_le ..)]
  · rw [capacity_pop]
    exact h.small

theorem Tracks.reserve {sizeofT : Nat} (h : b.Tracks l)
    (hmeets : n * sizeofT ≤ b.capacity ∨ b.capacity < 2 ^ 15 ∨ b.size ≤ 2 * b.capacity - 2 ^ 16) :
    ∃ b', b.reserve junk n sizeofT = some b' ∧ b'.Tracks l := by
  have hle := h.size
  have hsmall := h.small
  have hcut := Nat.mod_lt (n * sizeofT) (by decide : 0 < 2 ^ 16)
  rw [Buffer.reserve]
  by_cases hmore : n * sizeofT > b.capacity
  · obtain ⟨b', hgrow, hb', -⟩ :=
      h.grow junk (n * sizeofT % 2 ^ 16) (by omega)
    exact ⟨b', by rw [if_pos hmore, hgrow], hb'⟩
  · exact ⟨b, if_neg hmore, h⟩

/-- What was there and still is keeps its value. -/
theorem Tracks.resized (h : b.Tracks l) (hn : n ≤ b.capacity) : ∃ l',
    Tracks { b with size := n } l' ∧ l'.length = n ∧ ∀ k < n, k < l.length → l'[k]? = l[k]? := by
  refine ⟨b.data.bytes.read 0 n, ⟨⟨h.capacity, hn, rfl⟩, h.small⟩, ?_, fun k hk hlt => ?_⟩
  · rw [Mem.read, List.length_map, List.length_range]
  · rw [h.getElem? (h.length ▸ hlt), Mem.read, List.getElem?_map, List.getElem?_range hk,
      Option.map_some, Nat.zero_add]

theorem Tracks.resize {sizeofT : Nat} (h : b.Tracks l)
    (hmeets : n * sizeofT ≤ b.capacity ∨ b.capacity < 2 ^ 15 ∧ n * sizeofT < 2 ^ 16) :
    ∃ b' l', b.resize junk n sizeofT = some b' ∧ b'.Tracks l' ∧ l'.length = n * sizeofT ∧
      ∀ k < n * sizeofT, k < l.length → l'[k]? = l[k]? := by
  have hle := h.size
  have hsmall := h.small
  obtain ⟨b₁, hreserve, hb₁, hroom⟩ : ∃ b₁, b.reserve junk n sizeofT = some b₁ ∧ b₁.Tracks l ∧
      n * sizeofT ≤ b₁.capacity := by
    rw [Buffer.reserve]
    by_cases hmore : n * sizeofT > b.capacity
    · obtain ⟨b₁, hgrow, hb₁, -, hcap⟩ :=
        h.grow junk (n * sizeofT % 2 ^ 16) (by omega)
      exact ⟨b₁, by rw [if_pos hmore, hgrow], hb₁, by omega⟩
    · exact ⟨b, if_neg hmore, h, not_lt.mp hmore⟩
  have hsmall₁ := hb₁.small
  have hmod : n * sizeofT % 2 ^ 16 = n * sizeofT := Nat.mod_eq_of_lt (by omega)
  obtain ⟨l', hl', hlength, hsame⟩ := hb₁.resized hroom
  refine ⟨_, l', ?_, hl', hlength, hsame⟩
  rw [Buffer.resize, hreserve, Option.bind_eq_bind, Option.bind_some, hmod]

/-- A push that stays within the bytes there are has met its condition. -/
theorem Tracks.meets_of_push (h : b.Tracks l) (hs : b.push junk x = some b') :
    b.size + x.length < b.capacity ∨
      b.capacity < 2 ^ 15 ∧ b.size + x.length ≤ 2 * b.capacity := by
  have hsmall := h.small
  by_cases hinline : b.size + x.length < b.capacity
  · exact Or.inl hinline
  · obtain ⟨b₁, hroom, hs⟩ := Option.bind_eq_some_iff.mp hs
    rw [makeRoom, if_pos (not_lt.mp hinline)] at hroom
    obtain ⟨-, hsize, hcap, hblock⟩ := capacity_of_grow hroom
    split_ifs at hs with hfit
    omega

/-! ## Steps and runs -/

/-- A step that meets its condition does what it does to the bytes. -/
theorem Tracks.keeps {o : Turn} (h : b.Tracks l) (hvalid : b.Valid o) (hmeets : b.Meets o) :
    ∃ b' l', b.turn o = some b' ∧ BytesStep l o l' ∧ b'.Tracks l' := by
  obtain ⟨op, junk⟩ := o
  cases op with
  | push x =>
      obtain ⟨b', hrun, hb'⟩ := h.push hmeets
      exact ⟨b', _, hrun, rfl, hb'⟩
  | pop n => exact ⟨_, _, rfl, rfl, h.pop hvalid⟩
  | reserve n sizeofT =>
      obtain ⟨b', hrun, hb'⟩ := h.reserve hmeets
      exact ⟨b', l, hrun, rfl, hb'⟩
  | resize n sizeofT =>
      obtain ⟨b', l', hrun, hb', hlength, hsame⟩ := h.resize hmeets
      exact ⟨b', l', hrun, ⟨hlength, hsame⟩, hb'⟩

/-- A block that is too small for what is copied to it, or a size that is not the number of
bytes. -/
theorem Tracks.breaks {o : Turn} (h : b.Tracks l) (hmeets : ¬ b.Meets o)
    (hs : b.turn o = some b') (hstep : BytesStep l o l') : ¬ b'.Refines l' := by
  intro hrefines
  have hle := h.size
  have hsmall := h.small
  obtain ⟨op, junk⟩ := o
  cases op with
  | push x =>
      exact absurd (h.meets_of_push hs) hmeets
  | pop n => exact absurd trivial hmeets
  | reserve n sizeofT =>
      simp only [Meets, not_or] at hmeets
      have hcut := Nat.mod_lt (n * sizeofT) (by decide : 0 < 2 ^ 16)
      change b.reserve junk n sizeofT = some b' at hs
      rw [Buffer.reserve, if_pos (not_le.mp hmeets.1)] at hs
      have hfit := (capacity_of_grow hs).1
      omega
  | resize n sizeofT =>
      simp only [Meets, not_or, not_and] at hmeets
      have hcut := Nat.mod_lt (n * sizeofT) (by decide : 0 < 2 ^ 16)
      obtain ⟨b₁, hreserve, hs⟩ := Option.bind_eq_some_iff.mp hs
      rw [Buffer.reserve, if_pos (not_le.mp hmeets.1)] at hreserve
      obtain ⟨hfit, hsize, hcap, -⟩ := capacity_of_grow hreserve
      have hlength := hrefines.length
      have hroom := hrefines.size
      rw [← Option.some.inj hs] at hlength hroom
      have hbytes : l'.length = n * sizeofT := hstep.1
      dsimp only at hlength hroom
      omega

theorem decides : Decides turn BytesStep Refines Valid Meets Tracks where
  refines h := h.toRefines
  unique h h' := h.bytes.symm.trans h'.bytes
  keeps h hvalid hmeets := h.keeps hvalid hmeets
  breaks h _ hmeets hs hstep := h.breaks hmeets hs hstep

theorem tracks_construct {sz : Nat} (hheader : sizeofBuffer ≤ sz) (hsz : sz < 2 ^ 16)
    (junk : Mem) : (construct sz junk).Tracks [] := by
  have hbuf : sizeofBuffer = 16 := rfl
  have hcap : (construct sz junk).capacity = sz - sizeofBuffer := by
    change (sz + 2 ^ 64 - sizeofBuffer) % 2 ^ 16 = _
    omega
  refine ⟨⟨hcap, Nat.zero_le _, rfl⟩, ?_⟩
  omega

/-- A header that does not fit the slot has a capacity without any bytes. -/
theorem not_refines_construct {sz : Nat} (hpos : 0 < sz) (hheader : sz < sizeofBuffer)
    (junk : Mem) (l : List UInt8) : ¬ (construct sz junk).Refines l := by
  intro h
  have hbuf : sizeofBuffer = 16 := rfl
  have hcap : (sz + 2 ^ 64 - sizeofBuffer) % 2 ^ 16 = sz - sizeofBuffer := h.capacity
  omega

/-- Any run on a buffer in a column of `sz` bytes: it refines the bytes and no access leaves them
just when the header fits the slot, and every block that is needed is got by doubling once. -/
theorem bytesAlong_iff {sz : Nat} (hpos : 0 < sz) (hsz : sz < 2 ^ 16) (junk : Mem)
    {run : List Turn} (hvalid : ValidAlong run (construct sz junk)) :
    BytesAlong run (construct sz junk) [] ↔
      sizeofBuffer ≤ sz ∧ MeetsAlong run (construct sz junk) := by
  rcases Nat.lt_or_ge sz sizeofBuffer with hheader | hheader
  · constructor
    · exact fun hrun => absurd hrun.refines (not_refines_construct hpos hheader junk [])
    · exact fun h => absurd h.1 (not_le.mpr hheader)
  · have hiff := decides.refinesAlong_iff (tracks_construct hheader hsz junk) hvalid
    exact hiff.trans ⟨fun h => ⟨hheader, h⟩, fun h => h.2⟩

/-- The header and eight bytes. The second handle fills the slot, and both move to a block. -/
theorem bytesAlong_twoHandles : BytesAlong
    [(.push [1, 0, 0, 0], fun _ => 0), (.push [2, 0, 0, 0], fun _ => 0)]
    (construct 24 fun _ => 0) [] := by
  refine (bytesAlong_iff (by decide) (by decide) _ ?_).mpr ⟨by decide, ?_⟩
  · have hshort : 4 < 2 ^ 16 := by decide
    exact ⟨hshort, fun _ _ => ⟨hshort, fun _ _ => trivial⟩⟩
  · have hinline : 0 + 4 < 8 := by decide
    refine ⟨Or.inl hinline, fun b hb => ?_⟩
    obtain rfl := Option.some.inj hb
    have hdouble : 8 < 2 ^ 15 ∧ 4 + 4 ≤ 2 * 8 := by decide
    exact ⟨Or.inr hdouble, fun _ _ => trivial⟩

/-- A push of 20 bytes to eight: the block is 16 bytes long. -/
theorem not_bytesAlong_longPush :
    ValidAlong [(.push (List.replicate 20 7), fun _ => 0)] (construct 24 fun _ => 0) ∧
      ¬ BytesAlong [(.push (List.replicate 20 7), fun _ => 0)] (construct 24 fun _ => 0) [] := by
  have hshort : (List.replicate 20 (7 : UInt8)).length < 2 ^ 16 := by decide
  refine ⟨⟨hshort, fun _ _ => trivial⟩, fun hrun => ?_⟩
  obtain ⟨-, b, l, hs, -⟩ := hrun
  exact Option.some_ne_none b hs.symm

end Buffer

end Dots

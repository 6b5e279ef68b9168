import Dots.Library.Bytes
import Mathlib.Data.List.Sort

/-!
# `diff_array`

The loop compares what remains of two arrays, byte by byte, and gathers the elements it stops at
in ranges that go to a store. It takes the element before a difference that begins with the
first byte, and it counts what remains as if the index it stopped at counted from where it
started.
-/

namespace Dots

open Library

/-- `local_span<char>`. -/
structure LocalSpan where
  offset : Nat
  count : Nat
deriving DecidableEq, Repr

def LocalSpan.resolve (s : LocalSpan) (store : List UInt8) : List UInt8 :=
  (store.drop s.offset).take s.count

/-- `stack_buffer`, with the bytes that its vector has reserved. -/
structure StackBuffer where
  buf : List UInt8
  capacity : Nat
  length_le : buf.length ≤ capacity

/-- `stack_buffer::write<char>` takes the address to copy to before it resizes. A buffer that
has to grow moves, and the copy goes to memory that was given back. -/
def StackBuffer.write (b : StackBuffer) (value : List UInt8) : Option (LocalSpan × StackBuffer) :=
  if h : b.buf.length + value.length ≤ b.capacity then
    some (⟨b.buf.length, value.length⟩,
      ⟨b.buf ++ value, b.capacity, List.length_append.trans_le h⟩)
  else none

/-- What `diff_array` is called with: two arrays of `count` elements, which as objects have
less than `2 ^ 63` bytes. -/
structure DiffArrays where
  baseData : Mem
  data : Mem
  count : Nat
  stride : Nat
  stride_pos : 0 < stride
  size_lt : stride * count < 2 ^ 63

/-- The elements `start` to `start + count`. -/
structure DiffRange where
  start : Nat
  count : Nat
deriving DecidableEq, Repr

def DiffRange.Has (r : DiffRange) (e : Nat) : Prop := r.start ≤ e ∧ e < r.start + r.count

/-- The locals of `diff_array`; each span stands with the range it was written from. -/
structure DiffState where
  range : DiffRange := ⟨0, 0⟩
  result : List (LocalSpan × DiffRange) := []
  buf : StackBuffer

namespace DiffArrays

variable (d : DiffArrays)

/-- `std::mismatch` from byte `start` to the end; a start behind the end reads on. -/
def mismatch (start : Nat) : Option Nat :=
  if start ≤ d.stride * d.count then
    some (start + (List.range (d.stride * d.count - start)).findIdx fun k =>
      d.data (start + k) != d.baseData (start + k))
  else none

/-- `result.push_back(buf.write(data + stride * range.start, stride * range.count))`. -/
def push (s : DiffState) : Option DiffState :=
  let start := d.stride * s.range.start % 2 ^ 64
  let size := d.stride * s.range.count % 2 ^ 64
  if start + size ≤ d.stride * d.count then do
    let (span, buf) ← s.buf.write (d.data.read start size)
    some { s with result := s.result ++ [(span, s.range)], buf := buf }
  else none

/-- What the loop does with an index. The ends of a range are `uint32_t`. -/
def record (s : DiffState) (index : Nat) : Option DiffState :=
  if index = (s.range.start + s.range.count) % 2 ^ 32 then
    some { s with range := ⟨s.range.start, (s.range.count + 1) % 2 ^ 32⟩ }
  else do
    let s ← d.push s
    some { s with range := ⟨index % 2 ^ 32, 1⟩ }

/-- Subtraction of `size_t`. -/
def sizeSub (x y : Nat) : Nat := (x + 2 ^ 64 - y) % 2 ^ 64

/-- The loop of `diff_array`. -/
def loop : Nat → Nat → DiffState → Option DiffState
  | 0, _, _ => none
  | fuel + 1, remainToDiff, s =>
      if remainToDiff ≠ 0 then do
        let start := d.stride * sizeSub d.count remainToDiff % 2 ^ 64
        let offset ← d.mismatch start
        if offset = 0 then some s
        else
          let index := (offset - 1) / d.stride
          let s ← d.record s index
          loop fuel (sizeSub (sizeSub remainToDiff index) 1) s
      else some s

/-- What is done with the range that is left. -/
def finish (s : DiffState) : Option DiffState :=
  if s.range.count ≠ 0 then d.push s else some s

/-- `diff_array`. -/
def diffArray (buf : StackBuffer) : Option (List (LocalSpan × DiffRange) × StackBuffer) := do
  let s ← d.loop (d.count + 1) d.count { buf := buf }
  let s ← d.finish s
  some (s.result, s.buf)

/-! ## What is asked of it -/

/-- Element `e` has not the bytes that it has in the base. -/
def Differs (e : Nat) : Prop :=
  e < d.count ∧ ∃ k < d.stride, d.data (d.stride * e + k) ≠ d.baseData (d.stride * e + k)

instance (e : Nat) : Decidable (d.Differs e) := inferInstanceAs (Decidable (_ ∧ _))

/-- The elements that differ, in order. -/
def differing : List Nat := (List.range d.count).filter fun e => d.Differs e

/-- The arrays have the same bytes. -/
def Equal : Prop := ∀ i < d.stride * d.count, d.data i = d.baseData i

/-- The store is kept, equal arrays give no span, the spans resolve to the elements of their
ranges, and these have every element that differs. -/
structure Covers (buf : StackBuffer) (result : List (LocalSpan × DiffRange))
    (buf' : StackBuffer) : Prop where
  kept : buf.buf <+: buf'.buf
  equal : d.Equal → result = []
  inside : ∀ p ∈ result, p.2.start + p.2.count ≤ d.count
  resolves : ∀ p ∈ result,
    p.1.resolve buf'.buf = d.data.read (d.stride * p.2.start) (d.stride * p.2.count)
  covered : ∀ e, d.Differs e → ∃ p ∈ result, p.2.Has e

/-- From `a` on, the loop comes to each of the elements and stops at the end of the array: an
element `e` found from `a` makes it go on from `a + e + 1`. -/
def Lands (n : Nat) : Nat → List Nat → Prop
  | a, [] => a = n
  | a, e :: es => a ≤ e ∧ Lands n (a + e + 1) es

/-! ## The comparison -/

/-- Element `e` differs in its first byte. -/
def FirstDiffers (e : Nat) : Prop := d.data (d.stride * e) ≠ d.baseData (d.stride * e)

variable {d} {a e i start offset fuel : Nat} {is : List Nat} {s s' : DiffState}

theorem Differs.of_byte (h : i < d.stride * d.count) (hdiff : d.data i ≠ d.baseData i) :
    d.Differs (i / d.stride) := by
  have hsplit : d.stride * (i / d.stride) + i % d.stride = i := Nat.div_add_mod i d.stride
  refine ⟨Nat.div_lt_of_lt_mul h, i % d.stride, Nat.mod_lt i d.stride_pos, ?_⟩
  rwa [hsplit]

theorem equal_iff : d.Equal ↔ ∀ e, ¬ d.Differs e := by
  constructor
  · rintro h e ⟨he, k, hk, hdiff⟩
    refine hdiff (h _ ?_)
    calc d.stride * e + k < d.stride * (e + 1) := by rw [Nat.mul_succ]; omega
      _ ≤ d.stride * d.count := Nat.mul_le_mul_left _ he
  · intro h i hi
    by_contra hdiff
    exact h _ (.of_byte hi hdiff)

theorem mem_differing : e ∈ d.differing ↔ d.Differs e := by
  simp only [differing, List.mem_filter, List.mem_range, decide_eq_true_eq]
  exact and_iff_right_of_imp And.left

/-- The first byte from `start` on that differs, or the end. -/
theorem mismatch_spec (h : d.mismatch start = some offset) :
    start ≤ offset ∧ offset ≤ d.stride * d.count ∧
      (∀ i, start ≤ i → i < offset → d.data i = d.baseData i) ∧
      (offset < d.stride * d.count → d.data offset ≠ d.baseData offset) := by
  obtain ⟨hstart, h⟩ := Option.ite_none_right_eq_some.mp h
  obtain rfl := Option.some.inj h
  set differ : Nat → Bool := fun k => d.data (start + k) != d.baseData (start + k) with hdiffer
  set found := (List.range (d.stride * d.count - start)).findIdx differ with hfound
  have hle : found ≤ d.stride * d.count - start := by
    have hlength := List.length_range (n := d.stride * d.count - start)
    exact List.findIdx_le_length.trans_eq hlength
  refine ⟨by omega, by omega, fun i hlo hhi => ?_, fun hlt => ?_⟩
  · have hnot := List.not_of_lt_findIdx (show i - start < found by omega)
    simpa [hdiffer, Nat.add_sub_cancel' hlo] using hnot
  · have hmem : found < (List.range (d.stride * d.count - start)).length := by
      rw [List.length_range]
      omega
    simpa [hdiffer] using List.findIdx_getElem (w := hmem)

/-- The elements from `a` on to `e` do not differ. -/
def SameBetween (d : DiffArrays) (a e : Nat) : Prop := ∀ e', a ≤ e' → e' < e → ¬ d.Differs e'

/-- Where the comparison from element `a` stops: at the end, at the first byte of an element, or
inside one. -/
theorem mismatch_cases (h : d.mismatch (d.stride * a) = some offset) :
    (offset = d.stride * d.count ∧ ∀ e, a ≤ e → ¬ d.Differs e) ∨
      ∃ e, a ≤ e ∧ d.Differs e ∧ d.SameBetween a e ∧
        (d.FirstDiffers e ∧ offset = d.stride * e ∨
          ¬ d.FirstDiffers e ∧ d.stride * e < offset ∧ offset < d.stride * (e + 1)) := by
  obtain ⟨hstart, hend, hsame, hdiff⟩ := mismatch_spec h
  have hnot : ∀ e, a ≤ e → d.stride * (e + 1) ≤ offset → ¬ d.Differs e := by
    rintro e hae hle ⟨-, k, hk, hk'⟩
    refine hk' (hsame _ ?_ ?_)
    · exact (Nat.mul_le_mul_left _ hae).trans (Nat.le_add_right _ _)
    · rw [Nat.mul_succ] at hle
      omega
  rcases hend.eq_or_lt with hend | hlt
  · refine .inl ⟨hend, fun e hae he => hnot e hae ?_ he⟩
    rw [hend]
    exact Nat.mul_le_mul_left _ he.1
  · have hpos := d.stride_pos
    have hdiv : d.stride * (offset / d.stride) ≤ offset := Nat.mul_div_le _ _
    have hnext : offset < d.stride * (offset / d.stride + 1) := Nat.lt_mul_div_succ _ hpos
    refine .inr ⟨offset / d.stride, ?_, .of_byte hlt (hdiff hlt), fun e hae hlt => ?_, ?_⟩
    · exact (Nat.le_div_iff_mul_le hpos).mpr (by rwa [Nat.mul_comm])
    · exact hnot e hae ((Nat.mul_le_mul_left _ hlt).trans hdiv)
    · rcases hdiv.eq_or_lt with heq | hin
      · exact .inl ⟨by rw [FirstDiffers, heq]; exact hdiff hlt, heq.symm⟩
      · refine .inr ⟨fun hfirst => hfirst (hsame _ ?_ hin), hin, hnext⟩
        exact Nat.mul_le_mul_left _ ((Nat.le_div_iff_mul_le hpos).mpr (by rwa [Nat.mul_comm]))

/-- The index that an offset inside an element, or at the first byte of the next one, gives. -/
theorem index_eq (hlo : d.stride * e < offset) (hhi : offset ≤ d.stride * (e + 1)) :
    (offset - 1) / d.stride = e := by
  apply Nat.div_eq_of_lt_le
  · rw [Nat.mul_comm]
    omega
  · rw [Nat.mul_comm]
    omega

/-! ## The indices that the loop comes to -/

/-- What `remainToDiff` is when the loop goes on from `a`. -/
def remain (d : DiffArrays) (a : Nat) : Nat := sizeSub d.count a

theorem count_lt (d : DiffArrays) : d.count < 2 ^ 63 :=
  (Nat.le_mul_of_pos_left _ d.stride_pos).trans_lt d.size_lt

theorem remain_eq_zero (ha : a ≤ 2 * d.count) : d.remain a = 0 ↔ a = d.count := by
  have hcount := d.count_lt
  unfold remain sizeSub
  omega

theorem start_eq (ha : a ≤ 2 * d.count) :
    d.stride * sizeSub d.count (d.remain a) % 2 ^ 64 = d.stride * a := by
  have hcount := d.count_lt
  have hinner : sizeSub d.count (d.remain a) = a := by
    unfold remain sizeSub
    omega
  rw [hinner]
  apply Nat.mod_eq_of_lt
  calc d.stride * a ≤ d.stride * (2 * d.count) := Nat.mul_le_mul_left _ ha
    _ = 2 * (d.stride * d.count) := Nat.mul_left_comm _ _ _
    _ < 2 ^ 64 := by have := d.size_lt; omega

theorem remain_next (ha : a ≤ d.count) (hi : i < d.count) :
    sizeSub (sizeSub (d.remain a) i) 1 = d.remain (a + i + 1) := by
  have hcount := d.count_lt
  unfold remain sizeSub
  omega

/-- A start behind the end is outside of the arrays. -/
theorem le_count_of_mismatch (h : d.mismatch (d.stride * a) = some offset) : a ≤ d.count :=
  Nat.le_of_mul_le_mul_left (Option.ite_none_right_eq_some.mp h).1 d.stride_pos

theorem index_lt (h : d.mismatch (d.stride * a) = some offset) (hzero : offset ≠ 0) :
    (offset - 1) / d.stride < d.count := by
  apply Nat.div_lt_of_lt_mul
  have hle := (mismatch_spec h).2.1
  omega

/-- One turn of the loop, from element `a` on. -/
theorem loop_succ (ha : a ≤ 2 * d.count) (hne : a ≠ d.count) :
    d.loop (fuel + 1) (d.remain a) s = (d.mismatch (d.stride * a)).bind fun offset =>
      if offset = 0 then some s
      else (d.record s ((offset - 1) / d.stride)).bind fun s' =>
        d.loop fuel (d.remain (a + (offset - 1) / d.stride + 1)) s' := by
  rw [loop, if_pos (mt (remain_eq_zero ha).mp hne), start_eq ha]
  simp only [Option.bind_eq_bind]
  cases h : d.mismatch (d.stride * a) with
  | none => rw [Option.bind_none, Option.bind_none]
  | some offset =>
      by_cases hzero : offset = 0
      · simp only [Option.bind_some, if_pos hzero]
      · simp only [Option.bind_some, if_neg hzero]
        rw [remain_next (le_count_of_mismatch h) (index_lt h hzero)]

theorem loop_done (ha : a = d.count) : d.loop (fuel + 1) (d.remain a) s = some s := by
  have hzero : d.remain a = 0 := (remain_eq_zero (by omega)).mpr ha
  rw [hzero, loop, if_neg (not_not_intro rfl)]

/-- The indices that the loop comes to from element `a` on, until it ends inside of the arrays. -/
inductive Visits (d : DiffArrays) : Nat → List Nat → Prop
  | done : Visits d d.count []
  /-- The first byte of all differs. -/
  | break_ (h : d.Differs 0) (hfirst : d.FirstDiffers 0) : Visits d 0 []
  /-- Nothing differs in what remains. -/
  | rest {a i : Nat} {is : List Nat} (ha : a ≤ i) (hi : i + 1 = d.count)
      (h : ∀ e, a ≤ e → ¬ d.Differs e) (hrest : Visits d (a + i + 1) is) : Visits d a (i :: is)
  /-- The next element differs in its first byte. -/
  | before {a i : Nat} {is : List Nat} (ha : a ≤ i + 1) (h : d.Differs (i + 1))
      (hfirst : d.FirstDiffers (i + 1)) (hrest : Visits d (a + i + 1) is) : Visits d a (i :: is)
  | element {a i : Nat} {is : List Nat} (ha : a ≤ i) (h : d.Differs i)
      (hfirst : ¬ d.FirstDiffers i) (hsame : d.SameBetween a i)
      (hrest : Visits d (a + i + 1) is) : Visits d a (i :: is)

theorem visits_of_loop (ha : a ≤ 2 * d.count) (h : d.loop fuel (d.remain a) s = some s') :
    ∃ is, d.Visits a is ∧ is.foldlM d.record s = some s' := by
  induction fuel generalizing a s with
  | zero => exact absurd h nofun
  | succ fuel ih =>
      by_cases hcount : a = d.count
      · rw [loop_done hcount] at h
        exact ⟨[], hcount ▸ .done, h⟩
      rw [loop_succ ha hcount] at h
      obtain ⟨offset, hoffset, hturn⟩ := Option.bind_eq_some_iff.mp h
      have hle := le_count_of_mismatch hoffset
      have hpos := d.stride_pos
      split at hturn
      · rename_i hzero
        subst hzero
        obtain rfl : a = 0 := by
          have hstart := (mismatch_spec hoffset).1
          exact (Nat.mul_eq_zero.mp (Nat.le_zero.mp hstart)).resolve_left hpos.ne'
        refine ⟨[], ?_, hturn⟩
        rcases mismatch_cases hoffset with ⟨hend, -⟩ | ⟨e, -, he, -, ⟨hfirst, hat⟩ | ⟨-, hlt, -⟩⟩
        · exact absurd (Nat.mul_eq_zero.mp hend.symm) (by omega)
        · obtain rfl := (Nat.mul_eq_zero.mp hat.symm).resolve_left hpos.ne'
          exact .break_ he hfirst
        · exact absurd hlt (Nat.not_lt_zero _)
      · rename_i hzero
        have hindex := index_lt hoffset hzero
        obtain ⟨s₁, hs₁, hrest⟩ := Option.bind_eq_some_iff.mp hturn
        obtain ⟨is, hvisits, hfold⟩ := ih (by omega) hrest
        refine ⟨(offset - 1) / d.stride :: is, ?_, by rw [List.foldlM_cons, hs₁]; exact hfold⟩
        rcases mismatch_cases hoffset with
          ⟨hend, hnone⟩ | ⟨e, hae, he, hsame, ⟨hfirst, hat⟩ | ⟨hfirst, hlo, hhi⟩⟩
        · have hlast : (offset - 1) / d.stride = d.count - 1 := by
            have hmul : d.stride * d.count = d.stride * (d.count - 1 + 1) := by
              rw [Nat.sub_add_cancel (by omega)]
            refine index_eq ?_ (by rw [hend, hmul])
            rw [hend, hmul, Nat.mul_succ]
            omega
          exact .rest (by omega) (by omega) hnone hvisits
        · obtain ⟨i, rfl⟩ : ∃ i, e = i + 1 := by
            refine Nat.exists_eq_succ_of_ne_zero fun h0 => hzero ?_
            rw [hat, h0, Nat.mul_zero]
          have hi : (offset - 1) / d.stride = i :=
            index_eq (by rw [hat, Nat.mul_succ]; omega) hat.le
          rw [hi] at hvisits ⊢
          exact .before hae he hfirst hvisits
        · rw [index_eq hlo hhi.le] at hvisits ⊢
          exact .element hae he hfirst hsame hvisits

namespace Visits

theorem le_count (h : d.Visits a is) : a ≤ d.count := by
  cases h with
  | done => exact le_rfl
  | break_ => exact Nat.zero_le _
  | rest ha hi => omega
  | before ha h => exact ha.trans h.1.le
  | element ha h => exact ha.trans h.1.le

theorem le_succ (h : d.Visits a is) : ∀ i ∈ is, a ≤ i + 1 := by
  induction h with
  | done => exact fun _ => nofun
  | break_ => exact fun _ => nofun
  | rest ha _ _ _ ih =>
      exact List.forall_mem_cons.mpr ⟨by omega, fun j hj => by have := ih j hj; omega⟩
  | before ha _ _ _ ih =>
      exact List.forall_mem_cons.mpr ⟨ha, fun j hj => by have := ih j hj; omega⟩
  | element ha _ _ _ _ ih =>
      exact List.forall_mem_cons.mpr ⟨by omega, fun j hj => by have := ih j hj; omega⟩

/-- The indices do not go back. -/
theorem pairwise (h : d.Visits a is) : is.Pairwise (· ≤ ·) := by
  induction h with
  | done => exact .nil
  | break_ => exact .nil
  | rest _ _ _ hrest ih =>
      exact .cons (fun j hj => by have := hrest.le_succ j hj; omega) ih
  | before _ _ _ hrest ih =>
      exact .cons (fun j hj => by have := hrest.le_succ j hj; omega) ih
  | element _ _ _ _ hrest ih =>
      exact .cons (fun j hj => by have := hrest.le_succ j hj; omega) ih

/-- Where something differs, each index is that of an element found by a later byte than its
first, or stands before one found by its first byte. -/
theorem differs (hsome : ∃ e, d.Differs e) (h : d.Visits a is) : ∀ i ∈ is,
    d.Differs i ∧ ¬ d.FirstDiffers i ∨ d.Differs (i + 1) ∧ d.FirstDiffers (i + 1) := by
  induction h with
  | done => exact fun _ => nofun
  | break_ => exact fun _ => nofun
  | rest ha hi hnone hrest =>
      -- what remains is counted once more, so that nothing was compared before
      obtain ⟨e, he⟩ := hsome
      exact absurd he (hnone e (by have := hrest.le_count; omega))
  | before _ h hfirst _ ih => exact List.forall_mem_cons.mpr ⟨.inr ⟨h, hfirst⟩, ih⟩
  | element _ h hfirst _ _ ih => exact List.forall_mem_cons.mpr ⟨.inl ⟨h, hfirst⟩, ih⟩

/-- Elements found by their first bytes are not all among the indices. -/
theorem not_first (hsome : ∃ e, d.Differs e) (h : d.Visits a is) (hall : ∀ e, d.Differs e → e ∈ is)
    (he : d.Differs e) : ¬ d.FirstDiffers e := by
  -- the index of such an element stands before another one
  induction hn : d.count - e generalizing e with
  | zero => exact absurd he.1 (by omega)
  | succ n ih =>
      rcases h.differs hsome e (hall e he) with ⟨-, hnot⟩ | ⟨he', hfirst'⟩
      · exact hnot
      · exact absurd hfirst' (ih he' (by omega))

theorem lands (hsome : ∃ e, d.Differs e) (hfirst : ∀ e, d.Differs e → ¬ d.FirstDiffers e)
    (h : d.Visits a is) : Lands d.count a is := by
  induction h with
  | done => rfl
  | break_ h hfirst' => exact absurd hfirst' (hfirst 0 h)
  | rest ha hi hnone hrest =>
      obtain ⟨e, he⟩ := hsome
      exact absurd he (hnone e (by have := hrest.le_count; omega))
  | before _ h hfirst' => exact absurd hfirst' (hfirst _ h)
  | element ha _ _ _ _ ih => exact ⟨ha, ih⟩

end Visits

theorem Lands.le {n : Nat} (h : Lands n a is) : ∀ e ∈ is, a ≤ e := by
  induction is generalizing a with
  | nil => exact fun _ => nofun
  | cons e is ih =>
      refine List.forall_mem_cons.mpr ⟨h.1, fun e' he' => ?_⟩
      have hle := ih h.2 e' he'
      omega

theorem Lands.pairwise {n : Nat} (h : Lands n a is) : is.Pairwise (· < ·) := by
  induction is generalizing a with
  | nil => exact .nil
  | cons e is ih =>
      refine .cons (fun e' he' => ?_) (ih h.2)
      have hle := h.2.le e' he'
      omega

/-- Each element doubles what is counted. -/
theorem Lands.pow_le {n : Nat} (h : Lands n a is) : 2 ^ is.length * (a + 1) ≤ n + 1 := by
  induction is generalizing a with
  | nil =>
      obtain rfl : a = n := h
      rw [List.length_nil, Nat.pow_zero, Nat.one_mul]
  | cons e is ih =>
      calc 2 ^ (is.length + 1) * (a + 1) = 2 ^ is.length * (2 * (a + 1)) := by
            rw [Nat.pow_succ, Nat.mul_assoc]
        _ ≤ 2 ^ is.length * (a + e + 1 + 1) := Nat.mul_le_mul_left _ (by have := h.1; omega)
        _ ≤ n + 1 := ih h.2

theorem Lands.length_lt (h : Lands d.count a is) : is.length < 64 := by
  by_contra hle
  have hcount := d.count_lt
  have hpow : 2 ^ 64 ≤ d.count + 1 := calc
    2 ^ 64 ≤ 2 ^ is.length := Nat.pow_le_pow_right (by decide) (not_lt.mp hle)
    _ ≤ 2 ^ is.length * (a + 1) := Nat.le_mul_of_pos_right _ (Nat.succ_pos a)
    _ ≤ d.count + 1 := h.pow_le
  omega

/-- The loop goes from one element that differs to the next. -/
theorem loop_of_lands (h : Lands d.count a is) (hmem : ∀ e, e ∈ is ↔ d.Differs e ∧ a ≤ e)
    (hfirst : ∀ e ∈ is, ¬ d.FirstDiffers e) (hfuel : d.count - a < fuel)
    (hfold : is.foldlM d.record s = some s') :
    d.loop fuel (d.remain a) s = some s' := by
  induction is generalizing a s fuel with
  | nil =>
      obtain ⟨fuel, rfl⟩ := Nat.exists_eq_succ_of_ne_zero (by omega : fuel ≠ 0)
      rw [loop_done h]
      exact hfold
  | cons e is ih =>
      obtain ⟨fuel, rfl⟩ := Nat.exists_eq_succ_of_ne_zero (by omega : fuel ≠ 0)
      obtain ⟨he, hae⟩ := (hmem e).mp List.mem_cons_self
      obtain ⟨s₁, hs₁, hfold⟩ := Option.bind_eq_some_iff.mp hfold
      have hin : d.stride * a ≤ d.stride * d.count := Nat.mul_le_mul_left _ (hae.trans he.1.le)
      obtain ⟨offset, hoffset⟩ : ∃ offset, d.mismatch (d.stride * a) = some offset :=
        ⟨_, if_pos hin⟩
      -- the comparison stops at the head of what is left
      have hindex : offset ≠ 0 ∧ (offset - 1) / d.stride = e := by
        rcases mismatch_cases hoffset with ⟨-, hnone⟩ | ⟨e', hae', he', hsame, hbyte⟩
        · exact absurd he (hnone e hae)
        · have heq : e' = e := by
            rcases List.mem_cons.mp ((hmem e').mpr ⟨he', hae'⟩) with heq | htail
            · exact heq
            · have hlt : e < e' := List.rel_of_pairwise_cons h.pairwise htail
              exact absurd he (hsame e hae hlt)
          subst heq
          rcases hbyte with ⟨hbad, -⟩ | ⟨-, hlo, hhi⟩
          · exact absurd hbad (hfirst e' List.mem_cons_self)
          · exact ⟨by omega, index_eq hlo hhi.le⟩
      rw [loop_succ (by have := he.1; omega) (by have := he.1; omega), hoffset, Option.bind_some,
        if_neg hindex.1, hindex.2, hs₁, Option.bind_some]
      refine ih h.2 (fun e' => ⟨fun he' => ?_, fun he' => ?_⟩)
        (fun e' he' => hfirst e' (List.mem_cons_of_mem _ he')) (by have := he.1; omega) hfold
      · exact ⟨((hmem e').mp (List.mem_cons_of_mem _ he')).1, h.2.le e' he'⟩
      · have hall := (hmem e').mpr ⟨he'.1, by have := he'.2; omega⟩
        exact (List.mem_cons.mp hall).resolve_left (by have := he'.2; omega)

/-! ## The ranges -/

end DiffArrays

namespace DiffState

/-- An element of a range that was written, or of the one that is pending. -/
def Has (s : DiffState) (e : Nat) : Prop := (∃ p ∈ s.result, p.2.Has e) ∨ s.range.Has e

/-- All that is in the ranges are indices, as `uint32_t`; the pending range ends with the last. -/
structure Within (is : List Nat) (s : DiffState) : Prop where
  has : ∀ e, s.Has e → ∃ i ∈ is, e = i % 2 ^ 32
  start_lt : s.range.start < 2 ^ 32
  last : is = [] ∧ s.range = ⟨0, 0⟩ ∨
    ∃ l ∈ is, (s.range.start + s.range.count) % 2 ^ 32 = (l + 1) % 2 ^ 32

end DiffState

namespace DiffArrays

variable {d : DiffArrays} {a e i fuel : Nat} {is : List Nat} {s s' : DiffState}

theorem push_eq_some (h : d.push s = some s') : ∃ span buf, s' =
    { s with result := s.result ++ [(span, s.range)], buf := buf } := by
  obtain ⟨-, h⟩ := Option.ite_none_right_eq_some.mp h
  obtain ⟨⟨span, buf⟩, -, h⟩ := Option.bind_eq_some_iff.mp h
  exact ⟨span, buf, (Option.some.inj h).symm⟩

/-- The pending range goes over to those that are written. -/
theorem has_push (h : d.push s = some s') : (∃ p ∈ s'.result, p.2.Has e) ↔ s.Has e := by
  obtain ⟨span, buf, rfl⟩ := push_eq_some h
  simp only [DiffState.Has, List.mem_append, List.mem_singleton, or_and_right, exists_or,
    exists_eq_left]

/-- An index at which the pending range grows is not one that it has wrapped around to. -/
theorem range_end_lt (hw : s.Within is) (hle : ∀ j ∈ is, j ≤ i)
    (h : i = (s.range.start + s.range.count) % 2 ^ 32) :
    s.range.start + s.range.count < 2 ^ 32 := by
  have hstart := hw.start_lt
  rcases hw.last with ⟨-, hrange⟩ | ⟨l, hl, hlast⟩
  · rw [hrange]
    decide
  · have hli := hle l hl
    by_contra hge
    have hlastHas : s.Has (s.range.start + s.range.count - 1) :=
      .inr ⟨by omega, by omega⟩
    obtain ⟨j, -, hj⟩ := hw.has _ hlastHas
    omega

theorem within_record (hw : s.Within is) (hle : ∀ j ∈ is, j ≤ i) (h : d.record s i = some s') :
    s'.Within (is ++ [i]) := by
  have hindex : ∃ j ∈ is ++ [i], i % 2 ^ 32 = j % 2 ^ 32 := ⟨i, by simp, rfl⟩
  have hold : ∀ e, s.Has e → ∃ j ∈ is ++ [i], e = j % 2 ^ 32 := fun e he => by
    obtain ⟨j, hj, heq⟩ := hw.has e he
    exact ⟨j, List.mem_append_left _ hj, heq⟩
  unfold DiffArrays.record at h
  split at h
  · rename_i heq
    obtain rfl := Option.some.inj h
    refine ⟨fun e he => ?_, hw.start_lt, .inr ⟨i, by simp, ?_⟩⟩
    · rcases he with hwritten | ⟨hlo, hhi⟩
      · exact hold e (.inl hwritten)
      · by_cases hin : e < s.range.start + s.range.count
        · exact hold e (.inr ⟨hlo, hin⟩)
        · -- the element that the range grows by is the index
          have hgrown : (s.range.count + 1) % 2 ^ 32 ≤ s.range.count + 1 := Nat.mod_le _ _
          have hend := range_end_lt hw hle heq
          have hat : e = i := by
            change e < s.range.start + (s.range.count + 1) % 2 ^ 32 at hhi
            omega
          exact ⟨i, by simp, by omega⟩
    · change (s.range.start + (s.range.count + 1) % 2 ^ 32) % 2 ^ 32 = (i + 1) % 2 ^ 32
      omega
  · obtain ⟨s₁, hs₁, h⟩ := Option.bind_eq_some_iff.mp h
    obtain rfl := Option.some.inj h
    refine ⟨fun e he => ?_, Nat.mod_lt _ (by decide), .inr ⟨i, by simp, ?_⟩⟩
    · rcases he with hwritten | ⟨hlo, hhi⟩
      · exact hold e ((has_push hs₁).mp hwritten)
      · obtain rfl : e = i % 2 ^ 32 := Nat.le_antisymm (Nat.lt_succ_iff.mp hhi) hlo
        exact hindex
    · exact Nat.mod_add_mod i (2 ^ 32) 1

theorem within_fold {is' : List Nat} (hw : s.Within is) (hle : (is ++ is').Pairwise (· ≤ ·))
    (h : is'.foldlM d.record s = some s') : s'.Within (is ++ is') := by
  induction is' generalizing is s with
  | nil =>
      obtain rfl := Option.some.inj h
      rwa [List.append_nil]
  | cons i is' ih =>
      obtain ⟨s₁, hs₁, h⟩ := Option.bind_eq_some_iff.mp h
      rw [List.append_cons] at hle ⊢
      have hlast : ∀ j ∈ is, j ≤ i := fun j hj =>
        (List.pairwise_append.mp (List.pairwise_append.mp hle).1).2.2 j hj i List.mem_cons_self
      exact ih (within_record hw hlast hs₁) hle h

theorem remain_zero (d : DiffArrays) : d.remain 0 = d.count := by
  have hcount := d.count_lt
  unfold remain sizeSub
  omega

theorem has_finish (h : d.finish s = some s') (he : ∃ p ∈ s'.result, p.2.Has e) : s.Has e := by
  unfold finish at h
  split at h
  · exact (has_push h).mp he
  · exact Option.some.inj h ▸ .inl he

/-- `diff_array` writes ranges of indices that the loop came to. -/
theorem within_diffArray {buf buf' : StackBuffer} {result : List (LocalSpan × DiffRange)}
    (h : d.diffArray buf = some (result, buf')) :
    ∃ is s s', d.Visits 0 is ∧ is.foldlM d.record { buf := buf } = some s ∧
      d.finish s = some s' ∧ s'.result = result ∧ s'.buf = buf' ∧
      ∀ e, (∃ p ∈ result, p.2.Has e) → ∃ i ∈ is, e = i % 2 ^ 32 := by
  obtain ⟨s, hs, h⟩ := Option.bind_eq_some_iff.mp h
  obtain ⟨s', hs', h⟩ := Option.bind_eq_some_iff.mp h
  obtain ⟨rfl, rfl⟩ := Prod.mk.inj (Option.some.inj h)
  rw [← d.remain_zero] at hs
  obtain ⟨is, hvisits, hfold⟩ := visits_of_loop (Nat.zero_le _) hs
  have hinitial : DiffState.Within [] { buf := buf } := {
    has := fun e he => he.elim (fun ⟨_, hp, _⟩ => nomatch hp) fun hr => absurd hr.2 (by simp)
    start_lt := Nat.two_pow_pos 32
    last := .inl ⟨rfl, rfl⟩ }
  have hwithin : s.Within is := within_fold hinitial hvisits.pairwise hfold
  exact ⟨is, s, s', hvisits, hfold, hs', rfl, rfl, fun e he => hwithin.has e (has_finish hs' he)⟩

/-! ## The store -/

/-- What was written stands behind what the store had before. -/
structure Written (d : DiffArrays) (b : StackBuffer) (s : DiffState) : Prop where
  kept : b.buf <+: s.buf.buf
  inside : ∀ p ∈ s.result, p.2.start + p.2.count ≤ d.count
  stored : ∀ p ∈ s.result, p.1.offset + p.1.count ≤ s.buf.buf.length
  resolves : ∀ p ∈ s.result,
    p.1.resolve s.buf.buf = d.data.read (d.stride * p.2.start) (d.stride * p.2.count)

/-- The ranges have all indices that were recorded, without wrapping around. -/
structure Gathered (d : DiffArrays) (b : StackBuffer) (is : List Nat) (s : DiffState) :
    Prop extends Written d b s where
  has : ∀ i ∈ is, s.Has i
  last : is = [] ∧ s.range = ⟨0, 0⟩ ∨
    ∃ l ∈ is, (∀ i ∈ is, i ≤ l) ∧ s.range.start + s.range.count = l + 1
  pending : s.range.start + s.range.count ≤ d.count
  count_le : s.range.count ≤ is.length
  length : s.buf.buf.length + d.stride * s.range.count = b.buf.length + d.stride * is.length
  capacity : s.buf.capacity = b.capacity

variable {b : StackBuffer}

/-- A range of elements goes to the end of the store, if there is room. -/
theorem push_iff (hin : s.range.start + s.range.count ≤ d.count) : d.push s = some s' ↔
    ∃ buf : StackBuffer, s.buf.buf.length + d.stride * s.range.count ≤ s.buf.capacity ∧
      buf.buf = s.buf.buf ++ d.data.read (d.stride * s.range.start) (d.stride * s.range.count) ∧
      buf.capacity = s.buf.capacity ∧
      s' = { s with
        result := s.result ++ [(⟨s.buf.buf.length, d.stride * s.range.count⟩, s.range)]
        buf := buf } := by
  have hmul : d.stride * s.range.start + d.stride * s.range.count ≤ d.stride * d.count := by
    rw [← Nat.mul_add]
    exact Nat.mul_le_mul_left _ hin
  have hsize := d.size_lt
  have hstart : d.stride * s.range.start % 2 ^ 64 = d.stride * s.range.start :=
    Nat.mod_eq_of_lt (by omega)
  have hcount : d.stride * s.range.count % 2 ^ 64 = d.stride * s.range.count :=
    Nat.mod_eq_of_lt (by omega)
  simp only [push, hstart, hcount, if_pos hmul, StackBuffer.write, Mem.length_read]
  by_cases hroom : s.buf.buf.length + d.stride * s.range.count ≤ s.buf.capacity
  · rw [dif_pos hroom]
    constructor
    · intro h
      refine ⟨_, hroom, ?_, ?_, (Option.some.inj h).symm⟩
      · rfl
      · rfl
    · rintro ⟨⟨buf, capacity, hle⟩, -, hbuf, hcapacity, rfl⟩
      dsimp only at hbuf hcapacity
      subst hbuf hcapacity
      rfl
  · rw [dif_neg hroom]
    exact ⟨nofun, fun ⟨_, h, _⟩ => absurd h hroom⟩

theorem LocalSpan.resolve_append {span : LocalSpan} {store more : List UInt8}
    (h : span.offset + span.count ≤ store.length) :
    span.resolve (store ++ more) = span.resolve store := by
  rw [LocalSpan.resolve, LocalSpan.resolve, List.drop_append_of_le_length (by omega),
    List.take_append_of_le_length (by rw [List.length_drop]; omega)]

theorem Written.push (hw : d.Written b s) (hin : s.range.start + s.range.count ≤ d.count)
    (h : d.push s = some s') : d.Written b s' ∧ s'.range = s.range ∧
      s'.buf.buf.length = s.buf.buf.length + d.stride * s.range.count ∧
      s'.buf.capacity = s.buf.capacity := by
  obtain ⟨buf, -, hbuf, hcapacity, rfl⟩ := (push_iff hin).mp h
  have hlength : buf.buf.length = s.buf.buf.length + d.stride * s.range.count := by
    rw [hbuf, List.length_append, Mem.length_read]
  refine ⟨⟨?_, ?_, ?_, ?_⟩, rfl, hlength, hcapacity⟩
  · rw [hbuf]
    exact hw.kept.trans (List.prefix_append _ _)
  · intro p hp
    rcases List.mem_append.mp hp with hp | hp
    · exact hw.inside p hp
    · obtain rfl := List.mem_singleton.mp hp
      exact hin
  · intro p hp
    change _ ≤ buf.buf.length
    rcases List.mem_append.mp hp with hp | hp
    · have hle := hw.stored p hp
      omega
    · obtain rfl := List.mem_singleton.mp hp
      exact hlength.ge
  · intro p hp
    change p.1.resolve buf.buf = _
    rw [hbuf]
    rcases List.mem_append.mp hp with hp | hp
    · exact (LocalSpan.resolve_append (hw.stored p hp)).trans (hw.resolves p hp)
    · obtain rfl := List.mem_singleton.mp hp
      rw [LocalSpan.resolve, List.drop_left, List.take_of_length_le (Mem.length_read ..).le]

theorem Gathered.end_le (hg : d.Gathered b is s) (hlt : ∀ j ∈ is, j < i) :
    s.range.start + s.range.count ≤ i := by
  rcases hg.last with ⟨-, hrange⟩ | ⟨l, hl, -, hend⟩
  · rw [hrange]
    exact Nat.zero_le _
  · rw [hend]
    exact hlt l hl

/-- One index: the range grows by it, or a range that starts with it takes its place. -/
theorem Gathered.record (hg : d.Gathered b is s) (hlt : ∀ j ∈ is, j < i) (hi : i < 2 ^ 32)
    (hcount : i < d.count) (hlength : is.length + 1 < 2 ^ 32) (h : d.record s i = some s') :
    d.Gathered b (is ++ [i]) s' := by
  have hend := hg.end_le hlt
  have hpos : ∃ l ∈ is ++ [i], (∀ j ∈ is ++ [i], j ≤ l) ∧ i + 1 = l + 1 := by
    refine ⟨i, by simp, fun j hj => ?_, rfl⟩
    rcases List.mem_append.mp hj with hj | hj
    · exact (hlt j hj).le
    · exact (List.mem_singleton.mp hj).le
  have hmul : d.stride * (is.length + 1) = d.stride * is.length + d.stride := Nat.mul_succ _ _
  have hsum := hg.length
  unfold DiffArrays.record at h
  split at h
  · rename_i heq
    obtain rfl := Option.some.inj h
    have hat : s.range.start + s.range.count = i := by omega
    have hgrown : (s.range.count + 1) % 2 ^ 32 = s.range.count + 1 :=
      Nat.mod_eq_of_lt (by have := hg.count_le; omega)
    simp only [hgrown]
    exact {
      toWritten := ⟨hg.kept, hg.inside, hg.stored, hg.resolves⟩
      has := fun j hj => by
        rcases List.mem_append.mp hj with hj | hj
        · exact (hg.has j hj).imp_right fun hr => ⟨hr.1, Nat.lt_succ_of_lt hr.2⟩
        · obtain rfl := List.mem_singleton.mp hj
          exact .inr ⟨hat ▸ Nat.le_add_right _ _,
            (Nat.lt_succ_self _).trans_eq (congrArg Nat.succ hat).symm⟩
      last := .inr (hat.symm ▸ hpos)
      pending := (congrArg Nat.succ hat).trans_le hcount
      count_le := by
        rw [List.length_append]
        exact Nat.succ_le_succ hg.count_le
      length := by
        rw [List.length_append, List.length_singleton, hmul, Nat.mul_succ, ← Nat.add_assoc, hsum,
          Nat.add_assoc]
      capacity := hg.capacity }
  · obtain ⟨s₁, hs₁, h⟩ := Option.bind_eq_some_iff.mp h
    obtain rfl := Option.some.inj h
    obtain ⟨hw, -, hlength₁, hcapacity⟩ := hg.toWritten.push hg.pending hs₁
    rw [Nat.mod_eq_of_lt hi]
    exact {
      toWritten := ⟨hw.kept, hw.inside, hw.stored, hw.resolves⟩
      has := fun j hj => by
        rcases List.mem_append.mp hj with hj | hj
        · exact .inl ((has_push hs₁).mpr (hg.has j hj))
        · obtain rfl := List.mem_singleton.mp hj
          exact .inr ⟨le_rfl, Nat.lt_succ_self _⟩
      last := .inr hpos
      pending := hcount
      count_le := by
        rw [List.length_append]
        exact Nat.le_add_left _ _
      length := by
        rw [List.length_append, List.length_singleton, hmul]
        change s₁.buf.buf.length + d.stride * 1 = _
        omega
      capacity := hcapacity.trans hg.capacity }

theorem Gathered.room (hg : d.Gathered b is s)
    (hroom : b.buf.length + d.stride * is.length ≤ b.capacity) (i : Nat) :
    ∃ s', d.record s i = some s' := by
  unfold DiffArrays.record
  split
  · exact ⟨_, rfl⟩
  · have hfits : s.buf.buf.length + d.stride * s.range.count ≤ s.buf.capacity := by
      rw [hg.length, hg.capacity]
      exact hroom
    have hpush := (push_iff hg.pending).mpr ⟨⟨_, s.buf.capacity, by
      rwa [List.length_append, Mem.length_read]⟩, hfits, rfl, rfl, rfl⟩
    exact ⟨_, by rw [hpush]; rfl⟩

theorem gathered_initial : d.Gathered b [] { buf := b } where
  kept := List.prefix_rfl
  inside := fun _ => nofun
  stored := fun _ => nofun
  resolves := fun _ => nofun
  has := fun _ => nofun
  last := .inl ⟨rfl, rfl⟩
  pending := Nat.zero_le _
  count_le := le_rfl
  length := rfl
  capacity := rfl

/-- Indices that can be recorded without wrapping around. -/
structure Recordable (d : DiffArrays) (is : List Nat) : Prop where
  pairwise : is.Pairwise (· < ·)
  lt : ∀ i ∈ is, i < 2 ^ 32
  lt_count : ∀ i ∈ is, i < d.count
  length_lt : is.length < 2 ^ 32

theorem Gathered.step {is' : List Nat} (hr : d.Recordable (is ++ i :: is'))
    (hg : d.Gathered b is s) (h : d.record s i = some s') : d.Gathered b (is ++ [i]) s' := by
  have hi : i ∈ is ++ i :: is' := List.mem_append_right _ List.mem_cons_self
  have hlast : ∀ j ∈ is, j < i := fun j hj =>
    (List.pairwise_append.mp hr.pairwise).2.2 j hj i List.mem_cons_self
  have hlength : is.length + 1 < 2 ^ 32 := by
    have hlt := hr.length_lt
    rw [List.length_append, List.length_cons] at hlt
    omega
  exact hg.record hlast (hr.lt i hi) (hr.lt_count i hi) hlength h

theorem Gathered.fold {is' : List Nat} (hr : d.Recordable (is ++ is')) (hg : d.Gathered b is s)
    (h : is'.foldlM d.record s = some s') : d.Gathered b (is ++ is') s' := by
  induction is' generalizing is s with
  | nil =>
      obtain rfl := Option.some.inj h
      rwa [List.append_nil]
  | cons i is' ih =>
      obtain ⟨s₁, hs₁, h⟩ := Option.bind_eq_some_iff.mp h
      have hg₁ := hg.step hr hs₁
      rw [List.append_cons] at hr ⊢
      exact ih hr hg₁ h

theorem Gathered.fold_some {is' : List Nat} (hr : d.Recordable (is ++ is'))
    (hg : d.Gathered b is s)
    (hroom : b.buf.length + d.stride * (is ++ is').length ≤ b.capacity) :
    ∃ s', is'.foldlM d.record s = some s' := by
  induction is' generalizing is s with
  | nil => exact ⟨s, rfl⟩
  | cons i is' ih =>
      have hle : d.stride * is.length ≤ d.stride * (is ++ i :: is').length :=
        Nat.mul_le_mul_left _ (by rw [List.length_append]; omega)
      obtain ⟨s₁, hs₁⟩ := hg.room (by omega) i
      have hg₁ := hg.step hr hs₁
      rw [List.append_cons] at hr hroom
      obtain ⟨s', hs'⟩ := ih hr hg₁ hroom
      exact ⟨s', by rw [List.foldlM_cons, hs₁]; exact hs'⟩

theorem Gathered.finish (hg : d.Gathered b is s) (h : d.finish s = some s') :
    d.Written b s' ∧ (∀ i ∈ is, ∃ p ∈ s'.result, p.2.Has i) ∧
      s'.buf.buf.length = b.buf.length + d.stride * is.length ∧
      s'.buf.capacity = b.capacity := by
  have hsum := hg.length
  unfold DiffArrays.finish at h
  split at h
  · obtain ⟨hw, -, hlength, hcapacity⟩ := hg.toWritten.push hg.pending h
    exact ⟨hw, fun i hi => (has_push h).mpr (hg.has i hi), hlength.trans hsum,
      hcapacity.trans hg.capacity⟩
  · rename_i hzero
    obtain rfl := Option.some.inj h
    have hcount : s.range.count = 0 := not_not.mp hzero
    refine ⟨hg.toWritten, fun i hi => (hg.has i hi).resolve_right ?_, ?_, hg.capacity⟩
    · rintro ⟨hlo, hhi⟩
      omega
    · rwa [hcount, Nat.mul_zero, Nat.add_zero] at hsum

theorem Gathered.finish_some (hg : d.Gathered b is s)
    (hroom : b.buf.length + d.stride * is.length ≤ b.capacity) :
    ∃ s', d.finish s = some s' := by
  unfold DiffArrays.finish
  split
  · have hfits : s.buf.buf.length + d.stride * s.range.count ≤ s.buf.capacity := by
      rw [hg.length, hg.capacity]
      exact hroom
    exact ⟨_, (push_iff hg.pending).mpr ⟨⟨_, s.buf.capacity, by
      rwa [List.length_append, Mem.length_read]⟩, hfits, rfl, rfl, rfl⟩⟩
  · exact ⟨s, rfl⟩

/-! ## What the spans have -/

/-- Each element that differs keeps its first byte and has an index of 32 bits, the loop comes
to them one by one and stops at the end, and there is room for them in the store. -/
structure Followed (d : DiffArrays) (buf : StackBuffer) : Prop where
  first : ∀ e, d.Differs e → ¬ d.FirstDiffers e
  lt : ∀ e, d.Differs e → e < 2 ^ 32
  lands : Lands d.count 0 d.differing
  room : buf.buf.length + d.stride * d.differing.length ≤ buf.capacity

theorem pairwise_differing (d : DiffArrays) : d.differing.Pairwise (· < ·) :=
  List.Pairwise.filter _ List.pairwise_lt_range

theorem Followed.recordable {buf : StackBuffer} (h : d.Followed buf) :
    d.Recordable d.differing where
  pairwise := d.pairwise_differing
  lt := fun e he => h.lt e (mem_differing.mp he)
  lt_count := fun e he => (mem_differing.mp he).1
  length_lt := h.lands.length_lt.trans (by decide)

theorem covers_of_followed {buf : StackBuffer} (h : d.Followed buf) :
    ∃ result buf', d.diffArray buf = some (result, buf') ∧ d.Covers buf result buf' := by
  have hinitial : d.Gathered buf [] { buf := buf } := gathered_initial
  obtain ⟨s, hfold⟩ := hinitial.fold_some h.recordable h.room
  have hg := hinitial.fold h.recordable hfold
  obtain ⟨s', hs'⟩ := hg.finish_some h.room
  obtain ⟨hw, hhas, -, -⟩ := hg.finish hs'
  have hloop : d.loop (d.count + 1) d.count { buf := buf } = some s := by
    have hmem : ∀ e, e ∈ d.differing ↔ d.Differs e ∧ 0 ≤ e := fun e =>
      mem_differing.trans (and_iff_left (Nat.zero_le e)).symm
    have hruns := loop_of_lands h.lands hmem (fun e he => h.first e (mem_differing.mp he))
      (Nat.lt_succ_of_le (Nat.sub_le ..)) hfold
    rwa [d.remain_zero] at hruns
  refine ⟨s'.result, s'.buf, ?_, hw.kept, fun hequal => ?_, hw.inside, hw.resolves, fun e he =>
    hhas e (mem_differing.mpr he)⟩
  · rw [diffArray, hloop]
    change (d.finish s).bind _ = _
    rw [hs']
    rfl
  · have hnil : d.differing = [] := by
      refine List.eq_nil_iff_forall_not_mem.mpr fun e he => ?_
      exact equal_iff.mp hequal e (mem_differing.mp he)
    have hfold' : ([] : List Nat).foldlM d.record { buf := buf } = some s := hnil ▸ hfold
    obtain rfl := Option.some.inj hfold'
    obtain rfl := Option.some.inj hs'
    rfl

theorem Visits.at_end (h : d.Visits a is) (ha : a = d.count) : is = [] := by
  cases h with
  | done => rfl
  | break_ => rfl
  | rest hle hi => omega
  | before hle h => exact absurd h.1 (by omega)
  | element hle h => exact absurd h.1 (by omega)

/-- One index and no more gives a span. -/
theorem result_ne_nil {b : StackBuffer} (h : [i].foldlM d.record { buf := b } = some s)
    (hfinish : d.finish s = some s') : s'.result ≠ [] := by
  have hcount : s.range.count = 1 := by
    obtain ⟨s₁, hrecord, hnil⟩ := Option.bind_eq_some_iff.mp h
    obtain rfl := Option.some.inj hnil
    unfold DiffArrays.record at hrecord
    split at hrecord
    · exact Option.some.inj hrecord ▸ rfl
    · obtain ⟨s₂, -, hrange⟩ := Option.bind_eq_some_iff.mp hrecord
      exact Option.some.inj hrange ▸ rfl
  rw [finish, if_pos (by rw [hcount]; decide)] at hfinish
  obtain ⟨span, buf, rfl⟩ := push_eq_some hfinish
  exact List.append_ne_nil_of_right_ne_nil _ (List.cons_ne_nil _ _)

/-- Arrays of elements that do not differ are followed only if they are empty. -/
theorem followed_of_equal {buf : StackBuffer} (hnone : ∀ e, ¬ d.Differs e) (h : d.Visits a is)
    (ha : a = 0) (hfold : is.foldlM d.record { buf := buf } = some s)
    (hfinish : d.finish s = some s') (hresult : s'.result = []) : d.Followed buf := by
  have hnil : d.differing = [] :=
    List.eq_nil_iff_forall_not_mem.mpr fun e he => hnone e (mem_differing.mp he)
  cases h with
  | done =>
      refine ⟨fun e he => absurd he (hnone e), fun e he => absurd he (hnone e), ?_, ?_⟩
      · rw [hnil]
        exact ha.symm
      · rw [hnil]
        exact buf.length_le
  | break_ h => exact absurd h (hnone 0)
  | rest hle hi _ hrest =>
      obtain rfl := hrest.at_end (by omega)
      exact absurd hresult (result_ne_nil hfold hfinish)
  | before _ h => exact absurd h (hnone _)
  | element _ h => exact absurd h (hnone _)

theorem followed_of_covers {buf buf' : StackBuffer} {result : List (LocalSpan × DiffRange)}
    (h : d.diffArray buf = some (result, buf')) (hc : d.Covers buf result buf') :
    d.Followed buf := by
  obtain ⟨is, s, s', hvisits, hfold, hfinish, rfl, rfl, hwithin⟩ := within_diffArray h
  by_cases hsome : ∃ e, d.Differs e
  · have hlt : ∀ e, d.Differs e → e < 2 ^ 32 := fun e he => by
      obtain ⟨i, -, rfl⟩ := hwithin e (hc.covered e he)
      exact Nat.mod_lt _ (Nat.two_pow_pos 32)
    have hindex : ∀ i ∈ is, i < 2 ^ 32 := fun i hi => by
      rcases hvisits.differs hsome i hi with ⟨he, -⟩ | ⟨he, -⟩
      · exact hlt i he
      · exact (Nat.lt_succ_self i).trans (hlt _ he)
    have hall : ∀ e, d.Differs e → e ∈ is := fun e he => by
      obtain ⟨i, hi, heq⟩ := hwithin e (hc.covered e he)
      rwa [heq, Nat.mod_eq_of_lt (hindex i hi)]
    have hfirst : ∀ e, d.Differs e → ¬ d.FirstDiffers e := fun e he =>
      hvisits.not_first hsome hall he
    have hlands : Lands d.count 0 is := hvisits.lands hsome hfirst
    have heq : is = d.differing := by
      refine hlands.pairwise.eq_of_mem_iff d.pairwise_differing fun e =>
        ⟨fun he => ?_, fun he => ?_⟩
      · rcases hvisits.differs hsome e he with ⟨he, -⟩ | ⟨he, hbad⟩
        · exact mem_differing.mpr he
        · exact absurd hbad (hfirst _ he)
      · exact hall e (mem_differing.mp he)
    subst heq
    have hrec : d.Recordable d.differing := {
      pairwise := d.pairwise_differing
      lt := hindex
      lt_count := fun e he => (mem_differing.mp he).1
      length_lt := hlands.length_lt.trans (by decide) }
    have hg : d.Gathered buf d.differing s := gathered_initial.fold hrec hfold
    obtain ⟨-, -, hlength, hcapacity⟩ := hg.finish hfinish
    refine ⟨hfirst, hlt, hlands, ?_⟩
    calc buf.buf.length + d.stride * d.differing.length = s'.buf.buf.length := hlength.symm
      _ ≤ s'.buf.capacity := s'.buf.length_le
      _ = buf.capacity := hcapacity
  · have hnone : ∀ e, ¬ d.Differs e := not_exists.mp hsome
    exact followed_of_equal hnone hvisits rfl hfold hfinish (hc.equal (equal_iff.mpr hnone))

/-- `diff_array` does what is asked of it for the arrays whose differences it can follow, and
for no others. -/
theorem diffArray_iff (d : DiffArrays) (buf : StackBuffer) :
    (∃ result buf', d.diffArray buf = some (result, buf') ∧ d.Covers buf result buf') ↔
      d.Followed buf :=
  ⟨fun ⟨_, _, h, hc⟩ => followed_of_covers h hc, covers_of_followed⟩

/-- One element of four bytes, the same in both arrays. -/
def unchanged : DiffArrays where
  baseData := fun _ => 0
  data := fun _ => 0
  count := 1
  stride := 4
  stride_pos := by decide
  size_lt := by decide

/-- An empty store with room for sixteen bytes. -/
def roomy : StackBuffer := ⟨[], 16, by decide⟩

/-- The element is reported. -/
theorem not_covers_unchanged : ¬ ∃ result buf',
    unchanged.diffArray roomy = some (result, buf') ∧ unchanged.Covers roomy result buf' := by
  rintro ⟨result, buf', h, hc⟩
  have hlands := (followed_of_covers h hc).lands
  have hnil : unchanged.differing = [] := by decide
  rw [hnil] at hlands
  exact absurd hlands (by decide : ¬ 0 = 1)

end DiffArrays

end Dots

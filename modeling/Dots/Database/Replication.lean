import Dots.Database.Duplication

/-!
# Replication by doubling

The calls of `memcpy` that `memdup` makes, with the element to replicate in the same memory as the
destination. The first call is made before `count` is looked at.
-/

namespace Dots

open Library

/-- A call of `memcpy`, within one memory. -/
structure Memcpy where
  dst : Nat
  src : Nat
  n : Nat
  deriving DecidableEq, Repr

namespace Memcpy

def run (m : Mem) (c : Memcpy) : Mem := Mem.copy m c.dst m c.src c.n

/-- The byte at `x` is written. -/
def Writes (c : Memcpy) (x : Nat) : Prop := c.dst ≤ x ∧ x < c.dst + c.n

/-- The byte at `x` is read. -/
def Reads (c : Memcpy) (x : Nat) : Prop := c.src ≤ x ∧ x < c.src + c.n

/-- What `memcpy` asks of its caller. -/
def Apart (c : Memcpy) : Prop := ∀ x, c.Reads x → ¬ c.Writes x

end Memcpy

namespace Mem

/-- The calls in the loop of `memdup`; `none` when it does not end within the fuel. -/
def memdupLoopCalls (dst size count : Nat) : Nat → Nat → Option (List Memcpy)
  | 0, _ => none
  | fuel + 1, copied =>
      if copied < count then
        let toCopy := min copied (count - copied)
        (memdupLoopCalls dst size count fuel (copied + toCopy)).map
          (⟨dst + copied * size, dst, toCopy * size⟩ :: ·)
      else some []

/-- The calls of `memdup`. -/
def memdupCalls (dst src size count fuel : Nat) : Option (List Memcpy) :=
  (memdupLoopCalls dst size count fuel 1).map (⟨dst, src, size⟩ :: ·)

variable {dst src size count copied fuel : Nat}

/-- The calls of the loop write what `copied` elements leave to be written. -/
structure Completes (dst size count fuel copied : Nat) (calls : List Memcpy) : Prop where
  rounds : ∀ m, memdupRounds m dst size count fuel copied = calls.foldl Memcpy.run m
  apart : ∀ c ∈ calls, c.Apart
  writes : ∀ x, (∃ c ∈ calls, c.Writes x) ↔ dst + size * copied ≤ x ∧ x < dst + size * count

/-- When everything has been copied, no call is left. -/
theorem completes_nil (dst size fuel : Nat) (hdone : count ≤ copied) :
    Completes dst size count fuel copied [] := by
  have hmul := Nat.mul_le_mul_left size hdone
  constructor
  · intro m
    cases fuel with
    | zero => rfl
    | succ fuel => rw [memdupRounds, if_neg (Nat.not_lt.mpr hdone), List.foldl_nil]
  · exact fun c hc => absurd hc List.not_mem_nil
  · intro x
    refine iff_of_false ?_ (by omega)
    rintro ⟨c, hc, -⟩
    exact List.not_mem_nil hc

/-- A call appends at most as many elements as there are, so that it stays clear of them. -/
theorem Completes.cons {calls : List Memcpy} (hlt : copied < count)
    (h : Completes dst size count fuel (copied + min copied (count - copied)) calls) :
    Completes dst size count (fuel + 1) copied
      (⟨dst + copied * size, dst, min copied (count - copied) * size⟩ :: calls) := by
  have hle : min copied (count - copied) * size ≤ copied * size :=
    Nat.mul_le_mul_right size (Nat.min_le_left _ _)
  constructor
  · intro m
    rw [memdupRounds, if_pos hlt, List.foldl_cons]
    exact h.rounds _
  · intro c hc
    rcases List.mem_cons.mp hc with rfl | hc
    · rintro x ⟨-, hread⟩ ⟨hwrite, -⟩
      dsimp only at hread hwrite
      omega
    · exact h.apart c hc
  · intro x
    have hmul := Nat.mul_le_mul_left size
      (show copied + min copied (count - copied) ≤ count by omega)
    have hwrites := h.writes x
    rw [Nat.mul_add] at hmul hwrites
    rw [List.exists_mem_cons_iff, hwrites, Memcpy.Writes, Nat.mul_comm copied size,
      Nat.mul_comm (min copied _) size]
    dsimp only
    omega

/-- The loop ends: each round adds at least one element. -/
theorem exists_completes (dst size : Nat) (hpos : 0 < copied) (hfuel : count ≤ copied + fuel) :
    ∃ calls, memdupLoopCalls dst size count (fuel + 1) copied = some calls ∧
      Completes dst size count fuel copied calls := by
  induction fuel generalizing copied with
  | zero =>
      rw [memdupLoopCalls, if_neg (by omega)]
      exact ⟨[], rfl, completes_nil dst size 0 hfuel⟩
  | succ fuel ih =>
      rw [memdupLoopCalls]
      split_ifs with hlt
      · obtain ⟨calls, hcalls, h⟩ :=
          @ih (copied + min copied (count - copied)) (by omega) (by omega)
        exact ⟨_, congrArg (Option.map _) hcalls, h.cons hlt⟩
      · exact ⟨[], rfl, completes_nil dst size _ (Nat.not_lt.mp hlt)⟩

/-- What `memdup` is for: `count` elements that equal the one at `src`, one behind the other, with
calls that write just their bytes and never copy onto what they read. -/
structure Replicates (m : Mem) (dst src size count : Nat) (calls : List Memcpy) : Prop where
  writes : ∀ x, (∃ c ∈ calls, c.Writes x) ↔ dst ≤ x ∧ x < dst + size * count
  apart : ∀ c ∈ calls, c.Apart
  elements : ∀ j < count, ∀ y < size,
    memdup m dst m src size count (dst + size * j + y) = m (src + y)
  rest : Mem.SameOff (fun x => dst ≤ x ∧ x < dst + size * count) m (memdup m dst m src size count)

/-- With an element to write, the first call writes it, and the loop the others. -/
theorem Completes.replicates {calls : List Memcpy} (m : Mem) (hpos : 0 < count)
    (hapart : ∀ x, src ≤ x ∧ x < src + size → ¬ (dst ≤ x ∧ x < dst + size * count))
    (h : Completes dst size count fuel 1 calls) :
    Replicates m dst src size count (⟨dst, src, size⟩ :: calls) := by
  have hsize : size * 1 ≤ size * count := Nat.mul_le_mul_left size hpos
  constructor
  · intro x
    rw [List.exists_mem_cons_iff, h.writes, Memcpy.Writes]
    dsimp only
    omega
  · intro c hc
    rcases List.mem_cons.mp hc with rfl | hc
    · rintro x hread ⟨hle, hlt⟩
      dsimp only at hle hlt
      exact hapart x hread ⟨hle, by omega⟩
    · exact h.apart c hc
  · intro j hj y hy
    exact memdup_at m dst m src hj hy
  · exact memdup_off m dst m src size hpos

/-- Of elements without bytes none need be written. -/
theorem replicates_empty (m : Mem) (dst src : Nat) :
    Replicates m dst src 0 0 [⟨dst, src, 0⟩] := by
  constructor
  · intro x
    rw [List.exists_mem_cons_iff, Memcpy.Writes]
    simp
  · rintro c hc x ⟨hle, hlt⟩
    rw [List.mem_singleton.mp hc] at hle hlt
    exact absurd hlt (Nat.not_lt.mpr hle)
  · exact fun j hj => absurd hj (Nat.not_lt_zero j)
  · exact Mem.SameOff.copy m src fun x hle hlt => absurd hlt (Nat.not_lt.mpr hle)

/-- Whatever the memory, the size and the count: `memdup` ends, and does what it is for unless
there is no element to write although it has bytes. -/
theorem memdup_exact_iff (m : Mem)
    (hapart : ∀ x, src ≤ x ∧ x < src + size → ¬ (dst ≤ x ∧ x < dst + size * count)) :
    ∃ calls, memdupCalls dst src size count (count + 1) = some calls ∧
      memdup m dst m src size count = calls.foldl Memcpy.run m ∧
        (Replicates m dst src size count calls ↔ count ≠ 0 ∨ size = 0) := by
  obtain ⟨calls, hcalls, h⟩ := exists_completes dst size Nat.one_pos (Nat.le_add_left count 1)
  refine ⟨⟨dst, src, size⟩ :: calls, ?_, h.rounds _, ?_⟩
  · rw [memdupCalls, hcalls]
    rfl
  constructor
  · intro hreplicates
    by_contra hnot
    obtain ⟨rfl, hsize⟩ : count = 0 ∧ size ≠ 0 := by
      rwa [not_or, not_not] at hnot
    -- the first byte of the destination is written
    have hwritten := (hreplicates.writes dst).mp
      ⟨_, List.mem_cons_self, le_rfl, Nat.lt_add_of_pos_right (Nat.pos_of_ne_zero hsize)⟩
    exact lt_irrefl _ hwritten.2
  · intro hcount
    rcases Nat.eq_zero_or_pos count with rfl | hpos
    · obtain rfl : size = 0 := hcount.resolve_left fun h => h rfl
      obtain rfl : calls = [] := Option.some.inj hcalls.symm
      exact replicates_empty m dst src
    · exact h.replicates m hpos hapart

/-- A memory where each byte is its address. -/
def addresses : Mem := fun x => UInt8.ofNat x

theorem memdup_exact_iff_three :
    ∃ calls, memdupCalls 8 2 2 3 4 = some calls ∧
      memdup addresses 8 addresses 2 2 3 = calls.foldl Memcpy.run addresses ∧
        (Replicates addresses 8 2 2 3 calls ↔ 3 ≠ 0 ∨ 2 = 0) :=
  memdup_exact_iff addresses (by omega)

/-- Asked for no element of four bytes, `memdup` writes one. -/
theorem memdup_no_element :
    memdupCalls 8 0 4 0 1 = some [⟨8, 0, 4⟩] ∧ memdup addresses 8 addresses 0 4 0 9 = 1 ∧
      ¬ Replicates addresses 8 0 4 0 [⟨8, 0, 4⟩] := by
  refine ⟨by decide, by decide, fun h => ?_⟩
  have hsame := h.rest 9 (by decide)
  exact absurd hsame (by decide)

end Mem

end Dots

import Dots.Library.Bytes
import Dots.Library.Refinement
import Mathlib.Data.Nat.Basic
import Mathlib.Order.Basic

/-!
# `stack_allocator`

Blocks cut from one buffer and given back in the reverse order. The four bytes before a block hold
the offset to go back to. Pointers are addresses; `stackSize` has 64 bits and the offsets have 32.
-/

namespace Dots

open Library

/-- `stack_allocator`. -/
structure StackAllocator where
  stackbuffer : Nat
  stacktop : Nat
  stackSize : Nat

namespace StackAllocator

/-- The first multiple of `alignment` from `ptr` on. -/
def alignUp (alignment ptr : Nat) : Nat := (ptr + alignment - 1) / alignment * alignment

/-- `std::align`: the aligned pointer and the space behind it, if `size` bytes fit. -/
def align (alignment size ptr space : Nat) : Option (Nat × Nat) :=
  let padding := alignUp alignment ptr - ptr
  if size + padding ≤ space then some (alignUp alignment ptr, space - padding) else none

/-- `init`, with the buffer that `malloc` gives. -/
def init (stackbuffer size : Nat) : StackAllocator := ⟨stackbuffer, stackbuffer, size⟩

/-- `alloc`: the result, null if there is none, the allocator and the memory. -/
def alloc (size alignment : Nat) (mem : Mem) (a : StackAllocator) :
    Option Nat × StackAllocator × Mem :=
  let offset := (a.stacktop - a.stackbuffer) % 2 ^ 32
  let a := { a with stacktop := a.stacktop + 4 }
  match align alignment size a.stacktop a.stackSize with
  | some (result, space) =>
      (some result,
        { a with
          stacktop := result + size
          stackSize := (space + 2 ^ 64 - (size + 4) % 2 ^ 64) % 2 ^ 64 },
        mem.writeWord (result - 4) offset 4)
  | none => (none, a, mem)

/-- `free`. -/
def free (ptr : Nat) (mem : Mem) (a : StackAllocator) : StackAllocator :=
  let offset := (a.stacktop - a.stackbuffer) % 2 ^ 32
  let oldOffset := mem.readWord (ptr - 4) 4
  { a with
    stackSize := (a.stackSize + (offset + 2 ^ 32 - oldOffset) % 2 ^ 32) % 2 ^ 64
    stacktop := a.stackbuffer + oldOffset }

end StackAllocator

/-- `stack.init(10000)` of the context. -/
def kStackSize : Nat := 10000

/-- What is left of a stack with `left` bytes behind blocks of these sizes, each with the four
bytes before it. A block that does not fit is a null pointer, or reaches behind the buffer. -/
def stackRoom (left : Nat) : List Nat → Option Nat
  | [] => some left
  | size :: sizes =>
      if size + 4 ≤ left then stackRoom (left - (size + 4)) sizes else none

theorem stackRoom_eq (left : Nat) (sizes : List Nat) :
    stackRoom left sizes = if (sizes.map (· + 4)).sum ≤ left then
      some (left - (sizes.map (· + 4)).sum) else none := by
  induction sizes generalizing left with
  | nil => simp [stackRoom]
  | cons size sizes ih =>
      rw [stackRoom, ih, List.map_cons, List.sum_cons]
      split_ifs <;> first | omega | (congr 1; omega) | rfl

/-- A block that was not given back, with the allocator its `alloc` was called on. -/
structure StackBlock where
  ptr : Nat
  size : Nat
  before : StackAllocator

/-- An allocator in use: the memory, and the blocks there are, the last one first. -/
structure StackSession where
  allocator : StackAllocator
  mem : Mem
  live : List StackBlock := []

inductive StackOp
  | alloc (size alignment : Nat)
  | free
  /-- The memory after the caller has written to its blocks. -/
  | write (mem : Mem)

namespace StackSession

def start (stackbuffer total : Nat) (mem : Mem) : StackSession :=
  ⟨.init stackbuffer total, mem, []⟩

/-- Calls in the order of a stack: the block that is freed is the last one. -/
def turn (s : StackSession) : StackOp → Option StackSession
  | .alloc size alignment =>
      let (result, allocator, mem) := s.allocator.alloc size alignment s.mem
      match result with
      | some ptr => some ⟨allocator, mem, ⟨ptr, size, s.allocator⟩ :: s.live⟩
      | none => some ⟨allocator, mem, s.live⟩
  | .free =>
      match s.live with
      | [] => none
      | b :: live => some ⟨s.allocator.free b.ptr s.mem, s.mem, live⟩
  | .write mem => some { s with mem := mem }

/-! ## The discipline -/

/-- Alignments are powers of two, there is a block to free, and in the buffer nothing is written
outside the blocks. -/
def Valid (total : Nat) (s : StackSession) : StackOp → Prop
  | .alloc size alignment => size < 2 ^ 64 ∧ ∃ e, alignment = 2 ^ e
  | .free => s.live ≠ []
  | .write mem => ∀ x, s.allocator.stackbuffer ≤ x → x < s.allocator.stackbuffer + total →
      (∀ b ∈ s.live, ¬ (b.ptr ≤ x ∧ x < b.ptr + b.size)) → mem x = s.mem x

/-- The space and what is used make up the buffer. Each block is in it, behind the block before it
and behind its own header. -/
structure Sound (total : Nat) (s : StackSession) : Prop where
  sum : s.allocator.stacktop - s.allocator.stackbuffer + s.allocator.stackSize = total
  inside : ∀ b ∈ s.live,
    s.allocator.stackbuffer + 4 ≤ b.ptr ∧ b.ptr + b.size ≤ s.allocator.stackbuffer + total
  apart : s.live.Pairwise fun b b' => b'.ptr + b'.size ≤ b.ptr - 4

/-- What a call promises: an aligned block, or null and no change; the state before the block. -/
def Promised (s : StackSession) (o : StackOp) (s' : StackSession) : Prop :=
  match o with
  | .alloc size alignment =>
      s' = s ∨ ∃ ptr, s'.live = ⟨ptr, size, s.allocator⟩ :: s.live ∧ alignment ∣ ptr
  | .free => ∃ b, s.live = b :: s'.live ∧ s'.allocator = b.before
  | .write mem => s' = { s with mem := mem }

/-- The header, the padding before the block and the block fit what is left; the offset of the
block before and the distance to it have 32 bits. -/
def Meets (s : StackSession) : StackOp → Prop
  | .alloc size alignment =>
      StackAllocator.alignUp alignment (s.allocator.stacktop + 4) + size ≤
        s.allocator.stacktop + s.allocator.stackSize
  | .free => ∀ b ∈ s.live.head?, b.before.stacktop < s.allocator.stackbuffer + 2 ^ 32 ∧
      s.allocator.stacktop < b.before.stacktop + 2 ^ 32
  | .write _ => True

def ValidAlong (total : Nat) : List StackOp → StackSession → Prop := Along turn (Valid total)

def MeetsAlong : List StackOp → StackSession → Prop := Along turn Meets

/-- In every state the blocks are sound, and every call keeps its promise. -/
def DisciplineAlong (total : Nat) (run : List StackOp) (s : StackSession) : Prop :=
  RefinesAlong turn Promised (fun s s' => s = s' ∧ s.Sound total) run s s

/-! ## The chain of blocks -/

/-- The blocks down from `top`, each on the one before it, with the headers that lead there. -/
def Chain (base total : Nat) (mem : Mem) : Nat → List StackBlock → Prop
  | top, [] => top = base
  | top, b :: live => top = b.ptr + b.size ∧ b.before.stacktop + 4 ≤ b.ptr ∧
      b.before.stackbuffer = base ∧ b.before.stacktop + b.before.stackSize = base + total ∧
      mem.readWord (b.ptr - 4) 4 = (b.before.stacktop - base) % 2 ^ 32 ∧
      Chain base total mem b.before.stacktop live

/-- The state in which the discipline was kept so far. -/
structure Kept (base total : Nat) (s : StackSession) : Prop where
  buffer : s.allocator.stackbuffer = base
  sum : s.allocator.stacktop + s.allocator.stackSize = base + total
  chain : Chain base total s.mem s.allocator.stacktop s.live

variable {base total top size alignment : Nat} {mem mem' : Mem} {live : List StackBlock}
  {s s' : StackSession} {b : StackBlock}

theorem kept_start (base total : Nat) (mem : Mem) : (start base total mem).Kept base total :=
  ⟨rfl, rfl, rfl⟩

theorem Chain.base_le (h : Chain base total mem top live) : base ≤ top := by
  induction live generalizing top with
  | nil => exact h.ge
  | cons b live ih =>
      obtain ⟨htop, hptr, -, -, -, hrest⟩ := h
      have hbelow := ih hrest
      omega

/-- Every block ends below the top, and starts behind its header. -/
theorem Chain.block (h : Chain base total mem top live) (hb : b ∈ live) :
    base + 4 ≤ b.ptr ∧ b.ptr + b.size ≤ top := by
  induction live generalizing top with
  | nil => exact absurd hb List.not_mem_nil
  | cons b' live ih =>
      obtain ⟨htop, hptr, -, -, -, hrest⟩ := h
      have hbase := hrest.base_le
      rcases List.mem_cons.mp hb with rfl | hb
      · exact ⟨by omega, htop.ge⟩
      · obtain ⟨hlo, hhi⟩ := ih hrest hb
        exact ⟨hlo, by omega⟩

theorem Chain.apart (h : Chain base total mem top live) :
    live.Pairwise fun b b' => b'.ptr + b'.size ≤ b.ptr - 4 := by
  induction live generalizing top with
  | nil => exact List.Pairwise.nil
  | cons b live ih =>
      obtain ⟨-, hptr, -, -, -, hrest⟩ := h
      refine List.Pairwise.cons (fun b' hb' => ?_) (ih hrest)
      have hbelow := (hrest.block hb').2
      omega

/-- The headers are not in the blocks. -/
theorem Chain.congr (h : Chain base total mem top live)
    (hsame : ∀ x, base ≤ x → x < top → (∀ b ∈ live, ¬ (b.ptr ≤ x ∧ x < b.ptr + b.size)) →
      mem' x = mem x) : Chain base total mem' top live := by
  induction live generalizing top with
  | nil => exact h
  | cons b live ih =>
      obtain ⟨htop, hptr, hbase, hsum, hheader, hrest⟩ := h
      have hlow := hrest.base_le
      refine ⟨htop, hptr, hbase, hsum, ?_, ih hrest fun x hlo hhi hout => ?_⟩
      · rw [← hheader]
        refine Mem.readWord_congr fun i hi => hsame _ (by omega) (by omega) fun b' hb' hin => ?_
        rcases List.mem_cons.mp hb' with rfl | hb'
        · omega
        · have hbelow := (hrest.block hb').2
          omega
      · refine hsame x hlo (by omega) fun b' hb' hin => ?_
        rcases List.mem_cons.mp hb' with rfl | hb'
        · omega
        · exact hout b' hb' hin

theorem Kept.sound (h : s.Kept base total) : s.Sound total := by
  have hlow := h.chain.base_le
  have hsum := h.sum
  have hbase := h.buffer
  refine ⟨by omega, fun b hb => ?_, h.chain.apart⟩
  obtain ⟨hlo, hhi⟩ := h.chain.block hb
  omega

/-! ## Steps -/

theorem le_alignUp {e : Nat} (ptr : Nat) : ptr ≤ StackAllocator.alignUp (2 ^ e) ptr := by
  have hpos : 0 < 2 ^ e := Nat.two_pow_pos e
  have hmod := Nat.div_add_mod (ptr + 2 ^ e - 1) (2 ^ e)
  have hlt := Nat.mod_lt (ptr + 2 ^ e - 1) hpos
  rw [StackAllocator.alignUp, Nat.mul_comm]
  omega

theorem dvd_alignUp (alignment ptr : Nat) : alignment ∣ StackAllocator.alignUp alignment ptr :=
  Nat.dvd_mul_left ..

/-- `std::align` finds room if there is room for the header as well. -/
theorem alloc_eq {a : StackAllocator} {e : Nat}
    (hfit : StackAllocator.alignUp (2 ^ e) (a.stacktop + 4) + size ≤ a.stacktop + a.stackSize)
    (hsmall : a.stackSize < 2 ^ 64) (mem : Mem) :
    a.alloc size (2 ^ e) mem =
      (some (StackAllocator.alignUp (2 ^ e) (a.stacktop + 4)),
        { a with
          stacktop := StackAllocator.alignUp (2 ^ e) (a.stacktop + 4) + size
          stackSize := a.stacktop + a.stackSize -
            (StackAllocator.alignUp (2 ^ e) (a.stacktop + 4) + size) },
        mem.writeWord (StackAllocator.alignUp (2 ^ e) (a.stacktop + 4) - 4)
          ((a.stacktop - a.stackbuffer) % 2 ^ 32) 4) := by
  have hle := le_alignUp (e := e) (a.stacktop + 4)
  generalize hp : StackAllocator.alignUp (2 ^ e) (a.stacktop + 4) = p at *
  have hroom : size + (p - (a.stacktop + 4)) ≤ a.stackSize := by omega
  have hleft : (a.stackSize - (p - (a.stacktop + 4)) + 2 ^ 64 - (size + 4) % 2 ^ 64) % 2 ^ 64 =
      a.stacktop + a.stackSize - (p + size) := by omega
  simp only [StackAllocator.alloc, StackAllocator.align, hp, if_pos hroom, hleft]

/-- A block that has room on an aligned stack is the next one. -/
theorem alloc_of_stackRoom {a : StackAllocator} {left : Nat} (halign : 4 ∣ a.stacktop)
    (hsmall : a.stackSize < 2 ^ 64) (hroom : stackRoom a.stackSize [size] = some left) (mem : Mem) :
    (a.alloc size 4 mem).1 = some (a.stacktop + 4) ∧
      (a.alloc size 4 mem).2.1 =
        { a with stacktop := a.stacktop + 4 + size, stackSize := left } := by
  have halignUp : StackAllocator.alignUp (2 ^ 2) (a.stacktop + 4) = a.stacktop + 4 := by
    simp only [StackAllocator.alignUp]
    omega
  simp only [stackRoom] at hroom
  split_ifs at hroom with hle
  obtain rfl := Option.some.inj hroom
  have hleft : a.stacktop + a.stackSize - (a.stacktop + 4 + size) = a.stackSize - (size + 4) := by
    omega
  have hfit : StackAllocator.alignUp (2 ^ 2) (a.stacktop + 4) + size ≤ a.stacktop + a.stackSize := by
    omega
  have heq := alloc_eq hfit hsmall mem
  rw [halignUp, hleft] at heq
  exact ⟨congrArg Prod.fst heq, congrArg (fun r => r.2.1) heq⟩

/-- A block that is larger than what is left is a null pointer. -/
theorem alloc_eq_none {a : StackAllocator} (hsize : a.stackSize < size) (alignment : Nat)
    (mem : Mem) : (a.alloc size alignment mem).1 = none := by
  rw [StackAllocator.alloc, StackAllocator.align]
  dsimp only
  rw [if_neg (by omega)]

/-- With room for the header, the block is behind the top. -/
theorem Kept.alloc_block (h : s.Kept base total) (htotal : total < 2 ^ 64) {e : Nat}
    (hfit : s.Meets (.alloc size (2 ^ e))) :
    ∃ ptr s', (s.allocator.alloc size (2 ^ e) s.mem).1 = some ptr ∧
      s.turn (.alloc size (2 ^ e)) = some s' ∧ s'.live = ⟨ptr, size, s.allocator⟩ :: s.live ∧
      2 ^ e ∣ ptr ∧ s'.Kept base total := by
  have hlow := h.chain.base_le
  have hsum := h.sum
  have hbase := h.buffer
  have hfit : StackAllocator.alignUp (2 ^ e) (s.allocator.stacktop + 4) + size ≤
    s.allocator.stacktop + s.allocator.stackSize := hfit
  have hle := le_alignUp (e := e) (s.allocator.stacktop + 4)
  have heq := alloc_eq hfit (by omega) s.mem
  have hdvd := dvd_alignUp (2 ^ e) (s.allocator.stacktop + 4)
  revert heq hdvd hle hfit
  generalize StackAllocator.alignUp (2 ^ e) (s.allocator.stacktop + 4) = p
  intro hfit hle heq hdvd
  have hheader : (s.mem.writeWord (p - 4) ((s.allocator.stacktop - s.allocator.stackbuffer) % 2 ^ 32)
      4).readWord (p - 4) 4 = (s.allocator.stacktop - base) % 2 ^ 32 := by
    rw [Mem.readWord_writeWord, hbase]
    exact Nat.mod_mod ..
  have hturn : s.turn (.alloc size (2 ^ e)) = some ⟨{ s.allocator with
      stacktop := p + size
      stackSize := s.allocator.stacktop + s.allocator.stackSize - (p + size) },
      s.mem.writeWord (p - 4) ((s.allocator.stacktop - s.allocator.stackbuffer) % 2 ^ 32) 4,
      ⟨p, size, s.allocator⟩ :: s.live⟩ := by
    rw [turn, heq]
  refine ⟨p, _, congrArg Prod.fst heq, hturn, rfl, hdvd, hbase, ?_, ?_⟩
  · dsimp only
    omega
  · refine ⟨rfl, hle, hbase, hsum, hheader, h.chain.congr fun x hlo hhi _ => ?_⟩
    exact Mem.writeWord_of_lt _ _ _ (by omega)

theorem Kept.alloc (h : s.Kept base total) (htotal : total < 2 ^ 64) {e : Nat}
    (hfit : s.Meets (.alloc size (2 ^ e))) :
    ∃ s', s.turn (.alloc size (2 ^ e)) = some s' ∧ Promised s (.alloc size (2 ^ e)) s' ∧
      s'.Kept base total := by
  obtain ⟨ptr, s', -, hs, hlive, hdvd, hkept⟩ := h.alloc_block htotal hfit
  exact ⟨s', hs, Or.inr ⟨ptr, hlive, hdvd⟩, hkept⟩

theorem Kept.free (h : s.Kept base total) (htotal : total < 2 ^ 64) (hlive : s.live ≠ [])
    (hmeets : s.Meets .free) :
    ∃ s', s.turn .free = some s' ∧ Promised s .free s' ∧ s'.Kept base total := by
  obtain ⟨⟨stackbuffer, stacktop, stackSize⟩, mem, live⟩ := s
  rcases live with _ | ⟨⟨ptr, size, ⟨buffer, old, space⟩⟩, live⟩
  · exact absurd rfl hlive
  obtain ⟨hold, hfar⟩ := hmeets _ rfl
  obtain ⟨htop, hptr, hbase, hsum', hheader, hrest⟩ := h.chain
  have hlow := hrest.base_le
  obtain rfl : stackbuffer = base := h.buffer
  have hsum := h.sum
  dsimp only at *
  have hback : mem.readWord (ptr - 4) 4 = old - stackbuffer := by
    rw [hheader]
    omega
  have hallocator : StackAllocator.free ptr mem ⟨stackbuffer, stacktop, stackSize⟩ =
      ⟨buffer, old, space⟩ := by
    have htop' : stackbuffer + (old - stackbuffer) = old := by omega
    have hspace : (stackSize + ((stacktop - stackbuffer) % 2 ^ 32 + 2 ^ 32 - (old - stackbuffer)) %
        2 ^ 32) % 2 ^ 64 = space := by omega
    simp only [StackAllocator.free, hback, htop', hspace, hbase]
  refine ⟨⟨⟨buffer, old, space⟩, mem, live⟩, ?_, ⟨_, rfl, rfl⟩, ⟨hbase, hsum', hrest⟩⟩
  exact congrArg (fun a => some (⟨a, mem, live⟩ : StackSession)) hallocator

theorem Kept.write (h : s.Kept base total) (hvalid : s.Valid total (.write mem)) :
    Kept base total { s with mem := mem } := by
  refine ⟨h.buffer, h.sum, h.chain.congr fun x hlo hhi hout => ?_⟩
  have hsum := h.sum
  exact hvalid x (h.buffer ▸ hlo) (by rw [h.buffer]; omega) hout

theorem Kept.keeps (h : s.Kept base total) (htotal : total < 2 ^ 64) {o : StackOp}
    (hvalid : s.Valid total o) (hmeets : s.Meets o) :
    ∃ s', s.turn o = some s' ∧ Promised s o s' ∧ s'.Kept base total := by
  cases o with
  | alloc size alignment =>
      obtain ⟨-, e, rfl⟩ := hvalid
      exact h.alloc htotal hmeets
  | free => exact h.free htotal hvalid hmeets
  | write mem => exact ⟨_, rfl, rfl, h.write hvalid⟩

/-- Without room for the header a block either sticks out of the buffer, or is null and moves the
top. -/
theorem Kept.alloc_breaks (h : s.Kept base total) {e : Nat} (hmeets : ¬ s.Meets (.alloc size (2 ^ e)))
    (hs : s.turn (.alloc size (2 ^ e)) = some s')
    (hpromise : Promised s (.alloc size (2 ^ e)) s') : ¬ s'.Sound total := by
  intro hsound
  have hsum := h.sum
  have hlow := h.chain.base_le
  have hle := le_alignUp (e := e) (s.allocator.stacktop + 4)
  have hmore : ¬ StackAllocator.alignUp (2 ^ e) (s.allocator.stacktop + 4) + size ≤
    s.allocator.stacktop + s.allocator.stackSize := hmeets
  by_cases hroom : size + (StackAllocator.alignUp (2 ^ e) (s.allocator.stacktop + 4) -
      (s.allocator.stacktop + 4)) ≤ s.allocator.stackSize
  · simp only [turn, StackAllocator.alloc, StackAllocator.align, if_pos hroom,
      Option.some.injEq] at hs
    have hinside := (hsound.inside _ (by rw [← hs]; exact List.mem_cons_self)).2
    rw [← hs] at hinside
    dsimp only at hinside
    have hbase := h.buffer
    omega
  · simp only [turn, StackAllocator.alloc, StackAllocator.align, if_neg hroom,
      Option.some.injEq] at hs
    rcases hpromise with hsame | ⟨ptr, hlive, -⟩
    · have htop := congrArg (fun s => s.allocator.stacktop) (hs.trans hsame)
      dsimp only at htop
      omega
    · rw [← hs] at hlive
      exact List.cons_ne_self _ _ hlive.symm

/-- An offset or a distance that is cut to 32 bits leads to another state. -/
theorem Kept.free_breaks (h : s.Kept base total) (hmeets : ¬ s.Meets .free)
    (hs : s.turn .free = some s') : ¬ Promised s .free s' := by
  obtain ⟨⟨stackbuffer, stacktop, stackSize⟩, mem, live⟩ := s
  rcases live with _ | ⟨⟨ptr, size, ⟨buffer, old, space⟩⟩, live⟩
  · exact absurd hs (by simp [turn])
  rintro ⟨b, hlive, hback⟩
  obtain ⟨htop, hptr, hbase, hsum', hheader, hrest⟩ := h.chain
  have hlow := hrest.base_le
  obtain rfl : stackbuffer = base := h.buffer
  have hsum := h.sum
  obtain ⟨rfl, -⟩ := List.cons.inj hlive
  obtain rfl := Option.some.inj hs
  have hheader : mem.readWord (ptr - 4) 4 = (old - stackbuffer) % 2 ^ 32 := hheader
  simp only [StackAllocator.free, hheader, StackAllocator.mk.injEq] at hback
  obtain ⟨-, htop', hspace⟩ := hback
  refine hmeets fun b' hb' => ?_
  obtain rfl := Option.some.inj hb'
  dsimp only at *
  omega

theorem decides (htotal : total < 2 ^ 64) :
    Decides turn Promised (fun s s' => s = s' ∧ s.Sound total) (Valid total) Meets
      fun s s' => s = s' ∧ s.Kept base total where
  refines h := ⟨h.1, h.2.sound⟩
  unique h h' := h.1.symm.trans h'.1
  keeps h hvalid hmeets := by
    obtain ⟨rfl, h⟩ := h
    obtain ⟨s', hs, hpromise, hkept⟩ := h.keeps htotal hvalid hmeets
    exact ⟨s', s', hs, hpromise, rfl, hkept⟩
  breaks h hvalid hmeets hs hpromise := by
    obtain ⟨rfl, h⟩ := h
    rintro ⟨rfl, hsound⟩
    rename_i o s'
    cases o with
    | alloc size alignment =>
        obtain ⟨-, e, rfl⟩ := hvalid
        exact h.alloc_breaks hmeets hs hpromise hsound
    | free => exact h.free_breaks hmeets hs hpromise
    | write mem => exact hmeets trivial

/-- Any run of calls in the order of a stack, on a buffer of any size: the discipline holds just
when each block is asked for with room for its header and padding, and freed within 32 bits. -/
theorem disciplineAlong_iff (stackbuffer : Nat) (htotal : total < 2 ^ 64) (mem : Mem)
    {run : List StackOp} (hvalid : ValidAlong total run (start stackbuffer total mem)) :
    DisciplineAlong total run (start stackbuffer total mem) ↔
      MeetsAlong run (start stackbuffer total mem) :=
  (decides htotal).refinesAlong_iff ⟨rfl, kept_start stackbuffer total mem⟩ hvalid

/-- A block of eight bytes in a buffer of twelve. -/
theorem disciplineAlong_eight :
    DisciplineAlong 12 [.alloc 8 4, .free] (start 16 12 fun _ => 0) := by
  have hturn : (start 16 12 fun _ => 0).turn (.alloc 8 4) = some ⟨⟨16, 28, 0⟩,
      Mem.writeWord (fun _ => 0) 16 0 4, [⟨20, 8, .init 16 12⟩]⟩ := rfl
  refine (disciplineAlong_iff 16 (by decide) _ ?_).mpr ?_
  · have hsize : 8 < 2 ^ 64 := by decide
    exact Along.cons hturn ⟨hsize, 2, rfl⟩ ⟨List.cons_ne_nil _ _, fun _ _ => trivial⟩
  · refine Along.cons hturn (by decide : 20 + 8 ≤ 16 + 12) ⟨fun b hb => ?_, fun _ _ => trivial⟩
    obtain rfl := Option.some.inj hb
    decide

/-- A block of eight bytes in a buffer of eight ends four bytes behind it. -/
theorem not_disciplineAlong_fit :
    ValidAlong 8 [.alloc 8 4] (start 16 8 fun _ => 0) ∧
      ¬ DisciplineAlong 8 [.alloc 8 4] (start 16 8 fun _ => 0) := by
  have hsize : 8 < 2 ^ 64 := by decide
  refine ⟨⟨⟨hsize, 2, rfl⟩, fun _ _ => trivial⟩, ?_⟩
  rintro ⟨-, s', s'', hs, hpromise, rfl, hsound⟩
  have hmore : ¬ (start 16 8 fun _ => 0).Meets (.alloc 8 (2 ^ 2)) := by
    change ¬ 20 + 8 ≤ 16 + 8
    decide
  exact (kept_start 16 8 _).alloc_breaks (e := 2) hmore hs hpromise hsound

end StackSession

end Dots

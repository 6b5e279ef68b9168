import Dots.Runtime.Context
import Dots.Runtime.StackAllocator
import Mathlib.Data.List.Perm.Basic

/-!
# `adaptive_object`

Scratch storage from the context's stack allocator, from the queue of chunks, or from the heap.
Objects are destroyed in the reverse order. The heap is what `malloc` gave out and was not freed;
the stack's buffer and the chunks in the queue are part of it.
-/

namespace Dots

open Library

/-- `kFastBinCapacity`. -/
def kFastBinCapacity : Nat := 800

/-- The start and the length of a block. -/
abbrev Extent := Nat × Nat

def Extent.Apart (e e' : Extent) : Prop := e.1 + e.2 ≤ e'.1 ∨ e'.1 + e'.2 ≤ e.1

/-- What `::malloc` is relied on for: a block, apart from those there are. -/
structure LawfulMalloc (malloc : List Extent → Nat → Nat) : Prop where
  ne_null : ∀ heap n, 0 < malloc heap n
  apart : ∀ heap n, ∀ e ∈ heap, Extent.Apart (malloc heap n, n) e

/-- The `type` of an `adaptive_object`. -/
inductive StorageType
  | pool
  | heap
  | stack
deriving DecidableEq

/-- `adaptive_object`, with how many bytes the block at `self` has and the stack allocator it was
constructed on. -/
structure AdaptiveObject where
  type : StorageType
  size : Nat
  self : Option Nat
  bytes : Nat
  before : StackAllocator

/-- What the objects take from: the context's stack and queue, and the heap. The last object
comes first. -/
structure ScratchStorage where
  stack : StackSession
  heap : List Extent
  fastbin : List Nat := []
  objects : List AdaptiveObject := []

inductive ScratchOp
  /-- Whether the queue gives a chunk, if there is one. -/
  | construct (size : Nat) (dequeued : Bool)
  /-- Whether the queue takes a chunk. -/
  | destroy (enqueued : Bool)
  | write (mem : Mem)

namespace ScratchStorage

variable (malloc : List Extent → Nat → Nat)

/-- `context::malloc(alloc_type::fastbin)`. -/
def fastbinMalloc (dequeued : Bool) (s : ScratchStorage) : Nat × ScratchStorage :=
  match dequeued, s.fastbin with
  | true, p :: fastbin => (p, { s with fastbin := fastbin })
  | _, _ =>
      let p := malloc s.heap kFastBinSize
      (p, { s with heap := (p, kFastBinSize) :: s.heap })

/-- `context::free(alloc_type::fastbin, data)`. -/
def fastbinFree (enqueued : Bool) (p : Nat) (s : ScratchStorage) : ScratchStorage :=
  if enqueued then { s with fastbin := s.fastbin ++ [p] }
  else { s with heap := s.heap.erase (p, kFastBinSize) }

/-- The constructor. The difference with the remaining space is unsigned. -/
def construct (size : Nat) (dequeued : Bool) (s : ScratchStorage) : Option ScratchStorage :=
  let before := s.stack.allocator
  if (before.stackSize + 2 ^ 64 - size) % 2 ^ 64 > 1024 then do
    let self := (before.alloc size 4 s.stack.mem).1
    let stack ← s.stack.turn (.alloc size 4)
    some { s with stack := stack, objects := ⟨.stack, size, self, size, before⟩ :: s.objects }
  else if size < kFastBinCapacity then
    let (self, s) := s.fastbinMalloc malloc dequeued
    some { s with objects := ⟨.pool, size, some self, kFastBinSize, before⟩ :: s.objects }
  else
    let self := malloc s.heap size
    some { s with
      heap := (self, size) :: s.heap
      objects := ⟨.heap, size, some self, size, before⟩ :: s.objects }

/-- The destructor of the last object. -/
def destroy (enqueued : Bool) (s : ScratchStorage) : Option ScratchStorage :=
  match s.objects with
  | [] => none
  | o :: objects => do
      let p ← o.self
      match o.type with
      | .pool => some { s.fastbinFree enqueued p with objects := objects }
      | .heap => some { s with heap := s.heap.erase (p, o.bytes), objects := objects }
      | .stack =>
          some { s with
            stack := ⟨s.stack.allocator.free p s.stack.mem, s.stack.mem, s.stack.live.tail⟩
            objects := objects }

def turn (s : ScratchStorage) : ScratchOp → Option ScratchStorage
  | .construct size dequeued => s.construct malloc size dequeued
  | .destroy enqueued => s.destroy enqueued
  | .write mem => some { s with stack := { s.stack with mem := mem } }

end ScratchStorage

/-! ## Valid storage -/

def AdaptiveObject.extent (o : AdaptiveObject) : Extent := (o.self.getD 0, o.bytes)

def StackBlock.extent (b : StackBlock) : Extent := (b.ptr, b.size)

namespace ScratchStorage

/-- Sizes have 64 bits, there is an object to destroy, and the headers of the stack's blocks are
not written. -/
def Valid (s : ScratchStorage) : ScratchOp → Prop
  | .construct size _ => size < 2 ^ 64
  | .destroy _ => s.objects ≠ []
  | .write mem => s.stack.Valid kStackSize (.write mem)

/-- The storage of an object: in the stack's buffer, or a block of the heap. -/
def Owned (s : ScratchStorage) (o : AdaptiveObject) : Prop :=
  match o.type with
  | .stack => s.stack.allocator.stackbuffer ≤ o.extent.1 ∧
      o.extent.1 + o.bytes ≤ s.stack.allocator.stackbuffer + kStackSize
  | _ => o.extent ∈ s.heap

/-- Each object has storage of its size, apart from that of the others and from the blocks that
were on the stack before. -/
structure Sound (older : List StackBlock) (s : ScratchStorage) : Prop where
  storage : ∀ o ∈ s.objects, ∃ p, o.self = some p ∧ 0 < p ∧ o.size ≤ o.bytes
  owned : ∀ o ∈ s.objects, s.Owned o
  apart : (s.objects.map AdaptiveObject.extent ++ older.map StackBlock.extent).Pairwise
    Extent.Apart

/-- An object of the size asked for; the allocator there was before the object. -/
def Promised (s : ScratchStorage) (op : ScratchOp) (s' : ScratchStorage) : Prop :=
  match op with
  | .construct size _ =>
      ∃ o, s'.objects = o :: s.objects ∧ o.size = size ∧ o.before = s.stack.allocator
  | .destroy _ => ∃ o, s.objects = o :: s'.objects ∧ s'.stack.allocator = o.before
  | .write _ => s'.objects = s.objects

/-- The size is not larger than the space that remains, or so large that the difference, which
wraps around, is small again. -/
def Meets (s : ScratchStorage) : ScratchOp → Prop
  | .construct size _ => size ≤ s.stack.allocator.stackSize ∨
      s.stack.allocator.stackSize + 2 ^ 64 ≤ size + 1024
  | _ => True

def ValidAlong (malloc : List Extent → Nat → Nat) : List ScratchOp → ScratchStorage → Prop :=
  Along (turn malloc) Valid

def MeetsAlong (malloc : List Extent → Nat → Nat) : List ScratchOp → ScratchStorage → Prop :=
  Along (turn malloc) Meets

/-- In every state all storage is valid, and every call keeps its promise. -/
def StorageAlong (malloc : List Extent → Nat → Nat) (older : List StackBlock)
    (run : List ScratchOp) (s : ScratchStorage) : Prop :=
  RefinesAlong (turn malloc) Promised (fun s s' => s = s' ∧ s.Sound older) run s s

/-! ## The blocks of the objects -/

/-- The blocks the objects have on the heap. -/
def heapExtents (objects : List AdaptiveObject) : List Extent :=
  (objects.filter fun o => o.type ≠ .stack).map AdaptiveObject.extent

/-- The blocks of the objects lie on the stack in their order, above the older ones. -/
def Stacked (older : List StackBlock) :
    StackAllocator → List StackBlock → List AdaptiveObject → Prop
  | _, live, [] => live = older
  | a, live, o :: objects =>
      (o.type = .stack ∧ ∃ live', live = ⟨o.extent.1, o.bytes, o.before⟩ :: live' ∧
          Stacked older o.before live' objects) ∨
        (o.type ≠ .stack ∧ o.before = a ∧ Stacked older a live objects)

/-- A state in which all storage is valid: the stack is sound, and what the objects and the queue
have are different blocks of the heap. -/
structure Ready (base : Nat) (older : List StackBlock) (s : ScratchStorage) : Prop where
  kept : s.stack.Kept base kStackSize
  stacked : Stacked older s.stack.allocator s.stack.live s.objects
  storage : ∀ o ∈ s.objects, ∃ p, o.self = some p ∧ 0 < p ∧ o.size ≤ o.bytes
  chunk : ∀ o ∈ s.objects, o.type = .pool → o.bytes = kFastBinSize
  heap : ∃ rest, s.heap.Perm (heapExtents s.objects ++
    (s.fastbin.map (fun p => (p, kFastBinSize)) ++ (base, kStackSize) :: rest))
  apart : s.heap.Pairwise Extent.Apart
  positive : ∀ e ∈ s.heap, 0 < e.1

variable {malloc : List Extent → Nat → Nat} {base size : Nat} {older live : List StackBlock}
  {a : StackAllocator} {objects : List AdaptiveObject} {o : AdaptiveObject} {s s' : ScratchStorage}

theorem apart_symm {e e' : Extent} (h : Extent.Apart e e') : Extent.Apart e' e := Or.symm h

theorem heapExtents_cons (hheap : o.type ≠ .stack) (objects : List AdaptiveObject) :
    heapExtents (o :: objects) = o.extent :: heapExtents objects := by
  rw [heapExtents, List.filter_cons_of_pos (by simpa using hheap), List.map_cons]
  rfl

theorem heapExtents_stack (hstack : o.type = .stack) (objects : List AdaptiveObject) :
    heapExtents (o :: objects) = heapExtents objects := by
  rw [heapExtents, List.filter_cons_of_neg (by simpa using hstack)]
  rfl

/-- An object's block is on the stack or on the heap, an older one is on the stack. -/
theorem Stacked.cases (h : Stacked older a live objects) {e : Extent}
    (he : e ∈ objects.map AdaptiveObject.extent ++ older.map StackBlock.extent) :
    e ∈ live.map StackBlock.extent ∨ e ∈ heapExtents objects := by
  induction objects generalizing a live with
  | nil =>
      obtain rfl : live = older := h
      exact Or.inl he
  | cons o objects ih =>
      rcases h with ⟨hstack, live', rfl, hrest⟩ | ⟨hheap, -, hrest⟩
      · rw [heapExtents_stack hstack]
        rcases List.mem_cons.mp he with rfl | he
        · exact Or.inl List.mem_cons_self
        · exact (ih hrest he).imp_left fun hin => List.mem_cons_of_mem _ hin
      · rw [heapExtents_cons hheap]
        rcases List.mem_cons.mp he with rfl | he
        · exact Or.inr List.mem_cons_self
        · exact (ih hrest he).imp_right fun hin => List.mem_cons_of_mem _ hin

/-- Blocks of the stack are apart, blocks of the heap are, and so are any two of both. -/
theorem Stacked.apart (h : Stacked older a live objects)
    (hlive : (live.map StackBlock.extent).Pairwise Extent.Apart)
    (hheap : (heapExtents objects).Pairwise Extent.Apart)
    (hboth : ∀ e ∈ live.map StackBlock.extent, ∀ e' ∈ heapExtents objects, Extent.Apart e e') :
    (objects.map AdaptiveObject.extent ++ older.map StackBlock.extent).Pairwise Extent.Apart := by
  induction objects generalizing a live with
  | nil =>
      obtain rfl : live = older := h
      exact hlive
  | cons o objects ih =>
      rcases h with ⟨hstack, live', rfl, hrest⟩ | ⟨htype, -, hrest⟩
      · rw [heapExtents_stack hstack] at hheap hboth
        rw [List.map_cons, List.pairwise_cons] at hlive
        refine List.Pairwise.cons (fun e he => ?_) (ih hrest hlive.2 hheap fun e he =>
          hboth e (List.mem_cons_of_mem _ he))
        rcases hrest.cases he with hin | hin
        · exact hlive.1 e hin
        · exact hboth _ List.mem_cons_self e hin
      · rw [heapExtents_cons htype] at hheap hboth
        rw [List.pairwise_cons] at hheap
        refine List.Pairwise.cons (fun e he => ?_) (ih hrest hlive hheap.2 fun e he e' he' =>
          hboth e he e' (List.mem_cons_of_mem _ he'))
        rcases hrest.cases he with hin | hin
        · exact apart_symm (hboth e hin _ List.mem_cons_self)
        · exact hheap.1 e hin

/-- The blocks of the heap objects, of the queue and the stack's buffer are apart. -/
theorem Ready.parts (h : s.Ready base older) :
    (heapExtents s.objects).Pairwise Extent.Apart ∧
      ∀ e ∈ heapExtents s.objects, Extent.Apart (base, kStackSize) e := by
  obtain ⟨rest, hperm⟩ := h.heap
  have hall := hperm.pairwise_iff (fun h => apart_symm h) |>.mp h.apart
  rw [List.pairwise_append] at hall
  obtain ⟨hobjects, -, hcross⟩ := hall
  refine ⟨hobjects, fun e he => apart_symm (hcross e he _ ?_)⟩
  exact List.mem_append_right _ List.mem_cons_self

theorem Ready.live_inside (h : s.Ready base older) {e : Extent}
    (he : e ∈ s.stack.live.map StackBlock.extent) :
    base ≤ e.1 ∧ e.1 + e.2 ≤ base + kStackSize := by
  obtain ⟨b, hb, rfl⟩ := List.mem_map.mp he
  have hinside := h.kept.sound.inside b hb
  rw [h.kept.buffer] at hinside
  exact ⟨by dsimp only [StackBlock.extent]; omega, hinside.2⟩

theorem Stacked.mem (h : Stacked older a live objects) (ho : o ∈ objects)
    (hstack : o.type = .stack) : o.extent ∈ live.map StackBlock.extent := by
  induction objects generalizing a live with
  | nil => exact absurd ho List.not_mem_nil
  | cons o' objects ih =>
      rcases h with ⟨-, live', rfl, hrest⟩ | ⟨hheap, -, hrest⟩
      · rcases List.mem_cons.mp ho with rfl | ho
        · exact List.mem_cons_self
        · exact List.mem_cons_of_mem _ (ih hrest ho)
      · rcases List.mem_cons.mp ho with rfl | ho
        · exact absurd hstack hheap
        · exact ih hrest ho

theorem Ready.sound (h : s.Ready base older) : s.Sound older := by
  obtain ⟨hobjects, hbuffer⟩ := h.parts
  refine ⟨h.storage, fun o ho => ?_, h.stacked.apart ?_ hobjects fun e he e' he' => ?_⟩
  · have hin {o' : AdaptiveObject} (ho' : o' ∈ s.objects) (htype : o'.type ≠ .stack) :
        o'.extent ∈ s.heap := by
      obtain ⟨rest, hperm⟩ := h.heap
      refine hperm.mem_iff.mpr (List.mem_append_left _ (List.mem_map_of_mem ?_))
      exact List.mem_filter.mpr ⟨ho', by simpa using htype⟩
    rw [Owned]
    split
    · next hstack =>
        rw [h.kept.buffer]
        exact h.live_inside (h.stacked.mem ho hstack)
    · next hheap => exact hin ho fun hstack => hheap hstack
  · refine List.pairwise_map.mpr (h.kept.chain.apart.imp fun {b b'} hbelow => Or.inr ?_)
    dsimp only [StackBlock.extent]
    omega
  · have hinside := h.live_inside he
    rcases hbuffer e' he' with hout | hout
    · exact Or.inl (hinside.2.trans hout)
    · exact Or.inr (hout.trans hinside.1)

/-! ## Steps -/

theorem alignUp_four_le (ptr : Nat) : StackAllocator.alignUp 4 ptr ≤ ptr + 3 := by
  rw [StackAllocator.alignUp]
  omega

theorem small_kStackSize : kStackSize < 2 ^ 64 := by decide

/-- The stack serves the request: more than a kilobyte remains after it. -/
theorem Ready.construct_stack (h : s.Ready base older) {dequeued : Bool}
    (hspace : size + 1024 < s.stack.allocator.stackSize)
    (hmore : (s.stack.allocator.stackSize + 2 ^ 64 - size) % 2 ^ 64 > 1024) :
    ∃ s', s.turn malloc (.construct size dequeued) = some s' ∧
      Promised s (.construct size dequeued) s' ∧ s'.Ready base older := by
  have hfit : s.stack.Meets (.alloc size (2 ^ 2)) := by
    have hpadding := alignUp_four_le (s.stack.allocator.stacktop + 4)
    change StackAllocator.alignUp 4 (s.stack.allocator.stacktop + 4) + size ≤ _
    omega
  obtain ⟨ptr, stack, hself, hturn, hlive, -, hkept⟩ :=
    h.kept.alloc_block small_kStackSize hfit
  have hptr : 0 < ptr := by
    have hinside := hkept.sound.inside _ (hlive ▸ List.mem_cons_self)
    dsimp only at hinside
    omega
  refine ⟨{ s with
    stack := stack
    objects := ⟨.stack, size, some ptr, size, s.stack.allocator⟩ :: s.objects }, ?_,
    ⟨_, rfl, rfl, rfl⟩, ⟨hkept, Or.inl ⟨rfl, _, hlive, h.stacked⟩, fun o ho => ?_,
      fun o ho hpool => ?_, h.heap, h.apart, h.positive⟩⟩
  · change (s.stack.allocator.alloc size 4 s.stack.mem).1 = some ptr at hself
    change s.stack.turn (.alloc size 4) = some stack at hturn
    rw [turn, construct, if_pos hmore, hself, hturn]
    rfl
  · rcases List.mem_cons.mp ho with rfl | ho
    · exact ⟨ptr, rfl, hptr, le_rfl⟩
    · exact h.storage o ho
  · rcases List.mem_cons.mp ho with rfl | ho
    · exact StorageType.noConfusion hpool
    · exact h.chunk o ho hpool

/-- A block of the heap that neither an object nor the queue has becomes an object's. -/
theorem Ready.construct_block (h : s.Ready base older) {type : StorageType} {p bytes : Nat}
    {heap : List Extent} {fastbin : List Nat} (htype : type ≠ .stack) (hsize : size ≤ bytes)
    (hchunk : type = .pool → bytes = kFastBinSize) (hapart : heap.Pairwise Extent.Apart)
    (hpositive : ∀ e ∈ heap, 0 < e.1)
    (hheap : ∃ rest, heap.Perm ((p, bytes) :: heapExtents s.objects ++
      (fastbin.map (fun p => (p, kFastBinSize)) ++ (base, kStackSize) :: rest))) :
    Ready base older { s with
      heap := heap
      fastbin := fastbin
      objects := ⟨type, size, some p, bytes, s.stack.allocator⟩ :: s.objects } := by
  have hin : (p, bytes) ∈ heap := by
    obtain ⟨rest, hperm⟩ := hheap
    exact hperm.mem_iff.mpr List.mem_cons_self
  refine ⟨h.kept, Or.inr ⟨htype, rfl, h.stacked⟩, fun o ho => ?_, fun o ho hpool => ?_, ?_,
    hapart, hpositive⟩
  · rcases List.mem_cons.mp ho with rfl | ho
    · exact ⟨p, rfl, hpositive _ hin, hsize⟩
    · exact h.storage o ho
  · rcases List.mem_cons.mp ho with rfl | ho
    · exact hchunk hpool
    · exact h.chunk o ho hpool
  · obtain ⟨rest, hperm⟩ := hheap
    refine ⟨rest, ?_⟩
    rwa [heapExtents_cons htype]

/-- A new block of the heap. -/
theorem Ready.construct_malloc (hmalloc : LawfulMalloc malloc) (h : s.Ready base older)
    {type : StorageType} {bytes : Nat} (htype : type ≠ .stack) (hsize : size ≤ bytes)
    (hchunk : type = .pool → bytes = kFastBinSize) :
    Ready base older { s with
      heap := (malloc s.heap bytes, bytes) :: s.heap
      objects := ⟨type, size, some (malloc s.heap bytes), bytes, s.stack.allocator⟩ ::
        s.objects } := by
  refine h.construct_block htype hsize hchunk
    (List.Pairwise.cons (hmalloc.apart s.heap bytes) h.apart) (fun e he => ?_) ?_
  · rcases List.mem_cons.mp he with rfl | he
    · exact hmalloc.ne_null s.heap bytes
    · exact h.positive e he
  · obtain ⟨rest, hperm⟩ := h.heap
    exact ⟨rest, hperm.cons _⟩

theorem fastbinMalloc_objects (malloc : List Extent → Nat → Nat) (dequeued : Bool)
    (s : ScratchStorage) : (s.fastbinMalloc malloc dequeued).2.objects = s.objects := by
  unfold fastbinMalloc
  split <;> rfl

theorem Ready.construct_pool (hmalloc : LawfulMalloc malloc) (h : s.Ready base older)
    (dequeued : Bool) (hsize : size < kFastBinCapacity) :
    Ready base older { (s.fastbinMalloc malloc dequeued).2 with
      objects := ⟨.pool, size, some (s.fastbinMalloc malloc dequeued).1, kFastBinSize,
        s.stack.allocator⟩ :: (s.fastbinMalloc malloc dequeued).2.objects } := by
  have hle : size ≤ kFastBinSize := by
    have hcapacity : kFastBinCapacity ≤ kFastBinSize := by decide
    omega
  have hpool : StorageType.pool ≠ .stack := by decide
  have hnew := h.construct_malloc hmalloc hpool hle fun _ => rfl
  rcases dequeued with _ | _
  · exact hnew
  · rcases hq : s.fastbin with _ | ⟨p, fastbin⟩
    · simp only [fastbinMalloc, hq]
      rwa [hq] at hnew
    · simp only [fastbinMalloc, hq]
      refine h.construct_block hpool hle (fun _ => rfl) h.apart h.positive ?_
      obtain ⟨rest, hperm⟩ := h.heap
      rw [hq] at hperm
      exact ⟨rest, hperm.trans List.perm_middle⟩

theorem Ready.construct (hmalloc : LawfulMalloc malloc) (h : s.Ready base older) {dequeued : Bool}
    (hsize : size < 2 ^ 64) (hmeets : s.Meets (.construct size dequeued)) :
    ∃ s', s.turn malloc (.construct size dequeued) = some s' ∧
      Promised s (.construct size dequeued) s' ∧ s'.Ready base older := by
  have hsum := h.kept.sum
  have hlow := h.kept.chain.base_le
  have hsmall : s.stack.allocator.stackSize ≤ kStackSize := by omega
  have hstack := hsmall.trans_lt small_kStackSize
  by_cases hmore : (s.stack.allocator.stackSize + 2 ^ 64 - size) % 2 ^ 64 > 1024
  · refine h.construct_stack ?_ hmore
    rcases hmeets with hle | hlarge <;> omega
  · rw [turn, ScratchStorage.construct, if_neg hmore]
    by_cases hpool : size < kFastBinCapacity
    · rw [if_pos hpool]
      have hobjects := fastbinMalloc_objects malloc dequeued s
      exact ⟨_, rfl, ⟨_, congrArg _ hobjects, rfl, rfl⟩, h.construct_pool hmalloc dequeued hpool⟩
    · rw [if_neg hpool]
      exact ⟨_, rfl, ⟨_, rfl, rfl, rfl⟩,
        h.construct_malloc hmalloc (by decide) le_rfl (StorageType.noConfusion ·)⟩

/-- The state without the last object, when its storage is back where it came from. -/
theorem Ready.drop (h : s.Ready base older) (hobjects : s.objects = o :: objects)
    {stack : StackSession} {heap : List Extent} {fastbin : List Nat}
    (hkept : stack.Kept base kStackSize)
    (hstacked : Stacked older stack.allocator stack.live objects)
    (hheap : ∃ rest, heap.Perm (heapExtents objects ++
      (fastbin.map (fun p => (p, kFastBinSize)) ++ (base, kStackSize) :: rest)))
    (hsub : heap.Sublist s.heap) : Ready base older ⟨stack, heap, fastbin, objects⟩ where
  kept := hkept
  stacked := hstacked
  storage o ho := h.storage o (hobjects ▸ List.mem_cons_of_mem _ ho)
  chunk o ho := h.chunk o (hobjects ▸ List.mem_cons_of_mem _ ho)
  heap := hheap
  apart := h.apart.sublist hsub
  positive e he := h.positive e (hsub.subset he)

theorem erase_perm {l rest : List Extent} {e : Extent} (h : l.Perm (e :: rest)) :
    (l.erase e).Perm rest := by
  have herase := h.erase e
  rwa [List.erase_cons_head] at herase

theorem Ready.destroy (h : s.Ready base older) (hobjects : s.objects ≠ []) (enqueued : Bool) :
    ∃ s', s.turn malloc (.destroy enqueued) = some s' ∧
      Promised s (.destroy enqueued) s' ∧ s'.Ready base older := by
  rcases hcons : s.objects with _ | ⟨o, objects⟩
  · exact absurd hcons hobjects
  obtain ⟨p, hself, -, -⟩ := h.storage o (hcons ▸ List.mem_cons_self)
  have hextent : o.extent = (p, o.bytes) := by rw [AdaptiveObject.extent, hself]; rfl
  have hstacked := h.stacked
  obtain ⟨rest, hheap⟩ := h.heap
  rw [hcons] at hstacked hheap
  simp only [turn, ScratchStorage.destroy, hcons, hself, Option.bind_eq_bind, Option.bind_some]
  rcases hstacked with ⟨htype, live', hlive, hrest⟩ | ⟨htype, hbefore, hrest⟩
  · -- the block is the last one of the stack
    have hchain := h.kept.chain
    rw [hlive] at hchain
    obtain ⟨htop, hptr, -, hsum, -, hbelow⟩ := hchain
    have hlow := hbelow.base_le
    have htotal := h.kept.sum
    have hsmall : kStackSize < 2 ^ 32 := by decide
    have hmeets : s.stack.Meets .free := by
      intro b hb
      rw [hlive] at hb
      obtain rfl := Option.some.inj hb
      rw [h.kept.buffer]
      dsimp only at *
      omega
    obtain ⟨stack, hturn, ⟨b, hb, hback⟩, hkept⟩ := h.kept.free small_kStackSize
      (hlive ▸ List.cons_ne_nil _ _) hmeets
    have hstack : stack = ⟨s.stack.allocator.free p s.stack.mem, s.stack.mem, live'⟩ := by
      simp only [StackSession.turn, hlive, hextent] at hturn
      exact (Option.some.inj hturn).symm
    have hallocator : stack.allocator = o.before := by
      rw [hback]
      rw [hlive] at hb
      exact congrArg StackBlock.before (List.cons.inj hb).1.symm
    rw [htype]
    refine ⟨_, rfl, ⟨o, hcons, ?_⟩, ?_⟩
    · rw [← hallocator, hstack]
    · rw [hlive, List.tail_cons, ← hstack]
      rw [heapExtents_stack htype] at hheap
      refine h.drop hcons hkept ?_ ⟨rest, hheap⟩ (List.Sublist.refl _)
      rw [hallocator, hstack]
      exact hrest
  · rw [heapExtents_cons htype, hextent] at hheap
    have herase := erase_perm hheap
    rcases htypes : o.type with _ | _ | _
    · have hbytes := h.chunk o (hcons ▸ List.mem_cons_self) htypes
      rw [hbytes] at hheap herase
      cases enqueued with
      | true =>
          refine ⟨_, rfl, ⟨o, hcons, hbefore.symm⟩, h.drop hcons h.kept hrest ⟨rest, ?_⟩
            (List.Sublist.refl _)⟩
          have hqueue : (s.fastbinFree true p).fastbin = s.fastbin ++ [p] := rfl
          rw [hqueue, List.map_append, List.append_assoc]
          refine hheap.trans (List.perm_middle.symm.trans ?_)
          exact List.Perm.append_left _ List.perm_middle.symm
      | false =>
          exact ⟨_, rfl, ⟨o, hcons, hbefore.symm⟩,
            h.drop hcons h.kept hrest ⟨rest, herase⟩ (List.erase_sublist ..)⟩
    · exact ⟨_, rfl, ⟨o, hcons, hbefore.symm⟩,
        h.drop hcons h.kept hrest ⟨rest, herase⟩ (List.erase_sublist ..)⟩
    · exact absurd htypes htype

theorem Ready.keeps (hmalloc : LawfulMalloc malloc) (h : s.Ready base older) {op : ScratchOp}
    (hvalid : s.Valid op) (hmeets : s.Meets op) :
    ∃ s', s.turn malloc op = some s' ∧ Promised s op s' ∧ s'.Ready base older := by
  cases op with
  | construct size dequeued => exact h.construct hmalloc hvalid hmeets
  | destroy enqueued => exact h.destroy hvalid enqueued
  | write mem => exact ⟨_, rfl, rfl, { h with kept := h.kept.write hvalid }⟩

/-- The difference wraps around, and the stack has no room: the object has no storage. -/
theorem not_sound_of_turn {op : ScratchOp} (hvalid : s.Valid op) (hmeets : ¬ s.Meets op)
    (hs : s.turn malloc op = some s') : ¬ s'.Sound older := by
  intro hsound
  cases op with
  | construct size dequeued =>
      simp only [Meets, not_or, not_le] at hmeets
      have hsize : size < 2 ^ 64 := hvalid
      have hmore : (s.stack.allocator.stackSize + 2 ^ 64 - size) % 2 ^ 64 > 1024 := by omega
      have hnull : ¬ size + (StackAllocator.alignUp 4 (s.stack.allocator.stacktop + 4) -
          (s.stack.allocator.stacktop + 4)) ≤ s.stack.allocator.stackSize := by omega
      have hself : (s.stack.allocator.alloc size 4 s.stack.mem).1 = none := by
        simp only [StackAllocator.alloc, StackAllocator.align, if_neg hnull]
      rw [turn, ScratchStorage.construct, if_pos hmore, hself] at hs
      obtain ⟨stack, -, hs⟩ := Option.bind_eq_some_iff.mp hs
      obtain rfl := Option.some.inj hs
      obtain ⟨p, hp, -⟩ := hsound.storage _ List.mem_cons_self
      exact Option.some_ne_none p hp.symm
  | destroy enqueued => exact hmeets trivial
  | write mem => exact hmeets trivial

theorem decides (hmalloc : LawfulMalloc malloc) (base : Nat) (older : List StackBlock) :
    Decides (turn malloc) Promised (fun s s' => s = s' ∧ s.Sound older) Valid Meets
      fun s s' => s = s' ∧ s.Ready base older where
  refines h := ⟨h.1, h.2.sound⟩
  unique h h' := h.1.symm.trans h'.1
  keeps h hvalid hmeets := by
    obtain ⟨rfl, h⟩ := h
    obtain ⟨s', hs, hpromise, hready⟩ := h.keeps hmalloc hvalid hmeets
    exact ⟨s', s', hs, hpromise, rfl, hready⟩
  breaks h hvalid hmeets hs _ := by
    obtain ⟨rfl, h⟩ := h
    rintro ⟨rfl, hsound⟩
    exact not_sound_of_turn hvalid hmeets hs hsound

/-- From any state of the stack, with any blocks on it: constructing and destroying objects keeps
all storage valid just when no object is larger than what remains of the stack, except by so much
that the difference wraps around to at most a kilobyte. -/
theorem storageAlong_iff (hmalloc : LawfulMalloc malloc) (h : s.Ready base older)
    {run : List ScratchOp} (hvalid : ValidAlong malloc run s) :
    StorageAlong malloc older run s ↔ MeetsAlong malloc run s :=
  (decides hmalloc base older).refinesAlong_iff ⟨rfl, h⟩ hvalid

/-! ## A fresh context -/

/-- An address behind all blocks. -/
def freshMalloc (heap : List Extent) (_ : Nat) : Nat :=
  heap.foldr (fun e top => max (e.1 + e.2) top) 1

theorem le_freshMalloc {heap : List Extent} {e : Extent} (he : e ∈ heap) (n : Nat) :
    e.1 + e.2 ≤ freshMalloc heap n := by
  induction heap with
  | nil => exact absurd he List.not_mem_nil
  | cons e' heap ih =>
      rcases List.mem_cons.mp he with rfl | he
      · exact le_max_left ..
      · exact (ih he).trans (le_max_right ..)

theorem lawful_freshMalloc : LawfulMalloc freshMalloc where
  ne_null heap n := by
    induction heap with
    | nil => exact Nat.one_pos
    | cons e heap ih => exact ih.trans_le (le_max_right ..)
  apart heap n e he := Or.inr (le_freshMalloc he n)

/-- The context's stack at address 16, with nothing on it. -/
def fresh : ScratchStorage where
  stack := StackSession.start 16 kStackSize fun _ => 0
  heap := [(16, kStackSize)]

theorem ready_fresh : fresh.Ready 16 [] where
  kept := StackSession.kept_start 16 _ _
  stacked := rfl
  storage _ ho := absurd ho List.not_mem_nil
  chunk _ ho := absurd ho List.not_mem_nil
  heap := ⟨[], List.Perm.refl _⟩
  apart := List.pairwise_singleton ..
  positive e he := by
    obtain rfl := List.mem_singleton.mp he
    decide

theorem storageAlong_hundred : StorageAlong freshMalloc [] [.construct 100 true] fresh := by
  refine (storageAlong_iff lawful_freshMalloc ready_fresh ?_).mpr ?_
  · have hsize : 100 < 2 ^ 64 := by decide
    exact ⟨hsize, fun _ _ => trivial⟩
  · have hroom : 100 ≤ 10000 := by decide
    exact ⟨Or.inl hroom, fun _ _ => trivial⟩

/-- Ten thousand and one bytes of a stack of ten thousand: the object has no storage. -/
theorem not_storageAlong_larger : ValidAlong freshMalloc [.construct 10001 true] fresh ∧
    ¬ StorageAlong freshMalloc [] [.construct 10001 true] fresh := by
  have hsize : 10001 < 2 ^ 64 := by decide
  refine ⟨⟨hsize, fun _ _ => trivial⟩, ?_⟩
  rintro ⟨-, s', s'', hs, -, rfl, hsound⟩
  have hmore : ¬ fresh.Meets (.construct 10001 true) := by
    change ¬ (10001 ≤ 10000 ∨ 10000 + 2 ^ 64 ≤ 10001 + 1024)
    decide
  have hvalid : fresh.Valid (.construct 10001 true) := hsize
  exact not_sound_of_turn hvalid hmore hs hsound

end ScratchStorage

end Dots

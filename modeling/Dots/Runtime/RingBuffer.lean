import Dots.Library.Circular

/-!
# `static_ringbuffer`

The queue over an array of `N` elements. The counters of what was read and written have 64 bits
and only count up; one thread calls it. An access outside the array, a failed assertion and a
loop that runs out of fuel give `none`.
-/

namespace Dots

open Library

/-- `static_ringbuffer<T, N>`, with what is in `data_`. -/
structure RingBuffer (α : Type) where
  data : Nat → α
  readIndex : Nat := 0
  writeIndex : Nat := 0

namespace RingBuffer

variable {α : Type}

/-- The constructor; `junk` is what is in the array. -/
def construct (junk : Nat → α) : RingBuffer α := { data := junk }

/-- `wI - rI`. -/
def size (b : RingBuffer α) : Nat := (b.writeIndex + 2 ^ 64 - b.readIndex) % 2 ^ 64

/-- `ptr`: the index in the array, and the count that is left of the one asked for. -/
def ptr (N position elementsAvailable count : Nat) : Nat × Nat :=
  let index := position % N
  let spaceUntilEnd := N - index
  let continousElementsAvailable := min elementsAvailable spaceUntilEnd
  (index, min count continousElementsAvailable)

def writePtr (N : Nat) (b : RingBuffer α) (count : Nat) : Nat × Nat :=
  ptr N b.writeIndex ((N + 2 ^ 64 - b.size) % 2 ^ 64) count

def readPtr (N : Nat) (b : RingBuffer α) (count : Nat) : Nat × Nat :=
  ptr N b.readIndex b.size count

/-- `ptr_update`, with its assertion. -/
def ptrUpdate (N index position count : Nat) : Option Nat :=
  if index = position % N then some ((position + count) % 2 ^ 64) else none

def writePtrUpdate (N : Nat) (b : RingBuffer α) (index count : Nat) : Option (RingBuffer α) := do
  let writeIndex ← ptrUpdate N index b.writeIndex count
  some { b with writeIndex := writeIndex }

def readPtrUpdate (N : Nat) (b : RingBuffer α) (index count : Nat) : Option (RingBuffer α) := do
  let readIndex ← ptrUpdate N index b.readIndex count
  some { b with readIndex := readIndex }

/-- `memcpy` to the array. -/
def store (N : Nat) (b : RingBuffer α) (index : Nat) (xs : List α) : Option (RingBuffer α) :=
  if index + xs.length ≤ N then some { b with data := place b.data index xs } else none

/-- `memcpy` from the array. -/
def load (N : Nat) (b : RingBuffer α) (index count : Nat) : Option (List α) :=
  if index + count ≤ N then some ((List.range count).map fun i => b.data (index + i)) else none

/-! ## Write access -/

/-- `push_back`. -/
def pushBack (N : Nat) (value : α) (b : RingBuffer α) : Option (Bool × RingBuffer α) :=
  let (writePtr, numElements) := b.writePtr N 1
  if numElements = 0 then some (false, b)
  else do
    let b ← b.store N writePtr [value]
    let b ← b.writePtrUpdate N writePtr 1
    some (true, b)

/-- The body of the loop of `push_range`. -/
def writeBatch (N : Nat) (source : List α) (b : RingBuffer α)
    (writePtr writeBatchSize numElementsWritten : Nat) : Option (RingBuffer α) := do
  let b ← b.store N writePtr ((source.drop numElementsWritten).take writeBatchSize)
  b.writePtrUpdate N writePtr writeBatchSize

/-- `push_range`. -/
def pushRange (N fuel : Nat) (source : List α) (b : RingBuffer α) : Option (Nat × RingBuffer α) :=
  batches (writePtr N) (writeBatch N source) source.length fuel 0 b

/-! ## Read access -/

/-- `pop_front`. -/
def popFront (N : Nat) (b : RingBuffer α) : Option (α × RingBuffer α) :=
  let (readPtr, numElements) := b.readPtr N 1
  if numElements = 1 ∧ readPtr < N then do
    let rest ← b.readPtrUpdate N readPtr numElements
    some (b.data readPtr, rest)
  else none

/-- The body of the loop of `pop_range` with a target; what is copied to it is kept in order. -/
def readBatch (N : Nat) (s : RingBuffer α × List α) (readPtr readBatchSize _numElementsRead : Nat) :
    Option (RingBuffer α × List α) := do
  let xs ← s.1.load N readPtr readBatchSize
  let b ← s.1.readPtrUpdate N readPtr readBatchSize
  some (b, s.2 ++ xs)

/-- `pop_range` to a target of `total` elements, with what it holds then. -/
def popRange (N fuel total : Nat) (b : RingBuffer α) :
    Option (Nat × RingBuffer α × List α) :=
  batches (fun s => s.1.readPtr N) (readBatch N) total fuel 0 (b, [])

/-- `pop_range` of a number of elements. -/
def popRangeCount (N fuel numElements : Nat) (b : RingBuffer α) : Option (Nat × RingBuffer α) :=
  batches (readPtr N) (fun b readPtr readBatchSize _ => b.readPtrUpdate N readPtr readBatchSize)
    numElements fuel 0 b

/-- `front_ptr`: null, or the element pointed to. -/
def frontPtr (N : Nat) (b : RingBuffer α) : Option (Option α) :=
  let (value, numElements) := b.readPtr N 1
  if numElements = 0 then some none
  else if value < N then some (some (b.data value))
  else none

/-- `empty`. -/
def empty (N : Nat) (b : RingBuffer α) : Bool := (b.readPtr N 1).2 = 0

end RingBuffer

inductive RingOp (α : Type)
  | pushBack (value : α)
  | pushRange (source : List α)
  | popFront
  | popRange (total : Nat)
  | popRangeCount (numElements : Nat)
  | frontPtr
  | empty
  | size

/-- What an operation returns. -/
inductive RingResult (α : Type)
  | flag (b : Bool)
  | count (n : Nat)
  | element (x : α)
  | elements (n : Nat) (xs : List α)
  | pointer (x : Option α)
deriving DecidableEq

namespace RingBuffer

variable {α : Type}

def call (N fuel : Nat) (b : RingBuffer α) : RingOp α → Option (RingResult α × RingBuffer α)
  | .pushBack value => (b.pushBack N value).map fun r => (.flag r.1, r.2)
  | .pushRange source => (b.pushRange N fuel source).map fun r => (.count r.1, r.2)
  | .popFront => (b.popFront N).map fun r => (.element r.1, r.2)
  | .popRange total => (b.popRange N fuel total).map fun r => (.elements r.1 r.2.2, r.2.1)
  | .popRangeCount n => (b.popRangeCount N fuel n).map fun r => (.count r.1, r.2)
  | .frontPtr => (b.frontPtr N).map fun r => (.pointer r, b)
  | .empty => some (.flag (b.empty N), b)
  | .size => some (.count b.size, b)

/-- The results of a run, and the buffer after it. -/
def run (N fuel : Nat) : List (RingOp α) → RingBuffer α →
    Option (List (RingResult α) × RingBuffer α)
  | [], b => some ([], b)
  | o :: os, b => do
      let (r, b) ← b.call N fuel o
      let (rs, b) ← run N fuel os b
      some (r :: rs, b)

end RingBuffer

/-! ## The queue the buffer stands for -/

/-- A queue of bounded length, with the number of elements that were ever pushed to it. -/
structure Queue (α : Type) where
  contents : List α := []
  pushed : Nat := 0

namespace Queue

variable {α : Type}

/-- Append the longest prefix of `xs` with which no more than `N` elements are in the queue. -/
def append (N : Nat) (q : Queue α) (xs : List α) : Queue α where
  contents := q.contents ++ xs.take (N - q.contents.length)
  pushed := q.pushed + min xs.length (N - q.contents.length)

/-- Take the first `n` elements off. -/
def remove (q : Queue α) (n : Nat) : Queue α := { q with contents := q.contents.drop n }

/-- What an operation returns and leaves; nothing can be popped from the empty queue. -/
def call (N : Nat) (q : Queue α) : RingOp α → Option (RingResult α × Queue α)
  | .pushBack value => some (.flag (q.contents.length < N), q.append N [value])
  | .pushRange source =>
      some (.count (min source.length (N - q.contents.length)), q.append N source)
  | .popFront => q.contents.head?.map fun x => (.element x, q.remove 1)
  | .popRange total =>
      some (.elements (min total q.contents.length) (q.contents.take total), q.remove total)
  | .popRangeCount n => some (.count (min n q.contents.length), q.remove n)
  | .frontPtr => some (.pointer q.contents.head?, q)
  | .empty => some (.flag q.contents.isEmpty, q)
  | .size => some (.count q.contents.length, q)

def run (N : Nat) : List (RingOp α) → Queue α → Option (List (RingResult α) × Queue α)
  | [], q => some ([], q)
  | o :: os, q => do
      let (r, q) ← q.call N o
      let (rs, q) ← run N os q
      some (r :: rs, q)

end Queue

namespace RingBuffer

variable {α : Type} {N : Nat} {b : RingBuffer α} {q : Queue α}

/-- The window between the counters holds what is in the queue, and the writer's counter is the
number of elements that were pushed. -/
structure Represents (N : Nat) (b : RingBuffer α) (q : Queue α) : Prop where
  ordered : b.writeIndex = b.readIndex + q.contents.length
  bounded : q.contents.length ≤ N
  pushed : b.writeIndex = q.pushed
  contents : window N b.data b.readIndex q.contents.length = q.contents

theorem represents_construct (N : Nat) (junk : Nat → α) : (construct junk).Represents N {} :=
  ⟨rfl, Nat.zero_le _, rfl, rfl⟩

theorem Represents.size_eq (h : b.Represents N q) (hN : N < 2 ^ 64) :
    b.size = q.contents.length := by
  have hordered := h.ordered
  have hbounded := h.bounded
  rw [size]
  omega

theorem Represents.writePtr_eq (h : b.Represents N q) (hN : N < 2 ^ 64) (count : Nat) :
    b.writePtr N count =
      (b.writeIndex % N, min count (min (N - q.contents.length) (N - b.writeIndex % N))) := by
  have hbounded := h.bounded
  have hfree : (N + 2 ^ 64 - q.contents.length) % 2 ^ 64 = N - q.contents.length := by omega
  rw [writePtr, h.size_eq hN, hfree]
  rfl

theorem Represents.readPtr_eq (h : b.Represents N q) (hN : N < 2 ^ 64) (count : Nat) :
    b.readPtr N count =
      (b.readIndex % N, min count (min q.contents.length (N - b.readIndex % N))) := by
  rw [readPtr, h.size_eq hN]
  rfl

/-- A batch is stored behind the elements there are. -/
theorem Represents.store_update (h : b.Represents N q) {xs : List α}
    (hfit : q.contents.length + xs.length ≤ N) (hend : b.writeIndex % N + xs.length ≤ N)
    (hpushed : q.pushed + xs.length < 2 ^ 64) :
    ∃ b', (b.store N (b.writeIndex % N) xs).bind
        (·.writePtrUpdate N (b.writeIndex % N) xs.length) = some b' ∧
      b'.Represents N { contents := q.contents ++ xs, pushed := q.pushed + xs.length } := by
  have hordered := h.ordered
  have hcount := h.pushed
  have hmod : (b.writeIndex + xs.length) % 2 ^ 64 = b.writeIndex + xs.length :=
    Nat.mod_eq_of_lt (by omega)
  refine ⟨{ b with
    data := place b.data (b.writeIndex % N) xs
    writeIndex := b.writeIndex + xs.length }, ?_, ?_, ?_, ?_, ?_⟩
  · rw [store, if_pos hend, Option.bind_some, writePtrUpdate, ptrUpdate, if_pos rfl, hmod]
    rfl
  · change b.writeIndex + xs.length = b.readIndex + (q.contents ++ xs).length
    rw [List.length_append]
    omega
  · rwa [List.length_append]
  · exact congrArg (· + xs.length) hcount
  · change window N (place b.data (b.writeIndex % N) xs) b.readIndex (q.contents ++ xs).length = _
    rw [List.length_append, hordered, window_place _ hfit (hordered ▸ hend), h.contents]

/-- The first elements are behind the reader. -/
theorem Represents.read_update (h : b.Represents N q) (hpushed : q.pushed < 2 ^ 64) {n : Nat}
    (hn : n ≤ q.contents.length) :
    ∃ b', b.readPtrUpdate N (b.readIndex % N) n = some b' ∧ b'.Represents N (q.remove n) ∧
      b'.readIndex = b.readIndex + n := by
  have hordered := h.ordered
  have hcount := h.pushed
  have hbounded := h.bounded
  have hmod : (b.readIndex + n) % 2 ^ 64 = b.readIndex + n := Nat.mod_eq_of_lt (by omega)
  refine ⟨{ b with readIndex := b.readIndex + n }, ?_, ⟨?_, ?_, hcount, ?_⟩, rfl⟩
  · rw [readPtrUpdate, ptrUpdate, if_pos rfl, hmod]
    rfl
  · change b.writeIndex = b.readIndex + n + (q.contents.drop n).length
    rw [List.length_drop]
    omega
  · change (q.contents.drop n).length ≤ N
    rw [List.length_drop]
    omega
  · change window N b.data (b.readIndex + n) (q.contents.drop n).length = q.contents.drop n
    rw [List.length_drop, ← drop_window, h.contents]

theorem Represents.load_eq (h : b.Represents N q) {n : Nat} (hn : n ≤ q.contents.length)
    (hend : b.readIndex % N + n ≤ N) :
    b.load N (b.readIndex % N) n = some (q.contents.take n) := by
  rw [load, if_pos hend, window_batch _ hend, ← take_window _ _ _ hn, h.contents]

/-! ## Transfers -/

/-- The loop of `push_range` appends. -/
theorem Represents.transfers_push (h : b.Represents N q) (hN : N < 2 ^ 64) (source : List α)
    (hpushed : (q.append N source).pushed < 2 ^ 64) :
    Transfers (writePtr N) (writeBatch N source) source.length N b.writeIndex
      (N - q.contents.length) fun done b' => b'.Represents N
        { contents := q.contents ++ source.take done, pushed := q.pushed + done } := by
  have hsum : q.pushed + min source.length (N - q.contents.length) < 2 ^ 64 := hpushed
  have hcount := h.pushed
  have hbounded := h.bounded
  have hlength : ∀ {done : Nat}, done ≤ min source.length (N - q.contents.length) →
      (q.contents ++ source.take done).length = q.contents.length + done := fun {done} hdone => by
    rw [List.length_append, List.length_take]
    omega
  constructor
  · intro b' done hdone hI count
    have hindex : b'.writeIndex = b.writeIndex + done := by
      rw [hI.pushed, hcount]
    rw [hI.writePtr_eq hN, hindex, hlength hdone, Nat.sub_sub]
  · intro b' done batch hdone hend hI
    have hindex : b'.writeIndex = b.writeIndex + done := by
      rw [hI.pushed, hcount]
    have hbatch : ((source.drop done).take batch).length = batch := by
      rw [List.length_take, List.length_drop]
      omega
    have hfit : (q.contents ++ source.take done).length + ((source.drop done).take batch).length
        ≤ N := by
      rw [hlength (by omega), hbatch]
      omega
    have hcounted : q.pushed + done + ((source.drop done).take batch).length < 2 ^ 64 := by omega
    rw [← hindex, ← hbatch] at hend
    obtain ⟨b'', hstore, hb''⟩ := hI.store_update hfit hend hcounted
    rw [hbatch, hindex] at hstore
    refine ⟨b'', hstore, ?_⟩
    rw [hbatch, List.append_assoc, ← List.take_add, Nat.add_assoc] at hb''
    exact hb''

/-- `done` elements were popped from what `b` stands for. -/
structure Popped (N : Nat) (b : RingBuffer α) (q : Queue α) (done : Nat) (b' : RingBuffer α) :
    Prop where
  represents : b'.Represents N (q.remove done)
  readIndex : b'.readIndex = b.readIndex + done

theorem length_remove (q : Queue α) (n : Nat) :
    (q.remove n).contents.length = q.contents.length - n :=
  List.length_drop ..

theorem Popped.readPtr_eq {b' : RingBuffer α} {done : Nat} (h : Popped N b q done b')
    (hN : N < 2 ^ 64) (count : Nat) :
    b'.readPtr N count = ((b.readIndex + done) % N,
      min count (min (q.contents.length - done) (N - (b.readIndex + done) % N))) := by
  rw [h.represents.readPtr_eq hN, length_remove, h.readIndex]

theorem Popped.update {b' : RingBuffer α} {done batch : Nat} (h : Popped N b q done b')
    (hpushed : q.pushed < 2 ^ 64) (hbatch : done + batch ≤ q.contents.length) :
    ∃ b'', b'.readPtrUpdate N ((b.readIndex + done) % N) batch = some b'' ∧
      Popped N b q (done + batch) b'' := by
  have hn : batch ≤ (q.remove done).contents.length := by
    rw [length_remove]
    omega
  obtain ⟨b'', hupdate, hb'', hnext⟩ := h.represents.read_update hpushed hn
  rw [h.readIndex] at hupdate
  rw [Queue.remove, Queue.remove, List.drop_drop] at hb''
  exact ⟨b'', hupdate, hb'', by rw [hnext, h.readIndex, Nat.add_assoc]⟩

/-- The loop of `pop_range` with a target copies the first elements and takes them off. -/
theorem transfers_pop (b : RingBuffer α) (hN : N < 2 ^ 64) (hpushed : q.pushed < 2 ^ 64)
    (total : Nat) :
    Transfers (fun s => readPtr N s.1) (readBatch N) total N b.readIndex q.contents.length
      fun done s => Popped N b q done s.1 ∧ s.2 = q.contents.take done := by
  constructor
  · rintro ⟨b', xs⟩ done - ⟨hI, -⟩ count
    exact hI.readPtr_eq hN count
  · rintro ⟨b', xs⟩ done batch hdone hend ⟨hI, hxs⟩
    have hmore : done + batch ≤ q.contents.length := by omega
    obtain ⟨b'', hupdate, hb''⟩ := hI.update hpushed hmore
    have hload : b'.load N ((b.readIndex + done) % N) batch =
        some ((q.contents.drop done).take batch) := by
      rw [← hI.readIndex] at hend ⊢
      refine hI.represents.load_eq ?_ hend
      rw [length_remove]
      omega
    refine ⟨(b'', xs ++ (q.contents.drop done).take batch), ?_, hb'', ?_⟩
    · rw [readBatch, hload]
      change (b'.readPtrUpdate N _ batch).bind _ = _
      rw [hupdate]
      rfl
    · rw [List.take_add]
      exact congrArg (· ++ _) hxs

/-- The same without a target. -/
theorem transfers_drop (b : RingBuffer α) (hN : N < 2 ^ 64) (hpushed : q.pushed < 2 ^ 64)
    (total : Nat) :
    Transfers (readPtr N) (fun b i n _ => b.readPtrUpdate N i n) total N b.readIndex
      q.contents.length (Popped N b q) := by
  constructor
  · exact fun _ hI count => hI.readPtr_eq hN count
  · exact fun hdone _ hI => hI.update hpushed (by omega)

theorem Represents.popped_zero (h : b.Represents N q) : Popped N b q 0 b := ⟨h, rfl⟩

/-! ## Calls and runs -/

theorem Represents.pushBack (h : b.Represents N q) (hpos : 0 < N) (hN : N < 2 ^ 64) (value : α)
    (hpushed : (q.append N [value]).pushed < 2 ^ 64) :
    ∃ b', b.pushBack N value = some (decide (q.contents.length < N), b') ∧
      b'.Represents N (q.append N [value]) := by
  have hbounded := h.bounded
  have hslot := Nat.mod_lt b.writeIndex hpos
  have hsum : q.pushed + min 1 (N - q.contents.length) < 2 ^ 64 := hpushed
  by_cases hroom : q.contents.length < N
  · have hcounted : q.pushed + [value].length < 2 ^ 64 := by
      change q.pushed + 1 < _
      omega
    have hfit : q.contents.length + [value].length ≤ N := hroom
    obtain ⟨b', hstore, hb'⟩ := h.store_update hfit hslot hcounted
    refine ⟨b', ?_, ?_⟩
    · have hone : min 1 (min (N - q.contents.length) (N - b.writeIndex % N)) = 1 := by omega
      rw [RingBuffer.pushBack, h.writePtr_eq hN, hone]
      obtain ⟨b₁, hb₁, hupdate⟩ := Option.bind_eq_some_iff.mp hstore
      change (b.store N (b.writeIndex % N) [value]).bind _ = _
      rw [hb₁, Option.bind_some]
      change (b₁.writePtrUpdate N (b.writeIndex % N) 1).bind _ = _
      rw [show b₁.writePtrUpdate N (b.writeIndex % N) 1 = some b' from hupdate, Option.bind_some,
        decide_eq_true hroom]
    · have htake : [value].take (N - q.contents.length) = [value] :=
        List.take_of_length_le (by change 1 ≤ _; omega)
      have hmin : min [value].length (N - q.contents.length) = [value].length := by
        change min 1 _ = 1
        omega
      rwa [Queue.append, htake, hmin]
  · refine ⟨b, ?_, ?_⟩
    · have hnone : min 1 (min (N - q.contents.length) (N - b.writeIndex % N)) = 0 := by omega
      rw [RingBuffer.pushBack, h.writePtr_eq hN, hnone, decide_eq_false hroom]
      rfl
    · have hzero : N - q.contents.length = 0 := by omega
      rwa [Queue.append, hzero, List.take_zero, List.append_nil, Nat.min_zero]

theorem Represents.pushRange (h : b.Represents N q) (hpos : 0 < N) (hN : N < 2 ^ 64)
    (source : List α) (hpushed : (q.append N source).pushed < 2 ^ 64) (fuel : Nat) :
    ∃ b', b.pushRange N (fuel + 3) source =
        some (min source.length (N - q.contents.length), b') ∧
      b'.Represents N (q.append N source) := by
  have hstart : b.Represents N
      { contents := q.contents ++ source.take 0, pushed := q.pushed + 0 } := by
    rwa [List.take_zero, List.append_nil]
  obtain ⟨b', hrun, hb'⟩ :=
    (h.transfers_push hN source hpushed).batches_eq hpos (Nat.sub_le ..) hstart fuel
  refine ⟨b', hrun, ?_⟩
  have htake : source.take (min source.length (N - q.contents.length)) =
      source.take (N - q.contents.length) := by
    rw [Nat.min_comm, ← List.take_eq_take_min]
  rwa [htake] at hb'

theorem remove_min (q : Queue α) (n : Nat) :
    q.remove (min n q.contents.length) = q.remove n := by
  rcases Nat.le_total n q.contents.length with hle | hle
  · rw [Nat.min_eq_left hle]
  · rw [Nat.min_eq_right hle, Queue.remove, Queue.remove, List.drop_length,
      List.drop_eq_nil_of_le hle]

theorem Represents.popRange (h : b.Represents N q) (hpos : 0 < N) (hN : N < 2 ^ 64)
    (hpushed : q.pushed < 2 ^ 64) (total fuel : Nat) :
    ∃ b', b.popRange N (fuel + 3) total =
        some (min total q.contents.length, b', q.contents.take total) ∧
      b'.Represents N (q.remove total) := by
  obtain ⟨⟨b', xs⟩, hrun, hb', hxs⟩ := (transfers_pop b hN hpushed total).batches_eq hpos h.bounded
    (s := (b, [])) ⟨h.popped_zero, rfl⟩ fuel
  have htake : xs = q.contents.take total := hxs.trans List.take_eq_take_min.symm
  rw [htake] at hrun
  exact ⟨b', hrun, remove_min q total ▸ hb'.represents⟩

theorem Represents.popRangeCount (h : b.Represents N q) (hpos : 0 < N) (hN : N < 2 ^ 64)
    (hpushed : q.pushed < 2 ^ 64) (n fuel : Nat) :
    ∃ b', b.popRangeCount N (fuel + 3) n = some (min n q.contents.length, b') ∧
      b'.Represents N (q.remove n) := by
  obtain ⟨b', hrun, hb'⟩ :=
    (transfers_drop b hN hpushed n).batches_eq hpos h.bounded h.popped_zero fuel
  exact ⟨b', hrun, remove_min q n ▸ hb'.represents⟩

/-- The reader's slot holds the first element. -/
theorem Represents.head_eq (h : b.Represents N q) (hne : 0 < q.contents.length) :
    q.contents.head? = some (b.data (b.readIndex % N)) := by
  rw [List.head?_eq_getElem?, ← h.contents, getElem?_window _ _ _ hne, Nat.add_zero]

theorem Represents.readPtr_one (h : b.Represents N q) (hpos : 0 < N) (hN : N < 2 ^ 64) :
    b.readPtr N 1 = (b.readIndex % N, min 1 q.contents.length) := by
  have hslot := Nat.mod_lt b.readIndex hpos
  have hone : min 1 (min q.contents.length (N - b.readIndex % N)) = min 1 q.contents.length := by
    omega
  rw [h.readPtr_eq hN, hone]

theorem Represents.popFront (h : b.Represents N q) (hpos : 0 < N) (hN : N < 2 ^ 64)
    (hpushed : q.pushed < 2 ^ 64) {x : α} (hx : q.contents.head? = some x) :
    ∃ b', b.popFront N = some (x, b') ∧ b'.Represents N (q.remove 1) := by
  have hne : 0 < q.contents.length := by
    rcases hnil : q.contents with _ | ⟨y, ys⟩
    · simp [hnil] at hx
    · exact Nat.succ_pos _
  obtain ⟨b', hupdate, hb', -⟩ := h.read_update hpushed hne
  rw [h.head_eq hne] at hx
  refine ⟨b', ?_, hb'⟩
  rw [RingBuffer.popFront, h.readPtr_one hpos hN, Nat.min_eq_left hne]
  refine (if_pos ⟨rfl, Nat.mod_lt _ hpos⟩).trans ?_
  change (b.readPtrUpdate N (b.readIndex % N) 1).bind _ = _
  rw [hupdate, Option.bind_some, Option.some.inj hx]

theorem Represents.frontPtr_eq (h : b.Represents N q) (hpos : 0 < N) (hN : N < 2 ^ 64) :
    b.frontPtr N = some q.contents.head? := by
  rw [frontPtr, h.readPtr_one hpos hN]
  rcases Nat.eq_zero_or_pos q.contents.length with hzero | hne
  · have hnone : min 1 q.contents.length = 0 := by omega
    refine (if_pos hnone).trans ?_
    rw [List.length_eq_zero_iff.mp hzero]
    rfl
  · refine (if_neg (by omega)).trans ((if_pos (Nat.mod_lt _ hpos)).trans ?_)
    rw [h.head_eq hne]

theorem Represents.empty_eq (h : b.Represents N q) (hpos : 0 < N) (hN : N < 2 ^ 64) :
    b.empty N = q.contents.isEmpty := by
  rw [empty, h.readPtr_one hpos hN]
  rcases q.contents with _ | ⟨x, xs⟩
  · rfl
  · have hone : min 1 (x :: xs).length = 1 := Nat.min_eq_left (Nat.succ_pos _)
    exact decide_eq_false (by omega)

theorem pushed_le_call {o : RingOp α} {r : RingResult α} {q' : Queue α}
    (hq : q.call N o = some (r, q')) : q.pushed ≤ q'.pushed := by
  cases o with
  | pushBack value =>
      obtain ⟨-, rfl⟩ := Prod.mk.inj (Option.some.inj hq)
      exact Nat.le_add_right ..
  | pushRange source =>
      obtain ⟨-, rfl⟩ := Prod.mk.inj (Option.some.inj hq)
      exact Nat.le_add_right ..
  | popFront =>
      obtain ⟨x, -, hx⟩ := Option.map_eq_some_iff.mp hq
      obtain ⟨-, rfl⟩ := Prod.mk.inj hx
      exact le_rfl
  | popRange | popRangeCount | frontPtr | empty | size =>
      obtain ⟨-, rfl⟩ := Prod.mk.inj (Option.some.inj hq)
      exact le_rfl

/-- Each call returns what the queue does, and leaves what the queue leaves. -/
theorem Represents.call (h : b.Represents N q) (hpos : 0 < N) (hN : N < 2 ^ 64) (fuel : Nat)
    {o : RingOp α} {r : RingResult α} {q' : Queue α} (hq : q.call N o = some (r, q'))
    (hpushed : q'.pushed < 2 ^ 64) :
    ∃ b', b.call N (fuel + 3) o = some (r, b') ∧ b'.Represents N q' := by
  have hbefore := (pushed_le_call hq).trans_lt hpushed
  cases o with
  | pushBack value =>
      obtain ⟨rfl, rfl⟩ := Prod.mk.inj (Option.some.inj hq)
      obtain ⟨b', hrun, hb'⟩ := h.pushBack hpos hN value hpushed
      exact ⟨b', congrArg (Option.map _) hrun, hb'⟩
  | pushRange source =>
      obtain ⟨rfl, rfl⟩ := Prod.mk.inj (Option.some.inj hq)
      obtain ⟨b', hrun, hb'⟩ := h.pushRange hpos hN source hpushed fuel
      exact ⟨b', congrArg (Option.map _) hrun, hb'⟩
  | popFront =>
      obtain ⟨x, hx, hr⟩ := Option.map_eq_some_iff.mp hq
      obtain ⟨rfl, rfl⟩ := Prod.mk.inj hr
      obtain ⟨b', hrun, hb'⟩ := h.popFront hpos hN hbefore hx
      exact ⟨b', congrArg (Option.map _) hrun, hb'⟩
  | popRange total =>
      obtain ⟨rfl, rfl⟩ := Prod.mk.inj (Option.some.inj hq)
      obtain ⟨b', hrun, hb'⟩ := h.popRange hpos hN hbefore total fuel
      exact ⟨b', congrArg (Option.map _) hrun, hb'⟩
  | popRangeCount n =>
      obtain ⟨rfl, rfl⟩ := Prod.mk.inj (Option.some.inj hq)
      obtain ⟨b', hrun, hb'⟩ := h.popRangeCount hpos hN hbefore n fuel
      exact ⟨b', congrArg (Option.map _) hrun, hb'⟩
  | frontPtr =>
      obtain ⟨rfl, rfl⟩ := Prod.mk.inj (Option.some.inj hq)
      exact ⟨b, congrArg (Option.map _) (h.frontPtr_eq hpos hN), h⟩
  | empty =>
      obtain ⟨rfl, rfl⟩ := Prod.mk.inj (Option.some.inj hq)
      refine ⟨b, ?_, h⟩
      rw [RingBuffer.call, h.empty_eq hpos hN]
  | size =>
      obtain ⟨rfl, rfl⟩ := Prod.mk.inj (Option.some.inj hq)
      refine ⟨b, ?_, h⟩
      rw [RingBuffer.call, h.size_eq hN]

theorem pushed_le_run {os : List (RingOp α)} {rs : List (RingResult α)} {q' : Queue α}
    (hq : Queue.run N os q = some (rs, q')) : q.pushed ≤ q'.pushed := by
  induction os generalizing q rs with
  | nil =>
      obtain ⟨-, rfl⟩ := Prod.mk.inj (Option.some.inj hq)
      exact le_rfl
  | cons o os ih =>
      obtain ⟨⟨r, q₁⟩, hcall, hrest⟩ := Option.bind_eq_some_iff.mp hq
      obtain ⟨⟨rs', q₂⟩, hrun, hend⟩ := Option.bind_eq_some_iff.mp hrest
      obtain ⟨-, rfl⟩ := Prod.mk.inj (Option.some.inj hend)
      exact (pushed_le_call hcall).trans (ih hrun)

theorem Represents.run (h : b.Represents N q) (hpos : 0 < N) (hN : N < 2 ^ 64) (fuel : Nat)
    {os : List (RingOp α)} {rs : List (RingResult α)} {q' : Queue α}
    (hq : Queue.run N os q = some (rs, q')) (hpushed : q'.pushed < 2 ^ 64) :
    ∃ b', RingBuffer.run N (fuel + 3) os b = some (rs, b') ∧ b'.Represents N q' := by
  induction os generalizing b q rs with
  | nil =>
      obtain ⟨rfl, rfl⟩ := Prod.mk.inj (Option.some.inj hq)
      exact ⟨b, rfl, h⟩
  | cons o os ih =>
      obtain ⟨⟨r, q₁⟩, hcall, hrest⟩ := Option.bind_eq_some_iff.mp hq
      obtain ⟨⟨rs', q₂⟩, hrun, hend⟩ := Option.bind_eq_some_iff.mp hrest
      obtain ⟨rfl, rfl⟩ := Prod.mk.inj (Option.some.inj hend)
      obtain ⟨b₁, hb, hb₁⟩ := h.call hpos hN fuel hcall ((pushed_le_run hrun).trans_lt hpushed)
      obtain ⟨b', hb', hq'⟩ := ih hb₁ hrun
      refine ⟨b', ?_, hq'⟩
      rw [RingBuffer.run, hb]
      change (RingBuffer.run N (fuel + 3) os b₁).bind _ = _
      rw [hb']
      rfl

/-- Any run in which the queue is not popped when it is empty: no access leaves the array, three
turns of each loop are enough, and the results and what is left are those of the queue. -/
theorem run_queue {N : Nat} (hpos : 0 < N) (hN : N < 2 ^ 64) (junk : Nat → α) {fuel : Nat}
    (hfuel : 3 ≤ fuel) {os : List (RingOp α)} {rs : List (RingResult α)} {q : Queue α}
    (hq : Queue.run N os {} = some (rs, q)) (hpushed : q.pushed < 2 ^ 64) :
    ∃ b, run N fuel os (construct junk) = some (rs, b) ∧ b.Represents N q := by
  obtain ⟨k, rfl⟩ := Nat.exists_eq_add_of_le' hfuel
  exact (represents_construct N junk).run hpos hN k hq hpushed

/-- Four elements to a buffer of three; then two are taken off and two pushed across the end. -/
theorem run_queue_wrapped :
    ∃ b : RingBuffer Nat, run 3 3
        [.pushRange [1, 2, 3, 4], .popRange 2, .pushRange [5, 6], .popRangeCount 1, .frontPtr]
        (construct fun _ => 0) =
        some ([.count 3, .elements 2 [1, 2], .count 2, .count 1, .pointer (some 5)], b) ∧
      b.Represents 3 { contents := [5, 6], pushed := 5 } :=
  run_queue (by decide) (by decide) _ le_rfl rfl (by decide)

end RingBuffer

end Dots

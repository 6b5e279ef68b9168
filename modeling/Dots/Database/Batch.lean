import Dots.Database.World
import Mathlib.Algebra.BigOperators.Group.List.Basic

/-!
# Batching an array of entities

`world::batch` cuts an array into runs of consecutive slots. The loop over a batch
starts with `begin`, which always claims to be valid, and goes on while `next`
reports that something is left of the array.
-/

namespace Dots

/-- The `chunk_slice` of a batch iterator. Its chunk pointer is the one of a table
entry, taken as it stands; the null pointer is the entry with all bits zero. -/
structure SlotRun where
  c : Location
  start : Nat
  count : Nat
  deriving DecidableEq, Repr

/-- `chunk_slice::chunk_slice()`. -/
def SlotRun.null : SlotRun where
  c := .nextFree 0
  start := 0
  count := 0

/-- `batch_iter`; `es` is what is left of the array from `i` on. -/
structure BatchIter where
  es : List Entity
  s : SlotRun := SlotRun.null
  deriving DecidableEq, Repr

namespace World

/-- The loop of `world::next`, with the `n` slots the run has so far. The slots of
one run are different 24-bit numbers, so `start.i + n` does not wrap. -/
def nextLoop (w : World) (start : EntityData) : Nat → List Entity → Nat × List Entity
  | n, [] => (n, [])
  | n, e :: es =>
      let curr := w.ents.datas e.id
      if curr.i ≠ start.i + n ∨ curr.c ≠ start.c then (n, e :: es)
      else w.nextLoop start (n + 1) es

/-- `world::next`. -/
def next (w : World) (iter : BatchIter) : BatchIter × Bool :=
  match iter.es with
  | [] => (iter, false)
  | e :: es =>
      let start := w.ents.datas e.id
      let (n, rest) := w.nextLoop start 1 es
      ({ es := rest, s := { c := start.c, start := start.i, count := n } }, !rest.isEmpty)

/-- `world::iter`. -/
def iter (w : World) (es : List Entity) : BatchIter := (w.next { es := es }).1

theorem nextLoop_length (w : World) (start : EntityData) (n : Nat) (es : List Entity) :
    (w.nextLoop start n es).1 + (w.nextLoop start n es).2.length = n + es.length := by
  induction es generalizing n with
  | nil => simp [nextLoop]
  | cons e es ih =>
      simp only [nextLoop]
      split
      · simp
      · rw [ih]
        simp only [List.length_cons]
        omega

theorem le_nextLoop (w : World) (start : EntityData) (n : Nat) (es : List Entity) :
    n ≤ (w.nextLoop start n es).1 := by
  induction es generalizing n with
  | nil => simp [nextLoop]
  | cons e es ih =>
      simp only [nextLoop]
      split
      · simp
      · exact Nat.le_of_succ_le (ih (n + 1))

/-- A call of `next` on a non-empty array takes at least one entity, and what it
takes is what it puts into the slice. -/
theorem next_count (w : World) {iter : BatchIter} (h : iter.es ≠ []) :
    0 < (w.next iter).1.s.count ∧
      (w.next iter).1.s.count + (w.next iter).1.es.length = iter.es.length := by
  obtain ⟨es, s⟩ := iter
  cases es with
  | nil => exact absurd rfl h
  | cons e es =>
      have hle := w.le_nextLoop (w.ents.datas e.id) 1 es
      have hlen := w.nextLoop_length (w.ents.datas e.id) 1 es
      simp only [next, List.length_cons]
      omega

/-- `next` reports whether something is left. -/
theorem next_snd (w : World) (iter : BatchIter) :
    (w.next iter).2 = !(w.next iter).1.es.isEmpty := by
  obtain ⟨es, s⟩ := iter
  cases es <;> simp [next]

theorem next_length_lt (w : World) {iter : BatchIter} (h : (w.next iter).2 = true) :
    (w.next iter).1.es.length < iter.es.length := by
  have hne : iter.es ≠ [] := by
    intro h0
    simp [next, h0] at h
  have := w.next_count hne
  omega

/-- The slices the body of a range-based `for` sees, from an iterator that compares
unequal to `end()`: the slice of the iterator, then those after `operator++`. -/
def batchFrom (w : World) (iter : BatchIter) : List SlotRun :=
  iter.s :: if _h : (w.next iter).2 then w.batchFrom (w.next iter).1 else []
termination_by iter.es.length
decreasing_by exact w.next_length_lt _h

/-- `for (auto s : world.batch(es, n))` on the first `n` entities of an array. -/
def batch (w : World) (es : List Entity) : List SlotRun := w.batchFrom (w.iter es)

/-- A loop that still has entities in front of it never shows all of them: the
slice that takes the last one is found by a call of `next` that ends the loop. -/
theorem batchFrom_count_lt (w : World) (iter : BatchIter) (h : iter.es ≠ []) :
    ((w.batchFrom iter).map SlotRun.count).sum < iter.s.count + iter.es.length := by
  induction iter using batchFrom.induct w with
  | case1 iter ih =>
      rw [batchFrom]
      obtain ⟨hpos, hlen⟩ := w.next_count h
      by_cases hn : (w.next iter).2 = true
      · have hne : (w.next iter).1.es ≠ [] := by
          rw [next_snd] at hn
          simpa using hn
        have := ih hn hne
        simp only [hn, dite_true, List.map_cons, List.sum_cons]
        omega
      · have : 0 < iter.es.length := List.length_pos_iff.mpr h
        simp only [hn, List.map_cons, List.sum_cons]
        simpa using this

/-- The entities of an array fill the slots of `c` from `i` on, in order. -/
def SlotsFrom (w : World) (c : Location) : Nat → List Entity → Prop
  | _, [] => True
  | i, e :: es =>
      (w.ents.datas e.id).c = c ∧ (w.ents.datas e.id).i = i ∧ w.SlotsFrom c (i + 1) es

/-- A table entry is live: it leads to a slot in use that holds the handle. -/
structure Live (w : World) (e : Entity) : Prop where
  exist : w.ents.exist e = true
  slot : ∃ c, (w.ents.datas e.id).c = .chunk c ∧
    (w.ents.datas e.id).i < w.store.count c ∧
    w.memory.entityAt c (w.ents.datas e.id).i = e

/-- `next` takes the whole array exactly when the array is one run. -/
theorem nextLoop_eq_nil_iff (w : World) (start : EntityData) (n : Nat) (es : List Entity) :
    (w.nextLoop start n es).2 = [] ↔ w.SlotsFrom start.c (start.i + n) es := by
  induction es generalizing n with
  | nil => simp [nextLoop, SlotsFrom]
  | cons e es ih =>
      simp only [nextLoop, SlotsFrom]
      split
      · rename_i h
        constructor
        · intro h'
          simp at h'
        · rintro ⟨hc, hi, -⟩
          exact absurd h (by simp [hc, hi])
      · rename_i h
        simp only [not_or, not_not] at h
        rw [ih, Nat.add_assoc]
        simp [h.1, h.2]

/-- The entities of a run, read off the chunk. -/
def runHandles (w : World) (s : SlotRun) : List Entity :=
  match s.c with
  | .chunk c => w.handles { c := c, start := s.start, count := s.count }
  | _ => []

/-- A non-empty slice of slots in use of one chunk. -/
def ValidRun (w : World) (s : SlotRun) : Prop :=
  ∃ c, s.c = .chunk c ∧ 0 < s.count ∧ s.start + s.count ≤ w.store.count c

/-- The loop over a batch loses nothing. -/
structure Batches (w : World) (es : List Entity) : Prop where
  valid : ∀ s ∈ w.batch es, w.ValidRun s
  flatten : (w.batch es).flatMap w.runHandles = es

theorem length_runHandles_le (w : World) (s : SlotRun) : (w.runHandles s).length ≤ s.count := by
  unfold runHandles
  split <;> simp [handles]

theorem length_flatMap_runHandles_le (w : World) (ss : List SlotRun) :
    (ss.flatMap w.runHandles).length ≤ (ss.map SlotRun.count).sum := by
  induction ss with
  | nil => simp
  | cons s ss ih =>
      have := w.length_runHandles_le s
      simp only [List.flatMap_cons, List.length_append, List.map_cons, List.sum_cons]
      omega

/-- The entities a loop over a batch shows are too few as soon as `begin` leaves
something of the array. -/
theorem not_batches (w : World) {es : List Entity} (h : (w.iter es).es ≠ []) :
    ¬ w.Batches es := by
  intro hb
  have hne : es ≠ [] := by
    rintro rfl
    exact h rfl
  have hlt := w.batchFrom_count_lt (w.iter es) h
  have hlen : (w.iter es).s.count + (w.iter es).es.length = es.length :=
    (@next_count w ⟨es, SlotRun.null⟩ hne).2
  have hle := w.length_flatMap_runHandles_le (w.batch es)
  rw [hb.flatten, batch] at hle
  omega

/-- On live entities in consecutive slots the handles of the slots are the entities. -/
theorem handles_of_slotsFrom (w : World) {c : ChunkId} {es : List Entity}
    (hlive : ∀ e ∈ es, w.Live e) :
    ∀ {i : Nat}, w.SlotsFrom (.chunk c) i es →
      w.handles { c := c, start := i, count := es.length } = es := by
  induction es with
  | nil =>
      intro i _
      simp [handles]
  | cons e es ih =>
      rintro i ⟨hc, hi, hes⟩
      obtain ⟨c', hc', -, hat⟩ := (hlive e List.mem_cons_self).slot
      obtain rfl : c = c' := by simpa using hc.symm.trans hc'
      have htail := ih (fun f hf => hlive f (List.mem_cons_of_mem e hf)) hes
      have hfun : ((fun j => w.memory.entityAt c (i + j)) ∘ Nat.succ) =
          fun j => w.memory.entityAt c (i + 1 + j) := by
        funext j
        simp only [Function.comp_apply]
        rw [show i + j.succ = i + 1 + j by omega]
      simp only [handles] at htail ⊢
      rw [List.length_cons, List.range_succ_eq_map, List.map_cons, List.map_map, hfun, htail,
        Nat.add_zero, ← hi, hat]

theorem bound_of_slotsFrom (w : World) {c : ChunkId} {es : List Entity}
    (hlive : ∀ e ∈ es, w.Live e) :
    ∀ {i : Nat}, es ≠ [] → w.SlotsFrom (.chunk c) i es →
      i + es.length ≤ w.store.count c := by
  induction es with
  | nil =>
      intro i h
      exact absurd rfl h
  | cons e es ih =>
      rintro i - ⟨hc, hi, hes⟩
      obtain ⟨c', hc', hlt, -⟩ := (hlive e List.mem_cons_self).slot
      obtain rfl : c = c' := by simpa using hc.symm.trans hc'
      rw [List.length_cons]
      by_cases hnil : es = []
      · subst hnil
        simp only [List.length_nil]
        omega
      · have := ih (fun f hf => hlive f (List.mem_cons_of_mem e hf)) hnil hes
        omega

/-- An array that is one run is batched as that run. -/
theorem batch_of_slotsFrom (w : World) {e : Entity} {es : List Entity}
    (h : w.SlotsFrom (w.ents.datas e.id).c (w.ents.datas e.id).i (e :: es)) :
    w.batch (e :: es) =
      [{ c := (w.ents.datas e.id).c
         start := (w.ents.datas e.id).i
         count := es.length + 1 }] := by
  have hnil := (w.nextLoop_eq_nil_iff (w.ents.datas e.id) 1 es).mpr h.2.2
  have hlen := w.nextLoop_length (w.ents.datas e.id) 1 es
  rw [hnil, List.length_nil] at hlen
  rw [batch, batchFrom]
  simp only [iter, next, hnil]
  simp
  omega

/-- For live entities, the loop over a batch loses nothing exactly when the array is
one run of consecutive slots. -/
theorem batches_iff (w : World) (es : List Entity) (hlive : ∀ e ∈ es, w.Live e) :
    w.Batches es ↔ es ≠ [] ∧ ∃ c i, w.SlotsFrom c i es := by
  constructor
  · intro hb
    cases es with
    | nil =>
        obtain ⟨c, hc, -⟩ := hb.valid SlotRun.null (by
          rw [batch, batchFrom]
          exact List.mem_cons_self)
        simp [SlotRun.null] at hc
    | cons e es =>
        have hnil : (w.nextLoop (w.ents.datas e.id) 1 es).2 = [] := by
          by_contra h
          exact @not_batches w (e :: es) h hb
        have := (w.nextLoop_eq_nil_iff (w.ents.datas e.id) 1 es).mp hnil
        exact ⟨by simp, _, _, rfl, rfl, this⟩
  · rintro ⟨hne, c, i, hes⟩
    cases es with
    | nil => exact absurd rfl hne
    | cons e es =>
        obtain ⟨d, hd, -⟩ := (hlive e List.mem_cons_self).slot
        obtain ⟨hc, hi, -⟩ := id hes
        have hcd : c = .chunk d := hc.symm.trans hd
        rw [hcd] at hes
        have hrun : w.SlotsFrom (w.ents.datas e.id).c (w.ents.datas e.id).i (e :: es) := by
          rw [hd, hi]
          exact hes
        have hb := w.batch_of_slotsFrom hrun
        rw [hd, hi] at hb
        constructor
        · intro s hs
          rw [hb, List.mem_singleton] at hs
          subst hs
          exact ⟨d, rfl, by simp, w.bound_of_slotsFrom hlive hne hes⟩
        · rw [hb, List.flatMap_singleton]
          exact w.handles_of_slotsFrom hlive hes

/-- A new world after `allocate` of two entities of the empty type. -/
def twoEntities : Option World :=
  ((initial 1 (fun _ => 0) (fun _ _ => 0) fun _ => []).allocate
    (Context.initial false) 2 {} 2).map Prod.fst

/-- What `allocate` leaves: both entities are in chunk 0, in order. -/
theorem twoEntities_spec : ∃ w, twoEntities = some w ∧
    w.Live ⟨0⟩ ∧ w.Live ⟨2 ^ 8⟩ ∧ w.SlotsFrom (.chunk 0) 0 [⟨0⟩, ⟨2 ^ 8⟩] ∧
    (w.iter [⟨2 ^ 8⟩, ⟨0⟩]).es = [⟨0⟩] := by
  refine ⟨twoEntities.get (by decide +kernel), Option.some_get _ |>.symm, ?_, ?_, ?_, ?_⟩
  · exact ⟨by decide +kernel, 0, by decide +kernel, by decide +kernel, by decide +kernel⟩
  · exact ⟨by decide +kernel, 0, by decide +kernel, by decide +kernel, by decide +kernel⟩
  · exact ⟨by decide +kernel, by decide +kernel, by decide +kernel, by decide +kernel, trivial⟩
  · decide +kernel

/-- The loop over the two entities in the order of their slots loses nothing. -/
theorem batches_twoEntities : ∃ w, twoEntities = some w ∧ w.Batches [⟨0⟩, ⟨2 ^ 8⟩] := by
  obtain ⟨w, hw, h0, h1, hrun, -⟩ := twoEntities_spec
  refine ⟨w, hw, (w.batches_iff _ ?_).mpr ⟨by simp, _, _, hrun⟩⟩
  simpa using ⟨h0, h1⟩

/-- In the other order the array is two runs, and the loop never shows the second. -/
theorem not_batches_twoEntities : ∃ w, twoEntities = some w ∧
    (∀ e ∈ [(⟨2 ^ 8⟩ : Entity), ⟨0⟩], w.Live e) ∧ [(⟨2 ^ 8⟩ : Entity), ⟨0⟩].Nodup ∧
    ¬ w.Batches [⟨2 ^ 8⟩, ⟨0⟩] := by
  obtain ⟨w, hw, h0, h1, -, hiter⟩ := twoEntities_spec
  refine ⟨w, hw, by simpa using ⟨h1, h0⟩, by decide, w.not_batches ?_⟩
  rw [hiter]
  decide

end World

end Dots

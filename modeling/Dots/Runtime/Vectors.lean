import Dots.Library.Refinement
import Dots.Runtime.ChunkVector

/-!
# Several vectors

A run of operations on vectors that are moved to, assigned and copied from one another. The
capacity of a table stays with the object when the table goes to another one, so a run keeps what
the elements are read as only while no table that has outgrown its first block is handed over.
-/

namespace Dots

open Library ChunkVector

/-- The vectors there are, by name. -/
abbrev Vectors := Nat → Option ChunkVector

inductive VectorOp
  | create (i : Nat)
  | push (i : Nat) (x : List UInt8)
  | pop (i : Nat)
  | resize (i n : Nat)
  | reserve (i n : Nat)
  | reset (i : Nat)
  | moveConstruct (i j : Nat)
  | moveAssign (i j : Nat)
  | copyConstruct (i j : Nat)

namespace Vectors

/-- A member function of the vector `i`. -/
def call (s : Vectors) (i : Nat) (f : ChunkVector → Option ChunkVector) : Option Vectors := do
  let v ← s i
  let v ← f v
  some (Function.update s i (some v))

/-- One operation; the elements have `sizeofT` bytes. -/
def step (sizeofT : Nat) (junk : Nat → Mem) (s : Vectors) : VectorOp → Option Vectors
  | .create i => some (Function.update s i (some {}))
  | .push i x => s.call i (ChunkVector.push sizeofT junk x)
  | .pop i => s.call i (ChunkVector.pop sizeofT)
  | .resize i n => s.call i (ChunkVector.resize sizeofT junk n)
  | .reserve i n => s.call i (ChunkVector.reserve sizeofT junk n)
  | .reset i => s.call i ChunkVector.reset
  | .moveConstruct i j => do
      let r ← s j
      some (Function.update (Function.update s i (some r.moveConstruct)) j (some r.moved))
  | .moveAssign i j => do
      let s ← s.call i ChunkVector.reset
      let v ← s i
      let r ← s j
      let s := Function.update s i (some (v.moveAssign r))
      let r ← s j
      some (Function.update s j (some r.moved))
  | .copyConstruct i j => do
      let r ← s j
      let v ← r.copyConstruct
      some (Function.update s i (some v))

/-! ## The lists the vectors stand for -/

/-- The lists there are, by name. -/
abbrev Lists := Nat → Option (List (List UInt8))

/-- What the operation does to the lists. What a growing `resize` adds may be anything. -/
def ListStep (L : Lists) : VectorOp → Lists → Prop
  | .create i, L' => L' = Function.update L i (some [])
  | .push i x, L' => ∃ l, L i = some l ∧ L' = Function.update L i (some (l ++ [x]))
  | .pop i, L' => ∃ l, L i = some l ∧ L' = Function.update L i (some l.dropLast)
  | .resize i n, L' => ∃ l l', L i = some l ∧ l'.length = n ∧
      (∀ k < n, k < l.length → l'[k]? = l[k]?) ∧ L' = Function.update L i (some l')
  | .reserve _ _, L' => L' = L
  | .reset i, L' => L' = Function.update L i (some [])
  | .moveConstruct i j, L' => ∃ l, L j = some l ∧
      L' = Function.update (Function.update L i (some l)) j (some [])
  | .moveAssign i j, L' => ∃ l, L j = some l ∧
      L' = Function.update (Function.update L i (some l)) j (some [])
  | .copyConstruct i j, L' => ∃ l, L j = some l ∧ L' = Function.update L i (some l)

/-- The elements are those of the lists, and the capacity is the size of the block. -/
structure Refines (sizeofT : Nat) (s : Vectors) (L : Lists) : Prop where
  elements : ∀ i, Option.Rel (Holds sizeofT) (s i) (L i)
  capacity : ∀ i v, s i = some v → ∀ t, v.data = some t → t.bytes = v.chunkCapacity

/-- A constructor makes a new object, the rest is called on one that is there. -/
def Valid (sizeofT : Nat) (s : Vectors) : VectorOp → Prop
  | .create i => s i = none
  | .push i x => s i ≠ none ∧ x.length = sizeofT
  | .pop i => ∃ v, s i = some v ∧ 0 < v.size
  | .resize i _ => s i ≠ none
  | .reserve i _ => s i ≠ none
  | .reset i => s i ≠ none
  | .moveConstruct i j => s i = none ∧ s j ≠ none
  | .moveAssign i j => s i ≠ none ∧ s j ≠ none
  | .copyConstruct i j => s i = none ∧ s j ≠ none

/-- A vector without a table grows only if its capacity is that of a first block, a table is
handed over only to an object of the same capacity. -/
def Meets (s : Vectors) : VectorOp → Prop
  | .push i _ => ∀ v, s i = some v → v.Fresh
  | .resize i n => ∀ v, s i = some v → 0 < n → v.Fresh
  | .reserve i n => ∀ v, s i = some v → 0 < n → v.Fresh
  | .moveConstruct _ j => ∀ r, s j = some r → r.data ≠ none → r.chunkCapacity = kFastBinSize
  | .moveAssign i j => i = j ∨ ∀ v r, s i = some v → s j = some r → r.data ≠ none →
      v.chunkCapacity = r.chunkCapacity
  | .copyConstruct _ j => ∀ r, s j = some r → 0 < r.chunkSize → r.chunkCapacity = kFastBinSize
  | _ => True

/-- An operation with what is in the chunks it takes from the pool. -/
abbrev VectorTurn := VectorOp × (Nat → Mem)

def turn (sizeofT : Nat) (s : Vectors) (o : VectorTurn) : Option Vectors := s.step sizeofT o.2 o.1

def ValidAlong (sizeofT : Nat) : List VectorTurn → Vectors → Prop :=
  Along (turn sizeofT) fun s o => s.Valid sizeofT o.1

def MeetsAlong (sizeofT : Nat) : List VectorTurn → Vectors → Prop :=
  Along (turn sizeofT) fun s o => s.Meets o.1

/-- No operation leaves a block, and the vectors refine the lists in every state. -/
def ListsAlong (sizeofT : Nat) : List VectorTurn → Vectors → Lists → Prop :=
  RefinesAlong (turn sizeofT) (fun L o => ListStep L o.1) (Refines sizeofT)

/-! ## Steps that meet the condition -/

variable {sizeofT i j n : Nat} {s s' : Vectors} {L L' : Lists} {op : VectorOp} {junk : Nat → Mem}
  {v v' r : ChunkVector} {l l' : List (List UInt8)}

/-- Every vector is sound and holds its list. -/
def Tracks (sizeofT : Nat) (s : Vectors) (L : Lists) : Prop :=
  ∀ i, Option.Rel (fun v l => v.Good sizeofT ∧ v.Holds sizeofT l) (s i) (L i)

theorem Tracks.exists_list (h : s.Tracks sizeofT L) (hi : s i = some v) :
    ∃ l, L i = some l ∧ v.Good sizeofT ∧ v.Holds sizeofT l := by
  have hi' := h i
  rw [hi] at hi'
  generalize L i = o at hi' ⊢
  cases hi' with
  | some h => exact ⟨_, rfl, h⟩

theorem Tracks.exists_vector (h : s.Tracks sizeofT L) (hi : s i ≠ none) :
    ∃ v l, s i = some v ∧ L i = some l ∧ v.Good sizeofT ∧ v.Holds sizeofT l := by
  obtain ⟨v, hv⟩ := Option.ne_none_iff_exists'.mp hi
  obtain ⟨l, hl, hgood, hholds⟩ := h.exists_list hv
  exact ⟨v, l, hv, hl, hgood, hholds⟩

theorem Tracks.refines (h : s.Tracks sizeofT L) : s.Refines sizeofT L where
  elements i := by
    have hi := h i
    generalize s i = o, L i = o' at hi ⊢
    cases hi with
    | some h => exact .some h.2
    | none => exact .none
  capacity i v hi := by
    obtain ⟨l, -, hgood, -⟩ := h.exists_list hi
    exact hgood.block

theorem Tracks.update (h : s.Tracks sizeofT L) (i : Nat) (hv : v.Good sizeofT)
    (hl : v.Holds sizeofT l) :
    Tracks sizeofT (Function.update s i (some v)) (Function.update L i (some l)) := by
  intro k
  by_cases hk : k = i
  · subst hk
    rw [Function.update_self, Function.update_self]
    exact .some ⟨hv, hl⟩
  · rw [Function.update_of_ne hk, Function.update_of_ne hk]
    exact h k

theorem tracks_empty : Tracks sizeofT (fun _ => none) fun _ => none := fun _ => .none

theorem call_eq {f : ChunkVector → Option ChunkVector} (hi : s i = some v) (hf : f v = some v') :
    s.call i f = some (Function.update s i (some v')) := by
  simp only [call, hi, Option.bind_eq_bind, Option.bind_some, hf]

theorem exists_of_call {f : ChunkVector → Option ChunkVector} (hs : s.call i f = some s') :
    ∃ v v', s i = some v ∧ f v = some v' ∧ s' = Function.update s i (some v') := by
  rw [call, Option.bind_eq_bind] at hs
  obtain ⟨v, hi, hs⟩ := Option.bind_eq_some_iff.mp hs
  obtain ⟨v', hf, hs⟩ := Option.bind_eq_some_iff.mp hs
  exact ⟨v, v', hi, hf, (Option.some.inj hs).symm⟩

/-- An object that takes the table of `r`, and `r` as the move leaves it. -/
theorem Tracks.hand_over (h : s.Tracks sizeofT L) (i j : Nat) (hr : r.Good sizeofT)
    (hl : r.Holds sizeofT l) {e : Nat} (hcap : v.chunkCapacity = kFastBinSize * 2 ^ e)
    (hdata : v.data = r.data) (hsize : v.size = r.size) (hnum : v.chunkSize = r.chunkSize)
    (hagree : r.data ≠ none → v.chunkCapacity = r.chunkCapacity) :
    Tracks sizeofT (Function.update (Function.update s i (some v)) j (some r.moved))
      (Function.update (Function.update L i (some l)) j (some [])) := by
  obtain ⟨hgood, hholds⟩ := hr.taken hl hcap hdata hsize hnum hagree
  exact (h.update i hgood hholds).update j (good_moved hr.toSound) (holds_nil rfl)

/-- A step that meets its condition does what it does to the lists. -/
theorem Tracks.step (h : s.Tracks sizeofT L) (hpos : 0 < sizeofT) (hle : sizeofT ≤ 65536)
    (junk : Nat → Mem) (hvalid : s.Valid sizeofT op) (hmeets : s.Meets op) :
    ∃ s' L', s.step sizeofT junk op = some s' ∧ ListStep L op L' ∧ s'.Tracks sizeofT L' := by
  have hper := perChunk_pos hpos hle
  cases op with
  | create i =>
      exact ⟨_, _, rfl, rfl, h.update i ⟨sound_empty, Nat.zero_le _⟩ (holds_nil rfl)⟩
  | push i x =>
      obtain ⟨v, l, hi, hLi, hgood, hl⟩ := h.exists_vector hvalid.1
      obtain ⟨v', hrun, hgood', hl'⟩ := hgood.push hper hl (hmeets v hi) hvalid.2 junk
      exact ⟨_, _, call_eq hi hrun, ⟨l, hLi, rfl⟩, h.update i hgood' hl'⟩
  | pop i =>
      obtain ⟨v, hi, -⟩ := hvalid
      obtain ⟨l, hLi, hgood, hl⟩ := h.exists_list hi
      obtain ⟨v', hrun, hgood', hl'⟩ := hgood.pop hper hl
      exact ⟨_, _, call_eq hi hrun, ⟨l, hLi, rfl⟩, h.update i hgood' hl'⟩
  | resize i n =>
      obtain ⟨v, l, hi, hLi, hgood, hl⟩ := h.exists_vector hvalid
      obtain ⟨v', l', hrun, hgood', hl', hlength, hsame⟩ :=
        hgood.resize hper hl (fun hn => hmeets v hi (Nat.zero_lt_of_lt hn)) junk
      exact ⟨_, _, call_eq hi hrun, ⟨l, l', hLi, hlength, hsame, rfl⟩, h.update i hgood' hl'⟩
  | reserve i n =>
      obtain ⟨v, l, hi, hLi, hgood, hl⟩ := h.exists_vector hvalid
      obtain ⟨v', hrun, hgood', hl'⟩ :=
        hgood.reserve hper hl (fun hn => hmeets v hi (Nat.zero_lt_of_lt hn)) junk
      refine ⟨_, L, call_eq hi hrun, rfl, ?_⟩
      have hsame := h.update i hgood' hl'
      rwa [← hLi, Function.update_eq_self] at hsame
  | reset i =>
      obtain ⟨v, l, hi, -, hgood, -⟩ := h.exists_vector hvalid
      obtain ⟨v', hrun, hsound, hsize, -⟩ := hgood.toSound.reset
      have hgood' : v'.Good sizeofT := ⟨hsound, hsize.trans_le (Nat.zero_le _)⟩
      exact ⟨_, _, call_eq hi hrun, rfl, h.update i hgood' (holds_nil hsize)⟩
  | moveConstruct i j =>
      obtain ⟨r, l, hj, hLj, hgood, hl⟩ := h.exists_vector hvalid.2
      refine ⟨_, _, ?_, ⟨l, hLj, rfl⟩, h.hand_over i j hgood hl (v := r.moveConstruct) (e := 0)
        rfl rfl rfl rfl fun hdata => (hmeets r hj hdata).symm⟩
      simp only [Vectors.step, hj, Option.bind_eq_bind, Option.bind_some]
  | moveAssign i j =>
      obtain ⟨v, -, hi, -, hgood, -⟩ := h.exists_vector hvalid.1
      obtain ⟨r, l, hj, hLj, hgoodr, hl⟩ := h.exists_vector hvalid.2
      obtain ⟨v₁, hreset, hsound, hsize, hnum, hcap⟩ := hgood.toSound.reset
      obtain ⟨e, he⟩ := hsound.doubled
      by_cases hij : i = j
      · -- the object has given its table up before it takes its own
        subst hij
        refine ⟨Function.update s i (some (v₁.moveAssign v₁).moved), _, ?_, ⟨l, hLj, rfl⟩, ?_⟩
        · simp only [Vectors.step, call_eq hi hreset, Option.bind_eq_bind, Option.bind_some,
            Function.update_self, Function.update_idem]
        · rw [Function.update_idem]
          exact h.update i (good_moved ⟨hsound.block, hsound.null, hsound.doubled, hsound.fits,
            hsound.chunks⟩) (holds_nil rfl)
      · have hj₁ : Function.update s i (some v₁) j = some r := by
          rw [Function.update_of_ne (Ne.symm hij), hj]
        have hagree : r.data ≠ none → v₁.chunkCapacity = r.chunkCapacity := by
          intro hdata
          rw [hcap]
          exact (hmeets.resolve_left hij) v r hi hj hdata
        refine ⟨_, _, ?_, ⟨l, hLj, rfl⟩, h.hand_over i j hgoodr hl (v := v₁.moveAssign r) he rfl rfl
          rfl hagree⟩
        simp only [Vectors.step, call_eq hi hreset, Option.bind_eq_bind, Option.bind_some,
          Function.update_self, hj₁, Function.update_idem, Function.update_of_ne (Ne.symm hij)]
  | copyConstruct i j =>
      obtain ⟨r, l, hj, hLj, hgood, hl⟩ := h.exists_vector hvalid.2
      obtain ⟨v, hrun, hgood', hl'⟩ := hgood.copied hl (hmeets r hj)
      refine ⟨_, _, ?_, ⟨l, hLj, rfl⟩, h.update i hgood' hl'⟩
      simp only [Vectors.step, hj, Option.bind_eq_bind, Option.bind_some, hrun]

/-! ## Steps that do not -/

/-- A capacity is not the size of the block. -/
def Mismatched (s : Vectors) : Prop :=
  ∃ i v t, s i = some v ∧ v.data = some t ∧ t.bytes ≠ v.chunkCapacity

theorem Refines.not_mismatched (h : s.Refines sizeofT L) : ¬ s.Mismatched := by
  rintro ⟨i, v, t, hi, hdata, hne⟩
  exact hne (h.capacity i v hi t hdata)

theorem mismatched_of_stale (hi : s i = some v) (hs : v.Stale) : s.Mismatched := by
  obtain ⟨t, hdata, hbytes⟩ := hs.block
  exact ⟨i, v, t, hi, hdata, by rw [hbytes]; exact hs.large.ne⟩

theorem mismatched_of_call {f : ChunkVector → Option ChunkVector} (hi : s i = some v)
    (hf : ∀ v', f v = some v' → v'.Stale) (hs : s.call i f = some s') : s'.Mismatched := by
  obtain ⟨v₁, v', hi₁, hv', rfl⟩ := exists_of_call hs
  obtain rfl := Option.some.inj (hi.symm.trans hi₁)
  exact mismatched_of_stale (Function.update_self i _ s) (hf v' hv')

/-- A table of another size than the object that takes it expects. -/
theorem Tracks.mismatched_hand_over (h : s.Tracks sizeofT L) (hj : s j = some r) (hij : i ≠ j)
    (hdata : r.data ≠ none) (htaken : v.data = r.data) (hcap : v.chunkCapacity ≠ r.chunkCapacity) :
    Mismatched (Function.update (Function.update s i (some v)) j (some r.moved)) := by
  obtain ⟨l, -, hgood, -⟩ := h.exists_list hj
  obtain ⟨t, ht⟩ := Option.ne_none_iff_exists'.mp hdata
  refine ⟨i, v, t, ?_, htaken.trans ht, ?_⟩
  · rw [Function.update_of_ne hij, Function.update_self]
  · rw [hgood.block t ht]
    exact hcap.symm

/-- A step that does not meet its condition leaves a capacity that is not the size of the block. -/
theorem Tracks.mismatched (h : s.Tracks sizeofT L) (hvalid : s.Valid sizeofT op)
    (hmeets : ¬ s.Meets op) (hs : s.step sizeofT junk op = some s') : s'.Mismatched := by
  cases op with
  | push i x =>
      simp only [Meets, not_forall] at hmeets
      obtain ⟨v, hi, hfresh⟩ := hmeets
      obtain ⟨l, -, hgood, -⟩ := h.exists_list hi
      exact mismatched_of_call hi (fun v' hv' => hgood.stale_push hfresh hv') hs
  | resize i n =>
      simp only [Meets, not_forall] at hmeets
      obtain ⟨v, hi, hn, hfresh⟩ := hmeets
      obtain ⟨l, -, hgood, -⟩ := h.exists_list hi
      exact mismatched_of_call hi (fun v' hv' => hgood.stale_resize hfresh hn hv') hs
  | reserve i n =>
      simp only [Meets, not_forall] at hmeets
      obtain ⟨v, hi, hn, hfresh⟩ := hmeets
      obtain ⟨l, -, hgood, -⟩ := h.exists_list hi
      exact mismatched_of_call hi (fun v' hv' => hgood.stale_reserve hfresh hn hv') hs
  | moveConstruct i j =>
      simp only [Meets, not_forall] at hmeets
      obtain ⟨r, hj, hdata, hcap⟩ := hmeets
      have hij : i ≠ j := fun heq => hvalid.2 (heq ▸ hvalid.1)
      rw [Vectors.step, hj] at hs
      rw [← Option.some.inj hs]
      exact h.mismatched_hand_over hj hij hdata rfl (Ne.symm hcap)
  | moveAssign i j =>
      simp only [Meets, not_or, not_forall] at hmeets
      obtain ⟨hij, v, r, hi, hj, hdata, hcap⟩ := hmeets
      obtain ⟨l, -, hgood, -⟩ := h.exists_list hi
      obtain ⟨v₁, hreset, -, -, -, hcap₁⟩ := hgood.toSound.reset
      have hj₁ : Function.update s i (some v₁) j = some r := by
        rw [Function.update_of_ne (Ne.symm hij), hj]
      simp only [Vectors.step, call_eq hi hreset, Option.bind_eq_bind, Option.bind_some,
        Function.update_self, hj₁, Function.update_idem, Function.update_of_ne (Ne.symm hij)] at hs
      rw [← Option.some.inj hs]
      exact h.mismatched_hand_over hj hij hdata rfl (hcap₁ ▸ hcap)
  | copyConstruct i j =>
      simp only [Meets, not_forall] at hmeets
      obtain ⟨r, hj, hpos, hcap⟩ := hmeets
      obtain ⟨l, -, hgood, -⟩ := h.exists_list hj
      obtain ⟨v, hrun, -, -, hfast, -, htable, -⟩ := hgood.copyConstruct
      obtain ⟨t, ht, hbytes⟩ := htable hpos
      simp only [Vectors.step, hj, Option.bind_eq_bind, Option.bind_some, hrun] at hs
      rw [← Option.some.inj hs]
      refine ⟨i, v, t, Function.update_self i _ s, ht, ?_⟩
      rw [hbytes, hfast]
      exact hcap
  | create i => exact absurd trivial hmeets
  | pop i => exact absurd trivial hmeets
  | reset i => exact absurd trivial hmeets

/-! ## Whole runs -/

/-- The lists are determined by the elements. -/
theorem Refines.unique (h : s.Refines sizeofT L) (h' : s.Refines sizeofT L') : L = L' := by
  funext i
  have hi := h.elements i
  have hi' := h'.elements i
  generalize s i = o, L i = l, L' i = l' at hi hi' ⊢
  cases hi with
  | none =>
      cases hi' with
      | none => rfl
  | some hl =>
      cases hi' with
      | some hl' => rw [hl.unique hl']

theorem decides (hpos : 0 < sizeofT) (hle : sizeofT ≤ 65536) :
    Decides (turn sizeofT) (fun L o => ListStep L o.1) (Refines sizeofT)
      (fun s o => s.Valid sizeofT o.1) (fun s o => s.Meets o.1) (Tracks sizeofT) where
  refines h := h.refines
  unique h h' := h.unique h'
  keeps h hvalid hmeets := h.step hpos hle _ hvalid hmeets
  breaks h hvalid hmeets hs _ hrefines := hrefines.not_mismatched (h.mismatched hvalid hmeets hs)

/-- Any run of valid operations: the vectors refine the lists and no operation leaves a block just
when no operation takes a table for one of another size. -/
theorem listsAlong_iff (hpos : 0 < sizeofT) (hle : sizeofT ≤ 65536) {run : List VectorTurn}
    (hvalid : ValidAlong sizeofT run fun _ => none) :
    ListsAlong sizeofT run (fun _ => none) (fun _ => none) ↔
      MeetsAlong sizeofT run fun _ => none :=
  (decides hpos hle).refinesAlong_iff tracks_empty hvalid

/-- A vector of one element is moved, and the object it was in is used again. -/
def movedOnce : List VectorTurn :=
  [(.create 0, fun _ => default), (.push 0 [1, 2, 3, 4], fun _ => default),
    (.moveConstruct 1 0, fun _ => default), (.push 0 [5, 6, 7, 8], fun _ => default)]

theorem listsAlong_movedOnce : ValidAlong 4 movedOnce (fun _ => none) ∧
    ListsAlong 4 movedOnce (fun _ => none) fun _ => none := by
  have hvalid : ValidAlong 4 movedOnce fun _ => none := by
    refine ⟨rfl, fun s₁ hs₁ => ?_⟩
    obtain rfl := Option.some.inj hs₁
    refine ⟨⟨Option.some_ne_none _, rfl⟩, fun s₂ hs₂ => ?_⟩
    obtain rfl := Option.some.inj hs₂
    refine ⟨⟨rfl, Option.some_ne_none _⟩, fun s₃ hs₃ => ?_⟩
    obtain rfl := Option.some.inj hs₃
    exact ⟨⟨Option.some_ne_none _, rfl⟩, fun _ _ => trivial⟩
  refine ⟨hvalid, (listsAlong_iff (by decide) (by decide) hvalid).mpr ?_⟩
  refine ⟨trivial, fun s₁ hs₁ => ?_⟩
  obtain rfl := Option.some.inj hs₁
  refine ⟨fun v hv _ => ?_, fun s₂ hs₂ => ?_⟩
  · rw [← Option.some.inj hv]
  obtain rfl := Option.some.inj hs₂
  refine ⟨fun r hr _ => ?_, fun s₃ hs₃ => ?_⟩
  · rw [← Option.some.inj hr]
  obtain rfl := Option.some.inj hs₃
  refine ⟨fun v hv _ => ?_, fun _ _ => trivial⟩
  rw [← Option.some.inj hv]
  rfl

/-- A table of 8193 chunks is two blocks long. The object it is moved to takes it for one. -/
def movedLarge : List VectorTurn :=
  [(.create 0, fun _ => default), (.resize 0 8193, fun _ => default),
    (.moveConstruct 1 0, fun _ => default)]

theorem not_listsAlong_movedLarge : ValidAlong 65536 movedLarge (fun _ => none) ∧
    ¬ ListsAlong 65536 movedLarge (fun _ => none) fun _ => none := by
  have hvalid : ValidAlong 65536 movedLarge fun _ => none := by
    refine ⟨rfl, fun s₁ hs₁ => ?_⟩
    obtain rfl := Option.some.inj hs₁
    refine ⟨Option.some_ne_none _, fun s₂ hs₂ => ?_⟩
    obtain ⟨v, v', -, -, rfl⟩ := exists_of_call hs₂
    exact ⟨⟨rfl, Option.some_ne_none _⟩, fun _ _ => trivial⟩
  refine ⟨hvalid, fun hrefines => ?_⟩
  have hmeets := ((decides (by decide) le_rfl).refinesAlong_iff tracks_empty hvalid).mp hrefines
  -- the vector after the second step
  have hper : perChunk 65536 = 1 := rfl
  have hempty : Good 65536 {} := ⟨sound_empty, Nat.zero_le _⟩
  obtain ⟨v, l, hrun, hgood, hl, hlength, -⟩ :=
    hempty.resize (hper ▸ Nat.one_pos) (holds_nil rfl) (n := 8193) (fun _ _ => rfl) fun _ => default
  have hcap := (hmeets.2 _ rfl).2 _ (call_eq (Function.update_self 0 _ _) hrun)
  have hroom := hgood.room
  have hfits := hgood.fits
  rw [← hl.length, hlength, hper] at hroom
  have hlarge : v.chunkCapacity = 65536 := by
    refine hcap.1 v (Function.update_self 0 _ _) fun hnull => ?_
    rw [hgood.null hnull] at hroom
    omega
  omega

end Vectors

end Dots

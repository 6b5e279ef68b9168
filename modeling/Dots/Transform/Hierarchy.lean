import Dots.Database.Buffer
import Dots.Database.Frame

/-!
# `TransformSystem::SetParent`

An entity keeps its parent in its `parent_id` component, and its children in its `child_id` buffer.
`RemoveChild` looks for the child, but it is the first handle that it takes off the buffer.
-/

namespace Dots

open Library

namespace Buffer

/-- The handles from `data()` on. -/
def entities (b : Buffer) : List Entity :=
  (List.range (b.size / sizeofEntity)).map (Mem.readEntity b.data.bytes)

/-- What `RemoveChild` does to the buffer. A read outside the bytes there are gives `none`. -/
def removeChild (child : Entity) (b : Buffer) : Option Buffer :=
  let n := b.size / sizeofEntity
  if sizeofEntity * n ≤ b.data.size then
    let ref := b.entities.idxOf child
    if ref = n then some b
    else
      let ents := b.data.bytes
      let first := Mem.readEntity ents 0
      let last := Mem.readEntity ents (n - 1)
      let ents := Mem.writeEntity (Mem.writeEntity ents 0 last) (n - 1) first
      some ((b.setData ents).pop sizeofEntity)
  else none

/-- The bytes of the buffer are whole handles. -/
structure Holds (b : Buffer) (es : List Entity) : Prop where
  tracks : ∃ l, b.Tracks l
  size : b.size = sizeofEntity * es.length
  handles : ∀ i e, es[i]? = some e → Mem.readEntity b.data.bytes i = e

variable {b b' : Buffer} {es : List Entity} {e child : Entity} {l : List UInt8} {junk : Mem}

theorem Holds.size_div (h : b.Holds es) : b.size / sizeofEntity = es.length := by
  rw [h.size]
  exact Nat.mul_div_cancel_left _ (by decide)

theorem Holds.entities (h : b.Holds es) : b.entities = es := by
  rw [Buffer.entities, h.size_div]
  refine List.ext_getElem? fun i => ?_
  rw [List.getElem?_map]
  by_cases hi : i < es.length
  · rw [List.getElem?_range hi, List.getElem?_eq_getElem hi, Option.map_some,
      h.handles i _ (List.getElem?_eq_getElem hi)]
  · rw [List.getElem?_eq_none (by rw [List.length_range]; omega),
      List.getElem?_eq_none (by omega), Option.map_none]

theorem Holds.value_lt (h : b.Holds es) (he : e ∈ es) : e.value < 2 ^ 32 := by
  obtain ⟨i, hi⟩ := List.mem_iff_getElem?.mp he
  rw [← h.handles i e hi]
  exact Mem.readEntity_lt _ i

/-- With room for it, a handle is pushed behind the others. -/
theorem Holds.push (h : b.Holds es) (he : e.value < 2 ^ 32)
    (hmeets : b.Meets (.push (Mem.wordBytes e.value 4), junk)) :
    ∃ b', b.push junk (Mem.wordBytes e.value 4) = some b' ∧ b'.Holds (es ++ [e]) := by
  obtain ⟨l, hl⟩ := h.tracks
  obtain ⟨b', hrun, hl'⟩ := hl.push hmeets
  have hlength := hl.length
  have hsize : b.size = 4 * es.length := h.size
  have hsize' : b'.size = 4 * es.length + 4 := by
    rw [← hl'.length, List.length_append, Mem.length_wordBytes]
    omega
  -- byte by byte, what was there and then the bytes of the handle
  have hbyte : ∀ k < b'.size, (l ++ Mem.wordBytes e.value 4)[k]? = some (b'.data.bytes k) :=
    fun k hk => hl'.getElem? hk
  refine ⟨b', hrun, ⟨_, hl'⟩, ?_, fun i x hx => ?_⟩
  · rw [List.length_append, List.length_singleton]
    exact hsize'
  by_cases hi : i < es.length
  · rw [List.getElem?_append_left hi] at hx
    rw [← h.handles i x hx]
    refine congrArg Entity.mk (Mem.readWord_congr fun k hk => ?_)
    change b'.data.bytes (4 * i + k) = b.data.bytes (4 * i + k)
    have hold := hl.getElem? (i := 4 * i + k) (by omega)
    have hnew := hbyte (4 * i + k) (by omega)
    rw [List.getElem?_append_left (by omega), hold] at hnew
    exact (Option.some.inj hnew).symm
  · obtain rfl : i = es.length := by
      have hlt := (List.getElem?_eq_some_iff.mp hx).1
      rw [List.length_append, List.length_singleton] at hlt
      omega
    rw [List.getElem?_concat_length] at hx
    obtain rfl := Option.some.inj hx
    have hread : b'.data.bytes.read (4 * es.length) 4 = Mem.wordBytes e.value 4 := by
      refine List.ext_getElem? fun k => ?_
      by_cases hk : k < 4
      · have hnew := hbyte (4 * es.length + k) (by omega)
        rw [List.getElem?_append_right (by omega), hlength, hsize, Nat.add_sub_cancel_left] at hnew
        rw [hnew, Mem.read, List.getElem?_map, List.getElem?_range hk, Option.map_some]
      · rw [List.getElem?_eq_none, List.getElem?_eq_none]
        · rw [Mem.length_wordBytes]
          omega
        · rw [Mem.length_read]
          omega
    refine Entity.ext ?_
    change Mem.readWord _ (4 * es.length) 4 = e.value
    rw [Mem.readWord_eq_ofBytes, hread, Mem.ofBytes_wordBytes he]

theorem Tracks.setData (h : b.Tracks l) (m : Mem) :
    (b.setData m).Tracks (m.read 0 b.size) := by
  refine ⟨⟨?_, ?_, ?_⟩, ?_⟩
  · rw [capacity_setData, data_setData]
    exact h.capacity
  · rw [size_setData, capacity_setData]
    exact h.size
  · rw [size_setData, data_setData]
  · rw [capacity_setData]
    exact h.small

/-- The last handle takes the place of the first one, whichever the child is. -/
theorem Holds.removeChild (h : b.Holds (e :: es)) (hmem : child ∈ e :: es) :
    ∃ b' es', b.removeChild child = some b' ∧ b'.Holds es' ∧ es'.Perm es ∧
      b'.size = (b.pop sizeofEntity).size ∧ b'.capacity = b.capacity := by
  obtain ⟨l, hl⟩ := h.tracks
  have hin : sizeofEntity * (es.length + 1) ≤ b.data.size := by
    rw [← hl.capacity]
    exact h.size.symm.trans_le hl.size
  have hfound : ¬ (e :: es).idxOf child = es.length + 1 :=
    Nat.ne_of_lt (List.idxOf_lt_length_iff.mpr hmem)
  rw [Buffer.removeChild, h.entities]
  simp only [h.size_div, List.length_cons]
  rw [if_pos hin, if_neg hfound, Nat.add_sub_cancel]
  generalize hm : Mem.writeEntity (Mem.writeEntity b.data.bytes 0
    (Mem.readEntity b.data.bytes es.length)) es.length (Mem.readEntity b.data.bytes 0) = m
  have hdata := hl.setData m
  have hroom : sizeofEntity ≤ b.size := by
    rw [h.size, List.length_cons, Nat.mul_succ]
    exact Nat.le_add_left _ _
  have hroom' : sizeofEntity ≤ (b.setData m).size := (size_setData b m).symm ▸ hroom
  have hpop := hdata.pop hroom'
  have hpopped : ((b.setData m).pop sizeofEntity).size = sizeofEntity * es.length := by
    rw [hdata.size_pop hroom', size_setData, h.size, List.length_cons, Nat.mul_succ,
      Nat.add_sub_cancel]
  have hsame : ((b.setData m).pop sizeofEntity).size = (b.pop sizeofEntity).size := by
    rw [hdata.size_pop hroom', size_setData, hl.size_pop hroom]
  have hbytes : ((b.setData m).pop sizeofEntity).data.bytes = m := by
    rw [data_pop, data_setData]
  have hread : ∀ i < es.length, Mem.readEntity m i =
      if i = 0 then Mem.readEntity b.data.bytes es.length else Mem.readEntity b.data.bytes i := by
    intro i hi
    rw [← hm, Mem.readEntity_writeEntity _ _ _ (Mem.readEntity_lt _ _), if_neg (by omega),
      Mem.readEntity_writeEntity _ _ _ (Mem.readEntity_lt _ _)]
  have hcap : ((b.setData m).pop sizeofEntity).capacity = b.capacity := by
    rw [capacity_pop, capacity_setData]
  generalize (b.setData m).pop sizeofEntity = b' at hpop hpopped hsame hbytes hcap ⊢
  rcases List.eq_nil_or_concat es with rfl | ⟨mid, z, rfl⟩
  · exact ⟨b', [], rfl, ⟨⟨_, hpop⟩, hpopped, fun i x hx => by simp at hx⟩, List.Perm.refl _, hsame,
      hcap⟩
  · rw [List.concat_eq_append] at *
    rw [List.length_append, List.length_singleton] at hpopped hread
    refine ⟨b', z :: mid, rfl, ⟨⟨_, hpop⟩, hpopped, fun i x hx => ?_⟩,
      (List.perm_append_singleton z mid).symm, hsame, hcap⟩
    have hi := (List.getElem?_eq_some_iff.mp hx).1
    rw [List.length_cons] at hi
    rw [hbytes, hread i hi]
    cases i with
    | zero =>
        rw [if_pos rfl]
        refine h.handles _ x ?_
        rw [List.getElem?_cons_succ, List.getElem?_concat_length]
        exact hx
    | succ i =>
        rw [if_neg (Nat.succ_ne_zero i)]
        refine h.handles _ x ?_
        rw [List.getElem?_cons_succ, List.getElem?_append_left (by omega)]
        exact hx

end Buffer

/-- The components of the entities that are alive: `parent_id` and `child_id`, for those that own
them. `get_owned_rw` and `get_owned_ro` point to these, and are null for the others. -/
structure Hierarchy where
  parent : Entity → Option Entity
  child : Entity → Option Buffer

namespace Hierarchy

/-- `TransformSystem::RemoveChild`. -/
def removeChild (h : Hierarchy) (e child : Entity) : Option Hierarchy :=
  match h.child e with
  | none => some h
  | some cs => do
      let cs ← cs.removeChild child
      some { h with child := Function.update h.child e (some cs) }

/-- `TransformSystem::AddChild`; `junk` is what is in the block that a `push` may allocate. -/
def addChild (h : Hierarchy) (junk : Mem) (e child : Entity) : Option Hierarchy :=
  match h.child e with
  | none => some h
  | some cs => do
      let cs ← cs.push junk (Mem.wordBytes child.value 4)
      some { h with child := Function.update h.child e (some cs) }

/-- The arguments of `SetParent`, where `data` is null, and what is in the block it may
allocate. -/
structure Call where
  e : Entity
  inParent : Entity
  junk : Mem

/-- `TransformSystem::SetParent`. Reading through a null pointer gives `none`. -/
def setParent (h : Hierarchy) (c : Call) : Option Hierarchy := do
  let parent ← h.parent c.e
  let h ← h.removeChild parent c.e
  let h := { h with parent := Function.update h.parent c.e (some c.inParent) }
  h.addChild c.junk c.inParent c.e

/-! ## Mutual links -/

/-- What is in the child buffer of an entity. -/
def children (h : Hierarchy) (e : Entity) : List Entity := (h.child e).elim [] Buffer.entities

/-- Each child buffer holds whole handles. -/
def Sound (h : Hierarchy) : Prop := ∀ x cs, h.child x = some cs → ∃ es, cs.Holds es

/-- Each entity with a parent is once in the child buffer of that, and in no other. -/
structure Mutual (h : Hierarchy) : Prop where
  once : ∀ x parent, h.parent x = some parent → (h.children parent).count x = 1
  only : ∀ x parent other, h.parent x = some parent → other ≠ parent → x ∉ h.children other

/-- The child buffers of entities that are neither the old nor the new parent stay. -/
def Untouched (h : Hierarchy) (c : Call) (h' : Hierarchy) : Prop :=
  ∀ x, h.parent c.e ≠ some x → x ≠ c.inParent → h'.child x = h.child x

/-- The entity owns a parent, and the new one owns a child buffer. -/
def Valid (h : Hierarchy) (c : Call) : Prop := h.parent c.e ≠ none ∧ h.child c.inParent ≠ none

/-- The entity is the first child of its parent, and there is room for it with the new one. -/
def Meets (h : Hierarchy) (c : Call) : Prop :=
  ∃ parent cs, h.parent c.e = some parent ∧ (h.children parent).head? = some c.e ∧
    h.child c.inParent = some cs ∧
      (if c.inParent = parent then cs.pop sizeofEntity else cs).Meets
        (.push (Mem.wordBytes c.e.value 4), c.junk)

/-- No call fails, and after each one the links are mutual and other child buffers are what they
were. -/
def LinksAlong (run : List Call) (h : Hierarchy) : Prop :=
  RefinesAlong setParent Untouched (fun h h' => h = h' ∧ h'.Mutual) run h h

variable {h h' : Hierarchy} {c : Call} {e parent x : Entity} {cs : Buffer} {es : List Entity}
  {junk : Mem}

theorem children_of_child (hcs : h.child x = some cs) : h.children x = cs.entities := by
  rw [children, hcs]
  rfl

theorem exists_child (he : e ∈ h.children parent) : ∃ cs, h.child parent = some cs := by
  cases hcs : h.child parent with
  | none =>
      rw [children, hcs] at he
      exact absurd he List.not_mem_nil
  | some cs => exact ⟨cs, rfl⟩

theorem Sound.holds (hs : h.Sound) (hcs : h.child x = some cs) : cs.Holds (h.children x) := by
  obtain ⟨es, hes⟩ := hs x cs hcs
  rwa [children_of_child hcs, hes.entities]

/-- A listed handle has been read from four bytes. -/
theorem Sound.value_lt (hs : h.Sound) (he : e ∈ h.children parent) : e.value < 2 ^ 32 := by
  obtain ⟨cs, hcs⟩ := exists_child he
  exact (hs.holds hcs).value_lt he

/-- A child buffer is replaced by another one that holds whole handles. -/
theorem Sound.update (hs : h.Sound) (hcs : cs.Holds es) :
    Sound { h with child := Function.update h.child x (some cs) } := by
  intro y cs' hcs'
  dsimp only at hcs'
  by_cases hy : y = x
  · subst hy
    rw [Function.update_self] at hcs'
    obtain rfl := Option.some.inj hcs'
    exact ⟨es, hcs⟩
  · rw [Function.update_of_ne hy] at hcs'
    exact hs y cs' hcs'

/-- `RemoveChild` with a child that is there. -/
theorem removeChild_spec (hs : h.Sound) (he : e ∈ h.children parent) :
    ∃ h₁, h.removeChild parent e = some h₁ ∧ h₁.Sound ∧ h₁.parent = h.parent ∧
      (h₁.children parent).Perm (h.children parent).tail ∧
        (∀ x ≠ parent, h₁.child x = h.child x) ∧
          ∀ cs, h.child parent = some cs → ∃ cs₁, h₁.child parent = some cs₁ ∧
            cs₁.size = (cs.pop sizeofEntity).size ∧ cs₁.capacity = cs.capacity := by
  obtain ⟨cs, hcs⟩ := exists_child he
  have hholds := hs.holds hcs
  cases hlist : h.children parent with
  | nil =>
      rw [hlist] at he
      exact absurd he List.not_mem_nil
  | cons first rest =>
      rw [hlist] at hholds he
      obtain ⟨cs₁, es₁, hrun, hholds₁, hperm, hsize, hcapacity⟩ := hholds.removeChild he
      refine ⟨{ h with child := Function.update h.child parent (some cs₁) }, ?_,
        hs.update hholds₁, rfl, ?_, fun x hx => Function.update_of_ne hx _ _, fun cs' hcs' => ?_⟩
      · rw [removeChild, hcs]
        simp only [hrun, Option.bind_eq_bind, Option.bind_some]
      · rw [children_of_child (Function.update_self ..), hholds₁.entities]
        exact hperm
      · rw [hcs] at hcs'
        obtain rfl := Option.some.inj hcs'
        exact ⟨cs₁, Function.update_self .., hsize, hcapacity⟩

/-- `AddChild` with room for the child. -/
theorem addChild_spec (hs : h.Sound) (he : e.value < 2 ^ 32) (hcs : h.child x = some cs)
    (hmeets : cs.Meets (.push (Mem.wordBytes e.value 4), junk)) :
    ∃ h', h.addChild junk x e = some h' ∧ h'.Sound ∧ h'.parent = h.parent ∧
      h'.children x = h.children x ++ [e] ∧ ∀ y ≠ x, h'.child y = h.child y := by
  obtain ⟨cs', hrun, hholds⟩ := (hs.holds hcs).push he hmeets
  refine ⟨{ h with child := Function.update h.child x (some cs') }, ?_, hs.update hholds, rfl, ?_,
    fun y hy => Function.update_of_ne hy _ _⟩
  · rw [addChild, hcs]
    simp only [hrun, Option.bind_eq_bind, Option.bind_some]
  · rw [children_of_child (Function.update_self ..), hholds.entities]

/-- And without room for it. -/
theorem meets_of_addChild (hs : h.Sound) (hcs : h.child x = some cs)
    (hrun : h.addChild junk x e = some h') :
    cs.Meets (.push (Mem.wordBytes e.value 4), junk) := by
  obtain ⟨l, hl⟩ := (hs.holds hcs).tracks
  rw [addChild, hcs] at hrun
  obtain ⟨cs', hpush, -⟩ := Option.bind_eq_some_iff.mp hrun
  exact hl.meets_of_push hpush

/-! ## One call -/

/-- What a call does to the links: the first child of the old parent is gone, whichever it was. -/
structure Moves (h : Hierarchy) (c : Call) (parent : Entity) (h' : Hierarchy) : Prop where
  sound : h'.Sound
  parents : h'.parent = Function.update h.parent c.e (some c.inParent)
  children : ∀ x, (h'.children x).Perm
    ((if x = parent then (h.children x).tail else h.children x) ++
      if x = c.inParent then [c.e] else [])
  untouched : Untouched h c h'

/-- A call runs just when there is room for the child. -/
theorem setParent_spec (hs : h.Sound) (hparent : h.parent c.e = some parent)
    (he : c.e ∈ h.children parent) (hcs : h.child c.inParent = some cs) :
    ((if c.inParent = parent then cs.pop sizeofEntity else cs).Meets
      (.push (Mem.wordBytes c.e.value 4), c.junk) → ∃ h', h.setParent c = some h' ∧
        Moves h c parent h') ∧
    ∀ h', h.setParent c = some h' → (if c.inParent = parent then cs.pop sizeofEntity else cs).Meets
      (.push (Mem.wordBytes c.e.value 4), c.junk) := by
  obtain ⟨h₁, hremove, hs₁, hparent₁, hchildren₁, hchild₁, hbuffer₁⟩ := removeChild_spec hs he
  -- the buffer of the new parent, after the child has been removed
  obtain ⟨cs₁, hcs₁, hmeets⟩ : ∃ cs₁, h₁.child c.inParent = some cs₁ ∧
      ((if c.inParent = parent then cs.pop sizeofEntity else cs).Meets
        (.push (Mem.wordBytes c.e.value 4), c.junk) ↔
          cs₁.Meets (.push (Mem.wordBytes c.e.value 4), c.junk)) := by
    by_cases hsame : c.inParent = parent
    · rw [hsame] at hcs
      obtain ⟨cs₁, hcs₁, hsize, hcapacity⟩ := hbuffer₁ cs hcs
      refine ⟨cs₁, hsame ▸ hcs₁, ?_⟩
      rw [if_pos hsame, Buffer.Meets, Buffer.Meets, hsize, hcapacity, Buffer.capacity_pop]
    · rw [if_neg hsame]
      exact ⟨cs, (hchild₁ _ hsame).trans hcs, Iff.rfl⟩
  have hs₂ : Sound { h₁ with parent := Function.update h₁.parent c.e (some c.inParent) } := hs₁
  have hrun : h.setParent c =
      addChild { h₁ with parent := Function.update h₁.parent c.e (some c.inParent) } c.junk
        c.inParent c.e := by
    rw [setParent, hparent, Option.bind_eq_bind, Option.bind_some, hremove]
    rfl
  rw [hrun, hmeets]
  refine ⟨fun hroom => ?_, fun h' hadd => meets_of_addChild hs₂ hcs₁ hadd⟩
  obtain ⟨h', hadd, hs', hparent', hadded, hothers⟩ :=
    addChild_spec hs₂ (hs.value_lt he) hcs₁ hroom
  refine ⟨h', hadd, hs', ?_, fun x => ?_, fun x hx hnew => ?_⟩
  · rw [hparent', hparent₁]
  · have hfirst : (h₁.children x).Perm
        (if x = parent then (h.children x).tail else h.children x) := by
      split_ifs with hx
      · rw [hx]
        exact hchildren₁
      · rw [children, hchild₁ x hx, children]
    by_cases hnew : x = c.inParent
    · subst hnew
      rw [if_pos rfl, hadded]
      exact hfirst.append_right _
    · rw [if_neg hnew, List.append_nil, children, hothers x hnew]
      exact hfirst
  · rw [hothers x hnew]
    refine hchild₁ x ?_
    rintro rfl
    exact hx hparent

/-- A listed entity that the call does not move is where it was. -/
theorem Moves.count {first : Entity} {rest : List Entity} (hmoves : Moves h c parent h')
    (hlist : h.children parent = first :: rest) (y x : Entity) :
    (h'.children x).count y =
      (if x = parent then rest.count y else (h.children x).count y) +
        if x = c.inParent ∧ y = c.e then 1 else 0 := by
  rw [(hmoves.children x).count_eq, List.count_append]
  congr 1
  · split_ifs with hx
    · rw [hx, hlist, List.tail_cons]
    · rfl
  · by_cases hx : x = c.inParent
    · rw [if_pos hx, List.count_singleton]
      simp only [hx, true_and, beq_iff_eq, @eq_comm _ c.e y]
    · rw [if_neg hx, if_neg fun hxy => hx hxy.1, List.count_nil]

/-- The links stay mutual just when it is the right child that is gone. -/
theorem Moves.mutual_iff (hm : h.Mutual) (hparent : h.parent c.e = some parent)
    (hmoves : Moves h c parent h') :
    h'.Mutual ↔ (h.children parent).head? = some c.e := by
  have honce := hm.once c.e parent hparent
  cases hlist : h.children parent with
  | nil =>
      rw [hlist, List.count_nil] at honce
      omega
  | cons first rest =>
      have hcount := hmoves.count hlist
      rw [hlist, List.count_cons] at honce
      rw [List.head?_cons, Option.some.injEq]
      constructor
      · intro hm'
        by_contra hfirst
        rw [if_neg fun h => hfirst (beq_iff_eq.mp h)] at honce
        have hnew : h'.parent c.e = some c.inParent := by
          rw [hmoves.parents, Function.update_self]
        have hin := hcount c.e parent
        rw [if_pos rfl] at hin
        by_cases hsame : parent = c.inParent
        · have honce' := hm'.once c.e c.inParent hnew
          rw [if_pos ⟨hsame, rfl⟩] at hin
          rw [← hsame] at honce'
          omega
        · have honly := List.count_eq_zero.mpr (hm'.only c.e c.inParent parent hnew hsame)
          omega
      · rintro rfl
        rw [beq_self_eq_true, if_pos rfl] at honce
        have hgone : rest.count c.e = 0 := by omega
        -- the others are counted as before, and the child is counted with its new parent
        have hother : ∀ y ≠ c.e, ∀ x, (h'.children x).count y = (h.children x).count y := by
          intro y hy x
          have hadded : ¬ (x = c.inParent ∧ y = c.e) := fun hxy => hy hxy.2
          rw [hcount, if_neg hadded, Nat.add_zero]
          split_ifs with hx
          · rw [hx, hlist, List.count_cons_of_ne hy.symm]
          · rfl
        have hchild : ∀ x, (h'.children x).count c.e = if x = c.inParent then 1 else 0 := by
          intro x
          rw [hcount]
          have hleft : (if x = parent then rest.count c.e else (h.children x).count c.e) = 0 := by
            split_ifs with hx
            · exact hgone
            · exact List.count_eq_zero.mpr (hm.only c.e parent x hparent hx)
          rw [hleft, Nat.zero_add]
          simp only [and_true]
        constructor
        · intro y p hp
          rw [hmoves.parents] at hp
          by_cases hy : y = c.e
          · subst hy
            rw [Function.update_self] at hp
            rw [hchild, if_pos (Option.some.inj hp).symm]
          · rw [Function.update_of_ne hy] at hp
            rw [hother y hy]
            exact hm.once y p hp
        · intro y p x hp hx
          rw [hmoves.parents] at hp
          refine List.count_eq_zero.mp ?_
          by_cases hy : y = c.e
          · subst hy
            rw [Function.update_self] at hp
            obtain rfl := Option.some.inj hp
            rw [hchild, if_neg hx]
          · rw [Function.update_of_ne hy] at hp
            rw [hother y hy]
            exact List.count_eq_zero.mpr (hm.only y p x hp hx)

/-! ## Runs -/

theorem decides : Decides setParent Untouched (fun h h' => h = h' ∧ h'.Mutual) Valid Meets
    fun h h' => h = h' ∧ h.Sound ∧ h.Mutual where
  refines := by
    rintro h _ ⟨rfl, -, hm⟩
    exact ⟨rfl, hm⟩
  unique := by
    rintro h _ _ ⟨rfl, -⟩ ⟨rfl, -⟩
    rfl
  keeps := by
    rintro h _ c ⟨rfl, hs, hm⟩ - ⟨parent, cs, hparent, hhead, hcs, hmeets⟩
    have he : c.e ∈ h.children parent := List.mem_of_mem_head? hhead
    obtain ⟨h', hrun, hmoves⟩ := (setParent_spec hs hparent he hcs).1 hmeets
    exact ⟨h', h', hrun, hmoves.untouched, rfl, hmoves.sound,
      (hmoves.mutual_iff hm hparent).mpr hhead⟩
  breaks := by
    rintro h _ c h' _ ⟨rfl, hs, hm⟩ ⟨howns, hbuffer⟩ hnot hrun - ⟨rfl, hm'⟩
    obtain ⟨parent, hparent⟩ := Option.ne_none_iff_exists'.mp howns
    obtain ⟨cs, hcs⟩ := Option.ne_none_iff_exists'.mp hbuffer
    have he : c.e ∈ h.children parent :=
      List.count_pos_iff.mp ((hm.once c.e parent hparent).symm ▸ Nat.one_pos)
    have hspec := setParent_spec hs hparent he hcs
    have hmeets := hspec.2 h' hrun
    obtain ⟨h₁, hrun₁, hmoves⟩ := hspec.1 hmeets
    obtain rfl := Option.some.inj (hrun₁.symm.trans hrun)
    exact hnot ⟨parent, cs, hparent, (hmoves.mutual_iff hm hparent).mp hm', hcs, hmeets⟩

/-- In any run of `SetParent` that starts with mutual links: they stay mutual, and other child
buffers what they were, just when each call moves the first child of a parent to one with room. -/
theorem linksAlong_iff {run : List Call} (hs : h.Sound) (hm : h.Mutual)
    (hvalid : Along setParent Valid run h) : LinksAlong run h ↔ Along setParent Meets run h :=
  decides.refinesAlong_iff ⟨rfl, hs, hm⟩ hvalid

/-- Two children in the bytes of the slot. -/
def twoChildren : Buffer where
  slot := { size := 16, bytes := Mem.writeEntity (Mem.writeEntity (fun _ => 0) 0 ⟨768⟩) 1 ⟨1024⟩ }
  size := 8
  capacity := 16

theorem holds_twoChildren : twoChildren.Holds [⟨768⟩, ⟨1024⟩] := by
  refine ⟨⟨_, ⟨rfl, by decide, rfl⟩, by decide⟩, rfl, fun i e hi => ?_⟩
  match i with
  | 0 => exact Option.some.inj hi ▸ by decide
  | 1 => exact Option.some.inj hi ▸ by decide
  | i + 2 => simp at hi

theorem holds_construct : (Buffer.construct 32 fun _ => 0).Holds [] :=
  ⟨⟨[], Buffer.tracks_construct (by decide) (by decide) _⟩, rfl, fun i e hi => by simp at hi⟩

/-- An entity with two children, and one that has a buffer for them. -/
def family : Hierarchy where
  parent x := if x = ⟨768⟩ ∨ x = ⟨1024⟩ then some ⟨256⟩ else none
  child x :=
    if x = ⟨256⟩ then some twoChildren
    else if x = ⟨512⟩ then some (Buffer.construct 32 fun _ => 0)
    else none

theorem sound_family : family.Sound := by
  intro x cs hcs
  dsimp only [family] at hcs
  split_ifs at hcs
  · exact ⟨_, Option.some.inj hcs ▸ holds_twoChildren⟩
  · exact ⟨_, Option.some.inj hcs ▸ holds_construct⟩

theorem children_family (x : Entity) :
    family.children x = if x = ⟨256⟩ then [⟨768⟩, ⟨1024⟩] else [] := by
  rw [children]
  dsimp only [family]
  split_ifs
  · exact holds_twoChildren.entities
  · exact holds_construct.entities
  · rfl

theorem mutual_family : family.Mutual := by
  have hparent : ∀ x parent, family.parent x = some parent →
      (x = ⟨768⟩ ∨ x = ⟨1024⟩) ∧ parent = ⟨256⟩ := by
    intro x parent hx
    dsimp only [family] at hx
    split_ifs at hx with hchild
    exact ⟨hchild, (Option.some.inj hx).symm⟩
  constructor
  · intro x parent hx
    obtain ⟨hchild, rfl⟩ := hparent x parent hx
    rw [children_family, if_pos rfl]
    rcases hchild with rfl | rfl
    · decide
    · decide
  · intro x parent other hx hother
    obtain ⟨-, rfl⟩ := hparent x parent hx
    rw [children_family, if_neg hother]
    exact List.not_mem_nil

/-- The second child goes to the other entity. -/
def secondChild : Call where
  e := ⟨1024⟩
  inParent := ⟨512⟩
  junk := fun _ => 0

theorem valid_secondChild : Along setParent Valid [secondChild] family :=
  ⟨⟨by decide, by decide⟩, fun _ _ => trivial⟩

/-- The first child goes to the other entity. -/
def firstChild : Call where
  e := ⟨768⟩
  inParent := ⟨512⟩
  junk := fun _ => 0

theorem valid_firstChild : Along setParent Valid [firstChild] family :=
  ⟨⟨by decide, by decide⟩, fun _ _ => trivial⟩

theorem meets_firstChild : family.Meets firstChild := by
  refine ⟨⟨256⟩, Buffer.construct 32 fun _ => 0, by decide, by decide, rfl, ?_⟩
  rw [if_neg (by decide)]
  exact Or.inl (by decide)

/-- The links stay mutual when the first child goes, and not when the second one does. -/
theorem linksAlong_iff_family : LinksAlong [firstChild] family ∧
    (LinksAlong [secondChild] family ↔ Along setParent Meets [secondChild] family) :=
  ⟨(linksAlong_iff sound_family mutual_family valid_firstChild).mpr
      ⟨meets_firstChild, fun _ _ => trivial⟩,
    linksAlong_iff sound_family mutual_family valid_secondChild⟩

/-- The second child is with both entities after that, and the first one with none. -/
theorem not_linksAlong_secondChild : family.Sound ∧ family.Mutual ∧
    Along setParent Valid [secondChild] family ∧ ¬ LinksAlong [secondChild] family := by
  refine ⟨sound_family, mutual_family, valid_secondChild, fun hrun => ?_⟩
  obtain ⟨-, h', h'', hcall, -, rfl, hm⟩ := hrun
  have hleft : (family.setParent secondChild).map (fun h => (h.children ⟨256⟩, h.parent ⟨1024⟩)) =
      some ([⟨1024⟩], some ⟨512⟩) := by
    decide
  rw [hcall] at hleft
  obtain ⟨hchildren, hparent⟩ := Prod.mk.inj (Option.some.inj hleft)
  refine hm.only ⟨1024⟩ ⟨512⟩ ⟨256⟩ hparent (by decide) ?_
  rw [hchildren]
  exact List.mem_singleton_self _

end Hierarchy

end Dots

import Dots.Library.SplitTree
import Mathlib.Algebra.BigOperators.Fin
import Mathlib.Algebra.Order.BigOperators.Group.Finset
import Mathlib.Algebra.Order.Ring.Int
import Mathlib.Tactic.Linarith

/-!
# `algo::kdtree`

The tree over the indices of a vector of points, its nodes in one vector, and the search for the
points within a radius. Coordinates are exact. A node outside the vector and a recursion that runs
out of fuel give `none`.
-/

namespace Dots

open Library

/-- A point of `Point::dim` coordinates. -/
abbrev Point (R : Type) (dim : Nat) := Fin dim → R

/-- `kdtree::node` in a tree of `n` points; `none` is `-1` and null. -/
structure KdNode (n dim : Nat) where
  index : Option (Fin n) := none
  children : Fin 2 → Option Nat := fun _ => none
  axis : Option (Fin dim) := none

/-- The permutation that `std::nth_element` leaves in the range, given its comparison. -/
abbrev NthElement := ∀ {α : Type}, (α → α → Bool) → List α → Nat → List α

/-- The specification of `std::nth_element`: nothing before position `k` is greater than what is
there, and nothing behind it is smaller. -/
structure NthElement.Lawful (nth : NthElement) : Prop where
  perm : ∀ {α : Type} {lt : α → α → Bool} {xs : List α} {k : Nat},
    IsStrictWeakOrder α (fun x y => lt x y) → k < xs.length → (nth lt xs k).Perm xs
  before : ∀ {α : Type} {lt : α → α → Bool} {xs : List α} {k : Nat} {x y : α},
    IsStrictWeakOrder α (fun x y => lt x y) → (nth lt xs k)[k]? = some x →
      y ∈ (nth lt xs k).take k → lt x y = false
  behind : ∀ {α : Type} {lt : α → α → Bool} {xs : List α} {k : Nat} {x y : α},
    IsStrictWeakOrder α (fun x y => lt x y) → (nth lt xs k)[k]? = some x →
      y ∈ (nth lt xs k).drop (k + 1) → lt y x = false

namespace KdTree

variable {R : Type} {n dim : Nat}

/-- Assign to fields of `nodes[id]`. -/
def assign (nodes : List (KdNode n dim)) (id : Nat) (f : KdNode n dim → KdNode n dim) :
    Option (List (KdNode n dim)) :=
  if id < nodes.length then some (nodes.modify id f) else none

section Build

variable [LT R] [DecidableLT R] [NeZero dim]

/-- `build_recursive`: the pointer it returns, and the nodes. -/
def buildRecursive (nth : NthElement) (points : Fin n → Point R dim) :
    Nat → List (Fin n) → Nat → Nat → List (KdNode n dim) →
      Option (Option Nat × List (KdNode n dim))
  | 0, _, _, _, _ => none
  | fuel + 1, indices, depth, id, nodes =>
      if indices.isEmpty then some (none, nodes)
      else do
        let axis := Fin.ofNat dim depth
        let mid := (indices.length - 1) / 2
        let indices := nth (fun lhs rhs => points lhs axis < points rhs axis) indices mid
        let index ← indices[mid]?
        let nodes ← assign nodes id fun n => { n with index := some index, axis := some axis }
        let (child, nodes) ←
          buildRecursive nth points fuel (indices.take mid) (depth + 1) (id + 1) nodes
        let nodes ← assign nodes id fun n =>
          { n with children := Function.update n.children 0 child }
        let (child, nodes) ←
          buildRecursive nth points fuel (indices.drop (mid + 1)) (depth + 1) (id + 1 + mid) nodes
        let nodes ← assign nodes id fun n =>
          { n with children := Function.update n.children 1 child }
        some (some id, nodes)

/-- The constructor, and `initialize`. -/
def construct (nth : NthElement) (points : Fin n → Point R dim) (fuel : Nat) :
    Option (List (KdNode n dim)) :=
  (buildRecursive nth points fuel (List.finRange n) 0 0 (List.replicate n {})).map Prod.snd

end Build

section Search

variable [CommRing R] [LinearOrder R]

/-- `sdistance`. -/
def sdistance (lhs rhs : Point R dim) : R :=
  (List.finRange dim).foldl (fun dist i => dist + (lhs i - rhs i) * (lhs i - rhs i)) 0

/-- `dir`, the child on the side of the query. -/
def side (axisDist : R) : Fin 2 := if axisDist < 0 then 0 else 1

/-- `search_radius_recursive`; found indices are pushed to the back. -/
def searchRadiusRecursive (points : Fin n → Point R dim) (nodes : List (KdNode n dim))
    (query : Point R dim) (sradius : R) :
    Nat → Option Nat → List (Fin n) → Option (List (Fin n))
  | 0, _, _ => none
  | _ + 1, none, indices => some indices
  | fuel + 1, some n, indices => do
      let n ← nodes[n]?
      let index ← n.index
      let train := points index
      let sdist := sdistance query train
      let indices := if sdist < sradius then indices ++ [index] else indices
      let axis ← n.axis
      let axisDist := query axis - train axis
      let child : Fin 2 := if axisDist < 0 then 0 else 1
      let indices ←
        searchRadiusRecursive points nodes query sradius fuel (n.children child) indices
      if axisDist * axisDist < sradius then
        searchRadiusRecursive points nodes query sradius fuel (n.children (1 - child)) indices
      else some indices

/-- `search_radius`. -/
def searchRadius (points : Fin n → Point R dim) (nodes : List (KdNode n dim))
    (query : Point R dim) (radius : R) (fuel : Nat) (indices : List (Fin n)) :
    Option (List (Fin n)) :=
  if nodes.isEmpty then some indices
  else searchRadiusRecursive points nodes query (radius * radius) fuel (some 0) indices

end Search

/-! ## The tree in the nodes -/

/-- The `count` nodes from `id` on hold the tree, its root first, then the left half, then the
right one. -/
inductive Stored (nodes : List (KdNode n dim)) :
    Nat → Nat → Option Nat → SplitTree (Fin dim) (Fin n) → Prop
  | leaf {id : Nat} : Stored nodes id 0 none .leaf
  | node {id mid rest : Nat} {children : Fin 2 → Option Nat} {l r : SplitTree (Fin dim) (Fin n)}
      {x : Fin n} {a : Fin dim} (at_id : nodes[id]? = some ⟨some x, children, some a⟩)
      (left : Stored nodes (id + 1) mid (children 0) l)
      (right : Stored nodes (id + 1 + mid) rest (children 1) r) :
      Stored nodes id (mid + rest + 1) (some id) (.node l x a r)

/-- `y` is not before `x` on the axis. -/
def NotBefore [LT R] (points : Fin n → Point R dim) (a : Fin dim) (x y : Fin n) : Prop :=
  ¬ points y a < points x a

/-- Each index is in one node, and the nodes split what is below them on their axes. -/
structure WellFormed [LT R] (points : Fin n → Point R dim) (nodes : List (KdNode n dim)) :
    Prop where
  once : (nodes.map KdNode.index).Perm ((List.finRange n).map some)
  tree : ∃ root t, Stored nodes 0 n root t ∧ t.elements.Perm (List.finRange n) ∧
    t.Split (NotBefore points)

variable {nodes nodes' : List (KdNode n dim)} {id count : Nat} {root : Option Nat}
  {t : SplitTree (Fin dim) (Fin n)}

theorem Stored.congr (h : Stored nodes id count root t)
    (hsame : ∀ k, id ≤ k → k < id + count → nodes'[k]? = nodes[k]?) :
    Stored nodes' id count root t := by
  induction h with
  | leaf => exact .leaf
  | node at_id left right ihl ihr =>
      refine .node ?_ (ihl fun k hlo hhi => ?_) (ihr fun k hlo hhi => ?_)
      · rw [hsame _ le_rfl (by omega), at_id]
      · exact hsame k (by omega) (by omega)
      · exact hsame k (by omega) (by omega)

theorem Stored.root_eq (h : Stored nodes id count root t) :
    root = if count = 0 then none else some id := by
  cases h with
  | leaf => rfl
  | node at_id left right => exact (if_neg (Nat.succ_ne_zero _)).symm

/-- The nodes are the tree's elements in their order. -/
theorem Stored.indices (h : Stored nodes id count root t) :
    ((nodes.drop id).take count).map KdNode.index = t.elements.map some := by
  induction h with
  | leaf => rfl
  | @node id mid rest children l r x a at_id left right ihl ihr =>
      have hid : id < nodes.length := (List.getElem?_eq_some_iff.mp at_id).1
      have hhead : nodes[id] = ⟨some x, children, some a⟩ :=
        (List.getElem?_eq_some_iff.mp at_id).2
      rw [List.drop_eq_getElem_cons hid, List.take_succ_cons, List.take_add, List.drop_drop,
        hhead, List.map_cons, List.map_append, ihl, ihr, SplitTree.elements, List.map_cons,
        List.map_append]

theorem assign_eq {f : KdNode n dim → KdNode n dim} (hid : id < nodes.length) :
    assign nodes id f = some (nodes.modify id f) :=
  if_pos hid

theorem modify_ne {f : KdNode n dim → KdNode n dim} {k : Nat} (hk : k ≠ id) :
    (nodes.modify id f)[k]? = nodes[k]? := by
  simp [hk.symm]

theorem modify_self {f : KdNode n dim → KdNode n dim} {node : KdNode n dim}
    (hnode : nodes[id]? = some node) : (nodes.modify id f)[id]? = some (f node) := by
  simp [hnode]

section Building

variable [LinearOrder R]

theorem strictWeak (points : Fin n → Point R dim) (a : Fin dim) :
    IsStrictWeakOrder (Fin n) fun x y => decide (points x a < points y a) = true := by
  simp only [decide_eq_true_eq]
  exact {
    irrefl := fun x => lt_irrefl _
    trans := fun x y z => lt_trans
    incomp_trans := fun x y z hxy hyz => by
      simp only [not_lt] at hxy hyz ⊢
      exact ⟨hyz.1.trans hxy.1, hxy.2.trans hyz.2⟩ }

variable {nth : NthElement} {points : Fin n → Point R dim}

/-- What `std::nth_element` makes of a range: the halves and the index between them. -/
structure Halved (points : Fin n → Point R dim) (a : Fin dim) (indices low high : List (Fin n))
    (x : Fin n) : Prop where
  perm : (low ++ x :: high).Perm indices
  low : ∀ y ∈ low, NotBefore points a y x
  high : ∀ y ∈ high, NotBefore points a x y

theorem exists_halved (hnth : nth.Lawful) (points : Fin n → Point R dim) (a : Fin dim)
    {indices : List (Fin n)} {mid : Nat} (hmid : mid < indices.length) :
    ∃ low x high, nth (fun lhs rhs => points lhs a < points rhs a) indices mid =
      low ++ x :: high ∧ low.length = mid ∧ Halved points a indices low high x := by
  have hperm := hnth.perm (strictWeak points a) hmid
  have hbound := hperm.length_eq.symm ▸ hmid
  have hx := List.getElem?_eq_getElem hbound
  have hjoin {l : List (Fin n)} (hl : mid < l.length) :
      l.take mid ++ l[mid] :: l.drop (mid + 1) = l := by
    rw [List.getElem_cons_drop, List.take_append_drop]
  refine ⟨_, _, _, (hjoin hbound).symm, ?_, ?_, fun y hy => ?_, fun y hy => ?_⟩
  · rw [List.length_take]
    omega
  · rwa [hjoin hbound]
  · exact decide_eq_false_iff_not.mp (hnth.before (strictWeak points a) hx hy)
  · exact decide_eq_false_iff_not.mp (hnth.behind (strictWeak points a) hx hy)

/-- The range is built into the nodes from `id` on, and nothing else is written. -/
structure Builds (points : Fin n → Point R dim) (indices : List (Fin n)) (id : Nat)
    (nodes nodes' : List (KdNode n dim)) (root : Option Nat) (t : SplitTree (Fin dim) (Fin n)) :
    Prop where
  length : nodes'.length = nodes.length
  same : ∀ k, k < id ∨ id + indices.length ≤ k → nodes'[k]? = nodes[k]?
  stored : Stored nodes' id indices.length root t
  perm : t.elements.Perm indices
  split : t.Split (NotBefore points)

theorem builds_nil (points : Fin n → Point R dim) (id : Nat) (nodes : List (KdNode n dim)) :
    Builds points [] id nodes nodes none .leaf :=
  ⟨rfl, fun _ _ => rfl, .leaf, List.Perm.refl _, trivial⟩

/-- A node is set up before its halves are built, and points to them after that. -/
theorem Halved.builds {a : Fin dim} {indices low high : List (Fin n)} {x : Fin n}
    (h : Halved points a indices low high x) (hid : id < nodes.length)
    {nodes₁ nodes₂ : List (KdNode n dim)} {c₀ c₁ : Option Nat} {l r : SplitTree (Fin dim) (Fin n)}
    (hlow : Builds points low (id + 1)
      (nodes.modify id fun n => { n with index := some x, axis := some a }) nodes₁ c₀ l)
    (hhigh : Builds points high (id + 1 + low.length)
      (nodes₁.modify id fun n => { n with children := Function.update n.children 0 c₀ })
      nodes₂ c₁ r) :
    Builds points indices id nodes
      (nodes₂.modify id fun n => { n with children := Function.update n.children 1 c₁ })
      (some id) (.node l x a r) := by
  have hlength : low.length + high.length + 1 = indices.length := by
    rw [← h.perm.length_eq, List.length_append, List.length_cons, Nat.add_assoc]
  constructor
  · rw [List.length_modify, hhigh.length, List.length_modify, hlow.length, List.length_modify]
  · intro k hk
    rw [modify_ne (by omega), hhigh.same k (by omega), modify_ne (by omega),
      hlow.same k (by omega), modify_ne (by omega)]
  · rw [← hlength]
    have hnode := List.getElem?_eq_getElem hid
    have hset := modify_self (f := fun n => { n with index := some x, axis := some a }) hnode
    rw [← hlow.same id (by omega)] at hset
    have hfirst := modify_self
      (f := fun n => { n with children := Function.update n.children 0 c₀ }) hset
    rw [← hhigh.same id (by omega)] at hfirst
    have hsecond := modify_self
      (f := fun n => { n with children := Function.update n.children 1 c₁ }) hfirst
    refine .node hsecond ?_ ?_
    · refine hlow.stored.congr fun k hlo hhi => ?_
      rw [modify_ne (by omega), hhigh.same k (by omega), modify_ne (by omega)]
    · exact hhigh.stored.congr fun k hlo hhi => modify_ne (by omega)
  · refine List.Perm.trans ?_ h.perm
    refine (List.Perm.cons x (hlow.perm.append hhigh.perm)).trans ?_
    exact List.perm_middle.symm
  · refine ⟨fun y hy => h.low y ?_, fun y hy => h.high y ?_, hlow.split, hhigh.split⟩
    · exact hlow.perm.mem_iff.mp hy
    · exact hhigh.perm.mem_iff.mp hy

theorem buildRecursive_spec [NeZero dim] (hnth : nth.Lawful) (points : Fin n → Point R dim)
    (depth : Nat) {fuel : Nat} {indices : List (Fin n)} (hfuel : indices.length < fuel)
    (hroom : id + indices.length ≤ nodes.length) :
    ∃ root nodes' t, buildRecursive nth points fuel indices depth id nodes = some (root, nodes') ∧
      Builds points indices id nodes nodes' root t := by
  induction fuel generalizing indices depth id nodes with
  | zero => omega
  | succ fuel ih =>
      by_cases hempty : indices = []
      · rw [hempty]
        exact ⟨none, nodes, .leaf, rfl, builds_nil points id nodes⟩
      · have hpos := List.length_pos_iff.mpr hempty
        have hmid : (indices.length - 1) / 2 < indices.length := by omega
        obtain ⟨low, x, high, hnth', hlength, h⟩ :=
          exists_halved hnth points (Fin.ofNat dim depth) hmid
        have hsplit := h.perm.length_eq
        rw [List.length_append, List.length_cons] at hsplit
        have hid : id < nodes.length := by omega
        -- the low half, then the high one, each into its own nodes
        have hroom₁ : id + 1 + low.length ≤ (nodes.modify id fun n =>
            { n with index := some x, axis := some (Fin.ofNat dim depth) }).length := by
          rw [List.length_modify]
          omega
        obtain ⟨c₀, nodes₁, l, hrun₁, hlow⟩ := ih (depth + 1) (by omega) hroom₁
        have hid₁ : id < nodes₁.length := by rwa [hlow.length, List.length_modify]
        have hroom₂ : id + 1 + low.length + high.length ≤ (nodes₁.modify id fun n =>
            { n with children := Function.update n.children 0 c₀ }).length := by
          rw [List.length_modify, hlow.length, List.length_modify]
          omega
        obtain ⟨c₁, nodes₂, r, hrun₂, hhigh⟩ := ih (depth + 1) (by omega) hroom₂
        have hid₂ : id < nodes₂.length := by rwa [hhigh.length, List.length_modify]
        refine ⟨some id, _, _, ?_, h.builds hid hlow hhigh⟩
        have hget : (low ++ x :: high)[low.length]? = some x := by
          rw [List.getElem?_append_right le_rfl, Nat.sub_self]
          rfl
        have hdrop : (low ++ x :: high).drop (low.length + 1) = high := by
          rw [← List.drop_drop, List.drop_left]
          rfl
        have hnotempty : indices.isEmpty = false := List.isEmpty_eq_false_iff.mpr hempty
        rw [buildRecursive, hnotempty]
        rw [← hlength] at hnth'
        simp only [← hlength, hnth', hget, List.take_left, hdrop, assign_eq hid, hrun₁,
          assign_eq hid₁, hrun₂, assign_eq hid₂, Option.bind_eq_bind, Option.bind_some,
          Bool.false_eq_true, if_false]

end Building

section Searching

variable [CommRing R] [LinearOrder R] [IsStrictOrderedRing R]

omit [LinearOrder R] [IsStrictOrderedRing R] in
theorem sdistance_eq_sum (p q : Point R dim) :
    sdistance p q = ∑ i, (p i - q i) * (p i - q i) := by
  rw [sdistance, Fin.sum_univ_def, List.sum_eq_foldl, List.foldl_map]

/-- Along one axis two points are no further apart than they are. -/
theorem sq_axis_le_sdistance (p q : Point R dim) (a : Fin dim) :
    (p a - q a) * (p a - q a) ≤ sdistance p q := by
  rw [sdistance_eq_sum]
  exact Finset.single_le_sum (fun i _ => mul_self_nonneg (p i - q i)) (Finset.mem_univ a)

/-- Along one axis a point behind a split is no nearer than the split. -/
theorem sq_split_le (points : Fin n → Point R dim) (query : Point R dim) {a : Fin dim} {x y : Fin n}
    (h : query a - points x a < 0 ∧ NotBefore points a x y ∨
      ¬ query a - points x a < 0 ∧ NotBefore points a y x) :
    (query a - points x a) * (query a - points x a) ≤ sdistance query (points y) := by
  refine le_trans ?_ (sq_axis_le_sdistance query (points y) a)
  rcases h with ⟨hlow, hle⟩ | ⟨hlow, hle⟩
  · have hle := not_lt.mp hle
    nlinarith
  · have hle := not_lt.mp hle
    have hlow := not_lt.mp hlow
    nlinarith

/-- Beyond a split at least as far away as the radius, no point is within the radius. -/
theorem prunes (points : Fin n → Point R dim) (query : Point R dim) (sradius : R) :
    SplitTree.Prunes (NotBefore points) (fun i => sdistance query (points i) < sradius)
      (fun a i => query a - points i a < 0)
      fun a i => (query a - points i a) * (query a - points i a) < sradius := by
  constructor
  · intro a x y hlow hcross hle hhit
    exact hcross ((sq_split_le points query (Or.inl ⟨hlow, hle⟩)).trans_lt hhit)
  · intro a x y hlow hcross hle hhit
    exact hcross ((sq_split_le points query (Or.inr ⟨hlow, hle⟩)).trans_lt hhit)

omit [IsStrictOrderedRing R] in
theorem searchRadiusRecursive_eq (points : Fin n → Point R dim) (query : Point R dim) (sradius : R)
    (h : Stored nodes id count root t) {fuel : Nat} (hfuel : count < fuel)
    (indices : List (Fin n)) :
    searchRadiusRecursive points nodes query sradius fuel root indices =
      some (indices ++ t.search (fun i => sdistance query (points i) < sradius)
        (fun a i => query a - points i a < 0)
        fun a i => (query a - points i a) * (query a - points i a) < sradius) := by
  induction h generalizing fuel indices with
  | leaf =>
      obtain ⟨k, rfl⟩ := Nat.exists_eq_succ_of_ne_zero (Nat.ne_of_gt hfuel)
      rw [searchRadiusRecursive, SplitTree.search, List.append_nil]
  | @node id mid rest children l r x a at_id left right ihl ihr =>
      obtain ⟨k, rfl⟩ := Nat.exists_eq_succ_of_ne_zero (Nat.ne_zero_of_lt hfuel)
      have hleft : mid < k := by omega
      have hright : rest < k := by omega
      have hpush : (if sdistance query (points x) < sradius then indices ++ [x] else indices) =
          indices ++ if sdistance query (points x) < sradius then [x] else [] := by
        split_ifs
        · rfl
        · rw [List.append_nil]
      have hsecond : (1 : Fin 2) - 0 = 1 := rfl
      have hfirst : (1 : Fin 2) - 1 = 0 := rfl
      rw [searchRadiusRecursive, SplitTree.search]
      simp only [at_id, Option.bind_eq_bind, Option.bind_some, hpush]
      by_cases hlow : query a - points x a < 0
      · simp only [if_pos hlow, ihl hleft, Option.bind_some, hsecond, ihr hright]
        by_cases hcross : (query a - points x a) * (query a - points x a) < sradius
        · rw [if_pos hcross, if_pos hcross, List.append_assoc, List.append_assoc]
        · rw [if_neg hcross, if_neg hcross, List.append_assoc, List.append_nil]
      · simp only [if_neg hlow, ihr hright, Option.bind_some, hfirst, ihl hleft]
        by_cases hcross : (query a - points x a) * (query a - points x a) < sradius
        · rw [if_pos hcross, if_pos hcross, List.append_assoc, List.append_assoc]
        · rw [if_neg hcross, if_neg hcross, List.append_assoc, List.append_nil]

omit [IsStrictOrderedRing R] in
theorem searchRadius_eq (points : Fin n → Point R dim) (query : Point R dim) (radius : R)
    (h : Stored nodes 0 n root t) (hlength : nodes.length = n) {fuel : Nat} (hfuel : n < fuel)
    (indices : List (Fin n)) :
    searchRadius points nodes query radius fuel indices =
      some (indices ++ t.search (fun i => sdistance query (points i) < radius * radius)
        (fun a i => query a - points i a < 0)
        fun a i => (query a - points i a) * (query a - points i a) < radius * radius) := by
  rw [searchRadius, ← searchRadiusRecursive_eq points query (radius * radius) h hfuel, h.root_eq]
  by_cases hzero : n = 0
  · rw [if_pos hzero, if_pos (List.isEmpty_iff_length_eq_zero.mpr (hlength.trans hzero))]
    obtain ⟨k, rfl⟩ := Nat.exists_eq_succ_of_ne_zero (Nat.ne_zero_of_lt hfuel)
    rfl
  · rw [if_neg hzero, if_neg]
    rw [List.isEmpty_iff_length_eq_zero, hlength]
    exact hzero

omit [CommRing R] [IsStrictOrderedRing R] in
/-- The constructor stores a tree of all points, which splits them. -/
theorem construct_spec [NeZero dim] {nth : NthElement} (hnth : nth.Lawful)
    (points : Fin n → Point R dim) {fuel : Nat} (hfuel : n < fuel) :
    ∃ nodes root t, construct nth points fuel = some nodes ∧ nodes.length = n ∧
      Stored nodes 0 n root t ∧ t.elements.Perm (List.finRange n) ∧ t.Split (NotBefore points) := by
  have hall : (List.finRange n).length = n := List.length_finRange
  have hroom : 0 + (List.finRange n).length ≤
      (List.replicate n ({} : KdNode n dim)).length := by
    rw [hall, List.length_replicate]
    omega
  obtain ⟨root, nodes, t, hrun, hbuilds⟩ :=
    buildRecursive_spec hnth points 0 (hall.symm ▸ hfuel) hroom
  have hstored := hbuilds.stored
  rw [hall] at hstored
  refine ⟨nodes, root, t, ?_, ?_, hstored, hbuilds.perm, hbuilds.split⟩
  · rw [construct, hrun]
    rfl
  · rw [hbuilds.length, List.length_replicate]

/-- Whatever the points, the query and the radius: the constructor builds a well-formed tree, and
the search pushes each index within the radius once and no other. -/
theorem searchRadius_exact [NeZero dim] {nth : NthElement} (hnth : nth.Lawful)
    (points : Fin n → Point R dim) {fuel : Nat} (hfuel : n < fuel) :
    ∃ nodes, construct nth points fuel = some nodes ∧ WellFormed points nodes ∧
      ∀ query radius indices, ∃ found,
        searchRadius points nodes query radius fuel indices = some (indices ++ found) ∧
          found.Nodup ∧ ∀ i, i ∈ found ↔ sdistance query (points i) < radius * radius := by
  obtain ⟨nodes, root, t, hrun, hlength, hstored, hperm, hsplit⟩ :=
    construct_spec hnth points hfuel
  refine ⟨nodes, hrun, ⟨?_, root, t, hstored, hperm, hsplit⟩, ?_⟩
  · have hindices := hstored.indices
    rw [List.drop_zero, List.take_of_length_le hlength.le] at hindices
    rw [hindices]
    exact hperm.map _
  · intro query radius indices
    have hfound := (prunes points query (radius * radius)).search_perm hsplit
    refine ⟨_, searchRadius_eq points query radius hstored hlength hfuel indices, ?_, fun i => ?_⟩
    · exact hfound.nodup_iff.mpr ((hperm.nodup_iff.mpr (List.nodup_finRange n)).filter _)
    · rw [hfound.mem_iff, List.mem_filter, hperm.mem_iff]
      simp

end Searching

/-! ## A sort as `std::nth_element` -/

/-- Sort the whole range. -/
def sortRange : NthElement := fun lt xs _ => xs.mergeSort fun x y => !lt y x

theorem pairwise_sortRange {α : Type} {lt : α → α → Bool}
    (hlt : IsStrictWeakOrder α fun x y => lt x y) (xs : List α) (k : Nat) :
    (sortRange lt xs k).Pairwise fun x y => (!lt y x) = true := by
  refine List.pairwise_mergeSort (fun x y z hyx hzy => ?_) (fun x y => ?_) xs
  · rw [Bool.not_eq_true', ← Bool.not_eq_true] at hyx hzy ⊢
    intro hzx
    have hxy : ¬ lt x y := fun h => hzy (hlt.trans _ _ _ hzx h)
    have hyz : ¬ lt y z := fun h => hyx (hlt.trans _ _ _ h hzx)
    exact (hlt.incomp_trans x y z ⟨hxy, hyx⟩ ⟨hyz, hzy⟩).2 hzx
  · cases hxy : lt x y with
    | false => simp
    | true =>
        have hyx : ¬ lt y x := fun h => hlt.irrefl x (hlt.trans _ _ _ hxy h)
        simp [hyx]

theorem lawful_sortRange : sortRange.Lawful := by
  constructor
  · exact fun _ _ => List.mergeSort_perm ..
  · intro α lt xs k x y hlt hx hy
    obtain ⟨i, hi, rfl⟩ := List.getElem_of_mem hy
    obtain ⟨hk, rfl⟩ := List.getElem?_eq_some_iff.mp hx
    rw [List.length_take] at hi
    rw [List.getElem_take]
    have hsorted := List.pairwise_iff_getElem.mp (pairwise_sortRange hlt xs k) i k (by omega) hk
      (by omega)
    simpa using hsorted
  · intro α lt xs k x y hlt hx hy
    obtain ⟨i, hi, rfl⟩ := List.getElem_of_mem hy
    obtain ⟨hk, rfl⟩ := List.getElem?_eq_some_iff.mp hx
    rw [List.length_drop] at hi
    rw [List.getElem_drop]
    have hsorted := List.pairwise_iff_getElem.mp (pairwise_sortRange hlt xs k) k (k + 1 + i) hk
      (by omega) (by omega)
    simpa using hsorted

/-- Three points on a plane, two of them the same. -/
def threePoints : Fin 3 → Point Int 2 := ![![0, 0], ![3, 4], ![0, 0]]

theorem searchRadius_exact_three : ∃ nodes,
    construct sortRange threePoints 4 = some nodes ∧ WellFormed threePoints nodes ∧
      ∀ query radius indices, ∃ found,
        searchRadius threePoints nodes query radius 4 indices = some (indices ++ found) ∧
          found.Nodup ∧ ∀ i, i ∈ found ↔ sdistance query (threePoints i) < radius * radius :=
  searchRadius_exact lawful_sortRange _ (by decide)

end KdTree

end Dots

import Dots.Algo.KdTree
import Mathlib.Data.List.InsertIdx
import Mathlib.Data.List.Sort
import Mathlib.Data.Prod.Lex

/-!
# Nearest points of `algo::kdtree`

The searches whose bound depends on what was found so far: the nearest point, and up to `k` points
within a radius. The bound of the second one is the distance of the last entry as soon as there
is one, whether or not there is room for more.
-/

namespace Dots

open Library

namespace KdTree

variable {R : Type} {n dim : Nat} {σ : Type}

section Search

variable [CommRing R] [LinearOrder R]

/-- The recursion that `search_nearest_recursive` and `search_k_radius_recursive` have in common:
a point below the bound is entered, and a split below it is crossed. -/
def searchRecursive (points : Fin n → Point R dim) (nodes : List (KdNode n dim))
    (query : Point R dim) (bound : σ → R) (enter : σ → R → Fin n → σ) :
    Nat → Option Nat → σ → Option σ
  | 0, _, _ => none
  | _ + 1, none, s => some s
  | fuel + 1, some n, s => do
      let n ← nodes[n]?
      let index ← n.index
      let train := points index
      let sdist := sdistance query train
      let s := if sdist < bound s then enter s sdist index else s
      let axis ← n.axis
      let axisDist := query axis - train axis
      let child := side axisDist
      let s ← searchRecursive points nodes query bound enter fuel (n.children child) s
      if axisDist * axisDist < bound s then
        searchRecursive points nodes query bound enter fuel (n.children child.rev) s
      else some s

/-- `search_nearest_recursive`: the index, and `nearestDist`. -/
def searchNearestRecursive (points : Fin n → Point R dim) (nodes : List (KdNode n dim))
    (query : Point R dim) :
    Nat → Option Nat → Option (Fin n) × R → Option (Option (Fin n) × R) :=
  searchRecursive points nodes query Prod.snd fun _ sdist index => (some index, sdist)

/-- `search_nearest`; `max` is `std::numeric_limits<Distance>::max()`, and `none` is `-1`. -/
def searchNearest (points : Fin n → Point R dim) (nodes : List (KdNode n dim))
    (query : Point R dim) (max : R) (fuel : Nat) : Option (Option (Fin n)) :=
  if nodes.isEmpty then some none
  else (searchNearestRecursive points nodes query fuel (some 0) (none, max)).map Prod.fst

/-- `operator<` of `std::pair<Distance, int>`. -/
def pairLt (p q : R × Fin n) : Bool :=
  decide (p.1 < q.1) || (!decide (q.1 < p.1) && decide (p.2 < q.2))

/-- `std::upper_bound`, on a range that is sorted. -/
def upperBound (queue : List (R × Fin n)) (pair : R × Fin n) : Nat :=
  queue.findIdx fun q => pairLt pair q

/-- What `search_k_radius_recursive` does with a point below the bound. -/
def enqueue (k : Nat) (queue : List (R × Fin n)) (sdist : R) (index : Fin n) : List (R × Fin n) :=
  let pair := (sdist, index)
  let queue := if queue.length = k then queue.dropLast else queue
  queue.insertIdx (upperBound queue pair) pair

/-- `queue.empty() ? sradius : queue.back().first`. -/
def queueBound (sradius : R) (queue : List (R × Fin n)) : R :=
  (queue.getLast?.map Prod.fst).getD sradius

/-- `search_k_radius_recursive`. -/
def searchKRadiusRecursive (points : Fin n → Point R dim) (nodes : List (KdNode n dim))
    (query : Point R dim) (sradius : R) (k : Nat) :
    Nat → Option Nat → List (R × Fin n) → Option (List (R × Fin n)) :=
  searchRecursive points nodes query (queueBound sradius) (enqueue k)

/-- `search_k_radius`. -/
def searchKRadius (points : Fin n → Point R dim) (nodes : List (KdNode n dim))
    (query : Point R dim) (radius : R) (k fuel : Nat) (indices : List (R × Fin n)) :
    Option (List (R × Fin n)) :=
  if nodes.isEmpty then some indices
  else searchKRadiusRecursive points nodes query (radius * radius) k fuel (some 0) indices

end Search

section Searching

variable [CommRing R] [LinearOrder R] {nodes : List (KdNode n dim)} {id count : Nat}
  {root : Option Nat} {t : SplitTree (Fin dim) (Fin n)} {bound : σ → R} {enter : σ → R → Fin n → σ}

/-! ## The searches visit every point, as it seems -/

/-- Enter the point `i` if it is below the bound. -/
def visit (points : Fin n → Point R dim) (query : Point R dim) (bound : σ → R)
    (enter : σ → R → Fin n → σ) (s : σ) (i : Fin n) : σ :=
  if sdistance query (points i) < bound s then enter s (sdistance query (points i)) i else s

theorem searchRecursive_eq (points : Fin n → Point R dim) (query : Point R dim)
    (h : Stored nodes id count root t) {fuel : Nat} (hfuel : count < fuel) (s : σ) :
    searchRecursive points nodes query bound enter fuel root s =
      some (t.explore (visit points query bound enter) (fun a i => query a - points i a < 0)
        (fun s a i => (query a - points i a) * (query a - points i a) < bound s) s) := by
  induction h generalizing fuel s with
  | leaf =>
      obtain ⟨k, rfl⟩ := Nat.exists_eq_succ_of_ne_zero (Nat.ne_of_gt hfuel)
      rfl
  | @node id mid rest children l r x a at_id left right ihl ihr =>
      obtain ⟨k, rfl⟩ := Nat.exists_eq_succ_of_ne_zero (Nat.ne_zero_of_lt hfuel)
      have hleft : mid < k := by omega
      have hright : rest < k := by omega
      have hsecond : (0 : Fin 2).rev = 1 := rfl
      have hfirst : (1 : Fin 2).rev = 0 := rfl
      rw [searchRecursive, SplitTree.explore]
      simp only [at_id, Option.bind_eq_bind, Option.bind_some]
      change (searchRecursive points nodes query bound enter k _
        (visit points query bound enter s x)).bind _ = _
      by_cases hlow : query a - points x a < 0
      · simp only [side, if_pos hlow, ihl hleft, Option.bind_some, hsecond, ihr hright]
        split_ifs <;> rfl
      · simp only [side, if_neg hlow, ihr hright, Option.bind_some, hfirst, ihl hleft]
        split_ifs <;> rfl

variable [IsStrictOrderedRing R]

theorem idle (points : Fin n → Point R dim) (query : Point R dim) (bound : σ → R)
    (enter : σ → R → Fin n → σ) :
    SplitTree.Idle (NotBefore points) (visit points query bound enter)
      (fun a i => query a - points i a < 0)
      fun s a i => (query a - points i a) * (query a - points i a) < bound s := by
  constructor
  · intro s a x y hlow hcross hle
    refine if_neg (not_lt.mpr ((not_lt.mp hcross).trans ?_))
    exact sq_split_le points query (Or.inl ⟨hlow, hle⟩)
  · intro s a x y hlow hcross hle
    refine if_neg (not_lt.mpr ((not_lt.mp hcross).trans ?_))
    exact sq_split_le points query (Or.inr ⟨hlow, hle⟩)

/-- The points in the order in which a search comes to them. -/
def visits (points : Fin n → Point R dim) (query : Point R dim) (t : SplitTree (Fin dim) (Fin n)) :
    List (Fin n) :=
  t.order fun a i => query a - points i a < 0

/-- A search with a bound enters what a search without one does. -/
theorem searchRecursive_foldl (points : Fin n → Point R dim) (query : Point R dim)
    (h : Stored nodes id count root t) (ht : t.Split (NotBefore points)) {fuel : Nat}
    (hfuel : count < fuel) (s : σ) :
    searchRecursive points nodes query bound enter fuel root s =
      some ((visits points query t).foldl (visit points query bound enter) s) := by
  rw [searchRecursive_eq points query h hfuel, (idle points query bound enter).explore_eq ht]
  rfl

/-- On an empty vector of nodes there is no first node, and nothing to visit. -/
theorem searchRecursive_root (points : Fin n → Point R dim) (query : Point R dim) (bound : σ → R)
    (enter : σ → R → Fin n → σ) (h : Stored nodes 0 n root t) (ht : t.Split (NotBefore points))
    (hlength : nodes.length = n) {fuel : Nat} (hfuel : n < fuel) (s : σ) :
    (if nodes.isEmpty then some s
      else searchRecursive points nodes query bound enter fuel (some 0) s) =
      some ((visits points query t).foldl (visit points query bound enter) s) := by
  rw [← searchRecursive_foldl points query h ht hfuel, h.root_eq]
  by_cases hzero : n = 0
  · rw [if_pos hzero, if_pos (List.isEmpty_iff_length_eq_zero.mpr (hlength.trans hzero))]
    obtain ⟨k, rfl⟩ := Nat.exists_eq_succ_of_ne_zero (Nat.ne_zero_of_lt hfuel)
    rfl
  · rw [if_neg hzero, if_neg]
    rw [List.isEmpty_iff_length_eq_zero, hlength]
    exact hzero

/-! ## The nearest point -/

omit [IsStrictOrderedRing R] in
/-- The last point that is entered is as near as any that was visited. -/
theorem foldl_nearest (points : Fin n → Point R dim) (query : Point R dim) (l : List (Fin n))
    (s : Option (Fin n) × R) {r : Option (Fin n) × R}
    (hr : l.foldl (visit points query Prod.snd fun _ sdist index => (some index, sdist)) s = r) :
    r.2 ≤ s.2 ∧ (∀ i ∈ l, r.2 ≤ sdistance query (points i)) ∧
      (r = s ∨ ∃ i ∈ l, r = (some i, sdistance query (points i))) := by
  induction l generalizing s with
  | nil => exact ⟨hr ▸ le_rfl, fun i hi => absurd hi List.not_mem_nil, Or.inl hr.symm⟩
  | cons i l ih =>
      rw [List.foldl_cons, visit] at hr
      by_cases hlt : sdistance query (points i) < s.2
      · rw [if_pos hlt] at hr
        obtain ⟨hle, hall, hsome⟩ := ih _ hr
        refine ⟨hle.trans hlt.le, ?_, Or.inr ?_⟩
        · rintro j (_ | ⟨_, hj⟩)
          · exact hle
          · exact hall j hj
        · rcases hsome with rfl | ⟨j, hj, rfl⟩
          · exact ⟨i, List.mem_cons_self, rfl⟩
          · exact ⟨j, List.mem_cons_of_mem i hj, rfl⟩
      · rw [if_neg hlt] at hr
        obtain ⟨hle, hall, hsome⟩ := ih _ hr
        refine ⟨hle, ?_, hsome.imp_right ?_⟩
        · rintro j (_ | ⟨_, hj⟩)
          · exact hle.trans (not_lt.mp hlt)
          · exact hall j hj
        · rintro ⟨j, hj, rfl⟩
          exact ⟨j, List.mem_cons_of_mem i hj, rfl⟩

/-- Whatever the points and the query: `search_nearest` returns the index of a nearest point, and
`-1` only when there is no point. -/
theorem searchNearest_exact [NeZero dim] {nth : NthElement} (hnth : nth.Lawful)
    (points : Fin n → Point R dim) {fuel : Nat} (hfuel : n < fuel) :
    ∃ nodes, construct nth points fuel = some nodes ∧
      ∀ query max, (∀ i, sdistance query (points i) < max) →
        ∃ index, searchNearest points nodes query max fuel = some index ∧
          (index = none ↔ n = 0) ∧
          ∀ i, index = some i → ∀ j, sdistance query (points i) ≤ sdistance query (points j) := by
  obtain ⟨nodes, root, t, hrun, hlength, hstored, hperm, hsplit⟩ :=
    construct_spec hnth points hfuel
  refine ⟨nodes, hrun, fun query max hmax => ?_⟩
  have hvisits : ∀ i, i ∈ visits points query t := fun i =>
    ((t.order_perm _).trans hperm).mem_iff.mpr (List.mem_finRange i)
  generalize hr : (visits points query t).foldl
    (visit points query Prod.snd fun _ sdist index => (some index, sdist)) (none, max) = r
  obtain ⟨-, hall, hsome⟩ := foldl_nearest points query _ _ hr
  refine ⟨r.1, ?_, ?_, ?_⟩
  · have hsearch := searchRecursive_root points query Prod.snd
      (fun _ sdist index => (some index, sdist)) hstored hsplit hlength hfuel (none, max)
    rw [hr] at hsearch
    rw [searchNearest, searchNearestRecursive]
    split_ifs at hsearch ⊢
    · rw [← Option.some.inj hsearch]
    · rw [hsearch]
      rfl
  · rcases hsome with rfl | ⟨i, -, rfl⟩
    · refine iff_of_true rfl ?_
      by_contra hpos
      have hi := hvisits ⟨0, Nat.pos_of_ne_zero hpos⟩
      exact absurd (hmax _) (not_lt.mpr (hall _ hi))
    · refine iff_of_false (Option.some_ne_none i) ?_
      rintro rfl
      exact i.elim0
  · rintro i hi j
    rcases hsome with rfl | ⟨i', -, rfl⟩
    · exact absurd hi.symm (Option.some_ne_none i)
    · obtain rfl := Option.some.inj hi
      exact hall j (hvisits j)

theorem searchNearest_exact_three : ∃ nodes, construct sortRange threePoints 4 = some nodes ∧
    ∃ index, searchNearest threePoints nodes ![1, 1] 1000 4 = some index ∧
      (index = none ↔ 3 = 0) ∧ ∀ i, index = some i → ∀ j,
        sdistance ![1, 1] (threePoints i) ≤ sdistance ![1, 1] (threePoints j) := by
  obtain ⟨nodes, hrun, h⟩ := searchNearest_exact lawful_sortRange threePoints (show 3 < 4 by decide)
  exact ⟨nodes, hrun, h ![1, 1] 1000 (by decide)⟩

/-! ## The nearest `k` points -/

section Queue

omit [CommRing R] [IsStrictOrderedRing R]

variable {d : Fin n → R} {k : Nat} {seen : List (Fin n)} {queue : List (R × Fin n)} {j : Fin n}

theorem pairLt_iff {p q : R × Fin n} : pairLt p q = true ↔ toLex p < toLex q := by
  simp only [pairLt, Bool.or_eq_true, Bool.and_eq_true, Bool.not_eq_true', decide_eq_true_eq,
    decide_eq_false_iff_not, not_lt, Prod.Lex.toLex_lt_toLex]
  constructor
  · rintro (hlt | ⟨hle, hlt⟩)
    · exact Or.inl hlt
    · exact hle.lt_or_eq.imp_right fun heq => ⟨heq, hlt⟩
  · rintro (hlt | ⟨heq, hlt⟩)
    · exact Or.inl hlt
    · exact Or.inr ⟨heq.le, hlt⟩

theorem insertIdx_upperBound (queue : List (R × Fin n)) (pair : R × Fin n) :
    queue.insertIdx (upperBound queue pair) pair =
      queue.orderedInsert (fun p q => toLex p < toLex q) pair := by
  induction queue with
  | nil => rfl
  | cons q queue ih =>
      rw [upperBound, List.findIdx_cons, List.orderedInsert_cons]
      by_cases hlt : toLex pair < toLex q
      · rw [if_pos hlt, pairLt_iff.mpr hlt]
        rfl
      · rw [if_neg hlt, eq_false_of_ne_true (mt pairLt_iff.mp hlt), ← ih]
        rfl

/-- Inserting at the upper bound keeps the order. -/
theorem pairwise_orderedInsert (pair : R × Fin n)
    (h : queue.Pairwise fun p q => toLex p ≤ toLex q) :
    (queue.orderedInsert (fun p q => toLex p < toLex q) pair).Pairwise
      fun p q => toLex p ≤ toLex q := by
  induction queue with
  | nil => exact List.pairwise_singleton _ pair
  | cons q queue ih =>
      obtain ⟨hq, hrest⟩ := List.pairwise_cons.mp h
      rw [List.orderedInsert_cons]
      split_ifs with hlt
      · refine List.pairwise_cons.mpr ⟨fun p hp => ?_, h⟩
        rcases List.mem_cons.mp hp with rfl | hp
        · exact hlt.le
        · exact hlt.le.trans (hq p hp)
      · refine List.pairwise_cons.mpr ⟨fun p hp => ?_, ih hrest⟩
        rcases (List.mem_orderedInsert _).mp hp with rfl | hp
        · exact not_lt.mp hlt
        · exact hq p hp

theorem fst_le_of_toLex {p q : R × Fin n} (h : toLex p ≤ toLex q) : p.1 ≤ q.1 :=
  (Prod.Lex.toLex_le_toLex.mp h).elim le_of_lt fun h => h.1.le

/-- The queue holds `k` of the points that were seen, or all of them, none farther than one it
leaves out. -/
structure Best (d : Fin n → R) (k : Nat) (seen : List (Fin n)) (queue : List (R × Fin n)) :
    Prop where
  ordered : queue.Pairwise fun p q => toLex p ≤ toLex q
  dist : ∀ p ∈ queue, p.1 = d p.2
  length : queue.length = min k seen.length
  out : ∃ out, (queue.map Prod.snd ++ out).Perm seen ∧ ∀ i ∈ out, ∀ p ∈ queue, p.1 ≤ d i

theorem best_nil (d : Fin n → R) (k : Nat) : Best d k [] [] :=
  ⟨List.Pairwise.nil, by simp, by simp, [], List.Perm.refl _, by simp⟩

/-- The last entry is one of the farthest. -/
theorem Best.le_last (h : Best d k seen queue) {b : R × Fin n} (hb : queue.getLast? = some b)
    {p : R × Fin n} (hp : p ∈ queue) : p.1 ≤ b.1 := by
  obtain ⟨rest, rfl⟩ := List.getLast?_eq_some_iff.mp hb
  rcases List.mem_append.mp hp with hp | hp
  · have hordered := (List.pairwise_append.mp h.ordered).2.2
    exact fst_le_of_toLex (hordered p hp b (List.mem_singleton_self b))
  · rw [List.mem_singleton.mp hp]

/-- With room left, nothing was left out. -/
theorem Best.perm (h : Best d k seen queue) (hroom : queue.length ≠ k) :
    (queue.map Prod.snd).Perm seen := by
  obtain ⟨out, hperm, -⟩ := h.out
  have hlength := hperm.length_eq
  have hmin := h.length
  rw [List.length_append, List.length_map] at hlength
  obtain rfl : out = [] := List.length_eq_zero_iff.mp (by omega)
  rwa [List.append_nil] at hperm

/-- A point enters a queue with room, or takes the place of a farther one. -/
theorem Best.enqueue (h : Best d k seen queue) (hk : 1 ≤ k)
    (hfull : queue.length = k → ∀ b, queue.getLast? = some b → d j < b.1) :
    Best d k (seen ++ [j]) (KdTree.enqueue k queue (d j) j) := by
  rw [KdTree.enqueue, insertIdx_upperBound]
  split_ifs with hlength
  · -- the last entry is left out from now on
    obtain ⟨rest, b, rfl⟩ : ∃ rest b, queue = rest ++ [b] := by
      have hne : queue ≠ [] := List.ne_nil_of_length_pos (by omega)
      exact ⟨_, _, (List.dropLast_append_getLast hne).symm⟩
    have hlt := hfull hlength b List.getLast?_concat
    have hlast : ∀ p ∈ rest, p.1 ≤ b.1 := fun p hp =>
      h.le_last List.getLast?_concat (List.mem_append_left _ hp)
    obtain ⟨out, hperm, hout⟩ := h.out
    have hmem : b ∈ rest ++ [b] := List.mem_append_right _ (List.mem_singleton_self b)
    have hseen := hperm.length_eq
    rw [List.length_append, List.length_map, hlength] at hseen
    rw [List.length_append, List.length_singleton] at hlength
    rw [List.dropLast_concat]
    refine ⟨pairwise_orderedInsert _ (List.pairwise_append.mp h.ordered).1, fun p hp => ?_, ?_,
      b.2 :: out, ?_, fun i hi p hp => ?_⟩
    · rcases (List.mem_orderedInsert _).mp hp with rfl | hp
      · rfl
      · exact h.dist p (List.mem_append_left _ hp)
    · rw [List.orderedInsert_length, List.length_append, List.length_singleton]
      omega
    · have hinsert := ((List.perm_orderedInsert
        (fun p q => toLex p < toLex q) (d j, j) rest).map Prod.snd).append_right (b.2 :: out)
      refine hinsert.trans ?_
      refine (List.Perm.cons j ?_).trans (List.perm_append_singleton j seen).symm
      rw [List.map_append, List.append_assoc] at hperm
      exact hperm
    · have hp' : p.1 ≤ b.1 := by
        rcases (List.mem_orderedInsert _).mp hp with rfl | hp
        · exact hlt.le
        · exact hlast p hp
      rcases List.mem_cons.mp hi with rfl | hi
      · exact hp'.trans (h.dist b hmem).le
      · exact hp'.trans (hout i hi b hmem)
  · have hperm := h.perm hlength
    refine ⟨pairwise_orderedInsert _ h.ordered, fun p hp => ?_, ?_, [], ?_, by simp⟩
    · rcases (List.mem_orderedInsert _).mp hp with rfl | hp
      · rfl
      · exact h.dist p hp
    · have hmin := h.length
      rw [List.orderedInsert_length, List.length_append, List.length_singleton]
      omega
    · rw [List.append_nil]
      refine ((List.perm_orderedInsert _ _ queue).map Prod.snd).trans ?_
      exact (List.Perm.cons j hperm).trans (List.perm_append_singleton j seen).symm

/-- A full queue takes no point that is as far as its last one. -/
theorem Best.pass (h : Best d k seen queue) (hfull : queue.length = k)
    (hfar : ∀ p ∈ queue, p.1 ≤ d j) : Best d k (seen ++ [j]) queue := by
  obtain ⟨out, hperm, hout⟩ := h.out
  have hmin := h.length
  refine ⟨h.ordered, h.dist, ?_, out ++ [j], ?_, fun i hi p hp => ?_⟩
  · rw [List.length_append, List.length_singleton]
    omega
  · rw [← List.append_assoc]
    exact hperm.append_right [j]
  · rcases List.mem_append.mp hi with hi | hi
    · exact hout i hi p hp
    · rw [List.mem_singleton.mp hi]
      exact hfar p hp

/-- The first of the points, and those behind it that are nearer. -/
def nearer (d : Fin n → R) : List (Fin n) → List (Fin n)
  | [] => []
  | i :: found => i :: found.filter fun j => d j < d i

theorem le_of_mem_nearer {i : Fin n} {found : List (Fin n)} (hj : j ∈ nearer d (i :: found)) :
    d j ≤ d i := by
  rcases List.mem_cons.mp hj with rfl | hj
  · exact le_rfl
  · exact (of_decide_eq_true (List.mem_filter.mp hj).2).le

theorem nearer_append {i : Fin n} {found : List (Fin n)} :
    nearer d (i :: (found ++ [j])) =
      if d j < d i then nearer d (i :: found) ++ [j] else nearer d (i :: found) := by
  rw [nearer, nearer, List.filter_append]
  split_ifs with hlt <;> simp [hlt]

/-- A point that was passed over is no nearer than those that were not. -/
theorem le_of_not_mem_nearer {i : Fin n} {found : List (Fin n)} (hi : i ∈ found)
    (hfar : i ∉ nearer d found) (hj : j ∈ nearer d found) : d j ≤ d i := by
  cases found with
  | nil => exact absurd hi List.not_mem_nil
  | cons first found =>
      refine (le_of_mem_nearer hj).trans (not_lt.mp fun hlt => hfar ?_)
      rcases List.mem_cons.mp hi with rfl | hi
      · exact absurd hlt (lt_irrefl _)
      · exact List.mem_cons_of_mem _ (List.mem_filter.mpr ⟨hi, decide_eq_true hlt⟩)

theorem nearer_sublist (d : Fin n → R) (found : List (Fin n)) : (nearer d found).Sublist found := by
  cases found with
  | nil => exact List.Sublist.refl _
  | cons first found => exact List.filter_sublist.cons_cons first

end Queue

omit [IsStrictOrderedRing R] in
/-- The search keeps the nearest of the points that are nearer than the first one it found. -/
theorem foldl_enqueue (points : Fin n → Point R dim) (query : Point R dim) (sradius : R) {k : Nat}
    (hk : 1 ≤ k) (l : List (Fin n)) :
    Best (fun i => sdistance query (points i)) k
      (nearer (fun i => sdistance query (points i))
        (l.filter fun i => sdistance query (points i) < sradius))
      (l.foldl (visit points query (queueBound sradius) (enqueue k)) []) := by
  induction l using List.reverseRecOn with
  | nil => exact best_nil _ k
  | append_singleton l j ih =>
      have hlast : [j].filter (fun i => sdistance query (points i) < sradius) =
          if sdistance query (points j) < sradius then [j] else [] := by
        by_cases hlt : sdistance query (points j) < sradius <;> simp [hlt]
      rw [List.foldl_append, List.foldl_cons, List.foldl_nil, List.filter_append, hlast]
      generalize l.foldl (visit points query (queueBound sradius) (enqueue k)) [] = queue at ih ⊢
      generalize hfound : l.filter (fun i => sdistance query (points i) < sradius) = found at ih ⊢
      rw [visit]
      match found with
      | [] =>
          obtain rfl : queue = [] := by
            have hlength := ih.length
            rw [nearer, List.length_nil, Nat.min_zero] at hlength
            exact List.length_eq_zero_iff.mp hlength
          change Best _ _ _ (if sdistance query (points j) < sradius then _ else _)
          split_ifs with hlt
          · refine ih.enqueue hk fun hzero => ?_
            rw [List.length_nil] at hzero
            omega
          · exact ih
      | i :: found =>
          obtain ⟨rest, b, rfl⟩ : ∃ rest b, queue = rest ++ [b] := by
            have hlength := ih.length
            rw [nearer, List.length_cons] at hlength
            have hne : queue ≠ [] := List.ne_nil_of_length_pos (by omega)
            exact ⟨_, _, (List.dropLast_append_getLast hne).symm⟩
          have hback : (rest ++ [b]).getLast? = some b := List.getLast?_concat
          have hb : b ∈ rest ++ [b] := List.mem_append_right _ (List.mem_singleton_self b)
          have hbound : queueBound sradius (rest ++ [b]) = b.1 := by
            rw [queueBound, hback]
            rfl
          -- the last entry is no farther than the first point that was found
          have hbi : b.1 ≤ sdistance query (points i) := by
            obtain ⟨out, hperm, -⟩ := ih.out
            have hmem := hperm.mem_iff.mp (List.mem_append_left _ (List.mem_map_of_mem hb))
            rw [ih.dist b hb]
            exact le_of_mem_nearer hmem
          have hi : sdistance query (points i) < sradius := by
            have hmem : i ∈ l.filter fun i => sdistance query (points i) < sradius := by
              rw [hfound]
              exact List.mem_cons_self
            exact of_decide_eq_true (List.mem_filter.mp hmem).2
          rw [hbound]
          by_cases hlt : sdistance query (points j) < b.1
          · rw [if_pos hlt, if_pos (hlt.trans (hbi.trans_lt hi)), List.cons_append, nearer_append,
              if_pos (hlt.trans_le hbi)]
            refine ih.enqueue hk fun hfull b' hb' => ?_
            rw [hback] at hb'
            obtain rfl := Option.some.inj hb'
            exact hlt
          · rw [if_neg hlt]
            by_cases hin : sdistance query (points j) < sradius
            · rw [if_pos hin, List.cons_append, nearer_append]
              split_ifs with hji
              · refine ih.pass ?_ fun p hp => (ih.le_last hback hp).trans (not_lt.mp hlt)
                -- with room left, the first point would be in the queue
                by_contra hroom
                have hmem := (ih.perm hroom).mem_iff.mpr List.mem_cons_self
                obtain ⟨p, hp, rfl⟩ := List.mem_map.mp hmem
                have hfar := ih.le_last hback hp
                rw [ih.dist p hp] at hfar
                exact hlt (hji.trans_le hfar)
              · exact ih
            · rw [if_neg hin, List.append_nil]
              exact ih

/-- What `search_k_radius` is for: `k` of the points within the radius, or all of them, each once
and with its distance, in the order of the distances, and none farther than one it leaves out. -/
structure KNearest (points : Fin n → Point R dim) (query : Point R dim) (radius : R) (k : Nat)
    (queue : List (R × Fin n)) : Prop where
  length : queue.length = min k
    ((List.finRange n).filter fun i => sdistance query (points i) < radius * radius).length
  once : (queue.map Prod.snd).Nodup
  inside : ∀ p ∈ queue, p.1 = sdistance query (points p.2) ∧ p.1 < radius * radius
  sorted : queue.Pairwise fun p q => p.1 ≤ q.1
  nearest : ∀ i, sdistance query (points i) < radius * radius → i ∉ queue.map Prod.snd →
    ∀ p ∈ queue, p.1 ≤ sdistance query (points i)

omit [IsStrictOrderedRing R] in
/-- A queue with the best of the points that are nearer than the first one found is what it should
be when it is as long as it should be. -/
theorem Best.kNearest_iff {points : Fin n → Point R dim} {query : Point R dim} {radius : R}
    {k : Nat} {found : List (Fin n)} {queue : List (R × Fin n)}
    (hfound : found.Perm
      ((List.finRange n).filter fun i => sdistance query (points i) < radius * radius))
    (h : Best (fun i => sdistance query (points i)) k
      (nearer (fun i => sdistance query (points i)) found) queue) :
    KNearest points query radius k queue ↔
      min k found.length ≤ (nearer (fun i => sdistance query (points i)) found).length := by
  obtain ⟨out, hperm, hout⟩ := h.out
  have hmem : ∀ i, i ∈ found ↔ sdistance query (points i) < radius * radius := fun i => by
    rw [hfound.mem_iff, List.mem_filter]
    simp
  have hsub := nearer_sublist (fun i => sdistance query (points i)) found
  have hlength := h.length
  constructor
  · intro hk
    have hall := hk.length
    rw [← hfound.length_eq] at hall
    omega
  · intro hlong
    constructor
    · have hle := hsub.length_le
      rw [hlength, ← hfound.length_eq]
      omega
    · have hnodup := hfound.nodup_iff.mpr ((List.nodup_finRange n).filter _)
      exact (List.nodup_append.mp (hperm.nodup_iff.mpr (hnodup.sublist hsub))).1
    · intro p hp
      have hseen := hperm.mem_iff.mp (List.mem_append_left out (List.mem_map_of_mem hp))
      have hdist := h.dist p hp
      refine ⟨hdist, ?_⟩
      rw [hdist]
      exact (hmem p.2).mp (hsub.subset hseen)
    · exact h.ordered.imp fun hle => fst_le_of_toLex hle
    · intro i hi hleft p hp
      have hin := (hmem i).mpr hi
      by_cases hnear : i ∈ nearer (fun i => sdistance query (points i)) found
      · rcases List.mem_append.mp (hperm.mem_iff.mpr hnear) with hqueue | hmore
        · exact absurd hqueue hleft
        · exact hout i hmore p hp
      · -- a point that was passed over is no nearer than the first one, and the queue is
        have hseen := hperm.mem_iff.mp (List.mem_append_left out (List.mem_map_of_mem hp))
        rw [h.dist p hp]
        exact le_of_not_mem_nearer hin hnear hseen

/-- Whatever the points, the query and the radius: `search_k_radius` finds what it should exactly
when enough of the points within the radius are nearer than the first one that a search of the
radius comes to. -/
theorem searchKRadius_exact_iff [NeZero dim] {nth : NthElement} (hnth : nth.Lawful)
    (points : Fin n → Point R dim) {fuel : Nat} (hfuel : n < fuel) :
    ∃ nodes, construct nth points fuel = some nodes ∧
      ∀ query radius k, 1 ≤ k → ∃ found queue,
        searchRadius points nodes query radius fuel [] = some found ∧
          searchKRadius points nodes query radius k fuel [] = some queue ∧
            (KNearest points query radius k queue ↔
              min k found.length ≤
                (nearer (fun i => sdistance query (points i)) found).length) := by
  obtain ⟨nodes, root, t, hrun, hlength, hstored, hperm, hsplit⟩ :=
    construct_spec hnth points hfuel
  refine ⟨nodes, hrun, fun query radius k hk => ⟨_, _,
    searchRadius_eq points query radius hstored hlength hfuel [],
    searchRecursive_root points query (queueBound (radius * radius)) (enqueue k) hstored hsplit
      hlength hfuel [], ?_⟩⟩
  rw [List.nil_append, (prunes points query (radius * radius)).search_eq hsplit]
  refine Best.kNearest_iff ?_ (foldl_enqueue points query (radius * radius) hk _)
  exact ((t.order_perm _).trans hperm).filter _

theorem searchKRadius_exact_iff_three : ∃ nodes, construct sortRange threePoints 4 = some nodes ∧
    ∃ found queue, searchRadius threePoints nodes ![1, 1] 5 4 [] = some found ∧
      searchKRadius threePoints nodes ![1, 1] 5 2 4 [] = some queue ∧
        (KNearest threePoints ![1, 1] 5 2 queue ↔
          min 2 found.length ≤
            (nearer (fun i => sdistance ![1, 1] (threePoints i)) found).length) := by
  obtain ⟨nodes, hrun, h⟩ := searchKRadius_exact_iff lawful_sortRange threePoints (show 3 < 4 by decide)
  exact ⟨nodes, hrun, h ![1, 1] 5 2 (by decide)⟩

/-- Two points on a line. -/
def twoPoints : Fin 2 → Point Int 1 := ![![1], ![2]]

/-- The nearer of two points is found first; the other one is not entered although there is
room. -/
theorem searchKRadius_two : ∃ nodes, construct sortRange twoPoints 3 = some nodes ∧
    searchKRadius twoPoints nodes ![0] 3 2 3 [] = some [(1, 0)] ∧
      ¬ KNearest twoPoints ![0] 3 2 [(1, 0)] := by
  have hrun : construct sortRange twoPoints 3 =
      some [⟨some 0, ![none, some 1], some 0⟩, ⟨some 1, ![none, none], some 0⟩] := by
    have hsort : [0, 1].mergeSort (fun x y => !decide (twoPoints y 0 < twoPoints x 0)) =
        [0, 1] := by
      rw [List.mergeSort_of_pairwise]
      decide
    have hall : List.finRange 2 = [0, 1] := rfl
    simp only [construct, buildRecursive, sortRange, hall]
    simp [hsort, assign]
    decide
  refine ⟨_, hrun, by decide, fun h => ?_⟩
  exact absurd h.length (by decide)

end Searching

end KdTree

end Dots

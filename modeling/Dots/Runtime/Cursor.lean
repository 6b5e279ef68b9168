import Dots.Runtime.Set
import Dots.Runtime.StackAllocator

/-!
# The loops of `core::database::set`

Cursors are `tsize_t`, and results are written to arrays that the caller provides. Where the
lengths fit, each loop gives what the recursion on lists gives.
-/

namespace Dots.Set

/-- A `tsize_t` after `++`. -/
def next16 (i : Nat) : Nat := (i + 1) % 2 ^ 16

theorem next16_eq {i n : Nat} (hi : i < n) (hn : n < 2 ^ 16) : next16 i = i + 1 := by
  simp only [next16]
  omega

variable {α : Type*} [LinearOrder α]

/-- `dst[k] = x`. -/
def put (dst : List α) (k : Nat) (x : α) : Option (List α) :=
  if k < dst.length then some (dst.set k x) else none

/-- The three loops of `merge`. -/
def mergeLoop (lhs rhs : List α) : Nat → Nat → Nat → Nat → List α → Option (List α × Nat)
  | 0, _, _, _, _ => none
  | fuel + 1, i, j, k, dst =>
      match lhs[i]?, rhs[j]? with
      | some x, some y =>
          if y < x then do
            let dst ← put dst k y
            mergeLoop lhs rhs fuel i (next16 j) (next16 k) dst
          else if x < y then do
            let dst ← put dst k x
            mergeLoop lhs rhs fuel (next16 i) j (next16 k) dst
          else do
            let dst ← put dst k x
            mergeLoop lhs rhs fuel (next16 i) (next16 j) (next16 k) dst
      | some x, none => do
          let dst ← put dst k x
          mergeLoop lhs rhs fuel (next16 i) j (next16 k) dst
      | none, some y => do
          let dst ← put dst k y
          mergeLoop lhs rhs fuel i (next16 j) (next16 k) dst
      | none, none => some (dst, k)

/-- The two loops of `substract`. -/
def substractLoop (lhs rhs : List α) : Nat → Nat → Nat → Nat → List α → Option (List α × Nat)
  | 0, _, _, _, _ => none
  | fuel + 1, i, j, k, dst =>
      match lhs[i]?, rhs[j]? with
      | some x, some y =>
          if y < x then substractLoop lhs rhs fuel i (next16 j) k dst
          else if x < y then do
            let dst ← put dst k x
            substractLoop lhs rhs fuel (next16 i) j (next16 k) dst
          else substractLoop lhs rhs fuel (next16 i) (next16 j) k dst
      | some x, none => do
          let dst ← put dst k x
          substractLoop lhs rhs fuel (next16 i) j (next16 k) dst
      | none, _ => some (dst, k)

/-- The loop of `intersect`. -/
def intersectLoop (lhs rhs : List α) : Nat → Nat → Nat → Nat → List α → Option (List α × Nat)
  | 0, _, _, _, _ => none
  | fuel + 1, i, j, k, dst =>
      match lhs[i]?, rhs[j]? with
      | some x, some y =>
          if y < x then intersectLoop lhs rhs fuel i (next16 j) k dst
          else if x < y then intersectLoop lhs rhs fuel (next16 i) j k dst
          else do
            let dst ← put dst k x
            intersectLoop lhs rhs fuel (next16 i) (next16 j) (next16 k) dst
      | _, _ => some (dst, k)

def anyLoop (lhs rhs : List α) : Nat → Nat → Nat → Option Bool
  | 0, _, _ => none
  | fuel + 1, i, j =>
      match lhs[i]?, rhs[j]? with
      | some x, some y =>
          if y < x then anyLoop lhs rhs fuel i (next16 j)
          else if x < y then anyLoop lhs rhs fuel (next16 i) j
          else some true
      | _, _ => some false

def allLoop (lhs rhs : List α) : Nat → Nat → Nat → Option Bool
  | 0, _, _ => none
  | fuel + 1, i, j =>
      match lhs[i]?, rhs[j]? with
      | some x, some y =>
          if y < x then some false
          else if x < y then allLoop lhs rhs fuel (next16 i) j
          else allLoop lhs rhs fuel (next16 i) (next16 j)
      | _, _ => some (j == rhs.length)

/-! ## Cursors -/

variable {x y z : α} {xs ys lhs rhs : List α} {i j k n fuel : Nat} {dst : List α}

omit [LinearOrder α] in
theorem drop_of_getElem? {l : List α} (h : l[i]? = some x) :
    i < l.length ∧ l.drop i = x :: l.drop (i + 1) := by
  obtain ⟨hi, rfl⟩ := List.getElem?_eq_some_iff.mp h
  exact ⟨hi, List.drop_eq_getElem_cons hi⟩

omit [LinearOrder α] in
theorem drop_of_getElem?_none {l : List α} (h : l[i]? = none) : l.drop i = [] :=
  List.drop_eq_nil_of_le (List.getElem?_eq_none_iff.mp h)

/-- A loop has written `zs` behind the first `k` elements, and nothing behind `zs`. -/
def Fills (r : Option (List α × Nat)) (dst : List α) (k : Nat) (zs : List α) : Prop :=
  ∃ dst', r = some (dst', k + zs.length) ∧ dst'.length = dst.length ∧
    dst'.take (k + zs.length) = dst.take k ++ zs ∧
      dst'.drop (k + zs.length) = dst.drop (k + zs.length)

omit [LinearOrder α] in
theorem Fills.nil (dst : List α) (k : Nat) : Fills (some (dst, k)) dst k [] :=
  ⟨dst, rfl, rfl, (List.append_nil _).symm, rfl⟩

omit [LinearOrder α] in
theorem Fills.put {run : List α → Option (List α × Nat)} {zs : List α} (hk : k < dst.length)
    (h : ∀ dst', dst'.length = dst.length → Fills (run dst') dst' (k + 1) zs) :
    Fills ((put dst k z).bind run) dst k (z :: zs) := by
  obtain ⟨dst', hrun, hlen, htake, hdrop⟩ := h (dst.set k z) List.length_set
  have hwritten : (dst.set k z).take (k + 1) = dst.take k ++ [z] := by
    rw [List.take_succ_eq_append_getElem (by rwa [List.length_set]), List.getElem_set_self,
      List.take_set_of_le le_rfl]
  have hnum : k + (z :: zs).length = k + 1 + zs.length := by
    rw [List.length_cons]
    omega
  refine ⟨dst', ?_, hlen.trans List.length_set, ?_, ?_⟩
  · rw [Set.put, if_pos hk, Option.bind_some, hrun, hnum]
  · rw [hnum, htake, hwritten, List.append_assoc, List.singleton_append]
  · rw [hnum, hdrop, List.drop_set_of_lt (by omega)]

/-! ## The loops give what the recursions give -/

theorem merge_cons_cons : merge (x :: xs) (y :: ys) =
    if y < x then y :: merge (x :: xs) ys
    else if x < y then x :: merge xs (y :: ys) else x :: merge xs ys := rfl

/-- `merge` writes within the array as long as there is room for the result. -/
theorem mergeLoop_fills (hl : lhs.length < 2 ^ 16) (hr : rhs.length < 2 ^ 16)
    (hfuel : lhs.length - i + (rhs.length - j) < fuel)
    (hroom : k + (merge (lhs.drop i) (rhs.drop j)).length ≤ dst.length)
    (hk : k + (merge (lhs.drop i) (rhs.drop j)).length < 2 ^ 16) :
    Fills (mergeLoop lhs rhs fuel i j k dst) dst k (merge (lhs.drop i) (rhs.drop j)) := by
  induction fuel generalizing i j k dst with
  | zero => exact absurd hfuel (Nat.not_lt_zero _)
  | succ fuel ih =>
      rw [mergeLoop]
      cases hx : lhs[i]? with
      | none =>
          have hdx := drop_of_getElem?_none hx
          cases hy : rhs[j]? with
          | none =>
              rw [hdx, drop_of_getElem?_none hy]
              exact Fills.nil dst k
          | some y =>
              obtain ⟨hj, hdy⟩ := drop_of_getElem? hy
              have hmerge : merge (lhs.drop i) (rhs.drop j) =
                  y :: merge (lhs.drop i) (rhs.drop (j + 1)) := by
                rw [hdx, hdy, merge, merge]
              rw [hmerge, List.length_cons] at hroom hk
              rw [hmerge, next16_eq hj hr, next16_eq (Nat.lt_succ_self k) (by omega)]
              exact Fills.put (by omega) fun dst' hdst' => ih (by omega) (by omega) (by omega)
      | some x =>
          obtain ⟨hi, hdx⟩ := drop_of_getElem? hx
          cases hy : rhs[j]? with
          | none =>
              have hdy := drop_of_getElem?_none hy
              have hmerge : merge (lhs.drop i) (rhs.drop j) =
                  x :: merge (lhs.drop (i + 1)) (rhs.drop j) := by
                rw [hdx, hdy, merge_nil, merge_nil]
              rw [hmerge, List.length_cons] at hroom hk
              rw [hmerge, next16_eq hi hl, next16_eq (Nat.lt_succ_self k) (by omega)]
              exact Fills.put (by omega) fun dst' hdst' => ih (by omega) (by omega) (by omega)
          | some y =>
              obtain ⟨hj, hdy⟩ := drop_of_getElem? hy
              have hmerge : merge (lhs.drop i) (rhs.drop j) =
                  if y < x then y :: merge (lhs.drop i) (rhs.drop (j + 1))
                  else if x < y then x :: merge (lhs.drop (i + 1)) (rhs.drop j)
                  else x :: merge (lhs.drop (i + 1)) (rhs.drop (j + 1)) := by
                rw [hdx, hdy, merge_cons_cons]
              simp only [next16_eq hi hl, next16_eq hj hr]
              split_ifs at hmerge ⊢ with hlt hgt
              · rw [hmerge, List.length_cons] at hroom hk
                rw [hmerge, next16_eq (Nat.lt_succ_self k) (by omega)]
                exact Fills.put (by omega) fun dst' hdst' => ih (by omega) (by omega) (by omega)
              · rw [hmerge, List.length_cons] at hroom hk
                rw [hmerge, next16_eq (Nat.lt_succ_self k) (by omega)]
                exact Fills.put (by omega) fun dst' hdst' => ih (by omega) (by omega) (by omega)
              · rw [hmerge, List.length_cons] at hroom hk
                rw [hmerge, next16_eq (Nat.lt_succ_self k) (by omega)]
                exact Fills.put (by omega) fun dst' hdst' => ih (by omega) (by omega) (by omega)

omit [LinearOrder α] in
theorem put_eq_some {dst' : List α} (h : put dst k x = some dst') :
    k < dst.length ∧ dst'.length = dst.length := by
  rw [put] at h
  split_ifs at h with hk
  rw [← Option.some.inj h]
  exact ⟨hk, List.length_set⟩

/-- A `merge` that stays within the array has room for its result. -/
theorem mergeLoop_room {r : List α × Nat} (hl : lhs.length < 2 ^ 16) (hr : rhs.length < 2 ^ 16)
    (hdst : dst.length < 2 ^ 16) (hk : k ≤ dst.length)
    (hs : mergeLoop lhs rhs fuel i j k dst = some r) :
    k + (merge (lhs.drop i) (rhs.drop j)).length ≤ dst.length := by
  induction fuel generalizing i j k dst with
  | zero => exact absurd hs.symm (Option.some_ne_none r)
  | succ fuel ih =>
      rw [mergeLoop] at hs
      -- one element more is written, and the rest fits behind it
      have hwrite : ∀ {z i' j'}, ((put dst k z).bind fun dst =>
          mergeLoop lhs rhs fuel i' j' (next16 k) dst) = some r →
            k + (z :: merge (lhs.drop i') (rhs.drop j')).length ≤ dst.length := by
        intro z i' j' h
        obtain ⟨dst', hput, h⟩ := Option.bind_eq_some_iff.mp h
        obtain ⟨hlt, hlen⟩ := put_eq_some hput
        rw [next16_eq hlt hdst] at h
        have hrest := ih (by omega) (by omega) h
        rw [List.length_cons]
        omega
      cases hx : lhs[i]? with
      | none =>
          have hdx := drop_of_getElem?_none hx
          cases hy : rhs[j]? with
          | none =>
              rw [hdx, drop_of_getElem?_none hy]
              exact hk
          | some y =>
              obtain ⟨hj, hdy⟩ := drop_of_getElem? hy
              simp only [hx, hy, next16_eq hj hr] at hs
              have hfit := hwrite hs
              rw [hdx] at hfit ⊢
              rwa [hdy]
      | some x =>
          obtain ⟨hi, hdx⟩ := drop_of_getElem? hx
          cases hy : rhs[j]? with
          | none =>
              simp only [hx, hy, next16_eq hi hl] at hs
              have hfit := hwrite hs
              rw [drop_of_getElem?_none hy, merge_nil] at hfit ⊢
              rwa [hdx]
          | some y =>
              obtain ⟨hj, hdy⟩ := drop_of_getElem? hy
              have hmerge : merge (lhs.drop i) (rhs.drop j) =
                  if y < x then y :: merge (lhs.drop i) (rhs.drop (j + 1))
                  else if x < y then x :: merge (lhs.drop (i + 1)) (rhs.drop j)
                  else x :: merge (lhs.drop (i + 1)) (rhs.drop (j + 1)) := by
                rw [hdx, hdy, merge_cons_cons]
              simp only [hx, hy, next16_eq hi hl, next16_eq hj hr] at hs
              split_ifs at hs hmerge with hlt hgt
              · rw [hmerge]
                exact hwrite hs
              · rw [hmerge]
                exact hwrite hs
              · rw [hmerge]
                exact hwrite hs

/-- The array for `merge` may be as long as both operands together. -/
theorem length_merge_le (xs ys : List α) : (merge xs ys).length ≤ xs.length + ys.length := by
  induction xs generalizing ys with
  | nil => simp [merge]
  | cons x xs ih =>
      induction ys with
      | nil => simp [merge_nil]
      | cons y ys ihy =>
          rw [merge_cons_cons]
          split_ifs
          · simp only [List.length_cons] at ihy ⊢
            omega
          · have hle := ih (y :: ys)
            simp only [List.length_cons] at hle ⊢
            omega
          · have hle := ih ys
            simp only [List.length_cons] at hle ⊢
            omega

theorem substract_cons_cons : substract (x :: xs) (y :: ys) =
    if y < x then substract (x :: xs) ys
    else if x < y then x :: substract xs (y :: ys) else substract xs ys := rfl

/-- `substract` writes no more than its first operand has. -/
theorem substractLoop_fills (hl : lhs.length < 2 ^ 16) (hr : rhs.length < 2 ^ 16)
    (hfuel : lhs.length - i + (rhs.length - j) < fuel) (hroom : lhs.length ≤ dst.length)
    (hk : k ≤ i) :
    Fills (substractLoop lhs rhs fuel i j k dst) dst k (substract (lhs.drop i) (rhs.drop j)) := by
  induction fuel generalizing i j k dst with
  | zero => exact absurd hfuel (Nat.not_lt_zero _)
  | succ fuel ih =>
      rw [substractLoop]
      cases hx : lhs[i]? with
      | none =>
          rw [drop_of_getElem?_none hx, substract]
          exact Fills.nil dst k
      | some x =>
          obtain ⟨hi, hdx⟩ := drop_of_getElem? hx
          have hput : ∀ j' ≥ j, Fills ((put dst k x).bind fun dst =>
              substractLoop lhs rhs fuel (next16 i) j' (next16 k) dst) dst k
                (x :: substract (lhs.drop (i + 1)) (rhs.drop j')) := by
            intro j' hj'
            rw [next16_eq hi hl, next16_eq (Nat.lt_succ_self k) (by omega)]
            exact Fills.put (by omega) fun dst' hdst' => ih (by omega) (by omega) (by omega)
          cases hy : rhs[j]? with
          | none =>
              have hdy := drop_of_getElem?_none hy
              have hsub : substract (lhs.drop i) (rhs.drop j) =
                  x :: substract (lhs.drop (i + 1)) (rhs.drop j) := by
                rw [hdx, hdy, substract_nil, substract_nil]
              rw [hsub]
              exact hput j le_rfl
          | some y =>
              obtain ⟨hj, hdy⟩ := drop_of_getElem? hy
              have hsub : substract (lhs.drop i) (rhs.drop j) =
                  if y < x then substract (lhs.drop i) (rhs.drop (j + 1))
                  else if x < y then x :: substract (lhs.drop (i + 1)) (rhs.drop j)
                  else substract (lhs.drop (i + 1)) (rhs.drop (j + 1)) := by
                rw [hdx, hdy, substract_cons_cons]
              simp only
              split_ifs at hsub ⊢ with hlt hgt
              · rw [hsub, next16_eq hj hr]
                exact ih (by omega) hroom hk
              · rw [hsub]
                exact hput j le_rfl
              · rw [hsub, next16_eq hi hl, next16_eq hj hr]
                exact ih (by omega) hroom (by omega)

/-- `intersect` writes no more than there is room for. -/
theorem intersectLoop_fills (hl : lhs.length < 2 ^ 16) (hr : rhs.length < 2 ^ 16)
    (hfuel : lhs.length - i + (rhs.length - j) < fuel)
    (hroom : k + (intersect (lhs.drop i) (rhs.drop j)).length ≤ dst.length) (hk : k ≤ i) :
    Fills (intersectLoop lhs rhs fuel i j k dst) dst k (intersect (lhs.drop i) (rhs.drop j)) := by
  induction fuel generalizing i j k dst with
  | zero => exact absurd hfuel (Nat.not_lt_zero _)
  | succ fuel ih =>
      rw [intersectLoop]
      cases hx : lhs[i]? with
      | none =>
          rw [drop_of_getElem?_none hx, intersect]
          exact Fills.nil dst k
      | some x =>
          obtain ⟨hi, hdx⟩ := drop_of_getElem? hx
          cases hy : rhs[j]? with
          | none =>
              rw [drop_of_getElem?_none hy, intersect_nil]
              exact Fills.nil dst k
          | some y =>
              obtain ⟨hj, hdy⟩ := drop_of_getElem? hy
              have hinter : intersect (lhs.drop i) (rhs.drop j) =
                  if y < x then intersect (lhs.drop i) (rhs.drop (j + 1))
                  else if x < y then intersect (lhs.drop (i + 1)) (rhs.drop j)
                  else x :: intersect (lhs.drop (i + 1)) (rhs.drop (j + 1)) := by
                rw [hdx, hdy, intersect_cons_cons]
              simp only
              split_ifs at hinter ⊢ with hlt hgt
              · rw [hinter] at hroom ⊢
                rw [next16_eq hj hr]
                exact ih (by omega) hroom hk
              · rw [hinter] at hroom ⊢
                rw [next16_eq hi hl]
                exact ih (by omega) hroom (by omega)
              · rw [hinter, List.length_cons] at hroom
                rw [hinter, next16_eq hi hl, next16_eq hj hr,
                  next16_eq (Nat.lt_succ_self k) (by omega)]
                exact Fills.put (by omega) fun dst' hdst' => ih (by omega) (by omega) (by omega)

theorem anyLoop_eq (hl : lhs.length < 2 ^ 16) (hr : rhs.length < 2 ^ 16)
    (hfuel : lhs.length - i + (rhs.length - j) < fuel) :
    anyLoop lhs rhs fuel i j = some (any (lhs.drop i) (rhs.drop j)) := by
  induction fuel generalizing i j with
  | zero => exact absurd hfuel (Nat.not_lt_zero _)
  | succ fuel ih =>
      rw [anyLoop]
      cases hx : lhs[i]? with
      | none => rw [drop_of_getElem?_none hx, any]
      | some x =>
          obtain ⟨hi, hdx⟩ := drop_of_getElem? hx
          cases hy : rhs[j]? with
          | none => rw [drop_of_getElem?_none hy, any_nil]
          | some y =>
              obtain ⟨hj, hdy⟩ := drop_of_getElem? hy
              have hany : any (lhs.drop i) (rhs.drop j) =
                  if y < x then any (lhs.drop i) (rhs.drop (j + 1))
                  else if x < y then any (lhs.drop (i + 1)) (rhs.drop j) else true := by
                rw [hdx, hdy]
                rfl
              simp only
              split_ifs at hany ⊢ with hlt hgt
              · rw [hany, next16_eq hj hr, ih (by omega)]
              · rw [hany, next16_eq hi hl, ih (by omega)]
              · rw [hany]

theorem allLoop_eq (hl : lhs.length < 2 ^ 16) (hr : rhs.length < 2 ^ 16)
    (hfuel : lhs.length - i + (rhs.length - j) < fuel) (hj : j ≤ rhs.length) :
    allLoop lhs rhs fuel i j = some (all (lhs.drop i) (rhs.drop j)) := by
  induction fuel generalizing i j with
  | zero => exact absurd hfuel (Nat.not_lt_zero _)
  | succ fuel ih =>
      rw [allLoop]
      cases hy : rhs[j]? with
      | none =>
          have hend : j = rhs.length := le_antisymm hj (List.getElem?_eq_none_iff.mp hy)
          rw [drop_of_getElem?_none hy, all_nil, hend]
          cases lhs[i]? with
          | none => simp
          | some x => simp
      | some y =>
          obtain ⟨hj, hdy⟩ := drop_of_getElem? hy
          cases hx : lhs[i]? with
          | none =>
              rw [drop_of_getElem?_none hx, hdy, all]
              simpa using hj.ne
          | some x =>
              obtain ⟨hi, hdx⟩ := drop_of_getElem? hx
              have hall : all (lhs.drop i) (rhs.drop j) =
                  if y < x then false
                  else if x < y then all (lhs.drop (i + 1)) (rhs.drop j)
                  else all (lhs.drop (i + 1)) (rhs.drop (j + 1)) := by
                rw [hdx, hdy, all]
              simp only
              split_ifs at hall ⊢ with hlt hgt
              · rw [hall]
              · rw [hall, next16_eq hi hl, ih (by omega) hj.le]
              · rw [hall, next16_eq hi hl, next16_eq hj hr, ih (by omega) hj]

/-- Neither operand is longer than the result. -/
theorem length_le_merge (xs ys : List α) : ys.length ≤ (merge xs ys).length := by
  induction xs generalizing ys with
  | nil => exact le_rfl
  | cons x xs ih =>
      induction ys with
      | nil => exact Nat.zero_le _
      | cons y ys ihy =>
          rw [merge_cons_cons]
          split_ifs
          · exact Nat.succ_le_succ ihy
          · exact (ih (y :: ys)).trans (Nat.le_succ _)
          · exact Nat.succ_le_succ (ih ys)

/-! ## Calls -/

/-- An array of `n` elements; what is in it was left by others. -/
def arrayOf {β : Type*} (junk : Nat → β) (n : Nat) : List β := (List.range n).map junk

omit [LinearOrder α] in
theorem length_arrayOf (junk : Nat → α) (n : Nat) : (arrayOf junk n).length = n := by
  rw [arrayOf, List.length_map, List.length_range]

/-- `stack_array`: `n` elements of `size` bytes, with what is left of the stack then. The source
does not look at the pointer. -/
def stackArray {β : Type*} (junk : Nat → β) (size n left : Nat) : Option (List β × Nat) :=
  (stackRoom left [size * n]).map fun left => (arrayOf junk n, left)

/-- `set::merge`, with the array behind the result. -/
def mergeTo (lhs rhs dst : List α) : Option (List α × Nat) :=
  mergeLoop lhs rhs (lhs.length + rhs.length + 1) 0 0 0 dst

/-- `set::substract`, with the array behind the result. -/
def substractTo (lhs rhs dst : List α) : Option (List α × Nat) :=
  substractLoop lhs rhs (lhs.length + rhs.length + 1) 0 0 0 dst

/-- `set::intersect`, with the array behind the result. -/
def intersectTo (lhs rhs dst : List α) : Option (List α × Nat) :=
  intersectLoop lhs rhs (lhs.length + rhs.length + 1) 0 0 0 dst

/-- `lhs.any(rhs)`. -/
def anyOf (lhs rhs : List α) : Option Bool := anyLoop lhs rhs (lhs.length + rhs.length + 1) 0 0

/-- `lhs.all(rhs)`. -/
def allOf (lhs rhs : List α) : Option Bool := allLoop lhs rhs (lhs.length + rhs.length + 1) 0 0

/-- A `set` of the source: its elements rise, and their number is a `tsize_t`. -/
structure IsSet (xs : List α) : Prop where
  sorted : Sorted xs
  narrow : xs.length < 2 ^ 16

theorem mergeTo_eq (dst : List α) (hl : lhs.length < 2 ^ 16) (hr : rhs.length < 2 ^ 16)
    (hroom : (merge lhs rhs).length ≤ dst.length) (hk : (merge lhs rhs).length < 2 ^ 16) :
    ∃ dst', mergeTo lhs rhs dst = some (dst', (merge lhs rhs).length) ∧
      dst'.length = dst.length ∧ dst'.take (merge lhs rhs).length = merge lhs rhs := by
  obtain ⟨dst', hrun, hlen, htake, -⟩ := mergeLoop_fills (i := 0) (j := 0) (k := 0) hl hr
    (Nat.lt_succ_self _) (by simpa using hroom) (by simpa using hk)
  exact ⟨dst', by simpa [mergeTo] using hrun, hlen, by simpa using htake⟩

/-- With no room for the result, `merge` writes past the end. -/
theorem mergeTo_eq_none (hl : lhs.length < 2 ^ 16) (hr : rhs.length < 2 ^ 16)
    (hdst : dst.length < 2 ^ 16) (hroom : dst.length < (merge lhs rhs).length) :
    mergeTo lhs rhs dst = none := by
  cases hs : mergeTo lhs rhs dst with
  | none => rfl
  | some r =>
      have hfit := mergeLoop_room hl hr hdst (Nat.zero_le _) hs
      simp only [List.drop_zero, Nat.zero_add] at hfit
      exact absurd hfit (not_le.mpr hroom)

theorem substractTo_eq (dst : List α) (hl : lhs.length < 2 ^ 16) (hr : rhs.length < 2 ^ 16)
    (hroom : lhs.length ≤ dst.length) :
    ∃ dst', substractTo lhs rhs dst = some (dst', (substract lhs rhs).length) ∧
      dst'.length = dst.length ∧ dst'.take (substract lhs rhs).length = substract lhs rhs := by
  obtain ⟨dst', hrun, hlen, htake, -⟩ := substractLoop_fills (i := 0) (j := 0) (k := 0) hl hr
    (Nat.lt_succ_self _) hroom le_rfl
  exact ⟨dst', by simpa [substractTo] using hrun, hlen, by simpa using htake⟩

/-- The call returns a set of the elements with `p`. It writes them to the front of the array, no
more than `bound`, and nothing behind them. -/
def Returns (r : Option (List α × Nat)) (dst : List α) (p : α → Prop) (bound : Nat) : Prop :=
  ∃ dst' k, r = some (dst', k) ∧ k ≤ bound ∧ dst'.length = dst.length ∧ Sorted (dst'.take k) ∧
    (∀ x, x ∈ dst'.take k ↔ p x) ∧ dst'.drop k = dst.drop k

theorem Fills.returns {r : Option (List α × Nat)} {zs : List α} {p : α → Prop} {bound : Nat}
    (h : Fills r dst 0 zs) (hbound : zs.length ≤ bound) (hsorted : Sorted zs)
    (hmem : ∀ x, x ∈ zs ↔ p x) : Returns r dst p bound := by
  obtain ⟨dst', hrun, hlen, htake, hdrop⟩ := h
  rw [Nat.zero_add] at hrun htake hdrop
  rw [List.take_zero, List.nil_append] at htake
  refine ⟨dst', zs.length, hrun, hbound, hlen, ?_, ?_, hdrop⟩
  · rwa [htake]
  · rwa [htake]

theorem anyOf_eq (hl : lhs.length < 2 ^ 16) (hr : rhs.length < 2 ^ 16) :
    anyOf lhs rhs = some (any lhs rhs) :=
  anyLoop_eq (i := 0) (j := 0) hl hr (Nat.lt_succ_self _)

theorem allOf_eq (hl : lhs.length < 2 ^ 16) (hr : rhs.length < 2 ^ 16) :
    allOf lhs rhs = some (all lhs rhs) :=
  allLoop_eq (i := 0) (j := 0) hl hr (Nat.lt_succ_self _) (Nat.zero_le _)

/-- What the operations of `set` give, whatever array the results are written to. -/
theorem operations_exact (hl : Sorted lhs) (hr : Sorted rhs)
    (hlength : lhs.length + rhs.length ≤ 65535) :
    (∀ dst, lhs.length + rhs.length ≤ dst.length → Returns (mergeTo lhs rhs dst) dst
        (fun x => x ∈ lhs ∨ x ∈ rhs) (lhs.length + rhs.length)) ∧
      (∀ dst, lhs.length ≤ dst.length → Returns (substractTo lhs rhs dst) dst
        (fun x => x ∈ lhs ∧ x ∉ rhs) lhs.length) ∧
      (∀ dst, min lhs.length rhs.length ≤ dst.length → Returns (intersectTo lhs rhs dst) dst
        (fun x => x ∈ lhs ∧ x ∈ rhs) (min lhs.length rhs.length)) ∧
      (∃ r, anyOf lhs rhs = some r ∧ (r = true ↔ ∃ x ∈ lhs, x ∈ rhs)) ∧
      ∃ r, allOf lhs rhs = some r ∧ (r = true ↔ ∀ x ∈ rhs, x ∈ lhs) := by
  have hl16 : lhs.length < 2 ^ 16 := by omega
  have hr16 : rhs.length < 2 ^ 16 := by omega
  refine ⟨fun dst hdst => ?_, fun dst hdst => ?_, fun dst hdst => ?_, ?_, ?_⟩
  · have hle := length_merge_le lhs rhs
    refine (mergeLoop_fills (i := 0) (j := 0) (k := 0) hl16 hr16 (Nat.lt_succ_self _) ?_ ?_).returns
      hle (sorted_merge hl hr) (mem_merge lhs rhs)
    · rw [List.drop_zero, List.drop_zero]
      omega
    · rw [List.drop_zero, List.drop_zero]
      omega
  · exact (substractLoop_fills (i := 0) (j := 0) (k := 0) hl16 hr16 (Nat.lt_succ_self _) hdst
      le_rfl).returns (substract_sublist lhs rhs).length_le (sorted_substract hl rhs)
      (mem_substract hl hr)
  · have hle := le_min (intersect_sublist lhs rhs).length_le
      (intersect_sublist_right lhs rhs).length_le
    refine (intersectLoop_fills (i := 0) (j := 0) (k := 0) hl16 hr16 (Nat.lt_succ_self _) ?_
      le_rfl).returns hle (sorted_intersect hl rhs) (mem_intersect hl hr)
    rw [Nat.zero_add]
    exact hle.trans hdst
  · exact ⟨_, anyOf_eq hl16 hr16, any_iff hl hr⟩
  · exact ⟨_, allOf_eq hl16 hr16, all_iff (hl.imp le_of_lt) hr⟩

theorem operations_exact_three :
    (∀ dst, 5 ≤ dst.length → Returns (mergeTo [1, 3, 5] [3, 4] dst) dst
        (fun x => x ∈ [1, 3, 5] ∨ x ∈ [3, 4]) 5) ∧
      (∀ dst, 3 ≤ dst.length → Returns (substractTo [1, 3, 5] [3, 4] dst) dst
        (fun x => x ∈ [1, 3, 5] ∧ x ∉ [3, 4]) 3) ∧
      (∀ dst, 2 ≤ dst.length → Returns (intersectTo [1, 3, 5] [3, 4] dst) dst
        (fun x => x ∈ [1, 3, 5] ∧ x ∈ [3, 4]) 2) ∧
      (∃ r, anyOf [1, 3, 5] [3, 4] = some r ∧ (r = true ↔ ∃ x ∈ [1, 3, 5], x ∈ [3, 4])) ∧
      ∃ r, allOf [1, 3, 5] [3, 4] = some r ∧ (r = true ↔ ∀ x ∈ [3, 4], x ∈ [1, 3, 5]) :=
  operations_exact (show Sorted [1, 3, 5] by decide) (show Sorted [3, 4] by decide) (by decide)

end Dots.Set

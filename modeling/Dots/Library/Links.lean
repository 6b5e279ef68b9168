import Mathlib.Logic.Function.Basic
import Mathlib.Data.List.Nodup
import Mathlib.Logic.Relation
import Mathlib.Tactic.Common

/-!
# Intrusive doubly linked lists

A pair of pointer maps and the operations that splice one node. The local
invariant `Consistent` survives every splice, also on lists whose head or tail
pointer is stale. `Path` reads the nodes reached from a head pointer.
-/

namespace Dots.Library

/-- The two pointer fields of every node. -/
structure Links (α : Type*) where
  next : α → Option α
  prev : α → Option α

namespace Links

variable {α : Type*} [DecidableEq α]

def setNext (s : Links α) (a : α) (x : Option α) : Links α :=
  { s with next := Function.update s.next a x }

def setPrev (s : Links α) (a : α) (x : Option α) : Links α :=
  { s with prev := Function.update s.prev a x }

@[simp] theorem setNext_next (s : Links α) (a b : α) (x : Option α) :
    (s.setNext a x).next b = if b = a then x else s.next b := by
  simp [setNext, Function.update_apply]

@[simp] theorem setNext_prev (s : Links α) (a : α) (x : Option α) :
    (s.setNext a x).prev = s.prev := rfl

@[simp] theorem setPrev_prev (s : Links α) (a b : α) (x : Option α) :
    (s.setPrev a x).prev b = if b = a then x else s.prev b := by
  simp [setPrev, Function.update_apply]

@[simp] theorem setPrev_next (s : Links α) (a : α) (x : Option α) :
    (s.setPrev a x).next = s.next := rfl

/-- Splice `c` in behind `a`, statement by statement. -/
def link (s : Links α) (a c : α) : Links α :=
  let s := (s.setNext c (s.next a)).setPrev c (some a)
  let s := match s.next a with
    | some x => s.setPrev x (some c)
    | none => s
  s.setNext a (some c)

/-- Splice `c` out of its list and clear its two pointers. -/
def unlink (s : Links α) (c : α) : Links α :=
  let s := match s.prev c with
    | some p => s.setNext p (s.next c)
    | none => s
  let s := match s.next c with
    | some n => s.setPrev n (s.prev c)
    | none => s
  (s.setPrev c none).setNext c none

/-- Put `c` in front of `f`: `c` borrows the successor of `f` before the splice. -/
def linkBefore (s : Links α) (c f : α) : Links α :=
  (s.setNext c (s.next f)).link c f

/-- Neighbouring pointers name each other. -/
def Consistent (s : Links α) : Prop :=
  ∀ a b, s.next a = some b ↔ s.prev b = some a

/-- `c` is in no list. -/
def Detached (s : Links α) (c : α) : Prop :=
  s.next c = none ∧ s.prev c = none

omit [DecidableEq α] in
theorem Consistent.next_ne {s : Links α} (hs : s.Consistent) {c : α} (hc : s.Detached c)
    (a : α) : s.next a ≠ some c := by
  intro h
  have := (hs a c).mp h
  simp [hc.2] at this

omit [DecidableEq α] in
theorem Consistent.prev_ne {s : Links α} (hs : s.Consistent) {c : α} (hc : s.Detached c)
    (a : α) : s.prev a ≠ some c := by
  intro h
  have := (hs c a).mpr h
  simp [hc.1] at this

theorem link_next (s : Links α) {a c : α} (h : a ≠ c) (x : α) :
    (s.link a c).next x =
      if x = a then some c else if x = c then s.next a else s.next x := by
  have ha : ((s.setNext c (s.next a)).setPrev c (some a)).next a = s.next a := by
    simp [h]
  simp only [link, ha]
  cases s.next a <;> simp

theorem link_prev (s : Links α) {a c : α} (h : a ≠ c) (x : α) :
    (s.link a c).prev x =
      if s.next a = some x then some c else if x = c then some a else s.prev x := by
  have ha : ((s.setNext c (s.next a)).setPrev c (some a)).next a = s.next a := by
    simp [h]
  simp only [link, ha]
  cases hn : s.next a with
  | none => simp
  | some y =>
      simp only [setNext_prev, setPrev_prev, Option.some.injEq]
      by_cases hx : x = y
      · simp [hx]
      · simp [hx, Ne.symm hx]

theorem unlink_next {s : Links α} (hs : s.Consistent) (c x : α) :
    (s.unlink c).next x =
      if x = c then none else if s.next x = some c then s.next c else s.next x := by
  have hx : s.next x = some c ↔ s.prev c = some x := hs x c
  simp only [unlink]
  cases hp : s.prev c with
  | none =>
      simp only [hp, reduceCtorEq, iff_false] at hx
      cases hn : s.next c <;> simp [hx]
  | some p =>
      have hpx : s.next x = some c ↔ x = p := by rw [hx, hp]; simp [eq_comm]
      simp only [setNext_next, hpx]
      by_cases hcp : c = p
      · subst hcp
        have hcc : s.next c = some c := (hs c c).mpr hp
        by_cases hxc : x = c <;> simp [hcc, hxc]
      · cases hn : s.next c <;> by_cases hxc : x = c <;> simp [hcp, hxc]

theorem unlink_prev {s : Links α} (hs : s.Consistent) (c x : α) :
    (s.unlink c).prev x =
      if x = c then none else if s.prev x = some c then s.prev c else s.prev x := by
  have hx : s.prev x = some c ↔ s.next c = some x := (hs c x).symm
  simp only [unlink]
  cases hp : s.prev c with
  | none =>
      cases hn : s.next c with
      | none => simp [hx, hn]
      | some n =>
          by_cases hxn : x = n
          · subst hxn
            simp [hx.mpr hn, hp]
          · simp [hx, hn, hxn, Ne.symm hxn]
  | some p =>
      by_cases hcp : c = p
      · subst hcp
        have hcc : s.next c = some c := (hs c c).mpr hp
        by_cases hxc : x = c <;> simp [hcc, hxc, hx, hp]
      · cases hn : s.next c with
        | none => simp [hcp, hx, hn]
        | some n =>
            by_cases hxn : x = n
            · subst hxn
              simp [hx.mpr hn, hcp, hn, hp]
            · simp [hx, hn, hxn, Ne.symm hxn, hcp]

theorem unlink_detached {s : Links α} (hs : s.Consistent) (c : α) :
    (s.unlink c).Detached c := by
  constructor
  · rw [unlink_next hs]; simp
  · rw [unlink_prev hs]; simp

/-- Removing one node keeps all other neighbours consistent. -/
theorem Consistent.unlink {s : Links α} (hs : s.Consistent) (c : α) :
    (s.unlink c).Consistent := by
  intro a b
  rw [unlink_next hs, unlink_prev hs]
  by_cases ha : a = c
  · subst ha
    simp only [if_true, reduceCtorEq, false_iff]
    by_cases hb : b = a
    · simp [hb]
    · simp only [if_neg hb]
      by_cases hba : s.prev b = some a
      · simp only [if_pos hba]
        intro h
        have h1 := (hs a a).mpr h
        have h2 := (hs a b).mpr hba
        exact hb (by simpa [h1] using h2.symm)
      · simpa [if_neg hba] using hba
  · by_cases hb : b = c
    · subst hb
      simp only [if_true, reduceCtorEq, iff_false, if_neg ha]
      by_cases hab : s.next a = some b
      · simp only [if_pos hab]
        intro h
        have h1 := (hs b b).mp h
        have h2 := (hs a b).mp hab
        exact ha (by simpa [h1] using h2.symm)
      · simpa [if_neg hab] using hab
    · simp only [if_neg ha, if_neg hb]
      by_cases hac : s.next a = some c
      · have hca : s.prev c = some a := (hs a c).mp hac
        by_cases hbc : s.prev b = some c
        · have hcb : s.next c = some b := (hs c b).mpr hbc
          simp [hac, hbc, hcb, hca]
        · have hcb : s.next c ≠ some b := fun h => hbc ((hs c b).mp h)
          have hab : s.prev b ≠ some a := by
            intro h
            have := (hs a b).mpr h
            rw [hac] at this
            exact hb (Option.some.inj this).symm
          simp [hac, hbc, hcb, hab]
      · have hca : s.prev c ≠ some a := fun h => hac ((hs a c).mpr h)
        by_cases hbc : s.prev b = some c
        · have hab : s.next a ≠ some b := by
            intro h
            have := (hs a b).mp h
            rw [hbc] at this
            exact ha (Option.some.inj this).symm
          simp [hac, hbc, hca, hab]
        · simp only [if_neg hac, if_neg hbc]
          exact hs a b

/-- Linking a detached node keeps neighbours consistent. -/
theorem Consistent.link {s : Links α} (hs : s.Consistent) {a c : α} (h : a ≠ c)
    (hc : s.Detached c) : (s.link a c).Consistent := by
  intro x y
  rw [link_next s h, link_prev s h]
  have hxc := hs.next_ne hc x
  by_cases hxa : x = a
  · subst hxa
    simp only [if_true, Option.some.injEq]
    by_cases hy : s.next x = some y
    · have : c ≠ y := by rintro rfl; exact hxc hy
      simp [hy, this, Ne.symm h]
    · by_cases hyc : y = c
      · simp [hyc, hxc]
      · have : s.prev y ≠ some x := fun hp => hy ((hs x y).mpr hp)
        simp [hy, hyc, this, Ne.symm hyc]
  · by_cases hxc' : x = c
    · subst hxc'
      simp only [if_neg (Ne.symm h), if_true]
      by_cases hy : s.next a = some y
      · simp [hy]
      · have := hs.prev_ne hc y
        by_cases hyc : y = x
        · simp [hyc, hs.next_ne hc a, h]
        · simp [hy, hyc, this]
    · simp only [if_neg hxa, if_neg hxc']
      by_cases hy : s.next a = some y
      · have hxy : s.next x ≠ some y := by
          intro hx
          have h1 := (hs x y).mp hx
          have h2 := (hs a y).mp hy
          rw [h1] at h2
          exact hxa (Option.some.inj h2)
        simp [hy, hxy, Ne.symm hxc']
      · by_cases hyc : y = c
        · subst hyc
          simp [hy, hxc, Ne.symm hxa]
        · simp only [if_neg hy, if_neg hyc]
          exact hs x y

/-! ## Reading a list from a head pointer -/

/-- `l` is the list of nodes met from `p` on, up to the null pointer. -/
def Path (next : α → Option α) : Option α → List α → Prop
  | p, [] => p = none
  | p, a :: l => p = some a ∧ Path next (next a) l

omit [DecidableEq α] in
theorem Path.unique {next : α → Option α} {p : Option α} {l l' : List α}
    (h : Path next p l) (h' : Path next p l') : l = l' := by
  induction l generalizing p l' with
  | nil =>
      cases l' with
      | nil => rfl
      | cons b l' => simp [Path] at h h'; simp [h] at h'
  | cons a l ih =>
      cases l' with
      | nil => simp [Path] at h h'; simp [h'] at h
      | cons b l' =>
          obtain ⟨ha, hl⟩ := h
          obtain ⟨hb, hl'⟩ := h'
          obtain rfl : a = b := by simpa [ha] using hb
          rw [ih hl hl']

omit [DecidableEq α] in
theorem Path.head {next : α → Option α} {p : Option α} {l : List α} (h : Path next p l) :
    p = l.head? := by
  cases l with
  | nil => exact h
  | cons a l => exact h.1

omit [DecidableEq α] in
/-- The part of a path from a node on is a path. -/
theorem Path.suffix {next : α → Option α} {p : Option α} {xs : List α} {a : α} {ys : List α}
    (h : Path next p (xs ++ a :: ys)) : Path next (next a) ys := by
  induction xs generalizing p with
  | nil => exact h.2
  | cons x xs ih => exact ih h.2

omit [DecidableEq α] in
/-- A path that reaches the null pointer meets no node twice. -/
theorem Path.nodup {next : α → Option α} {p : Option α} {l : List α} (h : Path next p l) :
    l.Nodup := by
  induction l generalizing p with
  | nil => simp
  | cons a l ih =>
      refine List.nodup_cons.mpr ⟨?_, ih h.2⟩
      intro ha
      obtain ⟨xs, ys, rfl⟩ := List.append_of_mem ha
      have hlen := congrArg List.length (h.2.unique (Path.suffix h.2))
      simp at hlen
      omega

omit [DecidableEq α] in
/-- Only the pointers of the listed nodes matter. -/
theorem Path.congr {next next' : α → Option α} {p : Option α} {l : List α}
    (h : Path next p l) (hn : ∀ a ∈ l, next' a = next a) : Path next' p l := by
  induction l generalizing p with
  | nil => exact h
  | cons a l ih =>
      refine ⟨h.1, ?_⟩
      rw [hn a (by simp)]
      exact ih h.2 fun b hb => hn b (by simp [hb])

omit [DecidableEq α] in
/-- Redirecting the last node of a prefix redirects the rest of the path. -/
theorem Path.redirect {next next' : α → Option α} {p : Option α} {xs ys zs : List α} {a : α}
    (h : Path next p (xs ++ a :: ys)) (hn : ∀ b ∈ xs, next' b = next b)
    (hz : Path next' (next' a) zs) : Path next' p (xs ++ a :: zs) := by
  induction xs generalizing p with
  | nil => exact ⟨h.1, hz⟩
  | cons x xs ih =>
      refine ⟨h.1, ?_⟩
      rw [hn x (by simp)]
      exact ih h.2 fun b hb => hn b (by simp [hb])

omit [DecidableEq α] in
theorem Path.mem_next {next : α → Option α} {p : Option α} {l : List α} (h : Path next p l)
    {a b : α} (ha : a ∈ l) (hab : next a = some b) : b ∈ l := by
  obtain ⟨xs, ys, rfl⟩ := List.append_of_mem ha
  have hs := Path.suffix h
  rw [hab] at hs
  cases ys with
  | nil => simp [Path] at hs
  | cons y ys =>
      obtain rfl : b = y := by simpa using hs.1
      simp

omit [DecidableEq α] in
/-- Every node but the last points at its successor in the list. -/
theorem Path.next_eq {next : α → Option α} {p : Option α} {xs ys : List α} {a : α}
    (h : Path next p (xs ++ a :: ys)) : next a = ys.head? :=
  (Path.suffix h).head

omit [DecidableEq α] in
/-- From its first node a path leads to all others. -/
theorem Path.reach {next : α → Option α} {a : α} {l : List α} (h : Path next (some a) l) {c : α}
    (hc : c ∈ l) : Relation.ReflTransGen (fun x y => next x = some y) a c := by
  induction l generalizing a with
  | nil => simp at hc
  | cons b l ih =>
      obtain rfl := Option.some.inj h.1
      rcases List.mem_cons.mp hc with rfl | hc
      · exact .refl
      · cases hn : next a with
        | none =>
            have hnil : l = [] := List.head?_eq_none_iff.mp (hn ▸ h.2).head.symm
            simp [hnil] at hc
        | some d => exact .head hn (ih (hn ▸ h.2) hc)

/-- Linking a fresh node behind the last one appends it. -/
theorem Path.link_last {s : Links α} {p : Option α} {xs : List α} {a c : α}
    (h : Path s.next p (xs ++ [a])) (hc : c ∉ xs ++ [a]) (ha : s.next a = none) :
    Path (s.link a c).next p (xs ++ a :: [c]) := by
  have hac : a ≠ c := by rintro rfl; simp at hc
  have hnd := h.nodup
  apply h.redirect
  · intro b hb
    have hba : b ≠ a := by
      rintro rfl
      exact (List.nodup_cons.mp (List.nodup_middle.mp hnd)).1 (by simp [hb])
    have hbc : b ≠ c := by rintro rfl; simp [hb] at hc
    simp [link_next s hac, hba, hbc]
  · simp [Path, link_next s hac, Ne.symm hac, ha]

/-- Linking a fresh node behind the head inserts it in second place. -/
theorem Path.link_head {s : Links α} {p : Option α} {ys : List α} {a c : α}
    (h : Path s.next p (a :: ys)) (hc : c ∉ a :: ys) :
    Path (s.link a c).next p (a :: c :: ys) := by
  have hac : a ≠ c := by rintro rfl; simp at hc
  have hnd := h.nodup
  refine ⟨h.1, ?_, ?_⟩
  · simp [link_next s hac]
  · simp only [link_next s hac, if_neg (Ne.symm hac), if_true]
    apply h.2.congr
    intro b hb
    have hba : b ≠ a := by rintro rfl; simp [hb] at hnd
    have hbc : b ≠ c := by rintro rfl; simp [hb] at hc
    simp [link_next s hac, hba, hbc]

/-- Unlinking a node erases it; the head moves on when it was the node. -/
theorem Path.unlink {s : Links α} (hs : s.Consistent) {p : Option α} {xs ys : List α} {c : α}
    (h : Path s.next p (xs ++ c :: ys)) :
    Path (s.unlink c).next (if p = some c then s.next c else p) (xs ++ ys) := by
  have hnd := List.nodup_cons.mp (List.nodup_middle.mp h.nodup)
  have hsuf := Path.suffix h
  have hout : ∀ b ∈ xs ++ ys, s.next b ≠ some c → (s.unlink c).next b = s.next b := by
    intro b hb hbc
    have : b ≠ c := by
      rintro rfl
      exact hnd.1 hb
    simp [unlink_next hs, this, hbc]
  have hys : Path (s.unlink c).next (s.next c) ys := by
    apply hsuf.congr
    intro b hb
    apply hout b (by simp [hb])
    intro hbc
    exact hnd.1 (by simp [Path.mem_next hsuf hb hbc])
  rcases List.eq_nil_or_concat' xs with rfl | ⟨zs, a, rfl⟩
  · have : p = some c := h.1
    simpa [this] using hys
  · have hpc : p ≠ some c := by
      intro hp
      have hh := h.head
      rw [hp] at hh
      apply hnd.1
      cases zs with
      | nil => simp at hh; simp [hh]
      | cons z zs => simp at hh; simp [hh]
    rw [if_neg hpc]
    have hac : s.next a = some c := by
      have h' : Path s.next p (zs ++ a :: (c :: ys)) := by simpa using h
      simpa using Path.next_eq h'
    have h' : Path s.next p (zs ++ a :: (c :: ys)) := by simpa using h
    rw [show zs ++ [a] ++ ys = zs ++ a :: ys by simp]
    apply h'.redirect
    · intro b hb
      apply hout b (by simp [hb])
      intro hbc
      have h1 := (hs b c).mp hbc
      have h2 := (hs a c).mp hac
      rw [h1] at h2
      obtain rfl : b = a := Option.some.inj h2
      have hnb := h'.nodup
      exact (List.nodup_cons.mp (List.nodup_middle.mp hnb)).1 (by simp [hb])
    · have hca : a ≠ c := by
        rintro rfl
        exact hnd.1 (by simp)
      rw [unlink_next hs, if_neg hca, if_pos hac]
      exact hys

/-! ## Lists that end -/

/-- From every node the null pointer is reached. -/
def Ends (s : Links α) : Prop := ∀ c, ∃ l, Path s.next (some c) (c :: l)

omit [DecidableEq α] in
/-- A node of a path is its head or follows another node. -/
theorem Path.mem_cases {next : α → Option α} {p : Option α} {l : List α} (h : Path next p l)
    {c : α} (hc : c ∈ l) : p = some c ∨ ∃ b ∈ l, next b = some c := by
  induction l generalizing p with
  | nil => simp at hc
  | cons a l ih =>
      rcases List.mem_cons.mp hc with rfl | hc
      · exact Or.inl h.1
      · rcases ih h.2 hc with ha | ⟨b, hb, hbc⟩
        · exact Or.inr ⟨a, List.mem_cons_self, ha⟩
        · exact Or.inr ⟨b, List.mem_cons_of_mem a hb, hbc⟩

omit [DecidableEq α] in
theorem Ends.next_ne_self {s : Links α} (h : s.Ends) (c : α) : s.next c ≠ some c := by
  intro hc
  obtain ⟨l, hl⟩ := h c
  have hl' : Path s.next (some c) l := hc ▸ hl.2
  have := congrArg List.length (hl'.unique hl)
  simp at this

omit [DecidableEq α] in
theorem Ends.prev_ne_self {s : Links α} (hs : s.Consistent) (h : s.Ends) (c : α) :
    s.prev c ≠ some c := fun hc => h.next_ne_self c ((hs c c).mpr hc)

theorem Ends.unlink {s : Links α} (hs : s.Consistent) (h : s.Ends) (c : α) :
    (s.unlink c).Ends := by
  intro x
  obtain ⟨l, hl⟩ := h x
  by_cases hxc : x = c
  · subst hxc
    refine ⟨[], rfl, ?_⟩
    simp [Path, unlink_next hs]
  · by_cases hc : c ∈ x :: l
    · obtain ⟨xs, ys, hxs⟩ := List.append_of_mem hc
      rw [hxs] at hl
      have hu := hl.unlink hs
      rw [if_neg (by simpa using hxc)] at hu
      cases xs with
      | nil =>
          simp only [List.nil_append, List.cons.injEq] at hxs
          exact absurd hxs.1 hxc
      | cons z zs =>
          simp only [List.cons_append, List.cons.injEq] at hxs
          obtain ⟨rfl, -⟩ := hxs
          exact ⟨zs ++ ys, hu⟩
    · refine ⟨l, hl.congr ?_⟩
      intro b hb
      have hbc : b ≠ c := fun hbc => hc (hbc ▸ hb)
      have hbn : s.next b ≠ some c := fun hbn => hc (hl.mem_next hb hbn)
      simp [unlink_next hs, hbc, hbn]

/-- Linking a node of no list behind another node keeps all lists finite. -/
theorem Ends.link {s : Links α} (hs : s.Consistent) (h : s.Ends) {a c : α} (hac : a ≠ c)
    (hc : s.Detached c) : (s.link a c).Ends := by
  have hout : ∀ {p l}, Path s.next p l → p ≠ some c → c ∉ l := by
    intro p l hl hp hcl
    rcases hl.mem_cases hcl with hpc | ⟨b, -, hbc⟩
    · exact hp hpc
    · exact hs.next_ne hc b hbc
  have hkeep : ∀ {p l}, Path s.next p l → p ≠ some c → a ∉ l → Path (s.link a c).next p l := by
    intro p l hl hp hal
    apply hl.congr
    intro b hb
    have hba : b ≠ a := fun hba => hal (hba ▸ hb)
    have hbc : b ≠ c := fun hbc => hout hl hp (hbc ▸ hb)
    simp [link_next s hac, hba, hbc]
  obtain ⟨ys, hys⟩ := h a
  have haty : a ∉ ys := (List.nodup_cons.mp hys.nodup).1
  have hcpath : Path (s.link a c).next (some c) (c :: ys) := by
    refine ⟨rfl, ?_⟩
    rw [link_next s hac, if_neg (Ne.symm hac), if_pos rfl]
    exact hkeep hys.2 (hs.next_ne hc a) haty
  intro x
  by_cases hxc : x = c
  · subst hxc
    exact ⟨ys, hcpath⟩
  · obtain ⟨l, hl⟩ := h x
    have hx : (some x : Option α) ≠ some c := by simpa using hxc
    by_cases hal : a ∈ x :: l
    · obtain ⟨xs, zs, hxs⟩ := List.append_of_mem hal
      rw [hxs] at hl
      have hnew : Path (s.link a c).next (some x) (xs ++ a :: (c :: ys)) := by
        apply hl.redirect
        · intro b hb
          have hba : b ≠ a := by
            rintro rfl
            exact (List.nodup_cons.mp (List.nodup_middle.mp hl.nodup)).1 (by simp [hb])
          have hbc : b ≠ c := by
            rintro rfl
            exact hout hl hx (by simp [hb])
          simp [link_next s hac, hba, hbc]
        · rw [link_next s hac, if_pos rfl]
          exact hcpath
      cases xs with
      | nil =>
          simp only [List.nil_append, List.cons.injEq] at hxs
          obtain ⟨rfl, -⟩ := hxs
          exact ⟨c :: ys, hnew⟩
      | cons z xs =>
          simp only [List.cons_append, List.cons.injEq] at hxs
          obtain ⟨rfl, -⟩ := hxs
          exact ⟨xs ++ a :: (c :: ys), hnew⟩
    · exact ⟨l, hkeep hl hx hal⟩

/-! ## A node in front of a head -/

theorem linkBefore_next (s : Links α) {c f : α} (h : c ≠ f) (x : α) :
    (s.linkBefore c f).next x = if x = c then some f else s.next x := by
  rw [linkBefore, link_next _ h, setNext_next, setNext_next, if_pos rfl]
  split_ifs with hc hf
  · rfl
  · rw [hf]
  · rfl

theorem linkBefore_prev {s : Links α} (hs : s.Consistent) {c f : α} (h : c ≠ f)
    (hf : s.prev f = none) (x : α) :
    (s.linkBefore c f).prev x = if x = f then some c else s.prev x := by
  rw [linkBefore, link_prev _ h, setNext_next, if_pos rfl, setNext_prev]
  split_ifs with hn hx hx
  · have hp := (hs f x).mp hn
    rw [hx, hf] at hp
    simp at hp
  · exact ((hs f x).mp hn).symm
  · rfl
  · rfl

theorem Consistent.linkBefore {s : Links α} (hs : s.Consistent) {c f : α} (h : c ≠ f)
    (hc : s.Detached c) (hf : s.prev f = none) : (s.linkBefore c f).Consistent := by
  intro x y
  rw [linkBefore_next s h, linkBefore_prev hs h hf]
  by_cases hx : x = c
  · subst hx
    by_cases hy : y = f
    · simp [hy]
    · simp [hy, Ne.symm hy, hs.prev_ne hc y]
  · rw [if_neg hx]
    by_cases hy : y = f
    · subst hy
      have hne : s.next x ≠ some y := by
        intro hn
        have hp := (hs x y).mp hn
        simp [hf] at hp
      simp [hne, Ne.symm hx]
    · rw [if_neg hy]
      exact hs x y

theorem Ends.linkBefore {s : Links α} (hs : s.Consistent) (h : s.Ends) {c f : α} (hcf : c ≠ f)
    (hc : s.Detached c) : (s.linkBefore c f).Ends := by
  have hkeep : ∀ {p l}, Path s.next p l → p ≠ some c → Path (s.linkBefore c f).next p l := by
    intro p l hl hp
    apply hl.congr
    intro b hb
    have hbc : b ≠ c := by
      rintro rfl
      rcases hl.mem_cases hb with hpb | ⟨d, -, hd⟩
      · exact hp hpb
      · exact hs.next_ne hc d hd
    rw [linkBefore_next s hcf, if_neg hbc]
  intro x
  by_cases hx : x = c
  · subst hx
    obtain ⟨l, hl⟩ := h f
    refine ⟨f :: l, rfl, ?_⟩
    rw [linkBefore_next s hcf, if_pos rfl]
    exact hkeep hl fun hf => hcf (Option.some.inj hf).symm
  · obtain ⟨l, hl⟩ := h x
    exact ⟨l, hkeep hl fun hxc => hx (Option.some.inj hxc)⟩

/-! ## Lists with a head and a tail pointer -/

/-- `l` is the list between the two pointers. -/
structure Spans (s : Links α) (first last : Option α) (l : List α) : Prop where
  path : Path s.next first l
  last : last = l.getLast?
  head : ∀ c, first = some c → s.prev c = none

omit [DecidableEq α] in
theorem Spans.nil (s : Links α) : Spans s none none [] :=
  ⟨rfl, rfl, by simp⟩

omit [DecidableEq α] in
theorem Spans.congr {s s' : Links α} {first last : Option α} {l : List α}
    (h : Spans s first last l) (hnext : ∀ a ∈ l, s'.next a = s.next a)
    (hprev : ∀ a ∈ l, s'.prev a = s.prev a) : Spans s' first last l where
  path := h.path.congr hnext
  last := h.last
  head c hc := by
    have hmem : c ∈ l := List.mem_of_mem_head? (h.path.head ▸ hc)
    rw [hprev c hmem]
    exact h.head c hc

omit [DecidableEq α] in
theorem Spans.first_none_iff {s : Links α} {first last : Option α} {l : List α}
    (h : Spans s first last l) : first = none ↔ last = none := by
  rw [h.path.head, h.last, List.head?_eq_none_iff, List.getLast?_eq_none_iff]

omit [DecidableEq α] in
theorem Spans.first_eq_none {s : Links α} {first last : Option α} {l : List α}
    (h : Spans s first last l) : first = none ↔ l = [] := by
  rw [h.path.head, List.head?_eq_none_iff]

omit [DecidableEq α] in
/-- The predecessor of a node is the one before it in the list. -/
theorem Spans.prev_eq {s : Links α} (hs : s.Consistent) {first last : Option α}
    {xs ys : List α} {c : α} (h : Spans s first last (xs ++ c :: ys)) :
    s.prev c = xs.getLast? := by
  rcases List.eq_nil_or_concat' xs with rfl | ⟨zs, a, rfl⟩
  · exact h.head c h.path.1
  · have hpath : Path s.next first (zs ++ a :: (c :: ys)) := by simpa using h.path
    rw [List.getLast?_concat]
    exact (hs a c).mp hpath.next_eq

/-- Removing a node, with both pointers moved off it. -/
theorem Spans.unlink {s : Links α} (hs : s.Consistent) {first last : Option α} {xs ys : List α}
    {c : α} (h : Spans s first last (xs ++ c :: ys)) :
    Spans (s.unlink c) (if first = some c then s.next c else first)
      (if last = some c then s.prev c else last) (xs ++ ys) := by
  have hnd := h.path.nodup
  refine ⟨h.path.unlink hs, ?_, fun d hd => ?_⟩
  · rcases List.eq_nil_or_concat' ys with rfl | ⟨zs, b, rfl⟩
    · rw [h.last, List.getLast?_concat, if_pos rfl, List.append_nil]
      exact h.prev_eq hs
    · have hlast : last = some b := by
        rw [h.last, ← List.cons_append, ← List.append_assoc, List.getLast?_concat]
      rw [← List.append_assoc, List.getLast?_concat, hlast, if_neg]
      intro hbc
      obtain rfl := Option.some.inj hbc
      exact (List.nodup_cons.mp (List.nodup_middle.mp hnd)).1 (by simp)
  · rw [unlink_prev hs]
    by_cases hfirst : first = some c
    · rw [if_pos hfirst] at hd
      rw [if_pos ((hs c d).mp hd), h.head c hfirst, ite_self]
    · rw [if_neg hfirst] at hd
      rw [h.head d hd, if_neg (show ¬ (none : Option α) = some c by simp), ite_self]

/-- Linking a node of no list behind the last one. -/
theorem Spans.link_last {s : Links α} {first : Option α} {l : List α} {a c : α}
    (h : Spans s first (some a) l) (hc : c ∉ l) :
    Spans (s.link a c) first (some c) (l ++ [c]) := by
  obtain ⟨xs, rfl⟩ := List.getLast?_eq_some_iff.mp h.last.symm
  have hac : a ≠ c := by
    rintro rfl
    simp at hc
  have hlast : s.next a = none := by simpa using h.path.next_eq
  refine ⟨?_, ?_, fun d hd => ?_⟩
  · have hpath := h.path.link_last hc hlast
    rwa [List.append_cons] at hpath
  · rw [List.getLast?_concat]
  · rw [link_prev s hac, hlast, if_neg (by simp)]
    have hmem : d ∈ xs ++ [a] := List.mem_of_mem_head? (h.path.head ▸ hd)
    rw [if_neg]
    · exact h.head d hd
    · rintro rfl
      exact hc hmem

/-- Linking a node of no list behind the first one, when that is not the last. -/
theorem Spans.link_first {s : Links α} {first last : Option α} {ys : List α} {a b c : α}
    (h : Spans s first last (a :: b :: ys)) (hc : c ∉ a :: b :: ys) :
    Spans (s.link a c) first last (a :: c :: b :: ys) := by
  have hac : a ≠ c := by
    rintro rfl
    simp at hc
  refine ⟨h.path.link_head hc, ?_, fun d hd => ?_⟩
  · rw [h.last]
    simp
  · obtain rfl : a = d := by
      have := h.path.1
      rw [hd] at this
      exact (Option.some.inj this).symm
    have hab : s.next a = some b := h.path.2.1
    have hne : b ≠ a := by
      rintro rfl
      exact absurd h.path.nodup (by simp)
    rw [link_prev s hac, hab, if_neg (by simpa using hne), if_neg hac]
    exact h.head a hd

/-- A node of no list goes before the first one. -/
theorem Spans.link_before {s : Links α} (hs : s.Consistent) {last : Option α} {l : List α}
    {c f : α} (h : Spans s (some f) last l) (hc : s.Detached c) (hcl : c ∉ l) :
    Spans (s.linkBefore c f) (some c) last (c :: l) := by
  obtain ⟨ys, rfl⟩ : ∃ ys, l = f :: ys := List.head?_eq_some_iff.mp h.path.head.symm
  have hcf : c ≠ f := fun hcf => hcl (hcf ▸ List.mem_cons_self)
  refine ⟨⟨rfl, ?_⟩, ?_, fun d hd => ?_⟩
  · rw [linkBefore_next s hcf, if_pos rfl]
    refine h.path.congr fun b hb => ?_
    have hbc : b ≠ c := fun hbc => hcl (hbc ▸ hb)
    rw [linkBefore_next s hcf, if_neg hbc]
  · rw [h.last, List.getLast?_cons_cons]
  · obtain rfl := Option.some.inj hd
    rw [linkBefore_prev hs hcf (h.head f rfl), if_neg hcf]
    exact hc.2

end Links

end Dots.Library

import Dots.Library.Descent
import Mathlib.Logic.Function.Basic

/-!
# Values that come down a forest

Each element has a list of children. A value is computed for an element from the value of its
parent, then for its children, and so on down. In a forest every branch is visited once, so the
values meet the equation that computes them, and they are the only ones that do.
-/

namespace Dots.Library

universe u

variable {α T : Type u} {children : α → List α} {f : T → α → Option T}

/-- No element is listed twice, by one parent or by two, and none is its own descendant. -/
structure Forest (children : α → List α) : Prop where
  nodup : ∀ p, (children p).Nodup
  unique : ∀ p q x, x ∈ children p → x ∈ children q → p = q
  acyclic : ∀ x, ¬ Relation.TransGen (fun y x => y ∈ children x) x x
  finite : {x | ∃ p, x ∈ children p}.Finite

/-- `x` is `e`, or a descendant of it. -/
abbrev Under (children : α → List α) (x e : α) : Prop :=
  Relation.ReflTransGen (fun y x => y ∈ children x) x e

namespace Forest

variable {e c c' p x : α}

theorem height_lt (h : Forest children) (hc : c ∈ children e) :
    height (fun y x => y ∈ children x) c < height (fun y x => y ∈ children x) e :=
  Library.height_lt h.finite (fun _ x hyx => ⟨x, hyx⟩) h.acyclic hc

/-- Of two elements above a third one, one is above the other. -/
theorem total (h : Forest children) (hc : Under children x c) (hc' : Under children x c') :
    Under children c c' ∨ Under children c' c :=
  Relation.ReflTransGen.total_of_right_unique (fun _ p q hp hq => h.unique p q _ hp hq) hc hc'

theorem not_under_child (h : Forest children) (hc : c ∈ children e) : ¬ Under children e c :=
  fun hec => h.acyclic c (.head' hc hec)

/-- A child is under no other child. -/
theorem eq_of_under (h : Forest children) (hc : c ∈ children e) (hc' : c' ∈ children e)
    (hcc : Under children c c') : c = c' := by
  rcases Relation.ReflTransGen.cases_head hcc with rfl | ⟨p, hcp, hpc⟩
  · rfl
  · obtain rfl := h.unique p e c hcp hc
    exact absurd hpc (h.not_under_child hc')

/-- The children of one element have nothing under them in common. -/
theorem apart (h : Forest children) (hc : c ∈ children e) (hc' : c' ∈ children e) (hne : c ≠ c')
    (hx : Under children x c) : ¬ Under children x c' := by
  intro hx'
  rcases h.total hx hx' with hcc | hcc
  · exact hne (h.eq_of_under hc hc' hcc)
  · exact hne (h.eq_of_under hc' hc hcc).symm

/-- Nor have two elements that no one lists. -/
theorem apart_roots (h : Forest children) {r r' : α} (hr : ∀ p, r ∉ children p)
    (hr' : ∀ p, r' ∉ children p) (hne : r ≠ r') (hx : Under children x r) :
    ¬ Under children x r' := by
  intro hx'
  rcases h.total hx hx' with hrr | hrr
  · rcases Relation.ReflTransGen.cases_head hrr with heq | ⟨p, hp, -⟩
    · exact hne heq
    · exact hr p hp
  · rcases Relation.ReflTransGen.cases_head hrr with heq | ⟨p, hp, -⟩
    · exact hne heq.symm
    · exact hr' p hp

end Forest

/-! ## From an element down -/

section Propagate

section Run

variable [DecidableEq α]

/-- The value of `e` from the value `t` of its parent, and then the values of the children. It
fails where a value is missing, or `f` computes none. -/
def propagate (children : α → List α) (f : T → α → Option T) :
    Nat → α → T → (α → Option T) → Option (α → Option T)
  | 0, _, _, _ => none
  | fuel + 1, e, t, v => do
      let _ ← v e
      let t' ← f t e
      (children e).foldlM (fun v c => do
        let t ← v e
        propagate children f fuel c t v) (Function.update v e (some t'))

/-- The values of the children `cs` of `e`. -/
def propagateChildren (children : α → List α) (f : T → α → Option T) (fuel : Nat) (e : α)
    (cs : List α) (v : α → Option T) : Option (α → Option T) :=
  cs.foldlM (fun v c => do
    let t ← v e
    propagate children f fuel c t v) v

end Run

/-- The values meet the equation at `x`. -/
def Meets (f : T → α → Option T) (v : α → Option T) (p x : α) : Prop :=
  v x = (v p).bind fun t => f t x

/-- And at everything below `e`. -/
def Settled (children : α → List α) (f : T → α → Option T) (v : α → Option T) (e : α) : Prop :=
  ∀ p x, Under children p e → x ∈ children p → Meets f v p x

/-- What there is under `e` has a value, and `f` computes one from any other. -/
def Total (children : α → List α) (f : T → α → Option T) (v : α → Option T) (e : α) : Prop :=
  ∀ x, Under children x e → (v x).isSome = true ∧ ∀ t, (f t x).isSome = true

variable {e : α} {t : T} {v v' : α → Option T} {fuel : Nat}

/-- What the values under the children `cs` of `e` come to. -/
structure Settles (children : α → List α) (f : T → α → Option T) (e : α) (cs : List α)
    (v v' : α → Option T) : Prop where
  top : ∀ c ∈ cs, Meets f v' e c
  inner : ∀ c ∈ cs, Settled children f v' c
  outer : ∀ x, (∀ c ∈ cs, ¬ Under children x c) → v' x = v x
  kept : ∀ x, (v' x).isSome = (v x).isSome

theorem settles_nil (e : α) (v : α → Option T) : Settles children f e [] v v where
  top _ hc := absurd hc List.not_mem_nil
  inner _ hc := absurd hc List.not_mem_nil
  outer _ _ := rfl
  kept _ := rfl

/-- The children of `e` settle, and so does `e`. -/
theorem Settles.settled (h : Settles children f e (children e) v v') : Settled children f v' e := by
  intro p x hp hx
  rcases Relation.ReflTransGen.cases_tail hp with heq | ⟨q, hpq, hqe⟩
  · rw [← heq] at hx ⊢
    exact h.top x hx
  · exact h.inner q hqe p x hpq hx

theorem Meets.congr {p x : α} (h : Meets f v p x) (hp : v' p = v p) (hx : v' x = v x) :
    Meets f v' p x := by
  rw [Meets, hp, hx]
  exact h

/-- One child more. -/
theorem Settles.cons (hf : Forest children) {c : α} {cs : List α} {v₁ : α → Option T}
    (hsub : c :: cs ⊆ children e) (hnew : c ∉ cs) (htop : Meets f v₁ e c)
    (hinner : Settled children f v₁ c) (houter : ∀ x, ¬ Under children x c → v₁ x = v x)
    (hkept : ∀ x, (v₁ x).isSome = (v x).isSome)
    (h : Settles children f e cs v₁ v') : Settles children f e (c :: cs) v v' := by
  have hc := hsub List.mem_cons_self
  have hsame : ∀ x, Under children x c → v' x = v₁ x := by
    intro x hx
    apply h.outer
    intro c' hc' hx'
    exact hf.apart hc (hsub (List.mem_cons_of_mem c hc')) (fun heq => hnew (heq ▸ hc')) hx hx'
  have htops : v' e = v₁ e := by
    apply h.outer
    intro c' hc'
    exact hf.not_under_child (hsub (List.mem_cons_of_mem c hc'))
  constructor
  · intro c' hc'
    rcases List.mem_cons.mp hc' with rfl | hc'
    · exact htop.congr htops (hsame c' .refl)
    · exact h.top c' hc'
  · intro c' hc' p x hp hx
    rcases List.mem_cons.mp hc' with rfl | hc'
    · exact (hinner p x hp hx).congr (hsame p hp) (hsame x (.head hx hp))
    · exact h.inner c' hc' p x hp hx
  · intro x hx
    rw [h.outer x fun c' hc' => hx c' (List.mem_cons_of_mem c hc')]
    exact houter x (hx c List.mem_cons_self)
  · intro x
    rw [h.kept, hkept]

variable [DecidableEq α]

/-- The children one after the other, when each of them settles. -/
theorem exists_propagateChildren (fuel : Nat) (hf : Forest children) {cs : List α}
    (hstep : ∀ c ∈ cs, ∀ t (v : α → Option T), Total children f v c →
      ∃ v', propagate children f fuel c t v = some v' ∧ v' c = f t c ∧
        Settled children f v' c ∧ (∀ x, ¬ Under children x c → v' x = v x) ∧
          ∀ x, (v' x).isSome = (v x).isSome)
    (hsub : cs ⊆ children e) (hnodup : cs.Nodup) (he : (v e).isSome = true)
    (htotal : ∀ c ∈ cs, Total children f v c) :
    ∃ v', propagateChildren children f fuel e cs v = some v' ∧ v' e = v e ∧
      Settles children f e cs v v' := by
  induction cs generalizing v with
  | nil => exact ⟨v, rfl, rfl, settles_nil e v⟩
  | cons c cs ih =>
      obtain ⟨t, ht⟩ := Option.isSome_iff_exists.mp he
      have hc := hsub List.mem_cons_self
      obtain ⟨hnew, hnodup⟩ := List.nodup_cons.mp hnodup
      obtain ⟨v₁, hrun, hat, hset, houter, hkept⟩ :=
        hstep c List.mem_cons_self t v (htotal c List.mem_cons_self)
      have he₁ : v₁ e = v e := houter e (hf.not_under_child hc)
      obtain ⟨v', hrun', he', hset'⟩ := ih (v := v₁)
        (fun c' hc' => hstep c' (List.mem_cons_of_mem c hc'))
        (fun c' hc' => hsub (List.mem_cons_of_mem c hc')) hnodup (he₁ ▸ he)
        fun c' hc' x hx => (htotal c' (List.mem_cons_of_mem c hc') x hx).imp_left
          ((hkept x).trans ·)
      refine ⟨v', ?_, he'.trans he₁, ?_⟩
      · rw [propagateChildren, List.foldlM_cons, ht]
        exact (congrArg (· >>= _) hrun).trans hrun'
      · apply Settles.cons hf hsub hnew _ hset houter hkept hset'
        rw [Meets, he₁, ht]
        exact hat

/-- With fuel for the depth below `e`, the values come down to all that is under it. -/
theorem exists_propagate (hf : Forest children)
    (hfuel : height (fun y x => y ∈ children x) e < fuel) (htotal : Total children f v e) :
    ∃ v', propagate children f fuel e t v = some v' ∧ v' e = f t e ∧
      Settled children f v' e ∧ (∀ x, ¬ Under children x e → v' x = v x) ∧
        ∀ x, (v' x).isSome = (v x).isSome := by
  induction fuel generalizing e t v with
  | zero => exact absurd hfuel (Nat.not_lt_zero _)
  | succ fuel ih =>
      obtain ⟨hsome, hcomputes⟩ := htotal e .refl
      obtain ⟨told, hold⟩ := Option.isSome_iff_exists.mp hsome
      obtain ⟨tnew, hnew⟩ := Option.isSome_iff_exists.mp (hcomputes t)
      have hkept₀ : ∀ x, (Function.update v e (some tnew) x).isSome = (v x).isSome := by
        intro x
        by_cases hx : x = e
        · rw [hx, Function.update_self, hold]
          rfl
        · rw [Function.update_of_ne hx]
      obtain ⟨v', hrun, hat, hset⟩ := exists_propagateChildren (f := f) fuel hf
        (fun c hc t v hv => ih (Nat.lt_of_lt_of_le (hf.height_lt hc) (Nat.le_of_lt_succ hfuel)) hv)
        (List.Subset.refl (children e)) (hf.nodup e)
        (v := Function.update v e (some tnew)) (by rw [Function.update_self]; rfl)
        fun c hc x hx => (htotal x (hx.trans (.single hc))).imp_left ((hkept₀ x).trans ·)
      refine ⟨v', ?_, ?_, hset.settled, ?_, ?_⟩
      · rw [propagate, hold, hnew]
        exact hrun
      · rw [hat, Function.update_self, hnew]
      · intro x hx
        rw [hset.outer x fun c hc hxc => hx (hxc.trans (.single hc)), Function.update_of_ne]
        rintro rfl
        exact hx .refl
      · intro x
        rw [hset.kept, hkept₀]

/-- From each of the roots down, whose own values stay. -/
def propagateRoots (children : α → List α) (f : T → α → Option T) (fuel : Nat) (roots : List α)
    (v : α → Option T) : Option (α → Option T) :=
  roots.foldlM (fun v r => propagateChildren children f fuel r (children r) v) v

/-- What the values come to, and with enough fuel do come to. -/
structure Solves (children : α → List α) (f : T → α → Option T) (roots : List α)
    (v v' : α → Option T) : Prop where
  settled : ∀ r ∈ roots, Settled children f v' r
  outer : ∀ x, (∀ r ∈ roots, ∀ p, Under children p r → x ∉ children p) → v' x = v x
  kept : ∀ x, (v' x).isSome = (v x).isSome

theorem exists_propagateRoots (hf : Forest children) {roots : List α}
    (hroots : ∀ r ∈ roots, ∀ p, r ∉ children p) (hnodup : roots.Nodup)
    (htotal : ∀ r ∈ roots, (v r).isSome = true ∧ ∀ c ∈ children r, Total children f v c)
    (hfuel : ∀ x, height (fun y x => y ∈ children x) x < fuel) :
    ∃ v', propagateRoots children f fuel roots v = some v' ∧ Solves children f roots v v' := by
  induction roots generalizing v with
  | nil => exact ⟨v, rfl, nofun, fun _ _ => rfl, fun _ => rfl⟩
  | cons r roots ih =>
      obtain ⟨hnew, hnodup⟩ := List.nodup_cons.mp hnodup
      obtain ⟨hr, hchildren⟩ := htotal r List.mem_cons_self
      obtain ⟨v₁, hrun, hat, hset⟩ := exists_propagateChildren (f := f) fuel hf
        (fun c _ t v hv => exists_propagate hf (hfuel c) hv) (List.Subset.refl (children r))
        (hf.nodup r) hr hchildren
      obtain ⟨v', hrun', hsolves⟩ := ih (v := v₁)
        (fun r' hr' => hroots r' (List.mem_cons_of_mem r hr')) hnodup fun r' hr' => by
          obtain ⟨hr'', hchildren'⟩ := htotal r' (List.mem_cons_of_mem r hr')
          exact ⟨(hset.kept r').trans hr'', fun c hc x hx =>
            (hchildren' c hc x hx).imp_left ((hset.kept x).trans ·)⟩
      -- what is under `r` is under no other root
      have hsame : ∀ x, Under children x r → v' x = v₁ x := by
        intro x hx
        apply hsolves.outer
        intro r' hr' p hp hxp
        apply hf.apart_roots (hroots r List.mem_cons_self)
          (hroots r' (List.mem_cons_of_mem r hr')) (fun heq => hnew (heq ▸ hr')) hx
        exact .head hxp hp
      refine ⟨v', ?_, ?_, ?_, fun x => (hsolves.kept x).trans (hset.kept x)⟩
      · rw [propagateRoots, List.foldlM_cons]
        exact (congrArg (· >>= _) hrun).trans hrun'
      · intro r' hr' p x hp hx
        rcases List.mem_cons.mp hr' with rfl | hr'
        · exact (hset.settled p x hp hx).congr (hsame p hp) (hsame x (.head hx hp))
        · exact hsolves.settled r' hr' p x hp hx
      · intro x hx
        rw [hsolves.outer x fun r' hr' => hx r' (List.mem_cons_of_mem r hr')]
        apply hset.outer
        intro c hc hxc
        rcases Relation.ReflTransGen.cases_head hxc with rfl | ⟨p, hxp, hpc⟩
        · exact hx r List.mem_cons_self r .refl hc
        · exact hx r List.mem_cons_self p (hpc.trans (.single hc)) hxp

omit [DecidableEq α] in
/-- The solution is unique, given the values of the roots. -/
theorem Solves.unique {roots : List α} {v₁ v₂ : α → Option T}
    (h₁ : Solves children f roots v v₁) (h₂ : Solves children f roots v v₂)
    (hroots : ∀ r ∈ roots, ∀ p, r ∉ children p) : v₁ = v₂ := by
  have htop : ∀ r ∈ roots, v₁ r = v₂ r := by
    intro r hr
    have houter : ∀ r' ∈ roots, ∀ p, Under children p r' → r ∉ children p :=
      fun _ _ p _ => hroots r hr p
    rw [h₁.outer r houter, h₂.outer r houter]
  have hunder : ∀ r ∈ roots, ∀ x, Under children x r → v₁ x = v₂ x := by
    intro r hr x hx
    induction hx using Relation.ReflTransGen.head_induction_on with
    | refl => exact htop r hr
    | head hxp hpr ih =>
        have hmeets₁ := h₁.settled r hr _ _ hpr hxp
        have hmeets₂ := h₂.settled r hr _ _ hpr hxp
        rw [Meets] at hmeets₁ hmeets₂
        rw [hmeets₁, hmeets₂, ih]
  ext x : 1
  by_cases hx : ∀ r ∈ roots, ∀ p, Under children p r → x ∉ children p
  · rw [h₁.outer x hx, h₂.outer x hx]
  · push Not at hx
    obtain ⟨r, hr, p, hp, hxp⟩ := hx
    exact hunder r hr x (.head hxp hp)

end Propagate

end Dots.Library

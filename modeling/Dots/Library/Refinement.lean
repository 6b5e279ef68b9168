import Mathlib.Tactic.Common

/-!
# Runs that refine a specification

A partial step function and a specification of what its operations do to abstract values. A run
refines the specification if no step fails and every state is related to the value the
specification gives. Where a condition on the single steps decides this, it decides it for runs.
-/

namespace Dots.Library

variable {S A O : Type*} (step : S → O → Option S) (spec : A → O → A → Prop)

/-- Every operation of the run meets `P` in the state it is called in. -/
def Along (P : S → O → Prop) : List O → S → Prop
  | [], _ => True
  | o :: run, s => P s o ∧ ∀ s', step s o = some s' → Along P run s'

theorem Along.cons {step : S → O → Option S} {P : S → O → Prop} {o : O} {run : List O} {s s' : S}
    (hs : step s o = some s') (ho : P s o) (hrun : Along step P run s') :
    Along step P (o :: run) s :=
  ⟨ho, fun _ h => Option.some.inj (hs.symm.trans h) ▸ hrun⟩

/-- What each operation that meets `P` keeps, the run keeps. -/
theorem Along.invariant {step : S → O → Option S} {P : S → O → Prop} {I : S → Prop} {run : List O}
    {s s' : S} (h : Along step P run s)
    (hstep : ∀ s o s', o ∈ run → P s o → step s o = some s' → I s → I s')
    (hs : run.foldlM step s = some s') (hI : I s) : I s' := by
  induction run generalizing s with
  | nil =>
      obtain rfl := Option.some.inj hs
      exact hI
  | cons o run ih =>
      obtain ⟨ho, hrun⟩ := h
      obtain ⟨t, ht, hs⟩ := Option.bind_eq_some_iff.mp hs
      refine ih (hrun t ht) (fun s o s' hmem => hstep s o s' (List.mem_cons_of_mem _ hmem)) hs ?_
      exact hstep s o t List.mem_cons_self ho ht hI

/-- No step fails, and the states are related to values that follow the specification. -/
def RefinesAlong (R : S → A → Prop) : List O → S → A → Prop
  | [], s, a => R s a
  | o :: run, s, a => R s a ∧
      ∃ s' a', step s o = some s' ∧ spec a o a' ∧ RefinesAlong R run s' a'

/-- An invariant `I` by which the condition `meets` decides whether a step refines. -/
structure Decides (R : S → A → Prop) (valid meets : S → O → Prop) (I : S → A → Prop) : Prop where
  refines : ∀ {s a}, I s a → R s a
  unique : ∀ {s a a'}, R s a → R s a' → a = a'
  keeps : ∀ {s a o}, I s a → valid s o → meets s o →
    ∃ s' a', step s o = some s' ∧ spec a o a' ∧ I s' a'
  breaks : ∀ {s a o s' a'}, I s a → valid s o → ¬ meets s o → step s o = some s' →
    spec a o a' → ¬ R s' a'

variable {step spec} {R : S → A → Prop} {valid meets : S → O → Prop} {I : S → A → Prop}
  {run : List O} {s : S} {a : A}

theorem RefinesAlong.refines (h : RefinesAlong step spec R run s a) : R s a := by
  cases run with
  | nil => exact h
  | cons o run => exact h.1

theorem Decides.refinesAlong_iff (h : Decides step spec R valid meets I) (hI : I s a)
    (hvalid : Along step valid run s) :
    RefinesAlong step spec R run s a ↔ Along step meets run s := by
  induction run generalizing s a with
  | nil => exact ⟨fun _ => trivial, fun _ => h.refines hI⟩
  | cons o run ih =>
      obtain ⟨ho, hvalid⟩ := hvalid
      constructor
      · rintro ⟨-, s', a', hs, ha, hrest⟩
        have hmeets : meets s o := by
          by_contra hmeets
          exact h.breaks hI ho hmeets hs ha hrest.refines
        -- the value of the run is the one the step gives
        obtain ⟨s₁, a₁, hs₁, -, hI₁⟩ := h.keeps hI ho hmeets
        obtain rfl : s₁ = s' := Option.some.inj (hs₁.symm.trans hs)
        obtain rfl : a₁ = a' := h.unique (h.refines hI₁) hrest.refines
        refine ⟨hmeets, fun s₂ hs₂ => ?_⟩
        obtain rfl : s₁ = s₂ := Option.some.inj (hs₁.symm.trans hs₂)
        exact (ih hI₁ (hvalid _ hs₁)).mp hrest
      · rintro ⟨hmeets, hrest⟩
        obtain ⟨s', a', hs, ha, hI'⟩ := h.keeps hI ho hmeets
        exact ⟨h.refines hI, s', a', hs, ha, (ih hI' (hvalid s' hs)).mpr (hrest s' hs)⟩

end Dots.Library

import Mathlib.Tactic.Common

/-!
# Runs with labels and their views

A run with labels is a run of a simpler system as soon as every step, seen through a view of the
states, is a step of that system with the same label. An invariant of the run may be used for
the single steps.
-/

namespace Dots.Library

variable {S A L : Type*}

/-- Steps one after the other, with their labels. -/
inductive Trace (step : S → L → S → Prop) : S → List L → S → Prop
  | nil (s : S) : Trace step s [] s
  | cons {s s₁ s' : S} {l : L} {ls : List L} (hs : step s l s₁) (h : Trace step s₁ ls s') :
      Trace step s (l :: ls) s'

namespace Trace

variable {step : S → L → S → Prop} {spec : A → L → A → Prop} {s s₁ s' : S} {l : L}
  {ls ms : List L}

theorem single (hs : step s l s') : Trace step s [l] s' := .cons hs (.nil s')

theorem append (h : Trace step s ls s₁) (h' : Trace step s₁ ms s') :
    Trace step s (ls ++ ms) s' := by
  induction h with
  | nil => exact h'
  | cons hs _ ih => exact .cons hs (ih h')

theorem invariant {I : S → Prop} (hI : ∀ s l s', I s → step s l s' → I s')
    (h : Trace step s ls s') (hs : I s) : I s' := by
  induction h with
  | nil => exact hs
  | cons hstep _ ih => exact ih (hI _ _ _ hs hstep)

/-- The run as it is seen through `view`. -/
theorem view {view : S → A} {I : S → Prop} (hI : ∀ s l s', I s → step s l s' → I s')
    (hview : ∀ s l s', I s → step s l s' → spec (view s) l (view s'))
    (h : Trace step s ls s') (hs : I s) : Trace spec (view s) ls (view s') := by
  induction h with
  | nil s => exact .nil (view s)
  | cons hstep _ ih => exact .cons (hview _ _ _ hs hstep) (ih (hI _ _ _ hs hstep))

end Trace

end Dots.Library

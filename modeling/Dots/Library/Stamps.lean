import Mathlib.Logic.Relation
import Mathlib.Order.Basic

/-!
# Places with stamps

Items lie in places, and every place carries the time at which what lies in it last changed.
A reader that remembers when it looked last passes over the places with an older stamp. It
misses nothing when every step stamps the places of the items that come or change.
-/

namespace Dots.Library

/-- The clock of a state, where its items lie, and the stamps of its places. -/
structure Stamps (State Item Place Time : Type*) where
  now : State → Time
  lies : State → Item → Place → Prop
  stamp : State → Place → Time

namespace Stamps

variable {State Item Place Time : Type*} [Preorder Time]

/-- A step that stamps every place to which an item comes. -/
structure Honest (V : Stamps State Item Place Time) (s s' : State) : Prop where
  now : V.now s ≤ V.now s'
  place : ∀ x p, V.lies s' x p →
    V.stamp s' p = V.now s' ∨ V.lies s x p ∧ V.stamp s' p = V.stamp s p

/-- A reader that looked at time `τ` finds the place of `x` at `τ` or after it. -/
def Since (V : Stamps State Item Place Time) (s : State) (x : Item) (τ : Time) : Prop :=
  ∀ p, V.lies s x p → τ ≤ V.stamp s p

variable {V : Stamps State Item Place Time} {s s' : State} {x : Item} {τ : Time}

/-- An item that comes is found from now on. -/
theorem Honest.arrives (h : V.Honest s s') (hno : ∀ p, ¬ V.lies s x p) :
    V.Since s' x (V.now s') := by
  intro p hp
  rcases h.place x p hp with hnow | ⟨hold, -⟩
  · exact hnow.ge
  · exact absurd hold (hno p)

theorem Honest.since (h : V.Honest s s') (hτ : τ ≤ V.now s) (hs : V.Since s x τ) :
    V.Since s' x τ := by
  intro p hp
  rcases h.place x p hp with hnow | ⟨hold, hstamp⟩
  · rw [hnow]
    exact hτ.trans h.now
  · rw [hstamp]
    exact hs p hold

/-- Honest steps forget nothing; that they are honest may rest on an invariant of the run. -/
theorem since_of_run {R : State → State → Prop} {I : State → Prop}
    (hR : ∀ s s', I s → R s s' → V.Honest s s' ∧ I s') (h : Relation.ReflTransGen R s s')
    (hI : I s) (hτ : τ ≤ V.now s) (hs : V.Since s x τ) : I s' ∧ V.Since s' x τ := by
  suffices hall : τ ≤ V.now s' ∧ I s' ∧ V.Since s' x τ from hall.2
  induction h with
  | refl => exact ⟨hτ, hI, hs⟩
  | tail _ hstep ih =>
      obtain ⟨hle, hinv, hsince⟩ := ih
      obtain ⟨honest, hinv'⟩ := hR _ _ hinv hstep
      exact ⟨hle.trans honest.now, hinv', honest.since hle hsince⟩

end Stamps

end Dots.Library

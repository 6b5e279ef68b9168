import Dots.Library.Simulation
import Mathlib.Data.List.Basic

/-!
# Populations

Who is alive, each with a value. Keys are born in groups, with a given value or with one that
is made from that of a living key; other events change or end the keys they name. What happens
to a key is decided by the events that name it.
-/

namespace Dots.Library

/-- The living keys and their values. -/
abbrev Population (K V : Type*) := K → Option V

namespace Population

/-- `birth` of `n` keys with a value, `copy` of a key in `n` keys with what `f` makes of its
value, and `change` of the named keys, which ends those of which `f` makes nothing. -/
inductive Event (K V : Type*)
  | birth (v : V) (n : Nat)
  | copy (k : K) (f : V → Option V) (n : Nat)
  | change (ks : List K) (f : V → Option V)

variable {K V : Type*} [DecidableEq K]

/-- The population with new keys. -/
def add (P : Population K V) (ks : List K) (v : V) : Population K V := fun k =>
  if k ∈ ks then some v else P k

/-- The population with other values for some keys. -/
def alter (P : Population K V) (ks : List K) (f : V → Option V) : Population K V := fun k =>
  if k ∈ ks then (P k).bind f else P k

/-- `n` keys, all different, that nobody has. -/
structure Fresh (P : Population K V) (n : Nat) (ks : List K) : Prop where
  nodup : ks.Nodup
  length : ks.length = n
  unused : ∀ k ∈ ks, P k = none

/-- One event. Only the living are copied and changed. -/
inductive Step : Population K V → Event K V → Population K V → Prop
  | birth {P : Population K V} {v : V} {n : Nat} {ks : List K} (hks : P.Fresh n ks) :
      Step P (.birth v n) (P.add ks v)
  | copy {P : Population K V} {k : K} {f : V → Option V} {u v : V} {n : Nat} {ks : List K}
      (hk : P k = some u) (hv : n ≠ 0 → f u = some v) (hks : P.Fresh n ks) :
      Step P (.copy k f n) (P.add ks v)
  | change {P : Population K V} {ks : List K} {f : V → Option V} (halive : ∀ k ∈ ks, P k ≠ none) :
      Step P (.change ks f) (P.alter ks f)

/-- What an event makes of the value of `k`. -/
def Event.on (k : K) : Event K V → V → Option V
  | .change ks f, v => if k ∈ ks then f v else some v
  | _, v => some v

variable {P P' : Population K V} {ks : List K} {f : V → Option V} {k : K} {u v : V} {n : Nat}
  {e : Event K V} {es : List (Event K V)}

theorem add_of_mem (h : k ∈ ks) : P.add ks v k = some v := if_pos h

theorem add_of_not_mem (h : k ∉ ks) : P.add ks v k = P k := if_neg h

theorem alter_of_mem (h : k ∈ ks) : P.alter ks f k = (P k).bind f := if_pos h

theorem alter_of_not_mem (h : k ∉ ks) : P.alter ks f k = P k := if_neg h

theorem Step.eq_alter (h : Step P (.change ks f) P') : P' = P.alter ks f := by
  cases h
  rfl

/-- Those who are there are not born again. -/
theorem Fresh.add (h : P.Fresh n ks) (hk : P k = some v) : P.add ks u k = some v := by
  rw [add_of_not_mem, hk]
  intro hmem
  simp [h.unused k hmem] at hk

theorem Step.value (h : Step P e P') (hk : P k = some v) : P' k = e.on k v := by
  cases h with
  | birth hks => exact hks.add hk
  | copy _ _ hks => exact hks.add hk
  | @change ks f _ =>
      rw [alter, Event.on, hk]
      rfl

/-- The value of a key that lives to the end comes from its own events alone. -/
theorem value_of_trace (h : Trace Step P es P') (hk : P k = some v)
    (hv : es.foldlM (fun v e => e.on k v) v = some u) : P' k = some u := by
  induction h generalizing v with
  | nil =>
      rw [hk]
      exact hv
  | cons hs _ ih =>
      obtain ⟨v₁, hv₁, hrest⟩ := Option.bind_eq_some_iff.mp hv
      exact ih ((hs.value hk).trans hv₁) hrest

end Population

end Dots.Library

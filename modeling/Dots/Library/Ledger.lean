import Mathlib.Data.List.Basic
import Mathlib.Data.List.Pairwise
import Mathlib.Logic.Function.Basic
import Mathlib.Logic.Relation
import Mathlib.Tactic.Common

/-!
# Dependency ledgers

A ledger keeps, for each resource, the task that wrote it last and the tasks that
read it since. A task registers by visiting entries one after the other; each
visit updates the entry and collects dependencies. Tasks may expire, and what an
entry holds of an expired task is ignored.

Two facts about such a registration: which lists of visits make a task depend on
itself, and why conflicting tasks are ordered by the collected dependencies as
long as tasks expire after what they depend on.
-/

set_option linter.unusedSectionVars false

namespace Dots.Library

variable {κ τ : Type*} [DecidableEq κ] [DecidableEq τ]

structure Entry (τ : Type*) where
  owned : Option τ := none
  shared : List τ := []
  deriving DecidableEq

/-- The entries, and the dependencies collected so far by the task that registers. -/
structure Ledger (κ τ : Type*) where
  entries : κ → Entry τ
  dependencies : List τ := []

@[ext] structure Visit (κ : Type*) where
  entry : κ
  readonly : Bool
  deriving DecidableEq

/-- Insert the owner unless it is expired. -/
def insertOwned (live : τ → Bool) (ds : List τ) : Option τ → List τ
  | none => ds
  | some o => if live o then ds.insert o else ds

def insertAll (ds ts : List τ) : List τ := ts.foldl (fun ds t => ds.insert t) ds

@[simp] theorem mem_insertOwned {live : τ → Bool} {ds : List τ} {o : Option τ} {t : τ} :
    t ∈ insertOwned live ds o ↔ t ∈ ds ∨ o = some t ∧ live t = true := by
  cases o with
  | none => simp [insertOwned]
  | some o =>
      simp only [insertOwned]
      split
      · rename_i h
        simp only [List.mem_insert_iff, Option.some.injEq]
        constructor
        · rintro (rfl | ht)
          · exact Or.inr ⟨rfl, h⟩
          · exact Or.inl ht
        · rintro (ht | ⟨rfl, -⟩)
          · exact Or.inr ht
          · exact Or.inl rfl
      · rename_i h
        constructor
        · exact Or.inl
        · rintro (ht | ⟨ho, ht⟩)
          · exact ht
          · rw [Option.some.injEq] at ho
            exact absurd (ho ▸ ht) h

@[simp] theorem mem_insertAll {ds ts : List τ} {t : τ} :
    t ∈ insertAll ds ts ↔ t ∈ ds ∨ t ∈ ts := by
  induction ts generalizing ds with
  | nil => simp [insertAll]
  | cons u ts ih =>
      simp only [insertAll, List.foldl_cons] at ih ⊢
      rw [ih]
      simp only [List.mem_insert_iff, List.mem_cons]
      tauto

namespace Ledger

/-- Register a reader: it waits for the owner and joins the readers. -/
def read (live : τ → Bool) (k : τ) (x : κ) (s : Ledger κ τ) : Ledger κ τ where
  dependencies := insertOwned live s.dependencies (s.entries x).owned
  entries := Function.update s.entries x
    { owned := (s.entries x).owned, shared := (s.entries x).shared.filter live ++ [k] }

/-- Register a writer: it waits for the readers, or for the owner when there are
none, and becomes the owner. -/
def write (withExpired : Bool) (live : τ → Bool) (k : τ) (x : κ) (s : Ledger κ τ) :
    Ledger κ τ where
  dependencies :=
    let ds := insertAll s.dependencies
      (if withExpired then (s.entries x).shared else (s.entries x).shared.filter live)
    if (s.entries x).shared.isEmpty then insertOwned live ds (s.entries x).owned else ds
  entries := Function.update s.entries x { owned := some k, shared := [] }

def access (withExpired : Bool) (live : τ → Bool) (k : τ) (x : κ) (readonly : Bool)
    (s : Ledger κ τ) : Ledger κ τ :=
  if readonly then s.read live k x else s.write withExpired live k x

/-- A visit; `withExpired` says at which entries a writer takes expired readers too. -/
def visit (withExpired : κ → Bool) (live : τ → Bool) (k : τ) (s : Ledger κ τ) (v : Visit κ) :
    Ledger κ τ :=
  s.access (withExpired v.entry) live k v.entry v.readonly

def replay (withExpired : κ → Bool) (live : τ → Bool) (k : τ) (vs : List (Visit κ))
    (s : Ledger κ τ) : Ledger κ τ :=
  vs.foldl (visit withExpired live k) s

theorem entry_read (live : τ → Bool) (k : τ) (x y : κ) (s : Ledger κ τ) :
    (s.read live k x).entries y =
      if y = x then
        { owned := (s.entries x).owned, shared := (s.entries x).shared.filter live ++ [k] }
      else s.entries y := by
  simp only [read, Function.update_apply]

theorem entry_write (b : Bool) (live : τ → Bool) (k : τ) (x y : κ) (s : Ledger κ τ) :
    (s.write b live k x).entries y =
      if y = x then { owned := some k, shared := [] } else s.entries y := by
  simp only [write, Function.update_apply]

theorem mem_read {live : τ → Bool} {k t : τ} {x : κ} {s : Ledger κ τ} :
    t ∈ (s.read live k x).dependencies ↔
      t ∈ s.dependencies ∨ (s.entries x).owned = some t ∧ live t = true := by
  simp only [read, mem_insertOwned]

/-- What a writer certainly collects. -/
theorem mem_write_of_shared {b : Bool} {live : τ → Bool} {k t : τ} {x : κ} {s : Ledger κ τ}
    (h : t ∈ (s.entries x).shared) (ht : live t = true) :
    t ∈ (s.write b live k x).dependencies := by
  have hne : (s.entries x).shared.isEmpty = false := by
    cases hs : (s.entries x).shared with
    | nil => simp [hs] at h
    | cons u us => rfl
  simp only [write, hne, Bool.false_eq_true, if_false, mem_insertAll]
  split
  · exact Or.inr h
  · exact Or.inr (List.mem_filter.mpr ⟨h, ht⟩)

theorem mem_write_of_owned {b : Bool} {live : τ → Bool} {k t : τ} {x : κ} {s : Ledger κ τ}
    (hs : (s.entries x).shared = []) (ho : (s.entries x).owned = some t)
    (ht : live t = true) : t ∈ (s.write b live k x).dependencies := by
  simp [write, hs, ho, ht]

theorem mem_write_of_mem {b : Bool} {live : τ → Bool} {k t : τ} {x : κ} {s : Ledger κ τ}
    (h : t ∈ s.dependencies) : t ∈ (s.write b live k x).dependencies := by
  simp only [write]
  split
  · simp [h]
  · simp [h]

/-- A live writer collects itself when the entry already names it. -/
theorem self_mem_write {b : Bool} {live : τ → Bool} {k : τ} {x : κ} {s : Ledger κ τ}
    (hk : live k = true)
    (hown : (s.entries x).owned = some k → ∀ t ∈ (s.entries x).shared, t = k) :
    k ∈ (s.write b live k x).dependencies ↔
      k ∈ s.dependencies ∨ k ∈ (s.entries x).shared ∨ (s.entries x).owned = some k := by
  constructor
  · intro h
    simp only [write] at h
    have hsub : k ∈ (if b then (s.entries x).shared
        else (s.entries x).shared.filter live) → k ∈ (s.entries x).shared := by
      split
      · exact id
      · exact fun h => (List.mem_filter.mp h).1
    split at h
    · rcases mem_insertOwned.mp h with h | ⟨h, -⟩
      · exact (mem_insertAll.mp h).imp_right fun h => Or.inl (hsub h)
      · exact Or.inr (Or.inr h)
    · exact (mem_insertAll.mp h).imp_right fun h => Or.inl (hsub h)
  · rintro (h | h | h)
    · exact mem_write_of_mem h
    · exact mem_write_of_shared h hk
    · cases hs : (s.entries x).shared with
      | nil => exact mem_write_of_owned hs h hk
      | cons t ts =>
          have ht : t ∈ (s.entries x).shared := by simp [hs]
          exact mem_write_of_shared (hown h t ht ▸ ht) hk

/-! ## Depending on oneself -/

/-- Two visits of one registration that do not meet, or meet for reading only. -/
def Compatible (v v' : Visit κ) : Prop :=
  v.entry = v'.entry → v.readonly = true ∧ v'.readonly = true

instance (v v' : Visit κ) : Decidable (Compatible v v') :=
  inferInstanceAs (Decidable (_ → _))

/-- What the entries and the dependencies say of a task after the visits `pre`. -/
structure Registered (k : τ) (pre : List (Visit κ)) (s : Ledger κ τ) : Prop where
  owned : ∀ x, (s.entries x).owned = some k ↔ ∃ v ∈ pre, v.entry = x ∧ v.readonly = false
  named : ∀ x, (k ∈ (s.entries x).shared ∨ (s.entries x).owned = some k) ↔
    ∃ v ∈ pre, v.entry = x
  alone : ∀ x, (s.entries x).owned = some k → ∀ t ∈ (s.entries x).shared, t = k
  self : k ∈ s.dependencies ↔ ¬ pre.Pairwise Compatible

theorem pairwise_concat {pre : List (Visit κ)} {v : Visit κ} :
    (pre ++ [v]).Pairwise Compatible ↔
      pre.Pairwise Compatible ∧ ∀ u ∈ pre, Compatible u v := by
  simp [List.pairwise_append]

theorem Registered.read {k : τ} {pre : List (Visit κ)} {s : Ledger κ τ} {live : τ → Bool}
    (hk : live k = true) (h : Registered k pre s) (x : κ) :
    Registered k (pre ++ [⟨x, true⟩]) (s.read live k x) where
  owned y := by
    rw [entry_read]
    by_cases hy : y = x
    · subst hy
      simp [h.owned y, or_and_right, exists_or]
    · simp [hy, h.owned y, or_and_right, exists_or]
  named y := by
    rw [entry_read]
    by_cases hy : y = x
    · subst hy
      simp only [if_true, List.mem_append, List.mem_singleton, or_true, true_or, true_iff]
      exact ⟨_, Or.inr rfl, rfl⟩
    · have : ¬ x = y := fun hxy => hy hxy.symm
      simp [hy, this, h.named y, or_and_right, exists_or]
  alone y ho t ht := by
    rw [entry_read] at ho ht
    by_cases hy : y = x
    · subst hy
      simp only [if_true, List.mem_append, List.mem_filter, List.mem_singleton] at ho ht
      exact ht.elim (fun ht => h.alone y ho t ht.1) id
    · simp only [hy, if_false] at ho ht
      exact h.alone y ho t ht
  self := by
    rw [mem_read, h.self, h.owned x, pairwise_concat, not_and_or]
    simp only [hk, and_true, Compatible]
    refine or_congr_right ⟨?_, ?_⟩
    · rintro ⟨v, hv, hx, hw⟩ hall
      exact absurd (hall v hv hx) (by simp [hw])
    · intro hall
      push Not at hall
      obtain ⟨v, hv, hx, hw⟩ := hall
      exact ⟨v, hv, hx, by simpa using hw⟩

theorem Registered.write {k : τ} {pre : List (Visit κ)} {s : Ledger κ τ} {live : τ → Bool}
    (hk : live k = true) (h : Registered k pre s) (b : Bool) (x : κ) :
    Registered k (pre ++ [⟨x, false⟩]) (s.write b live k x) where
  owned y := by
    rw [entry_write]
    by_cases hy : y = x
    · subst hy
      simp only [if_true, true_iff]
      exact ⟨⟨y, false⟩, by simp, rfl, rfl⟩
    · have : ¬ x = y := fun hxy => hy hxy.symm
      simp [hy, this, h.owned y, or_and_right, exists_or]
  named y := by
    rw [entry_write]
    by_cases hy : y = x
    · subst hy
      simp only [if_true, or_true, true_iff]
      exact ⟨⟨y, false⟩, by simp, rfl⟩
    · have : ¬ x = y := fun hxy => hy hxy.symm
      simp [hy, this, h.named y, or_and_right, exists_or]
  alone y ho t ht := by
    rw [entry_write] at ho ht
    by_cases hy : y = x
    · simp [hy] at ht
    · simp only [hy, if_false] at ho ht
      exact h.alone y ho t ht
  self := by
    rw [self_mem_write hk (h.alone x), h.self, h.named x, pairwise_concat, not_and_or]
    refine or_congr_right ⟨?_, ?_⟩
    · rintro ⟨v, hv, hx⟩ hall
      exact absurd (hall v hv hx).2 (by simp)
    · intro hall
      simp only [Compatible] at hall
      push Not at hall
      obtain ⟨v, hv, hx, -⟩ := hall
      exact ⟨v, hv, hx⟩

theorem Registered.visit {k : τ} {pre : List (Visit κ)} {s : Ledger κ τ} {live : τ → Bool}
    (hk : live k = true) (h : Registered k pre s) (b : κ → Bool) (v : Visit κ) :
    Registered k (pre ++ [v]) (s.visit b live k v) := by
  obtain ⟨x, readonly⟩ := v
  cases readonly with
  | true => exact h.read hk x
  | false => exact h.write hk (b x) x

theorem Registered.replay {k : τ} {live : τ → Bool} (hk : live k = true) (b : κ → Bool)
    {pre vs : List (Visit κ)} {s : Ledger κ τ} (h : Registered k pre s) :
    Registered k (pre ++ vs) (s.replay b live k vs) := by
  induction vs generalizing pre s with
  | nil => simpa [Ledger.replay] using h
  | cons v vs ih =>
      have := ih (h.visit hk b v)
      simpa [Ledger.replay] using this

/-- A task no entry names. -/
def Fresh (k : τ) (E : κ → Entry τ) : Prop :=
  ∀ x, (E x).owned ≠ some k ∧ k ∉ (E x).shared

/-- A new task ends up depending on itself exactly when it visits an entry more
than once and not only for reading. -/
theorem self_mem_replay_iff {k : τ} {live : τ → Bool} (hk : live k = true) (b : κ → Bool)
    {E : κ → Entry τ} (hE : Fresh k E) (vs : List (Visit κ)) :
    k ∈ (replay b live k vs { entries := E }).dependencies ↔ ¬ vs.Pairwise Compatible := by
  have h0 : Registered k [] ({ entries := E } : Ledger κ τ) :=
    { owned := fun x => by simp [(hE x).1]
      named := fun x => by simp [(hE x).1, (hE x).2]
      alone := fun x ho => absurd ho (hE x).1
      self := by simp }
  have h : Registered k ([] ++ vs) (replay b live k vs { entries := E }) := h0.replay hk b
  simpa using h.self

/-! ## Where dependencies come from -/

/-- Every task named by an entry, or collected, satisfies `P`. -/
structure Within (P : τ → Prop) (s : Ledger κ τ) : Prop where
  owned : ∀ x t, (s.entries x).owned = some t → P t
  shared : ∀ x, ∀ t ∈ (s.entries x).shared, P t
  dependencies : ∀ t ∈ s.dependencies, P t

theorem Within.visit {P : τ → Prop} {s : Ledger κ τ} (h : Within P s) {live : τ → Bool} {k : τ}
    (hk : P k) (b : κ → Bool) (v : Visit κ) : Within P (s.visit b live k v) := by
  obtain ⟨x, readonly⟩ := v
  cases readonly with
  | true =>
      refine ⟨fun y t ht => ?_, fun y t ht => ?_, fun t ht => ?_⟩
      · change ((s.read live k x).entries y).owned = some t at ht
        rw [entry_read] at ht
        by_cases hy : y = x
        · exact h.owned x t (by simpa [hy] using ht)
        · exact h.owned y t (by simpa [hy] using ht)
      · change t ∈ ((s.read live k x).entries y).shared at ht
        rw [entry_read] at ht
        by_cases hy : y = x
        · simp only [hy, if_true, List.mem_append, List.mem_filter, List.mem_singleton] at ht
          exact ht.elim (fun ht => h.shared x t ht.1) fun ht => ht ▸ hk
        · exact h.shared y t (by simpa [hy] using ht)
      · rcases mem_read.mp ht with ht | ⟨ht, -⟩
        · exact h.dependencies t ht
        · exact h.owned x t ht
  | false =>
      refine ⟨fun y t ht => ?_, fun y t ht => ?_, fun t ht => ?_⟩
      · change ((s.write (b x) live k x).entries y).owned = some t at ht
        rw [entry_write] at ht
        by_cases hy : y = x
        · simp only [hy, if_true, Option.some.injEq] at ht
          exact ht ▸ hk
        · exact h.owned y t (by simpa [hy] using ht)
      · change t ∈ ((s.write (b x) live k x).entries y).shared at ht
        rw [entry_write] at ht
        by_cases hy : y = x
        · simp [hy] at ht
        · exact h.shared y t (by simpa [hy] using ht)
      · change t ∈ (s.write (b x) live k x).dependencies at ht
        have hsub : t ∈ (if b x then (s.entries x).shared
            else (s.entries x).shared.filter live) → t ∈ (s.entries x).shared := by
          split
          · exact id
          · exact fun h => (List.mem_filter.mp h).1
        have hall : t ∈ insertAll s.dependencies (if b x then (s.entries x).shared
            else (s.entries x).shared.filter live) → P t := fun ht =>
          (mem_insertAll.mp ht).elim (h.dependencies t) fun ht => h.shared x t (hsub ht)
        simp only [write] at ht
        split at ht
        · exact (mem_insertOwned.mp ht).elim hall fun ht => h.owned x t ht.1
        · exact hall ht

theorem Within.replay {P : τ → Prop} {live : τ → Bool} {k : τ} (hk : P k) (b : κ → Bool)
    (vs : List (Visit κ)) {s : Ledger κ τ} (h : Within P s) :
    Within P (s.replay b live k vs) := by
  induction vs generalizing s with
  | nil => exact h
  | cons v vs ih => exact ih (h.visit hk b v)

/-! ## Conflicting tasks are ordered -/

/-- `b` can be reached from `a` by following dependencies. -/
abbrev Reach (deps : τ → List τ) : τ → τ → Prop :=
  Relation.ReflTransGen fun a b => b ∈ deps a

/-- Two tasks visit one entry, and one of them writes it. -/
def Conflict (vs vs' : List (Visit κ)) : Prop :=
  ∃ v ∈ vs, ∃ v' ∈ vs', v.entry = v'.entry ∧ (v.readonly = false ∨ v'.readonly = false)

/-- What holds of the entries `E` when the tasks registered so far have the
dependencies `deps` and made the visits `log`. -/
structure Ordered (deps : τ → List τ) (live : τ → Bool) (log : τ → List (Visit κ))
    (E : κ → Entry τ) : Prop where
  /-- Tasks expire after what they depend on. -/
  closed : ∀ a, ∀ b ∈ deps a, live b = true → live a = true
  /-- A live writer is behind the owner. -/
  writers : ∀ a, live a = true → ∀ v ∈ log a, v.readonly = false →
    ∃ o, (E v.entry).owned = some o ∧ Reach deps o a
  /-- A live visitor is among the readers or behind the owner. -/
  visitors : ∀ a, live a = true → ∀ v ∈ log a,
    a ∈ (E v.entry).shared ∨ ∃ o, (E v.entry).owned = some o ∧ Reach deps o a
  /-- A live owner is behind every reader. -/
  readers : ∀ x, ∀ a ∈ (E x).shared, ∀ o, (E x).owned = some o → live o = true →
    Reach deps a o

theorem Reach.mono {deps deps' : τ → List τ} (h : ∀ a, deps a ⊆ deps' a) {a b : τ}
    (hab : Reach deps a b) : Reach deps' a b :=
  Relation.ReflTransGen.mono (fun a _ hb => h a hb) _ _ hab

theorem Ordered.live_of_reach {deps : τ → List τ} {live : τ → Bool}
    {log : τ → List (Visit κ)} {E : κ → Entry τ} (h : Ordered deps live log E) {a b : τ}
    (hab : Reach deps a b) (hb : live b = true) : live a = true := by
  induction hab using Relation.ReflTransGen.head_induction_on with
  | refl => exact hb
  | head hstep _ ih => exact h.closed _ _ hstep ih

/-- The empty ledger. -/
theorem Ordered.initial (live : τ → Bool) :
    Ordered (fun _ => []) live (fun _ => []) fun _ : κ => ({} : Entry τ) where
  closed := by simp
  writers := by simp
  visitors := by simp
  readers := by simp

/-- A task may expire once everything it depends on has. -/
theorem Ordered.expire {deps : τ → List τ} {live : τ → Bool} {log : τ → List (Visit κ)}
    {E : κ → Entry τ} (h : Ordered deps live log E) {k : τ}
    (hk : ∀ b ∈ deps k, b ≠ k → live b = false) :
    Ordered deps (Function.update live k false) log E := by
  have hlive : ∀ {a}, Function.update live k false a = true → live a = true := by
    intro a ha
    by_cases hak : a = k
    · simp [hak] at ha
    · simpa [hak] using ha
  refine ⟨fun a b hb hlb => ?_, fun a ha => h.writers a (hlive ha),
    fun a ha => h.visitors a (hlive ha), fun x a ha o ho hlo => h.readers x a ha o ho (hlive hlo)⟩
  have hbk : b ≠ k := by
    rintro rfl
    simp at hlb
  by_cases hak : a = k
  · subst hak
    exact absurd (hlive hlb) (by simp [hk b hb hbk])
  · rw [Function.update_of_ne hak]
    exact h.closed a b hb (hlive hlb)

/-- The state in the middle of the registration of `k`, after the visits `pre`. -/
structure Registering (deps : τ → List τ) (live : τ → Bool) (log : τ → List (Visit κ)) (k : τ)
    (pre : List (Visit κ)) (s : Ledger κ τ) : Prop where
  ordered : Ordered (Function.update deps k s.dependencies) live (Function.update log k pre)
    s.entries
  reach : ∀ a, a ≠ k → live a = true → Conflict (log a) pre →
    Reach (Function.update deps k s.dependencies) k a

section Registration

variable {deps : τ → List τ} {live alive : τ → Bool} {log : τ → List (Visit κ)} {k : τ}
  {pre : List (Visit κ)} {s : Ledger κ τ}

theorem update_subset {ds ds' : List τ} (h : ds ⊆ ds') (a : τ) :
    Function.update deps k ds a ⊆ Function.update deps k ds' a := by
  by_cases ha : a = k
  · subst ha
    simpa using h
  · simp [ha]

theorem reach_of_mem {t a : τ} (h : t ∈ s.dependencies)
    (hta : Reach (Function.update deps k s.dependencies) t a) :
    Reach (Function.update deps k s.dependencies) k a :=
  Relation.ReflTransGen.head (by simpa using h) hta

/-- Old visits of a task with one more visit of the new one. -/
theorem mem_update_concat {x : Visit κ} {a : τ} {v : Visit κ} :
    v ∈ Function.update log k (pre ++ [x]) a ↔
      v ∈ Function.update log k pre a ∨ a = k ∧ v = x := by
  by_cases ha : a = k
  · subst ha
    simp
  · simp [ha]

theorem conflict_concat {vs : List (Visit κ)} {x : Visit κ} (h : Conflict vs (pre ++ [x])) :
    Conflict vs pre ∨ ∃ v ∈ vs, v.entry = x.entry ∧ (v.readonly = false ∨ x.readonly = false) := by
  obtain ⟨v, hv, v', hv', hx, hw⟩ := h
  rcases List.mem_append.mp hv' with hv' | hv'
  · exact Or.inl ⟨v, hv, v', hv', hx, hw⟩
  · rw [List.mem_singleton] at hv'
    subst hv'
    exact Or.inr ⟨v, hv, hx, hw⟩

theorem Registering.closed_of_subset (hk : live k = true) (h : Registering deps live log k pre s)
    (s' : Ledger κ τ) :
    ∀ a, ∀ b ∈ Function.update deps k s'.dependencies a, live b = true → live a = true := by
  intro a b hb hlb
  by_cases ha : a = k
  · exact ha ▸ hk
  · rw [Function.update_of_ne ha] at hb
    exact h.ordered.closed a b (by rwa [Function.update_of_ne ha]) hlb

/-- A read keeps the order: the owner is collected, so all live writers are behind. The ledger
may take more tasks for alive than those that have to be ordered. -/
theorem Registering.read (hle : ∀ a, live a = true → alive a = true) (hk : live k = true)
    (h : Registering deps live log k pre s) (x : κ) :
    Registering deps live log k (pre ++ [⟨x, true⟩]) (s.read alive k x) := by
  have hsub : s.dependencies ⊆ (s.read alive k x).dependencies := fun t ht =>
    mem_read.mpr (Or.inl ht)
  have hmono : ∀ {a b}, Reach (Function.update deps k s.dependencies) a b →
      Reach (Function.update deps k (s.read alive k x).dependencies) a b := fun hab =>
    hab.mono (update_subset hsub)
  have howner : ∀ o, (s.entries x).owned = some o → live o = true →
      Reach (Function.update deps k (s.read alive k x).dependencies) k o := fun o ho hlo =>
    reach_of_mem (mem_read.mpr (Or.inr ⟨ho, hle o hlo⟩)) .refl
  refine ⟨⟨h.closed_of_subset hk _, ?_, ?_, ?_⟩, ?_⟩
  · intro a ha v hv hw
    rcases mem_update_concat.mp hv with hv | ⟨-, rfl⟩
    · obtain ⟨o, ho, hoa⟩ := h.ordered.writers a ha v hv hw
      refine ⟨o, ?_, hmono hoa⟩
      rw [entry_read]
      split
      · rename_i hx
        exact hx ▸ ho
      · exact ho
    · simp at hw
  · intro a ha v hv
    rw [entry_read]
    rcases mem_update_concat.mp hv with hv | ⟨rfl, rfl⟩
    · split
      · rename_i hx
        rcases h.ordered.visitors a ha v hv with hs | ⟨o, ho, hoa⟩
        · refine Or.inl (List.mem_append_left _ (List.mem_filter.mpr ⟨hx ▸ hs, hle a ha⟩))
        · exact Or.inr ⟨o, hx ▸ ho, hmono hoa⟩
      · exact (h.ordered.visitors a ha v hv).imp_right fun ⟨o, ho, hoa⟩ => ⟨o, ho, hmono hoa⟩
    · simp
  · intro y a ha o ho hlo
    rw [entry_read] at ha ho
    split at ha
    · rename_i hy
      simp only [hy, if_true] at ho
      simp only [List.mem_append, List.mem_filter, List.mem_singleton] at ha
      rcases ha with ⟨ha, -⟩ | rfl
      · exact hmono (h.ordered.readers x a ha o ho hlo)
      · exact howner o ho hlo
    · rename_i hy
      simp only [hy, if_false] at ho
      exact hmono (h.ordered.readers y a ha o ho hlo)
  · intro a hak ha hc
    rcases conflict_concat hc with hc | ⟨v, hv, hx, hw⟩
    · exact hmono (h.reach a hak ha hc)
    · have hw : v.readonly = false := by simpa using hw
      obtain ⟨o, ho, hoa⟩ := h.ordered.writers a ha v (by simpa [hak] using hv) hw
      have hx : v.entry = x := hx
      rw [hx] at ho
      exact (howner o ho (h.ordered.live_of_reach hoa ha)).trans (hmono hoa)

/-- Every live visitor of an entry is behind a new writer of it. When there are
readers the owner itself is not collected, but a reader leads to it. -/
theorem Registering.reach_of_write (hle : ∀ a, live a = true → alive a = true)
    (h : Registering deps live log k pre s) (b : Bool) {a : τ} (ha : live a = true)
    {v : Visit κ} (hv : v ∈ Function.update log k pre a) :
    Reach (Function.update deps k (s.write b alive k v.entry).dependencies) k a := by
  have hmono : ∀ {c d}, Reach (Function.update deps k s.dependencies) c d →
      Reach (Function.update deps k (s.write b alive k v.entry).dependencies) c d := fun hcd =>
    hcd.mono (update_subset fun t ht => mem_write_of_mem ht)
  rcases h.ordered.visitors a ha v hv with hs | ⟨o, ho, hoa⟩
  · exact reach_of_mem (mem_write_of_shared hs (hle a ha)) .refl
  · have hlo := h.ordered.live_of_reach hoa ha
    cases hs : (s.entries v.entry).shared with
    | nil => exact reach_of_mem (mem_write_of_owned hs ho (hle o hlo)) (hmono hoa)
    | cons r rs =>
        have hr : r ∈ (s.entries v.entry).shared := by simp [hs]
        have hra := (h.ordered.readers v.entry r hr o ho hlo).trans hoa
        have hlr := hle r (h.ordered.live_of_reach hra ha)
        exact reach_of_mem (mem_write_of_shared hr hlr) (hmono hra)

theorem Registering.write (hle : ∀ a, live a = true → alive a = true) (hk : live k = true)
    (h : Registering deps live log k pre s) (b : Bool) (x : κ) :
    Registering deps live log k (pre ++ [⟨x, false⟩]) (s.write b alive k x) := by
  have hmono : ∀ {c d}, Reach (Function.update deps k s.dependencies) c d →
      Reach (Function.update deps k (s.write b alive k x).dependencies) c d := fun hcd =>
    hcd.mono (update_subset fun t ht => mem_write_of_mem ht)
  have hbehind : ∀ a, live a = true → ∀ v ∈ Function.update log k (pre ++ [⟨x, false⟩]) a,
      v.entry = x → Reach (Function.update deps k (s.write b alive k x).dependencies) k a := by
    rintro a ha v hv rfl
    rcases mem_update_concat.mp hv with hv | ⟨rfl, -⟩
    · exact h.reach_of_write hle b ha hv
    · exact .refl
  refine ⟨⟨h.closed_of_subset hk _, ?_, ?_, ?_⟩, ?_⟩
  · intro a ha v hv hw
    rw [entry_write]
    split
    · rename_i hx
      exact ⟨k, rfl, hbehind a ha v hv hx⟩
    · rename_i hx
      rcases mem_update_concat.mp hv with hv | ⟨-, rfl⟩
      · obtain ⟨o, ho, hoa⟩ := h.ordered.writers a ha v hv hw
        exact ⟨o, ho, hmono hoa⟩
      · exact absurd rfl hx
  · intro a ha v hv
    rw [entry_write]
    split
    · rename_i hx
      exact Or.inr ⟨k, rfl, hbehind a ha v hv hx⟩
    · rename_i hx
      rcases mem_update_concat.mp hv with hv | ⟨-, rfl⟩
      · exact (h.ordered.visitors a ha v hv).imp_right fun ⟨o, ho, hoa⟩ => ⟨o, ho, hmono hoa⟩
      · exact absurd rfl hx
  · intro y a ha o ho hlo
    rw [entry_write] at ha ho
    split at ha
    · simp at ha
    · rename_i hy
      simp only [hy, if_false] at ho
      exact hmono (h.ordered.readers y a ha o ho hlo)
  · intro a hak ha hc
    rcases conflict_concat hc with hc | ⟨v, hv, hx, -⟩
    · exact hmono (h.reach a hak ha hc)
    · exact hbehind a ha v (mem_update_concat.mpr (Or.inl (by simpa [hak] using hv))) hx

theorem Registering.replay (hle : ∀ a, live a = true → alive a = true) (hk : live k = true)
    (b : κ → Bool) (vs : List (Visit κ)) (h : Registering deps live log k pre s) :
    Registering deps live log k (pre ++ vs) (s.replay b alive k vs) := by
  induction vs generalizing pre s with
  | nil => simpa [Ledger.replay] using h
  | cons v vs ih =>
      have hv : Registering deps live log k (pre ++ [v]) (s.visit b alive k v) := by
        obtain ⟨x, readonly⟩ := v
        cases readonly with
        | true => exact h.read hle hk x
        | false => exact h.write hle hk (b x) x
      simpa [Ledger.replay] using ih hv

/-- Registering a task that made no visit so far and that nothing names. -/
theorem Ordered.registerAmong {E : κ → Entry τ} (h : Ordered deps live log E)
    (hle : ∀ a, live a = true → alive a = true) (hk : live k = true)
    (hdeps : deps k = []) (hlog : log k = []) (b : κ → Bool) (vs : List (Visit κ)) :
    Registering deps live log k vs (Ledger.replay b alive k vs { entries := E }) := by
  have h0 : Registering deps live log k [] ({ entries := E } : Ledger κ τ) := by
    refine ⟨?_, ?_⟩
    · have hd : Function.update deps k [] = deps := by rw [← hdeps, Function.update_eq_self]
      have hl : Function.update log k [] = log := by rw [← hlog, Function.update_eq_self]
      simpa only [hd, hl] using h
    · rintro a - - ⟨v, -, v', hv', -⟩
      simp at hv'
  simpa using h0.replay hle hk b vs

theorem Ordered.register {E : κ → Entry τ} (h : Ordered deps live log E) (hk : live k = true)
    (hdeps : deps k = []) (hlog : log k = []) (b : κ → Bool) (vs : List (Visit κ)) :
    Registering deps live log k vs (Ledger.replay b live k vs { entries := E }) :=
  h.registerAmong (fun _ ha => ha) hk hdeps hlog b vs

end Registration

/-- Making a task live that no entry, dependency or visit names changes nothing. -/
theorem Ordered.revive {deps : τ → List τ} {live : τ → Bool} {log : τ → List (Visit κ)}
    {E : κ → Entry τ} (h : Ordered deps live log E) {k : τ} (hE : Fresh k E)
    (hdeps : ∀ a, k ∉ deps a) (hlog : log k = []) :
    Ordered deps (Function.update live k true) log E := by
  have hlive : ∀ {a}, a ≠ k → Function.update live k true a = live a := fun ha => by simp [ha]
  refine ⟨fun a b hb hlb => ?_, fun a ha v hv => ?_, fun a ha v hv => ?_,
    fun x a ha o ho hlo => ?_⟩
  · have hbk : b ≠ k := by
      rintro rfl
      exact hdeps a hb
    by_cases hak : a = k
    · simp [hak]
    · rw [hlive hbk] at hlb
      rw [hlive hak]
      exact h.closed a b hb hlb
  · by_cases hak : a = k
    · simp [hak, hlog] at hv
    · exact h.writers a (by rwa [hlive hak] at ha) v hv
  · by_cases hak : a = k
    · simp [hak, hlog] at hv
    · exact h.visitors a (by rwa [hlive hak] at ha) v hv
  · have hok : o ≠ k := by
      rintro rfl
      exact (hE x).1 ho
    exact h.readers x a ha o ho (by rwa [hlive hok] at hlo)

end Ledger

end Dots.Library

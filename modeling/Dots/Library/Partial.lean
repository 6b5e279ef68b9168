import Mathlib.Data.List.Basic
import Mathlib.Logic.Relation

/-!
# Partial computations and runs

Loops and folds in `Option`, where `none` is a computation without a result, and
the induction over a run.
-/

namespace Dots.Library

variable {α β σ : Type*}

theorem mem_of_mapM {f : α → Option β} {l : List α} {l' : List β} (h : l.mapM f = some l')
    {a : α} (ha : a ∈ l) : ∃ b ∈ l', f a = some b := by
  induction l generalizing l' with
  | nil => simp at ha
  | cons x l ih =>
      simp only [List.mapM_cons, Option.pure_def, Option.bind_eq_bind,
        Option.bind_eq_some_iff, Option.some.injEq] at h
      obtain ⟨b, hb, bs, hbs, rfl⟩ := h
      rcases List.mem_cons.mp ha with rfl | ha
      · exact ⟨b, List.mem_cons_self, hb⟩
      · obtain ⟨c, hc, hfc⟩ := ih hbs ha
        exact ⟨c, List.mem_cons_of_mem b hc, hfc⟩

theorem of_mem_mapM {f : α → Option β} {l : List α} {l' : List β} (h : l.mapM f = some l')
    {b : β} (hb : b ∈ l') : ∃ a ∈ l, f a = some b := by
  induction l generalizing l' with
  | nil =>
      simp only [List.mapM_nil, Option.pure_def, Option.some.injEq] at h
      exact absurd (h ▸ hb) List.not_mem_nil
  | cons x l ih =>
      simp only [List.mapM_cons, Option.pure_def, Option.bind_eq_bind,
        Option.bind_eq_some_iff, Option.some.injEq] at h
      obtain ⟨c, hc, bs, hbs, rfl⟩ := h
      rcases List.mem_cons.mp hb with rfl | hb
      · exact ⟨x, List.mem_cons_self, hc⟩
      · obtain ⟨a, ha, hfa⟩ := ih hbs hb
        exact ⟨a, List.mem_cons_of_mem x ha, hfa⟩

theorem mapM_returns {f : α → Option β} {l : List α} (h : ∀ a ∈ l, f a ≠ none) :
    ∃ l', l.mapM f = some l' := by
  induction l with
  | nil => exact ⟨[], rfl⟩
  | cons a l ih =>
      obtain ⟨b, hb⟩ := Option.ne_none_iff_exists'.mp (h a List.mem_cons_self)
      obtain ⟨bs, hbs⟩ := ih fun a' ha' => h a' (List.mem_cons_of_mem a ha')
      exact ⟨b :: bs, by simp [List.mapM_cons, hb, hbs]⟩

theorem mapM_eq_map {f : α → Option β} {g : α → β} {l : List α} (h : ∀ a ∈ l, f a = some (g a)) :
    l.mapM f = some (l.map g) := by
  induction l with
  | nil => rfl
  | cons a l ih =>
      rw [List.mapM_cons, h a List.mem_cons_self, ih fun b hb => h b (List.mem_cons_of_mem a hb)]
      rfl

/-- One map after the other. -/
theorem mapM_eq_filterMap {f : α → Option β} {l : List α} (h : ∀ a ∈ l, f a ≠ none) :
    l.mapM f = some (l.filterMap f) := by
  induction l with
  | nil => rfl
  | cons a l ih =>
      obtain ⟨b, hb⟩ := Option.ne_none_iff_exists'.mp (h a List.mem_cons_self)
      rw [List.mapM_cons, List.filterMap_cons, hb, ih fun x hx => h x (List.mem_cons_of_mem a hx)]
      rfl

theorem mapM_bind_eq_some {γ : Type*} {f : α → Option β} {g : β → Option γ} {l : List α}
    {l' : List γ} (h : l.mapM (fun a => (f a).bind g) = some l') :
    ∃ l₁, l.mapM f = some l₁ ∧ l₁.mapM g = some l' := by
  induction l generalizing l' with
  | nil => exact ⟨[], rfl, h⟩
  | cons a l ih =>
      simp only [List.mapM_cons, Option.pure_def, Option.bind_eq_bind,
        Option.bind_eq_some_iff, Option.some.injEq] at h
      obtain ⟨c, ⟨b, hb, hc⟩, cs, hcs, rfl⟩ := h
      obtain ⟨bs, hbs, hcs⟩ := ih hcs
      exact ⟨b :: bs, by simp [List.mapM_cons, hb, hbs], by simp [List.mapM_cons, hc, hcs]⟩

/-- The first index apart from the others. -/
theorem mapM_range_succ (f : Nat → Option β) (n : Nat) : (List.range (n + 1)).mapM f =
    (f 0).bind fun b => ((List.range n).mapM fun i => f (i + 1)).map (b :: ·) := by
  rw [List.range_succ_eq_map, List.mapM_cons, List.mapM_map, Option.bind_eq_bind]
  simp only [Option.map_eq_bind, Option.bind_eq_bind, Option.pure_def, Function.comp_def]

/-- A loop that changes nothing. -/
theorem foldl_stays {f : σ → α → σ} {l : List α} {s : σ} (h : ∀ a ∈ l, f s a = s) :
    l.foldl f s = s := by
  induction l with
  | nil => rfl
  | cons a l ih =>
      rw [List.foldl_cons, h a List.mem_cons_self]
      exact ih fun b hb => h b (List.mem_cons_of_mem a hb)

theorem foldlM_stays {f : σ → α → Option σ} {l : List α} {s : σ} (h : ∀ a ∈ l, f s a = some s) :
    l.foldlM f s = some s := by
  induction l with
  | nil => rfl
  | cons a l ih =>
      rw [List.foldlM_cons, h a List.mem_cons_self]
      exact ih fun b hb => h b (List.mem_cons_of_mem a hb)

/-- A loop inside a loop. -/
theorem foldlM_flatMap {f : σ → β → Option σ} (g : α → List β) (l : List α) (s : σ) :
    (l.flatMap g).foldlM f s = l.foldlM (fun s a => (g a).foldlM f s) s := by
  induction l generalizing s with
  | nil => rfl
  | cons a l ih =>
      rw [List.flatMap_cons, List.foldlM_append, List.foldlM_cons]
      exact congrArg _ (funext ih)

/-- A fold does not get past an entry that fails in every state. -/
theorem foldlM_eq_none {f : σ → α → Option σ} {l : List α} {a : α} (ha : a ∈ l)
    (hf : ∀ s, f s a = none) (s : σ) : l.foldlM f s = none := by
  induction l generalizing s with
  | nil => exact absurd ha List.not_mem_nil
  | cons b l ih =>
      rw [List.foldlM_cons, Option.bind_eq_bind, Option.bind_eq_none_iff]
      intro s' hs'
      rcases List.mem_cons.mp ha with rfl | ha
      · rw [hf s] at hs'
        exact absurd hs'.symm (Option.some_ne_none s')
      · exact ih ha s'

/-- A map that returns at each entry relates the entries. -/
theorem mapM_forall₂ {f : α → Option β} {R : α → β → Prop} {l : List α}
    (h : ∀ a ∈ l, ∃ b, f a = some b ∧ R a b) :
    ∃ l', l.mapM f = some l' ∧ List.Forall₂ R l l' := by
  induction l with
  | nil => exact ⟨[], rfl, .nil⟩
  | cons a l ih =>
      obtain ⟨b, hb, hab⟩ := h a List.mem_cons_self
      obtain ⟨l', hl', hall⟩ := ih fun x hx => h x (List.mem_cons_of_mem a hx)
      refine ⟨b :: l', ?_, .cons hab hall⟩
      rw [List.mapM_cons, hb, hl']
      rfl

/-- Two entries with one value are one entry, where no value is met twice. -/
theorem eq_of_nodup_filterMap {f : α → Option β} {l : List α} (h : (l.filterMap f).Nodup)
    {a a' : α} {b : β} (ha : a ∈ l) (ha' : a' ∈ l) (hb : f a = some b) (hb' : f a' = some b) :
    a = a' := by
  have hapart : l.Pairwise fun x y => f x = some b → f y ≠ some b := by
    refine (List.pairwise_filterMap.mp h).imp fun {x y} hne hx hy => ?_
    exact hne b hx b hy rfl
  induction l with
  | nil => simp at ha
  | cons x l ih =>
      obtain ⟨hx, hl⟩ := List.pairwise_cons.mp hapart
      rcases List.mem_cons.mp ha with rfl | hal
      · rcases List.mem_cons.mp ha' with rfl | hal'
        · rfl
        · exact absurd hb' (hx a' hal' hb)
      · rcases List.mem_cons.mp ha' with rfl | hal'
        · exact absurd hb (hx a hal hb')
        · exact ih (List.Nodup.sublist ((List.sublist_cons_self x l).filterMap f) h) hal hal' hl

/-- What every turn of a loop preserves, the loop preserves. -/
theorem foldlM_invariant {f : σ → α → Option σ} {P : σ → Prop} {l : List α}
    (hstep : ∀ a ∈ l, ∀ s s', f s a = some s' → P s → P s') {s s' : σ}
    (h : l.foldlM f s = some s') (hs : P s) : P s' := by
  induction l generalizing s with
  | nil =>
      simp only [List.foldlM_nil, Option.pure_def, Option.some.injEq] at h
      exact h ▸ hs
  | cons a l ih =>
      simp only [List.foldlM_cons, Option.bind_eq_bind, Option.bind_eq_some_iff] at h
      obtain ⟨t, ht, h⟩ := h
      exact ih (fun b hb => hstep b (List.mem_cons_of_mem a hb)) h
        (hstep a List.mem_cons_self s t ht hs)

/-- A loop returns if each turn does, whatever the state it finds. -/
theorem foldlM_ne_none {f : σ → α → Option σ} {P : α → Prop} {l : List α}
    (h : ∀ a s, f s a ≠ none ↔ P a) (s : σ) : l.foldlM f s ≠ none ↔ ∀ a ∈ l, P a := by
  induction l generalizing s with
  | nil => simp
  | cons a l ih =>
      rw [List.forall_mem_cons, ← h a s, List.foldlM_cons]
      cases ht : f s a with
      | none => simp
      | some t => simpa using ih t

/-- A loop whose turns all return. -/
theorem foldlM_returns {f : σ → α → Option σ} {l : List α} (h : ∀ a ∈ l, ∀ s, f s a ≠ none)
    (s : σ) : l.foldlM f s ≠ none := by
  induction l generalizing s with
  | nil => exact Option.some_ne_none s
  | cons a l ih =>
      obtain ⟨t, ht⟩ := Option.ne_none_iff_exists'.mp (h a List.mem_cons_self s)
      rw [List.foldlM_cons, ht, Option.bind_eq_bind, Option.bind_some]
      exact ih (fun b hb => h b (List.mem_cons_of_mem a hb)) t

/-- What one turn of a loop establishes: the turns before keep `P`, from which it makes
`Q`, and the turns after keep that. -/
theorem foldlM_turn {f : σ → α → Option σ} {P Q : σ → Prop} {l₁ l₂ : List α} {a : α}
    (hbefore : ∀ b ∈ l₁, ∀ s s', f s b = some s' → P s → P s')
    (hturn : ∀ s s', f s a = some s' → P s → Q s')
    (hafter : ∀ b ∈ l₂, ∀ s s', f s b = some s' → Q s → Q s') {s s' : σ}
    (h : (l₁ ++ a :: l₂).foldlM f s = some s') (hs : P s) : Q s' := by
  simp only [List.foldlM_append, List.foldlM_cons, Option.bind_eq_bind,
    Option.bind_eq_some_iff] at h
  obtain ⟨s₁, h₁, s₂, h₂, h₃⟩ := h
  exact foldlM_invariant hafter h₃ (hturn s₁ s₂ h₂ (foldlM_invariant hbefore h₁ hs))

/-- What each turn shows of its entry holds of all. -/
theorem of_foldlM {f : σ → α → Option σ} {P : α → Prop} {l : List α}
    (hf : ∀ a s s', f s a = some s' → P a) {s s' : σ} (h : l.foldlM f s = some s') :
    ∀ a ∈ l, P a := by
  intro a ha
  obtain ⟨l₁, l₂, rfl⟩ := List.append_of_mem ha
  exact foldlM_turn (P := fun _ => True) (Q := fun _ => P a) (fun _ _ _ _ _ _ => trivial)
    (fun s s' hs _ => hf a s s' hs) (fun _ _ _ _ _ h => h) h trivial

/-- A loop whose turns return and keep an invariant of what they have gone through. -/
theorem foldlM_reaches {f : σ → α → Option σ} {I : List α → σ → Prop} {l : List α}
    (hstep : ∀ l₁ a l₂ s, l = l₁ ++ a :: l₂ → I l₁ s → ∃ s', f s a = some s' ∧ I (l₁ ++ [a]) s')
    {s : σ} (hs : I [] s) : ∃ s', l.foldlM f s = some s' ∧ I l s' := by
  suffices h : ∀ l₁ l₂ s, l = l₁ ++ l₂ → I l₁ s → ∃ s', l₂.foldlM f s = some s' ∧ I l s' from
    h [] l s rfl hs
  intro l₁ l₂
  induction l₂ generalizing l₁ with
  | nil =>
      intro s hl hI
      rw [List.append_nil] at hl
      exact ⟨s, rfl, hl ▸ hI⟩
  | cons a l₂ ih =>
      intro s hl hI
      obtain ⟨s₁, hs₁, hI₁⟩ := hstep l₁ a l₂ s hl hI
      obtain ⟨s', hs', hI'⟩ := ih (l₁ ++ [a]) s₁ (by rw [hl, List.append_assoc]; rfl) hI₁
      exact ⟨s', by rw [List.foldlM_cons, hs₁]; exact hs', hI'⟩

/-- What a loop that returned has kept of the entries it has gone through. -/
theorem foldlM_initial {f : σ → α → Option σ} {I : List α → σ → Prop} {l : List α}
    (hstep : ∀ l₁ a s s', a ∈ l → f s a = some s' → I l₁ s → I (l₁ ++ [a]) s') {s s' : σ}
    (h : l.foldlM f s = some s') (hs : I [] s) : I l s' := by
  suffices hall : ∀ l₁ l₂ s, (∀ a ∈ l₂, a ∈ l) → l₂.foldlM f s = some s' → I l₁ s →
      I (l₁ ++ l₂) s' from hall [] l s (fun _ ha => ha) h hs
  intro l₁ l₂
  induction l₂ generalizing l₁ with
  | nil =>
      intro s _ hs hI
      obtain rfl := Option.some.inj hs
      rwa [List.append_nil]
  | cons a l₂ ih =>
      intro s hl hs hI
      simp only [List.foldlM_cons, Option.bind_eq_bind, Option.bind_eq_some_iff] at hs
      obtain ⟨s₁, hone, hs⟩ := hs
      rw [List.append_cons]
      exact ih (l₁ ++ [a]) s₁ (fun b hb => hl b (List.mem_cons_of_mem a hb)) hs
        (hstep l₁ a s s₁ (hl a List.mem_cons_self) hone hI)

theorem foldlM_some {f : σ → α → σ} (l : List α) (s : σ) :
    l.foldlM (fun s a => some (f s a)) s = some (l.foldl f s) :=
  List.foldlM_pure

/-- Loops whose turns agree on the entries. -/
theorem foldlM_congr {f g : σ → α → Option σ} {l : List α} (h : ∀ a ∈ l, ∀ s, f s a = g s a)
    (s : σ) : l.foldlM f s = l.foldlM g s := by
  induction l generalizing s with
  | nil => rfl
  | cons a l ih =>
      rw [List.foldlM_cons, List.foldlM_cons, h a List.mem_cons_self]
      congr 1
      funext t
      exact ih (fun b hb => h b (List.mem_cons_of_mem a hb)) t

/-- What holds initially and is kept by every step holds in every state reached. -/
theorem invariant_of_run {Step : σ → σ → Prop} {P : σ → Prop}
    (hstep : ∀ s s', Step s s' → P s → P s') {s s' : σ}
    (h : Relation.ReflTransGen Step s s') (hs : P s) : P s' := by
  induction h with
  | refl => exact hs
  | tail _ hst ih => exact hstep _ _ hst ih

end Dots.Library

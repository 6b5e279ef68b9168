import Mathlib.Data.List.Basic
import Mathlib.Logic.Function.Basic
import Mathlib.Logic.Relation
import Mathlib.Order.Nat
import Mathlib.Tactic.Common

/-!
# Schedules of tasks that share cells

Tasks are numbered in the order in which their effects are meant. A task reads the cells when it
starts and then writes them one by one, while other tasks start, write and end. Where a task
starts only after the earlier ones it clashes with, no two tasks that clash run at the same time,
and the tasks that have ended left what they would have left one after the other.
-/

namespace Dots.Library

variable {κ V : Type*}

/-- The cells a task accesses, and whether for reading only. -/
abbrev Footprint (κ : Type*) := κ → Bool → Prop

/-- Two tasks access one cell, and one of them writes it. -/
def Clash (A B : Footprint κ) : Prop :=
  ∃ x b b', A x b ∧ B x b' ∧ (b = false ∨ b' = false)

theorem Clash.symm {A B : Footprint κ} (h : Clash A B) : Clash B A := by
  obtain ⟨x, b, b', ha, hb, hw⟩ := h
  exact ⟨x, b', b, hb, ha, hw.symm⟩

/-- `f` writes and reads no more than the footprint says. -/
structure Confined (A : Footprint κ) (f : (κ → V) → κ → V) : Prop where
  writes : ∀ s x, ¬ A x false → f s x = s x
  reads : ∀ s s', (∀ x b, A x b → s x = s' x) → ∀ x, A x false → f s x = f s' x

namespace Confined

variable {A B : Footprint κ} {f g : (κ → V) → κ → V}

/-- What a task that does not clash with it accesses, a task leaves alone. -/
theorem apart (hf : Confined A f) (h : ¬ Clash A B) (s : κ → V) {x : κ} {b : Bool} (hx : B x b) :
    f s x = s x := by
  apply hf.writes
  intro hw
  exact h ⟨x, false, b, hw, hx, Or.inl rfl⟩

theorem commute (hf : Confined A f) (hg : Confined B g) (h : ¬ Clash A B) (s : κ → V) :
    f (g s) = g (f s) := by
  have h' : ¬ Clash B A := fun hc => h hc.symm
  ext x
  by_cases hA : A x false
  · have hB : ¬ B x false := fun hB => h ⟨x, false, false, hA, hB, Or.inl rfl⟩
    calc f (g s) x = f s x := hf.reads _ _ (fun y b hy => hg.apart h' s hy) x hA
      _ = g (f s) x := (hg.writes _ x hB).symm
  · by_cases hB : B x false
    · calc f (g s) x = g s x := hf.writes _ x hA
        _ = g (f s) x := hg.reads _ _ (fun y b hy => (hf.apart h s hy).symm) x hB
    · rw [hf.writes _ x hA, hg.writes _ x hB, hg.writes _ x hB, hf.writes _ x hA]

/-- A task that computes a cell from what was there. -/
theorem update [DecidableEq κ] {y : κ} (hy : A y false) (v : V → V) :
    Confined A fun s => Function.update s y (v (s y)) where
  writes s x hx := by
    apply Function.update_of_ne
    rintro rfl
    exact hx hy
  reads s s' h x hx := by
    by_cases hxy : x = y
    · rw [hxy, Function.update_self, Function.update_self, h y false hy]
    · rw [Function.update_of_ne hxy, Function.update_of_ne hxy, h x false hx]

end Confined

theorem confined_id (A : Footprint κ) : Confined A (id : (κ → V) → κ → V) where
  writes _ _ _ := rfl
  reads _ _ h x hx := h x false hx

/-! ## One after the other -/

/-- The tasks of a list, one after the other. -/
def replay (body : Nat → (κ → V) → κ → V) (ks : List Nat) (s : κ → V) : κ → V :=
  ks.foldl (fun s k => body k s) s

section Replay

variable {acc : Nat → Footprint κ} {body : Nat → (κ → V) → κ → V} {k n : Nat} {s : κ → V}

theorem replay_append (ks ks' : List Nat) :
    replay body (ks ++ ks') s = replay body ks' (replay body ks s) :=
  List.foldl_append

/-- A task that clashes with none of the tasks after it may as well be the last. -/
theorem replay_insert (hbody : ∀ k, Confined (acc k) (body k)) {ks ks' : List Nat}
    (h : ∀ a ∈ ks', ¬ Clash (acc a) (acc k)) :
    replay body (ks ++ k :: ks') s = body k (replay body (ks ++ ks') s) := by
  induction ks' generalizing ks with
  | nil => simp [replay]
  | cons a ks' ih =>
      have hswap := (hbody a).commute (hbody k) (h a List.mem_cons_self) (replay body ks s)
      have hrest : ∀ a' ∈ ks', ¬ Clash (acc a') (acc k) := fun a' ha' =>
        h a' (List.mem_cons_of_mem a ha')
      calc replay body (ks ++ k :: a :: ks') s
          = replay body ((ks ++ [a]) ++ k :: ks') s := by
            simp only [replay, List.foldl_append, List.foldl_cons, List.foldl_nil] at hswap ⊢
            rw [hswap]
        _ = body k (replay body (ks ++ a :: ks') s) := by
            rw [ih hrest, List.append_assoc, List.singleton_append]

/-- The tasks below `n` that have ended. -/
def ended (done : Nat → Bool) (n : Nat) : List Nat := (List.range n).filter done

theorem ended_succ (done : Nat → Bool) (n : Nat) :
    ended done (n + 1) = ended done n ++ if done n then [n] else [] := by
  rw [ended, List.range_succ, List.filter_append]
  cases h : done n <;> simp [ended, h]

/-- One more task that has ended. -/
theorem ended_update {done : Nat → Bool} (hk : k < n) (hnot : done k = false) :
    ∃ ks ks', ended done n = ks ++ ks' ∧
      ended (Function.update done k true) n = ks ++ k :: ks' ∧
      ∀ a ∈ ks', k < a ∧ done a = true := by
  induction n with
  | zero => exact absurd hk (Nat.not_lt_zero k)
  | succ n ih =>
      rw [ended_succ, ended_succ]
      rcases Nat.lt_succ_iff_lt_or_eq.mp hk with hlt | rfl
      · obtain ⟨ks, ks', hold, hnew, hafter⟩ := ih hlt
        refine ⟨ks, ks' ++ if done n then [n] else [], ?_, ?_, ?_⟩
        · rw [hold, List.append_assoc]
        · rw [hnew, Function.update_of_ne hlt.ne', List.append_assoc, List.cons_append]
        · intro a ha
          rcases List.mem_append.mp ha with ha | ha
          · exact hafter a ha
          · cases hd : done n with
            | false => simp [hd] at ha
            | true =>
                obtain rfl : a = n := by simpa [hd] using ha
                exact ⟨hlt, hd⟩
      · refine ⟨ended done k, [], ?_, ?_, by simp⟩
        · simp [hnot]
        · have hsame : ended (Function.update done k true) k = ended done k := by
            apply List.filter_congr
            intro a ha
            rw [Function.update_of_ne (List.mem_range.mp ha).ne]
          rw [hsame, Function.update_self, if_pos rfl]

end Replay

/-! ## Tasks that overlap -/

/-- A running task holds what it read. A dropped one never runs. -/
inductive Phase (σ : Type*)
  | idle
  | running (seen : σ)
  | ended
  | dropped

namespace Phase

variable {σ : Type*}

def isEnded : Phase σ → Bool
  | ended => true
  | _ => false

/-- The task will not run from here on. -/
def settled : Phase σ → Bool
  | ended => true
  | dropped => true
  | _ => false

/-- The task has started. -/
def started : Phase σ → Bool
  | running _ => true
  | ended => true
  | _ => false

theorem started_of_isEnded {p : Phase σ} (h : p.isEnded = true) : p.started = true := by
  cases p with
  | ended => rfl
  | _ => cases h

end Phase

structure Schedule (κ V : Type*) where
  phase : Nat → Phase (κ → V)
  store : κ → V

namespace Schedule

def setPhase (t : Schedule κ V) (k : Nat) (p : Phase (κ → V)) : Schedule κ V :=
  { t with phase := Function.update t.phase k p }

@[simp] theorem store_setPhase (t : Schedule κ V) (k : Nat) (p : Phase (κ → V)) :
    (t.setPhase k p).store = t.store := rfl

@[simp] theorem phase_setPhase_self (t : Schedule κ V) (k : Nat) (p : Phase (κ → V)) :
    (t.setPhase k p).phase k = p := Function.update_self ..

theorem phase_setPhase_ne {a k : Nat} (h : a ≠ k) (t : Schedule κ V) (p : Phase (κ → V)) :
    (t.setPhase k p).phase a = t.phase a := Function.update_of_ne h ..

def setCell [DecidableEq κ] (t : Schedule κ V) (x : κ) (v : V) : Schedule κ V :=
  { t with store := Function.update t.store x v }

variable (acc : Nat → Footprint κ) (body : Nat → (κ → V) → κ → V)

/-- A task starts once every earlier task that clashes with it is settled, and ends once it
has written all its cells. -/
inductive Step [DecidableEq κ] : Schedule κ V → Schedule κ V → Prop
  | start (t : Schedule κ V) (k : Nat) (hidle : t.phase k = .idle)
      (hclash : ∀ a < k, Clash (acc a) (acc k) → (t.phase a).settled = true) :
      Step t (t.setPhase k (.running t.store))
  | write (t : Schedule κ V) (k : Nat) (seen : κ → V) (x : κ) (hrun : t.phase k = .running seen)
      (hx : acc k x false) :
      Step t (t.setCell x (body k seen x))
  | finish (t : Schedule κ V) (k : Nat) (seen : κ → V) (hrun : t.phase k = .running seen)
      (hall : ∀ x, acc k x false → t.store x = body k seen x) : Step t (t.setPhase k .ended)
  | drop (t : Schedule κ V) (k : Nat) (hidle : t.phase k = .idle) :
      Step t (t.setPhase k .dropped)

/-- What holds in every run that begins with the cells `s`, when the tasks that have ended leave
the cells `r` one after the other. -/
structure Serial (s : κ → V) (t : Schedule κ V) (r : κ → V) : Prop where
  /-- A started task is behind the earlier tasks it clashes with. -/
  behind : ∀ a b, a < b → Clash (acc a) (acc b) → (t.phase b).started = true →
    (t.phase a).settled = true
  replayed : ∀ n, (∀ k ≥ n, (t.phase k).isEnded = false) →
    r = replay body (ended (fun k => (t.phase k).isEnded) n) s
  /-- What a running task read is what the tasks before it left. -/
  fresh : ∀ k seen, t.phase k = .running seen → ∀ x b, acc k x b → seen x = r x
  stored : ∀ x, t.store x = r x ∨
    ∃ k seen, t.phase k = .running seen ∧ acc k x false ∧ t.store x = body k seen x

variable {acc body} {s r : κ → V} {t t' : Schedule κ V} {k : Nat} {seen : κ → V}

/-- No two tasks that clash run at the same time. -/
theorem Serial.exclusive (h : Serial acc body s t r) {a b : Nat} {seen seen' : κ → V}
    (ha : t.phase a = .running seen) (hb : t.phase b = .running seen') (hab : a ≠ b) :
    ¬ Clash (acc a) (acc b) := by
  intro hc
  rcases Nat.lt_or_gt_of_ne hab with hlt | hlt
  · have hsettled := h.behind a b hlt hc (by rw [hb]; rfl)
    rw [ha] at hsettled
    cases hsettled
  · have hsettled := h.behind b a hlt hc.symm (by rw [ha]; rfl)
    rw [hb] at hsettled
    cases hsettled

/-- While nothing runs, the cells are what the tasks that have ended left. -/
theorem Serial.store_eq (h : Serial acc body s t r) (hnone : ∀ k seen, t.phase k ≠ .running seen) :
    t.store = r := by
  ext x
  rcases h.stored x with heq | ⟨k, seen, hrun, -⟩
  · exact heq
  · exact absurd hrun (hnone k seen)

theorem serial_initial (hidle : ∀ k, t.phase k = .idle) : Serial acc body t.store t t.store where
  behind a b _ _ hb := by
    rw [hidle] at hb
    cases hb
  replayed n _ := by
    have hnone : ended (fun k => (t.phase k).isEnded) n = [] := by
      apply List.filter_eq_nil_iff.mpr
      simp [hidle, Phase.isEnded]
    rw [hnone]
    rfl
  fresh k seen hk := by
    rw [hidle] at hk
    cases hk
  stored x := Or.inl rfl

/-- A turn that ends no task. -/
theorem isEnded_setPhase {p : Phase (κ → V)} (hk : (t.phase k).isEnded = false)
    (hp : p.isEnded = false) (a : Nat) :
    ((t.setPhase k p).phase a).isEnded = (t.phase a).isEnded := by
  by_cases ha : a = k
  · rw [ha, phase_setPhase_self, hk, hp]
  · rw [phase_setPhase_ne ha]

/-- A started task keeps its place in the order while an idle one moves on. -/
theorem Serial.behind_setPhase (h : Serial acc body s t r) (hidle : t.phase k = .idle)
    {p : Phase (κ → V)} (hp : p.settled = true ∨ ∀ a < k, Clash (acc a) (acc k) →
      (t.phase a).settled = true) {a b : Nat} (hab : a < b) (hc : Clash (acc a) (acc b))
    (hb : ((t.setPhase k p).phase b).started = true) (hbk : b = k → p.settled = false) :
    ((t.setPhase k p).phase a).settled = true := by
  by_cases hak : a = k
  · -- a started task would have waited for `k`, which has not started
    rw [hak] at hab hc ⊢
    rw [phase_setPhase_ne hab.ne'] at hb
    have hsettled := h.behind k b hab hc hb
    rw [hidle] at hsettled
    cases hsettled
  · rw [phase_setPhase_ne hak]
    by_cases hbk' : b = k
    · rw [hbk'] at hab hc
      rcases hp with hp | hp
      · rw [hbk hbk'] at hp
        cases hp
      · exact hp a hab hc
    · rw [phase_setPhase_ne hbk'] at hb
      exact h.behind a b hab hc hb

/-- A task that may start finds its cells as the tasks that have ended left them. -/
theorem Serial.seen_eq (h : Serial acc body s t r) (hidle : t.phase k = .idle)
    (hclash : ∀ a < k, Clash (acc a) (acc k) → (t.phase a).settled = true) {x : κ} {b : Bool}
    (hx : acc k x b) : t.store x = r x := by
  rcases h.stored x with heq | ⟨a, seen, hrun, hw, -⟩
  · exact heq
  · have hc : Clash (acc a) (acc k) := ⟨x, false, b, hw, hx, Or.inl rfl⟩
    rcases Nat.lt_trichotomy a k with hlt | rfl | hlt
    · have hsettled := hclash a hlt hc
      rw [hrun] at hsettled
      cases hsettled
    · rw [hidle] at hrun
      cases hrun
    · have hsettled := h.behind k a hlt hc.symm (by rw [hrun]; rfl)
      rw [hidle] at hsettled
      cases hsettled

theorem Serial.start (h : Serial acc body s t r) (hidle : t.phase k = .idle)
    (hclash : ∀ a < k, Clash (acc a) (acc k) → (t.phase a).settled = true) :
    Serial acc body s (t.setPhase k (.running t.store)) r where
  behind a b hab hc hb :=
    h.behind_setPhase hidle (Or.inr hclash) hab hc hb fun _ => rfl
  replayed n hn := by
    have hsame := isEnded_setPhase (t := t) (k := k) (p := .running t.store) (by rw [hidle]; rfl) rfl
    simp only [hsame] at hn ⊢
    exact h.replayed n hn
  fresh a seen ha x b hx := by
    by_cases hak : a = k
    · rw [hak] at ha hx
      rw [phase_setPhase_self] at ha
      rw [← Phase.running.inj ha]
      exact h.seen_eq hidle hclash hx
    · rw [phase_setPhase_ne hak] at ha
      exact h.fresh a seen ha x b hx
  stored x := by
    apply (h.stored x).imp_right
    rintro ⟨a, seen, hrun, hrest⟩
    have hak : a ≠ k := by
      rintro rfl
      rw [hidle] at hrun
      cases hrun
    exact ⟨a, seen, by rwa [phase_setPhase_ne hak], hrest⟩

theorem Serial.drop (h : Serial acc body s t r) (hidle : t.phase k = .idle) :
    Serial acc body s (t.setPhase k .dropped) r where
  behind a b hab hc hb := by
    apply h.behind_setPhase hidle (Or.inl rfl) hab hc hb
    rintro rfl
    rw [phase_setPhase_self] at hb
    cases hb
  replayed n hn := by
    have hsame := isEnded_setPhase (t := t) (k := k) (p := .dropped) (by rw [hidle]; rfl) rfl
    simp only [hsame] at hn ⊢
    exact h.replayed n hn
  fresh a seen ha x b hx := by
    have hak : a ≠ k := by
      rintro rfl
      rw [phase_setPhase_self] at ha
      cases ha
    rw [phase_setPhase_ne hak] at ha
    exact h.fresh a seen ha x b hx
  stored x := by
    apply (h.stored x).imp_right
    rintro ⟨a, seen, hrun, hrest⟩
    have hak : a ≠ k := by
      rintro rfl
      rw [hidle] at hrun
      cases hrun
    exact ⟨a, seen, by rwa [phase_setPhase_ne hak], hrest⟩

theorem Serial.write [DecidableEq κ] (h : Serial acc body s t r) {x : κ}
    (hrun : t.phase k = .running seen) (hx : acc k x false) :
    Serial acc body s (t.setCell x (body k seen x)) r where
  behind := h.behind
  replayed := h.replayed
  fresh := h.fresh
  stored y := by
    by_cases hy : y = x
    · rw [hy]
      exact Or.inr ⟨k, seen, hrun, hx, Function.update_self ..⟩
    · have hsame : (t.setCell x (body k seen x)).store y = t.store y := Function.update_of_ne hy ..
      rw [hsame]
      exact h.stored y

/-- The order of the tasks that have ended, with one more of them. -/
theorem Serial.replayed_finish (hbody : ∀ k, Confined (acc k) (body k))
    (h : Serial acc body s t r) (hrun : t.phase k = .running seen) (n : Nat)
    (hn : ∀ a ≥ n, ((t.setPhase k .ended).phase a).isEnded = false) :
    body k r = replay body (ended (fun a => ((t.setPhase k .ended).phase a).isEnded) n) s := by
  have hkn : k < n := by
    by_contra hle
    have hended := hn k (Nat.le_of_not_lt hle)
    rw [phase_setPhase_self] at hended
    cases hended
  have hnot : (t.phase k).isEnded = false := by
    rw [hrun]
    rfl
  have hdone : (fun a => ((t.setPhase k .ended).phase a).isEnded) =
      Function.update (fun a => (t.phase a).isEnded) k true := by
    ext a
    by_cases ha : a = k
    · rw [ha, phase_setPhase_self, Function.update_self]
      rfl
    · rw [phase_setPhase_ne ha, Function.update_of_ne ha]
  obtain ⟨ks, ks', hold, hnew, hafter⟩ :=
    @ended_update k n (fun a => (t.phase a).isEnded) hkn hnot
  have hlater : ∀ a ∈ ks', ¬ Clash (acc a) (acc k) := by
    intro a ha hc
    obtain ⟨hka, hended⟩ := hafter a ha
    have hsettled := h.behind k a hka hc.symm (Phase.started_of_isEnded hended)
    rw [hrun] at hsettled
    cases hsettled
  have hbefore : r = replay body (ks ++ ks') s := by
    rw [← hold]
    apply h.replayed n
    intro a ha
    have hended := hn a ha
    rwa [phase_setPhase_ne (Nat.lt_of_lt_of_le hkn ha).ne'] at hended
  calc body k r = body k (replay body (ks ++ ks') s) := by rw [← hbefore]
    _ = replay body (ks ++ k :: ks') s := (replay_insert hbody hlater).symm
    _ = _ := by rw [hdone, hnew]

theorem Serial.finish (hbody : ∀ k, Confined (acc k) (body k)) (h : Serial acc body s t r)
    (hrun : t.phase k = .running seen) (hall : ∀ x, acc k x false → t.store x = body k seen x) :
    Serial acc body s (t.setPhase k .ended) (body k r) where
  behind a b hab hc hb := by
    by_cases hak : a = k
    · rw [hak, phase_setPhase_self]
      rfl
    · rw [phase_setPhase_ne hak]
      by_cases hbk : b = k
      · rw [hbk] at hab hc
        exact h.behind a k hab hc (by rw [hrun]; rfl)
      · rw [phase_setPhase_ne hbk] at hb
        exact h.behind a b hab hc hb
  replayed := h.replayed_finish hbody hrun
  fresh a seen' ha x b hx := by
    have hak : a ≠ k := by
      rintro rfl
      rw [phase_setPhase_self] at ha
      cases ha
    rw [phase_setPhase_ne hak] at ha
    have hapart := (hbody k).apart (h.exclusive hrun ha hak.symm) r hx
    rw [hapart]
    exact h.fresh a seen' ha x b hx
  stored x := by
    by_cases hx : acc k x false
    · -- it read what was left, and has written what it would write there
      left
      calc t.store x = body k seen x := hall x hx
        _ = body k r x := (hbody k).reads _ _ (h.fresh k seen hrun) x hx
    · rw [store_setPhase, (hbody k).writes r x hx]
      apply (h.stored x).imp_right
      rintro ⟨a, seen', hrun', hw, heq⟩
      have hak : a ≠ k := by
        rintro rfl
        exact hx hw
      exact ⟨a, seen', by rwa [phase_setPhase_ne hak], hw, heq⟩

/-- Every step keeps the tasks serial. -/
theorem Serial.step [DecidableEq κ] (hbody : ∀ k, Confined (acc k) (body k))
    (hs : Step acc body t t') (h : Serial acc body s t r) : ∃ r', Serial acc body s t' r' := by
  cases hs with
  | start k hidle hclash => exact ⟨r, h.start hidle hclash⟩
  | write k seen x hrun hx => exact ⟨r, h.write hrun hx⟩
  | finish k seen hrun hall => exact ⟨body k r, h.finish hbody hrun hall⟩
  | drop k hidle => exact ⟨r, h.drop hidle⟩

end Schedule

end Dots.Library

import Dots.Codebase.Serial

/-!
# No pass is stuck

A pass that has not signalled keeps its event. So once every pass is scheduled, the functions can
be run to their ends one pass after the other, in the order of creation. Two things would stop
them: a pass that depends on itself, and `wait` having taken the event of a pass that somebody
still holds.
-/

namespace Dots

open Library

namespace Scheduler

variable {V : Type*} {w : World} {keys : List ArchetypeId} {program : PassId → Request}
  {body : PassId → (EntryId → V) → EntryId → V} {t t' : Scheduler V} {a b k : PassId}
  {act : Action}

/-! ## The events of passes that have not signalled -/

def EventsKept (t : Scheduler V) : Prop :=
  ∀ k < t.count, t.pipeline.live k = true → (t.stage k).isSignaled = false →
    (t.eventmap (t.address k)).isSome = true

/-- The event of another address. -/
theorem isSome_update {events : Nat → Option PassExt} {addr addr' : Nat} {ext : PassExt}
    (h : (events addr).isSome = true) :
    (Function.update events addr' (some ext) addr).isSome = true := by
  by_cases heq : addr = addr'
  · rw [heq, Function.update_self]
    rfl
  · rwa [Function.update_of_ne heq]

theorem EventsKept.create (h : EventsKept t) {addr : Nat} {p : Pipeline}
    (hin : InOrder w keys program t) (hc : t.pipeline.create (program t.count) = some p) :
    EventsKept ({ t with pipeline := p }.setup t.count addr) := by
  obtain ⟨vs, s, hnew⟩ := Pipeline.exists_created hin.ordered.sound hc
  intro k hk hlive hnot
  change (Function.update t.eventmap addr _ (Function.update t.address t.count addr k)).isSome =
    true
  by_cases hkt : k = t.count
  · rw [hkt, Function.update_self, Function.update_self]
    rfl
  · have hk : k < p.passes.length := hk
    rw [hnew.passes, List.length_append] at hk
    have hold : p.live k = t.pipeline.live k := by
      rw [hnew.live]
      exact Function.update_of_ne hkt ..
    rw [Function.update_of_ne hkt]
    apply isSome_update
    exact h k (Nat.lt_of_le_of_ne (Nat.le_of_lt_succ hk) hkt) (hold.symm.trans hlive) hnot

theorem EventsKept.setStage (h : EventsKept t) {stage : Stage V}
    (hold : (t.stage k).isSignaled = false) : EventsKept (t.setStage k stage) := by
  intro a ha hlive hnot
  apply h a ha hlive
  by_cases hak : a = k
  · rwa [hak]
  · rwa [stage_setStage_ne hak] at hnot

theorem EventsKept.step (hs : Step w keys program body t act t') (hin : InOrder w keys program t)
    (h : EventsKept t) : EventsKept t' := by
  cases hs with
  | create addr p hp haddr => exact h.create hin hp
  | schedule k hk hlive hstage => exact h.setStage (by rw [hstage]; rfl)
  | expired k d ds hwait hdead => exact h.setStage (by rw [hwait]; rfl)
  | waited k d ds ext hwait hlive hext hsignaled => exact h.setStage (by rw [hwait]; rfl)
  | start k hwait => exact h.setStage (by rw [hwait]; rfl)
  | write k x seen hrun hx => exact h
  | signal k seen ext hrun hall hext =>
      intro a ha hlive hnot
      apply isSome_update
      exact h.setStage (by rw [hrun]; rfl) a ha hlive hnot
  | expire k hk hstage =>
      intro a ha hlive hnot
      apply h a ha _ hnot
      by_cases hak : a = k
      · rw [hak] at hlive
        exact absurd ((Function.update_self ..).symm.trans hlive) Bool.false_ne_true
      · exact (Function.update_of_ne hak ..).symm.trans hlive
  | forget =>
      intro a ha hlive hnot
      obtain ⟨ext, hext⟩ := Option.isSome_iff_exists.mp (h a ha hlive hnot)
      have hpass := (hin.events a ha hlive ext hext).1
      change ((t.eventmap (t.address a)).filter fun ext => t.pipeline.live ext.pass).isSome = true
      rw [hext, Option.filter_some_pos]
      · rfl
      · rwa [hpass]
  | waitAll hall =>
      -- `wait` would still be waiting for the event of `a`
      intro a ha hlive hnot
      obtain ⟨ext, hext⟩ := Option.isSome_iff_exists.mp (h a ha hlive hnot)
      obtain ⟨hpass, hsignaled⟩ := hin.events a ha hlive ext hext
      have hdone := hall _ ext hext (by rwa [hpass])
      rw [hdone, hnot] at hsignaled
      cases hsignaled

theorem eventsKept_of_run {store : EntryId → V}
    (h : Run w keys program body (initial w keys store) t) :
    InOrder w keys program t ∧ EventsKept t := by
  apply invariant_of_run (P := fun t => InOrder w keys program t ∧ EventsKept t) _ h
  · exact ⟨inOrder_initial store, fun k hk => absurd hk (Nat.not_lt_zero k)⟩
  · rintro t t' ⟨act, hc, hs⟩ ⟨hin, hkept⟩
    exact ⟨hin.step hc hs, hkept.step hs hin⟩

/-! ## Running a function to its end -/

/-- Every pass is scheduled or through, waits for earlier passes only, and has its event. -/
structure Ready (w : World) (keys : List ArchetypeId) (program : PassId → Request)
    (t : Scheduler V) : Prop where
  inOrder : InOrder w keys program t
  scheduled : ∀ k < t.count, t.pending k = true → t.stage k ≠ .unscheduled
  earlier : ∀ k < t.count, k ∉ t.pipeline.dependencies k
  events : ∀ k < t.count, t.pipeline.live k = true → (t.eventmap (t.address k)).isSome = true

/-- `t'` is `t` after the function of `k` went on for a while. -/
structure Onward (w : World) (keys : List ArchetypeId) (program : PassId → Request)
    (body : PassId → (EntryId → V) → EntryId → V) (k : PassId) (t t' : Scheduler V) : Prop where
  run : Run w keys program body t t'
  pipeline : t'.pipeline = t.pipeline
  address : t'.address = t.address
  stage : ∀ a ≠ k, t'.stage a = t.stage a
  events : ∀ addr, (t.eventmap addr).isSome = true → (t'.eventmap addr).isSome = true

namespace Onward

theorem refl (k : PassId) (t : Scheduler V) : Onward w keys program body k t t :=
  ⟨.refl, rfl, rfl, fun _ _ => rfl, fun _ h => h⟩

theorem trans {t'' : Scheduler V} (h : Onward w keys program body k t t')
    (h' : Onward w keys program body k t' t'') : Onward w keys program body k t t'' where
  run := h.run.trans h'.run
  pipeline := h'.pipeline.trans h.pipeline
  address := h'.address.trans h.address
  stage a ha := (h'.stage a ha).trans (h.stage a ha)
  events addr haddr := h'.events addr (h.events addr haddr)

theorem setStage {stage : Stage V} (hs : Step w keys program body t act (t.setStage k stage))
    (hc : t.Careful w keys program act) :
    Onward w keys program body k t (t.setStage k stage) where
  run := .single ⟨act, hc, hs⟩
  pipeline := rfl
  address := rfl
  stage _ ha := stage_setStage_ne ha
  events _ h := h

end Onward

theorem InOrder.of_run (hin : InOrder w keys program t) (h : Run w keys program body t t') :
    InOrder w keys program t' := by
  apply invariant_of_run _ h hin
  rintro t t' ⟨act, hc, hs⟩ hin
  exact hin.step hc hs

/-- The other passes are as pending as before. -/
theorem Onward.pending (h : Onward w keys program body k t t') (ha : a ≠ k) :
    t'.pending a = t.pending a := by
  rw [Scheduler.pending, Scheduler.pending, h.pipeline, h.stage a ha]

theorem Ready.onward (h : Ready w keys program t) (ho : Onward w keys program body k t t')
    (hk : t'.stage k ≠ .unscheduled) : Ready w keys program t' where
  inOrder := h.inOrder.of_run ho.run
  scheduled a ha hpending := by
    by_cases hak : a = k
    · rwa [hak]
    · rw [ho.stage a hak]
      rw [ho.pending hak] at hpending
      apply h.scheduled a _ hpending
      rwa [count, ← ho.pipeline]
  earlier a ha := by
    rw [ho.pipeline]
    apply h.earlier a
    rwa [count, ← ho.pipeline]
  events a ha hlive := by
    rw [ho.address]
    apply ho.events
    apply h.events a
    · rwa [count, ← ho.pipeline]
    · rwa [← ho.pipeline]

/-- The loop of `wait_for_dependencies` ends when the dependencies are through. -/
theorem Ready.waits (body : PassId → (EntryId → V) → EntryId → V)
    (h : Ready w keys program t) {ds : List PassId}
    (hwait : t.stage k = .waiting ds)
    (hthrough : ∀ d ∈ t.pipeline.dependencies k, t.pending d = false) :
    ∃ t', Onward w keys program body k t t' ∧ t'.stage k = .waiting [] ∧ t'.store = t.store := by
  induction ds generalizing t with
  | nil => exact ⟨t, .refl k t, hwait, rfl⟩
  | cons d ds ih =>
      have hmem : d ∈ t.pipeline.dependencies k := (h.inOrder.waits k _ hwait).1 List.mem_cons_self
      obtain ⟨hle, hk⟩ := h.inOrder.le_of_mem hmem
      have hd : d < t.count := hle.trans_lt hk
      have hstep : Step w keys program body t (.wait k) (t.setStage k (.waiting ds)) := by
        cases hlive : t.pipeline.live d with
        | false => exact .expired t k d ds hwait hlive
        | true =>
            obtain ⟨ext, hext⟩ := Option.isSome_iff_exists.mp (h.events d hd hlive)
            apply Step.waited t k d ds ext hwait hlive hext
            have hpending := hthrough d hmem
            rw [Scheduler.pending, hlive, Bool.true_and, Bool.not_eq_false'] at hpending
            rw [(h.inOrder.events d hd hlive ext hext).2, hpending]
      have hfirst := Onward.setStage hstep trivial
      have hready := h.onward hfirst (by rw [stage_setStage_self]; simp)
      have hsame : ∀ d, (t.setStage k (.waiting ds)).pending d = t.pending d :=
        pending_setStage (by rw [hwait]; rfl)
      obtain ⟨t', ho, hstage, hstore⟩ := ih hready stage_setStage_self fun d hd =>
        (hsame d).trans (hthrough d hd)
      exact ⟨t', hfirst.trans ho, hstage, hstore⟩

/-- A running function writes the cells of a list. -/
theorem exists_written (body : PassId → (EntryId → V) → EntryId → V)
    {seen : EntryId → V} (hrun : t.stage k = .running seen)
    {xs : List EntryId} (hxs : ∀ x ∈ xs, w.Accesses keys (program k) x false) :
    ∃ t', Onward w keys program body k t t' ∧ t'.stage k = .running seen ∧
      t'.eventmap = t.eventmap ∧ ∀ x ∈ xs, t'.store x = body k seen x := by
  induction xs with
  | nil => exact ⟨t, .refl k t, hrun, rfl, by simp⟩
  | cons x xs ih =>
      obtain ⟨t', ho, hstage, hmap, hwritten⟩ := ih fun y hy => hxs y (List.mem_cons_of_mem x hy)
      have hstep : Step w keys program body t' (.write k x) (t'.setCell x (body k seen x)) :=
        .write t' k x seen hstage (hxs x List.mem_cons_self)
      refine ⟨t'.setCell x (body k seen x), ho.trans ?_, hstage, hmap, ?_⟩
      · exact ⟨.single ⟨.write k x, trivial, hstep⟩, rfl, rfl, fun _ _ => rfl, fun _ h => h⟩
      · intro y hy
        by_cases hyx : y = x
        · rw [hyx]
          exact Function.update_self ..
        · have hother : (t'.setCell x (body k seen x)).store y = t'.store y :=
            Function.update_of_ne hyx ..
          rw [hother]
          exact hwritten y ((List.mem_cons.mp hy).resolve_left hyx)

/-- A pass accesses finitely many entries. -/
theorem InOrder.exists_accessed (h : InOrder w keys program t) (hk : k < t.count) :
    ∃ xs : List EntryId, ∀ x, x ∈ xs ↔ w.Accesses keys (program k) x false := by
  classical
  obtain ⟨hcov, hvisits⟩ := h.visits hk
  refine ⟨((t.pipeline.log k).map Visit.entry).filter fun x =>
    decide (w.Accesses keys (program k) x false), fun x => ?_⟩
  rw [List.mem_filter, decide_eq_true_iff]
  constructor
  · exact fun hx => hx.2
  · intro hx
    obtain ⟨v, hv, heq, -⟩ := World.covers_of_accesses hcov hvisits hx
    exact ⟨List.mem_map.mpr ⟨v, hv, heq⟩, hx⟩

/-- A function whose dependencies are through can be run to its end. -/
theorem Ready.through (body : PassId → (EntryId → V) → EntryId → V)
    (h : Ready w keys program t) (hk : k < t.count)
    (hthrough : ∀ d ∈ t.pipeline.dependencies k, t.pending d = false) :
    ∃ t', Onward w keys program body k t t' ∧ Ready w keys program t' ∧ t'.pending k = false := by
  cases hpending : t.pending k with
  | false => exact ⟨t, .refl k t, h, hpending⟩
  | true =>
      have hlive := live_of_pending hpending
      -- the function runs, at once or after it waited and started
      have hruns : ∃ t₁ seen, Onward w keys program body k t t₁ ∧ t₁.stage k = .running seen := by
        cases hstage : t.stage k with
        | unscheduled => exact absurd hstage (h.scheduled k hk hpending)
        | signaled => simp [Scheduler.pending, hstage, Stage.isSignaled] at hpending
        | running seen => exact ⟨t, seen, .refl k t, hstage⟩
        | waiting ds =>
            obtain ⟨t₁, ho, hwait, -⟩ := h.waits body hstage hthrough
            exact ⟨t₁.setStage k (.running t₁.store), t₁.store,
              ho.trans (.setStage (.start t₁ k hwait) trivial), stage_setStage_self⟩
      obtain ⟨t₁, seen, ho, hrun⟩ := hruns
      obtain ⟨xs, hxs⟩ := h.inOrder.exists_accessed hk
      obtain ⟨t₂, ho₂, hrun₂, -, hwritten⟩ :=
        exists_written body hrun fun x hx => (hxs x).mp hx
      have ho := ho.trans ho₂
      obtain ⟨ext, hext⟩ := Option.isSome_iff_exists.mp (ho.events _ (h.events k hk hlive))
      rw [← ho.address] at hext
      have hstep : Step w keys program body t₂ (.signal k) (t₂.signalPass k ext) :=
        .signal t₂ k seen ext hrun₂ (fun x hx => hwritten x ((hxs x).mpr hx)) hext
      have hlast : Onward w keys program body k t₂ (t₂.signalPass k ext) :=
        ⟨.single ⟨.signal k, trivial, hstep⟩, rfl, rfl, fun _ ha => stage_setStage_ne ha,
          fun addr haddr => isSome_update haddr⟩
      have hsignaled : (t₂.signalPass k ext).stage k = .signaled := stage_setStage_self
      refine ⟨_, ho.trans hlast, h.onward (ho.trans hlast) (by rw [hsignaled]; simp), ?_⟩
      rw [Scheduler.pending, hsignaled]
      exact Bool.and_false _

/-- The passes can be run to their ends one after the other. -/
theorem Ready.all (body : PassId → (EntryId → V) → EntryId → V)
    (h : Ready w keys program t) (n : Nat) (hn : n ≤ t.count) :
    ∃ t', Run w keys program body t t' ∧ Ready w keys program t' ∧ t'.pipeline = t.pipeline ∧
      ∀ k < n, t'.pending k = false := by
  induction n with
  | zero => exact ⟨t, .refl, h, rfl, fun k hk => absurd hk (Nat.not_lt_zero k)⟩
  | succ n ih =>
      obtain ⟨t', hrun, hready, hsame, hdone⟩ := ih (Nat.le_of_succ_le hn)
      have hcount : n < t'.count := by
        rw [count, hsame]
        exact hn
      obtain ⟨t'', ho, hready', hthrough⟩ := hready.through body hcount fun d hd => by
        have hle := (hready.inOrder.le_of_mem hd).1
        apply hdone d (Nat.lt_of_le_of_ne hle _)
        rintro rfl
        exact hready.earlier d hcount hd
      refine ⟨t'', hrun.trans ho.run, hready', ho.pipeline.trans hsame, fun k hk => ?_⟩
      by_cases hkn : k = n
      · rwa [hkn]
      · rw [ho.pending hkn]
        exact hdone k (Nat.lt_of_le_of_ne (Nat.le_of_lt_succ hk) hkn)

/-- After every careful run the passes can be run to their ends, when each of them that is still
alive was scheduled, visits no entry twice other than for reading, and has not lost its event to
`wait`. -/
theorem completes_of_run {store : EntryId → V}
    (h : Run w keys program body (initial w keys store) t)
    (hscheduled : ∀ k < t.count, t.pipeline.live k = true → t.stage k ≠ .unscheduled)
    (honce : ∀ k < t.count, w.VisitsOnce keys (program k))
    (hevents : ∀ k < t.count, t.pipeline.live k = true → t.stage k = .signaled →
      (t.eventmap (t.address k)).isSome = true) :
    ∃ t', Run w keys program body t t' ∧ t'.pipeline = t.pipeline ∧
      ∀ k < t'.count, t'.pipeline.live k = true → t'.stage k = .signaled := by
  obtain ⟨hin, hkept⟩ := eventsKept_of_run h
  have hready : Ready w keys program t := by
    refine ⟨hin, fun k hk hpending => hscheduled k hk (live_of_pending hpending), ?_, ?_⟩
    · intro k hk hself
      have hpass := List.getElem?_eq_getElem hk
      obtain ⟨vs, hvs, -, hiff⟩ := hin.ordered.sound.passes k _ hpass
      rw [Pipeline.dependencies, hpass] at hself
      apply hiff.mp hself
      obtain ⟨us, hus, honce⟩ := honce k hk
      rw [(hin.requests k _ hpass).1, hus] at hvs
      rwa [← Option.some.inj hvs]
    · intro k hk hlive
      cases hsignaled : (t.stage k).isSignaled with
      | false => exact hkept k hk hlive hsignaled
      | true =>
          apply hevents k hk hlive
          cases hstage : t.stage k with
          | signaled => rfl
          | _ => simp [hstage, Stage.isSignaled] at hsignaled
  obtain ⟨t', hrun, -, hsame, hdone⟩ := hready.all body t.count le_rfl
  refine ⟨t', hrun, hsame, fun k hk hlive => ?_⟩
  have hpending := hdone k (by rwa [count, ← hsame])
  rw [Scheduler.pending, hlive, Bool.true_and, Bool.not_eq_false'] at hpending
  cases hstage : t'.stage k with
  | signaled => rfl
  | _ => simp [hstage, Stage.isSignaled] at hpending

/-- Of two writers that wait, both come to their ends. -/
theorem completes_of_writers : ∃ w t t', Pipeline.twoArchetypes = some w ∧
    Run w [0, 1] (fun _ => sharing false) doubling (initial w [0, 1] fun _ => 3) t ∧
    t.stage 1 = .waiting [0] ∧ Run w [0, 1] (fun _ => sharing false) doubling t t' ∧
    t'.stage 1 = .signaled := by
  obtain ⟨w, p, p', hw, hp, hp', hlen, hlen', hlive, hlive', hdeps, hdeps', -, hcalls, hvisits⟩ :=
    sharing_spec false
  obtain ⟨t, hrun, hpipe, hzero, hone, -⟩ :=
    exists_scheduled (fun _ => 3) doubling hp hp' hlen hlen' hlive hlive' (covered_sharing hcalls)
  have hcount : t.count = 2 := by
    rw [count, hpipe, hlen']
  have hwaits : ∀ k < t.count, ∃ ds, t.stage k = .waiting ds := by
    intro k hk
    rw [hcount] at hk
    by_cases hk' : k = 1
    · exact ⟨_, hk' ▸ hone⟩
    · obtain rfl : k = 0 := Nat.lt_one_iff.mp (Nat.lt_of_le_of_ne (Nat.le_of_lt_succ hk) hk')
      exact ⟨_, hzero⟩
  obtain ⟨t', hrun', hsame, hall⟩ := completes_of_run hrun
    (fun k hk _ hstage => by
      obtain ⟨ds, hwait⟩ := hwaits k hk
      rw [hstage] at hwait
      cases hwait)
    (fun k _ => ⟨_, hvisits, by decide⟩)
    (fun k hk _ hstage => by
      obtain ⟨ds, hwait⟩ := hwaits k hk
      rw [hstage] at hwait
      cases hwait)
  refine ⟨w, t, t', hw, hrun, ?_, hrun', ?_⟩
  · rw [hone, hdeps', if_neg Bool.false_ne_true]
  · apply hall
    · rw [count, hsame, hpipe, hlen']
      exact Nat.one_lt_two
    · rw [hsame, hpipe]
      exact hlive'

end Scheduler

end Dots

import Dots.Codebase.Scheduler

/-!
# Careful runs are serial

The functions of the passes are the tasks of a schedule. A function starts only when the passes
it conflicts with are through, so the passes leave what they would leave one after the other.
-/

namespace Dots

open Library

namespace Scheduler

variable {V : Type*} {w : World} {keys : List ArchetypeId} {program : PassId → Request}
  {body : PassId → (EntryId → V) → EntryId → V} {t t' : Scheduler V} {a b k : PassId}
  {act : Action}

/-! ## The tasks -/

/-- What the schedule of the tasks says of a pass. One that expires unscheduled never runs. -/
def phaseOf (live : Bool) : Stage V → Phase (EntryId → V)
  | .unscheduled => if live then .idle else .dropped
  | .waiting _ => .idle
  | .running seen => .running seen
  | .signaled => .ended

def tasks (t : Scheduler V) : Schedule EntryId V where
  phase := fun k => phaseOf (t.pipeline.live k) (t.stage k)
  store := t.store

theorem isEnded_phaseOf (live : Bool) (stage : Stage V) :
    (phaseOf live stage).isEnded = stage.isSignaled := by
  cases stage with
  | unscheduled => cases live <;> rfl
  | _ => rfl

theorem tasks_setStage (t : Scheduler V) (k : PassId) (stage : Stage V) :
    (t.setStage k stage).tasks = t.tasks.setPhase k (phaseOf (t.pipeline.live k) stage) := by
  rw [tasks, Schedule.setPhase, Schedule.mk.injEq]
  refine ⟨?_, rfl⟩
  ext a : 1
  by_cases hak : a = k
  · rw [hak, Function.update_self, stage_setStage_self]
    rfl
  · rw [Function.update_of_ne hak, stage_setStage_ne hak]
    rfl

/-- A stage that looks the same from outside. -/
theorem tasks_setStage_same {stage : Stage V} (h : phaseOf (t.pipeline.live k) stage =
    phaseOf (t.pipeline.live k) (t.stage k)) : (t.setStage k stage).tasks = t.tasks := by
  rw [tasks_setStage, h, Schedule.setPhase]
  exact congrArg (Schedule.mk · _) (Function.update_eq_self ..)

/-- A pass that is not pending never runs again. -/
theorem InOrder.settled (h : InOrder w keys program t) (hk : t.pending k = false) :
    (t.tasks.phase k).settled = true := by
  show (phaseOf (t.pipeline.live k) (t.stage k)).settled = true
  cases hstage : t.stage k with
  | unscheduled =>
      have hdead : t.pipeline.live k = false := by
        rw [pending, hstage] at hk
        rwa [show (Stage.unscheduled : Stage V).isSignaled = false from rfl, Bool.not_false,
          Bool.and_true] at hk
      rw [hdead]
      rfl
  | signaled => rfl
  | waiting ds =>
      have hlive := (h.live (k := k) (by simp [hstage]) (by simp [hstage])).2
      simp [pending, hlive, hstage, Stage.isSignaled] at hk
  | running seen =>
      have hlive := (h.live (k := k) (by simp [hstage]) (by simp [hstage])).2
      simp [pending, hlive, hstage, Stage.isSignaled] at hk

theorem InOrder.visits (h : InOrder w keys program t) (hk : k < t.count) :
    w.Covered keys (program k) ∧ w.visits keys (program k) = some (t.pipeline.log k) := by
  have hpass := List.getElem?_eq_getElem hk
  obtain ⟨hreq, hcov⟩ := h.requests k _ hpass
  obtain ⟨vs, hvs, -⟩ := h.ordered.sound.passes k _ hpass
  refine ⟨hcov, ?_⟩
  rw [hreq] at hvs
  rw [hvs, Pipeline.log, hpass]
  show some vs = some ((t.pipeline.world.visits t.pipeline.keys _).getD [])
  rw [h.ordered.sound.sameWorld, h.ordered.sound.sameKeys, hreq, hvs, Option.getD_some]

/-- A function starts behind all earlier passes that conflict with its own. -/
theorem InOrder.behind (h : InOrder w keys program t) (hwait : t.stage k = .waiting []) {a : PassId}
    (hak : a < k) (hconf : w.Conflicting keys (program a) (program k)) :
    (t.tasks.phase a).settled = true := by
  have hk := (h.live (k := k) (by simp [hwait]) (by simp [hwait])).1
  obtain ⟨hcov, hvisits⟩ := h.visits hk
  obtain ⟨hcov', hvisits'⟩ := h.visits (hak.trans hk)
  apply h.settled
  apply h.ordered.not_pending hak (World.conflict_of_covers hcov' hcov hvisits' hvisits hconf)
  intro d hd
  exact (h.waits k [] hwait).2 d hd List.not_mem_nil

/-- Each step is one of the tasks, or nothing for them. -/
theorem InOrder.tasks_step (hs : Step w keys program body t act t')
    (h : InOrder w keys program t) : t'.tasks = t.tasks ∨
      Schedule.Step (fun k => w.Accesses keys (program k)) body t.tasks t'.tasks := by
  cases hs with
  | create addr p hp haddr =>
      left
      obtain ⟨vs, s, hnew⟩ := Pipeline.exists_created h.ordered.sound hp
      have hlive : p.live = t.pipeline.live := by
        rw [hnew.live, Function.update_eq_self_iff]
        exact (h.later t.count le_rfl).symm
      show Schedule.mk (fun k => phaseOf (p.live k) (t.stage k)) t.store = t.tasks
      rw [hlive]
      rfl
  | schedule k hk hlive hstage =>
      left
      apply tasks_setStage_same
      rw [hstage, hlive]
      rfl
  | expired k d ds hwait hdead =>
      left
      apply tasks_setStage_same
      rw [hwait]
      rfl
  | waited k d ds ext hwait hlive hext hsignaled =>
      left
      apply tasks_setStage_same
      rw [hwait]
      rfl
  | start k hwait =>
      right
      rw [tasks_setStage]
      apply Schedule.Step.start
      · show phaseOf _ (t.stage k) = _
        rw [hwait]
        rfl
      · intro a hak hclash
        exact h.behind hwait hak hclash
  | write k x seen hrun hx =>
      right
      apply Schedule.Step.write t.tasks k seen x _ hx
      show phaseOf _ (t.stage k) = _
      rw [hrun]
      rfl
  | signal k seen ext hrun hall hext =>
      right
      have hended : (t.signalPass k ext).tasks = t.tasks.setPhase k .ended :=
        (tasks_setStage t k .signaled)
      rw [hended]
      apply Schedule.Step.finish t.tasks k seen _ hall
      show phaseOf _ (t.stage k) = _
      rw [hrun]
      rfl
  | expire k hk hstage =>
      have hother : ∀ a, a ≠ k → (t.pipeline.expire k).live a = t.pipeline.live a := fun a ha =>
        Function.update_of_ne ha ..
      have hdead : (t.pipeline.expire k).live k = false := Function.update_self ..
      have hphase : ({ t with pipeline := t.pipeline.expire k } : Scheduler V).tasks =
          t.tasks.setPhase k (phaseOf false (t.stage k)) := by
        rw [tasks, Schedule.setPhase, Schedule.mk.injEq]
        refine ⟨?_, rfl⟩
        ext a : 1
        by_cases hak : a = k
        · rw [hak, Function.update_self, hdead]
        · rw [Function.update_of_ne hak, hother a hak]
          rfl
      rw [hphase]
      by_cases hdrop : t.stage k = .unscheduled ∧ t.pipeline.live k = true
      · right
        rw [hdrop.1]
        apply Schedule.Step.drop
        show phaseOf _ (t.stage k) = _
        rw [hdrop.1, hdrop.2]
        rfl
      · left
        have hsame : phaseOf false (t.stage k) = t.tasks.phase k := by
          show _ = phaseOf (t.pipeline.live k) (t.stage k)
          rcases hstage with hstage | hstage
          · have hk : t.pipeline.live k = false := by
              rw [Bool.eq_false_iff]
              exact fun hlive => hdrop ⟨hstage, hlive⟩
            rw [hk]
          · rw [hstage]
            rfl
        rw [hsame]
        exact congrArg (Schedule.mk · _) (Function.update_eq_self ..)
  | forget => exact Or.inl rfl
  | waitAll hall => exact Or.inl rfl

/-! ## Runs -/

/-- The passes are the tasks of a serial schedule. -/
theorem serial_of_run {store : EntryId → V}
    (hbody : ∀ k, Confined (w.Accesses keys (program k)) (body k))
    (h : Run w keys program body (initial w keys store) t) : InOrder w keys program t ∧
      ∃ r, Schedule.Serial (fun k => w.Accesses keys (program k)) body store t.tasks r := by
  apply invariant_of_run (P := fun t => InOrder w keys program t ∧
    ∃ r, Schedule.Serial (fun k => w.Accesses keys (program k)) body store t.tasks r) _ h
  · exact ⟨inOrder_initial store, store,
      Schedule.serial_initial (t := (initial w keys store).tasks) fun k => rfl⟩
  · rintro t t' ⟨act, hc, hs⟩ ⟨hin, r, hserial⟩
    refine ⟨hin.step hc hs, ?_⟩
    rcases hin.tasks_step hs with hsame | hstep
    · exact ⟨r, hsame ▸ hserial⟩
    · exact hserial.step hbody hstep

/-! ## Two passes that share a column -/

/-- A pass that accesses the second type on the second archetype. -/
def sharing (readonly : Bool) : Request := .pass [1] [{ type := 5, readonly := readonly }] [] []

theorem sharing_spec (readonly : Bool) : ∃ w p p', Pipeline.twoArchetypes = some w ∧
    (Pipeline.initial w [0, 1]).create (sharing readonly) = some p ∧
    p.create (sharing readonly) = some p' ∧ p.passes.length = 1 ∧ p'.passes.length = 2 ∧
    p'.live 0 = true ∧ p'.live 1 = true ∧ p'.dependencies 0 = [] ∧
    p'.dependencies 1 = (if readonly then [] else [0]) ∧
    w.ownedColumn 5 1 = some (.column 1 1) ∧
    w.calls [1] [{ type := 5, readonly := readonly }] [] =
      some [.entry 1 1 readonly, .entities 1] ∧
    w.visits [0, 1] (sharing readonly) =
      some [⟨.column 1 1, readonly⟩, ⟨.entities 1, true⟩] := by
  cases readonly <;>
    exact ⟨Pipeline.twoArchetypes.get (by decide +kernel), _, _, Option.some_get _ |>.symm,
      (Option.some_get (by decide +kernel)).symm, (Option.some_get (by decide +kernel)).symm,
      by decide +kernel, by decide +kernel, by decide +kernel, by decide +kernel,
      by decide +kernel, by decide +kernel, by decide +kernel, by decide +kernel,
      by decide +kernel⟩

theorem covered_sharing {readonly : Bool}
    (h : w.calls [1] [{ type := 5, readonly := readonly }] [] =
      some [.entry 1 1 readonly, .entities 1]) : w.Covered [0, 1] (sharing readonly) := by
  refine ⟨by simp, fun cs hcs => ?_⟩
  obtain rfl := Option.some.inj (h.symm.trans hcs)
  simp [World.WriteLost]

theorem accesses_sharing {readonly : Bool} (h : w.ownedColumn 5 1 = some (.column 1 1)) :
    w.Accesses [0, 1] (sharing readonly) (.column 1 1) readonly :=
  .ownedParam (q := { type := 5, readonly := readonly }) (g := 1) (by simp) rfl (by simp)
    (by simp) h

/-- Both are created, at the addresses 0 and 1, and scheduled. -/
theorem exists_scheduled {readonly : Bool} {p p' : Pipeline} (store : EntryId → V)
    (body : PassId → (EntryId → V) → EntryId → V)
    (hp : (Pipeline.initial w [0, 1]).create (sharing readonly) = some p)
    (hp' : p.create (sharing readonly) = some p') (hlen : p.passes.length = 1)
    (hlen' : p'.passes.length = 2) (hlive : p'.live 0 = true) (hlive' : p'.live 1 = true)
    (hcov : w.Covered [0, 1] (sharing readonly)) :
    ∃ t : Scheduler V, Run w [0, 1] (fun _ => sharing readonly) body (initial w [0, 1] store) t ∧
      t.pipeline = p' ∧ t.stage 0 = .waiting (p'.dependencies 0) ∧
      t.stage 1 = .waiting (p'.dependencies 1) ∧ t.address 0 = 0 ∧ t.address 1 = 1 ∧
      t.eventmap 0 = some { pass := 0 } ∧ t.eventmap 1 = some { pass := 1 } ∧
      t.store = store ∧ ∀ k ≥ 2, t.stage k = .unscheduled := by
  let t₁ := { initial w [0, 1] store with pipeline := p }.setup 0 0
  have hrun₁ : Run w [0, 1] (fun _ => sharing readonly) body (initial w [0, 1] store) t₁ :=
    .single ⟨.create 0, ⟨hcov, rfl, rfl⟩, .create _ 0 p hp fun k hk => absurd hk (Nat.not_lt_zero k)⟩
  have hcount : t₁.count = 1 := hlen
  let t₂ := { t₁ with pipeline := p' }.setup t₁.count 1
  have hrun₂ : Run w [0, 1] (fun _ => sharing readonly) body (initial w [0, 1] store) t₂ := by
    refine hrun₁.tail ⟨.create 1, ⟨hcov, rfl, rfl⟩, .create _ 1 p' hp' fun k hk _ => ?_⟩
    obtain rfl : k = 0 := by omega
    exact Nat.zero_ne_one
  have hzero : 0 < t₂.count := Nat.lt_of_lt_of_eq Nat.zero_lt_two hlen'.symm
  have hone : 1 < t₂.count := Nat.lt_of_lt_of_eq Nat.one_lt_two hlen'.symm
  let t₃ := t₂.setStage 0 (.waiting (p'.dependencies 0))
  have hrun₃ : Run w [0, 1] (fun _ => sharing readonly) body (initial w [0, 1] store) t₃ :=
    hrun₂.tail ⟨.schedule 0, trivial, .schedule t₂ 0 hzero hlive rfl⟩
  refine ⟨t₃.setStage 1 (.waiting (p'.dependencies 1)), hrun₃.tail ⟨.schedule 1, trivial,
    .schedule t₃ 1 hone hlive' rfl⟩, rfl, rfl, rfl, ?_, ?_, ?_, ?_, rfl, ?_⟩
  · show Function.update t₁.address t₁.count 1 0 = 0
    rw [hcount]
    rfl
  · show Function.update t₁.address t₁.count 1 1 = 1
    rw [hcount]
    rfl
  · rfl
  · show Function.update t₁.eventmap 1 (some ((t₁.eventmap 1).getD { pass := t₁.count })) 1 = _
    rw [hcount]
    rfl
  · intro k hk
    rw [stage_setStage_ne (Nat.ne_of_gt (Nat.lt_of_lt_of_le Nat.one_lt_two hk)),
      stage_setStage_ne (Nat.ne_of_gt (Nat.lt_of_lt_of_le Nat.zero_lt_two hk))]
    rfl

/-! ## What holds in every run -/

/-- In every careful run, no two passes that conflict run at the same time. -/
theorem exclusive_of_run {store : EntryId → V}
    (hbody : ∀ k, Confined (w.Accesses keys (program k)) (body k))
    (h : Run w keys program body (initial w keys store) t) {seen seen' : EntryId → V}
    (ha : t.stage a = .running seen) (hb : t.stage b = .running seen') (hab : a ≠ b) :
    ¬ w.Conflicting keys (program a) (program b) := by
  obtain ⟨-, r, hserial⟩ := serial_of_run hbody h
  have hphase : ∀ {k seen}, t.stage k = .running seen → t.tasks.phase k = .running seen := by
    intro k seen hk
    show phaseOf _ (t.stage k) = _
    rw [hk]
    rfl
  exact hserial.exclusive (hphase ha) (hphase hb) hab

/-- Two readers do run at the same time. -/
theorem exclusive_of_readers : ∃ w t, Pipeline.twoArchetypes = some w ∧
    Run (V := Nat) w [0, 1] (fun _ => sharing true) (fun _ => id)
      (initial w [0, 1] fun _ => 0) t ∧
    t.stage 0 = .running (fun _ => 0) ∧ t.stage 1 = .running (fun _ => 0) ∧
    ¬ w.Conflicting [0, 1] (sharing true) (sharing true) := by
  obtain ⟨w, p, p', hw, hp, hp', hlen, hlen', hlive, hlive', hdeps, hdeps', -, hcalls, -⟩ :=
    sharing_spec true
  obtain ⟨t, hrun, -, hzero, hone, -, -, -, -, hstore, -⟩ := exists_scheduled (fun _ => 0)
    (fun _ => id) hp hp' hlen hlen' hlive hlive' (covered_sharing hcalls)
  rw [hdeps] at hzero
  rw [hdeps', if_pos rfl] at hone
  have hrun₁ := hrun.tail ⟨.start 0, trivial, .start t 0 hzero⟩
  have hone : (t.setStage 0 (.running t.store)).stage 1 = .waiting [] :=
    (stage_setStage_ne Nat.one_ne_zero).trans hone
  have hrun₂ := hrun₁.tail ⟨.start 1, trivial, .start _ 1 hone⟩
  have hzero : ((t.setStage 0 (.running t.store)).setStage 1 (.running t.store)).stage 0 =
      .running (fun _ => 0) := by
    rw [stage_setStage_ne Nat.zero_ne_one, stage_setStage_self, hstore]
  have hone : ((t.setStage 0 (.running t.store)).setStage 1 (.running t.store)).stage 1 =
      .running (fun _ => 0) := by
    rw [stage_setStage_self, hstore]
  exact ⟨w, _, hw, hrun₂, hzero, hone,
    exclusive_of_run (fun _ => confined_id _) hrun₂ hzero hone Nat.zero_ne_one⟩

/-- The passes that have signalled. -/
def signaled (t : Scheduler V) : List PassId :=
  (List.range t.count).filter fun k => (t.stage k).isSignaled

/-- In every careful run, whenever no pass runs, the passes that have signalled have done what
they do one after the other, in the order of their creation. -/
theorem store_of_run {store : EntryId → V}
    (hbody : ∀ k, Confined (w.Accesses keys (program k)) (body k))
    (h : Run w keys program body (initial w keys store) t)
    (hnone : ∀ k seen, t.stage k ≠ .running seen) :
    t.store = replay body t.signaled store := by
  obtain ⟨hin, r, hserial⟩ := serial_of_run hbody h
  have hrest : ∀ k seen, t.tasks.phase k ≠ .running seen := by
    intro k seen hk
    change phaseOf _ (t.stage k) = _ at hk
    cases hstage : t.stage k with
    | running seen' => exact hnone k seen' hstage
    | unscheduled =>
        rw [hstage, phaseOf] at hk
        split_ifs at hk
    | waiting ds =>
        rw [hstage] at hk
        cases hk
    | signaled =>
        rw [hstage] at hk
        cases hk
  have hlater : ∀ k ≥ t.count, (t.tasks.phase k).isEnded = false := by
    intro k hk
    have hstage : t.stage k = .unscheduled := by
      by_contra hne
      exact absurd (hin.owned k hne).1 (not_lt.mpr hk)
    show (phaseOf _ (t.stage k)).isEnded = false
    rw [isEnded_phaseOf, hstage]
    rfl
  calc t.store = r := hserial.store_eq hrest
    _ = replay body (ended (fun k => (t.tasks.phase k).isEnded) t.count) store :=
        hserial.replayed t.count hlater
    _ = replay body t.signaled store := by
        rw [ended, signaled]
        congr 2
        ext k
        exact isEnded_phaseOf _ _

/-- Doubles the shared column and adds the number of the pass. -/
def doubling (k : PassId) (s : EntryId → Nat) : EntryId → Nat :=
  Function.update s (.column 1 1) (2 * s (.column 1 1) + k)

/-- A writer writes the shared column only. -/
theorem accesses_writer (h : w.ownedColumn 5 1 = some (.column 1 1)) {x : EntryId} :
    w.Accesses [0, 1] (sharing false) x false ↔ x = .column 1 1 := by
  constructor
  · intro hx
    generalize hr : false = r at hx
    cases hx with
    | sharedEntry hi => exact absurd hi List.not_mem_nil
    | randomParam _ hq hrandom _ _ =>
        rw [List.mem_singleton] at hq
        rw [hq] at hrandom
        cases hrandom
    | ownedParam hq _ hgs _ hcol =>
        rw [List.mem_singleton] at hq hgs
        rw [hq, hgs] at hcol
        exact (Option.some.inj (h.symm.trans hcol)).symm
    | metaParam => cases hr
    | changedFilter ht => exact absurd ht List.not_mem_nil
  · rintro rfl
    exact accesses_sharing h

/-- A function that starts, writes the shared column and signals. -/
def doubled (t : Scheduler Nat) (k : PassId) (ext : PassExt) : Scheduler Nat :=
  ((t.setStage k (.running t.store)).setCell (.column 1 1)
    (doubling k t.store (.column 1 1))).signalPass k ext

theorem stage_doubled_self (t : Scheduler Nat) (ext : PassExt) :
    (t.doubled k ext).stage k = .signaled := Function.update_self ..

theorem stage_doubled_ne (h : a ≠ k) (t : Scheduler Nat) (ext : PassExt) :
    (t.doubled k ext).stage a = t.stage a := by
  rw [doubled, stage_signalPass, stage_setStage_ne h]
  exact stage_setStage_ne h

theorem run_doubled {s₀ t : Scheduler Nat} {ext : PassExt}
    (h : Run w [0, 1] (fun _ => sharing false) doubling s₀ t) (hwait : t.stage k = .waiting [])
    (hext : t.eventmap (t.address k) = some ext) (hcol : w.ownedColumn 5 1 = some (.column 1 1)) :
    Run w [0, 1] (fun _ => sharing false) doubling s₀ (t.doubled k ext) := by
  have hrun : (t.setStage k (.running t.store)).stage k = .running t.store := stage_setStage_self
  refine ((h.tail ⟨.start k, trivial, .start t k hwait⟩).tail ⟨.write k (.column 1 1), trivial,
    .write _ k _ t.store hrun (accesses_sharing hcol)⟩).tail ⟨.signal k, trivial,
      .signal _ k t.store ext hrun ?_ hext⟩
  intro x hx
  rw [(accesses_writer hcol).mp hx]
  exact Function.update_self (EntryId.column 1 1) _ t.store

/-- Of two writers the later one starts from what the earlier one left. -/
theorem store_of_writers : ∃ w t, Pipeline.twoArchetypes = some w ∧
    Run w [0, 1] (fun _ => sharing false) doubling (initial w [0, 1] fun _ => 3) t ∧
    t.signaled = [0, 1] ∧ t.store (.column 1 1) = 13 := by
  obtain ⟨w, p, p', hw, hp, hp', hlen, hlen', hlive, hlive', hdeps, hdeps', hcol, hcalls, -⟩ :=
    sharing_spec false
  obtain ⟨t, hrun, hpipe, hzero, hone, haddr, haddr', hmap, hmap', hstore, hlater⟩ :=
    exists_scheduled (fun _ => 3) doubling hp hp' hlen hlen' hlive hlive' (covered_sharing hcalls)
  rw [hdeps] at hzero
  rw [hdeps', if_neg Bool.false_ne_true] at hone
  -- the first pass runs, and the second one finds its event
  have hrun₁ := run_doubled hrun hzero (by rw [haddr, hmap]) hcol
  let t₁ := t.doubled 0 { pass := 0 }
  have hone : t₁.stage 1 = .waiting [0] := (stage_doubled_ne Nat.one_ne_zero ..).trans hone
  have hevent : t₁.eventmap (t₁.address 0) = some { pass := 0, signaled := true } :=
    Function.update_self ..
  have hlive : t₁.pipeline.live 0 = true := by
    show t.pipeline.live 0 = true
    rwa [hpipe]
  have hrun₂ := hrun₁.tail ⟨.wait 1, trivial, .waited t₁ 1 0 [] _ hone hlive hevent rfl⟩
  -- the second pass runs
  let t₂ := t₁.setStage 1 (.waiting [])
  have hmap' : t₂.eventmap (t₂.address 1) = some { pass := 1 } := by
    show Function.update t.eventmap (t.address 0) _ (t.address 1) = _
    rw [haddr, haddr', Function.update_of_ne Nat.one_ne_zero, hmap']
  have hrun₃ := run_doubled hrun₂ (stage_setStage_self : t₂.stage 1 = .waiting []) hmap' hcol
  let t₃ := t₂.doubled 1 { pass := 1 }
  have hsignaled : ∀ k < 2, t₃.stage k = .signaled := by
    intro k hk
    by_cases hk' : k = 1
    · rw [hk']
      exact stage_doubled_self ..
    · obtain rfl : k = 0 := Nat.lt_one_iff.mp (Nat.lt_of_le_of_ne (Nat.le_of_lt_succ hk) hk')
      calc t₃.stage 0 = t₂.stage 0 := stage_doubled_ne Nat.zero_ne_one ..
        _ = t₁.stage 0 := stage_setStage_ne Nat.zero_ne_one
        _ = .signaled := stage_doubled_self ..
  have hlater : ∀ k ≥ 2, t₃.stage k = .unscheduled := by
    intro k hk
    have hk₁ : k ≠ 1 := Nat.ne_of_gt (Nat.lt_of_lt_of_le Nat.one_lt_two hk)
    have hk₀ : k ≠ 0 := Nat.ne_of_gt (Nat.lt_of_lt_of_le Nat.zero_lt_two hk)
    calc t₃.stage k = t₂.stage k := stage_doubled_ne hk₁ ..
      _ = t₁.stage k := stage_setStage_ne hk₁
      _ = t.stage k := stage_doubled_ne hk₀ ..
      _ = .unscheduled := hlater k hk
  have hall : t₃.signaled = [0, 1] := by
    have hcount : t₃.count = 2 := by
      show t.pipeline.passes.length = 2
      rw [hpipe, hlen']
    rw [signaled, hcount]
    apply List.filter_eq_self.mpr
    intro k hk
    rw [hsignaled k (List.mem_range.mp hk)]
    rfl
  refine ⟨w, t₃, hw, hrun₃, hall, ?_⟩
  rw [store_of_run (fun k => .update (accesses_sharing hcol) fun v => 2 * v + k) hrun₃, hall]
  · rfl
  · intro k seen
    by_cases hk : k < 2
    · rw [hsignaled k hk]
      exact nofun
    · rw [hlater k (Nat.le_of_not_lt hk)]
      exact nofun

end Scheduler

end Dots

import Dots.Codebase.Order
import Dots.Library.Schedule

/-!
# Passes on worker threads

`ecs::pipeline` gives each pass an event and finds it by the address of the pass. The function
that `schedule` hands to a worker waits for the events of the dependencies that are still alive,
runs, and signals the event of its own pass. What the passes do is a parameter; so is where they
are allocated.
-/

namespace Dots

open Library

/-- `ecs::pass_ext`. The event is manual: it stays signalled. -/
structure PassExt where
  pass : PassId
  signaled : Bool := false

/-- How far the function of a pass is that `schedule` hands to a worker. -/
inductive Stage (V : Type*)
  | unscheduled
  /-- In the loop of `wait_for_dependencies`. -/
  | waiting (dependencies : List PassId)
  | running (seen : EntryId → V)
  | signaled

def Stage.isSignaled {V : Type*} : Stage V → Bool
  | signaled => true
  | _ => false

/-- `ecs::pipeline`, its workers, and what the dependency entries stand for. -/
structure Scheduler (V : Type*) where
  pipeline : Pipeline
  /-- `pass.get()`. -/
  address : PassId → Nat
  eventmap : Nat → Option PassExt
  stage : PassId → Stage V
  store : EntryId → V

def Request.changed : Request → List TypeIndex
  | .pass _ _ changed _ => changed
  | .custom _ => []

namespace Scheduler

variable {V : Type*}

def initial (w : World) (keys : List ArchetypeId) (store : EntryId → V) : Scheduler V where
  pipeline := Pipeline.initial w keys
  address := fun _ => 0
  eventmap := fun _ => none
  stage := fun _ => .unscheduled
  store := store

/-- The number of passes that were created. -/
def count (t : Scheduler V) : Nat := t.pipeline.passes.length

def setStage (t : Scheduler V) (k : PassId) (stage : Stage V) : Scheduler V :=
  { t with stage := Function.update t.stage k stage }

/-- `setup_pass` and `setup_custom_pass`. `insert` keeps the event of a pass that was there. -/
def setup (t : Scheduler V) (k : PassId) (addr : Nat) : Scheduler V :=
  { t with
    address := Function.update t.address k addr
    eventmap := Function.update t.eventmap addr
      (some ((t.eventmap addr).getD { pass := k })) }

/-- `signal_pass`. -/
def signalPass (t : Scheduler V) (k : PassId) (ext : PassExt) : Scheduler V :=
  { t.setStage k .signaled with
    eventmap := Function.update t.eventmap (t.address k) (some { ext with signaled := true }) }

/-- `forget`. -/
def forget (t : Scheduler V) : Scheduler V :=
  { t with eventmap := fun addr => (t.eventmap addr).filter fun ext => t.pipeline.live ext.pass }

def setCell (t : Scheduler V) (x : EntryId) (v : V) : Scheduler V :=
  { t with store := Function.update t.store x v }

/-- What happens next, and to which pass. -/
inductive Action
  | create (addr : Nat)
  | schedule (k : PassId)
  | wait (k : PassId)
  | start (k : PassId)
  | write (k : PassId) (x : EntryId)
  | signal (k : PassId)
  | expire (k : PassId)
  | forget
  | waitAll

/-- The `k`-th pass is created with the request `program k` and does `body k` to what it
accesses. Passes have no changed filter (`Careful`), so that `create_tasks` waits for nothing, and
the function that `schedule_init` calls before the wait does nothing, as that of `schedule`. -/
inductive Step (w : World) (keys : List ArchetypeId) (program : PassId → Request)
    (body : PassId → (EntryId → V) → EntryId → V) : Scheduler V → Action → Scheduler V → Prop
  | create (t : Scheduler V) (addr : Nat) (p : Pipeline)
      (h : t.pipeline.create (program t.count) = some p)
      (haddr : ∀ k < t.count, t.pipeline.live k = true → t.address k ≠ addr) :
      Step w keys program body t (.create addr) ({ t with pipeline := p }.setup t.count addr)
  | schedule (t : Scheduler V) (k : PassId) (hk : k < t.count) (hlive : t.pipeline.live k = true)
      (hstage : t.stage k = .unscheduled) :
      Step w keys program body t (.schedule k)
        (t.setStage k (.waiting (t.pipeline.dependencies k)))
  /-- `dep.lock()` finds no pass. -/
  | expired (t : Scheduler V) (k d : PassId) (ds : List PassId)
      (hwait : t.stage k = .waiting (d :: ds)) (hdead : t.pipeline.live d = false) :
      Step w keys program body t (.wait k) (t.setStage k (.waiting ds))
  | waited (t : Scheduler V) (k d : PassId) (ds : List PassId) (ext : PassExt)
      (hwait : t.stage k = .waiting (d :: ds)) (hlive : t.pipeline.live d = true)
      (hext : t.eventmap (t.address d) = some ext) (hsignaled : ext.signaled = true) :
      Step w keys program body t (.wait k) (t.setStage k (.waiting ds))
  | start (t : Scheduler V) (k : PassId) (hwait : t.stage k = .waiting []) :
      Step w keys program body t (.start k) (t.setStage k (.running t.store))
  | write (t : Scheduler V) (k : PassId) (x : EntryId) (seen : EntryId → V)
      (hrun : t.stage k = .running seen) (hx : w.Accesses keys (program k) x false) :
      Step w keys program body t (.write k x) (t.setCell x (body k seen x))
  | signal (t : Scheduler V) (k : PassId) (seen : EntryId → V) (ext : PassExt)
      (hrun : t.stage k = .running seen)
      (hall : ∀ x, w.Accesses keys (program k) x false → t.store x = body k seen x)
      (hext : t.eventmap (t.address k) = some ext) :
      Step w keys program body t (.signal k) (t.signalPass k ext)
  /-- The function that waits or runs owns its pass. -/
  | expire (t : Scheduler V) (k : PassId) (hk : k < t.count)
      (hstage : t.stage k = .unscheduled ∨ t.stage k = .signaled) :
      Step w keys program body t (.expire k) { t with pipeline := t.pipeline.expire k }
  | forget (t : Scheduler V) : Step w keys program body t .forget t.forget
  /-- `wait`, which clears the map. -/
  | waitAll (t : Scheduler V) (hall : ∀ addr ext, t.eventmap addr = some ext →
      t.pipeline.live ext.pass = true → ext.signaled = true) :
      Step w keys program body t .waitAll { t with eventmap := fun _ => none }

/-- The pass may still run. -/
def pending (t : Scheduler V) (k : PassId) : Bool :=
  t.pipeline.live k && !(t.stage k).isSignaled

/-- What the pipeline leaves to those who use it. A request covers what its pass accesses and has
no changed filter, for which `create_tasks` would wait for the pass itself; an address comes back
only after `forget`; a pass is let go of unscheduled only when those it depends on are through. -/
def Careful (w : World) (keys : List ArchetypeId) (program : PassId → Request) (t : Scheduler V) :
    Action → Prop
  | .create addr => w.Covered keys (program t.count) ∧ (program t.count).changed = [] ∧
      t.eventmap addr = none
  | .expire k => t.stage k = .unscheduled →
      ∀ d ∈ t.pipeline.dependencies k, d ≠ k → t.pending d = false
  | _ => True

/-- Careful runs. -/
abbrev Run (w : World) (keys : List ArchetypeId) (program : PassId → Request)
    (body : PassId → (EntryId → V) → EntryId → V) : Scheduler V → Scheduler V → Prop :=
  Relation.ReflTransGen fun t t' => ∃ a, t.Careful w keys program a ∧
    Step w keys program body t a t'

/-! ## What a step does to the single passes -/

section Fields

variable {t : Scheduler V} {a k : PassId} {addr : Nat} {s : Stage V} {ext : PassExt}

@[simp] theorem stage_setStage_self : (t.setStage k s).stage k = s := Function.update_self ..

theorem stage_setStage_ne (h : a ≠ k) : (t.setStage k s).stage a = t.stage a :=
  Function.update_of_ne h ..

@[simp] theorem pipeline_setStage : (t.setStage k s).pipeline = t.pipeline := rfl

@[simp] theorem address_setStage : (t.setStage k s).address = t.address := rfl

@[simp] theorem eventmap_setStage : (t.setStage k s).eventmap = t.eventmap := rfl

@[simp] theorem stage_signalPass : (t.signalPass k ext).stage = (t.setStage k .signaled).stage :=
  rfl

theorem pending_iff : t.pending k = true ↔
    t.pipeline.live k = true ∧ (t.stage k).isSignaled = false := by
  rw [pending, Bool.and_eq_true, Bool.not_eq_true']

theorem live_of_pending (h : t.pending k = true) : t.pipeline.live k = true := (pending_iff.mp h).1

/-- A stage that does not signal leaves the pass pending. -/
theorem pending_setStage (h : (t.stage k).isSignaled = s.isSignaled) (a : PassId) :
    (t.setStage k s).pending a = t.pending a := by
  by_cases ha : a = k
  · rw [pending, pending, ha, stage_setStage_self, ← h]
    rfl
  · rw [pending, pending, stage_setStage_ne ha]
    rfl

end Fields

end Scheduler

/-! ## The order of the passes that are pending -/

namespace Pipeline

variable {w : World} {keys : List ArchetypeId} {p p' : Pipeline} {pending : PassId → Bool}
  {request : Request} {k : PassId}

/-- What the pipeline records of a new pass. -/
structure Created (p : Pipeline) (request : Request) (vs : List (Visit EntryId))
    (s : Ledger EntryId PassId) (p' : Pipeline) : Prop where
  replayed : Ledger.replay EntryId.isResource (Function.update p.live p.passes.length true)
    p.passes.length vs { entries := p.entries } = s
  live : p'.live = Function.update p.live p.passes.length true
  entries : p'.entries = s.entries
  passes : p'.passes = p.passes ++ [{ request := request, dependencies := s.dependencies }]
  dependencies : p'.dependencies = Function.update p.dependencies p.passes.length s.dependencies
  log : p'.log = Function.update p.log p.passes.length vs

theorem exists_created (h : Sound w keys p) (hc : p.create request = some p') :
    ∃ vs s, Created p request vs s p' := by
  obtain ⟨vs, hvs, -, rfl⟩ := create_spec hc h.noOwner
  refine ⟨vs, _, rfl, rfl, rfl, rfl, ?_, ?_⟩
  · ext k : 1
    by_cases hk : k = p.passes.length
    · simp [Pipeline.dependencies, hk]
    · rw [Function.update_of_ne hk]
      simp only [Pipeline.dependencies, getElem?_concat_ne hk]
  · ext k : 1
    by_cases hk : k = p.passes.length
    · simp [Pipeline.log, hk, hvs]
    · rw [Function.update_of_ne hk]
      simp only [Pipeline.log, getElem?_concat_ne hk]

/-- The pending passes are alive, and those that clash are ordered. Others may be alive too. -/
structure Ordered (w : World) (keys : List ArchetypeId) (p : Pipeline) (pending : PassId → Bool) :
    Prop where
  sound : Sound w keys p
  alive : ∀ a, pending a = true → p.live a = true
  ordered : Ledger.Ordered p.dependencies pending p.log p.entries
  reach : ∀ a b, a < b → pending a = true → Ledger.Conflict (p.log a) (p.log b) →
    Ledger.Reach p.dependencies b a

theorem ordered_initial (w : World) (keys : List ArchetypeId) :
    Ordered w keys (initial w keys) fun _ => true where
  sound := Sound.initial w keys
  alive _ _ := rfl
  ordered := (InOrder.initial w keys).ordered
  reach := (InOrder.initial w keys).reach

theorem Ordered.create (h : Ordered w keys p pending) (hc : p.create request = some p') :
    Ordered w keys p' (Function.update pending p.passes.length true) := by
  obtain ⟨vs, s, hnew⟩ := exists_created h.sound hc
  have hle : ∀ a, Function.update pending p.passes.length true a = true →
      Function.update p.live p.passes.length true a = true := by
    intro a ha
    by_cases hat : a = p.passes.length
    · rw [hat, Function.update_self]
    · rw [Function.update_of_ne hat] at ha ⊢
      exact h.alive a ha
  have hreg := (h.ordered.revive h.sound.fresh h.sound.not_mem_dependencies
    (log_eq_nil le_rfl)).registerAmong hle (Function.update_self ..)
    (dependencies_eq_nil le_rfl) (log_eq_nil le_rfl) EntryId.isResource vs
  rw [hnew.replayed] at hreg
  refine ⟨h.sound.create hc, ?_, ?_, ?_⟩
  · rw [hnew.live]
    exact hle
  · rw [hnew.dependencies, hnew.log, hnew.entries]
    exact hreg.ordered
  · intro a b hab ha hconf
    rw [hnew.log] at hconf
    rcases Nat.lt_trichotomy b p.passes.length with hb | rfl | hb
    · have han : a ≠ p.passes.length := (hab.trans hb).ne
      rw [Function.update_of_ne han] at ha hconf
      rw [Function.update_of_ne hb.ne] at hconf
      apply (h.reach a b hab ha hconf).mono
      intro c
      rw [hnew.dependencies]
      by_cases hc : c = p.passes.length
      · rw [hc, dependencies_eq_nil le_rfl]
        exact List.nil_subset _
      · rw [Function.update_of_ne hc]
        exact List.Subset.refl _
    · rw [Function.update_of_ne hab.ne, Function.update_self] at hconf
      rw [hnew.dependencies]
      exact hreg.reach a hab.ne ha hconf
    · rw [Function.update_of_ne hb.ne', log_eq_nil hb.le] at hconf
      obtain ⟨-, -, v, hv, -⟩ := hconf
      exact absurd hv List.not_mem_nil

/-- A pass is through after those it depends on. -/
theorem Ordered.settle (h : Ordered w keys p pending)
    (hk : ∀ d ∈ p.dependencies k, d ≠ k → pending d = false) :
    Ordered w keys p (Function.update pending k false) := by
  have hold : ∀ a, Function.update pending k false a = true → pending a = true := by
    intro a ha
    by_cases hak : a = k
    · rw [hak, Function.update_self] at ha
      cases ha
    · rwa [Function.update_of_ne hak] at ha
  exact ⟨h.sound, fun a ha => h.alive a (hold a ha), h.ordered.expire hk,
    fun a b hab ha => h.reach a b hab (hold a ha)⟩

/-- The last owner of a pass that is through lets go of it. -/
theorem Ordered.expire (h : Ordered w keys p pending) (hk : pending k = false) :
    Ordered w keys (p.expire k) pending where
  sound := Sound.step (.expire p k) h.sound
  alive a ha := by
    have hak : a ≠ k := by
      rintro rfl
      rw [hk] at ha
      cases ha
    exact (Function.update_of_ne hak ..).trans (h.alive a ha)
  ordered := h.ordered
  reach := h.reach

/-- A pass whose dependencies are through is behind no pending pass it conflicts with. -/
theorem Ordered.not_pending (h : Ordered w keys p pending) {a b : PassId} (hab : a < b)
    (hconf : Ledger.Conflict (p.log a) (p.log b))
    (hb : ∀ d ∈ p.dependencies b, pending d = false) : pending a = false := by
  cases ha : pending a with
  | false => rfl
  | true =>
      rcases Relation.ReflTransGen.cases_head (h.reach a b hab ha hconf) with heq | ⟨d, hd, hda⟩
      · exact absurd heq hab.ne'
      · have hlive := h.ordered.live_of_reach hda ha
        rw [hb d hd] at hlive
        cases hlive

end Pipeline

/-! ## Careful runs -/

namespace Scheduler

variable {V : Type*} {w : World} {keys : List ArchetypeId} {program : PassId → Request}
  {body : PassId → (EntryId → V) → EntryId → V} {t t' : Scheduler V} {a b k : PassId}
  {act : Action}

/-- What holds in every careful run. -/
structure InOrder (w : World) (keys : List ArchetypeId) (program : PassId → Request)
    (t : Scheduler V) : Prop where
  ordered : Pipeline.Ordered w keys t.pipeline t.pending
  requests : ∀ k pass, t.pipeline.passes[k]? = some pass →
    pass.request = program k ∧ w.Covered keys (program k)
  /-- What a function no longer waits for is through. -/
  waits : ∀ k ds, t.stage k = .waiting ds → ds ⊆ t.pipeline.dependencies k ∧
    ∀ d ∈ t.pipeline.dependencies k, d ∉ ds → t.pending d = false
  begun : ∀ k seen, t.stage k = .running seen → ∀ d ∈ t.pipeline.dependencies k,
    t.pending d = false
  /-- A function that waits or runs owns its pass. -/
  owned : ∀ k, t.stage k ≠ .unscheduled → k < t.count ∧
    (t.pipeline.live k = true ∨ t.stage k = .signaled)
  later : ∀ k, t.count ≤ k → t.pipeline.live k = true
  addresses : ∀ a b, a < t.count → b < t.count → t.pipeline.live a = true →
    t.pipeline.live b = true → t.address a = t.address b → a = b
  events : ∀ k < t.count, t.pipeline.live k = true → ∀ ext, t.eventmap (t.address k) = some ext →
    ext.pass = k ∧ ext.signaled = (t.stage k).isSignaled

theorem inOrder_initial (store : EntryId → V) : InOrder w keys program (initial w keys store) where
  ordered := Pipeline.ordered_initial w keys
  requests k pass hk := by simp [initial, Pipeline.initial] at hk
  waits k ds hk := by cases hk
  begun k seen hk := by cases hk
  owned k hk := absurd rfl hk
  later k _ := rfl
  addresses a b ha := absurd ha (Nat.not_lt_zero a)
  events k hk := absurd hk (Nat.not_lt_zero k)

theorem InOrder.create (h : InOrder w keys program t) {addr : Nat} {p : Pipeline}
    (hc : t.pipeline.create (program t.count) = some p)
    (haddr : ∀ k < t.count, t.pipeline.live k = true → t.address k ≠ addr)
    (hcov : w.Covered keys (program t.count)) (hmap : t.eventmap addr = none) :
    InOrder w keys program ({ t with pipeline := p }.setup t.count addr) := by
  obtain ⟨vs, s, hnew⟩ := Pipeline.exists_created h.ordered.sound hc
  have hordered := h.ordered.create hc
  have hcount : p.passes.length = t.count + 1 := by
    rw [hnew.passes, List.length_append]
    rfl
  have hlive : ∀ {k}, k ≠ t.count → p.live k = t.pipeline.live k := fun hk => by
    rw [hnew.live]
    exact Function.update_of_ne hk ..
  have hdeps : ∀ {k}, k ≠ t.count → p.dependencies k = t.pipeline.dependencies k := fun hk => by
    rw [hnew.dependencies]
    exact Function.update_of_ne hk ..
  have hunscheduled : t.stage t.count = .unscheduled := by
    by_contra hne
    exact lt_irrefl _ (h.owned _ hne).1
  have hpending : ({ t with pipeline := p }.setup t.count addr).pending =
      Function.update t.pending t.count true := by
    ext k
    by_cases hk : k = t.count
    · rw [hk, Function.update_self, pending_iff]
      refine ⟨?_, congrArg Stage.isSignaled hunscheduled⟩
      exact (congrFun hnew.live _).trans (Function.update_self ..)
    · rw [Function.update_of_ne hk]
      exact congrArg (· && _) (hlive hk)
  -- the passes that have a stage, and those they wait for, are there already
  have hthrough : ∀ {k d}, d ∈ t.pipeline.dependencies k → t.pending d = false →
      ({ t with pipeline := p }.setup t.count addr).pending d = false := by
    intro k d hd hsettled
    rw [hpending, Function.update_of_ne]
    · exact hsettled
    · rintro rfl
      exact h.ordered.sound.not_mem_dependencies k hd
  constructor
  · rw [hpending]
    exact hordered
  · intro k pass hk
    by_cases hkt : k = t.count
    · have hlast : p.passes[k]? = some ⟨program t.count, s.dependencies⟩ := by
        rw [hnew.passes, hkt]
        exact List.getElem?_concat_length
      obtain rfl := Option.some.inj (hk.symm.trans hlast)
      rw [hkt]
      exact ⟨rfl, hcov⟩
    · apply h.requests k pass
      rw [← Pipeline.getElem?_concat_ne (a := ⟨program t.count, s.dependencies⟩) hkt]
      exact (congrArg (·[k]?) hnew.passes).symm.trans hk
  · intro k ds hk
    have hstage : t.stage k = .waiting ds := hk
    have hkt : k < t.count := (h.owned k (by simp [hstage])).1
    obtain ⟨hsub, hrest⟩ := h.waits k ds hk
    show ds ⊆ p.dependencies k ∧ ∀ d ∈ p.dependencies k, d ∉ ds → _
    rw [hdeps hkt.ne]
    exact ⟨hsub, fun d hd hnot => hthrough hd (hrest d hd hnot)⟩
  · intro k seen hk
    have hstage : t.stage k = .running seen := hk
    have hkt : k < t.count := (h.owned k (by simp [hstage])).1
    show ∀ d ∈ p.dependencies k, _
    rw [hdeps hkt.ne]
    exact fun d hd => hthrough hd (h.begun k seen hk d hd)
  · intro k hk
    obtain ⟨hkt, hown⟩ := h.owned k hk
    refine ⟨hkt.trans (Nat.lt_of_lt_of_eq (Nat.lt_succ_self _) hcount.symm), ?_⟩
    exact hown.imp_left (hlive hkt.ne).trans
  · intro k hk
    have hk : t.count + 1 ≤ k := hcount ▸ hk
    exact (hlive (by omega)).trans (h.later k (by omega))
  · intro a b ha hb hla hlb hab
    have ha : a < t.count + 1 := hcount ▸ ha
    have hb : b < t.count + 1 := hcount ▸ hb
    change Function.update t.address t.count addr a = Function.update t.address t.count addr b at hab
    by_cases hat : a = t.count
    · by_cases hbt : b = t.count
      · rw [hat, hbt]
      · rw [hat, Function.update_self, Function.update_of_ne hbt] at hab
        exact absurd hab.symm (haddr b (by omega) ((hlive hbt).symm.trans hlb))
    · rw [Function.update_of_ne hat] at hab
      by_cases hbt : b = t.count
      · rw [hbt, Function.update_self] at hab
        exact absurd hab (haddr a (by omega) ((hlive hat).symm.trans hla))
      · rw [Function.update_of_ne hbt] at hab
        exact h.addresses a b (by omega) (by omega) ((hlive hat).symm.trans hla)
          ((hlive hbt).symm.trans hlb) hab
  · intro k hk hlk ext hext
    have hk : k < t.count + 1 := hcount ▸ hk
    change Function.update t.eventmap addr (some ((t.eventmap addr).getD { pass := t.count }))
      (Function.update t.address t.count addr k) = some ext at hext
    by_cases hkt : k = t.count
    · rw [hkt, Function.update_self, Function.update_self, hmap] at hext
      rw [hkt, ← Option.some.inj hext]
      exact ⟨rfl, (congrArg Stage.isSignaled hunscheduled).symm⟩
    · have hkl := (hlive hkt).symm.trans hlk
      rw [Function.update_of_ne hkt, Function.update_of_ne (haddr k (by omega) hkl)] at hext
      exact h.events k (by omega) hkl ext hext

/-- A function goes on, and does not signal yet. -/
theorem InOrder.setStage (h : InOrder w keys program t) {stage : Stage V} (hk : k < t.count)
    (hlive : t.pipeline.live k = true) (hold : (t.stage k).isSignaled = false)
    (hnew : stage.isSignaled = false)
    (hwaits : ∀ ds, stage = .waiting ds → ds ⊆ t.pipeline.dependencies k ∧
      ∀ d ∈ t.pipeline.dependencies k, d ∉ ds → t.pending d = false)
    (hbegun : ∀ seen, stage = .running seen → ∀ d ∈ t.pipeline.dependencies k,
      t.pending d = false) : InOrder w keys program (t.setStage k stage) := by
  have hpending : (t.setStage k stage).pending = t.pending :=
    funext (pending_setStage (hold.trans hnew.symm))
  constructor
  · rw [hpending]
    exact h.ordered
  · exact h.requests
  · intro a ds ha
    rw [hpending]
    by_cases hak : a = k
    · rw [hak, stage_setStage_self] at ha
      rw [hak]
      exact hwaits ds ha
    · rw [stage_setStage_ne hak] at ha
      exact h.waits a ds ha
  · intro a seen ha
    rw [hpending]
    by_cases hak : a = k
    · rw [hak, stage_setStage_self] at ha
      rw [hak]
      exact hbegun seen ha
    · rw [stage_setStage_ne hak] at ha
      exact h.begun a seen ha
  · intro a ha
    by_cases hak : a = k
    · rw [hak]
      exact ⟨hk, Or.inl hlive⟩
    · rw [stage_setStage_ne hak] at ha ⊢
      exact h.owned a ha
  · exact h.later
  · exact h.addresses
  · intro a hat hal ext hext
    obtain ⟨hpass, hsignaled⟩ := h.events a hat hal ext hext
    refine ⟨hpass, hsignaled.trans ?_⟩
    by_cases hak : a = k
    · rw [hak, stage_setStage_self, hold, hnew]
    · rw [stage_setStage_ne hak]

/-- A function that waits, runs or is not scheduled yet has not signalled. -/
theorem InOrder.live (h : InOrder w keys program t) (hstage : t.stage k ≠ .unscheduled)
    (hnot : t.stage k ≠ .signaled) : k < t.count ∧ t.pipeline.live k = true := by
  obtain ⟨hk, hlive | hsignaled⟩ := h.owned k hstage
  · exact ⟨hk, hlive⟩
  · exact absurd hsignaled hnot

/-- One dependency less to wait for. -/
theorem InOrder.next (h : InOrder w keys program t) {d : PassId} {ds : List PassId}
    (hwait : t.stage k = .waiting (d :: ds)) (hd : t.pending d = false) :
    InOrder w keys program (t.setStage k (.waiting ds)) := by
  obtain ⟨hk, hlive⟩ := h.live (k := k) (by simp [hwait]) (by simp [hwait])
  obtain ⟨hsub, hrest⟩ := h.waits k _ hwait
  apply h.setStage hk hlive (by rw [hwait]; rfl) rfl
  · rintro ds' heq
    obtain rfl := Stage.waiting.inj heq
    refine ⟨fun d' hd' => hsub (List.mem_cons_of_mem d hd'), fun d' hd' hnot => ?_⟩
    by_cases hdd : d' = d
    · rw [hdd]
      exact hd
    · exact hrest d' hd' (by simp [hdd, hnot])
  · rintro seen heq
    cases heq

theorem InOrder.signal (h : InOrder w keys program t) {seen : EntryId → V} {ext : PassExt}
    (hrun : t.stage k = .running seen) (hext : t.eventmap (t.address k) = some ext) :
    InOrder w keys program (t.signalPass k ext) := by
  obtain ⟨hk, hlive⟩ := h.live (k := k) (by simp [hrun]) (by simp [hrun])
  have hpending : (t.signalPass k ext).pending = Function.update t.pending k false := by
    ext a
    by_cases hak : a = k
    · rw [hak, Function.update_self, pending, stage_signalPass, stage_setStage_self]
      exact Bool.and_false _
    · rw [Function.update_of_ne hak, pending, pending, stage_signalPass, stage_setStage_ne hak]
      rfl
  have hthrough : ∀ d, t.pending d = false → (t.signalPass k ext).pending d = false := by
    intro d hd
    rw [hpending]
    by_cases hdk : d = k
    · rw [hdk, Function.update_self]
    · rwa [Function.update_of_ne hdk]
  constructor
  · rw [hpending]
    exact h.ordered.settle fun d hd _ => h.begun k seen hrun d hd
  · exact h.requests
  · intro a ds ha
    have hak : a ≠ k := by
      rintro rfl
      rw [stage_signalPass, stage_setStage_self] at ha
      cases ha
    rw [stage_signalPass, stage_setStage_ne hak] at ha
    obtain ⟨hsub, hrest⟩ := h.waits a ds ha
    exact ⟨hsub, fun d hd hnot => hthrough d (hrest d hd hnot)⟩
  · intro a seen' ha
    have hak : a ≠ k := by
      rintro rfl
      rw [stage_signalPass, stage_setStage_self] at ha
      cases ha
    rw [stage_signalPass, stage_setStage_ne hak] at ha
    exact fun d hd => hthrough d (h.begun a seen' ha d hd)
  · intro a ha
    rw [stage_signalPass] at ha ⊢
    by_cases hak : a = k
    · rw [hak, stage_setStage_self]
      exact ⟨hk, Or.inr rfl⟩
    · rw [stage_setStage_ne hak] at ha ⊢
      exact h.owned a ha
  · exact h.later
  · exact h.addresses
  · intro a hat hal ext' hext'
    change Function.update t.eventmap (t.address k) (some { ext with signaled := true })
      (t.address a) = some ext' at hext'
    rw [stage_signalPass]
    by_cases hak : a = k
    · rw [hak, Function.update_self] at hext'
      rw [hak, stage_setStage_self, ← Option.some.inj hext']
      exact ⟨(h.events k hk hlive ext hext).1, rfl⟩
    · rw [Function.update_of_ne fun heq => hak (h.addresses a k hat hk hal hlive heq)] at hext'
      rw [stage_setStage_ne hak]
      exact h.events a hat hal ext' hext'

theorem InOrder.expire (h : InOrder w keys program t) (hk : k < t.count)
    (hstage : t.stage k = .unscheduled ∨ t.stage k = .signaled)
    (hdeps : t.stage k = .unscheduled → ∀ d ∈ t.pipeline.dependencies k, d ≠ k →
      t.pending d = false) :
    InOrder w keys program { t with pipeline := t.pipeline.expire k } := by
  have hpending : ({ t with pipeline := t.pipeline.expire k } : Scheduler V).pending =
      Function.update t.pending k false := by
    ext a
    by_cases hak : a = k
    · have hdead : (t.pipeline.expire k).live k = false := Function.update_self ..
      rw [hak, Function.update_self, pending, hdead, Bool.false_and]
    · rw [Function.update_of_ne hak]
      exact congrArg (· && _) (Function.update_of_ne hak ..)
  have hthrough : ∀ d, t.pending d = false →
      ({ t with pipeline := t.pipeline.expire k } : Scheduler V).pending d = false := by
    intro d hd
    rw [hpending]
    by_cases hdk : d = k
    · rw [hdk, Function.update_self]
    · rwa [Function.update_of_ne hdk]
  have hlive : ∀ a, (t.pipeline.expire k).live a = true → a ≠ k ∧ t.pipeline.live a = true := by
    intro a ha
    by_cases hak : a = k
    · rw [hak] at ha
      exact absurd ((Function.update_self ..).symm.trans ha) Bool.false_ne_true
    · exact ⟨hak, (Function.update_of_ne hak ..).symm.trans ha⟩
  constructor
  · rw [hpending]
    apply Pipeline.Ordered.expire _ (Function.update_self ..)
    rcases hstage with hstage | hstage
    · exact h.ordered.settle (hdeps hstage)
    · have hsame : Function.update t.pending k false = t.pending := by
        rw [Function.update_eq_self_iff, pending, hstage]
        exact (Bool.and_false _).symm
      rw [hsame]
      exact h.ordered
  · exact h.requests
  · intro a ds ha
    obtain ⟨hsub, hrest⟩ := h.waits a ds ha
    exact ⟨hsub, fun d hd hnot => hthrough d (hrest d hd hnot)⟩
  · intro a seen ha
    exact fun d hd => hthrough d (h.begun a seen ha d hd)
  · intro a ha
    obtain ⟨hat, hown⟩ := h.owned a ha
    refine ⟨hat, ?_⟩
    by_cases hak : a = k
    · rw [hak] at ha ⊢
      exact Or.inr (hstage.resolve_left ha)
    · exact hown.imp_left (Function.update_of_ne hak ..).trans
  · intro a ha
    have hak : a ≠ k := by
      rintro rfl
      exact absurd hk (not_lt.mpr ha)
    exact (Function.update_of_ne hak ..).trans (h.later a ha)
  · intro a b ha hb hla hlb hab
    exact h.addresses a b ha hb (hlive a hla).2 (hlive b hlb).2 hab
  · intro a hat hal ext hext
    exact h.events a hat (hlive a hal).2 ext hext

/-- A map with fewer events. -/
theorem InOrder.setEvents (h : InOrder w keys program t) {events : Nat → Option PassExt}
    (hsub : ∀ addr ext, events addr = some ext → t.eventmap addr = some ext) :
    InOrder w keys program { t with eventmap := events } where
  ordered := h.ordered
  requests := h.requests
  waits := h.waits
  begun := h.begun
  owned := h.owned
  later := h.later
  addresses := h.addresses
  events k hk hlive ext hext := h.events k hk hlive ext (hsub _ _ hext)

/-- A pass depends on passes that were created no later. -/
theorem InOrder.le_of_mem (h : InOrder w keys program t) {d : PassId}
    (hd : d ∈ t.pipeline.dependencies k) : d ≤ k ∧ k < t.count := by
  unfold Pipeline.dependencies at hd
  split at hd
  · rename_i pass hk
    obtain ⟨vs, -, hle, -⟩ := h.ordered.sound.passes k pass hk
    exact ⟨hle d hd, (List.getElem?_eq_some_iff.mp hk).1⟩
  · cases hd

/-- The event of a pass that is still alive was signalled by its function. -/
theorem InOrder.not_pending_of_event (h : InOrder w keys program t) {d : PassId} {ext : PassExt}
    (hd : d < t.count) (hlive : t.pipeline.live d = true)
    (hext : t.eventmap (t.address d) = some ext) (hsignaled : ext.signaled = true) :
    t.pending d = false := by
  have hstage := (h.events d hd hlive ext hext).2
  rw [hsignaled] at hstage
  rw [pending, ← hstage]
  exact Bool.and_false _

theorem InOrder.step (hc : t.Careful w keys program act) (hs : Step w keys program body t act t')
    (h : InOrder w keys program t) : InOrder w keys program t' := by
  cases hs with
  | create addr p hp haddr => exact h.create hp haddr hc.1 hc.2.2
  | schedule k hk hlive hstage =>
      apply h.setStage hk hlive (by rw [hstage]; rfl) rfl
      · intro ds heq
        rw [← Stage.waiting.inj heq]
        exact ⟨List.Subset.refl _, fun d hd hnot => absurd hd hnot⟩
      · intro seen heq
        cases heq
  | expired k d ds hwait hdead =>
      apply h.next hwait
      rw [pending, hdead]
      rfl
  | waited k d ds ext hwait hlive hext hsignaled =>
      obtain ⟨hle, hk⟩ := h.le_of_mem ((h.waits k _ hwait).1 List.mem_cons_self)
      exact h.next hwait (h.not_pending_of_event (hle.trans_lt hk) hlive hext hsignaled)
  | start k hwait =>
      obtain ⟨hk, hlive⟩ := h.live (k := k) (by simp [hwait]) (by simp [hwait])
      apply h.setStage hk hlive (by rw [hwait]; rfl) rfl
      · intro ds heq
        cases heq
      · intro seen _ d hd
        exact (h.waits k [] hwait).2 d hd List.not_mem_nil
  | write k x seen hrun hx =>
      exact ⟨h.ordered, h.requests, h.waits, h.begun, h.owned, h.later, h.addresses, h.events⟩
  | signal k seen ext hrun hall hext => exact h.signal hrun hext
  | expire k hk hstage => exact h.expire hk hstage hc
  | forget =>
      apply h.setEvents
      intro addr ext hext
      exact (Option.filter_eq_some_iff.mp hext).1
  | waitAll hall =>
      apply h.setEvents
      intro addr ext hext
      cases hext

end Scheduler

end Dots

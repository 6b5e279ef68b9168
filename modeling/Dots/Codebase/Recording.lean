import Dots.Codebase.Commands
import Dots.Library.Filling

/-!
# What a command buffer has recorded

Each `allocate` and `instantiate` gave out a handle of its own, whatever was recorded between
them and by whichever thread. The handle is in the entities of the local, where the command
refers to it.
-/

namespace Dots

open Library

/-- A recorded command that makes an entity. -/
inductive Creation
  | allocate (type : EntityType)
  | instantiate (source : Entity)

namespace Local

variable {l l' : Local} {t e : Entity} {ts : List Entity} {es : List Nat}

/-- What the commands that make entities refer to. -/
def slots (l : Local) : List Nat :=
  l.allocates.map CmdAllocate.e ++ l.instantiates.map CmdInstantiate.e

def handle (l : Local) (e : Nat) : Entity := l.entities.getD e ⟨0⟩

def handles (l : Local) : List Entity := l.slots.map l.handle

/-- The recorded types, with the handles that stand for their entities. -/
def allocations (l : Local) : List (Entity × Creation) :=
  l.allocates.map fun cmd => (l.handle cmd.e, .allocate (cmd.type.read l.scratch))

/-- The recorded sources. -/
def instances (l : Local) : List (Entity × Creation) :=
  l.instantiates.map fun cmd => (l.handle cmd.e, .instantiate cmd.source)

theorem map_fst_creations (l : Local) :
    l.allocations.map Prod.fst ++ l.instances.map Prod.fst = l.handles := by
  simp only [allocations, instances, handles, slots, List.map_append, List.map_map]
  rfl

def Placed (l : Local) : Prop := ∀ e ∈ l.slots, e < l.entities.length

theorem placed_empty : ({} : Local).Placed := by simp [Placed, slots]

theorem Placed.getElem? (h : l.Placed) {e : Nat} (he : e ∈ l.slots) :
    l.entities[e]? = some (l.handle e) := by
  rw [handle, List.getD_eq_getElem?_getD, List.getElem?_eq_getElem (h e he), Option.getD_some]

/-! ## One command -/

/-- `ts` were appended to the entities, and `es` are the new references to them. -/
structure Appended (l : Local) (ts : List Entity) (es : List Nat) (l' : Local) : Prop where
  entities : l'.entities = l.entities ++ ts
  slots : l'.slots.Perm (l.slots ++ es)

theorem Appended.of_eq (he : l'.entities = l.entities)
    (ha : l'.allocates.map CmdAllocate.e = l.allocates.map CmdAllocate.e)
    (hi : l'.instantiates = l.instantiates) : Appended l [] [] l' where
  entities := by rw [he, List.append_nil]
  slots := by rw [Local.slots, Local.slots, ha, hi, List.append_nil]

theorem Appended.handle (h : Appended l ts es l') {e : Nat} (he : e < l.entities.length) :
    l'.handle e = l.handle e := by
  rw [Local.handle, Local.handle, List.getD_eq_getElem?_getD, List.getD_eq_getElem?_getD,
    h.entities, List.getElem?_append_left he]

theorem Appended.handles (h : Appended l ts es l') (hl : l.Placed) :
    (l'.handles : Multiset Entity) = l.handles + (es.map l'.handle : List Entity) := by
  have hold : l.slots.map l'.handle = l.handles :=
    List.map_congr_left fun e he => h.handle (hl e he)
  rw [Local.handles, ← hold, Multiset.coe_add, ← List.map_append]
  exact Multiset.coe_eq_coe.mpr (h.slots.map _)

theorem Appended.placed (h : Appended l ts es l') (hl : l.Placed)
    (hes : ∀ e ∈ es, e < l'.entities.length) : l'.Placed := by
  intro e he
  rcases List.mem_append.mp (h.slots.mem_iff.mp he) with he | he
  · have hlt := hl e he
    rw [h.entities, List.length_append]
    omega
  · exact hes e he

theorem push_eq {words : Nat} (hs : l.push words = some l') :
    l' = { l with stored := l.stored + 4 * words } := by
  rw [push] at hs
  split_ifs at hs
  exact (Option.some.inj hs).symm

theorem current_begin (hlen : l.entities.length < 2 ^ 64) (t : Entity) :
    (l.begin_ t).current = l.entities.length := by
  simp only [current, begin_, List.length_append, List.length_singleton]
  omega

theorem appended_begin (l : Local) (t : Entity) : Appended l [t] [] (l.begin_ t) where
  entities := rfl
  slots := by simp [slots, begin_]

theorem appended_allocate {type : EntityType} (hlen : l.entities.length < 2 ^ 64)
    (hs : l.allocate t type = some l') : Appended l [t] [l.entities.length] l' := by
  simp only [allocate, Option.bind_eq_bind, Option.bind_eq_some_iff] at hs
  obtain ⟨l₁, hpush, hs⟩ := hs
  obtain rfl := push_eq hpush
  obtain rfl := Option.some.inj hs
  refine ⟨rfl, ?_⟩
  have hcurrent :=
    current_begin (l := { l with stored := l.stored + 4 * (TypeRef.storage type).size }) hlen t
  simp only [slots, begin_, List.map_append, List.map_cons, List.map_nil] at hcurrent ⊢
  rw [hcurrent, List.append_assoc, List.append_assoc]
  exact List.perm_append_comm.append_left _

theorem appended_instantiate (hlen : l.entities.length < 2 ^ 64) (source : Entity) :
    Appended l [t] [l.entities.length] (l.instantiate t source) := by
  refine ⟨rfl, ?_⟩
  have hcurrent := current_begin hlen t
  simp only [slots, instantiate, begin_, List.map_append, List.map_cons, List.map_nil] at hcurrent ⊢
  rw [hcurrent, List.append_assoc]

/-- Folding a cast into an allocation changes its type alone. -/
theorem appended_cast {diff : TypeDiff} (hs : l.cast diff = some l') : Appended l [] [] l' := by
  rw [cast] at hs
  split at hs
  · simp only [Option.bind_eq_bind, Option.bind_eq_some_iff] at hs
    obtain ⟨⟨m, newMerged⟩, -, l₁, hpush, hs⟩ := hs
    obtain rfl := push_eq hpush
    obtain rfl := Option.some.inj hs
    exact .of_eq rfl rfl rfl
  · split at hs
    · rename_i last hlast
      simp only [Option.bind_eq_bind, Option.bind_eq_some_iff] at hs
      obtain ⟨⟨m, shrinked⟩, -, ⟨m', extended⟩, -, l₁, hpush, hs⟩ := hs
      obtain rfl := push_eq hpush
      obtain rfl := Option.some.inj hs
      refine .of_eq rfl ?_ rfl
      obtain ⟨hmem, -⟩ := Option.filter_eq_some_iff.mp hlast
      conv_rhs => rw [← List.dropLast_append_getLast? last hmem]
      simp only [List.map_append, List.map_cons, List.map_nil]
    · simp only [Option.bind_eq_bind, Option.bind_eq_some_iff] at hs
      obtain ⟨l₁, hpush, hs⟩ := hs
      obtain rfl := push_eq hpush
      obtain rfl := Option.some.inj hs
      exact .of_eq rfl rfl rfl

end Local

/-! ## The locals -/

def Command.creates : Command → Bool
  | .allocate _ | .instantiate _ => true
  | _ => false

namespace CommandBuffer

variable {b b' : CommandBuffer} {l l' : Local} {i : Nat} {c : Command}

/-- The recorded commands that make entities, in the order in which `execute` goes through
them. -/
def creations (b : CommandBuffer) : List (Entity × Creation) :=
  b.locals.flatMap Local.allocations ++ b.locals.flatMap Local.instances

theorem map_fst_creations (b : CommandBuffer) :
    (b.creations.map Prod.fst : Multiset Entity) =
      (b.locals.map fun l => (l.handles : Multiset Entity)).sum := by
  have hparts : (fun l : Local => (l.handles : Multiset Entity)) = fun l =>
      (l.allocations.map Prod.fst : Multiset Entity) + (l.instances.map Prod.fst : List Entity) := by
    funext l
    rw [Multiset.coe_add, Local.map_fst_creations]
  rw [hparts, List.sum_map_add, sum_flatMap_coe, sum_flatMap_coe, Multiset.coe_add, creations,
    List.map_append, List.map_flatMap, List.map_flatMap]

theorem getLocal_cases (b : CommandBuffer) (i : Nat) :
    b.getLocal i ∈ b.locals ∨ b.getLocal i = {} := by
  rw [getLocal, List.getD_eq_getElem?_getD]
  cases h : b.locals[i]? with
  | none => exact Or.inr rfl
  | some l => exact Or.inl (List.mem_of_getElem? h)

theorem mem_setLocal (h : l' ∈ (b.setLocal i l).locals) : l' = l ∨ l' ∈ b.locals ∨ l' = {} := by
  rcases List.mem_or_eq_of_mem_set h with h | rfl
  · rcases List.mem_append.mp h with h | h
    · exact Or.inr (Or.inl h)
    · exact Or.inr (Or.inr (List.eq_of_mem_replicate h))
  · exact Or.inl rfl

theorem sum_setLocal {M : Type*} [AddCommMonoid M] (f : Local → M) (hf : f {} = 0) :
    ((b.setLocal i l).locals.map f).sum + f (b.getLocal i) = (b.locals.map f).sum + f l := by
  have hget : (b.locals ++ List.replicate (i + 1 - b.locals.length) ({} : Local))[i]? =
      some (b.getLocal i) := by
    rw [getLocal, List.getD_eq_getElem?_getD]
    by_cases hi : i < b.locals.length
    · rw [List.getElem?_append_left hi, List.getElem?_eq_getElem hi, Option.getD_some]
    · rw [List.getElem?_append_right (by omega), List.getElem?_replicate, if_pos (by omega),
        List.getElem?_eq_none (by omega), Option.getD_none]
  rw [setLocal, sum_map_set f hget, List.map_append, List.sum_append, List.map_replicate,
    List.sum_replicate, hf, nsmul_zero, add_zero]

/-- The handle a command gives out, or `begin` is given. -/
def given (b : CommandBuffer) : Command → List Entity
  | .allocate _ | .instantiate _ => [b.nextHandle.2]
  | .begin_ e => [e]
  | _ => []

/-- A command appends to the local of its thread. -/
theorem record_spec (hlen : (b.getLocal i).entities.length < 2 ^ 64)
    (hs : b.record i c = some b') : ∃ l',
    b' = (if c.creates then b.nextHandle.1 else b).setLocal i l' ∧
      (b.getLocal i).Appended (b.given c)
        (if c.creates then [(b.getLocal i).entities.length] else []) l' := by
  cases c with
  | allocate type =>
      simp only [record, Option.bind_eq_bind, Option.bind_eq_some_iff] at hs
      obtain ⟨l', hl', hs⟩ := hs
      exact ⟨l', (Option.some.inj hs).symm, Local.appended_allocate hlen hl'⟩
  | instantiate source =>
      exact ⟨_, (Option.some.inj hs).symm, Local.appended_instantiate hlen source⟩
  | begin_ e => exact ⟨_, (Option.some.inj hs).symm, Local.appended_begin _ e⟩
  | cast diff =>
      simp only [record, Option.bind_eq_bind, Option.bind_eq_some_iff] at hs
      obtain ⟨l', hl', hs⟩ := hs
      exact ⟨l', (Option.some.inj hs).symm, Local.appended_cast hl'⟩
  | destroy e => exact ⟨_, (Option.some.inj hs).symm, .of_eq rfl rfl rfl⟩

/-! ## All commands -/

/-- How many commands make an entity. -/
def creating (cmds : List (Nat × Command)) : Nat := cmds.countP fun c => c.2.creates

/-- The handles given out so far, by the number of their command. -/
def numbered (n : Nat) : Multiset Entity :=
  (Multiset.range n).map fun k => Entity.makeTransient (k % 2 ^ 32)

/-- What holds of a buffer while it is recorded. -/
structure Recorded (cmds : List (Nat × Command)) (b : CommandBuffer) : Prop where
  counter : b.allocates = creating cmds % 2 ^ 32
  placed : ∀ l ∈ b.locals, l.Placed
  short : ∀ l ∈ b.locals, l.entities.length ≤ cmds.length
  handles : (b.locals.map fun l => (l.handles : Multiset Entity)).sum = numbered (creating cmds)
  entities : ∀ l ∈ b.locals, ∀ t ∈ l.entities, t ∈ numbered (creating cmds) ∨
    ∃ i, (i, Command.begin_ t) ∈ cmds

theorem recorded_nil : Recorded [] {} where
  counter := rfl
  placed := by simp
  short := by simp
  handles := rfl
  entities := by simp

theorem numbered_succ (n : Nat) :
    numbered (n + 1) = numbered n + {Entity.makeTransient (n % 2 ^ 32)} := by
  rw [numbered, Multiset.range_succ, Multiset.map_cons, ← Multiset.singleton_add, add_comm]
  rfl

theorem creating_append (cmds : List (Nat × Command)) (i : Nat) (c : Command) :
    creating (cmds ++ [(i, c)]) = creating cmds + if c.creates then 1 else 0 := by
  rw [creating, List.countP_append, List.countP_singleton]
  rfl

/-- The handles that are recorded once `l'` replaces the local of the thread. -/
theorem handles_setLocal {ts : List Entity} {es : List Nat} (hl : (b.getLocal i).Placed)
    (happ : (b.getLocal i).Appended ts es l') :
    ((b.setLocal i l').locals.map fun l => (l.handles : Multiset Entity)).sum =
      (b.locals.map fun l => (l.handles : Multiset Entity)).sum +
        (es.map l'.handle : List Entity) := by
  have hsum := sum_setLocal (b := b) (i := i) (l := l')
    (fun l => (l.handles : Multiset Entity)) rfl
  rw [happ.handles hl, add_comm ((b.getLocal i).handles : Multiset Entity), ← add_assoc] at hsum
  exact add_right_cancel hsum

theorem counter_record {cmds : List (Nat × Command)} (h : b.allocates = creating cmds % 2 ^ 32) :
    (if c.creates then b.nextHandle.1 else b).allocates =
      creating (cmds ++ [(i, c)]) % 2 ^ 32 := by
  rw [creating_append]
  split_ifs
  · simp only [nextHandle, h]
    omega
  · exact h

/-- One more command. -/
theorem Recorded.record {cmds : List (Nat × Command)} (h : Recorded cmds b)
    (hlen : cmds.length < 2 ^ 64) (hs : b.record i c = some b') :
    Recorded (cmds ++ [(i, c)]) b' := by
  have hl : (b.getLocal i).Placed ∧ (b.getLocal i).entities.length ≤ cmds.length ∧
      ∀ t ∈ (b.getLocal i).entities, t ∈ numbered (creating cmds) ∨
        ∃ i, (i, Command.begin_ t) ∈ cmds := by
    rcases b.getLocal_cases i with hmem | hempty
    · exact ⟨h.placed _ hmem, h.short _ hmem, h.entities _ hmem⟩
    · rw [hempty]
      exact ⟨Local.placed_empty, Nat.zero_le _, by simp⟩
  obtain ⟨hplaced, hshort, hentities⟩ := hl
  obtain ⟨l', rfl, happ⟩ := record_spec (hshort.trans_lt hlen) hs
  have hlocals : ((if c.creates then b.nextHandle.1 else b).setLocal i l').locals =
      (b.setLocal i l').locals := by
    split_ifs <;> rfl
  -- what the command hands out
  have hlast : c.creates = true → b.given c = [Entity.makeTransient (creating cmds % 2 ^ 32)] := by
    cases c <;> simp [Command.creates, given, nextHandle, h.counter]
  have hes : ∀ e ∈ if c.creates then [(b.getLocal i).entities.length] else [],
      e < l'.entities.length := by
    intro e he
    split_ifs at he with hc
    · rw [happ.entities, hlast hc, List.mem_singleton.mp he]
      simp
    · simp at he
  have hgrown : (b.given c).length ≤ 1 := by
    cases c <;> simp [given]
  constructor
  · exact counter_record h.counter
  · intro l hl
    rcases mem_setLocal (hlocals ▸ hl) with rfl | hl | rfl
    · exact happ.placed hplaced hes
    · exact h.placed l hl
    · exact Local.placed_empty
  · intro l hl
    rw [List.length_append, List.length_singleton]
    rcases mem_setLocal (hlocals ▸ hl) with rfl | hl | rfl
    · rw [happ.entities, List.length_append]
      omega
    · exact (h.short l hl).trans (Nat.le_succ _)
    · exact Nat.zero_le _
  · rw [hlocals, handles_setLocal hplaced happ, h.handles, creating_append]
    split_ifs with hc
    · rw [numbered_succ, List.map_singleton]
      congr 2
      rw [Local.handle, happ.entities, hlast hc]
      simp
    · simp
  · have hgrow : ∀ t ∈ numbered (creating cmds), t ∈ numbered (creating (cmds ++ [(i, c)])) := by
      intro t ht
      rw [creating_append]
      split_ifs
      · rw [numbered_succ]
        exact Multiset.mem_add.mpr (Or.inl ht)
      · exact ht
    have holder : ∀ t, (t ∈ numbered (creating cmds) ∨ ∃ i, (i, Command.begin_ t) ∈ cmds) →
        t ∈ numbered (creating (cmds ++ [(i, c)])) ∨
          ∃ j, (j, Command.begin_ t) ∈ cmds ++ [(i, c)] :=
      fun t ht => ht.imp (hgrow t) fun ⟨j, hj⟩ => ⟨j, List.mem_append_left _ hj⟩
    intro l hl t ht
    rcases mem_setLocal (hlocals ▸ hl) with rfl | hl | rfl
    · rw [happ.entities] at ht
      rcases List.mem_append.mp ht with ht | ht
      · exact holder t (hentities t ht)
      · cases hc : c.creates with
        | true =>
            rw [hlast hc] at ht
            rw [List.mem_singleton.mp ht, creating_append, if_pos hc, numbered_succ]
            exact Or.inl (Multiset.mem_add.mpr (Or.inr (Multiset.mem_singleton_self _)))
        | false =>
            cases c with
            | begin_ e =>
                obtain rfl := List.mem_singleton.mp ht
                exact Or.inr ⟨i, List.mem_append_right _ (List.mem_singleton_self _)⟩
            | allocate type => simp [Command.creates] at hc
            | instantiate source => simp [Command.creates] at hc
            | cast diff => simp [given] at ht
            | destroy e => simp [given] at ht
    · exact holder t (h.entities l hl t ht)
    · simp at ht

theorem recorded_recordAll {cmds : List (Nat × Command)} (hlen : cmds.length ≤ 2 ^ 64)
    (hs : recordAll cmds = some b) : Recorded cmds b := by
  induction cmds using List.reverseRecOn generalizing b with
  | nil =>
      obtain rfl := Option.some.inj hs
      exact recorded_nil
  | append_singleton cmds c ih =>
      rw [List.length_append, List.length_singleton] at hlen
      simp only [recordAll, List.foldlM_append, List.foldlM_cons, List.foldlM_nil,
        Option.bind_eq_bind, Option.bind_eq_some_iff] at hs
      obtain ⟨b₁, hs₁, b₂, hs₂, hs⟩ := hs
      obtain rfl := Option.some.inj hs
      exact (ih (by omega) hs₁).record (by omega) hs₂

/-! ## The handles -/

/-- Up to `2 ^ 24` handles differ in their ids. -/
theorem Recorded.ids {cmds : List (Nat × Command)} (h : Recorded cmds b)
    (hfew : b.creations.length ≤ 2 ^ 24) :
    b.allocates = b.creations.length ∧ (b.creations.map fun x => x.1.id).Nodup ∧
      ∀ x ∈ b.creations, x.1.id < b.allocates := by
  have hhandles : (b.creations.map Prod.fst : Multiset Entity) = numbered (creating cmds) :=
    b.map_fst_creations.trans h.handles
  have hcount : b.creations.length = creating cmds := by
    have hcard := congrArg Multiset.card hhandles
    simpa [numbered] using hcard
  have hid : ∀ k < creating cmds, (Entity.makeTransient (k % 2 ^ 32)).id = k := by
    intro k hk
    simp only [Entity.id, Entity.makeTransient, Entity.make]
    omega
  have hids : (b.creations.map fun x => x.1.id : Multiset Nat) =
      Multiset.range (creating cmds) := by
    have hmap := congrArg (Multiset.map Entity.id) hhandles
    rw [Multiset.map_coe, List.map_map, numbered, Multiset.map_map] at hmap
    calc (b.creations.map fun x => x.1.id : Multiset Nat)
      _ = (Multiset.range (creating cmds)).map
          (Entity.id ∘ fun k => Entity.makeTransient (k % 2 ^ 32)) := hmap
      _ = (Multiset.range (creating cmds)).map fun k => k :=
          Multiset.map_congr rfl fun k hk => hid k (Multiset.mem_range.mp hk)
      _ = Multiset.range (creating cmds) := Multiset.map_id' _
  have hcounter : b.allocates = creating cmds := by
    rw [h.counter]
    omega
  refine ⟨hcounter.trans hcount.symm, ?_, ?_⟩
  · rw [← Multiset.coe_nodup, hids]
    exact Multiset.nodup_range _
  · intro x hx
    have hmem : x.1.id ∈ (b.creations.map fun x => x.1.id : Multiset Nat) :=
      Multiset.mem_coe.mpr (List.mem_map_of_mem hx)
    rw [hids, Multiset.mem_range] at hmem
    rwa [hcounter]

/-- Where all handles differ there are no more. -/
theorem Recorded.few {cmds : List (Nat × Command)} (h : Recorded cmds b)
    (hdiffer : (b.creations.map Prod.fst).Nodup) : b.creations.length ≤ 2 ^ 24 := by
  have hhandles : (b.creations.map Prod.fst : Multiset Entity) = numbered (creating cmds) :=
    b.map_fst_creations.trans h.handles
  have hsub : b.creations.map Prod.fst ⊆ (List.range (2 ^ 24)).map Entity.makeTransient := by
    intro t ht
    have hmem := Multiset.mem_coe.mpr ht
    rw [hhandles, numbered, Multiset.mem_map] at hmem
    obtain ⟨k, -, rfl⟩ := hmem
    refine List.mem_map.mpr ⟨k % 2 ^ 24, List.mem_range.mpr (Nat.mod_lt _ (by decide)), ?_⟩
    simp only [Entity.makeTransient, Entity.make]
    congr 3
    omega
  have hlength := (hdiffer.subperm hsub).length_le
  rwa [List.length_map, List.length_map, List.length_range] at hlength

end CommandBuffer

/-! ## The first chunk of the storage -/

namespace Command

/-- The bytes of `storage` that the command takes. What a `cast` takes depends on what was
recorded before it. -/
def bytes : Command → Nat
  | .allocate type => 4 * (TypeRef.storage type).size
  | _ => 0

def casts : Command → Bool
  | .cast _ => true
  | _ => false

end Command

namespace CommandBuffer

variable {b b' : CommandBuffer} {l : Local} {i : Nat} {c : Command}

/-- The bytes that the commands of a thread take. -/
def bytesOf (cmds : List (Nat × Command)) (i : Nat) : Nat :=
  ((cmds.filter fun c => c.1 = i).map fun c => c.2.bytes).sum

theorem bytesOf_append (cmds : List (Nat × Command)) (i : Nat) (c : Command) (j : Nat) :
    bytesOf (cmds ++ [(i, c)]) j = bytesOf cmds j + if i = j then c.bytes else 0 := by
  rw [bytesOf, List.filter_append, List.map_append, List.sum_append, List.filter_singleton]
  by_cases h : i = j <;> simp [h, bytesOf]

theorem getLocal_setLocal (b : CommandBuffer) (i : Nat) (l : Local) (j : Nat) :
    (b.setLocal i l).getLocal j = if i = j then l else b.getLocal j := by
  rw [getLocal, setLocal, List.getD_eq_getElem?_getD, List.getElem?_set]
  have hlen : i < (b.locals ++ List.replicate (i + 1 - b.locals.length) ({} : Local)).length := by
    rw [List.length_append, List.length_replicate]
    omega
  rw [if_pos hlen]
  split_ifs with h
  · rfl
  · rw [getLocal, List.getD_eq_getElem?_getD]
    by_cases hj : j < b.locals.length
    · rw [List.getElem?_append_left hj]
    · rw [List.getElem?_append_right (by omega), List.getElem?_replicate,
        List.getElem?_eq_none (l := b.locals) (by omega)]
      split_ifs <;> rfl

/-- A command other than a cast is recorded if and only if its bytes fit. -/
theorem record_returns_iff (hcast : c.casts = false) (hfit : (b.getLocal i).stored < kFastBinSize) :
    (∃ b', b.record i c = some b') ↔ (b.getLocal i).stored + c.bytes < kFastBinSize := by
  cases c with
  | allocate type =>
      simp only [record, Local.allocate, Local.push, Command.bytes, Option.bind_eq_bind]
      split_ifs with h <;> simp [h]
  | instantiate source => simpa [record, Command.bytes] using hfit
  | begin_ e => simpa [record, Command.bytes] using hfit
  | cast diff => simp [Command.casts] at hcast
  | destroy e => simpa [record, Command.bytes] using hfit

theorem stored_record (hcast : c.casts = false) (hs : b.record i c = some b') (j : Nat) :
    (b'.getLocal j).stored = (b.getLocal j).stored + if i = j then c.bytes else 0 := by
  have hset : ∃ b₁ l, b' = setLocal b₁ i l ∧ b₁.locals = b.locals ∧
      l.stored = (b.getLocal i).stored + c.bytes := by
    cases c with
    | allocate type =>
        simp only [record, Local.allocate, Option.bind_eq_bind, Option.bind_eq_some_iff] at hs
        obtain ⟨l, ⟨l₁, hpush, hl⟩, hs⟩ := hs
        obtain rfl := Local.push_eq hpush
        obtain rfl := Option.some.inj hl
        exact ⟨_, _, (Option.some.inj hs).symm, rfl, rfl⟩
    | instantiate source => exact ⟨_, _, (Option.some.inj hs).symm, rfl, rfl⟩
    | begin_ e => exact ⟨_, _, (Option.some.inj hs).symm, rfl, rfl⟩
    | cast diff => simp [Command.casts] at hcast
    | destroy e => exact ⟨_, _, (Option.some.inj hs).symm, rfl, rfl⟩
  obtain ⟨b₁, l, rfl, hlocals, hstored⟩ := hset
  rw [getLocal_setLocal]
  split_ifs with h
  · rw [hstored, h]
  · rw [getLocal, hlocals, getLocal, add_zero]

/-- Without casts, recording goes on as long as the types of each thread fit the first chunk. -/
theorem recordAll_returns_iff {cmds : List (Nat × Command)}
    (hcasts : ∀ c ∈ cmds, c.2.casts = false) :
    ((∃ b, recordAll cmds = some b) ↔ ∀ i, bytesOf cmds i < kFastBinSize) ∧
      ∀ b, recordAll cmds = some b → ∀ i, (b.getLocal i).stored = bytesOf cmds i := by
  induction cmds using List.reverseRecOn with
  | nil =>
      have hfit : ∀ i, bytesOf [] i < kFastBinSize := fun i => by simp [bytesOf, kFastBinSize]
      refine ⟨iff_of_true ⟨{}, rfl⟩ hfit, fun b hs i => ?_⟩
      obtain rfl := Option.some.inj hs
      rfl
  | append_singleton cmds c ih =>
      obtain ⟨i, c⟩ := c
      obtain ⟨hiff, hstored⟩ := ih fun c hc => hcasts c (List.mem_append_left _ hc)
      have hcast : c.casts = false := hcasts (i, c) (List.mem_append_right _ List.mem_cons_self)
      have hlast : recordAll (cmds ++ [(i, c)]) =
          (recordAll cmds).bind fun b => b.record i c := by
        simp only [recordAll, List.foldlM_append, List.foldlM_cons, List.foldlM_nil,
          Option.bind_eq_bind]
        exact congrArg _ (funext fun b => Option.bind_fun_some _)
      rw [hlast]
      refine ⟨⟨?_, ?_⟩, ?_⟩
      · rintro ⟨b', hs⟩ j
        obtain ⟨b, hb, hs⟩ := Option.bind_eq_some_iff.mp hs
        have hfit := hiff.mp ⟨b, hb⟩
        have hnew := (record_returns_iff hcast (hstored b hb i ▸ hfit i)).mp ⟨b', hs⟩
        rw [bytesOf_append]
        split_ifs with h
        · rw [← h, ← hstored b hb]
          exact hnew
        · exact hfit j
      · intro hfit
        have hold : ∀ j, bytesOf cmds j < kFastBinSize := fun j =>
          (Nat.le_add_right _ _).trans_lt (bytesOf_append cmds i c j ▸ hfit j)
        obtain ⟨b, hb⟩ := hiff.mpr hold
        have hnew := hfit i
        rw [bytesOf_append, if_pos rfl, ← hstored b hb] at hnew
        obtain ⟨b', hs⟩ := (record_returns_iff hcast (hstored b hb i ▸ hold i)).mpr hnew
        exact ⟨b', by rw [hb, Option.bind_some, hs]⟩
      · intro b' hs j
        obtain ⟨b, hb, hs⟩ := Option.bind_eq_some_iff.mp hs
        rw [stored_record hcast hs, hstored b hb, bytesOf_append]

end CommandBuffer

end Dots

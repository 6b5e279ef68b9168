import Dots.Database.Merging

/-!
# Tables that patchers read

Three patchers replace a reference by an entry of a table: of the members of a group, of the
handles of its instances, and of the new handles of entities that move. Each compares the id
with the length of the table, or of a row of it, and lets the length itself pass.
-/

namespace Dots

namespace World

variable {n rows count : Nat} {e : Entity}

/-- The entry of `source` that the patcher of `world::prefab_to_group` reads for `e`. The
patcher of `world::instantiate_prefab` makes the same test, and reads from `curr` on. -/
def prefabRead (count : Nat) (e : Entity) : Option Nat :=
  if e.id > count || !e.isTransient then none else some e.id

/-- The entry of `ret` that the patcher of `world::instantiate_prefab` reads for `e`, in the
slot `pos` of a slice that starts `row` instances into the table. -/
def instanceRead (size row pos : Nat) (e : Entity) : Option Nat :=
  (prefabRead size e).map fun i => (row + pos) * size + i

/-- `world::prefab_to_group` reads its table at `prefabRead`, and nowhere else. -/
theorem fromPrefab_read (members : List Entity) (count : Nat) (e : Entity) :
    fromPrefab members count e =
      ((prefabRead count e).map fun i => members.getD i Entity.null).getD e := by
  unfold fromPrefab prefabRead
  split <;> rfl

/-- `world::instantiate_prefab` reads the table of all instances at `instanceRead`, and nowhere
else. -/
theorem prefabPatcher_read (table : List Entity) (size row pos : Nat) (e : Entity) :
    prefabPatcher (fun r i => table.getD (r * size + i) Entity.null) size row pos e =
      ((instanceRead size row pos e).map fun i => table.getD i Entity.null).getD e := by
  have hindex : (row + pos + e.id / size) * size + e.id % size = (row + pos) * size + e.id := by
    rw [Nat.add_mul, Nat.add_assoc, Nat.div_add_mod']
  unfold prefabPatcher instanceRead prefabRead
  split
  · rfl
  · exact congrArg (fun i => table.getD i Entity.null) hindex

theorem mem_prefabRead {i : Nat} :
    i ∈ prefabRead n e ↔ e.isTransient = true ∧ e.id ≤ n ∧ i = e.id := by
  unfold prefabRead
  cases e.isTransient with
  | false => simp
  | true =>
      by_cases h : e.id > n
      · simp [h, Nat.not_le.mpr h]
      · simp [h, Nat.not_lt.mp h, eq_comm]

/-- A reference is read inside the tables: of `n` members, of `rows` instances of each of them,
and of `count` entities that move. -/
structure ReadsInside (n rows count : Nat) (e : Entity) : Prop where
  prefabToGroup : ∀ i ∈ prefabRead n e, i < n
  instantiatePrefab : ∀ row pos, row + pos < rows → ∀ i ∈ instanceRead n row pos e, i < n * rows
  moveContext : ∀ p : Renaming, p.start = 0 → p.count = count → ∀ i ∈ p.read e, i < count

theorem prefabRead_lt_iff :
    (∀ i ∈ prefabRead n e, i < n) ↔ ¬ (e.isTransient = true ∧ e.id = n) := by
  constructor
  · rintro h ⟨htransient, hid⟩
    have hread : e.id ∈ prefabRead n e := mem_prefabRead.mpr ⟨htransient, hid.le, rfl⟩
    exact (h _ hread).ne hid
  · intro h i hi
    obtain ⟨htransient, hle, rfl⟩ := mem_prefabRead.mp hi
    exact lt_of_le_of_ne hle fun hid => h ⟨htransient, hid⟩

/-- An id inside a row stays inside the row. -/
theorem instanceRead_lt {row pos i : Nat} (h : ¬ (e.isTransient = true ∧ e.id = n))
    (hrow : row + pos < rows) (hi : i ∈ instanceRead n row pos e) :
    (row + pos) * n ≤ i ∧ i < (row + pos + 1) * n ∧ i < n * rows := by
  obtain ⟨j, hj, rfl⟩ := Option.map_eq_some_iff.mp hi
  have hlt : j < n := prefabRead_lt_iff.mpr h j hj
  have hin : (row + pos) * n + j < (row + pos + 1) * n := by
    rw [Nat.add_mul (row + pos) 1 n, Nat.one_mul]
    exact Nat.add_lt_add_left hlt _
  refine ⟨Nat.le_add_right _ _, hin, lt_of_lt_of_le hin ?_⟩
  calc (row + pos + 1) * n ≤ rows * n := Nat.mul_le_mul_right n hrow
    _ = n * rows := Nat.mul_comm _ _

theorem renaming_read_lt_iff : (∀ p : Renaming, p.start = 0 → p.count = count →
    ∀ i ∈ p.read e, i < count) ↔ e.id ≠ count := by
  constructor
  · intro h hid
    have hread : e.id ∈ (Renaming.mk 0 (fun _ => none) count).read e := by
      simp [Renaming.read, hid]
    exact (h ⟨0, fun _ => none, count⟩ rfl rfl _ hread).ne hid
  · intro h p hstart hcount i hi
    have hle : e.id ≤ count ∧ i = e.id := by
      simpa [Renaming.read, hstart, hcount, eq_comm] using hi
    exact hle.2 ▸ lt_of_le_of_ne hle.1 h

/-- The patchers stay inside their tables unless the id is the length of one. -/
theorem readsInside_iff (n rows count : Nat) (e : Entity) : ReadsInside n rows count e ↔
    ¬ (e.isTransient = true ∧ e.id = n) ∧ e.id ≠ count := by
  constructor
  · intro h
    exact ⟨prefabRead_lt_iff.mp h.prefabToGroup, renaming_read_lt_iff.mp h.moveContext⟩
  · rintro ⟨hprefab, hmove⟩
    exact {
      prefabToGroup := prefabRead_lt_iff.mpr hprefab
      instantiatePrefab := fun _ _ hrow _ hi => (instanceRead_lt hprefab hrow hi).2.2
      moveContext := renaming_read_lt_iff.mpr hmove }

/-- Where a reference is read inside, the patchers look at the entries of their tables alone. -/
theorem ReadsInside.patched (h : ReadsInside n rows count e)
    {members members' table table' : List Entity} {target : Nat → Option Entity}
    (hmembers : ∀ i < n, members.getD i Entity.null = members'.getD i Entity.null)
    (htable : ∀ i < n * rows, table.getD i Entity.null = table'.getD i Entity.null) :
    fromPrefab members n e = fromPrefab members' n e ∧
    (∀ row pos, row + pos < rows →
      prefabPatcher (fun r i => table.getD (r * n + i) Entity.null) n row pos e =
        prefabPatcher (fun r i => table'.getD (r * n + i) Entity.null) n row pos e) ∧
    ∀ (p : Renaming) (raw : Nat → Nat), p.start = 0 → p.count = count →
      (∀ i < count, p.target i = target i) →
        p.patch raw e = Renaming.patch { p with target := target } raw e := by
  refine ⟨?_, fun row pos hrow => ?_, fun p raw hstart hcount htarget => ?_⟩
  · rw [fromPrefab_read, fromPrefab_read]
    cases hread : prefabRead n e with
    | none => rfl
    | some i => exact hmembers i (h.prefabToGroup i hread)
  · rw [prefabPatcher_read, prefabPatcher_read]
    cases hread : instanceRead n row pos e with
    | none => rfl
    | some i => exact htable i (h.instantiatePrefab row pos hrow i hread)
  · have hsame : Renaming.read { p with target := target } e = p.read e := rfl
    rw [Renaming.patch, Renaming.patch, hsame]
    cases hread : p.read e with
    | none => rfl
    | some i =>
        have hi := htarget i (h.moveContext p hstart hcount i hread)
        simp only [hi]

/-- A group of one entity with a component that holds the second transient handle. -/
theorem second_outside : ¬ ReadsInside 1 1 4 (Entity.makeTransient 1) := by
  intro h
  exact absurd (h.prefabToGroup 1 (by decide)) (by decide)

end World

end Dots

import Dots.Database.Difference
import Dots.Database.Integrity
import Dots.Database.Timestamps

/-!
# Tasks of a pass

`create_tasks` cuts the chunks a pass works on into slices, and the list of slices into groups of
`batchCount` entities. A slice ends with its chunk or when the group is full, so a group may go
on over several chunks and archetypes.
-/

namespace Dots

structure Task where
  gid : Nat
  indexInKernel : Nat
  slice : ChunkSlice

/-- `task_group`: the tasks from `begin` on, before `stop`. -/
structure TaskGroup where
  begin : Nat
  stop : Nat

/-- The local variables of `create_tasks`. `indexInKernel` is kept as its 32 bits. -/
structure Tasking where
  indexInKernel : Nat := 0
  result : List Task := []
  groups : List TaskGroup := []
  group : TaskGroup := ⟨0, 0⟩
  batch : Nat

namespace Tasking

/-- The end of a turn, when the group is full. -/
def closeGroup (batchCount : Nat) (s : Tasking) : Tasking :=
  if s.batch = 0 then
    { s with
      groups := s.groups ++ [⟨s.group.begin, s.result.length⟩]
      group := ⟨s.result.length, s.result.length⟩
      batch := batchCount }
  else s

/-- A slice of `sliceCount` entities. -/
def push (gid : Nat) (slice : ChunkSlice) (s : Tasking) : Tasking :=
  { s with
    result := s.result ++ [{ gid := gid, indexInKernel := s.indexInKernel, slice := slice }]
    indexInKernel := (s.indexInKernel + slice.count) % 2 ^ 32
    batch := s.batch - slice.count }

/-- The loop over a chunk. -/
def splitChunk (batchCount gid : Nat) (c : ChunkId) (count : Nat) :
    Nat → Nat → Tasking → Option Tasking
  | 0, _, _ => none
  | fuel + 1, allocated, s =>
      if allocated ≠ count then
        let sliceCount := min (count - allocated) s.batch
        splitChunk batchCount gid c count fuel (allocated + sliceCount)
          ((s.push gid { c := c, start := allocated, count := sliceCount }).closeGroup batchCount)
      else some s

/-- The last group. -/
def finish (s : Tasking) : List Task × List TaskGroup :=
  if s.group.stop ≠ s.result.length then
    (s.result, s.groups ++ [⟨s.group.begin, s.result.length⟩])
  else (s.result, s.groups)

end Tasking

namespace Store

/-- The turn of `create_tasks` for the archetype with number `i`. -/
def splitArchetype (st : Store) (f : ChunkFilter) (batchCount : Nat) (s : Tasking)
    (g : ArchetypeId × Nat) : Option Tasking := do
  let a ← st.archetype g.1
  let chunks ← st.chunksFrom (st.freshChunk + 1) (st.firstChunk g.1)
  (st.queryChunks a f chunks).foldlM (fun s c =>
    s.splitChunk batchCount g.2 c (st.count c) (st.count c + 1) 0) s

/-- `pipeline::create_tasks`. For a changed filter the passes in the entries of the archetype are
waited for and the entries cleared before its chunks are queried, which changes no chunk. -/
def createTasks (st : Store) (archetypes : List ArchetypeId) (f : ChunkFilter) (batchCount : Nat) :
    Option (List Task × List TaskGroup) := do
  let s ← archetypes.zipIdx.foldlM (st.splitArchetype f batchCount) { batch := batchCount }
  some s.finish

end Store

/-! ## What the tasks are for -/

/-- The entities of a task, by their places. -/
def Task.slots (t : Task) : List (ChunkId × Nat) :=
  (List.range t.slice.count).map fun j => (t.slice.c, t.slice.start + j)

/-- The number of entities of some tasks. -/
def Task.total (ts : List Task) : Nat := (ts.map fun t => t.slice.count).sum

/-- The ranges of consecutive parts of a list. -/
def TaskGroup.ranges {α : Type*} : Nat → List (List α) → List TaskGroup
  | _, [] => []
  | n, p :: parts => ⟨n, n + p.length⟩ :: ranges (n + p.length) parts

namespace Store

/-- The chunks of an archetype of the pass that its filter lets through. -/
def Matched (st : Store) (archetypes : List ArchetypeId) (f : ChunkFilter) (c : ChunkId) : Prop :=
  ∃ g a, g ∈ archetypes ∧ st.type c = some g ∧ st.archetype g = some a ∧
    (f.match a.types (st.timestamps c)).1 = true

/-- Every place in a matched chunk is in one task, the tasks count the entities, and the groups
are ranges of tasks with `batchCount` entities, but for the last. -/
structure Partition (st : Store) (archetypes : List ArchetypeId) (f : ChunkFilter)
    (batchCount : Nat) (ts : List Task) (gs : List TaskGroup) : Prop where
  nonempty : ∀ t ∈ ts, 0 < t.slice.count
  inside : ∀ t ∈ ts, t.slice.start + t.slice.count ≤ st.count t.slice.c
  named : ∀ t ∈ ts, ∃ g, archetypes[t.gid]? = some g ∧ st.type t.slice.c = some g
  once : (ts.flatMap Task.slots).Nodup
  covered : ∀ c i, (c, i) ∈ ts.flatMap Task.slots ↔ st.Matched archetypes f c ∧ i < st.count c
  indexed : ∀ k t, ts[k]? = some t → t.indexInKernel = Task.total (ts.take k)
  grouped : ∃ parts : List (List Task), ts = parts.flatten ∧ gs = TaskGroup.ranges 0 parts ∧
    (∀ p ∈ parts, 1 ≤ Task.total p ∧ Task.total p ≤ batchCount) ∧
      ∀ p ∈ parts.dropLast, Task.total p = batchCount

end Store

namespace Tasking

open Library

variable {batchCount gid count fuel : Nat} {c : ChunkId} {s s' : Tasking} {slice : ChunkSlice}
  {done : List (ChunkId × Nat)} {P : Task → Prop}

theorem total_append (ts us : List Task) :
    Task.total (ts ++ us) = Task.total ts + Task.total us := by
  rw [Task.total, List.map_append, List.sum_append]
  rfl

theorem total_singleton (t : Task) : Task.total [t] = t.slice.count := Nat.add_zero _

theorem ranges_append {α : Type*} (n : Nat) (parts : List (List α)) (p : List α) :
    TaskGroup.ranges n (parts ++ [p]) = TaskGroup.ranges n parts ++
      [⟨n + parts.flatten.length, n + parts.flatten.length + p.length⟩] := by
  induction parts generalizing n with
  | nil => rfl
  | cons q parts ih =>
      rw [List.cons_append, TaskGroup.ranges, ih, TaskGroup.ranges, List.cons_append,
        List.flatten_cons, List.length_append]
      simp only [Nat.add_assoc]

/-- What the variables hold after the places `done`: full groups, and the tasks of the next. -/
structure Cuts (batchCount : Nat) (P : Task → Prop) (s : Tasking) (done : List (ChunkId × Nat)) :
    Prop where
  slots : s.result.flatMap Task.slots = done
  all : ∀ t ∈ s.result, P t
  indexed : ∀ k t, s.result[k]? = some t →
    t.indexInKernel = Task.total (s.result.take k) % 2 ^ 32
  index : s.indexInKernel = Task.total s.result % 2 ^ 32
  grouped : ∃ (parts : List (List Task)) (rest : List Task), s.result = parts.flatten ++ rest ∧
    s.groups = TaskGroup.ranges 0 parts ∧
      s.group = ⟨parts.flatten.length, parts.flatten.length⟩ ∧
        (∀ p ∈ parts, Task.total p = batchCount) ∧ Task.total rest + s.batch = batchCount

theorem cuts_nil : Cuts batchCount P { batch := batchCount } [] where
  slots := rfl
  all _ ht := absurd ht List.not_mem_nil
  indexed _ _ ht := absurd ht.symm (Option.some_ne_none _)
  index := rfl
  grouped := ⟨[], [], rfl, rfl, rfl, fun _ hp => absurd hp List.not_mem_nil, Nat.zero_add _⟩

theorem Cuts.push (h : Cuts batchCount P s done) (hle : slice.count ≤ s.batch)
    (hP : P { gid := gid, indexInKernel := s.indexInKernel, slice := slice }) :
    Cuts batchCount P (s.push gid slice)
      (done ++ (List.range slice.count).map fun j => (slice.c, slice.start + j)) where
  slots := by
    rw [Tasking.push, List.flatMap_append, h.slots, List.flatMap_singleton]
    rfl
  all t ht := by
    rcases List.mem_append.mp ht with ht | ht
    · exact h.all t ht
    · exact List.mem_singleton.mp ht ▸ hP
  indexed k t ht := by
    change (s.result ++ [_])[k]? = some t at ht
    change _ = Task.total ((s.result ++ [_]).take k) % 2 ^ 32
    rcases Nat.lt_trichotomy k s.result.length with hk | hk | hk
    · rw [List.getElem?_append_left hk] at ht
      rw [List.take_append_of_le_length hk.le]
      exact h.indexed k t ht
    · subst hk
      rw [List.getElem?_concat_length, Option.some.injEq] at ht
      rw [List.take_left, ← ht]
      exact h.index
    · rw [List.getElem?_eq_none (by rw [List.length_append]; exact hk)] at ht
      exact absurd ht.symm (Option.some_ne_none t)
  index := by
    change (s.indexInKernel + slice.count) % 2 ^ 32 = Task.total (s.result ++ [_]) % 2 ^ 32
    rw [total_append, total_singleton, h.index, Nat.mod_add_mod]
  grouped := by
    obtain ⟨parts, rest, hresult, hgroups, hgroup, hfull, hrest⟩ := h.grouped
    refine ⟨parts, rest ++ [{ gid := gid, indexInKernel := s.indexInKernel, slice := slice }], ?_,
      hgroups, hgroup, hfull, ?_⟩
    · rw [← List.append_assoc, ← hresult]
      rfl
    · rw [total_append, total_singleton]
      change Task.total rest + slice.count + (s.batch - slice.count) = batchCount
      omega

theorem Cuts.closeGroup (h : Cuts batchCount P s done) (hb : 1 ≤ batchCount) :
    Cuts batchCount P (s.closeGroup batchCount) done ∧ 1 ≤ (s.closeGroup batchCount).batch := by
  rw [Tasking.closeGroup]
  split_ifs with hfull
  · refine ⟨⟨h.slots, h.all, h.indexed, h.index, ?_⟩, hb⟩
    obtain ⟨parts, rest, hresult, hgroups, hgroup, hparts, hrest⟩ := h.grouped
    refine ⟨parts ++ [rest], [], ?_, ?_, ?_, ?_, ?_⟩
    · rw [List.flatten_concat, List.append_nil]
      exact hresult
    · rw [ranges_append, ← hgroups, hgroup, hresult, List.length_append, Nat.zero_add]
    · rw [List.flatten_concat, ← hresult]
    · intro p hp
      rcases List.mem_append.mp hp with hp | hp
      · exact hparts p hp
      · rw [List.mem_singleton.mp hp]
        omega
    · exact Nat.zero_add _
  · exact ⟨h, Nat.pos_of_ne_zero hfull⟩

/-- The loop over a chunk goes through the places that are left. -/
theorem Cuts.splitChunk (h : Cuts batchCount P s done) (hb : 1 ≤ batchCount) (hs : 1 ≤ s.batch)
    {allocated : Nat} (hle : allocated ≤ count) (hfuel : count - allocated < fuel)
    (hP : ∀ index start n, 0 < n → start + n ≤ count →
      P { gid := gid, indexInKernel := index, slice := { c := c, start := start, count := n } }) :
    ∃ s', s.splitChunk batchCount gid c count fuel allocated = some s' ∧
      Cuts batchCount P s'
          (done ++ (List.range (count - allocated)).map fun j => (c, allocated + j)) ∧
        1 ≤ s'.batch := by
  induction fuel generalizing s done allocated with
  | zero => exact absurd hfuel (Nat.not_lt_zero _)
  | succ fuel ih =>
      rw [Tasking.splitChunk]
      by_cases hend : allocated = count
      · rw [if_neg (not_not.mpr hend)]
        refine ⟨s, rfl, ?_, hs⟩
        rw [hend, Nat.sub_self]
        simpa using h
      · rw [if_pos hend]
        obtain ⟨n, hn⟩ : ∃ n, n = min (count - allocated) s.batch := ⟨_, rfl⟩
        have hpos : 0 < n := by omega
        have hroom : n ≤ count - allocated := by omega
        have hbatch : n ≤ s.batch := by omega
        rw [← hn]
        have hpush : Cuts batchCount P
            (s.push gid { c := c, start := allocated, count := n } : Tasking)
            (done ++ (List.range n).map fun j => (c, allocated + j)) :=
          h.push hbatch (hP _ _ _ hpos (by omega))
        obtain ⟨hcut, hopen⟩ := hpush.closeGroup hb
        have hle' : allocated + n ≤ count := by omega
        obtain ⟨s', hrun, hs', hbatch'⟩ := ih hcut hopen hle' (by omega)
        refine ⟨s', hrun, ?_, hbatch'⟩
        -- the places of the slice, and those behind it
        have hsplit : count - allocated = n + (count - (allocated + n)) := by omega
        rw [hsplit, List.range_add, List.map_append, ← List.append_assoc, List.map_map]
        convert hs' using 3
        funext j
        exact congrArg (c, ·) (Nat.add_assoc ..).symm

/-- What is left in the end is the last group. -/
theorem Cuts.finish (h : Cuts batchCount P s done) (hb : 1 ≤ batchCount) (hs : 1 ≤ s.batch)
    (hP : ∀ t, P t → 0 < t.slice.count) : s.finish.1 = s.result ∧
      ∃ parts : List (List Task), s.result = parts.flatten ∧
        s.finish.2 = TaskGroup.ranges 0 parts ∧
          (∀ p ∈ parts, 1 ≤ Task.total p ∧ Task.total p ≤ batchCount) ∧
            ∀ p ∈ parts.dropLast, Task.total p = batchCount := by
  obtain ⟨parts, rest, hresult, hgroups, hgroup, hparts, hrest⟩ := h.grouped
  have hfull : ∀ p ∈ parts, 1 ≤ Task.total p ∧ Task.total p ≤ batchCount :=
    fun p hp => ⟨hb.trans (hparts p hp).ge, (hparts p hp).le⟩
  rw [Tasking.finish]
  cases rest with
  | nil =>
      rw [List.append_nil] at hresult
      rw [if_neg (by rw [hgroup, hresult]; exact not_not.mpr rfl)]
      exact ⟨rfl, parts, hresult, hgroups, hfull, fun p hp => hparts p (List.mem_of_mem_dropLast hp)⟩
  | cons t rest =>
      have hlength : s.result.length = parts.flatten.length + (t :: rest).length := by
        rw [hresult, List.length_append]
      have hopen : s.group.stop ≠ s.result.length := by
        rw [hgroup, hlength, List.length_cons]
        change parts.flatten.length ≠ _
        omega
      rw [if_pos hopen]
      refine ⟨rfl, parts ++ [t :: rest], ?_, ?_, ?_, ?_⟩
      · rw [List.flatten_concat, hresult]
      · rw [ranges_append, ← hgroups, hgroup, hlength, Nat.zero_add]
      · intro p hp
        rcases List.mem_append.mp hp with hp | hp
        · exact hfull p hp
        · -- the tasks of the open group are not empty, and its budget is not used up
          rw [List.mem_singleton.mp hp]
          have hcount := hP t (h.all t (hresult ▸ List.mem_append_right _ List.mem_cons_self))
          have hcons : Task.total (t :: rest) = t.slice.count + Task.total rest := rfl
          omega
      · rw [List.dropLast_concat]
        exact hparts

end Tasking

namespace Store

open Library Tasking

variable {ctx : Context} {st : Store} {archetypes : List ArchetypeId} {f : ChunkFilter}
  {batchCount : Nat}

/-- The places of a chunk. -/
def places (st : Store) (c : ChunkId) : List (ChunkId × Nat) :=
  (List.range (st.count c)).map fun j => (c, j)

/-- The chunks that the loop over the archetype comes by. -/
def passChunks (st : Store) (f : ChunkFilter) (g : ArchetypeId) : Option (List ChunkId) := do
  let a ← st.archetype g
  let chunks ← st.chunksFrom (st.freshChunk + 1) (st.firstChunk g)
  some (st.queryChunks a f chunks)

theorem splitArchetype_eq (s : Tasking) (g : ArchetypeId × Nat) :
    st.splitArchetype f batchCount s g = (st.passChunks f g.1).bind fun cs =>
      cs.foldlM (fun s c => s.splitChunk batchCount g.2 c (st.count c) (st.count c + 1) 0) s := by
  rw [splitArchetype, passChunks]
  simp only [Option.bind_eq_bind, Option.bind_assoc, Option.bind_some]

/-- A slice of entities of a chunk in the list of the archetype that `gid` names. -/
def Names (st : Store) (archetypes : List ArchetypeId) (cs : ArchetypeId → List ChunkId)
    (t : Task) : Prop :=
  0 < t.slice.count ∧ t.slice.start + t.slice.count ≤ st.count t.slice.c ∧
    ∃ g, archetypes[t.gid]? = some g ∧ t.slice.c ∈ cs g

theorem splitChunks {cs : ArchetypeId → List ChunkId} {s : Tasking} {done : List (ChunkId × Nat)}
    {g : ArchetypeId} {i : Nat} (h : Cuts batchCount (st.Names archetypes cs) s done)
    (hb : 1 ≤ batchCount) (hs : 1 ≤ s.batch) (hg : archetypes[i]? = some g) :
    ∃ s', (cs g).foldlM (fun s c => s.splitChunk batchCount i c (st.count c) (st.count c + 1) 0)
      s = some s' ∧ Cuts batchCount (st.Names archetypes cs) s' (done ++ (cs g).flatMap st.places) ∧
        1 ≤ s'.batch := by
  apply foldlM_reaches (I := fun ds s =>
    Cuts batchCount (st.Names archetypes cs) s (done ++ ds.flatMap st.places) ∧ 1 ≤ s.batch)
  · rintro cs₁ c cs₂ s hcs₁ ⟨hcut, hopen⟩
    have hc : c ∈ cs g := by
      rw [hcs₁]
      exact List.mem_append_right _ List.mem_cons_self
    have hnames : ∀ index start n, 0 < n → start + n ≤ st.count c → st.Names archetypes cs
        { gid := i, indexInKernel := index, slice := { c := c, start := start, count := n } } :=
      fun _ _ _ hpos hle => ⟨hpos, hle, g, hg, hc⟩
    obtain ⟨s', hrun, hcut', hopen'⟩ := hcut.splitChunk hb hopen (Nat.zero_le _)
      (Nat.lt_succ_self (st.count c - 0)) hnames
    refine ⟨s', hrun, ?_, hopen'⟩
    rw [List.flatMap_append, List.flatMap_singleton, ← List.append_assoc]
    simpa only [places, Nat.sub_zero, Nat.zero_add] using hcut'
  · rw [List.flatMap_nil, List.append_nil]
    exact ⟨h, hs⟩

/-- The tasks go over the chunks of the lists, in the order of the lists. -/
structure Splits (st : Store) (archetypes : List ArchetypeId) (cs : ArchetypeId → List ChunkId)
    (batchCount : Nat) (ts : List Task) (gs : List TaskGroup) : Prop where
  slots : ts.flatMap Task.slots = archetypes.flatMap fun g => (cs g).flatMap st.places
  all : ∀ t ∈ ts, st.Names archetypes cs t
  indexed : ∀ k t, ts[k]? = some t → t.indexInKernel = Task.total (ts.take k) % 2 ^ 32
  grouped : ∃ parts : List (List Task), ts = parts.flatten ∧ gs = TaskGroup.ranges 0 parts ∧
    (∀ p ∈ parts, 1 ≤ Task.total p ∧ Task.total p ≤ batchCount) ∧
      ∀ p ∈ parts.dropLast, Task.total p = batchCount

/-- `create_tasks` returns when the walks over the lists end. -/
theorem createTasks_spec {cs : ArchetypeId → List ChunkId}
    (hcs : ∀ g ∈ archetypes, st.passChunks f g = some (cs g)) (hb : 1 ≤ batchCount) :
    ∃ ts gs, st.createTasks archetypes f batchCount = some (ts, gs) ∧
      st.Splits archetypes cs batchCount ts gs := by
  obtain ⟨s, hrun, hcut, hopen⟩ : ∃ s,
      archetypes.zipIdx.foldlM (st.splitArchetype f batchCount) { batch := batchCount } = some s ∧
        Cuts batchCount (st.Names archetypes cs) s ((archetypes.zipIdx.map Prod.fst).flatMap
          fun g => (cs g).flatMap st.places) ∧ 1 ≤ s.batch := by
    refine foldlM_reaches (I := fun gs s => Cuts batchCount (st.Names archetypes cs) s
      ((gs.map Prod.fst).flatMap fun g => (cs g).flatMap st.places) ∧ 1 ≤ s.batch)
      (fun gs g gs' s hgs h => ?_) ⟨cuts_nil, hb⟩
    have hg : archetypes[g.2]? = some g.1 := by
      refine List.mk_mem_zipIdx_iff_getElem?.mp ?_
      rw [hgs]
      exact List.mem_append_right _ List.mem_cons_self
    obtain ⟨s', hs', hcut', hopen'⟩ := splitChunks h.1 hb h.2 hg
    refine ⟨s', ?_, ?_, hopen'⟩
    · rw [splitArchetype_eq, hcs g.1 (List.mem_of_getElem? hg), Option.bind_some]
      exact hs'
    · rw [List.map_append, List.flatMap_append, List.map_singleton, List.flatMap_singleton]
      exact hcut'
  rw [List.zipIdx_map_fst] at hcut
  obtain ⟨hresult, hgrouped⟩ := hcut.finish hb hopen fun t ht => ht.1
  refine ⟨s.result, s.finish.2, ?_, hcut.slots, hcut.all, hcut.indexed, hgrouped⟩
  rw [createTasks, hrun, Option.bind_eq_bind, Option.bind_some, ← hresult]

/-- `create_tasks` follows the pointers to the archetypes, and the walks have to end. -/
theorem passChunks_of_createTasks {ts : List Task} {gs : List TaskGroup}
    (hs : st.createTasks archetypes f batchCount = some (ts, gs)) {g : ArchetypeId}
    (hg : g ∈ archetypes) : ∃ cs, st.passChunks f g = some cs := by
  rw [createTasks, Option.bind_eq_bind, Option.bind_eq_some_iff] at hs
  obtain ⟨s, hrun, -⟩ := hs
  have hall := of_foldlM (P := fun g : ArchetypeId × Nat => ∃ cs, st.passChunks f g.1 = some cs)
    (fun p s s' hone => ?_) hrun
  · obtain ⟨i, hi, rfl⟩ := List.mem_iff_getElem.mp hg
    exact hall (archetypes[i], i) (List.mk_mem_zipIdx_iff_getElem?.mpr (List.getElem?_eq_getElem hi))
  · rw [splitArchetype_eq, Option.bind_eq_some_iff] at hone
    obtain ⟨cs, hcs, -⟩ := hone
    exact ⟨cs, hcs⟩

theorem mem_queryChunks {a : Archetype} {cs : List ChunkId} {c : ChunkId} :
    c ∈ st.queryChunks a f cs ↔ c ∈ cs ∧ (f.match a.types (st.timestamps c)).1 = true := by
  rw [queryChunks]
  split_ifs with hnone
  · rw [ChunkFilter.match, if_pos hnone]
    simp
  · rw [List.mem_filter]

theorem nodup_queryChunks {a : Archetype} {cs : List ChunkId} (h : cs.Nodup) :
    (st.queryChunks a f cs).Nodup := by
  rw [queryChunks]
  split_ifs
  · exact h
  · exact h.filter _

/-- An entity has an id of 24 bits, so there are no more places that hold one. -/
def FewPlaces (st : Store) : Prop :=
  ∀ l : List (ChunkId × Nat), l.Nodup → (∀ p ∈ l, st.Occupied p.1 p.2) → l.length ≤ 2 ^ 24

theorem fewPlaces_of_tracks {ents : Entities} {mm : Memory}
    (h : Entities.Tracks ents mm st.Occupied) : st.FewPlaces := by
  intro l hnd hocc
  have hids : (l.map fun p => (mm.entityAt p.1 p.2).id).Nodup := by
    refine (List.nodup_map_iff_inj_on hnd).mpr fun p hp q hq hid => ?_
    obtain ⟨hc, hi⟩ := h.unique (hocc p hp) (hocc q hq) hid
    exact Prod.ext hc hi
  have hsub : (l.map fun p => (mm.entityAt p.1 p.2).id) ⊆ List.range (2 ^ 24) := by
    intro id hid
    obtain ⟨p, -, rfl⟩ := List.mem_map.mp hid
    exact List.mem_range.mpr (Nat.mod_lt _ (by decide))
  have hle := (List.subperm_of_subset hids hsub).length_le
  rwa [List.length_map, List.length_range] at hle

theorem length_slots (ts : List Task) : (ts.flatMap Task.slots).length = Task.total ts := by
  rw [List.length_flatMap, Task.total]
  congr 1
  refine List.map_congr_left fun t _ => ?_
  rw [Task.slots, List.length_map, List.length_range]

theorem nodup_flatMap_places {cs : List ChunkId} (h : cs.Nodup) : (cs.flatMap st.places).Nodup := by
  refine List.nodup_flatMap.mpr ⟨fun c _ => ?_, h.imp fun hne => ?_⟩
  · exact List.nodup_range.map fun _ _ hij => (Prod.mk.inj hij).2
  · intro p hp hp'
    obtain ⟨_, -, rfl⟩ := List.mem_map.mp hp
    obtain ⟨_, -, heq⟩ := List.mem_map.mp hp'
    exact hne (Prod.mk.inj heq).1.symm

theorem mem_flatMap_places {cs : List ChunkId} {c : ChunkId} {i : Nat} :
    (c, i) ∈ cs.flatMap st.places ↔ c ∈ cs ∧ i < st.count c := by
  simp only [places, List.mem_flatMap, List.mem_map, List.mem_range, Prod.mk.injEq]
  constructor
  · rintro ⟨d, hd, j, hj, rfl, rfl⟩
    exact ⟨hd, hj⟩
  · rintro ⟨hc, hi⟩
    exact ⟨c, hc, i, hi, rfl, rfl⟩

/-- The chunks that the filter lets through in the list of `g`, from `firstChunk` on, are those
of `g`. Chunks without entities do not count. -/
def Walks (st : Store) (f : ChunkFilter) (g : ArchetypeId) : Prop :=
  ∃ a cs, st.archetype g = some a ∧
    st.chunksFrom (st.freshChunk + 1) (st.firstChunk g) = some cs ∧
      ∀ c, 0 < st.count c → (f.match a.types (st.timestamps c)).1 = true →
        (c ∈ cs ↔ st.type c = some g)

theorem passChunks_eq_some {g : ArchetypeId} {cs : List ChunkId} :
    st.passChunks f g = some cs ↔ ∃ a ds, st.archetype g = some a ∧
      st.chunksFrom (st.freshChunk + 1) (st.firstChunk g) = some ds ∧
        st.queryChunks a f ds = cs := by
  rw [passChunks]
  simp only [Option.bind_eq_bind, Option.bind_eq_some_iff, Option.some.injEq]
  constructor
  · rintro ⟨a, ha, ds, hds, heq⟩
    exact ⟨a, ds, ha, hds, heq⟩
  · rintro ⟨a, ds, ha, hds, heq⟩
    exact ⟨a, ha, ds, hds, heq⟩

theorem Walks.passChunks {g : ArchetypeId} (h : st.Walks f g) : ∃ cs, st.passChunks f g = some cs ∧
    cs.Nodup ∧ ∀ c, 0 < st.count c → (c ∈ cs ↔ st.Matched [g] f c) := by
  obtain ⟨a, ds, ha, hds, hall⟩ := h
  refine ⟨_, passChunks_eq_some.mpr ⟨a, ds, ha, hds, rfl⟩,
    nodup_queryChunks (World.chunksFrom_eq_some.mp hds).1.nodup, fun c hc => ?_⟩
  rw [mem_queryChunks]
  constructor
  · rintro ⟨hmem, hmatch⟩
    exact ⟨g, a, List.mem_singleton_self g, (hall c hc hmatch).mp hmem, ha, hmatch⟩
  · rintro ⟨g', a', hg', htype, ha', hmatch⟩
    obtain rfl : g' = g := List.mem_singleton.mp hg'
    obtain rfl : a = a' := Option.some.inj (ha.symm.trans ha')
    exact ⟨(hall c hc hmatch).mpr htype, hmatch⟩

theorem matched_iff {c : ChunkId} :
    st.Matched archetypes f c ↔ ∃ g ∈ archetypes, st.Matched [g] f c := by
  constructor
  · rintro ⟨g, a, hg, hrest⟩
    exact ⟨g, hg, g, a, List.mem_singleton_self g, hrest⟩
  · rintro ⟨g, hg, g', a, hg', hrest⟩
    obtain rfl : g' = g := List.mem_singleton.mp hg'
    exact ⟨g', a, hg, hrest⟩

theorem Matched.type {g : ArchetypeId} {c : ChunkId} (h : st.Matched [g] f c) :
    st.type c = some g := by
  obtain ⟨g', a, hg', htype, -⟩ := h
  rwa [List.mem_singleton.mp hg'] at htype

/-- The tasks partition the entities where the lists have all chunks. -/
theorem partition_of_walks (hfew : st.FewPlaces) (hnd : archetypes.Nodup)
    (hwalks : ∀ g ∈ archetypes, st.Walks f g) (hb : 1 ≤ batchCount) :
    ∃ ts gs, st.createTasks archetypes f batchCount = some (ts, gs) ∧
      st.Partition archetypes f batchCount ts gs := by
  obtain ⟨cs, hcs⟩ : ∃ cs : ArchetypeId → List ChunkId, ∀ g ∈ archetypes,
      st.passChunks f g = some (cs g) ∧ (cs g).Nodup ∧
        ∀ c, 0 < st.count c → (c ∈ cs g ↔ st.Matched [g] f c) := by
    refine ⟨fun g => (st.passChunks f g).getD [], fun g hg => ?_⟩
    obtain ⟨ds, hds, hrest⟩ := (hwalks g hg).passChunks
    simp only [hds, Option.getD_some, true_and]
    exact hrest
  obtain ⟨ts, gs, hs, hsplits⟩ := createTasks_spec (fun g hg => (hcs g hg).1) hb
  have hcovered : ∀ c i, (c, i) ∈ ts.flatMap Task.slots ↔
      st.Matched archetypes f c ∧ i < st.count c := by
    intro c i
    rw [hsplits.slots, List.mem_flatMap, matched_iff]
    constructor
    · rintro ⟨g, hg, hi⟩
      obtain ⟨hc, hi⟩ := mem_flatMap_places.mp hi
      exact ⟨⟨g, hg, ((hcs g hg).2.2 c (Nat.zero_lt_of_lt hi)).mp hc⟩, hi⟩
    · rintro ⟨⟨g, hg, hc⟩, hi⟩
      exact ⟨g, hg, mem_flatMap_places.mpr ⟨((hcs g hg).2.2 c (Nat.zero_lt_of_lt hi)).mpr hc, hi⟩⟩
  have honce : (ts.flatMap Task.slots).Nodup := by
    rw [hsplits.slots]
    refine List.nodup_flatMap.mpr ⟨fun g hg => nodup_flatMap_places (hcs g hg).2.1, ?_⟩
    refine hnd.imp_of_mem fun {g g'} hg hg' hne => ?_
    -- a chunk has one archetype
    rintro ⟨c, i⟩ hi hi'
    obtain ⟨hc, hi⟩ := mem_flatMap_places.mp hi
    obtain ⟨hc', -⟩ := mem_flatMap_places.mp hi'
    have htype := (((hcs g hg).2.2 c (Nat.zero_lt_of_lt hi)).mp hc).type
    have htype' := (((hcs g' hg').2.2 c (Nat.zero_lt_of_lt hi)).mp hc').type
    exact hne (Option.some.inj (htype.symm.trans htype'))
  have htotal : Task.total ts ≤ 2 ^ 24 := by
    rw [← length_slots]
    refine hfew _ honce fun p hp => ?_
    obtain ⟨⟨g, a, -, htype, -⟩, hi⟩ := (hcovered p.1 p.2).mp hp
    exact ⟨by rw [htype]; exact Option.some_ne_none g, hi⟩
  refine ⟨ts, gs, hs, fun t ht => (hsplits.all t ht).1, fun t ht => (hsplits.all t ht).2.1,
    fun t ht => ?_, honce, hcovered, fun k t ht => ?_, hsplits.grouped⟩
  · obtain ⟨hpos, hin, g, hg, hc⟩ := hsplits.all t ht
    have hcount : 0 < st.count t.slice.c := by omega
    exact ⟨g, hg, (((hcs g (List.mem_of_getElem? hg)).2.2 _ hcount).mp hc).type⟩
  · -- the entities before a task are not more than all
    rw [hsplits.indexed k t ht]
    refine Nat.mod_eq_of_lt ?_
    have hsplit := total_append (ts.take k) (ts.drop k)
    rw [List.take_append_drop] at hsplit
    omega

theorem slice_of_mem_slots {t : Task} {c : ChunkId} {i : Nat} (h : (c, i) ∈ t.slots) :
    t.slice.c = c := by
  rw [Task.slots, List.mem_map] at h
  obtain ⟨j, -, heq⟩ := h
  exact (Prod.mk.inj heq).1

/-- Where the tasks partition the entities, the lists have all chunks. -/
theorem walks_of_partition {ts : List Task} {gs : List TaskGroup} (hb : 1 ≤ batchCount)
    (hs : st.createTasks archetypes f batchCount = some (ts, gs))
    (hpart : st.Partition archetypes f batchCount ts gs) :
    ∀ g ∈ archetypes, st.Walks f g := by
  obtain ⟨cs, hcs⟩ : ∃ cs : ArchetypeId → List ChunkId, ∀ g ∈ archetypes,
      st.passChunks f g = some (cs g) := by
    refine ⟨fun g => (st.passChunks f g).getD [], fun g hg => ?_⟩
    obtain ⟨ds, hds⟩ := passChunks_of_createTasks hs hg
    simp only [hds, Option.getD_some]
  obtain ⟨ts', gs', hs', hsplits⟩ := createTasks_spec hcs hb
  obtain ⟨rfl, rfl⟩ := Prod.mk.inj (Option.some.inj (hs.symm.trans hs'))
  have honce := hpart.once
  rw [hsplits.slots] at honce
  -- a chunk that is walked over is of the archetype: in two lists it would be covered twice
  have htyped : ∀ g ∈ archetypes, ∀ c ∈ cs g, 0 < st.count c → st.type c = some g := by
    intro g hg c hc hcount
    have hplace : (c, 0) ∈ ts.flatMap Task.slots := by
      rw [hsplits.slots]
      exact List.mem_flatMap.mpr ⟨g, hg, mem_flatMap_places.mpr ⟨hc, hcount⟩⟩
    obtain ⟨t, ht, hslot⟩ := List.mem_flatMap.mp hplace
    obtain ⟨g', hg', htype⟩ := hpart.named t ht
    obtain ⟨-, -, g'', hg'', hc''⟩ := hsplits.all t ht
    obtain rfl : g' = g'' := Option.some.inj (hg'.symm.trans hg'')
    rw [slice_of_mem_slots hslot] at htype hc''
    suffices heq : g' = g by rwa [heq] at htype
    by_contra hne
    have hsymm : Std.Symm (Function.onFun List.Disjoint fun g => (cs g).flatMap st.places) :=
      ⟨fun _ _ h => h.symm⟩
    have hdisjoint := (List.nodup_flatMap.mp honce).2.forall (List.mem_of_getElem? hg') hg hne
    exact hdisjoint (mem_flatMap_places.mpr ⟨hc'', hcount⟩) (mem_flatMap_places.mpr ⟨hc, hcount⟩)
  intro g hg
  obtain ⟨a, ds, ha, hds, hquery⟩ := passChunks_eq_some.mp (hcs g hg)
  refine ⟨a, ds, ha, hds, fun c hcount hmatch => ⟨fun hc => ?_, fun htype => ?_⟩⟩
  · exact htyped g hg c (hquery ▸ mem_queryChunks.mpr ⟨hc, hmatch⟩) hcount
  · have hplace := (hpart.covered c 0).mpr ⟨⟨g, a, hg, htype, ha, hmatch⟩, hcount⟩
    rw [hsplits.slots, List.mem_flatMap] at hplace
    obtain ⟨g', hg', hplace⟩ := hplace
    have hc := (mem_flatMap_places.mp hplace).1
    obtain rfl : g' = g := Option.some.inj ((htyped g' hg' c hc hcount).symm.trans htype)
    rw [← hquery] at hc
    exact (mem_queryChunks.mp hc).1

theorem Listed.walks (hl : st.Listed ctx) {g : ArchetypeId} (ha : st.archetype g ≠ none) :
    st.Walks f g := by
  obtain ⟨a, ha⟩ := Option.ne_none_iff_exists'.mp ha
  obtain ⟨ds, hds, hwalk⟩ := World.exists_chunks hl ha
  exact ⟨a, ds, ha, (hwalk (st.freshChunk + 1)).1 (Nat.lt_succ_self _), fun c _ _ => hds c⟩

/-- `create_tasks` returns tasks that partition the entities of the matched chunks, just when the
list of each archetype of the pass has the chunks of the archetype that the filter lets through. -/
theorem createTasks_partition_iff (hfew : st.FewPlaces) (hnd : archetypes.Nodup)
    (hb : 1 ≤ batchCount) :
    (∃ ts gs, st.createTasks archetypes f batchCount = some (ts, gs) ∧
      st.Partition archetypes f batchCount ts gs) ↔ ∀ g ∈ archetypes, st.Walks f g := by
  constructor
  · rintro ⟨ts, gs, hs, hpart⟩
    exact walks_of_partition hb hs hpart
  · exact fun hwalks => partition_of_walks hfew hnd hwalks hb

/-- The filter of a pass that takes every chunk. -/
def unfiltered : ChunkFilter where
  changed := []
  prevTimestamp := 0
  sorted := List.Pairwise.nil

/-- One entity, in one task of one group. -/
theorem createTasks_oneGuid : ∃ w, World.oneGuid = some w ∧
    ∃ ts gs, w.store.createTasks [0] unfiltered 100 = some (ts, gs) ∧
      w.store.Partition [0] unfiltered 100 ts gs := by
  obtain ⟨w, hw⟩ : ∃ w, World.oneGuid = some w := by
    refine Option.isSome_iff_exists.mp ?_
    decide +kernel
  have hfacts : World.oneGuid.map (fun w => ([w.store.count 0, w.store.freshChunk],
      (w.store.archetype 0).isSome)) = some ([1, 1], true) := by
    decide +kernel
  rw [hw, Option.map_some, Option.some.injEq, Prod.mk.injEq] at hfacts
  obtain ⟨hlist, hsome⟩ := hfacts
  obtain ⟨hcount, hfresh, -⟩ : w.store.count 0 = 1 ∧ w.store.freshChunk = 1 ∧ True := by
    simpa using hlist
  obtain ⟨hl, -⟩ := World.walkable_of_reachable (.initial true)
    (World.reachable_oneGuid (fun _ _ _ => trivial) hw)
  have hfew : w.store.FewPlaces := by
    intro l hnd hocc
    have hsub : l ⊆ [(0, 0)] := by
      rintro ⟨c, i⟩ hp
      obtain ⟨hc, hi⟩ := hocc _ hp
      obtain rfl : c = 0 := by
        by_contra hne
        exact hc (hl.fresh c (hfresh.trans_le (Nat.one_le_iff_ne_zero.mpr hne)))
      rw [hcount, Nat.lt_one_iff] at hi
      exact List.mem_singleton.mpr (Prod.ext rfl hi)
    exact (List.subperm_of_subset hnd hsub).length_le.trans (by decide)
  refine ⟨w, hw, (createTasks_partition_iff hfew (List.nodup_singleton 0) (by decide)).mpr
    fun g hg => hl.walks ?_⟩
  rw [List.mem_singleton.mp hg]
  exact Option.ne_none_iff_isSome.mpr hsome

/-- A full chunk goes behind the only chunk of the other list, and then an entity of that one is
destroyed: the list starts at the chunk that came and ends there. -/
theorem not_createTasks_partition : ∃ w₀ w₁ w, World.twoLists 2 = some w₀ ∧
    Op.run World.wideTag 2 w₀ (.cast { c := 0, start := 0, count := 2 }
      { extend := World.tagged }) = some w₁ ∧
    Op.run World.wideTag 2 w₁ (.destroy { c := 1, start := 0, count := 1 }) = some w ∧
    Reachable World.wideTag (fun _ _ => True) w ∧ w.store.archetype 1 ≠ none ∧
    ¬ ∃ ts gs, w.store.createTasks [1] unfiltered 1 = some (ts, gs) ∧
      w.store.Partition [1] unfiltered 1 ts gs := by
  have hsome : ((World.twoLists 2).bind fun w₀ =>
      (Op.run World.wideTag 2 w₀ (.cast { c := 0, start := 0, count := 2 }
        { extend := World.tagged })).bind fun w₁ =>
          (Op.run World.wideTag 2 w₁ (.destroy { c := 1, start := 0, count := 1 })).map fun w =>
            ([w₀.store.type 0, w₁.store.type 1, w.store.type 1],
              [w₀.store.count 0, w₁.store.count 1, w.store.count 1],
              (w.store.archetype 1).isSome,
              w.store.chunksFrom (w.store.freshChunk + 1) (w.store.firstChunk 1))) =
      some ([some 0, some 1, some 1], [2, 2, 1], true, some [0]) := by
    decide +kernel
  obtain ⟨w₀, hw₀, hsome⟩ := Option.bind_eq_some_iff.mp hsome
  obtain ⟨w₁, hw₁, hsome⟩ := Option.bind_eq_some_iff.mp hsome
  obtain ⟨w, hw, hfacts⟩ := Option.map_eq_some_iff.mp hsome
  simp only [Prod.mk.injEq, List.cons.injEq, and_true] at hfacts
  obtain ⟨⟨htype₀, htype₁, htype⟩, ⟨hcount₀, hcount₁, hcount⟩, hlive, hchunks⟩ := hfacts
  refine ⟨w₀, w₁, w, hw₀, hw₁, hw, ?_, Option.ne_none_iff_isSome.mpr hlive, ?_⟩
  · have hreach := World.reachable_twoLists 2 (P := fun _ _ => True) (fun _ _ _ => trivial) hw₀
    refine (hreach.step (.cast ..) ?_ trivial hw₁).step (.destroy _) ?_ trivial hw
    · exact ⟨by simp [htype₀], by simp, by simp [hcount₀]⟩
    · exact ⟨by simp [htype₁], by simp, by simp [hcount₁]⟩
  · rintro ⟨ts, gs, hs, hpart⟩
    obtain ⟨a, cs, -, hcs, hall⟩ := walks_of_partition le_rfl hs hpart 1 (List.mem_singleton_self 1)
    rw [hchunks, Option.some.injEq] at hcs
    have hmem := (hall 1 (by rw [hcount]; exact Nat.one_pos) rfl).mpr htype
    rw [← hcs] at hmem
    exact absurd hmem (by decide)

end Store

end Dots

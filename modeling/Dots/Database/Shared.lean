import Dots.Database.Metatypes
import Dots.Runtime.Cursor

/-!
# `world::get_shared_type`

The union of the types of all metas is built in two arrays that change places at every meta.
Their length is a `tsize_t` that `estimate_shared_size` has added up.
-/

namespace Dots

open Library

/-- A `typeset` in an array of its own. -/
structure ArraySet where
  data : List TypeIndex
  length : Nat

namespace ArraySet

def elems (s : ArraySet) : List TypeIndex := s.data.take s.length

/-- `{ array, 0 }`, on an array of the caller. -/
def empty (junk : Nat → TypeIndex) (n : Nat) : ArraySet := ⟨Set.arrayOf junk n, 0⟩

end ArraySet

namespace Store

/-- `world::get_shared_type`: `type` and `buffer` as they are left. -/
def sharedInArrays (st : Store) (ents : Entities) :
    Nat → ArraySet × ArraySet → Archetype → Option (ArraySet × ArraySet)
  | 0, _, _ => none
  | fuel + 1, s, t =>
      t.metatypes.foldlM (fun (type, buffer) m => do
        let g ← st.getArchetypeOf ents m
        let (type, buffer) := (buffer, type)
        let (data, length) ← Set.mergeTo g.types buffer.elems type.data
        sharedInArrays st ents fuel (⟨data, length⟩, buffer) g) s

/-- The components of all metas, counted along every path to them. -/
def pathCount (st : Store) (ents : Entities) : Nat → Archetype → Nat
  | 0, _ => 0
  | n + 1, a => (a.metatypes.map fun m =>
      ((st.getArchetypeOf ents m).map fun b => b.componentCount + pathCount st ents n b).getD 0).sum

/-- The metas of `a` are live, and all paths along them end within `n` steps. -/
def EndsIn (st : Store) (ents : Entities) : Nat → Archetype → Prop
  | 0, _ => False
  | n + 1, a => ∀ m ∈ a.metatypes, ∃ b, st.getArchetypeOf ents m = some b ∧ EndsIn st ents n b

variable {st : Store} {ents : Entities} {g : ArchetypeId} {a b : Archetype} {n fuel : Nat}

/-! ## Acyclic graphs of live metas -/

theorem EndsIn.mono (h : st.EndsIn ents n a) {k : Nat} (hk : n ≤ k) : st.EndsIn ents k a := by
  induction n generalizing k a with
  | zero => exact h.elim
  | succ n ih =>
      obtain ⟨k, rfl⟩ := Nat.exists_eq_succ_of_ne_zero (Nat.ne_zero_of_lt hk)
      intro m hm
      obtain ⟨b, hb, hend⟩ := h m hm
      exact ⟨b, hb, ih hend (Nat.le_of_succ_le_succ hk)⟩

/-- Below `g` there is no cycle and no dead meta. -/
theorem exists_endsIn (hn : st.Numbered) (ha : st.archetype g = some a)
    (hac : ∀ h, st.Inherits ents h g → ¬ Relation.TransGen (st.MetaOf ents) h h)
    (hlive : ∀ h d, st.Inherits ents h g → st.archetype h = some d → ∀ m ∈ d.metatypes,
      st.getArchetypeOf ents m ≠ none) : ∃ n, st.EndsIn ents n a := by
  -- the graph below `g`
  let R : ArchetypeId → ArchetypeId → Prop := fun h k => st.MetaOf ents h k ∧ st.Inherits ents k g
  have hacR : ∀ h, ¬ Relation.TransGen R h h := by
    intro h hcycle
    obtain ⟨k, -, hk⟩ := Relation.TransGen.tail'_iff.mp hcycle
    exact hac h hk.2 (Relation.TransGen.mono (fun _ _ => And.left) h h hcycle)
  have hlt : ∀ h k, R h k → height R h < height R k := fun h k hhk =>
    height_lt (Finset.finite_toSet _) (fun _ _ hr => MetaOf.mem_range hn hr.1) hacR hhk
  have hall : ∀ n k d, st.Inherits ents k g → st.archetype k = some d → height R k < n →
      st.EndsIn ents n d := by
    intro n
    induction n with
    | zero => exact fun k d _ _ hlt => absurd hlt (Nat.not_lt_zero _)
    | succ n ih =>
        intro k d hk hd hheight m hm
        obtain ⟨b, hb⟩ := Option.ne_none_iff_exists'.mp (hlive k d hk hd m hm)
        obtain ⟨h, hid, hb'⟩ := getArchetypeOf_eq_some.mp hb
        have hmeta : st.MetaOf ents h k := ⟨d, b, m, hd, hm, hid, hb'⟩
        have hless := hlt h k ⟨hmeta, hk⟩
        exact ⟨b, hb, ih h b (hk.head hmeta) hb' (by omega)⟩
  exact ⟨_, hall _ g a .refl ha (Nat.lt_succ_self _)⟩

/-- The other way round, all that is below `g` ends as well. -/
theorem EndsIn.inherits (h : st.EndsIn ents n a) (ha : st.archetype g = some a) {k : ArchetypeId}
    (hk : st.Inherits ents k g) (hb : st.archetype k = some b) : st.EndsIn ents n b := by
  induction hk using Relation.ReflTransGen.head_induction_on generalizing b with
  | refl => exact Option.some.inj (ha.symm.trans hb) ▸ h
  | head hmeta _ ih =>
      obtain ⟨d, b', m, hd, hm, hid, hb'⟩ := hmeta
      obtain rfl := Option.some.inj (hb.symm.trans hb')
      have hend := ih hd
      cases n with
      | zero => exact hend.elim
      | succ n =>
          obtain ⟨b', hb', hend'⟩ := hend m hm
          obtain rfl := Option.some.inj ((getArchetypeOf_eq_some.mpr ⟨_, hid, hb⟩).symm.trans hb')
          exact hend'.mono (Nat.le_succ n)

theorem EndsIn.not_cycle (h : st.EndsIn ents n a) (ha : st.archetype g = some a) :
    ¬ Relation.TransGen (st.MetaOf ents) g g := by
  induction n generalizing g a with
  | zero => exact h.elim
  | succ n ih =>
      intro hcycle
      obtain ⟨k, hk, hmeta⟩ := Relation.TransGen.tail'_iff.mp hcycle
      obtain ⟨a', b, m, ha', hm, hid, hb⟩ := id hmeta
      obtain rfl := Option.some.inj (ha.symm.trans ha')
      obtain ⟨b', hb', hend⟩ := h m hm
      obtain rfl := Option.some.inj ((getArchetypeOf_eq_some.mpr ⟨_, hid, hb⟩).symm.trans hb')
      exact ih hend hb (Relation.TransGen.head' hmeta hk)

theorem EndsIn.live (h : st.EndsIn ents n a) {m : Entity} (hm : m ∈ a.metatypes) :
    st.getArchetypeOf ents m ≠ none := by
  cases n with
  | zero => exact h.elim
  | succ n =>
      obtain ⟨b, hb, -⟩ := h m hm
      rw [hb]
      exact Option.some_ne_none b

/-! ## The size -/

theorem estimateFrom_eq (h : st.EndsIn ents n a) {size : Nat} (hsize : size < 2 ^ 16) :
    st.estimateFrom ents n size a = some ((size + st.pathCount ents n a) % 2 ^ 16) := by
  induction n generalizing a size with
  | zero => exact h.elim
  | succ n ih =>
      rw [estimateFrom, pathCount]
      replace h : ∀ m ∈ a.metatypes, ∃ b, st.getArchetypeOf ents m = some b ∧
        st.EndsIn ents n b := h
      -- the loop over the metatypes
      generalize a.metatypes = ms at h
      induction ms generalizing size with
      | nil =>
          rw [List.map_nil, List.sum_nil, Nat.add_zero, Nat.mod_eq_of_lt hsize]
          rfl
      | cons m ms ihms =>
          obtain ⟨b, hb, hend⟩ := h m List.mem_cons_self
          have hlt : ∀ k, k % 2 ^ 16 < 2 ^ 16 := fun k => Nat.mod_lt k (by decide)
          rw [List.foldlM_cons, hb, List.map_cons, List.sum_cons, hb, Option.map_some,
            Option.getD_some]
          change (st.estimateFrom ents n _ b).bind _ = _
          rw [ih hend (hlt _), Option.bind_some,
            ihms (hlt _) fun m' hm' => h m' (List.mem_cons_of_mem m hm')]
          congr 1
          omega

/-- All metas have one archetype. -/
theorem pathCount_const (h : ∀ m ∈ a.metatypes, st.getArchetypeOf ents m = some b) (n : Nat) :
    st.pathCount ents (n + 1) a =
      a.metatypes.length * (b.componentCount + st.pathCount ents n b) := by
  have hconst : a.metatypes.map (fun m => ((st.getArchetypeOf ents m).map fun b =>
      b.componentCount + st.pathCount ents n b).getD 0) =
        List.replicate a.metatypes.length (b.componentCount + st.pathCount ents n b) := by
    rw [← List.map_const]
    exact List.map_congr_left fun m hm => by rw [h m hm]; rfl
  rw [pathCount, hconst, List.sum_replicate_nat]

theorem pathCount_eq (h : st.EndsIn ents n a) {k : Nat} (hk : n ≤ k) :
    st.pathCount ents k a = st.pathCount ents n a := by
  induction n generalizing k a with
  | zero => exact h.elim
  | succ n ih =>
      obtain ⟨k, rfl⟩ := Nat.exists_eq_succ_of_ne_zero (Nat.ne_zero_of_lt hk)
      rw [pathCount, pathCount]
      refine congrArg List.sum (List.map_congr_left fun m hm => ?_)
      obtain ⟨b, hb, hend⟩ := h m hm
      rw [hb, Option.map_some, Option.map_some, ih hend (Nat.le_of_succ_le_succ hk)]

/-! ## The union -/

/-- The union on lists: its elements, and what is known of its length. -/
theorem sharedTypeFrom_endsIn (h : st.EndsIn ents n a) (type : List TypeIndex) :
    ∃ ts, st.sharedTypeFrom ents n type a = some ts ∧
      (∀ t, t ∈ ts ↔ t ∈ type ∨ ∃ m ∈ a.metatypes, st.Provides ents m t) ∧
      type.length ≤ ts.length ∧ ts.length ≤ type.length + st.pathCount ents n a := by
  induction n generalizing a type with
  | zero => exact h.elim
  | succ n ih =>
      rw [sharedTypeFrom, pathCount]
      replace h : ∀ m ∈ a.metatypes, ∃ b, st.getArchetypeOf ents m = some b ∧
        st.EndsIn ents n b := h
      generalize a.metatypes = ms at h
      induction ms generalizing type with
      | nil => exact ⟨type, rfl, by simp, le_rfl, le_rfl⟩
      | cons m ms ihms =>
          obtain ⟨b, hb, hend⟩ := h m List.mem_cons_self
          obtain ⟨j, hid, hb'⟩ := getArchetypeOf_eq_some.mp hb
          obtain ⟨ts, hts, hmem, hlo, hhi⟩ := ih hend (Set.merge b.types type)
          obtain ⟨us, hus, hmem', hlo', hhi'⟩ :=
            ihms ts fun m' hm' => h m' (List.mem_cons_of_mem m hm')
          have hle := Set.length_merge_le b.types type
          have hge := Set.length_le_merge b.types type
          refine ⟨us, ?_, fun t => ?_, by omega, ?_⟩
          · rw [List.foldlM_cons, hb]
            change (st.sharedTypeFrom ents n _ b).bind _ = _
            rw [hts]
            exact hus
          · rw [hmem', hmem, Set.mem_merge, List.exists_mem_cons_iff, provides_iff hid hb']
            simp only [or_assoc, or_left_comm (b := t ∈ type)]
          · rw [List.map_cons, List.sum_cons, hb, Option.map_some, Option.getD_some,
              Archetype.componentCount]
            omega

theorem strict_sharedTypeFrom (hsets : ∀ g a, st.archetype g = some a → Set.IsSet a.types)
    {type ts : List TypeIndex} (htype : Set.Sorted type)
    (hs : st.sharedTypeFrom ents n type a = some ts) : Set.Sorted ts := by
  induction n generalizing a type ts with
  | zero => exact absurd hs.symm (Option.some_ne_none ts)
  | succ n ih =>
      rw [sharedTypeFrom] at hs
      refine foldlM_invariant (P := Set.Sorted) ?_ hs htype
      intro m _ type type' hturn htype
      obtain ⟨b, hb, hrec⟩ := Option.bind_eq_some_iff.mp hturn
      obtain ⟨h, -, hb⟩ := getArchetypeOf_eq_some.mp hb
      exact ih (Set.sorted_merge (hsets h b hb).sorted htype) hrec

/-- The loop over the rest of the metas only adds to the union. -/
theorem length_le_turns {ms : List Entity}
    (h : ∀ m ∈ ms, ∃ b, st.getArchetypeOf ents m = some b ∧ st.EndsIn ents n b)
    {type ts : List TypeIndex} (hs : ms.foldlM (fun type m => do
      let g ← st.getArchetypeOf ents m
      st.sharedTypeFrom ents n (Set.merge g.types type) g) type = some ts) :
    type.length ≤ ts.length := by
  refine foldlM_invariant (P := fun us => type.length ≤ us.length) ?_ hs le_rfl
  intro m hm us us' hturn hle
  obtain ⟨b, hb, hrec⟩ := Option.bind_eq_some_iff.mp hturn
  obtain ⟨b', hb', hend⟩ := h m hm
  obtain rfl := Option.some.inj (hb.symm.trans hb')
  obtain ⟨us'', hus, -, hlo, -⟩ := sharedTypeFrom_endsIn hend (Set.merge b.types us)
  obtain rfl := Option.some.inj (hrec.symm.trans hus)
  exact (hle.trans (Set.length_le_merge b.types us)).trans hlo

/-! ## The two arrays -/

/-- In arrays of `room` elements the union `ts` is built, or it does not fit. -/
def BuiltIn (room : Nat) (ts : List TypeIndex) (r : Option (ArraySet × ArraySet)) : Prop :=
  if ts.length ≤ room then ∃ type buffer, r = some (type, buffer) ∧ type.elems = ts ∧
    type.data.length = room ∧ buffer.data.length = room
  else r = none

theorem sharedInArrays_builtIn (hsets : ∀ g a, st.archetype g = some a → Set.IsSet a.types)
    (h : st.EndsIn ents n a) {room : Nat} (hroom : room < 2 ^ 16) {type buffer : ArraySet}
    (htype : type.data.length = room) (hbuffer : buffer.data.length = room)
    {ts : List TypeIndex} (hts : st.sharedTypeFrom ents n type.elems a = some ts) :
    BuiltIn room ts (st.sharedInArrays ents n (type, buffer) a) := by
  induction n generalizing a type buffer ts with
  | zero => exact h.elim
  | succ n ih =>
      rw [sharedTypeFrom] at hts
      rw [sharedInArrays]
      replace h : ∀ m ∈ a.metatypes, ∃ b, st.getArchetypeOf ents m = some b ∧
        st.EndsIn ents n b := h
      generalize a.metatypes = ms at h hts
      induction ms generalizing type buffer with
      | nil =>
          obtain rfl := Option.some.inj hts
          have hle : type.elems.length ≤ room := by
            rw [ArraySet.elems, List.length_take, htype]
            exact min_le_right _ _
          rw [BuiltIn, if_pos hle]
          exact ⟨type, buffer, rfl, rfl, htype, hbuffer⟩
      | cons m ms ihms =>
          obtain ⟨b, hb, hend⟩ := h m List.mem_cons_self
          obtain ⟨j, -, hb'⟩ := getArchetypeOf_eq_some.mp hb
          have hrest := fun m' hm' => h m' (List.mem_cons_of_mem m hm')
          have hwidth : type.elems.length < 2 ^ 16 := by
            rw [ArraySet.elems, List.length_take, htype]
            omega
          rw [List.foldlM_cons, hb] at hts
          obtain ⟨us, hus, hts⟩ := Option.bind_eq_some_iff.mp hts
          replace hus : st.sharedTypeFrom ents n (Set.merge b.types type.elems) b = some us := hus
          -- the union only grows
          obtain ⟨us', hus', -, hlo, -⟩ := sharedTypeFrom_endsIn hend (Set.merge b.types type.elems)
          obtain rfl := Option.some.inj (hus.symm.trans hus')
          have hlo' := length_le_turns hrest hts
          rw [List.foldlM_cons, hb]
          change BuiltIn room ts (((Set.mergeTo b.types type.elems buffer.data).bind fun r =>
            st.sharedInArrays ents n (⟨r.1, r.2⟩, type) b).bind _)
          by_cases hfit : (Set.merge b.types type.elems).length ≤ room
          · obtain ⟨data, hmerge, hlen, helems⟩ := Set.mergeTo_eq buffer.data
              (hsets j b hb').narrow hwidth (hbuffer ▸ hfit) (hfit.trans_lt hroom)
            rw [hmerge, Option.bind_some]
            have hone : BuiltIn room us (st.sharedInArrays ents n
                (⟨data, (Set.merge b.types type.elems).length⟩, type) b) :=
              ih hend (hlen.trans hbuffer) htype
                ((congrArg (fun l => st.sharedTypeFrom ents n l b) helems).trans hus)
            rw [BuiltIn] at hone
            split_ifs at hone with hfit'
            · obtain ⟨type', buffer', hrun, rfl, htype', hbuffer'⟩ := hone
              rw [hrun, Option.bind_some]
              exact ihms htype' hbuffer' hrest hts
            · rw [hone, Option.bind_none, BuiltIn, if_neg (by omega)]
          · rw [Set.mergeTo_eq_none (hsets j b hb').narrow hwidth (by omega) (by omega),
              Option.bind_none, Option.bind_none, BuiltIn, if_neg (by omega)]

theorem sharedInArrays_mono (h : st.EndsIn ents n a) {k : Nat} (hk : n ≤ k)
    (s : ArraySet × ArraySet) :
    st.sharedInArrays ents k s a = st.sharedInArrays ents n s a := by
  induction n generalizing k a s with
  | zero => exact h.elim
  | succ n ih =>
      obtain ⟨k, rfl⟩ := Nat.exists_eq_succ_of_ne_zero (Nat.ne_zero_of_lt hk)
      rw [sharedInArrays, sharedInArrays]
      refine foldlM_congr (fun m hm s => ?_) s
      obtain ⟨b, hb, hend⟩ := h m hm
      rw [hb]
      change (Set.mergeTo b.types s.1.elems s.2.data).bind _ =
        (Set.mergeTo b.types s.1.elems s.2.data).bind _
      exact Option.bind_congr fun r _ => ih hend (Nat.le_of_succ_le_succ hk) _

/-- The types of the metas of `a`, and what the two passes do with them. -/
structure SharedTypes (st : Store) (ents : Entities) (a : Archetype) (n : Nat)
    (types : List TypeIndex) : Prop where
  ends : st.EndsIn ents n a
  sorted : Set.Sorted types
  mem : ∀ t, t ∈ types ↔ ∃ m ∈ a.metatypes, st.Provides ents m t
  counted : types.length ≤ st.pathCount ents n a
  estimate : Returns (fun fuel => st.estimateFrom ents fuel 0 a) (st.pathCount ents n a % 2 ^ 16)
  built : ∀ room < 2 ^ 16, ∀ junk junk', BuiltIn room types
    (st.sharedInArrays ents n (.empty junk room, .empty junk' room) a)

theorem exists_sharedTypes (hsets : ∀ g a, st.archetype g = some a → Set.IsSet a.types)
    (h : st.EndsIn ents n a) : ∃ types, st.SharedTypes ents a n types := by
  obtain ⟨types, htypes, hmem, -, hle⟩ := sharedTypeFrom_endsIn h []
  refine ⟨types, h, strict_sharedTypeFrom hsets List.Pairwise.nil htypes, fun t => ?_, ?_,
    ⟨n, fun fuel hfuel => ?_⟩, fun room hroom junk junk' => ?_⟩
  · rw [hmem]
    simp
  · simpa using hle
  · have hsize := estimateFrom_eq (h.mono hfuel) (show 0 < 2 ^ 16 by decide)
    rwa [pathCount_eq h hfuel, Nat.zero_add] at hsize
  · exact sharedInArrays_builtIn hsets h hroom (Set.length_arrayOf _ _)
      (Set.length_arrayOf _ _) htypes

theorem SharedTypes.returns_iff {types : List TypeIndex} (h : st.SharedTypes ents a n types)
    {room : Nat} (hroom : room < 2 ^ 16) (junk junk' : Nat → TypeIndex) :
    (∃ type buffer, Returns (fun fuel => st.sharedInArrays ents fuel
      (.empty junk room, .empty junk' room) a) (type, buffer) ∧ type.elems = types) ↔
        types.length ≤ room := by
  have hbuilt := h.built room hroom junk junk'
  rw [BuiltIn] at hbuilt
  constructor
  · rintro ⟨type, buffer, ⟨k, hk⟩, -⟩
    by_contra hgt
    rw [if_neg hgt, ← sharedInArrays_mono h.ends (le_max_left n k)] at hbuilt
    exact Option.some_ne_none _ ((hk (max n k) (le_max_right n k)).symm.trans hbuilt)
  · intro hle
    rw [if_pos hle] at hbuilt
    obtain ⟨type, buffer, hrun, helems, -, -⟩ := hbuilt
    exact ⟨type, buffer, ⟨n, fun fuel hfuel =>
      (sharedInArrays_mono h.ends hfuel _).trans hrun⟩, helems⟩

/-- `get_shared_type` leaves the union of the types of all metas and stays within arrays of the
length that `estimate_shared_size` returned, exactly when there are no more of these types than
the number along all paths, cut to 16 bits. -/
theorem sharedInArrays_iff (hn : st.Numbered)
    (hsets : ∀ g a, st.archetype g = some a → Set.IsSet a.types) (ha : st.archetype g = some a)
    (hac : ∀ h, st.Inherits ents h g → ¬ Relation.TransGen (st.MetaOf ents) h h)
    (hlive : ∀ h d, st.Inherits ents h g → st.archetype h = some d → ∀ m ∈ d.metatypes,
      st.getArchetypeOf ents m ≠ none) :
    ∃ n types size, st.EndsIn ents n a ∧ Set.Sorted types ∧
      (∀ t, t ∈ types ↔ ∃ m ∈ a.metatypes, st.Provides ents m t) ∧
      types.length ≤ st.pathCount ents n a ∧
      Returns (fun fuel => st.estimateFrom ents fuel 0 a) size ∧
      ∀ junk junk', (∃ type buffer, Returns (fun fuel => st.sharedInArrays ents fuel
        (.empty junk size, .empty junk' size) a) (type, buffer) ∧ type.elems = types) ↔
          types.length ≤ st.pathCount ents n a % 2 ^ 16 := by
  obtain ⟨n, hend⟩ := exists_endsIn hn ha hac hlive
  obtain ⟨types, h⟩ := exists_sharedTypes hsets hend
  exact ⟨n, types, _, hend, h.sorted, h.mem, h.counted, h.estimate, fun junk junk' =>
    h.returns_iff (Nat.mod_lt _ (by decide)) junk junk'⟩

end Store

namespace World

/-! Sixteen components, counted along 64 · 64 paths: the sum is cut to 0. -/

/-- A registry of sixteen components. -/
def sixteen : Context :=
  (List.range 16).foldl (fun ctx i =>
    (ctx.registerType { guid := 10 + i, size := 4, alignment := 4 }).1) (Context.initial false)

def handlesFrom (n : Nat) : List Entity := (List.range 64).map fun i => ⟨256 * (n + i)⟩

/-- 64 entities with the components, and 64 that have all of these as metatypes. -/
def twoLevels : Option World :=
  runAll sixteen 3 blank
    [.allocate { types := List.range' 4 16 } 64, .allocate { metatypes := handlesFrom 0 } 64]

/-- The archetype above, with the second level as metatypes. -/
def topLevel : Option Archetype := constructArchetype sixteen { metatypes := handlesFrom 64 }

theorem reachable_twoLevels {P : World → Op → Prop}
    (hP : ∀ w type count, P w (.allocate type count)) {w : World} (hw : twoLevels = some w) :
    Reachable sixteen P w := by
  refine (reachable_blank sixteen P).runAll ?_ hw
  intro op hop v
  rcases List.mem_pair.mp hop with rfl | rfl
  · exact ⟨trivial, hP ..⟩
  · exact ⟨trivial, hP ..⟩

/-- The store when the top level is made, in `add_archetype`. -/
theorem levels_facts : ∃ w a, twoLevels = some w ∧ topLevel = some a ∧
    a.types = [] ∧ a.metatypes = handlesFrom 64 ∧ w.store.Known ∧ w.store.freshArchetype = 2 ∧
    (∀ h d, w.store.archetype h = some d → Set.IsSet d.types) ∧
    (∃ b, w.store.archetype 0 = some b ∧ b.types = List.range' 4 16 ∧ b.metatypes = []) ∧
    (∃ b, w.store.archetype 1 = some b ∧ b.types = [] ∧ b.metatypes = handlesFrom 0) ∧
    (∀ m ∈ handlesFrom 0, w.store.archetypeIdOf w.ents m = some 0) ∧
    ∀ m ∈ handlesFrom 64, w.store.archetypeIdOf w.ents m = some 1 := by
  have hsome : twoLevels.bind (fun w => topLevel.bind fun a => (w.store.archetype 0).bind fun b =>
      (w.store.archetype 1).map fun c =>
        (w.store.freshArchetype, [b.types, c.types], [b.metatypes, c.metatypes],
          (handlesFrom 0).all (fun m => w.store.archetypeIdOf w.ents m = some 0) &&
            (handlesFrom 64).all fun m => w.store.archetypeIdOf w.ents m = some 1)) =
      some (2, [List.range' 4 16, []], [[], handlesFrom 0], true) := by decide +kernel
  obtain ⟨w, hw, hsome⟩ := Option.bind_eq_some_iff.mp hsome
  obtain ⟨a, ha, hsome⟩ := Option.bind_eq_some_iff.mp hsome
  obtain ⟨b, hb, hsome⟩ := Option.bind_eq_some_iff.mp hsome
  obtain ⟨c, hc, hfacts⟩ := Option.map_eq_some_iff.mp hsome
  simp only [Prod.mk.injEq, List.cons.injEq, Bool.and_eq_true, List.all_eq_true,
    decide_eq_true_eq, and_true] at hfacts
  obtain ⟨hfresh, ⟨hbt, hct⟩, ⟨hbm, hcm⟩, hlow, hhigh⟩ := hfacts
  have htype := constructArchetype_type ha
  have hknown : w.store.Known :=
    (reachable_twoLevels (P := fun _ _ => True) (fun _ _ _ => trivial) hw).invariant
      known_initial fun _ _ _ _ _ _ hs hk => (renewed_run hs).known hk
  refine ⟨w, a, hw, ha, by rw [Archetype.types, htype], by rw [Archetype.metatypes, htype], hknown,
    hfresh, ?_, ⟨b, hb, hbt, hbm⟩, ⟨c, hc, hct, hcm⟩, hlow, hhigh⟩
  intro h d hd
  have hlt : h < 2 := (hknown.numbered h d hd).trans_eq hfresh
  obtain rfl | rfl := Nat.le_one_iff_eq_zero_or_eq_one.mp (Nat.le_of_lt_succ hlt)
  · obtain rfl := Option.some.inj (hb.symm.trans hd)
    rw [hbt]
    exact ⟨by decide, by decide⟩
  · obtain rfl := Option.some.inj (hc.symm.trans hd)
    rw [hct]
    exact ⟨List.Pairwise.nil, by decide⟩

/-- On the archetype of the second level the two passes agree. -/
theorem sharedInArrays_twoLevels : ∃ w c, twoLevels = some w ∧ w.store.archetype 1 = some c ∧
    ∃ n types size, w.store.EndsIn w.ents n c ∧ Set.Sorted types ∧
      (∀ t, t ∈ types ↔ ∃ m ∈ c.metatypes, w.store.Provides w.ents m t) ∧
      types.length ≤ w.store.pathCount w.ents n c ∧
      Returns (fun fuel => w.store.estimateFrom w.ents fuel 0 c) size ∧
      ∀ junk junk', (∃ type buffer, Returns (fun fuel => w.store.sharedInArrays w.ents fuel
        (.empty junk size, .empty junk' size) c) (type, buffer) ∧ type.elems = types) ↔
          types.length ≤ w.store.pathCount w.ents n c % 2 ^ 16 := by
  obtain ⟨w, a, hw, -, -, -, hknown, -, hsets, ⟨b, hb, -, hbm⟩, ⟨c, hc, -, hcm⟩, hlow, -⟩ :=
    levels_facts
  have hendb : w.store.EndsIn w.ents 1 b := by simp [Store.EndsIn, hbm]
  have hendc : w.store.EndsIn w.ents 2 c := fun m hm =>
    ⟨b, Store.getArchetypeOf_eq_some.mpr ⟨0, hlow m (hcm ▸ hm), hb⟩, hendb⟩
  refine ⟨w, c, hw, hc, Store.sharedInArrays_iff hknown.numbered hsets hc ?_ ?_⟩
  · intro h hin hcycle
    obtain ⟨k, -, d, -, -, hd, -⟩ := Relation.TransGen.tail'_iff.mp hcycle
    exact (hendc.inherits hc hin hd).not_cycle hd hcycle
  · exact fun h d hin hd m hm => (hendc.inherits hc hin hd).live hm

/-- The 16 types do not fit into arrays of length 0. -/
theorem not_sharedInArrays_twoLevels : ∃ w a, twoLevels = some w ∧
    Reachable sixteen (fun w op => op.KeepsLists sixteen w) w ∧ topLevel = some a ∧
    ∃ st g, w.store.newArchetype a = (st, g) ∧ st.archetype g = some a ∧
      (∀ h, st.Inherits w.ents h g → ¬ Relation.TransGen (st.MetaOf w.ents) h h) ∧
      (∀ h d, st.Inherits w.ents h g → st.archetype h = some d → ∀ m ∈ d.metatypes,
        st.getArchetypeOf w.ents m ≠ none) ∧
      Returns (fun fuel => st.estimateFrom w.ents fuel 0 a) 0 ∧
      ∀ junk junk', ¬ ∃ r, Returns (fun fuel => st.sharedInArrays w.ents fuel
        (.empty junk 0, .empty junk' 0) a) r := by
  obtain ⟨w, a, hw, ha, htypes, hmetas, -, hfresh, hsets', ⟨b, hb, hbt, hbm⟩,
    ⟨c, hc, hct, hcm⟩, hlow, hhigh⟩ := levels_facts
  obtain ⟨st, hst⟩ : ∃ st, st = (w.store.newArchetype a).1 := ⟨_, rfl⟩
  have harch : ∀ h, st.archetype h = if h = 2 then some a else w.store.archetype h := by
    intro h
    rw [hst, Store.newArchetype_archetype, hfresh]
  have hb' : st.archetype 0 = some b := (harch 0).trans hb
  have hc' : st.archetype 1 = some c := (harch 1).trans hc
  have hgetb : ∀ m ∈ handlesFrom 0, st.getArchetypeOf w.ents m = some b := fun m hm =>
    Store.getArchetypeOf_eq_some.mpr ⟨0, hst ▸ hlow m hm, hb'⟩
  have hgetc : ∀ m ∈ handlesFrom 64, st.getArchetypeOf w.ents m = some c := fun m hm =>
    Store.getArchetypeOf_eq_some.mpr ⟨1, hst ▸ hhigh m hm, hc'⟩
  have hendb : st.EndsIn w.ents 1 b := by simp [Store.EndsIn, hbm]
  have hendc : st.EndsIn w.ents 2 c := fun m hm => ⟨b, hgetb m (hcm ▸ hm), hendb⟩
  have hend : st.EndsIn w.ents 3 a := fun m hm => ⟨c, hgetc m (hmetas ▸ hm), hendc⟩
  have hlen : ∀ n, (handlesFrom n).length = 64 := fun n => by
    rw [handlesFrom, List.length_map, List.length_range]
  have hcount : st.pathCount w.ents 3 a % 2 ^ 16 = 0 := by
    rw [Store.pathCount_const (fun m hm => hgetc m (hmetas ▸ hm)),
      Store.pathCount_const (fun m hm => hgetb m (hcm ▸ hm)), hmetas, hcm, hlen, hlen,
      Store.pathCount, hbm, Archetype.componentCount, Archetype.componentCount, hbt, hct,
      List.map_nil, List.sum_nil, List.length_nil, List.length_range']
    decide
  have hsets : ∀ h d, st.archetype h = some d → Set.IsSet d.types := by
    intro h d hd
    rw [harch] at hd
    split_ifs at hd with hh
    · obtain rfl := Option.some.inj hd
      rw [htypes]
      exact ⟨List.Pairwise.nil, by decide⟩
    · exact hsets' h d hd
  obtain ⟨types, hshared⟩ := Store.exists_sharedTypes hsets hend
  have hfirst : ∀ n, (⟨256 * (n + 0)⟩ : Entity) ∈ handlesFrom n := fun n =>
    List.mem_map.mpr ⟨0, by decide, rfl⟩
  have hmem : 4 ∈ types := by
    refine (hshared.mem 4).mpr ⟨_, hmetas ▸ hfirst 64, ?_⟩
    refine (Store.provides_iff (hst ▸ hhigh _ (hfirst 64)) hc').mpr (Or.inr ⟨_, hcm ▸ hfirst 0, ?_⟩)
    exact (Store.provides_iff (hst ▸ hlow _ (hfirst 0)) hb').mpr (Or.inl (by rw [hbt]; decide))
  have ha' : st.archetype 2 = some a := (harch 2).trans (if_pos rfl)
  refine ⟨w, a, hw, reachable_twoLevels (fun _ _ _ => trivial) hw, ha, st, 2, ?_, ha', ?_, ?_, ?_,
    ?_⟩
  · rw [hst, ← hfresh]
    rfl
  · intro h hin hcycle
    obtain ⟨k, -, d, -, -, hd, -⟩ := Relation.TransGen.tail'_iff.mp hcycle
    exact (hend.inherits ha' hin hd).not_cycle hd hcycle
  · exact fun h d hin hd m hm => (hend.inherits ha' hin hd).live hm
  · have hest := hshared.estimate
    rwa [hcount] at hest
  · rintro junk junk' ⟨r, k, hk⟩
    have hbuilt := hshared.built 0 (by decide) junk junk'
    rw [Store.BuiltIn, if_neg (not_le.mpr (List.length_pos_of_mem hmem)),
      ← Store.sharedInArrays_mono hend (le_max_left 3 k)] at hbuilt
    exact Option.some_ne_none r ((hk (max 3 k) (le_max_right 3 k)).symm.trans hbuilt)

end World

end Dots

import Dots.Library.Forest
import Dots.Transform.Hierarchy

/-!
# `TransformSystem::SolveParentToWorld`

The transform of an entity in the world is that of its parent in the world times its own in the
parent, from the roots down. `mul` on transforms is a parameter. The links come from calls of
`SetParent`, which keep them a forest as long as no entity goes below itself.
-/

namespace Dots

open Library

namespace Hierarchy

variable {T : Type}

/-- `SolvePTWRecursive`, with the transform of the parent, `pltw`. Dereferencing a null pointer
gives `none`. -/
def solvePTWRecursive (mul : T → T → T) (h : Hierarchy) (localToParent : Entity → Option T) :
    Nat → Entity → T → (Entity → Option T) → Option (Entity → Option T)
  | 0, _, _, _ => none
  | fuel + 1, e, pltw, localToWorld => do
      let _ ← localToWorld e
      let ltp ← localToParent e
      let localToWorld := Function.update localToWorld e (some (mul pltw ltp))
      match h.child e with
      | none => some localToWorld
      | some cs =>
          if sizeofEntity * (cs.size / sizeofEntity) ≤ cs.data.size then
            cs.entities.foldlM (fun localToWorld child => do
              let ltw ← localToWorld e
              solvePTWRecursive mul h localToParent fuel child ltw localToWorld) localToWorld
          else none

/-- `SolveParentToWorld`. `roots` are the entities of the chunks that the query finds. -/
def solveParentToWorld (mul : T → T → T) (h : Hierarchy) (localToParent : Entity → Option T)
    (fuel : Nat) (roots : List Entity) (localToWorld : Entity → Option T) :
    Option (Entity → Option T) :=
  roots.foldlM (fun localToWorld e =>
    match h.child e with
    | none => none
    | some cs =>
        if sizeofEntity * (cs.size / sizeofEntity) ≤ cs.data.size then
          cs.entities.foldlM (fun localToWorld child => do
            let pltw ← localToWorld e
            solvePTWRecursive mul h localToParent fuel child pltw localToWorld) localToWorld
        else none) localToWorld

/-- The filter `fTransformRoot`. -/
def IsRoot (h : Hierarchy) (localToWorld : Entity → Option T) (e : Entity) : Prop :=
  (localToWorld e).isSome = true ∧ (h.child e).isSome = true ∧ h.parent e = none

/-! ## Links without cycles -/

/-- The links are mutual, and nothing is below itself. -/
structure Tree (h : Hierarchy) : Prop where
  sound : h.Sound
  links : h.Mutual
  listed : ∀ p, ∀ x ∈ h.children p, h.parent x = some p
  acyclic : ∀ x, ¬ Relation.TransGen (fun x p => h.parent x = some p) x x
  finite : {x | h.parent x ≠ none}.Finite

/-- `e` is below `p`. -/
abbrev Below (h : Hierarchy) (e p : Entity) : Prop :=
  Relation.ReflTransGen (fun x p => h.parent x = some p) e p

variable {h h' : Hierarchy} {c : Call} {p x : Entity} {run : List Call}

theorem Tree.mem_children_iff (ht : h.Tree) : x ∈ h.children p ↔ h.parent x = some p := by
  constructor
  · exact ht.listed p x
  · intro hx
    apply List.count_pos_iff.mp
    rw [ht.links.once x p hx]
    exact Nat.one_pos

theorem Tree.forest (ht : h.Tree) : Forest h.children := by
  have hsame : (fun y x => y ∈ h.children x) = fun y x => h.parent y = some x := by
    ext y x
    exact ht.mem_children_iff
  constructor
  · intro p
    rw [List.nodup_iff_count_le_one]
    intro x
    by_cases hx : x ∈ h.children p
    · exact (ht.links.once x p (ht.listed p x hx)).le
    · rw [List.count_eq_zero.mpr hx]
      exact Nat.zero_le 1
  · intro p q x hp hq
    exact Option.some.inj ((ht.listed p x hp).symm.trans (ht.listed q x hq))
  · rw [hsame]
    exact ht.acyclic
  · apply ht.finite.subset
    rintro x ⟨p, hp⟩
    rw [Set.mem_ofPred_eq, ht.listed p x hp]
    exact Option.some_ne_none p

/-- The calls that keep the forest: besides what `Meets` says, the entity does not go below
itself. -/
def MeetsTree (h : Hierarchy) (c : Call) : Prop := h.Meets c ∧ ¬ h.Below c.inParent c.e

theorem Moves.acyclic (ht : h.Tree) (hmoves : Moves h c p h') (hbelow : ¬ h.Below c.inParent c.e)
    (x : Entity) : ¬ Relation.TransGen (fun x p => h'.parent x = some p) x x := by
  have hold : ∀ x y, h'.parent x = some y → x ≠ c.e → h.parent x = some y := by
    intro x y hxy hx
    rwa [hmoves.parents, Function.update_of_ne hx] at hxy
  have hnew : ∀ y, h'.parent c.e = some y → y = c.inParent := by
    intro y hy
    rw [hmoves.parents, Function.update_self] at hy
    exact (Option.some.inj hy).symm
  apply acyclic_of_redirect (g := c.e) ht.acyclic (fun x y hxy hx _ => hold x y hxy hx)
    (B := fun x => Relation.TransGen (fun x p => h.parent x = some p) x c.e)
  · intro x hx
    by_cases hxe : x = c.e
    · rw [hxe] at hx
      exact absurd (hnew c.e hx ▸ .refl) hbelow
    · exact .single (hold x c.e hx hxe)
  · intro x y hy hxy
    by_cases hxe : x = c.e
    · rw [hxe] at hxy
      exact absurd (hnew y hxy ▸ hy.to_reflTransGen) hbelow
    · exact .head (hold x y hxy hxe) hy
  · exact ht.acyclic c.e

theorem Tree.setParent (ht : h.Tree) (hc : h.MeetsTree c) (hrun : h.setParent c = some h') :
    h'.Tree := by
  obtain ⟨⟨parent, cs, hparent, hhead, hcs, hmeets⟩, hbelow⟩ := hc
  have he : c.e ∈ h.children parent := List.mem_of_mem_head? hhead
  obtain ⟨h₁, hrun₁, hmoves⟩ := (setParent_spec ht.sound hparent he hcs).1 hmeets
  obtain rfl := Option.some.inj (hrun₁.symm.trans hrun)
  have hmutual := (hmoves.mutual_iff ht.links hparent).mpr hhead
  refine ⟨hmoves.sound, hmutual, ?_, hmoves.acyclic ht hbelow, ?_⟩
  · intro q x hx
    by_cases hxe : x = c.e
    · -- it is only with its new parent
      rw [hxe] at hx ⊢
      have hnew : h₁.parent c.e = some c.inParent := by
        rw [hmoves.parents, Function.update_self]
      by_cases hq : q = c.inParent
      · rw [hnew, hq]
      · exact absurd hx (hmutual.only c.e c.inParent q hnew hq)
    · rw [hmoves.parents, Function.update_of_ne hxe]
      apply ht.listed
      have hmem := (hmoves.children q).mem_iff.mp hx
      rcases List.mem_append.mp hmem with hmem | hmem
      · split_ifs at hmem
        · exact List.mem_of_mem_tail hmem
        · exact hmem
      · split_ifs at hmem
        · exact absurd (List.mem_singleton.mp hmem) hxe
        · exact absurd hmem List.not_mem_nil
  · apply ht.finite.subset
    intro x hx
    rw [Set.mem_ofPred_eq] at hx ⊢
    by_cases hxe : x = c.e
    · rw [hxe, hparent]
      exact Option.some_ne_none parent
    · rwa [hmoves.parents, Function.update_of_ne hxe] at hx

theorem tree_of_run (ht : h.Tree) (hmeets : Along Hierarchy.setParent MeetsTree run h)
    (hrun : run.foldlM Hierarchy.setParent h = some h') : h'.Tree :=
  hmeets.invariant (fun _ _ _ _ hc hs ht => ht.setParent hc hs) hrun ht

/-! ## The transforms -/

variable {mul : T → T → T} {localToParent localToWorld : Entity → Option T} {roots : List Entity}

/-- The transform of an entity from that of its parent. -/
def fromParent (mul : T → T → T) (localToParent : Entity → Option T) (pltw : T) (e : Entity) :
    Option T :=
  (localToParent e).map (mul pltw)

/-- A child buffer is inside the bytes there are. -/
theorem Sound.inside (hs : h.Sound) {cs : Buffer} (hcs : h.child x = some cs) :
    sizeofEntity * (cs.size / sizeofEntity) ≤ cs.data.size := by
  have hholds := hs.holds hcs
  obtain ⟨l, hl⟩ := hholds.tracks
  rw [hholds.size_div, ← hholds.size, ← hl.capacity]
  exact hl.size

theorem solvePTWRecursive_eq (hs : h.Sound) (fuel : Nat) (e : Entity) (pltw : T)
    (localToWorld : Entity → Option T) :
    solvePTWRecursive mul h localToParent fuel e pltw localToWorld =
      propagate h.children (fromParent mul localToParent) fuel e pltw localToWorld := by
  induction fuel generalizing e pltw localToWorld with
  | zero => rfl
  | succ fuel ih =>
      simp only [solvePTWRecursive, propagate, fromParent]
      cases localToWorld e with
      | none => rfl
      | some old =>
          cases localToParent e with
          | none => rfl
          | some ltp =>
              simp only [Option.map_some, Option.bind_eq_bind, Option.bind_some, ih]
              cases hcs : h.child e with
              | none =>
                  have hnil : h.children e = [] := by
                    rw [children, hcs]
                    rfl
                  rw [hnil]
                  rfl
              | some cs =>
                  rw [children_of_child hcs]
                  exact if_pos (hs.inside hcs)

theorem solveParentToWorld_eq (hs : h.Sound) (hroots : ∀ e ∈ roots, h.child e ≠ none)
    (fuel : Nat) (localToWorld : Entity → Option T) :
    solveParentToWorld mul h localToParent fuel roots localToWorld =
      propagateRoots h.children (fromParent mul localToParent) fuel roots localToWorld := by
  induction roots generalizing localToWorld with
  | nil => rfl
  | cons e roots ih =>
      obtain ⟨cs, hcs⟩ := Option.ne_none_iff_exists'.mp (hroots e List.mem_cons_self)
      have hrest := fun localToWorld =>
        ih (fun e' he' => hroots e' (List.mem_cons_of_mem e he')) localToWorld
      simp only [solveParentToWorld, propagateRoots, solvePTWRecursive_eq hs] at hrest
      rw [solveParentToWorld, propagateRoots, List.foldlM_cons, List.foldlM_cons]
      simp only [hcs, if_pos (hs.inside hcs), solvePTWRecursive_eq hs]
      rw [propagateChildren, children_of_child hcs]
      exact congrArg (_ >>= ·) (funext hrest)

/-- What `SolveParentToWorld` leaves: the transform of every entity below a root comes from that
of its parent, and the others stay. -/
structure Solved (mul : T → T → T) (h : Hierarchy) (localToParent : Entity → Option T)
    (roots : List Entity) (localToWorld solved : Entity → Option T) : Prop where
  below : ∀ r ∈ roots, ∀ p x, h.Below p r → h.parent x = some p →
    ∃ pltw ltp, solved p = some pltw ∧ localToParent x = some ltp ∧ solved x = some (mul pltw ltp)
  others : ∀ x, (∀ r ∈ roots, ∀ p, h.Below p r → h.parent x ≠ some p) → solved x = localToWorld x

theorem Tree.under_iff (ht : h.Tree) : Under h.children x p ↔ h.Below x p := by
  have hsame : (fun y x => y ∈ h.children x) = fun y x => h.parent y = some x := by
    ext y x
    exact ht.mem_children_iff
  rw [Under, hsame]

/-- After any calls of `SetParent` on a forest that each move the first child of its parent to an
entity with room for it that is not below the child, the links are a forest, and
`SolveParentToWorld` comes to an end with the transforms of all entities below the roots and
leaves them so when it is called again. Entities with a parent own both transforms. -/
theorem solves_of_run (ht : h.Tree) (hmeets : Along Hierarchy.setParent MeetsTree run h)
    (hrun : run.foldlM Hierarchy.setParent h = some h') (hnodup : roots.Nodup)
    (hroots : ∀ e ∈ roots, h'.IsRoot localToWorld e)
    (howned : ∀ x, h'.parent x ≠ none →
      (localToWorld x).isSome = true ∧ (localToParent x).isSome = true) :
    h'.Tree ∧ ∃ solved, Solved mul h' localToParent roots localToWorld solved ∧
      Returns (fun fuel => solveParentToWorld mul h' localToParent fuel roots localToWorld) solved ∧
      Returns (fun fuel => solveParentToWorld mul h' localToParent fuel roots solved) solved := by
  have ht' := tree_of_run ht hmeets hrun
  refine ⟨ht', ?_⟩
  have hforest := ht'.forest
  have htop : ∀ r ∈ roots, ∀ p, r ∉ h'.children p := by
    intro r hr p hp
    have hparent := (hroots r hr).2.2
    rw [ht'.listed p r hp] at hparent
    cases hparent
  have hbuffer : ∀ r ∈ roots, h'.child r ≠ none := by
    intro r hr
    exact Option.isSome_iff_ne_none.mp (hroots r hr).2.1
  obtain ⟨n, hn⟩ : ∃ n, ∀ x, height (fun y x => y ∈ h'.children x) x ≤ n :=
    ⟨_, height_le hforest.finite fun _ p hp => ⟨p, hp⟩⟩
  -- whatever has the transforms can be solved
  have hsolve : ∀ v : Entity → Option T, (∀ x, (v x).isSome = (localToWorld x).isSome) →
      ∃ v', Solves h'.children (fromParent mul localToParent) roots v v' ∧
        ∀ fuel ≥ n + 1, solveParentToWorld mul h' localToParent fuel roots v = some v' := by
    intro v hkept
    have hrun : ∀ fuel ≥ n + 1, ∃ v', propagateRoots h'.children (fromParent mul localToParent)
        fuel roots v = some v' ∧ Solves h'.children (fromParent mul localToParent) roots v v' := by
      intro fuel hfuel
      apply exists_propagateRoots hforest htop hnodup
      · intro r hr
        refine ⟨(hkept r).trans (hroots r hr).1, fun c hc x hx => ?_⟩
        -- `x` is below the root, so it has a parent
        have hx' : h'.parent x ≠ none := by
          rcases Relation.ReflTransGen.cases_head hx with rfl | ⟨p, hp, -⟩
          · rw [ht'.listed r x hc]
            exact Option.some_ne_none r
          · rw [ht'.listed p x hp]
            exact Option.some_ne_none p
        obtain ⟨hworld, hlocal⟩ := howned x hx'
        refine ⟨(hkept x).trans hworld, fun t => ?_⟩
        rw [fromParent, Option.isSome_map]
        exact hlocal
      · exact fun x => Nat.lt_of_le_of_lt (hn x) hfuel
    obtain ⟨v', -, hsolves⟩ := hrun (n + 1) le_rfl
    refine ⟨v', hsolves, fun fuel hfuel => ?_⟩
    obtain ⟨v'', hrun', hsolves'⟩ := hrun fuel hfuel
    rw [solveParentToWorld_eq ht'.sound hbuffer, hrun', hsolves.unique hsolves' htop]
  obtain ⟨solved, hsolves, hreturns⟩ := hsolve localToWorld fun _ => rfl
  obtain ⟨again, hsolves', hreturns'⟩ := hsolve solved hsolves.kept
  have hagain : Solves h'.children (fromParent mul localToParent) roots solved solved :=
    ⟨hsolves.settled, fun _ _ => rfl, fun _ => rfl⟩
  obtain rfl := hsolves'.unique hagain htop
  refine ⟨again, ⟨?_, ?_⟩, ⟨n + 1, hreturns⟩, ⟨n + 1, hreturns'⟩⟩
  · intro r hr p x hp hx
    have hmeets := hsolves.settled r hr p x (ht'.under_iff.mpr hp) (ht'.mem_children_iff.mpr hx)
    have hsome : (again p).isSome = true := by
      rw [hsolves.kept]
      rcases Relation.ReflTransGen.cases_head hp with rfl | ⟨q, hq, -⟩
      · exact (hroots p hr).1
      · exact (howned p (by rw [hq]; exact Option.some_ne_none q)).1
    obtain ⟨pltw, hpltw⟩ := Option.isSome_iff_exists.mp hsome
    obtain ⟨ltp, hltp⟩ := Option.isSome_iff_exists.mp
      (howned x (by rw [hx]; exact Option.some_ne_none p)).2
    refine ⟨pltw, ltp, hpltw, hltp, ?_⟩
    rw [hmeets, hpltw, Option.bind_some, fromParent, hltp, Option.map_some]
  · intro x hx
    apply hsolves.outer
    intro r hr p hp hxp
    exact hx r hr p (ht'.under_iff.mp hp) (ht'.listed p x hxp)

theorem tree_family : family.Tree where
  sound := sound_family
  links := mutual_family
  listed p x hx := by
    rw [children_family] at hx
    split_ifs at hx with hp
    · rw [hp]
      exact if_pos (by simpa using hx)
    · exact absurd hx List.not_mem_nil
  acyclic x hx := by
    -- the parents have no parents
    obtain ⟨p, hxp, hpx⟩ := Relation.TransGen.head'_iff.mp hx
    have hp : p = ⟨256⟩ := by
      dsimp only [family] at hxp
      split_ifs at hxp
      exact (Option.some.inj hxp).symm
    rw [hp] at hpx
    rcases Relation.ReflTransGen.cases_head hpx with heq | ⟨q, hq, -⟩
    · rw [← heq] at hxp
      exact absurd (hxp.symm.trans (by decide)) (Option.some_ne_none p)
    · exact absurd (hq.symm.trans (by decide)) (Option.some_ne_none q)
  finite := by
    apply (Set.toFinite {(⟨768⟩ : Entity), ⟨1024⟩}).subset
    intro x hx
    rw [Set.mem_ofPred_eq] at hx
    dsimp only [family] at hx
    split_ifs at hx with hx'
    · exact hx'
    · exact absurd rfl hx

theorem meetsTree_firstChild : Along Hierarchy.setParent MeetsTree [firstChild] family := by
  refine ⟨⟨meets_firstChild, ?_⟩, fun _ _ => trivial⟩
  intro hbelow
  rcases Relation.ReflTransGen.cases_head hbelow with heq | ⟨p, hp, -⟩
  · exact absurd heq (by decide)
  · exact absurd (hp.symm.trans (by decide)) (Option.some_ne_none p)

/-- Where the roots are, and where everything else is in its parent. -/
def placed (x : Entity) : Option Nat :=
  if x = ⟨256⟩ then some 2
  else if x = ⟨512⟩ then some 3
  else if x = ⟨768⟩ ∨ x = ⟨1024⟩ then some 0
  else none

theorem solves_firstChild : ∃ h' solved, family.setParent firstChild = some h' ∧
    Returns (fun fuel => solveParentToWorld (· * ·) h' (fun _ => some 5) fuel [⟨256⟩, ⟨512⟩] placed)
      solved ∧ solved ⟨768⟩ = some 15 ∧ solved ⟨1024⟩ = some 10 := by
  obtain ⟨⟨parent, cs, hparent, hhead, hcs, hmeets⟩, -⟩ := meetsTree_firstChild.1
  obtain ⟨h', hrun, hmoves⟩ := (setParent_spec sound_family hparent
    (List.mem_of_mem_head? hhead) hcs).1 hmeets
  have hparents : ∀ x, h'.parent x =
      if x = ⟨768⟩ then some ⟨512⟩ else if x = ⟨1024⟩ then some ⟨256⟩ else none := by
    intro x
    rw [hmoves.parents, Function.update_apply]
    dsimp only [family, firstChild]
    split_ifs <;> simp_all
  have hbuffers : (family.setParent firstChild).map
      (fun h => ((h.child ⟨256⟩).isSome, (h.child ⟨512⟩).isSome)) = some (true, true) := by
    decide
  rw [hrun] at hbuffers
  obtain ⟨hchild, hchild'⟩ := Prod.mk.inj (Option.some.inj hbuffers)
  have hroots : ∀ e ∈ [(⟨256⟩ : Entity), ⟨512⟩], h'.IsRoot placed e := by
    intro e he
    rcases List.mem_cons.mp he with rfl | he
    · exact ⟨by decide, hchild, by rw [hparents]; decide⟩
    · obtain rfl := List.mem_singleton.mp he
      exact ⟨by decide, hchild', by rw [hparents]; decide⟩
  have howned : ∀ x, h'.parent x ≠ none →
      (placed x).isSome = true ∧ ((fun _ => some 5 : Entity → Option Nat) x).isSome = true := by
    intro x hx
    rw [hparents] at hx
    refine ⟨?_, rfl⟩
    split_ifs at hx with h₁ h₂
    · rw [h₁]
      decide
    · rw [h₂]
      decide
    · exact absurd rfl hx
  have hfold : [firstChild].foldlM Hierarchy.setParent family = some h' := by
    rw [List.foldlM_cons, hrun]
    rfl
  obtain ⟨-, solved, hsolved, hreturns, -⟩ : h'.Tree ∧ ∃ solved,
      Solved (· * ·) h' (fun _ => some 5) [⟨256⟩, ⟨512⟩] placed solved ∧ _ ∧ _ :=
    solves_of_run tree_family meetsTree_firstChild hfold (by decide) hroots howned
  have hroot : ∀ r ∈ [(⟨256⟩ : Entity), ⟨512⟩], solved r = placed r := by
    intro r hr
    apply hsolved.others
    intro _ _ p _ hp
    rw [hparents] at hp
    rcases List.mem_cons.mp hr with rfl | hr
    · rw [if_neg (by decide), if_neg (by decide)] at hp
      cases hp
    · obtain rfl := List.mem_singleton.mp hr
      rw [if_neg (by decide), if_neg (by decide)] at hp
      cases hp
  refine ⟨h', solved, hrun, hreturns, ?_, ?_⟩
  · obtain ⟨pltw, ltp, hp, hltp, hx⟩ := hsolved.below ⟨512⟩ (by decide) ⟨512⟩ ⟨768⟩ .refl
      (by rw [hparents]; decide)
    rw [hroot _ (by decide)] at hp
    obtain rfl := Option.some.inj hp
    obtain rfl := Option.some.inj hltp
    exact hx
  · obtain ⟨pltw, ltp, hp, hltp, hx⟩ := hsolved.below ⟨256⟩ (by decide) ⟨256⟩ ⟨1024⟩ .refl
      (by rw [hparents]; decide)
    rw [hroot _ (by decide)] at hp
    obtain rfl := Option.some.inj hp
    obtain rfl := Option.some.inj hltp
    exact hx

end Hierarchy

end Dots

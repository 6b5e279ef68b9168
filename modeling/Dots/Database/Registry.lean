import Dots.Database.Serialize

/-!
# The type registry

`register_type` enters a type under its GUID, followed by its copying twin where it has one.
`deserialize_archetype` looks GUIDs up in the same map with `operator[]`, which enters those
that are unknown.
-/

namespace Dots

namespace Context

variable {ctx ctx' : Context} {uu : GUID} {t : TypeIndex} {desc : ComponentDesc}

/-- `hash2type[uu]`. -/
def lookupType (ctx : Context) (uu : GUID) : Context × TypeIndex :=
  match ctx.hash2type.lookup uu with
  | some t => (ctx, t)
  | none => ({ ctx with hash2type := ctx.hash2type ++ [(uu, 0)] }, 0)

/-- The loop of `deserialize_archetype` over the GUIDs it reads. -/
def lookupTypes (ctx : Context) : List GUID → Context × List TypeIndex
  | [] => (ctx, [])
  | uu :: guids =>
      let (ctx, t) := ctx.lookupType uu
      let (ctx, ts) := ctx.lookupTypes guids
      (ctx, t :: ts)

end Context

/-! ## Runs -/

inductive RegistryCall
  | register (desc : ComponentDesc)
  | load (guids : List GUID)

/-- A call of `register_type`, what it returned, and whether the GUID was a new one. -/
structure Registration where
  desc : ComponentDesc
  type : TypeIndex
  fresh : Bool

/-- The registries that calls of `register_type` and deserializations reach from the initial
one, with what the calls returned. -/
inductive RegistryRun (P : Context → RegistryCall → Prop) : Context → List Registration → Prop
  | initial (guid : Bool) : RegistryRun P (Context.initial guid) []
  | register {ctx : Context} {returned : List Registration} (h : RegistryRun P ctx returned)
      (desc : ComponentDesc) (hp : P ctx (.register desc)) :
      RegistryRun P (ctx.registerType desc).1
        ({ desc := desc
           type := (ctx.registerType desc).2
           fresh := (ctx.hash2type.lookup desc.guid).isNone } :: returned)
  | load {ctx : Context} {returned : List Registration} (h : RegistryRun P ctx returned)
      (guids : List GUID) (hp : P ctx (.load guids)) :
      RegistryRun P (ctx.lookupTypes guids).1 returned

/-- All GUIDs that are looked up are known, and a new type has an index of 30 bits. -/
def RegistryCall.Known (ctx : Context) : RegistryCall → Prop
  | .register _ => ctx.infos.length < 2 ^ 30
  | .load guids => ∀ uu ∈ guids, ctx.hash2type.lookup uu ≠ none

/-- Types are told apart, and twins follow their types. `manualCopy` is ignored for managed
types. -/
structure Registry (ctx : Context) (returned : List Registration) : Prop where
  distinct : ∀ r ∈ returned, ∀ r' ∈ returned, r.desc.guid ≠ r'.desc.guid → r.type ≠ r'.type
  guid : ∀ r ∈ returned, ∃ i, ctx.infos[r.type.index]? = some i ∧ i.guid = r.desc.guid
  manual : ∀ r ∈ returned, r.fresh = true → r.desc.manualCopy = true → r.type.isManaged = false →
    ∃ s, ctx.tracks[r.type.index]? = some s ∧ s.manualCopying = true
  twin : ∀ k s, ctx.tracks[k]? = some s → s.manualCopying = true →
    ctx.tracks[k + 1]? = some { copying := true } ∧
      ∃ i, ctx.infos[k]? = some i ∧ ctx.infos[k + 1]? = some i
  copying : ∀ k s, ctx.tracks[k]? = some s → s.copying = true →
    ∃ j s', k = j + 1 ∧ ctx.tracks[j]? = some s' ∧ s'.manualCopying = true

namespace Context

variable {ctx ctx' : Context} {uu : GUID} {t : TypeIndex} {desc : ComponentDesc}

/-- A lookup of known GUIDs changes nothing. -/
theorem lookupTypes_known {guids : List GUID}
    (h : ∀ uu ∈ guids, ctx.hash2type.lookup uu ≠ none) : (ctx.lookupTypes guids).1 = ctx := by
  induction guids with
  | nil => rfl
  | cons uu guids ih =>
      obtain ⟨t, ht⟩ := Option.ne_none_iff_exists'.mp (h uu List.mem_cons_self)
      have hctx : ctx.lookupType uu = (ctx, t) := by
        rw [lookupType, ht]
      rw [lookupTypes, hctx]
      exact ih fun uu' h' => h uu' (List.mem_cons_of_mem uu h')

/-- The two bits `register_type` gives a type. -/
def kind (desc : ComponentDesc) : ComponentType :=
  if desc.size = 0 then .tag
  else if desc.isElement then .buffer
  else if desc.isManaged then .managed
  else .pod

/-- The entry of a new type, and its state. -/
structure Entered (ctx : Context) (desc : ComponentDesc) (i : TypeRegistry) (s : TrackState)
    (ctx' : Context) (t : TypeIndex) : Prop where
  infos : ctx'.infos = ctx.infos ++ if s.manualCopying then [i, i] else [i]
  tracks : ctx'.tracks = ctx.tracks ++ if s.manualCopying then [s, { copying := true }] else [s]
  map : ctx'.hash2type = ctx.hash2type ++ [(desc.guid, t)]
  guid : i.guid = desc.guid
  plain : s.copying = false
  index : ctx.infos.length < 2 ^ 30 → t.index = ctx.infos.length
  manual : desc.manualCopy = true → t.isManaged = false → s.manualCopying = true
  tag : t.isTag = true ↔ i.size = 0

theorem index_make {k : Nat} (hk : k < 2 ^ 30) (ct : ComponentType) :
    (TypeIndex.make k ct).index = k := by
  simp only [TypeIndex.index, TypeIndex.make]
  omega

theorem isManaged_make (k : Nat) (ct : ComponentType) :
    (TypeIndex.make k ct).isManaged = (ct == .managed) := by
  cases ct <;> simp only [TypeIndex.isManaged, TypeIndex.bits, TypeIndex.make,
    ComponentType.bits] <;> rw [Nat.add_mul_div_right _ _ (by decide),
      Nat.div_eq_of_lt (Nat.mod_lt _ (by decide))] <;> rfl

theorem isTag_make (k : Nat) (ct : ComponentType) : (TypeIndex.make k ct).isTag = (ct == .tag) := by
  cases ct <;> simp only [TypeIndex.isTag, TypeIndex.bits, TypeIndex.make,
    ComponentType.bits] <;> rw [Nat.add_mul_div_right _ _ (by decide),
      Nat.div_eq_of_lt (Nat.mod_lt _ (by decide))] <;> rfl

theorem kind_eq_tag (desc : ComponentDesc) : kind desc = .tag ↔ desc.size = 0 := by
  unfold kind
  split_ifs <;> simp [*]

theorem entered_registerType (hnew : ctx.hash2type.lookup desc.guid = none) :
    ∃ i s, Entered ctx desc i s (ctx.registerType desc).1 (ctx.registerType desc).2 := by
  unfold registerType
  rw [hnew]
  refine ⟨{ guid := desc.guid, size := desc.size, elementSize := desc.elementSize,
            alignment := desc.alignment,
            entityRefs := if desc.entityRefs.isSome then ctx.entityRefs.length else 0,
            entityRefCount := (desc.entityRefs.getD []).length, vtable := desc.vtable },
    { manualCleaning := desc.manualClean && kind desc != .managed
      manualCopying := desc.manualCopy && kind desc != .managed }, ?_⟩
  refine ⟨rfl, rfl, rfl, rfl, rfl, fun hk => index_make hk _, ?_, ?_⟩
  · intro hmanual hmanaged
    have hkind : (kind desc == .managed) = false := (isManaged_make _ _).symm.trans hmanaged
    simp only [hmanual, Bool.true_and, bne, hkind, Bool.not_false]
  · exact (Bool.eq_iff_iff.mp (isTag_make _ (kind desc))).trans (beq_iff_eq.trans (kind_eq_tag desc))

end Context

/-! ## The invariant -/

/-- What holds of every registry, before any lookup of an unknown GUID. -/
structure Registered (ctx : Context) (returned : List Registration) : Prop where
  length : ctx.tracks.length = ctx.infos.length
  mapped : ∀ g t, ctx.hash2type.lookup g = some t →
    ∃ i, ctx.infos[t.index]? = some i ∧ i.guid = g
  found : ∀ r ∈ returned, ctx.hash2type.lookup r.desc.guid = some r.type
  manual : ∀ r ∈ returned, r.fresh = true → r.desc.manualCopy = true → r.type.isManaged = false →
    ∃ s, ctx.tracks[r.type.index]? = some s ∧ s.manualCopying = true
  twin : ∀ k s, ctx.tracks[k]? = some s → s.manualCopying = true →
    ctx.tracks[k + 1]? = some { copying := true } ∧
      ∃ i, ctx.infos[k]? = some i ∧ ctx.infos[k + 1]? = some i
  copying : ∀ k s, ctx.tracks[k]? = some s → s.copying = true →
    ∃ j s', k = j + 1 ∧ ctx.tracks[j]? = some s' ∧ s'.manualCopying = true

section Registered

variable {ctx ctx' : Context} {returned : List Registration} {desc : ComponentDesc} {t : TypeIndex}
  {i : TypeRegistry} {s : TrackState}

/-- A type has the GUID it was returned for, so different GUIDs have different types. -/
theorem Registered.registry (h : Registered ctx returned) : Registry ctx returned where
  distinct r hr r' hr' hne heq := by
    obtain ⟨i, hi, hguid⟩ := h.mapped _ _ (h.found r hr)
    obtain ⟨i', hi', hguid'⟩ := h.mapped _ _ (h.found r' hr')
    rw [heq, hi', Option.some.injEq] at hi
    exact hne (by rw [← hguid, ← hguid', hi])
  guid r hr := h.mapped _ _ (h.found r hr)
  manual := h.manual
  twin := h.twin
  copying := h.copying

theorem getElem?_old {α : Type*} {xs ys : List α} {k : Nat} {x : α} (h : xs[k]? = some x) :
    (xs ++ ys)[k]? = some x := by
  obtain ⟨hlt, -⟩ := List.getElem?_eq_some_iff.mp h
  rw [List.getElem?_append_left hlt, h]

/-- The state at an index is an old one, that of the new type or that of its twin. -/
theorem Context.Entered.track_cases (he : ctx.Entered desc i s ctx' t) {k : Nat} {s' : TrackState}
    (hk : ctx'.tracks[k]? = some s') : ctx.tracks[k]? = some s' ∨
      k = ctx.tracks.length ∧ s' = s ∨
      k = ctx.tracks.length + 1 ∧ s.manualCopying = true ∧ s' = { copying := true } := by
  rw [he.tracks] at hk
  by_cases hlt : k < ctx.tracks.length
  · rw [List.getElem?_append_left hlt] at hk
    exact Or.inl hk
  · rw [List.getElem?_append_right (by omega)] at hk
    obtain ⟨d, rfl⟩ := Nat.exists_eq_add_of_le (Nat.le_of_not_lt hlt)
    rw [Nat.add_sub_cancel_left] at hk
    refine Or.inr ?_
    cases hm : s.manualCopying with
    | false =>
        rw [hm, if_neg Bool.false_ne_true] at hk
        match d, hk with
        | 0, hk => exact Or.inl ⟨rfl, (Option.some.inj hk).symm⟩
    | true =>
        rw [hm, if_pos rfl] at hk
        match d, hk with
        | 0, hk => exact Or.inl ⟨rfl, (Option.some.inj hk).symm⟩
        | 1, hk => exact Or.inr ⟨rfl, rfl, (Option.some.inj hk).symm⟩

/-- A new type. -/
theorem Registered.enter (h : Registered ctx returned) (hnew : ctx.hash2type.lookup desc.guid = none)
    (hk : ctx.infos.length < 2 ^ 30) (he : ctx.Entered desc i s ctx' t) :
    Registered ctx' ({ desc := desc, type := t, fresh := true } :: returned) := by
  have hindex := he.index hk
  have hinfo : ctx'.infos[ctx.infos.length]? = some i := by
    rw [he.infos, List.getElem?_append_right le_rfl, Nat.sub_self]
    split_ifs <;> rfl
  have htrack : ctx'.tracks[ctx.tracks.length]? = some s := by
    rw [he.tracks, List.getElem?_append_right le_rfl, Nat.sub_self]
    split_ifs <;> rfl
  have hlookup : ∀ g, ctx'.hash2type.lookup g =
      (ctx.hash2type.lookup g).or (if g == desc.guid then some t else none) := by
    intro g
    rw [he.map, List.lookup_append, List.lookup_cons]
    cases g == desc.guid <;> rfl
  have hfound : ctx'.hash2type.lookup desc.guid = some t := by
    rw [hlookup, hnew, beq_self_eq_true, if_pos rfl, Option.none_or]
  constructor
  · rw [he.infos, he.tracks, List.length_append, List.length_append, h.length]
    split_ifs <;> rfl
  · intro g u hu
    rw [hlookup, Option.or_eq_some_iff] at hu
    rcases hu with hold | ⟨-, hthis⟩
    · obtain ⟨i', hi', hguid⟩ := h.mapped g u hold
      exact ⟨i', he.infos ▸ getElem?_old hi', hguid⟩
    · split_ifs at hthis with hg
      obtain rfl := Option.some.inj hthis
      exact ⟨i, hindex ▸ hinfo, he.guid.trans (beq_iff_eq.mp hg).symm⟩
  · intro r hr
    rcases List.mem_cons.mp hr with rfl | hr
    · exact hfound
    · rw [hlookup, h.found r hr, Option.some_or]
  · intro r hr hfresh hmanual hmanaged
    rcases List.mem_cons.mp hr with rfl | hr
    · exact ⟨s, by rw [hindex, ← h.length]; exact htrack, he.manual hmanual hmanaged⟩
    · obtain ⟨s', hs', hm⟩ := h.manual r hr hfresh hmanual hmanaged
      exact ⟨s', he.tracks ▸ getElem?_old hs', hm⟩
  · intro k s' hs' hm
    rcases he.track_cases hs' with hold | ⟨rfl, rfl⟩ | ⟨-, -, rfl⟩
    · obtain ⟨htwin, i', hi', hi''⟩ := h.twin k s' hold hm
      exact ⟨he.tracks ▸ getElem?_old htwin, i', he.infos ▸ getElem?_old hi',
        he.infos ▸ getElem?_old hi''⟩
    · refine ⟨?_, i, h.length ▸ hinfo, ?_⟩
      · rw [he.tracks, hm, if_pos rfl, List.getElem?_append_right (Nat.le_add_right _ 1),
          Nat.add_sub_cancel_left]
        rfl
      · rw [h.length, he.infos, hm, if_pos rfl, List.getElem?_append_right (Nat.le_add_right _ 1),
          Nat.add_sub_cancel_left]
        rfl
    · simp at hm
  · intro k s' hs' hc
    rcases he.track_cases hs' with hold | ⟨rfl, rfl⟩ | ⟨rfl, hm, -⟩
    · obtain ⟨j, s'', rfl, hj, hm⟩ := h.copying k s' hold hc
      exact ⟨j, s'', rfl, he.tracks ▸ getElem?_old hj, hm⟩
    · simp [he.plain] at hc
    · exact ⟨ctx.tracks.length, s, rfl, htrack, hm⟩

theorem Registered.register (h : Registered ctx returned) (hk : ctx.infos.length < 2 ^ 30)
    (desc : ComponentDesc) : Registered (ctx.registerType desc).1
      ({ desc := desc
         type := (ctx.registerType desc).2
         fresh := (ctx.hash2type.lookup desc.guid).isNone } :: returned) := by
  cases hfound : ctx.hash2type.lookup desc.guid with
  | none =>
      obtain ⟨i, s, he⟩ := Context.entered_registerType hfound
      exact h.enter hfound hk he
  | some t =>
      have hsame : ctx.registerType desc = (ctx, t) := by
        rw [Context.registerType, hfound]
      rw [hsame]
      refine ⟨h.length, h.mapped, ?_, ?_, h.twin, h.copying⟩
      · intro r hr
        rcases List.mem_cons.mp hr with rfl | hr
        · exact hfound
        · exact h.found r hr
      · intro r hr hfresh
        rcases List.mem_cons.mp hr with rfl | hr
        · simp at hfresh
        · exact h.manual r hr hfresh

theorem registered_initial (guid : Bool) : Registered (Context.initial guid) [] := by
  have hempty : ∀ d c g m : TypeIndex, Registered
      { infos := [], tracks := [], entityRefs := [], hash2type := [], disableId := d,
        cleanupId := c, groupId := g, maskId := m, guidId := none } [] := by
    intro d c g m
    constructor <;> simp
  have h₄ := (((((hempty 0 0 0 0).register (by decide) { guid := 1 }).register (by decide)
    { guid := 2 }).register (by decide)
    { guid := 3, size := sizeofEntity * 5, isElement := true, elementSize := sizeofEntity,
      entityRefs := some [0] }).register (by decide) { guid := 4, size := sizeofMask })
  cases guid with
  | false => exact ⟨h₄.length, h₄.mapped, by simp, by simp, h₄.twin, h₄.copying⟩
  | true =>
      have h₅ := h₄.register (by decide) { guid := 5, size := 16, manualClean := true }
      exact ⟨h₅.length, h₅.mapped, by simp, by simp, h₅.twin, h₅.copying⟩

theorem Registered.forget (h : Registered ctx returned) : Registered ctx [] :=
  ⟨h.length, h.mapped, by simp, by simp, h.twin, h.copying⟩

/-- The registries a program builds. -/
theorem registered_of_built (h : ctx.Built) (hreg : ctx.tracks.length ≤ 2 ^ 30) :
    Registered ctx [] := by
  induction h with
  | initial guid => exact registered_initial guid
  | @register ctx h desc ih =>
      cases hfound : ctx.hash2type.lookup desc.guid with
      | none =>
          obtain ⟨i, s, he⟩ := Context.entered_registerType hfound
          have hlt : ctx.tracks.length < 2 ^ 30 := by
            refine Nat.lt_of_lt_of_le ?_ hreg
            rw [he.tracks, List.length_append]
            split_ifs <;> simp
          have hold := ih hlt.le
          exact (hold.enter hfound (hold.length ▸ hlt) he).forget
      | some t =>
          have hsame : ctx.registerType desc = (ctx, t) := by
            rw [Context.registerType, hfound]
          rw [hsame] at hreg ⊢
          exact ih hreg

/-- The type after one that is copied manually is its twin. -/
theorem track_twin (h : ctx.Built) (hreg : ctx.tracks.length ≤ 2 ^ 30) {t : TypeIndex}
    (ht : (ctx.track t).manualCopying = true) :
    ctx.track (t + 1) = { copying := true } ∧ TypeIndex.index (t + 1) = t.index + 1 := by
  have hregistered := registered_of_built h hreg
  cases hs : ctx.tracks[t.index]? with
  | none => simp [Context.track, hs] at ht
  | some s =>
      have hm : s.manualCopying = true := by simpa [Context.track, hs] using ht
      obtain ⟨htwin, -⟩ := hregistered.twin _ s hs hm
      obtain ⟨hlt, -⟩ := List.getElem?_eq_some_iff.mp htwin
      have hindex : TypeIndex.index (t + 1) = t.index + 1 := by
        unfold TypeIndex.index at hlt ⊢
        omega
      exact ⟨by rw [Context.track, hindex, List.getD_eq_getElem?_getD, htwin]; rfl, hindex⟩

/-- A type of the map has size zero if and only if it is a tag. -/
theorem isTag_of_mem (h : ctx.Built) (hreg : ctx.tracks.length ≤ 2 ^ 30) {x : GUID × TypeIndex}
    (hx : x ∈ ctx.hash2type) :
    ∃ i, ctx.infos[x.2.index]? = some i ∧ (x.2.isTag = true ↔ i.size = 0) := by
  induction h with
  | initial guid =>
      revert x
      cases guid <;> simp only [Context.initial, Context.registerType] <;> decide
  | @register ctx h desc ih =>
      have hlength := (registered_of_built h (by
        cases hfound : ctx.hash2type.lookup desc.guid with
        | none =>
            obtain ⟨i, s, he⟩ := Context.entered_registerType hfound
            rw [he.tracks, List.length_append] at hreg
            omega
        | some t =>
            have hsame : ctx.registerType desc = (ctx, t) := by
              rw [Context.registerType, hfound]
            rwa [hsame] at hreg)).length
      cases hfound : ctx.hash2type.lookup desc.guid with
      | none =>
          obtain ⟨i, s, he⟩ := Context.entered_registerType hfound
          have hlt : ctx.tracks.length < 2 ^ 30 := by
            refine Nat.lt_of_lt_of_le ?_ hreg
            rw [he.tracks, List.length_append]
            split_ifs <;> simp
          rw [he.map, List.mem_append, List.mem_singleton] at hx
          rcases hx with hx | rfl
          · obtain ⟨i', hi', htag⟩ := ih hlt.le hx
            exact ⟨i', he.infos ▸ getElem?_old hi', htag⟩
          · refine ⟨i, ?_, he.tag⟩
            rw [he.index (hlength ▸ hlt), he.infos, List.getElem?_append_right le_rfl, Nat.sub_self]
            split_ifs <;> rfl
      | some t =>
          have hsame : ctx.registerType desc = (ctx, t) := by
            rw [Context.registerType, hfound]
          rw [hsame] at hreg hx ⊢
          exact ih hreg hx

/-- The types of a registry, twins included. -/
def Context.HasType (ctx : Context) (t : TypeIndex) : Prop :=
  (∃ g, ctx.hash2type.lookup g = some t) ∨
    ∃ g u, ctx.hash2type.lookup g = some u ∧ (ctx.track u).manualCopying = true ∧ t = u + 1

theorem isTag_iff_size (h : ctx.Built) (hreg : ctx.tracks.length ≤ 2 ^ 30)
    (ht : ctx.HasType t) : t.isTag = true ↔ (ctx.info t).size = 0 := by
  have hmapped : ∀ g u, ctx.hash2type.lookup g = some u →
      (TypeIndex.isTag u = true ↔ (ctx.info u).size = 0) := by
    intro g u hu
    obtain ⟨l₁, l₂, hl, -⟩ := List.lookup_eq_some_iff.mp hu
    obtain ⟨i, hi, htag⟩ := isTag_of_mem (x := (g, u)) h hreg (by rw [hl]; simp)
    rw [htag, Context.info, List.getD_eq_getElem?_getD, hi]
    rfl
  rcases ht with ⟨g, hg⟩ | ⟨g, u, hu, hm, rfl⟩
  · exact hmapped g t hg
  · have hvalid : ctx.toValidType (u + 1) = u := by
      rw [Context.toValidType, if_pos (track_twin h hreg hm).1]
      rfl
    obtain ⟨hinfo, htag⟩ := h.paired.toValidType (u + 1)
    rw [hvalid] at hinfo htag
    rw [← hinfo, ← htag]
    exact hmapped g u hu

/-- In every run that looks up no unknown GUID, types are told apart and twins follow their
types. -/
theorem registry_of_run (h : RegistryRun RegistryCall.Known ctx returned) :
    Registry ctx returned := by
  suffices hinv : Registered ctx returned from hinv.registry
  induction h with
  | initial guid => exact registered_initial guid
  | register h desc hp ih => exact ih.register hp desc
  | load h guids hp ih =>
      rw [Context.lookupTypes_known hp]
      exact ih

end Registered

/-- A type with a twin is registered, and its GUID is loaded. -/
theorem registry_reloaded : ∃ ctx returned,
    RegistryRun RegistryCall.Known ctx returned ∧ Registry ctx returned ∧
    ctx.tracks.length = 6 := by
  have hrun : RegistryRun RegistryCall.Known _ _ :=
    .load (.register (.initial false) { guid := 10, size := 4, manualCopy := true }
      (show 4 < 2 ^ 30 by decide)) [10] fun uu hu => by
        obtain rfl := List.mem_singleton.mp hu
        decide
  exact ⟨_, _, hrun, registry_of_run hrun, by decide⟩

/-- Two GUIDs are loaded before their types are registered: both get type 0. -/
theorem not_registry_unknown : ∃ ctx returned,
    RegistryRun (fun ctx call => ∀ desc, call = .register desc → ctx.infos.length < 2 ^ 30)
      ctx returned ∧ ¬ Registry ctx returned := by
  have hrun : RegistryRun (fun ctx call => ∀ desc, call = .register desc →
      ctx.infos.length < 2 ^ 30) _ _ :=
    .register (.register (.load (.initial false) [10, 11] (by simp))
      { guid := 10, size := 4 } (fun _ _ => by decide)) { guid := 11, size := 4 }
        (fun _ _ => by decide)
  refine ⟨_, _, hrun, fun h => ?_⟩
  exact h.distinct _ List.mem_cons_self _ (List.mem_cons_of_mem _ List.mem_cons_self) (by decide)
    (by decide)

end Dots

import Dots.Database.Buffer

/-!
# `buffer::shrink`

Runs on a buffer in which it is shrunk at any time, `inlineSize` being the size of its slot.
-/

namespace Dots

open Library

namespace Buffer

/-- The loop of `shrink`: `newCap` is halved while it is more than twice the size. -/
def halve (size newCap : Nat) : Nat :=
  if newCap > size * 2 then halve size (newCap / 2) else newCap
termination_by newCap
decreasing_by omega

/-- `buffer::shrink`; `junk` is what is in the new block. -/
def shrink (junk : Mem) (inlineSize : Nat) (b : Buffer) : Option Buffer :=
  if b.size < inlineSize then some { b with d := none }
  else
    let newCap := halve b.size b.capacity
    if newCap ≠ b.capacity then
      if b.size ≤ b.data.size ∧ b.size ≤ newCap then
        some { b with
          d := some { size := newCap, bytes := junk.copy 0 b.data.bytes 0 b.size }
          capacity := newCap }
      else none
    else some b

/-- An operation with what is in the block it may allocate, or a `shrink`. -/
inductive ShrinkTurn
  | op (o : Turn)
  | shrink (inlineSize : Nat) (junk : Mem)

def shrinkTurn (b : Buffer) : ShrinkTurn → Option Buffer
  | .op o => b.turn o
  | .shrink inlineSize junk => b.shrink junk inlineSize

/-- Shrinking leaves the bytes. -/
def ShrinkStep (l : List UInt8) : ShrinkTurn → List UInt8 → Prop
  | .op o, l' => BytesStep l o l'
  | .shrink _ _, l' => l' = l

/-- The inline size is what there is in the slot. -/
def ShrinkValid (b : Buffer) : ShrinkTurn → Prop
  | .op o => b.Valid o
  | .shrink inlineSize _ => inlineSize = b.slot.size

/-- The bytes are in the slot, or there are too many for it, or the block is as large as the slot
and what is left in the slot is what is in the block. -/
def ShrinkMeets (b : Buffer) : ShrinkTurn → Prop
  | .op o => b.Meets o
  | .shrink inlineSize _ => b.d = none ∨ inlineSize ≤ b.size ∨
      b.capacity = inlineSize ∧ b.slot.bytes.read 0 b.size = b.data.bytes.read 0 b.size

def ShrinkValidAlong : List ShrinkTurn → Buffer → Prop := Along shrinkTurn ShrinkValid

def ShrinkMeetsAlong : List ShrinkTurn → Buffer → Prop := Along shrinkTurn ShrinkMeets

/-- No access leaves the bytes there are, and the buffer refines the bytes in every state. -/
def ShrinkAlong : List ShrinkTurn → Buffer → List UInt8 → Prop :=
  RefinesAlong shrinkTurn ShrinkStep Refines

variable {b b' : Buffer} {l l' : List UInt8} {junk : Mem} {n : Nat}

theorem halve_le (size newCap : Nat) : halve size newCap ≤ newCap := by
  fun_induction halve size newCap with
  | case1 newCap hmore ih => exact ih.trans (Nat.div_le_self ..)
  | case2 newCap hmore => exact le_rfl

/-- Halving stops above the size. -/
theorem le_halve {size newCap : Nat} (h : size ≤ newCap) : size ≤ halve size newCap := by
  fun_induction halve size newCap with
  | case1 newCap hmore ih => exact ih (by omega)
  | case2 newCap hmore => exact h

/-- The bytes move to a block of the halved capacity, or stay. -/
theorem Tracks.shrink_block (h : b.Tracks l) (junk : Mem) (hn : n ≤ b.size) :
    ∃ b', b.shrink junk n = some b' ∧ b'.Tracks l := by
  have hle := h.size
  have hcap := le_halve hle
  rw [shrink, if_neg (not_lt.mpr hn)]
  by_cases hchange : halve b.size b.capacity ≠ b.capacity
  · refine ⟨_, (if_pos hchange).trans (if_pos ⟨hle.trans h.capacity.le, hcap⟩),
      ⟨⟨rfl, hcap, ?_⟩, (halve_le ..).trans_lt h.small⟩⟩
    rw [← h.bytes]
    refine Mem.read_eq fun i hi => ?_
    rw [Nat.zero_add]
    change junk.copy 0 b.data.bytes 0 b.size i = b.data.bytes i
    rw [Mem.copy_of_mem _ _ _ (Nat.zero_le i) (by rwa [Nat.zero_add]), Nat.zero_add, Nat.sub_zero]
  · exact ⟨b, if_neg hchange, h⟩

theorem Tracks.shrink (h : b.Tracks l) (hvalid : b.ShrinkValid (.shrink n junk))
    (hmeets : b.ShrinkMeets (.shrink n junk)) :
    ∃ b', b.shrink junk n = some b' ∧ b'.Tracks l := by
  obtain rfl : n = b.slot.size := hvalid
  by_cases hfew : b.size < b.slot.size
  · refine ⟨{ b with d := none }, if_pos hfew, ?_⟩
    rcases hmeets with hinline | hmany | ⟨hcap, hsame⟩
    · rwa [← hinline]
    · omega
    · exact ⟨⟨hcap, h.size, hsame.trans h.bytes⟩, h.small⟩
  · exact h.shrink_block junk (not_lt.mp hfew)

/-- The block is given up with what is in it, or the capacity stays that of the block. -/
theorem Tracks.shrink_breaks (h : b.Tracks l) (hvalid : b.ShrinkValid (.shrink n junk))
    (hmeets : ¬ b.ShrinkMeets (.shrink n junk)) (hs : b.shrink junk n = some b') :
    ¬ b'.Refines l := by
  intro hrefines
  obtain rfl : n = b.slot.size := hvalid
  simp only [ShrinkMeets, not_or, not_le] at hmeets
  obtain ⟨-, hfew, hlost⟩ := hmeets
  rw [Buffer.shrink, if_pos hfew] at hs
  obtain rfl := Option.some.inj hs
  exact hlost ⟨hrefines.capacity, hrefines.bytes.trans h.bytes.symm⟩

theorem decides_shrink :
    Decides shrinkTurn ShrinkStep Refines ShrinkValid ShrinkMeets Tracks where
  refines h := h.toRefines
  unique h h' := h.bytes.symm.trans h'.bytes
  keeps h hvalid hmeets := by
    rename_i b l o
    cases o with
    | op o => exact h.keeps hvalid hmeets
    | shrink n junk =>
        obtain ⟨b', hs, hb'⟩ := h.shrink hvalid hmeets
        exact ⟨b', l, hs, rfl, hb'⟩
  breaks h hvalid hmeets hs hstep := by
    rename_i b l o b' l'
    cases o with
    | op o => exact h.breaks hmeets hs hstep
    | shrink n junk =>
        obtain rfl : l' = l := hstep
        exact h.shrink_breaks hvalid hmeets hs

/-- Any run on a buffer in a column of `sz` bytes, with shrinks anywhere in it. -/
theorem shrinkAlong_iff {sz : Nat} (hpos : 0 < sz) (hsz : sz < 2 ^ 16) (junk : Mem)
    {run : List ShrinkTurn} (hvalid : ShrinkValidAlong run (construct sz junk)) :
    ShrinkAlong run (construct sz junk) [] ↔
      sizeofBuffer ≤ sz ∧ ShrinkMeetsAlong run (construct sz junk) := by
  rcases Nat.lt_or_ge sz sizeofBuffer with hheader | hheader
  · constructor
    · exact fun hrun => absurd hrun.refines (not_refines_construct hpos hheader junk [])
    · exact fun h => absurd h.1 (not_le.mpr hheader)
  · have hiff := decides_shrink.refinesAlong_iff (tracks_construct hheader hsz junk) hvalid
    exact hiff.trans ⟨fun h => ⟨hheader, h⟩, fun h => h.2⟩

/-- Four bytes go to a block, which is halved to the eight bytes of the slot, and come back to the
slot, where they still are. -/
theorem shrinkAlong_fromBlock : ShrinkAlong
    [.op (.push [1, 2, 3, 4], fun _ => 0), .op (.reserve 17 1, fun _ => 0),
      .op (.push [5, 6, 7, 8], fun _ => 0), .shrink 8 fun _ => 0, .op (.pop 4, fun _ => 0),
      .shrink 8 fun _ => 0] (construct 24 fun _ => 0) [] := by
  have hhalve : halve 8 17 = 8 := by
    rw [halve, if_pos (by decide), halve, if_neg (by decide)]
  have hshrink : ∀ b : Buffer, b.size = 8 → b.capacity = 17 → b.data.size = 17 →
      b.shrinkTurn (.shrink 8 fun _ => 0) = some { b with
        d := some { size := 8, bytes := Mem.copy (fun _ => 0) 0 b.data.bytes 0 8 }
        capacity := 8 } := by
    intro b hsize hcap hdata
    rw [shrinkTurn, shrink, if_neg (by omega), hsize, hcap, hhalve, if_pos (by decide),
      if_pos (by omega)]
  have hshort : 4 < 2 ^ 16 := by decide
  have hreserve : 17 < 2 ^ 16 := by decide
  have htaken : 4 ≤ 8 := by decide
  have hinline : 0 + 4 < 8 := by decide
  have hdouble : 8 < 2 ^ 15 := by decide
  have hinside : 4 + 4 < 17 := by decide
  refine (shrinkAlong_iff (by decide) (by decide) _ ?_).mpr ⟨by decide, ?_⟩
  · exact Along.cons rfl hshort (Along.cons rfl hreserve (Along.cons rfl hshort
      (Along.cons (hshrink _ rfl rfl rfl) rfl (Along.cons rfl htaken ⟨rfl, fun _ _ => trivial⟩))))
  · exact Along.cons rfl (Or.inl hinline) (Along.cons rfl (Or.inr (Or.inl hdouble))
      (Along.cons rfl (Or.inl hinside) (Along.cons (hshrink _ rfl rfl rfl)
        (Or.inr (Or.inl (le_refl 8))) (Along.cons rfl trivial
          ⟨Or.inr (Or.inr ⟨rfl, rfl⟩), fun _ _ => trivial⟩))))

/-- A block is reserved, four bytes are pushed to it, and the buffer is shrunk: they are lost. -/
theorem not_shrinkAlong_reserved :
    ShrinkValidAlong [.op (.reserve 16 1, fun _ => 0), .op (.push [1, 2, 3, 4], fun _ => 0),
      .shrink 8 fun _ => 0] (construct 24 fun _ => 0) ∧
    ¬ ShrinkAlong [.op (.reserve 16 1, fun _ => 0), .op (.push [1, 2, 3, 4], fun _ => 0),
      .shrink 8 fun _ => 0] (construct 24 fun _ => 0) [] := by
  have hreserve : 16 < 2 ^ 16 := by decide
  have hshort : 4 < 2 ^ 16 := by decide
  have hvalid : ShrinkValidAlong [.op (.reserve 16 1, fun _ => 0),
      .op (.push [1, 2, 3, 4], fun _ => 0), .shrink 8 fun _ => 0] (construct 24 fun _ => 0) :=
    Along.cons rfl hreserve (Along.cons rfl hshort ⟨rfl, fun _ _ => trivial⟩)
  refine ⟨hvalid, fun hrun => ?_⟩
  have hmeets := (decides_shrink.refinesAlong_iff (tracks_construct (by decide) (by decide) _)
    hvalid).mp hrun
  rcases ((hmeets.2 _ rfl).2 _ rfl).1 with hinline | hmany | ⟨hcap, -⟩
  · exact Option.some_ne_none _ hinline
  · exact absurd hmany (by decide : ¬ 8 ≤ 4)
  · exact absurd hcap (by decide : ¬ 16 = 8)

end Buffer

end Dots

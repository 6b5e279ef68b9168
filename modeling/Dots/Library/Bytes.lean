import Mathlib.Algebra.GroupWithZero.Nat
import Mathlib.Data.List.Basic
import Mathlib.Tactic.Common

/-!
# Byte memories

A block of memory is a total map from addresses to bytes. Words are little
endian. Copies read the source before they write, so one map may be both
source and destination.
-/

namespace Dots.Library

abbrev Mem := Nat → UInt8

namespace Mem

/-- `memcpy(m + d, src + s, n)`. -/
def copy (m : Mem) (d : Nat) (src : Mem) (s n : Nat) : Mem := fun x =>
  if d ≤ x ∧ x < d + n then src (s + (x - d)) else m x

/-- `memset(m + d, b, n)`. -/
def fill (m : Mem) (d : Nat) (b : UInt8) (n : Nat) : Mem := fun x =>
  if d ≤ x ∧ x < d + n then b else m x

/-- The bytes `[a, a + n)`. -/
def read (m : Mem) (a n : Nat) : List UInt8 :=
  (List.range n).map fun i => m (a + i)

/-- Store a list of bytes from `a` on. -/
def write (m : Mem) (a : Nat) (bs : List UInt8) : Mem := fun x =>
  if a ≤ x ∧ x < a + bs.length then bs.getD (x - a) 0 else m x

/-- The little-endian word of `n` bytes at `a`. -/
def readWord (m : Mem) (a : Nat) : Nat → Nat
  | 0 => 0
  | n + 1 => (m a).toNat + 256 * readWord m (a + 1) n

/-- Store the low `n` bytes of `v` at `a`, little endian. -/
def writeWord (m : Mem) (a v : Nat) (n : Nat) : Mem := fun x =>
  if a ≤ x ∧ x < a + n then UInt8.ofNat (v / 256 ^ (x - a)) else m x

/-- Store the 4-byte words `v 0`, …, `v (n - 1)` from `a` on. -/
def writeWords (m : Mem) (a : Nat) (v : Nat → Nat) (n : Nat) : Mem := fun x =>
  if a ≤ x ∧ x < a + 4 * n then UInt8.ofNat (v ((x - a) / 4) / 256 ^ ((x - a) % 4)) else m x

theorem copy_of_lt (m src : Mem) (s n : Nat) {d x : Nat} (h : x < d) :
    m.copy d src s n x = m x := by
  simp only [copy]
  rw [if_neg (by omega)]

theorem copy_of_ge (m src : Mem) (s : Nat) {d n x : Nat} (h : d + n ≤ x) :
    m.copy d src s n x = m x := by
  simp only [copy]
  rw [if_neg (by omega)]

theorem copy_of_mem (m src : Mem) (s : Nat) {d n x : Nat} (h : d ≤ x) (h' : x < d + n) :
    m.copy d src s n x = src (s + (x - d)) := by
  simp only [copy]
  rw [if_pos ⟨h, h'⟩]

/-- Two memories that agree on `[a, a + n)` hold the same word there. -/
theorem readWord_congr {m m' : Mem} {a b n : Nat} (h : ∀ i < n, m (a + i) = m' (b + i)) :
    m.readWord a n = m'.readWord b n := by
  induction n generalizing a b with
  | zero => rfl
  | succ n ih =>
      have h0 : m a = m' b := by simpa using h 0 (by omega)
      have hs : m.readWord (a + 1) n = m'.readWord (b + 1) n := by
        apply ih
        intro i hi
        simpa only [Nat.add_assoc, Nat.add_comm 1] using h (i + 1) (by omega)
      simp only [readWord, h0, hs]

theorem read_eq {m m' : Mem} {a b n : Nat} (h : ∀ i < n, m (a + i) = m' (b + i)) :
    m.read a n = m'.read b n := by
  apply List.map_congr_left
  intro i hi
  exact h i (List.mem_range.mp hi)

theorem read_inj {m m' : Mem} {a b n : Nat} (h : m.read a n = m'.read b n) {i : Nat}
    (hi : i < n) : m (a + i) = m' (b + i) :=
  List.map_inj_left.mp h i (List.mem_range.mpr hi)

theorem readWord_lt (m : Mem) (a n : Nat) : m.readWord a n < 256 ^ n := by
  induction n generalizing a with
  | zero => simp [readWord]
  | succ n ih =>
      have h := ih (a + 1)
      have hb := (m a).toNat_lt
      simp only [readWord, Nat.pow_succ]
      omega

theorem writeWord_of_lt (m : Mem) (v n : Nat) {a x : Nat} (h : x < a) :
    m.writeWord a v n x = m x := by
  simp only [writeWord]
  rw [if_neg (by omega)]

theorem writeWord_of_ge (m : Mem) (v : Nat) {a n x : Nat} (h : a + n ≤ x) :
    m.writeWord a v n x = m x := by
  simp only [writeWord]
  rw [if_neg (by omega)]

theorem readWord_writeWord (m : Mem) (a v n : Nat) :
    (m.writeWord a v n).readWord a n = v % 256 ^ n := by
  -- the suffix from byte `k` on holds the quotient by `256 ^ k`
  have key : ∀ k j, k + j = n →
      (m.writeWord a v n).readWord (a + k) j = v / 256 ^ k % 256 ^ j := by
    intro k j hkj
    induction j generalizing k with
    | zero => simp [readWord, Nat.mod_one]
    | succ j ih =>
        have hb : m.writeWord a v n (a + k) = UInt8.ofNat (v / 256 ^ k) := by
          simp only [writeWord]
          rw [if_pos ⟨by omega, by omega⟩]
          simp
        have ht := ih (k + 1) (by omega)
        rw [← Nat.add_assoc] at ht
        have hk : v / 256 ^ (k + 1) = v / 256 ^ k / 256 := by
          rw [Nat.pow_succ, Nat.div_div_eq_div_mul]
        have hj : 256 ^ (j + 1) = 256 * 256 ^ j := by
          rw [Nat.pow_succ, Nat.mul_comm]
        rw [readWord, hb, ht, hk, hj, Nat.mod_mul]
        rfl
  have h0 := key 0 n (by omega)
  simpa using h0

theorem readWord_write (m : Mem) (a v n : Nat) (hv : v < 256 ^ n) :
    (m.writeWord a v n).readWord a n = v := by
  rw [readWord_writeWord, Nat.mod_eq_of_lt hv]

/-! ## Arrays of words -/

theorem writeWords_of_lt (m : Mem) (v : Nat → Nat) (n : Nat) {a x : Nat} (h : x < a) :
    m.writeWords a v n x = m x := by
  simp only [writeWords]
  rw [if_neg (by omega)]

theorem writeWords_of_eq {m m' : Mem} {a n x : Nat} {v : Nat → Nat} (h : m' x = m x) :
    m'.writeWords a v n x = m.writeWords a v n x := by
  simp only [writeWords]
  split_ifs
  · rfl
  · exact h

theorem readWord_writeWords (m : Mem) (a : Nat) (v : Nat → Nat) {n i : Nat} (hi : i < n) :
    (m.writeWords a v n).readWord (a + 4 * i) 4 = v i % 2 ^ 32 := by
  have hone : (m.writeWords a v n).readWord (a + 4 * i) 4 =
      (m.writeWord (a + 4 * i) (v i) 4).readWord (a + 4 * i) 4 := by
    refine readWord_congr fun y hy => ?_
    have hdiv : (a + 4 * i + y - a) / 4 = i := by omega
    have hmod : (a + 4 * i + y - a) % 4 = a + 4 * i + y - (a + 4 * i) := by omega
    simp only [writeWords, writeWord]
    rw [if_pos (by omega), if_pos (by omega), hdiv, hmod]
  exact hone.trans (readWord_writeWord ..)

theorem writeWords_congr (m : Mem) (a : Nat) {u v : Nat → Nat} {n : Nat}
    (h : ∀ i < n, u i = v i) : m.writeWords a u n = m.writeWords a v n := by
  funext x
  simp only [writeWords]
  split_ifs with hx
  · rw [h _ (by omega)]
  · rfl

/-- Words that are stored again. -/
theorem writeWords_writeWords (m : Mem) (a : Nat) (u v : Nat → Nat) (n : Nat) :
    (m.writeWords a u n).writeWords a v n = m.writeWords a v n := by
  funext x
  simp only [writeWords]
  split_ifs <;> rfl

/-- The bytes of a filled range. -/
theorem read_fill (m : Mem) (b : UInt8) {d a k n : Nat} (h : d ≤ a) (h' : a + n ≤ d + k) :
    (m.fill d b k).read a n = List.replicate n b := by
  rw [read, List.eq_replicate_iff]
  refine ⟨by rw [List.length_map, List.length_range], fun x hx => ?_⟩
  obtain ⟨i, hi, rfl⟩ := List.mem_map.mp hx
  rw [List.mem_range] at hi
  exact if_pos ⟨by omega, by omega⟩

/-- Storing a list of bytes replaces the front of what is read there. -/
theorem read_write (m : Mem) (a : Nat) {bs : List UInt8} {n : Nat} (h : bs.length ≤ n) :
    (m.write a bs).read a n = bs ++ (m.read a n).drop bs.length := by
  apply List.ext_getElem
  · simp only [read, List.length_map, List.length_range, List.length_append, List.length_drop]
    omega
  · intro i hi hi'
    simp only [read, List.length_map, List.length_range] at hi
    simp only [read, List.getElem_map, List.getElem_range, write]
    by_cases hlt : i < bs.length
    · rw [if_pos ⟨Nat.le_add_right .., by omega⟩, Nat.add_sub_cancel_left,
        List.getElem_append_left hlt, List.getD_eq_getElem?_getD, List.getElem?_eq_getElem hlt,
        Option.getD_some]
    · rw [if_neg (by omega), List.getElem_append_right (Nat.not_lt.mp hlt), List.getElem_drop,
        List.getElem_map, List.getElem_range, Nat.add_sub_cancel' (Nat.not_lt.mp hlt)]

@[simp] theorem length_read (m : Mem) (a n : Nat) : (m.read a n).length = n := by
  rw [read, List.length_map, List.length_range]

/-- Bytes that are read in one memory and stored in another. -/
theorem write_read_at (m m₀ : Mem) (p q : Nat) {n x : Nat} (hx : x < n) :
    m.write p (m₀.read q n) (p + x) = m₀ (q + x) := by
  rw [write, length_read, if_pos ⟨Nat.le_add_right .., by omega⟩, Nat.add_sub_cancel_left, read,
    List.getD_eq_getElem?_getD, List.getElem?_map, List.getElem?_range hx, Option.map_some,
    Option.getD_some]

/-! ## Words as lists of bytes -/

/-- The low `n` bytes of `v`, little endian. -/
def wordBytes (v : Nat) : Nat → List UInt8
  | 0 => []
  | n + 1 => UInt8.ofNat v :: wordBytes (v / 256) n

/-- The little-endian number a list of bytes stands for. -/
def ofBytes : List UInt8 → Nat
  | [] => 0
  | b :: bs => b.toNat + 256 * ofBytes bs

@[simp] theorem length_wordBytes (v n : Nat) : (wordBytes v n).length = n := by
  induction n generalizing v with
  | zero => rfl
  | succ n ih => simp [wordBytes, ih]

theorem ofBytes_wordBytes {v n : Nat} (hv : v < 256 ^ n) : ofBytes (wordBytes v n) = v := by
  induction n generalizing v with
  | zero =>
      rw [Nat.pow_zero, Nat.lt_one_iff] at hv
      simp [wordBytes, ofBytes, hv]
  | succ n ih =>
      have hq : v / 256 < 256 ^ n := by
        rw [Nat.pow_succ, Nat.mul_comm] at hv
        exact Nat.div_lt_of_lt_mul hv
      rw [wordBytes, ofBytes, ih hq, UInt8.toNat_ofNat']
      exact Nat.mod_add_div v 256

/-- A word is the number its bytes stand for. -/
theorem readWord_eq_ofBytes (m : Mem) (a n : Nat) : m.readWord a n = ofBytes (m.read a n) := by
  induction n generalizing a with
  | zero => rfl
  | succ n ih =>
      have hrest : m.read a (n + 1) = m a :: m.read (a + 1) n := by
        rw [read, List.range_succ_eq_map, List.map_cons, List.map_map, read]
        refine congrArg _ (List.map_congr_left fun i _ => ?_)
        rw [Function.comp_apply, Nat.succ_eq_add_one, Nat.add_assoc, Nat.add_comm 1]
      rw [readWord, ih, hrest, ofBytes]

/-- Read `n` bytes off a stream; past its end there is nothing to read. -/
def take (n : Nat) (bs : List UInt8) : Option (List UInt8 × List UInt8) :=
  if bs.length < n then none else some (bs.take n, bs.drop n)

theorem take_append {n : Nat} {bs rest : List UInt8} (h : bs.length = n) :
    take n (bs ++ rest) = some (bs, rest) := by
  subst h
  simp [take]

theorem length_take {n : Nat} {bs b rest : List UInt8} (h : take n bs = some (b, rest)) :
    rest.length + n = bs.length := by
  rw [take] at h
  split_ifs at h
  obtain ⟨-, rfl⟩ := Prod.mk.inj (Option.some.inj h)
  rw [List.length_drop]
  omega

/-- Read a word of `n` bytes off a stream. -/
def takeWord (n : Nat) (bs : List UInt8) : Option (Nat × List UInt8) :=
  (take n bs).map fun (w, rest) => (ofBytes w, rest)

theorem length_takeWord {n v : Nat} {bs rest : List UInt8} (h : takeWord n bs = some (v, rest)) :
    rest.length + n = bs.length := by
  obtain ⟨⟨b, rest'⟩, hb, heq⟩ := Option.map_eq_some_iff.mp h
  obtain ⟨-, rfl⟩ := Prod.mk.inj heq
  exact length_take hb

/-- Read `k` items off a stream. -/
def takeMany {α : Type*} (item : List UInt8 → Option (α × List UInt8)) :
    Nat → List UInt8 → Option (List α × List UInt8)
  | 0, bs => some ([], bs)
  | k + 1, bs => do
      let (x, bs) ← item bs
      let (xs, bs) ← takeMany item k bs
      some (x :: xs, bs)

/-- A reader that takes bytes off a stream, or none. -/
def Takes {α : Type*} (item : List UInt8 → Option (α × List UInt8)) : Prop :=
  ∀ bs x rest, item bs = some (x, rest) → rest.length ≤ bs.length

theorem takes_many {α : Type*} {item : List UInt8 → Option (α × List UInt8)} (h : Takes item)
    (k : Nat) : Takes (takeMany item k) := by
  induction k with
  | zero =>
      intro bs xs rest hs
      obtain ⟨-, rfl⟩ := Prod.mk.inj (Option.some.inj hs)
      exact Nat.le_refl _
  | succ k ih =>
      intro bs xs rest hs
      simp only [takeMany, Option.bind_eq_bind, Option.bind_eq_some_iff] at hs
      obtain ⟨⟨x, bs₁⟩, hx, ⟨ys, bs₂⟩, hys, heq⟩ := hs
      obtain ⟨-, rfl⟩ := Prod.mk.inj (Option.some.inj heq)
      exact Nat.le_trans (ih _ _ _ hys) (h _ _ _ hx)

/-! ## Which bytes a write can change -/

/-- The two memories agree outside `W`. -/
def SameOff (W : Nat → Prop) (m m' : Mem) : Prop := ∀ x, ¬ W x → m' x = m x

namespace SameOff

variable {W W' : Nat → Prop} {m m' m'' : Mem}

theorem refl (W : Nat → Prop) (m : Mem) : SameOff W m m := fun _ _ => rfl

theorem trans (h : SameOff W m m') (h' : SameOff W m' m'') : SameOff W m m'' :=
  fun x hx => (h' x hx).trans (h x hx)

theorem mono (h : SameOff W m m') (hW : ∀ x, W x → W' x) : SameOff W' m m' :=
  fun x hx => h x fun hw => hx (hW x hw)

theorem copy (src : Mem) (s : Nat) {d n : Nat} (hW : ∀ x, d ≤ x → x < d + n → W x) :
    SameOff W m (m.copy d src s n) := by
  intro x hx
  simp only [Mem.copy]
  split_ifs with h
  · exact absurd (hW x h.1 h.2) hx
  · rfl

theorem fill (b : UInt8) {d n : Nat} (hW : ∀ x, d ≤ x → x < d + n → W x) :
    SameOff W m (m.fill d b n) := by
  intro x hx
  simp only [Mem.fill]
  split_ifs with h
  · exact absurd (hW x h.1 h.2) hx
  · rfl

theorem write {a : Nat} {bs : List UInt8} (hW : ∀ x, a ≤ x → x < a + bs.length → W x) :
    SameOff W m (m.write a bs) := by
  intro x hx
  simp only [Mem.write]
  split_ifs with h
  · exact absurd (hW x h.1 h.2) hx
  · rfl

theorem writeWord (v : Nat) {a n : Nat} (hW : ∀ x, a ≤ x → x < a + n → W x) :
    SameOff W m (m.writeWord a v n) := by
  intro x hx
  simp only [Mem.writeWord]
  split_ifs with h
  · exact absurd (hW x h.1 h.2) hx
  · rfl

/-- A loop whose turns agree outside `W` does so as a whole. -/
theorem foldl {β : Type*} {f : Mem → β → Mem} {l : List β}
    (hf : ∀ b ∈ l, ∀ m, SameOff W m (f m b)) (m : Mem) : SameOff W m (l.foldl f m) := by
  induction l generalizing m with
  | nil => exact refl W m
  | cons b l ih =>
      exact (hf b List.mem_cons_self m).trans
        (ih (fun c hc => hf c (List.mem_cons_of_mem b hc)) (f m b))

/-- A loop whose turns write apart from one another: where only the turn of `b` writes, the
loop leaves what that turn makes of the bytes there. -/
theorem foldl_turn {β : Type*} {f : Mem → β → Mem} {l : List β} {b : β} {R : Nat → Prop}
    (hnd : l.Nodup) (hb : b ∈ l) (hf : ∀ c ∈ l, c ≠ b → ∀ m, SameOff (fun x => ¬ R x) m (f m c))
    (m : Mem) : ∃ m', SameOff (fun x => ¬ R x) m m' ∧
      SameOff (fun x => ¬ R x) (f m' b) (l.foldl f m) := by
  obtain ⟨l₁, l₂, rfl⟩ := List.append_of_mem hb
  obtain ⟨-, hnd₂, hapart⟩ := List.nodup_append.mp hnd
  refine ⟨l₁.foldl f m, foldl (fun c hc => ?_) m, ?_⟩
  · exact hf c (List.mem_append_left _ hc) (hapart c hc b List.mem_cons_self)
  · rw [List.foldl_append, List.foldl_cons]
    apply foldl
    intro c hc
    apply hf c (List.mem_append_right _ (List.mem_cons_of_mem _ hc))
    rintro rfl
    exact (List.nodup_cons.mp hnd₂).1 hc

end SameOff

end Mem

end Dots.Library

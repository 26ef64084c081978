import Mathlib.Algebra.Order.Ring.Nat
import Mathlib.Tactic.Common

/-!
Memory as bytes, numbers in it, and the layout of C structures over it.

`load` and `store` are the little-endian accesses of a machine that does not
trap. A `CStruct` is a list of fields with the size and alignment of each;
`offset` is the layout rule every C compiler and `ctypes` follow, each field at
the next multiple of its alignment. What a store through one structure does to
a load through the same one is settled here once (`load_store_self`,
`load_store_of_ne`); between two structures nothing of the kind holds in
general, and what does hold is read off the bytes by `load_eq_load_iff` and
`load_eq_zero_iff`.
-/

namespace Bytes

abbrev Memory : Type := ℕ → BitVec 8

/-- The number in the `w` bytes at `a`, the least significant first. -/
def load (m : Memory) (a : ℕ) : ℕ → ℕ
  | 0 => 0
  | w + 1 => (m a).toNat + 256 * load m (a + 1) w

def digit (v i : ℕ) : BitVec 8 := BitVec.ofNat 8 (v / 256 ^ i)

/-- Put the `w` lowest bytes of `v` at `a`. -/
def store (m : Memory) (a w v : ℕ) : Memory :=
  fun i => if a ≤ i ∧ i < a + w then digit v (i - a) else m i

section Access

variable {m m' : Memory} {a w v i : ℕ}

theorem store_of_mem (hi : a ≤ i) (hlt : i < a + w) :
    store m a w v i = digit v (i - a) := if_pos ⟨hi, hlt⟩

theorem store_of_not_mem (h : i < a ∨ a + w ≤ i) : store m a w v i = m i :=
  if_neg (by omega)

theorem digit_zero_toNat (v : ℕ) : (digit v 0).toNat = v % 256 := by
  rw [digit, pow_zero, Nat.div_one, BitVec.toNat_ofNat]

theorem digit_succ (v i : ℕ) : digit v (i + 1) = digit (v / 256) i := by
  rw [digit, digit, pow_succ', ← Nat.div_div_eq_div_mul]

/-- A load looks at its own bytes only, and tells any two of them apart. -/
theorem load_eq_load_iff :
    load m a w = load m' a w ↔ ∀ i, a ≤ i → i < a + w → m i = m' i := by
  induction w generalizing a with
  | zero =>
      refine ⟨?_, ?_⟩
      · intro _ i hi hlt
        omega
      · intro _
        rfl
  | succ w ih =>
      have hb : (m a).toNat < 256 := (m a).isLt
      have hb' : (m' a).toNat < 256 := (m' a).isLt
      refine ⟨?_, ?_⟩
      · intro h i hi hlt
        simp only [load] at h
        have hhead : m a = m' a := BitVec.eq_of_toNat_eq (by omega)
        have htail := ih.mp (show load m (a + 1) w = load m' (a + 1) w by omega)
        rcases Nat.eq_or_lt_of_le hi with rfl | hi
        · exact hhead
        · apply htail i hi
          omega
      · intro h
        have htail : load m (a + 1) w = load m' (a + 1) w := by
          apply ih.mpr
          intro i hi hlt
          apply h <;> omega
        simp only [load]
        rw [htail, h a (le_refl a) (by omega)]

theorem load_congr (h : ∀ i, a ≤ i → i < a + w → m i = m' i) :
    load m a w = load m' a w := load_eq_load_iff.mpr h

theorem load_eq_zero_iff : load m a w = 0 ↔ ∀ i, a ≤ i → i < a + w → m i = 0 := by
  have hzero : ∀ a, load (fun _ => 0) a w = 0 := by
    induction w with
    | zero =>
        intro a
        rfl
    | succ w ih =>
        intro a
        rw [load, ih]
        rfl
  have hsame := @load_eq_load_iff m (fun _ => 0) a w
  rwa [hzero] at hsame

theorem load_store (m : Memory) (a w v : ℕ) : load (store m a w v) a w = v % 256 ^ w := by
  induction w generalizing a v m with
  | zero => rw [load, pow_zero, Nat.mod_one]
  | succ w ih =>
      have htail : load (store m a (w + 1) v) (a + 1) w =
          load (store m (a + 1) w (v / 256)) (a + 1) w := by
        apply load_congr
        intro i hi hlt
        rw [store_of_mem (by omega) (by omega), store_of_mem hi hlt, ← digit_succ]
        congr 1
        omega
      rw [load, store_of_mem (le_refl a) (by omega), Nat.sub_self, digit_zero_toNat, htail, ih,
        pow_succ', Nat.mod_mul]

theorem load_store_disjoint {a' w' : ℕ} (h : a' + w' ≤ a ∨ a + w ≤ a') :
    load (store m a w v) a' w' = load m a' w' := by
  apply load_congr
  intro i hi hlt
  apply store_of_not_mem
  omega

end Access

/-! ### Words -/

def storeWords (m : Memory) (a : ℕ) : List (BitVec 32) → Memory
  | [] => m
  | v :: vs => storeWords (store m a 4 v.toNat) (a + 4) vs

def loadWords (m : Memory) (a : ℕ) : ℕ → List (BitVec 32)
  | 0 => []
  | n + 1 => BitVec.ofNat 32 (load m a 4) :: loadWords m (a + 4) n

section Words

variable {m m' : Memory} {a a' i n : ℕ} {ws : List (BitVec 32)}

@[simp] theorem length_loadWords (m : Memory) (a n : ℕ) : (loadWords m a n).length = n := by
  induction n generalizing a with
  | zero => rfl
  | succ n ih => rw [loadWords, List.length_cons, ih]

theorem getElem?_loadWords (hi : i < n) :
    (loadWords m a n)[i]? = some (BitVec.ofNat 32 (load m (a + 4 * i) 4)) := by
  induction n generalizing a i with
  | zero => exact absurd hi (Nat.not_lt_zero i)
  | succ n ih =>
      cases i with
      | zero => rfl
      | succ i =>
          rw [loadWords, List.getElem?_cons_succ, ih (Nat.lt_of_succ_lt_succ hi), Nat.mul_add,
            Nat.mul_one, Nat.add_right_comm, Nat.add_assoc]

theorem loadWords_congr (h : ∀ i, a ≤ i → i < a + 4 * n → m i = m' i) :
    loadWords m a n = loadWords m' a n := by
  induction n generalizing a with
  | zero => rfl
  | succ n ih =>
      have hhead : load m a 4 = load m' a 4 := by
        apply load_congr
        intro i hi hlt
        apply h i hi
        omega
      have htail : loadWords m (a + 4) n = loadWords m' (a + 4) n := by
        apply ih
        intro i hi hlt
        apply h i <;> omega
      rw [loadWords, loadWords, hhead, htail]

theorem storeWords_of_not_mem (h : i < a ∨ a + 4 * ws.length ≤ i) :
    storeWords m a ws i = m i := by
  induction ws generalizing m a with
  | nil => rfl
  | cons v vs ih =>
      rw [List.length_cons] at h
      rw [storeWords, ih (by omega)]
      apply store_of_not_mem
      omega

theorem loadWords_storeWords_disjoint (h : a' + 4 * n ≤ a ∨ a + 4 * ws.length ≤ a') :
    loadWords (storeWords m a ws) a' n = loadWords m a' n := by
  apply loadWords_congr
  intro i hi hlt
  apply storeWords_of_not_mem
  omega

theorem ofNat_load_store (m : Memory) (a : ℕ) (v : BitVec 32) :
    BitVec.ofNat 32 (load (store m a 4 v.toNat) a 4) = v := by
  have hlt : v.toNat < 256 ^ 4 := v.isLt
  rw [load_store, Nat.mod_eq_of_lt hlt, BitVec.ofNat_toNat, BitVec.setWidth_eq]

theorem loadWords_storeWords (h : ws.length ≤ n) :
    loadWords (storeWords m a ws) a n = ws ++ (loadWords m a n).drop ws.length := by
  induction ws generalizing m a n with
  | nil => rfl
  | cons v vs ih =>
      cases n with
      | zero => exact absurd h (by simp)
      | succ n =>
          rw [List.length_cons] at h
          have hhead : load (storeWords (store m a 4 v.toNat) (a + 4) vs) a 4 =
              load (store m a 4 v.toNat) a 4 := by
            apply load_congr
            intro i _ hlt
            exact storeWords_of_not_mem (.inl hlt)
          have hrest : loadWords (store m a 4 v.toNat) (a + 4) n = loadWords m (a + 4) n := by
            apply loadWords_congr
            intro i hi _
            exact store_of_not_mem (.inr hi)
          rw [storeWords, loadWords, hhead, ofNat_load_store, ih (by omega), hrest, loadWords,
            List.length_cons, List.drop_succ_cons, List.cons_append]

end Words

/-! ### Structures -/

/-- The least multiple of `k` that is at least `n`. -/
def alignUp (k n : ℕ) : ℕ := (n + (k - 1)) / k * k

theorem le_alignUp {k : ℕ} (hk : 0 < k) (n : ℕ) : n ≤ alignUp k n := by
  have h := Nat.div_add_mod (n + (k - 1)) k
  have hlt := Nat.mod_lt (n + (k - 1)) hk
  rw [Nat.mul_comm] at h
  unfold alignUp
  omega

/-- The fields of a C structure, `F` naming them, each of its own size and
alignment, and an array of bytes after the last. -/
structure CStruct (F : Type) where
  fields : List F
  size : F → ℕ
  align : F → ℕ
  trailing : ℕ
  align_pos : ∀ f, 0 < align f
  mem_fields : ∀ f, f ∈ fields

namespace CStruct

variable {F : Type} [DecidableEq F]

def offsetFrom (c : CStruct F) (o : ℕ) : List F → F → ℕ
  | [], _ => o
  | g :: gs, f =>
      if f = g then alignUp (c.align g) o
      else c.offsetFrom (alignUp (c.align g) o + c.size g) gs f

def offset (c : CStruct F) (f : F) : ℕ := c.offsetFrom 0 c.fields f

def endFrom (c : CStruct F) (o : ℕ) : List F → ℕ
  | [] => o
  | g :: gs => c.endFrom (alignUp (c.align g) o + c.size g) gs

/-- The size of the whole structure, a multiple of the largest alignment. -/
def sizeof (c : CStruct F) : ℕ :=
  alignUp (c.fields.foldr (fun f k => max (c.align f) k) 1) (c.endFrom 0 c.fields + c.trailing)

/-- Load field `f`, the structure lying at address 0. -/
def load (c : CStruct F) (m : Memory) (f : F) : ℕ := Bytes.load m (c.offset f) (c.size f)

/-- Store the number `v` into field `f`. -/
def store (c : CStruct F) (m : Memory) (f : F) (v : ℕ) : Memory :=
  Bytes.store m (c.offset f) (c.size f) v

section

variable {c : CStruct F} {f g : F} {o : ℕ} {fs : List F}

theorem le_offsetFrom (c : CStruct F) (o : ℕ) (fs : List F) (f : F) :
    o ≤ c.offsetFrom o fs f := by
  induction fs generalizing o with
  | nil => exact le_refl o
  | cons g gs ih =>
      have hle := le_alignUp (c.align_pos g) o
      unfold offsetFrom
      split
      · exact hle
      · have hrest := ih (alignUp (c.align g) o + c.size g)
        omega

/-- Two fields never share a byte. -/
theorem offsetFrom_disjoint (hf : f ∈ fs) (hg : g ∈ fs) (hne : f ≠ g) :
    c.offsetFrom o fs f + c.size f ≤ c.offsetFrom o fs g ∨
      c.offsetFrom o fs g + c.size g ≤ c.offsetFrom o fs f := by
  induction fs generalizing o with
  | nil => simp at hf
  | cons h hs ih =>
      have hrest := c.le_offsetFrom (alignUp (c.align h) o + c.size h) hs
      unfold offsetFrom
      by_cases hfh : f = h
      · left
        rw [if_pos hfh, if_neg (fun hgh => hne (hfh.trans hgh.symm)), hfh]
        exact hrest g
      · by_cases hgh : g = h
        · right
          rw [if_pos hgh, if_neg hfh, hgh]
          exact hrest f
        · rw [if_neg hfh, if_neg hgh]
          exact ih (List.mem_of_ne_of_mem hfh hf) (List.mem_of_ne_of_mem hgh hg)

theorem load_store_self (m : Memory) (v : ℕ) :
    c.load (c.store m f v) f = v % 256 ^ c.size f := load_store _ _ _ _

theorem load_store_of_ne (m : Memory) (v : ℕ) (hne : g ≠ f) :
    c.load (c.store m f v) g = c.load m g := by
  apply load_store_disjoint
  exact offsetFrom_disjoint (c.mem_fields g) (c.mem_fields f) hne

end

end CStruct

end Bytes

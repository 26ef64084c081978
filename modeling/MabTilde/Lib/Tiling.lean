import Mathlib.Algebra.Order.Ring.Nat
import Mathlib.Logic.Function.Basic
import Mathlib.Tactic.Common

/-!
Ranges of addresses divided into cells of one width.

`Tiles I addr w lo hi` says that the cells at `addr j`, of width `w`, for the
`j` in `I` make up the range from `lo` to `hi`: each lies inside, no two share
an address, and none is left over. Consecutive cells tile (`tiles_consecutive`),
a tiling may be named anew (`Tiles.reindex`), and the names of the cells of a
matrix stored row after row are `rowMajor_injOn` and `exists_rowMajor`.
-/

namespace Tiling

structure Tiles {ι : Type*} (I : ι → Prop) (addr : ι → ℕ) (w lo hi : ℕ) : Prop where
  inside : ∀ j, I j → lo ≤ addr j ∧ addr j + w ≤ hi
  disjoint : ∀ j k, I j → I k → ∀ x, addr j ≤ x → x < addr j + w → addr k ≤ x →
    x < addr k + w → j = k
  cover : ∀ x, lo ≤ x → x < hi → ∃ j, I j ∧ addr j ≤ x ∧ x < addr j + w

section Tiles

variable {ι κ : Type*} {w lo : ℕ}

theorem tiles_consecutive (hw : 0 < w) (n : ℕ) :
    Tiles (fun j => j < n) (fun j => lo + w * j) w lo (lo + w * n) := by
  refine ⟨?_, ?_, ?_⟩
  · intro j hj
    have hnext : w * (j + 1) ≤ w * n := Nat.mul_le_mul_left w hj
    rw [Nat.mul_add, Nat.mul_one] at hnext
    omega
  · intro j k _ _ x hj hj' hk hk'
    -- both are the quotient of the distance from `lo`
    have hquot : ∀ i, lo + w * i ≤ x → x < lo + w * i + w → (x - lo) / w = i := by
      intro i hle hlt
      apply Nat.div_eq_of_lt_le
      · rw [Nat.mul_comm]
        omega
      · rw [Nat.add_mul, Nat.one_mul, Nat.mul_comm]
        omega
    exact (hquot j hj hj').symm.trans (hquot k hk hk')
  · intro x hlo hhi
    have hdiv := Nat.div_add_mod (x - lo) w
    have hmod := Nat.mod_lt (x - lo) hw
    refine ⟨(x - lo) / w, ?_, ?_, ?_⟩
    · apply Nat.div_lt_of_lt_mul
      omega
    · show lo + w * ((x - lo) / w) ≤ x
      omega
    · show x < lo + w * ((x - lo) / w) + w
      omega

theorem Tiles.reindex {I : ι → Prop} {J : κ → Prop} {addr : ι → ℕ} {hi : ℕ}
    (h : Tiles I addr w lo hi) (f : κ → ι) (hf : ∀ k, J k → I (f k))
    (hinj : ∀ k k', J k → J k' → f k = f k' → k = k') (hsurj : ∀ j, I j → ∃ k, J k ∧ f k = j) :
    Tiles J (fun k => addr (f k)) w lo hi := by
  refine ⟨fun k hk => h.inside (f k) (hf k hk), ?_, ?_⟩
  · intro k k' hk hk' x h₁ h₂ h₃ h₄
    exact hinj k k' hk hk' (h.disjoint (f k) (f k') (hf k hk) (hf k' hk') x h₁ h₂ h₃ h₄)
  · intro x hlo hhi
    obtain ⟨j, hj, hle, hlt⟩ := h.cover x hlo hhi
    obtain ⟨k, hk, rfl⟩ := hsurj j hj
    exact ⟨k, hk, hle, hlt⟩

end Tiles

/-! ### Row-major indices -/

section RowMajor

variable {rows cols r r' c c' : ℕ}

theorem rowMajor_lt (hr : r < rows) (hc : c < cols) : r * cols + c < rows * cols := by
  calc r * cols + c < r * cols + cols := Nat.add_lt_add_left hc _
    _ = (r + 1) * cols := by rw [Nat.add_mul, Nat.one_mul]
    _ ≤ rows * cols := Nat.mul_le_mul_right cols hr

theorem rowMajor_injOn (hc : c < cols) (hc' : c' < cols)
    (h : r * cols + c = r' * cols + c') : r = r' ∧ c = c' := by
  have hpos : 0 < cols := Nat.zero_lt_of_lt hc
  have hquot : ∀ q i, i < cols → (q * cols + i) / cols = q := by
    intro q i hi
    rw [Nat.add_comm, Nat.add_mul_div_right i q hpos, Nat.div_eq_of_lt hi, Nat.zero_add]
  have hrow : r = r' := by
    rw [← hquot r c hc, h, hquot r' c' hc']
  subst hrow
  exact ⟨rfl, Nat.add_left_cancel h⟩

theorem exists_rowMajor {n : ℕ} (hn : n < rows * cols) :
    ∃ r c, r < rows ∧ c < cols ∧ r * cols + c = n := by
  have hpos : 0 < cols := Nat.pos_of_ne_zero fun h => by
    rw [h, Nat.mul_zero] at hn
    exact Nat.not_lt_zero n hn
  refine ⟨n / cols, n % cols, Nat.div_lt_of_lt_mul (by rwa [Nat.mul_comm]),
    Nat.mod_lt n hpos, ?_⟩
  rw [Nat.mul_comm]
  exact Nat.div_add_mod n cols

end RowMajor

end Tiling

import Mathlib.Algebra.Order.Ring.Nat
import Mathlib.Logic.Function.Basic
import Mathlib.Logic.Nontrivial.Defs
import Mathlib.Tactic.Common

/-!
Copying cells upwards, one by one, between places that may overlap.

A cell that has been copied may be one that is still to be read. That happens
only if the destination begins inside the source, and then the cells between
the two beginnings are repeated over and over (`copyUp_apply`).
-/

namespace ForwardCopy

variable {α : Type*}

/-- Copy `n` cells from `src` on to `dst` on, in the order of their addresses. -/
def copyUp (src dst : ℕ) : ℕ → (ℕ → α) → ℕ → α
  | 0, m => m
  | n + 1, m => Function.update (copyUp src dst n m) (dst + n) (copyUp src dst n m (src + n))

variable {src dst n i : ℕ} {m : ℕ → α}

theorem copyUp_of_not_mem (h : i < dst ∨ dst + n ≤ i) : copyUp src dst n m i = m i := by
  induction n with
  | zero => rfl
  | succ n ih =>
      rw [copyUp, Function.update_of_ne (by omega)]
      exact ih (by omega)

theorem copyUp_of_mem (hi : i < n) :
    copyUp src dst n m (dst + i) = copyUp src dst i m (src + i) := by
  induction n with
  | zero => exact absurd hi (Nat.not_lt_zero i)
  | succ n ih =>
      rcases Nat.lt_succ_iff_lt_or_eq.mp hi with hlt | rfl
      · rw [copyUp, Function.update_of_ne (by omega)]
        exact ih hlt
      · rw [copyUp, Function.update_self]

theorem copyUp_of_lt (hlt : src < dst) (hi : i < n) :
    copyUp src dst n m (dst + i) = m (src + i % (dst - src)) := by
  induction i using Nat.strongRecOn generalizing n with
  | ind i ih =>
      rw [copyUp_of_mem hi]
      by_cases hbefore : src + i < dst
      · rw [copyUp_of_not_mem (.inl hbefore), Nat.mod_eq_of_lt (by omega)]
      · have hback : src + i = dst + (i - (dst - src)) := by omega
        rw [hback, ih (i - (dst - src)) (by omega) (by omega),
          ← Nat.mod_eq_sub_mod (by omega)]

theorem copyUp_of_le (hle : dst ≤ src) (hi : i < n) :
    copyUp src dst n m (dst + i) = m (src + i) := by
  rw [copyUp_of_mem hi]
  exact copyUp_of_not_mem (.inr (by omega))

/-- The copy, whatever overlaps. -/
theorem copyUp_apply (src dst n : ℕ) (m : ℕ → α) (a : ℕ) :
    copyUp src dst n m a =
      if dst ≤ a ∧ a < dst + n then
        m (src + if src < dst then (a - dst) % (dst - src) else a - dst)
      else m a := by
  split
  · rename_i ha
    obtain ⟨i, rfl⟩ := Nat.exists_eq_add_of_le ha.1
    have hi : i < n := by omega
    rw [Nat.add_sub_cancel_left]
    split
    · rename_i hlt
      exact copyUp_of_lt hlt hi
    · rename_i hle
      exact copyUp_of_le (Nat.le_of_not_lt hle) hi
  · exact copyUp_of_not_mem (by omega)

/-- Every cell arrives, whatever the cells hold, exactly if the destination
does not begin inside the source. -/
theorem arrives_iff [Nontrivial α] :
    (∀ (m : ℕ → α) i, i < n → copyUp src dst n m (dst + i) = m (src + i)) ↔
      ¬ (src < dst ∧ dst < src + n) := by
  refine ⟨?_, ?_⟩
  · rintro hall ⟨hlt, hin⟩
    obtain ⟨x, y, hne⟩ := exists_pair_ne α
    -- the first cell that is read after it was overwritten
    have hfirst := hall (fun a => if a = src then x else y) (dst - src) (by omega)
    rw [copyUp_of_lt hlt (by omega), Nat.mod_self, Nat.add_zero, if_pos rfl,
      if_neg (by omega)] at hfirst
    exact hne hfirst
  · intro hout m i hi
    rcases Nat.lt_or_ge src dst with hlt | hle
    · rw [copyUp_of_lt hlt hi, Nat.mod_eq_of_lt (by omega)]
    · exact copyUp_of_le hle hi

end ForwardCopy

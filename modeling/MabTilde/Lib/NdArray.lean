import Mathlib.Algebra.BigOperators.Group.List.Basic
import Mathlib.Algebra.Order.Ring.Nat
import Mathlib.Tactic.Common

/-!
Arrays of any rank, as numpy and torch have them: a shape, and the elements in
row-major order, as many of them as the shape says.

Only what moves elements about is here: dimensions of size 1 put in front or
taken away, slices of the first axis, and the assignment of an array to a
one-dimensional one, which drops leading dimensions of size 1 and then repeats
a single element as often as needed. `none` is a raised exception.
-/

structure NdArray (α : Type) where
  shape : List ℕ
  data : List α
  size_eq : data.length = shape.prod

namespace NdArray

variable {α : Type}

@[ext] theorem ext {a b : NdArray α} (hshape : a.shape = b.shape) (hdata : a.data = b.data) :
    a = b := by
  cases a; cases b; cases hshape; cases hdata; rfl

def ofRow (xs : List α) : NdArray α := ⟨[xs.length], xs, by simp⟩

/-- The two-dimensional array of rows of `n` elements. -/
def ofRows (n : ℕ) (rows : List (List α)) (h : ∀ r ∈ rows, r.length = n) : NdArray α :=
  ⟨[rows.length, n], rows.flatten, by
    rw [List.length_flatten, List.map_congr_left h]
    simp⟩

/-- A row behind `r` dimensions of size 1. -/
def ofRowBehind (r : ℕ) (xs : List α) : NdArray α :=
  ⟨List.replicate r 1 ++ [xs.length], xs, by simp⟩

def dim (a : NdArray α) : ℕ := a.shape.length

def unsqueeze (a : NdArray α) : NdArray α := ⟨1 :: a.shape, a.data, by simp [a.size_eq]⟩

/-- `a.squeeze(0)`: the first dimension goes if its size is 1. -/
def squeeze (a : NdArray α) : NdArray α :=
  match a with
  | ⟨1 :: s, data, h⟩ => ⟨s, data, by simpa using h⟩
  | a => a

/-- `len(a)`, which a rank of 0 does not have. -/
def len (a : NdArray α) : Option ℕ := a.shape.head?

/-- `a[:n]` -/
def slice (n : ℕ) (a : NdArray α) : Option (NdArray α) :=
  match a with
  | ⟨[], _, _⟩ => none
  | ⟨d :: s, data, h⟩ => some ⟨min n d :: s, data.take (min n d * s.prod), by
      rw [List.prod_cons] at h
      rw [List.length_take, List.prod_cons, h]
      exact Nat.min_eq_left (Nat.mul_le_mul_right _ (Nat.min_le_right n d))⟩

def dropOnes : List ℕ → List ℕ
  | 1 :: d :: s => dropOnes (d :: s)
  | s => s

/-- The elements of a one-dimensional array of `n` elements after `a` has been
assigned to it. -/
def assign (n : ℕ) (a : NdArray α) : Option (List α) :=
  match dropOnes a.shape with
  | [] => a.data.head?.map fun x => List.replicate n x
  | [m] =>
      if m = n then some a.data
      else if m = 1 then a.data.head?.map fun x => List.replicate n x
      else none
  | _ => none

section Lemmas

variable {a : NdArray α} {n d : ℕ} {s : List ℕ} {xs : List α}

@[simp] theorem shape_ofRow : (ofRow xs).shape = [xs.length] := rfl
@[simp] theorem data_ofRow : (ofRow xs).data = xs := rfl

theorem ofRows_inj {rows rows' : List (List α)} {h : ∀ r ∈ rows, r.length = n}
    {h' : ∀ r ∈ rows', r.length = n} (heq : ofRows n rows h = ofRows n rows' h') :
    rows = rows' := by
  have hlen : rows.length = rows'.length := (List.cons.inj (congrArg shape heq)).1
  have hflat : rows.flatten = rows'.flatten := congrArg data heq
  clear heq
  induction rows generalizing rows' with
  | nil => exact (List.length_eq_zero_iff.mp hlen.symm).symm
  | cons r rows ih =>
      cases rows' with
      | nil => cases hlen
      | cons r' rows' =>
          have hr : r.length = r'.length :=
            (h r List.mem_cons_self).trans (h' r' List.mem_cons_self).symm
          obtain ⟨rfl, hrest⟩ := List.append_inj hflat hr
          have hrows : ∀ x ∈ rows, x.length = n := fun x hx => h x (List.mem_cons_of_mem _ hx)
          have hrows' : ∀ x ∈ rows', x.length = n := fun x hx => h' x (List.mem_cons_of_mem _ hx)
          rw [@ih rows' hrows hrows' (Nat.succ.inj hlen) hrest]

theorem dropOnes_of_ne_one (hd : d ≠ 1) : dropOnes (d :: s) = d :: s := by
  unfold dropOnes
  split
  · rename_i heq
    cases heq
    exact absurd rfl hd
  · rfl

theorem dropOnes_eq_one_iff : dropOnes (d :: s) = [1] ↔ d = 1 ∧ ∀ e ∈ s, e = 1 := by
  induction s generalizing d with
  | nil =>
      by_cases hd : d = 1
      · subst hd
        simp [dropOnes]
      · simp [dropOnes_of_ne_one hd, hd]
  | cons e s ih =>
      by_cases hd : d = 1
      · subst hd
        rw [dropOnes, ih]
        simp
      · simp [dropOnes_of_ne_one hd, hd]

theorem dropOnes_cons_ne_nil (d : ℕ) (s : List ℕ) : dropOnes (d :: s) ≠ [] := by
  induction s generalizing d with
  | nil =>
      intro h
      unfold dropOnes at h
      split at h <;> simp_all
  | cons e s ih =>
      by_cases hd : d = 1
      · subst hd
        exact ih e
      · rw [dropOnes_of_ne_one hd]
        exact List.cons_ne_nil _ _

/-- A slice assigned to as many elements as it has along its first axis: it must
be a row, or a single element of any rank. -/
theorem assign_first_axis (h : a.shape = d :: s) :
    a.assign d = some xs ↔ (s = [] ∨ (d = 1 ∧ ∀ e ∈ s, e = 1)) ∧ a.data = xs := by
  unfold assign
  rw [h]
  by_cases hd : d = 1
  · subst hd
    by_cases hones : ∀ e ∈ s, e = 1
    · rw [dropOnes_eq_one_iff.mpr ⟨rfl, hones⟩]
      show (if 1 = 1 then some a.data else _) = some xs ↔ _
      rw [if_pos rfl, Option.some.injEq]
      exact (and_iff_right (.inr ⟨rfl, hones⟩)).symm
    · -- several elements do not go where there is room for one
      have hs : s ≠ [] := by
        rintro rfl
        exact hones fun e he => absurd he List.not_mem_nil
      have hdrop : dropOnes (1 :: s) ≠ [1] := fun h1 => hones (dropOnes_eq_one_iff.mp h1).2
      have hnil := dropOnes_cons_ne_nil 1 s
      refine iff_of_false ?_ (fun h' => h'.1.elim hs fun h1 => hones h1.2)
      split
      · rename_i hempty
        exact absurd hempty hnil
      · rename_i m hm
        have hm1 : m ≠ 1 := by
          rintro rfl
          exact hdrop hm
        rw [if_neg hm1, if_neg hm1]
        simp
      · simp
  · rw [dropOnes_of_ne_one hd]
    cases s with
    | nil => simp
    | cons e s => simp [hd]

end Lemmas

end NdArray

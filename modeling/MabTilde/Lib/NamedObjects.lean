import Mathlib.Data.Finset.Basic
import Mathlib.Data.Finset.Image
import Mathlib.Logic.Function.Basic

/-!
Objects of an operating system that are found by name and live while somebody
holds them.

An object of a table always has a holder, by its type; what has none is not in
the table. So opening and closing are all there is: `hold` creates the object
if the name is free and joins its holders otherwise, `release` drops holders
and with the last one the object. The two readings of a table, `value` and
`holders`, are what the lemmas below are about.
-/

namespace NamedObjects

/-- What a name stands for: a value and those who hold it open. -/
structure Object (H V : Type) where
  value : V
  holders : Finset H
  held : holders.Nonempty

abbrev Table (N H V : Type) : Type := N → Option (Object H V)

variable {N H V : Type}

namespace Object

def join [DecidableEq H] (o : Object H V) (h : H) : Object H V :=
  ⟨o.value, insert h o.holders, Finset.insert_nonempty h o.holders⟩

/-- The object without the holders in `gone`, if anyone is left. -/
def leave (o : Object H V) (gone : H → Bool) : Option (Object H V) :=
  if held : (o.holders.filter fun h => gone h = false).Nonempty then
    some ⟨o.value, _, held⟩
  else none

theorem holders_leave (o : Object H V) (gone : H → Bool) :
    (o.leave gone).elim ∅ Object.holders = o.holders.filter fun h => gone h = false := by
  unfold leave
  split
  · rfl
  · rename_i hnone
    exact (Finset.not_nonempty_iff_eq_empty.mp hnone).symm

theorem value_leave (o : Object H V) {h : H} {gone : H → Bool} (hh : h ∈ o.holders)
    (hstay : gone h = false) : (o.leave gone).map Object.value = some o.value := by
  have hne : (o.holders.filter fun h => gone h = false).Nonempty :=
    ⟨h, Finset.mem_filter.mpr ⟨hh, hstay⟩⟩
  rw [leave, dif_pos hne, Option.map_some]

end Object

namespace Table

def empty : Table N H V := fun _ => none

def value (t : Table N H V) (n : N) : Option V := (t n).map Object.value

def holders (t : Table N H V) (n : N) : Finset H := (t n).elim ∅ Object.holders

/-- Create or open: a name that stands for nothing gets the value `v`. -/
def hold [DecidableEq N] [DecidableEq H] (t : Table N H V) (n : N) (h : H) (v : V) : Table N H V :=
  Function.update t n (some (match t n with
    | none => ⟨v, {h}, Finset.singleton_nonempty h⟩
    | some o => o.join h))

def Held (t : Table N H V) (h : H) : Prop := ∃ n, h ∈ t.holders n

def release (t : Table N H V) (gone : H → Bool) : Table N H V :=
  fun n => (t n).bind fun o => o.leave gone

def modify [DecidableEq N] (t : Table N H V) (n : N) (f : V → V) : Table N H V :=
  Function.update t n ((t n).map fun o => { o with value := f o.value })

section Lemmas

variable {t : Table N H V} {n n' : N} {h : H} {v : V} {gone : H → Bool} {f : V → V}

/-- An object exists exactly while it is held. -/
theorem value_eq_none_iff : t.value n = none ↔ t.holders n = ∅ := by
  unfold value holders
  cases ht : t n with
  | none => simp
  | some o => simp [o.held.ne_empty]

theorem value_isSome_of_mem (hh : h ∈ t.holders n) : ∃ v, t.value n = some v := by
  cases hv : t.value n with
  | none =>
      rw [value_eq_none_iff] at hv
      rw [hv] at hh
      exact absurd hh (Finset.notMem_empty h)
  | some v => exact ⟨v, rfl⟩

theorem exists_mem_of_value (hv : t.value n = some v) : ∃ h, h ∈ t.holders n := by
  apply Finset.nonempty_iff_ne_empty.mpr
  intro hnone
  rw [← value_eq_none_iff, hv] at hnone
  cases hnone

section Named

variable [DecidableEq N]

section Hold

variable [DecidableEq H]

@[simp] theorem value_hold_self : (t.hold n h v).value n = some ((t.value n).getD v) := by
  unfold hold value
  rw [Function.update_self]
  cases t n <;> rfl

theorem value_hold_of_ne (hne : n' ≠ n) : (t.hold n h v).value n' = t.value n' := by
  unfold hold value
  rw [Function.update_of_ne hne]

@[simp] theorem holders_hold_self : (t.hold n h v).holders n = insert h (t.holders n) := by
  unfold hold holders
  rw [Function.update_self]
  cases t n <;> rfl

theorem holders_hold_of_ne (hne : n' ≠ n) : (t.hold n h v).holders n' = t.holders n' := by
  unfold hold holders
  rw [Function.update_of_ne hne]

theorem held_hold {h' : H} : (t.hold n h v).Held h' ↔ h' = h ∨ t.Held h' := by
  refine ⟨?_, ?_⟩
  · rintro ⟨m, hm⟩
    by_cases hmn : m = n
    · subst hmn
      rw [holders_hold_self, Finset.mem_insert] at hm
      exact hm.imp_right fun hm => ⟨m, hm⟩
    · rw [holders_hold_of_ne hmn] at hm
      exact .inr ⟨m, hm⟩
  · rintro (rfl | ⟨m, hm⟩)
    · refine ⟨n, ?_⟩
      rw [holders_hold_self]
      exact Finset.mem_insert_self h' _
    · refine ⟨m, ?_⟩
      by_cases hmn : m = n
      · subst hmn
        rw [holders_hold_self]
        exact Finset.mem_insert_of_mem hm
      · rwa [holders_hold_of_ne hmn]

end Hold

@[simp] theorem value_modify_self : (t.modify n f).value n = (t.value n).map f := by
  unfold modify value
  rw [Function.update_self]
  cases t n <;> rfl

theorem value_modify_of_ne (hne : n' ≠ n) : (t.modify n f).value n' = t.value n' := by
  unfold modify value
  rw [Function.update_of_ne hne]

@[simp] theorem holders_modify : (t.modify n f).holders n' = t.holders n' := by
  unfold modify holders
  by_cases hne : n' = n
  · subst hne
    rw [Function.update_self]
    cases t n' <;> rfl
  · rw [Function.update_of_ne hne]

theorem held_modify : (t.modify n f).Held h ↔ t.Held h :=
  exists_congr fun _ => by rw [holders_modify]

end Named

theorem release_apply : t.release gone n = (t n).bind fun o => o.leave gone := rfl

@[simp] theorem holders_release :
    (t.release gone).holders n = (t.holders n).filter fun h => gone h = false := by
  unfold holders
  rw [release_apply]
  cases t n with
  | none => rfl
  | some o => exact o.holders_leave gone

theorem held_release : (t.release gone).Held h ↔ t.Held h ∧ gone h = false := by
  unfold Held
  simp only [holders_release, Finset.mem_filter]
  exact exists_and_right

theorem value_release_of_mem (hh : h ∈ t.holders n) (hstay : gone h = false) :
    (t.release gone).value n = t.value n := by
  unfold value
  unfold holders at hh
  rw [release_apply]
  cases ht : t n with
  | none => rfl
  | some o =>
      rw [ht] at hh
      exact o.value_leave hh hstay

theorem value_of_value_release (hv : (t.release gone).value n = some v) : t.value n = some v := by
  obtain ⟨h, hh⟩ := exists_mem_of_value hv
  rw [holders_release, Finset.mem_filter] at hh
  rw [← value_release_of_mem hh.1 hh.2, hv]

theorem value_release_of_forall (hall : ∀ h ∈ t.holders n, gone h = true) :
    (t.release gone).value n = none := by
  rw [value_eq_none_iff, holders_release, Finset.filter_eq_empty_iff]
  intro h hh
  rw [hall h hh]
  decide

end Lemmas

end Table

end NamedObjects

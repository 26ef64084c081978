import Mathlib.Data.List.Basic
import Mathlib.Data.Nat.ModEq
import Mathlib.Logic.Function.Basic
import MabTilde.Lib.Runs

/-!
A bounded first-in first-out queue, and the circular window that stores one.

`Fifo.step cap` is the queue as an atomic object: an operation comes with the
answer it gave, and is enabled in the states where that answer is right.
`window slots n t k` is what `k` consecutive positions of a ring of `n` slots
hold, starting at the unbounded position `t`; the three window lemmas are the
whole theory of the ring, that one writes behind the window, and takes off its
front.
-/

namespace Fifo

variable {α : Type*}

inductive Op (α : Type*)
  | enq (x : α) (ok : Bool)
  | deq (r : Option α)

/-- The atomic queue of capacity `cap`. -/
def step [DecidableEq α] (cap : ℕ) (q : List α) : Op α → Option (List α)
  | .enq x true => if q.length < cap then some (q ++ [x]) else none
  | .enq _ false => if q.length = cap then some q else none
  | .deq none => if q = [] then some q else none
  | .deq (some x) =>
      match q with
      | [] => none
      | y :: rest => if y = x then some rest else none

def enqOf : Op α → Option (α × Bool)
  | .enq x ok => some (x, ok)
  | .deq _ => none

def deqOf : Op α → Option (Option α)
  | .enq _ _ => none
  | .deq r => some r

def acceptedOf : Op α → Option α
  | .enq x true => some x
  | _ => none

def removedOf : Op α → Option α
  | .deq r => r
  | _ => none

section Machine

variable [DecidableEq α] {cap : ℕ} {q q' : List α} {ops : List (Op α)}

theorem step_conserves {op : Op α} (h : step cap q op = some q') :
    q ++ (acceptedOf op).toList = (removedOf op).toList ++ q' := by
  match op with
  | .enq x true =>
      simp only [step, Option.ite_none_right_eq_some, Option.some.injEq] at h
      simp [acceptedOf, removedOf, ← h.2]
  | .enq x false =>
      simp only [step, Option.ite_none_right_eq_some, Option.some.injEq] at h
      simp [acceptedOf, removedOf, ← h.2]
  | .deq none =>
      simp only [step, Option.ite_none_right_eq_some, Option.some.injEq] at h
      simp [acceptedOf, removedOf, ← h.2]
  | .deq (some x) =>
      cases q with
      | nil => simp [step] at h
      | cons y rest =>
          simp only [step, Option.ite_none_right_eq_some, Option.some.injEq] at h
          simp [acceptedOf, removedOf, ← h.2, h.1]

/-- Nothing is lost, duplicated or reordered: what went in is what came out,
followed by what is still there. -/
theorem exec_conserves (h : Runs.exec (step cap) q ops = some q') :
    q ++ ops.filterMap acceptedOf = ops.filterMap removedOf ++ q' := by
  induction ops generalizing q with
  | nil =>
      rw [Runs.exec_nil, Option.some.injEq] at h
      simp [h]
  | cons op ops ih =>
      rw [Runs.exec_cons, Option.bind_eq_some_iff] at h
      obtain ⟨r, hr, h⟩ := h
      have hop := step_conserves hr
      have hrest := ih h
      cases ha : acceptedOf op <;> cases hm : removedOf op <;>
        simp only [ha, hm, Option.toList_none, Option.toList_some, List.append_nil,
          List.nil_append] at hop <;>
        simp only [List.filterMap_cons, ha, hm]
      case none.none => rw [hop, hrest]
      case none.some => rw [hop, List.append_assoc, hrest]; rfl
      case some.none => rw [← hrest, ← hop, List.append_assoc]; rfl
      case some.some x y =>
          calc q ++ x :: ops.filterMap acceptedOf
              = (q ++ [x]) ++ ops.filterMap acceptedOf := by simp
            _ = [y] ++ (r ++ ops.filterMap acceptedOf) := by rw [hop, List.append_assoc]
            _ = y :: ops.filterMap removedOf ++ q' := by rw [hrest]; rfl

theorem removed_prefix_accepted (h : Runs.exec (step cap) [] ops = some q') :
    ops.filterMap removedOf <+: ops.filterMap acceptedOf :=
  ⟨q', (exec_conserves h).symm⟩

end Machine

/-! ### The circular window -/

/-- What the ring of `n` slots holds from position `t` on, `k` slots long. -/
def window (slots : ℕ → α) (n t k : ℕ) : List α :=
  (List.range k).map fun i => slots ((t + i) % n)

@[simp] theorem length_window (slots : ℕ → α) (n t k : ℕ) : (window slots n t k).length = k := by
  simp [window]

theorem mod_ne_mod_of_lt {n a b : ℕ} (hab : a < b) (hb : b < a + n) : a % n ≠ b % n := by
  intro heq
  obtain ⟨c, hc⟩ := (Nat.modEq_iff_dvd' hab.le).mp heq
  have hc0 : c ≠ 0 := by rintro rfl; omega
  have hle : n ≤ n * c := Nat.le_mul_of_pos_right n (Nat.pos_of_ne_zero hc0)
  omega

theorem window_update (slots : ℕ → α) {n t k : ℕ} (hk : k < n) (x : α) :
    window (Function.update slots ((t + k) % n) x) n t k = window slots n t k := by
  refine List.map_congr_left fun i hi => ?_
  rw [List.mem_range] at hi
  exact Function.update_of_ne (mod_ne_mod_of_lt (by omega) (by omega)) _ _

theorem window_succ (slots : ℕ → α) (n t k : ℕ) :
    window slots n t (k + 1) = window slots n t k ++ [slots ((t + k) % n)] := by
  simp [window, List.range_succ]

theorem window_cons (slots : ℕ → α) (n t k : ℕ) :
    window slots n t (k + 1) = slots (t % n) :: window slots n (t + 1) k := by
  simp only [window, List.range_succ_eq_map, List.map_cons, List.map_map, Nat.add_zero]
  congr 1
  refine List.map_congr_left fun i _ => ?_
  simp only [Function.comp, Nat.succ_eq_add_one]
  congr 2
  omega

end Fifo

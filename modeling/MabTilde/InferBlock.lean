import MabTilde.Exchange.Worker
import MabTilde.Lib.NdArray

/-!
`infer_block` and the write-back of its result into a row of the output buffer.

The model is a parameter: a function of tensors that may raise, and that does not
write into what it is given. Samples are 32-bit patterns, for nothing here
computes with them. A row that is assigned an array of the wrong length raises,
keeps its last samples, or repeats one sample, as the shapes have it.
-/

namespace MabTilde

abbrev Sample : Type := BitVec 32

abbrev Tensor : Type := NdArray Sample

/-- A loaded model. `none` is a raised exception. It leaves its argument alone, which is
the row itself and no copy. -/
abbrev Model : Type := Tensor → Option Tensor

/-- The batch dimension `infer_block` adds: only to two dimensions. -/
def addBatch (t : Tensor) : Tensor := if t.dim = 2 then t.unsqueeze else t

/-- The one it removes: only from three. -/
def dropBatch (out : Tensor) : Tensor := if out.dim = 3 then out.squeeze else out

/-- `infer_block(model, device, input_tensor)` -/
def inferBlock (model : Model) (inputTensor : Tensor) : Option Tensor :=
  (model (addBatch inputTensor)).map dropBatch

/-- The samples assigned to the beginning of a row of `bufsize` samples. -/
def assigned (bufsize : ℕ) (outputBlock : Tensor) : Option (List Sample) :=
  if outputBlock.shape = [bufsize] then outputBlock.assign bufsize
  else do
    let src ← outputBlock.slice bufsize
    let n ← outputBlock.len
    src.assign (min n bufsize)

def writeBack (bufsize : ℕ) (row : List Sample) (outputBlock : Tensor) : Option (List Sample) :=
  (assigned bufsize outputBlock).map fun new => new ++ row.drop new.length

/-- What the serving loop calls for one channel, rows being one-dimensional. -/
def backend (model : Model) (bufsize : ℕ) : Exchange.Backend (List Sample) Tensor where
  inferBlock row := inferBlock model (NdArray.ofRow row)
  writeBack := writeBack bufsize

/-- The block fills a row of `bufsize` samples with `ys`: it is a row at least as
long, or, where there is room for one sample only, a single sample first of all. -/
def Fills (bufsize : ℕ) (outputBlock : Tensor) (ys : List Sample) : Prop :=
  ∃ d s, outputBlock.shape = d :: s ∧ bufsize ≤ d ∧ (s = [] ∨ (bufsize = 1 ∧ ∀ e ∈ s, e = 1)) ∧
    outputBlock.data.take bufsize = ys

section Lemmas

variable {bufsize : ℕ} {out : Tensor} {new ys : List Sample}

/-- The two branches are one: both slices end where the shorter does. -/
theorem assigned_eq_some_iff :
    assigned bufsize out = some new ↔ ∃ d s, out.shape = d :: s ∧
      (s = [] ∨ (min bufsize d = 1 ∧ ∀ e ∈ s, e = 1)) ∧
        out.data.take (min bufsize d * s.prod) = new := by
  obtain ⟨shape, data, hsize⟩ := out
  unfold assigned
  cases shape with
  | nil => simp [NdArray.slice]
  | cons d s =>
      rw [List.prod_cons] at hsize
      split
      · rename_i hshape
        obtain ⟨rfl, rfl⟩ := List.cons.inj hshape
        rw [NdArray.assign_first_axis rfl]
        simp [List.take_of_length_le, hsize]
      · simp only [NdArray.slice, NdArray.len, List.head?_cons, Option.bind_eq_bind,
          Option.bind_some, Nat.min_comm d bufsize]
        rw [NdArray.assign_first_axis rfl]
        simp

theorem prod_trailing {k : ℕ} {s : List ℕ} (h : s = [] ∨ (k = 1 ∧ ∀ e ∈ s, e = 1)) :
    s.prod = 1 := by
  rcases h with rfl | ⟨-, h⟩
  · rfl
  · exact List.prod_eq_one h

theorem length_assigned (h : assigned bufsize out = some new) :
    ∃ d s, out.shape = d :: s ∧ new.length = min bufsize d := by
  obtain ⟨d, s, hshape, hs, rfl⟩ := assigned_eq_some_iff.mp h
  have hsize := out.size_eq
  rw [hshape, List.prod_cons, prod_trailing hs, Nat.mul_one] at hsize
  refine ⟨d, s, hshape, ?_⟩
  rw [prod_trailing hs, Nat.mul_one, List.length_take, hsize]
  exact Nat.min_eq_left (Nat.min_le_right bufsize d)

theorem fills_iff :
    Fills bufsize out ys ↔ assigned bufsize out = some ys ∧ ys.length = bufsize := by
  refine ⟨?_, ?_⟩
  · rintro ⟨d, s, hshape, hle, hs, rfl⟩
    have hsize := out.size_eq
    rw [hshape, List.prod_cons, prod_trailing hs, Nat.mul_one] at hsize
    have hmin : min bufsize d = bufsize := Nat.min_eq_left hle
    refine ⟨?_, ?_⟩
    · rw [assigned_eq_some_iff]
      refine ⟨d, s, hshape, by rwa [hmin], ?_⟩
      rw [hmin, prod_trailing hs, Nat.mul_one]
    · rw [List.length_take, hsize, hmin]
  · rintro ⟨hassigned, hlen⟩
    obtain ⟨d, s, hshape, hs, htake⟩ := assigned_eq_some_iff.mp hassigned
    obtain ⟨d', s', hshape', hlen'⟩ := length_assigned hassigned
    obtain ⟨rfl, rfl⟩ := List.cons.inj (hshape.symm.trans hshape')
    have hmin : min bufsize d = bufsize := hlen'.symm.trans hlen
    rw [hmin] at hs
    rw [hmin, prod_trailing hs, Nat.mul_one] at htake
    exact ⟨d, s, hshape, by omega, hs, htake⟩

theorem assigned_ofRow (xs : List Sample) :
    assigned bufsize (NdArray.ofRow xs) = some (xs.take bufsize) := by
  rw [assigned_eq_some_iff]
  refine ⟨xs.length, [], rfl, .inl rfl, ?_⟩
  rw [List.prod_nil, Nat.mul_one, NdArray.data_ofRow]
  exact (List.take_eq_take_min).symm

/-- A row that was all zeros and one that was all ones tell where an assignment
ended. -/
theorem le_of_drop_replicate {n : ℕ} (h : (List.replicate bufsize (0 : Sample)).drop n =
    (List.replicate bufsize 1).drop n) : bufsize ≤ n := by
  rw [List.drop_replicate, List.drop_replicate] at h
  cases hn : bufsize - n with
  | zero => omega
  | succ k =>
      rw [hn, List.replicate_succ, List.replicate_succ] at h
      exact absurd (List.cons.inj h).1 (by decide)

end Lemmas

end MabTilde

import MabTilde.Lib.Bytes
import MabTilde.Lib.Runs

/-!
The header of the shared memory, in the two layouts the two sides use.

The worker declares it as a `ctypes.Structure` with three `c_bool` flags, the
C++ side as a struct with three `long` flags. Up to the sixth field the two
agree byte for byte. From there on they do not: the worker's flags are the
bytes 24, 25 and 26, and the C++ side's first flag is the four bytes from 24
on, so that all three flags of the worker lie in one flag of the other side.
`Clean` says for each store which bytes it takes for the other side to see
that store and nothing else.
-/

namespace MabTilde

open Bytes

inductive Field
  | magic | version | blockSize | numChannels | inputOffset | outputOffset
  | isInputReady | isOutputReady | isPythonReady
  deriving DecidableEq

namespace Field

def all : List Field :=
  [magic, version, blockSize, numChannels, inputOffset, outputOffset,
    isInputReady, isOutputReady, isPythonReady]

theorem mem_all (f : Field) : f ∈ all := by cases f <;> decide

def isFlag : Field → Bool
  | isInputReady | isOutputReady | isPythonReady => true
  | _ => false

/-- What a number in the field says: of a flag, only whether it is zero. -/
def meaning (f : Field) (n : ℕ) : ℕ :=
  if f.isFlag then (if n = 0 then 0 else 1) else n

end Field

/-- The scalar types of the two declarations. `long` has four bytes on Windows. -/
inductive CType
  | uint32
  | bool
  | long

namespace CType

/-- Also the alignment: each of them is aligned to its size. -/
def size : CType → ℕ
  | uint32 | long => 4
  | bool => 1

theorem size_pos (t : CType) : 0 < t.size := by cases t <;> decide

/-- The number whose bytes a store of `v` leaves. `c_bool` keeps the truth value. -/
def encode : CType → BitVec 32 → ℕ
  | bool, v => if v = 0 then 0 else 1
  | _, v => v.toNat

theorem encode_lt (t : CType) (v : BitVec 32) : t.encode v < 256 ^ t.size := by
  cases t with
  | bool =>
      show (if v = 0 then 0 else 1) < 256
      split <;> omega
  | uint32 => exact v.isLt
  | long => exact v.isLt

end CType

inductive Side
  | python
  | cpp
  deriving DecidableEq

namespace Side

def other : Side → Side
  | python => cpp
  | cpp => python

def ctype : Side → Field → CType
  | python, f => if f.isFlag then .bool else .uint32
  | cpp, f => if f.isFlag then .long else .uint32

/-- `SharedMemoryHeader` as the side declares it. Only the worker's has the
32 characters of `padding`. -/
def layout (s : Side) : CStruct Field where
  fields := Field.all
  size f := (s.ctype f).size
  align f := (s.ctype f).size
  trailing := match s with
    | python => 32
    | cpp => 0
  align_pos f := (s.ctype f).size_pos
  mem_fields := Field.mem_all

def read (s : Side) (m : Memory) (f : Field) : ℕ := f.meaning (s.layout.load m f)

def write (s : Side) (m : Memory) (f : Field) (v : BitVec 32) : Memory :=
  s.layout.store m f ((s.ctype f).encode v)

end Side

example : Side.python.layout.sizeof = 60 ∧ Side.cpp.layout.sizeof = 36 := by decide

section Access

variable {s : Side} {m : Memory} {f g : Field} {v : BitVec 32}

theorem toNat_eq_zero_iff : v.toNat = 0 ↔ v = 0 := by
  rw [← BitVec.toNat_inj]
  rfl

theorem meaning_encode (s : Side) (f : Field) (v : BitVec 32) :
    f.meaning ((s.ctype f).encode v) = f.meaning v.toNat := by
  have hzero : v.toNat = 0 ↔ v = 0 := toNat_eq_zero_iff
  cases hf : f.isFlag with
  | false => cases s <;> simp [Side.ctype, CType.encode, hf]
  | true =>
      by_cases hv : v = 0 <;>
        cases s <;> simp [Field.meaning, Side.ctype, CType.encode, hf, hv, hzero]

theorem Side.read_write_self : s.read (s.write m f v) f = f.meaning v.toNat := by
  have hlt : (s.ctype f).encode v < 256 ^ s.layout.size f := CType.encode_lt _ _
  rw [Side.read, Side.write, CStruct.load_store_self, Nat.mod_eq_of_lt hlt, meaning_encode]

theorem Side.read_write_of_ne (hne : g ≠ f) : s.read (s.write m f v) g = s.read m g := by
  rw [Side.read, Side.write, CStruct.load_store_of_ne _ _ hne, Side.read]

theorem Side.offset_add_size_le (s : Side) (f : Field) :
    s.layout.offset f + s.layout.size f ≤ s.layout.sizeof := by
  cases f <;> cases s <;> decide

theorem Side.read_congr {m' : Memory} (h : ∀ i, i < s.layout.sizeof → m' i = m i) (f : Field) :
    s.read m' f = s.read m f := by
  have hend := s.offset_add_size_le f
  unfold Side.read CStruct.load
  congr 1
  apply load_congr
  intro i _ hlt
  exact h i (by omega)

theorem Side.write_of_le {i : ℕ} (hi : s.layout.sizeof ≤ i) : s.write m f v i = m i := by
  have hend := s.offset_add_size_le f
  exact store_of_not_mem (.inr (by omega))

end Access

/-! ### What the other side sees -/

/-- The other side reads the field just stored as it was stored, and the other
eight fields as before. -/
def StoreAgrees (s : Side) (m : Memory) (f : Field) (v : BitVec 32) : Prop :=
  s.other.read (s.write m f v) f = f.meaning v.toNat ∧
    ∀ g, g ≠ f → s.other.read (s.write m f v) g = s.other.read m g

def SameView (m : Memory) : Prop := ∀ f, Side.python.read m f = Side.cpp.read m f

/-- The bytes the header must hold for the store to agree. Nothing is asked of
the six numbers. -/
def Clean (s : Side) (m : Memory) (f : Field) (v : BitVec 32) : Prop :=
  match s, f with
  -- byte 24, which the other side reads with the three bytes above it
  | .python, .isInputReady => v = 0 → m 25 = 0 ∧ m 26 = 0 ∧ m 27 = 0
  -- bytes 25 and 26, which it reads as part of that same flag
  | .python, .isOutputReady =>
      (v = 0 ↔ m 28 = 0 ∧ m 29 = 0 ∧ m 30 = 0 ∧ m 31 = 0) ∧
        (m 24 = 0 ∧ m 26 = 0 ∧ m 27 = 0 → (v = 0 ↔ m 25 = 0))
  | .python, .isPythonReady =>
      (v = 0 ↔ m 32 = 0 ∧ m 33 = 0 ∧ m 34 = 0 ∧ m 35 = 0) ∧
        (m 24 = 0 ∧ m 25 = 0 ∧ m 27 = 0 → (v = 0 ↔ m 26 = 0))
  -- bytes 24 to 27, which the worker reads as its three flags and padding
  | .cpp, .isInputReady =>
      (v = 0 ↔ digit v.toNat 0 = 0) ∧ (digit v.toNat 1 = 0 ↔ m 25 = 0) ∧
        (digit v.toNat 2 = 0 ↔ m 26 = 0)
  -- bytes the worker holds to be padding
  | .cpp, .isOutputReady => v = 0 ↔ m 25 = 0
  | .cpp, .isPythonReady => v = 0 ↔ m 26 = 0
  | _, _ => True

section Bytes

variable {s : Side} {m m' : Memory} {f g : Field} {v : BitVec 32} {i : ℕ}

theorem write_number (hf : f.isFlag = false) : s.write m f v = s.other.write m f v := by
  cases f <;> cases hf <;> cases s <;> rfl

theorem read_number_congr (hg : g.isFlag = false) (h : ∀ i, i < 24 → m' i = m i) :
    s.read m' g = s.read m g := by
  have hend : s.layout.offset g + s.layout.size g ≤ 24 := by
    cases g <;> cases hg <;> cases s <;> decide
  unfold Side.read CStruct.load
  congr 1
  apply load_congr
  intro i _ hlt
  exact h i (by omega)

theorem write_flag_below (hf : f.isFlag = true) (hi : i < 24) : s.write m f v i = m i := by
  have hstart : 24 ≤ s.layout.offset f := by
    cases f <;> cases hf <;> cases s <;> decide
  exact store_of_not_mem (.inl (by omega))

theorem meaning_flag_eq_iff (hf : f.isFlag = true) {a b : ℕ} :
    f.meaning a = f.meaning b ↔ (a = 0 ↔ b = 0) := by
  simp only [Field.meaning, hf, if_true]
  split <;> split <;> simp_all

theorem forall_four_iff {P : ℕ → Prop} (a : ℕ) :
    (∀ i, a ≤ i → i < a + 4 → P i) ↔ P a ∧ P (a + 1) ∧ P (a + 2) ∧ P (a + 3) := by
  refine ⟨?_, ?_⟩
  · intro h
    refine ⟨h a ?_ ?_, h _ ?_ ?_, h _ ?_ ?_, h _ ?_ ?_⟩ <;> omega
  · rintro ⟨h0, h1, h2, h3⟩ i hi hlt
    obtain rfl | rfl | rfl | rfl : i = a ∨ i = a + 1 ∨ i = a + 2 ∨ i = a + 3 := by omega
    · exact h0
    · exact h1
    · exact h2
    · exact h3

theorem forall_one_iff {P : ℕ → Prop} (a : ℕ) : (∀ i, a ≤ i → i < a + 1 → P i) ↔ P a := by
  refine ⟨?_, ?_⟩
  · intro h
    exact h a (le_refl a) (by omega)
  · intro h i hi hlt
    obtain rfl : i = a := by omega
    exact h

theorem offset_python_input : Side.python.layout.offset .isInputReady = 24 := rfl
theorem offset_python_output : Side.python.layout.offset .isOutputReady = 25 := rfl
theorem offset_python_ready : Side.python.layout.offset .isPythonReady = 26 := rfl
theorem offset_cpp_input : Side.cpp.layout.offset .isInputReady = 24 := rfl
theorem offset_cpp_output : Side.cpp.layout.offset .isOutputReady = 28 := rfl
theorem offset_cpp_ready : Side.cpp.layout.offset .isPythonReady = 32 := rfl

/-! Where each flag of each side lies, as the bytes that must be zero. -/

theorem python_input_eq_zero : Side.python.layout.load m .isInputReady = 0 ↔ m 24 = 0 := by
  show Bytes.load m 24 1 = 0 ↔ _
  rw [load_eq_zero_iff, forall_one_iff]

theorem python_output_eq_zero : Side.python.layout.load m .isOutputReady = 0 ↔ m 25 = 0 := by
  show Bytes.load m 25 1 = 0 ↔ _
  rw [load_eq_zero_iff, forall_one_iff]

theorem python_ready_eq_zero : Side.python.layout.load m .isPythonReady = 0 ↔ m 26 = 0 := by
  show Bytes.load m 26 1 = 0 ↔ _
  rw [load_eq_zero_iff, forall_one_iff]

theorem cpp_input_eq_zero : Side.cpp.layout.load m .isInputReady = 0 ↔
    m 24 = 0 ∧ m 25 = 0 ∧ m 26 = 0 ∧ m 27 = 0 := by
  show Bytes.load m 24 4 = 0 ↔ _
  rw [load_eq_zero_iff, forall_four_iff]

theorem cpp_output_eq_zero : Side.cpp.layout.load m .isOutputReady = 0 ↔
    m 28 = 0 ∧ m 29 = 0 ∧ m 30 = 0 ∧ m 31 = 0 := by
  show Bytes.load m 28 4 = 0 ↔ _
  rw [load_eq_zero_iff, forall_four_iff]

theorem cpp_ready_eq_zero : Side.cpp.layout.load m .isPythonReady = 0 ↔
    m 32 = 0 ∧ m 33 = 0 ∧ m 34 = 0 ∧ m 35 = 0 := by
  show Bytes.load m 32 4 = 0 ↔ _
  rw [load_eq_zero_iff, forall_four_iff]

theorem digit_encode_bool : digit (CType.bool.encode v) 0 = 0 ↔ v = 0 := by
  show digit (if v = 0 then 0 else 1) 0 = 0 ↔ v = 0
  split
  · rename_i hv
    simp only [hv, iff_true]
    decide
  · rename_i hv
    simp only [hv, iff_false]
    decide

theorem write_python_flag (hf : f.isFlag = true) (i : ℕ) :
    Side.python.write m f v i = 0 ↔
      if i = Side.python.layout.offset f then v = 0 else m i = 0 := by
  have hsize : Side.python.layout.size f = 1 := by cases f <;> cases hf <;> rfl
  have htype : Side.python.ctype f = .bool := by cases f <;> cases hf <;> rfl
  unfold Side.write CStruct.store
  rw [hsize, htype]
  by_cases hi : i = Side.python.layout.offset f
  · rw [if_pos hi, store_of_mem (by omega) (by omega), hi, Nat.sub_self, digit_encode_bool]
  · rw [if_neg hi, store_of_not_mem (by omega)]

theorem write_cpp_flag (hf : f.isFlag = true) (i : ℕ) :
    Side.cpp.write m f v i =
      if Side.cpp.layout.offset f ≤ i ∧ i < Side.cpp.layout.offset f + 4 then
        digit v.toNat (i - Side.cpp.layout.offset f)
      else m i := by
  cases f <;> cases hf <;> rfl

theorem storeAgrees_flag_iff (hf : f.isFlag = true) :
    StoreAgrees s m f v ↔
      (s.other.layout.load (s.write m f v) f = 0 ↔ v = 0) ∧
        ∀ g, g.isFlag = true → g ≠ f →
          (s.other.layout.load (s.write m f v) g = 0 ↔ s.other.layout.load m g = 0) := by
  unfold StoreAgrees
  rw [Side.read, meaning_flag_eq_iff hf, toNat_eq_zero_iff]
  apply and_congr_right
  intro _
  refine ⟨?_, ?_⟩
  · intro h g hg hne
    exact (meaning_flag_eq_iff hg).mp (h g hne)
  · intro h g hne
    cases hg : g.isFlag with
    | false => exact read_number_congr hg fun i hi => write_flag_below hf hi
    | true => exact (meaning_flag_eq_iff hg).mpr (h g hg hne)

theorem forall_flag_iff {P : Field → Prop} :
    (∀ g, g.isFlag = true → P g) ↔
      P .isInputReady ∧ P .isOutputReady ∧ P .isPythonReady := by
  refine ⟨?_, ?_⟩
  · intro h
    exact ⟨h _ rfl, h _ rfl, h _ rfl⟩
  · rintro ⟨hi, ho, hp⟩ g hg
    cases g <;> cases hg
    · exact hi
    · exact ho
    · exact hp

theorem storeAgrees_number (hf : f.isFlag = false) : StoreAgrees s m f v := by
  rw [StoreAgrees, write_number hf]
  exact ⟨Side.read_write_self, fun g hg => Side.read_write_of_ne hg⟩

theorem storeAgrees_python_flag (hf : f.isFlag = true) :
    StoreAgrees .python m f v ↔ Clean .python m f v := by
  have hwrite := fun i => write_python_flag (m := m) (v := v) hf i
  rw [storeAgrees_flag_iff hf, forall_flag_iff]
  cases f <;> cases hf
  · simp only [Side.other, cpp_input_eq_zero, cpp_output_eq_zero, cpp_ready_eq_zero, hwrite,
      offset_python_input, Clean]
    grind
  · simp only [Side.other, cpp_input_eq_zero, cpp_output_eq_zero, cpp_ready_eq_zero, hwrite,
      offset_python_output, Clean]
    grind
  · simp only [Side.other, cpp_input_eq_zero, cpp_output_eq_zero, cpp_ready_eq_zero, hwrite,
      offset_python_ready, Clean]
    grind

theorem storeAgrees_cpp_flag (hf : f.isFlag = true) :
    StoreAgrees .cpp m f v ↔ Clean .cpp m f v := by
  have hwrite := fun i => write_cpp_flag (m := m) (v := v) hf i
  rw [storeAgrees_flag_iff hf, forall_flag_iff]
  cases f <;> cases hf
  · simp only [Side.other, python_input_eq_zero, python_output_eq_zero, python_ready_eq_zero,
      hwrite, offset_cpp_input, Clean]
    grind
  · simp only [Side.other, python_input_eq_zero, python_output_eq_zero, python_ready_eq_zero,
      hwrite, offset_cpp_output, Clean]
    grind
  · simp only [Side.other, python_input_eq_zero, python_output_eq_zero, python_ready_eq_zero,
      hwrite, offset_cpp_ready, Clean]
    grind

/-- One store: exactly the clean ones are seen by the other side as made. -/
theorem storeAgrees_iff : StoreAgrees s m f v ↔ Clean s m f v := by
  cases hf : f.isFlag with
  | true =>
      cases s with
      | python => exact storeAgrees_python_flag hf
      | cpp => exact storeAgrees_cpp_flag hf
  | false =>
      apply iff_of_true (storeAgrees_number hf)
      cases f <;> cases hf <;> cases s <;> exact True.intro

end Bytes

/-! ### Sequences of stores -/

structure FieldStore where
  side : Side
  field : Field
  value : BitVec 32

/-- Stores never fail: the header is mapped on both sides. -/
def storeStep (m : Memory) (st : FieldStore) : Option Memory :=
  some (st.side.write m st.field st.value)

section Runs

variable {m : Memory} {st : FieldStore}

theorem sameView_iff_other (s : Side) :
    SameView m ↔ ∀ f, s.other.read m f = s.read m f := by
  cases s with
  | python =>
      show (∀ f, Side.python.read m f = Side.cpp.read m f) ↔ _
      exact forall_congr' fun f => eq_comm
  | cpp => exact Iff.rfl

/-- The side that stores reads what it expects, so from one view the next is
one view exactly if the other side sees the store as made. -/
theorem sameView_write_iff (h : SameView m) :
    SameView (st.side.write m st.field st.value) ↔
      StoreAgrees st.side m st.field st.value := by
  rw [sameView_iff_other st.side] at h ⊢
  refine ⟨?_, ?_⟩
  · intro h'
    refine ⟨?_, ?_⟩
    · rw [h', Side.read_write_self]
    · intro g hg
      rw [h', Side.read_write_of_ne hg, h]
  · rintro ⟨hself, hrest⟩ g
    by_cases hg : g = st.field
    · rw [hg, hself, Side.read_write_self]
    · rw [hrest g hg, Side.read_write_of_ne hg, h]

theorem along_sameView_iff (stores : List FieldStore) :
    Runs.Along storeStep SameView m stores ↔
      SameView m ∧ Runs.EachStep storeStep
        (fun m st _ => Clean st.side m st.field st.value) m stores := by
  have hstep : ∀ m st m', SameView m → storeStep m st = some m' →
      (SameView m' ↔ Clean st.side m st.field st.value) := by
    rintro m st m' hm ⟨⟩
    rw [sameView_write_iff hm, storeAgrees_iff]
  by_cases hm : SameView m
  · rw [and_iff_right hm]
    exact Runs.along_iff (fun m st m' hm h hc => (hstep m st m' hm h).mpr hc) (fun _ hm => hm)
      (fun m st m' hm h hm' => (hstep m st m' hm h).mp hm') hm
  · exact iff_of_false (fun h => hm h.1) (fun h => hm h.1)

end Runs

/-- The layouts are one format for a store exactly if it is clean, and both
sides go on reading the same nine values through a sequence of stores exactly
if they do at first and every store is clean. -/
theorem layouts_agree_iff (m : Memory) :
    (∀ s f v, StoreAgrees s m f v ↔ Clean s m f v) ∧
      ∀ stores, Runs.Along storeStep SameView m stores ↔
        SameView m ∧ Runs.EachStep storeStep
          (fun m st _ => Clean st.side m st.field st.value) m stores :=
  ⟨fun _ _ _ => storeAgrees_iff, along_sameView_iff⟩

/-- On an empty header the worker stores `is_output_ready = True`: the C++ side
reads `is_input_ready` set and `is_output_ready` not. -/
theorem output_flag_read_as_input :
    Side.cpp.read (Side.python.write (fun _ => 0) .isOutputReady 1) .isInputReady = 1 ∧
      Side.cpp.read (Side.python.write (fun _ => 0) .isOutputReady 1) .isOutputReady = 0 ∧
      ¬ (∀ s m f v, StoreAgrees s m f v) ∧
      ¬ ∀ m stores, SameView m → Runs.Along storeStep SameView m stores := by
  have hin : Side.cpp.read (Side.python.write (fun _ => 0) .isOutputReady 1)
      .isInputReady = 1 := by decide
  have hout : Side.cpp.read (Side.python.write (fun _ => 0) .isOutputReady 1)
      .isOutputReady = 0 := by decide
  refine ⟨hin, hout, ?_, ?_⟩
  · intro h
    have hself := (h .python (fun _ => 0) .isOutputReady 1).1
    exact absurd (hself.symm.trans hout) (by decide)
  · intro h
    have hview : SameView (fun _ => 0) := by
      intro f
      cases f <;> decide
    have hnext := (h (fun _ => 0) [⟨.python, .isOutputReady, 1⟩] hview).2 _ rfl
    exact absurd ((hnext.1 .isOutputReady).trans hout) (by decide)

end MabTilde

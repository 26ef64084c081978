import MabTilde.Lib.Tiling
import MabTilde.SharedMemoryManager

/-!
The layout of the section behind the header.

The worker places samples by `reshape(num_channels, block_size)`: row after row
of the input, then row after row of the output. The one limit the system sets,
a size that fits a C integer, bounds every number the header holds, so the
header says where each sample is; and the samples, four aligned bytes each,
make up the section from the end of the header to its own end.
-/

namespace MabTilde

open Bytes Tiling Win32

inductive AudioBuffer
  | input
  | output

/-- The place of a sample in the views. -/
structure Place where
  buffer : AudioBuffer
  channel : ℕ
  index : ℕ

namespace SharedMemoryManager

variable {P : Type} (sm : SharedMemoryManager)

def InViews (t : Place) : Prop :=
  t.channel < sm.numChannels.toNat ∧ t.index < sm.blockSize.toNat

def bufferOffset : AudioBuffer → ℤ
  | .input => inputOffset
  | .output => sm.outputOffset

def sampleAddr (t : Place) : ℕ :=
  (sm.bufferOffset t.buffer).toNat + 4 * (t.channel * sm.blockSize.toNat + t.index)

/-- The field that holds where a buffer begins. -/
def offsetField : AudioBuffer → Field
  | .input => .inputOffset
  | .output => .outputOffset

/-- The first byte of the sample, found by a reader that knows only the header. -/
def addrFromHeader (k : Kernel P) (name : String) (t : Place) : Option ℕ :=
  (k.header name (offsetField t.buffer)).bind fun offset =>
    (k.header name .blockSize).map fun blockSize =>
      offset + 4 * (t.channel * blockSize + t.index)

/-- The header holds the manager's numbers as they are. -/
structure HeaderExact (k : Kernel P) : Prop where
  blockSize : ∃ x : ℕ, k.header sm.shmName .blockSize = some x ∧ x = sm.blockSize
  numChannels : ∃ x : ℕ, k.header sm.shmName .numChannels = some x ∧ x = sm.numChannels
  inputOffset : ∃ x : ℕ, k.header sm.shmName .inputOffset = some x ∧
    x = SharedMemoryManager.inputOffset
  outputOffset : ∃ x : ℕ, k.header sm.shmName .outputOffset = some x ∧ x = sm.outputOffset

/-- The samples of the two views are what lies behind the header. -/
structure Partitioned : Prop where
  aligned : ∀ t, sm.InViews t → 4 ∣ sm.sampleAddr t
  tiles : Tiles sm.InViews sm.sampleAddr 4 headerSize sm.totalSize.toNat

section Lemmas

variable {sm} {b : AudioBuffer} {ch i : ℕ} {m : Memory}

theorem getElem?_inputRow (hi : i < sm.blockSize.toNat) :
    (sm.inputRow ch m)[i]? =
      some (BitVec.ofNat 32 (load m (sm.sampleAddr ⟨.input, ch, i⟩) 4)) := by
  rw [inputRow, getElem?_loadWords hi]
  congr 3
  simp only [sampleAddr, bufferOffset, inputRowAddr]
  omega

theorem getElem?_outputRow (hi : i < sm.blockSize.toNat) :
    (sm.outputRow ch m)[i]? =
      some (BitVec.ofNat 32 (load m (sm.sampleAddr ⟨.output, ch, i⟩) 4)) := by
  rw [outputRow, getElem?_loadWords hi]
  congr 3
  simp only [sampleAddr, bufferOffset, outputRowAddr]
  omega

/-! The samples in the order of their addresses: the rows of the output are
counted on from those of the input. -/

def row (sm : SharedMemoryManager) (t : Place) : ℕ :=
  match t.buffer with
  | .input => t.channel
  | .output => sm.numChannels.toNat + t.channel

theorem row_lt {t : Place} (ht : sm.InViews t) : sm.row t < 2 * sm.numChannels.toNat := by
  obtain ⟨b, ch, i⟩ := t
  have hch : ch < sm.numChannels.toNat := ht.1
  cases b with
  | input =>
      show ch < _
      omega
  | output =>
      show sm.numChannels.toNat + ch < _
      omega

theorem place_eq {t t' : Place} (ht : sm.InViews t) (ht' : sm.InViews t')
    (hrow : sm.row t = sm.row t') (hindex : t.index = t'.index) : t = t' := by
  obtain ⟨b, ch, i⟩ := t
  obtain ⟨b', ch', i'⟩ := t'
  have hch : ch < sm.numChannels.toNat := ht.1
  have hch' : ch' < sm.numChannels.toNat := ht'.1
  cases b <;> cases b' <;> simp only [row] at hrow hindex
  · rw [hrow, hindex]
  · omega
  · omega
  · rw [Nat.add_left_cancel hrow, hindex]

theorem exists_place {r i : ℕ} (hr : r < 2 * sm.numChannels.toNat)
    (hi : i < sm.blockSize.toNat) : ∃ t, sm.InViews t ∧ sm.row t = r ∧ t.index = i := by
  by_cases h : r < sm.numChannels.toNat
  · exact ⟨⟨.input, r, i⟩, ⟨h, hi⟩, rfl, rfl⟩
  · refine ⟨⟨.output, r - sm.numChannels.toNat, i⟩, ⟨?_, hi⟩, ?_, rfl⟩
    · show r - sm.numChannels.toNat < _
      omega
    · show sm.numChannels.toNat + (r - sm.numChannels.toNat) = r
      omega

section Sizes

variable (hB : 1 ≤ sm.blockSize) (hC : 1 ≤ sm.numChannels)

include hB hC

theorem sampleAddr_eq (t : Place) :
    sm.sampleAddr t = headerSize + 4 * (sm.row t * sm.blockSize.toNat + t.index) := by
  obtain ⟨b, ch, i⟩ := t
  cases b with
  | input => rfl
  | output =>
      simp only [sampleAddr, bufferOffset, row]
      rw [sm.outputOffset_toNat (by omega) (by omega), Nat.add_mul]
      omega

theorem totalSize_toNat :
    sm.totalSize.toNat =
      headerSize + 4 * (2 * sm.numChannels.toNat * sm.blockSize.toNat) := by
  have hsize : sm.totalSize = sm.outputOffset + sm.outputSize := rfl
  have hout : sm.outputOffset = headerSize + sm.outputSize := rfl
  have hpos : 0 ≤ sm.outputSize :=
    Int.mul_nonneg (Int.mul_nonneg (by omega) (by omega)) (by decide)
  have hoffset := sm.outputOffset_toNat (by omega) (by omega)
  rw [Nat.mul_assoc]
  omega

theorem partitioned : sm.Partitioned := by
  refine ⟨?_, ?_⟩
  · intro t _
    have hheader : 4 ∣ headerSize := by decide
    rw [sampleAddr_eq hB hC]
    exact Nat.dvd_add hheader (Nat.dvd_mul_right 4 _)
  · have hcells : Tiles (fun j => j < 2 * sm.numChannels.toNat * sm.blockSize.toNat)
        (fun j => headerSize + 4 * j) 4 headerSize
        (headerSize + 4 * (2 * sm.numChannels.toNat * sm.blockSize.toNat)) :=
      tiles_consecutive (by decide) _
    rw [← totalSize_toNat hB hC] at hcells
    have htiles := hcells.reindex (J := sm.InViews)
      (fun t => sm.row t * sm.blockSize.toNat + t.index) ?_ ?_ ?_
    · rwa [← funext (sampleAddr_eq hB hC)] at htiles
    · intro t ht
      exact rowMajor_lt (row_lt ht) ht.2
    · intro t t' ht ht' h
      obtain ⟨hrow, hindex⟩ := rowMajor_injOn ht.2 ht'.2 h
      exact place_eq ht ht' hrow hindex
    · intro n hn
      obtain ⟨r, i, hr, hi, rfl⟩ := exists_rowMajor hn
      obtain ⟨t, ht, rfl, rfl⟩ := exists_place hr hi
      exact ⟨t, ht, rfl⟩

theorem le_totalSize :
    sm.blockSize ≤ sm.totalSize ∧ sm.numChannels ≤ sm.totalSize ∧
      inputOffset ≤ sm.totalSize ∧ 0 ≤ sm.outputOffset ∧ sm.outputOffset ≤ sm.totalSize := by
  have hblock := Int.mul_le_mul_of_nonneg_left hC (show 0 ≤ sm.blockSize by omega)
  have hchannels := Int.mul_le_mul_of_nonneg_right hB (show 0 ≤ sm.numChannels by omega)
  rw [Int.mul_one] at hblock
  rw [Int.one_mul] at hchannels
  have hheader : inputOffset = 60 := rfl
  have hout : sm.outputOffset = 60 + sm.blockSize * sm.numChannels * 4 := rfl
  have htotal : sm.totalSize =
      60 + sm.blockSize * sm.numChannels * 4 + sm.blockSize * sm.numChannels * 4 := rfl
  omega

end Sizes

theorem toNat_ofInt_of_lt {x : ℤ} (h0 : 0 ≤ x) (hlt : x < 2 ^ 32) :
    ((BitVec.ofInt 32 x).toNat : ℤ) = x := by
  rw [BitVec.toNat_ofInt]
  omega

section Create

variable [DecidableEq P] {p : P} {mapped viewed : Bool} {at_ : Attributes} {k : Kernel P}

theorem headerExact_create (hB : 1 ≤ sm.blockSize) (hC : 1 ≤ sm.numChannels)
    (h : (sm.create p mapped viewed at_ k).1 = some true) :
    sm.HeaderExact (sm.create p mapped viewed at_ k).2.2 := by
  have hconv := (create_eq_true_iff.mp h).1
  simp only [convertible, Bool.and_eq_true, decide_eq_true_eq] at hconv
  obtain ⟨hblock, hchannels, hin, hout, hout'⟩ := le_totalSize hB hC
  refine ⟨?_, ?_, ?_, ?_⟩
  · exact ⟨_, header_create h .blockSize, toNat_ofInt_of_lt (by omega) (by omega)⟩
  · exact ⟨_, header_create h .numChannels, toNat_ofInt_of_lt (by omega) (by omega)⟩
  · exact ⟨_, header_create h .inputOffset, toNat_ofInt_of_lt (by decide) (by omega)⟩
  · exact ⟨_, header_create h .outputOffset, toNat_ofInt_of_lt hout (by omega)⟩

omit [DecidableEq P] in
/-- An exact header is all a reader needs. -/
theorem HeaderExact.addrFromHeader (h : sm.HeaderExact k) (t : Place) :
    addrFromHeader k sm.shmName t = some (sm.sampleAddr t) := by
  obtain ⟨b, ch, i⟩ := t
  obtain ⟨block, hblock, hblockSize⟩ := h.blockSize
  have hblock' : block = sm.blockSize.toNat := by omega
  have hoffset : k.header sm.shmName (offsetField b) = some (sm.bufferOffset b).toNat := by
    cases b with
    | input =>
        obtain ⟨x, hx, hoff⟩ := h.inputOffset
        show k.header sm.shmName .inputOffset = some SharedMemoryManager.inputOffset.toNat
        rw [hx, ← hoff, Int.toNat_natCast]
    | output =>
        obtain ⟨x, hx, hoff⟩ := h.outputOffset
        show k.header sm.shmName .outputOffset = some sm.outputOffset.toNat
        rw [hx, ← hoff, Int.toNat_natCast]
  rw [SharedMemoryManager.addrFromHeader, hoffset, Option.bind_some, hblock, Option.map_some,
    hblock']
  rfl

end Create

end Lemmas

/-- Whenever `create()` returns `True`, the header holds the sizes and offsets
without a wrap, the samples of the two views divide up the section behind it,
and a reader finds each of them from the header alone. -/
theorem layout_partition [DecidableEq P] (p : P) (mapped viewed : Bool) (at_ : Attributes)
    (k : Kernel P) (hB : 1 ≤ sm.blockSize) (hC : 1 ≤ sm.numChannels)
    (h : (sm.create p mapped viewed at_ k).1 = some true) :
    sm.HeaderExact (sm.create p mapped viewed at_ k).2.2 ∧ sm.Partitioned ∧
      ∀ t, addrFromHeader (sm.create p mapped viewed at_ k).2.2 sm.shmName t =
        some (sm.sampleAddr t) := by
  have hexact := headerExact_create hB hC h
  exact ⟨hexact, partitioned hB hC, hexact.addrFromHeader⟩

def twoChannels : SharedMemoryManager := ⟨"MabSharedMem_00000007", "MabEvent_00000007", 3, 2⟩

theorem layout_partition_twoChannels :
    (twoChannels.create () true true Attributes.init Kernel.init).1 = some true ∧
      twoChannels.Partitioned := by
  have htrue : (twoChannels.create () true true Attributes.init Kernel.init).1 = some true := by
    decide +kernel
  exact ⟨htrue, (layout_partition twoChannels () true true Attributes.init Kernel.init
    (by decide) (by decide) htrue).2.1⟩

end SharedMemoryManager

end MabTilde

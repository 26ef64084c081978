import MabTilde.Layout

/-!
Where the worker thinks the view is.

`MapViewOfFile` returns a pointer of 64 bits. No result type is declared for
it, so what `create()` gets is a C `int`: the lower half, its top bit taken as
a sign. The result is tested, added to and made a pointer again, which brings
back the sign but not the upper half; so the pointers are the system's exactly
for a view in the first 2 GiB. No argument types are declared either, and so the
size of the view goes the same way.
-/

namespace MabTilde

open Win32

/-- What a foreign function returns whose `restype` is not set. -/
def cIntResult (r : BitVec 64) : ℤ := (r.setWidth 32).toInt

/-- A Python integer as an address: its lowest 64 bits. -/
def address (n : ℤ) : BitVec 64 := BitVec.ofInt 64 n

/-- The attributes `_p_header`, `_p_input` and `_p_output`. -/
structure ViewPointers where
  header : BitVec 64
  input : BitVec 64
  output : BitVec 64
  deriving DecidableEq

namespace SharedMemoryManager

variable {P : Type} [DecidableEq P] (sm : SharedMemoryManager)

def viewPointers (pBase : ℤ) : ViewPointers :=
  ⟨address pBase, address (pBase + inputOffset), address (pBase + sm.outputOffset)⟩

/-- `create()` where the system puts a view at `base`, if it makes one, with the
pointers it computes. An address with the sign in its upper half belongs to no
process: the first store into the header ends this one. -/
def createAt (p : P) (mapped : Bool) (base : BitVec 64) (at_ : Attributes) (k : Kernel P) :
    Option Bool × Option ViewPointers :=
  let pBase := cIntResult base
  let returned := (sm.create p mapped (decide (pBase ≠ 0)) at_ k).1
  (if returned = some true ∧ pBase < 0 then none else returned,
    if returned = some true then some (sm.viewPointers pBase) else none)

/-- The size `MapViewOfFile` is asked for: `total_size` as a C `int`, widened to a
`SIZE_T`. -/
def viewSize : ℕ := ((BitVec.ofInt 32 sm.totalSize).signExtend 64).toNat

/-- The address of a sample of the arrays built on the pointers. -/
def arrayAddr (v : ViewPointers) (t : Place) : BitVec 64 :=
  (match t.buffer with
    | .input => v.input
    | .output => v.output) +
    BitVec.ofNat 64 (4 * (t.channel * sm.blockSize.toNat + t.index))

/-- `create()` returns `True`, and all it and the views compute lies in the view
at `base`, where it should. -/
structure UsesView (p : P) (base : ℕ) (at_ : Attributes) (k : Kernel P) : Prop where
  returns : (sm.createAt p true (BitVec.ofNat 64 base) at_ k).1 = some true
  pointers : ∃ v, (sm.createAt p true (BitVec.ofNat 64 base) at_ k).2 = some v ∧
    v.header.toNat = base ∧ v.input.toNat = base + inputOffset ∧
      v.output.toNat = base + sm.outputOffset ∧
      ∀ t, sm.InViews t → (sm.arrayAddr v t).toNat = base + sm.sampleAddr t ∧
        base ≤ (sm.arrayAddr v t).toNat ∧ (sm.arrayAddr v t).toNat + 4 ≤ base + sm.totalSize

section Lemmas

variable {sm} {p : P} {at_ : Attributes} {k : Kernel P} {base : ℕ}

theorem cIntResult_ofNat (base : ℕ) :
    cIntResult (BitVec.ofNat 64 base) = (base : ℤ).bmod (2 ^ 32) := by
  rw [cIntResult, BitVec.setWidth_ofNat_of_le (by decide), BitVec.toInt_ofNat']

theorem cIntResult_of_lt (h : base < 2 ^ 31) : cIntResult (BitVec.ofNat 64 base) = base := by
  rw [cIntResult_ofNat, Int.bmod_def]
  omega

theorem address_toNat {n : ℕ} (h : n < 2 ^ 64) : (address n).toNat = n := by
  rw [address, BitVec.toNat_ofInt]
  omega

/-- Above 2 GiB either the upper half is missing or the sign fills it. -/
theorem lt_of_address_cIntResult (hlt : base < 2 ^ 47)
    (h : (address (cIntResult (BitVec.ofNat 64 base))).toNat = base) : base < 2 ^ 31 := by
  rw [address, BitVec.toNat_ofInt, cIntResult_ofNat, Int.bmod_def] at h
  split at h <;> omega

theorem viewSize_of_lt (hpos : 0 ≤ sm.totalSize) (hlt : sm.totalSize < 2 ^ 31) :
    (sm.viewSize : ℤ) = sm.totalSize := by
  rw [viewSize, BitVec.signExtend, BitVec.toInt_ofInt, Int.bmod_def, BitVec.toNat_ofInt]
  omega

/-- A size of 2 GiB or more is asked for with the upper half full. -/
theorem le_viewSize (hlow : 2 ^ 31 ≤ sm.totalSize) (hlt : sm.totalSize < 2 ^ 32) :
    2 ^ 63 ≤ sm.viewSize := by
  rw [viewSize, BitVec.signExtend, BitVec.toInt_ofInt, Int.bmod_def, BitVec.toNat_ofInt]
  omega

theorem arrayAddr_toNat {v : ViewPointers} (hB : 1 ≤ sm.blockSize) (hC : 1 ≤ sm.numChannels)
    (htotal : sm.totalSize < 2 ^ 32) (hbase : base < 2 ^ 47)
    (hin : (v.input.toNat : ℤ) = base + inputOffset)
    (hout : (v.output.toNat : ℤ) = base + sm.outputOffset) {t : Place} (ht : sm.InViews t) :
    (sm.arrayAddr v t).toNat = base + sm.sampleAddr t ∧
      base ≤ (sm.arrayAddr v t).toNat ∧
        (sm.arrayAddr v t).toNat + 4 ≤ base + sm.totalSize := by
  obtain ⟨-, hhigh⟩ := (partitioned hB hC).tiles.inside t ht
  obtain ⟨-, -, hsize, hpos, -⟩ := le_totalSize hB hC
  have hheader : inputOffset = 60 := rfl
  have hsum : (sm.arrayAddr v t).toNat = base + sm.sampleAddr t := by
    obtain ⟨b, ch, i⟩ := t
    unfold arrayAddr
    rw [BitVec.toNat_add, BitVec.toNat_ofNat]
    cases b with
    | input =>
        simp only [sampleAddr, bufferOffset] at hhigh ⊢
        omega
    | output =>
        simp only [sampleAddr, bufferOffset] at hhigh ⊢
        omega
  refine ⟨hsum, ?_, ?_⟩
  · rw [hsum]
    exact Nat.le_add_right _ _
  · rw [hsum]
    omega

theorem usesView_of_lt (hpos : 0 < base) (hlt : base < 2 ^ 31) (hB : 1 ≤ sm.blockSize)
    (hC : 1 ≤ sm.numChannels) (htotal : sm.totalSize < 2 ^ 32)
    (hfits : (k.createFileMapping p sm.request sm.shmName).fits sm.shmName sm.request = true) :
    sm.UsesView p base at_ k := by
  have hbase := cIntResult_of_lt hlt
  obtain ⟨-, -, hin, hout, hout'⟩ := le_totalSize hB hC
  have hheader : inputOffset = 60 := rfl
  have hconv : sm.convertible = true := by
    simp only [convertible, Bool.and_eq_true, decide_eq_true_eq]
    omega
  have hcreate : (sm.create p true (decide (cIntResult (BitVec.ofNat 64 base) ≠ 0)) at_ k).1 =
      some true := by
    refine create_eq_true_iff.mpr ⟨hconv, rfl, ?_, hfits⟩
    rw [hbase]
    exact decide_eq_true (by omega)
  have hreturns : (sm.createAt p true (BitVec.ofNat 64 base) at_ k).1 = some true := by
    refine (if_neg ?_).trans hcreate
    rw [hbase]
    omega
  have hheader' : (address (cIntResult (BitVec.ofNat 64 base))).toNat = base := by
    rw [hbase]
    exact address_toNat (by omega)
  have hinput : ((address (cIntResult (BitVec.ofNat 64 base) + inputOffset)).toNat : ℤ) =
      base + inputOffset := by
    rw [hbase, address, BitVec.toNat_ofInt]
    omega
  have houtput : ((address (cIntResult (BitVec.ofNat 64 base) + sm.outputOffset)).toNat : ℤ) =
      base + sm.outputOffset := by
    rw [hbase, address, BitVec.toNat_ofInt]
    omega
  refine ⟨hreturns, _, if_pos hcreate, hheader', hinput, houtput, fun t ht => ?_⟩
  exact arrayAddr_toNat hB hC htotal (by omega) hinput houtput ht

end Lemmas

/-- The worker uses the view the system made exactly if it lies in the first
2 GiB. -/
theorem usesView_iff (p : P) (base : ℕ) (at_ : Attributes) (k : Kernel P) (hpos : 0 < base)
    (hlt : base < 2 ^ 47) (hB : 1 ≤ sm.blockSize) (hC : 1 ≤ sm.numChannels)
    (htotal : sm.totalSize < 2 ^ 32)
    (hfits : (k.createFileMapping p sm.request sm.shmName).fits sm.shmName sm.request = true) :
    sm.UsesView p base at_ k ↔ base < 2 ^ 31 := by
  refine ⟨?_, fun h => usesView_of_lt hpos h hB hC htotal hfits⟩
  rintro ⟨-, v, hv, hheader, -⟩
  obtain ⟨-, hv⟩ := Option.ite_none_right_eq_some.mp hv
  obtain rfl := Option.some.inj hv
  exact lt_of_address_cIntResult hlt hheader

theorem usesView_low : twoChannels.UsesView () 0x10000 Attributes.init Kernel.init :=
  (usesView_iff twoChannels () 0x10000 Attributes.init Kernel.init (by decide) (by decide)
    (by decide) (by decide) (by decide) (by decide +kernel)).mpr (by decide)

/-- A view at 4 GiB is taken for a failure, and with one at 6 GiB the worker
looks for its header near the end of the address space. -/
theorem view_missed :
    (oneChannel.createAt () true (BitVec.ofNat 64 0x100000000) Attributes.init
        Kernel.init).1 = some false ∧
      (oneChannel.createAt () true (BitVec.ofNat 64 0x180000000) Attributes.init
        Kernel.init).1 = none ∧
      (oneChannel.createAt () true (BitVec.ofNat 64 0x180000000) Attributes.init
        Kernel.init).2.map ViewPointers.header = some 0xFFFFFFFF80000000 ∧
      ¬ oneChannel.UsesView () 0x100000000 Attributes.init Kernel.init ∧
      ¬ oneChannel.UsesView () 0x180000000 Attributes.init Kernel.init := by
  have hfailed : (oneChannel.createAt () true (BitVec.ofNat 64 0x100000000) Attributes.init
      Kernel.init).1 = some false := by decide +kernel
  have hfaults : (oneChannel.createAt () true (BitVec.ofNat 64 0x180000000) Attributes.init
      Kernel.init).1 = none := by decide +kernel
  have hheader : (oneChannel.createAt () true (BitVec.ofNat 64 0x180000000) Attributes.init
      Kernel.init).2.map ViewPointers.header = some 0xFFFFFFFF80000000 := by decide +kernel
  refine ⟨hfailed, hfaults, hheader, ?_, ?_⟩
  · intro h
    exact absurd (hfailed.symm.trans h.returns) (by decide)
  · intro h
    exact absurd (hfaults.symm.trans h.returns) (by decide)

end SharedMemoryManager

end MabTilde

import MabTilde.Win32

/-!
`SharedMemoryManager`: the sizes and offsets its constructor computes, the
stores `create()` makes into the header, and its methods as calls.

`block_size` and `num_channels` are Python integers and may be anything. A
method either returns, here `some`, or raises, and what it did to the kernel
objects before stays done. The methods are given the outcomes of the Win32
calls they make, in order.
-/

namespace MabTilde

open Bytes Win32

/-- `'MABT'` -/
def MAGIC_NUMBER : BitVec 32 := 0x4D414254

/-- The constructor's arguments. -/
structure SharedMemoryManager where
  shmName : String
  readyEventName : String
  blockSize : ℤ
  numChannels : ℤ

def oneChannel : SharedMemoryManager := ⟨"MabSharedMem_00000007", "MabEvent_00000007", 64, 1⟩

def twoSamples : SharedMemoryManager := ⟨"MabSharedMem_00000007", "MabEvent_00000007", 2, 1⟩

namespace SharedMemoryManager

def headerSize : ℕ := Side.python.layout.sizeof

def inputOffset : ℤ := headerSize

variable (sm : SharedMemoryManager)

def inputSize : ℤ := sm.blockSize * sm.numChannels * 4

def outputSize : ℤ := sm.blockSize * sm.numChannels * 4

def totalSize : ℤ := headerSize + sm.inputSize + sm.outputSize

def outputOffset : ℤ := headerSize + sm.inputSize

/-- `total_size` can be passed as a C `int`. Otherwise the call raises. -/
def convertible : Bool := decide (-2 ^ 31 ≤ sm.totalSize) && decide (sm.totalSize < 2 ^ 32)

/-- The size `CreateFileMappingW` is asked for. Below 2 GiB `MapViewOfFile` is asked for
the same; from there on the sign fills its upper half. -/
def request : ℕ := (sm.totalSize % 2 ^ 32).toNat

/-- What `create()` stores into each field of the header. A `c_uint32` field
keeps the lowest 32 bits of a Python integer. -/
def headerValue : Field → BitVec 32
  | .magic => MAGIC_NUMBER
  | .version => 1
  | .blockSize => BitVec.ofInt 32 sm.blockSize
  | .numChannels => BitVec.ofInt 32 sm.numChannels
  | .inputOffset => BitVec.ofInt 32 inputOffset
  | .outputOffset => BitVec.ofInt 32 sm.outputOffset
  | .isInputReady | .isOutputReady | .isPythonReady => 0

def samples : ℕ := (sm.blockSize * sm.numChannels).toNat

/-- `get_numpy_input` and `get_numpy_output` build their arrays: neither a
negative length nor a negative dimension is accepted. -/
def hasViews : Bool := decide (0 ≤ sm.blockSize) && decide (0 ≤ sm.numChannels)

theorem outputOffset_toNat (hB : 0 ≤ sm.blockSize) (hC : 0 ≤ sm.numChannels) :
    sm.outputOffset.toNat = headerSize + 4 * (sm.numChannels.toNat * sm.blockSize.toNat) := by
  have hoffset : sm.outputOffset =
      ((headerSize + 4 * (sm.numChannels.toNat * sm.blockSize.toNat) : ℕ) : ℤ) := by
    rw [outputOffset, inputSize]
    push_cast
    rw [Int.toNat_of_nonneg hB, Int.toNat_of_nonneg hC, Int.mul_comm sm.blockSize, Int.mul_comm 4]
  rw [hoffset, Int.toNat_natCast]

/-! The rows of the arrays `get_numpy_input` and `get_numpy_output` return: the
view has `num_channels` rows of `block_size` samples, one after the other. -/

def inputRowAddr (ch : ℕ) : ℕ := inputOffset.toNat + 4 * (ch * sm.blockSize.toNat)

def outputRowAddr (ch : ℕ) : ℕ := sm.outputOffset.toNat + 4 * (ch * sm.blockSize.toNat)

def inputRow (ch : ℕ) (m : Memory) : List (BitVec 32) :=
  loadWords m (sm.inputRowAddr ch) sm.blockSize.toNat

def outputRow (ch : ℕ) (m : Memory) : List (BitVec 32) :=
  loadWords m (sm.outputRowAddr ch) sm.blockSize.toNat

/-- Assign samples to the beginning of an output row, as far as they fit. -/
def writeRow (ch : ℕ) (row : List (BitVec 32)) (m : Memory) : Memory :=
  storeWords m (sm.outputRowAddr ch) (row.take sm.blockSize.toNat)

section Rows

variable {sm} {ch i : ℕ} {row : List (BitVec 32)} {m : Memory}

theorem headerSize_le_outputRowAddr (hB : 0 ≤ sm.blockSize) (hC : 0 ≤ sm.numChannels) :
    headerSize ≤ sm.outputRowAddr ch := by
  unfold outputRowAddr
  rw [sm.outputOffset_toNat hB hC, Nat.add_assoc]
  exact Nat.le_add_right _ _

theorem writeRow_of_lt_header (hC : 0 ≤ sm.numChannels) (hi : i < headerSize) :
    sm.writeRow ch row m i = m i := by
  rcases lt_or_ge sm.blockSize 0 with hB | hB
  · rw [writeRow, Int.toNat_of_nonpos hB.le]
    rfl
  · apply storeWords_of_not_mem
    left
    exact Nat.lt_of_lt_of_le hi (headerSize_le_outputRowAddr hB hC)

end Rows

end SharedMemoryManager

/-- The attributes the methods assign. `pHeader` is whether `_p_header` points
to a header; where it points is the section under `shm_name`. -/
structure Attributes where
  hMap : Option ℕ
  pHeader : Bool
  hReadyEvent : Option ℕ

def Attributes.init : Attributes := ⟨none, false, none⟩

namespace SharedMemoryManager

variable {P : Type} [DecidableEq P]

/-- The header stores of `create()` into the fields listed. -/
def storeFields (sm : SharedMemoryManager) (fs : List Field) (k : Kernel P) : Kernel P :=
  fs.foldl (fun k f => k.storeField sm.shmName f (sm.headerValue f)) k

/-- `create()` stores the fields in the order in which they are declared. -/
def initHeader (sm : SharedMemoryManager) (k : Kernel P) : Kernel P :=
  storeFields sm Field.all k

/-- `create()`: what it returns, the attributes and the kernel after it. -/
def create (sm : SharedMemoryManager) (p : P) (mapped viewed : Bool) (at_ : Attributes)
    (k : Kernel P) : Option Bool × Attributes × Kernel P :=
  if sm.convertible = false then (none, at_, k)
  else if mapped = false then (some false, { at_ with hMap := none }, k)
  else
    let id := k.nextHandle
    let k := k.createFileMapping p sm.request sm.shmName
    if viewed && k.fits sm.shmName sm.request then
      (some true, { at_ with hMap := some id, pHeader := true },
        sm.initHeader (k.mapViewOfFile p sm.shmName))
    else (some false, { at_ with hMap := some id }, k.closeHandle p id)

/-- `signal_ready()`. Without a header its last store raises. -/
def signalReady (sm : SharedMemoryManager) (p : P) (created set : Bool) (at_ : Attributes)
    (k : Kernel P) : Option Bool × Attributes × Kernel P :=
  if created = false then (some false, { at_ with hReadyEvent := none }, k)
  else
    let id := k.nextHandle
    let k := k.createEvent p sm.readyEventName
    let at_ := { at_ with hReadyEvent := some id }
    if set = false then (some false, at_, k)
    else
      let k := k.setEvent sm.readyEventName
      if at_.pHeader then
        (some true, at_, k.storeField sm.shmName .isPythonReady 1)
      else (none, at_, k)

/-- `if handle: CloseHandle(handle)` -/
def closeIfSet (p : P) (handle : Option ℕ) (k : Kernel P) : Kernel P :=
  match handle with
  | none => k
  | some id => k.closeHandle p id

/-- `cleanup()`: the handles are closed, the view stays. -/
def cleanup (p : P) (at_ : Attributes) (k : Kernel P) : Kernel P :=
  closeIfSet p at_.hMap (closeIfSet p at_.hReadyEvent k)

section Create

variable {sm : SharedMemoryManager} {p : P} {mapped viewed : Bool} {at_ : Attributes}
  {k : Kernel P}

variable (sm p mapped viewed at_ k) in
/-- Where `create()` ends: at the conversion of `total_size`, at either call, or
behind them. -/
theorem create_cases :
    let k' := k.createFileMapping p sm.request sm.shmName
    let hasView := viewed && k'.fits sm.shmName sm.request
    (sm.convertible = false ∧ sm.create p mapped viewed at_ k = (none, at_, k)) ∨
      (sm.convertible = true ∧ mapped = false ∧
        sm.create p mapped viewed at_ k = (some false, { at_ with hMap := none }, k)) ∨
      (sm.convertible = true ∧ mapped = true ∧ hasView = false ∧
        sm.create p mapped viewed at_ k =
          (some false, { at_ with hMap := some k.nextHandle }, k'.closeHandle p k.nextHandle)) ∨
      (sm.convertible = true ∧ mapped = true ∧ hasView = true ∧
        sm.create p mapped viewed at_ k =
          (some true, { at_ with hMap := some k.nextHandle, pHeader := true },
            sm.initHeader (k'.mapViewOfFile p sm.shmName))) := by
  intro k' hasView
  unfold create
  cases hconv : sm.convertible with
  | false => exact .inl ⟨rfl, rfl⟩
  | true =>
      cases mapped with
      | false => exact .inr (.inl ⟨rfl, rfl, rfl⟩)
      | true =>
          cases hview : hasView with
          | false =>
              refine .inr (.inr (.inl ⟨rfl, rfl, rfl, ?_⟩))
              show (if hasView = true then _ else _) = _
              rw [if_neg (by rw [hview]; decide)]
          | true =>
              refine .inr (.inr (.inr ⟨rfl, rfl, rfl, ?_⟩))
              show (if hasView = true then _ else _) = _
              rw [if_pos hview]

/-- `create()` returns `True` exactly if no call it makes goes wrong. -/
theorem create_eq_true_iff :
    (sm.create p mapped viewed at_ k).1 = some true ↔
      sm.convertible = true ∧ mapped = true ∧ viewed = true ∧
        (k.createFileMapping p sm.request sm.shmName).fits sm.shmName sm.request = true := by
  rcases create_cases sm p mapped viewed at_ k with
    ⟨hconv, h⟩ | ⟨-, hmapped, h⟩ | ⟨-, -, hview, h⟩ | ⟨hconv, hmapped, hview, h⟩
  · rw [h]
    exact iff_of_false nofun fun hall => nomatch hconv.symm.trans hall.1
  · rw [h]
    exact iff_of_false nofun fun hall => nomatch hmapped.symm.trans hall.2.1
  · rw [h]
    refine iff_of_false nofun fun hall => ?_
    rw [hall.2.2.1, hall.2.2.2] at hview
    cases hview
  · rw [h]
    exact iff_of_true rfl ⟨hconv, hmapped, Bool.and_eq_true_iff.mp hview⟩

theorem create_of_true (h : (sm.create p mapped viewed at_ k).1 = some true) :
    sm.create p mapped viewed at_ k =
      (some true, { at_ with hMap := some k.nextHandle, pHeader := true },
        sm.initHeader ((k.createFileMapping p sm.request sm.shmName).mapViewOfFile p
          sm.shmName)) := by
  rcases create_cases sm p mapped viewed at_ k with
    ⟨-, heq⟩ | ⟨-, -, heq⟩ | ⟨-, -, -, heq⟩ | ⟨-, -, -, heq⟩
  · rw [heq] at h
    cases h
  · rw [heq] at h
    cases h
  · rw [heq] at h
    cases h
  · exact heq

end Create

omit [DecidableEq P]

variable {sm : SharedMemoryManager} {k : Kernel P} {fs : List Field} {n : String}

theorem holders_storeFields :
    (storeFields sm fs k).mappings.holders n = k.mappings.holders n := by
  induction fs generalizing k with
  | nil => rfl
  | cons f fs ih => exact ih.trans Kernel.holders_write

theorem handleOpen_storeFields {p : P} {id : ℕ} :
    (storeFields sm fs k).HandleOpen p id ↔ k.HandleOpen p id := by
  induction fs generalizing k with
  | nil => exact Iff.rfl
  | cons f fs ih => exact ih.trans Kernel.handleOpen_write

theorem contents_storeFields (hn : n ≠ sm.shmName) :
    (storeFields sm fs k).contents n = k.contents n := by
  induction fs generalizing k with
  | nil => rfl
  | cons f fs ih => exact ih.trans (Kernel.contents_write_of_ne hn)

theorem header_storeFields {m : Memory} (hm : k.contents sm.shmName = some m) (g : Field) :
    (storeFields sm fs k).header sm.shmName g =
      if g ∈ fs then some (g.meaning (sm.headerValue g).toNat) else k.header sm.shmName g := by
  induction fs generalizing k m with
  | nil => rfl
  | cons f fs ih =>
      have hm' : (k.storeField sm.shmName f (sm.headerValue f)).contents sm.shmName =
          some (Side.python.write m f (sm.headerValue f)) := by
        rw [Kernel.storeField, Kernel.contents_write_self, hm, Option.map_some]
      show (storeFields sm fs (k.storeField sm.shmName f (sm.headerValue f))).header _ g = _
      rw [ih hm']
      by_cases hmem : g ∈ fs
      · rw [if_pos hmem, if_pos (List.mem_cons_of_mem f hmem)]
      · rw [if_neg hmem]
        by_cases hg : g = f
        · subst hg
          rw [if_pos List.mem_cons_self, Kernel.header_storeField_self hm]
        · rw [Kernel.header_storeField_of_ne hg, if_neg]
          exact fun h => (List.mem_cons.mp h).elim hg hmem

theorem header_create [DecidableEq P] {p : P} {mapped viewed : Bool} {at_ : Attributes}
    (h : (sm.create p mapped viewed at_ k).1 = some true) (f : Field) :
    (sm.create p mapped viewed at_ k).2.2.header sm.shmName f =
      some (f.meaning (sm.headerValue f).toNat) := by
  have hcreated : ∃ m, (k.createFileMapping p sm.request sm.shmName).contents sm.shmName =
      some m := Kernel.contents_createFileMapping_self
  obtain ⟨m, hm⟩ := hcreated
  have hheld : .handle p k.nextHandle ∈
      (k.createFileMapping p sm.request sm.shmName).mappings.holders sm.shmName := by
    rw [Kernel.holders_createFileMapping, if_pos rfl]
    exact Finset.mem_insert_self _ _
  rw [create_of_true h]
  show (sm.initHeader _).header sm.shmName f = _
  rw [initHeader, header_storeFields ((Kernel.contents_mapViewOfFile hheld).trans hm),
    if_pos (Field.mem_all f)]

/-! The bytes themselves, as the worker finds them when it enters its loop. -/

/-- The bytes after `create()` has stored into the fields listed. -/
def headerStores (sm : SharedMemoryManager) (fs : List Field) (m : Memory) : Memory :=
  fs.foldl (fun m f => Side.python.write m f (sm.headerValue f)) m

/-- The bytes of the section after `create()` and `signal_ready()`, from those
before. -/
def started (sm : SharedMemoryManager) (m : Memory) : Memory :=
  Side.python.write (sm.headerStores Field.all m) .isPythonReady 1

theorem contents_storeFields_self :
    (storeFields sm fs k).contents sm.shmName =
      (k.contents sm.shmName).map (sm.headerStores fs) := by
  induction fs generalizing k with
  | nil =>
      show k.contents sm.shmName = (k.contents sm.shmName).map id
      rw [Option.map_id]
      rfl
  | cons f fs ih =>
      show (storeFields sm fs (k.storeField sm.shmName f (sm.headerValue f))).contents _ = _
      rw [ih, Kernel.storeField, Kernel.contents_write_self, Option.map_map]
      rfl

theorem read_headerStores {m : Memory} (g : Field) :
    Side.python.read (sm.headerStores fs m) g =
      if g ∈ fs then g.meaning (sm.headerValue g).toNat else Side.python.read m g := by
  induction fs generalizing m with
  | nil => rfl
  | cons f fs ih =>
      show Side.python.read (sm.headerStores fs (Side.python.write m f (sm.headerValue f))) g = _
      rw [ih]
      by_cases hmem : g ∈ fs
      · rw [if_pos hmem, if_pos (List.mem_cons_of_mem f hmem)]
      · rw [if_neg hmem]
        by_cases hg : g = f
        · subst hg
          rw [if_pos List.mem_cons_self, Side.read_write_self]
        · rw [if_neg (fun h => (List.mem_cons.mp h).elim hg hmem), Side.read_write_of_ne hg]

theorem read_started {m : Memory} {g : Field} (hg : g ≠ .isPythonReady) :
    Side.python.read (sm.started m) g = g.meaning (sm.headerValue g).toNat := by
  rw [started, Side.read_write_of_ne hg, read_headerStores, if_pos (Field.mem_all g)]

/-- A worker whose `create()` and `signal_ready()` return `True` finds these bytes,
over what was there or over zeros. -/
theorem contents_started [DecidableEq P] {p : P} {mapped viewed created set : Bool}
    {at_ : Attributes} (hcreate : (sm.create p mapped viewed at_ k).1 = some true)
    (hready : (sm.signalReady p created set (sm.create p mapped viewed at_ k).2.1
      (sm.create p mapped viewed at_ k).2.2).1 = some true) :
    (sm.signalReady p created set (sm.create p mapped viewed at_ k).2.1
        (sm.create p mapped viewed at_ k).2.2).2.2.contents sm.shmName =
      some (sm.started ((k.contents sm.shmName).getD fun _ => 0)) := by
  have hheld : .handle p k.nextHandle ∈
      (k.createFileMapping p sm.request sm.shmName).mappings.holders sm.shmName := by
    rw [Kernel.holders_createFileMapping, if_pos rfl]
    exact Finset.mem_insert_self _ _
  have hcreated : (sm.create p mapped viewed at_ k).2.2.contents sm.shmName =
      some (sm.headerStores Field.all ((k.contents sm.shmName).getD fun _ => 0)) := by
    rw [create_of_true hcreate]
    show (sm.initHeader _).contents _ = _
    rw [initHeader, contents_storeFields_self, Kernel.contents_mapViewOfFile hheld,
      Kernel.contents_createFileMapping_eq, Option.map_some]
  unfold signalReady at hready ⊢
  cases created with
  | false => cases hready
  | true =>
      cases set with
      | false => cases hready
      | true =>
          have hheader : (sm.create p mapped viewed at_ k).2.1.pHeader = true := by
            rw [create_of_true hcreate]
          simp only [Bool.true_eq_false, if_false, hheader, if_true]
          rw [Kernel.storeField, Kernel.contents_write_self]
          show ((sm.create p mapped viewed at_ k).2.2.contents sm.shmName).map _ = _
          rw [hcreated]
          rfl

end SharedMemoryManager

end MabTilde

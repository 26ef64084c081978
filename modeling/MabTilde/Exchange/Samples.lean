import Mathlib.Data.Fintype.Prod
import MabTilde.Exchange.OutputSlot
import MabTilde.Layout
import MabTilde.OutputRow

/-!
The exchange sample by sample, in the bytes of the section.

`Exchange.Worker` takes a whole row, and the rows of a block, for one access.
In the shared memory a row is `block_size` samples of four bytes, and the
views are zero-copy: the worker, and any code that copies a buffer, touches one
sample after another while the other side may touch any other. Here a step
loads or stores one sample or one flag of the header, and nothing else is
atomic.

Below are the two levels' common ground: the samples as an array over the
bytes, and the flags beside it. A store of a sample changes that sample and no
flag, a store of a flag changes no sample.
-/

namespace MabTilde.Samples

open Bytes

variable (sm : SharedMemoryManager)

abbrev Row : Type := Fin sm.blockSize.toNat → Sample

abbrev Block : Type := Exchange.Block sm.numChannels.toNat (Row sm)

def loadSample (t : Place) (m : Memory) : Sample :=
  BitVec.ofNat 32 (load m (sm.sampleAddr t) 4)

def storeSample (t : Place) (v : Sample) (m : Memory) : Memory :=
  store m (sm.sampleAddr t) 4 v.toNat

def block (b : AudioBuffer) (m : Memory) : Block sm :=
  fun ch i => loadSample sm ⟨b, ch, i⟩ m

def flag (f : Field) (m : Memory) : Bool := decide (Side.python.read m f ≠ 0)

section Memory

variable {sm} {t t' : Place} {b b' : AudioBuffer} {ch : Fin sm.numChannels.toNat}
  {i : Fin sm.blockSize.toNat} {m : Memory} {s : Side} {f g : Field} {v : BitVec 32}

theorem partitioned_of_inViews (ht : sm.InViews t) : sm.Partitioned := by
  obtain ⟨hC, hB⟩ := ht
  apply SharedMemoryManager.partitioned
  · omega
  · omega

theorem headerSize_le_sampleAddr (ht : sm.InViews t) :
    SharedMemoryManager.headerSize ≤ sm.sampleAddr t :=
  ((partitioned_of_inViews ht).tiles.inside t ht).1

theorem sampleAddr_disjoint (ht : sm.InViews t) (ht' : sm.InViews t') (hne : t' ≠ t) :
    sm.sampleAddr t' + 4 ≤ sm.sampleAddr t ∨ sm.sampleAddr t + 4 ≤ sm.sampleAddr t' := by
  by_contra hshare
  have hsame := (partitioned_of_inViews ht).tiles.disjoint t' t ht' ht
    (max (sm.sampleAddr t') (sm.sampleAddr t)) (le_max_left _ _) (by omega) (le_max_right _ _)
    (by omega)
  exact hne hsame

theorem output_ne_input : AudioBuffer.output ≠ .input := nofun

theorem inViews (b : AudioBuffer) (ch : Fin sm.numChannels.toNat)
    (i : Fin sm.blockSize.toNat) : sm.InViews ⟨b, ch, i⟩ := ⟨ch.isLt, i.isLt⟩

theorem loadSample_storeSample_self : loadSample sm t (storeSample sm t v m) = v :=
  ofNat_load_store _ _ _

theorem loadSample_storeSample_of_ne (ht : sm.InViews t) (ht' : sm.InViews t') (hne : t' ≠ t) :
    loadSample sm t' (storeSample sm t v m) = loadSample sm t' m := by
  unfold loadSample storeSample
  rw [load_store_disjoint (sampleAddr_disjoint ht ht' hne)]

/-- The buffers are arrays: a store updates one sample of one of them. -/
theorem block_storeSample_self :
    block sm b (storeSample sm ⟨b, ch, i⟩ v m) =
      Function.update (block sm b m) ch (Function.update (block sm b m ch) i v) := by
  funext c j
  by_cases hc : c = ch
  · subst hc
    rw [Function.update_self]
    by_cases hj : j = i
    · subst hj
      rw [Function.update_self]
      exact loadSample_storeSample_self
    · rw [Function.update_of_ne hj]
      apply loadSample_storeSample_of_ne (inViews b c i) (inViews b c j)
      intro h
      exact hj (Fin.ext (congrArg Place.index h))
  · rw [Function.update_of_ne hc]
    apply loadSample_storeSample_of_ne (inViews b ch i) (inViews b c j)
    intro h
    exact hc (Fin.ext (congrArg Place.channel h))

theorem block_storeSample_of_ne (hne : b' ≠ b) :
    block sm b' (storeSample sm ⟨b, ch, i⟩ v m) = block sm b' m := by
  funext c j
  apply loadSample_storeSample_of_ne (inViews b ch i) (inViews b' c j)
  intro h
  exact hne (congrArg Place.buffer h)

theorem sizeof_le_headerSize (s : Side) :
    s.layout.sizeof ≤ SharedMemoryManager.headerSize := by
  cases s <;> decide

theorem storeSample_of_lt_header {k : ℕ} (ht : sm.InViews t)
    (hk : k < SharedMemoryManager.headerSize) : storeSample sm t v m k = m k := by
  apply store_of_not_mem
  left
  exact Nat.lt_of_lt_of_le hk (headerSize_le_sampleAddr ht)

theorem read_storeSample (ht : sm.InViews t) :
    s.read (storeSample sm t v m) f = s.read m f := by
  apply Side.read_congr
  intro k hk
  exact storeSample_of_lt_header ht (Nat.lt_of_lt_of_le hk (sizeof_le_headerSize s))

theorem flag_storeSample (ht : sm.InViews t) : flag f (storeSample sm t v m) = flag f m := by
  unfold flag
  rw [read_storeSample ht]

theorem block_write : block sm b (s.write m f v) = block sm b m := by
  funext c j
  show loadSample sm _ _ = loadSample sm _ _
  unfold loadSample
  congr 1
  apply load_congr
  intro k hk _
  apply Side.write_of_le
  have hheader := headerSize_le_sampleAddr (inViews b c j)
  have hsize := sizeof_le_headerSize s
  omega

theorem flag_write_self : flag f (Side.python.write m f v) = decide (f.meaning v.toNat ≠ 0) := by
  unfold flag
  rw [Side.read_write_self]

theorem flag_write_of_ne (hne : g ≠ f) : flag g (Side.python.write m f v) = flag g m := by
  unfold flag
  rw [Side.read_write_of_ne hne]

end Memory

/-! ### The two parties -/

/-- Where the worker stands in the serving part of the loop. -/
inductive WorkerPc (C B : ℕ)
  | poll
  /-- The model is given the samples of the row, those before `i` being read. -/
  | readSample (ch : Fin C) (i : ℕ) (inputBlock : Fin B → Sample)
  | infer (ch : Fin C) (inputBlock : Fin B → Sample)
  /-- The two slices of `output_buffer[ch, ..] = output_block`, before the copy. -/
  | assign (ch : Fin C) (outputBlock : Tensor)
  /-- The copy, `i` samples being stored. -/
  | storeSample (ch : Fin C) (outputBlock : Tensor) (new : List Sample) (i : ℕ)
  | setOutputReady
  | clearInputReady
  | raised

structure Worker (C B : ℕ) where
  pc : WorkerPc C B
  /-- The rows read so far in this iteration. -/
  rows : List (Fin B → Sample)
  /-- The blocks whose last channel has been inferred, as they were read. -/
  inferred : List (List (Fin B → Sample))

def Worker.init {C B : ℕ} : Worker C B := ⟨.poll, [], []⟩

/-- `for ch in range(num_channels)`, about to test `n`. The row read is of no
matter until its samples are. -/
def loopFrom (C B n : ℕ) : WorkerPc C B :=
  if h : n < C then .readSample ⟨n, h⟩ 0 (fun _ => 0) else .setOutputReady

/-- One step of the worker. -/
def workerStep (model : Model) (w : Worker sm.numChannels.toNat sm.blockSize.toNat)
    (m : Memory) : Option (Worker sm.numChannels.toNat sm.blockSize.toNat × Memory) :=
  match w.pc with
  | .poll =>
      if flag .isInputReady m then
        some (⟨loopFrom _ _ 0, [], Exchange.noteInferred sm.numChannels.toNat 0 [] w.inferred⟩, m)
      else some (w, m)
  | .readSample ch i x =>
      if h : i < sm.blockSize.toNat then
        some ({ w with pc := .readSample ch (i + 1)
                          (Function.update x ⟨i, h⟩ (loadSample sm ⟨.input, ch, i⟩ m)) }, m)
      else some ({ w with pc := .infer ch x, rows := w.rows ++ [x] }, m)
  | .infer ch x =>
      match inferBlock model (NdArray.ofRow (List.ofFn x)) with
      | none => some ({ w with pc := .raised }, m)
      | some y =>
          some ({ w with pc := .assign ch y
                         inferred := Exchange.noteInferred sm.numChannels.toNat (ch + 1)
                          w.rows w.inferred }, m)
  | .assign ch y =>
      match assigned sm.blockSize.toNat y with
      | none => some ({ w with pc := .raised }, m)
      | some new => some ({ w with pc := .storeSample ch y new 0 }, m)
  | .storeSample ch y new i =>
      match new[i]? with
      | some v =>
          some ({ w with pc := .storeSample ch y new (i + 1) },
            storeSample sm ⟨.output, ch, i⟩ v m)
      | none => some ({ w with pc := loopFrom _ _ (ch + 1) }, m)
  | .setOutputReady =>
      some ({ w with pc := .clearInputReady }, Side.python.write m .isOutputReady 1)
  | .clearInputReady => some ({ w with pc := .poll }, Side.python.write m .isInputReady 0)
  | .raised => none

/-- What a step of the worker is: where it stands, what it finds, where it goes. -/
inductive WorkerSteps (model : Model) (m : Memory) :
    Worker sm.numChannels.toNat sm.blockSize.toNat →
      Worker sm.numChannels.toNat sm.blockSize.toNat → Memory → Prop
  | wait {rows inferred} (hflag : flag .isInputReady m = false) :
      WorkerSteps model m ⟨.poll, rows, inferred⟩ ⟨.poll, rows, inferred⟩ m
  | begin {rows inferred} (hflag : flag .isInputReady m = true) :
      WorkerSteps model m ⟨.poll, rows, inferred⟩
        ⟨loopFrom _ _ 0, [], Exchange.noteInferred sm.numChannels.toNat 0 [] inferred⟩ m
  | readSample {ch i x rows inferred} (hlt : i < sm.blockSize.toNat) :
      WorkerSteps model m ⟨.readSample ch i x, rows, inferred⟩
        ⟨.readSample ch (i + 1) (Function.update x ⟨i, hlt⟩ (loadSample sm ⟨.input, ch, i⟩ m)),
          rows, inferred⟩ m
  | rowRead {ch i x rows inferred} (hge : ¬ i < sm.blockSize.toNat) :
      WorkerSteps model m ⟨.readSample ch i x, rows, inferred⟩
        ⟨.infer ch x, rows ++ [x], inferred⟩ m
  | inferRaises {ch x rows inferred}
      (hy : inferBlock model (NdArray.ofRow (List.ofFn x)) = none) :
      WorkerSteps model m ⟨.infer ch x, rows, inferred⟩ ⟨.raised, rows, inferred⟩ m
  | infers {ch x y rows inferred}
      (hy : inferBlock model (NdArray.ofRow (List.ofFn x)) = some y) :
      WorkerSteps model m ⟨.infer ch x, rows, inferred⟩
        ⟨.assign ch y, rows, Exchange.noteInferred sm.numChannels.toNat (ch + 1) rows inferred⟩ m
  | assignRaises {ch y rows inferred} (hnew : assigned sm.blockSize.toNat y = none) :
      WorkerSteps model m ⟨.assign ch y, rows, inferred⟩ ⟨.raised, rows, inferred⟩ m
  | assigns {ch y new rows inferred} (hnew : assigned sm.blockSize.toNat y = some new) :
      WorkerSteps model m ⟨.assign ch y, rows, inferred⟩
        ⟨.storeSample ch y new 0, rows, inferred⟩ m
  | storeSample {ch y new i v rows inferred} (hv : new[i]? = some v) :
      WorkerSteps model m ⟨.storeSample ch y new i, rows, inferred⟩
        ⟨.storeSample ch y new (i + 1), rows, inferred⟩
        (Samples.storeSample sm ⟨.output, ch, i⟩ v m)
  | rowStored {ch y new i rows inferred} (hv : new[i]? = none) :
      WorkerSteps model m ⟨.storeSample ch y new i, rows, inferred⟩
        ⟨loopFrom _ _ (ch + 1), rows, inferred⟩ m
  | setOutputReady {rows inferred} :
      WorkerSteps model m ⟨.setOutputReady, rows, inferred⟩ ⟨.clearInputReady, rows, inferred⟩
        (Side.python.write m .isOutputReady 1)
  | clearInputReady {rows inferred} :
      WorkerSteps model m ⟨.clearInputReady, rows, inferred⟩ ⟨.poll, rows, inferred⟩
        (Side.python.write m .isInputReady 0)

variable {sm} in
theorem workerStep_cases {model : Model} {m m' : Memory}
    {w w' : Worker sm.numChannels.toNat sm.blockSize.toNat}
    (hs : workerStep sm model w m = some (w', m')) : WorkerSteps sm model m w w' m' := by
  obtain ⟨pc, rows, inferred⟩ := w
  cases pc with
  | poll =>
      simp only [workerStep] at hs
      split at hs
      · rename_i hflag
        cases hs
        exact .begin hflag
      · rename_i hflag
        cases hs
        exact .wait (by simpa using hflag)
  | readSample ch i x =>
      simp only [workerStep] at hs
      split at hs
      · rename_i hlt
        cases hs
        exact .readSample hlt
      · rename_i hge
        cases hs
        exact .rowRead hge
  | infer ch x =>
      simp only [workerStep] at hs
      split at hs
      · rename_i hy
        cases hs
        exact .inferRaises hy
      · rename_i y hy
        cases hs
        exact .infers hy
  | assign ch y =>
      simp only [workerStep] at hs
      split at hs
      · rename_i hnew
        cases hs
        exact .assignRaises hnew
      · rename_i new hnew
        cases hs
        exact .assigns hnew
  | storeSample ch y new i =>
      simp only [workerStep] at hs
      split at hs
      · rename_i v hv
        cases hs
        exact .storeSample hv
      · rename_i hv
        cases hs
        exact .rowStored hv
  | setOutputReady =>
      cases hs
      exact .setOutputReady
  | clearInputReady =>
      cases hs
      exact .clearInputReady
  | raised => cases hs

/-! The C++ side, which declares the flags as `side` does. The two halves of its
callback run at unrelated speeds. -/

inductive FillPc
  | idle
  | writing (b : Block sm) (written : Finset (Fin sm.numChannels.toNat × Fin sm.blockSize.toNat))

structure FillSide where
  pc : FillPc sm
  published : List (Block sm)

inductive FillAct
  /-- Load `is_input_ready`, and go on to write `b` if it is False. -/
  | load (b : Block sm)
  | writeSample (ch : Fin sm.numChannels.toNat) (i : Fin sm.blockSize.toNat)
  /-- Store `is_input_ready = True`. -/
  | publish

inductive CopyPc
  | idle
  | copying (got : Finset (Fin sm.numChannels.toNat × Fin sm.blockSize.toNat))

structure CopySide where
  pc : CopyPc sm
  outs : Block sm
  copied : List (Block sm)

inductive CopyAct
  /-- Load `is_output_ready`, and go on to copy if it is True. -/
  | load
  | copySample (ch : Fin sm.numChannels.toNat) (i : Fin sm.blockSize.toNat)
  /-- Store `is_output_ready = False`. -/
  | clear

structure Callback where
  fill : FillSide sm
  copy : CopySide sm

inductive CallbackAct
  | fill (a : FillAct sm)
  | copy (a : CopyAct sm)
  /-- A store to `is_output_ready` out of turn. -/
  | storeOutputReady (v : Bool)

def Callback.init (outs : Block sm) : Callback sm := ⟨⟨.idle, []⟩, ⟨.idle, outs, []⟩⟩

section

variable {sm} (side : Side)

def fillStep (p : FillSide sm) (a : FillAct sm) (m : Memory) : Option (FillSide sm × Memory) :=
  match p.pc, a with
  | .idle, .load b =>
      if side.read m .isInputReady = 0 then some ({ p with pc := .writing b ∅ }, m)
      else some (p, m)
  | .writing b written, .writeSample ch i =>
      some ({ p with pc := .writing b (insert (ch, i) written) },
        storeSample sm ⟨.input, ch, i⟩ (b ch i) m)
  | .writing b written, .publish =>
      if written = Finset.univ then
        some (⟨.idle, p.published ++ [b]⟩, side.write m .isInputReady 1)
      else none
  | _, _ => none

def copyStep (p : CopySide sm) (a : CopyAct sm) (m : Memory) : Option (CopySide sm × Memory) :=
  match p.pc, a with
  | .idle, .load =>
      if side.read m .isOutputReady = 0 then some (p, m)
      else some ({ p with pc := .copying ∅ }, m)
  | .copying got, .copySample ch i =>
      some ({ p with pc := .copying (insert (ch, i) got)
                     outs := Function.update p.outs ch
                      (Function.update (p.outs ch) i (loadSample sm ⟨.output, ch, i⟩ m)) }, m)
  | .copying got, .clear =>
      if got = Finset.univ then
        some ({ p with pc := .idle, copied := p.copied ++ [p.outs] },
          side.write m .isOutputReady 0)
      else none
  | _, _ => none

def callbackStep (p : Callback sm) (a : CallbackAct sm) (m : Memory) :
    Option (Callback sm × Memory) :=
  match a with
  | .fill a => (fillStep side p.fill a m).map fun r => ({ p with fill := r.1 }, r.2)
  | .copy a => (copyStep side p.copy a m).map fun r => ({ p with copy := r.1 }, r.2)
  | .storeOutputReady v => some (p, side.write m .isOutputReady (if v then 1 else 0))

end

structure State where
  memory : Memory
  worker : Worker sm.numChannels.toNat sm.blockSize.toNat
  cpp : Callback sm

variable {sm} in
/-- One step of the exchange. -/
def step (model : Model) (side : Side) (s : State sm) :
    Exchange.Turn (CallbackAct sm) → Option (State sm)
  | .worker =>
      (workerStep sm model s.worker s.memory).map fun r => { s with worker := r.1, memory := r.2 }
  | .cpp a =>
      (callbackStep side s.cpp a s.memory).map fun r => { s with cpp := r.1, memory := r.2 }

variable {sm} in
def State.init (m : Memory) (outs : Block sm) : State sm := ⟨m, Worker.init, Callback.init sm outs⟩

end MabTilde.Samples

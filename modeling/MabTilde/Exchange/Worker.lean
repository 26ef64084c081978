import Mathlib.Data.Fintype.Basic
import Mathlib.Data.List.OfFn
import Mathlib.Logic.Function.Basic
import MabTilde.Lib.Runs

/-!
The audio exchange as a step relation: the serving part of `main()`'s
`while running` loop, next to a C++ side that is a parameter.

Every load or store of a header flag or of a buffer row is one step, and a
turn says which party moves. What the model calls do is a parameter too: a
`Backend` is `infer_block` on one row and the write-back of its result, each
of which may raise. The parts of the loop that touch neither flags nor rows
(the drain of the control ring, `time.sleep`) are not steps here.

The fields `rows` and `inferred` of the worker, and the lists kept by the C++
sides of the other modules, are history: no step reads them.
-/

namespace MabTilde.Exchange

abbrev Block (C : ℕ) (Row : Type) : Type := Fin C → Row

/-- What the loop calls for one channel. `none` is a raised exception. -/
structure Backend (Row Out : Type) where
  /-- `infer_block(model, device, input_block)`. -/
  inferBlock : Row → Option Out
  /-- The row after `output_buffer[ch, ..] = output_block`, from the row before. -/
  writeBack : Row → Out → Option Row

/-- The shared memory both parties map: the two buffers and the two flags. -/
structure Shared (C : ℕ) (Row : Type) where
  input : Block C Row
  output : Block C Row
  isInputReady : Bool
  isOutputReady : Bool

/-- Where the worker stands in the serving part of the loop. -/
inductive WorkerPc (C : ℕ) (Row Out : Type)
  | poll
  | readRow (ch : Fin C)
  | infer (ch : Fin C) (inputBlock : Row)
  | writeRow (ch : Fin C) (outputBlock : Out)
  | setOutputReady
  | clearInputReady
  | raised
  deriving DecidableEq

structure Worker (C : ℕ) (Row Out : Type) where
  pc : WorkerPc C Row Out
  /-- The rows read so far in this iteration. -/
  rows : List Row
  /-- The blocks whose last channel has been inferred, as they were read. -/
  inferred : List (List Row)

variable {C : ℕ} {Row Out L A : Type}

/-- `for ch in range(num_channels)`, about to test `i`. -/
def loopFrom (C : ℕ) (Row Out : Type) (i : ℕ) : WorkerPc C Row Out :=
  if h : i < C then .readRow ⟨i, h⟩ else .setOutputReady

/-- The history after the inference of `i` channels has succeeded. -/
def noteInferred (C : ℕ) (i : ℕ) (rows : List Row) (inferred : List (List Row)) :
    List (List Row) :=
  if i = C then inferred ++ [rows] else inferred

/-- One step of the worker. It is stuck only once an exception has ended it. -/
def workerStep (k : Backend Row Out) (w : Worker C Row Out) (m : Shared C Row) :
    Option (Worker C Row Out × Shared C Row) :=
  match w.pc with
  | .poll =>
      if m.isInputReady then
        some (⟨loopFrom C Row Out 0, [], noteInferred C 0 [] w.inferred⟩, m)
      else some (w, m)
  | .readRow ch =>
      some ({ w with pc := .infer ch (m.input ch), rows := w.rows ++ [m.input ch] }, m)
  | .infer ch x =>
      match k.inferBlock x with
      | none => some ({ w with pc := .raised }, m)
      | some y =>
          some ({ w with pc := .writeRow ch y,
                         inferred := noteInferred C (ch + 1) w.rows w.inferred }, m)
  | .writeRow ch y =>
      match k.writeBack (m.output ch) y with
      | none => some ({ w with pc := .raised }, m)
      | some r =>
          some ({ w with pc := loopFrom C Row Out (ch + 1) },
            { m with output := Function.update m.output ch r })
  | .setOutputReady =>
      some ({ w with pc := .clearInputReady }, { m with isOutputReady := true })
  | .clearInputReady => some ({ w with pc := .poll }, { m with isInputReady := false })
  | .raised => none

structure State (C : ℕ) (Row Out L : Type) where
  shared : Shared C Row
  worker : Worker C Row Out
  cpp : L

/-- Whose step is next, and for the C++ side which one. -/
inductive Turn (A : Type)
  | worker
  | cpp (a : A)

/-- One step of the exchange with the C++ side `cppStep`. -/
def step (k : Backend Row Out) (cppStep : L → A → Shared C Row → Option (L × Shared C Row))
    (s : State C Row Out L) : Turn A → Option (State C Row Out L)
  | .worker =>
      (workerStep k s.worker s.shared).map fun r => { s with worker := r.1, shared := r.2 }
  | .cpp a => (cppStep s.cpp a s.shared).map fun r => { s with cpp := r.1, shared := r.2 }

def Worker.init : Worker C Row Out := ⟨.poll, [], []⟩

/-- The header flags `create()` leaves, over buffers holding anything. -/
def Shared.init (input output : Block C Row) : Shared C Row := ⟨input, output, false, false⟩

section Steps

variable {k : Backend Row Out} {cppStep : L → A → Shared C Row → Option (L × Shared C Row)}
  {s s' : State C Row Out L} {w w' : Worker C Row Out} {m m' : Shared C Row}

theorem step_worker_eq_some :
    step k cppStep s .worker = some s' ↔
      ∃ w m, workerStep k s.worker s.shared = some (w, m) ∧
        s' = { s with worker := w, shared := m } := by
  simp only [step, Option.map_eq_some_iff, Prod.exists]
  refine ⟨?_, ?_⟩
  · rintro ⟨w, m, h, rfl⟩; exact ⟨w, m, h, rfl⟩
  · rintro ⟨w, m, h, rfl⟩; exact ⟨w, m, h, rfl⟩

theorem step_cpp_eq_some {a : A} :
    step k cppStep s (.cpp a) = some s' ↔
      ∃ l m, cppStep s.cpp a s.shared = some (l, m) ∧
        s' = { s with cpp := l, shared := m } := by
  simp only [step, Option.map_eq_some_iff, Prod.exists]
  refine ⟨?_, ?_⟩
  · rintro ⟨l, m, h, rfl⟩; exact ⟨l, m, h, rfl⟩
  · rintro ⟨l, m, h, rfl⟩; exact ⟨l, m, h, rfl⟩

@[simp] theorem noteInferred_self (rows : List Row) (inferred : List (List Row)) :
    noteInferred C C rows inferred = inferred ++ [rows] := if_pos rfl

theorem noteInferred_of_ne {i : ℕ} (h : i ≠ C) (rows : List Row) (inferred : List (List Row)) :
    noteInferred C i rows inferred = inferred := if_neg h

theorem loopFrom_of_lt {i : ℕ} (h : i < C) :
    loopFrom C Row Out i = .readRow ⟨i, h⟩ := dif_pos h

theorem loopFrom_of_le {i : ℕ} (h : C ≤ i) : loopFrom C Row Out i = .setOutputReady :=
  dif_neg (by omega)

theorem workerStep_input (h : workerStep k w m = some (w', m')) : m'.input = m.input := by
  cases hpc : w.pc with
  | poll =>
      simp only [workerStep, hpc] at h
      split at h <;> cases h <;> rfl
  | readRow ch =>
      simp only [workerStep, hpc] at h
      cases h; rfl
  | infer ch x =>
      simp only [workerStep, hpc] at h
      split at h <;> cases h <;> rfl
  | writeRow ch y =>
      simp only [workerStep, hpc] at h
      split at h <;> cases h <;> rfl
  | setOutputReady =>
      simp only [workerStep, hpc] at h
      cases h; rfl
  | clearInputReady =>
      simp only [workerStep, hpc] at h
      cases h; rfl
  | raised => simp [workerStep, hpc] at h

end Steps

end MabTilde.Exchange

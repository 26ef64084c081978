import MabTilde.Exchange.Worker

/-!
What the worker leaves in the output buffer when no call raises.

The result of a block is what the write-backs of its rows leave in the output
buffer, so in general it depends on what the buffer held; `results` threads
the buffer through the blocks. Where the write-back replaces the whole row the
buffer drops out (`results_of_replacing`). `Serving` says what the buffer
holds in the middle of an iteration.
-/

namespace MabTilde.Exchange

variable {C : ℕ} {Row Out L : Type}

def Backend.total (infer : Row → Out) (write : Row → Out → Row) : Backend Row Out :=
  ⟨fun x => some (infer x), fun r y => some (write r y)⟩

section

variable (infer : Row → Out) (write : Row → Out → Row)

/-- The output buffer after block `b`, from the buffer before. -/
def outputAfter (o b : Block C Row) : Block C Row := fun ch => write (o ch) (infer (b ch))

def partialOutput (o b : Block C Row) (i : ℕ) : Block C Row :=
  fun ch => if (ch : ℕ) < i then outputAfter infer write o b ch else o ch

def bufferAfter (o : Block C Row) (bs : List (Block C Row)) : Block C Row :=
  bs.foldl (outputAfter infer write) o

/-- The results of `bs` in order, the output buffer holding `o` at first. -/
def results (o : Block C Row) : List (Block C Row) → List (Block C Row)
  | [] => []
  | b :: bs => outputAfter infer write o b :: results (outputAfter infer write o b) bs

@[simp] theorem length_results (o : Block C Row) (bs : List (Block C Row)) :
    (results infer write o bs).length = bs.length := by
  induction bs generalizing o with
  | nil => rfl
  | cons b bs ih => simp [results, ih]

@[simp] theorem bufferAfter_append (o b : Block C Row) (bs : List (Block C Row)) :
    bufferAfter infer write o (bs ++ [b]) =
      outputAfter infer write (bufferAfter infer write o bs) b := by
  simp [bufferAfter]

theorem results_append (o b : Block C Row) (bs : List (Block C Row)) :
    results infer write o (bs ++ [b]) =
      results infer write o bs ++ [bufferAfter infer write o (bs ++ [b])] := by
  induction bs generalizing o with
  | nil => rfl
  | cons c bs ih =>
      simp only [List.cons_append, results, ih, bufferAfter, List.foldl_cons]

theorem prefix_results_append (o : Block C Row) (bs cs : List (Block C Row)) :
    results infer write o bs <+: results infer write o (bs ++ cs) := by
  induction bs generalizing o with
  | nil => exact List.nil_prefix
  | cons b bs ih => exact List.cons_prefix_cons.mpr ⟨rfl, ih _⟩

/-- A write-back that replaces the row makes the results a function of the
blocks alone, row by row. -/
theorem results_of_replacing (f : Row → Row) (o : Block C Row) (bs : List (Block C Row)) :
    results f (fun _ y => y) o bs = bs.map fun b ch => f (b ch) := by
  induction bs generalizing o with
  | nil => rfl
  | cons b bs ih =>
      rw [results, ih, List.map_cons]
      rfl

@[simp] theorem partialOutput_zero (o b : Block C Row) :
    partialOutput infer write o b 0 = o := by
  funext ch
  simp [partialOutput]

theorem partialOutput_all (o b : Block C Row) {i : ℕ} (hi : C ≤ i) :
    partialOutput infer write o b i = outputAfter infer write o b := by
  funext ch
  have hlt := ch.isLt
  exact if_pos (by omega)

theorem partialOutput_succ (o b : Block C Row) (ch : Fin C) :
    Function.update (partialOutput infer write o b ch) ch
        (write (partialOutput infer write o b ch ch) (infer (b ch))) =
      partialOutput infer write o b (ch + 1) := by
  funext c
  by_cases hc : c = ch
  · subst hc
    simp [partialOutput, outputAfter]
  · have hne : (c : ℕ) ≠ ch := fun h => hc (Fin.ext h)
    rw [Function.update_of_ne hc]
    simp only [partialOutput]
    by_cases hlt : (c : ℕ) < ch
    · rw [if_pos hlt, if_pos (by omega)]
    · rw [if_neg hlt, if_neg (by omega)]

/-- The output buffer `m.output` while the worker serves block `b`, the buffer
having held `o` when it took the block up. -/
def Serving (w : Worker C Row Out) (output o b : Block C Row) : Prop :=
  match w.pc with
  | .poll => output = o
  | .readRow ch => output = partialOutput infer write o b ch
  | .infer ch x => output = partialOutput infer write o b ch ∧ x = b ch
  | .writeRow ch y => output = partialOutput infer write o b ch ∧ y = infer (b ch)
  | .setOutputReady => output = outputAfter infer write o b
  | .clearInputReady | .raised => False

end

/-- The worker stands where its next step stores into the output slot: a row,
or the flag that announces the block. -/
def WorkerPc.storesOutput : WorkerPc C Row Out → Bool
  | .writeRow _ _ | .setOutputReady => true
  | _ => false

section Steps

variable {infer : Row → Out} {write : Row → Out → Row} {m m' : Shared C Row}
  {w w' : Worker C Row Out} {o b : Block C Row}

theorem serving_loopFrom {i : ℕ} {rows : List Row} {inferred : List (List Row)}
    {output : Block C Row} (h : output = partialOutput infer write o b i) :
    Serving infer write (⟨loopFrom C Row Out i, rows, inferred⟩ : Worker C Row Out) output o b := by
  by_cases hi : i < C
  · rw [loopFrom_of_lt hi]
    exact h
  · rw [loopFrom_of_le (by omega)]
    exact h.trans (partialOutput_all infer write o b (by omega))

/-- One step of a worker serving `b`: it goes on serving `b`, and the output
slot changes only where it says so, or it announces the result. -/
theorem serving_worker (hflag : m.isInputReady = true) (hin : m.input = b)
    (hsv : Serving infer write w m.output o b)
    (h : workerStep (Backend.total infer write) w m = some (w', m')) :
    (w.pc ≠ .setOutputReady ∧ w'.pc ≠ .poll ∧ m'.isInputReady = true ∧
        m'.isOutputReady = m.isOutputReady ∧ Serving infer write w' m'.output o b ∧
        (w.pc.storesOutput = false → m'.output = m.output)) ∨
      (w.pc = .setOutputReady ∧ w'.pc = .clearInputReady ∧
        m' = { m with isOutputReady := true } ∧ m.output = outputAfter infer write o b) := by
  have hloop (i : ℕ) : loopFrom C Row Out i ≠ .poll := by
    unfold loopFrom; split <;> simp
  cases hpc : w.pc with
  | poll =>
      simp only [workerStep, hpc, hflag, if_true, Option.some.injEq, Prod.mk.injEq] at h
      obtain ⟨rfl, rfl⟩ := h
      simp only [Serving, hpc] at hsv
      exact .inl ⟨by simp, hloop 0, hflag, rfl, serving_loopFrom (by simpa using hsv), fun _ => rfl⟩
  | readRow ch =>
      simp only [workerStep, hpc, Option.some.injEq, Prod.mk.injEq] at h
      obtain ⟨rfl, rfl⟩ := h
      simp only [Serving, hpc] at hsv
      exact .inl ⟨by simp, by simp, hflag, rfl, ⟨hsv, by rw [hin]⟩, fun _ => rfl⟩
  | infer ch x =>
      simp only [workerStep, hpc, Backend.total, Option.some.injEq, Prod.mk.injEq] at h
      obtain ⟨rfl, rfl⟩ := h
      simp only [Serving, hpc] at hsv
      exact .inl ⟨by simp, by simp, hflag, rfl, ⟨hsv.1, by rw [hsv.2]⟩, fun _ => rfl⟩
  | writeRow ch y =>
      simp only [workerStep, hpc, Backend.total, Option.some.injEq, Prod.mk.injEq] at h
      obtain ⟨rfl, rfl⟩ := h
      simp only [Serving, hpc] at hsv
      obtain ⟨hout, rfl⟩ := hsv
      refine .inl ⟨by simp, hloop _, hflag, rfl, serving_loopFrom ?_,
        by simp [WorkerPc.storesOutput]⟩
      rw [← partialOutput_succ, ← hout]
  | setOutputReady =>
      simp only [workerStep, hpc, Option.some.injEq, Prod.mk.injEq] at h
      obtain ⟨rfl, rfl⟩ := h
      simp only [Serving, hpc] at hsv
      exact .inr ⟨rfl, rfl, rfl, hsv⟩
  | clearInputReady => simp [Serving, hpc] at hsv
  | raised => simp [Serving, hpc] at hsv

end Steps

end MabTilde.Exchange

import MabTilde.InferBlock
import MabTilde.SharedMemoryManager

/-!
The published row of a channel, and what it depends on.

Here the write-back is what it is in the shared memory: samples stored from
the beginning of the row's bytes on. The source cuts the row to the length of
the model's output and the output to the length of the row, so an output that
is too short leaves the end of the row as it was: the samples of an older block
are published with the new ones.
-/

namespace MabTilde

open Bytes

variable (sm : SharedMemoryManager)

/-- The write-back of channel `ch` in the shared memory. -/
def storeOutput (ch : ℕ) (outputBlock : Tensor) (m : Memory) : Option Memory :=
  (assigned sm.blockSize.toNat outputBlock).map fun new => sm.writeRow ch new m

def storeOutputs (outputBlocks : ℕ → Tensor) (m : Memory) : Option Memory :=
  (List.range sm.numChannels.toNat).foldlM (fun m ch => storeOutput sm ch (outputBlocks ch) m) m

/-- The write-backs of a run of blocks. -/
def runBlocks (blocks : List (ℕ → Tensor)) (m : Memory) : Option Memory :=
  blocks.foldlM (fun m outputBlocks => storeOutputs sm outputBlocks m) m

/-- What the row of channel `ch` holds after the output `y` has been written back
is a matter of `y` alone, and no other row is touched. -/
structure OfCurrentBlock (ch : ℕ) (y : List Sample) : Prop where
  start : ∀ m, ∃ m', storeOutput sm ch (NdArray.ofRow y) m = some m' ∧
    ∀ i, i < min y.length sm.blockSize.toNat → (sm.outputRow ch m')[i]? = y[i]?
  fill : ∃ fill : ℕ → Sample, ∀ m m', storeOutput sm ch (NdArray.ofRow y) m = some m' →
    ∀ i, min y.length sm.blockSize.toNat ≤ i → i < sm.blockSize.toNat →
      (sm.outputRow ch m')[i]? = some (fill i)
  runs : ∀ (m m' : Memory) (earlier earlier' : List (ℕ → List Sample))
    (now now' : ℕ → List Sample), now ch = y → now' ch = y → ∀ m₁ m₂,
      runBlocks sm ((earlier ++ [now]).map fun b c => NdArray.ofRow (b c)) m = some m₁ →
      runBlocks sm ((earlier' ++ [now']).map fun b c => NdArray.ofRow (b c)) m' = some m₂ →
        sm.outputRow ch m₁ = sm.outputRow ch m₂
  frame : ∀ m m', storeOutput sm ch (NdArray.ofRow y) m = some m' →
    ∀ c, c < sm.numChannels.toNat →
      sm.inputRow c m' = sm.inputRow c m ∧ (c ≠ ch → sm.outputRow c m' = sm.outputRow c m)

section Rows

variable {sm} {ch c : ℕ} {m : Memory} {y : List Sample}

theorem outputRow_writeRow :
    sm.outputRow ch (sm.writeRow ch y m) =
      y.take sm.blockSize.toNat ++ (sm.outputRow ch m).drop (y.take sm.blockSize.toNat).length := by
  apply loadWords_storeWords
  rw [List.length_take]
  exact Nat.min_le_left _ _

theorem outputRow_writeRow_of_ne (hne : c ≠ ch) :
    sm.outputRow c (sm.writeRow ch y m) = sm.outputRow c m := by
  apply loadWords_storeWords_disjoint
  have hlen : (y.take sm.blockSize.toNat).length ≤ sm.blockSize.toNat := by
    rw [List.length_take]
    exact Nat.min_le_left _ _
  unfold SharedMemoryManager.outputRowAddr
  rcases Nat.lt_or_gt_of_ne hne with hlt | hlt
  · have hmul := Nat.mul_le_mul_right sm.blockSize.toNat hlt
    rw [Nat.succ_mul] at hmul
    left
    omega
  · have hmul := Nat.mul_le_mul_right sm.blockSize.toNat hlt
    rw [Nat.succ_mul] at hmul
    right
    omega

theorem inputRow_writeRow (hc : c < sm.numChannels.toNat) :
    sm.inputRow c (sm.writeRow ch y m) = sm.inputRow c m := by
  by_cases hB : sm.blockSize.toNat = 0
  · unfold SharedMemoryManager.inputRow
    rw [hB]
    rfl
  · apply loadWords_storeWords_disjoint
    left
    have hend := Nat.mul_le_mul_right sm.blockSize.toNat hc
    rw [Nat.succ_mul] at hend
    have hheader : SharedMemoryManager.inputOffset.toNat = SharedMemoryManager.headerSize := rfl
    unfold SharedMemoryManager.inputRowAddr SharedMemoryManager.outputRowAddr
    rw [sm.outputOffset_toNat (by omega) (by omega), hheader]
    omega

theorem outputRow_storeOutput (outputBlock : Tensor) (m : Memory) :
    (storeOutput sm ch outputBlock m).map (sm.outputRow ch) =
      writeBack sm.blockSize.toNat (sm.outputRow ch m) outputBlock := by
  unfold storeOutput writeBack
  cases hnew : assigned sm.blockSize.toNat outputBlock with
  | none => rfl
  | some new =>
      obtain ⟨d, s, -, hlen⟩ := length_assigned hnew
      have htake : new.take sm.blockSize.toNat = new :=
        List.take_of_length_le (hlen ▸ Nat.min_le_left _ _)
      rw [Option.map_some, Option.map_some, Option.map_some, outputRow_writeRow, htake]

theorem storeOutput_ofRow :
    storeOutput sm ch (NdArray.ofRow y) m = some (sm.writeRow ch y m) := by
  rw [storeOutput, assigned_ofRow, Option.map_some, SharedMemoryManager.writeRow,
    SharedMemoryManager.writeRow, List.take_take, Nat.min_self]

def storeRows (sm : SharedMemoryManager) (rows : ℕ → List Sample) (m : Memory) : Memory :=
  (List.range sm.numChannels.toNat).foldl (fun m ch => sm.writeRow ch (rows ch) m) m

theorem storeOutputs_ofRow (rows : ℕ → List Sample) (m : Memory) :
    storeOutputs sm (fun c => NdArray.ofRow (rows c)) m = some (storeRows sm rows m) := by
  simp only [storeOutputs, storeOutput_ofRow]
  exact List.foldlM_pure

theorem runBlocks_ofRow (blocks : List (ℕ → List Sample)) (m : Memory) :
    runBlocks sm (blocks.map fun b c => NdArray.ofRow (b c)) m =
      some (blocks.foldl (fun m rows => storeRows sm rows m) m) := by
  simp only [runBlocks, List.foldlM_map, storeOutputs_ofRow]
  exact List.foldlM_pure

/-- A block leaves in a row what its own output gives, before what is left of
the old row. -/
theorem outputRow_storeRows (rows : ℕ → List Sample) (hch : ch < sm.numChannels.toNat) :
    sm.outputRow ch (storeRows sm rows m) =
      (rows ch).take sm.blockSize.toNat ++
        (sm.outputRow ch m).drop ((rows ch).take sm.blockSize.toNat).length := by
  have hloop : ∀ n, sm.outputRow ch
      ((List.range n).foldl (fun m c => sm.writeRow c (rows c) m) m) =
        if ch < n then (rows ch).take sm.blockSize.toNat ++
          (sm.outputRow ch m).drop ((rows ch).take sm.blockSize.toNat).length
        else sm.outputRow ch m := by
    intro n
    induction n with
    | zero => rfl
    | succ n ih =>
        rw [List.range_succ, List.foldl_append, List.foldl_cons, List.foldl_nil]
        by_cases hn : ch = n
        · subst hn
          rw [outputRow_writeRow, ih, if_neg (Nat.lt_irrefl ch), if_pos (Nat.lt_succ_self ch)]
        · rw [outputRow_writeRow_of_ne hn, ih]
          by_cases hlt : ch < n
          · rw [if_pos hlt, if_pos (by omega)]
          · rw [if_neg hlt, if_neg (by omega)]
  rw [storeRows, hloop, if_pos hch]

theorem outputRow_storeRows_of_le (rows : ℕ → List Sample) (hch : ch < sm.numChannels.toNat)
    (hle : sm.blockSize.toNat ≤ (rows ch).length) :
    sm.outputRow ch (storeRows sm rows m) = (rows ch).take sm.blockSize.toNat := by
  have hlen : (sm.outputRow ch m).length = sm.blockSize.toNat := length_loadWords _ _ _
  rw [outputRow_storeRows rows hch, List.length_take, Nat.min_eq_left hle,
    List.drop_eq_nil_of_le hlen.le, List.append_nil]

theorem getElem?_outputRow_writeRow {i : ℕ} (hi : i < min y.length sm.blockSize.toNat) :
    (sm.outputRow ch (sm.writeRow ch y m))[i]? = y[i]? := by
  rw [outputRow_writeRow, List.getElem?_append_left (by rw [List.length_take]; omega),
    List.getElem?_take_of_lt (by omega)]

/-- Two earlier blocks that differ in every sample still differ behind an output
that is too short. -/
theorem le_of_runs (hch : ch < sm.numChannels.toNat) (h : OfCurrentBlock sm ch y) :
    sm.blockSize.toNat ≤ y.length := by
  have hrow : ∀ v : Sample, sm.outputRow ch (storeRows sm (fun _ => y)
      (storeRows sm (fun _ => List.replicate sm.blockSize.toNat v) (fun _ => 0))) =
        y.take sm.blockSize.toNat ++ (List.replicate sm.blockSize.toNat v).drop
          (y.take sm.blockSize.toNat).length := by
    intro v
    rw [outputRow_storeRows _ hch, outputRow_storeRows_of_le _ hch (by simp),
      List.take_of_length_le (l := List.replicate _ v) (by simp)]
  have hruns := h.runs (fun _ => 0) (fun _ => 0) [fun _ => List.replicate sm.blockSize.toNat 0]
    [fun _ => List.replicate sm.blockSize.toNat 1] (fun _ => y) (fun _ => y) rfl rfl _ _
    (runBlocks_ofRow _ _) (runBlocks_ofRow _ _)
  have hsame := (hrow 0).symm.trans (hruns.trans (hrow 1))
  have hle := le_of_drop_replicate (List.append_cancel_left hsame)
  rw [List.length_take] at hle
  omega

end Rows

/-- The published row depends only on the current block's output exactly if that
is at least as long as the row. -/
theorem ofCurrentBlock_iff (ch : Fin sm.numChannels.toNat) (y : List Sample) :
    OfCurrentBlock sm ch y ↔ sm.blockSize.toNat ≤ y.length := by
  refine ⟨le_of_runs ch.isLt, fun hle => ⟨?_, ⟨fun _ => 0, ?_⟩, ?_, ?_⟩⟩
  · intro m
    exact ⟨_, storeOutput_ofRow, fun i hi => getElem?_outputRow_writeRow hi⟩
  · intro m m' _ i hi hlt
    omega
  · intro m m' earlier earlier' now now' hnow hnow' m₁ m₂ h₁ h₂
    rw [runBlocks_ofRow, List.foldl_append, List.foldl_cons, List.foldl_nil,
      Option.some.injEq] at h₁ h₂
    rw [← h₁, ← h₂, outputRow_storeRows_of_le now ch.isLt (hnow ▸ hle),
      outputRow_storeRows_of_le now' ch.isLt (hnow' ▸ hle), hnow, hnow']
  · intro m m' h c hc
    rw [storeOutput_ofRow] at h
    obtain rfl := Option.some.inj h
    exact ⟨inputRow_writeRow hc, outputRow_writeRow_of_ne⟩

/-- Blocks of four samples, one channel. The model answers the first block with
four samples and the second with two: the row published for the second ends
with the samples of the first. -/
theorem stale_samples_published :
    ∃ m, runBlocks ⟨"MabSharedMem_00000007", "MabEvent_00000007", 4, 1⟩
        [fun _ => NdArray.ofRow [1, 2, 3, 4], fun _ => NdArray.ofRow [5, 6]] (fun _ => 0) =
          some m ∧
      SharedMemoryManager.outputRow ⟨"MabSharedMem_00000007", "MabEvent_00000007", 4, 1⟩ 0 m =
        [5, 6, 3, 4] ∧
      ¬ OfCurrentBlock ⟨"MabSharedMem_00000007", "MabEvent_00000007", 4, 1⟩ 0 [5, 6] := by
  have hrun : (runBlocks ⟨"MabSharedMem_00000007", "MabEvent_00000007", 4, 1⟩
      [fun _ => NdArray.ofRow [1, 2, 3, 4], fun _ => NdArray.ofRow [5, 6]] (fun _ => 0)).any
        (fun m => decide (SharedMemoryManager.outputRow
          ⟨"MabSharedMem_00000007", "MabEvent_00000007", 4, 1⟩ 0 m = [5, 6, 3, 4])) = true := by
    decide +kernel
  obtain ⟨m, hm, hrow⟩ := (Option.any_eq_true _ _).mp hrun
  refine ⟨m, hm, of_decide_eq_true hrow, fun h => ?_⟩
  exact absurd (le_of_runs (by decide) h) (by decide)

end MabTilde

import MabTilde.PerChannel
import MabTilde.ServeBlock

/-!
Mono results behind dimensions of size 1.

A model of batched audio returns one channel as `(1, 1, B)`. `infer_block` takes
one dimension off, and only off three; what is left is not the shape the loop
tests for, and `len` of it is 1 and not `B`. So the loop assigns a whole block to
a single sample, which raises, unless the block is a single sample itself.
-/

namespace MabTilde

open Bytes

variable (sm : SharedMemoryManager) (model : Model)

def ServesChannel (m : Memory) (ch : ℕ) (ys : List Sample) : Prop :=
  ∃ m', serveChannel sm model ch m = some m' ∧ sm.outputRow ch m' = ys

/-- The whole block is served with the rows `y`, and announced. -/
def Publishes (m : Memory) (y : ℕ → List Sample) : Prop :=
  ∃ m', serveBlock sm model m = .ok m' ∧
    (∀ ch, ch < sm.numChannels.toNat → sm.outputRow ch m' = y ch) ∧
    Side.python.read m' .isOutputReady = 1 ∧ Side.python.read m' .isInputReady = 0

section Lemmas

variable {sm model} {m m' : Memory} {ch r : ℕ} {bufsize : ℕ} {ys new : List Sample}

theorem dropBatch_ofRowBehind (r : ℕ) (ys : List Sample) :
    dropBatch (NdArray.ofRowBehind r ys) = NdArray.ofRowBehind (if r = 2 then 1 else r) ys := by
  by_cases hr : r = 2
  · subst hr
    rfl
  · have hdim : (NdArray.ofRowBehind r ys).dim ≠ 3 := by
      simp only [NdArray.dim, NdArray.ofRowBehind, List.length_append, List.length_replicate,
        List.length_singleton]
      omega
    rw [dropBatch, if_neg hdim, if_neg hr]

/-- Behind such a dimension only a single sample can be assigned. -/
theorem assigned_ofRowBehind (hlen : ys.length = bufsize) (hpos : 0 < bufsize) :
    assigned bufsize (NdArray.ofRowBehind r ys) = some new ↔
      (r = 0 ∨ bufsize = 1) ∧ new = ys := by
  rw [assigned_eq_some_iff]
  cases r with
  | zero =>
      refine ⟨?_, ?_⟩
      · rintro ⟨d, s, hshape, -, rfl⟩
        obtain ⟨rfl, rfl⟩ := List.cons.inj hshape
        refine ⟨.inl rfl, ?_⟩
        show ys.take _ = ys
        rw [hlen, Nat.min_self, List.prod_nil, Nat.mul_one, List.take_of_length_le hlen.le]
      · rintro ⟨-, rfl⟩
        refine ⟨new.length, [], rfl, .inl rfl, ?_⟩
        show new.take _ = new
        rw [hlen, Nat.min_self, List.prod_nil, Nat.mul_one, List.take_of_length_le hlen.le]
  | succ r =>
      have hshape : (NdArray.ofRowBehind (r + 1) ys).shape =
          1 :: (List.replicate r 1 ++ [ys.length]) := rfl
      have hmin : min bufsize 1 = 1 := Nat.min_eq_right hpos
      refine ⟨?_, ?_⟩
      · rintro ⟨d, s, hds, hs, rfl⟩
        obtain ⟨rfl, rfl⟩ := List.cons.inj (hshape.symm.trans hds)
        have hones := (hs.resolve_left (by simp)).2
        have hone : bufsize = 1 := hlen.symm.trans (hones _ (by simp))
        refine ⟨.inr hone, ?_⟩
        show ys.take _ = ys
        rw [List.prod_eq_one hones, hmin, List.take_of_length_le (by omega)]
      · rintro ⟨h, rfl⟩
        have hone : bufsize = 1 := h.resolve_left (Nat.succ_ne_zero r)
        have hones : ∀ e ∈ List.replicate r 1 ++ [new.length], e = 1 := by
          intro e he
          rcases List.mem_append.mp he with he | he
          · exact List.eq_of_mem_replicate he
          · rw [List.mem_singleton.mp he, hlen, hone]
        refine ⟨1, _, hshape, .inr ⟨hmin, hones⟩, ?_⟩
        show new.take _ = new
        rw [List.prod_eq_one hones, hmin, List.take_of_length_le (by omega)]

theorem rowAfter_ofRowBehind (hB : 1 ≤ sm.blockSize) (hlen : ys.length = sm.blockSize.toNat)
    (hmodel : model (NdArray.ofRow (sm.inputRow ch m)) = some (NdArray.ofRowBehind r ys)) :
    rowAfter sm model m ch = some ys ↔ r = 0 ∨ sm.blockSize = 1 := by
  have hrow : (sm.outputRow ch m).length = ys.length := by
    rw [hlen]
    exact length_loadWords _ _ _
  have hbehind : (if r = 2 then 1 else r) = 0 ↔ r = 0 := by
    split <;> omega
  have hone : sm.blockSize.toNat = 1 ↔ sm.blockSize = 1 := by omega
  rw [rowAfter, serveRow_backend, hmodel, Option.bind_some, dropBatch_ofRowBehind, writeBack,
    Option.map_eq_some_iff, ← hbehind, ← hone]
  refine ⟨?_, ?_⟩
  · rintro ⟨new, hnew, -⟩
    exact ((assigned_ofRowBehind hlen (by omega)).mp hnew).1
  · intro h
    refine ⟨ys, (assigned_ofRowBehind hlen (by omega)).mpr ⟨h, rfl⟩, ?_⟩
    rw [List.drop_eq_nil_of_le hrow.le, List.append_nil]

theorem servesChannel_iff : ServesChannel sm model m ch ys ↔ rowAfter sm model m ch = some ys := by
  rw [← map_serveChannel, Option.map_eq_some_iff]
  rfl

theorem outputRow_write {f : Field} {v : BitVec 32} (hch : ch < sm.numChannels.toNat) :
    sm.outputRow ch (Side.python.write m f v) = sm.outputRow ch m := by
  rcases lt_or_ge sm.blockSize 0 with hB | hB
  · unfold SharedMemoryManager.outputRow
    rw [Int.toNat_of_nonpos hB.le]
    rfl
  · apply loadWords_congr
    intro i hi _
    apply Side.write_of_le
    show SharedMemoryManager.headerSize ≤ i
    exact (SharedMemoryManager.headerSize_le_outputRowAddr hB (by omega)).trans hi

theorem publishes_iff {y : ℕ → List Sample} :
    Publishes sm model m y ↔
      ∀ ch, ch < sm.numChannels.toNat → rowAfter sm model m ch = some (y ch) := by
  unfold Publishes serveBlock
  cases hloop : serveChannels sm model (List.range sm.numChannels.toNat) m with
  | error e =>
      obtain ⟨ch, m₁⟩ := e
      have hfailed := serveChannels_error hloop
      refine iff_of_false ?_ fun h => ?_
      · rintro ⟨m', ⟨⟩, -⟩
      · cases hfailed.raises.symm.trans (h ch hfailed.lt)
  | ok m₁ =>
      have hserved := (serveChannels_ok hloop).served
      refine ⟨?_, ?_⟩
      · rintro ⟨m', ⟨⟩, hrows, -⟩ ch hch
        rw [hserved ch hch, ← hrows ch hch, outputRow_write hch, outputRow_write hch]
      · intro h
        refine ⟨_, rfl, ?_, ?_, ?_⟩
        · intro ch hch
          rw [outputRow_write hch, outputRow_write hch]
          exact Option.some.inj ((hserved ch hch).symm.trans (h ch hch))
        · rw [Side.read_write_of_ne (by decide), Side.read_write_self]
          rfl
        · rw [Side.read_write_self]
          rfl

end Lemmas

/-- Where the result of every channel is a row behind `r` dimensions of size 1, a
channel is served with it exactly if there are none or the row is one sample;
and the block is published exactly if that goes for all channels. -/
theorem mono_published_iff (m : Memory) (r : ℕ → ℕ) (y : ℕ → List Sample)
    (hB : 1 ≤ sm.blockSize)
    (hlen : ∀ ch, ch < sm.numChannels.toNat → (y ch).length = sm.blockSize.toNat)
    (hmodel : ∀ ch, ch < sm.numChannels.toNat →
      model (NdArray.ofRow (sm.inputRow ch m)) = some (NdArray.ofRowBehind (r ch) (y ch))) :
    (∀ ch, ch < sm.numChannels.toNat →
        (ServesChannel sm model m ch (y ch) ↔ r ch = 0 ∨ sm.blockSize = 1)) ∧
      (Publishes sm model m y ↔
        ∀ ch, ch < sm.numChannels.toNat → r ch = 0 ∨ sm.blockSize = 1) := by
  have hrow := fun ch hch => rowAfter_ofRowBehind hB (hlen ch hch) (hmodel ch hch)
  refine ⟨?_, ?_⟩
  · intro ch hch
    rw [servesChannel_iff, hrow ch hch]
  · rw [publishes_iff]
    exact forall_congr' fun ch => forall_congr' fun hch => hrow ch hch

theorem mono_published_plain :
    Publishes twoSamples (fun _ => some (NdArray.ofRowBehind 0 [5, 6])) (fun _ => 0)
      fun _ => [5, 6] :=
  (mono_published_iff twoSamples _ (fun _ => 0) (fun _ => 0) (fun _ => [5, 6]) (by decide)
    (fun _ _ => rfl) (fun _ _ => rfl)).2.mpr fun _ _ => .inl rfl

/-- A result of shape `(1, 1, 2)` raises at its write-back: two samples are
assigned to one. -/
theorem batched_mono_raises :
    (inferBlock (fun _ => some (NdArray.ofRowBehind 2 [5, 6])) (NdArray.ofRow [1, 2])).map
        NdArray.shape = some [1, 2] ∧
      serveChannel twoSamples (fun _ => some (NdArray.ofRowBehind 2 [5, 6])) 0 (fun _ => 0) =
        none ∧
      ¬ ServesChannel twoSamples (fun _ => some (NdArray.ofRowBehind 2 [5, 6])) (fun _ => 0) 0
        [5, 6] ∧
      ¬ Publishes twoSamples (fun _ => some (NdArray.ofRowBehind 2 [5, 6])) (fun _ => 0)
        fun _ => [5, 6] := by
  have hshape : (inferBlock (fun _ => some (NdArray.ofRowBehind 2 [5, 6]))
      (NdArray.ofRow [1, 2])).map NdArray.shape = some [1, 2] := rfl
  have hraises : (serveChannel twoSamples (fun _ => some (NdArray.ofRowBehind 2 [5, 6])) 0
      (fun _ => 0)).isNone = true := by decide +kernel
  have hchannel : ¬ ServesChannel twoSamples
      (fun _ => some (NdArray.ofRowBehind 2 [5, 6])) (fun _ => 0) 0 [5, 6] := by
    rintro ⟨m', hm', -⟩
    rw [hm'] at hraises
    cases hraises
  refine ⟨hshape, Option.isNone_iff_eq_none.mp hraises, hchannel, fun h => hchannel ?_⟩
  exact servesChannel_iff.mpr (publishes_iff.mp h 0 (by decide))

end MabTilde

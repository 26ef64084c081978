import MabTilde.Exchange.Iteration
import MabTilde.OutputRow

/-!
An iteration of the serving loop in the shared memory, and what one that raises
leaves behind.

Each row is written before the next one is inferred, and the flags are stored
after the last. So up to the point where it raises the loop has replaced some
rows and touched nothing else (`ServedUpTo`); nothing puts those rows back, and
nothing has asked whether the block they were part of is still to be read.
-/

namespace MabTilde

open Bytes

variable (sm : SharedMemoryManager) (model : Model)

/-- The loop body for one channel. What raises changes nothing. -/
def serveChannel (ch : ℕ) (m : Memory) : Option Memory :=
  (inferBlock model (NdArray.ofRow (sm.inputRow ch m))).bind fun outputBlock =>
    storeOutput sm ch outputBlock m

/-- The channels listed. If one raises: which, and the memory it is left with. -/
def serveChannels : List ℕ → Memory → Except (ℕ × Memory) Memory
  | [], m => .ok m
  | ch :: chs, m =>
      match serveChannel sm model ch m with
      | none => .error (ch, m)
      | some m => serveChannels chs m

/-- `for ch in range(num_channels)`, and the two stores after it. -/
def serveBlock (m : Memory) : Except (ℕ × Memory) Memory :=
  (serveChannels sm model (List.range sm.numChannels.toNat) m).map fun m =>
    Side.python.write (Side.python.write m .isOutputReady 1) .isInputReady 0

/-- An iteration of `while running`. -/
def loopBody (m : Memory) : Except (ℕ × Memory) Memory :=
  if Side.python.read m .isInputReady = 0 then .ok m else serveBlock sm model m

def rowAfter (m : Memory) (ch : ℕ) : Option (List Sample) :=
  (backend model sm.blockSize.toNat).serveRow (sm.inputRow ch m) (sm.outputRow ch m)

/-- From `m` to `m'` the channels before `n` have been served and nothing else
has changed. -/
structure ServedUpTo (m m' : Memory) (n : ℕ) : Prop where
  header : ∀ i, i < SharedMemoryManager.headerSize → m' i = m i
  input : ∀ c, c < sm.numChannels.toNat → sm.inputRow c m' = sm.inputRow c m
  served : ∀ c, c < n → rowAfter sm model m c = some (sm.outputRow c m')
  rest : ∀ c, n ≤ c → sm.outputRow c m' = sm.outputRow c m

/-- Where a loop that raises stands: before a channel that cannot be served. -/
structure FailedAt (m m' : Memory) (ch : ℕ) : Prop where
  lt : ch < sm.numChannels.toNat
  partway : ServedUpTo sm model m m' ch
  raises : rowAfter sm model m ch = none

section Lemmas

variable {sm model} {m m' m₀ : Memory} {ch c n i : ℕ} {f : Field}

theorem serveChannel_eq_some (h : serveChannel sm model ch m = some m') :
    ∃ ys, m' = sm.writeRow ch ys m := by
  obtain ⟨outputBlock, -, hstore⟩ := Option.bind_eq_some_iff.mp h
  obtain ⟨ys, -, rfl⟩ := Option.map_eq_some_iff.mp hstore
  exact ⟨ys, rfl⟩

theorem map_serveChannel :
    (serveChannel sm model ch m).map (sm.outputRow ch) = rowAfter sm model m ch := by
  unfold serveChannel rowAfter
  rw [Option.map_bind]
  show (inferBlock model _).bind _ = (inferBlock model _).bind _
  congr 1
  funext outputBlock
  exact outputRow_storeOutput outputBlock m

theorem servedUpTo_zero (m : Memory) : ServedUpTo sm model m m 0 where
  header _ _ := rfl
  input _ _ := rfl
  served _ hc := absurd hc (Nat.not_lt_zero _)
  rest _ _ := rfl

theorem ServedUpTo.rowAfter_eq (h : ServedUpTo sm model m₀ m n) (hc : c < sm.numChannels.toNat)
    (hn : n ≤ c) : rowAfter sm model m c = rowAfter sm model m₀ c := by
  rw [rowAfter, h.input c hc, h.rest c hn, rowAfter]

theorem ServedUpTo.next (h : ServedUpTo sm model m₀ m n) (hn : n < sm.numChannels.toNat)
    (hserve : serveChannel sm model n m = some m') : ServedUpTo sm model m₀ m' (n + 1) := by
  obtain ⟨ys, rfl⟩ := serveChannel_eq_some hserve
  have hrow : rowAfter sm model m₀ n = some (sm.outputRow n (sm.writeRow n ys m)) := by
    rw [← h.rowAfter_eq hn (le_refl n), ← map_serveChannel, hserve, Option.map_some]
  refine ⟨?_, ?_, ?_, ?_⟩
  · intro i hi
    rw [SharedMemoryManager.writeRow_of_lt_header (by omega) hi, h.header i hi]
  · intro c hc
    rw [inputRow_writeRow hc, h.input c hc]
  · intro c hc
    rcases Nat.lt_succ_iff_lt_or_eq.mp hc with hlt | rfl
    · rw [outputRow_writeRow_of_ne (Nat.ne_of_lt hlt), h.served c hlt]
    · exact hrow
  · intro c hc
    rw [outputRow_writeRow_of_ne (by omega), h.rest c (by omega)]

/-- The loop from channel `n` on. -/
theorem serveChannels_spec (h : ServedUpTo sm model m₀ m n) (k : ℕ)
    (hk : n + k = sm.numChannels.toNat) :
    (∀ m', serveChannels sm model (List.range' n k) m = .ok m' →
        ServedUpTo sm model m₀ m' sm.numChannels.toNat) ∧
      ∀ ch m', serveChannels sm model (List.range' n k) m = .error (ch, m') →
        FailedAt sm model m₀ m' ch := by
  induction k generalizing n m with
  | zero =>
      obtain rfl : n = sm.numChannels.toNat := by omega
      refine ⟨?_, ?_⟩
      · rintro m' ⟨⟩
        exact h
      · rintro ch m' ⟨⟩
  | succ k ih =>
      rw [List.range'_succ, serveChannels]
      cases hserve : serveChannel sm model n m with
      | some m₁ => exact ih (h.next (by omega) hserve) (by omega)
      | none =>
          refine ⟨?_, ?_⟩
          · rintro m' ⟨⟩
          · rintro ch m' ⟨⟩
            refine ⟨by omega, h, ?_⟩
            rw [← h.rowAfter_eq (by omega) (le_refl n), ← map_serveChannel, hserve,
              Option.map_none]

theorem serveChannels_ok
    (h : serveChannels sm model (List.range sm.numChannels.toNat) m = .ok m') :
    ServedUpTo sm model m m' sm.numChannels.toNat := by
  rw [List.range_eq_range'] at h
  exact (serveChannels_spec (servedUpTo_zero m) _ (Nat.zero_add _)).1 m' h

theorem serveChannels_error
    (h : serveChannels sm model (List.range sm.numChannels.toNat) m = .error (ch, m')) :
    FailedAt sm model m m' ch := by
  rw [List.range_eq_range'] at h
  exact (serveChannels_spec (servedUpTo_zero m) _ (Nat.zero_add _)).2 ch m' h

theorem serve_rows
    (h : serveChannels sm model (List.range sm.numChannels.toNat) m = .ok m') :
    (backend model sm.blockSize.toNat).serve
        (fun ch : Fin sm.numChannels.toNat => sm.inputRow ch m) (fun ch => sm.outputRow ch m) =
      some fun ch : Fin sm.numChannels.toNat => sm.outputRow ch m' := by
  rw [Exchange.serve_eq_some_iff]
  exact fun ch => (serveChannels_ok h).served ch ch.isLt

/-- What raises is the loop, before its flags are stored. -/
theorem loopBody_error (h : loopBody sm model m = .error (ch, m')) :
    FailedAt sm model m m' ch := by
  unfold loopBody at h
  split at h
  · cases h
  · unfold serveBlock at h
    cases hloop : serveChannels sm model (List.range sm.numChannels.toNat) m with
    | ok m₁ =>
        rw [hloop] at h
        cases h
    | error e =>
        rw [hloop] at h
        cases h
        exact serveChannels_error hloop

theorem FailedAt.lt_iff (h : FailedAt sm model m m' ch) :
    c < ch ↔ ∀ c', c' ≤ c → (rowAfter sm model m c').isSome := by
  refine ⟨?_, ?_⟩
  · intro hc c' hc'
    rw [h.partway.served c' (by omega)]
    rfl
  · intro hserved
    by_contra hle
    have hsome := hserved ch (by omega)
    rw [h.raises] at hsome
    cases hsome

theorem FailedAt.rows_kept_iff (h : FailedAt sm model m m' ch) :
    (∀ c, c < sm.numChannels.toNat → sm.outputRow c m' = sm.outputRow c m) ↔
      ∀ c, c < ch → rowAfter sm model m c = some (sm.outputRow c m) := by
  refine ⟨?_, ?_⟩
  · intro hkept c hc
    rw [h.partway.served c hc, hkept c (hc.trans h.lt)]
  · intro hsame c _
    by_cases hc : c < ch
    · exact Option.some.inj ((h.partway.served c hc).symm.trans (hsame c hc))
    · exact h.partway.rest c (Nat.le_of_not_lt hc)

end Lemmas

/-- The output buffer and the two flags of the exchange are as they were. -/
structure NoTrace (m m' : Memory) : Prop where
  output : ∀ c, c < sm.numChannels.toNat → sm.outputRow c m' = sm.outputRow c m
  outputReady : Side.python.read m' .isOutputReady = Side.python.read m .isOutputReady
  inputReady : Side.python.read m' .isInputReady = Side.python.read m .isInputReady

/-- A channel that is served before any fails holds already what it is given. -/
def HoldsResults (m : Memory) : Prop :=
  ∀ c, (∀ c', c' ≤ c → (rowAfter sm model m c').isSome) →
    rowAfter sm model m c = some (sm.outputRow c m)

/-- An iteration that raises, at whatever channel, leaves no trace exactly if the
channels before it held the results of this block already. -/
theorem failed_iteration (m m' : Memory) (ch : ℕ) (h : loopBody sm model m = .error (ch, m')) :
    NoTrace sm m m' ↔ HoldsResults sm model m := by
  have hfailed := loopBody_error h
  have hread := Side.read_congr hfailed.partway.header
  have hholds : HoldsResults sm model m ↔
      ∀ c, c < ch → rowAfter sm model m c = some (sm.outputRow c m) :=
    forall_congr' fun c => imp_congr_left hfailed.lt_iff.symm
  rw [hholds, ← hfailed.rows_kept_iff]
  refine ⟨fun htrace => htrace.output, fun hkept => ⟨hkept, ?_, ?_⟩⟩
  · exact hread .isOutputReady
  · exact hread .isInputReady

/-! Two channels of one sample. The model raises on the sample 9. -/

def twoRows : SharedMemoryManager := ⟨"MabSharedMem_00000007", "MabEvent_00000007", 1, 2⟩

def raisesOnNine : Model := fun t => if t.data = [9] then none else some t

/-- The rows 1 and 2 are announced and the rows 7 and 9 published. -/
def announcedAndPublished : Memory :=
  let m := storeWords (fun _ => 0) (twoRows.inputRowAddr 0) [7, 9, 1, 2]
  Side.python.write (Side.python.write m .isOutputReady 1) .isInputReady 1

theorem second_row_raises :
    ∃ m', loopBody twoRows raisesOnNine announcedAndPublished = .error (1, m') ∧
      twoRows.outputRow 0 m' = [7] := by
  have hrun : (match loopBody twoRows raisesOnNine announcedAndPublished with
      | .ok _ => false
      | .error (ch, m') => decide (ch = 1 ∧ twoRows.outputRow 0 m' = [7])) = true := by
    decide +kernel
  cases hbody : loopBody twoRows raisesOnNine announcedAndPublished with
  | ok m' =>
      rw [hbody] at hrun
      cases hrun
  | error e =>
      obtain ⟨ch, m'⟩ := e
      rw [hbody] at hrun
      obtain ⟨rfl, hrow⟩ := of_decide_eq_true hrun
      exact ⟨m', rfl, hrow⟩

def servedBefore : Memory :=
  let m := storeWords (fun _ => 0) (twoRows.inputRowAddr 0) [7, 9, 7, 2]
  Side.python.write (Side.python.write m .isOutputReady 1) .isInputReady 1

theorem failed_iteration_served :
    ∃ m', loopBody twoRows raisesOnNine servedBefore = .error (1, m') ∧
      NoTrace twoRows servedBefore m' := by
  have hrun : (match loopBody twoRows raisesOnNine servedBefore with
      | .ok _ => false
      | .error (ch, _) => decide (ch = 1)) = true := by
    decide +kernel
  have hrows : rowAfter twoRows raisesOnNine servedBefore 0 =
      some (twoRows.outputRow 0 servedBefore) ∧
        rowAfter twoRows raisesOnNine servedBefore 1 = none := by
    decide +kernel
  cases hbody : loopBody twoRows raisesOnNine servedBefore with
  | ok m' =>
      rw [hbody] at hrun
      cases hrun
  | error e =>
      obtain ⟨ch, m'⟩ := e
      rw [hbody] at hrun
      obtain rfl := of_decide_eq_true hrun
      refine ⟨m', rfl, (failed_iteration twoRows raisesOnNine _ m' 1 hbody).mpr ?_⟩
      intro c hserved
      obtain rfl : c = 0 := by
        by_contra hne
        have hsome := hserved 1 (by omega)
        rw [hrows.2] at hsome
        cases hsome
      exact hrows.1

/-- The block that is still announced is then 7 and 2, where it was 1 and 2. -/
theorem announced_block_torn :
    ∃ m', loopBody twoRows raisesOnNine announcedAndPublished = .error (1, m') ∧
      Side.python.read announcedAndPublished .isOutputReady = 1 ∧
      twoRows.outputRow 0 announcedAndPublished = [1] ∧ twoRows.outputRow 0 m' = [7] ∧
      ¬ NoTrace twoRows announcedAndPublished m' := by
  obtain ⟨m', hbody, hafter⟩ := second_row_raises
  have hbefore : Side.python.read announcedAndPublished .isOutputReady = 1 ∧
      twoRows.outputRow 0 announcedAndPublished = [1] := by decide +kernel
  refine ⟨m', hbody, hbefore.1, hbefore.2, hafter, fun htrace => ?_⟩
  have hsame := htrace.output 0 (by decide)
  rw [hafter, hbefore.2] at hsame
  exact absurd hsame (by decide)

end MabTilde

import MabTilde.Exchange.Samples

/-!
The exchange under the header the plan declares for the C++ side.

There the three flags are `long`. The C++ side takes the worker's
`is_python_ready`, byte 26, for a part of its `is_input_ready`, and looks for
the other two flags in bytes the worker never stores to. So the input slot is
taken for it from the start, and nothing ever frees it: it publishes no block,
the worker finds none, and no result is ever announced to anyone.
-/

namespace MabTilde.Samples

open Bytes

variable {sm : SharedMemoryManager}

/-- Both sides wait. -/
structure Stuck (s : State sm) : Prop where
  inputTaken : Side.cpp.read s.memory .isInputReady ≠ 0
  nothingAnnounced : Side.cpp.read s.memory .isOutputReady = 0
  notReady : Side.cpp.read s.memory .isPythonReady = 0
  polling : s.worker.pc = .poll
  published : s.cpp.fill.published = []
  inferred : s.worker.inferred = []
  copied : s.cpp.copy.copied = []

structure Blocked (m : Memory) : Prop where
  /-- The worker's `is_input_ready` is False. -/
  input : m 24 = 0
  /-- Its `is_python_ready` is True. -/
  ready : m 26 ≠ 0
  /-- The last two flags of the C++ side are padding of the worker's. -/
  padding : ∀ i, 28 ≤ i → i < 36 → m i = 0

structure StuckInv (s : State sm) : Prop where
  memory : Blocked s.memory
  polling : s.worker.pc = .poll
  inferred : s.worker.inferred = []
  fill : s.cpp.fill = ⟨.idle, []⟩
  copyIdle : s.cpp.copy.pc = .idle
  copied : s.cpp.copy.copied = []

section Flags

variable {m : Memory} {f : Field}

theorem read_flag_eq_zero_iff {s : Side} (hf : f.isFlag = true) :
    s.read m f = 0 ↔ s.layout.load m f = 0 := by
  rw [Side.read, Field.meaning, if_pos hf]
  split <;> simp_all

theorem Blocked.worker_input (h : Blocked m) : flag .isInputReady m = false := by
  have hread : Side.python.read m .isInputReady = 0 :=
    (read_flag_eq_zero_iff rfl).mpr (python_input_eq_zero.mpr h.input)
  simp [flag, hread]

theorem Blocked.cpp_input (h : Blocked m) : Side.cpp.read m .isInputReady ≠ 0 := by
  intro hread
  have hbytes := cpp_input_eq_zero.mp ((read_flag_eq_zero_iff rfl).mp hread)
  exact h.ready hbytes.2.2.1

theorem Blocked.cpp_output (h : Blocked m) : Side.cpp.read m .isOutputReady = 0 := by
  apply (read_flag_eq_zero_iff rfl).mpr
  rw [cpp_output_eq_zero]
  refine ⟨h.padding 28 ?_ ?_, h.padding 29 ?_ ?_, h.padding 30 ?_ ?_, h.padding 31 ?_ ?_⟩ <;>
    decide

theorem Blocked.cpp_ready (h : Blocked m) : Side.cpp.read m .isPythonReady = 0 := by
  apply (read_flag_eq_zero_iff rfl).mpr
  rw [cpp_ready_eq_zero]
  refine ⟨h.padding 32 ?_ ?_, h.padding 33 ?_ ?_, h.padding 34 ?_ ?_, h.padding 35 ?_ ?_⟩ <;>
    decide

theorem Blocked.clearOutput (h : Blocked m) : Blocked (Side.cpp.write m .isOutputReady 0) := by
  have hwrite := write_cpp_flag (m := m) (f := .isOutputReady) (v := 0) rfl
  rw [offset_cpp_output] at hwrite
  refine ⟨?_, ?_, ?_⟩
  · rw [hwrite, if_neg (by decide)]
    exact h.input
  · rw [hwrite, if_neg (by decide)]
    exact h.ready
  · intro i hi hlt
    rw [hwrite]
    split
    · show BitVec.ofNat 8 (0 / _) = 0
      rw [Nat.zero_div]
      rfl
    · exact h.padding i hi hlt

theorem write_python_of_le {v : BitVec 32} {i : ℕ} (hi : 27 ≤ i) :
    Side.python.write m f v i = m i := by
  have hend : Side.python.layout.offset f + Side.python.layout.size f ≤ 27 := by
    cases f <;> decide
  exact store_of_not_mem (.inr (by omega))

theorem started_of_le {i : ℕ} (hi : 27 ≤ i) : sm.started m i = m i := by
  have hstores : ∀ fs m, sm.headerStores fs m i = m i := by
    intro fs
    induction fs with
    | nil => exact fun _ => rfl
    | cons f fs ih => exact fun m => (ih _).trans (write_python_of_le hi)
  exact (write_python_of_le hi).trans (hstores _ m)

theorem blocked_started (hm : ∀ i, 28 ≤ i → i < 36 → m i = 0) : Blocked (sm.started m) := by
  refine ⟨?_, ?_, ?_⟩
  · apply python_input_eq_zero.mp
    apply (read_flag_eq_zero_iff rfl).mp
    exact SharedMemoryManager.read_started (by decide)
  · intro hzero
    have hread := (read_flag_eq_zero_iff rfl).mpr (python_ready_eq_zero.mpr hzero)
    rw [SharedMemoryManager.started, Side.read_write_self] at hread
    cases hread
  · intro i hi hlt
    rw [started_of_le (by omega)]
    exact hm i hi hlt

end Flags

section Runs

variable {model : Model} {s s' : State sm} {a : Exchange.Turn (CallbackAct sm)}

theorem stuckInv_init {m : Memory} (hm : ∀ i, 28 ≤ i → i < 36 → m i = 0) (outs : Block sm) :
    StuckInv (State.init (sm.started m) outs) where
  memory := blocked_started hm
  polling := rfl
  inferred := rfl
  fill := rfl
  copyIdle := rfl
  copied := rfl

theorem StuckInv.stuck (h : StuckInv s) : Stuck s where
  inputTaken := h.memory.cpp_input
  nothingAnnounced := h.memory.cpp_output
  notReady := h.memory.cpp_ready
  polling := h.polling
  published := by rw [h.fill]
  inferred := h.inferred
  copied := h.copied

/-- Of all steps only loads are enabled, and stores of False to `is_output_ready`. -/
theorem stuckInv_step (h : StuckInv s) (hs : step model .cpp s a = some s')
    (ha : a ≠ .cpp (.storeOutputReady true)) : StuckInv s' := by
  obtain ⟨m, w, ⟨fill, copy⟩⟩ := s
  obtain rfl : fill = ⟨.idle, []⟩ := h.fill
  cases a with
  | worker =>
      obtain ⟨r, hr, rfl⟩ := Option.map_eq_some_iff.mp hs
      have hpoll : w.pc = .poll := h.polling
      have hflag : flag .isInputReady m = false := h.memory.worker_input
      simp only [workerStep, hpoll, hflag, Bool.false_eq_true, if_false, Option.some.injEq] at hr
      obtain rfl := hr
      exact h
  | cpp a =>
      obtain ⟨r, hr, rfl⟩ := Option.map_eq_some_iff.mp hs
      cases a with
      | fill a =>
          obtain ⟨r', hr', rfl⟩ := Option.map_eq_some_iff.mp hr
          cases a with
          | load b =>
              have hread : Side.cpp.read m .isInputReady ≠ 0 := h.memory.cpp_input
              simp only [fillStep, if_neg hread, Option.some.injEq] at hr'
              obtain rfl := hr'
              exact h
          | writeSample ch i => cases hr'
          | publish => cases hr'
      | copy a =>
          obtain ⟨r', hr', rfl⟩ := Option.map_eq_some_iff.mp hr
          have hidle : copy.pc = .idle := h.copyIdle
          cases a with
          | load =>
              have hread : Side.cpp.read m .isOutputReady = 0 := h.memory.cpp_output
              simp only [copyStep, hidle, if_pos hread, Option.some.injEq] at hr'
              obtain rfl := hr'
              exact h
          | copySample ch i => simp [copyStep, hidle] at hr'
          | clear => simp [copyStep, hidle] at hr'
      | storeOutputReady v =>
          cases v with
          | true => exact absurd rfl ha
          | false =>
              obtain rfl := Option.some.inj hr
              exact { h with memory := h.memory.clearOutput }

end Runs

/-- Under the planned header a C++ side that stores at most False to
`is_output_ready` never gets a block through: in every run from a section whose
padding is zero, as in a new one, it sees the input slot taken, no result
announced and the worker not ready, and nothing is published, inferred or
copied. -/
theorem planned_layout_stuck (model : Model) (m : Memory)
    (hm : ∀ i, 28 ≤ i → i < 36 → m i = 0) (outs : Block sm)
    (acts : List (Exchange.Turn (CallbackAct sm)))
    (hacts : ∀ a ∈ acts, a ≠ .cpp (.storeOutputReady true)) :
    Runs.Along (step model .cpp) Stuck (State.init (sm.started m) outs) acts := by
  have hinit : StuckInv (State.init (sm.started m) outs) := stuckInv_init hm outs
  refine ⟨hinit.stuck, ?_⟩
  exact Runs.EachStep.imp (I := StuckInv) (G := fun _ a _ => a ≠ .cpp (.storeOutputReady true))
    (fun s a s' h hs ha => stuckInv_step h hs ha)
    (fun s a s' h hs ha => (stuckInv_step h hs ha).stuck) hinit
    (Runs.EachStep.of_forall fun a ha _ _ => hacts a ha)

/-- In a new section of one channel of two samples, both sides polling. -/
theorem planned_layout_stuck_new :
    Runs.Along (step (fun t => some t) .cpp) Stuck
      (State.init (twoSamples.started fun _ => 0) (fun _ _ => 0) : State twoSamples)
      [.cpp (.fill (.load fun _ _ => 5)), .worker, .cpp (.copy .load),
        .cpp (.storeOutputReady false), .worker] := by
  apply planned_layout_stuck _ _ (fun _ _ _ => rfl)
  intro a ha
  simp only [List.mem_cons, List.not_mem_nil, or_false] at ha
  rcases ha with rfl | rfl | rfl | rfl | rfl <;> nofun

end MabTilde.Samples

import MabTilde.Exchange.Atomicity

/-!
The output slot sample by sample.

A copy of the output buffer takes as many steps as the block has samples, and
so does the row the worker writes; a guard on single stores has to keep the two
apart. It is the same one as for rows: whatever the worker stores into the output
slot, it stores while `is_output_ready` is False. What the callback then copies
is a prefix of the results, no block being made of samples of two.
-/

namespace MabTilde.Samples

open Bytes

variable {sm : SharedMemoryManager}

/-- The next step of the worker belongs to a store into the output slot. -/
def WorkerPc.storesOutput {C B : ℕ} : WorkerPc C B → Bool
  | .storeSample _ _ _ _ | .setOutputReady => true
  | _ => false

/-- The worker stores into the output slot only while `is_output_ready` is False,
and the C++ side stores False only after a copy. -/
def SlotFree (s : State sm) : Exchange.Turn (CallbackAct sm) → Bool
  | .worker => !s.worker.pc.storesOutput || !flag .isOutputReady s.memory
  | .cpp (.storeOutputReady _) => false
  | .cpp _ => true

def fitted (row : Row sm) (outputBlock : Tensor) : Row sm :=
  overlay ((assigned sm.blockSize.toNat outputBlock).getD []) row

section Worker

variable {model : Model} {infer : Row sm → Tensor} {mem mem' : Memory}
  {w w' : Worker sm.numChannels.toNat sm.blockSize.toNat}
  {m : Exchange.Shared sm.numChannels.toNat (Row sm)} {p : FillSide sm}
  {q : Exchange.InputSide sm.numChannels.toNat (Row sm)}

def OutputInferred (infer : Row sm → Tensor)
    (w : Worker sm.numChannels.toNat sm.blockSize.toNat) : Prop :=
  ∀ ch y, (coarse w).pc = .writeRow ch y → ∃ x, y = infer x

theorem outputInferred_loopFrom {n : ℕ} {rows : List (Row sm)}
    {inferred : List (List (Row sm))} :
    OutputInferred infer ⟨loopFrom _ _ n, rows, inferred⟩ := by
  intro ch y hpc
  rw [coarse_loopFrom] at hpc
  unfold Exchange.loopFrom at hpc
  split at hpc <;> cases hpc

theorem outputInferred_worker
    (hinfer : ∀ x, inferBlock model (NdArray.ofRow (List.ofFn x)) = some (infer x))
    (h : OutputInferred infer w) (hs : workerStep sm model w mem = some (w', mem')) :
    OutputInferred infer w' := by
  cases workerStep_cases hs with
  | wait | assigns | storeSample => exact h
  | begin | rowStored => exact outputInferred_loopFrom
  | @infers _ x y _ _ hy =>
      obtain rfl : infer x = y := Option.some.inj ((hinfer x).symm.trans hy)
      rintro _ _ ⟨⟩
      exact ⟨x, rfl⟩
  | _ => rintro _ _ ⟨⟩

/-- Where the model never raises and its outputs fit, the row-level worker is the
one that never raises. -/
theorem workerStep_total
    (hinfer : ∀ x, inferBlock model (NdArray.ofRow (List.ofFn x)) = some (infer x))
    (hfits : ∀ x, (assigned sm.blockSize.toNat (infer x)).isSome) (h : OutputInferred infer w) :
    Exchange.workerStep (rowBackend sm model) (coarse w) m =
      Exchange.workerStep (Exchange.Backend.total infer fitted) (coarse w) m := by
  have hrow : ∀ ch y, (coarse w).pc = .writeRow ch y → ∀ row : Row sm,
      (rowBackend sm model).writeBack row y = some (fitted row y) := by
    intro ch y hpc row
    obtain ⟨x, rfl⟩ := h ch y hpc
    obtain ⟨new, hnew⟩ := Option.isSome_iff_exists.mp (hfits x)
    simp only [rowBackend, fitted, hnew, Option.map_some, Option.getD_some]
  unfold Exchange.workerStep
  cases hpc : (coarse w).pc with
  | infer ch x => simp only [rowBackend, Exchange.Backend.total, hinfer]
  | writeRow ch y => simp only [hrow ch y hpc, Exchange.Backend.total]
  | poll => rfl
  | readRow ch => rfl
  | setOutputReady => rfl
  | clearInputReady => rfl
  | raised => rfl

theorem half_stored (h : Agrees mem w p m q) (hs : workerStep sm model w mem = some (w', mem'))
    (hfree : w.pc.storesOutput = true → flag .isOutputReady mem = false)
    {ch : Fin sm.numChannels.toNat} {y : Tensor} {new : List Sample} {i : ℕ}
    (hpc : w'.pc = .storeSample ch y new i) (hi : 0 < i) :
    flag .isOutputReady mem' = false := by
  have hloop : ∀ n, loopFrom sm.numChannels.toNat sm.blockSize.toNat n ≠
      .storeSample ch y new i := by
    intro n
    unfold loopFrom
    split <;> simp
  cases workerStep_cases hs with
  | @storeSample ch' _ _ i' _ _ _ hv =>
      exact (flag_storeSample (inViews .output ch' ⟨i', h.index_lt hv⟩)).trans (hfree rfl)
  | begin | rowStored => exact absurd hpc (hloop _)
  | assigns =>
      cases hpc
      exact absurd hi (Nat.lt_irrefl 0)
  | _ => cases hpc

/-- A step that counts as one above and belongs to a store into the output slot
there does so here: the copy of a row counts with its end. -/
theorem storesOutput_of_coarse (hfits : ∀ x, (assigned sm.blockSize.toNat (infer x)).isSome)
    (h : OutputInferred infer w) (hs : workerStep sm model w mem = some (w', mem'))
    {m' : Exchange.Shared sm.numChannels.toNat (Row sm)}
    (hm : Exchange.workerStep (Exchange.Backend.total infer fitted) (coarse w) m =
      some (coarse w', m'))
    (hst : (coarse w).pc.storesOutput = true) : w.pc.storesOutput = true := by
  obtain ⟨pc, rows, inferred⟩ := w
  cases pc with
  | assign ch y =>
      obtain ⟨x, rfl⟩ := h ch y rfl
      obtain ⟨new, hnew⟩ := Option.isSome_iff_exists.mp (hfits x)
      simp only [workerStep, hnew] at hs
      cases hs
      simp only [coarse, coarsePc, Exchange.workerStep, Exchange.Backend.total, Option.some.injEq,
        Prod.mk.injEq, Exchange.Worker.mk.injEq] at hm
      obtain ⟨⟨hpc, -⟩, -⟩ := hm
      unfold Exchange.loopFrom at hpc
      split at hpc <;> cases hpc
  | storeSample ch y new i => rfl
  | setOutputReady => rfl
  | poll => cases hst
  | readSample ch i x => cases hst
  | infer ch x => cases hst
  | clearInputReady => cases hst
  | raised => cases hst

theorem worker_output (hs : workerStep sm model w mem = some (w', mem'))
    (hst : w.pc.storesOutput = false) : block sm .output mem' = block sm .output mem := by
  cases workerStep_cases hs with
  | storeSample | rowStored | setOutputReady => cases hst
  | clearInputReady => exact block_write
  | _ => rfl

end Worker

/-! ### The copying half -/

section Copy

variable {mem mem' : Memory} {w : Worker sm.numChannels.toNat sm.blockSize.toNat}
  {m : Exchange.Shared sm.numChannels.toNat (Row sm)} {p : FillSide sm}
  {q : Exchange.InputSide sm.numChannels.toNat (Row sm)} {c c' : CopySide sm}
  {d : Exchange.OutputSide sm.numChannels.toNat (Row sm)}

theorem copying_copySample {got : Finset (Fin sm.numChannels.toNat × Fin sm.blockSize.toNat)}
    {outs output : Block sm} (h : ∀ e ∈ got, outs e.1 e.2 = output e.1 e.2)
    (ch : Fin sm.numChannels.toNat) (i : Fin sm.blockSize.toNat) :
    ∀ e ∈ insert (ch, i) got,
      Function.update outs ch (Function.update (outs ch) i (output ch i)) e.1 e.2 =
        output e.1 e.2 := by
  rintro ⟨ch', i'⟩ he
  by_cases hch : ch' = ch
  · subst hch
    rw [Function.update_self]
    by_cases hi : i' = i
    · subst hi
      rw [Function.update_self]
    · rw [Function.update_of_ne hi]
      apply h (ch', i')
      exact (Finset.mem_insert.mp he).resolve_left fun heq => hi (congrArg Prod.snd heq)
  · rw [Function.update_of_ne hch]
    apply h (ch', i')
    exact (Finset.mem_insert.mp he).resolve_left fun heq => hch (congrArg Prod.fst heq)

/-- A step of the copying half is a run of it where rows are atomic. While it
copies the worker has no row in the making. -/
theorem copy_simulated {a : CopyAct sm} (h : Agrees mem w p m q) (hcopy : Copying c d m.output)
    (hcopied : d.copied = c.copied) (hidle : d.pc ≠ .idle → block sm .output mem = m.output)
    (hs : copyStep .python c a mem = some (c', mem')) :
    ∃ as d' m', Runs.exec outputRun (d, m) as = some (d', m') ∧ Agrees mem' w p m' q ∧
      Copying c' d' m'.output ∧ d'.copied = c'.copied := by
  obtain ⟨pc, outs, copied⟩ := c
  obtain rfl : d.copied = copied := hcopied
  cases pc with
  | idle =>
      have hd : d.pc = .idle := hcopy
      cases a with
      | load =>
          simp only [copyStep] at hs
          split at hs <;> cases hs
          · exact ⟨[], d, m, rfl, h, hd, rfl⟩
          · rename_i hread
            have hflag : m.isOutputReady = true := by
              rw [h.outputReady, flag]
              exact decide_eq_true hread
            refine ⟨[.load], { d with pc := .copying ∅ }, m, ?_, h, ⟨rfl, by simp⟩, rfl⟩
            simp [Runs.exec_cons, outputRun, Exchange.outputStep, hd, hflag]
      | copySample ch i => simp [copyStep] at hs
      | clear => simp [copyStep] at hs
  | copying got =>
      obtain ⟨hd, hgot⟩ : d.pc = .copying ∅ ∧ ∀ e ∈ got, outs e.1 e.2 = m.output e.1 e.2 := hcopy
      have hout := hidle (by simp [hd])
      cases a with
      | load => simp [copyStep] at hs
      | copySample ch i =>
          simp only [copyStep, Option.some.injEq, Prod.mk.injEq] at hs
          obtain ⟨rfl, rfl⟩ := hs
          have hsample : loadSample sm ⟨.output, ch, i⟩ mem = m.output ch i :=
            congrFun (congrFun hout ch) i
          refine ⟨[], d, m, rfl, h, ⟨hd, ?_⟩, rfl⟩
          show ∀ e ∈ insert (ch, i) got,
            Function.update outs ch (Function.update (outs ch) i (loadSample sm _ mem)) e.1 e.2 = _
          rw [hsample]
          exact copying_copySample hgot ch i
      | clear =>
          simp only [copyStep] at hs
          split at hs <;> cases hs
          rename_i hall
          have houts : outs = m.output := by
            funext ch i
            exact hgot (ch, i) (hall ▸ Finset.mem_univ _)
          refine ⟨_, _, _, exec_copyBlock hd m, h.storeOutputReady false, rfl, ?_⟩
          rw [houts]

theorem callback_output {f f' : Callback sm} {a : CallbackAct sm}
    (hs : callbackStep .python f a mem = some (f', mem')) :
    block sm .output mem' = block sm .output mem := by
  rcases callbackStep_memory hs with rfl | ⟨ch, i, v, rfl⟩ | ⟨f, v, -, rfl⟩
  · rfl
  · exact block_storeSample_of_ne output_ne_input
  · exact block_write

end Copy

/-! ### Both slots -/

section Slots

variable {model : Model} {infer : Row sm → Tensor} {o : Block sm} {s s' : State sm}
  {t t' : Exchange.State sm.numChannels.toNat (Row sm) Tensor
    (Exchange.Callback sm.numChannels.toNat (Row sm))}

/-- The sample-level exchange against the row-level one of both slots. -/
structure SlotsAgree (infer : Row sm → Tensor) (s : State sm)
    (t : Exchange.State sm.numChannels.toNat (Row sm) Tensor
      (Exchange.Callback sm.numChannels.toNat (Row sm))) : Prop where
  worker : t.worker = coarse s.worker
  agrees : Agrees s.memory s.worker s.cpp.fill t.shared t.cpp.inp
  copying : Copying s.cpp.copy t.cpp.out t.shared.output
  copied : t.cpp.out.copied = s.cpp.copy.copied
  inferred : OutputInferred infer s.worker
  /-- With part of a row stored, `is_output_ready` is still False. -/
  half : ∀ ch y new i, s.worker.pc = .storeSample ch y new i → 0 < i →
    flag .isOutputReady s.memory = false

theorem Copying.congr {c : CopySide sm}
    {d : Exchange.OutputSide sm.numChannels.toNat (Row sm)} {output output' : Block sm}
    (h : Copying c d output) (hout : d.pc ≠ .idle → output' = output) :
    Copying c d output' := by
  obtain ⟨pc, outs, copied⟩ := c
  cases pc with
  | idle => exact h
  | copying got =>
      have hd : d.pc = .copying ∅ := h.1
      rw [hout (by simp [hd])]
      exact h

theorem output_of_copying (hI : Exchange.SlotInv infer fitted o t) (hR : SlotsAgree infer s t)
    (hd : t.cpp.out.pc ≠ .idle) :
    t.shared.isOutputReady = true ∧ block sm .output s.memory = t.shared.output := by
  obtain ⟨announced, -, hcopy⟩ := hI.output
  rcases hcopy with ⟨-, hidle, -⟩ | ⟨hflag, -⟩
  · exact absurd hidle hd
  · refine ⟨hflag, ?_⟩
    have hstoring := hR.agrees.output
    unfold Storing at hstoring
    split at hstoring
    · rename_i ch y new i hpc
      obtain ⟨-, -, hout⟩ := hstoring
      have hzero : i = 0 := by
        by_contra hne
        have hfalse := hR.half ch y new i hpc (Nat.pos_of_ne_zero hne)
        rw [hR.agrees.outputReady, hfalse] at hflag
        cases hflag
      rw [hout, hzero, List.take_zero, overlay_nil, Function.update_eq_self]
    · exact hstoring

theorem slots_worker
    (hinfer : ∀ x, inferBlock model (NdArray.ofRow (List.ofFn x)) = some (infer x))
    (hfits : ∀ x, (assigned sm.blockSize.toNat (infer x)).isSome)
    (hI : Exchange.SlotInv infer fitted o t) (hR : SlotsAgree infer s t)
    {w' : Worker sm.numChannels.toNat sm.blockSize.toNat} {mem' : Memory}
    (hs : workerStep sm model s.worker s.memory = some (w', mem'))
    (hfree : s.worker.pc.storesOutput = true → flag .isOutputReady s.memory = false) :
    ∃ bs t', Runs.exec (Exchange.step (Exchange.Backend.total infer fitted)
        Exchange.callbackStep) t bs = some t' ∧
      Runs.EachStep (Exchange.step (Exchange.Backend.total infer fitted) Exchange.callbackStep)
        (fun t b _ => Exchange.SlotFree t b = true) t bs ∧
      SlotsAgree infer { s with worker := w', memory := mem' } t' := by
  have hinput := hI.input
  rw [hR.worker] at hinput
  have hinferred := outputInferred_worker hinfer hR.inferred hs
  have hhalf : ∀ ch y new i, w'.pc = .storeSample ch y new i → 0 < i →
      flag .isOutputReady mem' = false := fun _ _ _ _ => half_stored hR.agrees hs hfree
  rcases worker_simulated hR.agrees hinput hs with ⟨hsame, h'⟩ | ⟨m', hm', h'⟩
  · exact ⟨[], t, rfl, True.intro, hR.worker.trans hsame.symm, h', hR.copying, hR.copied,
      hinferred, hhalf⟩
  · rw [workerStep_total hinfer hfits hR.inferred] at hm'
    have hfree' : (coarse s.worker).pc.storesOutput = true → t.shared.isOutputReady = false := by
      intro hst
      rw [hR.agrees.outputReady]
      exact hfree (storesOutput_of_coarse hfits hR.inferred hs hm' hst)
    rw [← hR.worker] at hm' hfree'
    have hstep : Exchange.step (Exchange.Backend.total infer fitted) Exchange.callbackStep t
        .worker = some { t with worker := coarse w', shared := m' } :=
      Exchange.step_worker_eq_some.mpr ⟨_, _, hm', rfl⟩
    refine ⟨[.worker], _, Runs.exec_cons_of_step hstep, ?_, rfl, h', ?_, hR.copied, hinferred,
      hhalf⟩
    · refine fun t'' _ => ⟨?_, True.intro⟩
      show (!t.worker.pc.storesOutput || !t.shared.isOutputReady) = true
      cases hst : t.worker.pc.storesOutput with
      | false => rfl
      | true => simp [hfree' hst]
    · -- while a copy is on the flag is True, and the step stores nothing
      apply hR.copying.congr
      intro hd
      apply Exchange.output_eq_of_not_stores hm'
      cases hst : t.worker.pc.storesOutput with
      | false => rfl
      | true =>
          have hflag := (output_of_copying hI hR hd).1
          exact absurd hflag (by simp [hfree' hst])

theorem exec_callback_input
    (as : List (Exchange.InputAct sm.numChannels.toNat (Row sm))) :
    Runs.exec (Exchange.step (Exchange.Backend.total infer fitted) Exchange.callbackStep) t
        (as.map fun a => .cpp (.input a)) =
      (Runs.exec inputRun (t.cpp.inp, t.shared) as).map fun x =>
        { t with cpp := { t.cpp with inp := x.1 }, shared := x.2 } :=
  Runs.exec_embed (fun x => { t with cpp := { t.cpp with inp := x.1 }, shared := x.2 })
    (fun a => Exchange.Turn.cpp (Exchange.CallbackAct.input a)) (fun x b => by
      show ((Exchange.inputStep x.1 b x.2).map _).map _ = (Exchange.inputStep x.1 b x.2).map _
      rw [Option.map_map]
      rfl) (t.cpp.inp, t.shared) as

theorem exec_callback_output (as : List (Exchange.OutputAct sm.numChannels.toNat)) :
    Runs.exec (Exchange.step (Exchange.Backend.total infer fitted) Exchange.callbackStep) t
        (as.map fun a => .cpp (.output a)) =
      (Runs.exec outputRun (t.cpp.out, t.shared) as).map fun x =>
        { t with cpp := { t.cpp with out := x.1 }, shared := x.2 } :=
  Runs.exec_embed (fun x => { t with cpp := { t.cpp with out := x.1 }, shared := x.2 })
    (fun a => Exchange.Turn.cpp (Exchange.CallbackAct.output a)) (fun x b => by
      show ((Exchange.outputStep x.1 b x.2).map _).map _ = (Exchange.outputStep x.1 b x.2).map _
      rw [Option.map_map]
      rfl) (t.cpp.out, t.shared) as

theorem slotFree_cpp {A : Type} (f : A → Exchange.CallbackAct sm.numChannels.toNat (Row sm))
    (as : List A) :
    Runs.EachStep (Exchange.step (Exchange.Backend.total infer fitted) Exchange.callbackStep)
      (fun t b _ => Exchange.SlotFree t b = true) t (as.map fun a => .cpp (f a)) := by
  apply Runs.EachStep.of_forall
  intro b hb _ _
  obtain ⟨a, -, rfl⟩ := List.mem_map.mp hb
  rfl

/-- Under the guard the sample-level exchange refines the row-level one, guard
and all. -/
theorem slots_refine
    (hinfer : ∀ x, inferBlock model (NdArray.ofRow (List.ofFn x)) = some (infer x))
    (hfits : ∀ x, (assigned sm.blockSize.toNat (infer x)).isSome) :
    Runs.Refines (step model .python) (fun s a _ => SlotFree s a = true)
      (Exchange.step (Exchange.Backend.total infer fitted) Exchange.callbackStep)
      (fun t b _ => Exchange.SlotFree t b = true) (Exchange.SlotInv infer fitted o)
      (SlotsAgree infer) where
  keeps t b t' hI hb hfree := Exchange.slotInv_step hI hb hfree
  simulates s t a s' hI hR hs hfree := by
    cases a with
    | worker =>
        obtain ⟨r, hr, rfl⟩ := Option.map_eq_some_iff.mp hs
        apply slots_worker hinfer hfits hI hR hr
        intro hst
        simpa [SlotFree, hst] using hfree
    | cpp a =>
        obtain ⟨r, hr, rfl⟩ := Option.map_eq_some_iff.mp hs
        cases a with
        | fill a =>
            obtain ⟨r', hr', rfl⟩ := Option.map_eq_some_iff.mp hr
            have hinput := hI.input
            rw [hR.worker] at hinput
            obtain ⟨as, q', m', hexec, h', hout, hready⟩ := fill_simulated hR.agrees hinput hr'
            refine ⟨as.map fun a => .cpp (.input a),
              { t with cpp := { t.cpp with inp := q' }, shared := m' }, ?_, slotFree_cpp _ _,
              hR.worker, h', hR.copying.congr fun _ => hout, hR.copied, hR.inferred, ?_⟩
            · rw [exec_callback_input, hexec, Option.map_some]
            · intro ch y new i hpc hi
              rw [← h'.outputReady, hready, hR.agrees.outputReady]
              exact hR.half ch y new i hpc hi
        | copy a =>
            obtain ⟨r', hr', rfl⟩ := Option.map_eq_some_iff.mp hr
            obtain ⟨as, d', m', hexec, h', hcopying, hcopied⟩ := copy_simulated hR.agrees
              hR.copying hR.copied (fun hd => (output_of_copying hI hR hd).2) hr'
            refine ⟨as.map fun a => .cpp (.output a),
              { t with cpp := { t.cpp with out := d' }, shared := m' }, ?_, slotFree_cpp _ _,
              hR.worker, h', hcopying, hcopied, hR.inferred, ?_⟩
            · rw [exec_callback_output, hexec, Option.map_some]
            · intro ch y new i hpc hi
              rcases copyStep_memory hr' with hmem | hmem
              · show flag .isOutputReady r'.2 = false
                rw [hmem]
                exact hR.half ch y new i hpc hi
              · show flag .isOutputReady r'.2 = false
                rw [hmem, flag_write_self]
                rfl
        | storeOutputReady v => cases hfree

/-- What a step does to the output slot, seen sample by sample: an announced block
keeps every sample until its flag is cleared, and the blocks copied are a prefix
of the results. -/
structure Kept (infer : Row sm → Tensor) (o : Block sm) (s s' : State sm) : Prop where
  unchanged : flag .isOutputReady s.memory = true →
    block sm .output s'.memory = block sm .output s.memory
  inOrder : s'.cpp.copy.copied <+: Exchange.results infer fitted o s'.cpp.fill.published

theorem output_unchanged {a : Exchange.Turn (CallbackAct sm)}
    (hs : step model .python s a = some s') (hfree : SlotFree s a = true)
    (hready : flag .isOutputReady s.memory = true) :
    block sm .output s'.memory = block sm .output s.memory := by
  cases a with
  | worker =>
      obtain ⟨r, hr, rfl⟩ := Option.map_eq_some_iff.mp hs
      exact worker_output hr (by simpa [SlotFree, hready] using hfree)
  | cpp a =>
      obtain ⟨r, hr, rfl⟩ := Option.map_eq_some_iff.mp hs
      exact callback_output hr

theorem block_started {b : AudioBuffer} (m : Memory) :
    block sm b (sm.started m) = block sm b m := by
  have hstores : ∀ fs m, block sm b (sm.headerStores fs m) = block sm b m := by
    intro fs
    induction fs with
    | nil => exact fun _ => rfl
    | cons f fs ih => exact fun m => (ih _).trans block_write
  exact block_write.trans (hstores _ m)

theorem slotsAgree_init (m : Memory) (outs : Block sm) :
    SlotsAgree infer (State.init (sm.started m) outs)
      (Exchange.callbackInit (block sm .input (sm.started m)) (block sm .output m) outs) where
  worker := rfl
  agrees := block_started (b := .output) m ▸ (agrees_init m outs).agrees
  copying := rfl
  copied := rfl
  inferred := nofun
  half := nofun

end Slots

/-- As long as every store of the worker into the output slot, be it of one
sample, finds `is_output_ready` False, no announced sample changes before the
flag is cleared and the blocks copied are, in order and whole, those of the
results: however the loads and stores of samples interleave. -/
theorem samples_copied_in_order (model : Model) (infer : Row sm → Tensor)
    (hinfer : ∀ x, inferBlock model (NdArray.ofRow (List.ofFn x)) = some (infer x))
    (hfits : ∀ x, (assigned sm.blockSize.toNat (infer x)).isSome) (m : Memory) (outs : Block sm)
    (acts : List (Exchange.Turn (CallbackAct sm)))
    (hfree : Runs.EachStep (step model .python) (fun s a _ => SlotFree s a = true)
      (State.init (sm.started m) outs) acts) :
    Runs.EachStep (step model .python) (fun s _ s' => Kept infer (block sm .output m) s s')
      (State.init (sm.started m) outs) acts := by
  refine (slots_refine hinfer hfits).eachStep ?_
    (Exchange.slotInv_init (block sm .input (sm.started m)) (block sm .output m) outs)
    (slotsAgree_init m outs) hfree
  intro s t a s' t' hI hI' hR hR' hs hguard
  refine ⟨output_unchanged hs hguard, ?_⟩
  rw [← hR'.copied, ← hR'.agrees.published]
  exact hI'.inOrder

/-! Two blocks of two samples through a model that returns what it is given. -/

def publishSamples (v v' : Sample) : List (Exchange.Turn (CallbackAct twoSamples)) :=
  let ch : Fin twoSamples.numChannels.toNat := ⟨0, Nat.one_pos⟩
  [.cpp (.fill (.load fun _ i => if (i : ℕ) = 0 then v else v')),
    .cpp (.fill (.writeSample ch ⟨1, Nat.one_lt_two⟩)),
    .cpp (.fill (.writeSample ch ⟨0, Nat.two_pos⟩)), .cpp (.fill .publish)]

def serveSamples : List (Exchange.Turn (CallbackAct twoSamples)) := List.replicate 11 .worker

def copySamples : List (Exchange.Turn (CallbackAct twoSamples)) :=
  let ch : Fin twoSamples.numChannels.toNat := ⟨0, Nat.one_pos⟩
  [.cpp (.copy .load), .cpp (.copy (.copySample ch ⟨0, Nat.two_pos⟩)),
    .cpp (.copy (.copySample ch ⟨1, Nat.one_lt_two⟩)), .cpp (.copy .clear)]

theorem samples_copied_in_order_two :
    Runs.EachStep (step (fun t => some t) .python)
      (fun s _ s' => Kept (fun x => NdArray.ofRow (List.ofFn x))
        (block twoSamples .output fun _ => 0) s s')
      (State.init (twoSamples.started fun _ => 0) fun _ _ => 0)
      (publishSamples 1 2 ++ serveSamples ++ copySamples ++ publishSamples 3 4 ++ serveSamples ++
        copySamples) :=
  samples_copied_in_order (fun t => some t) (fun x => NdArray.ofRow (List.ofFn x))
    (fun _ => rfl) (fun x => by rw [assigned_ofRow]; rfl) _ _ _
    (Runs.eachStep_of_check (by decide +kernel))

end MabTilde.Samples

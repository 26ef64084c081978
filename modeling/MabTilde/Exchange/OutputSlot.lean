import MabTilde.Exchange.InputSlot
import MabTilde.Exchange.Results

/-!
The output slot under the two rules of the planned audio callback.

The C++ side fills the input slot as in `InputSlot`; independently it copies
the output buffer after loading `is_output_ready = True` and stores False once
all rows are copied. The worker never loads `is_output_ready`, so it may
overwrite a result nobody has copied. As long as it does not, that is as long
as each of its stores into the output slot finds the flag False, the slot hands
over every result once and in order (`output_slot_kept`).
-/

namespace MabTilde.Exchange

inductive OutputPc (C : ℕ)
  | idle
  | copying (got : Finset (Fin C))

structure OutputSide (C : ℕ) (Row : Type) where
  pc : OutputPc C
  outs : Block C Row
  copied : List (Block C Row)

inductive OutputAct (C : ℕ)
  /-- Load `is_output_ready`, and go on to copy if it is True. -/
  | load
  | copyRow (ch : Fin C)
  /-- Store `is_output_ready = False`. -/
  | clear

variable {C : ℕ} {Row Out : Type}

def outputStep (p : OutputSide C Row) (a : OutputAct C) (m : Shared C Row) :
    Option (OutputSide C Row × Shared C Row) :=
  match p.pc, a with
  | .idle, .load =>
      if m.isOutputReady then some ({ p with pc := .copying ∅ }, m) else some (p, m)
  | .copying got, .copyRow ch =>
      some ({ p with pc := .copying (insert ch got),
                     outs := Function.update p.outs ch (m.output ch) }, m)
  | .copying got, .clear =>
      if got = Finset.univ then
        some ({ p with pc := .idle, copied := p.copied ++ [p.outs] },
          { m with isOutputReady := false })
      else none
  | _, _ => none

/-- The two halves of the callback, free to run at unrelated speeds. -/
structure Callback (C : ℕ) (Row : Type) where
  inp : InputSide C Row
  out : OutputSide C Row

inductive CallbackAct (C : ℕ) (Row : Type)
  | input (a : InputAct C Row)
  | output (a : OutputAct C)

def callbackStep (p : Callback C Row) (a : CallbackAct C Row) (m : Shared C Row) :
    Option (Callback C Row × Shared C Row) :=
  match a with
  | .input a => (inputStep p.inp a m).map fun r => ({ p with inp := r.1 }, r.2)
  | .output a => (outputStep p.out a m).map fun r => ({ p with out := r.1 }, r.2)

def callbackInit (input output outs : Block C Row) : State C Row Out (Callback C Row) :=
  ⟨Shared.init input output, Worker.init, ⟨InputSide.init, ⟨.idle, outs, []⟩⟩⟩

/-- Each store of the worker into the output slot, a row or the flag, finds
`is_output_ready` False. -/
def SlotFree (s : State C Row Out (Callback C Row)) : Turn (CallbackAct C Row) → Bool
  | .worker => !s.worker.pc.storesOutput || !s.shared.isOutputReady
  | .cpp _ => true

section Statement

variable (infer : Row → Out) (write : Row → Out → Row)

/-- What a step does to the output slot: while `is_output_ready` is True no row
changes, and the blocks copied are a prefix of the results of those published. -/
structure SlotKept (o : Block C Row) (s s' : State C Row Out (Callback C Row)) : Prop where
  unchanged : s.shared.isOutputReady = true → s'.shared.output = s.shared.output
  inOrder : s'.cpp.out.copied <+: results infer write o s'.cpp.inp.published

/-! ### The invariant

`announced` are the blocks whose result the worker has announced: all of the
published ones, except the one it is serving. -/

def Announcing (o : Block C Row) (announced : List (Block C Row)) (m : Shared C Row)
    (w : Worker C Row Out) (published : List (Block C Row)) : Prop :=
  (announced = published ∧ m.output = bufferAfter infer write o announced ∧
      (m.isInputReady = true → w.pc = .clearInputReady)) ∨
    (m.isInputReady = true ∧ published = announced ++ [m.input] ∧
      Serving infer write w m.output (bufferAfter infer write o announced) m.input)

def Copying (o : Block C Row) (announced : List (Block C Row)) (m : Shared C Row)
    (p : OutputSide C Row) : Prop :=
  (m.isOutputReady = false ∧ p.pc = .idle ∧ p.copied = results infer write o announced) ∨
    (m.isOutputReady = true ∧ m.output = bufferAfter infer write o announced ∧
      (∃ before b, announced = before ++ [b] ∧ p.copied = results infer write o before) ∧
      ∀ got, p.pc = .copying got → ∀ ch ∈ got, p.outs ch = m.output ch)

structure SlotInv (o : Block C Row) (s : State C Row Out (Callback C Row)) : Prop where
  input : InputInv s.shared s.worker s.cpp.inp
  output : ∃ announced, Announcing infer write o announced s.shared s.worker s.cpp.inp.published ∧
    Copying infer write o announced s.shared s.cpp.out

end Statement

section Preservation

variable {infer : Row → Out} {write : Row → Out → Row} {o : Block C Row}
  {s s' : State C Row Out (Callback C Row)}

theorem slotInv_init (input output outs : Block C Row) :
    SlotInv infer write output
      (callbackInit input output outs : State C Row Out (Callback C Row)) where
  input := inputInv_init input output
  output := ⟨[], .inl ⟨rfl, rfl, fun h => by simp [callbackInit, Shared.init] at h⟩,
    .inl ⟨rfl, rfl, rfl⟩⟩

theorem slotInv_worker (h : SlotInv infer write o s) (hfree : SlotFree s .worker = true)
    {w : Worker C Row Out} {m : Shared C Row}
    (hs : workerStep (Backend.total infer write) s.worker s.shared = some (w, m)) :
    SlotInv infer write o { s with worker := w, shared := m } where
  input := inputInv_worker h.input hs
  output := by
    obtain ⟨announced, hann, hcopy⟩ := h.output
    rcases hann with ⟨rfl, hbuf, hclear⟩ | ⟨hflag, hpub, hsv⟩
    · -- nothing to serve: the worker polls in vain or gives the input buffer back
      have hsame : m.output = s.shared.output ∧ m.isOutputReady = s.shared.isOutputReady ∧
          m.isInputReady = false := by
        by_cases hflag : s.shared.isInputReady = true
        · simp only [workerStep, hclear hflag, Option.some.injEq, Prod.mk.injEq] at hs
          obtain ⟨rfl, rfl⟩ := hs
          exact ⟨rfl, rfl, rfl⟩
        · have hpoll : s.worker.pc = .poll := by
            by_contra hne
            exact hflag (h.input.busy hne)
          simp only [workerStep, hpoll, hflag, Bool.false_eq_true, if_false, Option.some.injEq,
            Prod.mk.injEq] at hs
          obtain ⟨rfl, rfl⟩ := hs
          exact ⟨rfl, rfl, by simpa using hflag⟩
      obtain ⟨hout, hready, hflag'⟩ := hsame
      refine ⟨s.cpp.inp.published, .inl ⟨rfl, hout.trans hbuf, by simp [hflag']⟩, ?_⟩
      simpa only [Copying, hout, hready] using hcopy
    · have hin := workerStep_input hs
      rcases serving_worker hflag rfl hsv hs with
        ⟨-, -, hflag', hready, hsv', hframe⟩ | ⟨hpc, hpc', rfl, hbuf⟩
      · refine ⟨announced, .inr ⟨hflag', by rw [hin]; exact hpub, by rw [hin]; exact hsv'⟩, ?_⟩
        rcases hcopy with ⟨hfalse, hidle, hcop⟩ | ⟨htrue, hrest⟩
        · exact .inl ⟨hready.trans hfalse, hidle, hcop⟩
        · have hst : s.worker.pc.storesOutput = false := by
            simpa [SlotFree, htrue] using hfree
          refine .inr ⟨hready.trans htrue, ?_⟩
          simpa only [hframe hst] using hrest
      · -- the announcement: by the guard the previous result has been copied
        have hfalse : s.shared.isOutputReady = false := by
          simpa [SlotFree, hpc, WorkerPc.storesOutput] using hfree
        have hdone : s.shared.output = bufferAfter infer write o s.cpp.inp.published := by
          rw [hpub, bufferAfter_append]
          exact hbuf
        rcases hcopy with ⟨-, hidle, hcop⟩ | ⟨htrue, -⟩
        · refine ⟨s.cpp.inp.published, .inl ⟨rfl, hdone, fun _ => hpc'⟩,
            .inr ⟨rfl, hdone, ⟨announced, _, hpub, hcop⟩, ?_⟩⟩
          intro got hgot
          rw [hidle] at hgot
          cases hgot
        · simp [hfalse] at htrue

theorem slotInv_input (h : SlotInv infer write o s) {a : InputAct C Row} {p : InputSide C Row}
    {m : Shared C Row} (hs : inputStep s.cpp.inp a s.shared = some (p, m)) :
    SlotInv infer write o { s with cpp := { s.cpp with inp := p }, shared := m } where
  input := inputInv_input h.input hs
  output := by
    obtain ⟨announced, hann, hcopy⟩ := h.output
    cases hpc : s.cpp.inp.pc with
    | idle =>
        cases a with
        | load b =>
            simp only [inputStep, hpc] at hs
            split at hs <;> cases hs <;> exact ⟨announced, hann, hcopy⟩
        | writeRow ch => simp [inputStep, hpc] at hs
        | publish => simp [inputStep, hpc] at hs
    | writing b written =>
        obtain ⟨hflag, hrows⟩ := h.input.writing b written hpc
        -- the flag is False, so everything published has been announced
        rcases hann with ⟨rfl, hbuf, hclear⟩ | ⟨htrue, -⟩
        · cases a with
          | load b' => simp [inputStep, hpc] at hs
          | writeRow ch =>
              simp only [inputStep, hpc, Option.some.injEq, Prod.mk.injEq] at hs
              obtain ⟨rfl, rfl⟩ := hs
              exact ⟨_, .inl ⟨rfl, hbuf, hclear⟩, hcopy⟩
          | publish =>
              simp only [inputStep, hpc] at hs
              split at hs <;> cases hs
              rename_i hall
              have hblock : s.shared.input = b :=
                funext fun ch => hrows ch (hall ▸ Finset.mem_univ ch)
              have hpoll : s.worker.pc = .poll := by
                by_contra hne
                simp [h.input.busy hne] at hflag
              refine ⟨_, .inr ⟨rfl, by rw [hblock], ?_⟩, hcopy⟩
              simp only [Serving, hpoll]
              exact hbuf
        · simp [hflag] at htrue

theorem slotInv_output (h : SlotInv infer write o s) {a : OutputAct C} {p : OutputSide C Row}
    {m : Shared C Row} (hs : outputStep s.cpp.out a s.shared = some (p, m)) :
    SlotInv infer write o { s with cpp := { s.cpp with out := p }, shared := m } := by
  obtain ⟨announced, hann, hcopy⟩ := h.output
  cases hpc : s.cpp.out.pc with
  | idle =>
      cases a with
      | load =>
          simp only [outputStep, hpc] at hs
          split at hs <;> cases hs
          · rename_i hready
            refine ⟨h.input, announced, hann, ?_⟩
            rcases hcopy with ⟨hfalse, -⟩ | ⟨-, hbuf, hcop, -⟩
            · simp [hready] at hfalse
            · refine .inr ⟨hready, hbuf, hcop, fun got hgot => ?_⟩
              cases hgot
              simp
          · exact h
      | copyRow ch => simp [outputStep, hpc] at hs
      | clear => simp [outputStep, hpc] at hs
  | copying got =>
      rcases hcopy with ⟨-, hidle, -⟩ | ⟨hready, hbuf, ⟨before, b, hsplit, hcop⟩, hrows⟩
      · rw [hpc] at hidle
        cases hidle
      · cases a with
        | load => simp [outputStep, hpc] at hs
        | copyRow ch =>
            simp only [outputStep, hpc, Option.some.injEq, Prod.mk.injEq] at hs
            obtain ⟨rfl, rfl⟩ := hs
            refine ⟨h.input, announced, hann,
              .inr ⟨hready, hbuf, ⟨before, b, hsplit, hcop⟩, fun got' hgot c hc => ?_⟩⟩
            cases hgot
            by_cases hcc : c = ch
            · subst hcc
              exact Function.update_self ..
            · rw [Finset.mem_insert, or_iff_right hcc] at hc
              simpa [Function.update_of_ne hcc] using hrows got hpc c hc
        | clear =>
            simp only [outputStep, hpc] at hs
            split at hs <;> cases hs
            rename_i hall
            have houts : s.cpp.out.outs = s.shared.output :=
              funext fun ch => hrows got hpc ch (hall ▸ Finset.mem_univ ch)
            refine ⟨h.input.congr rfl rfl, announced, hann, .inl ⟨rfl, rfl, ?_⟩⟩
            simp only [hcop, houts, hbuf, hsplit]
            exact (results_append infer write o b before).symm

theorem slotInv_step {t : Turn (CallbackAct C Row)} (h : SlotInv infer write o s)
    (hs : step (Backend.total infer write) callbackStep s t = some s')
    (hfree : SlotFree s t = true) : SlotInv infer write o s' := by
  cases t with
  | worker =>
      obtain ⟨w, m, hw, rfl⟩ := step_worker_eq_some.mp hs
      exact slotInv_worker h hfree hw
  | cpp a =>
      obtain ⟨p, m, hp, rfl⟩ := step_cpp_eq_some.mp hs
      cases a with
      | input a =>
          simp only [callbackStep, Option.map_eq_some_iff, Prod.exists, Prod.mk.injEq] at hp
          obtain ⟨p', m', hstep, rfl, rfl⟩ := hp
          exact slotInv_input h hstep
      | output a =>
          simp only [callbackStep, Option.map_eq_some_iff, Prod.exists, Prod.mk.injEq] at hp
          obtain ⟨p', m', hstep, rfl, rfl⟩ := hp
          exact slotInv_output h hstep

theorem SlotInv.inOrder (h : SlotInv infer write o s) :
    s.cpp.out.copied <+: results infer write o s.cpp.inp.published := by
  obtain ⟨announced, hann, hcopy⟩ := h.output
  have hpub : ∃ rest, s.cpp.inp.published = announced ++ rest := by
    rcases hann with ⟨rfl, -⟩ | ⟨-, hpub, -⟩
    · exact ⟨[], (List.append_nil _).symm⟩
    · exact ⟨_, hpub⟩
  have hpre : s.cpp.out.copied <+: results infer write o announced := by
    rcases hcopy with ⟨-, -, hcop⟩ | ⟨-, -, ⟨before, b, rfl, hcop⟩, -⟩
    · rw [hcop]
    · rw [hcop]
      exact prefix_results_append infer write o before [b]
  obtain ⟨rest, hrest⟩ := hpub
  rw [hrest]
  exact hpre.trans (prefix_results_append infer write o announced rest)

theorem callbackStep_output {p p' : Callback C Row} {a : CallbackAct C Row} {m m' : Shared C Row}
    (h : callbackStep p a m = some (p', m')) : m'.output = m.output := by
  cases a with
  | input a =>
      simp only [callbackStep, Option.map_eq_some_iff, Prod.exists, Prod.mk.injEq] at h
      obtain ⟨q, m, h, -, rfl⟩ := h
      unfold inputStep at h
      split at h <;> (try split at h) <;> cases h <;> rfl
  | output a =>
      simp only [callbackStep, Option.map_eq_some_iff, Prod.exists, Prod.mk.injEq] at h
      obtain ⟨q, m, h, -, rfl⟩ := h
      unfold outputStep at h
      split at h <;> (try split at h) <;> cases h <;> rfl

/-- Only a store of the worker into the output slot changes an output row. -/
theorem output_eq_of_not_stores {k : Backend Row Out} {w w' : Worker C Row Out}
    {m m' : Shared C Row} (h : workerStep k w m = some (w', m'))
    (hst : w.pc.storesOutput = false) : m'.output = m.output := by
  cases hpc : w.pc with
  | writeRow ch y => simp [hpc, WorkerPc.storesOutput] at hst
  | setOutputReady => simp [hpc, WorkerPc.storesOutput] at hst
  | poll =>
      simp only [workerStep, hpc] at h
      split at h <;> cases h <;> rfl
  | readRow ch =>
      simp only [workerStep, hpc] at h
      cases h; rfl
  | infer ch x =>
      simp only [workerStep, hpc] at h
      split at h <;> cases h <;> rfl
  | clearInputReady =>
      simp only [workerStep, hpc] at h
      cases h; rfl
  | raised => simp [workerStep, hpc] at h

theorem slotKept_step {t : Turn (CallbackAct C Row)} (h : SlotInv infer write o s)
    (hs : step (Backend.total infer write) callbackStep s t = some s')
    (hfree : SlotFree s t = true) : SlotKept infer write o s s' where
  unchanged hready := by
    cases t with
    | worker =>
        obtain ⟨w, m, hw, rfl⟩ := step_worker_eq_some.mp hs
        exact output_eq_of_not_stores hw (by simpa [SlotFree, hready] using hfree)
    | cpp a =>
        obtain ⟨p, m, hp, rfl⟩ := step_cpp_eq_some.mp hs
        exact callbackStep_output hp
  inOrder := (slotInv_step h hs hfree).inOrder

end Preservation

/-- As long as the worker stores into the output slot only while
`is_output_ready` is False, no announced row changes before the flag is cleared
and the blocks copied are a prefix of the results, in every interleaving. -/
theorem output_slot_kept (infer : Row → Out) (write : Row → Out → Row)
    (input output outs : Block C Row) (acts : List (Turn (CallbackAct C Row)))
    (hfree : Runs.EachStep (step (Backend.total infer write) callbackStep)
      (fun s t _ => SlotFree s t = true) (callbackInit input output outs) acts) :
    Runs.EachStep (step (Backend.total infer write) callbackStep)
      (fun s _ s' => SlotKept infer write output s s') (callbackInit input output outs) acts :=
  Runs.EachStep.imp (I := SlotInv infer write output)
    (fun _ _ _ h hs hg => slotInv_step h hs hg) (fun _ _ _ h hs hg => slotKept_step h hs hg)
    (slotInv_init input output outs) hfree

/-- The steps of one channel's block `b`, from the load that starts writing it
to the store that publishes it. -/
def publishOne (b : Block 1 ℕ) : List (Turn (CallbackAct 1 ℕ)) :=
  [.cpp (.input (.load b)), .cpp (.input (.writeRow ⟨0, Nat.one_pos⟩)), .cpp (.input .publish)]

def serveOne : List (Turn (CallbackAct 1 ℕ)) := List.replicate 6 .worker

def copyOne : List (Turn (CallbackAct 1 ℕ)) :=
  [.cpp (.output .load), .cpp (.output (.copyRow ⟨0, Nat.one_pos⟩)), .cpp (.output .clear)]

theorem output_slot_kept_one :
    let run := publishOne (fun _ => 1) ++ serveOne ++ copyOne ++ publishOne (fun _ => 2) ++ serveOne
    Runs.EachStep (step (Backend.total id fun _ y => y) callbackStep)
      (fun s _ s' => SlotKept id (fun _ y => y) (fun _ => 0) s s')
      (callbackInit (fun _ => 0) (fun _ => 0) fun _ => 0) run :=
  output_slot_kept id (fun _ y => y) (fun _ => 0) (fun _ => 0) (fun _ => 0) _
    (Runs.eachStep_of_check (by decide +kernel))

/-- The callback publishes the block `2` before it copies the result of `1`: the
worker's next row store hits an announced row, and what is copied then is `2`
alone. -/
theorem output_row_overwritten :
    ∃ s s' s'', Runs.exec (step (Backend.total id fun _ y => y) callbackStep)
        (callbackInit (fun _ => 0) (fun _ => 0) fun _ => 0)
        (publishOne (fun _ => 1) ++ serveOne ++ publishOne (fun _ => 2) ++
          List.replicate 3 .worker) = some s ∧
      step (Backend.total id fun _ y => y) callbackStep s .worker = some s' ∧
      s.shared.isOutputReady = true ∧ s.shared.output = (fun _ => 1) ∧
      s'.shared.output = (fun _ => 2) ∧
      Runs.exec (step (Backend.total id fun _ y => y) callbackStep) s'
        (List.replicate 2 .worker ++ copyOne) = some s'' ∧
      s''.cpp.inp.published = [fun _ => 1, fun _ => 2] ∧ s''.cpp.out.copied = [fun _ => 2] ∧
      ¬ SlotKept id (fun _ y => y) (fun _ => 0) s s' := by
  have hrun : (Runs.exec (step (Backend.total id fun _ y => y) callbackStep)
      (callbackInit (fun _ => 0) (fun _ => 0) fun _ => 0)
      (publishOne (fun _ => 1) ++ serveOne ++ publishOne (fun _ => 2) ++
        List.replicate 3 .worker)).any (fun s =>
          (step (Backend.total id fun _ y => y) callbackStep s .worker).any fun s' =>
            decide (s.shared.isOutputReady = true ∧ s.shared.output = (fun _ => 1) ∧
              s'.shared.output = fun _ => 2) &&
            (Runs.exec (step (Backend.total id fun _ y => y) callbackStep) s'
              (List.replicate 2 .worker ++ copyOne)).any fun s'' =>
                decide (s''.cpp.inp.published = [fun _ => 1, fun _ => 2] ∧
                  s''.cpp.out.copied = [fun _ => 2])) = true := by
    decide +kernel
  obtain ⟨s, hexec, hs⟩ := Runs.exists_exec_of_any hrun
  obtain ⟨s', hstep, hs'⟩ := (Option.any_eq_true _ _).mp hs
  obtain ⟨hnow, hlater⟩ := Bool.and_eq_true_iff.mp hs'
  obtain ⟨hready, hold, hnew⟩ := of_decide_eq_true hnow
  obtain ⟨s'', hexec', hs''⟩ := Runs.exists_exec_of_any hlater
  obtain ⟨hpub, hcop⟩ := of_decide_eq_true hs''
  refine ⟨s, s', s'', hexec, hstep, hready, hold, hnew, hexec', hpub, hcop, fun hkept => ?_⟩
  have hrow := congrFun ((hkept.unchanged hready).symm.trans hnew) 0
  rw [hold] at hrow
  exact absurd hrow (by decide)

end MabTilde.Exchange

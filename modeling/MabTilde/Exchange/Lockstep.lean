import Mathlib.Data.Finset.Card
import Mathlib.Data.Fintype.Card
import MabTilde.Exchange.Results

/-!
The exchange with a C++ side that works in lockstep: write a block, publish
it, wait for its output, copy it, clear the output flag, go on.

Such a C++ side looks at one flag only. The worker stores
`is_output_ready = True` before `is_input_ready = False`, so the next block can
be published between the two stores; the second one then takes it back, and
both parties wait for ever. `losesNothing_iff` says that this is the only
thing that can go wrong.
-/

namespace MabTilde.Exchange

inductive LockPc (C : ℕ)
  | writeInput (written : Finset (Fin C))
  | waitOutput
  | copyOutput (got : Finset (Fin C))
  deriving DecidableEq

structure Lockstep (C : ℕ) (Row : Type) where
  pc : LockPc C
  /-- The blocks still to be published, the one being written first. -/
  todo : List (Block C Row)
  /-- Where the rows of the output are copied to. -/
  outs : Block C Row
  published : List (Block C Row)
  copied : List (Block C Row)

inductive LockAct (C : ℕ)
  | writeRow (ch : Fin C)
  /-- Store `is_input_ready = True`. -/
  | publish
  /-- Load `is_output_ready`. -/
  | load
  | copyRow (ch : Fin C)
  /-- Store `is_output_ready = False`. -/
  | clear

variable {C : ℕ} {Row Out : Type}

def lockStep (p : Lockstep C Row) (a : LockAct C) (m : Shared C Row) :
    Option (Lockstep C Row × Shared C Row) :=
  match p.pc, a with
  | .writeInput written, .writeRow ch =>
      match p.todo with
      | [] => none
      | b :: _ =>
          if ch ∈ written then none
          else some ({ p with pc := .writeInput (insert ch written) },
            { m with input := Function.update m.input ch (b ch) })
  | .writeInput written, .publish =>
      match p.todo with
      | [] => none
      | b :: rest =>
          if written = Finset.univ then
            some ({ p with pc := .waitOutput, todo := rest, published := p.published ++ [b] },
              { m with isInputReady := true })
          else none
  | .waitOutput, .load =>
      if m.isOutputReady then some ({ p with pc := .copyOutput ∅ }, m) else some (p, m)
  | .copyOutput got, .copyRow ch =>
      if ch ∈ got then none
      else some ({ p with pc := .copyOutput (insert ch got),
                          outs := Function.update p.outs ch (m.output ch) }, m)
  | .copyOutput got, .clear =>
      if got = Finset.univ then
        some ({ p with pc := .writeInput ∅, copied := p.copied ++ [p.outs] },
          { m with isOutputReady := false })
      else none
  | _, _ => none

/-! ### The steps that are enabled -/

section Enabled

variable {p : Lockstep C Row} {m : Shared C Row} {b : Block C Row} {rest : List (Block C Row)}

theorem lockStep_writeRow {written : Finset (Fin C)} {ch : Fin C}
    (hpc : p.pc = .writeInput written) (htodo : p.todo = b :: rest) (hch : ch ∉ written) :
    lockStep p (.writeRow ch) m = some ({ p with pc := .writeInput (insert ch written) },
      { m with input := Function.update m.input ch (b ch) }) := by
  simp only [lockStep, hpc, htodo, if_neg hch]

theorem lockStep_publish (hpc : p.pc = .writeInput Finset.univ) (htodo : p.todo = b :: rest) :
    lockStep p .publish m =
      some ({ p with pc := .waitOutput, todo := rest, published := p.published ++ [b] },
        { m with isInputReady := true }) := by
  simp only [lockStep, hpc, htodo, if_true]

theorem lockStep_load (hpc : p.pc = .waitOutput) (hready : m.isOutputReady = true) :
    lockStep p .load m = some ({ p with pc := .copyOutput ∅ }, m) := by
  simp only [lockStep, hpc, hready, if_true]

theorem lockStep_copyRow {got : Finset (Fin C)} {ch : Fin C} (hpc : p.pc = .copyOutput got)
    (hch : ch ∉ got) :
    lockStep p (.copyRow ch) m =
      some ({ p with pc := .copyOutput (insert ch got),
                     outs := Function.update p.outs ch (m.output ch) }, m) := by
  simp only [lockStep, hpc, if_neg hch]

theorem lockStep_clear (hpc : p.pc = .copyOutput Finset.univ) :
    lockStep p .clear m =
      some ({ p with pc := .writeInput ∅, copied := p.copied ++ [p.outs] },
        { m with isOutputReady := false }) := by
  simp only [lockStep, hpc, if_true]

end Enabled

def lockInit (blocks : List (Block C Row)) (input output outs : Block C Row) :
    State C Row Out (Lockstep C Row) :=
  ⟨Shared.init input output, Worker.init, ⟨.writeInput ∅, blocks, outs, [], []⟩⟩

section Statement

variable (infer : Row → Out) (write : Row → Out → Row)

/-- Nothing is lost at `s`: the outputs copied are, in order, the results of
the blocks published, at most the last one is missing, and the exchange can
still go on until the results of all `blocks` are copied. `o` is what the output
buffer held at first. -/
structure LosesNothing (o : Block C Row) (blocks : List (Block C Row))
    (s : State C Row Out (Lockstep C Row)) : Prop where
  inOrder : s.cpp.copied <+: results infer write o s.cpp.published
  oneOutstanding : s.cpp.published.length ≤ s.cpp.copied.length + 1
  completes : ∃ s', Runs.Reaches (step (Backend.total infer write) lockStep) s s' ∧
    s'.cpp.copied = results infer write o blocks

/-- The C++ side does not store `is_input_ready = True` between the worker's
stores of `is_output_ready = True` and `is_input_ready = False`. -/
def OutsideWindow (s : State C Row Out (Lockstep C Row)) (t : Turn (LockAct C)) : Prop :=
  match t with
  | .cpp .publish => s.worker.pc ≠ .clearInputReady
  | _ => True

/-! ### The invariant -/

def Released (w : Worker C Row Out) (m : Shared C Row) : Prop :=
  (w.pc = .poll ∧ m.isInputReady = false) ∨ (w.pc = .clearInputReady ∧ m.isInputReady = true)

/-- The outstanding block is in the worker's hands, all blocks `before` done. -/
def Pending (o : Block C Row) (before : List (Block C Row)) (w : Worker C Row Out)
    (m : Shared C Row) : Prop :=
  m.isOutputReady = false ∧ m.isInputReady = true ∧
    Serving infer write w m.output (bufferAfter infer write o before) m.input

def Announced (o : Block C Row) (published : List (Block C Row)) (w : Worker C Row Out)
    (m : Shared C Row) : Prop :=
  m.isOutputReady = true ∧ m.output = bufferAfter infer write o published ∧ Released w m

/-- Both program counters, both flags and both buffers of the exchange, in the
three phases of the C++ side. -/
structure LockInv (o : Block C Row) (blocks : List (Block C Row))
    (s : State C Row Out (Lockstep C Row)) : Prop where
  all : s.cpp.published ++ s.cpp.todo = blocks
  writing : ∀ written, s.cpp.pc = .writeInput written →
    s.shared.isOutputReady = false ∧
      s.cpp.copied = results infer write o s.cpp.published ∧
      s.shared.output = bufferAfter infer write o s.cpp.published ∧
      Released s.worker s.shared ∧
      ∀ b rest, s.cpp.todo = b :: rest → ∀ ch ∈ written, s.shared.input ch = b ch
  waiting : s.cpp.pc = .waitOutput → ∃ before,
    s.cpp.published = before ++ [s.shared.input] ∧ s.cpp.copied = results infer write o before ∧
      (Pending infer write o before s.worker s.shared ∨
        Announced infer write o s.cpp.published s.worker s.shared)
  copying : ∀ got, s.cpp.pc = .copyOutput got → ∃ before,
    s.cpp.published = before ++ [s.shared.input] ∧ s.cpp.copied = results infer write o before ∧
      Announced infer write o s.cpp.published s.worker s.shared ∧
      ∀ ch ∈ got, s.cpp.outs ch = s.shared.output ch

end Statement

section Preservation

variable {infer : Row → Out} {write : Row → Out → Row} {o : Block C Row}
  {blocks : List (Block C Row)} {s s' : State C Row Out (Lockstep C Row)}

theorem lockInv_init (input output outs : Block C Row) :
    LockInv infer write output blocks
      (lockInit blocks input output outs : State C Row Out (Lockstep C Row)) where
  all := rfl
  writing written hpc := by
    cases hpc
    exact ⟨rfl, rfl, rfl, .inl ⟨rfl, rfl⟩, by simp⟩
  waiting hpc := by simp [lockInit] at hpc
  copying got hpc := by simp [lockInit] at hpc

theorem released_worker {k : Backend Row Out} {w w' : Worker C Row Out} {m m' : Shared C Row}
    (hr : Released w m) (h : workerStep k w m = some (w', m')) :
    Released w' m' ∧ m'.output = m.output ∧ m'.isOutputReady = m.isOutputReady := by
  rcases hr with ⟨hpc, hflag⟩ | ⟨hpc, hflag⟩
  · simp only [workerStep, hpc, hflag, Bool.false_eq_true, if_false, Option.some.injEq,
      Prod.mk.injEq] at h
    obtain ⟨rfl, rfl⟩ := h
    exact ⟨.inl ⟨hpc, hflag⟩, rfl, rfl⟩
  · simp only [workerStep, hpc, Option.some.injEq, Prod.mk.injEq] at h
    obtain ⟨rfl, rfl⟩ := h
    exact ⟨.inl ⟨rfl, rfl⟩, rfl, rfl⟩

theorem announced_worker {k : Backend Row Out} {w w' : Worker C Row Out} {m m' : Shared C Row}
    {published : List (Block C Row)} (ha : Announced infer write o published w m)
    (h : workerStep k w m = some (w', m')) : Announced infer write o published w' m' := by
  obtain ⟨hout, hbuf, hr⟩ := ha
  obtain ⟨hr', hbuf', hout'⟩ := released_worker hr h
  exact ⟨hout' ▸ hout, hbuf' ▸ hbuf, hr'⟩

theorem pending_worker {w w' : Worker C Row Out} {m m' : Shared C Row}
    {before : List (Block C Row)} (hp : Pending infer write o before w m)
    (h : workerStep (Backend.total infer write) w m = some (w', m')) :
    Pending infer write o before w' m' ∨
      Announced infer write o (before ++ [m.input]) w' m' := by
  obtain ⟨hout, hflag, hsv⟩ := hp
  have hin := workerStep_input h
  rcases serving_worker hflag rfl hsv h with ⟨-, -, hflag', hout', hsv', -⟩ | ⟨-, hpc', rfl, hbuf⟩
  · exact .inl ⟨hout' ▸ hout, hflag', hin.symm ▸ hsv'⟩
  · refine .inr ⟨rfl, ?_, .inr ⟨hpc', hflag⟩⟩
    rw [bufferAfter_append]
    exact hbuf

theorem lockInv_worker (h : LockInv infer write o blocks s) {w : Worker C Row Out}
    {m : Shared C Row}
    (hs : workerStep (Backend.total infer write) s.worker s.shared = some (w, m)) :
    LockInv infer write o blocks { s with worker := w, shared := m } where
  all := h.all
  writing written hpc := by
    obtain ⟨hout, hcop, hbuf, hr, hrows⟩ := h.writing written hpc
    obtain ⟨hr', hbuf', hout'⟩ := released_worker hr hs
    refine ⟨hout'.trans hout, hcop, hbuf'.trans hbuf, hr', ?_⟩
    simpa only [workerStep_input hs] using hrows
  waiting hpc := by
    obtain ⟨before, hpub, hcop, hphase⟩ := h.waiting hpc
    refine ⟨before, by simpa only [workerStep_input hs] using hpub, hcop, ?_⟩
    rcases hphase with hp | ha
    · rcases pending_worker hp hs with hp' | ha'
      · exact .inl hp'
      · exact .inr (hpub ▸ ha')
    · exact .inr (announced_worker ha hs)
  copying got hpc := by
    obtain ⟨before, hpub, hcop, ha, hrows⟩ := h.copying got hpc
    have hbuf := (released_worker ha.2.2 hs).2.1
    refine ⟨before, by simpa only [workerStep_input hs] using hpub, hcop,
      announced_worker ha hs, ?_⟩
    simpa only [hbuf] using hrows

theorem lockInv_cpp (h : LockInv infer write o blocks s) {a : LockAct C}
    (hg : OutsideWindow s (.cpp a)) {p : Lockstep C Row} {m : Shared C Row}
    (hs : lockStep s.cpp a s.shared = some (p, m)) :
    LockInv infer write o blocks { s with cpp := p, shared := m } := by
  cases hpc : s.cpp.pc with
  | writeInput written =>
      obtain ⟨hout, hcop, hbuf, hr, hrows⟩ := h.writing written hpc
      cases a with
      | writeRow ch =>
          simp only [lockStep, hpc] at hs
          cases htodo : s.cpp.todo with
          | nil => simp [htodo] at hs
          | cons b rest =>
              simp only [htodo] at hs
              split at hs <;> cases hs
              refine ⟨htodo ▸ h.all, fun written' hw => ?_, by simp, by simp⟩
              cases hw
              refine ⟨hout, hcop, hbuf, hr, fun b' rest' htodo' c hc => ?_⟩
              cases htodo'
              by_cases hcc : c = ch
              · subst hcc
                exact Function.update_self ..
              · rw [Finset.mem_insert, or_iff_right hcc] at hc
                simpa [Function.update_of_ne hcc] using hrows b rest htodo c hc
      | publish =>
          simp only [lockStep, hpc] at hs
          cases htodo : s.cpp.todo with
          | nil => simp [htodo] at hs
          | cons b rest =>
              simp only [htodo] at hs
              split at hs <;> cases hs
              rename_i hall
              have hblock : s.shared.input = b :=
                funext fun ch => hrows b rest htodo ch (hall ▸ Finset.mem_univ ch)
              -- outside the window the worker is back at its poll
              have hpoll : s.worker.pc = .poll := by
                rcases hr with ⟨hp, -⟩ | ⟨hp, -⟩
                · exact hp
                · exact absurd hp hg
              refine ⟨by simpa [htodo] using h.all, by simp, fun _ => ?_, by simp⟩
              refine ⟨s.cpp.published, by rw [hblock], hcop, .inl ⟨hout, rfl, ?_⟩⟩
              simp only [Serving, hpoll]
              exact hbuf
      | load => simp [lockStep, hpc] at hs
      | copyRow ch => simp [lockStep, hpc] at hs
      | clear => simp [lockStep, hpc] at hs
  | waitOutput =>
      obtain ⟨before, hpub, hcop, hphase⟩ := h.waiting hpc
      cases a with
      | writeRow ch => simp [lockStep, hpc] at hs
      | publish => simp [lockStep, hpc] at hs
      | load =>
          simp only [lockStep, hpc] at hs
          split at hs <;> cases hs
          · rename_i hready
            refine ⟨h.all, by simp, by simp, fun got hgot => ?_⟩
            cases hgot
            rcases hphase with ⟨hout, -⟩ | ha
            · simp [hready] at hout
            · exact ⟨before, hpub, hcop, ha, by simp⟩
          · exact h
      | copyRow ch => simp [lockStep, hpc] at hs
      | clear => simp [lockStep, hpc] at hs
  | copyOutput got =>
      obtain ⟨before, hpub, hcop, ha, hrows⟩ := h.copying got hpc
      cases a with
      | writeRow ch => simp [lockStep, hpc] at hs
      | publish => simp [lockStep, hpc] at hs
      | load => simp [lockStep, hpc] at hs
      | copyRow ch =>
          simp only [lockStep, hpc] at hs
          split at hs <;> cases hs
          refine ⟨h.all, by simp, by simp, fun got' hgot => ?_⟩
          cases hgot
          refine ⟨before, hpub, hcop, ha, fun c hc => ?_⟩
          by_cases hcc : c = ch
          · subst hcc
            exact Function.update_self ..
          · rw [Finset.mem_insert, or_iff_right hcc] at hc
            simpa [Function.update_of_ne hcc] using hrows c hc
      | clear =>
          simp only [lockStep, hpc] at hs
          split at hs <;> cases hs
          rename_i hall
          obtain ⟨hready, hbuf, hr⟩ := ha
          have houts : s.cpp.outs = s.shared.output :=
            funext fun ch => hrows ch (hall ▸ Finset.mem_univ ch)
          refine ⟨h.all, fun written hw => ?_, by simp, by simp⟩
          cases hw
          refine ⟨rfl, ?_, hbuf, hr, by simp⟩
          simp only [hcop, houts, hbuf, hpub]
          exact (results_append infer write o s.shared.input before).symm

theorem lockInv_step {t : Turn (LockAct C)} (h : LockInv infer write o blocks s)
    (hs : step (Backend.total infer write) lockStep s t = some s') (hg : OutsideWindow s t) :
    LockInv infer write o blocks s' := by
  cases t with
  | worker =>
      obtain ⟨w, m, hw, rfl⟩ := step_worker_eq_some.mp hs
      exact lockInv_worker h hw
  | cpp a =>
      obtain ⟨p, m, hp, rfl⟩ := step_cpp_eq_some.mp hs
      exact lockInv_cpp h hg hp

theorem LockInv.copied_inOrder (h : LockInv infer write o blocks s) :
    s.cpp.copied <+: results infer write o s.cpp.published ∧
      s.cpp.published.length ≤ s.cpp.copied.length + 1 := by
  have hlast : ∀ before b, s.cpp.published = before ++ [b] →
      s.cpp.copied = results infer write o before →
      s.cpp.copied <+: results infer write o s.cpp.published ∧
        s.cpp.published.length ≤ s.cpp.copied.length + 1 := by
    intro before b hpub hcop
    rw [hpub, hcop]
    exact ⟨prefix_results_append infer write o before [b], by simp⟩
  cases hpc : s.cpp.pc with
  | writeInput written =>
      obtain ⟨-, hcop, -⟩ := h.writing written hpc
      exact ⟨by rw [hcop], by rw [hcop]; simp⟩
  | waitOutput =>
      obtain ⟨before, hpub, hcop, -⟩ := h.waiting hpc
      exact hlast before _ hpub hcop
  | copyOutput got =>
      obtain ⟨before, hpub, hcop, -⟩ := h.copying got hpc
      exact hlast before _ hpub hcop

end Preservation

/-! ### Progress

The steps left to go: per block the C++ side writes `C` rows, publishes, loads,
copies `C` rows and clears, and the worker polls, takes three steps per channel
and stores the two flags. -/

def workerRank (w : Worker C Row Out) (m : Shared C Row) : ℕ :=
  match w.pc with
  | .poll => if m.isInputReady then 3 * C + 3 else 0
  | .readRow ch => 3 * (C - ch) + 2
  | .infer ch _ => 3 * (C - ch) + 1
  | .writeRow ch _ => 3 * (C - ch)
  | .setOutputReady => 2
  | .clearInputReady => 1
  | .raised => 0

def cppRank : LockPc C → ℕ
  | .writeInput written => C - written.card
  | .waitOutput => 2 * C + 2
  | .copyOutput got => 2 * C + 1 - got.card

def rank (s : State C Row Out (Lockstep C Row)) : ℕ :=
  (5 * C + 6) * s.cpp.todo.length + workerRank s.worker s.shared + cppRank s.cpp.pc

def Finished (s : State C Row Out (Lockstep C Row)) : Prop :=
  s.cpp.todo = [] ∧ ∃ written, s.cpp.pc = .writeInput written

theorem workerRank_loopFrom (i : ℕ) (rows : List Row) (inferred : List (List Row))
    (m : Shared C Row) :
    workerRank (⟨loopFrom C Row Out i, rows, inferred⟩ : Worker C Row Out) m = 3 * (C - i) + 2 := by
  by_cases h : i < C
  · rw [loopFrom_of_lt h]
    rfl
  · rw [loopFrom_of_le (by omega)]
    simp only [workerRank]
    omega

section Liveness

variable (infer : Row → Out) (write : Row → Out → Row) {o : Block C Row}
  {blocks : List (Block C Row)} {s s' : State C Row Out (Lockstep C Row)}

/-- A worker with something to do does it, and comes closer to its poll. -/
theorem workerStep_rank {w : Worker C Row Out} {m : Shared C Row} (hraised : w.pc ≠ .raised)
    (hpoll : w.pc = .poll → m.isInputReady = true) :
    ∃ w' m', workerStep (Backend.total infer write) w m = some (w', m') ∧
      workerRank w' m' < workerRank w m := by
  cases hpc : w.pc with
  | poll =>
      refine ⟨_, _, by simp only [workerStep, hpc, hpoll hpc, if_true]; rfl, ?_⟩
      rw [workerRank_loopFrom]
      simp only [workerRank, hpc, hpoll hpc, if_true]
      omega
  | readRow ch =>
      refine ⟨_, _, by simp only [workerStep, hpc]; rfl, ?_⟩
      simp only [workerRank, hpc]
      omega
  | infer ch x =>
      refine ⟨_, _, by simp only [workerStep, hpc, Backend.total]; rfl, ?_⟩
      simp only [workerRank, hpc]
      omega
  | writeRow ch y =>
      refine ⟨_, _, by simp only [workerStep, hpc, Backend.total]; rfl, ?_⟩
      rw [workerRank_loopFrom]
      simp only [workerRank, hpc]
      have := ch.isLt
      omega
  | setOutputReady =>
      refine ⟨_, _, by simp only [workerStep, hpc]; rfl, ?_⟩
      simp only [workerRank, hpc]
      omega
  | clearInputReady =>
      refine ⟨_, _, by simp only [workerStep, hpc]; rfl, ?_⟩
      simp [workerRank, hpc]
  | raised => exact absurd hpc hraised

theorem step_worker_rank (hraised : s.worker.pc ≠ .raised)
    (hpoll : s.worker.pc = .poll → s.shared.isInputReady = true) :
    ∃ s', step (Backend.total infer write) lockStep s .worker = some s' ∧ rank s' < rank s := by
  obtain ⟨w, m, hs, hlt⟩ := workerStep_rank infer write hraised hpoll
  refine ⟨_, step_worker_eq_some.mpr ⟨w, m, hs, rfl⟩, ?_⟩
  simp only [rank]
  omega

theorem exists_notMem_of_ne_univ {t : Finset (Fin C)} (h : t ≠ Finset.univ) :
    ∃ ch, ch ∉ t ∧ t.card < C := by
  obtain ⟨ch, hch⟩ : ∃ ch, ch ∉ t := by
    by_contra hall
    push Not at hall
    exact h (Finset.eq_univ_iff_forall.mpr hall)
  refine ⟨ch, hch, ?_⟩
  simpa using Finset.card_lt_univ_of_notMem hch

variable {infer write}

/-- Short of the end some party has a step inside the guard that takes the
exchange closer to it. -/
theorem lock_progress (h : LockInv infer write o blocks s) (hend : ¬ Finished s) :
    ∃ t s', step (Backend.total infer write) lockStep s t = some s' ∧ OutsideWindow s t ∧
      rank s' < rank s := by
  cases hpc : s.cpp.pc with
  | writeInput written =>
      obtain ⟨-, -, -, hr, -⟩ := h.writing written hpc
      rcases hr with ⟨hw, hflag⟩ | ⟨hw, -⟩
      · cases htodo : s.cpp.todo with
        | nil => exact absurd ⟨htodo, written, hpc⟩ hend
        | cons b rest =>
            by_cases hall : written = Finset.univ
            · subst hall
              refine ⟨.cpp .publish, _,
                step_cpp_eq_some.mpr ⟨_, _, lockStep_publish hpc htodo, rfl⟩, ?_, ?_⟩
              · simp [OutsideWindow, hw]
              · simp only [rank, htodo, List.length_cons, workerRank, hw, hflag, cppRank, hpc,
                  Finset.card_univ, Fintype.card_fin, if_true, Bool.false_eq_true, if_false,
                  Nat.mul_succ]
                omega
            · obtain ⟨ch, hch, hlt⟩ := exists_notMem_of_ne_univ hall
              refine ⟨.cpp (.writeRow ch), _,
                step_cpp_eq_some.mpr ⟨_, _, lockStep_writeRow hpc htodo hch, rfl⟩, True.intro, ?_⟩
              simp only [rank, htodo, workerRank, hw, hflag, cppRank, hpc,
                Finset.card_insert_of_notMem hch]
              omega
      · obtain ⟨s', hs, hlt⟩ := step_worker_rank infer write (s := s)
          (by simp [hw]) (by simp [hw])
        exact ⟨.worker, s', hs, True.intro, hlt⟩
  | waitOutput =>
      obtain ⟨before, -, -, ⟨-, hflag, hsv⟩ | ⟨hready, -, -⟩⟩ := h.waiting hpc
      · have hraised : s.worker.pc ≠ .raised := by
          intro hw
          simp [Serving, hw] at hsv
        obtain ⟨s', hs, hlt⟩ := step_worker_rank infer write hraised fun _ => hflag
        exact ⟨.worker, s', hs, True.intro, hlt⟩
      · refine ⟨.cpp .load, _, step_cpp_eq_some.mpr ⟨_, _, lockStep_load hpc hready, rfl⟩,
          True.intro, ?_⟩
        simp only [rank, cppRank, hpc, Finset.card_empty]
        omega
  | copyOutput got =>
      by_cases hall : got = Finset.univ
      · subst hall
        refine ⟨.cpp .clear, _, step_cpp_eq_some.mpr ⟨_, _, lockStep_clear hpc, rfl⟩,
          True.intro, ?_⟩
        simp only [rank, workerRank, cppRank, hpc, Finset.card_univ, Fintype.card_fin,
          Finset.card_empty]
        omega
      · obtain ⟨ch, hch, hlt⟩ := exists_notMem_of_ne_univ hall
        refine ⟨.cpp (.copyRow ch), _,
          step_cpp_eq_some.mpr ⟨_, _, lockStep_copyRow hpc hch, rfl⟩, True.intro, ?_⟩
        simp only [rank, cppRank, hpc, Finset.card_insert_of_notMem hch]
        omega

theorem LockInv.losesNothing (h : LockInv infer write o blocks s) :
    LosesNothing infer write o blocks s := by
  obtain ⟨acts, s', hexec, -, h', htodo, written, hpc⟩ :=
    Runs.exec_progress (I := LockInv infer write o blocks) (Q := Finished)
      (G := fun s t _ => OutsideWindow s t) rank
      (fun s h hend => by
        obtain ⟨t, s', hs, hg, hlt⟩ := lock_progress h hend
        exact ⟨t, s', hs, hg, lockInv_step h hs hg, hlt⟩) h
  refine ⟨h.copied_inOrder.1, h.copied_inOrder.2, s', ⟨acts, hexec⟩, ?_⟩
  have hall := h'.all
  rw [htodo, List.append_nil] at hall
  rw [(h'.writing written hpc).2.1, hall]

end Liveness

/-! ### The window

A block published while the worker is about to clear the input flag is lost:
the flag is cleared over it, and then nothing moves any more. -/

/-- The C++ side waits for a block that no flag announces any more. -/
def Lost (s : State C Row Out (Lockstep C Row)) : Prop :=
  s.cpp.pc = .waitOutput ∧ s.shared.isOutputReady = false ∧
    (s.worker.pc = .clearInputReady ∨ (s.worker.pc = .poll ∧ s.shared.isInputReady = false))

instance [DecidableEq Row] [DecidableEq Out] (s : State C Row Out (Lockstep C Row)) :
    Decidable (Lost s) :=
  inferInstanceAs (Decidable (_ ∧ _))

section Window

variable {infer : Row → Out} {write : Row → Out → Row} {o : Block C Row}
  {blocks : List (Block C Row)} {s s' : State C Row Out (Lockstep C Row)}

theorem lost_step {k : Backend Row Out} {t : Turn (LockAct C)} (h : Lost s)
    (hs : step k lockStep s t = some s') : Lost s' ∧ s'.cpp.copied = s.cpp.copied := by
  obtain ⟨hwait, hout, hw⟩ := h
  cases t with
  | worker =>
      obtain ⟨w, m, hst, rfl⟩ := step_worker_eq_some.mp hs
      rcases hw with hw | ⟨hw, hflag⟩
      · simp only [workerStep, hw, Option.some.injEq, Prod.mk.injEq] at hst
        obtain ⟨rfl, rfl⟩ := hst
        exact ⟨⟨hwait, hout, .inr ⟨rfl, rfl⟩⟩, rfl⟩
      · simp only [workerStep, hw, hflag, Bool.false_eq_true, if_false, Option.some.injEq,
          Prod.mk.injEq] at hst
        obtain ⟨rfl, rfl⟩ := hst
        exact ⟨⟨hwait, hout, .inr ⟨hw, hflag⟩⟩, rfl⟩
  | cpp a =>
      obtain ⟨p, m, hst, rfl⟩ := step_cpp_eq_some.mp hs
      cases a with
      | load =>
          simp only [lockStep, hwait, hout, Bool.false_eq_true, if_false, Option.some.injEq,
            Prod.mk.injEq] at hst
          obtain ⟨rfl, rfl⟩ := hst
          exact ⟨⟨hwait, hout, hw⟩, rfl⟩
      | writeRow ch => simp [lockStep, hwait] at hst
      | publish => simp [lockStep, hwait] at hst
      | copyRow ch => simp [lockStep, hwait] at hst
      | clear => simp [lockStep, hwait] at hst

theorem lost_reaches {k : Backend Row Out} (hr : Runs.Reaches (step k lockStep) s s') (h : Lost s) :
    s'.cpp.copied = s.cpp.copied :=
  (hr.invariant (I := fun u => Lost u ∧ u.cpp.copied = s.cpp.copied)
    (fun _ _ _ hu hs => ⟨(lost_step hu.1 hs).1, (lost_step hu.1 hs).2.trans hu.2⟩) ⟨h, rfl⟩).2

/-- A publish inside the window loses its block. -/
theorem not_losesNothing_of_window (h : LockInv infer write o blocks s) {t : Turn (LockAct C)}
    (hs : step (Backend.total infer write) lockStep s t = some s') (hg : ¬ OutsideWindow s t) :
    ¬ LosesNothing infer write o blocks s' := by
  cases t with
  | worker => exact absurd True.intro hg
  | cpp a =>
      cases a with
      | publish =>
          have hclear : s.worker.pc = .clearInputReady := by
            simpa [OutsideWindow] using hg
          obtain ⟨p, m, hst, rfl⟩ := step_cpp_eq_some.mp hs
          cases hpc : s.cpp.pc with
          | waitOutput => simp [lockStep, hpc] at hst
          | copyOutput got => simp [lockStep, hpc] at hst
          | writeInput written =>
              obtain ⟨hout, hcop, -⟩ := h.writing written hpc
              cases htodo : s.cpp.todo with
              | nil => simp [lockStep, hpc, htodo] at hst
              | cons b rest =>
                  simp only [lockStep, hpc, htodo] at hst
                  split at hst <;> cases hst
                  rintro ⟨-, -, u, hu, hcopied⟩
                  have hlost := lost_reaches hu ⟨rfl, hout, .inl hclear⟩
                  -- one result is missing, now and for ever
                  have hlen := congrArg List.length (hlost.symm.trans hcopied)
                  rw [hcop, length_results, length_results, ← h.all, htodo] at hlen
                  simp at hlen
      | writeRow ch => exact absurd True.intro hg
      | load => exact absurd True.intro hg
      | copyRow ch => exact absurd True.intro hg
      | clear => exact absurd True.intro hg

end Window

/-- In every interleaving: nothing is lost at any point of the run if and only
if no block is published between the worker's two stores. -/
theorem losesNothing_iff (infer : Row → Out) (write : Row → Out → Row)
    (blocks : List (Block C Row)) (input output outs : Block C Row)
    (acts : List (Turn (LockAct C))) :
    Runs.Along (step (Backend.total infer write) lockStep)
        (LosesNothing infer write output blocks) (lockInit blocks input output outs) acts ↔
      Runs.EachStep (step (Backend.total infer write) lockStep)
        (fun s t _ => OutsideWindow s t) (lockInit blocks input output outs) acts :=
  Runs.along_iff (I := LockInv infer write output blocks)
    (fun _ _ _ h hs hg => lockInv_step h hs hg)
    (fun _ h => h.losesNothing)
    (fun _ _ _ h hs hP => by_contra fun hg => not_losesNothing_of_window h hs hg hP)
    (lockInv_init input output outs)

/-- One channel, the identity for a model, the blocks `1` and `2`: the second
is published when the worker has announced the first and not yet cleared the
input flag. -/
def windowRun : List (Turn (LockAct 1)) :=
  [.cpp (.writeRow 0), .cpp .publish, .worker, .worker, .worker, .worker, .worker,
    .cpp .load, .cpp (.copyRow 0), .cpp .clear, .cpp (.writeRow 0), .cpp .publish, .worker]

theorem lockstep_loses_block :
    ∃ s, Runs.exec (step (Backend.total id fun _ y => y) lockStep)
        (lockInit [fun _ => 1, fun _ => 2] (fun _ => 0) (fun _ => 0) (fun _ => (0 : ℕ)))
        windowRun = some s ∧
      s.cpp.published.length = 2 ∧ s.cpp.copied.length = 1 ∧
      s.shared.isInputReady = false ∧ s.shared.isOutputReady = false ∧
      ¬ LosesNothing id (fun _ y => y) (fun _ => 0) [fun _ => 1, fun _ => 2] s := by
  have hrun : (Runs.exec (step (Backend.total id fun _ y => y) lockStep)
      (lockInit [fun _ => 1, fun _ => 2] (fun _ => 0) (fun _ => 0) (fun _ => (0 : ℕ)))
      windowRun).any (fun s => decide (Lost s ∧ s.cpp.published.length = 2 ∧
        s.cpp.copied.length = 1 ∧ s.shared.isInputReady = false ∧
        s.shared.isOutputReady = false)) = true := by decide +kernel
  obtain ⟨s, hexec, hs⟩ := Runs.exists_exec_of_any hrun
  obtain ⟨hlost, hpub, hcop, hin, hout⟩ := of_decide_eq_true hs
  refine ⟨s, hexec, hpub, hcop, hin, hout, ?_⟩
  rintro ⟨-, -, u, hu, hcopied⟩
  have hlen := congrArg List.length ((lost_reaches hu hlost).symm.trans hcopied)
  rw [hcop, length_results] at hlen
  exact absurd hlen (by decide)

end MabTilde.Exchange

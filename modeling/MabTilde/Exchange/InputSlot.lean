import MabTilde.Exchange.Worker

/-!
The input slot: what the worker makes of the blocks published to it.

The C++ side keeps one rule. It starts writing the input buffer only after
loading `is_input_ready = False`, writes all rows of one block in any order,
and then stores `is_input_ready = True`. The flag then says who owns the
buffer, and `InputInv` says so for every pair of program counters: while it
is False the rows written so far are the C++ side's, while it is True they
are the last published block, which the worker has read up to its channel.
-/

namespace MabTilde.Exchange

/-- The part of the C++ side that fills the input buffer. -/
inductive InputPc (C : ℕ) (Row : Type)
  | idle
  | writing (b : Block C Row) (written : Finset (Fin C))

structure InputSide (C : ℕ) (Row : Type) where
  pc : InputPc C Row
  /-- The blocks published so far. -/
  published : List (Block C Row)

inductive InputAct (C : ℕ) (Row : Type)
  /-- Load `is_input_ready`, and go on to write `b` if it is False. -/
  | load (b : Block C Row)
  | writeRow (ch : Fin C)
  /-- Store `is_input_ready = True`. -/
  | publish

variable {C : ℕ} {Row Out : Type}

def InputSide.init : InputSide C Row := ⟨.idle, []⟩

/-- One step of the input side. -/
def inputStep (p : InputSide C Row) (a : InputAct C Row) (m : Shared C Row) :
    Option (InputSide C Row × Shared C Row) :=
  match p.pc, a with
  | .idle, .load b =>
      if m.isInputReady then some (p, m) else some ({ p with pc := .writing b ∅ }, m)
  | .writing b written, .writeRow ch =>
      some ({ p with pc := .writing b (insert ch written) },
        { m with input := Function.update m.input ch (b ch) })
  | .writing b written, .publish =>
      if written = Finset.univ then
        some (⟨.idle, p.published ++ [b]⟩, { m with isInputReady := true })
      else none
  | _, _ => none

/-- What this C++ side may do besides: anything at all to `is_output_ready`. Its
reads of the output buffer change no shared state and are not listed. -/
inductive SlotAct (C : ℕ) (Row : Type)
  | input (a : InputAct C Row)
  | storeOutputReady (v : Bool)

def slotStep (p : InputSide C Row) (a : SlotAct C Row) (m : Shared C Row) :
    Option (InputSide C Row × Shared C Row) :=
  match a with
  | .input a => inputStep p a m
  | .storeOutputReady v => some (p, { m with isOutputReady := v })

/-! ### The ownership invariant -/

def rowsOf (b : Block C Row) : List Row := List.ofFn b

@[simp] theorem length_rowsOf (b : Block C Row) : (rowsOf b).length = C := List.length_ofFn

theorem take_rowsOf_succ (b : Block C Row) (ch : Fin C) :
    (rowsOf b).take (ch + 1) = (rowsOf b).take ch ++ [b ch] := by
  have hlt : (ch : ℕ) < (rowsOf b).length := by simp
  rw [← List.take_concat_get' _ _ hlt]
  simp [rowsOf]

theorem take_rowsOf_all (b : Block C Row) : (rowsOf b).take C = rowsOf b :=
  List.take_of_length_le (by simp)

/-- How far the worker is with the outstanding block `b`, all blocks `before`
it being done. -/
def Progress (w : Worker C Row Out) (before : List (List Row)) (b : Block C Row) : Prop :=
  match w.pc with
  | .poll => w.inferred = before
  | .readRow ch => w.inferred = before ∧ w.rows = (rowsOf b).take ch
  | .infer ch x =>
      w.inferred = before ∧ w.rows = (rowsOf b).take (ch + 1) ∧ x = b ch
  | .writeRow ch _ =>
      w.inferred = noteInferred C (ch + 1) (rowsOf b) before ∧
        w.rows = (rowsOf b).take (ch + 1)
  | .setOutputReady | .clearInputReady =>
      w.inferred = before ++ [rowsOf b] ∧ w.rows = rowsOf b
  | .raised =>
      (w.inferred = before ∨ w.inferred = before ++ [rowsOf b]) ∧ w.rows <+: rowsOf b

/-- Who owns the input buffer, and what it then holds. -/
structure InputInv (m : Shared C Row) (w : Worker C Row Out) (p : InputSide C Row) : Prop where
  /-- The C++ side writes only while the flag is False, and nobody disturbs it. -/
  writing : ∀ b written, p.pc = .writing b written →
    m.isInputReady = false ∧ ∀ ch ∈ written, m.input ch = b ch
  /-- Away from its poll the worker works under a True flag. -/
  busy : w.pc ≠ .poll → m.isInputReady = true
  /-- Under a False flag everything published has been inferred. -/
  settled : m.isInputReady = false → w.inferred = p.published.map rowsOf
  /-- Under a True flag the buffer is the last published block. -/
  outstanding : m.isInputReady = true → ∃ before,
    p.published = before ++ [m.input] ∧ Progress w (before.map rowsOf) m.input

theorem inputInv_init (input output : Block C Row) :
    InputInv (Shared.init input output) (Worker.init : Worker C Row Out) InputSide.init where
  writing := by simp [InputSide.init]
  busy h := absurd rfl h
  settled _ := rfl
  outstanding h := by simp [Shared.init] at h

section Preservation

variable {k : Backend Row Out} {m m' : Shared C Row} {w w' : Worker C Row Out}
  {p p' : InputSide C Row}

theorem InputInv.congr (h : InputInv m w p) (hin : m'.input = m.input)
    (hflag : m'.isInputReady = m.isInputReady) : InputInv m' w p where
  writing b written hpc := by rw [hin, hflag]; exact h.writing b written hpc
  busy hpc := by rw [hflag]; exact h.busy hpc
  settled hf := h.settled (hflag ▸ hf)
  outstanding hf := by rw [hin]; exact h.outstanding (hflag ▸ hf)

theorem progress_loopFrom {before inferred : List (List Row)} {b : Block C Row} {rows : List Row}
    {i : ℕ} (hi : i ≤ C) (hinf : inferred = noteInferred C i (rowsOf b) before)
    (hrows : rows = (rowsOf b).take i) :
    Progress (⟨loopFrom C Row Out i, rows, inferred⟩ : Worker C Row Out) before b := by
  by_cases h : i < C
  · rw [loopFrom_of_lt h]
    exact ⟨by rw [hinf, noteInferred_of_ne (by omega)], hrows⟩
  · obtain rfl : i = C := by omega
    rw [loopFrom_of_le le_rfl]
    exact ⟨by rw [hinf, noteInferred_self], by rw [hrows, take_rowsOf_all]⟩

/-- A worker step under a True flag takes the outstanding block further; only
the last one, which clears the flag, ends it. -/
theorem progress_worker {before : List (List Row)} (hflag : m.isInputReady = true)
    (hp : Progress w before m.input) (h : workerStep k w m = some (w', m')) :
    (m'.isInputReady = true ∧ w'.pc ≠ .poll ∧ Progress w' before m.input) ∨
      (w.pc = .clearInputReady ∧ w'.pc = .poll ∧ m'.isInputReady = false ∧
        w'.inferred = before ++ [rowsOf m.input]) := by
  have hloop (i : ℕ) : loopFrom C Row Out i ≠ .poll := by
    unfold loopFrom; split <;> simp
  cases hpc : w.pc with
  | poll =>
      simp only [workerStep, hpc, hflag, if_true, Option.some.injEq, Prod.mk.injEq] at h
      obtain ⟨rfl, rfl⟩ := h
      simp only [Progress, hpc] at hp
      refine .inl ⟨hflag, hloop 0, progress_loopFrom (Nat.zero_le C) ?_ (by simp)⟩
      rw [hp]
      by_cases hC : 0 = C
      · have hnil : rowsOf m.input = [] := List.length_eq_zero_iff.mp (by simp [← hC])
        rw [hnil]
      · rw [noteInferred_of_ne hC, noteInferred_of_ne hC]
  | readRow ch =>
      simp only [workerStep, hpc, Option.some.injEq, Prod.mk.injEq] at h
      obtain ⟨rfl, rfl⟩ := h
      simp only [Progress, hpc] at hp
      refine .inl ⟨hflag, by simp, hp.1, ?_, rfl⟩
      rw [take_rowsOf_succ, ← hp.2]
  | infer ch x =>
      simp only [Progress, hpc] at hp
      obtain ⟨hinf, hrows, -⟩ := hp
      simp only [workerStep, hpc] at h
      split at h <;> cases h
      · refine .inl ⟨hflag, by simp, .inl hinf, ?_⟩
        rw [hrows]
        exact List.take_prefix _ _
      · refine .inl ⟨hflag, by simp, ?_, hrows⟩
        simp only [hinf, hrows]
        by_cases hlast : (ch : ℕ) + 1 = C
        · simp only [noteInferred, hlast, if_true, take_rowsOf_all]
        · rw [noteInferred_of_ne hlast, noteInferred_of_ne hlast]
  | writeRow ch y =>
      simp only [Progress, hpc] at hp
      obtain ⟨hinf, hrows⟩ := hp
      simp only [workerStep, hpc] at h
      split at h <;> cases h
      · refine .inl ⟨hflag, by simp, ?_, hrows ▸ List.take_prefix _ _⟩
        simp only [hinf, noteInferred]
        split
        · exact .inr rfl
        · exact .inl rfl
      · exact .inl ⟨hflag, hloop _, progress_loopFrom ch.isLt hinf hrows⟩
  | setOutputReady =>
      simp only [Progress, hpc] at hp
      simp only [workerStep, hpc, Option.some.injEq, Prod.mk.injEq] at h
      obtain ⟨rfl, rfl⟩ := h
      exact .inl ⟨hflag, by simp, hp⟩
  | clearInputReady =>
      simp only [Progress, hpc] at hp
      simp only [workerStep, hpc, Option.some.injEq, Prod.mk.injEq] at h
      obtain ⟨rfl, rfl⟩ := h
      exact .inr ⟨rfl, rfl, rfl, hp.1⟩
  | raised => simp [workerStep, hpc] at h

theorem inputInv_worker (h : InputInv m w p) (hs : workerStep k w m = some (w', m')) :
    InputInv m' w' p := by
  have hin := workerStep_input hs
  by_cases hflag : m.isInputReady = true
  · have hidle : ∀ b written, p.pc ≠ .writing b written := by
      intro b written hpc
      simp [(h.writing b written hpc).1] at hflag
    obtain ⟨before, hpub, hp⟩ := h.outstanding hflag
    rcases progress_worker hflag hp hs with ⟨hflag', hpoll, hp'⟩ | ⟨-, hpc', hflag', hinf⟩
    · exact
        { writing := fun b written hpc => absurd hpc (hidle b written)
          busy := fun _ => hflag'
          settled := fun hf => by simp [hflag'] at hf
          outstanding := fun _ => ⟨before, by rw [hin]; exact hpub, by rw [hin]; exact hp'⟩ }
    · exact
        { writing := fun b written hpc => absurd hpc (hidle b written)
          busy := fun hpoll => absurd hpc' hpoll
          settled := fun _ => by rw [hinf, hpub, List.map_append]; rfl
          outstanding := fun hf => by simp [hflag'] at hf }
  · -- under a False flag the worker is at its poll, and the poll changes nothing
    have hpoll : w.pc = .poll := by
      by_contra hne
      exact hflag (h.busy hne)
    simp only [workerStep, hpoll, hflag, Bool.false_eq_true, if_false, Option.some.injEq,
      Prod.mk.injEq] at hs
    obtain ⟨rfl, rfl⟩ := hs
    exact h

theorem inputInv_input {a : InputAct C Row} (h : InputInv m w p)
    (hs : inputStep p a m = some (p', m')) : InputInv m' w p' := by
  cases hpc : p.pc with
  | idle =>
      cases a with
      | load b =>
          simp only [inputStep, hpc] at hs
          split at hs
          · cases hs
            exact h
          · rename_i hflag
            cases hs
            exact
              { writing := fun b' written hw => by
                  cases hw
                  exact ⟨by simpa using hflag, by simp⟩
                busy := h.busy
                settled := h.settled
                outstanding := fun hf => absurd hf hflag }
      | writeRow ch => simp [inputStep, hpc] at hs
      | publish => simp [inputStep, hpc] at hs
  | writing b written =>
      obtain ⟨hflag, hrows⟩ := h.writing b written hpc
      cases a with
      | load b' => simp [inputStep, hpc] at hs
      | writeRow ch =>
          simp only [inputStep, hpc, Option.some.injEq, Prod.mk.injEq] at hs
          obtain ⟨rfl, rfl⟩ := hs
          refine ⟨fun b' written' hw => ?_, h.busy, h.settled, fun hf => by simp [hflag] at hf⟩
          cases hw
          refine ⟨hflag, fun c hc => ?_⟩
          by_cases hcc : c = ch
          · subst hcc
            exact Function.update_self ..
          · rw [Finset.mem_insert, or_iff_right hcc] at hc
            simpa [Function.update_of_ne hcc] using hrows c hc
      | publish =>
          simp only [inputStep, hpc] at hs
          split at hs <;> cases hs
          rename_i hall
          have hblock : m.input = b := funext fun ch => hrows ch (hall ▸ Finset.mem_univ ch)
          have hpoll : w.pc = .poll := by
            by_contra hne
            simp [h.busy hne] at hflag
          refine ⟨by simp, fun hne => absurd hpoll hne, by simp, fun _ => ?_⟩
          refine ⟨p.published, by rw [hblock], ?_⟩
          simp only [Progress, hpoll]
          exact h.settled hflag

end Preservation

/-- What the invariant says to an outside observer: the blocks inferred are the
published ones in order, at most the last is missing, what the worker has read
of the current one is a prefix of its rows, and when it is about to store
`is_input_ready = False` none is missing. -/
structure Faithful (w : Worker C Row Out) (published : List (Block C Row)) : Prop where
  inOrder : w.inferred <+: published.map rowsOf
  oneOutstanding : published.length ≤ w.inferred.length + 1
  whole : w.pc ≠ .poll → ∃ b, published.getLast? = some b ∧ w.rows <+: rowsOf b
  nothingDiscarded : w.pc = .clearInputReady → w.inferred = published.map rowsOf

theorem InputInv.faithful {m : Shared C Row} {w : Worker C Row Out} {p : InputSide C Row}
    (h : InputInv m w p) : Faithful w p.published := by
  by_cases hflag : m.isInputReady = true
  · obtain ⟨before, hpub, hp⟩ := h.outstanding hflag
    have hmap : p.published.map rowsOf = before.map rowsOf ++ [rowsOf m.input] := by
      rw [hpub, List.map_append]; rfl
    -- in every program counter the outstanding block is either counted or not
    have hinf : w.inferred = before.map rowsOf ∨
        w.inferred = before.map rowsOf ++ [rowsOf m.input] := by
      cases hpc : w.pc <;> simp only [Progress, hpc] at hp
      case poll => exact .inl hp
      case readRow ch => exact .inl hp.1
      case infer ch x => exact .inl hp.1
      case writeRow ch y =>
        rw [hp.1, noteInferred]
        split
        · exact .inr rfl
        · exact .inl rfl
      case setOutputReady => exact .inr hp.1
      case clearInputReady => exact .inr hp.1
      case raised => exact hp.1
    refine ⟨?_, ?_, fun hne => ⟨m.input, by simp [hpub], ?_⟩, fun hpc => ?_⟩
    · rw [hmap]
      rcases hinf with hinf | hinf
      · rw [hinf]
        exact List.prefix_append _ _
      · rw [hinf]
    · rw [hpub]
      rcases hinf with hinf | hinf <;> simp [hinf]
    · cases hpc : w.pc <;> simp only [Progress, hpc] at hp
      case poll => exact absurd hpc hne
      case readRow ch => exact hp.2 ▸ List.take_prefix _ _
      case infer ch x => exact hp.2.1 ▸ List.take_prefix _ _
      case writeRow ch y => exact hp.2 ▸ List.take_prefix _ _
      case setOutputReady => rw [hp.2]
      case clearInputReady => rw [hp.2]
      case raised => exact hp.2
    · simp only [Progress, hpc] at hp
      rw [hp.1, hmap]
  · have hset := h.settled (by simpa using hflag)
    refine ⟨hset ▸ List.prefix_rfl, by rw [hset]; simp, fun hne => ?_, fun _ => hset⟩
    exact absurd (h.busy hne) hflag

def slotInit (input output : Block C Row) : State C Row Out (InputSide C Row) :=
  ⟨Shared.init input output, Worker.init, InputSide.init⟩

theorem slotStep_inv {k : Backend Row Out} {s s' : State C Row Out (InputSide C Row)}
    {t : Turn (SlotAct C Row)} (h : InputInv s.shared s.worker s.cpp)
    (hs : step k slotStep s t = some s') : InputInv s'.shared s'.worker s'.cpp := by
  cases t with
  | worker =>
      obtain ⟨w, m, hw, rfl⟩ := step_worker_eq_some.mp hs
      exact inputInv_worker h hw
  | cpp a =>
      obtain ⟨p, m, hp, rfl⟩ := step_cpp_eq_some.mp hs
      cases a with
      | input a => exact inputInv_input h hp
      | storeOutputReady v =>
          cases hp
          exact h.congr rfl rfl

/-- Whatever the C++ side does to the output slot, every published block is
inferred once, whole and in order, and none is discarded. -/
theorem published_inferred_once (k : Backend Row Out) (input output : Block C Row)
    (acts : List (Turn (SlotAct C Row))) :
    Runs.Along (step k slotStep) (fun s => Faithful s.worker s.cpp.published)
      (slotInit input output) acts := by
  have hinit : InputInv (Shared.init input output) (Worker.init : Worker C Row Out)
      InputSide.init := inputInv_init input output
  refine ⟨hinit.faithful, ?_⟩
  exact Runs.EachStep.imp
    (I := fun s => InputInv s.shared s.worker s.cpp) (G := fun _ _ _ => True)
    (fun s t s' h hs _ => slotStep_inv h hs)
    (fun s t s' h hs _ => (slotStep_inv h hs).faithful) hinit (Runs.EachStep.trivial _ _)

end MabTilde.Exchange

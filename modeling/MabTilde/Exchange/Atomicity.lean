import MabTilde.Exchange.Samples

/-!
Rows may be taken for atomic.

The sample-level exchange refines the row-level one. `Agrees` relates the two:
the flags are the same, and so is what a party that owns a buffer finds there;
of the buffer a party is busy with only as much is said as it has done. The
loads and stores of samples are invisible above. A row counts as read with its
last sample, as written with the end of its copy, a block as written when it
is published and as copied when its flag is cleared.
-/

namespace MabTilde.Samples

open Bytes

variable {sm : SharedMemoryManager}

def overlay (new : List Sample) (row : Row sm) : Row sm := fun i => new[(i : ℕ)]?.getD (row i)

def rowBackend (sm : SharedMemoryManager) (model : Model) : Exchange.Backend (Row sm) Tensor where
  inferBlock x := inferBlock model (NdArray.ofRow (List.ofFn x))
  writeBack row y := (assigned sm.blockSize.toNat y).map fun new => overlay new row

/-! ### The relation -/

section Relation

variable {C B : ℕ}

def coarsePc : WorkerPc C B → Exchange.WorkerPc C (Fin B → Sample) Tensor
  | .poll => .poll
  | .readSample ch _ _ => .readRow ch
  | .infer ch x => .infer ch x
  | .assign ch y | .storeSample ch y _ _ => .writeRow ch y
  | .setOutputReady => .setOutputReady
  | .clearInputReady => .clearInputReady
  | .raised => .raised

/-- The worker, rows being read and written at once. -/
def coarse (w : Worker C B) : Exchange.Worker C (Fin B → Sample) Tensor :=
  ⟨coarsePc w.pc, w.rows, w.inferred⟩

def Reading (w : Worker C B) (input : Exchange.Block C (Fin B → Sample)) : Prop :=
  match w.pc with
  | .readSample ch i x => i ≤ B ∧ ∀ j : Fin B, (j : ℕ) < i → x j = input ch j
  | _ => True

/-- Of the row being copied the samples stored are new and the rest is old. -/
def Storing (w : Worker sm.numChannels.toNat sm.blockSize.toNat) (old now : Block sm) : Prop :=
  match w.pc with
  | .storeSample ch y new i =>
      assigned sm.blockSize.toNat y = some new ∧ i ≤ new.length ∧
        now = Function.update old ch (overlay (new.take i) (old ch))
  | _ => now = old

def Filling (p : FillSide sm) (q : Exchange.InputSide sm.numChannels.toNat (Row sm))
    (now : Block sm) : Prop :=
  match p.pc with
  | .idle => q.pc = .idle
  | .writing b written => q.pc = .writing b ∅ ∧ ∀ c ∈ written, now c.1 c.2 = b c.1 c.2

def Copying (p : CopySide sm) (q : Exchange.OutputSide sm.numChannels.toNat (Row sm))
    (output : Block sm) : Prop :=
  match p.pc with
  | .idle => q.pc = .idle
  | .copying got => q.pc = .copying ∅ ∧ ∀ c ∈ got, p.outs c.1 c.2 = output c.1 c.2

/-- Memory, worker and the filling half of the C++ side against what they are
where rows are atomic. -/
structure Agrees (mem : Memory) (w : Worker sm.numChannels.toNat sm.blockSize.toNat)
    (p : FillSide sm) (m : Exchange.Shared sm.numChannels.toNat (Row sm))
    (q : Exchange.InputSide sm.numChannels.toNat (Row sm)) : Prop where
  inputReady : m.isInputReady = flag .isInputReady mem
  outputReady : m.isOutputReady = flag .isOutputReady mem
  /-- A block that is published lies in the bytes as it is. -/
  input : m.isInputReady = true → block sm .input mem = m.input
  output : Storing w m.output (block sm .output mem)
  reading : Reading w m.input
  filling : Filling p q (block sm .input mem)
  published : q.published = p.published

end Relation

section Rows

variable {new : List Sample} {row : Row sm} {y : Tensor} {model : Model}

@[simp] theorem overlay_nil : overlay [] row = row := by
  funext i
  simp [overlay]

theorem overlay_take_succ {i : Fin sm.blockSize.toNat} {v : Sample}
    (hv : new[(i : ℕ)]? = some v) :
    Function.update (overlay (new.take i) row) i v = overlay (new.take (i + 1)) row := by
  funext j
  unfold overlay
  by_cases hj : j = i
  · subst hj
    rw [Function.update_self, List.getElem?_take_of_lt (Nat.lt_succ_self _), hv, Option.getD_some]
  · have hne : (j : ℕ) ≠ i := fun h => hj (Fin.ext h)
    rw [Function.update_of_ne hj]
    by_cases hlt : (j : ℕ) < i
    · rw [List.getElem?_take_of_lt hlt, List.getElem?_take_of_lt (by omega)]
    · rw [List.getElem?_take_eq_none (by omega), List.getElem?_take_eq_none (by omega)]

theorem writeBack_ofFn :
    (backend model sm.blockSize.toNat).writeBack (List.ofFn row) y =
      ((rowBackend sm model).writeBack row y).map List.ofFn := by
  show (assigned _ y).map _ = ((assigned _ y).map _).map _
  cases hnew : assigned sm.blockSize.toNat y with
  | none => rfl
  | some new =>
      obtain ⟨d, s, -, hlen⟩ := length_assigned hnew
      rw [Option.map_some, Option.map_some, Option.map_some]
      congr 1
      apply List.ext_getElem?
      intro i
      by_cases hi : i < sm.blockSize.toNat
      · rw [List.getElem?_ofFn, dif_pos hi]
        by_cases hnew : i < new.length
        · rw [List.getElem?_append_left hnew]
          simp [overlay, List.getElem?_eq_getElem hnew]
        · rw [List.getElem?_append_right (by omega), List.getElem?_drop,
            Nat.add_sub_cancel' (by omega), List.getElem?_ofFn, dif_pos hi]
          simp [overlay, List.getElem?_eq_none (Nat.le_of_not_lt hnew)]
      · rw [List.getElem?_eq_none, List.getElem?_eq_none]
        · rw [List.length_ofFn]
          omega
        · rw [List.length_append, List.length_drop, List.length_ofFn]
          omega

end Rows

/-! ### The worker -/

section Worker

variable {model : Model} {mem mem' : Memory} {p : FillSide sm}
  {w w' : Worker sm.numChannels.toNat sm.blockSize.toNat}
  {m : Exchange.Shared sm.numChannels.toNat (Row sm)}
  {q : Exchange.InputSide sm.numChannels.toNat (Row sm)}

theorem coarse_loopFrom {C B n : ℕ} {rows : List (Fin B → Sample)}
    {inferred : List (List (Fin B → Sample))} :
    coarse ⟨loopFrom C B n, rows, inferred⟩ = ⟨Exchange.loopFrom C _ _ n, rows, inferred⟩ := by
  unfold coarse loopFrom Exchange.loopFrom
  split <;> rfl

theorem coarse_eq_poll_iff {C B : ℕ} {w : Worker C B} : (coarse w).pc = .poll ↔ w.pc = .poll := by
  obtain ⟨pc, rows, inferred⟩ := w
  cases pc <;> simp [coarse, coarsePc]

theorem reading_loopFrom {C B n : ℕ} {rows : List (Fin B → Sample)}
    {inferred : List (List (Fin B → Sample))} {input : Exchange.Block C (Fin B → Sample)} :
    Reading ⟨loopFrom C B n, rows, inferred⟩ input := by
  unfold loopFrom
  split
  · exact ⟨Nat.zero_le B, fun j hj => absurd hj (Nat.not_lt_zero _)⟩
  · exact True.intro

theorem storing_loopFrom {n : ℕ} {rows : List (Row sm)} {inferred : List (List (Row sm))}
    {old : Block sm} : Storing ⟨loopFrom _ _ n, rows, inferred⟩ old old := by
  unfold loopFrom
  split <;> rfl

theorem Agrees.readSample {ch : Fin sm.numChannels.toNat} {i : ℕ} {x : Row sm}
    {rows : List (Row sm)} {inferred : List (List (Row sm))}
    (h : Agrees mem ⟨.readSample ch i x, rows, inferred⟩ p m q)
    (hin : block sm .input mem = m.input) (hlt : i < sm.blockSize.toNat) :
    Agrees mem ⟨.readSample ch (i + 1)
      (Function.update x ⟨i, hlt⟩ (loadSample sm ⟨.input, ch, i⟩ mem)), rows, inferred⟩ p m q := by
  obtain ⟨-, hread⟩ : i ≤ _ ∧ ∀ j : Fin _, (j : ℕ) < i → x j = m.input ch j := h.reading
  refine { h with reading := ⟨hlt, ?_⟩ }
  intro j hj
  by_cases hji : j = ⟨i, hlt⟩
  · subst hji
    rw [Function.update_self, ← hin]
    rfl
  · rw [Function.update_of_ne hji]
    apply hread
    have hne : (j : ℕ) ≠ i := fun h => hji (Fin.ext h)
    omega

theorem Agrees.assign {ch : Fin sm.numChannels.toNat} {y : Tensor} {new : List Sample}
    {rows : List (Row sm)} {inferred : List (List (Row sm))}
    (h : Agrees mem ⟨.assign ch y, rows, inferred⟩ p m q)
    (hnew : assigned sm.blockSize.toNat y = some new) :
    Agrees mem ⟨.storeSample ch y new 0, rows, inferred⟩ p m q := by
  have hout : block sm .output mem = m.output := h.output
  refine { h with output := ⟨hnew, Nat.zero_le _, ?_⟩, reading := True.intro }
  rw [List.take_zero, overlay_nil, Function.update_eq_self, hout]

theorem Agrees.index_lt {ch : Fin sm.numChannels.toNat} {y : Tensor} {new : List Sample}
    {i : ℕ} {v : Sample} {rows : List (Row sm)} {inferred : List (List (Row sm))}
    (h : Agrees mem ⟨.storeSample ch y new i, rows, inferred⟩ p m q) (hv : new[i]? = some v) :
    i < sm.blockSize.toNat := by
  have hnew : assigned sm.blockSize.toNat y = some new := h.output.1
  obtain ⟨hlt, -⟩ := List.getElem?_eq_some_iff.mp hv
  obtain ⟨d, s, -, hlen⟩ := length_assigned hnew
  omega

theorem Agrees.storeSample {ch : Fin sm.numChannels.toNat} {y : Tensor} {new : List Sample}
    {i : ℕ} {v : Sample} {rows : List (Row sm)} {inferred : List (List (Row sm))}
    (h : Agrees mem ⟨.storeSample ch y new i, rows, inferred⟩ p m q) (hv : new[i]? = some v) :
    Agrees (Samples.storeSample sm ⟨.output, ch, i⟩ v mem)
      ⟨.storeSample ch y new (i + 1), rows, inferred⟩ p m q := by
  obtain ⟨hnew, -, hout⟩ : assigned sm.blockSize.toNat y = some new ∧ i ≤ new.length ∧
    block sm .output mem = Function.update m.output ch (overlay (new.take i) (m.output ch)) :=
      h.output
  obtain ⟨hlt, -⟩ := List.getElem?_eq_some_iff.mp hv
  obtain ⟨k, rfl⟩ : ∃ k : Fin sm.blockSize.toNat, (k : ℕ) = i := ⟨⟨i, h.index_lt hv⟩, rfl⟩
  have hviews := inViews .output ch k
  have hother : block sm .input (Samples.storeSample sm ⟨.output, ch, k⟩ v mem) =
      block sm .input mem := block_storeSample_of_ne output_ne_input.symm
  refine ⟨?_, ?_, ?_, ⟨hnew, hlt, ?_⟩, True.intro, ?_, h.published⟩
  · rw [flag_storeSample hviews, h.inputReady]
  · rw [flag_storeSample hviews, h.outputReady]
  · rw [hother]
    exact h.input
  · rw [block_storeSample_self, hout, Function.update_self, Function.update_idem,
      overlay_take_succ hv]
  · rw [hother]
    exact h.filling

theorem Agrees.storeOutputReady (h : Agrees mem w p m q) (v : Bool) :
    Agrees (Side.python.write mem .isOutputReady (if v then 1 else 0)) w p
      { m with isOutputReady := v } q := by
  refine ⟨?_, ?_, ?_, ?_, h.reading, ?_, h.published⟩
  · exact h.inputReady.trans (flag_write_of_ne (by decide)).symm
  · rw [flag_write_self]
    cases v <;> rfl
  · rw [block_write]
    exact h.input
  · rw [block_write]
    exact h.output
  · rw [block_write]
    exact h.filling

/-- One step of the worker is one step or none of the worker that takes rows for
atomic. -/
theorem worker_simulated (h : Agrees mem w p m q)
    (hinv : Exchange.InputInv m (coarse w) q) (hs : workerStep sm model w mem = some (w', mem')) :
    (coarse w' = coarse w ∧ Agrees mem' w' p m q) ∨
      ∃ m', Exchange.workerStep (rowBackend sm model) (coarse w) m = some (coarse w', m') ∧
        Agrees mem' w' p m' q := by
  have hbusy : coarsePc w.pc ≠ .poll → block sm .input mem = m.input := by
    intro hne
    exact h.input (hinv.busy hne)
  cases workerStep_cases hs with
  | wait hflag =>
      right
      refine ⟨m, ?_, h⟩
      simp only [Exchange.workerStep, coarse, coarsePc, h.inputReady, hflag]
      rfl
  | begin hflag =>
      have hout : block sm .output mem = m.output := h.output
      right
      refine ⟨m, ?_, { h with output := ?_, reading := reading_loopFrom }⟩
      · rw [coarse_loopFrom]
        simp only [Exchange.workerStep, coarse, coarsePc, h.inputReady, hflag, if_true]
      · rw [hout]
        exact storing_loopFrom
  | readSample hlt => exact .inl ⟨rfl, h.readSample (hbusy (by simp [coarsePc])) hlt⟩
  | @rowRead ch i x _ _ hge =>
      obtain ⟨hi, hread⟩ : i ≤ _ ∧ ∀ j : Fin _, (j : ℕ) < i → x j = m.input ch j := h.reading
      have hx : x = m.input ch := by
        funext j
        apply hread
        omega
      right
      refine ⟨m, ?_, { h with reading := True.intro }⟩
      rw [hx]
      rfl
  | inferRaises hy | infers hy =>
      right
      refine ⟨m, ?_, { h with reading := True.intro }⟩
      simp only [Exchange.workerStep, coarse, coarsePc, rowBackend, hy]
  | assignRaises hnew =>
      right
      refine ⟨m, ?_, { h with reading := True.intro }⟩
      simp only [Exchange.workerStep, coarse, coarsePc, rowBackend, hnew, Option.map_none]
  | assigns hnew => exact .inl ⟨rfl, h.assign hnew⟩
  | storeSample hv => exact .inl ⟨rfl, h.storeSample hv⟩
  | @rowStored ch y new i _ _ hv =>
      obtain ⟨hnew, hi, hout⟩ : assigned sm.blockSize.toNat y = some new ∧ i ≤ new.length ∧
        block sm .output mem = Function.update m.output ch (overlay (new.take i) (m.output ch)) :=
          h.output
      rw [List.take_of_length_le (List.getElem?_eq_none_iff.mp hv)] at hout
      right
      refine ⟨{ m with output := Function.update m.output ch (overlay new (m.output ch)) },
        ?_, { h with output := ?_, reading := reading_loopFrom }⟩
      · rw [coarse_loopFrom]
        simp only [Exchange.workerStep, coarse, coarsePc, rowBackend, hnew, Option.map_some]
      · rw [hout]
        exact storing_loopFrom
  | setOutputReady =>
      have hset := h.storeOutputReady true
      exact .inr ⟨_, rfl, { hset with output := hset.output, reading := True.intro }⟩
  | clearInputReady =>
      right
      refine ⟨{ m with isInputReady := false }, rfl,
        ⟨?_, ?_, fun hflag => absurd hflag Bool.false_ne_true, ?_, True.intro, ?_, h.published⟩⟩
      · rw [flag_write_self]
        rfl
      · exact h.outputReady.trans (flag_write_of_ne (by decide)).symm
      · rw [block_write]
        exact h.output
      · rw [block_write]
        exact h.filling

end Worker

/-! ### The C++ side

What it does to a block sample by sample is done above when the block changes
hands: all rows at once, and the flag. -/

section Callback

variable {C : ℕ} {R : Type}

def inputRun (x : Exchange.InputSide C R × Exchange.Shared C R) (a : Exchange.InputAct C R) :
    Option (Exchange.InputSide C R × Exchange.Shared C R) :=
  Exchange.inputStep x.1 a x.2

def outputRun (x : Exchange.OutputSide C R × Exchange.Shared C R) (a : Exchange.OutputAct C) :
    Option (Exchange.OutputSide C R × Exchange.Shared C R) :=
  Exchange.outputStep x.1 a x.2

theorem exec_writeRows (b : Exchange.Block C R) (written : Finset (Fin C))
    (published : List (Exchange.Block C R)) (m : Exchange.Shared C R) (l : List (Fin C)) :
    Runs.exec inputRun (⟨.writing b written, published⟩, m) (l.map .writeRow) =
      some (⟨.writing b (written ∪ l.toFinset), published⟩,
        { m with input := fun c => if c ∈ l then b c else m.input c }) := by
  induction l generalizing written m with
  | nil => simp
  | cons ch l ih =>
      have hstep : inputRun (⟨.writing b written, published⟩, m) (.writeRow ch) =
          some (⟨.writing b (insert ch written), published⟩,
            { m with input := Function.update m.input ch (b ch) }) := rfl
      have hset : insert ch written ∪ l.toFinset = written ∪ (ch :: l).toFinset := by
        rw [List.toFinset_cons, Finset.insert_union, Finset.union_insert]
      rw [List.map_cons, Runs.exec_cons_of_step hstep, ih, hset]
      congr 3
      funext c
      by_cases hc : c = ch
      · subst hc
        simp
      · simp [hc]

theorem exec_publish {b : Exchange.Block C R} {q : Exchange.InputSide C R}
    (hq : q.pc = .writing b ∅) (m : Exchange.Shared C R) :
    Runs.exec inputRun (q, m) ((List.finRange C).map .writeRow ++ [.publish]) =
      some (⟨.idle, q.published ++ [b]⟩, { m with input := b, isInputReady := true }) := by
  obtain ⟨pc, published⟩ := q
  obtain rfl : pc = .writing b ∅ := hq
  rw [Runs.exec_append, exec_writeRows]
  simp [Runs.exec_cons, inputRun, Exchange.inputStep, List.toFinset_finRange]

theorem exec_copyRows (got : Finset (Fin C)) (outs : Exchange.Block C R)
    (copied : List (Exchange.Block C R)) (m : Exchange.Shared C R) (l : List (Fin C)) :
    Runs.exec outputRun (⟨.copying got, outs, copied⟩, m) (l.map .copyRow) =
      some (⟨.copying (got ∪ l.toFinset), fun c => if c ∈ l then m.output c else outs c, copied⟩,
        m) := by
  induction l generalizing got outs with
  | nil => simp
  | cons ch l ih =>
      have hstep : outputRun (⟨.copying got, outs, copied⟩, m) (.copyRow ch) =
          some (⟨.copying (insert ch got), Function.update outs ch (m.output ch), copied⟩, m) := rfl
      have hset : insert ch got ∪ l.toFinset = got ∪ (ch :: l).toFinset := by
        rw [List.toFinset_cons, Finset.insert_union, Finset.union_insert]
      rw [List.map_cons, Runs.exec_cons_of_step hstep, ih, hset]
      congr 3
      funext c
      by_cases hc : c = ch
      · subst hc
        simp
      · simp [hc]

theorem exec_copyBlock {q : Exchange.OutputSide C R} (hq : q.pc = .copying ∅)
    (m : Exchange.Shared C R) :
    Runs.exec outputRun (q, m) ((List.finRange C).map .copyRow ++ [.clear]) =
      some (⟨.idle, m.output, q.copied ++ [m.output]⟩, { m with isOutputReady := false }) := by
  obtain ⟨pc, outs, copied⟩ := q
  obtain rfl : pc = .copying ∅ := hq
  rw [Runs.exec_append, exec_copyRows]
  simp [Runs.exec_cons, outputRun, Exchange.outputStep, List.toFinset_finRange]

variable {mem mem' : Memory} {w : Worker sm.numChannels.toNat sm.blockSize.toNat}
  {m : Exchange.Shared sm.numChannels.toNat (Row sm)}
  {p p' : FillSide sm} {q : Exchange.InputSide sm.numChannels.toNat (Row sm)}

theorem flag_eq_false_iff {f : Field} : flag f mem = false ↔ Side.python.read mem f = 0 := by
  simp [flag]

theorem filling_writeSample {b : Block sm}
    {written : Finset (Fin sm.numChannels.toNat × Fin sm.blockSize.toNat)}
    (h : ∀ c ∈ written, block sm .input mem c.1 c.2 = b c.1 c.2)
    (ch : Fin sm.numChannels.toNat) (i : Fin sm.blockSize.toNat) :
    ∀ c ∈ insert (ch, i) written,
      block sm .input (storeSample sm ⟨.input, ch, i⟩ (b ch i) mem) c.1 c.2 = b c.1 c.2 := by
  rintro ⟨ch', i'⟩ hc
  show loadSample sm ⟨.input, ch', i'⟩ _ = b ch' i'
  by_cases hsame : (ch', i') = (ch, i)
  · obtain ⟨rfl, rfl⟩ := Prod.mk.inj hsame
    exact loadSample_storeSample_self
  · rw [Finset.mem_insert, or_iff_right hsame] at hc
    refine (loadSample_storeSample_of_ne (inViews .input ch i) (inViews .input ch' i') ?_).trans
      (h _ hc)
    intro heq
    apply hsame
    rw [Fin.ext (congrArg Place.channel heq), Fin.ext (congrArg Place.index heq)]

/-- A step of the filling half is a run of it where rows are atomic. -/
theorem fill_simulated {a : FillAct sm} (h : Agrees mem w p m q)
    (hinv : Exchange.InputInv m (coarse w) q) (hs : fillStep .python p a mem = some (p', mem')) :
    ∃ as q' m', Runs.exec inputRun (q, m) as = some (q', m') ∧ Agrees mem' w p' m' q' ∧
      m'.output = m.output ∧ m'.isOutputReady = m.isOutputReady := by
  obtain ⟨pc, published⟩ := p
  cases pc with
  | idle =>
      have hidle : q.pc = .idle := h.filling
      cases a with
      | load b =>
          simp only [fillStep] at hs
          split at hs
          · rename_i hread
            cases hs
            have hflag : m.isInputReady = false := h.inputReady.trans (flag_eq_false_iff.mpr hread)
            refine ⟨[.load b], { q with pc := .writing b ∅ }, m, ?_, ?_, rfl, rfl⟩
            · simp [Runs.exec_cons, inputRun, Exchange.inputStep, hidle, hflag]
            · exact { h with filling := ⟨rfl, by simp⟩, published := h.published }
          · cases hs
            exact ⟨[], q, m, rfl, h, rfl, rfl⟩
      | writeSample ch i => simp [fillStep] at hs
      | publish => simp [fillStep] at hs
  | writing b written =>
      obtain ⟨hq, hwritten⟩ : q.pc = .writing b ∅ ∧
        ∀ c ∈ written, block sm .input mem c.1 c.2 = b c.1 c.2 := h.filling
      -- the flag is False, so the worker is at its poll and has no row in hand
      have hflag := (hinv.writing b ∅ hq).1
      have hpoll : w.pc = .poll := by
        apply coarse_eq_poll_iff.mp
        by_contra hne
        exact absurd (hinv.busy hne) (by simp [hflag])
      have hreading : ∀ input, Reading w input := by
        intro input
        rw [Reading, hpoll]
        exact True.intro
      have hout : block sm .output mem = m.output := by
        have hstoring := h.output
        rwa [Storing, hpoll] at hstoring
      have hstoring : ∀ old : Block sm, Storing w old old := by
        intro old
        rw [Storing, hpoll]
      cases a with
      | load b' => simp [fillStep] at hs
      | writeSample ch i =>
          simp only [fillStep, Option.some.injEq, Prod.mk.injEq] at hs
          obtain ⟨rfl, rfl⟩ := hs
          have hviews := inViews .input ch i
          have hother : block sm .output (storeSample sm ⟨.input, ch, i⟩ (b ch i) mem) =
              block sm .output mem := block_storeSample_of_ne output_ne_input
          refine ⟨[], q, m, rfl, ⟨?_, ?_, ?_, ?_, hreading _, ?_, h.published⟩, rfl, rfl⟩
          · rw [flag_storeSample hviews, h.inputReady]
          · rw [flag_storeSample hviews, h.outputReady]
          · intro htrue
            exact absurd htrue (by simp [hflag])
          · rw [hother, hout]
            exact hstoring _
          · exact ⟨hq, filling_writeSample hwritten ch i⟩
      | publish =>
          simp only [fillStep] at hs
          split at hs <;> cases hs
          rename_i hall
          have hblock : block sm .input mem = b := by
            funext ch i
            exact hwritten (ch, i) (hall ▸ Finset.mem_univ _)
          refine ⟨_, _, _, exec_publish hq m,
            ⟨?_, ?_, ?_, ?_, hreading _, rfl, ?_⟩, rfl, rfl⟩
          · rw [flag_write_self]
            rfl
          · exact h.outputReady.trans (flag_write_of_ne (by decide)).symm
          · intro _
            rw [block_write, hblock]
          · rw [block_write, hout]
            exact hstoring _
          · rw [h.published]

end Callback

/-! ### The input slot -/

section InputSlot

variable {model : Model} {s s' : State sm}
  {t t' : Exchange.State sm.numChannels.toNat (Row sm) Tensor
    (Exchange.InputSide sm.numChannels.toNat (Row sm))}

/-- The sample-level exchange against the row-level one of the input slot. -/
structure InputAgrees (s : State sm) (t : Exchange.State sm.numChannels.toNat (Row sm) Tensor
    (Exchange.InputSide sm.numChannels.toNat (Row sm))) : Prop where
  worker : t.worker = coarse s.worker
  agrees : Agrees s.memory s.worker s.cpp.fill t.shared t.cpp

theorem fillStep_cases {side : Side} {p p' : FillSide sm} {a : FillAct sm} {mem mem' : Memory}
    (h : fillStep side p a mem = some (p', mem')) :
    (p'.published = p.published ∧ mem' = mem) ∨
      (p'.published = p.published ∧ ∃ ch i v, mem' = storeSample sm
        ⟨.input, (ch : Fin sm.numChannels.toNat), (i : Fin sm.blockSize.toNat)⟩ v mem) ∨
      ∃ b, p'.published = p.published ++ [b] ∧ mem' = side.write mem .isInputReady 1 := by
  unfold fillStep at h
  split at h <;> (try split at h) <;> cases h
  · exact .inl ⟨rfl, rfl⟩
  · exact .inl ⟨rfl, rfl⟩
  · exact .inr (.inl ⟨rfl, _, _, _, rfl⟩)
  · exact .inr (.inr ⟨_, rfl, rfl⟩)

theorem copyStep_memory {side : Side} {p p' : CopySide sm} {a : CopyAct sm} {mem mem' : Memory}
    (h : copyStep side p a mem = some (p', mem')) :
    mem' = mem ∨ mem' = side.write mem .isOutputReady 0 := by
  unfold copyStep at h
  split at h <;> (try split at h) <;> cases h
  · exact .inl rfl
  · exact .inl rfl
  · exact .inl rfl
  · exact .inr rfl

theorem exec_input (as : List (Exchange.InputAct sm.numChannels.toNat (Row sm))) :
    Runs.exec (Exchange.step (rowBackend sm model) Exchange.slotStep) t
        (as.map fun a => .cpp (.input a)) =
      (Runs.exec inputRun (t.cpp, t.shared) as).map fun x => { t with cpp := x.1, shared := x.2 } :=
  Runs.exec_embed (fun x => { t with cpp := x.1, shared := x.2 })
    (fun a => Exchange.Turn.cpp (Exchange.SlotAct.input a)) (fun _ _ => rfl) (t.cpp, t.shared) as

/-- The sample-level exchange refines the row-level one, whatever the C++ side
does to the output slot. -/
theorem input_refines (model : Model) :
    Runs.Refines (step model .python) (fun _ _ _ => True)
      (Exchange.step (rowBackend sm model) Exchange.slotStep) (fun _ _ _ => True)
      (fun t => Exchange.InputInv t.shared t.worker t.cpp) InputAgrees where
  keeps t b t' hI hb _ := Exchange.slotStep_inv hI hb
  simulates s t a s' hI hR hs _ := by
    obtain ⟨hw, h⟩ := hR
    rw [hw] at hI
    cases a with
    | worker =>
        obtain ⟨r, hr, rfl⟩ := Option.map_eq_some_iff.mp hs
        rcases worker_simulated h hI hr with ⟨hsame, h'⟩ | ⟨m', hm', h'⟩
        · exact ⟨[], t, rfl, True.intro, hw.trans hsame.symm, h'⟩
        · rw [← hw] at hm'
          have hstep : Exchange.step (rowBackend sm model) Exchange.slotStep t .worker =
              some { t with worker := coarse r.1, shared := m' } :=
            Exchange.step_worker_eq_some.mpr ⟨_, _, hm', rfl⟩
          exact ⟨[.worker], _, Runs.exec_cons_of_step hstep, Runs.EachStep.trivial _ _, rfl, h'⟩
    | cpp a =>
        obtain ⟨r, hr, rfl⟩ := Option.map_eq_some_iff.mp hs
        cases a with
        | fill a =>
            obtain ⟨r', hr', rfl⟩ := Option.map_eq_some_iff.mp hr
            obtain ⟨as, q', m', hexec, h', -, -⟩ := fill_simulated h hI hr'
            refine ⟨as.map fun a => .cpp (.input a), { t with cpp := q', shared := m' }, ?_,
              Runs.EachStep.trivial _ _, hw, h'⟩
            rw [exec_input, hexec, Option.map_some]
        | copy a =>
            obtain ⟨r', hr', rfl⟩ := Option.map_eq_some_iff.mp hr
            rcases copyStep_memory hr' with hmem | hmem
            · refine ⟨[], t, rfl, True.intro, hw, ?_⟩
              show Agrees r'.2 _ _ _ _
              rw [hmem]
              exact h
            · refine ⟨[.cpp (.storeOutputReady false)], _, rfl, Runs.EachStep.trivial _ _, hw, ?_⟩
              show Agrees r'.2 _ _ _ _
              rw [hmem]
              exact h.storeOutputReady false
        | storeOutputReady v =>
            obtain rfl := Option.some.inj hr
            exact ⟨[.cpp (.storeOutputReady v)], _, rfl, Runs.EachStep.trivial _ _, hw,
              h.storeOutputReady v⟩

theorem workerStep_memory {mem mem' : Memory} {p : FillSide sm}
    {w w' : Worker sm.numChannels.toNat sm.blockSize.toNat}
    {m : Exchange.Shared sm.numChannels.toNat (Row sm)}
    {q : Exchange.InputSide sm.numChannels.toNat (Row sm)} (h : Agrees mem w p m q)
    (hs : workerStep sm model w mem = some (w', mem')) :
    mem' = mem ∨
      (∃ ch i v, mem' = storeSample sm
        ⟨.output, (ch : Fin sm.numChannels.toNat), (i : Fin sm.blockSize.toNat)⟩ v mem) ∨
      ∃ f v, f.isFlag = true ∧ mem' = Side.python.write mem f v := by
  cases workerStep_cases hs with
  | @storeSample ch _ _ i v _ _ hv => exact .inr (.inl ⟨ch, ⟨i, h.index_lt hv⟩, v, rfl⟩)
  | setOutputReady | clearInputReady => exact .inr (.inr ⟨_, _, rfl, rfl⟩)
  | _ => exact .inl rfl

theorem callbackStep_memory {p p' : Callback sm} {a : CallbackAct sm} {mem mem' : Memory}
    (hs : callbackStep .python p a mem = some (p', mem')) :
    mem' = mem ∨
      (∃ ch i v, mem' = storeSample sm
        ⟨.input, (ch : Fin sm.numChannels.toNat), (i : Fin sm.blockSize.toNat)⟩ v mem) ∨
      ∃ f v, f.isFlag = true ∧ mem' = Side.python.write mem f v := by
  cases a with
  | fill a =>
      obtain ⟨r, hr, heq⟩ := Option.map_eq_some_iff.mp hs
      cases heq
      rcases fillStep_cases hr with ⟨-, hmem⟩ | ⟨-, hsample⟩ | ⟨b, -, hmem⟩
      · exact .inl hmem
      · exact .inr (.inl hsample)
      · exact .inr (.inr ⟨_, _, rfl, hmem⟩)
  | copy a =>
      obtain ⟨r, hr, heq⟩ := Option.map_eq_some_iff.mp hs
      cases heq
      rcases copyStep_memory hr with hmem | hmem
      · exact .inl hmem
      · exact .inr (.inr ⟨_, _, rfl, hmem⟩)
  | storeOutputReady v =>
      cases hs
      exact .inr (.inr ⟨_, _, rfl, rfl⟩)

theorem worker_input {w w' : Worker sm.numChannels.toNat sm.blockSize.toNat}
    {mem mem' : Memory} {p : FillSide sm} {m : Exchange.Shared sm.numChannels.toNat (Row sm)}
    {q : Exchange.InputSide sm.numChannels.toNat (Row sm)} (h : Agrees mem w p m q)
    (hs : workerStep sm model w mem = some (w', mem')) :
    block sm .input mem' = block sm .input mem := by
  rcases workerStep_memory h hs with rfl | ⟨ch, i, v, rfl⟩ | ⟨f, v, -, rfl⟩
  · rfl
  · exact block_storeSample_of_ne output_ne_input.symm
  · exact block_write

theorem callback_input {p p' : Callback sm} {a : CallbackAct sm} {mem mem' : Memory}
    (hidle : p.fill.pc = .idle) (hs : callbackStep .python p a mem = some (p', mem')) :
    block sm .input mem' = block sm .input mem := by
  cases a with
  | fill a =>
      obtain ⟨r, hr, heq⟩ := Option.map_eq_some_iff.mp hs
      cases heq
      cases a with
      | load b =>
          simp only [fillStep, hidle] at hr
          split at hr <;> cases hr <;> rfl
      | writeSample ch i => simp [fillStep, hidle] at hr
      | publish => simp [fillStep, hidle] at hr
  | copy a =>
      obtain ⟨r, hr, heq⟩ := Option.map_eq_some_iff.mp hs
      cases heq
      rcases copyStep_memory hr with hmem | hmem
      · rw [hmem]
      · rw [hmem, block_write]
  | storeOutputReady v =>
      cases hs
      exact block_write

/-- Away from its poll the worker has the input rows to itself. -/
theorem input_stable {a : Exchange.Turn (CallbackAct sm)}
    (hI : Exchange.InputInv t.shared t.worker t.cpp) (hR : InputAgrees s t)
    (hs : step model .python s a = some s') (hne : s.worker.pc ≠ .poll) :
    block sm .input s'.memory = block sm .input s.memory := by
  obtain ⟨hw, h⟩ := hR
  cases a with
  | worker =>
      obtain ⟨r, hr, rfl⟩ := Option.map_eq_some_iff.mp hs
      exact worker_input h hr
  | cpp a =>
      obtain ⟨r, hr, rfl⟩ := Option.map_eq_some_iff.mp hs
      apply callback_input _ hr
      have hbusy : t.shared.isInputReady = true := by
        apply hI.busy
        rw [hw]
        exact fun hpoll => hne (coarse_eq_poll_iff.mp hpoll)
      have hfilling := h.filling
      cases hpc : s.cpp.fill.pc with
      | idle => rfl
      | writing b written =>
          rw [Filling, hpc] at hfilling
          exact absurd (hI.writing b ∅ hfilling.1).1 (by simp [hbusy])

/-- Seen sample by sample, the blocks inferred are the published ones, whole and
in order, and the samples of a row stay as they are for as long as the worker
and the model have a view of it. -/
structure Untorn (s s' : State sm) : Prop where
  faithful : Exchange.Faithful (coarse s'.worker) s'.cpp.fill.published
  stable : s.worker.pc ≠ .poll → block sm .input s'.memory = block sm .input s.memory

theorem agrees_of_flags {outs : Block sm} (hin : Side.python.read m .isInputReady = 0)
    (hout : Side.python.read m .isOutputReady = 0) :
    InputAgrees (State.init m outs)
      (Exchange.slotInit (block sm .input m) (block sm .output m)) where
  worker := rfl
  agrees :=
    { inputReady := (flag_eq_false_iff.mpr hin).symm
      outputReady := (flag_eq_false_iff.mpr hout).symm
      input := nofun
      output := rfl
      reading := True.intro
      filling := rfl
      published := rfl }

theorem agrees_init (m : Memory) (outs : Block sm) :
    InputAgrees (State.init (sm.started m) outs)
      (Exchange.slotInit (block sm .input (sm.started m)) (block sm .output (sm.started m))) :=
  agrees_of_flags (SharedMemoryManager.read_started (by decide))
    (SharedMemoryManager.read_started (by decide))

end InputSlot

/-- However the loads and stores of single samples interleave, and whatever the
C++ side does to the output slot: every published block is inferred once, whole
and in order, and no sample of it changes under the worker's views. -/
theorem samples_inferred_once (model : Model) (m : Memory) (outs : Block sm)
    (acts : List (Exchange.Turn (CallbackAct sm))) :
    Runs.EachStep (step model .python) (fun s _ s' => Untorn s s')
      (State.init (sm.started m) outs) acts := by
  refine (input_refines model).eachStep ?_ (Exchange.inputInv_init _ _) (agrees_init m outs)
    (Runs.EachStep.trivial _ _)
  intro s t a s' t' hI hI' hR hR' hs _
  refine ⟨?_, input_stable hI hR hs⟩
  rw [← hR'.worker, ← hR'.agrees.published]
  exact hI'.faithful

end MabTilde.Samples

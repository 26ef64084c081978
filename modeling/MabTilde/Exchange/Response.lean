import MabTilde.ControlLoop
import MabTilde.Exchange.Copies

/-!
How long a published block can stay unanswered.

The loop of the worker waits for nothing but its poll, and before that for the end
of its drain. So from the moment a block is outstanding a number of its own steps
is enough, whatever the C++ side does in between: `rank` counts those of one
iteration, the row of a channel costing `2 * block_size + 4` of them at most, and
to these come the accesses of one drain, paid for message by message.
-/

namespace MabTilde.Samples

open Bytes

/-- The steps one channel takes at most: a load and a store for each sample, and
four between them. -/
def channelSteps (B : ℕ) : ℕ := 2 * B + 4

def iterationSteps (C B : ℕ) : ℕ := C * channelSteps B + 3

def stepsBehind (C B ch : ℕ) : ℕ := (C - (ch + 1)) * channelSteps B + 2

/-- How many steps there are at most to the next poll. -/
def WorkerPc.rank {C B : ℕ} : WorkerPc C B → ℕ
  | .poll => iterationSteps C B
  | .readSample ch i _ => (B - i) + (B + 4) + stepsBehind C B ch
  | .infer ch _ => B + 3 + stepsBehind C B ch
  | .assign ch _ => B + 2 + stepsBehind C B ch
  | .storeSample ch _ _ i => (B - i) + 1 + stepsBehind C B ch
  | .setOutputReady => 2
  | .clearInputReady => 1
  | .raised => 0

def isWorker {A : Type} : Exchange.Turn A → Bool
  | .worker => true
  | .cpp _ => false

variable {sm : SharedMemoryManager}

section Rank

theorem rank_loopFrom {C B n : ℕ} (hn : n ≤ C) :
    (loopFrom C B n).rank = (C - n) * channelSteps B + 2 := by
  unfold loopFrom
  split
  · rename_i hlt
    obtain ⟨d, rfl⟩ : ∃ d, C = n + 1 + d := Nat.exists_eq_add_of_le hlt
    have hrest : n + 1 + d - (n + 1) = d := by omega
    have hall : n + 1 + d - n = d + 1 := by omega
    simp only [WorkerPc.rank, stepsBehind]
    rw [hrest, hall, Nat.succ_mul, channelSteps]
    omega
  · have hzero : C - n = 0 := by omega
    rw [hzero, Nat.zero_mul]
    rfl

variable {model : Model} {mem mem' : Memory} {p : FillSide sm}
  {w w' : Worker sm.numChannels.toNat sm.blockSize.toNat}
  {m : Exchange.Shared sm.numChannels.toNat (Row sm)}
  {q : Exchange.InputSide sm.numChannels.toNat (Row sm)}

/-- With a block outstanding every step counts, up to the one that frees the slot. -/
theorem rank_worker (h : Agrees mem w p m q) (hs : workerStep sm model w mem = some (w', mem'))
    (hflag : flag .isInputReady mem = true) :
    w'.pc.rank < w.pc.rank ∨ flag .isInputReady mem' = false := by
  cases workerStep_cases hs with
  | wait hwait => exact absurd (hflag.symm.trans hwait) (by decide)
  | begin =>
      left
      show (loopFrom _ _ 0).rank < iterationSteps _ _
      rw [rank_loopFrom (Nat.zero_le _), Nat.sub_zero, iterationSteps]
      omega
  | storeSample hv =>
      left
      have hlt := h.index_lt hv
      simp only [WorkerPc.rank]
      omega
  | @rowStored ch =>
      left
      show (loopFrom _ _ (ch + 1)).rank < _
      have hle : (ch : ℕ) + 1 ≤ sm.numChannels.toNat := ch.isLt
      rw [rank_loopFrom hle]
      simp only [WorkerPc.rank, stepsBehind]
      omega
  | clearInputReady => exact .inr flag_write_self
  | _ =>
      left
      simp only [WorkerPc.rank]
      omega

theorem worker_enabled (hne : w.pc ≠ .raised) : ∃ r, workerStep sm model w mem = some r := by
  obtain ⟨pc, rows, inferred⟩ := w
  cases pc with
  | raised => exact absurd rfl hne
  | setOutputReady | clearInputReady => exact ⟨_, rfl⟩
  | _ =>
      simp only [workerStep]
      split <;> exact ⟨_, rfl⟩

theorem worker_not_raised {infer : Row sm → Tensor}
    (hinfer : ∀ x, inferBlock model (NdArray.ofRow (List.ofFn x)) = some (infer x))
    (hfits : ∀ x, (assigned sm.blockSize.toNat (infer x)).isSome)
    (h : OutputInferred infer w) (hs : workerStep sm model w mem = some (w', mem')) :
    w'.pc ≠ .raised := by
  have hloop : ∀ n, loopFrom sm.numChannels.toNat sm.blockSize.toNat n ≠ .raised := by
    intro n
    unfold loopFrom
    split <;> simp
  cases workerStep_cases hs with
  | begin | rowStored => exact hloop _
  | inferRaises hy => exact absurd (hy.symm.trans (hinfer _)) (Option.some_ne_none _).symm
  | @assignRaises ch y _ _ hnew =>
      obtain ⟨x, rfl⟩ := h ch y rfl
      have hsome := hfits x
      rw [hnew] at hsome
      cases hsome
  | _ => exact fun hpc => by cases hpc

end Rank

section Response

variable {model : Model} {infer : Row sm → Tensor} {s s' : State sm}
  {a : Exchange.Turn (CallbackAct sm)} {published : List (Block sm)}

def Released (published : List (Block sm)) (s : State sm) : Prop :=
  flag .isInputReady s.memory = false ∨ s.cpp.fill.published ≠ published

/-- What holds in every run: the row-level exchange is behind it, nothing has
raised, and the blocks listed are published. -/
structure Serving (infer : Row sm → Tensor) (published : List (Block sm)) (s : State sm) :
    Prop where
  refines : ∃ t, Exchange.InputInv t.shared t.worker t.cpp ∧ InputAgrees s t
  inferred : OutputInferred infer s.worker
  notRaised : s.worker.pc ≠ .raised
  published : published <+: s.cpp.fill.published

theorem published_callback {side : Side} {f f' : Callback sm} {b : CallbackAct sm}
    {mem mem' : Memory} (hs : callbackStep side f b mem = some (f', mem')) :
    f.fill.published <+: f'.fill.published := by
  cases b with
  | fill b =>
      obtain ⟨r, hr, heq⟩ := Option.map_eq_some_iff.mp hs
      cases heq
      show f.fill.published <+: r.1.published
      rcases fillStep_cases hr with ⟨hsame, -⟩ | ⟨hsame, -⟩ | ⟨b, hmore, -⟩
      · rw [hsame]
      · rw [hsame]
      · rw [hmore]
        exact List.prefix_append _ _
  | copy b =>
      obtain ⟨r, hr, heq⟩ := Option.map_eq_some_iff.mp hs
      cases heq
      exact List.prefix_rfl
  | storeOutputReady v =>
      cases hs
      exact List.prefix_rfl

theorem published_step (hs : step model .python s a = some s') :
    s.cpp.fill.published <+: s'.cpp.fill.published := by
  cases a with
  | worker =>
      obtain ⟨r, -, rfl⟩ := Option.map_eq_some_iff.mp hs
      exact List.prefix_rfl
  | cpp b =>
      obtain ⟨r, hr, rfl⟩ := Option.map_eq_some_iff.mp hs
      exact published_callback hr

theorem Serving.step
    (hinfer : ∀ x, inferBlock model (NdArray.ofRow (List.ofFn x)) = some (infer x))
    (hfits : ∀ x, (assigned sm.blockSize.toNat (infer x)).isSome)
    (h : Serving infer published s) (hs : Samples.step model .python s a = some s') :
    Serving infer published s' := by
  refine ⟨?_, ?_, ?_, h.published.trans (published_step hs)⟩
  · obtain ⟨t, hI, hR⟩ := h.refines
    exact (input_refines model).matched hI hR hs True.intro
  · cases a with
    | worker =>
        obtain ⟨r, hr, rfl⟩ := Option.map_eq_some_iff.mp hs
        exact outputInferred_worker hinfer h.inferred hr
    | cpp b =>
        obtain ⟨r, -, rfl⟩ := Option.map_eq_some_iff.mp hs
        exact h.inferred
  · cases a with
    | worker =>
        obtain ⟨r, hr, rfl⟩ := Option.map_eq_some_iff.mp hs
        exact worker_not_raised hinfer hfits h.inferred hr
    | cpp b =>
        obtain ⟨r, -, rfl⟩ := Option.map_eq_some_iff.mp hs
        exact h.notRaised

/-- A slot that has been given back stays so, for it only ever holds a block
published later. -/
theorem released_step (h : Serving infer published s) (hrel : Released published s)
    (hs : step model .python s a = some s') : Released published s' := by
  have hgrow := published_step hs
  by_cases hmore : s.cpp.fill.published = published
  · have hflag := hrel.resolve_right (not_not_intro hmore)
    cases a with
    | worker =>
        obtain ⟨r, hr, rfl⟩ := Option.map_eq_some_iff.mp hs
        obtain ⟨t, hI, hR⟩ := h.refines
        have hpoll : s.worker.pc = .poll := by
          apply coarse_eq_poll_iff.mp
          rw [← hR.worker]
          by_contra hne
          have hbusy := hI.busy hne
          rw [hR.agrees.inputReady, hflag] at hbusy
          cases hbusy
        simp only [workerStep, hpoll, hflag, Bool.false_eq_true, if_false,
          Option.some.injEq] at hr
        obtain rfl := hr
        exact .inl hflag
    | cpp b =>
        obtain ⟨r, hr, rfl⟩ := Option.map_eq_some_iff.mp hs
        cases b with
        | fill b =>
            obtain ⟨r', hr', rfl⟩ := Option.map_eq_some_iff.mp hr
            rcases fillStep_cases hr' with ⟨-, hmem⟩ | ⟨-, ch, i, v, hmem⟩ | ⟨b', hpub, -⟩
            · left
              show flag .isInputReady r'.2 = false
              rw [hmem]
              exact hflag
            · left
              show flag .isInputReady r'.2 = false
              rw [hmem]
              exact (flag_storeSample (inViews _ _ _)).trans hflag
            · right
              show r'.1.published ≠ published
              rw [hpub, hmore]
              simp
        | copy b =>
            obtain ⟨r', hr', rfl⟩ := Option.map_eq_some_iff.mp hr
            left
            show flag .isInputReady r'.2 = false
            rcases copyStep_memory hr' with hmem | hmem
            · rw [hmem]
              exact hflag
            · rw [hmem]
              exact (flag_write_of_ne (by decide)).trans hflag
        | storeOutputReady v =>
            cases hr
            exact .inl ((flag_write_of_ne (by decide)).trans hflag)
  · right
    intro heq
    have hlen := hgrow.length_le
    have hle := h.published.length_le
    rw [heq] at hlen
    exact hmore (h.published.eq_of_length (by omega)).symm

theorem Released.inferred (hrel : Released published s) (h : Serving infer published s) :
    published.map Exchange.rowsOf <+: s.worker.inferred := by
  obtain ⟨t, hI, hR⟩ := h.refines
  have hpub : published <+: t.cpp.published := by
    rw [hR.agrees.published]
    exact h.published
  have hfaithful := hI.faithful
  have hworker : t.worker.inferred = s.worker.inferred := by
    rw [hR.worker]
    rfl
  rw [← hworker]
  by_cases hflag : flag .isInputReady s.memory = false
  · rw [hI.settled (hR.agrees.inputReady.trans hflag)]
    exact hpub.map Exchange.rowsOf
  · have hmore := hrel.resolve_left hflag
    rw [← hR.agrees.published] at hmore
    apply List.prefix_of_prefix_length_le (hpub.map Exchange.rowsOf) hfaithful.inOrder
    have hone := hfaithful.oneOutstanding
    have hlen : published.length < t.cpp.published.length := by
      rcases Nat.lt_or_ge published.length t.cpp.published.length with hlt | hge
      · exact hlt
      · exact absurd (hpub.eq_of_length (le_antisymm hpub.length_le hge)).symm hmore
    rw [List.length_map]
    omega

theorem rank_step (h : Serving infer published s) (hrel : ¬ Released published s)
    (hs : step model .python s a = some s') (hrel' : ¬ Released published s') :
    s'.worker.pc.rank ≤ s.worker.pc.rank ∧
      (isWorker a = true → s'.worker.pc.rank < s.worker.pc.rank) := by
  have hflag : flag .isInputReady s.memory = true := by
    by_contra hne
    exact hrel (.inl (by simpa using hne))
  cases a with
  | worker =>
      obtain ⟨r, hr, rfl⟩ := Option.map_eq_some_iff.mp hs
      obtain ⟨t, -, hR⟩ := h.refines
      rcases rank_worker hR.agrees hr hflag with hlt | hfree
      · exact ⟨hlt.le, fun _ => hlt⟩
      · exact absurd (.inl hfree) hrel'
  | cpp b =>
      obtain ⟨r, -, rfl⟩ := Option.map_eq_some_iff.mp hs
      exact ⟨le_refl _, nofun⟩

theorem stepsBehind_lt {C B : ℕ} (ch : Fin C) :
    stepsBehind C B ch + channelSteps B < iterationSteps C B := by
  obtain ⟨d, hd⟩ : ∃ d, C = (ch : ℕ) + 1 + d := Nat.exists_eq_add_of_le ch.isLt
  have hrest : C - ((ch : ℕ) + 1) = d := by omega
  have hmul : (d + 1) * channelSteps B ≤ C * channelSteps B :=
    Nat.mul_le_mul_right _ (by omega)
  rw [Nat.succ_mul] at hmul
  rw [stepsBehind, hrest, iterationSteps]
  omega

theorem rank_le {C B : ℕ} (pc : WorkerPc C B) : pc.rank ≤ iterationSteps C B := by
  cases pc with
  | poll => exact le_refl _
  | readSample ch | infer ch | assign ch | storeSample ch =>
      have hbehind := stepsBehind_lt (B := B) ch
      rw [channelSteps] at hbehind
      simp only [WorkerPc.rank]
      omega
  | setOutputReady | clearInputReady => simp [WorkerPc.rank, iterationSteps]
  | raised => exact Nat.zero_le _

end Response

/-- The worker's loop, the control ring and its drain left out. -/
def polling (model : Model) : Spsc.Polling (State sm) (Exchange.Turn (CallbackAct sm)) where
  step := step model .python
  isMain := isWorker
  atPoll s :=
    match s.worker.pc with
    | .poll => true
    | _ => false
  hasRing _ := true

theorem rank_atPoll {model : Model} {s : State sm} (h : (polling model).atPoll s = true) :
    s.worker.pc.rank = iterationSteps sm.numChannels.toNat sm.blockSize.toNat := by
  obtain ⟨m, ⟨pc, rows, inferred⟩, f⟩ := s
  cases pc <;> first | rfl | cases h

/-- Whatever the C++ side does in between, the worker is never stuck; and once it has
taken, from any moment on, as many steps as one iteration and one drain have, every
block published by that moment has been inferred and, if no other has been published
since, the input slot is free. -/
theorem answered_within (model : Model) (infer : Row sm → Tensor)
    (hinfer : ∀ x, inferBlock model (NdArray.ofRow (List.ofFn x)) = some (infer x))
    (hfits : ∀ x, (assigned sm.blockSize.toNat (infer x)).isSome) {maxItems : ℕ}
    (hpos : 0 < maxItems) (m : Memory) (outs : Block sm)
    (acts acts' : List (Spsc.LoopAct (Exchange.Turn (CallbackAct sm))))
    (s s' : Spsc.Loop (State sm))
    (hs : Runs.exec (Spsc.loopStep (polling model))
      ⟨State.init (sm.started m) outs, Spsc.init maxItems, true⟩ acts = some s)
    (hs' : Runs.exec (Spsc.loopStep (polling model)) s acts' = some s') :
    (∃ s'', Spsc.loopStep (polling model) s' (.rest .worker) = some s'') ∧
      (iterationSteps sm.numChannels.toNat sm.blockSize.toNat +
          Spsc.drainSteps s.control.spsc s'.control.spsc ≤
            acts'.countP (Spsc.LoopAct.isMain (polling model)) →
        s.rest.cpp.fill.published.map Exchange.rowsOf <+: s'.rest.worker.inferred ∧
          (s'.rest.cpp.fill.published = s.rest.cpp.fill.published →
            flag .isInputReady s'.rest.memory = false)) := by
  have hkeeps : ∀ published s a s', Serving infer published s →
      step model .python s a = some s' → Serving infer published s' :=
    fun _ _ _ _ h hs => h.step hinfer hfits hs
  have hinit : Serving infer [] (State.init (sm.started m) outs) :=
    ⟨⟨_, Exchange.inputInv_init _ _, agrees_init m outs⟩, nofun, nofun, List.nil_prefix⟩
  obtain ⟨hserving, hcounted⟩ := Spsc.loop_invariant (hkeeps [])
    ⟨hinit, Spsc.counted_init hpos⟩ ⟨acts, hs⟩
  have hnow : Serving infer s.rest.cpp.fill.published s.rest :=
    { hserving with published := List.prefix_rfl }
  obtain ⟨hlater, -⟩ := Spsc.loop_invariant (hkeeps _) ⟨hnow, hcounted⟩ ⟨acts', hs'⟩
  refine ⟨?_, fun hcount => ?_⟩
  · obtain ⟨r, hr⟩ : ∃ r, workerStep sm model s'.rest.worker s'.rest.memory = some r :=
      worker_enabled hlater.notRaised
    exact Spsc.loop_enabled ⟨_, Option.map_eq_some_iff.mpr ⟨r, hr, rfl⟩⟩
  · have hreleased : Released s.rest.cpp.fill.published s'.rest := by
      refine Spsc.loop_within (p := polling model) (hkeeps _)
        (fun _ _ _ h hrel hs => released_step h hrel hs)
        (fun _ _ _ h hrel hs hrel' => rank_step h hrel hs hrel') (fun _ _ => rank_atPoll) ?_
        ⟨hnow, hcounted⟩ hs' ((Nat.add_le_add_right (rank_le _) _).trans hcount)
      intro s h hzero
      obtain ⟨m, ⟨pc, rows, inferred⟩, f⟩ := s
      cases pc <;> simp [WorkerPc.rank, iterationSteps] at hzero
      exact absurd rfl h.notRaised
    refine ⟨hreleased.inferred hlater, fun hsame => ?_⟩
    exact hreleased.resolve_right (not_not_intro hsame)

/-- A control message arrives with the block. The worker takes it, finds no other
and serves the block, while the C++ side polls in vain. -/
def serveDrained : List (Spsc.LoopAct (Exchange.Turn (CallbackAct twoSamples))) :=
  .enqueue 7 :: List.replicate 5 .producer ++
    (List.replicate 19 [.rest (.cpp (.fill (.load fun _ _ => 9))), .rest .worker]).flatten

theorem answered_within_two :
    ∃ s s', Runs.exec (Spsc.loopStep (polling fun t => some t))
        ⟨State.init (twoSamples.started fun _ => 0) fun _ _ => 0, Spsc.init 1024, true⟩
        ((publishSamples 1 2).map .rest) = some s ∧
      Runs.exec (Spsc.loopStep (polling fun t => some t)) s serveDrained = some s' ∧
      s.rest.cpp.fill.published.length = 1 ∧ s'.control.spsc.received = [7] ∧
      s.rest.cpp.fill.published.map Exchange.rowsOf <+: s'.rest.worker.inferred := by
  have hrun : (Runs.exec (Spsc.loopStep (polling fun t => some t))
      ⟨State.init (twoSamples.started fun _ => 0) fun _ _ => 0, Spsc.init 1024, true⟩
      ((publishSamples 1 2).map .rest)).any (fun s =>
        decide (s.rest.cpp.fill.published.length = 1) &&
          (Runs.exec (Spsc.loopStep (polling fun t => some t)) s serveDrained).any fun s' =>
            decide (s'.control.spsc.received = [7] ∧
              Spsc.drainSteps s.control.spsc s'.control.spsc = 8)) = true := by
    decide +kernel
  obtain ⟨s, hs, hnext⟩ := Runs.exists_exec_of_any hrun
  obtain ⟨hlen, hnext⟩ := Bool.and_eq_true_iff.mp hnext
  obtain ⟨s', hs', hend⟩ := Runs.exists_exec_of_any hnext
  obtain ⟨hreceived, hdrain⟩ := of_decide_eq_true hend
  have hanswer := answered_within (fun t => some t) (fun x => NdArray.ofRow (List.ofFn x))
    (fun _ => rfl) (fun x => by rw [assigned_ofRow]; rfl) (by decide) _ _ _ _ s s' hs hs'
  have hcount := hanswer.2 (by rw [hdrain]; decide)
  exact ⟨s, s', hs, hs', of_decide_eq_true hlen, hreceived, hcount.1⟩

end MabTilde.Samples

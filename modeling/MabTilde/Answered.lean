import MabTilde.EndToEnd
import MabTilde.Exchange.Response
import MabTilde.StartUp

/-!
How long a block can stay unanswered in the whole system.

A block may be published as soon as the C++ side has attached, when `main()` has
still to set `is_python_ready` and to load the model. Nothing in the start-up
waits for the C++ side, and the loop waits only for the end of its drain; so the
steps `main()` has left before its first poll are added to those of an iteration
and a drain, and that many are enough from any moment on, from the first as well.
-/

namespace MabTilde.EndToEnd

open Bytes Win32 Lifecycle Samples

variable {sm : SharedMemoryManager}

def Act.isMain : Act sm → Bool
  | .main => true
  | _ => false

def Main.lets (host : Host) (k : Kernel Proc) : Main sm → Bool
  | .starting pc => host.lets ⟨sm, pc⟩ k
  | _ => true

/-- A step on a system that answers `create()` as `host` says. -/
def hostedStep (host : Host) (model : Model) (s : System sm) : Act sm → Option (System sm)
  | .main => if s.main.lets host s.kernel then step model s .main else none
  | a => step model s a

/-- All of it but the control ring and its drain. The ring is made before the model
is loaded, and goes with the process. -/
def polling (host : Host) (model : Model) : Spsc.Polling (System sm) (Act sm) where
  step := hostedStep host model
  isMain := Act.isMain
  atPoll s :=
    match s.main with
    | .serving ⟨.poll, _, _⟩ => true
    | _ => false
  hasRing s :=
    match s.main with
    | .starting .loadModel | .serving _ => true
    | _ => false

/-- How many steps `main()` takes at most to the end of an iteration that serves. -/
def Main.rank : Main sm → ℕ
  | .starting pc => pc.left + iterationSteps sm.numChannels.toNat sm.blockSize.toNat
  | .serving w => w.pc.rank
  | .ended _ => 0

/-- Before the event: nothing is published, and nothing will stop the worker. -/
structure Preparing (outs : Block sm) (s : System sm) (pc : Pc) : Prop where
  alone : Alone outs s
  main : s.main = .starting pc
  stage : pc.stage ≤ 5
  starting : Starting sm ⟨s.kernel, some ⟨sm, pc⟩⟩

/-- From the event on: the section is there, and what is in it is served. -/
structure Responsive (infer : Row sm → Tensor) (published : List (Block sm)) (s : System sm)
    (m : Memory) : Prop where
  contents : s.kernel.contents sm.shmName = some m
  serving : Serving infer published ⟨m, s.main.worker, s.cpp⟩
  late : ∀ pc, s.main = .starting pc → pc = .setPythonReady ∨ pc = .loadModel

/-- What holds in every run in which the blocks listed have been published. -/
def Live (outs : Block sm) (infer : Row sm → Tensor) (published : List (Block sm))
    (s : System sm) : Prop :=
  (∃ w, s.main = .ended w) ∨ (published = [] ∧ ∃ pc, Preparing outs s pc) ∨
    ∃ m, Responsive infer published s m

def Answered (published : List (Block sm)) (s : System sm) : Prop :=
  (∃ w, s.main = .ended w) ∨ ∃ w m, s.main = .serving w ∧
    s.kernel.contents sm.shmName = some m ∧ Released published ⟨m, w, s.cpp⟩

section Lemmas

variable {model : Model} {infer : Row sm → Tensor} {outs : Block sm}
  {published : List (Block sm)} {s s' : System sm} {m m' : Memory} {a : Act sm} {pc pc' : Pc}
  {k' : Kernel Proc}

theorem step_of_hostedStep {host : Host} (hs : hostedStep host model s a = some s') :
    step model s a = some s' := by
  cases a with
  | main => exact (Option.ite_none_right_eq_some.mp hs).2
  | _ => exact hs

theorem rank_enter (pc : Pc) :
    (Main.enter pc : Main sm).rank ≤
      pc.left + iterationSteps sm.numChannels.toNat sm.blockSize.toNat := by
  cases pc with
  | poll => exact Nat.le_add_left _ _
  | _ => exact le_refl _

theorem rank_starting (hpc : pc.stage ≠ 8) (ha : advance ⟨sm, pc⟩ [] s.kernel = some (pc', k')) :
    (Main.enter pc' : Main sm).rank < (Main.starting pc : Main sm).rank := by
  refine Nat.lt_of_le_of_lt (rank_enter pc') ?_
  exact Nat.add_lt_add_right (left_advance hpc ha) _

theorem preparing_launch {k : Kernel Proc} (hk : k.events.value sm.readyEventName ≠ some true)
    (hl : Launchable sm k) : Preparing outs (launch k outs) .createFileMapping :=
  ⟨alone_launch hk, rfl, by decide, starting_start hl⟩

theorem Preparing.lifetimeStep (h : Preparing outs s pc)
    (ha : advance ⟨sm, pc⟩ [] s.kernel = some (pc', k')) :
    Starting sm ⟨k', some ⟨sm, pc'⟩⟩ := by
  apply starting_step (a := .returns []) h.starting
  simp [Lifecycle.lifetimeStep, ha]

theorem Preparing.stage_le (h : Preparing outs s pc)
    (ha : advance ⟨sm, pc⟩ [] s.kernel = some (pc', k')) : pc'.stage ≤ 6 := by
  obtain ⟨-, hprog, -⟩ := h.starting.worker sm pc rfl
  have hpc := h.stage
  by_cases hevent : pc.stage ≤ 4
  · obtain ⟨-, -, -, hle⟩ := advance_unannounced hprog hevent ha
    omega
  · obtain rfl : pc = .setEvent := by
      cases pc <;> first | rfl | simp [Pc.stage] at hpc hevent
    cases ha
    exact le_refl 6

theorem Preparing.enabled (h : Preparing outs s pc) : ∃ s', step model s .main = some s' := by
  obtain ⟨w, hnext⟩ := starting_enabled h.starting (Option.some_ne_none _) []
  simp only [Lifecycle.lifetimeStep, Option.bind_some, Option.map_eq_some_iff] at hnext
  obtain ⟨r, hr, -⟩ := hnext
  simp only [step, mainStep, h.main, hr, Option.map_some]
  exact ⟨_, rfl⟩

theorem responsive_of_exchanging {t : Exchange.State sm.numChannels.toNat (Row sm) Tensor
      (Exchange.InputSide sm.numChannels.toNat (Row sm))}
    (h : Exchanging s m t) (hpc : s.main = .starting pc)
    (hm : s.kernel.contents sm.shmName = some m) : Responsive infer [] s m := by
  have hworker : s.main.worker = .init := by rw [hpc]; rfl
  refine ⟨hm, ⟨⟨t, h.inv, h.agrees⟩, ?_, ?_, List.nil_prefix⟩, h.late⟩
  · rw [hworker]
    rintro ch y ⟨⟩
  · rw [hworker]
    rintro ⟨⟩

theorem preparing_main (infer : Row sm → Tensor) (h : Preparing outs s pc)
    (hs : step model s .main = some s') :
    ((∃ pc', Preparing outs s' pc') ∨ ∃ m, Responsive infer [] s' m) ∧
      s'.main.rank < s.main.rank := by
  have hnext := alone_step h.alone hs
  simp only [step, mainStep, h.main, Option.map_eq_some_iff] at hs
  obtain ⟨⟨pc', k'⟩, ha, rfl⟩ := hs
  have hpc : pc.stage ≤ 5 := h.stage
  have hstarting := h.lifetimeStep ha
  obtain ⟨-, hprog, -⟩ := hstarting.worker sm pc' rfl
  refine ⟨?_, ?_⟩
  · rcases hnext with halone | ⟨m, t, hexch⟩
    · left
      rcases halone.main with hended | ⟨pc'', hmain, hstage, -⟩
      · cases pc' <;> cases hended
      · obtain rfl : pc' = pc'' := by
          cases pc' <;> cases hmain <;> rfl
        exact ⟨pc', halone, hmain, hstage, hstarting⟩
    · right
      obtain ⟨x, hx⟩ := hprog.mapped (stage_advance ha).2
      obtain ⟨m', hm'⟩ := Kernel.contents_of_header hx
      obtain rfl := hexch.contents m' hm'
      have hle := h.stage_le ha
      have hmain : (Main.enter pc' : Main sm) = .starting pc' := by
        cases pc' <;> first | rfl | simp [Pc.stage] at hle
      exact ⟨m', responsive_of_exchanging hexch hmain hm'⟩
  · rw [h.main]
    exact rank_starting (by omega) ha

theorem Responsive.starting (h : Responsive infer published s m) (hmain : s.main = .starting pc)
    (ha : advance ⟨sm, pc⟩ [] s.kernel = some (pc', k')) :
    ∃ m', Responsive infer published { s with main := .enter pc', kernel := k' } m' := by
  obtain ⟨⟨t, hI, hR⟩, hinferred, hraised, hpublished⟩ := h.serving
  rw [hmain] at hR hinferred hraised
  rcases h.late pc hmain with rfl | rfl
  · cases ha
    refine ⟨Side.python.write m .isPythonReady 1, ?_,
      ⟨⟨t, hI, agrees_setPythonReady hR⟩, hinferred, hraised, hpublished⟩, ?_⟩
    · show (Kernel.storeField _ _ _ _).contents _ = _
      rw [Kernel.storeField, Kernel.contents_write_self, h.contents, Option.map_some]
    · rintro _ ⟨⟩
      exact .inr rfl
  · cases ha
    exact ⟨m, h.contents, ⟨⟨t, hI, hR⟩, hinferred, hraised, hpublished⟩, by rintro _ ⟨⟩⟩

theorem Responsive.turn {b : Exchange.Turn (CallbackAct sm)} {m₀ : Memory}
    (hinfer : ∀ x, inferBlock model (NdArray.ofRow (List.ofFn x)) = some (infer x))
    (hfits : ∀ x, (assigned sm.blockSize.toNat (infer x)).isSome)
    (h : Responsive infer published s m) (hs : Turns model s a s' b m₀ m') :
    Responsive infer published s' m' := by
  obtain rfl := Option.some.inj (h.contents.symm.trans hs.contents)
  refine ⟨hs.contents', h.serving.step hinfer hfits hs.turn, ?_⟩
  intro pc hpc
  rcases hs.main with ⟨-, hsame⟩ | ⟨-, w, w', -, hserving⟩
  · exact h.late pc (hsame.symm.trans hpc)
  · rw [hserving] at hpc
    cases hpc

theorem ended_step {w : Samples.Worker sm.numChannels.toNat sm.blockSize.toNat}
    (hmain : s.main = .ended w) (hs : step model s a = some s') : ∃ w, s'.main = .ended w := by
  rcases step_cases hs with ⟨pc, pc', k', -, hstart, -⟩ | ⟨b, m₀, m', hturn⟩ |
    ⟨rfl, rfl⟩ | ⟨rfl, hsame, -⟩
  · cases hmain.symm.trans hstart
  · rcases hturn.main with ⟨-, hsame⟩ | ⟨-, w, w', hw, -⟩
    · exact ⟨_, hsame.trans hmain⟩
    · cases hmain.symm.trans hw
  · exact ⟨_, rfl⟩
  · exact ⟨_, hsame.trans hmain⟩

theorem preparing_cases (h : Preparing outs s pc) (hs : step model s a = some s') :
    a = .main ∨ ∃ w, s'.main = .ended w := by
  cases a with
  | main => exact .inl rfl
  | ends =>
      simp only [step, endStep, h.main] at hs
      cases hs
      exact .inr ⟨_, rfl⟩
  | attach => exact absurd (attachStep_spec hs).1 h.alone.silent
  | callback a => simp [step, callbackTurn, h.alone.attached] at hs

theorem live_serving {w : Samples.Worker sm.numChannels.toNat sm.blockSize.toNat}
    (h : Live outs infer published s) (hmain : s.main = .serving w)
    (hm : s.kernel.contents sm.shmName = some m) : Serving infer published ⟨m, w, s.cpp⟩ := by
  rcases h with ⟨w', hended⟩ | ⟨-, pc, h⟩ | ⟨m', h⟩
  · cases hmain.symm.trans hended
  · cases hmain.symm.trans h.main
  · obtain rfl := Option.some.inj (hm.symm.trans h.contents)
    have hserving := h.serving
    rw [hmain] at hserving
    exact hserving

theorem live_step
    (hinfer : ∀ x, inferBlock model (NdArray.ofRow (List.ofFn x)) = some (infer x))
    (hfits : ∀ x, (assigned sm.blockSize.toNat (infer x)).isSome)
    (h : Live outs infer published s) (hs : step model s a = some s') :
    Live outs infer published s' := by
  rcases h with ⟨w, hmain⟩ | ⟨rfl, pc, h⟩ | ⟨m, h⟩
  · exact .inl (ended_step hmain hs)
  · rcases preparing_cases h hs with rfl | hended
    · exact .inr ((preparing_main infer h hs).1.imp (fun h => ⟨rfl, h⟩) id)
    · exact .inl hended
  · rcases step_cases hs with ⟨pc, pc', k', rfl, hmain, ha, rfl⟩ | ⟨b, m₀, m', hturn⟩ |
      ⟨rfl, rfl⟩ | ⟨rfl, hmain, hcpp, hcontents, -⟩
    · exact .inr (.inr (h.starting hmain ha))
    · exact .inr (.inr ⟨m', h.turn hinfer hfits hturn⟩)
    · exact .inl ⟨_, rfl⟩
    · refine .inr (.inr ⟨m, hcontents.trans h.contents, ?_, ?_⟩)
      · rw [hmain, hcpp]
        exact h.serving
      · rw [hmain]
        exact h.late

theorem answered_step (h : Live outs infer published s) (hq : Answered published s)
    (hs : step model s a = some s') : Answered published s' := by
  rcases hq with ⟨w, hmain⟩ | ⟨w, m, hmain, hm, hreleased⟩
  · exact .inl (ended_step hmain hs)
  · have hserving := live_serving h hmain hm
    rcases step_cases hs with ⟨pc, pc', k', -, hstart, -⟩ | ⟨b, m₀, m', hturn⟩ |
      ⟨rfl, rfl⟩ | ⟨rfl, hmain', hcpp, hcontents, -⟩
    · cases hmain.symm.trans hstart
    · obtain rfl := Option.some.inj (hm.symm.trans hturn.contents)
      have hstep := hturn.turn
      rw [hmain] at hstep
      have hreleased' := released_step hserving hreleased hstep
      obtain ⟨w', hw'⟩ : ∃ w', s'.main = .serving w' := by
        rcases hturn.main with ⟨-, hsame⟩ | ⟨-, -, w', -, hw'⟩
        · exact ⟨w, hsame.trans hmain⟩
        · exact ⟨w', hw'⟩
      rw [hw'] at hreleased'
      exact .inr ⟨w', m', hw', hturn.contents', hreleased'⟩
    · exact .inl ⟨_, rfl⟩
    · refine .inr ⟨w, m, hmain'.trans hmain, hcontents.trans hm, ?_⟩
      rw [hcpp]
      exact hreleased

theorem rank_step (h : Live outs infer published s) (hq : ¬ Answered published s)
    (hs : step model s a = some s') (hq' : ¬ Answered published s') :
    s'.main.rank ≤ s.main.rank ∧ (a.isMain = true → s'.main.rank < s.main.rank) := by
  rcases h with hended | ⟨rfl, pc, h⟩ | ⟨m, h⟩
  · exact absurd (.inl hended) hq
  · rcases preparing_cases h hs with rfl | hended
    · have hlt := (preparing_main infer h hs).2
      exact ⟨hlt.le, fun _ => hlt⟩
    · exact absurd (.inl hended) hq'
  · rcases step_cases hs with ⟨pc, pc', k', rfl, hmain, ha, rfl⟩ | ⟨b, m₀, m', hturn⟩ |
      ⟨rfl, rfl⟩ | ⟨rfl, hmain, -⟩
    · have hpc : pc.stage ≠ 8 := by
        rcases h.late pc hmain with rfl | rfl <;> decide
      have hlt := rank_starting hpc ha
      rw [hmain]
      exact ⟨hlt.le, fun _ => hlt⟩
    · obtain rfl := Option.some.inj (h.contents.symm.trans hturn.contents)
      rcases hturn.main with ⟨hne, hsame⟩ | ⟨rfl, w, w', hw, hw'⟩
      · rw [hsame]
        refine ⟨le_refl _, fun hmain => absurd ?_ hne⟩
        cases a <;> first | rfl | cases hmain
      · have hserving := h.serving
        have hstep := hturn.turn
        rw [hw] at hserving hstep
        rw [hw'] at hstep
        have hlt := (Samples.rank_step hserving
          (fun hrel => hq (.inr ⟨w, m, hw, hturn.contents, hrel⟩)) hstep
          (fun hrel => hq' (.inr ⟨w', m', hw', hturn.contents', hrel⟩))).2 rfl
        rw [hw, hw']
        exact ⟨Nat.le_of_lt hlt, fun _ => hlt⟩
    · exact absurd (.inl ⟨_, rfl⟩) hq'
    · rw [hmain]
      exact ⟨le_refl _, by rintro ⟨⟩⟩

theorem answered_of_rank (h : Live outs infer published s) (hzero : s.main.rank = 0) :
    Answered published s := by
  have hpos : 0 < iterationSteps sm.numChannels.toNat sm.blockSize.toNat := Nat.succ_pos _
  cases hmain : s.main with
  | ended w => exact .inl ⟨w, hmain⟩
  | starting pc =>
      rw [hmain, Main.rank] at hzero
      omega
  | serving w =>
      rcases h with ⟨w', hended⟩ | ⟨-, pc, h⟩ | ⟨m, h⟩
      · cases hmain.symm.trans hended
      · cases hmain.symm.trans h.main
      · have hraised := h.serving.notRaised
        rw [hmain] at hzero hraised
        obtain ⟨pc, rows, inferred⟩ := w
        cases pc <;> simp [Main.rank, WorkerPc.rank, iterationSteps] at hzero
        exact absurd rfl hraised

theorem rank_main_le (n : Main sm) :
    n.rank ≤ 17 + iterationSteps sm.numChannels.toNat sm.blockSize.toNat := by
  cases n with
  | starting pc =>
      have hle : pc.left ≤ 17 := by
        cases pc with
        | initHeader i =>
            have hlen : Field.all.length = 9 := rfl
            simp only [Pc.left, hlen]
            omega
        | _ => simp [Pc.left]
      exact Nat.add_le_add_right hle _
  | serving w => exact (rank_le w.pc).trans (Nat.le_add_left _ _)
  | ended w => exact Nat.zero_le _

theorem live_enabled {host : Host} {k : Kernel Proc} (hstart : Startable sm host k)
    (h : Live outs infer published s) (hmain : ∀ w, s.main ≠ .ended w) :
    ∃ s', hostedStep host model s .main = some s' := by
  have hstep : ∀ s', step model s .main = some s' → s.main.lets host s.kernel = true →
      ∃ s', hostedStep host model s .main = some s' :=
    fun s' hs hlets => ⟨s', (if_pos hlets).trans hs⟩
  rcases h with ⟨w, hended⟩ | ⟨-, pc, h⟩ | ⟨m, h⟩
  · exact absurd hended (hmain w)
  · obtain ⟨s', hs'⟩ : ∃ s', step model s .main = some s' := h.enabled
    obtain ⟨-, -, -, hfits⟩ := h.starting.worker sm pc rfl
    apply hstep s' hs'
    rw [h.main]
    exact hstart.lets hfits
  · cases hm : s.main with
    | ended w => exact absurd hm (hmain w)
    | starting pc =>
        rcases h.late pc hm with rfl | rfl
        · exact hstep _ (by rw [step, mainStep, hm]; rfl) (by rw [hm]; rfl)
        · exact hstep _ (by rw [step, mainStep, hm]; rfl) (by rw [hm]; rfl)
    | serving w =>
        have hraised := h.serving.notRaised
        rw [hm] at hraised
        obtain ⟨r, hr⟩ : ∃ r, workerStep sm model w m = some r := worker_enabled hraised
        refine hstep ⟨s.kernel.write sm.shmName fun _ => r.2, .serving r.1, s.attached, s.cpp⟩ ?_
          (by rw [hm]; rfl)
        simp only [step, mainStep, hm, h.contents, Option.bind_some, hr, Option.map_some]

theorem rank_atPoll {host : Host} (h : (polling host model).atPoll s = true) :
    s.main.rank = iterationSteps sm.numChannels.toNat sm.blockSize.toNat := by
  obtain ⟨k, n, attached, f⟩ := s
  cases n with
  | serving w =>
      obtain ⟨pc, rows, inferred⟩ := w
      cases pc <;> first | rfl | cases h
  | _ => cases h

end Lemmas

/-- In every run in which nothing `main()` calls fails, from the construction of its
manager on and whatever the C++ side does between its steps: the next step of
`main()` can always be taken; and once it has taken, from any moment on, as many as
the start-up, one drain and one iteration have, every block published by that moment
has been inferred and, if no other has been published since, the input slot is free. -/
theorem answered_from_launch (model : Model) (infer : Row sm → Tensor)
    (hinfer : ∀ x, inferBlock model (NdArray.ofRow (List.ofFn x)) = some (infer x))
    (hfits : ∀ x, (assigned sm.blockSize.toNat (infer x)).isSome) {host : Host} {k : Kernel Proc}
    (hk : k.events.value sm.readyEventName ≠ some true) (hstart : Startable sm host k)
    {maxItems : ℕ} (hpos : 0 < maxItems) (outs : Block sm)
    (acts acts' : List (Spsc.LoopAct (Act sm))) (s s' : Spsc.Loop (System sm))
    (hs : Runs.exec (Spsc.loopStep (polling host model))
      ⟨launch k outs, Spsc.init maxItems, true⟩ acts = some s)
    (hs' : Runs.exec (Spsc.loopStep (polling host model)) s acts' = some s')
    (hrun : ∀ w, s'.rest.main ≠ .ended w) :
    (∃ s'', Spsc.loopStep (polling host model) s' (.rest .main) = some s'') ∧
      (17 + iterationSteps sm.numChannels.toNat sm.blockSize.toNat +
          Spsc.drainSteps s.control.spsc s'.control.spsc ≤
            acts'.countP (Spsc.LoopAct.isMain (polling host model)) →
        s.rest.cpp.fill.published.map Exchange.rowsOf <+: s'.rest.main.worker.inferred ∧
          (s'.rest.cpp.fill.published = s.rest.cpp.fill.published → ∃ m,
            s'.rest.kernel.contents sm.shmName = some m ∧ flag .isInputReady m = false)) := by
  have hkeeps : ∀ published s a s', Live outs infer published s →
      hostedStep host model s a = some s' → Live outs infer published s' :=
    fun _ _ _ _ h hs => live_step hinfer hfits h (step_of_hostedStep hs)
  obtain ⟨hlive, hcounted⟩ := Spsc.loop_invariant (hkeeps [])
    ⟨.inr (.inl ⟨rfl, _, preparing_launch hk hstart.launchable⟩), Spsc.counted_init hpos⟩ ⟨acts, hs⟩
  have hnow : Live outs infer s.rest.cpp.fill.published s.rest := by
    rcases hlive with hended | ⟨-, pc, h⟩ | ⟨m, h⟩
    · exact .inl hended
    · refine .inr (.inl ⟨?_, pc, h⟩)
      rw [h.alone.cpp]
      rfl
    · exact .inr (.inr ⟨m, h.contents, { h.serving with published := List.prefix_rfl }, h.late⟩)
  obtain ⟨hlater, -⟩ := Spsc.loop_invariant (hkeeps _) ⟨hnow, hcounted⟩ ⟨acts', hs'⟩
  refine ⟨Spsc.loop_enabled (live_enabled hstart hlater hrun), fun hcount => ?_⟩
  have hanswered : Answered s.rest.cpp.fill.published s'.rest :=
    Spsc.loop_within (p := polling host model) (hkeeps _)
      (fun _ _ _ h hq hs => answered_step h hq (step_of_hostedStep hs))
      (fun _ _ _ h hq hs hq' => rank_step h hq (step_of_hostedStep hs) hq')
      (fun _ _ => rank_atPoll) (fun _ h hzero => answered_of_rank h hzero) ⟨hnow, hcounted⟩ hs'
      ((Nat.add_le_add_right (rank_main_le _) _).trans hcount)
  obtain ⟨w, m, hmain, hm, hreleased⟩ := hanswered.resolve_left (not_exists.mpr hrun)
  refine ⟨?_, fun hsame => ⟨m, hm, hreleased.resolve_right (not_not_intro hsame)⟩⟩
  rw [hmain]
  exact hreleased.inferred (live_serving hlater hmain hm)

/-- The block is published before `main()` has set `is_python_ready`. -/
def publishAtOnce : List (Act twoSamples) :=
  publishEarly.take 20

def lowHost : Host := ⟨true, 0x10000, by decide, by decide⟩

def serveEarly : List (Spsc.LoopAct (Act twoSamples)) :=
  .rest .main :: .enqueue 7 :: List.replicate 5 .producer ++ List.replicate 35 (.rest .main)

theorem answered_from_launch_early :
    ∃ s s', Runs.exec (Spsc.loopStep (polling lowHost fun t => some t))
        ⟨launch Kernel.init fun _ _ => 0, Spsc.init 1024, true⟩ (publishAtOnce.map .rest) =
          some s ∧
      Runs.exec (Spsc.loopStep (polling lowHost fun t => some t)) s serveEarly = some s' ∧
      s.rest.cpp.fill.published.length = 1 ∧ s'.control.spsc.received = [7] ∧
      s.rest.cpp.fill.published.map Exchange.rowsOf <+: s'.rest.main.worker.inferred := by
  have hrun : (Runs.exec (Spsc.loopStep (polling lowHost fun t => some t))
      ⟨launch Kernel.init fun _ _ => 0, Spsc.init 1024, true⟩ (publishAtOnce.map .rest)).any
        (fun s => decide (s.rest.cpp.fill.published.length = 1) &&
          (Runs.exec (Spsc.loopStep (polling lowHost fun t => some t)) s serveEarly).any fun s' =>
            (step (fun t => some t) s'.rest .main).isSome &&
              decide (s'.control.spsc.received = [7] ∧
                Spsc.drainSteps s.control.spsc s'.control.spsc = 8)) = true := by
    decide +kernel
  obtain ⟨s, hs, hnext⟩ := Runs.exists_exec_of_any hrun
  obtain ⟨hlen, hnext⟩ := Bool.and_eq_true_iff.mp hnext
  obtain ⟨s', hs', hend⟩ := Runs.exists_exec_of_any hnext
  obtain ⟨hmain, hend⟩ := Bool.and_eq_true_iff.mp hend
  obtain ⟨hreceived, hdrain⟩ := of_decide_eq_true hend
  have hrunning : ∀ w, s'.rest.main ≠ .ended w := by
    intro w hw
    rw [step, mainStep, hw] at hmain
    cases hmain
  have hanswer := answered_from_launch (fun t => some t) (fun x => NdArray.ofRow (List.ofFn x))
    (fun _ => rfl) (fun x => by rw [assigned_ofRow]; rfl) (by rintro ⟨⟩)
    ⟨rfl, by decide, by decide, by decide, by rintro _ ⟨⟩⟩ (by decide) _ _ _ s s' hs hs'
    hrunning
  have hcount := hanswer.2 (by rw [hdrain]; decide)
  exact ⟨s, s', hs, hs', of_decide_eq_true hlen, hreceived, hcount.1⟩

end MabTilde.EndToEnd

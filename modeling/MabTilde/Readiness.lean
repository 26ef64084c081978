import MabTilde.Lifecycle

/-!
When readiness is announced, and whether the worker can then serve.

There are two announcements, the event and `is_python_ready`. `main()` makes
both before it calls `load_model`, and the first of them before the second, so
every worker that gets as far as `SetEvent` is announced too early. What is
shown is that this is the only way to go wrong, and that it always does: the
announcements of a run hold what they promise exactly if there are none.
-/

namespace MabTilde.Lifecycle

open Win32

/-- A C++ side that looks at the event or at the flag takes the worker to be
ready. -/
def Announced (shm ev : String) (k : Kernel Proc) : Prop :=
  k.events.value ev = some true ∨ k.header shm .isPythonReady = some 1

/-- The header is final, the model is loaded and the worker is there. -/
structure CanServe (sm : SharedMemoryManager) (s : World) : Prop where
  flag : s.kernel.header sm.shmName .isPythonReady = some 1
  header : ∀ f, f.isFlag = false →
    s.kernel.header sm.shmName f = some (sm.headerValue f).toNat
  alive : ∃ pc, s.worker = some ⟨sm, pc⟩ ∧ pc.loaded = true

/-- Readiness is not announced early and does not outlast the worker. -/
def NeverEarly (sm : SharedMemoryManager) (s : World) : Prop :=
  Announced sm.shmName sm.readyEventName s.kernel → CanServe sm s

def Signals (s : World) (a : Act) : Prop :=
  ∃ sm row, a = .returns row ∧ s.worker = some ⟨sm, .setEvent⟩

def World.start (sm : SharedMemoryManager) : World :=
  ⟨Kernel.init, some ⟨sm, .createFileMapping⟩⟩

structure Unannounced (sm : SharedMemoryManager) (s : World) : Prop where
  silent : ¬ Announced sm.shmName sm.readyEventName s.kernel
  worker : ∀ sm' pc, s.worker = some ⟨sm', pc⟩ → sm' = sm ∧ pc.stage ≤ 5 ∧
    Progress sm.shmName sm.readyEventName sm pc s.kernel

section Steps

variable {sm : SharedMemoryManager} {s s' : World} {a : Act}

theorem unannounced_start (sm : SharedMemoryManager) : Unannounced sm (World.start sm) := by
  refine ⟨?_, ?_⟩
  · rintro (h | h) <;> cases h
  · rintro _ _ ⟨⟩
    exact ⟨rfl, by decide, progress_start sm.blockSize sm.numChannels _⟩

theorem Quiet.announced_iff {shm ev : String} {k k' : Kernel Proc} (hq : Quiet shm ev k k') :
    Announced shm ev k' ↔ Announced shm ev k := by
  unfold Announced
  rw [hq.event, hq.header .isPythonReady (by decide) (by decide)]

theorem announced_of_exitProcess {shm ev : String} {k : Kernel Proc}
    (h : Announced shm ev (k.exitProcess .worker)) : Announced shm ev k := by
  rcases h with h | h
  · exact .inl (Kernel.event_of_exitProcess h)
  · exact .inr (Kernel.header_of_exitProcess h)

theorem unannounced_step (hI : Unannounced sm s)
    (h : lifetimeStep sm.shmName sm.readyEventName s a = some s') (hns : ¬ Signals s a) :
    Unannounced sm s' := by
  rcases lifetimeStep_cases h with ⟨sm', pc, pc', row, rfl, hw, ha, hw'⟩ | ⟨rfl, -, rfl⟩ |
    ⟨-, hw, hq⟩
  · obtain ⟨rfl, hstage, hprog⟩ := hI.worker _ _ hw
    have hpc : pc.stage ≤ 4 := by
      by_contra hlt
      have hfive : pc.stage = 5 := by omega
      obtain rfl : pc = .setEvent := by cases pc <;> first | rfl | cases hfive
      exact hns ⟨_, row, rfl, hw⟩
    obtain ⟨hflag, hevent, -, hnext⟩ := advance_unannounced hprog hpc ha
    refine ⟨?_, ?_⟩
    · rintro (h | h)
      · exact hI.silent (.inl (hevent h))
      · exact hI.silent (.inr (hflag h))
    · intro sm'' pc'' hww
      cases hw'.symm.trans hww
      exact ⟨rfl, by omega, progress_advance hprog ha⟩
  · refine ⟨?_, ?_⟩
    · exact fun h => hI.silent (announced_of_exitProcess h)
    · intro _ _ hw
      cases hw
  · refine ⟨?_, ?_⟩
    · exact fun h => hI.silent (hq.announced_iff.mp h)
    · intro sm' pc hww
      obtain ⟨hsm, hstage, hprog⟩ := hI.worker sm' pc (hw ▸ hww)
      exact ⟨hsm, hstage, hq.progress hprog⟩

theorem not_neverEarly_of_signals (hI : Unannounced sm s)
    (h : lifetimeStep sm.shmName sm.readyEventName s a = some s') (hs : Signals s a) :
    ¬ NeverEarly sm s' := by
  obtain ⟨sm', row, rfl, hw⟩ := hs
  obtain ⟨rfl, -, hprog⟩ := hI.worker _ _ hw
  simp only [lifetimeStep, hw, Option.bind_some, advance, Option.map_some, Option.some.injEq] at h
  subst h
  intro hnever
  have hset := (progress_setEvent hprog).signalled (by decide)
  obtain ⟨pc, hpc, hloaded⟩ := (hnever (.inl hset)).alive
  simp only [Option.some.injEq, Worker.mk.injEq, true_and] at hpc
  subst hpc
  cases hloaded

end Steps

/-- Over a whole run of one worker and any C++ side, readiness is never
announced early or left standing exactly if no `SetEvent` succeeds. -/
theorem neverEarly_iff (sm : SharedMemoryManager) (acts : List Act) :
    Runs.Along (lifetimeStep sm.shmName sm.readyEventName) (NeverEarly sm) (World.start sm) acts ↔
      Runs.EachStep (lifetimeStep sm.shmName sm.readyEventName)
        (fun s a _ => ¬ Signals s a) (World.start sm) acts :=
  Runs.along_iff (fun _ _ _ hI h hns => unannounced_step hI h hns)
    (fun _ hI hann => absurd hann hI.silent)
    (fun _ _ _ hI h hnever hs => not_neverEarly_of_signals hI h hs hnever)
    (unannounced_start sm)

/-- The C++ side is woken before the flag is set and before the model is loaded.
It opens both objects; then the load fails, and what is left are a signalled
event and `is_python_ready` without a worker. -/
theorem announced_without_model :
    ∃ s s', Runs.exec (lifetimeStep oneChannel.shmName oneChannel.readyEventName)
        (World.start oneChannel)
        (List.replicate 15 (.returns []) ++ [.openMapping, .openEvent]) = some s ∧
      s.kernel.events.value oneChannel.readyEventName = some true ∧
      s.kernel.header oneChannel.shmName .isPythonReady = some 0 ∧
      ¬ NeverEarly oneChannel s ∧
      Runs.exec (lifetimeStep oneChannel.shmName oneChannel.readyEventName) s
        [.returns [], .ends] = some s' ∧
      s'.worker.isNone = true ∧
      s'.kernel.events.value oneChannel.readyEventName = some true ∧
      s'.kernel.header oneChannel.shmName .isPythonReady = some 1 ∧
      ¬ NeverEarly oneChannel s' := by
  have hrun : (Runs.exec (lifetimeStep oneChannel.shmName oneChannel.readyEventName)
      (World.start oneChannel)
      (List.replicate 15 (.returns []) ++ [.openMapping, .openEvent])).any (fun s =>
        decide (s.kernel.events.value oneChannel.readyEventName = some true ∧
          s.kernel.header oneChannel.shmName .isPythonReady = some 0) &&
        (Runs.exec (lifetimeStep oneChannel.shmName oneChannel.readyEventName) s
          [.returns [], .ends]).any fun s' =>
            decide (s'.worker.isNone = true ∧
              s'.kernel.events.value oneChannel.readyEventName = some true ∧
              s'.kernel.header oneChannel.shmName .isPythonReady = some 1)) = true := by
    decide +kernel
  obtain ⟨s, hexec, hs⟩ := Runs.exists_exec_of_any hrun
  obtain ⟨hnow, hlater⟩ := Bool.and_eq_true_iff.mp hs
  obtain ⟨hevent, hflag⟩ := of_decide_eq_true hnow
  obtain ⟨s', hexec', hs'⟩ := Runs.exists_exec_of_any hlater
  obtain ⟨hgone, hevent', hflag'⟩ := of_decide_eq_true hs'
  refine ⟨s, s', hexec, hevent, hflag, ?_, hexec', hgone, hevent', hflag', ?_⟩
  · intro hnever
    have hset := (hnever (.inl hevent)).flag
    exact absurd (hflag.symm.trans hset) (by decide)
  · intro hnever
    obtain ⟨pc, hpc, -⟩ := (hnever (.inl hevent')).alive
    rw [hpc] at hgone
    cases hgone

end MabTilde.Lifecycle

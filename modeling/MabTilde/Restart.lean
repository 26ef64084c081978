import MabTilde.Lifecycle

/-!
Any number of worker lifetimes under the same two names.

The section and the event survive a worker as long as the C++ side holds them,
and with them what the last worker wrote. `create()` finds `is_python_ready`
as it was left and rewrites the header field by field; the event is never
reset. So a C++ side that holds both objects when a worker ends that has set
the flag goes on seeing it announced. If that does not happen, nothing is ever
mistaken: a flag that was left behind then comes with no event.
-/

namespace MabTilde.Lifecycle

open Win32

inductive LifeAct
  /-- A worker is launched with these arguments. -/
  | start (blockSize numChannels : ℤ)
  | act (a : Act)

/-- One step of a sequence of lifetimes. -/
def restartStep (shm ev : String) (s : World) : LifeAct → Option World
  | .start blockSize numChannels =>
      match s.worker with
      | some _ => none
      | none => some { s with
          worker := some ⟨⟨shm, ev, blockSize, numChannels⟩, .createFileMapping⟩ }
  | .act a => lifetimeStep shm ev s a

def layoutFields : List Field := [.blockSize, .numChannels, .inputOffset, .outputOffset]

/-- If the C++ side, with both objects open, finds a worker announced, then one
is alive that has set the flag itself, and the layout is its own. -/
def NotMistaken (shm ev : String) (s : World) : Prop :=
  HoldsMapping shm s.kernel → HoldsEvent ev s.kernel → s.kernel.events.value ev = some true →
    s.kernel.header shm .magic = some MAGIC_NUMBER.toNat →
    s.kernel.header shm .isPythonReady = some 1 →
    ∃ sm pc, s.worker = some ⟨sm, pc⟩ ∧ pc.ready = true ∧
      ∀ f ∈ layoutFields, s.kernel.header shm f = some (sm.headerValue f).toNat

/-- A worker ends that has set `is_python_ready`, while the C++ side has both
objects open. -/
def LeftReady (shm ev : String) (s : World) (a : LifeAct) : Prop :=
  a = .act .ends ∧ (∃ sm pc, s.worker = some ⟨sm, pc⟩ ∧ pc.ready = true) ∧
    HoldsMapping shm s.kernel ∧ HoldsEvent ev s.kernel

/-- A flag that no worker alive has set comes with no event. -/
structure NoneStale (shm ev : String) (s : World) : Prop where
  worker : ∀ sm pc, s.worker = some ⟨sm, pc⟩ → Progress shm ev sm pc s.kernel
  stale : (∀ sm pc, s.worker = some ⟨sm, pc⟩ → pc.ready = false) →
    s.kernel.header shm .isPythonReady = some 1 → s.kernel.events.value ev = none

section Steps

variable {shm ev : String} {s s' : World} {a : LifeAct}

theorem noneStale_init : NoneStale shm ev ⟨Kernel.init, none⟩ := by
  refine ⟨?_, ?_⟩
  · rintro _ _ ⟨⟩
  · rintro _ ⟨⟩

theorem noneStale_start {blockSize numChannels : ℤ} (hI : NoneStale shm ev s)
    (h : restartStep shm ev s (.start blockSize numChannels) = some s') :
    NoneStale shm ev s' := by
  cases hw : s.worker with
  | some w =>
      simp only [restartStep, hw] at h
      cases h
  | none =>
      simp only [restartStep, hw, Option.some.injEq] at h
      subst h
      refine ⟨?_, ?_⟩
      · rintro _ _ ⟨⟩
        exact progress_start blockSize numChannels s.kernel
      · intro _
        apply hI.stale
        intro sm pc hsm
        rw [hw] at hsm
        cases hsm

/-- A step of `main()`: the flag left behind goes before the event comes. -/
theorem noneStale_advance {sm : SharedMemoryManager} {pc pc' : Pc} {row : List (BitVec 32)}
    (hI : NoneStale shm ev s) (hw : s.worker = some ⟨sm, pc⟩)
    (ha : advance ⟨sm, pc⟩ row s.kernel = some (pc', s'.kernel))
    (hw' : s'.worker = some ⟨sm, pc'⟩) : NoneStale shm ev s' := by
  have hprog := hI.worker sm pc hw
  have hprog' := progress_advance hprog ha
  refine ⟨?_, ?_⟩
  · intro sm'' pc'' hww
    cases hw'.symm.trans hww
    exact hprog'
  · intro hnone hflag
    have hready' := hnone sm pc' hw'
    by_cases hstage : pc.stage ≤ 3
    · obtain ⟨hback, -, hevent, -⟩ := advance_unannounced hprog (by omega) ha
      rw [hevent hstage]
      apply hI.stale _ (hback hflag)
      intro sm'' pc'' hww
      cases hw.symm.trans hww
      exact decide_eq_false (by omega)
    · -- the header has been rewritten
      have hcleared := hprog'.flag (advance_stored (by omega) ha).symm.le
      rw [hready', hflag] at hcleared
      cases hcleared

theorem noneStale_ends (hI : NoneStale shm ev s)
    (hleft : ¬ LeftReady shm ev s (.act .ends)) (hw : s.worker ≠ none) :
    NoneStale shm ev ⟨s.kernel.exitProcess .worker, none⟩ := by
  obtain ⟨⟨sm, pc⟩, hw⟩ := Option.ne_none_iff_exists'.mp hw
  refine ⟨?_, ?_⟩
  · rintro _ _ ⟨⟩
  · intro _ hflag
    cases hevent : (s.kernel.exitProcess .worker).events.value ev with
    | none => rfl
    | some b =>
        have hold := Kernel.event_of_exitProcess hevent
        cases hready : pc.ready with
        | false =>
            have hnone := hI.stale (by
              intro sm'' pc'' hww
              cases hw.symm.trans hww
              exact hready) (Kernel.header_of_exitProcess hflag)
            rw [hnone] at hold
            cases hold
        | true =>
            exact absurd ⟨rfl, ⟨sm, pc, hw, hready⟩, holdsMapping_of_exitProcess hflag,
              holdsEvent_of_exitProcess hevent⟩ hleft

theorem noneStale_step (hI : NoneStale shm ev s) (h : restartStep shm ev s a = some s')
    (hleft : ¬ LeftReady shm ev s a) : NoneStale shm ev s' := by
  cases a with
  | start blockSize numChannels => exact noneStale_start hI h
  | act a =>
      rcases lifetimeStep_cases h with ⟨sm, pc, pc', row, rfl, hw, ha, hw'⟩ | ⟨rfl, hw, rfl⟩ |
        ⟨-, hw, hq⟩
      · exact noneStale_advance hI hw ha hw'
      · exact noneStale_ends hI hleft hw
      · refine ⟨?_, ?_⟩
        · intro sm pc hww
          exact hq.progress (hI.worker sm pc (hw ▸ hww))
        · intro hnone hflag
          rw [hq.header .isPythonReady (by decide) (by decide)] at hflag
          rw [hq.event]
          exact hI.stale (hw ▸ hnone) hflag

theorem NoneStale.notMistaken (hI : NoneStale shm ev s) : NotMistaken shm ev s := by
  intro _ _ hevent _ hflag
  by_cases hnone : ∀ sm pc, s.worker = some ⟨sm, pc⟩ → pc.ready = false
  · rw [hI.stale hnone hflag] at hevent
    cases hevent
  · push Not at hnone
    obtain ⟨sm, pc, hw, hready⟩ := hnone
    have hready : pc.ready = true := by simpa using hready
    refine ⟨sm, pc, hw, hready, ?_⟩
    intro f hf
    apply (hI.worker sm pc hw).numbers f
    · rw [Pc.stored_of_ready hready, List.take_length]
      exact Field.mem_all f
    · revert hf
      cases f <;> decide

theorem not_notMistaken_of_leftReady (hI : NoneStale shm ev s)
    (h : restartStep shm ev s a = some s') (hleft : LeftReady shm ev s a) :
    ¬ NotMistaken shm ev s' := by
  obtain ⟨rfl, ⟨sm, pc, hw, hready⟩, ⟨hm, hmem, hmo⟩, ⟨he, heem, heo⟩⟩ := hleft
  simp only [restartStep, lifetimeStep, hw, Option.map_some, Option.some.injEq] at h
  subst h
  have hprog := hI.worker sm pc hw
  have hstored := Pc.stored_of_ready hready
  have hmne : hm.owner ≠ .worker := by rw [hmo]; decide
  have hene : he.owner ≠ .worker := by rw [heo]; decide
  have hstage : 7 ≤ pc.stage := of_decide_eq_true hready
  intro hnot
  have hkept := Kernel.contents_exitProcess hmem hmne
  obtain ⟨_, _, hnone, -⟩ := hnot
    ⟨hm, Kernel.mem_holders_exitProcess.mpr ⟨hmem, hmne⟩, hmo⟩
    ⟨he, Kernel.mem_eventHolders_exitProcess.mpr ⟨heem, hene⟩, heo⟩
    ((Kernel.event_exitProcess heem hene).trans (hprog.signalled (by omega)))
    ((Kernel.header_congr hkept .magic).trans
      (hprog.numbers .magic (by rw [hstored]; decide) rfl))
    ((Kernel.header_congr hkept .isPythonReady).trans
      ((hprog.flag hstored.symm.le).trans (by rw [hready]; rfl)))
  cases hnone

end Steps

/-- Over any sequence of lifetimes no worker is mistaken for another exactly if
none ends, with the flag set, while the C++ side has both objects open. -/
theorem notMistaken_iff (shm ev : String) (acts : List LifeAct) :
    Runs.Along (restartStep shm ev) (NotMistaken shm ev) ⟨Kernel.init, none⟩ acts ↔
      Runs.EachStep (restartStep shm ev) (fun s a _ => ¬ LeftReady shm ev s a)
        ⟨Kernel.init, none⟩ acts :=
  Runs.along_iff (fun _ _ _ hI h hleft => noneStale_step hI h hleft)
    (fun _ hI => hI.notMistaken)
    (fun _ _ _ hI h hnot hleft => not_notMistaken_of_leftReady hI h hleft hnot)
    noneStale_init

/-- A worker for blocks of 64 samples serves and dies while the C++ side holds
both objects; one for blocks of 32 samples is launched and has stored the third
header field. -/
def relaunch : List LifeAct :=
  .start 64 1 :: List.replicate 17 (.act (.returns [])) ++
    [.act .openMapping, .act .openEvent, .act .ends, .start 32 1] ++
      List.replicate 5 (.act (.returns []))

/-- The C++ side finds a worker announced that is not ready, with the block size
of the new one and the output offset of the old one. -/
theorem layouts_mixed :
    ∃ s, Runs.exec (restartStep "MabSharedMem_00000007" "MabEvent_00000007")
        ⟨Kernel.init, none⟩ relaunch = some s ∧
      s.kernel.header "MabSharedMem_00000007" .blockSize = some 32 ∧
      s.kernel.header "MabSharedMem_00000007" .outputOffset = some (60 + 4 * 64) ∧
      ¬ NotMistaken "MabSharedMem_00000007" "MabEvent_00000007" s := by
  have hrun : (Runs.exec (restartStep "MabSharedMem_00000007" "MabEvent_00000007")
      ⟨Kernel.init, none⟩ relaunch).any (fun s => decide
        (s.kernel.header "MabSharedMem_00000007" .blockSize = some 32 ∧
          s.kernel.header "MabSharedMem_00000007" .outputOffset = some (60 + 4 * 64) ∧
          HoldsMapping "MabSharedMem_00000007" s.kernel ∧
          HoldsEvent "MabEvent_00000007" s.kernel ∧
          s.kernel.events.value "MabEvent_00000007" = some true ∧
          s.kernel.header "MabSharedMem_00000007" .magic = some MAGIC_NUMBER.toNat ∧
          s.kernel.header "MabSharedMem_00000007" .isPythonReady = some 1 ∧
          (s.worker.any fun w => w.pc.ready) = false)) = true := by
    decide +kernel
  obtain ⟨s, hexec, hs⟩ := Runs.exists_exec_of_any hrun
  obtain ⟨hblock, hoffset, hmap, hev, hset, hmagic, hflag, hready⟩ := of_decide_eq_true hs
  refine ⟨s, hexec, hblock, hoffset, fun hnot => ?_⟩
  obtain ⟨sm, pc, hw, hpc, -⟩ := hnot hmap hev hset hmagic hflag
  rw [hw] at hready
  exact absurd (hready.symm.trans hpc) (by decide)

end MabTilde.Lifecycle

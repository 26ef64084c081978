import MabTilde.Confinement
import MabTilde.Readiness

/-!
What the handshake does achieve, for one worker.

A C++ side that waits for the event before it looks finds the layout complete
and the section large enough, then and at every later time, also when the
worker has ended.
-/

namespace MabTilde.Lifecycle

open Bytes NamedObjects Win32

def sectionSize (k : Kernel Proc) (n : String) : Option ℕ :=
  (k.mappings.value n).map Mapping.size

structure Laid (sm : SharedMemoryManager) (k : Kernel Proc) : Prop where
  numbers : ∀ f, f.isFlag = false → k.header sm.shmName f = some (sm.headerValue f).toNat
  room : k.fits sm.shmName sm.request = true

/-- The layout is the worker's, or nobody is left to have it. -/
def LayoutFinal (sm : SharedMemoryManager) (s : World) : Prop :=
  Laid sm s.kernel ∨ (s.worker = none ∧ s.kernel.mappings.value sm.shmName = none)

def Act.isReturns : Act → Bool
  | .returns _ => true
  | _ => false

def Pc.left : Pc → ℕ
  | .createFileMapping => 17
  | .mapViewOfFile => 16
  | .initHeader i => 6 + (Field.all.length - i)
  | .getViews => 5
  | .createEvent => 4
  | .setEvent => 3
  | .setPythonReady => 2
  | .loadModel => 1
  | .poll | .inferBlock _ | .writeBack _ | .setOutputReady | .clearInputReady => 0

section Sizes

variable {k k' : Kernel Proc} {p : Proc} {n name : String} {size z : ℕ}

theorem fits_iff : k.fits n size = true ↔ ∃ z, sectionSize k n = some z ∧ size ≤ z := by
  unfold Kernel.fits sectionSize
  cases k.mappings.value n with
  | none => simp
  | some m => simp

theorem sectionSize_write {f : Memory → Memory} :
    sectionSize (k.write name f) n = sectionSize k n := by
  unfold sectionSize Kernel.write
  by_cases hn : n = name
  · subst hn
    rw [Table.value_modify_self, Option.map_map]
    rfl
  · rw [Table.value_modify_of_ne hn]

theorem value_hold_size {h : Holder Proc} {v : Mapping} (hz : sectionSize k n = some z) :
    ((k.mappings.hold name h v).value n).map Mapping.size = some z := by
  obtain ⟨m, hm, hsize⟩ := Option.map_eq_some_iff.mp hz
  by_cases hn : n = name
  · subst hn
    rw [Table.value_hold_self, hm, Option.getD_some, Option.map_some, hsize]
  · rw [Table.value_hold_of_ne hn, hm, Option.map_some, hsize]

theorem sectionSize_createFileMapping (hz : sectionSize k n = some z) :
    sectionSize (k.createFileMapping p size name) n = some z := value_hold_size hz

theorem sectionSize_mapViewOfFile (hz : sectionSize k n = some z) :
    sectionSize (k.mapViewOfFile p name) n = some z := value_hold_size hz

theorem sectionSize_openFileMapping (h : k.openFileMapping p name = some k') :
    sectionSize k' n = sectionSize k n := by
  simp only [Kernel.openFileMapping, Option.ite_none_right_eq_some, Option.some.injEq,
    Option.isSome_iff_exists] at h
  obtain ⟨⟨m, hm⟩, rfl⟩ := h
  by_cases hn : n = name
  · subst hn
    have hz : sectionSize k n = some m.size := by rw [sectionSize, hm, Option.map_some]
    rw [hz]
    exact sectionSize_createFileMapping hz
  · unfold sectionSize Kernel.createFileMapping
    rw [Table.value_hold_of_ne hn]

theorem fits_of_kept (hkept : ∀ z, sectionSize k n = some z → sectionSize k' n = some z)
    (h : k.fits n size = true) : k'.fits n size = true := by
  obtain ⟨z, hz, hle⟩ := fits_iff.mp h
  exact fits_iff.mpr ⟨z, hkept z hz, hle⟩

end Sizes

section Steps

variable {sm : SharedMemoryManager} {pc pc' : Pc} {row : List (BitVec 32)} {k k' : Kernel Proc}
  {s s' : World} {a : Act} {n : String} {z : ℕ}

theorem sectionSize_advance (ha : advance ⟨sm, pc⟩ row k = some (pc', k'))
    (hz : sectionSize k n = some z) : sectionSize k' n = some z := by
  cases pc with
  | createFileMapping =>
      obtain ⟨-, rfl⟩ := advance_createFileMapping ha
      exact sectionSize_createFileMapping hz
  | mapViewOfFile =>
      obtain ⟨-, rfl⟩ := advance_mapViewOfFile ha
      exact sectionSize_mapViewOfFile hz
  | initHeader i =>
      rcases advance_initHeader ha with ⟨f, -, -, rfl⟩ | ⟨-, -, rfl⟩
      · exact sectionSize_write.trans hz
      · exact hz
  | getViews =>
      obtain ⟨-, -, rfl⟩ := advance_getViews ha
      exact hz
  | poll =>
      obtain ⟨-, rfl⟩ := advance_poll ha
      exact hz
  | createEvent | setEvent | loadModel | inferBlock ch =>
      cases ha
      exact hz
  | setPythonReady | writeBack ch | setOutputReady | clearInputReady =>
      cases ha
      exact sectionSize_write.trans hz

theorem sectionSize_cpp {shm ev : String} (ha : a.isCpp = true)
    (h : lifetimeStep shm ev s a = some s') :
    sectionSize s'.kernel n = sectionSize s.kernel n := by
  cases a with
  | returns row => cases ha
  | ends => cases ha
  | openMapping =>
      simp only [lifetimeStep, Option.map_eq_some_iff] at h
      obtain ⟨k, hk, rfl⟩ := h
      exact sectionSize_openFileMapping hk
  | openEvent =>
      simp only [lifetimeStep, Option.map_eq_some_iff] at h
      obtain ⟨k, hk, rfl⟩ := h
      simp only [Kernel.openEvent, Option.ite_none_right_eq_some, Option.some.injEq] at hk
      obtain ⟨-, rfl⟩ := hk
      rfl
  | publish =>
      simp only [lifetimeStep, Option.ite_none_right_eq_some, Option.some.injEq] at h
      obtain ⟨-, rfl⟩ := h
      exact sectionSize_write
  | consume =>
      simp only [lifetimeStep, Option.ite_none_right_eq_some, Option.some.injEq] at h
      obtain ⟨-, rfl⟩ := h
      exact sectionSize_write

theorem fits_advance (h : 1 ≤ pc.stage → pc ≠ .mapViewOfFile →
      k.fits sm.shmName sm.request = true)
    (ha : advance ⟨sm, pc⟩ row k = some (pc', k')) (hpc' : pc' ≠ .mapViewOfFile) :
    k'.fits sm.shmName sm.request = true := by
  apply fits_of_kept (fun z hz => sectionSize_advance ha hz)
  cases pc with
  | createFileMapping =>
      obtain ⟨rfl, -⟩ := advance_createFileMapping ha
      exact absurd rfl hpc'
  | mapViewOfFile =>
      simp only [advance, Option.ite_none_right_eq_some] at ha
      exact ha.1
  | _ => exact h (by simp [Pc.stage]) (by simp)

/-- There is no way back. -/
theorem stage_advance (ha : advance ⟨sm, pc⟩ row k = some (pc', k')) :
    pc.stage ≤ pc'.stage ∧ 1 ≤ pc'.stage := by
  cases pc with
  | createFileMapping =>
      obtain ⟨rfl, -⟩ := advance_createFileMapping ha
      decide
  | mapViewOfFile =>
      obtain ⟨rfl, -⟩ := advance_mapViewOfFile ha
      decide
  | initHeader i =>
      rcases advance_initHeader ha with ⟨f, -, rfl, -⟩ | ⟨-, rfl, -⟩
      · simp [Pc.stage]
      · simp [Pc.stage]
  | getViews =>
      obtain ⟨-, rfl, -⟩ := advance_getViews ha
      decide
  | createEvent | setEvent | setPythonReady | loadModel | setOutputReady | clearInputReady =>
      cases ha
      decide
  | inferBlock ch =>
      cases ha
      simp [Pc.stage]
  | poll =>
      rw [(advance_poll ha).1]
      decide
  | writeBack ch =>
      cases ha
      rw [loopFrom_stage]
      simp [Pc.stage]

theorem Pc.stage_le (pc : Pc) : pc.stage ≤ 8 := by cases pc <;> simp [stage]

theorem left_advance (hpc : pc.stage ≠ 8) (ha : advance ⟨sm, pc⟩ row k = some (pc', k')) :
    pc'.left < pc.left := by
  cases pc with
  | createFileMapping =>
      obtain ⟨rfl, -⟩ := advance_createFileMapping ha
      decide
  | mapViewOfFile =>
      obtain ⟨rfl, -⟩ := advance_mapViewOfFile ha
      decide
  | initHeader i =>
      rcases advance_initHeader ha with ⟨f, hf, rfl, -⟩ | ⟨-, rfl, -⟩
      · have hlt := (List.getElem?_eq_some_iff.mp hf).1
        simp only [Pc.left]
        omega
      · simp only [Pc.left]
        omega
  | getViews =>
      obtain ⟨-, rfl, -⟩ := advance_getViews ha
      decide
  | createEvent | setEvent | setPythonReady | loadModel =>
      cases ha
      decide
  | _ => exact absurd rfl hpc

end Steps

/-! ### Waiting for the event -/

structure Waiting (sm : SharedMemoryManager) (s : World) : Prop where
  silent : s.kernel.events.value sm.readyEventName ≠ some true
  worker : ∀ sm' pc, s.worker = some ⟨sm', pc⟩ → sm' = sm ∧ pc.stage ≤ 5 ∧
    Progress sm.shmName sm.readyEventName sm pc s.kernel ∧
    (1 ≤ pc.stage → pc ≠ .mapViewOfFile → s.kernel.fits sm.shmName sm.request = true)

/-- `SetEvent` has been called, and the layout is there to stay. -/
structure Settled (sm : SharedMemoryManager) (s : World) : Prop where
  worker : ∀ sm' pc, s.worker = some ⟨sm', pc⟩ → sm' = sm ∧ 6 ≤ pc.stage ∧
    Progress sm.shmName sm.readyEventName sm pc s.kernel
  layout : LayoutFinal sm s

section Waiting

variable {sm : SharedMemoryManager} {s s' : World} {a : Act} {k : Kernel Proc} {pc : Pc}

theorem waiting_start (hk : k.events.value sm.readyEventName ≠ some true) :
    Waiting sm ⟨k, some ⟨sm, .createFileMapping⟩⟩ := by
  refine ⟨hk, ?_⟩
  rintro _ _ ⟨⟩
  exact ⟨rfl, by decide, progress_start sm.blockSize sm.numChannels k,
    fun hs => absurd hs (by decide)⟩

theorem laid_of_progress (h : Progress sm.shmName sm.readyEventName sm pc k)
    (hpc : 6 ≤ pc.stage) (hroom : k.fits sm.shmName sm.request = true) : Laid sm k := by
  refine ⟨?_, hroom⟩
  intro f hf
  apply h.numbers f _ hf
  have hstored : pc.stored = Field.all.length := by
    cases pc <;> first | rfl | exact absurd hpc (by simp [Pc.stage])
  rw [hstored, List.take_length]
  exact Field.mem_all f

/-- The call of `SetEvent` comes when the header is complete. -/
theorem waiting_step (hI : Waiting sm s)
    (h : lifetimeStep sm.shmName sm.readyEventName s a = some s') :
    Waiting sm s' ∨ Settled sm s' := by
  rcases lifetimeStep_cases h with ⟨sm', pc, pc', row, rfl, hw, ha, hw'⟩ | ⟨rfl, -, rfl⟩ |
    ⟨hcpp, hw, hq⟩
  · obtain ⟨rfl, hstage, hprog, hfits⟩ := hI.worker _ _ hw
    have hprog' := progress_advance hprog ha
    by_cases hpc : pc.stage ≤ 4
    · obtain ⟨-, hevent, -, hnext⟩ := advance_unannounced hprog hpc ha
      refine .inl ⟨fun hset => hI.silent (hevent hset), ?_⟩
      intro sm'' pc'' hww
      cases hw'.symm.trans hww
      exact ⟨rfl, by omega, hprog', fun _ hne => fits_advance hfits ha hne⟩
    · obtain rfl : pc = .setEvent := by cases pc <;> first | rfl | simp [Pc.stage] at hstage hpc
      obtain rfl : .setPythonReady = pc' := congrArg Prod.fst (Option.some.inj ha)
      have hroom := fits_of_kept (fun z hz => sectionSize_advance ha hz)
        (hfits (by decide) (by simp))
      refine .inr ⟨?_, .inl (laid_of_progress hprog' (by decide) hroom)⟩
      intro sm'' pc'' hww
      cases hw'.symm.trans hww
      exact ⟨rfl, by decide, hprog'⟩
  · refine .inl ⟨fun hset => hI.silent (Kernel.event_of_exitProcess hset), ?_⟩
    rintro _ _ ⟨⟩
  · refine .inl ⟨hq.event.symm ▸ hI.silent, ?_⟩
    intro sm' pc hww
    obtain ⟨hsm, hstage, hprog, hfits⟩ := hI.worker sm' pc (hw ▸ hww)
    refine ⟨hsm, hstage, hq.progress hprog, fun hs hne => ?_⟩
    exact fits_of_kept (fun z hz => (sectionSize_cpp hcpp h).trans hz) (hfits hs hne)

/-- What the C++ side holds is not changed by the end of the worker. -/
theorem layoutFinal_exitProcess (h : LayoutFinal sm s) :
    LayoutFinal sm ⟨s.kernel.exitProcess .worker, none⟩ := by
  rcases h with h | ⟨-, hgone⟩
  · cases hv : (s.kernel.exitProcess .worker).mappings.value sm.shmName with
    | none => exact .inr ⟨rfl, hv⟩
    | some m =>
        have hold := Table.value_of_value_release hv
        left
        refine ⟨?_, ?_⟩
        · intro f hf
          rw [← h.numbers f hf]
          apply Kernel.header_congr
          unfold Kernel.contents
          rw [hv, hold]
        · obtain ⟨z, hz, hle⟩ := fits_iff.mp h.room
          apply fits_iff.mpr
          refine ⟨z, ?_, hle⟩
          rw [← hz, sectionSize, sectionSize]
          exact congrArg _ (hv.trans hold.symm)
  · right
    refine ⟨rfl, ?_⟩
    show (s.kernel.mappings.release _).value sm.shmName = none
    cases hv : (s.kernel.mappings.release fun h => h.owner = .worker).value sm.shmName with
    | none => rfl
    | some m =>
        rw [Table.value_of_value_release hv] at hgone
        cases hgone

theorem settled_step (hI : Settled sm s)
    (h : lifetimeStep sm.shmName sm.readyEventName s a = some s') : Settled sm s' := by
  rcases lifetimeStep_cases h with ⟨sm', pc, pc', row, rfl, hw, ha, hw'⟩ | ⟨rfl, -, rfl⟩ |
    ⟨hcpp, hw, hq⟩
  · obtain ⟨rfl, hstage, hprog⟩ := hI.worker _ _ hw
    have hstage' := (stage_advance ha).1
    have hprog' := progress_advance hprog ha
    refine ⟨?_, ?_⟩
    · intro sm'' pc'' hww
      cases hw'.symm.trans hww
      exact ⟨rfl, by omega, hprog'⟩
    · rcases hI.layout with hlaid | ⟨hnone, -⟩
      · left
        apply laid_of_progress hprog' (by omega)
        exact fits_of_kept (fun z hz => sectionSize_advance ha hz) hlaid.room
      · rw [hw] at hnone
        cases hnone
  · refine ⟨?_, layoutFinal_exitProcess hI.layout⟩
    rintro _ _ ⟨⟩
  · refine ⟨?_, ?_⟩
    · intro sm' pc hww
      obtain ⟨hsm, hstage, hprog⟩ := hI.worker sm' pc (hw ▸ hww)
      exact ⟨hsm, hstage, hq.progress hprog⟩
    · rcases hI.layout with hlaid | ⟨hnone, hgone⟩
      · left
        refine ⟨?_, ?_⟩
        · intro f hf
          rw [hq.header f (by rintro rfl; cases hf) (by rintro rfl; cases hf)]
          exact hlaid.numbers f hf
        · exact fits_of_kept (fun z hz => (sectionSize_cpp hcpp h).trans hz) hlaid.room
      · right
        refine ⟨hw.trans hnone, ?_⟩
        have hsize := sectionSize_cpp (n := sm.shmName) hcpp h
        simpa [sectionSize, hgone] using hsize

end Waiting

/-- Once the event has been seen signalled, in a session where it was not when
the worker was launched, the layout in the section is complete and stays so. -/
theorem layout_after_signal (sm : SharedMemoryManager) {k : Kernel Proc}
    (hk : k.events.value sm.readyEventName ≠ some true) (acts : List Act) :
    Runs.Along (lifetimeStep sm.shmName sm.readyEventName)
      (fun s => s.kernel.events.value sm.readyEventName = some true → ∀ later,
        Runs.Along (lifetimeStep sm.shmName sm.readyEventName) (LayoutFinal sm) s later)
      ⟨k, some ⟨sm, .createFileMapping⟩⟩ acts := by
  apply Runs.Along.of_invariant (I := fun s => Waiting sm s ∨ Settled sm s)
  · intro s a s' hI h
    rcases hI with hI | hI
    · exact waiting_step hI h
    · exact .inr (settled_step hI h)
  · intro s hI hset later
    rcases hI with hI | hI
    · exact absurd hset hI.silent
    · exact Runs.Along.of_invariant (fun _ _ _ hI h => settled_step hI h) (fun _ hI => hI.layout) hI
  · exact .inl (waiting_start hk)

/-- The C++ side opens both objects when it is woken, and keeps them when the
worker fails to load its model. -/
theorem layout_after_signal_oneChannel :
    Runs.Along (lifetimeStep oneChannel.shmName oneChannel.readyEventName)
      (fun s => s.kernel.events.value oneChannel.readyEventName = some true → ∀ later,
        Runs.Along (lifetimeStep oneChannel.shmName oneChannel.readyEventName)
          (LayoutFinal oneChannel) s later)
      ⟨Kernel.init, some ⟨oneChannel, .createFileMapping⟩⟩
      (List.replicate 15 (.returns []) ++ [.openMapping, .openEvent, .returns [], .ends]) :=
  layout_after_signal oneChannel (by rintro ⟨⟩) _

end MabTilde.Lifecycle

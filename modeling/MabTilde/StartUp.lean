import MabTilde.Handshake
import MabTilde.ViewPointers

/-!
Getting into the loop.

Nothing in the start-up waits for the C++ side, so what decides is what `main()`
is given and what the system answers. Three of the answers come out of the
calls' undeclared types and of a constant: the section is asked for with the
protection `0x01`, the view with the size as a C `int`, and where it lies comes
back as a C `int`. If these go well, the two views can be built, and a section
that is there already is large enough, then the worker is never stuck, and
seventeen of its own steps take it into the serving loop with everything
announced, whatever the C++ side does in between; otherwise not.
-/

namespace MabTilde.Lifecycle

open Bytes NamedObjects Win32

/-- What the system answers to `create()`. -/
structure Host where
  /-- The protection `0x01` is taken for that of a section to be written. -/
  acceptsProtection : Bool
  /-- Where the view is put. -/
  base : ℕ
  base_pos : 0 < base
  base_lt : base < 2 ^ 47

/-- A call or store of `create()` succeeds with these answers: the view asked for
lies in the section and in the address space, what comes back of its address is not
taken for null, and the header stores reach it. -/
def Host.lets (host : Host) (w : Worker) (k : Kernel Proc) : Bool :=
  let sm := w.manager
  let pBase := cIntResult (BitVec.ofNat 64 host.base)
  match w.pc with
  | .createFileMapping => host.acceptsProtection
  | .mapViewOfFile =>
      k.fits sm.shmName sm.viewSize && decide (host.base + sm.viewSize ≤ 2 ^ 47) &&
        decide (pBase ≠ 0)
  | .initHeader _ => decide ((address pBase).toNat = host.base)
  | _ => true

/-- The lifetime of a worker on this system. -/
def hostedStep (host : Host) (shm ev : String) (s : World) : Act → Option World
  | .returns row =>
      if s.worker.all fun w => host.lets w s.kernel then lifetimeStep shm ev s (.returns row)
      else none
  | a => lifetimeStep shm ev s a

/-- With these arguments, from these objects, nothing `create()` or the views
check goes wrong. -/
structure Launchable (sm : SharedMemoryManager) (k : Kernel Proc) : Prop where
  convertible : sm.convertible = true
  hasViews : sm.hasViews = true
  room : ∀ z, sectionSize k sm.shmName = some z → sm.request ≤ z

/-- The arguments, the section found and the system's answers allow the start. -/
structure Startable (sm : SharedMemoryManager) (host : Host) (k : Kernel Proc) : Prop where
  accepted : host.acceptsProtection = true
  low : host.base < 2 ^ 31
  small : sm.totalSize < 2 ^ 31
  hasViews : sm.hasViews = true
  room : ∀ z, sectionSize k sm.shmName = some z → sm.totalSize ≤ z

/-- A worker on its way, which no check has stopped or will stop. -/
structure Starting (sm : SharedMemoryManager) (s : World) : Prop where
  convertible : sm.convertible = true
  hasViews : sm.hasViews = true
  worker : ∀ sm' pc, s.worker = some ⟨sm', pc⟩ → sm' = sm ∧
    Progress sm.shmName sm.readyEventName sm pc s.kernel ∧
    (pc = .createFileMapping → ∀ z, sectionSize s.kernel sm.shmName = some z → sm.request ≤ z) ∧
    (1 ≤ pc.stage → s.kernel.fits sm.shmName sm.request = true)

def Arrived (s : World) : Prop := ∀ w, s.worker = some w → w.pc.stage = 8

section Starting

variable {sm : SharedMemoryManager} {s s' : World} {a : Act} {k k' : Kernel Proc} {pc pc' : Pc}
  {row : List (BitVec 32)}

theorem starting_start (h : Launchable sm k) :
    Starting sm ⟨k, some ⟨sm, .createFileMapping⟩⟩ := by
  refine ⟨h.convertible, h.hasViews, ?_⟩
  rintro _ _ ⟨⟩
  exact ⟨rfl, progress_start sm.blockSize sm.numChannels k, fun _ => h.room,
    fun hs => absurd hs (by decide)⟩

theorem starting_step (hI : Starting sm s)
    (h : lifetimeStep sm.shmName sm.readyEventName s a = some s') : Starting sm s' := by
  refine ⟨hI.convertible, hI.hasViews, ?_⟩
  rcases lifetimeStep_cases h with ⟨sm', pc, pc', row, rfl, hw, ha, hw'⟩ | ⟨rfl, -, rfl⟩ |
    ⟨hcpp, hw, hq⟩
  · obtain ⟨rfl, hprog, hroom, hfits⟩ := hI.worker _ _ hw
    intro sm'' pc'' hww
    cases hw'.symm.trans hww
    refine ⟨rfl, progress_advance hprog ha, ?_, ?_⟩
    · rintro rfl
      exact absurd (stage_advance ha).2 (by decide)
    · intro _
      by_cases hpc : pc = .createFileMapping
      · subst hpc
        have hnew := (advance_createFileMapping ha).2
        rw [hnew]
        apply Kernel.fits_createFileMapping.mpr
        intro m hm
        apply hroom rfl
        rw [sectionSize, hm, Option.map_some]
      · apply fits_of_kept (fun z hz => sectionSize_advance ha hz)
        apply hfits
        cases pc <;> first | exact absurd rfl hpc | simp [Pc.stage]
  · rintro _ _ ⟨⟩
  · intro sm' pc hww
    obtain ⟨hsm, hprog, hroom, hfits⟩ := hI.worker sm' pc (hw ▸ hww)
    refine ⟨hsm, hq.progress hprog, ?_, ?_⟩
    · intro hpc z hz
      exact hroom hpc z ((sectionSize_cpp hcpp h).symm.trans hz)
    · intro hs
      exact fits_of_kept (fun z hz => (sectionSize_cpp hcpp h).trans hz) (hfits hs)

theorem starting_enabled (hI : Starting sm s) (hw : s.worker ≠ none) (row : List (BitVec 32)) :
    ∃ s', lifetimeStep sm.shmName sm.readyEventName s (.returns row) = some s' := by
  obtain ⟨⟨sm', pc⟩, hw⟩ := Option.ne_none_iff_exists'.mp hw
  obtain ⟨rfl, -, -, hfits⟩ := hI.worker _ _ hw
  have hconv := hI.convertible
  have hviews := hI.hasViews
  have hnext : ∃ r, advance ⟨sm', pc⟩ row s.kernel = some r := by
    cases pc with
    | createFileMapping => exact ⟨_, if_pos hconv⟩
    | mapViewOfFile => exact ⟨_, if_pos (hfits (by decide))⟩
    | initHeader i =>
        simp only [advance]
        split
        · exact ⟨_, rfl⟩
        · exact ⟨_, rfl⟩
    | getViews => exact ⟨_, if_pos hviews⟩
    | poll =>
        simp only [advance]
        split
        · exact ⟨_, rfl⟩
        · exact ⟨_, rfl⟩
    | _ => exact ⟨_, rfl⟩
  obtain ⟨r, hr⟩ := hnext
  exact ⟨_, by rw [lifetimeStep, hw, Option.bind_some, hr, Option.map_some]⟩

theorem arrived_step {shm ev : String} (hI : Arrived s)
    (h : lifetimeStep shm ev s a = some s') : Arrived s' := by
  rcases lifetimeStep_cases h with ⟨sm, pc, pc', row, rfl, hw, ha, hw'⟩ | ⟨rfl, -, rfl⟩ |
    ⟨-, hw, -⟩
  · have hpc : pc.stage = 8 := hI _ hw
    have hle := (stage_advance ha).1
    have hmax := pc'.stage_le
    intro w hww
    cases hw'.symm.trans hww
    show pc'.stage = 8
    omega
  · rintro _ ⟨⟩
  · intro w hww
    exact hI w (hw ▸ hww)

theorem worker_ne_none_step {shm ev : String} (hne : a ≠ .ends) (hI : s.worker ≠ none)
    (h : lifetimeStep shm ev s a = some s') : s'.worker ≠ none := by
  rcases lifetimeStep_cases h with ⟨sm, pc, pc', row, rfl, hw, ha, hw'⟩ | ⟨rfl, -, rfl⟩ |
    ⟨-, hw, -⟩
  · rw [hw']
    simp
  · exact absurd rfl hne
  · rw [hw]
    exact hI

theorem canServe_of_arrived (hI : Starting sm s) (harr : Arrived s) (hw : s.worker ≠ none) :
    CanServe sm s ∧ s.kernel.events.value sm.readyEventName = some true := by
  obtain ⟨⟨sm', pc⟩, hw⟩ := Option.ne_none_iff_exists'.mp hw
  obtain ⟨rfl, hprog, -, hfits⟩ := hI.worker _ _ hw
  have hpc : pc.stage = 8 := harr _ hw
  obtain ⟨hstored, hready⟩ := Pc.serving_of_stage hpc
  have hlaid := laid_of_progress hprog (by omega) (hfits (by omega))
  refine ⟨⟨?_, hlaid.numbers, pc, hw, decide_eq_true (by omega)⟩, hprog.signalled (by omega)⟩
  rw [hprog.flag hstored.symm.le, hready]
  rfl

def stepsLeft (s : World) : ℕ := s.worker.elim 0 fun w => w.pc.left

theorem stepsLeft_step {shm ev : String} (harr : ¬ Arrived s)
    (h : lifetimeStep shm ev s a = some s') (harr' : ¬ Arrived s') :
    a.isReturns.toNat + stepsLeft s' ≤ stepsLeft s := by
  rcases lifetimeStep_cases h with ⟨sm, pc, pc', row, rfl, hw, ha, hw'⟩ | ⟨rfl, -, rfl⟩ |
    ⟨hcpp, hw, -⟩
  · have hpc : pc.stage ≠ 8 := by
      intro hpc
      apply harr
      intro w hww
      cases hw.symm.trans hww
      exact hpc
    have hlt := left_advance hpc ha
    rw [stepsLeft, stepsLeft, hw, hw']
    show 1 + pc'.left ≤ pc.left
    omega
  · refine absurd ?_ harr'
    rintro _ ⟨⟩
  · have hno : a.isReturns = false := by
      cases a with
      | returns row => cases hcpp
      | _ => rfl
    rw [stepsLeft, stepsLeft, hw, hno, Bool.toNat_false, Nat.zero_add]

theorem arrived_of_stepsLeft (h : stepsLeft s = 0) : Arrived s := by
  intro w hw
  rw [stepsLeft, hw, Option.elim_some] at h
  cases hpc : w.pc <;> rw [hpc] at h <;> first | rfl | simp [Pc.left] at h

structure Sized (sm : SharedMemoryManager) (k : Kernel Proc) (s : World) : Prop where
  kept : ∀ z, sectionSize k sm.shmName = some z → sectionSize s.kernel sm.shmName = some z
  fits : ∀ sm' pc, s.worker = some ⟨sm', pc⟩ → sm' = sm ∧
    (1 ≤ pc.stage → pc ≠ .mapViewOfFile → s.kernel.fits sm.shmName sm.request = true)

theorem sized_step (hne : a ≠ .ends) (hI : Sized sm k s)
    (h : lifetimeStep sm.shmName sm.readyEventName s a = some s') : Sized sm k s' := by
  rcases lifetimeStep_cases h with ⟨sm', pc, pc', row, rfl, hw, ha, hw'⟩ | ⟨rfl, -, rfl⟩ |
    ⟨hcpp, hw, -⟩
  · obtain ⟨rfl, hfits⟩ := hI.fits _ _ hw
    refine ⟨fun z hz => sectionSize_advance ha (hI.kept z hz), ?_⟩
    intro sm'' pc'' hww
    cases hw'.symm.trans hww
    exact ⟨rfl, fun _ hpc => fits_advance hfits ha hpc⟩
  · exact absurd rfl hne
  · refine ⟨fun z hz => (sectionSize_cpp hcpp h).trans (hI.kept z hz), ?_⟩
    intro sm' pc hww
    obtain ⟨hsm, hfits⟩ := hI.fits sm' pc (hw ▸ hww)
    refine ⟨hsm, fun hs hpc => ?_⟩
    exact fits_of_kept (fun z hz => (sectionSize_cpp hcpp h).trans hz) (hfits hs hpc)

theorem placed_serving (h : Placed sm pc) (hpc : pc.stage = 8) :
    sm.convertible = true ∧ sm.hasViews = true := by
  cases pc with
  | poll | setOutputReady | clearInputReady => exact h
  | inferBlock ch | writeBack ch => exact ⟨h.1, h.2.1⟩
  | _ => cases hpc

/-- A worker that has got into the loop was launched so that it could. -/
theorem launchable_of_serving {acts : List Act}
    (h : Runs.exec (lifetimeStep sm.shmName sm.readyEventName)
      ⟨k, some ⟨sm, .createFileMapping⟩⟩ acts = some s)
    (hends : .ends ∉ acts) (hserve : CanServe sm s) : Launchable sm k := by
  obtain ⟨pc, hw, hloaded⟩ := hserve.alive
  have hpc : pc.stage = 8 := Nat.le_antisymm pc.stage_le (of_decide_eq_true hloaded)
  have hlaunched : Launched sm s := Runs.Reaches.invariant
    (fun _ _ _ hI h => launched_step hI h) launched_start ⟨acts, h⟩
  obtain ⟨hconv, hviews⟩ := placed_serving (hlaunched _ _ hw).2 hpc
  have hstart : Sized sm k ⟨k, some ⟨sm, .createFileMapping⟩⟩ := by
    refine ⟨fun z hz => hz, ?_⟩
    rintro _ _ ⟨⟩
    exact ⟨rfl, fun hs => absurd hs (by decide)⟩
  have hno : Runs.EachStep (lifetimeStep sm.shmName sm.readyEventName) (fun _ a _ => a ≠ .ends)
      ⟨k, some ⟨sm, .createFileMapping⟩⟩ acts :=
    Runs.EachStep.of_forall fun a ha _ _ heq => hends (heq ▸ ha)
  have hsized : Sized sm k s := Runs.exec_invariant (G := fun _ a _ => a ≠ .ends)
    (fun _ _ _ hI h hne => sized_step hne hI h) hstart hno h
  refine ⟨hconv, hviews, ?_⟩
  intro z hz
  have hfits := (hsized.fits _ _ hw).2 (by omega) (by rintro rfl; cases hpc)
  obtain ⟨z', hz', hle⟩ := fits_iff.mp hfits
  rw [hsized.kept z hz] at hz'
  cases hz'
  exact hle

end Starting

section Host

variable {sm : SharedMemoryManager} {host : Host} {s s' : World} {a : Act} {k : Kernel Proc}
  {pc : Pc} {row : List (BitVec 32)}

theorem lifetimeStep_of_hostedStep {shm ev : String}
    (h : hostedStep host shm ev s a = some s') : lifetimeStep shm ev s a = some s' := by
  cases a with
  | returns row => exact (Option.ite_none_right_eq_some.mp h).2
  | _ => exact h

theorem lets_of_hostedStep {shm ev : String} {w : Worker}
    (h : hostedStep host shm ev ⟨k, some w⟩ (.returns row) = some s') :
    host.lets w k = true := (Option.ite_none_right_eq_some.mp h).1

theorem lets_initHeader_iff {i : ℕ} :
    host.lets ⟨sm, .initHeader i⟩ k = true ↔ host.base < 2 ^ 31 := by
  have hbase := host.base_lt
  refine decide_eq_true_iff.trans ⟨?_, ?_⟩
  · exact SharedMemoryManager.lt_of_address_cIntResult hbase
  · intro hlow
    rw [SharedMemoryManager.cIntResult_of_lt hlow]
    exact SharedMemoryManager.address_toNat (by omega)

theorem convertible_of_small (hviews : sm.hasViews = true) (hsmall : sm.totalSize < 2 ^ 31) :
    sm.convertible = true := by
  have hpos := totalSize_nonneg hviews
  simp only [SharedMemoryManager.convertible, Bool.and_eq_true, decide_eq_true_eq]
  omega

theorem Startable.request_eq (h : Startable sm host k) : (sm.request : ℤ) = sm.totalSize :=
  Lifecycle.request_eq (convertible_of_small h.hasViews h.small) h.hasViews

theorem Startable.launchable (h : Startable sm host k) : Launchable sm k := by
  refine ⟨convertible_of_small h.hasViews h.small, h.hasViews, ?_⟩
  intro z hz
  have hrequest := h.request_eq
  have hroom := h.room z hz
  omega

theorem Startable.lets (h : Startable sm host k) {k' : Kernel Proc}
    (hfits : 1 ≤ pc.stage → k'.fits sm.shmName sm.request = true) :
    host.lets ⟨sm, pc⟩ k' = true := by
  have hlow := h.low
  have hpos := host.base_pos
  cases pc with
  | createFileMapping => exact h.accepted
  | mapViewOfFile =>
      have hsmall := h.small
      have hrequest := h.request_eq
      have hview := SharedMemoryManager.viewSize_of_lt (totalSize_nonneg h.hasViews) h.small
      have hsame : sm.viewSize = sm.request := by omega
      have hbase := SharedMemoryManager.cIntResult_of_lt hlow
      simp only [Host.lets, hsame, hfits (by decide), hbase, Bool.true_and, Bool.and_eq_true,
        decide_eq_true_eq]
      omega
  | initHeader i => exact lets_initHeader_iff.mpr hlow
  | _ => rfl

theorem hosted_enabled (h : Startable sm host k) (hI : Starting sm s) (hw : s.worker ≠ none)
    (row : List (BitVec 32)) :
    ∃ s', hostedStep host sm.shmName sm.readyEventName s (.returns row) = some s' := by
  obtain ⟨s', hs'⟩ := starting_enabled hI hw row
  obtain ⟨⟨sm', pc⟩, hw⟩ := Option.ne_none_iff_exists'.mp hw
  obtain ⟨rfl, -, -, hfits⟩ := hI.worker _ _ hw
  refine ⟨s', (if_pos ?_).trans hs'⟩
  rw [hw]
  exact h.lets hfits

/-- What the first three steps say about the system's answers. -/
theorem answers_of_enabled
    (hall : ∀ n s, Runs.exec (hostedStep host sm.shmName sm.readyEventName)
      ⟨k, some ⟨sm, .createFileMapping⟩⟩ (List.replicate n (.returns [])) = some s →
        ∃ s', hostedStep host sm.shmName sm.readyEventName s (.returns []) = some s') :
    host.acceptsProtection = true ∧ host.base < 2 ^ 31 ∧ sm.totalSize < 2 ^ 31 := by
  obtain ⟨s₁, h₁⟩ := hall 0 _ rfl
  have haccepted : host.acceptsProtection = true := lets_of_hostedStep h₁
  have hnext := lifetimeStep_of_hostedStep h₁
  obtain ⟨⟨pc₁, k₁⟩, ha, rfl⟩ := Option.map_eq_some_iff.mp hnext
  obtain ⟨rfl, -⟩ := advance_createFileMapping ha
  have hconv : sm.convertible = true := (Option.ite_none_right_eq_some.mp ha).1
  obtain ⟨s₂, h₂⟩ := hall 1 _ ((Runs.exec_cons_of_step h₁).trans rfl)
  have hlets := lets_of_hostedStep h₂
  simp only [Host.lets, Bool.and_eq_true, decide_eq_true_eq] at hlets
  have hnext := lifetimeStep_of_hostedStep h₂
  obtain ⟨⟨pc₂, k₂⟩, ha, rfl⟩ := Option.map_eq_some_iff.mp hnext
  obtain ⟨rfl, -⟩ := advance_mapViewOfFile ha
  obtain ⟨s₃, h₃⟩ := hall 2 _
    ((Runs.exec_cons_of_step h₁).trans ((Runs.exec_cons_of_step h₂).trans rfl))
  refine ⟨haccepted, lets_initHeader_iff.mp (lets_of_hostedStep h₃), ?_⟩
  by_contra hlarge
  simp only [SharedMemoryManager.convertible, Bool.and_eq_true, decide_eq_true_eq] at hconv
  have hview : 2 ^ 63 ≤ sm.viewSize := SharedMemoryManager.le_viewSize (by omega) hconv.2
  omega

end Host

/-- However the C++ side behaves, a worker that does not end is never stuck and
serves after seventeen steps of its own, everything being announced, exactly if
its arguments, the section it finds and the system's answers allow it. -/
theorem serving_iff (sm : SharedMemoryManager) (host : Host) (k : Kernel Proc) :
    (∀ acts s, Runs.exec (hostedStep host sm.shmName sm.readyEventName)
        ⟨k, some ⟨sm, .createFileMapping⟩⟩ acts = some s → .ends ∉ acts →
      (∀ row, ∃ s', hostedStep host sm.shmName sm.readyEventName s (.returns row) = some s') ∧
      (17 ≤ acts.countP Act.isReturns →
        CanServe sm s ∧ s.kernel.events.value sm.readyEventName = some true)) ↔
      Startable sm host k := by
  have hsub : ∀ {s acts s'}, Runs.exec (hostedStep host sm.shmName sm.readyEventName) s acts =
      some s' → Runs.exec (lifetimeStep sm.shmName sm.readyEventName) s acts = some s' :=
    Runs.exec_of_imp fun _ _ _ => lifetimeStep_of_hostedStep
  refine ⟨?_, ?_⟩
  · intro hall
    have hno : ∀ n, Act.ends ∉ List.replicate n (Act.returns []) := by simp
    have henabled : ∀ n s, Runs.exec (hostedStep host sm.shmName sm.readyEventName)
        ⟨k, some ⟨sm, .createFileMapping⟩⟩ (List.replicate n (.returns [])) = some s →
          ∃ s', hostedStep host sm.shmName sm.readyEventName s (.returns []) = some s' :=
      fun n s hs => (hall _ s hs (hno n)).1 []
    -- the run of the worker alone
    have hrun : ∀ n, ∃ s, Runs.exec (hostedStep host sm.shmName sm.readyEventName)
        ⟨k, some ⟨sm, .createFileMapping⟩⟩ (List.replicate n (.returns [])) = some s := by
      intro n
      induction n with
      | zero => exact ⟨_, rfl⟩
      | succ n ih =>
          obtain ⟨s, hs⟩ := ih
          obtain ⟨s', hs'⟩ := henabled n s hs
          refine ⟨s', ?_⟩
          rw [List.replicate_succ', Runs.exec_append, hs, Option.bind_some, Runs.exec_cons, hs',
            Option.bind_some, Runs.exec_nil]
    obtain ⟨haccepted, hlow, hsmall⟩ := answers_of_enabled henabled
    obtain ⟨s, hs⟩ := hrun 17
    obtain ⟨hconv, hviews, hroom⟩ := launchable_of_serving (hsub hs) (hno 17)
      ((hall _ s hs (hno 17)).2 (by decide)).1
    refine ⟨haccepted, hlow, hsmall, hviews, ?_⟩
    intro z hz
    rw [← request_eq hconv hviews]
    exact_mod_cast hroom z hz
  · intro hstart acts s hexec hends
    have hno : Runs.EachStep (lifetimeStep sm.shmName sm.readyEventName)
        (fun _ a _ => a ≠ .ends) ⟨k, some ⟨sm, .createFileMapping⟩⟩ acts :=
      Runs.EachStep.of_forall fun a ha _ _ heq => hends (heq ▸ ha)
    have hstarting : Starting sm s := Runs.Reaches.invariant
      (fun _ _ _ hI h => starting_step hI h) (starting_start hstart.launchable)
      ⟨acts, hsub hexec⟩
    have hw : s.worker ≠ none := Runs.exec_invariant (I := fun s => s.worker ≠ none)
      (G := fun _ a _ => a ≠ .ends) (fun _ _ _ hI h hne => worker_ne_none_step hne hI h)
      (Option.some_ne_none _) hno (hsub hexec)
    refine ⟨hosted_enabled hstart hstarting hw, fun hcount => ?_⟩
    have harr : Arrived s := by
      refine Runs.exec_within (I := fun _ => True) Act.isReturns stepsLeft (fun _ => 0) ?_ ?_ ?_ ?_
        True.intro (hsub hexec) ?_
      · exact fun _ _ _ _ _ => True.intro
      · exact fun _ _ _ _ harr h => arrived_step harr h
      · exact fun _ _ _ _ harr h harr' => stepsLeft_step harr h harr'
      · exact fun _ _ hzero => arrived_of_stepsLeft hzero
      · exact hcount
    exact canServe_of_arrived hstarting harr hw

end MabTilde.Lifecycle

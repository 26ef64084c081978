import MabTilde.Restart

/-!
Relaunching a worker under the same names, with a C++ side that may close what
it has open.

What misleads it after a crash is not that an object survived: a section with
the flag still set does no harm while the event is not signalled, since the
next worker rewrites the whole header before it signals; nor does a signalled
event beside a new section, which is zero. Only the two together do, and then
at once, at the launch. So the one thing to be checked, or brought about by
closing either object, is that they do not stand together when a worker is
launched.
-/

namespace MabTilde.Lifecycle

open NamedObjects Win32

inductive RecoveryAct
  | life (a : LifeAct)
  /-- The C++ side unmaps its views and closes its handles of the section. -/
  | closeMapping
  | closeEvent

/-- One step of a sequence of lifetimes in which the C++ side may let go. -/
def recoveryStep (shm ev : String) (s : World) : RecoveryAct → Option World
  | .life a => restartStep shm ev s a
  | .closeMapping => some { s with kernel :=
      { s.kernel with mappings := s.kernel.mappings.release fun h => h.owner = .cpp } }
  | .closeEvent => some { s with kernel :=
      { s.kernel with events := s.kernel.events.release fun h => h.owner = .cpp } }

def Standing (shm ev : String) (k : Kernel Proc) : Prop :=
  k.events.value ev = some true ∧ k.header shm .isPythonReady = some 1

/-- While a worker is there, what stands announced is that worker, and the
header is its own. -/
def Rightful (shm ev : String) (s : World) : Prop :=
  ∀ sm pc, s.worker = some ⟨sm, pc⟩ → Standing shm ev s.kernel →
    pc.ready = true ∧ ∀ f, f.isFlag = false → s.kernel.header shm f = some (sm.headerValue f).toNat

/-- A worker is launched while an earlier one still stands announced. -/
def LaunchedOver (shm ev : String) (s : World) (a : RecoveryAct) : Prop :=
  (∃ blockSize numChannels, a = .life (.start blockSize numChannels)) ∧ Standing shm ev s.kernel

structure Grows (k k' : Kernel Proc) : Prop where
  mappings : ∀ n h, h ∈ k.mappings.holders n → h ∈ k'.mappings.holders n
  events : ∀ n h, h ∈ k.events.holders n → h ∈ k'.events.holders n

structure HeldByWorker (shm ev : String) (pc : Pc) (k : Kernel Proc) : Prop where
  mapping : 1 ≤ pc.stage → ∃ h ∈ k.mappings.holders shm, h.owner = .worker
  event : 5 ≤ pc.stage → ∃ h ∈ k.events.holders ev, h.owner = .worker

section Holding

variable {shm ev name : String} {k k' : Kernel Proc} {sm : SharedMemoryManager} {pc pc' : Pc}
  {row : List (BitVec 32)} {p : Proc}

theorem grows_refl (k : Kernel Proc) : Grows k k := ⟨fun _ _ hh => hh, fun _ _ hh => hh⟩

theorem mem_holders_hold {V : Type} {t : Table String (Holder Proc) V} {n : String}
    {h h' : Holder Proc} {v : V} (hh : h ∈ t.holders n) : h ∈ (t.hold name h' v).holders n := by
  by_cases hn : n = name
  · subst hn
    rw [Table.holders_hold_self]
    exact Finset.mem_insert_of_mem hh
  · rwa [Table.holders_hold_of_ne hn]

theorem grows_createFileMapping {size : ℕ} : Grows k (k.createFileMapping p size name) :=
  ⟨fun _ _ hh => mem_holders_hold hh, fun _ _ hh => hh⟩

theorem grows_mapViewOfFile : Grows k (k.mapViewOfFile p name) :=
  ⟨fun _ _ hh => mem_holders_hold hh, fun _ _ hh => hh⟩

theorem grows_createEvent : Grows k (k.createEvent p name) :=
  ⟨fun _ _ hh => hh, fun _ _ hh => mem_holders_hold hh⟩

theorem grows_setEvent : Grows k (k.setEvent name) := by
  refine ⟨fun _ _ hh => hh, ?_⟩
  intro n h hh
  rwa [Kernel.setEvent, Table.holders_modify]

theorem grows_write {f : Bytes.Memory → Bytes.Memory} : Grows k (k.write name f) := by
  refine ⟨?_, fun _ _ hh => hh⟩
  intro n h hh
  rwa [Kernel.holders_write]

theorem grows_storeField {f : Field} {v : BitVec 32} : Grows k (k.storeField name f v) :=
  grows_write

theorem grows_advance (ha : advance ⟨sm, pc⟩ row k = some (pc', k')) : Grows k k' := by
  cases pc with
  | createFileMapping =>
      obtain ⟨-, rfl⟩ := advance_createFileMapping ha
      exact grows_createFileMapping
  | mapViewOfFile =>
      obtain ⟨-, rfl⟩ := advance_mapViewOfFile ha
      exact grows_mapViewOfFile
  | initHeader i =>
      rcases advance_initHeader ha with ⟨f, -, -, rfl⟩ | ⟨-, -, rfl⟩
      · exact grows_write
      · exact grows_refl _
  | getViews =>
      obtain ⟨-, -, rfl⟩ := advance_getViews ha
      exact grows_refl _
  | createEvent =>
      cases ha
      exact grows_createEvent
  | setEvent =>
      cases ha
      exact grows_setEvent
  | poll =>
      obtain ⟨-, rfl⟩ := advance_poll ha
      exact grows_refl _
  | loadModel | inferBlock ch =>
      cases ha
      exact grows_refl _
  | setPythonReady | writeBack ch | setOutputReady | clearInputReady =>
      cases ha
      exact grows_write

theorem grows_cpp {s s' : World} {a : Act} (ha : a.isCpp = true)
    (h : lifetimeStep shm ev s a = some s') : Grows s.kernel s'.kernel := by
  cases a with
  | returns row => cases ha
  | ends => cases ha
  | openMapping =>
      simp only [lifetimeStep, Option.map_eq_some_iff, Kernel.openFileMapping,
        Option.ite_none_right_eq_some, Option.some.injEq] at h
      obtain ⟨k, ⟨-, rfl⟩, rfl⟩ := h
      exact grows_createFileMapping
  | openEvent =>
      simp only [lifetimeStep, Option.map_eq_some_iff, Kernel.openEvent,
        Option.ite_none_right_eq_some, Option.some.injEq] at h
      obtain ⟨k, ⟨-, rfl⟩, rfl⟩ := h
      exact grows_createEvent
  | publish | consume =>
      simp only [lifetimeStep, Option.ite_none_right_eq_some, Option.some.injEq] at h
      obtain ⟨-, rfl⟩ := h
      exact grows_storeField

theorem HeldByWorker.grows (hg : Grows k k') (h : HeldByWorker shm ev pc k) :
    HeldByWorker shm ev pc k' where
  mapping hs := by
    obtain ⟨hd, hh, ho⟩ := h.mapping hs
    exact ⟨hd, hg.mappings shm hd hh, ho⟩
  event hs := by
    obtain ⟨hd, hh, ho⟩ := h.event hs
    exact ⟨hd, hg.events ev hd hh, ho⟩

theorem heldByWorker_advance (hshm : sm.shmName = shm) (hev : sm.readyEventName = ev)
    (h : HeldByWorker shm ev pc k) (ha : advance ⟨sm, pc⟩ row k = some (pc', k')) :
    HeldByWorker shm ev pc' k' := by
  have hgrows := h.grows (grows_advance ha)
  cases pc with
  | createFileMapping =>
      obtain ⟨rfl, rfl⟩ := advance_createFileMapping ha
      refine ⟨fun _ => ⟨.handle .worker k.nextHandle, ?_, rfl⟩, fun hs => absurd hs (by decide)⟩
      rw [hshm, Kernel.holders_createFileMapping, if_pos rfl]
      exact Finset.mem_insert_self _ _
  | mapViewOfFile =>
      obtain ⟨rfl, -⟩ := advance_mapViewOfFile ha
      exact ⟨fun _ => hgrows.mapping (by decide), fun hs => absurd hs (by decide)⟩
  | initHeader i =>
      rcases advance_initHeader ha with ⟨f, -, rfl, -⟩ | ⟨-, rfl, -⟩
      · exact ⟨hgrows.mapping, hgrows.event⟩
      · exact ⟨fun _ => hgrows.mapping (by simp [Pc.stage]), fun hs => absurd hs (by decide)⟩
  | getViews =>
      obtain ⟨-, rfl, -⟩ := advance_getViews ha
      exact ⟨fun _ => hgrows.mapping (by decide), fun hs => absurd hs (by decide)⟩
  | createEvent =>
      cases ha
      refine ⟨fun _ => hgrows.mapping (by decide), fun _ => ⟨.handle .worker k.nextHandle, ?_, rfl⟩⟩
      rw [hev, Kernel.createEvent, Table.holders_hold_self]
      exact Finset.mem_insert_self _ _
  | _ => exact ⟨fun _ => hgrows.mapping (by simp [Pc.stage]),
      fun _ => hgrows.event (by simp [Pc.stage])⟩

theorem Progress.of_kept (h : Progress shm ev sm pc k)
    (hmapping : 1 ≤ pc.stage → k'.contents shm = k.contents shm)
    (hevent : 5 ≤ pc.stage → k'.events.value ev = k.events.value ev) :
    Progress shm ev sm pc k' := by
  have hstored : pc.stored ≠ 0 → 1 ≤ pc.stage := by
    cases pc <;> simp [Pc.stage, Pc.stored]
  refine ⟨h.shmName, h.readyEventName, ?_, ?_, ?_, h.views, ?_, ?_⟩
  · intro hs
    rw [Kernel.header_congr (hmapping hs)]
    exact h.mapped hs
  · intro f hf hnum
    have hs : 1 ≤ pc.stage := by
      apply hstored
      intro hzero
      rw [hzero] at hf
      exact List.not_mem_nil hf
    rw [Kernel.header_congr (hmapping hs)]
    exact h.numbers f hf hnum
  · intro hlen
    have hfields : Field.all.length = 9 := rfl
    have hs : 1 ≤ pc.stage := hstored (by omega)
    rw [Kernel.header_congr (hmapping hs)]
    exact h.flag hlen
  · intro hs
    rw [hevent hs]
    exact h.event hs
  · intro hs
    rw [hevent (by omega)]
    exact h.signalled hs

end Holding

structure NoneStanding (shm ev : String) (s : World) : Prop where
  progress : ∀ sm pc, s.worker = some ⟨sm, pc⟩ → Progress shm ev sm pc s.kernel
  held : ∀ sm pc, s.worker = some ⟨sm, pc⟩ → HeldByWorker shm ev pc s.kernel
  silent : ∀ sm pc, s.worker = some ⟨sm, pc⟩ → pc.ready = false → ¬ Standing shm ev s.kernel

section Steps

variable {shm ev : String} {s s' : World} {a : RecoveryAct}

theorem noneStanding_none {k : Kernel Proc} : NoneStanding shm ev ⟨k, none⟩ := by
  refine ⟨?_, ?_, ?_⟩
  all_goals rintro _ _ ⟨⟩

theorem noneStanding_start {blockSize numChannels : ℤ}
    (h : restartStep shm ev s (.start blockSize numChannels) = some s')
    (hnot : ¬ Standing shm ev s.kernel) : NoneStanding shm ev s' := by
  cases hw : s.worker with
  | some w =>
      simp only [restartStep, hw] at h
      cases h
  | none =>
      simp only [restartStep, hw, Option.some.injEq] at h
      subst h
      refine ⟨?_, ?_, ?_⟩
      · rintro _ _ ⟨⟩
        exact progress_start blockSize numChannels s.kernel
      · rintro _ _ ⟨⟩
        exact ⟨fun hs => absurd hs (by decide), fun hs => absurd hs (by decide)⟩
      · rintro _ _ ⟨⟩ _
        exact hnot

/-- A step of `main()`: the flag goes before the event comes. -/
theorem noneStanding_advance {sm : SharedMemoryManager} {pc pc' : Pc} {row : List (BitVec 32)}
    (hI : NoneStanding shm ev s) (hw : s.worker = some ⟨sm, pc⟩)
    (ha : advance ⟨sm, pc⟩ row s.kernel = some (pc', s'.kernel))
    (hw' : s'.worker = some ⟨sm, pc'⟩) : NoneStanding shm ev s' := by
  have hprog := hI.progress sm pc hw
  have hprog' := progress_advance hprog ha
  refine ⟨?_, ?_, ?_⟩
  · intro sm'' pc'' hww
    cases hw'.symm.trans hww
    exact hprog'
  · intro sm'' pc'' hww
    cases hw'.symm.trans hww
    exact heldByWorker_advance hprog.shmName hprog.readyEventName (hI.held sm pc hw) ha
  · rintro sm'' pc'' hww hready ⟨hset, hflag⟩
    cases hw'.symm.trans hww
    by_cases hstage : pc.stage ≤ 3
    · obtain ⟨hback, hevent, -, -⟩ := advance_unannounced hprog (by omega) ha
      exact hI.silent sm pc hw (decide_eq_false (by omega)) ⟨hevent hset, hback hflag⟩
    · -- the header has been rewritten
      have hcleared := hprog'.flag (advance_stored (by omega) ha).symm.le
      rw [hready, hflag] at hcleared
      cases hcleared

theorem noneStanding_quiet (hI : NoneStanding shm ev s) (hw : s'.worker = s.worker)
    (hq : Quiet shm ev s.kernel s'.kernel) (hg : Grows s.kernel s'.kernel) :
    NoneStanding shm ev s' := by
  refine ⟨?_, ?_, ?_⟩
  · intro sm pc hww
    exact hq.progress (hI.progress sm pc (hw ▸ hww))
  · intro sm pc hww
    exact (hI.held sm pc (hw ▸ hww)).grows hg
  · rintro sm pc hww hready ⟨hset, hflag⟩
    apply hI.silent sm pc (hw ▸ hww) hready
    refine ⟨hq.event ▸ hset, ?_⟩
    rwa [hq.header .isPythonReady (by decide) (by decide)] at hflag

theorem noneStanding_closeMapping (hI : NoneStanding shm ev s) :
    NoneStanding shm ev ⟨{ s.kernel with
      mappings := s.kernel.mappings.release fun h => h.owner = .cpp }, s.worker⟩ := by
  refine ⟨?_, ?_, ?_⟩
  · intro sm pc hw
    apply (hI.progress sm pc hw).of_kept
    · intro hs
      obtain ⟨hd, hh, ho⟩ := (hI.held sm pc hw).mapping hs
      unfold Kernel.contents
      rw [Table.value_release_of_mem hh (by rw [ho]; rfl)]
    · exact fun _ => rfl
  · intro sm pc hw
    refine ⟨?_, (hI.held sm pc hw).event⟩
    intro hs
    obtain ⟨hd, hh, ho⟩ := (hI.held sm pc hw).mapping hs
    refine ⟨hd, ?_, ho⟩
    rw [Table.holders_release, Finset.mem_filter, ho]
    exact ⟨hh, rfl⟩
  · rintro sm pc hw hready ⟨hset, hflag⟩
    apply hI.silent sm pc hw hready
    refine ⟨hset, ?_⟩
    obtain ⟨m, hm⟩ := Kernel.contents_of_header hflag
    obtain ⟨v, hv, rfl⟩ := Option.map_eq_some_iff.mp hm
    rw [← hflag]
    apply Kernel.header_congr
    unfold Kernel.contents
    rw [hv, Table.value_of_value_release hv]

theorem noneStanding_closeEvent (hI : NoneStanding shm ev s) :
    NoneStanding shm ev ⟨{ s.kernel with
      events := s.kernel.events.release fun h => h.owner = .cpp }, s.worker⟩ := by
  refine ⟨?_, ?_, ?_⟩
  · intro sm pc hw
    apply (hI.progress sm pc hw).of_kept
    · exact fun _ => rfl
    · intro hs
      obtain ⟨hd, hh, ho⟩ := (hI.held sm pc hw).event hs
      exact Table.value_release_of_mem hh (by rw [ho]; rfl)
  · intro sm pc hw
    refine ⟨(hI.held sm pc hw).mapping, ?_⟩
    intro hs
    obtain ⟨hd, hh, ho⟩ := (hI.held sm pc hw).event hs
    refine ⟨hd, ?_, ho⟩
    rw [Table.holders_release, Finset.mem_filter, ho]
    exact ⟨hh, rfl⟩
  · rintro sm pc hw hready ⟨hset, hflag⟩
    exact hI.silent sm pc hw hready ⟨Table.value_of_value_release hset, hflag⟩

theorem noneStanding_step (hI : NoneStanding shm ev s) (h : recoveryStep shm ev s a = some s')
    (hover : ¬ LaunchedOver shm ev s a) : NoneStanding shm ev s' := by
  cases a with
  | life a =>
      cases a with
      | start blockSize numChannels =>
          apply noneStanding_start h
          intro hstanding
          exact hover ⟨⟨blockSize, numChannels, rfl⟩, hstanding⟩
      | act a =>
          rcases lifetimeStep_cases h with ⟨sm, pc, pc', row, rfl, hw, ha, hw'⟩ |
            ⟨rfl, hw, rfl⟩ | ⟨hcpp, hw, hq⟩
          · exact noneStanding_advance hI hw ha hw'
          · exact noneStanding_none
          · exact noneStanding_quiet hI hw hq (grows_cpp hcpp h)
  | closeMapping =>
      cases h
      exact noneStanding_closeMapping hI
  | closeEvent =>
      cases h
      exact noneStanding_closeEvent hI

theorem NoneStanding.rightful (hI : NoneStanding shm ev s) : Rightful shm ev s := by
  intro sm pc hw hstanding
  cases hready : pc.ready with
  | false => exact absurd hstanding (hI.silent sm pc hw hready)
  | true =>
      refine ⟨rfl, ?_⟩
      intro f hf
      apply (hI.progress sm pc hw).numbers f _ hf
      rw [Pc.stored_of_ready hready, List.take_length]
      exact Field.mem_all f

theorem not_rightful_of_launchedOver (h : recoveryStep shm ev s a = some s')
    (hover : LaunchedOver shm ev s a) : ¬ Rightful shm ev s' := by
  obtain ⟨⟨blockSize, numChannels, rfl⟩, hstanding⟩ := hover
  cases hw : s.worker with
  | some w =>
      simp only [recoveryStep, restartStep, hw] at h
      cases h
  | none =>
      simp only [recoveryStep, restartStep, hw, Option.some.injEq] at h
      subst h
      intro hright
      have hready := (hright _ _ rfl hstanding).1
      cases hready

end Steps

/-- Over any sequence of lifetimes, with a C++ side that opens and closes the
objects as it likes, what it finds announced while there is a worker is that
worker with its own layout, exactly if none is launched while the event is
still signalled and the flag still set. -/
theorem rightful_iff (shm ev : String) (acts : List RecoveryAct) :
    Runs.Along (recoveryStep shm ev) (Rightful shm ev) ⟨Kernel.init, none⟩ acts ↔
      Runs.EachStep (recoveryStep shm ev) (fun s a _ => ¬ LaunchedOver shm ev s a)
        ⟨Kernel.init, none⟩ acts :=
  Runs.along_iff (fun _ _ _ hI h hover => noneStanding_step hI h hover)
    (fun _ hI => hI.rightful)
    (fun _ _ _ _ h hright hover => not_rightful_of_launchedOver h hover hright)
    noneStanding_none

end MabTilde.Lifecycle

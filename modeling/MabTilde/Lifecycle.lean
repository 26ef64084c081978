import MabTilde.Lib.Runs
import MabTilde.SharedMemoryManager

/-!
`main()` from the construction of its `SharedMemoryManager` on, next to a C++
side that looks on.

Every Win32 call, every store into the header, `load_model`, every
`infer_block`, every write-back and every poll is one step, so that the other
side may look between any two. What a step that goes wrong does is always the
same: `sys.exit(1)` after a call that reported failure, an exception nobody
catches, a kill from outside all end the process, and the system takes back
what it held. The C++ side opens the section and the event once they are there
and keeps them; its audio callback is present through the two flags it stores.
-/

namespace MabTilde.Lifecycle

open Bytes NamedObjects Win32

inductive Proc
  | worker
  | cpp
  deriving DecidableEq

/-- Where `main()` stands: the next thing it does. -/
inductive Pc
  | createFileMapping
  | mapViewOfFile
  /-- The header fields stored so far. -/
  | initHeader (stored : ℕ)
  | getViews
  | createEvent
  | setEvent
  | setPythonReady
  | loadModel
  | poll
  | inferBlock (ch : ℕ)
  | writeBack (ch : ℕ)
  | setOutputReady
  | clearInputReady

structure Worker where
  manager : SharedMemoryManager
  pc : Pc

structure World where
  kernel : Kernel Proc
  worker : Option Worker

/-- `for ch in range(num_channels)`, about to test `ch`. -/
def loopFrom (numChannels : ℤ) (ch : ℕ) : Pc :=
  if ch < numChannels.toNat then .inferBlock ch else .setOutputReady

/-- The next step of `main()`, if it can succeed. `row` is what a write-back
writes. -/
def advance (w : Worker) (row : List (BitVec 32)) (k : Kernel Proc) :
    Option (Pc × Kernel Proc) :=
  let sm := w.manager
  match w.pc with
  | .createFileMapping =>
      if sm.convertible then
        some (.mapViewOfFile, k.createFileMapping .worker sm.request sm.shmName)
      else none
  | .mapViewOfFile =>
      if k.fits sm.shmName sm.request then
        some (.initHeader 0, k.mapViewOfFile .worker sm.shmName)
      else none
  | .initHeader i =>
      match Field.all[i]? with
      | some f => some (.initHeader (i + 1), k.storeField sm.shmName f (sm.headerValue f))
      | none => some (.getViews, k)
  | .getViews => if sm.hasViews then some (.createEvent, k) else none
  | .createEvent => some (.setEvent, k.createEvent .worker sm.readyEventName)
  | .setEvent => some (.setPythonReady, k.setEvent sm.readyEventName)
  | .setPythonReady => some (.loadModel, k.storeField sm.shmName .isPythonReady 1)
  | .loadModel => some (.poll, k)
  | .poll =>
      if k.header sm.shmName .isInputReady = some 1 then some (loopFrom sm.numChannels 0, k)
      else some (.poll, k)
  | .inferBlock ch => some (.writeBack ch, k)
  | .writeBack ch =>
      some (loopFrom sm.numChannels (ch + 1), k.write sm.shmName (sm.writeRow ch row))
  | .setOutputReady => some (.clearInputReady, k.storeField sm.shmName .isOutputReady 1)
  | .clearInputReady => some (.poll, k.storeField sm.shmName .isInputReady 0)

inductive Act
  /-- The next step of `main()` succeeds. -/
  | returns (row : List (BitVec 32))
  /-- It fails or raises, or the process is killed before it. -/
  | ends
  | openMapping
  | openEvent
  /-- The callback stores `is_input_ready`, or takes `is_output_ready` back. -/
  | publish
  | consume

def HoldsMapping (shm : String) (k : Kernel Proc) : Prop :=
  ∃ h ∈ k.mappings.holders shm, h.owner = .cpp

def HoldsEvent (ev : String) (k : Kernel Proc) : Prop :=
  ∃ h ∈ k.events.holders ev, h.owner = .cpp

instance (shm : String) (k : Kernel Proc) : Decidable (HoldsMapping shm k) :=
  inferInstanceAs (Decidable (∃ h ∈ k.mappings.holders shm, h.owner = .cpp))

instance (ev : String) (k : Kernel Proc) : Decidable (HoldsEvent ev k) :=
  inferInstanceAs (Decidable (∃ h ∈ k.events.holders ev, h.owner = .cpp))

variable (shm ev : String)

/-- One step while one worker process is there or has ended. -/
def lifetimeStep (s : World) : Act → Option World
  | .returns row =>
      s.worker.bind fun w => (advance w row s.kernel).map fun r =>
        ⟨r.2, some { w with pc := r.1 }⟩
  | .ends => s.worker.map fun _ => ⟨s.kernel.exitProcess .worker, none⟩
  | .openMapping => (s.kernel.openFileMapping .cpp shm).map fun k => { s with kernel := k }
  | .openEvent => (s.kernel.openEvent .cpp ev).map fun k => { s with kernel := k }
  | .publish =>
      if HoldsMapping shm s.kernel then
        some { s with kernel := s.kernel.storeField shm .isInputReady 1 }
      else none
  | .consume =>
      if HoldsMapping shm s.kernel then
        some { s with kernel := s.kernel.storeField shm .isOutputReady 0 }
      else none

namespace Pc

/-- How far `main()` is, the serving loop being one place. -/
def stage : Pc → ℕ
  | createFileMapping => 0
  | mapViewOfFile => 1
  | initHeader _ => 2
  | getViews => 3
  | createEvent => 4
  | setEvent => 5
  | setPythonReady => 6
  | loadModel => 7
  | poll | inferBlock _ | writeBack _ | setOutputReady | clearInputReady => 8

def stored : Pc → ℕ
  | createFileMapping | mapViewOfFile => 0
  | initHeader i => i
  | _ => Field.all.length

def ready (pc : Pc) : Bool := decide (7 ≤ pc.stage)

def loaded (pc : Pc) : Bool := decide (8 ≤ pc.stage)

end Pc

variable {shm ev} {k k' : Kernel Proc} {row : List (BitVec 32)}

/-- A change of the kernel objects in which neither the event nor any header
field is touched but the two flags of the audio exchange. -/
structure Quiet (shm ev : String) (k k' : Kernel Proc) : Prop where
  header : ∀ f, f ≠ .isInputReady → f ≠ .isOutputReady → k'.header shm f = k.header shm f
  event : k'.events.value ev = k.events.value ev

theorem Quiet.refl (k : Kernel Proc) : Quiet shm ev k k := ⟨fun _ _ _ => rfl, rfl⟩

theorem quiet_storeFlag {f : Field} (v : BitVec 32) (hf : f = .isInputReady ∨ f = .isOutputReady) :
    Quiet shm ev k (k.storeField shm f v) := by
  refine ⟨?_, ?_⟩
  · intro g hin hout
    apply Kernel.header_storeField_of_ne
    rintro rfl
    exact hf.elim hin hout
  · rfl

theorem quiet_writeRow {sm : SharedMemoryManager} (hviews : sm.hasViews = true) (ch : ℕ) :
    Quiet shm ev k (k.write shm (sm.writeRow ch row)) := by
  refine ⟨?_, ?_⟩
  · intro g _ _
    apply Kernel.header_write_of_below
    intro m i hi
    simp only [SharedMemoryManager.hasViews, Bool.and_eq_true, decide_eq_true_eq] at hviews
    exact SharedMemoryManager.writeRow_of_lt_header hviews.2 hi
  · rfl

theorem quiet_openFileMapping (h : k.openFileMapping .cpp shm = some k') : Quiet shm ev k k' := by
  simp only [Kernel.openFileMapping, Option.ite_none_right_eq_some, Option.some.injEq,
    Option.isSome_iff_exists] at h
  obtain ⟨⟨m, hm⟩, rfl⟩ := h
  obtain ⟨hd, hh⟩ := Table.exists_mem_of_value hm
  refine ⟨?_, ?_⟩
  · intro f _ _
    exact Kernel.header_congr (Kernel.contents_createFileMapping hh) f
  · rfl

theorem quiet_openEvent (h : k.openEvent .cpp ev = some k') : Quiet shm ev k k' := by
  simp only [Kernel.openEvent, Option.ite_none_right_eq_some, Option.some.injEq,
    Option.isSome_iff_exists] at h
  obtain ⟨⟨b, hb⟩, rfl⟩ := h
  refine ⟨?_, ?_⟩
  · intro f _ _
    rfl
  · exact (Kernel.event_hold_of_some hb _ _).trans hb.symm

def Act.isCpp : Act → Bool
  | .returns _ | .ends => false
  | .openMapping | .openEvent | .publish | .consume => true

theorem quiet_cpp {s s' : World} {a : Act} (ha : a.isCpp = true)
    (h : lifetimeStep shm ev s a = some s') :
    s'.worker = s.worker ∧ Quiet shm ev s.kernel s'.kernel := by
  cases a with
  | returns row => cases ha
  | ends => cases ha
  | openMapping =>
      simp only [lifetimeStep, Option.map_eq_some_iff] at h
      obtain ⟨k, hk, rfl⟩ := h
      exact ⟨rfl, quiet_openFileMapping hk⟩
  | openEvent =>
      simp only [lifetimeStep, Option.map_eq_some_iff] at h
      obtain ⟨k, hk, rfl⟩ := h
      exact ⟨rfl, quiet_openEvent hk⟩
  | publish =>
      simp only [lifetimeStep, Option.ite_none_right_eq_some, Option.some.injEq] at h
      obtain ⟨-, rfl⟩ := h
      exact ⟨rfl, quiet_storeFlag _ (.inl rfl)⟩
  | consume =>
      simp only [lifetimeStep, Option.ite_none_right_eq_some, Option.some.injEq] at h
      obtain ⟨-, rfl⟩ := h
      exact ⟨rfl, quiet_storeFlag _ (.inr rfl)⟩

/-! ### What a worker has made of the kernel objects so far -/

/-- Everything `main()` has done up to where it stands is still there. -/
structure Progress (shm ev : String) (sm : SharedMemoryManager) (pc : Pc) (k : Kernel Proc) :
    Prop where
  shmName : sm.shmName = shm
  readyEventName : sm.readyEventName = ev
  mapped : 1 ≤ pc.stage → ∃ x, k.header shm .magic = some x
  numbers : ∀ f ∈ Field.all.take pc.stored, f.isFlag = false →
    k.header shm f = some (sm.headerValue f).toNat
  flag : Field.all.length ≤ pc.stored →
    k.header shm .isPythonReady = some (if pc.ready then 1 else 0)
  views : 4 ≤ pc.stage → sm.hasViews = true
  event : 5 ≤ pc.stage → ∃ b, k.events.value ev = some b
  signalled : 6 ≤ pc.stage → k.events.value ev = some true

section Progress

variable {sm : SharedMemoryManager} {pc pc' : Pc}

theorem progress_start (blockSize numChannels : ℤ) (k : Kernel Proc) :
    Progress shm ev ⟨shm, ev, blockSize, numChannels⟩ .createFileMapping k where
  shmName := rfl
  readyEventName := rfl
  mapped h := absurd h (by decide)
  numbers _ hf := absurd hf List.not_mem_nil
  flag h := absurd h (by decide)
  views h := absurd h (by decide)
  event h := absurd h (by decide)
  signalled h := absurd h (by decide)

theorem Quiet.progress (hq : Quiet shm ev k k') (h : Progress shm ev sm pc k) :
    Progress shm ev sm pc k' where
  shmName := h.shmName
  readyEventName := h.readyEventName
  mapped hs := (hq.header .magic (by decide) (by decide)).symm ▸ h.mapped hs
  numbers f hf hnum := by
    rw [hq.header f (by rintro rfl; cases hnum) (by rintro rfl; cases hnum)]
    exact h.numbers f hf hnum
  flag hs := (hq.header .isPythonReady (by decide) (by decide)).symm ▸ h.flag hs
  views := h.views
  event hs := hq.event.symm ▸ h.event hs
  signalled hs := hq.event.symm ▸ h.signalled hs

/-- Going on without a change of the kernel objects. The step may only say
what was there before, or what `hviews` adds. -/
theorem Progress.next (h : Progress shm ev sm pc k)
    (hstage : 1 ≤ pc.stage)
    (hstored : Field.all.take pc'.stored = Field.all.take pc.stored)
    (hflag : Field.all.length ≤ pc'.stored → Field.all.length ≤ pc.stored ∧ pc'.ready = pc.ready)
    (hviews : 4 ≤ pc'.stage → sm.hasViews = true)
    (hevent : 5 ≤ pc'.stage → 5 ≤ pc.stage) (hsignal : 6 ≤ pc'.stage → 6 ≤ pc.stage) :
    Progress shm ev sm pc' k where
  shmName := h.shmName
  readyEventName := h.readyEventName
  mapped _ := h.mapped hstage
  numbers := hstored ▸ h.numbers
  flag hs := by
    obtain ⟨hs, hready⟩ := hflag hs
    rw [hready]
    exact h.flag hs
  views := hviews
  event hs := h.event (hevent hs)
  signalled hs := h.signalled (hsignal hs)

theorem progress_createFileMapping (h : Progress shm ev sm pc k) (size : ℕ) :
    Progress shm ev sm .mapViewOfFile (k.createFileMapping .worker size shm) where
  shmName := h.shmName
  readyEventName := h.readyEventName
  mapped _ := by
    have hm : ∃ m, (k.createFileMapping .worker size shm).contents shm = some m :=
      Kernel.contents_createFileMapping_self
    obtain ⟨m, hm⟩ := hm
    exact ⟨_, Kernel.header_of_contents hm .magic⟩
  numbers _ hf := absurd hf List.not_mem_nil
  flag hs := absurd hs (by decide)
  views hs := absurd hs (by decide)
  event hs := absurd hs (by decide)
  signalled hs := absurd hs (by decide)

theorem quiet_mapViewOfFile {p : Proc} {x : ℕ} (hx : k.header shm .magic = some x) :
    Quiet shm ev k (k.mapViewOfFile p shm) := by
  obtain ⟨m, hm⟩ := Kernel.contents_of_header hx
  obtain ⟨m', hm', -⟩ := Option.map_eq_some_iff.mp hm
  obtain ⟨hd, hh⟩ := Table.exists_mem_of_value hm'
  refine ⟨?_, ?_⟩
  · intro f _ _
    exact Kernel.header_congr (Kernel.contents_mapViewOfFile hh) f
  · rfl

theorem progress_storeField {i : ℕ} {f : Field} (h : Progress shm ev sm (.initHeader i) k)
    (hf : Field.all[i]? = some f) :
    Progress shm ev sm (.initHeader (i + 1)) (k.storeField shm f (sm.headerValue f)) := by
  obtain ⟨x, hx⟩ := h.mapped (by simp [Pc.stage])
  obtain ⟨m, hm⟩ := Kernel.contents_of_header hx
  refine ⟨?_, ?_, ?_, ?_, ?_, ?_, ?_, ?_⟩
  · exact h.shmName
  · exact h.readyEventName
  · intro _
    by_cases hmagic : f = .magic
    · subst hmagic
      exact ⟨_, Kernel.header_storeField_self hm _ _⟩
    · exact ⟨x, (Kernel.header_storeField_of_ne (Ne.symm hmagic) _).trans hx⟩
  · intro g hg hnum
    by_cases hgf : g = f
    · subst hgf
      rw [Kernel.header_storeField_self hm, Field.meaning, hnum]
      rfl
    · rw [Kernel.header_storeField_of_ne hgf]
      apply h.numbers g _ hnum
      simp only [Pc.stored, List.take_add_one, hf, Option.toList_some, List.mem_append,
        List.mem_singleton] at hg ⊢
      exact hg.resolve_right hgf
  · intro hs
    -- only the last of the nine stores gets here
    have hlen : Field.all.length = 9 := rfl
    have hlt := (List.getElem?_eq_some_iff.mp hf).1
    obtain rfl : i = 8 := by
      simp only [Pc.stored] at hs
      omega
    obtain rfl : Field.isPythonReady = f := Option.some.inj hf
    rw [Kernel.header_storeField_self hm]
    rfl
  · exact fun hs => absurd hs (by simp [Pc.stage])
  · exact fun hs => absurd hs (by simp [Pc.stage])
  · exact fun hs => absurd hs (by simp [Pc.stage])

theorem progress_createEvent (h : Progress shm ev sm .createEvent k) :
    Progress shm ev sm .setEvent (k.createEvent .worker ev) where
  shmName := h.shmName
  readyEventName := h.readyEventName
  mapped _ := h.mapped (by decide)
  numbers := h.numbers
  flag _ := h.flag (by decide)
  views _ := h.views (by decide)
  event _ := Kernel.event_createEvent_self
  signalled hs := absurd hs (by decide)

theorem progress_setEvent (h : Progress shm ev sm .setEvent k) :
    Progress shm ev sm .setPythonReady (k.setEvent ev) := by
  obtain ⟨b, hb⟩ := h.event (by decide)
  have hset := Kernel.event_setEvent hb
  exact ⟨h.shmName, h.readyEventName, fun _ => h.mapped (by decide), h.numbers,
    fun _ => h.flag (by decide), fun _ => h.views (by decide), fun _ => ⟨true, hset⟩, fun _ => hset⟩

theorem progress_setPythonReady (h : Progress shm ev sm .setPythonReady k) :
    Progress shm ev sm .loadModel (k.storeField shm .isPythonReady 1) := by
  obtain ⟨x, hx⟩ := h.mapped (by decide)
  obtain ⟨m, hm⟩ := Kernel.contents_of_header hx
  refine ⟨?_, ?_, ?_, ?_, ?_, ?_, ?_, ?_⟩
  · exact h.shmName
  · exact h.readyEventName
  · exact fun _ => ⟨x, (Kernel.header_storeField_of_ne (by decide) _).trans hx⟩
  · intro f hf hnum
    rw [Kernel.header_storeField_of_ne (by rintro rfl; cases hnum)]
    exact h.numbers f hf hnum
  · intro _
    exact Kernel.header_storeField_self hm _ _
  · exact fun _ => h.views (by decide)
  · exact fun _ => h.event (by decide)
  · exact fun _ => h.signalled (by decide)

theorem Pc.stored_of_ready (h : pc.ready = true) : pc.stored = Field.all.length := by
  cases pc <;> first | rfl | simp [ready, stage] at h

theorem Pc.serving_of_stage (h : pc.stage = 8) :
    pc.stored = Field.all.length ∧ pc.ready = true := by
  cases pc <;> first | exact ⟨rfl, rfl⟩ | cases h

theorem Progress.serving (h : Progress shm ev sm pc k) (hpc : pc.stage = 8)
    (hpc' : pc'.stage = 8) : Progress shm ev sm pc' k := by
  obtain ⟨hstored, hready⟩ := Pc.serving_of_stage hpc
  obtain ⟨hstored', hready'⟩ := Pc.serving_of_stage hpc'
  apply h.next
  · omega
  · rw [hstored, hstored']
  · intro _
    exact ⟨hstored.symm.le, hready'.trans hready.symm⟩
  · exact fun _ => h.views (by omega)
  · omega
  · omega

theorem loopFrom_stage (n : ℤ) (ch : ℕ) : (loopFrom n ch).stage = 8 := by
  unfold loopFrom
  split <;> rfl

/-! What a step does that may fail, or goes one of two ways. -/

theorem advance_createFileMapping
    (ha : advance ⟨sm, .createFileMapping⟩ row k = some (pc', k')) :
    pc' = .mapViewOfFile ∧ k' = k.createFileMapping .worker sm.request sm.shmName := by
  simp only [advance, Option.ite_none_right_eq_some, Option.some.injEq, Prod.mk.injEq] at ha
  exact ⟨ha.2.1.symm, ha.2.2.symm⟩

theorem advance_mapViewOfFile (ha : advance ⟨sm, .mapViewOfFile⟩ row k = some (pc', k')) :
    pc' = .initHeader 0 ∧ k' = k.mapViewOfFile .worker sm.shmName := by
  simp only [advance, Option.ite_none_right_eq_some, Option.some.injEq, Prod.mk.injEq] at ha
  exact ⟨ha.2.1.symm, ha.2.2.symm⟩

theorem advance_initHeader {i : ℕ}
    (ha : advance ⟨sm, .initHeader i⟩ row k = some (pc', k')) :
    (∃ f, Field.all[i]? = some f ∧ pc' = .initHeader (i + 1) ∧
        k' = k.storeField sm.shmName f (sm.headerValue f)) ∨
      (Field.all.length ≤ i ∧ pc' = .getViews ∧ k' = k) := by
  simp only [advance] at ha
  split at ha
  · rename_i f hf
    cases ha
    exact .inl ⟨f, hf, rfl, rfl⟩
  · rename_i hf
    cases ha
    exact .inr ⟨List.getElem?_eq_none_iff.mp hf, rfl, rfl⟩

theorem advance_getViews (ha : advance ⟨sm, .getViews⟩ row k = some (pc', k')) :
    sm.hasViews = true ∧ pc' = .createEvent ∧ k' = k := by
  simp only [advance, Option.ite_none_right_eq_some, Option.some.injEq, Prod.mk.injEq] at ha
  exact ⟨ha.1, ha.2.1.symm, ha.2.2.symm⟩

theorem advance_poll (ha : advance ⟨sm, .poll⟩ row k = some (pc', k')) :
    pc'.stage = 8 ∧ k' = k := by
  simp only [advance] at ha
  split at ha
  · cases ha
    exact ⟨loopFrom_stage _ _, rfl⟩
  · cases ha
    exact ⟨rfl, rfl⟩

theorem advance_serving (h : Progress shm ev sm pc k) (hpc : pc.stage = 8)
    (ha : advance ⟨sm, pc⟩ row k = some (pc', k')) : pc'.stage = 8 ∧ Quiet shm ev k k' := by
  have hshm := h.shmName
  cases pc with
  | poll =>
      obtain ⟨hpc', rfl⟩ := advance_poll ha
      exact ⟨hpc', Quiet.refl _⟩
  | inferBlock ch =>
      cases ha
      exact ⟨rfl, Quiet.refl k⟩
  | writeBack ch =>
      cases ha
      rw [hshm]
      exact ⟨loopFrom_stage _ _, quiet_writeRow (h.views (by simp [Pc.stage])) ch⟩
  | setOutputReady =>
      cases ha
      rw [hshm]
      exact ⟨rfl, quiet_storeFlag _ (.inr rfl)⟩
  | clearInputReady =>
      cases ha
      rw [hshm]
      exact ⟨rfl, quiet_storeFlag _ (.inl rfl)⟩
  | _ => cases hpc

theorem advance_stored (hpc : 4 ≤ pc.stage) (ha : advance ⟨sm, pc⟩ row k = some (pc', k')) :
    pc'.stored = Field.all.length := by
  cases pc with
  | createEvent => cases ha; rfl
  | setEvent => cases ha; rfl
  | setPythonReady => cases ha; rfl
  | loadModel => cases ha; rfl
  | poll => exact (Pc.serving_of_stage (advance_poll ha).1).1
  | inferBlock ch => cases ha; rfl
  | writeBack ch =>
      cases ha
      exact (Pc.serving_of_stage (loopFrom_stage _ _)).1
  | setOutputReady => cases ha; rfl
  | clearInputReady => cases ha; rfl
  | _ => exact absurd hpc (by simp [Pc.stage])

/-- Each step of `main()` adds what it does. -/
theorem progress_advance (h : Progress shm ev sm pc k)
    (ha : advance ⟨sm, pc⟩ row k = some (pc', k')) : Progress shm ev sm pc' k' := by
  have hshm := h.shmName
  have hev := h.readyEventName
  cases pc with
  | createFileMapping =>
      obtain ⟨rfl, rfl⟩ := advance_createFileMapping ha
      exact hshm ▸ progress_createFileMapping (hshm.symm ▸ h) _
  | mapViewOfFile =>
      obtain ⟨rfl, rfl⟩ := advance_mapViewOfFile ha
      obtain ⟨x, hx⟩ := h.mapped (by decide)
      rw [hshm]
      apply (quiet_mapViewOfFile hx).progress
      exact h.next (by decide) rfl (by decide) (fun hs => absurd hs (by decide)) (by decide)
        (by decide)
  | initHeader i =>
      rcases advance_initHeader ha with ⟨f, hf, rfl, rfl⟩ | ⟨hlen, rfl, rfl⟩
      · rw [hshm]
        exact progress_storeField h hf
      · apply h.next
        · simp [Pc.stage]
        · show Field.all.take Field.all.length = Field.all.take i
          rw [List.take_length, List.take_of_length_le hlen]
        · exact fun _ => ⟨hlen, rfl⟩
        · exact fun hs => absurd hs (by decide)
        · exact fun hs => absurd hs (by decide)
        · exact fun hs => absurd hs (by decide)
  | getViews =>
      obtain ⟨hviews, rfl, rfl⟩ := advance_getViews ha
      exact h.next (by decide) rfl (by decide) (fun _ => hviews) (by decide) (by decide)
  | createEvent =>
      cases ha
      rw [hev]
      exact progress_createEvent h
  | setEvent =>
      cases ha
      rw [hev]
      exact progress_setEvent h
  | setPythonReady =>
      cases ha
      rw [hshm]
      exact progress_setPythonReady h
  | loadModel =>
      cases ha
      exact h.next (by decide) rfl (by decide) (fun _ => h.views (by decide)) (by decide)
        (by decide)
  | _ =>
      obtain ⟨hpc', hq⟩ := advance_serving h rfl ha
      exact hq.progress (h.serving rfl hpc')

/-- Up to the creation of the event nothing is announced that was not before,
and up to then the event is not touched. -/
theorem advance_unannounced (h : Progress shm ev sm pc k) (hpc : pc.stage ≤ 4)
    (ha : advance ⟨sm, pc⟩ row k = some (pc', k')) :
    (k'.header shm .isPythonReady = some 1 → k.header shm .isPythonReady = some 1) ∧
      (k'.events.value ev = some true → k.events.value ev = some true) ∧
      (pc.stage ≤ 3 → k'.events.value ev = k.events.value ev) ∧ pc'.stage ≤ pc.stage + 1 := by
  have hshm := h.shmName
  have hev := h.readyEventName
  cases pc with
  | createFileMapping =>
      obtain ⟨rfl, rfl⟩ := advance_createFileMapping ha
      rw [hshm]
      exact ⟨Kernel.header_of_createFileMapping (by decide), id, fun _ => rfl, by decide⟩
  | mapViewOfFile =>
      obtain ⟨rfl, rfl⟩ := advance_mapViewOfFile ha
      obtain ⟨x, hx⟩ := h.mapped (by decide)
      have hq : Quiet shm ev k (k.mapViewOfFile .worker shm) := quiet_mapViewOfFile hx
      rw [hshm, hq.header .isPythonReady (by decide) (by decide)]
      exact ⟨id, id, fun _ => rfl, by decide⟩
  | initHeader i =>
      rcases advance_initHeader ha with ⟨f, hf, rfl, rfl⟩ | ⟨-, rfl, rfl⟩
      · refine ⟨fun hflag => ?_, id, fun _ => rfl, Nat.le_succ _⟩
        rw [hshm] at hflag
        by_cases hready : Field.isPythonReady = f
        · obtain ⟨x, hx⟩ := h.mapped (by simp [Pc.stage])
          obtain ⟨m, hm⟩ := Kernel.contents_of_header hx
          rw [← hready, Kernel.header_storeField_self hm] at hflag
          cases hflag
        · exact (Kernel.header_storeField_of_ne hready _).symm.trans hflag
      · exact ⟨id, id, fun _ => rfl, Nat.le_refl _⟩
  | getViews =>
      obtain ⟨-, rfl, rfl⟩ := advance_getViews ha
      exact ⟨id, id, fun _ => rfl, by decide⟩
  | createEvent =>
      cases ha
      rw [hev]
      exact ⟨id, Kernel.event_of_createEvent, fun hs => absurd hs (by decide), by decide⟩
  | _ => exact absurd hpc (by simp [Pc.stage])

end Progress

theorem holdsMapping_of_exitProcess {f : Field} {x : ℕ}
    (h : (k.exitProcess .worker).header shm f = some x) : HoldsMapping shm k := by
  obtain ⟨m, hm⟩ := Kernel.contents_of_header h
  obtain ⟨m', hm', -⟩ := Option.map_eq_some_iff.mp hm
  obtain ⟨hd, hh⟩ := Table.exists_mem_of_value hm'
  obtain ⟨hh, hne⟩ := Kernel.mem_holders_exitProcess.mp hh
  refine ⟨hd, hh, ?_⟩
  cases ho : hd.owner with
  | worker => exact absurd ho hne
  | cpp => rfl

theorem holdsEvent_of_exitProcess {b : Bool}
    (h : (k.exitProcess .worker).events.value ev = some b) : HoldsEvent ev k := by
  obtain ⟨hd, hh⟩ := Table.exists_mem_of_value h
  obtain ⟨hh, hne⟩ := Kernel.mem_eventHolders_exitProcess.mp hh
  refine ⟨hd, hh, ?_⟩
  cases ho : hd.owner with
  | worker => exact absurd ho hne
  | cpp => rfl

section Steps

variable {s s' : World} {a : Act}

/-- The three kinds of steps. -/
theorem lifetimeStep_cases (h : lifetimeStep shm ev s a = some s') :
    (∃ sm pc pc' row, a = .returns row ∧ s.worker = some ⟨sm, pc⟩ ∧
        advance ⟨sm, pc⟩ row s.kernel = some (pc', s'.kernel) ∧ s'.worker = some ⟨sm, pc'⟩) ∨
      (a = .ends ∧ s.worker ≠ none ∧ s' = ⟨s.kernel.exitProcess .worker, none⟩) ∨
      (a.isCpp = true ∧ s'.worker = s.worker ∧ Quiet shm ev s.kernel s'.kernel) := by
  cases a with
  | returns row =>
      left
      simp only [lifetimeStep, Option.bind_eq_some_iff, Option.map_eq_some_iff] at h
      obtain ⟨⟨sm, pc⟩, hw, ⟨pc', k'⟩, ha, rfl⟩ := h
      exact ⟨sm, pc, pc', row, rfl, hw, ha, rfl⟩
  | ends =>
      right
      left
      simp only [lifetimeStep, Option.map_eq_some_iff] at h
      obtain ⟨w, hw, rfl⟩ := h
      exact ⟨rfl, by rw [hw]; simp, rfl⟩
  | _ => exact .inr (.inr ⟨rfl, quiet_cpp rfl h⟩)

end Steps

/-! ### The calls, step by step -/

section Calls

variable {sm : SharedMemoryManager} {at_ : Attributes}

theorem exec_storeFields {i : ℕ} (fs : List Field) (hfs : Field.all.drop i = fs) :
    Runs.exec (lifetimeStep shm ev) ⟨k, some ⟨sm, .initHeader i⟩⟩
        (List.replicate fs.length (.returns [])) =
      some ⟨sm.storeFields fs k, some ⟨sm, .initHeader (i + fs.length)⟩⟩ := by
  induction fs generalizing i k with
  | nil => rfl
  | cons f fs ih =>
      have hget : Field.all[i]? = some f := by
        rw [← List.head?_drop, hfs, List.head?_cons]
      have hstep : lifetimeStep shm ev ⟨k, some ⟨sm, .initHeader i⟩⟩ (.returns []) =
          some ⟨k.storeField sm.shmName f (sm.headerValue f),
            some ⟨sm, .initHeader (i + 1)⟩⟩ := by
        simp [lifetimeStep, advance, hget]
      have hdrop : Field.all.drop (i + 1) = fs := by
        rw [← List.tail_drop, hfs, List.tail_cons]
      rw [List.length_cons, List.replicate_succ, Runs.exec_cons_of_step hstep, ih hdrop,
        Nat.add_right_comm, Nat.add_assoc]
      rfl

/-- If every step succeeds, `create()` leaves the objects the call leaves that
returns `True`. -/
theorem exec_create (h : (sm.create Proc.worker true true at_ k).1 = some true) :
    Runs.exec (lifetimeStep shm ev) ⟨k, some ⟨sm, .createFileMapping⟩⟩
        (List.replicate 12 (.returns [])) =
      some ⟨(sm.create .worker true true at_ k).2.2, some ⟨sm, .getViews⟩⟩ := by
  obtain ⟨hconv, -, -, hfits⟩ := SharedMemoryManager.create_eq_true_iff.mp h
  have hcreate : lifetimeStep shm ev ⟨k, some ⟨sm, .createFileMapping⟩⟩ (.returns []) =
      some ⟨k.createFileMapping .worker sm.request sm.shmName, some ⟨sm, .mapViewOfFile⟩⟩ := by
    simp [lifetimeStep, advance, hconv]
  have hmap : lifetimeStep shm ev ⟨k.createFileMapping .worker sm.request sm.shmName,
      some ⟨sm, .mapViewOfFile⟩⟩ (.returns []) =
      some ⟨(k.createFileMapping .worker sm.request sm.shmName).mapViewOfFile .worker
        sm.shmName, some ⟨sm, .initHeader 0⟩⟩ := by
    simp [lifetimeStep, advance, hfits]
  -- one step more than there are fields leaves the stores
  have hacts : List.replicate 12 (Act.returns []) = .returns [] :: .returns [] ::
      (List.replicate Field.all.length (.returns []) ++ [.returns []]) := rfl
  rw [SharedMemoryManager.create_of_true h, hacts, Runs.exec_cons_of_step hcreate,
    Runs.exec_cons_of_step hmap, Runs.exec_append, exec_storeFields Field.all rfl]
  rfl

theorem exec_signalReady (hp : at_.pHeader = true) :
    Runs.exec (lifetimeStep shm ev) ⟨k, some ⟨sm, .createEvent⟩⟩
        (List.replicate 3 (.returns [])) =
      some ⟨(sm.signalReady .worker true true at_ k).2.2, some ⟨sm, .loadModel⟩⟩ := by
  simp only [SharedMemoryManager.signalReady, hp]
  rfl

end Calls

end MabTilde.Lifecycle

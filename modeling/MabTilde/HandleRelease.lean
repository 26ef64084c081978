import MabTilde.Lib.Handles
import MabTilde.Lib.Runs
import MabTilde.SharedMemoryManager

/-!
The two handles of a `SharedMemoryManager`, over any calls of its methods.

The kernel of `Win32` numbers handles on and does not mind a handle that is
closed twice. Here the values are those the calls return, a value may come back
once it is closed, and a close that hits nothing is kept. `create()` and
`signal_ready()` overwrite what an attribute held, `create()` closes a section
it cannot map and goes on naming it, and `cleanup()` closes what the attributes
name and leaves them as they are.
-/

namespace MabTilde.HandleRelease

open Handles Runs Win32 SharedMemoryManager

/-- The attributes that name handles. -/
inductive Slot
  | hReadyEvent
  | hMap
  deriving DecidableEq

/-- A call of a method, with what the Win32 calls in it return: the handle, where
`none` is `NULL`, and whether the call after it succeeds. -/
inductive Call
  | create (handle : Option ℕ) (viewed : Bool)
  | signalReady (handle : Option ℕ) (set : Bool)
  | cleanup

structure State where
  attributes : Attributes
  handles : Table ℕ
  history : List Call

def State.init : State := ⟨Attributes.init, Table.empty, []⟩

/-- `create()`, once `total_size` is converted. -/
def createStep (handle : Option ℕ) (viewed : Bool) (at_ : Attributes) (t : Table ℕ) :
    Attributes × Table ℕ :=
  match handle with
  | none => ({ at_ with hMap := none }, t)
  | some h =>
      if viewed then ({ at_ with hMap := some h, pHeader := true }, t.issue h)
      else ({ at_ with hMap := some h }, (t.issue h).close h)

/-- `signal_ready()`, unless it raises. -/
def signalReadyStep (handle : Option ℕ) (set : Bool) (at_ : Attributes) (t : Table ℕ) :
    Option (Attributes × Table ℕ) :=
  match handle with
  | none => some ({ at_ with hReadyEvent := none }, t)
  | some h =>
      -- without a header the last store raises
      if set && !at_.pHeader then none
      else some ({ at_ with hReadyEvent := some h }, t.issue h)

def closeIfSetStep (handle : Option ℕ) (t : Table ℕ) : Table ℕ :=
  match handle with
  | none => t
  | some h => t.close h

def cleanupStep (at_ : Attributes) (t : Table ℕ) : Table ℕ :=
  closeIfSetStep at_.hMap (closeIfSetStep at_.hReadyEvent t)

/-- The system returns no handle that is open. -/
def available (handle : Option ℕ) (t : Table ℕ) : Bool :=
  handle.all fun h => decide (h ∉ t.opened)

def step (sm : SharedMemoryManager) (s : State) (c : Call) : Option State :=
  match c with
  | .create handle viewed =>
      if sm.convertible && available handle s.handles then
        let r := createStep handle viewed s.attributes s.handles
        some ⟨r.1, r.2, s.history ++ [c]⟩
      else none
  | .signalReady handle set =>
      if available handle s.handles then
        (signalReadyStep handle set s.attributes s.handles).map fun r =>
          ⟨r.1, r.2, s.history ++ [c]⟩
      else none
  | .cleanup => some ⟨s.attributes, cleanupStep s.attributes s.handles, s.history ++ [c]⟩

/-- No call closes a handle that is not open, and after `cleanup()` none is. -/
def ReleasedOnce (s : State) (c : Call) (s' : State) : Prop :=
  s'.handles.refused = s.handles.refused ∧ (c = .cleanup → s'.handles.opened = ∅)

section Methods

/-! The methods of the worker do the same to their attributes and handles, with
the handles the kernel numbers. -/

variable {P : Type} [DecidableEq P] {sm : SharedMemoryManager} {p : P} {at_ : Attributes}
  {k : Kernel P} {t : Table ℕ}

def Shows (t : Table ℕ) (p : P) (k : Kernel P) : Prop :=
  ∀ id, k.HandleOpen p id ↔ id ∈ t.opened

omit [DecidableEq P] in
theorem shows_issue {k' : Kernel P} (ht : Shows t p k) {id : ℕ}
    (h : ∀ x, k'.HandleOpen p x ↔ x = id ∨ k.HandleOpen p x) : Shows (t.issue id) p k' := by
  intro x
  show k'.HandleOpen p x ↔ x ∈ insert id t.opened
  rw [h, ht, Finset.mem_insert]

theorem shows_close (ht : Shows t p k) (id : ℕ) : Shows (t.close id) p (k.closeHandle p id) := by
  intro x
  rw [Kernel.handleOpen_closeHandle, ht, Table.mem_opened_close]

theorem shows_closeIfSet (ht : Shows t p k) (handle : Option ℕ) :
    Shows (closeIfSetStep handle t) p (closeIfSet p handle k) := by
  cases handle with
  | none => exact ht
  | some id => exact shows_close ht id

theorem shows_create (ht : Shows t p k) (hconv : sm.convertible = true) (mapped viewed : Bool) :
    let handle := if mapped then some k.nextHandle else none
    let fits := (k.createFileMapping p sm.request sm.shmName).fits sm.shmName sm.request
    let r := createStep handle (viewed && fits) at_ t
    (sm.create p mapped viewed at_ k).2.1 = r.1 ∧
      Shows r.2 p (sm.create p mapped viewed at_ k).2.2 := by
  intro handle fits r
  have hmapping : Shows (t.issue k.nextHandle) p
      (k.createFileMapping p sm.request sm.shmName) :=
    shows_issue ht fun _ => Kernel.handleOpen_createFileMapping
  rcases sm.create_cases p mapped viewed at_ k with
    ⟨hnot, -⟩ | ⟨-, rfl, h⟩ | ⟨-, rfl, hview, h⟩ | ⟨-, rfl, hview, h⟩
  · exact nomatch hnot.symm.trans hconv
  · rw [h]
    exact ⟨rfl, ht⟩
  · simp only [h, r, fits, hview]
    exact ⟨rfl, shows_close hmapping k.nextHandle⟩
  · simp only [h, r, fits, hview]
    refine ⟨rfl, fun id => ?_⟩
    show (sm.initHeader _).HandleOpen p id ↔ _
    rw [initHeader, handleOpen_storeFields, Kernel.handleOpen_mapViewOfFile]
    exact hmapping id

theorem shows_signalReady (ht : Shows t p k) (created set : Bool) :
    let handle := if created then some k.nextHandle else none
    let r := sm.signalReady p created set at_ k
    match signalReadyStep handle set at_ t with
    | none => r.1 = none
    | some r' => r.1 ≠ none ∧ r.2.1 = r'.1 ∧ Shows r'.2 p r.2.2 := by
  have hevent : Shows (t.issue k.nextHandle) p (k.createEvent p sm.readyEventName) :=
    shows_issue ht fun _ => Kernel.handleOpen_createEvent
  cases created with
  | false => exact ⟨nofun, rfl, ht⟩
  | true =>
      cases set with
      | false => exact ⟨nofun, rfl, hevent⟩
      | true =>
          obtain ⟨hMap, pHeader, hReadyEvent⟩ := at_
          cases pHeader with
          | false => rfl
          | true =>
              refine ⟨nofun, rfl, fun id => ?_⟩
              show (Kernel.storeField _ _ _ _).HandleOpen p id ↔ _
              rw [Kernel.storeField, Kernel.handleOpen_write, Kernel.handleOpen_setEvent]
              exact hevent id

theorem shows_cleanup (ht : Shows t p k) :
    Shows (cleanupStep at_ t) p (SharedMemoryManager.cleanup p at_ k) :=
  shows_closeIfSet (shows_closeIfSet ht _) _

end Methods

/-! ### The attributes as slots -/

def order : List Slot := [.hReadyEvent, .hMap]

theorem mem_order (x : Slot) : x ∈ order := by
  cases x <;> decide

/-- What a call does to the slots. A section that cannot be mapped is closed. -/
def Call.use : Call → Use Slot ℕ
  | create handle viewed => .assign .hMap handle viewed
  | signalReady handle _ => .assign .hReadyEvent handle true
  | cleanup => .closeAll

namespace State

variable (s : State)

def slot : Slot → Option ℕ
  | .hReadyEvent => s.attributes.hReadyEvent
  | .hMap => s.attributes.hMap

def owner : Owner Slot ℕ := ⟨s.slot, s.handles⟩

def record : Record Slot := s.history.foldl (fun r c => r.after c.use) Record.init

end State

/-- `cleanup()` is called only if no open handle has been overwritten and no
attribute names a closed one. -/
def CleansSettled (s : State) (c : Call) (_ : State) : Prop := c = .cleanup → s.record.Settled

/-- The system returns no handle that the other attribute still names. -/
def ReturnsUnnamed (s : State) (c : Call) (_ : State) : Prop := c.use.Unnamed s.owner

section Steps

variable {sm : SharedMemoryManager} {s s' : State} {c : Call}

theorem available_iff {handle : Option ℕ} {t : Table ℕ} :
    available handle t = true ↔ ∀ h, handle = some h → h ∉ t.opened := by
  cases handle with
  | none => exact iff_of_true rfl fun h heq => nomatch heq
  | some h => simp [available]

theorem owner_createStep (handle : Option ℕ) (viewed : Bool) (history : List Call) :
    let r := createStep handle viewed s.attributes s.handles
    (State.mk r.1 r.2 history).owner = s.owner.apply order (.assign .hMap handle viewed) := by
  cases handle with
  | none =>
      refine congrArg₂ Owner.mk (funext fun x => ?_) rfl
      cases x <;> rfl
  | some h =>
      cases viewed <;>
      · refine congrArg₂ Owner.mk (funext fun x => ?_) rfl
        cases x <;> rfl

theorem owner_signalReadyStep {handle : Option ℕ} {set : Bool} {r : Attributes × Table ℕ}
    (h : signalReadyStep handle set s.attributes s.handles = some r) (history : List Call) :
    (State.mk r.1 r.2 history).owner =
      s.owner.apply order (.assign .hReadyEvent handle true) := by
  cases handle with
  | none =>
      obtain rfl := Option.some.inj h
      refine congrArg₂ Owner.mk (funext fun x => ?_) rfl
      cases x <;> rfl
  | some id =>
      simp only [signalReadyStep, Option.ite_none_left_eq_some, Option.some.injEq] at h
      obtain ⟨-, rfl⟩ := h
      refine congrArg₂ Owner.mk (funext fun x => ?_) rfl
      cases x <;> rfl

theorem owner_cleanupStep (history : List Call) :
    (State.mk s.attributes (cleanupStep s.attributes s.handles) history).owner =
      s.owner.apply order .closeAll := by
  obtain ⟨⟨hMap, pHeader, hReadyEvent⟩, t, _⟩ := s
  cases hMap <;> cases hReadyEvent <;> rfl

/-- All a call does, as a use of the slots. -/
theorem step_cases (h : step sm s c = some s') :
    s'.owner = s.owner.apply order c.use ∧ c.use.Allowed s.handles ∧
      s'.history = s.history ++ [c] := by
  cases c with
  | create handle viewed =>
      simp only [step, Option.ite_none_right_eq_some, Option.some.injEq, Bool.and_eq_true] at h
      obtain ⟨⟨-, havailable⟩, rfl⟩ := h
      exact ⟨owner_createStep handle viewed _, available_iff.mp havailable, rfl⟩
  | signalReady handle set =>
      simp only [step, Option.ite_none_right_eq_some, Option.map_eq_some_iff] at h
      obtain ⟨havailable, r, hr, rfl⟩ := h
      exact ⟨owner_signalReadyStep hr _, available_iff.mp havailable, rfl⟩
  | cleanup =>
      obtain rfl := Option.some.inj h
      refine ⟨owner_cleanupStep _, ?_, rfl⟩
      intro h heq
      cases heq

theorem record_step (h : step sm s c = some s') : s'.record = s.record.after c.use := by
  obtain ⟨-, -, hhistory⟩ := step_cases h
  rw [State.record, hhistory, List.foldl_append]
  rfl

theorem tracks_step (ht : Tracks s.record s.owner) (h : step sm s c = some s') :
    Tracks s'.record s'.owner := by
  obtain ⟨howner, hallowed, -⟩ := step_cases h
  rw [record_step h, howner]
  exact ht.apply mem_order hallowed

theorem exact_step (ht : Tracks s.record s.owner) (he : Exact s.record s.owner)
    (h : step sm s c = some s') (hnew : ReturnsUnnamed s c s') :
    Exact s'.record s'.owner := by
  obtain ⟨howner, hallowed, -⟩ := step_cases h
  rw [record_step h, howner]
  exact he.apply ht mem_order hallowed hnew

theorem refused_step (h : step sm s c = some s') (hc : c ≠ .cleanup) :
    s'.handles.refused = s.handles.refused := by
  obtain ⟨howner, hallowed, -⟩ := step_cases h
  have hhandles : s'.handles = (s.owner.apply order c.use).table := congrArg Owner.table howner
  rw [hhandles]
  cases c with
  | create handle viewed =>
      cases handle with
      | none => rfl
      | some id =>
          cases viewed with
          | true => rfl
          | false =>
              show ((s.handles.issue id).close id).refused = s.handles.refused
              rw [Table.close_issue (hallowed id rfl)]
  | signalReady handle set =>
      cases handle <;> rfl
  | cleanup => exact absurd rfl hc

theorem releasedOnce_step (ht : Tracks s.record s.owner) (h : step sm s c = some s')
    (hsettled : CleansSettled s c s') : ReleasedOnce s c s' := by
  by_cases hc : c = .cleanup
  · have honce := ht.closesOnce mem_order (by decide) (hsettled hc)
    obtain ⟨howner, -, -⟩ := step_cases h
    rw [hc] at howner
    rw [← show s'.owner = s.owner.apply order .closeAll from howner] at honce
    exact ⟨honce.1, fun _ => honce.2⟩
  · exact ⟨refused_step h hc, fun heq => absurd heq hc⟩

theorem cleansSettled_step (he : Exact s.record s.owner) (h : step sm s c = some s')
    (honce : ReleasedOnce s c s') : CleansSettled s c s' := by
  rintro rfl
  obtain ⟨hrefused, hopened⟩ := honce
  obtain ⟨howner, -, -⟩ := step_cases h
  have hhandles : s'.handles = (s.owner.apply order .closeAll).table :=
    congrArg Owner.table howner
  rw [hhandles] at hrefused hopened
  exact he.settled mem_order hrefused (hopened rfl)

end Steps

/-- Over any calls with any outcomes every handle is closed once if every
`cleanup()` finds the handles as `CleansSettled` says; and only then, if no
handle is returned that the other attribute still names. -/
theorem releasedOnce_run (sm : SharedMemoryManager) (calls : List Call) :
    (EachStep (step sm) CleansSettled State.init calls →
      EachStep (step sm) ReleasedOnce State.init calls) ∧
    (EachStep (step sm) ReturnsUnnamed State.init calls →
      (EachStep (step sm) ReleasedOnce State.init calls ↔
        EachStep (step sm) CleansSettled State.init calls)) := by
  have howner : State.init.owner = Owner.init := by
    refine congrArg₂ Owner.mk (funext fun x => ?_) rfl
    cases x <;> rfl
  have htracks : Tracks State.init.record State.init.owner := by
    rw [howner]
    exact Tracks.init
  have hexact : Exact State.init.record State.init.owner := by
    rw [howner]
    exact Exact.init
  have hsufficient : EachStep (step sm) CleansSettled State.init calls →
      EachStep (step sm) ReleasedOnce State.init calls :=
    EachStep.imp (fun _ _ _ ht h _ => tracks_step ht h)
      (fun _ _ _ ht h hsettled => releasedOnce_step ht h hsettled) htracks
  refine ⟨hsufficient, fun hnew => ⟨fun honce => ?_, hsufficient⟩⟩
  exact EachStep.imp
    (I := fun s => Tracks s.record s.owner ∧ Exact s.record s.owner)
    (fun _ _ _ hI h hg => ⟨tracks_step hI.1 h, exact_step hI.1 hI.2 h hg.1⟩)
    (fun _ _ _ hI h hg => cleansSettled_step hI.2 h hg.2) ⟨htracks, hexact⟩ (hnew.and honce)

theorem step_create_oneChannel {s : State} {handle : Option ℕ} {viewed : Bool}
    (h : available handle s.handles = true) :
    step oneChannel s (.create handle viewed) =
      some ⟨(createStep handle viewed s.attributes s.handles).1,
        (createStep handle viewed s.attributes s.handles).2,
        s.history ++ [.create handle viewed]⟩ := by
  have hconv : oneChannel.convertible = true := by decide +kernel
  simp only [step, hconv, h, Bool.and_self, if_true]

/-- The order in which `main()` calls the methods. -/
theorem releasedOnce_mainOrder :
    (exec (step oneChannel) State.init
        [.create (some 4) true, .signalReady (some 8) true, .cleanup]).isSome = true ∧
      EachStep (step oneChannel) ReleasedOnce State.init
        [.create (some 4) true, .signalReady (some 8) true, .cleanup] := by
  refine ⟨by decide +kernel, (releasedOnce_run oneChannel _).1 ?_⟩
  intro s hs
  obtain rfl := Option.some.inj ((step_create_oneChannel rfl).symm.trans hs)
  refine ⟨nofun, fun s' hs' => ?_⟩
  obtain rfl := Option.some.inj hs'
  refine ⟨nofun, fun s'' _ => ⟨fun _ => ⟨rfl, ?_⟩, True.intro⟩⟩
  intro x
  cases x <;> decide

/-- A section that could not be mapped is closed again by `cleanup()`, and one
that was overwritten never is. -/
theorem handles_mistreated :
    ¬ EachStep (step oneChannel) ReleasedOnce State.init [.create (some 4) false, .cleanup] ∧
      ¬ EachStep (step oneChannel) ReleasedOnce State.init
        [.create (some 4) true, .create (some 8) true, .cleanup] := by
  refine ⟨?_, ?_⟩
  · intro h
    obtain ⟨-, h⟩ := h _ (step_create_oneChannel rfl)
    obtain ⟨⟨hrefused, -⟩, -⟩ := h _ rfl
    exact absurd hrefused (by decide)
  · intro h
    obtain ⟨-, h⟩ := h _ (step_create_oneChannel rfl)
    obtain ⟨-, h⟩ := h _ (step_create_oneChannel (by decide))
    obtain ⟨⟨-, hopened⟩, -⟩ := h _ rfl
    exact absurd (hopened rfl) (by decide)

end MabTilde.HandleRelease

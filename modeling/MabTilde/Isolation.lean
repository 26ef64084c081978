import MabTilde.Lib.Runs
import MabTilde.SharedMemoryManager

/-!
Several `SharedMemoryManager` objects in one session.

Each call is one step and any order of calls is a run. What a manager has in
shared memory is the section under its `shm_name`; `Isolated` says of one call
that it leaves the sections of the other managers alone and that `create()`
returns `True` only to a manager that has the name to itself. `create()` does
not look whether the section it was given existed before, so what keeps the
managers apart is only that no one creates under a name that is held.
-/

namespace MabTilde.Isolation

open Bytes NamedObjects Win32

/-- The managers, each a process of its own, over the kernel they share. -/
structure Session (ι : Type) where
  kernel : Kernel ι
  attrs : ι → Attributes

inductive Call
  | create (mapped viewed : Bool)
  | signalReady (created set : Bool)
  | storeFlag (f : Field) (v : Bool)
  | writeInput (i : ℕ) (x : BitVec 32)
  | writeOutput (i : ℕ) (x : BitVec 32)
  | cleanup
  | exit

def Session.init {ι : Type} : Session ι := ⟨Kernel.init, fun _ => Attributes.init⟩

variable {ι : Type} [DecidableEq ι] (args : ι → SharedMemoryManager)

/-- One call of one manager. Stores need the pointers `create()` assigns, and
an index outside the array raises. -/
def callStep (s : Session ι) : ι × Call → Option (Session ι)
  | (i, .create mapped viewed) =>
      let r := (args i).create i mapped viewed (s.attrs i) s.kernel
      some ⟨r.2.2, Function.update s.attrs i r.2.1⟩
  | (i, .signalReady created set) =>
      let r := (args i).signalReady i created set (s.attrs i) s.kernel
      some ⟨r.2.2, Function.update s.attrs i r.2.1⟩
  | (i, .storeFlag f v) =>
      if (s.attrs i).pHeader ∧ f.isFlag then
        some { s with
          kernel := s.kernel.storeField (args i).shmName f (if v then 1 else 0) }
      else none
  | (i, .writeInput n x) =>
      if (s.attrs i).pHeader ∧ (args i).hasViews ∧ n < (args i).samples then
        some { s with
          kernel := s.kernel.write (args i).shmName
            (fun m => Bytes.store m (SharedMemoryManager.inputOffset.toNat + 4 * n) 4 x.toNat) }
      else none
  | (i, .writeOutput n x) =>
      if (s.attrs i).pHeader ∧ (args i).hasViews ∧ n < (args i).samples then
        some { s with
          kernel := s.kernel.write (args i).shmName
            (fun m => Bytes.store m ((args i).outputOffset.toNat + 4 * n) 4 x.toNat) }
      else none
  | (i, .cleanup) => some { s with kernel := SharedMemoryManager.cleanup i (s.attrs i) s.kernel }
  | (i, .exit) => some ⟨s.kernel.exitProcess i, Function.update s.attrs i Attributes.init⟩

/-- Nobody but `i` holds a section of the name of manager `i`. -/
def Alone (s : Session ι) (i : ι) : Prop :=
  ∀ h ∈ s.kernel.mappings.holders (args i).shmName, h.owner = i

def returnsTrue (s : Session ι) (i : ι) (mapped viewed : Bool) : Prop :=
  ((args i).create i mapped viewed (s.attrs i) s.kernel).1 = some true

/-- No step of one manager touches what another one has been given, and
`create()` returns `True` only to the sole holder of the name. -/
def Isolated (s : Session ι) (a : ι × Call) (s' : Session ι) : Prop :=
  (∀ j, j ≠ a.1 → (s.attrs j).pHeader = true →
      s'.kernel.contents (args j).shmName = s.kernel.contents (args j).shmName) ∧
    ∀ mapped viewed, a.2 = .create mapped viewed → returnsTrue args s a.1 mapped viewed →
      Alone args s a.1 ∧ Alone args s' a.1

/-- The system grants the two calls of `create()`: a section, whatever section
it is, and a view of it, for which it has to be large enough. -/
def Granted (s : Session ι) (i : ι) (mapped viewed : Bool) : Prop :=
  mapped = true ∧ viewed = true ∧ (args i).convertible = true ∧
    ∀ m, s.kernel.mappings.value (args i).shmName = some m → (args i).request ≤ m.size

/-- No `create()` is granted a name that another manager still holds. -/
def FreshName (s : Session ι) (a : ι × Call) : Prop :=
  ∀ mapped viewed, a.2 = .create mapped viewed → Granted args s a.1 mapped viewed →
    Alone args s a.1

structure Inv (s : Session ι) : Prop where
  exclusive : ∀ n, ∀ h ∈ s.kernel.mappings.holders n, ∀ h' ∈ s.kernel.mappings.holders n,
    h.owner = h'.owner
  viewed : ∀ i, (s.attrs i).pHeader = true →
    .view i ∈ s.kernel.mappings.holders (args i).shmName

section Steps

variable {args} {s s' : Session ι} {i j : ι} {c : Call} {mapped viewed : Bool}

omit [DecidableEq ι] in
theorem inv_init : Inv args (Session.init : Session ι) := by
  refine ⟨?_, ?_⟩
  · intro n h hh
    exact absurd hh (Finset.notMem_empty h)
  · intro i hi
    cases hi

variable (args s i mapped viewed) in
/-- The three ways out of `create()`. -/
theorem create_cases :
    (Granted args s i mapped viewed ∧
        (args i).create i mapped viewed (s.attrs i) s.kernel =
          (some true, { s.attrs i with hMap := some s.kernel.nextHandle, pHeader := true },
            (args i).initHeader ((s.kernel.createFileMapping i (args i).request
              (args i).shmName).mapViewOfFile i (args i).shmName))) ∨
      (¬ Granted args s i mapped viewed ∧ ∃ r at_ k,
        (args i).create i mapped viewed (s.attrs i) s.kernel = (r, at_, k) ∧ r ≠ some true ∧
          at_.pHeader = (s.attrs i).pHeader ∧
          (k = s.kernel ∨ k = (s.kernel.createFileMapping i (args i).request
            (args i).shmName).closeHandle i s.kernel.nextHandle)) := by
  have hgranted : Granted args s i mapped viewed ↔ mapped = true ∧ viewed = true ∧
      (args i).convertible = true ∧ (s.kernel.createFileMapping i (args i).request
        (args i).shmName).fits (args i).shmName (args i).request = true := by
    rw [Kernel.fits_createFileMapping]
    rfl
  rcases (args i).create_cases i mapped viewed (s.attrs i) s.kernel with
    ⟨hconv, h⟩ | ⟨-, hmapped, h⟩ | ⟨-, -, hview, h⟩ | ⟨hconv, hmapped, hview, h⟩
  · right
    refine ⟨fun hg => ?_, _, _, _, h, nofun, rfl, .inl rfl⟩
    exact nomatch hconv.symm.trans (hgranted.mp hg).2.2.1
  · right
    refine ⟨fun hg => ?_, _, _, _, h, nofun, rfl, .inl rfl⟩
    exact nomatch hmapped.symm.trans hg.1
  · right
    refine ⟨fun hg => ?_, _, _, _, h, nofun, rfl, .inr rfl⟩
    obtain ⟨-, hviewed, -, hfits⟩ := hgranted.mp hg
    rw [hviewed, hfits] at hview
    cases hview
  · left
    obtain ⟨hviewed, hfits⟩ := Bool.and_eq_true_iff.mp hview
    exact ⟨hgranted.mpr ⟨hmapped, hviewed, hconv, hfits⟩, h⟩

theorem returnsTrue_iff :
    returnsTrue args s i mapped viewed ↔ Granted args s i mapped viewed := by
  unfold returnsTrue
  rcases create_cases args s i mapped viewed with
    ⟨hg, hcreate⟩ | ⟨hg, r, at_, k, hcreate, hr, -⟩
  · rw [hcreate]
    exact iff_of_true rfl hg
  · rw [hcreate]
    exact iff_of_false hr hg

/-- What every call of `i` but a granted `create()` leaves as it was: the other
managers' attributes and views, and what they have views of. -/
structure Frame (args : ι → SharedMemoryManager) (s : Session ι) (i : ι) (s' : Session ι) :
    Prop where
  attrs : ∀ j, j ≠ i → s'.attrs j = s.attrs j
  holders : ∀ n h, h ∈ s'.kernel.mappings.holders n → h ∈ s.kernel.mappings.holders n
  views : ∀ n j, j ≠ i → .view j ∈ s.kernel.mappings.holders n →
    .view j ∈ s'.kernel.mappings.holders n
  own : (s'.attrs i).pHeader = true → (s.attrs i).pHeader = true ∧
    ∀ n, .view i ∈ s.kernel.mappings.holders n → .view i ∈ s'.kernel.mappings.holders n
  contents : ∀ n j, j ≠ i → .view j ∈ s.kernel.mappings.holders n →
    ((s.attrs i).pHeader = true → n ≠ (args i).shmName) →
      s'.kernel.contents n = s.kernel.contents n

omit [DecidableEq ι] in
theorem frame_write (f : Memory → Memory) (hp : (s.attrs i).pHeader = true) :
    Frame args s i { s with kernel := s.kernel.write (args i).shmName f } where
  attrs _ _ := rfl
  holders n h hh := by simpa using hh
  views n j _ hv := by simpa using hv
  own hown := ⟨hown, fun n hv => by simpa using hv⟩
  contents n j _ _ hn := Kernel.contents_write_of_ne (hn hp)

theorem frame_of_views {k : Kernel ι} {at_ : Attributes}
    (hp : at_.pHeader = true → (s.attrs i).pHeader = true)
    (hshrink : ∀ n h, h ∈ k.mappings.holders n → h ∈ s.kernel.mappings.holders n)
    (hviews : ∀ n j, .view j ∈ s.kernel.mappings.holders n → .view j ∈ k.mappings.holders n)
    (hcontents : ∀ n j, .view j ∈ s.kernel.mappings.holders n →
      ((s.attrs i).pHeader = true → n ≠ (args i).shmName) →
        k.contents n = s.kernel.contents n) :
    Frame args s i ⟨k, Function.update s.attrs i at_⟩ where
  attrs j hj := Function.update_of_ne hj _ _
  holders := hshrink
  views n j _ hv := hviews n j hv
  own hown := ⟨hp (by simpa using hown), fun n hv => hviews n i hv⟩
  contents n j _ hv hn := hcontents n j hv hn

theorem frame_create (hng : ¬ Granted args s i mapped viewed)
    (h : callStep args s (i, .create mapped viewed) = some s') : Frame args s i s' := by
  rcases create_cases args s i mapped viewed with
    ⟨hg, -⟩ | ⟨-, r, at_, k, hcreate, -, hp, hk⟩
  · exact absurd hg hng
  · simp only [callStep, hcreate, Option.some.injEq] at h
    subst h
    rcases hk with rfl | rfl
    · apply frame_of_views (fun h => hp ▸ h) (fun n h hh => hh) (fun n j hv => hv)
      intro n j hv hn
      rfl
    · apply frame_of_views (fun h => hp ▸ h)
      · intro n h hh
        rw [Kernel.mem_holders_closeHandle, Kernel.holders_createFileMapping] at hh
        obtain ⟨hh, hne⟩ := hh
        split at hh
        · exact (Finset.mem_insert.mp hh).resolve_left hne
        · exact hh
      · intro n j hv
        exact Kernel.mem_holders_closeHandle.mpr
          ⟨Kernel.mem_holders_createFileMapping hv, by simp⟩
      · intro n j hv hn
        rw [Kernel.contents_closeHandle (Kernel.mem_holders_createFileMapping hv),
          Kernel.contents_createFileMapping hv]

theorem signalReady_cases (created set : Bool) (sm : SharedMemoryManager) (at_ : Attributes)
    (k : Kernel ι) :
    (sm.signalReady i created set at_ k).2.1.pHeader = at_.pHeader ∧
      ((sm.signalReady i created set at_ k).2.2.mappings = k.mappings ∨
        at_.pHeader = true ∧ (sm.signalReady i created set at_ k).2.2.mappings =
          (k.storeField sm.shmName .isPythonReady 1).mappings) := by
  unfold SharedMemoryManager.signalReady
  by_cases hcreated : created = false
  · rw [if_pos hcreated]
    exact ⟨rfl, .inl rfl⟩
  · rw [if_neg hcreated]
    by_cases hset : set = false
    · rw [if_pos hset]
      exact ⟨rfl, .inl rfl⟩
    · rw [if_neg hset]
      dsimp only
      split
      · rename_i hp
        exact ⟨rfl, .inr ⟨hp, rfl⟩⟩
      · exact ⟨rfl, .inl rfl⟩

theorem frame_signalReady {created set : Bool}
    (h : callStep args s (i, .signalReady created set) = some s') : Frame args s i s' := by
  simp only [callStep, Option.some.injEq] at h
  subst h
  obtain ⟨hp, hmaps⟩ :=
    signalReady_cases (i := i) created set (args i) (s.attrs i) s.kernel
  have hholders : ∀ n,
      ((args i).signalReady i created set (s.attrs i) s.kernel).2.2.mappings.holders n =
        s.kernel.mappings.holders n := by
    intro n
    rcases hmaps with hmaps | ⟨-, hmaps⟩
    · rw [hmaps]
    · rw [hmaps, Kernel.storeField, Kernel.holders_write]
  apply frame_of_views (fun h => hp ▸ h)
  · intro n h hh
    exact hholders n ▸ hh
  · intro n j hv
    exact (hholders n).symm ▸ hv
  · intro n j hv hn
    unfold Kernel.contents
    rcases hmaps with hmaps | ⟨hheader, hmaps⟩
    · rw [hmaps]
    · rw [hmaps]
      exact Kernel.contents_write_of_ne (hn hheader)

theorem closeIfSet_frame (handle : Option ℕ) (k : Kernel ι) (n : String) :
    (∀ h, h ∈ (SharedMemoryManager.closeIfSet i handle k).mappings.holders n →
        h ∈ k.mappings.holders n) ∧
      ∀ j, .view j ∈ k.mappings.holders n →
        .view j ∈ (SharedMemoryManager.closeIfSet i handle k).mappings.holders n ∧
          (SharedMemoryManager.closeIfSet i handle k).contents n = k.contents n := by
  cases handle with
  | none => exact ⟨fun h hh => hh, fun j hv => ⟨hv, rfl⟩⟩
  | some id =>
      refine ⟨fun h hh => (Kernel.mem_holders_closeHandle.mp hh).1, fun j hv => ⟨?_, ?_⟩⟩
      · exact Kernel.mem_holders_closeHandle.mpr ⟨hv, by simp⟩
      · exact Kernel.contents_closeHandle hv

theorem frame_cleanup (h : callStep args s (i, .cleanup) = some s') : Frame args s i s' := by
  simp only [callStep, Option.some.injEq] at h
  subst h
  -- the event's handle first, then the section's
  have hevent := closeIfSet_frame (i := i) (s.attrs i).hReadyEvent s.kernel
  have hmap := closeIfSet_frame (i := i) (s.attrs i).hMap
    (SharedMemoryManager.closeIfSet i (s.attrs i).hReadyEvent s.kernel)
  have hviews : ∀ n j, .view j ∈ s.kernel.mappings.holders n →
      .view j ∈ (SharedMemoryManager.cleanup i (s.attrs i) s.kernel).mappings.holders n :=
    fun n j hv => ((hmap n).2 j ((hevent n).2 j hv).1).1
  refine ⟨?_, ?_, ?_, ?_, ?_⟩
  · intro j _
    rfl
  · intro n h hh
    exact (hevent n).1 h ((hmap n).1 h hh)
  · exact fun n j _ => hviews n j
  · exact fun hp => ⟨hp, fun n => hviews n i⟩
  · intro n j _ hv _
    exact ((hmap n).2 j ((hevent n).2 j hv).1).2.trans ((hevent n).2 j hv).2

theorem frame_exit (h : callStep args s (i, .exit) = some s') : Frame args s i s' := by
  simp only [callStep, Option.some.injEq] at h
  subst h
  refine ⟨?_, ?_, ?_, ?_, ?_⟩
  · intro j hj
    exact Function.update_of_ne hj _ _
  · intro n h hh
    exact (Kernel.mem_holders_exitProcess.mp hh).1
  · intro n j hj hv
    exact Kernel.mem_holders_exitProcess.mpr ⟨hv, hj⟩
  · intro hown
    simp [Attributes.init] at hown
  · intro n j hj hv _
    exact Kernel.contents_exitProcess hv hj

/-- Every call that is not a granted `create()` stays within its frame. -/
theorem frame_of_step (h : callStep args s (i, c) = some s')
    (hng : ∀ mapped viewed, c = .create mapped viewed → ¬ Granted args s i mapped viewed) :
    Frame args s i s' := by
  cases c with
  | create mapped viewed => exact frame_create (hng mapped viewed rfl) h
  | signalReady created set => exact frame_signalReady h
  | storeFlag f v =>
      simp only [callStep, Option.ite_none_right_eq_some, Option.some.injEq] at h
      obtain ⟨⟨hp, -⟩, rfl⟩ := h
      exact frame_write _ hp
  | writeInput n x =>
      simp only [callStep, Option.ite_none_right_eq_some, Option.some.injEq] at h
      obtain ⟨⟨hp, -⟩, rfl⟩ := h
      exact frame_write _ hp
  | writeOutput n x =>
      simp only [callStep, Option.ite_none_right_eq_some, Option.some.injEq] at h
      obtain ⟨⟨hp, -⟩, rfl⟩ := h
      exact frame_write _ hp
  | cleanup => exact frame_cleanup h
  | exit => exact frame_exit h

omit [DecidableEq ι] in
theorem Inv.ne_name (hI : Inv args s) (hne : j ≠ i) {n : String}
    (hv : .view j ∈ s.kernel.mappings.holders n) (hp : (s.attrs i).pHeader = true) :
    n ≠ (args i).shmName := by
  rintro rfl
  exact hne (hI.exclusive _ _ hv _ (hI.viewed i hp))

omit [DecidableEq ι] in
theorem Frame.inv (hf : Frame args s i s') (hI : Inv args s) : Inv args s' := by
  refine ⟨?_, ?_⟩
  · intro n h hh h' hh'
    exact hI.exclusive n h (hf.holders n h hh) h' (hf.holders n h' hh')
  · intro j hp
    by_cases hj : j = i
    · subst hj
      obtain ⟨hp, hown⟩ := hf.own hp
      exact hown _ (hI.viewed j hp)
    · rw [hf.attrs j hj] at hp
      exact hf.views _ j hj (hI.viewed j hp)

omit [DecidableEq ι] in
theorem Frame.keeps (hf : Frame args s i s') (hI : Inv args s) (hj : j ≠ i)
    (hp : (s.attrs j).pHeader = true) :
    s'.kernel.contents (args j).shmName = s.kernel.contents (args j).shmName := by
  have hv := hI.viewed j hp
  exact hf.contents _ j hj hv fun hpi => hI.ne_name hj hv hpi

section Granted

variable (hg : Granted args s i mapped viewed)
  (h : callStep args s (i, .create mapped viewed) = some s')

include hg h

theorem granted_step :
    s' = ⟨(args i).initHeader ((s.kernel.createFileMapping i (args i).request
        (args i).shmName).mapViewOfFile i (args i).shmName),
      Function.update s.attrs i
        { s.attrs i with hMap := some s.kernel.nextHandle, pHeader := true }⟩ := by
  rcases create_cases args s i mapped viewed with ⟨-, hcreate⟩ | ⟨hng, -⟩
  · simp only [callStep, hcreate, Option.some.injEq] at h
    exact h.symm
  · exact absurd hg hng

theorem granted_holders (n : String) :
    s'.kernel.mappings.holders n =
      if n = (args i).shmName then
        insert (.view i) (insert (.handle i s.kernel.nextHandle) (s.kernel.mappings.holders n))
      else s.kernel.mappings.holders n := by
  rw [granted_step hg h, SharedMemoryManager.initHeader, SharedMemoryManager.holders_storeFields,
    Kernel.holders_mapViewOfFile, Kernel.holders_createFileMapping]
  split <;> rfl

theorem granted_attrs (hj : j ≠ i) : s'.attrs j = s.attrs j := by
  rw [granted_step hg h]
  exact Function.update_of_ne hj _ _

theorem granted_contents {n : String} (hn : n ≠ (args i).shmName) {hd : Holder ι}
    (hh : hd ∈ s.kernel.mappings.holders n) : s'.kernel.contents n = s.kernel.contents n := by
  rw [granted_step hg h, SharedMemoryManager.initHeader,
    SharedMemoryManager.contents_storeFields hn,
    Kernel.contents_mapViewOfFile (Kernel.mem_holders_createFileMapping hh),
    Kernel.contents_createFileMapping hh]

/-- Under a name nobody else holds it is as harmless as any other call. -/
theorem granted_alone (halone : Alone args s i) : Alone args s' i := by
  intro hd hh
  rw [granted_holders hg h, if_pos rfl, Finset.mem_insert, Finset.mem_insert] at hh
  rcases hh with rfl | rfl | hh
  · rfl
  · rfl
  · exact halone hd hh

theorem granted_inv (hI : Inv args s) (halone : Alone args s i) : Inv args s' := by
  refine ⟨?_, ?_⟩
  · intro n hd hh hd' hh'
    by_cases hn : n = (args i).shmName
    · subst hn
      have halone' := granted_alone hg h halone
      rw [halone' hd hh, halone' hd' hh']
    · rw [granted_holders hg h, if_neg hn] at hh hh'
      exact hI.exclusive n hd hh hd' hh'
  · intro j hp
    rw [granted_holders hg h]
    by_cases hj : j = i
    · subst hj
      rw [if_pos rfl]
      exact Finset.mem_insert_self _ _
    · rw [granted_attrs hg h hj] at hp
      have hv := hI.viewed j hp
      split
      · exact Finset.mem_insert_of_mem (Finset.mem_insert_of_mem hv)
      · exact hv

theorem granted_keeps (hI : Inv args s) (halone : Alone args s i) (hj : j ≠ i)
    (hp : (s.attrs j).pHeader = true) :
    s'.kernel.contents (args j).shmName = s.kernel.contents (args j).shmName := by
  have hv := hI.viewed j hp
  refine granted_contents hg h ?_ hv
  intro hn
  rw [hn] at hv
  exact hj (halone _ hv)

end Granted

/-- One call: it is isolated exactly if no name is taken over. -/
theorem isolated_iff (hI : Inv args s) (a : ι × Call) (h : callStep args s a = some s') :
    Isolated args s a s' ↔ FreshName args s a := by
  obtain ⟨i, c⟩ := a
  refine ⟨?_, ?_⟩
  · intro hq mapped viewed hc hg
    exact (hq.2 mapped viewed hc (returnsTrue_iff.mpr hg)).1
  · intro hfresh
    by_cases hg : ∃ mapped viewed, c = .create mapped viewed ∧ Granted args s i mapped viewed
    · obtain ⟨mapped, viewed, rfl, hg⟩ := hg
      have halone := hfresh mapped viewed rfl hg
      refine ⟨?_, ?_⟩
      · intro j hj hp
        exact granted_keeps hg h hI halone hj hp
      · intro _ _ _ _
        exact ⟨halone, granted_alone hg h halone⟩
    · have hng : ∀ mapped viewed, c = .create mapped viewed →
          ¬ Granted args s i mapped viewed :=
        fun mapped viewed hc hgr => hg ⟨mapped, viewed, hc, hgr⟩
      refine ⟨?_, ?_⟩
      · intro j hj hp
        exact (frame_of_step h hng).keeps hI hj hp
      · intro mapped viewed hc htrue
        exact absurd (returnsTrue_iff.mp htrue) (hng mapped viewed hc)

theorem inv_step (hI : Inv args s) (a : ι × Call) (h : callStep args s a = some s')
    (hfresh : FreshName args s a) : Inv args s' := by
  obtain ⟨i, c⟩ := a
  by_cases hg : ∃ mapped viewed, c = .create mapped viewed ∧ Granted args s i mapped viewed
  · obtain ⟨mapped, viewed, rfl, hg⟩ := hg
    exact granted_inv hg h hI (hfresh mapped viewed rfl hg)
  · exact (frame_of_step h fun mapped viewed hc hgr => hg ⟨mapped, viewed, hc, hgr⟩).inv hI

end Steps

/-- In every order of calls of any managers, all calls are isolated exactly if
no `create()` is granted a name that another manager holds. -/
theorem isolated_run_iff (calls : List (ι × Call)) :
    Runs.EachStep (callStep args) (Isolated args) Session.init calls ↔
      Runs.EachStep (callStep args) (fun s a _ => FreshName args s a) Session.init calls :=
  Runs.eachStep_iff (fun _ a _ hI h hf => inv_step hI a h hf)
    (fun _ a _ hI h => isolated_iff hI a h) inv_init

def sameInstance (second : Bool) : SharedMemoryManager :=
  ⟨"MabSharedMem_00000007", "MabEvent_00000007", if second then 32 else 64, 1⟩

/-- The first one serves when the second calls `create()`, which returns `True`
and leaves the first with the wrong block size and `is_python_ready` unset. -/
theorem create_takes_over :
    ∃ s s', Runs.exec (callStep sameInstance) Session.init
        [(false, .create true true), (false, .signalReady true true)] = some s ∧
      callStep sameInstance s (true, .create true true) = some s' ∧
      returnsTrue sameInstance s true true true ∧
      s.kernel.header "MabSharedMem_00000007" .blockSize = some 64 ∧
      s'.kernel.header "MabSharedMem_00000007" .blockSize = some 32 ∧
      s.kernel.header "MabSharedMem_00000007" .isPythonReady = some 1 ∧
      s'.kernel.header "MabSharedMem_00000007" .isPythonReady = some 0 ∧
      ¬ Isolated sameInstance s (true, .create true true) s' := by
  have hrun : (Runs.exec (callStep sameInstance) Session.init
      [(false, .create true true), (false, .signalReady true true)]).any (fun s =>
        decide (((sameInstance true).create true true true (s.attrs true) s.kernel).1 = some true ∧
          (s.attrs false).pHeader = true ∧
          s.kernel.header "MabSharedMem_00000007" .blockSize = some 64 ∧
          s.kernel.header "MabSharedMem_00000007" .isPythonReady = some 1) &&
        (callStep sameInstance s (true, .create true true)).any fun s' =>
          decide (s'.kernel.header "MabSharedMem_00000007" .blockSize = some 32 ∧
            s'.kernel.header "MabSharedMem_00000007" .isPythonReady = some 0)) = true := by
    decide +kernel
  obtain ⟨s, hexec, hs⟩ := Runs.exists_exec_of_any hrun
  obtain ⟨hbefore, hcall⟩ := Bool.and_eq_true_iff.mp hs
  obtain ⟨htrue, hp, hblock, hready⟩ := of_decide_eq_true hbefore
  obtain ⟨s', hstep, hs'⟩ := (Option.any_eq_true _ _).mp hcall
  obtain ⟨hblock', hready'⟩ := of_decide_eq_true hs'
  refine ⟨s, s', hexec, hstep, htrue, hblock, hblock', hready, hready', fun hisolated => ?_⟩
  have hkept := hisolated.1 false (by decide) hp
  have hsame : s'.kernel.header "MabSharedMem_00000007" .blockSize =
      s.kernel.header "MabSharedMem_00000007" .blockSize :=
    congrArg (Option.map fun m => Side.python.read m .blockSize) hkept
  rw [hblock, hblock'] at hsame
  exact absurd hsame (by decide)

end MabTilde.Isolation

import MabTilde.Lib.NamedObjects
import MabTilde.SharedMemoryHeader

/-!
The part of Win32 the handshake rests on: named sections and named events.

Creating under a name that is taken opens what is there, with its contents and
its signal state; nothing of what the caller asked for is looked at. An object
lives while a handle to it or a view of it is open, so what a process leaves
behind stays for as long as another one holds it. Whether a call succeeds is
not decided here: the callers take that as an outcome.
-/

namespace MabTilde.Win32

open Bytes NamedObjects

structure Mapping where
  size : ℕ
  bytes : Memory

/-- What a process holds of an object: a handle, which `CloseHandle` gives
back, or a view, which nothing in the worker unmaps before it exits. -/
inductive Holder (P : Type)
  | handle (owner : P) (id : ℕ)
  | view (owner : P)
  deriving DecidableEq

def Holder.owner {P : Type} : Holder P → P
  | handle p _ => p
  | view p => p

/-- The named objects of a session, and the number of the next handle. -/
structure Kernel (P : Type) where
  mappings : Table String (Holder P) Mapping
  events : Table String (Holder P) Bool
  nextHandle : ℕ

namespace Kernel

variable {P : Type}

def init : Kernel P := ⟨Table.empty, Table.empty, 0⟩

/-- A view of `size` bytes fits the section. -/
def fits (k : Kernel P) (name : String) (size : ℕ) : Bool :=
  match k.mappings.value name with
  | none => false
  | some m => decide (size ≤ m.size)

/-- `SetEvent`. Nothing ever resets a manual-reset event. -/
def setEvent (k : Kernel P) (name : String) : Kernel P :=
  { k with events := k.events.modify name fun _ => true }

def write (k : Kernel P) (name : String) (f : Memory → Memory) : Kernel P :=
  { k with mappings := k.mappings.modify name fun m => { m with bytes := f m.bytes } }

def contents (k : Kernel P) (name : String) : Option Memory :=
  (k.mappings.value name).map Mapping.bytes

/-- A header field under a name, as the worker lays the header out. -/
def header (k : Kernel P) (name : String) (f : Field) : Option ℕ :=
  (k.contents name).map fun m => Side.python.read m f

def storeField (k : Kernel P) (name : String) (f : Field) (v : BitVec 32) : Kernel P :=
  k.write name fun m => Side.python.write m f v

section Calls

variable [DecidableEq P]

/-- `CreateFileMappingW`. A new section is filled with zeros. -/
def createFileMapping (k : Kernel P) (p : P) (size : ℕ) (name : String) : Kernel P :=
  { k with
    mappings := k.mappings.hold name (.handle p k.nextHandle) ⟨size, fun _ => 0⟩
    nextHandle := k.nextHandle + 1 }

/-- `OpenFileMappingW`, which fails if there is no such section. -/
def openFileMapping (k : Kernel P) (p : P) (name : String) : Option (Kernel P) :=
  if (k.mappings.value name).isSome then some (k.createFileMapping p 0 name) else none

/-- `MapViewOfFile` of a section the caller has a handle to. -/
def mapViewOfFile (k : Kernel P) (p : P) (name : String) : Kernel P :=
  { k with mappings := k.mappings.hold name (.view p) ⟨0, fun _ => 0⟩ }

/-- `CreateEventW` of a manual-reset event, not signalled if it is new. -/
def createEvent (k : Kernel P) (p : P) (name : String) : Kernel P :=
  { k with
    events := k.events.hold name (.handle p k.nextHandle) false
    nextHandle := k.nextHandle + 1 }

/-- `OpenEventW`, which fails if there is no such event. -/
def openEvent (k : Kernel P) (p : P) (name : String) : Option (Kernel P) :=
  if (k.events.value name).isSome then some (k.createEvent p name) else none

/-- `CloseHandle`. A handle that is not open is no one's. -/
def closeHandle (k : Kernel P) (p : P) (id : ℕ) : Kernel P :=
  { k with
    mappings := k.mappings.release fun h => h = .handle p id
    events := k.events.release fun h => h = .handle p id }

def HandleOpen (k : Kernel P) (p : P) (id : ℕ) : Prop :=
  k.mappings.Held (.handle p id) ∨ k.events.Held (.handle p id)

/-- The end of a process: its handles are closed and its views unmapped. -/
def exitProcess (k : Kernel P) (p : P) : Kernel P :=
  { k with
    mappings := k.mappings.release fun h => h.owner = p
    events := k.events.release fun h => h.owner = p }

end Calls

section Lemmas

variable {k : Kernel P} {p q : P} {n name : String} {size id : ℕ} {h : Holder P}
  {f : Memory → Memory}

/-! Stores through a view. -/

theorem contents_write_self : (k.write n f).contents n = (k.contents n).map f := by
  unfold contents write
  rw [Table.value_modify_self, Option.map_map, Option.map_map]
  rfl

theorem contents_write_of_ne (hne : n ≠ name) : (k.write name f).contents n = k.contents n := by
  unfold contents write
  rw [Table.value_modify_of_ne hne]

@[simp] theorem holders_write :
    (k.write name f).mappings.holders n = k.mappings.holders n := by
  simp only [write, Table.holders_modify]

theorem header_write {m : Memory} (hm : k.contents n = some m) (g : Field) :
    (k.write n f).header n g = some (Side.python.read (f m) g) := by
  unfold header
  rw [contents_write_self, hm, Option.map_some, Option.map_some]

theorem header_storeField_self {m : Memory} (hm : k.contents n = some m) (g : Field)
    (v : BitVec 32) : (k.storeField n g v).header n g = some (g.meaning v.toNat) := by
  rw [storeField, header_write hm, Side.read_write_self]

theorem header_storeField_of_ne {g g' : Field} (hne : g' ≠ g) (v : BitVec 32) :
    (k.storeField n g v).header n g' = k.header n g' := by
  unfold header storeField
  rw [contents_write_self, Option.map_map]
  congr 1
  funext m
  exact Side.read_write_of_ne hne

theorem contents_of_header {x : ℕ} {g : Field} (h : k.header n g = some x) :
    ∃ m, k.contents n = some m := by
  unfold header at h
  rw [Option.map_eq_some_iff] at h
  obtain ⟨m, hm, -⟩ := h
  exact ⟨m, hm⟩

theorem header_of_contents {m : Memory} (hm : k.contents n = some m) (g : Field) :
    k.header n g = some (Side.python.read m g) := by
  rw [header, hm, Option.map_some]

theorem header_congr {k' : Kernel P} (h : k'.contents n = k.contents n) (g : Field) :
    k'.header n g = k.header n g := by
  unfold header
  rw [h]

theorem header_write_of_below (hf : ∀ m i, i < Side.python.layout.sizeof → f m i = m i)
    (g : Field) : (k.write n f).header n g = k.header n g := by
  unfold header
  rw [contents_write_self, Option.map_map]
  congr 1
  funext m
  exact Side.read_congr (hf m) g

theorem event_setEvent {b : Bool} (hb : k.events.value n = some b) :
    (k.setEvent n).events.value n = some true := by
  unfold setEvent
  rw [Table.value_modify_self, hb, Option.map_some]

variable [DecidableEq P]

theorem contents_createFileMapping_self :
    ∃ m, (k.createFileMapping p size n).contents n = some m := by
  unfold contents createFileMapping
  rw [Table.value_hold_self]
  exact ⟨_, rfl⟩

theorem contents_createFileMapping_eq : (k.createFileMapping p size n).contents n =
    some ((k.contents n).getD fun _ => 0) := by
  unfold contents createFileMapping
  rw [Table.value_hold_self, Option.map_some]
  cases k.mappings.value n <;> rfl

theorem event_createEvent_self : ∃ b, (k.createEvent p n).events.value n = some b := by
  unfold createEvent
  rw [Table.value_hold_self]
  exact ⟨_, rfl⟩

/-- What a section says right after it was created or opened, and is not zero,
it said before. -/
theorem header_of_createFileMapping {g : Field} {x : ℕ} (hx : x ≠ 0)
    (h : (k.createFileMapping p size n).header n g = some x) : k.header n g = some x := by
  unfold header contents createFileMapping at h
  rw [Table.value_hold_self, Option.map_some, Option.map_some, Option.some.injEq] at h
  unfold header contents
  cases hm : k.mappings.value n with
  | some m =>
      rw [hm] at h
      exact congrArg some h
  | none =>
      rw [hm] at h
      have hzero : Side.python.layout.load (fun _ => 0) g = 0 :=
        load_eq_zero_iff.mpr fun _ _ _ => rfl
      have hread : Side.python.read (fun _ => 0) g = 0 := by
        rw [Side.read, hzero, Field.meaning]
        split <;> rfl
      exact absurd (h.symm.trans hread) hx

/-! Opening a section that exists changes none of its bytes, closing one
changes none as long as somebody has a view. -/

theorem contents_hold_of_mem (hh : h ∈ k.mappings.holders n) (h' : Holder P) (m : Mapping) :
    ((k.mappings.hold name h' m).value n).map Mapping.bytes = k.contents n := by
  unfold contents
  by_cases hn : n = name
  · subst hn
    obtain ⟨m', hm'⟩ := Table.value_isSome_of_mem hh
    rw [Table.value_hold_self, hm', Option.getD_some]
  · rw [Table.value_hold_of_ne hn]

theorem contents_createFileMapping (hh : h ∈ k.mappings.holders n) :
    (k.createFileMapping p size name).contents n = k.contents n := contents_hold_of_mem hh _ _

theorem contents_mapViewOfFile (hh : h ∈ k.mappings.holders n) :
    (k.mapViewOfFile p name).contents n = k.contents n := contents_hold_of_mem hh _ _

theorem contents_closeHandle (hh : .view q ∈ k.mappings.holders n) :
    (k.closeHandle p id).contents n = k.contents n := by
  unfold contents closeHandle
  rw [Table.value_release_of_mem hh (by simp)]

theorem contents_exitProcess (hh : h ∈ k.mappings.holders n) (hne : h.owner ≠ p) :
    (k.exitProcess p).contents n = k.contents n := by
  unfold contents exitProcess
  rw [Table.value_release_of_mem hh (decide_eq_false hne)]

theorem contents_exitProcess_of_forall (hall : ∀ h ∈ k.mappings.holders n, h.owner = p) :
    (k.exitProcess p).contents n = none := by
  unfold contents exitProcess
  rw [Table.value_release_of_forall fun h hh => decide_eq_true (hall h hh), Option.map_none]

theorem contents_of_exitProcess {m : Memory} (h : (k.exitProcess p).contents n = some m) :
    k.contents n = some m := by
  obtain ⟨m', hm', rfl⟩ := Option.map_eq_some_iff.mp h
  unfold contents
  rw [Table.value_of_value_release hm', Option.map_some]

theorem header_of_exitProcess {g : Field} {x : ℕ} (h : (k.exitProcess p).header n g = some x) :
    k.header n g = some x := by
  obtain ⟨m, hm⟩ := contents_of_header h
  rw [← h]
  exact header_congr ((contents_of_exitProcess hm).trans hm.symm) g

/-! Events. -/

theorem event_hold_of_some {b : Bool} (hb : k.events.value n = some b) (h : Holder P) (b' : Bool) :
    (k.events.hold name h b').value n = some b := by
  by_cases hn : n = name
  · subst hn
    rw [Table.value_hold_self, hb, Option.getD_some]
  · rw [Table.value_hold_of_ne hn, hb]

theorem event_of_createEvent (h : (k.createEvent p n).events.value n = some true) :
    k.events.value n = some true := by
  unfold createEvent at h
  rw [Table.value_hold_self] at h
  cases hb : k.events.value n with
  | none =>
      rw [hb] at h
      cases h
  | some b =>
      rw [hb] at h
      exact h

theorem event_of_exitProcess {b : Bool} (h : (k.exitProcess p).events.value n = some b) :
    k.events.value n = some b := Table.value_of_value_release h

theorem event_exitProcess (hh : h ∈ k.events.holders n) (hne : h.owner ≠ p) :
    (k.exitProcess p).events.value n = k.events.value n :=
  Table.value_release_of_mem hh (decide_eq_false hne)

/-! Who holds a section afterwards. -/

theorem holders_createFileMapping :
    (k.createFileMapping p size name).mappings.holders n =
      if n = name then insert (.handle p k.nextHandle) (k.mappings.holders n)
      else k.mappings.holders n := by
  unfold createFileMapping
  split
  · rename_i hn
    rw [hn, Table.holders_hold_self]
  · rename_i hn
    exact Table.holders_hold_of_ne hn

theorem holders_mapViewOfFile :
    (k.mapViewOfFile p name).mappings.holders n =
      if n = name then insert (.view p) (k.mappings.holders n) else k.mappings.holders n := by
  unfold mapViewOfFile
  split
  · rename_i hn
    rw [hn, Table.holders_hold_self]
  · rename_i hn
    exact Table.holders_hold_of_ne hn

theorem mem_holders_createFileMapping (hh : h ∈ k.mappings.holders n) :
    h ∈ (k.createFileMapping p size name).mappings.holders n := by
  rw [holders_createFileMapping]
  split
  · exact Finset.mem_insert_of_mem hh
  · exact hh

theorem mem_holders_closeHandle :
    h ∈ (k.closeHandle p id).mappings.holders n ↔
      h ∈ k.mappings.holders n ∧ h ≠ .handle p id := by
  unfold closeHandle
  rw [Table.holders_release, Finset.mem_filter, decide_eq_false_iff_not]

theorem mem_holders_exitProcess :
    h ∈ (k.exitProcess p).mappings.holders n ↔ h ∈ k.mappings.holders n ∧ h.owner ≠ p := by
  unfold exitProcess
  rw [Table.holders_release, Finset.mem_filter, decide_eq_false_iff_not]

theorem mem_eventHolders_exitProcess :
    h ∈ (k.exitProcess p).events.holders n ↔ h ∈ k.events.holders n ∧ h.owner ≠ p := by
  unfold exitProcess
  rw [Table.holders_release, Finset.mem_filter, decide_eq_false_iff_not]

/-! Which handles are open afterwards. -/

omit [DecidableEq P] in
theorem handleOpen_write : (k.write name f).HandleOpen p id ↔ k.HandleOpen p id := by
  unfold HandleOpen write
  rw [Table.held_modify]

omit [DecidableEq P] in
theorem handleOpen_setEvent : (k.setEvent name).HandleOpen p id ↔ k.HandleOpen p id := by
  unfold HandleOpen setEvent
  rw [Table.held_modify]

theorem handleOpen_createFileMapping :
    (k.createFileMapping p size name).HandleOpen p id ↔ id = k.nextHandle ∨ k.HandleOpen p id := by
  unfold HandleOpen createFileMapping
  rw [Table.held_hold, Holder.handle.injEq, and_iff_right rfl, or_assoc]

theorem handleOpen_createEvent :
    (k.createEvent p name).HandleOpen p id ↔ id = k.nextHandle ∨ k.HandleOpen p id := by
  unfold HandleOpen createEvent
  rw [Table.held_hold, Holder.handle.injEq, and_iff_right rfl, or_left_comm]

theorem handleOpen_mapViewOfFile :
    (k.mapViewOfFile p name).HandleOpen p id ↔ k.HandleOpen p id := by
  have hne : Holder.handle p id ≠ .view p := nofun
  unfold HandleOpen mapViewOfFile
  rw [Table.held_hold, or_iff_right hne]

theorem handleOpen_closeHandle {id' : ℕ} :
    (k.closeHandle p id).HandleOpen p id' ↔ k.HandleOpen p id' ∧ id' ≠ id := by
  unfold HandleOpen closeHandle
  rw [Table.held_release, Table.held_release, ← or_and_right, decide_eq_false_iff_not,
    Holder.handle.injEq, and_iff_right rfl]

/-- A new section is as large as it was asked to be, and an old one as it is. -/
theorem fits_createFileMapping :
    (k.createFileMapping p size name).fits name size = true ↔
      ∀ m, k.mappings.value name = some m → size ≤ m.size := by
  unfold createFileMapping fits
  rw [Table.value_hold_self]
  cases k.mappings.value name with
  | none => simp
  | some m => simp

end Lemmas

end Kernel

end MabTilde.Win32

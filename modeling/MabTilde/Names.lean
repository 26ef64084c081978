import Mathlib.Data.List.Nodup
import MabTilde.Lib.IntFormat

/-!
The names of the section and of the event.

Both sides derive them from the instance id: the worker by an f-string, the
C++ side, as the plan has it, by `printf`. The worker's specification is
`08u`, which is C: `u` is no type of a Python integer, so there is no id for
which `main()` gets as far as a name.
-/

namespace MabTilde

open IntFormat

variable (other : FormatSpec → ℤ → Except FormatError (List Char))

/-- `f"<stem><id:spec>"` -/
def fstring (stem spec : String) (instanceId : ℤ) : Except FormatError String := do
  let digits ← IntFormat.format other spec.toList instanceId
  return stem ++ String.ofList digits

/-- `shm_name` and `ready_event_name` of `main()`. -/
def objectNames (instanceId : ℤ) : Except FormatError (String × String) := do
  let shmName ← fstring other "MabSharedMem_" "08u" instanceId
  let readyEventName ← fstring other "MabEvent_" "08u" instanceId
  return (shmName, readyEventName)

/-- The names the C++ side looks for. -/
def cppNames (instanceId : ℕ) : String × String :=
  ("MabSharedMem_" ++ String.ofList (printfUnsigned 8 instanceId),
    "MabEvent_" ++ String.ofList (printfUnsigned 8 instanceId))

/-- The worker has names, and they are those the C++ side looks for. -/
def NamesAgree (instanceId : ℕ) : Prop :=
  objectNames other instanceId = .ok (cppNames instanceId)

def NamesDiffer (id id' : ℕ) : Prop :=
  ∃ names names', objectNames other id = .ok names ∧ objectNames other id' = .ok names' ∧
    [names.1, names.2, names'.1, names'.2].Nodup

section Lemmas

variable {other}

theorem parse_08u :
    parse "08u".toList = .ok ⟨'0', '=', '-', false, 8, none, none, 'u'⟩ := by
  decide

theorem parse_08d :
    parse "08d".toList = .ok ⟨'0', '=', '-', false, 8, none, none, 'd'⟩ := by
  decide

theorem objectNames_eq (instanceId : ℤ) :
    objectNames other instanceId = .error (.unknownCode 'u') := by
  unfold objectNames fstring
  rw [format_unknownCode parse_08u rfl rfl]
  rfl

/-- What the specification is meant to say, in Python's letter for it. -/
theorem fstring_decimal (stem : String) (id : ℕ) :
    fstring other stem "08d" id = .ok (stem ++ String.ofList (printfUnsigned 8 id)) := by
  unfold fstring
  rw [format_decimal parse_08d]
  rfl

theorem name_injective (stem : String) :
    Function.Injective fun id => stem ++ String.ofList (printfUnsigned 8 id) := by
  intro id id' h
  have hlists := congrArg String.toList h
  simp only [String.toList_append, String.toList_ofList] at hlists
  exact printfUnsigned_injective 8 (List.append_cancel_left hlists)

theorem shmName_ne_eventName (id id' : ℕ) : (cppNames id).1 ≠ (cppNames id').2 := by
  intro h
  have hlists := congrArg (fun s => s.toList[3]?) h
  simp [cppNames, String.toList_append] at hlists

/-- The names the C++ side looks for never collide. -/
theorem cppNames_nodup {id id' : ℕ} (hne : id ≠ id') :
    [(cppNames id).1, (cppNames id).2, (cppNames id').1, (cppNames id').2].Nodup := by
  have hshm : (cppNames id).1 ≠ (cppNames id').1 := fun h => hne (name_injective _ h)
  have hevent : (cppNames id).2 ≠ (cppNames id').2 := fun h => hne (name_injective _ h)
  have hcross := shmName_ne_eventName
  simp only [List.nodup_cons, List.mem_cons, List.not_mem_nil, or_false, not_or,
    not_false_eq_true, List.nodup_nil, and_true]
  exact ⟨⟨hcross id id, hshm, hcross id id'⟩, ⟨(hcross id' id).symm, hevent⟩, hcross id' id'⟩

end Lemmas

/-- No worker has the names its C++ side looks for, and no two have different
ones, for none has any. -/
theorem names_undefined (id id' : ℕ) :
    ¬ NamesAgree other id ∧ ¬ NamesDiffer other id id' := by
  refine ⟨?_, ?_⟩
  · intro h
    rw [NamesAgree, objectNames_eq] at h
    cases h
  · rintro ⟨names, names', h, -⟩
    rw [objectNames_eq] at h
    cases h

/-- Instance 7 raises where the C++ side waits for `MabSharedMem_00000007`. -/
theorem instance_without_names :
    objectNames (fun _ _ => .ok []) 7 = .error (.unknownCode 'u') ∧
      cppNames 7 = ("MabSharedMem_00000007", "MabEvent_00000007") ∧
      ¬ NamesAgree (fun _ _ => .ok []) 7 ∧ ¬ NamesDiffer (fun _ _ => .ok []) 7 8 := by
  have hraises : ∀ id : ℤ, objectNames (fun _ _ => .ok []) id = .error (.unknownCode 'u') :=
    fun _ => objectNames_eq _
  refine ⟨hraises 7, by decide, ?_, ?_⟩
  · intro h
    cases (hraises 7).symm.trans h
  · rintro ⟨names, names', h, -⟩
    cases (hraises 7).symm.trans h

end MabTilde

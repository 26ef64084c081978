import MabTilde.Lifecycle

/-!
What the worker changes in the memory of the session, over whole runs.

The header is stored before the numpy views are built, and only their
construction looks at the signs of the arguments. A product of `block_size` and
`num_channels` that is a little below zero asks for a section that is smaller
than the header, and the stores go past its end; one that is further below
asks, modulo `2 ^ 32`, for gigabytes. With any other product the worker keeps
to the header fields and its output buffer, whatever fails and whatever the C++
side does in between; and when it ends, by a failure or a kill, it takes nothing
with it but the sections nobody else has open.
-/

namespace MabTilde.Lifecycle

open Bytes NamedObjects Win32

/-- Where the last field of the header ends. Behind it lies the padding. -/
def fieldsEnd : ℕ := Side.python.layout.endFrom 0 Side.python.layout.fields

/-- The bytes a worker may change: the header fields and the output buffer, in
as much of the section as it asked for. -/
def Writable (sm : SharedMemoryManager) (i : ℕ) : Prop :=
  i < sm.request ∧
    (i < fieldsEnd ∨ (sm.outputOffset ≤ i ∧ (i : ℤ) < sm.outputOffset + sm.outputSize))

/-- No section of the session is lost, and what changes are bytes of the one
under `name` that satisfy `R`. -/
def ChangesIn (name : String) (R : ℕ → Prop) (k k' : Kernel Proc) : Prop :=
  ∀ n m, k.contents n = some m →
    ∃ m', k'.contents n = some m' ∧ ∀ i, m' i ≠ m i → n = name ∧ R i

/-- A section that others hold stays as it is, one that only the worker held is
gone. -/
def Bequeaths (k k' : Kernel Proc) : Prop :=
  ∀ n m, k.contents n = some m →
    k'.contents n = some m ∨
      (k'.contents n = none ∧ ∀ h ∈ k.mappings.holders n, h.owner = .worker)

/-- A step of `main()` that succeeds changes nothing but what the worker may, and
one that fails, or a kill, changes nothing. -/
structure Confined (sm : SharedMemoryManager) (s : World) (a : Act) (s' : World) : Prop where
  returns : ∀ row, a = .returns row → ChangesIn sm.shmName (Writable sm) s.kernel s'.kernel
  ends : a = .ends → Bequeaths s.kernel s'.kernel

/-- What `main()` has checked where it stands, and the channel it is at. -/
def Placed (sm : SharedMemoryManager) : Pc → Prop
  | .createFileMapping => True
  | .mapViewOfFile | .initHeader _ | .getViews => sm.convertible = true
  | .inferBlock ch | .writeBack ch =>
      sm.convertible = true ∧ sm.hasViews = true ∧ ch < sm.numChannels.toNat
  | _ => sm.convertible = true ∧ sm.hasViews = true

section Changes

variable {name : String} {R : ℕ → Prop} {k : Kernel Proc} {f : Memory → Memory}

theorem changesIn_of_contents {k' : Kernel Proc}
    (h : ∀ n m, k.contents n = some m → k'.contents n = k.contents n) :
    ChangesIn name R k k' := by
  intro n m hm
  exact ⟨m, (h n m hm).trans hm, fun i hi => absurd rfl hi⟩

theorem changesIn_refl : ChangesIn name R k k := changesIn_of_contents fun _ _ _ => rfl

theorem changesIn_write (hf : ∀ m i, f m i ≠ m i → R i) :
    ChangesIn name R k (k.write name f) := by
  intro n m hm
  by_cases hn : n = name
  · subst hn
    refine ⟨f m, ?_, ?_⟩
    · rw [Kernel.contents_write_self, hm, Option.map_some]
    · intro i hi
      exact ⟨rfl, hf m i hi⟩
  · exact ⟨m, (Kernel.contents_write_of_ne hn).trans hm, fun i hi => absurd rfl hi⟩

theorem bequeaths_exitProcess : Bequeaths k (k.exitProcess .worker) := by
  intro n m hm
  by_cases hall : ∀ h ∈ k.mappings.holders n, h.owner = .worker
  · exact .inr ⟨Kernel.contents_exitProcess_of_forall hall, hall⟩
  · push Not at hall
    obtain ⟨h, hh, hne⟩ := hall
    exact .inl ((Kernel.contents_exitProcess hh hne).trans hm)

theorem exists_holder {n : String} {m : Memory} (hm : k.contents n = some m) :
    ∃ h, h ∈ k.mappings.holders n := by
  obtain ⟨v, hv, -⟩ := Option.map_eq_some_iff.mp hm
  exact Table.exists_mem_of_value hv

end Changes

section Sizes

variable {sm : SharedMemoryManager} {ch i : ℕ}

theorem totalSize_eq : sm.totalSize = 60 + 8 * (sm.blockSize * sm.numChannels) := by
  have hheader : SharedMemoryManager.headerSize = 60 := rfl
  rw [SharedMemoryManager.totalSize, SharedMemoryManager.inputSize,
    SharedMemoryManager.outputSize, hheader]
  push_cast
  omega

/-- The section asked for has room for the header fields but in three cases. -/
theorem fieldsEnd_le_request_iff (hconv : sm.convertible = true) :
    fieldsEnd ≤ sm.request ↔
      ¬ (-7 ≤ sm.blockSize * sm.numChannels ∧ sm.blockSize * sm.numChannels ≤ -5) := by
  have hend : fieldsEnd = 27 := rfl
  simp only [SharedMemoryManager.convertible, Bool.and_eq_true, decide_eq_true_eq,
    totalSize_eq] at hconv
  rw [SharedMemoryManager.request, totalSize_eq, hend]
  omega

theorem totalSize_nonneg (hviews : sm.hasViews = true) : 0 ≤ sm.totalSize := by
  simp only [SharedMemoryManager.hasViews, Bool.and_eq_true, decide_eq_true_eq] at hviews
  have hmul : 0 ≤ sm.blockSize * sm.numChannels := Int.mul_nonneg hviews.1 hviews.2
  rw [totalSize_eq]
  omega

theorem request_eq (hconv : sm.convertible = true) (hviews : sm.hasViews = true) :
    (sm.request : ℤ) = sm.totalSize := by
  have hpos := totalSize_nonneg hviews
  simp only [SharedMemoryManager.convertible, Bool.and_eq_true, decide_eq_true_eq] at hconv
  rw [SharedMemoryManager.request]
  omega

theorem lt_fieldsEnd_of_write {m : Memory} {f : Field} {v : BitVec 32}
    (hi : Side.python.write m f v i ≠ m i) : i < fieldsEnd := by
  by_contra hle
  have hend : Side.python.layout.offset f + Side.python.layout.size f ≤ fieldsEnd := by
    cases f <;> decide
  exact hi (store_of_not_mem (.inr (by omega)))

theorem mem_output_of_writeRow {m : Memory} {row : List (BitVec 32)}
    (hviews : sm.hasViews = true) (hch : ch < sm.numChannels.toNat)
    (hi : sm.writeRow ch row m i ≠ m i) :
    sm.outputOffset ≤ i ∧ (i : ℤ) < sm.outputOffset + sm.outputSize := by
  simp only [SharedMemoryManager.hasViews, Bool.and_eq_true, decide_eq_true_eq] at hviews
  have hoffset : (sm.outputOffset.toNat : ℤ) = sm.outputOffset := by
    apply Int.toNat_of_nonneg
    have hmul : 0 ≤ sm.blockSize * sm.numChannels := Int.mul_nonneg hviews.1 hviews.2
    rw [SharedMemoryManager.outputOffset, SharedMemoryManager.inputSize]
    omega
  have hsize : sm.outputSize = ((4 * (sm.numChannels.toNat * sm.blockSize.toNat) : ℕ) : ℤ) := by
    rw [SharedMemoryManager.outputSize]
    push_cast
    rw [Int.toNat_of_nonneg hviews.1, Int.toNat_of_nonneg hviews.2, Int.mul_comm sm.blockSize,
      Int.mul_comm 4]
  -- the rows before this one and its own samples
  have hrows := Nat.mul_le_mul_right sm.blockSize.toNat hch
  rw [Nat.succ_mul] at hrows
  have hlen : (row.take sm.blockSize.toNat).length ≤ sm.blockSize.toNat := by
    rw [List.length_take]
    exact Nat.min_le_left _ _
  have haddr : sm.outputRowAddr ch = sm.outputOffset.toNat + 4 * (ch * sm.blockSize.toNat) := rfl
  by_contra hout
  apply hi
  apply storeWords_of_not_mem
  omega

end Sizes

section Steps

variable {sm : SharedMemoryManager} {pc pc' : Pc} {row : List (BitVec 32)} {k k' : Kernel Proc}

theorem placed_loopFrom {ch : ℕ} (hconv : sm.convertible = true) (hviews : sm.hasViews = true) :
    Placed sm (loopFrom sm.numChannels ch) := by
  unfold loopFrom
  split
  · rename_i hch
    exact ⟨hconv, hviews, hch⟩
  · exact ⟨hconv, hviews⟩

theorem placed_advance (h : Placed sm pc) (ha : advance ⟨sm, pc⟩ row k = some (pc', k')) :
    Placed sm pc' := by
  cases pc with
  | createFileMapping =>
      simp only [advance, Option.ite_none_right_eq_some, Option.some.injEq, Prod.mk.injEq] at ha
      exact ha.2.1 ▸ ha.1
  | mapViewOfFile =>
      obtain ⟨rfl, -⟩ := advance_mapViewOfFile ha
      exact h
  | initHeader i =>
      rcases advance_initHeader ha with ⟨-, -, rfl, -⟩ | ⟨-, rfl, -⟩
      · exact h
      · exact h
  | getViews =>
      obtain ⟨hviews, rfl, -⟩ := advance_getViews ha
      exact ⟨h, hviews⟩
  | poll =>
      simp only [advance] at ha
      split at ha
      · cases ha
        exact placed_loopFrom h.1 h.2
      · cases ha
        exact h
  | inferBlock ch =>
      cases ha
      exact h
  | writeBack ch =>
      cases ha
      exact placed_loopFrom h.1 h.2.1
  | _ =>
      cases ha
      exact h

theorem changesIn_storeField {f : Field} {v : BitVec 32} (hroom : fieldsEnd ≤ sm.request) :
    ChangesIn sm.shmName (Writable sm) k (k.storeField sm.shmName f v) := by
  apply changesIn_write
  intro m i hi
  have hlt := lt_fieldsEnd_of_write hi
  exact ⟨by omega, .inl hlt⟩

/-- Each step of `main()` keeps to what the worker may change. -/
theorem changesIn_advance (h : Placed sm pc)
    (hroom : sm.convertible = true → fieldsEnd ≤ sm.request)
    (ha : advance ⟨sm, pc⟩ row k = some (pc', k')) :
    ChangesIn sm.shmName (Writable sm) k k' := by
  cases pc with
  | createFileMapping =>
      obtain ⟨-, rfl⟩ := advance_createFileMapping ha
      apply changesIn_of_contents
      intro n m hm
      obtain ⟨hd, hh⟩ := exists_holder hm
      exact Kernel.contents_createFileMapping hh
  | mapViewOfFile =>
      obtain ⟨-, rfl⟩ := advance_mapViewOfFile ha
      apply changesIn_of_contents
      intro n m hm
      obtain ⟨hd, hh⟩ := exists_holder hm
      exact Kernel.contents_mapViewOfFile hh
  | initHeader i =>
      rcases advance_initHeader ha with ⟨f, -, -, rfl⟩ | ⟨-, -, rfl⟩
      · exact changesIn_storeField (hroom h)
      · exact changesIn_refl
  | getViews =>
      obtain ⟨-, -, rfl⟩ := advance_getViews ha
      exact changesIn_refl
  | poll =>
      obtain ⟨-, rfl⟩ := advance_poll ha
      exact changesIn_refl
  | writeBack ch =>
      cases ha
      obtain ⟨hconv, hviews, hch⟩ := h
      apply changesIn_write
      intro m i hi
      have hout := mem_output_of_writeRow hviews hch hi
      have hrequest := request_eq hconv hviews
      have htotal : sm.totalSize = sm.outputOffset + sm.outputSize := rfl
      exact ⟨by omega, .inr hout⟩
  | createEvent | setEvent | loadModel | inferBlock ch =>
      cases ha
      exact changesIn_of_contents fun _ _ _ => rfl
  | setPythonReady | setOutputReady | clearInputReady =>
      cases ha
      exact changesIn_storeField (hroom h.1)

end Steps

def Launched (sm : SharedMemoryManager) (s : World) : Prop :=
  ∀ sm' pc, s.worker = some ⟨sm', pc⟩ → sm' = sm ∧ Placed sm pc

section Run

variable {sm : SharedMemoryManager} {s s' : World} {a : Act} {k : Kernel Proc}

theorem launched_start : Launched sm ⟨k, some ⟨sm, .createFileMapping⟩⟩ := by
  rintro _ _ ⟨⟩
  exact ⟨rfl, True.intro⟩

theorem launched_step (hI : Launched sm s)
    (h : lifetimeStep sm.shmName sm.readyEventName s a = some s') : Launched sm s' := by
  rcases lifetimeStep_cases h with ⟨sm', pc, pc', row, rfl, hw, ha, hw'⟩ | ⟨rfl, -, rfl⟩ |
    ⟨-, hw, -⟩
  · obtain ⟨rfl, hplaced⟩ := hI _ _ hw
    intro sm'' pc'' hww
    cases hw'.symm.trans hww
    exact ⟨rfl, placed_advance hplaced ha⟩
  · rintro _ _ ⟨⟩
  · intro sm' pc hww
    exact hI sm' pc (hw ▸ hww)

theorem confined_step (hI : Launched sm s)
    (hroom : sm.convertible = true → fieldsEnd ≤ sm.request)
    (h : lifetimeStep sm.shmName sm.readyEventName s a = some s') : Confined sm s a s' := by
  rcases lifetimeStep_cases h with ⟨sm', pc, pc', row', rfl, hw, ha, hw'⟩ | ⟨rfl, -, rfl⟩ |
    ⟨hcpp, -, -⟩
  · obtain ⟨rfl, hplaced⟩ := hI _ _ hw
    exact ⟨fun _ _ => changesIn_advance hplaced hroom ha, by rintro ⟨⟩⟩
  · exact ⟨by rintro _ ⟨⟩, fun _ => bequeaths_exitProcess⟩
  · refine ⟨?_, ?_⟩
    · rintro row rfl
      cases hcpp
    · rintro rfl
      cases hcpp

def ZeroBehind (sm : SharedMemoryManager) (s : World) : Prop :=
  ∃ m, s.kernel.contents sm.shmName = some m ∧ ∀ i, sm.request ≤ i → m i = 0

theorem zeroBehind_step {row : List (BitVec 32)} (hI : ZeroBehind sm s)
    (hconf : Confined sm s (.returns row) s') : ZeroBehind sm s' := by
  obtain ⟨m, hm, hzero⟩ := hI
  obtain ⟨m', hm', hchanges⟩ := hconf.returns row rfl _ _ hm
  refine ⟨m', hm', ?_⟩
  intro i hi
  by_contra hne
  have hdiff : m' i ≠ m i := by rw [hzero i hi]; exact hne
  have hlt := (hchanges i hdiff).2.1
  omega

def prepared (sm : SharedMemoryManager) : Kernel Proc :=
  Kernel.init.createFileMapping .cpp sm.request sm.shmName

theorem contents_prepared : (prepared sm).contents sm.shmName = some fun _ => 0 := by
  unfold prepared Kernel.contents Kernel.createFileMapping
  rw [Table.value_hold_self]
  rfl

theorem create_prepared (hconv : sm.convertible = true) :
    (sm.create Proc.worker true true Attributes.init (prepared sm)).1 = some true := by
  apply SharedMemoryManager.create_eq_true_iff.mpr
  refine ⟨hconv, rfl, rfl, ?_⟩
  apply Kernel.fits_createFileMapping.mpr
  intro m hm
  unfold prepared Kernel.createFileMapping at hm
  rw [Table.value_hold_self] at hm
  cases hm
  exact le_refl _

end Run

/-- In every run, from whatever there is in the session, the worker changes
only header fields and its output buffer, in as much of the section as it asked
for, and leaves every section to those who have it open, exactly if the product of
its arguments is not one of three. -/
theorem confined_iff (sm : SharedMemoryManager) :
    (∀ k acts, Runs.EachStep (lifetimeStep sm.shmName sm.readyEventName) (Confined sm)
        ⟨k, some ⟨sm, .createFileMapping⟩⟩ acts) ↔
      ¬ (-7 ≤ sm.blockSize * sm.numChannels ∧ sm.blockSize * sm.numChannels ≤ -5) := by
  refine ⟨?_, ?_⟩
  · intro hall hsmall
    -- `create()` in a session where the section is there, and zero
    have hconv : sm.convertible = true := by
      simp only [SharedMemoryManager.convertible, Bool.and_eq_true, decide_eq_true_eq,
        totalSize_eq]
      omega
    have hcreate := create_prepared hconv
    have hexec : Runs.exec (lifetimeStep sm.shmName sm.readyEventName)
        ⟨prepared sm, some ⟨sm, .createFileMapping⟩⟩ (List.replicate 12 (.returns [])) =
          some ⟨(sm.create .worker true true Attributes.init (prepared sm)).2.2,
            some ⟨sm, .getViews⟩⟩ := exec_create hcreate
    have hreturns : Runs.EachStep (lifetimeStep sm.shmName sm.readyEventName)
        (fun _ a _ => a = .returns []) ⟨prepared sm, some ⟨sm, .createFileMapping⟩⟩
        (List.replicate 12 (.returns [])) :=
      Runs.EachStep.of_forall fun a ha _ _ => List.eq_of_mem_replicate ha
    obtain ⟨m, hm, hzero⟩ := Runs.exec_invariant (I := ZeroBehind sm)
      (fun s a s' hI _ hG => zeroBehind_step hI (hG.2 ▸ hG.1))
      ⟨_, contents_prepared, fun _ _ => rfl⟩ ((hall _ _).and hreturns) hexec
    -- the field the section ends before
    have hfield := SharedMemoryManager.header_create hcreate .outputOffset
    have hload : Side.python.layout.load m .outputOffset = 0 := by
      apply load_eq_zero_iff.mpr
      intro i hi _
      apply hzero
      have hoffset : Side.python.layout.offset .outputOffset = 20 := rfl
      rw [SharedMemoryManager.request, totalSize_eq]
      omega
    have hvalue : (sm.headerValue .outputOffset).toNat =
        (60 + 4 * (sm.blockSize * sm.numChannels)).toNat := by
      have hheader : SharedMemoryManager.headerSize = 60 := rfl
      rw [SharedMemoryManager.headerValue, SharedMemoryManager.outputOffset,
        SharedMemoryManager.inputSize, hheader, BitVec.toNat_ofInt]
      push_cast
      omega
    rw [Kernel.header_of_contents hm, Side.read, hload, hvalue, Option.some.injEq] at hfield
    have hmeaning : ∀ n, Field.outputOffset.meaning n = n := fun _ => rfl
    rw [hmeaning, hmeaning] at hfield
    omega
  · intro hlarge k acts
    have hroom : sm.convertible = true → fieldsEnd ≤ sm.request := fun hconv =>
      (fieldsEnd_le_request_iff hconv).mpr hlarge
    exact Runs.EachStep.imp (fun _ _ _ hI h _ => launched_step hI h)
      (fun _ _ _ hI h _ => confined_step hI hroom h) launched_start (Runs.EachStep.trivial _ _)

end MabTilde.Lifecycle

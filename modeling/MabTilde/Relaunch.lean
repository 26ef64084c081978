import MabTilde.EndToEnd
import MabTilde.Exchange.Response
import MabTilde.Handshake
import MabTilde.Recovery

/-!
What the exchange loses when the worker is relaunched.

A C++ side that has attached keeps the section open, so it survives the worker,
with the flags and the block it holds. The next worker stores the whole header
again, and with it `is_input_ready = False`: what is outstanding at that moment
is dropped, whether it had been inferred or not. Nothing else is lost, and
nothing is served twice, for before that store no worker reads the input.
-/

namespace MabTilde.Exchange

variable {C : ℕ} {Row Out : Type} {m : Shared C Row} {w : Worker C Row Out} {p : InputSide C Row}

theorem InputInv.restart (h : InputInv m w p) : ∃ j, j ≤ w.inferred.length ∧
    j ≤ p.published.length ∧
    InputInv m (Worker.init : Worker C Row Out) { p with published := p.published.drop j } := by
  by_cases hflag : m.isInputReady = true
  · obtain ⟨before, hpub, -⟩ := h.outstanding hflag
    have hone := h.faithful.oneOutstanding
    have hlen : p.published.length = before.length + 1 := by
      rw [hpub, List.length_append, List.length_singleton]
    refine ⟨before.length, by omega, by omega, h.writing, fun hne => absurd rfl hne, ?_, ?_⟩
    · intro hno
      rw [hflag] at hno
      cases hno
    · intro _
      refine ⟨[], ?_, rfl⟩
      show p.published.drop before.length = _
      rw [hpub, List.drop_left, List.nil_append]
  · have hset := h.settled (by simpa using hflag)
    refine ⟨p.published.length, ?_, le_refl _, h.writing, fun hne => absurd rfl hne, ?_,
      fun hf => absurd hf hflag⟩
    · rw [hset, List.length_map]
    · intro _
      show [] = (p.published.drop p.published.length).map rowsOf
      rw [List.drop_length, List.map_nil]

theorem InputInv.reset (h : InputInv m w p) :
    InputInv { m with isInputReady := false } (Worker.init : Worker C Row Out)
      { p with published := [] } where
  writing b written hpc := ⟨rfl, (h.writing b written hpc).2⟩
  busy hne := absurd rfl hne
  settled _ := rfl
  outstanding hf := absurd hf Bool.false_ne_true

end MabTilde.Exchange

namespace MabTilde.Samples

open Bytes

variable {sm : SharedMemoryManager}

def Callback.since (c : Callback sm) (n : ℕ) : Callback sm :=
  { c with fill := { c.fill with published := c.fill.published.drop n } }

theorem fillStep_since {side : Side} {p p' : FillSide sm} {a : FillAct sm} {mem mem' : Memory}
    {n : ℕ} (hn : n ≤ p.published.length) (hs : fillStep side p a mem = some (p', mem')) :
    fillStep side { p with published := p.published.drop n } a mem =
      some ({ p' with published := p'.published.drop n }, mem') := by
  obtain ⟨pc, published⟩ := p
  cases pc with
  | idle =>
      cases a with
      | load b =>
          simp only [fillStep] at hs ⊢
          split at hs <;> cases hs <;> simp_all
      | writeSample ch i => simp [fillStep] at hs
      | publish => simp [fillStep] at hs
  | writing b written =>
      cases a with
      | load b' => simp [fillStep] at hs
      | writeSample ch i =>
          cases hs
          rfl
      | publish =>
          simp only [fillStep] at hs ⊢
          split at hs <;> cases hs
          rename_i hall
          rw [if_pos hall, List.drop_append_of_le_length hn]

/-- The steps of the exchange do not look at what was published before. -/
theorem step_since {model : Model} {m m' : Memory}
    {w w' : Worker sm.numChannels.toNat sm.blockSize.toNat} {c c' : Callback sm}
    {b : Exchange.Turn (CallbackAct sm)} {n : ℕ} (hn : n ≤ c.fill.published.length)
    (hs : step model .python ⟨m, w, c⟩ b = some ⟨m', w', c'⟩) :
    step model .python ⟨m, w, c.since n⟩ b = some ⟨m', w', c'.since n⟩ := by
  cases b with
  | worker =>
      obtain ⟨r, hr, heq⟩ := Option.map_eq_some_iff.mp hs
      cases heq
      exact Option.map_eq_some_iff.mpr ⟨_, hr, rfl⟩
  | cpp a =>
      obtain ⟨r, hr, heq⟩ := Option.map_eq_some_iff.mp hs
      cases heq
      refine Option.map_eq_some_iff.mpr ⟨(r.1.since n, r.2), ?_, rfl⟩
      cases a with
      | fill a =>
          obtain ⟨r', hr', rfl⟩ := Option.map_eq_some_iff.mp hr
          exact Option.map_eq_some_iff.mpr ⟨_, fillStep_since hn hr', rfl⟩
      | copy a =>
          obtain ⟨r', hr', rfl⟩ := Option.map_eq_some_iff.mp hr
          exact Option.map_eq_some_iff.mpr ⟨_, hr', rfl⟩
      | storeOutputReady v =>
          cases hr
          rfl

end MabTilde.Samples

namespace MabTilde.EndToEnd

open Bytes NamedObjects Win32 Lifecycle Samples

variable (sm : SharedMemoryManager)

/-- Any number of workers one after the other, each with a model of its own. -/
structure Lives where
  system : System sm
  model : Model
  /-- What the workers that were replaced had inferred. -/
  past : List (List (List (Row sm)))

inductive LivesAct
  | within (a : Act sm)
  /-- `main()` is launched again, with the arguments of the one that has ended. -/
  | relaunch (model : Model)

variable {sm}

def Lives.inferred (s : Lives sm) : List (List (Row sm)) :=
  s.past.flatten ++ s.system.main.worker.inferred

def livesStep (s : Lives sm) : LivesAct sm → Option (Lives sm)
  | .within a => (step s.model s.system a).map fun r => { s with system := r }
  | .relaunch model =>
      match s.system.main with
      | .ended w => some
          { system := { s.system with main := .starting .createFileMapping }
            model := model
            past := s.past ++ [w.inferred] }
      | _ => none

/-- What a step keeps, over all lives: the blocks inferred are published ones,
each at most once and in order; beside the one outstanding no more are missing
than workers have been replaced; the rows read are those of the last block; and
they do not change under the worker's views. -/
structure Recovered (s s' : Lives sm) : Prop where
  inOrder : s'.inferred.Sublist (s'.system.cpp.fill.published.map Exchange.rowsOf)
  lost : s'.system.cpp.fill.published.length ≤ s'.inferred.length + s'.past.length + 1
  whole : s'.system.main.worker.pc ≠ .poll → ∃ b,
    s'.system.cpp.fill.published.getLast? = some b ∧
      s'.system.main.worker.rows <+: Exchange.rowsOf b
  stable : s.system.main.worker.pc ≠ .poll → ∀ m m',
    s.system.kernel.contents sm.shmName = some m →
      s'.system.kernel.contents sm.shmName = some m' → block sm .input m' = block sm .input m

def beforeReset : Pc → Bool
  | .createFileMapping | .mapViewOfFile => true
  | .initHeader i => decide (i ≤ 6)
  | _ => false

/-- The section is a state of the exchange, as it would be without the first `n`
blocks. -/
structure Carried (outs : Block sm) (s : System sm) (n : ℕ)
    (t : Exchange.State sm.numChannels.toNat (Row sm) Tensor
      (Exchange.InputSide sm.numChannels.toNat (Row sm))) : Prop where
  held : s.attached = true → HoldsMapping sm.shmName s.kernel
  apart : s.attached = false → s.cpp = Callback.init sm outs
  inv : Exchange.InputInv t.shared t.worker t.cpp
  worker : t.worker = coarse s.main.worker
  published : t.cpp.published = s.cpp.fill.published.drop n
  le : n ≤ s.cpp.fill.published.length
  agrees : ∀ m, s.kernel.contents sm.shmName = some m →
    Agrees m s.main.worker (s.cpp.since n).fill t.shared t.cpp

theorem index_isInputReady {i : ℕ} (h : Field.all[i]? = some .isInputReady) : i = 6 := by
  obtain ⟨hi, -⟩ := List.getElem?_eq_some_iff.mp h
  have hnine : Field.all.length = 9 := rfl
  rw [hnine] at hi
  have hall : ∀ j < 9, Field.all[j]? = some .isInputReady → j = 6 := by decide
  exact hall i hi h

section Carried

variable {model : Model} {outs : Block sm} {s s' : System sm} {n : ℕ} {m m' : Memory}
  {t : Exchange.State sm.numChannels.toNat (Row sm) Tensor
    (Exchange.InputSide sm.numChannels.toNat (Row sm))} {a : Act sm} {pc pc' : Pc}
  {k' : Kernel Proc}

theorem Carried.of_kept (h : Carried outs s n t) (hmain : s'.main.worker = s.main.worker)
    (hcpp : s'.cpp = s.cpp) (hheld : s'.attached = true → HoldsMapping sm.shmName s'.kernel)
    (hattached : s'.attached = false → s.attached = false)
    (hcontents : ∀ m, s'.kernel.contents sm.shmName = some m →
      s.kernel.contents sm.shmName = some m) : Carried outs s' n t where
  held := hheld
  apart hno := hcpp.trans (h.apart (hattached hno))
  inv := h.inv
  worker := by rw [hmain, h.worker]
  published := by rw [hcpp, h.published]
  le := by rw [hcpp]; exact h.le
  agrees m hm := by
    rw [hmain, hcpp]
    exact h.agrees m (hcontents m hm)

theorem Carried.turn {b : Exchange.Turn (CallbackAct sm)} (h : Carried outs s n t)
    (hs : Turns model s a s' b m m') : (∃ t', Carried outs s' n t') ∧
      s.cpp.fill.published <+: s'.cpp.fill.published ∧
      (s.main.worker.pc ≠ .poll → block sm .input m' = block sm .input m) := by
  have hstep := step_since h.le hs.turn
  have hgrow := published_step hs.turn
  have hR : InputAgrees ⟨m, s.main.worker, s.cpp.since n⟩ t := ⟨h.worker, h.agrees m hs.contents⟩
  obtain ⟨t', hI', hR'⟩ := (input_refines model).matched h.inv hR hstep True.intro
  refine ⟨⟨t', ?_, ?_, hI', hR'.worker, hR'.agrees.published, h.le.trans hgrow.length_le, ?_⟩,
    hgrow, input_stable h.inv hR hstep⟩
  · rw [hs.attached]
    rintro hattached
    obtain ⟨hd, hh, howner⟩ := h.held hattached
    exact ⟨hd, hs.holders ▸ hh, howner⟩
  · intro hno
    rw [hs.attached] at hno
    exact (hs.apart hno).trans (h.apart hno)
  · intro m'' hm''
    obtain rfl := Option.some.inj (hs.contents'.symm.trans hm'')
    exact hR'.agrees

theorem Carried.ends (h : Carried outs s n t) :
    Carried outs { s with
      main := .ended s.main.worker, kernel := s.kernel.exitProcess .worker } n t := by
  refine h.of_kept rfl rfl ?_ id fun m hm => Kernel.contents_of_exitProcess hm
  intro hattached
  obtain ⟨hd, hh, howner⟩ := h.held hattached
  refine ⟨hd, Kernel.mem_holders_exitProcess.mpr ⟨hh, ?_⟩, howner⟩
  rw [howner]
  decide

theorem worker_enter (pc : Pc) : (Main.enter pc : Main sm).worker = .init := by
  cases pc <;> rfl

theorem holdsMapping_advance (h : s.attached = true → HoldsMapping sm.shmName s.kernel)
    (ha : advance ⟨sm, pc⟩ [] s.kernel = some (pc', k')) :
    s.attached = true → HoldsMapping sm.shmName k' := by
  intro hattached
  obtain ⟨hd, hh, howner⟩ := h hattached
  exact ⟨hd, (grows_advance ha).mappings _ hd hh, howner⟩

/-- The steps of the start-up: the section is opened or created, `is_input_ready`
is stored, and all others leave it and the audio alone. -/
theorem starting_cases {k : Kernel Proc} (hpc : pc.stage ≤ 7)
    (ha : advance ⟨sm, pc⟩ [] k = some (pc', k')) :
    (pc = .createFileMapping ∧ pc' = .mapViewOfFile ∧
      k' = k.createFileMapping .worker sm.request sm.shmName) ∨
    (pc = .initHeader 6 ∧ pc' = .initHeader 7 ∧ k' = k.storeField sm.shmName .isInputReady 0) ∨
    (beforeReset pc' = beforeReset pc ∧ (pc'.stage ≤ 7 ∨ pc' = .poll) ∧
      (k'.contents sm.shmName = k.contents sm.shmName ∨
        ∃ f v, f ≠ .isInputReady ∧ k' = k.storeField sm.shmName f v)) := by
  cases pc with
  | createFileMapping =>
      obtain ⟨rfl, rfl⟩ := advance_createFileMapping ha
      exact .inl ⟨rfl, rfl, rfl⟩
  | mapViewOfFile =>
      have hfits : k.fits sm.shmName sm.request = true := by
        simp only [advance, Option.ite_none_right_eq_some] at ha
        exact ha.1
      obtain ⟨rfl, rfl⟩ := advance_mapViewOfFile ha
      obtain ⟨z, hz, -⟩ := fits_iff.mp hfits
      obtain ⟨v, hv, -⟩ := Option.map_eq_some_iff.mp hz
      obtain ⟨hd, hh⟩ := Table.exists_mem_of_value hv
      exact .inr (.inr ⟨rfl, .inl (by decide), .inl (Kernel.contents_mapViewOfFile hh)⟩)
  | initHeader i =>
      rcases advance_initHeader ha with ⟨f, hf, rfl, rfl⟩ | ⟨hlen, rfl, rfl⟩
      · by_cases hi : i = 6
        · subst hi
          cases hf
          exact .inr (.inl ⟨rfl, rfl, rfl⟩)
        · refine .inr (.inr ⟨?_, .inl (by simp [Pc.stage]), .inr ⟨f, _, ?_, rfl⟩⟩)
          · show decide (i + 1 ≤ 6) = decide (i ≤ 6)
            exact decide_eq_decide.mpr (by omega)
          · rintro rfl
            exact hi (index_isInputReady hf)
      · have hnine : Field.all.length = 9 := rfl
        refine .inr (.inr ⟨?_, .inl (by decide), .inl rfl⟩)
        exact (decide_eq_false (by omega)).symm
  | getViews =>
      obtain ⟨-, rfl, rfl⟩ := advance_getViews ha
      exact .inr (.inr ⟨rfl, .inl (by decide), .inl rfl⟩)
  | createEvent | setEvent =>
      cases ha
      exact .inr (.inr ⟨rfl, .inl (by decide), .inl rfl⟩)
  | setPythonReady =>
      cases ha
      exact .inr (.inr ⟨rfl, .inl (by decide), .inr ⟨_, _, by decide, rfl⟩⟩)
  | loadModel =>
      cases ha
      exact .inr (.inr ⟨rfl, .inr rfl, .inl rfl⟩)
  | _ => exact absurd hpc (by simp [Pc.stage])

theorem Carried.createFileMapping (h : Carried outs s n t)
    (hmain : s.main = .starting .createFileMapping)
    (hheld : s.attached = true → HoldsMapping sm.shmName
      (s.kernel.createFileMapping .worker sm.request sm.shmName)) :
    ∃ t', Carried outs { s with
      main := .enter .mapViewOfFile
      kernel := s.kernel.createFileMapping .worker sm.request sm.shmName } n t' := by
  have hworker : s.main.worker = .init := by rw [hmain]; rfl
  cases hm : s.kernel.contents sm.shmName with
  | some m =>
      refine ⟨t, h.of_kept hworker.symm rfl hheld id ?_⟩
      intro m' hm'
      rw [Kernel.contents_createFileMapping_eq, hm] at hm'
      rw [hm, ← hm']
      rfl
  | none =>
      -- the C++ side has nothing open, so it has published nothing
      have hno : s.attached = false := by
        by_contra hyes
        obtain ⟨hd, hh, -⟩ := h.held (by simpa using hyes)
        obtain ⟨v, hv⟩ := Table.value_isSome_of_mem hh
        rw [Kernel.contents, hv] at hm
        cases hm
      have hcpp := h.apart hno
      have hzero : ∀ f, Side.python.read (fun _ => 0) f = 0 := by
        intro f
        cases f <;> rfl
      have hle := h.le
      rw [hcpp] at hle
      obtain rfl : n = 0 := Nat.le_zero.mp hle
      have hagrees : InputAgrees (State.init (fun _ => 0) outs) _ :=
        agrees_of_flags (hzero .isInputReady) (hzero .isOutputReady)
      refine ⟨Exchange.slotInit (block sm .input fun _ => 0) (block sm .output fun _ => 0),
        hheld, h.apart, Exchange.inputInv_init _ _, rfl, ?_, ?_, ?_⟩
      · show [] = s.cpp.fill.published.drop 0
        rw [hcpp]
        rfl
      · exact Nat.zero_le _
      · intro m hm'
        rw [Kernel.contents_createFileMapping_eq, hm] at hm'
        obtain rfl := Option.some.inj hm'
        show Agrees _ _ (s.cpp.since 0).fill _ _
        rw [hcpp]
        exact hagrees.agrees

theorem Carried.storeField {f : Field} {v : BitVec 32} (h : Carried outs s n t)
    (hmain : s.main = .starting pc) (hf : f ≠ .isInputReady)
    (hheld : s.attached = true → HoldsMapping sm.shmName (s.kernel.storeField sm.shmName f v)) :
    ∃ t', Carried outs { s with
      main := .enter pc', kernel := s.kernel.storeField sm.shmName f v } n t' := by
  have hworker : s.main.worker = (Main.enter pc' : Main sm).worker := by
    rw [hmain, worker_enter]
    rfl
  have hstored : (s.kernel.storeField sm.shmName f v).contents sm.shmName =
      (s.kernel.contents sm.shmName).map fun m => Side.python.write m f v :=
    Kernel.contents_write_self
  cases hm : s.kernel.contents sm.shmName with
  | none =>
      refine ⟨t, h.of_kept hworker.symm rfl hheld id ?_⟩
      intro m hm'
      rw [hstored, hm] at hm'
      cases hm'
  | some m =>
      have hagrees := h.agrees m hm
      refine ⟨{ t with shared := { t.shared with
        isOutputReady := flag .isOutputReady (Side.python.write m f v) } },
        hheld, h.apart, h.inv.congr rfl rfl, h.worker.trans (congrArg coarse hworker),
        h.published, h.le, ?_⟩
      intro m' hm'
      rw [hstored, hm] at hm'
      obtain rfl := Option.some.inj hm'
      rw [hworker] at hagrees
      exact agrees_write v hf hagrees

theorem Carried.reset (h : Carried outs s n t) (hmain : s.main = .starting pc)
    (hheld : s.attached = true →
      HoldsMapping sm.shmName (s.kernel.storeField sm.shmName .isInputReady 0)) :
    ∃ t', Carried outs { s with
      main := .enter pc', kernel := s.kernel.storeField sm.shmName .isInputReady 0 }
        s.cpp.fill.published.length t' := by
  have hworker : s.main.worker = (Main.enter pc' : Main sm).worker := by
    rw [hmain, worker_enter]
    rfl
  refine ⟨⟨{ t.shared with isInputReady := false }, Exchange.Worker.init,
    { t.cpp with published := [] }⟩, hheld, h.apart, h.inv.reset, ?_, ?_, le_refl _, ?_⟩
  · show _ = coarse (Main.enter pc').worker
    rw [worker_enter]
    rfl
  · show [] = s.cpp.fill.published.drop s.cpp.fill.published.length
    rw [List.drop_length]
  · intro m' hm'
    rw [Kernel.storeField, Kernel.contents_write_self, Option.map_eq_some_iff] at hm'
    obtain ⟨m, hm, rfl⟩ := hm'
    have hagrees := h.agrees m hm
    rw [hworker] at hagrees
    have hclear : flag .isInputReady (Side.python.write m .isInputReady 0) = false :=
      flag_write_self
    refine ⟨hclear.symm, ?_, fun hf => absurd hf Bool.false_ne_true, ?_, hagrees.reading, ?_, ?_⟩
    · exact hagrees.outputReady.trans (flag_write_of_ne (by decide)).symm
    · rw [block_write]
      exact hagrees.output
    · rw [block_write]
      exact hagrees.filling
    · show [] = s.cpp.fill.published.drop s.cpp.fill.published.length
      rw [List.drop_length]

theorem Carried.relaunch {w : Samples.Worker sm.numChannels.toNat sm.blockSize.toNat}
    (h : Carried outs s n t) (hmain : s.main = .ended w) :
    ∃ j t', j ≤ w.inferred.length ∧
      Carried outs { s with main := .starting .createFileMapping } (n + j) t' := by
  obtain ⟨j, hj, hlen, hinv⟩ := h.inv.restart
  have hworker : t.worker.inferred = w.inferred := by
    rw [h.worker, hmain]
    rfl
  have hpublished : t.cpp.published.drop j = s.cpp.fill.published.drop (n + j) := by
    rw [h.published, List.drop_drop]
  have hle : n + j ≤ s.cpp.fill.published.length := by
    have hn := h.le
    rw [h.published, List.length_drop] at hlen
    omega
  rw [hworker] at hj
  -- the row that was being stored counts as it lies there
  refine ⟨j, ⟨{ t.shared with output := match s.kernel.contents sm.shmName with
    | some m => block sm .output m
    | none => t.shared.output }, Exchange.Worker.init,
    { t.cpp with published := t.cpp.published.drop j }⟩, hj, h.held, h.apart,
    hinv.congr rfl rfl, rfl, hpublished, hle, ?_⟩
  intro m hm
  have hagrees := h.agrees m hm
  rw [hm]
  exact ⟨hagrees.inputReady, hagrees.outputReady, hagrees.input, rfl, True.intro,
    hagrees.filling, hpublished⟩

/-- Where a step leads that is not the store of `is_input_ready`. -/
def Moves (n n' : Main sm) : Prop :=
  n' = n ∨ n' = .ended n.worker ∨ (∃ w w', n = .serving w ∧ n' = .serving w') ∨
    ∃ pc pc', n = .starting pc ∧ n' = .enter pc' ∧ beforeReset pc' = beforeReset pc ∧
      (pc'.stage ≤ 7 ∨ pc' = .poll)

/-- Every step but one leaves the exchange as it is, or takes it further. -/
theorem carried_step (h : Carried outs s n t) (hs : step model s a = some s')
    (hstage : ∀ pc, s.main = .starting pc → pc.stage ≤ 7) :
    (s.main = .starting (.initHeader 6) ∧ s'.main = .starting (.initHeader 7) ∧
      s'.cpp = s.cpp ∧ ∃ t', Carried outs s' s.cpp.fill.published.length t') ∨
    ((∃ t', Carried outs s' n t') ∧ s.cpp.fill.published <+: s'.cpp.fill.published ∧
      Moves s.main s'.main) := by
  rcases step_cases hs with ⟨pc, pc', k', rfl, hmain, ha, rfl⟩ | ⟨b, m, m', hturn⟩ |
    ⟨rfl, rfl⟩ | ⟨rfl, hmain, hcpp, hcontents, hattached, hheld⟩
  · have hheld := holdsMapping_advance h.held ha
    have hworker : (Main.enter pc' : Main sm).worker = s.main.worker := by
      rw [worker_enter, hmain]
      rfl
    rcases starting_cases (hstage pc hmain) ha with ⟨rfl, rfl, rfl⟩ | ⟨rfl, rfl, rfl⟩ |
      ⟨hreset, hnext, hkept⟩
    · exact .inr ⟨h.createFileMapping hmain hheld, List.prefix_rfl, .inr (.inr (.inr
        ⟨.createFileMapping, .mapViewOfFile, hmain, rfl, rfl, .inl (by decide)⟩))⟩
    · exact .inl ⟨hmain, rfl, rfl, h.reset hmain hheld⟩
    · refine .inr ⟨?_, List.prefix_rfl, .inr (.inr (.inr ⟨_, _, hmain, rfl, hreset, hnext⟩))⟩
      rcases hkept with hcontents | ⟨f, v, hf, rfl⟩
      · exact ⟨t, h.of_kept hworker rfl hheld id fun m hm => hcontents.symm.trans hm⟩
      · exact h.storeField hmain hf hheld
  · obtain ⟨h', hgrow, -⟩ := h.turn hturn
    refine .inr ⟨h', hgrow, ?_⟩
    rcases hturn.main with ⟨-, hsame⟩ | ⟨-, hserving⟩
    · exact .inl hsame
    · exact .inr (.inr (.inl hserving))
  · exact .inr ⟨⟨t, h.ends⟩, List.prefix_rfl, .inr (.inl rfl)⟩
  · refine .inr ⟨⟨t, h.of_kept ?_ hcpp (fun _ => hheld) ?_ ?_⟩, ?_, .inl hmain⟩
    · rw [hmain]
    · intro hno
      rw [hattached] at hno
      cases hno
    · intro m hm
      rw [← hcontents, hm]
    · rw [hcpp]

theorem carried_stable (h : Carried outs s n t) (hs : step model s a = some s')
    (hbusy : s.main.worker.pc ≠ .poll) (hm : s.kernel.contents sm.shmName = some m)
    (hm' : s'.kernel.contents sm.shmName = some m') : block sm .input m' = block sm .input m := by
  rcases step_cases hs with ⟨pc, pc', k', rfl, hmain, ha, rfl⟩ | ⟨b, m₀, m₁, hturn⟩ |
    ⟨rfl, rfl⟩ | ⟨rfl, -, -, hcontents, -⟩
  · rw [hmain] at hbusy
    exact absurd rfl hbusy
  · obtain rfl := Option.some.inj (hturn.contents.symm.trans hm)
    obtain rfl := Option.some.inj (hturn.contents'.symm.trans hm')
    exact (h.turn hturn).2.2 hbusy
  · rw [Option.some.inj (hm.symm.trans (Kernel.contents_of_exitProcess hm'))]
  · rw [hcontents, hm] at hm'
    rw [Option.some.inj hm']

end Carried

/-! ### Over all lives -/

/-- A worker has been replaced, and its successor has not stored `is_input_ready`. -/
structure Pending (outs : Block sm) (s : Lives sm) (n : ℕ)
    (t : Exchange.State sm.numChannels.toNat (Row sm) Tensor
      (Exchange.InputSide sm.numChannels.toNat (Row sm))) : Prop where
  carried : Carried outs s.system n t
  main : s.system.main = .ended .init ∨
    ∃ pc, s.system.main = .starting pc ∧ beforeReset pc = true
  inOrder : s.past.flatten.Sublist (s.system.cpp.fill.published.map Exchange.rowsOf)
  lost : n + 1 ≤ s.past.flatten.length + s.past.length

/-- A worker is there, or was, to which the blocks from the `n`-th on belong. -/
structure Resumed (outs : Block sm) (s : Lives sm) (n : ℕ)
    (t : Exchange.State sm.numChannels.toNat (Row sm) Tensor
      (Exchange.InputSide sm.numChannels.toNat (Row sm))) : Prop where
  carried : Carried outs s.system n t
  main : ∀ pc, s.system.main = .starting pc → beforeReset pc = false ∧ pc.stage ≤ 7
  inOrder : s.past.flatten.Sublist ((s.system.cpp.fill.published.take n).map Exchange.rowsOf)
  lost : n ≤ s.past.flatten.length + s.past.length

def Kept (outs : Block sm) (s : Lives sm) : Prop :=
  (Alone outs s.system ∧ s.past.flatten = []) ∨ (∃ n t, Pending outs s n t) ∨
    ∃ n t, Resumed outs s n t

section Lives

variable {outs : Block sm} {s s' : Lives sm} {n : ℕ} {r : System sm} {a : Act sm}
  {t : Exchange.State sm.numChannels.toNat (Row sm) Tensor
    (Exchange.InputSide sm.numChannels.toNat (Row sm))}

theorem moves_pending {k k' : Main sm}
    (h : k = .ended .init ∨ ∃ pc, k = .starting pc ∧ beforeReset pc = true) (hm : Moves k k') :
    k' = .ended .init ∨ ∃ pc, k' = .starting pc ∧ beforeReset pc = true := by
  rcases hm with rfl | rfl | ⟨w, w', hw, -⟩ | ⟨pc, pc', rfl, rfl, hreset, -⟩
  · exact h
  · left
    rcases h with rfl | ⟨pc, rfl, -⟩ <;> rfl
  · rcases h with h | ⟨pc, h, -⟩ <;> cases h.symm.trans hw
  · right
    rcases h with h | ⟨pc'', h, hbefore⟩
    · cases h
    · cases h
      rw [hbefore] at hreset
      refine ⟨pc', ?_, hreset⟩
      cases pc' <;> first | rfl | cases hreset

theorem moves_resumed {k k' : Main sm}
    (h : ∀ pc, k = .starting pc → beforeReset pc = false ∧ pc.stage ≤ 7) (hm : Moves k k') :
    ∀ pc, k' = .starting pc → beforeReset pc = false ∧ pc.stage ≤ 7 := by
  intro pc'' hpc
  rcases hm with rfl | rfl | ⟨w, w', -, rfl⟩ | ⟨pc, pc', rfl, rfl, hreset, hnext⟩
  · exact h pc'' hpc
  · cases hpc
  · cases hpc
  · obtain ⟨hbefore, -⟩ := h pc rfl
    rcases hnext with hstage | rfl
    · obtain rfl : pc' = pc'' := by
        cases pc' <;> cases hpc <;> rfl
      exact ⟨hreset.trans hbefore, hstage⟩
    · cases hpc

theorem stage_of_beforeReset {pc : Pc} (h : beforeReset pc = true) : pc.stage ≤ 7 := by
  cases pc with
  | createFileMapping | mapViewOfFile => decide
  | initHeader i => simp [Pc.stage]
  | _ => cases h

theorem pending_step (h : Pending outs s n t) (hs : step s.model s.system a = some r) :
    Kept outs { s with system := r } := by
  have hstage : ∀ pc, s.system.main = .starting pc → pc.stage ≤ 7 := by
    intro pc hpc
    rcases h.main with hended | ⟨pc', hmain, hbefore⟩
    · cases hended.symm.trans hpc
    · cases hmain.symm.trans hpc
      exact stage_of_beforeReset hbefore
  rcases carried_step h.carried hs hstage with ⟨hmain, hmain', hcpp, t', h'⟩ |
    ⟨⟨t', h'⟩, hgrow, hmoves⟩
  · refine .inr (.inr ⟨_, t', h', ?_, ?_, ?_⟩)
    · intro pc hpc
      cases hmain'.symm.trans hpc
      decide
    · show s.past.flatten.Sublist ((r.cpp.fill.published.take _).map _)
      rw [hcpp, List.take_length]
      exact h.inOrder
    · -- one block at most was outstanding
      have hone := h.carried.inv.faithful.oneOutstanding
      have hidle : s.system.main.worker = .init := by
        rw [hmain]
        rfl
      have hnone : t.worker.inferred = [] := by
        rw [h.carried.worker, hidle]
        rfl
      rw [h.carried.published, hnone, List.length_drop, List.length_nil] at hone
      have hlost := h.lost
      show s.system.cpp.fill.published.length ≤ s.past.flatten.length + s.past.length
      omega
  · exact .inr (.inl ⟨n, t', h', moves_pending h.main hmoves,
      h.inOrder.trans (hgrow.map _).sublist, h.lost⟩)

theorem resumed_step (h : Resumed outs s n t) (hs : step s.model s.system a = some r) :
    Kept outs { s with system := r } := by
  rcases carried_step h.carried hs (fun pc hpc => (h.main pc hpc).2) with ⟨hmain, -⟩ |
    ⟨⟨t', h'⟩, hgrow, hmoves⟩
  · cases (h.main _ hmain).1
  · refine .inr (.inr ⟨n, t', h', moves_resumed h.main hmoves, ?_, h.lost⟩)
    have htake := hgrow.take n
    exact h.inOrder.trans (htake.map _).sublist

theorem alone_kept (h : Alone outs s.system) (hpast : s.past.flatten = [])
    (hs : step s.model s.system a = some r) : Kept outs { s with system := r } := by
  have hapart : r.attached = false ∧ r.cpp = Callback.init sm outs := by
    rcases step_cases hs with ⟨pc, pc', k', rfl, hmain, ha, rfl⟩ | ⟨b, m, m', hturn⟩ |
      ⟨rfl, rfl⟩ | ⟨rfl, -⟩
    · exact ⟨h.attached, h.cpp⟩
    · exact ⟨hturn.attached.trans h.attached, (hturn.apart h.attached).trans h.cpp⟩
    · exact ⟨h.attached, h.cpp⟩
    · exact absurd (attachStep_spec hs).1 h.silent
  obtain ⟨hattached, hcpp⟩ := hapart
  rcases alone_step h hs with h' | ⟨m, t, h'⟩
  · exact .inl ⟨h', hpast⟩
  · refine .inr (.inr ⟨0, t, ⟨?_, fun _ => hcpp, h'.inv, h'.agrees.worker,
      h'.agrees.agrees.published, Nat.zero_le _, ?_⟩, ?_, ?_, Nat.zero_le _⟩)
    · intro hyes
      rw [hattached] at hyes
      cases hyes
    · intro m' hm'
      rw [h'.contents m' hm']
      exact h'.agrees.agrees
    · intro pc hpc
      rcases h'.late pc hpc with rfl | rfl <;> decide
    · show s.past.flatten.Sublist _
      rw [hpast]
      exact List.nil_sublist _

/-- A successor. What the last worker had inferred is published, and all but the
last block published has been inferred or was dropped before. -/
theorem kept_relaunch {model : Model} (h : Kept outs s)
    (hs : livesStep s (.relaunch model) = some s') : Kept outs s' := by
  simp only [livesStep] at hs
  cases hmain : s.system.main with
  | starting pc =>
      rw [hmain] at hs
      cases hs
  | serving w =>
      rw [hmain] at hs
      cases hs
  | ended w =>
      rw [hmain] at hs
      obtain rfl := Option.some.inj hs
      rcases h with ⟨h, hpast⟩ | ⟨n, t, h⟩ | ⟨n, t, h⟩
      · rcases h.main with hended | ⟨pc, hstart, -⟩
        · cases hmain.symm.trans hended
          refine .inl ⟨⟨h.cpp, h.attached, h.silent, .inr ⟨_, rfl, by decide, ?_, ?_⟩⟩, ?_⟩
          · exact progress_start sm.blockSize sm.numChannels s.system.kernel
          · exact fun _ hf => absurd hf List.not_mem_nil
          · simp [hpast, Samples.Worker.init]
        · cases hmain.symm.trans hstart
      · rcases h.main with hended | ⟨pc, hstart, -⟩
        · cases hmain.symm.trans hended
          have hnone : (s.past ++ [[]]).flatten = s.past.flatten := by simp
          refine .inr (.inl ⟨n, t, h.carried.of_kept ?_ rfl h.carried.held id fun _ hm => hm,
            .inr ⟨_, rfl, rfl⟩, ?_, ?_⟩)
          · rw [hmain]
            rfl
          · show (s.past ++ [[]]).flatten.Sublist _
            rw [hnone]
            exact h.inOrder
          · have hlost := h.lost
            show n + 1 ≤ (s.past ++ [[]]).flatten.length + (s.past ++ [[]]).length
            rw [hnone, List.length_append]
            omega
        · cases hmain.symm.trans hstart
      · obtain ⟨j, t', hj, h'⟩ := h.carried.relaunch hmain
        have hmine := h.carried.inv.faithful.inOrder
        rw [h.carried.worker, h.carried.published, hmain] at hmine
        have hlost := h.lost
        refine .inr (.inl ⟨n + j, t', h', .inr ⟨_, rfl, rfl⟩, ?_, ?_⟩)
        · show (s.past ++ [w.inferred]).flatten.Sublist (s.system.cpp.fill.published.map _)
          rw [List.flatten_append, List.flatten_singleton,
            ← List.take_append_drop n s.system.cpp.fill.published, List.map_append]
          exact h.inOrder.append hmine.sublist
        · show n + j + 1 ≤ (s.past ++ [w.inferred]).flatten.length + (s.past ++ [_]).length
          rw [List.flatten_append, List.flatten_singleton, List.length_append,
            List.length_append, List.length_singleton]
          omega

theorem kept_step {b : LivesAct sm} (h : Kept outs s) (hs : livesStep s b = some s') :
    Kept outs s' := by
  cases b with
  | relaunch model => exact kept_relaunch h hs
  | within a =>
      obtain ⟨r, hr, rfl⟩ := Option.map_eq_some_iff.mp hs
      rcases h with ⟨h, hpast⟩ | ⟨n, t, h⟩ | ⟨n, t, h⟩
      · exact alone_kept h hpast hr
      · exact pending_step h hr
      · exact resumed_step h hr

theorem kept_inferred (h : Kept outs s) :
    s.inferred.Sublist (s.system.cpp.fill.published.map Exchange.rowsOf) ∧
      s.system.cpp.fill.published.length ≤ s.inferred.length + s.past.length + 1 ∧
      (s.system.main.worker.pc ≠ .poll → ∃ b,
        s.system.cpp.fill.published.getLast? = some b ∧
          s.system.main.worker.rows <+: Exchange.rowsOf b) := by
  unfold Lives.inferred
  rcases h with ⟨h, hpast⟩ | ⟨n, t, h⟩ | ⟨n, t, h⟩
  · rw [h.worker, h.cpp, hpast]
    exact ⟨List.nil_sublist _, Nat.zero_le _, fun hpc => absurd rfl hpc⟩
  · have hidle : s.system.main.worker = .init := by
      rcases h.main with hmain | ⟨pc, hmain, -⟩
      · rw [hmain]
        rfl
      · rw [hmain]
        rfl
    have hone := h.carried.inv.faithful.oneOutstanding
    have hlost := h.lost
    rw [h.carried.worker, hidle, h.carried.published, List.length_drop] at hone
    have hnone : (coarse (Samples.Worker.init :
      Samples.Worker sm.numChannels.toNat sm.blockSize.toNat)).inferred.length = 0 := rfl
    rw [hidle]
    refine ⟨?_, ?_, fun hpc => absurd rfl hpc⟩
    · show (s.past.flatten ++ []).Sublist _
      rw [List.append_nil]
      exact h.inOrder
    · show _ ≤ (s.past.flatten ++ []).length + s.past.length + 1
      rw [List.append_nil]
      omega
  · have hfaithful := h.carried.inv.faithful
    rw [h.carried.worker, h.carried.published] at hfaithful
    obtain ⟨hmine, hone, hwhole, -⟩ := hfaithful
    have hlost := h.lost
    rw [List.length_drop] at hone
    refine ⟨?_, ?_, ?_⟩
    · rw [← List.take_append_drop n s.system.cpp.fill.published, List.map_append]
      exact h.inOrder.append hmine.sublist
    · rw [List.length_append]
      change _ ≤ s.system.main.worker.inferred.length + 1 at hone
      omega
    · intro hpc
      obtain ⟨b, hb, hrows⟩ := hwhole fun heq => hpc (coarse_eq_poll_iff.mp heq)
      refine ⟨b, ?_, hrows⟩
      rw [List.getLast?_drop] at hb
      split at hb
      · cases hb
      · exact hb

theorem kept_recovered {b : LivesAct sm} (h : Kept outs s) (hs : livesStep s b = some s') :
    Recovered s s' := by
  obtain ⟨hin, hlost, hwhole⟩ := kept_inferred (kept_step h hs)
  refine ⟨hin, hlost, hwhole, ?_⟩
  intro hbusy m m' hm hm'
  cases b with
  | relaunch model =>
      simp only [livesStep] at hs
      split at hs
      · obtain rfl := Option.some.inj hs
        rw [Option.some.inj (hm.symm.trans hm')]
      · cases hs
  | within a =>
      obtain ⟨r, hr, rfl⟩ := Option.map_eq_some_iff.mp hs
      rcases h with ⟨h, -⟩ | ⟨n, t, h⟩ | ⟨n, t, h⟩
      · rw [h.worker] at hbusy
        exact absurd rfl hbusy
      · exact carried_stable h.carried hr hbusy hm hm'
      · exact carried_stable h.carried hr hbusy hm hm'

end Lives

/-- However often the worker ends, wherever it does, and whatever model its
successor loads, beside a C++ side that stays. -/
theorem recovered (model : Model) {k : Kernel Proc}
    (hk : k.events.value sm.readyEventName ≠ some true) (outs : Block sm)
    (acts : List (LivesAct sm)) :
    Runs.EachStep livesStep (fun s _ s' => Recovered s s') ⟨launch k outs, model, []⟩ acts := by
  refine Runs.EachStep.imp (I := Kept outs) (G := fun _ _ _ => True)
    (fun _ _ _ h hs _ => kept_step h hs) (fun _ _ _ h hs _ => kept_recovered h hs)
    (.inl ⟨alone_launch hk, rfl⟩) (Runs.EachStep.trivial _ _)

/-- The worker is killed while it reads a block; its successor is given another. -/
def killedWhileReading : List (LivesAct twoSamples) :=
  let first : List (Act twoSamples) := publishEarly.take 20 ++ List.replicate 4 .main ++ [.ends]
  let second : List (Act twoSamples) :=
    List.replicate 17 .main ++ (publishEarly.drop 16).take 4 ++ List.replicate 11 .main
  first.map .within ++ [.relaunch fun t => some t] ++ second.map .within

/-- The block it was reading is the one that is lost. -/
theorem recovered_killed :
    ∃ s, Runs.exec livesStep ⟨launch Kernel.init fun _ _ => 0, fun t => some t, []⟩
        killedWhileReading = some s ∧
      s.system.cpp.fill.published.length = 2 ∧ s.inferred.length = 1 ∧ s.past.length = 1 ∧
      Runs.EachStep livesStep (fun s _ s' => Recovered s s')
        ⟨launch Kernel.init fun _ _ => 0, fun t => some t, []⟩ killedWhileReading := by
  have hrun : (Runs.exec livesStep ⟨launch Kernel.init fun _ _ => 0, fun t => some t, []⟩
      killedWhileReading).any (fun s => decide (s.system.cpp.fill.published.length = 2 ∧
        s.inferred.length = 1 ∧ s.past.length = 1)) = true := by
    decide +kernel
  obtain ⟨s, hexec, hs⟩ := Runs.exists_exec_of_any hrun
  obtain ⟨hpublished, hinferred, hpast⟩ := of_decide_eq_true hs
  exact ⟨s, hexec, hpublished, hinferred, hpast,
    recovered (fun t => some t) (by rintro ⟨⟩) (fun _ _ => 0) killedWhileReading⟩

end MabTilde.EndToEnd

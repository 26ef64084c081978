import MabTilde.Exchange.Atomicity
import MabTilde.Lifecycle

/-!
The whole of it: `main()` from its manager on, start-up and serving loop in one
process, and a C++ side that waits for the event, opens the section and then
exchanges audio through it.

Up to `SetEvent` the worker is alone with the section, and it leaves the flags
of the exchange False. From then on the C++ side may be there, and `main()` has
still to set `is_python_ready` and to load the model; neither touches what the
exchange is about. So the exchange may begin at the event, long before the loop
does: what is published early waits in the input slot.
-/

namespace MabTilde.EndToEnd

open Bytes Win32 Lifecycle Samples

variable (sm : SharedMemoryManager)

/-- Where `main()` stands. In the loop it goes sample by sample; when the process
has ended its history remains. -/
inductive Main
  | starting (pc : Pc)
  | serving (w : Samples.Worker sm.numChannels.toNat sm.blockSize.toNat)
  | ended (w : Samples.Worker sm.numChannels.toNat sm.blockSize.toNat)

structure System where
  kernel : Kernel Proc
  main : Main sm
  /-- The C++ side has found the event signalled and the magic number valid. -/
  attached : Bool
  cpp : Callback sm

inductive Act
  /-- The next step of `main()` succeeds. -/
  | main
  | ends
  | attach
  | callback (a : CallbackAct sm)

variable {sm}

def Main.worker : Main sm → Samples.Worker sm.numChannels.toNat sm.blockSize.toNat
  | .starting _ => .init
  | .serving w | .ended w => w

def Main.enter : Pc → Main sm
  | .poll => .serving .init
  | pc => .starting pc

def mainStep (model : Model) (s : System sm) : Option (System sm) :=
  match s.main with
  | .starting pc =>
      (advance ⟨sm, pc⟩ [] s.kernel).map fun r => { s with main := .enter r.1, kernel := r.2 }
  | .serving w =>
      (s.kernel.contents sm.shmName).bind fun m =>
        (workerStep sm model w m).map fun r =>
          { s with main := .serving r.1, kernel := s.kernel.write sm.shmName fun _ => r.2 }
  | .ended _ => none

/-- `sys.exit(1)`, an exception nobody catches, or a kill. -/
def endStep (s : System sm) : Option (System sm) :=
  match s.main with
  | .ended _ => none
  | _ => some { s with main := .ended s.main.worker, kernel := s.kernel.exitProcess .worker }

/-- The C++ side opens the event and, if it is signalled, the section, and looks
at the magic number. -/
def attachStep (s : System sm) : Option (System sm) :=
  if s.kernel.events.value sm.readyEventName = some true then
    (s.kernel.openEvent .cpp sm.readyEventName).bind fun k =>
      (k.openFileMapping .cpp sm.shmName).bind fun k =>
        if k.header sm.shmName .magic = some MAGIC_NUMBER.toNat then
          some { s with attached := true, kernel := k.mapViewOfFile .cpp sm.shmName }
        else none
  else none

def callbackTurn (s : System sm) (a : CallbackAct sm) : Option (System sm) :=
  if s.attached then
    (s.kernel.contents sm.shmName).bind fun m =>
      (callbackStep .python s.cpp a m).map fun r =>
        { s with cpp := r.1, kernel := s.kernel.write sm.shmName fun _ => r.2 }
  else none

def step (model : Model) (s : System sm) : Act sm → Option (System sm)
  | .main => mainStep model s
  | .ends => endStep s
  | .attach => attachStep s
  | .callback a => callbackTurn s a

/-- `main()` as it constructs its manager, over whatever there is. -/
def launch (k : Kernel Proc) (outs : Block sm) : System sm :=
  ⟨k, .starting .createFileMapping, false, Callback.init sm outs⟩

/-- What a step keeps: the blocks inferred are the published ones, whole and in
order; the input rows do not change under the worker's views; and a C++ side
that has attached finds the buffers where they are. -/
structure Delivered (s s' : System sm) : Prop where
  faithful : Exchange.Faithful (coarse s'.main.worker) s'.cpp.fill.published
  stable : s.main.worker.pc ≠ .poll → ∀ m m', s.kernel.contents sm.shmName = some m →
    s'.kernel.contents sm.shmName = some m' → block sm .input m' = block sm .input m
  layout : s'.attached = true → ∀ m', s'.kernel.contents sm.shmName = some m' →
    ∀ f, f.isFlag = false → Side.python.read m' f = (sm.headerValue f).toNat

/-! ### Up to the event -/

def HeaderStored (sm : SharedMemoryManager) (pc : Pc) (k : Kernel Proc) : Prop :=
  ∀ f ∈ Field.all.take pc.stored,
    k.header sm.shmName f = some (f.meaning (sm.headerValue f).toNat)

/-- Only the worker has been at work, and it has not signalled. -/
structure Alone (outs : Block sm) (s : System sm) : Prop where
  cpp : s.cpp = Callback.init sm outs
  attached : s.attached = false
  silent : s.kernel.events.value sm.readyEventName ≠ some true
  main : s.main = .ended .init ∨ ∃ pc, s.main = .starting pc ∧ pc.stage ≤ 5 ∧
    Progress sm.shmName sm.readyEventName sm pc s.kernel ∧ HeaderStored sm pc s.kernel

structure Exchanging (s : System sm) (m : Memory)
    (t : Exchange.State sm.numChannels.toNat (Row sm) Tensor
      (Exchange.InputSide sm.numChannels.toNat (Row sm))) : Prop where
  contents : ∀ m', s.kernel.contents sm.shmName = some m' → m' = m
  inv : Exchange.InputInv t.shared t.worker t.cpp
  agrees : InputAgrees ⟨m, s.main.worker, s.cpp⟩ t
  numbers : ∀ f, f.isFlag = false → Side.python.read m f = (sm.headerValue f).toNat
  late : ∀ pc, s.main = .starting pc → pc = .setPythonReady ∨ pc = .loadModel

/-- A turn of the exchange: the bytes of the section before and after it. -/
structure Turns (model : Model) (s : System sm) (a : Act sm) (s' : System sm)
    (b : Exchange.Turn (CallbackAct sm)) (m m' : Memory) : Prop where
  contents : s.kernel.contents sm.shmName = some m
  turn : Samples.step model .python ⟨m, s.main.worker, s.cpp⟩ b =
    some ⟨m', s'.main.worker, s'.cpp⟩
  contents' : s'.kernel.contents sm.shmName = some m'
  holders : s'.kernel.mappings.holders sm.shmName = s.kernel.mappings.holders sm.shmName
  attached : s'.attached = s.attached
  apart : s.attached = false → s'.cpp = s.cpp
  main : (a ≠ .main ∧ s'.main = s.main) ∨
    (b = .worker ∧ ∃ w w', s.main = .serving w ∧ s'.main = .serving w')

section Alone

variable {pc pc' : Pc} {k k' : Kernel Proc} {row : List (BitVec 32)}

theorem headerStored_advance (h : HeaderStored sm pc k)
    (hprog : Progress sm.shmName sm.readyEventName sm pc k) (hpc : pc.stage ≤ 5)
    (ha : advance ⟨sm, pc⟩ row k = some (pc', k')) : HeaderStored sm pc' k' := by
  cases pc with
  | createFileMapping =>
      obtain ⟨rfl, -⟩ := advance_createFileMapping ha
      exact fun _ hf => absurd hf List.not_mem_nil
  | mapViewOfFile =>
      obtain ⟨rfl, -⟩ := advance_mapViewOfFile ha
      exact fun _ hf => absurd hf List.not_mem_nil
  | initHeader i =>
      rcases advance_initHeader ha with ⟨f, hf, rfl, rfl⟩ | ⟨hlen, rfl, rfl⟩
      · obtain ⟨x, hx⟩ := hprog.mapped (by simp [Pc.stage])
        obtain ⟨m, hm⟩ := Kernel.contents_of_header hx
        intro g hg
        by_cases hgf : g = f
        · subst hgf
          exact Kernel.header_storeField_self hm _ _
        · rw [Kernel.header_storeField_of_ne hgf]
          apply h g
          simp only [Pc.stored, List.take_add_one, hf, Option.toList_some, List.mem_append,
            List.mem_singleton] at hg ⊢
          exact hg.resolve_right hgf
      · intro g _
        apply h g
        show g ∈ Field.all.take i
        rw [List.take_of_length_le hlen]
        exact Field.mem_all g
  | getViews =>
      obtain ⟨-, rfl, rfl⟩ := advance_getViews ha
      exact h
  | createEvent | setEvent =>
      cases ha
      exact h
  | _ => exact absurd hpc (by simp [Pc.stage])

end Alone

/-! ### From the event on -/

section Exchanging

variable {model : Model} {s s' : System sm} {m m' : Memory}
  {t : Exchange.State sm.numChannels.toNat (Row sm) Tensor
    (Exchange.InputSide sm.numChannels.toNat (Row sm))}
  {x x' : Samples.State sm}

theorem attachStep_spec (hs : attachStep s = some s') :
    s.kernel.events.value sm.readyEventName = some true ∧ s'.main = s.main ∧ s'.cpp = s.cpp ∧
      s'.kernel.contents sm.shmName = s.kernel.contents sm.shmName ∧ s'.attached = true ∧
      HoldsMapping sm.shmName s'.kernel := by
  simp only [attachStep, Option.ite_none_right_eq_some, Option.bind_eq_some_iff,
    Kernel.openEvent, Kernel.openFileMapping, Option.some.injEq] at hs
  obtain ⟨hset, k, ⟨-, rfl⟩, k', ⟨hsome, rfl⟩, -, rfl⟩ := hs
  obtain ⟨v, hv⟩ := Option.isSome_iff_exists.mp hsome
  obtain ⟨hd, hh⟩ := NamedObjects.Table.exists_mem_of_value hv
  refine ⟨hset, rfl, rfl, ?_, rfl, .view .cpp, ?_, rfl⟩
  · show (Kernel.mapViewOfFile _ _ _).contents _ = _
    rw [Kernel.contents_mapViewOfFile (Kernel.mem_holders_createFileMapping hh),
      Kernel.contents_createFileMapping hh]
    rfl
  · rw [Kernel.holders_mapViewOfFile, if_pos rfl]
    exact Finset.mem_insert_self _ _

/-- What a step is: one of the start-up, a turn of the exchange, the end of the
process, or the C++ side attaching. -/
theorem step_cases {a : Act sm} (hs : step model s a = some s') :
    (∃ pc pc' k', a = .main ∧ s.main = .starting pc ∧
      advance ⟨sm, pc⟩ [] s.kernel = some (pc', k') ∧
      s' = { s with main := .enter pc', kernel := k' }) ∨
    (∃ b m mem, Turns model s a s' b m mem) ∨
    (a = .ends ∧ s' =
      { s with main := .ended s.main.worker, kernel := s.kernel.exitProcess .worker }) ∨
    (a = .attach ∧ s'.main = s.main ∧ s'.cpp = s.cpp ∧
      s'.kernel.contents sm.shmName = s.kernel.contents sm.shmName ∧ s'.attached = true ∧
      HoldsMapping sm.shmName s'.kernel) := by
  cases a with
  | main =>
      simp only [step, mainStep] at hs
      cases hmain : s.main with
      | starting pc =>
          simp only [hmain, Option.map_eq_some_iff] at hs
          obtain ⟨⟨pc', k'⟩, ha, rfl⟩ := hs
          exact .inl ⟨pc, pc', k', rfl, rfl, ha, rfl⟩
      | serving w =>
          simp only [hmain, Option.bind_eq_some_iff, Option.map_eq_some_iff] at hs
          obtain ⟨m, hm, r, hr, rfl⟩ := hs
          refine .inr (.inl ⟨.worker, m, r.2, hm, ?_, ?_, Kernel.holders_write, rfl, fun _ => rfl,
            .inr ⟨rfl, w, r.1, hmain, rfl⟩⟩)
          · rw [hmain]
            exact Option.map_eq_some_iff.mpr ⟨r, hr, rfl⟩
          · rw [Kernel.contents_write_self, hm, Option.map_some]
      | ended w => simp [hmain] at hs
  | ends =>
      refine .inr (.inr (.inl ⟨rfl, ?_⟩))
      simp only [step, endStep] at hs
      split at hs
      · cases hs
      · exact (Option.some.inj hs).symm
  | attach =>
      obtain ⟨-, hkept⟩ := attachStep_spec hs
      exact .inr (.inr (.inr ⟨rfl, hkept⟩))
  | callback a =>
      simp only [step, callbackTurn, Option.ite_none_right_eq_some, Option.bind_eq_some_iff,
        Option.map_eq_some_iff] at hs
      obtain ⟨hattached, m, hm, r, hr, rfl⟩ := hs
      refine .inr (.inl ⟨.cpp a, m, r.2, hm, ?_, ?_, Kernel.holders_write, rfl, ?_,
        .inl ⟨by rintro ⟨⟩, rfl⟩⟩)
      · exact Option.map_eq_some_iff.mpr ⟨r, hr, rfl⟩
      · rw [Kernel.contents_write_self, hm, Option.map_some]
      · intro hno
        rw [hattached] at hno
        cases hno

theorem exchange_numbers {a : Exchange.Turn (CallbackAct sm)} (hR : InputAgrees x t)
    (hs : Samples.step model .python x a = some x') {f : Field} (hf : f.isFlag = false) :
    Side.python.read x'.memory f = Side.python.read x.memory f := by
  have hsample : ∀ (b : AudioBuffer) (ch : Fin sm.numChannels.toNat)
      (i : Fin sm.blockSize.toNat) (v : Sample),
      Side.python.read (storeSample sm ⟨b, ch, i⟩ v x.memory) f =
        Side.python.read x.memory f :=
    fun b ch i _ => read_storeSample (inViews b ch i)
  have hflag : ∀ (g : Field) (v : BitVec 32), g.isFlag = true →
      Side.python.read (Side.python.write x.memory g v) f = Side.python.read x.memory f := by
    intro g v hg
    apply Side.read_write_of_ne
    rintro rfl
    rw [hf] at hg
    cases hg
  cases a with
  | worker =>
      obtain ⟨r, hr, rfl⟩ := Option.map_eq_some_iff.mp hs
      rcases workerStep_memory hR.agrees hr with hmem | ⟨ch, i, v, hmem⟩ | ⟨g, v, hg, hmem⟩
      · exact congrArg (Side.python.read · f) hmem
      · exact (congrArg (Side.python.read · f) hmem).trans (hsample .output ch i v)
      · exact (congrArg (Side.python.read · f) hmem).trans (hflag g v hg)
  | cpp a =>
      obtain ⟨r, hr, rfl⟩ := Option.map_eq_some_iff.mp hs
      rcases callbackStep_memory hr with hmem | ⟨ch, i, v, hmem⟩ | ⟨g, v, hg, hmem⟩
      · exact congrArg (Side.python.read · f) hmem
      · exact (congrArg (Side.python.read · f) hmem).trans (hsample .input ch i v)
      · exact (congrArg (Side.python.read · f) hmem).trans (hflag g v hg)

theorem agrees_write {w : Samples.Worker sm.numChannels.toNat sm.blockSize.toNat}
    {p : FillSide sm} {f : Field} (v : BitVec 32) (hf : f ≠ .isInputReady)
    (h : Agrees m w p t.shared t.cpp) :
    Agrees (Side.python.write m f v) w p { t.shared with
      isOutputReady := flag .isOutputReady (Side.python.write m f v) } t.cpp := by
  refine ⟨?_, rfl, ?_, ?_, h.reading, ?_, h.published⟩
  · exact h.inputReady.trans (flag_write_of_ne hf.symm).symm
  · intro hready
    rw [block_write]
    exact h.input hready
  · rw [block_write]
    exact h.output
  · rw [block_write]
    exact h.filling

theorem agrees_setPythonReady {w : Samples.Worker sm.numChannels.toNat sm.blockSize.toNat}
    {c : Callback sm} (hR : InputAgrees ⟨m, w, c⟩ t) :
    InputAgrees ⟨Side.python.write m .isPythonReady 1, w, c⟩ t := by
  obtain ⟨hw, h⟩ := hR
  have hwrite := agrees_write 1 (by decide : Field.isPythonReady ≠ .isInputReady) h
  rw [flag_write_of_ne (by decide), ← h.outputReady] at hwrite
  exact ⟨hw, hwrite⟩

theorem Exchanging.turn {a : Act sm} {b : Exchange.Turn (CallbackAct sm)} {m₀ : Memory}
    (h : Exchanging s m t) (hs : Turns model s a s' b m₀ m') : ∃ t', Exchanging s' m' t' := by
  obtain rfl := h.contents m₀ hs.contents
  obtain ⟨t', hI', hR'⟩ := (input_refines model).matched h.inv h.agrees hs.turn True.intro
  refine ⟨t', ?_, hI', hR', ?_, ?_⟩
  · intro m'' hm''
    exact Option.some.inj (hm''.symm.trans hs.contents')
  · intro f hf
    exact (exchange_numbers h.agrees hs.turn hf).trans (h.numbers f hf)
  · intro pc hpc
    rcases hs.main with ⟨-, hsame⟩ | ⟨-, w, w', -, hserving⟩
    · exact h.late pc (hsame.symm.trans hpc)
    · rw [hserving] at hpc
      cases hpc

theorem Exchanging.starting {pc pc' : Pc} {k' : Kernel Proc} (h : Exchanging s m t)
    (hmain : s.main = .starting pc) (ha : advance ⟨sm, pc⟩ [] s.kernel = some (pc', k')) :
    ∃ m', Exchanging { s with main := .enter pc', kernel := k' } m' t ∧
      block sm .input m' = block sm .input m := by
  have hagrees := h.agrees
  rw [hmain] at hagrees
  rcases h.late pc hmain with rfl | rfl
  · cases ha
    refine ⟨Side.python.write m .isPythonReady 1,
      ⟨?_, h.inv, agrees_setPythonReady hagrees, ?_, ?_⟩, block_write⟩
    · intro m' hm'
      rw [Kernel.storeField, Kernel.contents_write_self, Option.map_eq_some_iff] at hm'
      obtain ⟨m₀, hm₀, rfl⟩ := hm'
      rw [h.contents m₀ hm₀]
    · intro f hf
      rw [Side.read_write_of_ne (by rintro rfl; cases hf)]
      exact h.numbers f hf
    · rintro _ ⟨⟩
      exact .inr rfl
  · cases ha
    exact ⟨m, ⟨h.contents, h.inv, hagrees, h.numbers, by rintro _ ⟨⟩⟩, rfl⟩

theorem Exchanging.ends (h : Exchanging s m t) :
    Exchanging { s with
      main := .ended s.main.worker, kernel := s.kernel.exitProcess .worker } m t := by
  refine ⟨?_, h.inv, h.agrees, h.numbers, by rintro _ ⟨⟩⟩
  intro m' hm'
  exact h.contents m' (Kernel.contents_of_exitProcess hm')

/-- The exchange goes on, and the input rows do not change under the worker's
views. -/
theorem exchanging_step {a : Act sm} (h : Exchanging s m t) (hs : step model s a = some s') :
    ∃ m' t', Exchanging s' m' t' ∧
      (s.main.worker.pc ≠ .poll → block sm .input m' = block sm .input m) := by
  rcases step_cases hs with ⟨pc, pc', k', rfl, hmain, ha, rfl⟩ | ⟨b, m₀, m', hturn⟩ |
    ⟨rfl, rfl⟩ | ⟨rfl, hmain, hcpp, hcontents, -⟩
  · obtain ⟨m', h', hinput⟩ := h.starting hmain ha
    exact ⟨m', t, h', fun _ => hinput⟩
  · obtain ⟨t', h'⟩ := h.turn hturn
    obtain rfl := h.contents m₀ hturn.contents
    exact ⟨m', t', h', input_stable h.inv h.agrees hturn.turn⟩
  · exact ⟨m, t, h.ends, fun _ => rfl⟩
  · refine ⟨m, t, ⟨?_, h.inv, ?_, h.numbers, ?_⟩, fun _ => rfl⟩
    · rw [hcontents]
      exact h.contents
    · rw [hmain, hcpp]
      exact h.agrees
    · rw [hmain]
      exact h.late

theorem Exchanging.faithful (h : Exchanging s m t) :
    Exchange.Faithful (coarse s.main.worker) s.cpp.fill.published := by
  have hfaithful := h.inv.faithful
  rw [h.agrees.worker, h.agrees.agrees.published] at hfaithful
  exact hfaithful

theorem exchanging_delivered {a : Act sm} (h : Exchanging s m t)
    (hs : step model s a = some s') : Delivered s s' := by
  obtain ⟨m₁, t₁, h', hinput⟩ := exchanging_step h hs
  refine ⟨h'.faithful, ?_, ?_⟩
  · intro hbusy m₀ m' hm₀ hm'
    rw [h.contents m₀ hm₀, h'.contents m' hm']
    exact hinput hbusy
  · intro _ m' hm' f hf
    rw [h'.contents m' hm']
    exact h'.numbers f hf

/-! The moment of the event. -/

variable {outs : Block sm}

theorem alone_launch {k : Kernel Proc} (hk : k.events.value sm.readyEventName ≠ some true) :
    Alone outs (launch k outs) := by
  refine ⟨rfl, rfl, hk, .inr ⟨_, rfl, by decide, ?_, fun _ hf => absurd hf List.not_mem_nil⟩⟩
  exact progress_start sm.blockSize sm.numChannels k

/-- The last step the worker takes alone leaves the section as the exchange
begins it. -/
theorem exchanging_of_setEvent {k : Kernel Proc}
    (hprog : Progress sm.shmName sm.readyEventName sm .setEvent k)
    (hstored : HeaderStored sm .setEvent k) :
    ∃ m t, Exchanging ⟨k.setEvent sm.readyEventName, .starting .setPythonReady, false,
      Callback.init sm outs⟩ m t := by
  obtain ⟨x, hx⟩ := hprog.mapped (by decide)
  obtain ⟨m, hm⟩ := Kernel.contents_of_header hx
  have hread : ∀ f, Side.python.read m f = f.meaning (sm.headerValue f).toNat := by
    intro f
    apply Option.some.inj
    rw [← Kernel.header_of_contents hm]
    exact hstored f (Field.mem_all f)
  refine ⟨m, _, ?_, Exchange.inputInv_init _ _, agrees_of_flags (hread _) (hread _), ?_, ?_⟩
  · intro m' hm'
    exact Option.some.inj (hm'.symm.trans hm)
  · intro f hf
    rw [hread f, Field.meaning, hf]
    rfl
  · rintro _ ⟨⟩
    exact .inl rfl

theorem alone_step {a : Act sm} (h : Alone outs s) (hs : step model s a = some s') :
    Alone outs s' ∨ ∃ m t, Exchanging s' m t := by
  obtain ⟨k, main, attached, cpp⟩ := s
  obtain rfl : cpp = _ := h.cpp
  obtain rfl : attached = false := h.attached
  cases a with
  | main =>
      rcases h.main with rfl | ⟨pc, rfl, hpc, hprog, hstored⟩
      · simp [step, mainStep] at hs
      · simp only [step, mainStep, Option.map_eq_some_iff] at hs
        obtain ⟨⟨pc', k'⟩, ha, rfl⟩ := hs
        by_cases hevent : pc.stage ≤ 4
        · obtain ⟨-, hback, -, hnext⟩ := advance_unannounced hprog hevent ha
          have hpc' : pc'.stage ≤ 5 := by omega
          have henter : (Main.enter pc' : Main sm) = .starting pc' := by
            cases pc' <;> first | rfl | exact absurd hpc' (by decide)
          refine .inl ⟨rfl, rfl, fun hset => h.silent (hback hset),
            .inr ⟨pc', henter, hpc', ?_, ?_⟩⟩
          · exact progress_advance hprog ha
          · exact headerStored_advance hstored hprog hpc ha
        · obtain rfl : pc = .setEvent := by
            cases pc <;> first | rfl | simp [Pc.stage] at hpc hevent
          cases ha
          exact .inr (exchanging_of_setEvent hprog hstored)
  | ends =>
      rcases h.main with rfl | ⟨pc, rfl, -⟩
      · simp [step, endStep] at hs
      · cases hs
        exact .inl ⟨rfl, rfl, fun hset => h.silent (Kernel.event_of_exitProcess hset), .inl rfl⟩
  | attach => exact absurd (attachStep_spec hs).1 h.silent
  | callback a => simp [step, callbackTurn] at hs

theorem Alone.worker (h : Alone outs s) : s.main.worker = .init := by
  rcases h.main with hmain | ⟨pc, hmain, -⟩
  · rw [hmain]
    rfl
  · rw [hmain]
    rfl

theorem alone_delivered {a : Act sm} (h : Alone outs s) (hs : step model s a = some s') :
    Delivered s s' := by
  have hidle : s.main.worker.pc = .poll := by
    rw [h.worker]
    rfl
  rcases alone_step h hs with h' | ⟨m, t, h'⟩
  · refine ⟨?_, fun hbusy => absurd hidle hbusy, fun hattached => ?_⟩
    · rw [h'.worker, h'.cpp]
      exact ⟨List.nil_prefix, Nat.zero_le _, fun hpc => absurd rfl hpc, by rintro ⟨⟩⟩
    · rw [h'.attached] at hattached
      cases hattached
  · refine ⟨h'.faithful, fun hbusy => absurd hidle hbusy, fun _ m' hm' f hf => ?_⟩
    rw [h'.contents m' hm']
    exact h'.numbers f hf

end Exchanging

/-- From the construction of the manager on, wherever `main()` is stopped, whatever was
left in the section before, and however the C++ side waits, attaches and exchanges audio:
every published block is inferred once, whole and in order, none changes under
the worker's views, and the C++ side looks for the buffers where they are. -/
theorem delivered (model : Model) {k : Kernel Proc}
    (hk : k.events.value sm.readyEventName ≠ some true) (outs : Block sm) (acts : List (Act sm)) :
    Runs.EachStep (step model) (fun s _ s' => Delivered s s') (launch k outs) acts := by
  refine Runs.EachStep.imp (I := fun s => Alone outs s ∨ ∃ m t, Exchanging s m t)
    (G := fun _ _ _ => True) ?_ ?_ (.inl (alone_launch hk)) (Runs.EachStep.trivial _ _)
  · rintro s a s' (h | ⟨m, t, h⟩) hs -
    · exact alone_step h hs
    · obtain ⟨m', t', h', -⟩ := exchanging_step h hs
      exact .inr ⟨m', t', h'⟩
  · rintro s a s' (h | ⟨m, t, h⟩) hs -
    · exact alone_delivered h hs
    · exact exchanging_delivered h hs

/-- The C++ side attaches at the event and publishes a block at once, before the
model is loaded; then the worker enters the loop and serves it. -/
def publishEarly : List (Act twoSamples) :=
  let ch : Fin twoSamples.numChannels.toNat := ⟨0, Nat.one_pos⟩
  List.replicate 15 .main ++
    [.attach, .callback (.fill (.load fun _ _ => 7)),
      .callback (.fill (.writeSample ch ⟨0, Nat.two_pos⟩)),
      .callback (.fill (.writeSample ch ⟨1, Nat.one_lt_two⟩)), .callback (.fill .publish)] ++
    List.replicate 13 .main

theorem delivered_early :
    ∃ s, Runs.exec (step fun t => some t) (launch Kernel.init fun _ _ => 0) publishEarly = some s ∧
      s.cpp.fill.published.length = 1 ∧ s.main.worker.inferred.length = 1 ∧
      Runs.EachStep (step fun t => some t) (fun s _ s' => Delivered s s')
        (launch Kernel.init fun _ _ => 0) publishEarly := by
  have hrun : (Runs.exec (step fun t => some t) (launch Kernel.init fun _ _ => 0)
      publishEarly).any (fun s => decide (s.cpp.fill.published.length = 1 ∧
        s.main.worker.inferred.length = 1)) = true := by
    decide +kernel
  obtain ⟨s, hexec, hs⟩ := Runs.exists_exec_of_any hrun
  obtain ⟨hpublished, hinferred⟩ := of_decide_eq_true hs
  exact ⟨s, hexec, hpublished, hinferred,
    delivered (fun t => some t) (by rintro ⟨⟩) (fun _ _ => 0) publishEarly⟩

end MabTilde.EndToEnd

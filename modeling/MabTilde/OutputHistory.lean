import MabTilde.Lib.Runs
import MabTilde.MonoOutput

/-!
The output buffer over a whole run of the serving loop, whatever the model
returns and whenever it raises.

A block leaves in a row what it gives and keeps the rest, so a sample of the row
is that of the latest block that reached it: each sample has an age of its own.
A model that raises ends the loop, and the channels before the one it raised on
have then been given their part of a block that is never announced.
-/

namespace MabTilde

open Bytes Runs

section Overwriting

variable {α : Type*}

def overwritten : Option (List α) → List α → List α
  | none, row => row
  | some new, row => new ++ row.drop new.length

def latest (news : List (Option (List α))) (i : ℕ) : Option α :=
  news.reverse.findSome? fun new => new.bind fun xs => xs[i]?

theorem getElem?_overwritten (new : Option (List α)) (row : List α) (i : ℕ) :
    (overwritten new row)[i]? = (latest [new] i).or row[i]? := by
  cases new with
  | none => rfl
  | some new =>
      rw [overwritten, List.getElem?_append]
      by_cases hi : i < new.length
      · rw [if_pos hi]
        simp [latest, List.getElem?_eq_getElem hi]
      · rw [if_neg hi, List.getElem?_drop, Nat.add_sub_cancel' (Nat.le_of_not_lt hi)]
        simp [latest, List.getElem?_eq_none (Nat.le_of_not_lt hi)]

theorem latest_append (news news' : List (Option (List α))) (i : ℕ) :
    latest (news ++ news') i = (latest news' i).or (latest news i) := by
  rw [latest, List.reverse_append, List.findSome?_append, latest, latest]

end Overwriting

variable (sm : SharedMemoryManager) (model : Model)

/-- What the block announced in `m` has for channel `ch`. -/
def answer (m : Memory) (ch : ℕ) : Option (List Sample) :=
  (inferBlock model (NdArray.ofRow (sm.inputRow ch m))).bind (assigned sm.blockSize.toNat)

/-- What the loop gives the channel: nothing behind a channel that raises. -/
def given (m : Memory) (ch : ℕ) : Option (List Sample) :=
  if ∀ c < ch, (answer sm model m c).isSome then answer sm model m ch else none

structure Loop where
  memory : Memory
  running : Bool

inductive LoopAct
  /-- The C++ side stores what it likes anywhere but in the output buffer. -/
  | cpp (stored : Memory)
  | iteration

/-- `while running`, and the stores of the other side between two iterations. -/
def loopStep (s : Loop) : LoopAct → Option Loop
  | .cpp stored =>
      some { s with
        memory := fun i =>
          if sm.outputRowAddr 0 ≤ i ∧ i < sm.outputRowAddr sm.numChannels.toNat then s.memory i
          else stored i }
  | .iteration =>
      if s.running then
        match loopBody sm model s.memory with
        | .ok m => some ⟨m, true⟩
        | .error (_, m) => some ⟨m, false⟩
      else none

def takenUp (s : Loop) : LoopAct → Option (ℕ → Option (List Sample))
  | .cpp _ => none
  | .iteration =>
      if Side.python.read s.memory .isInputReady = 0 then none else some (given sm model s.memory)

/-- From `s` to `s'` the rows have been given the blocks listed, and nothing
else, and the loop has stopped at the first of them that was not complete. -/
structure Published (s : Loop) (blocks : List (ℕ → Option (List Sample))) (s' : Loop) : Prop where
  rows : ∀ ch : Fin sm.numChannels.toNat, ∀ i, (sm.outputRow ch s'.memory)[i]? =
    (latest (blocks.map fun block => block ch) i).or (sm.outputRow ch s.memory)[i]?
  running : s'.running = true ↔
    s.running = true ∧ ∀ block ∈ blocks, ∀ ch : Fin sm.numChannels.toNat, (block ch).isSome

section Lemmas

variable {sm model} {m m' : Memory} {ch n : ℕ} {s s' : Loop}
  {block : ℕ → Option (List Sample)}

theorem rowAfter_eq_map_answer :
    rowAfter sm model m ch =
      (answer sm model m ch).map fun new => overwritten (some new) (sm.outputRow ch m) := by
  unfold rowAfter answer
  rw [Option.map_bind]
  rfl

theorem ServedUpTo.overwritten_given (h : ServedUpTo sm model m m' n) (hch : ch < n) :
    sm.outputRow ch m' = overwritten (given sm model m ch) (sm.outputRow ch m) ∧
      (given sm model m ch).isSome := by
  have hanswer : ∀ c < n, ∃ new, answer sm model m c = some new ∧
      overwritten (some new) (sm.outputRow c m) = sm.outputRow c m' := by
    intro c hc
    exact Option.map_eq_some_iff.mp (rowAfter_eq_map_answer.symm.trans (h.served c hc))
  have hgiven : given sm model m ch = answer sm model m ch := by
    apply if_pos
    intro c hc
    obtain ⟨new, hnew, -⟩ := hanswer c (hc.trans hch)
    rw [hnew, Option.isSome_some]
  obtain ⟨new, hnew, hrow⟩ := hanswer ch hch
  rw [hgiven, hnew]
  exact ⟨hrow.symm, rfl⟩

theorem FailedAt.given_eq_none (h : FailedAt sm model m m' n) (hch : n ≤ ch) :
    given sm model m ch = none := by
  have hnone : answer sm model m n = none := by
    rw [← Option.map_eq_none_iff, ← rowAfter_eq_map_answer]
    exact h.raises
  rcases Nat.eq_or_lt_of_le hch with rfl | hlt
  · rw [given, hnone, ite_self]
  · apply if_neg
    intro hall
    have hsome := hall n hlt
    rw [hnone] at hsome
    cases hsome

theorem published_refl (s : Loop) : Published sm s [] s where
  rows _ _ := rfl
  running := by simp

theorem Published.trans {s'' : Loop} {blocks blocks' : List (ℕ → Option (List Sample))}
    (h : Published sm s blocks s') (h' : Published sm s' blocks' s'') :
    Published sm s (blocks ++ blocks') s'' where
  rows ch i := by
    rw [h'.rows ch i, h.rows ch i, List.map_append, latest_append, Option.or_assoc]
  running := by
    rw [h'.running, h.running, and_assoc]
    simp only [List.mem_append, or_imp, forall_and]

theorem published_of_overwritten
    (hrows : ∀ ch : Fin sm.numChannels.toNat,
      sm.outputRow ch s'.memory = overwritten (block ch) (sm.outputRow ch s.memory))
    (hrunning : s.running = true)
    (h : s'.running = true ↔ ∀ ch : Fin sm.numChannels.toNat, (block ch).isSome) :
    Published sm s [block] s' where
  rows ch i := by
    rw [hrows ch, getElem?_overwritten]
    rfl
  running := by
    rw [h]
    simp [hrunning]

theorem published_cpp (stored : Memory) (h : loopStep sm model s (.cpp stored) = some s') :
    Published sm s [] s' := by
  obtain rfl := Option.some.inj h
  refine ⟨?_, by simp⟩
  intro ch i
  have hrow : sm.outputRow ch (fun i =>
      if sm.outputRowAddr 0 ≤ i ∧ i < sm.outputRowAddr sm.numChannels.toNat then s.memory i
      else stored i) = sm.outputRow ch s.memory := by
    apply loadWords_congr
    intro i hi hlt
    have hend := Nat.mul_le_mul_right sm.blockSize.toNat ch.isLt
    rw [Nat.succ_mul] at hend
    unfold SharedMemoryManager.outputRowAddr at hi hlt ⊢
    exact if_pos (by omega)
  rw [hrow]
  rfl

theorem published_error (hrunning : s.running = true)
    (hbody : loopBody sm model s.memory = .error (n, m)) :
    Published sm s [given sm model s.memory] ⟨m, false⟩ := by
  have hfailed := loopBody_error hbody
  apply published_of_overwritten _ hrunning
  · refine iff_of_false Bool.false_ne_true ?_
    intro hall
    have hsome := hall ⟨n, hfailed.lt⟩
    rw [hfailed.given_eq_none (le_refl n)] at hsome
    cases hsome
  · intro ch
    by_cases hch : (ch : ℕ) < n
    · exact (hfailed.partway.overwritten_given hch).1
    · rw [hfailed.given_eq_none (Nat.le_of_not_lt hch)]
      exact hfailed.partway.rest ch (Nat.le_of_not_lt hch)

theorem published_ok (hrunning : s.running = true)
    (hbody : serveBlock sm model s.memory = .ok m) :
    Published sm s [given sm model s.memory] ⟨m, true⟩ := by
  rw [serveBlock] at hbody
  cases hloop : serveChannels sm model (List.range sm.numChannels.toNat) s.memory with
  | error e =>
      rw [hloop] at hbody
      cases hbody
  | ok m₁ =>
      rw [hloop] at hbody
      cases hbody
      have hserved := serveChannels_ok hloop
      apply published_of_overwritten _ hrunning
      · exact iff_of_true rfl fun ch => (hserved.overwritten_given ch.isLt).2
      · intro ch
        show sm.outputRow ch (Side.python.write (Side.python.write m₁ _ 1) _ 0) = _
        rw [outputRow_write ch.isLt, outputRow_write ch.isLt]
        exact (hserved.overwritten_given ch.isLt).1

theorem published_iteration (h : loopStep sm model s .iteration = some s') :
    Published sm s (takenUp sm model s .iteration).toList s' := by
  simp only [loopStep, Option.ite_none_right_eq_some] at h
  obtain ⟨hrunning, h⟩ := h
  simp only [takenUp]
  by_cases hflag : Side.python.read s.memory .isInputReady = 0
  · rw [loopBody, if_pos hflag] at h
    obtain rfl := Option.some.inj h
    rw [if_pos hflag]
    exact ⟨fun _ _ => rfl, by simp [hrunning]⟩
  · rw [if_neg hflag]
    cases hbody : loopBody sm model s.memory with
    | error e =>
        rw [hbody] at h
        obtain rfl := Option.some.inj h
        exact published_error hrunning hbody
    | ok m =>
        rw [hbody] at h
        obtain rfl := Option.some.inj h
        rw [loopBody, if_neg hflag] at hbody
        exact published_ok hrunning hbody

theorem published_step (a : LoopAct) (h : loopStep sm model s a = some s') :
    Published sm s (takenUp sm model s a).toList s' := by
  cases a with
  | cpp stored => exact published_cpp stored h
  | iteration => exact published_iteration h

end Lemmas

/-- After any run, a sample of a row is that of the latest block that gave the
channel so many, and that of the beginning if there was none; and the loop is
still running exactly if every block it took up was complete. -/
theorem row_history (s s' : Loop) (acts : List LoopAct)
    (h : exec (loopStep sm model) s acts = some s') :
    (∀ ch : Fin sm.numChannels.toNat, ∀ i, (sm.outputRow ch s'.memory)[i]? =
        (latest ((labels (loopStep sm model) (takenUp sm model) s acts).map
          fun block => block ch) i).or (sm.outputRow ch s.memory)[i]?) ∧
      (s'.running = true ↔ s.running = true ∧
        ∀ block ∈ labels (loopStep sm model) (takenUp sm model) s acts,
          ∀ ch : Fin sm.numChannels.toNat, (block ch).isSome) := by
  have hrun : Published sm s (labels (loopStep sm model) (takenUp sm model) s acts) s' :=
    labels_compose (I := fun _ => True) (fun s _ => published_refl s)
      (fun _ _ _ _ _ h h' => h.trans h')
      (fun s a s' _ hstep => ⟨published_step a hstep, True.intro⟩) True.intro h
  exact ⟨hrun.rows, hrun.running⟩

/-! Blocks of three samples, one channel. The model returns as many samples as
the first one says. -/

def asManyAsFirst : Model := fun t => some (NdArray.ofRow (t.data.take (t.data.headD 0).toNat))

def threeSamples : SharedMemoryManager := ⟨"MabSharedMem_00000007", "MabEvent_00000007", 3, 1⟩

/-- The C++ side stores a row and announces it; the loop serves it. -/
def exchanged (row : List Sample) : List LoopAct :=
  let m := storeWords (fun _ => 0) (threeSamples.inputRowAddr 0) row
  [.cpp (Side.python.write m .isInputReady 1), .iteration]

def threeBlocks : List LoopAct :=
  exchanged [3, 5, 6] ++ exchanged [2, 7, 8] ++ exchanged [1, 9, 9]

/-- Every sample of the row is then of another block. -/
theorem row_history_three :
    ∃ s', exec (loopStep threeSamples asManyAsFirst) ⟨fun _ => 0, true⟩ threeBlocks = some s' ∧
      (threeSamples.outputRow 0 s'.memory)[0]? = some 1 ∧
      (threeSamples.outputRow 0 s'.memory)[1]? = some 7 ∧
      (threeSamples.outputRow 0 s'.memory)[2]? = some 6 ∧ s'.running = true := by
  have hrun : ((exec (loopStep threeSamples asManyAsFirst) ⟨fun _ => 0, true⟩ threeBlocks).any
      fun s' => s'.running) = true := by
    decide +kernel
  obtain ⟨s', hexec, hrunning⟩ := exists_exec_of_any hrun
  obtain ⟨hrows, -⟩ := row_history threeSamples asManyAsFirst _ s' threeBlocks hexec
  have hblocks : (labels (loopStep threeSamples asManyAsFirst) (takenUp threeSamples asManyAsFirst)
      ⟨fun _ => 0, true⟩ threeBlocks).map (fun block => block 0) =
        [some [3, 5, 6], some [2, 7], some [1]] := by
    decide +kernel
  have hrow : ∀ i, (threeSamples.outputRow 0 s'.memory)[i]? =
      (latest [some [3, 5, 6], some [2, 7], some [1]] i).or
        (threeSamples.outputRow 0 (fun _ => 0))[i]? := by
    intro i
    rw [← hblocks]
    exact hrows ⟨0, by decide⟩ i
  exact ⟨s', hexec, hrow 0, hrow 1, hrow 2, hrunning⟩

end MabTilde

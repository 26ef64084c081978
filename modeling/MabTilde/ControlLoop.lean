import MabTilde.Drain

/-!
The main loop with the drain in it.

Before each poll `main()` drains the control ring, and a producer that keeps up
holds it there. What the rest of the loop gets done within a number of its own
steps, the loop as a whole gets done within that number and the accesses of one
drain: two, and six for each message there is to take, those included that are
accepted in the meantime.
-/

namespace MabTilde.Spsc

/-- A system one of whose parties is `main()`. -/
structure Polling (σ α : Type) where
  step : σ → α → Option σ
  isMain : α → Bool
  /-- The next step of `main()` is its poll. -/
  atPoll : σ → Bool
  /-- `main()` has made the control ring. -/
  hasRing : σ → Bool

structure Loop (σ : Type) where
  rest : σ
  control : Drain

inductive LoopAct (α : Type)
  | enqueue (msg : ℤ)
  | producer
  | rest (a : α)

variable {σ α : Type} (p : Polling σ α)

/-- `main()` polls when the drain has ended, and drains again before the next poll. -/
def loopStep (s : Loop σ) : LoopAct α → Option (Loop σ)
  | .enqueue msg =>
      if p.hasRing s.rest then
        (drainStep s.control (.enqueue msg)).map fun d => { s with control := d }
      else none
  | .producer =>
      if p.hasRing s.rest then
        (drainStep s.control .producer).map fun d => { s with control := d }
      else none
  | .rest a =>
      if p.isMain a && p.atPoll s.rest then
        if s.control.running then (drainStep s.control .main).map fun d => { s with control := d }
        else (p.step s.rest a).map fun t => ⟨t, { s.control with running := true }⟩
      else (p.step s.rest a).map fun t => { s with rest := t }

def LoopAct.isMain : LoopAct α → Bool
  | .rest a => p.isMain a
  | _ => false

/-- What one drain can cost at most that takes what is in the ring in `r` and all that
is accepted up to `r'`. -/
def drainSteps (r r' : Spsc) : ℕ :=
  6 * (r.ring.contents.length + (r'.accepted.length - r.accepted.length)) + 2

section Lemmas

variable {p} {s s' : Loop σ} {a : LoopAct α}

/-- A step is one of the ring's or the drain's, or one of the rest. -/
theorem loopStep_cases (hs : loopStep p s a = some s') :
    (∃ b, drainStep s.control b = some s'.control ∧ s'.rest = s.rest ∧
        isMain b = a.isMain p ∧ (isMain b = true → p.atPoll s.rest = true)) ∨
      ∃ b, a = .rest b ∧ p.step s.rest b = some s'.rest ∧
        s'.control.spsc = s.control.spsc ∧ (s'.control = s.control ∨
          (p.isMain b = true ∧ p.atPoll s.rest = true ∧ s.control.running = false)) := by
  cases a with
  | enqueue msg =>
      simp only [loopStep, Option.ite_none_right_eq_some, Option.map_eq_some_iff] at hs
      obtain ⟨-, d, hd, rfl⟩ := hs
      exact .inl ⟨_, hd, rfl, rfl, by rintro ⟨⟩⟩
  | producer =>
      simp only [loopStep, Option.ite_none_right_eq_some, Option.map_eq_some_iff] at hs
      obtain ⟨-, d, hd, rfl⟩ := hs
      exact .inl ⟨_, hd, rfl, rfl, by rintro ⟨⟩⟩
  | rest b =>
      simp only [loopStep, Bool.and_eq_true] at hs
      split at hs
      · rename_i hpoll
        split at hs
        · obtain ⟨d, hd, rfl⟩ := Option.map_eq_some_iff.mp hs
          exact .inl ⟨_, hd, rfl, hpoll.1.symm, fun _ => hpoll.2⟩
        · rename_i hrun
          obtain ⟨t, ht, rfl⟩ := Option.map_eq_some_iff.mp hs
          exact .inr ⟨b, rfl, ht, rfl, .inr ⟨hpoll.1, hpoll.2, by simpa using hrun⟩⟩
      · obtain ⟨t, ht, rfl⟩ := Option.map_eq_some_iff.mp hs
        exact .inr ⟨b, rfl, ht, rfl, .inl rfl⟩

theorem loop_keeps {I : σ → Prop} (hI : ∀ t b t', I t → p.step t b = some t' → I t')
    (h : I s.rest ∧ Counted s.control.spsc) (hs : loopStep p s a = some s') :
    I s'.rest ∧ Counted s'.control.spsc := by
  rcases loopStep_cases hs with ⟨b, hb, hrest, -⟩ | ⟨b, -, hb, hspsc, -⟩
  · exact ⟨hrest ▸ h.1, counted_drain h.2 hb⟩
  · exact ⟨hI _ _ _ h.1 hb, hspsc ▸ h.2⟩

theorem loop_invariant {I : σ → Prop} (hI : ∀ t b t', I t → p.step t b = some t' → I t')
    (h : I s.rest ∧ Counted s.control.spsc) (hs : Runs.Reaches (loopStep p) s s') :
    I s'.rest ∧ Counted s'.control.spsc :=
  hs.invariant (I := fun s => I s.rest ∧ Counted s.control.spsc)
    (fun _ _ _ h hs => loop_keeps hI h hs) h

theorem loop_enabled {b : α} (h : ∃ t, p.step s.rest b = some t) :
    ∃ s', loopStep p s (.rest b) = some s' := by
  obtain ⟨t, ht⟩ := h
  simp only [loopStep]
  split
  · split
    · rename_i hrun
      obtain ⟨d, hd⟩ := drain_enabled hrun
      exact ⟨_, Option.map_eq_some_iff.mpr ⟨d, hd, rfl⟩⟩
    · exact ⟨_, Option.map_eq_some_iff.mpr ⟨t, ht, rfl⟩⟩
  · exact ⟨_, Option.map_eq_some_iff.mpr ⟨t, ht, rfl⟩⟩

end Lemmas

section Within

variable {p} {I Q : σ → Prop} (μ : σ → ℕ) (atPoll : ℕ) {s s' : Loop σ} {a : LoopAct α}

/-- The steps of the rest, and those of the drain if it is still to come: before
the poll the rank is at least what it is there. -/
def loopRank (s : Loop σ) : ℕ :=
  μ s.rest + if atPoll ≤ μ s.rest then potential s.control else 0

variable {μ atPoll}

theorem loopRank_step
    (hμ : ∀ t b t', I t → ¬ Q t → p.step t b = some t' → ¬ Q t' →
      μ t' ≤ μ t ∧ (p.isMain b = true → μ t' < μ t))
    (hpoll : ∀ t, I t → p.atPoll t = true → μ t = atPoll)
    (h : I s.rest ∧ Counted s.control.spsc) (hq : ¬ Q s.rest) (hs : loopStep p s a = some s')
    (hq' : ¬ Q s'.rest) :
    (a.isMain p).toNat + loopRank μ atPoll s' + 6 * s.control.spsc.ring.head ≤
      loopRank μ atPoll s + 6 * s'.control.spsc.ring.head := by
  unfold loopRank
  rcases loopStep_cases hs with ⟨b, hb, hrest, hmain, hat⟩ | ⟨b, rfl, hb, hspsc, hsame⟩
  · have hpay := potential_step h.2 hb
    have hhead := head_le_drain h.2 hb
    rw [hrest, ← hmain]
    by_cases hdrain : atPoll ≤ μ s.rest
    · rw [if_pos hdrain, if_pos hdrain]
      omega
    · -- past the poll only the producer is at work
      have hother : isMain b = false := by
        cases hb' : isMain b with
        | false => rfl
        | true => exact absurd (hpoll _ h.1 (hat hb')).ge hdrain
      rw [if_neg hdrain, if_neg hdrain, hother, Bool.toNat_false]
      omega
  · obtain ⟨hle, hlt⟩ := hμ _ _ _ h.1 hq hb hq'
    have hwork : (p.isMain b).toNat + μ s'.rest ≤ μ s.rest := by
      cases hb' : p.isMain b with
      | false => rwa [Bool.toNat_false, Nat.zero_add]
      | true =>
          rw [Bool.toNat_true, Nat.add_comm]
          exact hlt hb'
    rw [hspsc]
    show (p.isMain b).toNat + _ + _ ≤ _
    rcases hsame with hsame | ⟨hmain, hat, -⟩
    · rw [hsame]
      split <;> split <;> omega
    · have hbelow := hlt hmain
      rw [hpoll _ h.1 hat] at hbelow
      rw [if_neg (Nat.not_le.mpr hbelow)]
      split <;> omega

/-- What the rest reaches within `μ` of the steps of `main()` the loop reaches within
these and one drain. -/
theorem loop_within
    (hI : ∀ t b t', I t → p.step t b = some t' → I t')
    (hQ : ∀ t b t', I t → Q t → p.step t b = some t' → Q t')
    (hμ : ∀ t b t', I t → ¬ Q t → p.step t b = some t' → ¬ Q t' →
      μ t' ≤ μ t ∧ (p.isMain b = true → μ t' < μ t))
    (hpoll : ∀ t, I t → p.atPoll t = true → μ t = atPoll)
    (hzero : ∀ t, I t → μ t = 0 → Q t) (h : I s.rest ∧ Counted s.control.spsc)
    {acts : List (LoopAct α)} (hs : Runs.exec (loopStep p) s acts = some s')
    (hcount : μ s.rest + drainSteps s.control.spsc s'.control.spsc ≤
      acts.countP (LoopAct.isMain p)) : Q s'.rest := by
  have hkeeps : ∀ s a s', I s.rest ∧ Counted s.control.spsc → loopStep p s a = some s' →
      I s'.rest ∧ Counted s'.control.spsc := fun _ _ _ h hs => loop_keeps hI h hs
  have hend := loop_invariant hI h ⟨acts, hs⟩
  have hstart : loopRank μ atPoll s ≤ μ s.rest + (6 * s.control.spsc.ring.contents.length + 2) := by
    have hpotential := potential_le s.control
    unfold loopRank
    split <;> omega
  refine Runs.exec_within (I := fun s => I s.rest ∧ Counted s.control.spsc)
    (Q := fun s => Q s.rest) (LoopAct.isMain p) (loopRank μ atPoll)
    (fun s => 6 * s.control.spsc.ring.head) hkeeps ?_
    (fun _ _ _ h hq hs hq' => loopRank_step hμ hpoll h hq hs hq') ?_ h hs ?_
  · intro s a s' h hq hs
    rcases loopStep_cases hs with ⟨b, -, hrest, -⟩ | ⟨b, -, hb, -⟩
    · exact hrest ▸ hq
    · exact hQ _ _ _ h.1 hq hb
  · intro s h hzero'
    exact hzero _ h.1 (by unfold loopRank at hzero'; omega)
  · have haccepted := h.2.accepted
    have haccepted' := hend.2.accepted
    unfold drainSteps at hcount
    show loopRank μ atPoll s + 6 * s'.control.spsc.ring.head ≤
      acts.countP (LoopAct.isMain p) + 6 * s.control.spsc.ring.head
    omega

end Within

end MabTilde.Spsc

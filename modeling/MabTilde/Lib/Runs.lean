import Mathlib.Order.Basic
import Mathlib.Tactic.Common

/-!
Runs of a nondeterministic system given by a partial step function.

The nondeterminism is in the actions: `step s a` says where the action `a`
takes the state `s`, and `none` that `a` is not enabled there. A run is then
just the list of its actions, and a statement about every interleaving is a
statement about every list. `EachStep` and `Along` speak about all the steps
and all the states of a run; the rules below reduce them to one step, which
is the only thing a user has to look at.
-/

namespace Runs

variable {σ α β : Type*}

/-- The state a list of actions leads to, if all of them are enabled in turn. -/
def exec (step : σ → α → Option σ) : σ → List α → Option σ
  | s, [] => some s
  | s, a :: acts => (step s a).bind fun s' => exec step s' acts

/-- Every step taken by the run satisfies `Q`, a property of the state before,
the action and the state after. -/
def EachStep (step : σ → α → Option σ) (Q : σ → α → σ → Prop) : σ → List α → Prop
  | _, [] => True
  | s, a :: acts => ∀ s', step s a = some s' → Q s a s' ∧ EachStep step Q s' acts

/-- Every state the run passes through, both ends included, satisfies `P`. -/
def Along (step : σ → α → Option σ) (P : σ → Prop) (s : σ) (acts : List α) : Prop :=
  P s ∧ EachStep step (fun _ _ s' => P s') s acts

def Reaches (step : σ → α → Option σ) (s s' : σ) : Prop :=
  ∃ acts, exec step s acts = some s'

section Rules

variable {step : σ → α → Option σ} {s s' : σ} {acts : List α}

@[simp] theorem exec_nil : exec step s [] = some s := rfl

theorem exec_cons (a : α) :
    exec step s (a :: acts) = (step s a).bind fun s' => exec step s' acts := rfl

theorem exec_cons_of_step {a : α} (h : step s a = some s') :
    exec step s (a :: acts) = exec step s' acts := by
  rw [exec_cons, h, Option.bind_some]

theorem exec_append (acts' : List α) :
    exec step s (acts ++ acts') = (exec step s acts).bind fun s' => exec step s' acts' := by
  induction acts generalizing s with
  | nil => rfl
  | cons a acts ih =>
      simp only [List.cons_append, exec_cons, Option.bind_assoc]
      congr 1
      funext s'
      exact ih

theorem exec_of_imp {step' : σ → α → Option σ}
    (h : ∀ s a s', step' s a = some s' → step s a = some s')
    (hexec : exec step' s acts = some s') : exec step s acts = some s' := by
  induction acts generalizing s with
  | nil => exact hexec
  | cons a acts ih =>
      rw [exec_cons, Option.bind_eq_some_iff] at hexec
      obtain ⟨t, ht, hexec⟩ := hexec
      exact (exec_cons_of_step (h s a t ht)).trans (ih hexec)

theorem exists_exec_of_any {p : σ → Bool} (h : (exec step s acts).any p = true) :
    ∃ s', exec step s acts = some s' ∧ p s' = true :=
  (Option.any_eq_true p (exec step s acts)).mp h

/-! ### Invariants -/

/-- What every step meeting the guard `G` preserves holds at the end of every
run whose steps all meet it. -/
theorem exec_invariant {I : σ → Prop} {G : σ → α → σ → Prop}
    (hstep : ∀ s a s', I s → step s a = some s' → G s a s' → I s')
    (hI : I s) (hG : EachStep step G s acts) (h : exec step s acts = some s') : I s' := by
  induction acts generalizing s with
  | nil =>
      rw [exec_nil, Option.some.injEq] at h
      exact h ▸ hI
  | cons a acts ih =>
      rw [exec_cons, Option.bind_eq_some_iff] at h
      obtain ⟨t, ht, h⟩ := h
      obtain ⟨hQ, hrest⟩ := hG t ht
      exact ih (hstep s a t hI ht hQ) hrest h

theorem EachStep.trivial (s : σ) (acts : List α) :
    EachStep step (fun _ _ _ => True) s acts := by
  induction acts generalizing s with
  | nil => exact True.intro
  | cons a acts ih => exact fun s' _ => ⟨True.intro, ih s'⟩

theorem EachStep.and {Q R : σ → α → σ → Prop} (hQ : EachStep step Q s acts)
    (hR : EachStep step R s acts) : EachStep step (fun s a s' => Q s a s' ∧ R s a s') s acts := by
  induction acts generalizing s with
  | nil => exact True.intro
  | cons a acts ih =>
      intro t ht
      obtain ⟨hq, hQ⟩ := hQ t ht
      obtain ⟨hr, hR⟩ := hR t ht
      exact ⟨⟨hq, hr⟩, ih hQ hR⟩

/-- The unguarded rule: what every step preserves holds of every reachable
state. -/
theorem Reaches.invariant {I : σ → Prop}
    (hstep : ∀ s a s', I s → step s a = some s' → I s')
    (hI : I s) (h : Reaches step s s') : I s' := by
  obtain ⟨acts, hacts⟩ := h
  exact exec_invariant (G := fun _ _ _ => True) (fun s a t hs ht _ => hstep s a t hs ht) hI
    (EachStep.trivial s acts) hacts

theorem Reaches.trans {s'' : σ} (h : Reaches step s s') (h' : Reaches step s' s'') :
    Reaches step s s'' := by
  obtain ⟨acts, hacts⟩ := h
  obtain ⟨acts', hacts'⟩ := h'
  exact ⟨acts ++ acts', by rw [exec_append, hacts, Option.bind_some, hacts']⟩

theorem Along.of_invariant {I P : σ → Prop}
    (hstep : ∀ s a s', I s → step s a = some s' → I s') (hP : ∀ s, I s → P s) (hI : I s) :
    Along step P s acts := by
  refine ⟨hP s hI, ?_⟩
  induction acts generalizing s with
  | nil => exact True.intro
  | cons a acts ih =>
      intro t ht
      have hIt := hstep s a t hI ht
      exact ⟨hP t hIt, ih hIt⟩

/-- Under an invariant that the guard preserves, the guard may be traded for
any property that it implies step by step. -/
theorem EachStep.imp {I : σ → Prop} {G Q : σ → α → σ → Prop}
    (hstep : ∀ s a s', I s → step s a = some s' → G s a s' → I s')
    (hQ : ∀ s a s', I s → step s a = some s' → G s a s' → Q s a s')
    (hI : I s) (hG : EachStep step G s acts) : EachStep step Q s acts := by
  induction acts generalizing s with
  | nil => exact True.intro
  | cons a acts ih =>
      intro t ht
      obtain ⟨hg, hrest⟩ := hG t ht
      exact ⟨hQ s a t hI ht hg, ih (hstep s a t hI ht hg) hrest⟩

/-- When, under the invariant, one step meets the guard exactly if it has the
property, a whole run meets the guard exactly if all of it has the property. -/
theorem eachStep_iff {I : σ → Prop} {G Q : σ → α → σ → Prop}
    (hstep : ∀ s a s', I s → step s a = some s' → G s a s' → I s')
    (hiff : ∀ s a s', I s → step s a = some s' → (Q s a s' ↔ G s a s'))
    (hI : I s) : EachStep step Q s acts ↔ EachStep step G s acts := by
  refine ⟨?_, ?_⟩
  · exact EachStep.imp (fun s a t hs ht hq => hstep s a t hs ht ((hiff s a t hs ht).mp hq))
      (fun s a t hs ht hq => (hiff s a t hs ht).mp hq) hI
  · exact EachStep.imp hstep (fun s a t hs ht hg => (hiff s a t hs ht).mpr hg) hI

theorem along_iff {I P : σ → Prop} {G : σ → α → σ → Prop}
    (hstep : ∀ s a s', I s → step s a = some s' → G s a s' → I s')
    (hP : ∀ s, I s → P s)
    (hG : ∀ s a s', I s → step s a = some s' → P s' → G s a s')
    (hI : I s) : Along step P s acts ↔ EachStep step G s acts := by
  have hiff : ∀ s a s', I s → step s a = some s' → (P s' ↔ G s a s') := fun s a t hs ht =>
    ⟨hG s a t hs ht, fun hg => hP t (hstep s a t hs ht hg)⟩
  rw [Along, eachStep_iff hstep hiff hI]
  exact and_iff_right (hP s hI)

def checkEach (step : σ → α → Option σ) (g : σ → α → Bool) : σ → List α → Bool
  | _, [] => true
  | s, a :: acts =>
      match step s a with
      | none => true
      | some s' => g s a && checkEach step g s' acts

theorem eachStep_of_check {g : σ → α → Bool} (h : checkEach step g s acts = true) :
    EachStep step (fun s a _ => g s a = true) s acts := by
  induction acts generalizing s with
  | nil => exact True.intro
  | cons a acts ih =>
      intro s' hs'
      simp only [checkEach, hs', Bool.and_eq_true] at h
      exact ⟨h.1, ih h.2⟩

/-! ### Progress -/

/-- A variant that some enabled, guarded step decreases in every state short of
the goal leads to the goal. -/
theorem exec_progress {I Q : σ → Prop} {G : σ → α → σ → Prop} (μ : σ → ℕ)
    (hstep : ∀ s, I s → ¬ Q s → ∃ a s', step s a = some s' ∧ G s a s' ∧ I s' ∧ μ s' < μ s)
    (hI : I s) : ∃ acts s', exec step s acts = some s' ∧ EachStep step G s acts ∧
      I s' ∧ Q s' := by
  induction hn : μ s using Nat.strongRecOn generalizing s with
  | ind n ih =>
      by_cases hgoal : Q s
      · exact ⟨[], s, rfl, True.intro, hI, hgoal⟩
      · obtain ⟨a, t, ht, hg, hIt, hlt⟩ := hstep s hI hgoal
        obtain ⟨acts, s', hexec, hG, hs'⟩ := ih (μ t) (hn ▸ hlt) hIt rfl
        refine ⟨a :: acts, s', (exec_cons_of_step ht).trans hexec, ?_, hs'⟩
        intro t' ht'
        obtain rfl : t = t' := Option.some.inj (ht.symm.trans ht')
        exact ⟨hg, hG⟩

/-- Amortised: where a step of one kind is paid for by the potential `μ`, and what
the potential gains by the others is counted by `c`, a run short of its goal has
taken no more of these steps than the potential it starts with and what has been
counted. The goal is one that is not lost again. -/
theorem exec_budget {I Q : σ → Prop} (work : α → Bool) (μ c : σ → ℕ)
    (hI : ∀ s a s', I s → step s a = some s' → I s')
    (hQ : ∀ s a s', I s → Q s → step s a = some s' → Q s')
    (hpay : ∀ s a s', I s → ¬ Q s → step s a = some s' → ¬ Q s' →
      (work a).toNat + μ s' + c s ≤ μ s + c s')
    (hs : I s) (h : exec step s acts = some s') :
    Q s' ∨ acts.countP work + μ s' + c s ≤ μ s + c s' := by
  induction acts generalizing s with
  | nil =>
      rw [exec_nil, Option.some.injEq] at h
      subst h
      right
      rw [List.countP_nil]
      omega
  | cons a acts ih =>
      rw [exec_cons, Option.bind_eq_some_iff] at h
      obtain ⟨t, ht, h⟩ := h
      have hIt := hI s a t hs ht
      by_cases hqt : Q t
      · left
        exact (exec_invariant (I := fun s => I s ∧ Q s) (G := fun _ _ _ => True)
          (fun s a t hst ht _ => ⟨hI s a t hst.1 ht, hQ s a t hst.1 hst.2 ht⟩) ⟨hIt, hqt⟩
          (EachStep.trivial t acts) h).2
      · have hfirst := hpay s a t hs (fun hq => hqt (hQ s a t hs hq ht)) ht hqt
        refine (ih hIt h).imp_right fun hrest => ?_
        have hcount : (a :: acts).countP work = acts.countP work + (work a).toNat := by
          rw [List.countP_cons]
          cases work a <;> rfl
        omega

/-- So it reaches the goal when they have used that up, if without potential there
is nothing left to do. -/
theorem exec_within {I Q : σ → Prop} (work : α → Bool) (μ c : σ → ℕ)
    (hI : ∀ s a s', I s → step s a = some s' → I s')
    (hQ : ∀ s a s', I s → Q s → step s a = some s' → Q s')
    (hpay : ∀ s a s', I s → ¬ Q s → step s a = some s' → ¬ Q s' →
      (work a).toNat + μ s' + c s ≤ μ s + c s')
    (hzero : ∀ s, I s → μ s = 0 → Q s)
    (hs : I s) (h : exec step s acts = some s') (hcount : μ s + c s' ≤ acts.countP work + c s) :
    Q s' := by
  rcases exec_budget work μ c hI hQ hpay hs h with hq | hspent
  · exact hq
  · apply hzero s' (Reaches.invariant hI hs ⟨acts, h⟩)
    omega

end Rules

/-! ### Simulation

A concrete step either takes effect in the abstract system, and then it says
by which abstract action, or is invisible there. `labels` collects the
abstract actions of a run in the order in which they take effect. -/

def labels (step : σ → α → Option σ) (lab : σ → α → Option β) : σ → List α → List β
  | _, [] => []
  | s, a :: acts => (lab s a).toList ++
      match step s a with
      | none => []
      | some s' => labels step lab s' acts

/-- What relates the ends of every step through its label, and composes, relates
the ends of every run through its labels. -/
theorem labels_compose {step : σ → α → Option σ} {lab : σ → α → Option β} {I : σ → Prop}
    {R : σ → List β → σ → Prop} (hrefl : ∀ s, I s → R s [] s)
    (htrans : ∀ s l s' l' s'', R s l s' → R s' l' s'' → R s (l ++ l') s'')
    (hstep : ∀ s a s', I s → step s a = some s' → R s (lab s a).toList s' ∧ I s')
    {s s' : σ} {acts : List α} (hI : I s) (h : exec step s acts = some s') :
    R s (labels step lab s acts) s' := by
  induction acts generalizing s with
  | nil =>
      rw [exec_nil, Option.some.injEq] at h
      exact h ▸ hrefl s hI
  | cons a acts ih =>
      rw [exec_cons, Option.bind_eq_some_iff] at h
      obtain ⟨t, ht, h⟩ := h
      obtain ⟨hR, hIt⟩ := hstep s a t hI ht
      simp only [labels, ht]
      exact htrans s _ t _ s' hR (ih hIt h)

/-! ### Refinement

Where the matching abstract action cannot be read off the concrete one, or
takes several abstract steps, the two systems are tied by a relation between
their states. What the abstract system keeps is then kept by the concrete one,
as far as the relation carries it over. -/

/-- Under the guard `G` the concrete steps are runs of the abstract system, of
any length, whose steps meet the guard `H`; and `I` is an invariant of these. -/
structure Refines {τ : Type*} (step : σ → α → Option σ) (G : σ → α → σ → Prop)
    (astep : τ → β → Option τ) (H : τ → β → τ → Prop) (I : τ → Prop) (R : σ → τ → Prop) :
    Prop where
  keeps : ∀ t b t', I t → astep t b = some t' → H t b t' → I t'
  simulates : ∀ s t a s', I t → R s t → step s a = some s' → G s a s' →
    ∃ bs t', exec astep t bs = some t' ∧ EachStep astep H t bs ∧ R s' t'

section Refinement

variable {τ : Type*} {step : σ → α → Option σ} {G Q : σ → α → σ → Prop}
  {astep : τ → β → Option τ} {H : τ → β → τ → Prop} {I : τ → Prop} {R : σ → τ → Prop}
  {s : σ} {t : τ} {acts : List α}

theorem EachStep.of_forall (h : ∀ a ∈ acts, ∀ s s', Q s a s') : EachStep step Q s acts := by
  induction acts generalizing s with
  | nil => exact True.intro
  | cons a acts ih =>
      intro s' _
      refine ⟨h a List.mem_cons_self s s', ih ?_⟩
      intro b hb
      exact h b (List.mem_cons_of_mem a hb)

theorem exec_embed (emb : τ → σ) (f : β → α)
    (h : ∀ t b, step (emb t) (f b) = (astep t b).map emb) (t : τ) (bs : List β) :
    exec step (emb t) (bs.map f) = (exec astep t bs).map emb := by
  induction bs generalizing t with
  | nil => rfl
  | cons b bs ih =>
      rw [List.map_cons, exec_cons, exec_cons, h]
      cases astep t b with
      | none => rfl
      | some t' => exact ih t'

theorem Refines.matched {a : α} {s' : σ} (h : Refines step G astep H I R) (hI : I t)
    (hR : R s t) (hs : step s a = some s') (hg : G s a s') : ∃ t', I t' ∧ R s' t' := by
  obtain ⟨bs, t', hexec, hH, hR'⟩ := h.simulates s t a s' hI hR hs hg
  exact ⟨t', exec_invariant h.keeps hI hH hexec, hR'⟩

/-- What holds of a concrete step whenever its ends are related to invariant
abstract states holds of every step of every guarded run. -/
theorem Refines.eachStep (h : Refines step G astep H I R)
    (hQ : ∀ s t a s' t', I t → I t' → R s t → R s' t' → step s a = some s' → G s a s' →
      Q s a s')
    (hI : I t) (hR : R s t) (hG : EachStep step G s acts) : EachStep step Q s acts := by
  refine EachStep.imp (I := fun s => ∃ t, I t ∧ R s t) ?_ ?_ ⟨t, hI, hR⟩ hG
  · rintro s a s' ⟨t, hI, hR⟩ hs hg
    exact h.matched hI hR hs hg
  · rintro s a s' ⟨t, hI, hR⟩ hs hg
    obtain ⟨t', hI', hR'⟩ := h.matched hI hR hs hg
    exact hQ s t a s' t' hI hI' hR hR' hs hg

end Refinement

end Runs

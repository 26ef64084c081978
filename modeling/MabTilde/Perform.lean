import MabTilde.Lib.ForwardCopy

/-!
The audio callback of the external as it stands.

It does not look at the object, nor at the number of vectors. It copies the
first signal vector to the first outlet's, sample by sample, and the host may
hand it vectors that share memory. In place, or apart, the signal passes
unchanged; an outlet's vector that begins inside the inlet's gets the first few
samples over and over.
-/

namespace MabTilde.External

open ForwardCopy

abbrev Signals : Type := ℕ → BitVec 64

/-- The arguments `mab_tilde_perform64` looks at, signal vectors being given by
their addresses. -/
structure Vectors where
  ins : ℕ → ℕ
  outs : ℕ → ℕ
  sampleframes : ℤ

/-- `mab_tilde_perform64`. With a count below one the loop ends at once. -/
def mabTildePerform64 (v : Vectors) (m : Signals) : Signals :=
  copyUp (v.ins 0) (v.outs 0) v.sampleframes.toNat m

/-- The outlet gets what the inlet holds, whatever that is. -/
def PassesThrough (v : Vectors) : Prop :=
  ∀ m i, i < v.sampleframes.toNat → mabTildePerform64 v m (v.outs 0 + i) = m (v.ins 0 + i)

/-- Where the callback writes, and what, for all vectors; and it is a bypass
exactly if the outlet's vector does not begin behind the first sample and
before the end of the inlet's. -/
theorem passesThrough_iff (v : Vectors) :
    (∀ m a, mabTildePerform64 v m a =
      if v.outs 0 ≤ a ∧ (a : ℤ) < v.outs 0 + v.sampleframes then
        m (v.ins 0 + if v.ins 0 < v.outs 0 then (a - v.outs 0) % (v.outs 0 - v.ins 0)
          else a - v.outs 0)
      else m a) ∧
    (PassesThrough v ↔
      ¬ (v.ins 0 < v.outs 0 ∧ (v.outs 0 : ℤ) < v.ins 0 + v.sampleframes)) := by
  refine ⟨?_, ?_⟩
  · intro m a
    have hrange : (v.outs 0 ≤ a ∧ a < v.outs 0 + v.sampleframes.toNat) ↔
        (v.outs 0 ≤ a ∧ (a : ℤ) < v.outs 0 + v.sampleframes) := by omega
    rw [mabTildePerform64, copyUp_apply]
    exact if_congr hrange rfl rfl
  · have hsamples : Nontrivial (BitVec 64) := ⟨0, 1, by decide⟩
    have hinside : (v.ins 0 < v.outs 0 ∧ v.outs 0 < v.ins 0 + v.sampleframes.toNat) ↔
        (v.ins 0 < v.outs 0 ∧ (v.outs 0 : ℤ) < v.ins 0 + v.sampleframes) := by omega
    rw [← hinside]
    exact arrives_iff

end MabTilde.External

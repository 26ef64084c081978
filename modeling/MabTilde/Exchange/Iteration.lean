import MabTilde.Exchange.Worker

/-!
One iteration of the serving loop with nobody in between.

`Backend.serve` is the `for` loop over the channels as a program of its own,
and `exec_serve` says that it is what the worker does when it is given the
turns: from the poll that finds `is_input_ready` set to the announcement.
-/

namespace MabTilde.Exchange

variable {C : ℕ} {Row Out L A : Type}

def Backend.serveRow (k : Backend Row Out) (row old : Row) : Option Row :=
  (k.inferBlock row).bind fun out => k.writeBack old out

/-- The output buffer after the channels listed, none of which may raise. -/
def Backend.serveFrom (k : Backend Row Out) (input output : Block C Row) :
    List (Fin C) → Option (Block C Row)
  | [] => some output
  | ch :: chs =>
      (k.serveRow (input ch) (output ch)).bind fun row =>
        k.serveFrom input (Function.update output ch row) chs

/-- `for ch in range(num_channels)` -/
def Backend.serve (k : Backend Row Out) (input output : Block C Row) : Option (Block C Row) :=
  k.serveFrom input output (List.finRange C)

section Rows

variable {k : Backend Row Out} {input output output' : Block C Row}

/-- Each channel is served on its own: the loop succeeds if all rows do. -/
theorem serveFrom_eq_some_iff {chs : List (Fin C)} (hnodup : chs.Nodup) :
    k.serveFrom input output chs = some output' ↔
      ∀ ch, if ch ∈ chs then k.serveRow (input ch) (output ch) = some (output' ch)
        else output' ch = output ch := by
  induction chs generalizing output with
  | nil =>
      simp only [Backend.serveFrom, Option.some.injEq, List.not_mem_nil, if_false]
      exact eq_comm.trans funext_iff
  | cons c chs ih =>
      obtain ⟨hc, hnodup⟩ := List.nodup_cons.mp hnodup
      simp only [Backend.serveFrom, Option.bind_eq_some_iff, ih hnodup]
      refine ⟨?_, ?_⟩
      · rintro ⟨row, hrow, hrest⟩ ch
        by_cases hch : ch = c
        · subst hch
          have hself := hrest ch
          rw [if_neg hc, Function.update_self] at hself
          rw [if_pos List.mem_cons_self, hrow, hself]
        · have hother := hrest ch
          rw [Function.update_of_ne hch] at hother
          simpa [hch] using hother
      · intro hall
        have hself := hall c
        rw [if_pos List.mem_cons_self] at hself
        refine ⟨output' c, hself, fun ch => ?_⟩
        by_cases hch : ch = c
        · subst hch
          rw [if_neg hc, Function.update_self]
        · rw [Function.update_of_ne hch]
          simpa [hch] using hall ch

theorem serve_eq_some_iff :
    k.serve input output = some output' ↔
      ∀ ch, k.serveRow (input ch) (output ch) = some (output' ch) := by
  rw [Backend.serve, serveFrom_eq_some_iff (List.nodup_finRange C)]
  apply forall_congr'
  intro ch
  rw [if_pos (List.mem_finRange ch)]

end Rows

section Machine

variable {k : Backend Row Out} {cppStep : L → A → Shared C Row → Option (L × Shared C Row)}
  {m : Shared C Row} {cpp : L} {rows : List Row} {inferred : List (List Row)}
  {output' : Block C Row}

theorem exec_serveFrom {i : ℕ} (n : ℕ) (m : Shared C Row) (rows : List Row)
    (inferred : List (List Row)) (hn : i + n = C)
    (h : k.serveFrom m.input m.output ((List.finRange C).drop i) = some output') :
    ∃ rows' inferred', Runs.exec (step k cppStep)
        ⟨m, ⟨loopFrom C Row Out i, rows, inferred⟩, cpp⟩ (List.replicate (3 * n) .worker) =
      some ⟨{ m with output := output' }, ⟨.setOutputReady, rows', inferred'⟩, cpp⟩ := by
  induction n generalizing i m rows inferred with
  | zero =>
      have hi : C ≤ i := by omega
      rw [List.drop_eq_nil_of_le (by rw [List.length_finRange]; exact hi)] at h
      obtain rfl := Option.some.inj h
      rw [loopFrom_of_le hi]
      exact ⟨rows, inferred, rfl⟩
  | succ n ih =>
      have hi : i < C := by omega
      have hlen : i < (List.finRange C).length := by rwa [List.length_finRange]
      have hget : (List.finRange C)[i] = ⟨i, hi⟩ := by simp
      rw [List.drop_eq_getElem_cons hlen, hget,
        Backend.serveFrom, Option.bind_eq_some_iff] at h
      obtain ⟨row, hrow, hrest⟩ := h
      obtain ⟨out, hinfer, hwrite⟩ := Option.bind_eq_some_iff.mp hrow
      obtain ⟨rows', inferred', hexec⟩ := ih
        { m with output := Function.update m.output ⟨i, hi⟩ row } (rows ++ [m.input ⟨i, hi⟩])
        (noteInferred C (i + 1) (rows ++ [m.input ⟨i, hi⟩]) inferred) (by omega) hrest
      refine ⟨rows', inferred', ?_⟩
      rw [Nat.mul_succ, Nat.add_comm, List.replicate_add, Runs.exec_append, loopFrom_of_lt hi]
      simp only [List.replicate, Runs.exec, step, workerStep, hinfer, hwrite, Option.map_some,
        Option.bind_some]
      exact hexec

/-- The whole iteration up to the announcement, which changes rows and nothing
else of the shared memory. -/
theorem exec_serve (hflag : m.isInputReady = true)
    (h : k.serve m.input m.output = some output') :
    ∃ rows' inferred', Runs.exec (step k cppStep) ⟨m, ⟨.poll, rows, inferred⟩, cpp⟩
        (.worker :: List.replicate (3 * C) .worker) =
      some ⟨{ m with output := output' }, ⟨.setOutputReady, rows', inferred'⟩, cpp⟩ := by
  have hpoll : step k cppStep ⟨m, ⟨.poll, rows, inferred⟩, cpp⟩ .worker =
      some ⟨m, ⟨loopFrom C Row Out 0, [], noteInferred C 0 [] inferred⟩, cpp⟩ := by
    simp only [step, workerStep]
    rw [if_pos hflag]
    rfl
  rw [Runs.exec_cons_of_step hpoll]
  exact exec_serveFrom C m [] _ (Nat.zero_add C) h

end Machine

end MabTilde.Exchange

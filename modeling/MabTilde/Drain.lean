import MabTilde.LockFreeRingBuffer

/-!
The drain of the control ring at the head of the main loop.

`main()` calls `dequeue()` until it returns `None`, and looks at the audio
flags only then, while the producer may enqueue between any two accesses. A
drain that ends has taken everything that was in the ring when it began, and
its length is paid for message by message; but the messages that arrive while
it runs are paid for as well, so the loop has no bound of its own.
-/

namespace MabTilde.Spsc

open LockFreeRingBuffer

/-- The ring and its two parties, and whether `main()` is still in the loop. -/
structure Drain where
  spsc : Spsc
  running : Bool

inductive DrainAct
  /-- The next access of `main()`. -/
  | main
  | enqueue (msg : ℤ)
  | producer

def answersNone (s : Spsc) : Bool :=
  match s.cons with
  | .loadTail head => decide (head = s.ring.tail)
  | _ => false

def drainStep (s : Drain) : DrainAct → Option Drain
  | .main =>
      if s.running then
        match s.spsc.cons with
        | .idle => (step s.spsc .dequeue).map fun r => ⟨r, true⟩
        | _ => (step s.spsc .consumer).map fun r => ⟨r, !s.spsc.answersNone⟩
      else none
  | .enqueue msg => (step s.spsc (.enqueue msg)).map fun r => { s with spsc := r }
  | .producer => (step s.spsc .producer).map fun r => { s with spsc := r }

def isMain : DrainAct → Bool
  | .main => true
  | _ => false

/-- What is left of a drain that takes what is in the ring: six accesses for each
message, and two for the `None`. -/
def remaining (r : LockFreeRingBuffer) : DeqPc → ℕ
  | .idle => 6 * (r.head - r.tail) + 2
  | .loadTail head => if head = r.tail then 1 else 6 * (r.head - r.tail) + 1
  | .loadIdx => 6 * (r.head - r.tail)
  | .loadSlot _ => 6 * (r.head - r.tail) - 1
  | .incLoad _ => 6 * (r.head - r.tail) - 2
  | .incStore _ _ => 6 * (r.head - r.tail) - 3

def potential (s : Drain) : ℕ := if s.running then remaining s.spsc.ring s.spsc.cons else 0

structure Counted (s : Spsc) : Prop where
  inv : Inv s
  accepted : s.accepted.length = s.ring.head
  received : s.received.length = s.ring.tail

structure DrainInv (first : List ℤ) (s : Drain) : Prop where
  counted : Counted s.spsc
  grown : first <+: s.spsc.accepted
  seen : ∀ head, s.spsc.cons = .loadTail head → first.length ≤ head
  drained : s.running = false → first.length ≤ s.spsc.ring.tail

section Steps

variable {s s' : Spsc}

theorem producer_frame (h : Inv s) (hs : s.produce = some s') :
    s'.cons = s.cons ∧ s'.ring.tail = s.ring.tail ∧ s'.received = s.received ∧
      ∃ msgs, s'.accepted = s.accepted ++ msgs ∧ s'.ring.head = s.ring.head + msgs.length := by
  have hprod := h.prod
  cases hpc : s.prod with
  | idle => simp [produce, hpc] at hs
  | loadTail msg head =>
      simp only [produce, hpc] at hs
      split at hs <;> cases hs
      · exact ⟨rfl, rfl, rfl, [], by simp [accepted], rfl⟩
      · exact ⟨rfl, rfl, rfl, [], (List.append_nil _).symm, rfl⟩
  | loadIdx msg =>
      simp only [produce, hpc, Option.some.injEq] at hs
      subst hs
      exact ⟨rfl, rfl, rfl, [], (List.append_nil _).symm, rfl⟩
  | storeSlot msg idx =>
      simp only [produce, hpc, Option.some.injEq] at hs
      subst hs
      exact ⟨rfl, rfl, rfl, [], (List.append_nil _).symm, rfl⟩
  | incLoad msg =>
      simp only [produce, hpc, Option.some.injEq] at hs
      subst hs
      exact ⟨rfl, rfl, rfl, [], (List.append_nil _).symm, rfl⟩
  | incStore msg head =>
      simp only [ProdInv, hpc] at hprod
      simp only [produce, hpc, Option.some.injEq] at hs
      subst hs
      refine ⟨rfl, rfl, rfl, [msg], by simp [accepted], ?_⟩
      rw [hprod.2.2]
      rfl

theorem enqueue_frame {msg : ℤ} (hs : step s (.enqueue msg) = some s') :
    s'.cons = s.cons ∧ s'.ring = s.ring ∧ s'.received = s.received ∧
      s'.accepted = s.accepted := by
  cases hpc : s.prod <;> simp only [step, hpc, reduceCtorEq, Option.some.injEq] at hs
  subst hs
  exact ⟨rfl, rfl, rfl, rfl⟩

/-- What a `dequeue()` on its way does to the ring, access by access: only the last
one takes a message out, and no other but the first sees `_head`. -/
theorem consumer_frame (h : Inv s) (hs : s.consume = some s') :
    s'.ring.head = s.ring.head ∧ s'.accepted = s.accepted ∧
      (∀ head, s'.cons ≠ .loadTail head) ∧
      ∃ n, s'.ring.tail = s.ring.tail + n ∧ s'.received.length = s.received.length + n := by
  have hcons := h.cons
  cases hpc : s.cons with
  | idle => simp [consume, hpc] at hs
  | loadTail head =>
      simp only [consume, hpc] at hs
      split at hs <;> cases hs
      · exact ⟨rfl, rfl, by simp, 0, rfl, by simp [received]⟩
      · exact ⟨rfl, rfl, by simp, 0, rfl, rfl⟩
  | loadIdx =>
      simp only [consume, hpc, Option.some.injEq] at hs
      subst hs
      exact ⟨rfl, rfl, by simp, 0, rfl, rfl⟩
  | loadSlot idx =>
      simp only [consume, hpc, Option.some.injEq] at hs
      subst hs
      exact ⟨rfl, rfl, by simp, 0, rfl, rfl⟩
  | incLoad msg =>
      simp only [consume, hpc, Option.some.injEq] at hs
      subst hs
      exact ⟨rfl, rfl, by simp, 0, rfl, rfl⟩
  | incStore msg tail =>
      simp only [ConsInv, hpc] at hcons
      simp only [consume, hpc, Option.some.injEq] at hs
      subst hs
      refine ⟨rfl, rfl, by simp, 1, ?_, by simp [received]⟩
      rw [hcons.2.2]

theorem dequeue_frame (hs : step s .dequeue = some s') :
    s'.cons = .loadTail s.ring.head ∧ s'.ring = s.ring ∧ s'.received = s.received ∧
      s'.accepted = s.accepted := by
  cases hpc : s.cons <;> simp only [step, hpc, reduceCtorEq, Option.some.injEq] at hs
  subst hs
  exact ⟨rfl, rfl, rfl, rfl⟩

theorem counted_step {b : SpscAct} (h : Counted s) (hs : step s b = some s') : Counted s' := by
  have hinv := (simulates_step h.inv hs).inv
  have hacc := h.accepted
  have hrec := h.received
  cases b with
  | producer =>
      obtain ⟨-, htail, hreceived, msgs, haccepted, hhead⟩ := producer_frame h.inv hs
      refine ⟨hinv, ?_, by rw [hreceived, htail, hrec]⟩
      rw [haccepted, hhead, List.length_append, hacc]
  | enqueue msg =>
      obtain ⟨-, hring, hreceived, haccepted⟩ := enqueue_frame hs
      exact ⟨hinv, by rw [haccepted, hring, hacc], by rw [hreceived, hring, hrec]⟩
  | consumer =>
      obtain ⟨hhead, haccepted, -, n, htail, hreceived⟩ := consumer_frame h.inv hs
      exact ⟨hinv, by rw [haccepted, hhead, hacc], by omega⟩
  | dequeue =>
      obtain ⟨-, hring, hreceived, haccepted⟩ := dequeue_frame hs
      exact ⟨hinv, by rw [haccepted, hring, hacc], by rw [hreceived, hring, hrec]⟩

end Steps

section Runs

variable {s s' : Drain} {a : DrainAct} {first : List ℤ}

/-- The kinds of steps: the producer's, and in the loop the call of `dequeue()` or
the next access of the call. -/
theorem drainStep_cases (hs : drainStep s a = some s') :
    (∃ b, step s.spsc b = some s'.spsc ∧ s'.running = s.running ∧
        (b = .producer ∨ ∃ msg, b = .enqueue msg) ∧ isMain a = false) ∨
      (s.running = true ∧ s'.running = true ∧ s.spsc.cons = .idle ∧
        step s.spsc .dequeue = some s'.spsc ∧ isMain a = true) ∨
      (s.running = true ∧ s'.running = !s.spsc.answersNone ∧
        s.spsc.consume = some s'.spsc ∧ isMain a = true) := by
  cases a with
  | main =>
      simp only [drainStep] at hs
      split at hs
      · rename_i hrun
        split at hs
        · rename_i hidle
          obtain ⟨r, hr, rfl⟩ := Option.map_eq_some_iff.mp hs
          exact .inr (.inl ⟨hrun, rfl, hidle, hr, rfl⟩)
        · obtain ⟨r, hr, rfl⟩ := Option.map_eq_some_iff.mp hs
          exact .inr (.inr ⟨hrun, rfl, hr, rfl⟩)
      · cases hs
  | enqueue msg =>
      obtain ⟨r, hr, rfl⟩ := Option.map_eq_some_iff.mp hs
      exact .inl ⟨_, hr, rfl, .inr ⟨msg, rfl⟩, rfl⟩
  | producer =>
      obtain ⟨r, hr, rfl⟩ := Option.map_eq_some_iff.mp hs
      exact .inl ⟨_, hr, rfl, .inl rfl, rfl⟩

theorem counted_drain (h : Counted s.spsc) (hs : drainStep s a = some s') :
    Counted s'.spsc := by
  rcases drainStep_cases hs with ⟨b, hb, -⟩ | ⟨-, -, -, hb, -⟩ | ⟨-, -, hb, -⟩
  · exact counted_step h hb
  · exact counted_step h hb
  · exact counted_step (b := .consumer) h hb

theorem head_le_drain (h : Counted s.spsc) (hs : drainStep s a = some s') :
    s.spsc.ring.head ≤ s'.spsc.ring.head := by
  rcases drainStep_cases hs with ⟨b, hb, -, rfl | ⟨msg, rfl⟩, -⟩ | ⟨-, -, -, hb, -⟩ |
    ⟨-, -, hb, -⟩
  · obtain ⟨-, -, -, msgs, -, hhead⟩ := producer_frame h.inv hb
    omega
  · rw [(enqueue_frame hb).2.1]
  · rw [(dequeue_frame hb).2.1]
  · rw [(consumer_frame h.inv hb).1]

theorem drain_enabled (hrun : s.running = true) : ∃ s', drainStep s .main = some s' := by
  obtain ⟨⟨ring, prod, cons, enqueued, dequeued⟩, running⟩ := s
  obtain rfl : running = true := hrun
  cases cons with
  | loadTail head =>
      simp only [drainStep, step, consume, if_true]
      split <;> exact ⟨_, rfl⟩
  | _ => exact ⟨_, rfl⟩

theorem drainInv_step (h : DrainInv first s) (hs : drainStep s a = some s') :
    DrainInv first s' := by
  obtain ⟨hcounted, hgrown, hseen, hdrained⟩ := h
  rcases drainStep_cases hs with ⟨b, hb, hrun, hkind, -⟩ | ⟨-, hrun', -, hb, -⟩ |
    ⟨hrun, hrun', hb, -⟩
  · have hcounted' := counted_step hcounted hb
    rcases hkind with rfl | ⟨msg, rfl⟩
    · obtain ⟨hcons, htail, -, msgs, haccepted, -⟩ := producer_frame hcounted.inv hb
      refine ⟨hcounted', ?_, ?_, ?_⟩
      · rw [haccepted]
        exact hgrown.trans (List.prefix_append _ _)
      · rw [hcons]
        exact hseen
      · rw [hrun, htail]
        exact hdrained
    · obtain ⟨hcons, hring, -, haccepted⟩ := enqueue_frame hb
      refine ⟨hcounted', ?_, ?_, ?_⟩
      · rw [haccepted]
        exact hgrown
      · rw [hcons]
        exact hseen
      · rw [hrun, hring]
        exact hdrained
  · obtain ⟨hcons, -, -, haccepted⟩ := dequeue_frame hb
    refine ⟨counted_step hcounted hb, ?_, ?_, ?_⟩
    · rw [haccepted]
      exact hgrown
    · intro head hhead
      rw [hcons] at hhead
      cases hhead
      exact hcounted.accepted ▸ hgrown.length_le
    · rw [hrun']
      exact nofun
  · obtain ⟨-, haccepted, hne, n, htail, -⟩ := consumer_frame hcounted.inv hb
    refine ⟨counted_step (b := .consumer) hcounted hb, ?_, ?_, ?_⟩
    · rw [haccepted]
      exact hgrown
    · exact fun head hpc => absurd hpc (hne head)
    · intro hstop
      -- the answer `None`: the ring was empty when `_head` was read
      rw [hstop] at hrun'
      have hnone : s.spsc.answersNone = true := by simpa using hrun'.symm
      unfold answersNone at hnone
      split at hnone
      · rename_i head hpc
        have hsame := of_decide_eq_true hnone
        have hfirst := hseen head hpc
        omega
      · cases hnone

theorem remaining_grown {r r' : LockFreeRingBuffer} (htail : r'.tail = r.tail)
    (hhead : r.head ≤ r'.head) (pc : DeqPc) :
    remaining r' pc + 6 * r.head ≤ remaining r pc + 6 * r'.head := by
  cases pc <;> simp only [remaining, htail]
  case loadTail head => split <;> omega
  all_goals omega

theorem remaining_consume {t t' : Spsc} (h : Inv t) (hs : t.consume = some t')
    (hgo : t.answersNone = false) :
    remaining t'.ring t'.cons + 1 ≤ remaining t.ring t.cons := by
  have hcons := h.cons
  cases hpc : t.cons with
  | idle => simp [consume, hpc] at hs
  | loadTail head =>
      simp only [answersNone, hpc, decide_eq_false_iff_not] at hgo
      simp only [consume, hpc, if_neg hgo, Option.some.injEq] at hs
      subst hs
      simp only [remaining, if_neg hgo]
      omega
  | loadIdx =>
      simp only [ConsInv, hpc] at hcons
      simp only [consume, hpc, Option.some.injEq] at hs
      subst hs
      simp only [remaining]
      omega
  | loadSlot idx =>
      simp only [ConsInv, hpc] at hcons
      simp only [consume, hpc, Option.some.injEq] at hs
      subst hs
      simp only [remaining]
      omega
  | incLoad msg =>
      simp only [ConsInv, hpc] at hcons
      simp only [consume, hpc, Option.some.injEq] at hs
      subst hs
      simp only [remaining]
      omega
  | incStore msg tail =>
      simp only [ConsInv, hpc] at hcons
      obtain ⟨hlt, -, rfl⟩ := hcons
      simp only [consume, hpc, Option.some.injEq] at hs
      subst hs
      simp only [remaining]
      omega

theorem remaining_pos {t : Spsc} (h : Inv t) : 1 ≤ remaining t.ring t.cons := by
  have hcons := h.cons
  cases hpc : t.cons <;> simp only [ConsInv, hpc] at hcons <;> simp only [remaining]
  case loadTail head => split <;> omega
  all_goals omega

theorem potential_le (s : Drain) : potential s ≤ 6 * s.spsc.ring.contents.length + 2 := by
  rw [length_contents]
  unfold potential
  split
  · cases s.spsc.cons <;> simp only [remaining]
    case loadTail head => split <;> omega
    all_goals omega
  · exact Nat.zero_le _

/-- Each access of `main()` is paid for, and each message that is accepted pays
for the six it will take. -/
theorem potential_step (h : Counted s.spsc) (hs : drainStep s a = some s') :
    (isMain a).toNat + potential s' + 6 * s.spsc.ring.head ≤
      potential s + 6 * s'.spsc.ring.head := by
  rcases drainStep_cases hs with ⟨b, hb, hrun, hkind, hmain⟩ | ⟨hrun, hrun', hidle, hb, hmain⟩ |
    ⟨hrun, hrun', hb, hmain⟩
  · have hframe : s'.spsc.cons = s.spsc.cons ∧ s'.spsc.ring.tail = s.spsc.ring.tail ∧
        s.spsc.ring.head ≤ s'.spsc.ring.head := by
      rcases hkind with rfl | ⟨msg, rfl⟩
      · obtain ⟨hcons, htail, -, msgs, -, hhead⟩ := producer_frame h.inv hb
        exact ⟨hcons, htail, by omega⟩
      · obtain ⟨hcons, hring, -, -⟩ := enqueue_frame hb
        exact ⟨hcons, by rw [hring], by rw [hring]⟩
    obtain ⟨hcons, htail, hhead⟩ := hframe
    have hgrown := remaining_grown htail hhead s.spsc.cons
    simp only [potential, hcons, hrun, hmain, Bool.toNat_false]
    split <;> omega
  · obtain ⟨hcons, hring, -, -⟩ := dequeue_frame hb
    simp only [potential, hrun, hrun', hidle, hcons, hring, hmain, Bool.toNat_true, if_true,
      remaining]
    split <;> omega
  · obtain ⟨hhead, -, -, -⟩ := consumer_frame h.inv hb
    simp only [potential, hrun, hrun', hmain, hhead, Bool.toNat_true, if_true]
    cases hnone : s.spsc.answersNone with
    | false =>
        have hless := remaining_consume h.inv hb hnone
        simp only [Bool.not_false, if_true]
        omega
    | true =>
        have hpos := remaining_pos h.inv
        simp only [Bool.not_true, Bool.false_eq_true, if_false]
        omega

theorem drain_reaches {acts : List DrainAct} (h : Runs.exec drainStep s acts = some s') :
    Runs.Reaches step s.spsc s'.spsc := by
  induction acts generalizing s with
  | nil =>
      rw [Runs.exec_nil, Option.some.injEq] at h
      exact ⟨[], by rw [h, Runs.exec_nil]⟩
  | cons a acts ih =>
      rw [Runs.exec_cons, Option.bind_eq_some_iff] at h
      obtain ⟨t, ht, h⟩ := h
      have hstep : ∃ b, step s.spsc b = some t.spsc := by
        rcases drainStep_cases ht with ⟨b, hb, -⟩ | ⟨-, -, -, hb, -⟩ | ⟨-, -, hb, -⟩
        · exact ⟨b, hb⟩
        · exact ⟨.dequeue, hb⟩
        · exact ⟨.consumer, hb⟩
      obtain ⟨b, hb⟩ := hstep
      obtain ⟨bs, hbs⟩ := ih h
      exact ⟨b :: bs, (Runs.exec_cons_of_step hb).trans hbs⟩

theorem counted_init {maxItems : ℕ} (hpos : 0 < maxItems) : Counted (init maxItems) :=
  ⟨inv_init hpos, rfl, rfl⟩

theorem counted_of_reaches {maxItems : ℕ} (hpos : 0 < maxItems) {r : Spsc}
    (h : Runs.Reaches step (init maxItems) r) : Counted r :=
  h.invariant (fun _ _ _ hc hs => counted_step hc hs) (counted_init hpos)

theorem received_prefix_accepted {maxItems : ℕ} (hpos : 0 < maxItems) {r : Spsc}
    (h : Runs.Reaches step (init maxItems) r) : r.received <+: r.accepted := by
  obtain ⟨acts, hacts⟩ := h
  have hsim : Simulates (init maxItems) (Runs.labels step lin (init maxItems) acts) r :=
    Runs.labels_compose (I := Inv) (R := Simulates) (fun _ hI => .refl hI)
      (fun _ _ _ _ _ => Simulates.trans)
      (fun _ _ _ hI hs => ⟨simulates_step hI hs, (simulates_step hI hs).inv⟩) (inv_init hpos) hacts
  have henq := hsim.enq
  have hdeq := hsim.deq
  simp only [init, pendingEmpty, List.nil_append] at henq hdeq
  rw [received_eq hdeq.symm, accepted_eq henq.symm]
  exact Fifo.removed_prefix_accepted hsim.queue

end Runs

/-- A drain takes at most six accesses for each message that was in the ring when
it began and each one accepted since, and two more; and when it ends, every
message accepted before it began has been received, in order. -/
theorem drain_complete {maxItems : ℕ} (hpos : 0 < maxItems) {r : Spsc} {before : List SpscAct}
    (hr : Runs.exec step (init maxItems) before = some r) (hidle : r.cons = .idle)
    {acts : List DrainAct} {s : Drain} (h : Runs.exec drainStep ⟨r, true⟩ acts = some s) :
    acts.countP isMain ≤
        6 * (r.ring.contents.length + (s.spsc.accepted.length - r.accepted.length)) + 2 ∧
      (s.running = false → r.accepted <+: s.spsc.received) := by
  have hreach : Runs.Reaches step (init maxItems) r := ⟨before, hr⟩
  have hcounted := counted_of_reaches hpos hreach
  have hinit : DrainInv r.accepted ⟨r, true⟩ := by
    refine ⟨hcounted, List.prefix_rfl, ?_, nofun⟩
    intro head hpc
    rw [hidle] at hpc
    cases hpc
  have hend : DrainInv r.accepted s :=
    Runs.exec_invariant (G := fun _ _ _ => True) (fun s a s' hI hs _ => drainInv_step hI hs)
      hinit (Runs.EachStep.trivial _ _) h
  refine ⟨?_, fun hstop => ?_⟩
  · have hbudget : acts.countP isMain + potential s + 6 * r.ring.head ≤
        potential ⟨r, true⟩ + 6 * s.spsc.ring.head :=
      (Runs.exec_budget (Q := fun _ => False) isMain potential (fun s => 6 * s.spsc.ring.head)
        (fun _ _ _ => drainInv_step) (fun _ _ _ _ hq _ => hq)
        (fun _ _ _ hI _ hs _ => potential_step hI.counted hs) hinit h).resolve_left id
    have hstart : potential ⟨r, true⟩ = 6 * r.ring.contents.length + 2 := by
      simp only [potential, if_true, hidle, remaining, length_contents]
    have hacc := hcounted.accepted
    have hacc' := hend.counted.accepted
    omega
  · have hall := received_prefix_accepted hpos
      (hreach.trans (drain_reaches h))
    apply List.prefix_of_prefix_length_le hend.grown hall
    rw [hend.counted.received]
    exact hend.drained hstop

/-- One message in two slots, another one arriving while the first is taken: the
drain takes both and ends. -/
theorem drain_complete_two :
    ∃ r s, Runs.exec step (init 2) (.enqueue 7 :: List.replicate 5 .producer) = some r ∧
      Runs.exec drainStep ⟨r, true⟩ (List.replicate 6 .main ++ .enqueue 8 ::
        List.replicate 5 .producer ++ List.replicate 8 .main) = some s ∧
      s.running = false ∧ r.accepted <+: s.spsc.received := by
  have hrun : (Runs.exec step (init 2) (.enqueue 7 :: List.replicate 5 .producer)).any (fun r =>
      (match r.cons with
        | .idle => true
        | _ => false) &&
        (Runs.exec drainStep ⟨r, true⟩ (List.replicate 6 .main ++ .enqueue 8 ::
          List.replicate 5 .producer ++ List.replicate 8 .main)).any (fun s => !s.running)) =
        true := by
    decide +kernel
  obtain ⟨r, hr, hnext⟩ := Runs.exists_exec_of_any hrun
  obtain ⟨hcons, hnext⟩ := Bool.and_eq_true_iff.mp hnext
  obtain ⟨s, hs, hstop⟩ := Runs.exists_exec_of_any hnext
  have hidle : r.cons = .idle := by
    split at hcons
    · assumption
    · cases hcons
  have hstop' : s.running = false := by simpa using hstop
  exact ⟨r, s, hr, hs, hstop', (drain_complete (by decide) hr hidle hs).2 hstop'⟩

/-! ### A drain without end -/

structure Idle (maxItems : ℕ) (s : Drain) : Prop where
  running : s.running = true
  prod : s.spsc.prod = .idle
  cons : s.spsc.cons = .idle
  size : s.spsc.ring.maxItems = maxItems
  empty : s.spsc.ring.head = s.spsc.ring.tail

/-- A message is enqueued just before each `dequeue()`. -/
def keepUp (msg : ℤ) : List DrainAct :=
  .enqueue msg :: List.replicate 5 .producer ++ List.replicate 6 .main

theorem idle_keepUp {maxItems : ℕ} (hsize : 2 ≤ maxItems) {s : Drain} (h : Idle maxItems s)
    (msg : ℤ) : ∃ s', Runs.exec drainStep s (keepUp msg) = some s' ∧ Idle maxItems s' ∧
      s'.spsc.received = s.spsc.received ++ [msg] := by
  obtain ⟨⟨⟨n, head, tail, msgs⟩, prod, cons, enqueued, dequeued⟩, running⟩ := s
  obtain ⟨hrun, hprod, hcons, hn, hempty⟩ := h
  simp only at hrun hprod hcons hn hempty
  subst hrun hprod hcons hn hempty
  have hroom : testFull n head head = false := by
    have hne : ¬ (0 : ℤ) % n = n - 1 := by
      rw [Int.zero_emod]
      omega
    simp only [testFull, sub_self, beq_eq_false_iff_ne]
    exact hne
  refine ⟨⟨⟨⟨n, head + 1, head + 1, Function.update msgs (head % n) msg⟩, .idle, .idle,
    enqueued ++ [(msg, true)], dequeued ++ [some msg]⟩, true⟩, ?_, ⟨rfl, rfl, rfl, rfl, rfl⟩, ?_⟩
  · simp [keepUp, List.replicate, Runs.exec_cons, drainStep, step, produce, consume, answersNone,
      hroom]
  · simp [received]

/-- A producer that keeps up with the drain keeps it going: whatever messages it
has to send, there is a run in which the loop takes them all and has not ended. -/
theorem drain_starves {maxItems : ℕ} (hsize : 2 ≤ maxItems) (msgs : List ℤ) :
    ∃ acts s, Runs.exec drainStep ⟨init maxItems, true⟩ acts = some s ∧ s.running = true ∧
      s.spsc.received = msgs := by
  have hkeep : ∀ (msgs : List ℤ) (s : Drain), Idle maxItems s →
      ∃ acts s', Runs.exec drainStep s acts = some s' ∧ s'.running = true ∧
        s'.spsc.received = s.spsc.received ++ msgs := by
    intro msgs
    induction msgs with
    | nil => exact fun s h => ⟨[], s, rfl, h.running, (List.append_nil _).symm⟩
    | cons msg msgs ih =>
        intro s h
        obtain ⟨t, ht, hidle, hreceived⟩ := idle_keepUp hsize h msg
        obtain ⟨acts, s', hs', hrun, hreceived'⟩ := ih t hidle
        refine ⟨keepUp msg ++ acts, s', ?_, hrun, ?_⟩
        · rw [Runs.exec_append, ht, Option.bind_some, hs']
        · rw [hreceived', hreceived, List.append_assoc]
          rfl
  exact hkeep msgs _ ⟨rfl, rfl, rfl, rfl, rfl⟩

/-- The ring that `main()` makes. -/
theorem drain_starves_main :
    ∃ acts s, Runs.exec drainStep ⟨init 1024, true⟩ acts = some s ∧ s.running = true ∧
      s.spsc.received = List.replicate 2048 1 :=
  drain_starves (by decide) (List.replicate 2048 1)

end MabTilde.Spsc

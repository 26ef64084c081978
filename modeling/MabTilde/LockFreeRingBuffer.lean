import MabTilde.Lib.Fifo

/-!
`LockFreeRingBuffer`: one producer, one consumer, no lock.

`enqueue` and `dequeue` are the methods as the source has them. The step
relation below runs them with every read or write of `_head`, `_tail` and of a
slot of `_msgs` as a step of its own, so that the two parties interleave
between any two of them; a call nobody interferes with is the method
(`enqueue_solo`, `dequeue_solo`). `linearizable` is the refinement to the
atomic bounded queue: the fullness test takes a difference modulo `max_items`
of counters that grow without bound, and one slot stays empty so that the test
can tell full from empty.

Python's `%` is the mathematical one for a positive divisor, and `_msgs` is
indexed modulo its own length only, so no access is out of range.
-/

namespace MabTilde

structure LockFreeRingBuffer where
  maxItems : ℕ
  head : ℕ
  tail : ℕ
  msgs : ℕ → ℤ

namespace LockFreeRingBuffer

def init (maxItems : ℕ) : LockFreeRingBuffer := ⟨maxItems, 0, 0, fun _ => 0⟩

/-- `(self._head - self._tail) % self._max_items == self._max_items - 1`. -/
def testFull (maxItems head tail : ℕ) : Bool :=
  ((head : ℤ) - tail) % maxItems == (maxItems : ℤ) - 1

def enqueue (r : LockFreeRingBuffer) (msg : ℤ) : Bool × LockFreeRingBuffer :=
  if testFull r.maxItems r.head r.tail then (false, r)
  else (true, { r with msgs := Function.update r.msgs (r.head % r.maxItems) msg,
                       head := r.head + 1 })

def dequeue (r : LockFreeRingBuffer) : Option ℤ × LockFreeRingBuffer :=
  if r.head = r.tail then (none, r)
  else (some (r.msgs (r.tail % r.maxItems)), { r with tail := r.tail + 1 })

def contents (r : LockFreeRingBuffer) : List ℤ :=
  Fifo.window r.msgs r.maxItems r.tail (r.head - r.tail)

@[simp] theorem length_contents (r : LockFreeRingBuffer) :
    r.contents.length = r.head - r.tail := Fifo.length_window ..

theorem testFull_iff {n head tail : ℕ} (hle : tail ≤ head) (hlt : head < tail + n) :
    testFull n head tail = true ↔ head - tail = n - 1 := by
  have hmod : ((head : ℤ) - tail) % n = (head : ℤ) - tail :=
    Int.emod_eq_of_lt (by omega) (by omega)
  simp only [testFull, hmod, beq_iff_eq]
  omega

end LockFreeRingBuffer

/-! ### Two parties at once -/

/-- Where the producer stands in `enqueue(msg)`: what its next step reads or
writes, with the values it has read before. -/
inductive EnqPc
  | idle
  | loadTail (msg : ℤ) (head : ℕ)
  | loadIdx (msg : ℤ)
  | storeSlot (msg : ℤ) (idx : ℕ)
  | incLoad (msg : ℤ)
  | incStore (msg : ℤ) (head : ℕ)

/-- Where the consumer stands in `dequeue()`. -/
inductive DeqPc
  | idle
  | loadTail (head : ℕ)
  | loadIdx
  | loadSlot (idx : ℕ)
  | incLoad (msg : ℤ)
  | incStore (msg : ℤ) (tail : ℕ)

structure Spsc where
  ring : LockFreeRingBuffer
  prod : EnqPc
  cons : DeqPc
  /-- History: the `enqueue` calls that have returned, with their answers. -/
  enqueued : List (ℤ × Bool)
  /-- History: the answers of the `dequeue` calls that have returned. -/
  dequeued : List (Option ℤ)

inductive SpscAct
  /-- The producer calls `enqueue(msg)` and reads `_head`. -/
  | enqueue (msg : ℤ)
  | producer
  /-- The consumer calls `dequeue()` and reads `_head`. -/
  | dequeue
  | consumer

namespace Spsc

open LockFreeRingBuffer

def init (maxItems : ℕ) : Spsc := ⟨.init maxItems, .idle, .idle, [], []⟩

def produce (s : Spsc) : Option Spsc :=
  match s.prod with
  | .idle => none
  | .loadTail msg head =>
      if testFull s.ring.maxItems head s.ring.tail then
        some { s with prod := .idle, enqueued := s.enqueued ++ [(msg, false)] }
      else some { s with prod := .loadIdx msg }
  | .loadIdx msg => some { s with prod := .storeSlot msg (s.ring.head % s.ring.maxItems) }
  | .storeSlot msg idx =>
      some { s with prod := .incLoad msg,
                    ring := { s.ring with msgs := Function.update s.ring.msgs idx msg } }
  | .incLoad msg => some { s with prod := .incStore msg s.ring.head }
  | .incStore msg head =>
      some { s with prod := .idle, ring := { s.ring with head := head + 1 },
                    enqueued := s.enqueued ++ [(msg, true)] }

def consume (s : Spsc) : Option Spsc :=
  match s.cons with
  | .idle => none
  | .loadTail head =>
      if head = s.ring.tail then some { s with cons := .idle, dequeued := s.dequeued ++ [none] }
      else some { s with cons := .loadIdx }
  | .loadIdx => some { s with cons := .loadSlot (s.ring.tail % s.ring.maxItems) }
  | .loadSlot idx => some { s with cons := .incLoad (s.ring.msgs idx) }
  | .incLoad msg => some { s with cons := .incStore msg s.ring.tail }
  | .incStore msg tail =>
      some { s with cons := .idle, ring := { s.ring with tail := tail + 1 },
                    dequeued := s.dequeued ++ [some msg] }

def step (s : Spsc) : SpscAct → Option Spsc
  | .enqueue msg =>
      match s.prod with
      | .idle => some { s with prod := .loadTail msg s.ring.head }
      | _ => none
  | .producer => s.produce
  | .dequeue =>
      match s.cons with
      | .idle => some { s with cons := .loadTail s.ring.head }
      | _ => none
  | .consumer => s.consume

/-! ### A call on its own -/

theorem enqueue_solo {s : Spsc} (hidle : s.prod = .idle) (msg : ℤ) :
    ∃ n, Runs.exec step s (.enqueue msg :: List.replicate n .producer) =
      some { s with ring := (enqueue s.ring msg).2,
                    enqueued := s.enqueued ++ [(msg, (enqueue s.ring msg).1)] } := by
  by_cases hfull : testFull s.ring.maxItems s.ring.head s.ring.tail = true
  · refine ⟨1, ?_⟩
    simp [Runs.exec_cons, step, produce, enqueue, hidle, hfull]
  · refine ⟨5, ?_⟩
    simp [List.replicate, Runs.exec_cons, step, produce, enqueue, hidle, hfull]

theorem dequeue_solo {s : Spsc} (hidle : s.cons = .idle) :
    ∃ n, Runs.exec step s (.dequeue :: List.replicate n .consumer) =
      some { s with ring := (dequeue s.ring).2,
                    dequeued := s.dequeued ++ [(dequeue s.ring).1] } := by
  by_cases hempty : s.ring.head = s.ring.tail
  · refine ⟨1, ?_⟩
    simp [Runs.exec_cons, step, consume, dequeue, hidle, hempty]
  · refine ⟨5, ?_⟩
    simp [List.replicate, Runs.exec_cons, step, consume, dequeue, hidle, hempty]

/-! ### Linearization points

An accepted message takes effect when `_head` is stored, a refused one when
`_tail` is read, a message taken when `_tail` is stored. An empty answer takes
effect when `_head` is read: `_tail` is the consumer's own, so the answer is
settled there although it is given a step later. -/

def lin (s : Spsc) : SpscAct → Option (Fifo.Op ℤ)
  | .enqueue _ => none
  | .producer =>
      match s.prod with
      | .loadTail msg head =>
          if testFull s.ring.maxItems head s.ring.tail then some (.enq msg false) else none
      | .incStore msg _ => some (.enq msg true)
      | _ => none
  | .dequeue => if s.ring.head = s.ring.tail then some (.deq none) else none
  | .consumer =>
      match s.cons with
      | .incStore msg _ => some (.deq (some msg))
      | _ => none

/-- The empty answer that has taken effect but is not given yet. -/
def pendingEmpty (s : Spsc) : List (Option ℤ) :=
  match s.cons with
  | .loadTail head => if head = s.ring.tail then [none] else []
  | _ => []

/-- What the producer knows: past its test there is room for one message, and
the slot it has written is behind the window. -/
def ProdInv (r : LockFreeRingBuffer) : EnqPc → Prop
  | .idle => True
  | .loadTail _ head => head = r.head
  | .loadIdx _ => r.head + 1 < r.tail + r.maxItems
  | .storeSlot _ idx => r.head + 1 < r.tail + r.maxItems ∧ idx = r.head % r.maxItems
  | .incLoad msg => r.head + 1 < r.tail + r.maxItems ∧ r.msgs (r.head % r.maxItems) = msg
  | .incStore msg head =>
      r.head + 1 < r.tail + r.maxItems ∧ r.msgs (r.head % r.maxItems) = msg ∧ head = r.head

/-- What the consumer knows: past its test there is a message, and the value it
has read is the one in front of the window. -/
def ConsInv (r : LockFreeRingBuffer) : DeqPc → Prop
  | .idle => True
  | .loadTail head => r.tail ≤ head ∧ head ≤ r.head
  | .loadIdx => r.tail < r.head
  | .loadSlot idx => r.tail < r.head ∧ idx = r.tail % r.maxItems
  | .incLoad msg => r.tail < r.head ∧ r.msgs (r.tail % r.maxItems) = msg
  | .incStore msg tail =>
      r.tail < r.head ∧ r.msgs (r.tail % r.maxItems) = msg ∧ tail = r.tail

structure Inv (s : Spsc) : Prop where
  le : s.ring.tail ≤ s.ring.head
  room : s.ring.head < s.ring.tail + s.ring.maxItems
  prod : ProdInv s.ring s.prod
  cons : ConsInv s.ring s.cons

theorem inv_init {maxItems : ℕ} (h : 0 < maxItems) : Inv (init maxItems) :=
  ⟨le_rfl, by simpa [init, LockFreeRingBuffer.init] using h, True.intro, True.intro⟩

theorem ConsInv.congr {r r' : LockFreeRingBuffer} {pc : DeqPc} (h : ConsInv r pc)
    (hn : r'.maxItems = r.maxItems) (htail : r'.tail = r.tail) (hhead : r.head ≤ r'.head)
    (hslot : r.tail < r.head → r'.msgs (r.tail % r.maxItems) = r.msgs (r.tail % r.maxItems)) :
    ConsInv r' pc := by
  cases pc <;> simp only [ConsInv, hn, htail] at h ⊢
  case loadTail head => exact ⟨h.1, h.2.trans hhead⟩
  case loadIdx => exact h.trans_le hhead
  case loadSlot idx => exact ⟨h.1.trans_le hhead, h.2⟩
  case incLoad msg => exact ⟨h.1.trans_le hhead, (hslot h.1).trans h.2⟩
  case incStore msg tail => exact ⟨h.1.trans_le hhead, (hslot h.1).trans h.2.1, h.2.2⟩

theorem ProdInv.congr {r r' : LockFreeRingBuffer} {pc : EnqPc} (h : ProdInv r pc)
    (hn : r'.maxItems = r.maxItems) (hhead : r'.head = r.head) (htail : r.tail ≤ r'.tail)
    (hmsgs : r'.msgs = r.msgs) : ProdInv r' pc := by
  cases pc <;> simp only [ProdInv, hn, hhead, hmsgs] at h ⊢
  case loadTail msg head => exact h
  case loadIdx msg => omega
  case storeSlot msg idx => exact ⟨by omega, h.2⟩
  case incLoad msg => exact ⟨by omega, h.2⟩
  case incStore msg head => exact ⟨by omega, h.2⟩

/-- From `s` to `s'` the atomic queue performs `ops`, with the answers that are
given or settled in between: the simulation relation of the refinement. -/
structure Simulates (s : Spsc) (ops : List (Fifo.Op ℤ)) (s' : Spsc) : Prop where
  inv : Inv s'
  size : s'.ring.maxItems = s.ring.maxItems
  queue : Runs.exec (Fifo.step (s.ring.maxItems - 1)) s.ring.contents ops = some s'.ring.contents
  enq : s'.enqueued = s.enqueued ++ ops.filterMap Fifo.enqOf
  deq : s'.dequeued ++ s'.pendingEmpty =
    s.dequeued ++ s.pendingEmpty ++ ops.filterMap Fifo.deqOf

theorem Simulates.silent {s s' : Spsc} (hinv : Inv s')
    (hsize : s'.ring.maxItems = s.ring.maxItems) (hq : s'.ring.contents = s.ring.contents)
    (henq : s'.enqueued = s.enqueued)
    (hdeq : s'.dequeued ++ s'.pendingEmpty = s.dequeued ++ s.pendingEmpty) :
    Simulates s [] s' :=
  ⟨hinv, hsize, by simp [hq], by simp [henq], by simp [hdeq]⟩

theorem Simulates.refl {s : Spsc} (h : Inv s) : Simulates s [] s := .silent h rfl rfl rfl rfl

theorem Simulates.trans {s s' s'' : Spsc} {ops ops' : List (Fifo.Op ℤ)}
    (h : Simulates s ops s') (h' : Simulates s' ops' s'') : Simulates s (ops ++ ops') s'' where
  inv := h'.inv
  size := h'.size.trans h.size
  queue := by
    rw [Runs.exec_append, h.queue, Option.bind_some, ← h.size]
    exact h'.queue
  enq := by rw [h'.enq, h.enq, List.filterMap_append, List.append_assoc]
  deq := by rw [h'.deq, h.deq, List.filterMap_append, List.append_assoc]

theorem head_eq_tail_add {r : LockFreeRingBuffer} (hle : r.tail ≤ r.head) :
    r.head = r.tail + (r.head - r.tail) := by omega

theorem simulates_produce {s s' : Spsc} (h : Inv s) (hs : s.produce = some s') :
    Simulates s (lin s .producer).toList s' := by
  obtain ⟨hle, hroom, hprod, hcons⟩ := h
  cases hpc : s.prod with
  | idle => simp [produce, hpc] at hs
  | loadTail msg head =>
      simp only [ProdInv, hpc] at hprod
      subst hprod
      have hiff := testFull_iff hle hroom
      simp only [produce, hpc] at hs
      split at hs <;> cases hs
      · rename_i hfull
        simp only [lin, hpc, hfull, if_true]
        refine ⟨⟨hle, hroom, True.intro, hcons⟩, rfl, ?_, rfl, by simp [Fifo.deqOf, pendingEmpty]⟩
        simp [Runs.exec_cons, Fifo.step, hiff.mp hfull]
      · rename_i hfull
        simp only [lin, hpc, hfull, Bool.false_eq_true, if_false]
        have hne : s.ring.head - s.ring.tail ≠ s.ring.maxItems - 1 :=
          fun heq => hfull (hiff.mpr heq)
        refine .silent ⟨hle, hroom, ?_, hcons⟩ rfl rfl rfl rfl
        simp only [ProdInv]
        omega
  | loadIdx msg =>
      simp only [ProdInv, hpc] at hprod
      simp only [produce, hpc, Option.some.injEq] at hs
      subst hs
      simp only [lin, hpc]
      exact .silent ⟨hle, hroom, ⟨hprod, rfl⟩, hcons⟩ rfl rfl rfl rfl
  | storeSlot msg idx =>
      simp only [ProdInv, hpc] at hprod
      obtain ⟨hspare, rfl⟩ := hprod
      simp only [produce, hpc, Option.some.injEq] at hs
      subst hs
      simp only [lin, hpc]
      refine .silent ⟨hle, hroom, ⟨hspare, Function.update_self ..⟩, ?_⟩ rfl ?_ rfl rfl
      · -- the slot written is not the one the consumer may be reading
        refine hcons.congr rfl rfl le_rfl fun hlt => Function.update_of_ne ?_ _ _
        exact Fifo.mod_ne_mod_of_lt hlt hroom
      · simp only [contents]
        conv_lhs => enter [1, 2]; rw [head_eq_tail_add hle]
        exact Fifo.window_update _ (by omega) _
  | incLoad msg =>
      simp only [ProdInv, hpc] at hprod
      simp only [produce, hpc, Option.some.injEq] at hs
      subst hs
      simp only [lin, hpc]
      exact .silent ⟨hle, hroom, ⟨hprod.1, hprod.2, rfl⟩, hcons⟩ rfl rfl rfl rfl
  | incStore msg head =>
      simp only [ProdInv, hpc] at hprod
      obtain ⟨hspare, hslot, rfl⟩ := hprod
      simp only [produce, hpc, Option.some.injEq] at hs
      subst hs
      simp only [lin, hpc]
      have hgrow : s.ring.head + 1 - s.ring.tail = (s.ring.head - s.ring.tail) + 1 := by omega
      have hwin : contents { s.ring with head := s.ring.head + 1 } = s.ring.contents ++ [msg] := by
        simp only [contents, hgrow, Fifo.window_succ, ← head_eq_tail_add hle, hslot]
      refine ⟨⟨by simp only; omega, hspare, True.intro, ?_⟩, rfl, ?_, rfl,
        by simp [Fifo.deqOf, pendingEmpty]⟩
      · exact hcons.congr rfl rfl (Nat.le_succ _) fun _ => rfl
      · have hlt : s.ring.head - s.ring.tail < s.ring.maxItems - 1 := by omega
        simp [Runs.exec_cons, Fifo.step, hlt, hwin]

theorem simulates_consume {s s' : Spsc} (h : Inv s) (hs : s.consume = some s') :
    Simulates s (lin s .consumer).toList s' := by
  obtain ⟨hle, hroom, hprod, hcons⟩ := h
  cases hpc : s.cons with
  | idle => simp [consume, hpc] at hs
  | loadTail head =>
      simp only [ConsInv, hpc] at hcons
      simp only [consume, hpc] at hs
      simp only [lin, hpc]
      split at hs <;> cases hs
      · rename_i hempty
        exact .silent ⟨hle, hroom, hprod, True.intro⟩ rfl rfl rfl
          (by simp [pendingEmpty, hpc, hempty])
      · rename_i hne
        refine .silent ⟨hle, hroom, hprod, ?_⟩ rfl rfl rfl (by simp [pendingEmpty, hpc, hne])
        simp only [ConsInv]
        omega
  | loadIdx =>
      simp only [ConsInv, hpc] at hcons
      simp only [consume, hpc, Option.some.injEq] at hs
      subst hs
      simp only [lin, hpc]
      exact .silent ⟨hle, hroom, hprod, ⟨hcons, rfl⟩⟩ rfl rfl rfl (by simp [pendingEmpty, hpc])
  | loadSlot idx =>
      simp only [ConsInv, hpc] at hcons
      obtain ⟨hlt, rfl⟩ := hcons
      simp only [consume, hpc, Option.some.injEq] at hs
      subst hs
      simp only [lin, hpc]
      exact .silent ⟨hle, hroom, hprod, ⟨hlt, rfl⟩⟩ rfl rfl rfl (by simp [pendingEmpty, hpc])
  | incLoad msg =>
      simp only [ConsInv, hpc] at hcons
      simp only [consume, hpc, Option.some.injEq] at hs
      subst hs
      simp only [lin, hpc]
      exact .silent ⟨hle, hroom, hprod, ⟨hcons.1, hcons.2, rfl⟩⟩ rfl rfl rfl
        (by simp [pendingEmpty, hpc])
  | incStore msg tail =>
      simp only [ConsInv, hpc] at hcons
      obtain ⟨hlt, hslot, rfl⟩ := hcons
      simp only [consume, hpc, Option.some.injEq] at hs
      subst hs
      simp only [lin, hpc]
      have hshrink : s.ring.head - s.ring.tail = (s.ring.head - (s.ring.tail + 1)) + 1 := by omega
      have hwin : s.ring.contents = msg :: contents { s.ring with tail := s.ring.tail + 1 } := by
        simp only [contents, hshrink, Fifo.window_cons, hslot]
      refine ⟨⟨by simp only; omega, by simp only; omega, ?_, True.intro⟩, rfl, ?_,
        by simp [Fifo.enqOf], by simp [Fifo.deqOf, pendingEmpty, hpc]⟩
      · exact hprod.congr rfl rfl (Nat.le_succ _) rfl
      · rw [hwin]
        simp [Runs.exec_cons, Fifo.step]

theorem simulates_step {s s' : Spsc} {a : SpscAct} (h : Inv s) (hs : step s a = some s') :
    Simulates s (lin s a).toList s' := by
  cases a with
  | enqueue msg =>
      cases hpc : s.prod <;> simp only [step, hpc, reduceCtorEq, Option.some.injEq] at hs
      subst hs
      exact .silent ⟨h.le, h.room, rfl, h.cons⟩ rfl rfl rfl rfl
  | producer => exact simulates_produce h hs
  | dequeue =>
      cases hpc : s.cons <;> simp only [step, hpc, reduceCtorEq, Option.some.injEq] at hs
      subst hs
      by_cases hempty : s.ring.head = s.ring.tail
      · simp only [lin, hempty, if_true]
        refine ⟨⟨h.le, h.room, h.prod, le_rfl, h.le⟩, rfl, ?_, by simp [Fifo.enqOf], ?_⟩
        · have hnil : s.ring.contents = [] := List.length_eq_zero_iff.mp (by simp [hempty])
          simp [Runs.exec_cons, Fifo.step, hnil]
        · simp [pendingEmpty, hpc, Fifo.deqOf]
      · simp only [lin, hempty, if_false]
        exact .silent ⟨h.le, h.room, h.prod, h.le, le_rfl⟩ rfl rfl rfl
          (by simp [pendingEmpty, hpc, hempty])
  | consumer => exact simulates_consume h hs

/-! ### The refinement -/

def accepted (s : Spsc) : List ℤ := s.enqueued.filterMap fun e => if e.2 then some e.1 else none

def received (s : Spsc) : List ℤ := s.dequeued.filterMap id

/-- `s` is reached by the operations `ops` of an atomic queue of capacity
`maxItems - 1`, each of which takes effect at a step of its own call. -/
structure Linearized (maxItems : ℕ) (ops : List (Fifo.Op ℤ)) (s : Spsc) : Prop where
  queue : Runs.exec (Fifo.step (maxItems - 1)) [] ops = some s.ring.contents
  bounded : s.ring.contents.length ≤ maxItems - 1
  /-- The answers of the producer, one operation a call, in order. -/
  enq : ops.filterMap Fifo.enqOf = s.enqueued
  /-- The answers of the consumer, and the empty one it is about to get. -/
  deq : ops.filterMap Fifo.deqOf = s.dequeued ++ s.pendingEmpty
  fifo : s.received <+: s.accepted

theorem accepted_eq {s : Spsc} {ops : List (Fifo.Op ℤ)}
    (h : ops.filterMap Fifo.enqOf = s.enqueued) : s.accepted = ops.filterMap Fifo.acceptedOf := by
  rw [accepted, ← h, List.filterMap_filterMap]
  refine List.filterMap_congr fun op _ => ?_
  match op with
  | .enq x true => rfl
  | .enq x false => rfl
  | .deq r => rfl

theorem received_eq {s : Spsc} {ops : List (Fifo.Op ℤ)}
    (h : ops.filterMap Fifo.deqOf = s.dequeued ++ s.pendingEmpty) :
    s.received = ops.filterMap Fifo.removedOf := by
  have hpending : s.pendingEmpty.filterMap id = [] := by
    unfold pendingEmpty
    split
    · split <;> rfl
    · rfl
  have hall := congrArg (List.filterMap id) h
  rw [List.filterMap_append, hpending, List.append_nil, List.filterMap_filterMap] at hall
  rw [received, ← hall]
  refine List.filterMap_congr fun op _ => ?_
  match op with
  | .enq x ok => rfl
  | .deq r => rfl

/-- Every interleaving of one producer and one consumer is a run of the atomic
bounded queue, performed by the linearization points of their calls. -/
theorem linearizable {maxItems : ℕ} (hpos : 0 < maxItems) {acts : List SpscAct} {s : Spsc}
    (h : Runs.exec step (init maxItems) acts = some s) :
    Linearized maxItems (Runs.labels step lin (init maxItems) acts) s := by
  have hsim : Simulates (init maxItems) (Runs.labels step lin (init maxItems) acts) s :=
    Runs.labels_compose (I := Inv) (R := Simulates) (fun _ hI => .refl hI)
      (fun _ _ _ _ _ => Simulates.trans)
      (fun _ _ _ hI hs => ⟨simulates_step hI hs, (simulates_step hI hs).inv⟩) (inv_init hpos) h
  have henq := hsim.enq
  have hdeq := hsim.deq
  simp only [init, pendingEmpty, List.nil_append] at henq hdeq
  refine ⟨hsim.queue, ?_, henq.symm, hdeq.symm, ?_⟩
  · have hroom := hsim.inv.room
    rw [hsim.size] at hroom
    simp only [init, LockFreeRingBuffer.init] at hroom
    rw [length_contents]
    omega
  · rw [received_eq hdeq.symm, accepted_eq henq.symm]
    exact Fifo.removed_prefix_accepted hsim.queue

/-- Two slots hold one message: the first `dequeue()` reads `_head` before the
message `0` is there, the second one gets it, and a message sent in between is
refused. -/
theorem linearizable_two_slots :
    ∃ acts s, Runs.exec step (init 2) acts = some s ∧ s.enqueued = [(0, true), (7, false)] ∧
      s.dequeued = [none, some 0] ∧ Linearized 2 (Runs.labels step lin (init 2) acts) s := by
  let acts : List SpscAct := [.enqueue 0, .producer, .dequeue, .producer, .producer, .producer,
    .producer, .consumer, .dequeue, .consumer, .consumer, .enqueue 7, .producer, .consumer,
    .consumer, .consumer]
  have hrun : (Runs.exec step (init 2) acts).any (fun s =>
      decide (s.enqueued = [(0, true), (7, false)] ∧ s.dequeued = [none, some 0])) = true := by
    decide +kernel
  obtain ⟨s, hexec, hs⟩ := Runs.exists_exec_of_any hrun
  obtain ⟨henq, hdeq⟩ := of_decide_eq_true hs
  exact ⟨acts, s, hexec, henq, hdeq, linearizable (by decide) hexec⟩

end Spsc

end MabTilde

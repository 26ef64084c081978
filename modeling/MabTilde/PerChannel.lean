import MabTilde.Exchange.Iteration
import MabTilde.InferBlock

/-!
Serving a block channel by channel, against inferring it as a whole.

`infer_block` is written for the whole block: it puts a batch dimension in
front of two dimensions and takes it off three. The serving loop calls it with
one row, to which nothing is added, so the model sees a tensor of rank 1 where
it is made for rank 3. Whether the two agree is a question about what the model
does with a bare row, and a model that treats channels alike need not do
anything with it.
-/

namespace MabTilde

/-- A model of batched blocks that maps every row by `f`, whatever the number of
rows. Of other tensors nothing is said. -/
structure ChannelWise (model : Model) (bufsize : ℕ) (f : List Sample → List Sample) : Prop where
  length : ∀ x, x.length = bufsize → (f x).length = bufsize
  apply : ∀ rows, rows ≠ [] → ∀ (h : ∀ r ∈ rows, r.length = bufsize)
    (h' : ∀ r ∈ rows.map f, r.length = bufsize),
    model (NdArray.ofRows bufsize rows h).unsqueeze =
      some (NdArray.ofRows bufsize (rows.map f) h').unsqueeze

/-- Called with the bare row `x`, the model returns a block that, its batch
dimension dropped if it has three, fills a row with `ys`. -/
def ServesRow (model : Model) (bufsize : ℕ) (x ys : List Sample) : Prop :=
  ∃ out, model (NdArray.ofRow x) = some out ∧ Fills bufsize (dropBatch out) ys

abbrev Buffer (C bufsize : ℕ) : Type := Fin C → { x : List Sample // x.length = bufsize }

namespace Buffer

variable {C bufsize : ℕ}

def rows (b : Buffer C bufsize) : Exchange.Block C (List Sample) := fun ch => (b ch).1

def array (b : Buffer C bufsize) : Tensor :=
  NdArray.ofRows bufsize (List.ofFn b.rows) fun r hr => by
    obtain ⟨ch, rfl⟩ := List.mem_ofFn.mp hr
    exact (b ch).2

theorem rows_eq_of_array {b b' : Buffer C bufsize} (h : b.array = b'.array) :
    b.rows = b'.rows := List.ofFn_injective (NdArray.ofRows_inj h)

end Buffer

/-- Whatever the output rows held, the loop raises nowhere and leaves the rows of
`infer_block` called once with the whole block. -/
def AgreesWithWhole {C bufsize : ℕ} (model : Model) (input : Buffer C bufsize) : Prop :=
  ∀ output : Buffer C bufsize, ∃ output' : Buffer C bufsize,
    (backend model bufsize).serve input.rows output.rows = some output'.rows ∧
      inferBlock model input.array = some output'.array

section Lemmas

variable {C bufsize : ℕ} {model : Model} {f : List Sample → List Sample} {x ys : List Sample}

/-- The whole call: the batch dimension comes and goes. -/
theorem inferBlock_array (hm : ChannelWise model bufsize f) (hC : 0 < C)
    {input result : Buffer C bufsize} (hresult : ∀ ch, (result ch).1 = f (input ch).1) :
    inferBlock model input.array = some result.array := by
  have hrows : (List.ofFn input.rows).map f = List.ofFn result.rows := by
    rw [List.map_ofFn]
    congr 1
    funext ch
    exact (hresult ch).symm
  have hne : List.ofFn input.rows ≠ [] := by
    rw [Ne, List.ofFn_eq_nil_iff]
    omega
  have hadd : addBatch input.array = input.array.unsqueeze := if_pos rfl
  have hlen : ∀ r ∈ (List.ofFn input.rows).map f, r.length = bufsize := by
    intro r hr
    rw [hrows] at hr
    obtain ⟨ch, rfl⟩ := List.mem_ofFn.mp hr
    exact (result ch).2
  rw [inferBlock, hadd, Buffer.array, hm.apply _ hne _ hlen, Option.map_some]
  congr 1
  -- the batch dimension goes
  show NdArray.ofRows bufsize ((List.ofFn input.rows).map f) hlen = result.array
  unfold Buffer.array
  congr 1

theorem serveRow_backend (old : List Sample) :
    (backend model bufsize).serveRow x old =
      (model (NdArray.ofRow x)).bind fun out => writeBack bufsize old (dropBatch out) := by
  have hadd : addBatch (NdArray.ofRow x) = NdArray.ofRow x := if_neg (by simp [NdArray.dim])
  show (inferBlock model (NdArray.ofRow x)).bind (fun out => writeBack bufsize old out) = _
  rw [inferBlock, hadd]
  cases model (NdArray.ofRow x) <;> rfl

/-- A row gets `ys` whatever it held exactly if it is filled. -/
theorem servesRow_iff :
    (ServesRow model bufsize x ys ∧ ys.length = bufsize) ↔
      ∀ old : List Sample, old.length = bufsize →
        (backend model bufsize).serveRow x old = some ys := by
  refine ⟨?_, ?_⟩
  · rintro ⟨⟨out, hout, hfills⟩, hys⟩ old hold
    rw [serveRow_backend, hout, Option.bind_some, writeBack, (fills_iff.mp hfills).1,
      Option.map_some, List.drop_eq_nil_of_le (hold.trans hys.symm).le, List.append_nil]
  · intro h
    -- the row is assigned the same samples over zeros and over ones
    have hzero := h (List.replicate bufsize 0) List.length_replicate
    have hone := h (List.replicate bufsize 1) List.length_replicate
    rw [serveRow_backend, Option.bind_eq_some_iff] at hzero hone
    obtain ⟨out, hout, hzero⟩ := hzero
    obtain ⟨out', hout', hone⟩ := hone
    obtain rfl := Option.some.inj (hout.symm.trans hout')
    obtain ⟨new, hnew, hzero⟩ := Option.map_eq_some_iff.mp hzero
    obtain ⟨new', hnew', hone⟩ := Option.map_eq_some_iff.mp hone
    obtain rfl := Option.some.inj (hnew.symm.trans hnew')
    have hle := le_of_drop_replicate (List.append_cancel_left (hzero.trans hone.symm))
    obtain ⟨d, s, -, hlen⟩ := length_assigned hnew
    have hfull : new.length = bufsize := by omega
    rw [List.drop_eq_nil_of_le (by rw [List.length_replicate, hfull]), List.append_nil] at hzero
    subst hzero
    exact ⟨⟨out, hout, fills_iff.mpr ⟨hnew, hfull⟩⟩, hfull⟩

end Lemmas

/-- For a channel-wise model the loop agrees with the whole call exactly if the
model also serves each bare row, with the row it gives in the whole call. -/
theorem agreesWithWhole_iff {C bufsize : ℕ} (hC : 0 < C) {model : Model}
    {f : List Sample → List Sample} (hm : ChannelWise model bufsize f)
    (input : Buffer C bufsize) :
    AgreesWithWhole model input ↔ ∀ ch, ServesRow model bufsize (input ch).1 (f (input ch).1) := by
  let result : Buffer C bufsize := fun ch => ⟨f (input ch).1, hm.length _ (input ch).2⟩
  have hwhole : inferBlock model input.array = some (Buffer.array result) :=
    inferBlock_array hm hC fun _ => rfl
  refine ⟨?_, ?_⟩
  · intro h ch
    refine (servesRow_iff.mpr fun old hold => ?_).1
    obtain ⟨output', hserve, hinfer⟩ := h fun _ => ⟨old, hold⟩
    have hrows := Buffer.rows_eq_of_array (Option.some.inj (hinfer.symm.trans hwhole))
    exact (Exchange.serve_eq_some_iff.mp hserve ch).trans (congrArg some (congrFun hrows ch))
  · intro h output
    refine ⟨_, ?_, hwhole⟩
    rw [Exchange.serve_eq_some_iff]
    intro ch
    exact servesRow_iff.mp ⟨h ch, hm.length _ (input ch).2⟩ _ (output ch).2

theorem channelWise_identity (bufsize : ℕ) : ChannelWise (fun t => some t) bufsize id := by
  refine ⟨fun x hx => hx, fun rows _ h h' => ?_⟩
  congr 1
  apply NdArray.ext
  · simp [NdArray.unsqueeze, NdArray.ofRows]
  · simp [NdArray.unsqueeze, NdArray.ofRows]

def twoRowsOfTwo : Buffer 2 2 := fun ch => ⟨[BitVec.ofNat 32 ch, 5], rfl⟩

theorem agreesWithWhole_identity : AgreesWithWhole (fun t => some t) twoRowsOfTwo := by
  refine (agreesWithWhole_iff (by decide) (channelWise_identity 2) _).mpr fun ch => ?_
  exact ⟨NdArray.ofRow (twoRowsOfTwo ch).1, rfl, 2, [], rfl, le_refl 2, .inl rfl, rfl⟩

def oneRow : Buffer 1 2 := fun _ => ⟨[1, 2], rfl⟩

def batchedIdentity : Model := fun t => if t.dim = 3 then some t else none

/-- It is channel-wise and infers the whole block, and the loop raises at its first
channel. -/
theorem batched_model_raises :
    ChannelWise batchedIdentity 2 id ∧
      inferBlock batchedIdentity (Buffer.array oneRow) = some (Buffer.array oneRow) ∧
      (∀ output : Buffer 1 2, (backend batchedIdentity 2).serve
        (Buffer.rows oneRow) (Buffer.rows output) = none) ∧
      ¬ AgreesWithWhole batchedIdentity oneRow := by
  have hraises : ∀ output : Buffer 1 2, (backend batchedIdentity 2).serve
      (Buffer.rows oneRow) (Buffer.rows output) = none := fun _ => rfl
  refine ⟨?_, rfl, hraises, fun h => ?_⟩
  · refine ⟨fun x hx => hx, fun rows hne h h' => ?_⟩
    exact (if_pos rfl).trans ((channelWise_identity 2).apply rows hne h h')
  · obtain ⟨output', hserve, -⟩ := h fun _ => ⟨[0, 0], rfl⟩
    rw [hraises] at hserve
    cases hserve

end MabTilde

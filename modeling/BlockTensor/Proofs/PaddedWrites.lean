import BlockTensor.Proofs.Padding
import BlockTensor.Proofs.Workspace

/-!
# Updates keep the padding

Whatever a backend writes to quantized elements it writes by `Elements.write`
within the shape of its destination, so zeros that follow stay zeros:

* `Elementwise.run_padded`, `Backend.batchDotProduct_padded` and, for all updates
  of a backend, `Work.run_padded`;
* `PartEdit.run_padded`: so do all ways of writing to a part of a tensor, a copy if
  the view that it copies from is itself followed by zeros.
-/

namespace BlockTensor

open Outcome Update Elements Shape

variable {α : Type} [ExactScalar α]

/-- Padded elements in buffers of known lengths. -/
def Elements.PaddedIn (layout : DType × Nat × Nat) (m : Nat) (e : Elements α) : Prop :=
  e.layout = layout ∧ e.Padded m

variable {layout : DType × Nat × Nat} {m : Nat}

/-- Padded elements are not of full precision. -/
theorem Elements.PaddedIn.dtype_ne {e : Elements α} (h : e.PaddedIn layout m) : e.dtype ≠ .f32 := by
  intro hd
  have hq := h.2.quantized
  rw [hd] at hq
  cases hq

/-- A row of results is computed in a buffer of its length. -/
theorem Vector.batchRow_keeps (p : Pool) (a : Elements α) (aStart : Nat) (b : View α)
    (w : BatchWindow) : (Vector.batchRow p a aStart b w).Keeps Array.size := by
  have hrun (start : Nat) : (rowRun a aStart b w start).Keeps Array.size := by
    intro run
    refine keeps_forM (f := Array.size) (fun r _ => keeps_bind (keeps_ofOutcome _) fun d => ?_) run
    exact fun run => Array.size_setIfInBounds ..
  intro row
  unfold batchRow
  split
  · refine keeps_forM (f := Array.size) (fun t _ run => ?_) row
    unfold Pool.updateChunk
    split <;> exact Buffer.size_blit ..
  · exact hrun 0 row

variable [ZeroScalar α]

theorem Elements.write_paddedIn {start : Nat} {src : Array α} (h : start + src.size ≤ m) :
    (write start src).Preserves (PaddedIn layout m) := fun e he =>
  ⟨(write_keeps start src e).trans he.1, write_padded h e he.2⟩

theorem Reference.updateWindow_padded {start len : Nat} (h : start + len ≤ m)
    (f : Nat → α → Outcome α) : (updateWindow start len f).Preserves (PaddedIn layout m) := by
  intro e he
  unfold updateWindow
  split
  · exact he
  rename_i values hvalues
  obtain ⟨old, hold, hvalues⟩ := bind_eq_ok.mp hvalues
  have hsize : values.size = len := by
    rw [size_of_mapIdxM hvalues, run_of_read hold, size_run]
  exact write_paddedIn (hsize.symm ▸ h) e he

namespace Elementwise

theorem reference_padded (op : Elementwise α) {dst : Shape} (h : dst.size ≤ m) :
    (op.run .reference dst).Preserves (PaddedIn layout m) := by
  have hrows {offset len : Nat} (hw : offset + len ≤ dst.last) (f : Nat → Nat → α → Outcome α) :
      ((List.range dst.rowCount).forM fun row =>
        Reference.updateWindow (row * dst.last + offset) len (f row)).Preserves
          (PaddedIn layout m) := by
    refine preserves_forM fun row hrow => Reference.updateWindow_padded ?_ _
    have hrow := dst.row_le (List.mem_range.mp hrow)
    omega
  cases op with
  | accumulate src offset len | maccumulate src offset len =>
    exact preserves_ofOutcome_bind fun b hb => hrows (checkRows_eq_ok hb).1.window _
  | scale factor offset len =>
    exact preserves_ofOutcome_bind fun _ hw => hrows (checkWindow_eq_ok hw) _
  | saxpy c x xOffset yOffset limit | sxpby c x xOffset yOffset limit =>
    refine preserves_ofOutcome_bind fun xs hxs => Reference.updateWindow_padded ?_ _
    have hw := (checkPair_eq_ok hxs).1.window
    omega

theorem run_padded (be : Backend α) (op : Elementwise α) {dst : Shape} (h : dst.size ≤ m) :
    (op.run be dst).Preserves (PaddedIn layout m) := by
  intro e he
  obtain hrun | ⟨p, hrun⟩ := op.run_eq_or be dst
  · rw [hrun]
    exact op.reference_padded h e he
  · rw [hrun, vector_of_dtype_ne p op dst he.dtype_ne]
    exact op.reference_padded h e he

end Elementwise

theorem Reference.batchDotProduct_padded (a b : View α) (w : BatchWindow) {dst : Shape}
    (h : dst.size ≤ m) : (batchDotProduct a b w dst).Preserves (PaddedIn layout m) := by
  refine preserves_ofOutcome_bind fun _ hcheck => preserves_forM fun i hi =>
    preserves_forM fun r hr => preserves_ofOutcome_bind fun d _ => write_paddedIn ?_
  have hrow := (checkBatch_eq_ok hcheck).r_le (List.mem_range.mp hi)
  have hr := List.mem_range.mp hr
  show i * dst.last + w.rColumn + r + 1 ≤ m
  omega

theorem Vector.batchRowInto_padded (p : Pool) {dst : Shape} (a b : View α) {w : BatchWindow}
    {i : Nat} (h : i * dst.last + w.rColumn + w.rowChunk ≤ m) :
    (batchRowInto p dst a b w i).Preserves (PaddedIn layout m) := by
  intro e he
  have hrow := batchRow_keeps p a.elems (i * a.shape.last + w.aColumn) b w (.replicate w.rowChunk 0)
  unfold batchRowInto
  dsimp only
  cases e with
  | f32 data => exact absurd rfl he.dtype_ne
  | f16 data | bf16 data | q8 data scales | q4 data scales =>
    dsimp only
    split
    · rename_i run heq
      rw [heq, left_ok, Array.size_replicate] at hrow
      exact write_paddedIn (by omega) _ he
    · exact he

theorem Vector.batchDotProduct_padded (p : Pool) (a b : View α) (w : BatchWindow) {dst : Shape}
    (h : dst.size ≤ m) : (batchDotProduct p a b w dst).Preserves (PaddedIn layout m) := by
  refine preserves_ofOutcome_bind fun _ hcheck => preserves_ofOutcome_bind fun _ _ =>
    preserves_forM fun i hi => batchRowInto_padded p a b ?_
  have hrow := (checkBatch_eq_ok hcheck).r_le (List.mem_range.mp hi)
  omega

/-- A kernel is called for destinations of a float encoding only. -/
theorem Backend.batchDotProduct_padded (be : Backend α) (a b : View α) (w : BatchWindow)
    {dst : Shape} (h : dst.size ≤ m) :
    (be.batchDotProduct a b w dst).Preserves (PaddedIn layout m) := by
  cases be with
  | reference =>
    exact preserves_bind (Reference.batchDotProduct_padded a b w h) fun _ => preserves_pure _
  | vector p =>
    exact preserves_bind (Vector.batchDotProduct_padded p a b w h) fun _ => preserves_pure _
  | native n =>
    intro e he
    show PaddedIn layout m (left (n.batchDotProduct a b w dst e))
    unfold Native.batchDotProduct
    split
    · exact he
    split
    · exact preserves_bind (Vector.batchDotProduct_padded n.pool a b w h)
        (fun _ => preserves_pure _) e he
    dsimp only
    split
    · exact he
    · rename_i hlayout
      obtain ⟨g, -, hlayout⟩ := bind_eq_ok.mp hlayout
      obtain ⟨_, hdst, -⟩ := bind_eq_ok.mp hlayout
      unfold Native.checkDestination at hdst
      split at hdst
      · rename_i hd
        have hq := he.2.quantized
        obtain hd | hd := hd <;> rw [hd] at hq <;> cases hq
      · exact absurd hdst (fail_ne_ok _ _)

/-- The updates of a backend keep what follows their destination. -/
theorem Work.run_padded (be : Backend α) (work : Work α) {dst : Shape} (h : dst.size ≤ m) :
    (work.run be dst).Preserves (PaddedIn layout m) := by
  cases work with
  | compute c =>
    cases c with
    | batchDotProduct a b w =>
      exact preserves_bind (be.batchDotProduct_padded a b w h) fun _ => preserves_pure ()
    | elementwise op => exact op.run_padded be h
  | saxpyRows alpha x xOffset yOffset limit rows =>
    refine preserves_ofOutcome_bind fun alphas _ => preserves_forM fun r _ =>
      preserves_ofOutcome_bind fun row _ => preserves_ofOutcome_bind fun c _ => ?_
    exact (Elementwise.saxpy c row xOffset yOffset limit).run_padded be h
  | batchDotProductWithFallback a b w =>
    refine preserves_bind (fun e he => ?_) fun _ => preserves_pure ()
    have hfirst := be.batchDotProduct_padded a b w h e he
    unfold Backend.batchDotProductWithFallback
    split
    · rename_i f e' heq
      rw [heq] at hfirst
      split
      · exact preserves_ofOutcome_bind
          (fun decoded _ => be.batchDotProduct_padded a decoded w h) e' hfirst
      · exact hfirst
    · rename_i heq
      rwa [heq] at hfirst

/-! ## Parts -/

/-- The position of an index vector is one of the elements of the shape. -/
theorem Shape.offsetFrom_lt {axis acc p : Nat} {dims index : List Nat}
    (hlen : index.length = dims.length)
    (h : offsetFrom axis acc dims (rowMajor dims) index = .ok p) : p < acc + volume dims := by
  induction dims generalizing axis acc index with
  | nil =>
    obtain rfl := List.length_eq_zero_iff.mp hlen
    obtain rfl : acc = p := Except.ok.inj h
    simp
  | cons d dims ih =>
    obtain ⟨i, index, rfl⟩ := List.exists_cons_of_length_eq_add_one hlen
    rw [rowMajor, offsetFrom] at h
    split at h
    · exact absurd h (fail_ne_ok _ _)
    rename_i hd
    obtain ⟨term, hterm, h⟩ := bind_eq_ok.mp h
    obtain ⟨-, rfl⟩ := Word.check_eq_ok.mp hterm
    obtain ⟨next, hnext, h⟩ := bind_eq_ok.mp h
    obtain ⟨-, rfl⟩ := Word.check_eq_ok.mp hnext
    have hlt := ih (Nat.succ.inj hlen) h
    have hroom : i * volume dims + volume dims ≤ d * volume dims := by
      rw [← Nat.succ_mul]
      exact Nat.mul_le_mul_right _ (Nat.not_le.mp hd)
    rw [volume_cons]
    omega

theorem Shape.offsetOf_lt {s : Shape} {index : List Nat} {p : Nat} (h : s.offsetOf index = .ok p) :
    p < s.size := by
  unfold offsetOf offset at h
  split at h
  · exact absurd h (fail_ne_ok _ _)
  rename_i hlen
  have hlt := offsetFrom_lt (Classical.not_not.mp hlen) h
  rwa [Nat.zero_add] at hlt

/-- A target at a place of its owner whose elements are padded. -/
structure Target.PaddedAt (start : Nat) (layout : DType × Nat × Nat) (m : Nat) (t : Target α) :
    Prop where
  start : t.segment.start = start
  size : t.size ≤ m
  elems : t.elems.PaddedIn layout m

variable {place : Nat}

omit [ZeroScalar α] in
theorem Target.update_padded {β : Type} {u : Shape → Update (Elements α) β}
    (hu : ∀ shape : Shape, shape.size ≤ m → (u shape).Preserves (PaddedIn layout m)) :
    (Target.update u).Preserves (PaddedAt place layout m) := by
  intro t ht
  rw [left_update]
  exact ⟨ht.start, ht.size, hu t.shape ht.size t.segment.elems ht.elems⟩

omit [ZeroScalar α] in
/-- A copy of whole blocks to the end of a target brings what follows the view. -/
theorem Target.copyFrom_padded {src : View α} {source start len : Nat} (hs : src.elems.Scaled)
    (hsrc : src.dtype.isQuantized → source + len = src.size → src.elems.Padded src.size) :
    (Target.copyFrom src source start len).Preserves (PaddedAt place layout m) := by
  intro t ht
  obtain ⟨f, h⟩ | ⟨htarget, n, hn, h⟩ := copyFrom_eq_update src source start len t
  · rw [h]
    exact ht
  rw [h]
  have hsize := ht.size
  have hzero (hq : src.dtype.isQuantized) (j : Nat) (hj : j < n) (hm : m ≤ start + j) :
      src.elems.value (source + j) = 0 := by
    obtain rfl | ⟨-, hend⟩ := hn
    · omega
    · exact (hsrc hq hend).zero _ (by omega)
  exact update_padded (fun _ _ e he =>
    ⟨(copyRaw_keeps start src.elems source n e).trans he.1, copyRaw_padded hs hzero e he.2⟩) t ht

/-- A way of writing to a part keeps what follows the part, if what it copies is
followed by zeros. -/
theorem PartEdit.run_padded {ts : List (Tensor α)} (edit : PartEdit α)
    (hcopy : ∀ src source start len v, edit = .copyFrom src source start len →
      src.view ts = .ok v → v.elems.Scaled ∧
        (v.dtype.isQuantized → source + len = v.size → v.elems.Padded v.size)) :
    (edit.run ts).Preserves (Target.PaddedAt place layout m) := by
  cases edit with
  | set v index =>
    intro t ht
    show Target.PaddedAt place layout m (left (Target.set v index t))
    obtain ⟨f, h⟩ | ⟨p, hp, h⟩ := Target.set_eq_update v index t
    · rw [h]
      exact ht
    · rw [h]
      have hlt : p < t.size := offsetOf_lt hp
      have hsize := ht.size
      exact Target.update_padded (fun _ _ => write_paddedIn (show p + 1 ≤ m by omega)) t ht
  | fillZero =>
    refine Target.update_padded (u := fun _ => modify Elements.fillZero) fun _ _ e he => ?_
    exact ⟨(fillZero_layout e).trans he.1, fillZero_padded he.2⟩
  | copyFrom src source start len =>
    refine preserves_ofOutcome_bind fun v hv => ?_
    obtain ⟨hs, hsrc⟩ := hcopy src source start len v rfl hv
    exact Target.copyFrom_padded hs hsrc
  | work be work => exact Target.update_padded fun _ hsize => work.run_padded be hsize

end BlockTensor

import BlockTensor.Proofs.DotKernel
import BlockTensor.Proofs.Overwrite

/-!
# Batched dot products agree

In exact arithmetic, the reference backend and the vectorized one leave the same
destination, which is the old one with a row of `BatchWindow.dot`s written over
each row of the window (`rowsInto`):

* `Reference.batchDotProduct_eq` writes a row one result after the other;
* `Vector.batchDotProduct_eq` computes a row in a buffer of its own, whose runs a
  pool may fill in any order, and writes it at once;
* `batchDotProduct_agrees` adds the pairs without a kernel, whose `b` is decoded
  (`decoded_value`).
-/

namespace BlockTensor

open Outcome Update Elements

variable {α : Type} [ExactScalar α]

/-- The dot product of row `i` of `a` and row `r` of the window of `b`. -/
def BatchWindow.dot (w : BatchWindow) (a b : View α) (i r : Nat) : α :=
  dotSum a.elems (i * a.shape.last + w.aColumn) b.elems ((w.bRow + r) * b.shape.last + w.bColumn)
    w.columns

/-- The first `n` results of row `i`. -/
def rowOf (w : BatchWindow) (a b : View α) (i n : Nat) : Array α :=
  Array.ofFn fun r : Fin n => w.dot a b i r

/-- The destination after `n` rows. -/
def rowsInto (result : Shape) (w : BatchWindow) (a b : View α) (e : Elements α) (n : Nat) :
    Elements α :=
  w.overwriteRows result (w.dot a b) e n

theorem rowsInto_layout (result : Shape) (w : BatchWindow) (a b : View α) (e : Elements α)
    (n : Nat) : (rowsInto result w a b e n).layout = e.layout := w.overwriteRows_layout ..

section

variable {result : Shape} {a b : View α} {w : BatchWindow} {e : Elements α}

theorem Reference.batchDotProduct_eq (hf : BatchFits result a b w) (ha : a.WellFormed)
    (hb : b.WellFormed) (he : Receives result e) (hw : checkBatch result a b w = .ok ()) :
    batchDotProduct a b w result e = .ok () (rowsInto result w a b e a.shape.first) :=
  batchDotProduct_overwrites hf he hw fun _ hi _ hr =>
    dotElements_eq ha.elems.scaled hb.elems.scaled (hf.a_le ha hi) (hf.b_le hb hr)

/-! ## The vectorized rows -/

theorem Vector.computes_dot (hf : BatchFits result a b w) (ha : a.WellFormed) (hb : b.WellFormed)
    (hs : Kernel.supports a.dtype b.dtype = true) {i : Nat} (hi : i < a.shape.first) :
    Computes a.elems (i * a.shape.last + w.aColumn) b w (w.dot a b i) :=
  fun _ hr => Kernel.dot_eq ha.elems hb.elems (hf.a_le ha hi) (hf.b_le hb hr) hs

theorem Vector.batchRowInto_eq (p : Pool) (hf : BatchFits result a b w) (ha : a.WellFormed)
    (hb : b.WellFormed) (hs : Kernel.supports a.dtype b.dtype = true) (he : Receives result e)
    {i : Nat} (hi : i < a.shape.first) :
    batchRowInto p result a b w i e =
      .ok () (e.overwrite (i * result.last + w.rColumn) (rowOf w a b i w.rowChunk)) := by
  have hdot := computes_dot hf ha hb hs hi
  have hle := Nat.le_trans (hf.r_le hi) he.holds
  by_cases hd : e.dtype = .f32
  · cases e with
    | f32 data =>
      unfold batchRowInto
      dsimp only
      rw [batchRow_eq p hdot (Buffer.size_extract_of_le hle)]
      rfl
    | _ => cases hd
  · rw [batchRowInto_eq_write p hdot result hd]
    exact write_eq_overwrite he.float he.fits (by rwa [Array.size_ofFn])

theorem Vector.batchDotProduct_eq (p : Pool) (hf : BatchFits result a b w) (ha : a.WellFormed)
    (hb : b.WellFormed) (hs : Kernel.supports a.dtype b.dtype = true) (he : Receives result e)
    (hw : checkBatch result a b w = .ok ()) :
    batchDotProduct p a b w result e = .ok () (rowsInto result w a b e a.shape.first) := by
  rw [batchDotProduct, hw, checkSupported, if_pos hs]
  refine (bind_ok rfl).trans ((bind_ok rfl).trans ?_)
  refine forM_range_ok (rowsInto result w a b e) fun i hi => ?_
  exact batchRowInto_eq p hf ha hb hs (he.of_layout (rowsInto_layout ..)) hi

/-! ## Pairs without a kernel -/

/-- Every encoding has a kernel with full-precision values. -/
theorem supports_f32 (d : DType) : Kernel.supports d .f32 = true := by
  cases d <;> rfl

/-- A contiguous view with its values in full precision. -/
def decoded (v : View α) : View α := ⟨v.shape, v.shape.strides, .f32 (v.elems.run 0 v.size)⟩

theorem decoded_isContiguous (v : View α) : (decoded v).isContiguous = true :=
  View.isContiguous_iff.mpr rfl

theorem decoded_elems_wellFormed {v : View α} (h : v.WellFormed) :
    (decoded v).elems.WellFormed :=
  ⟨trivial, by rw [decoded, Elements.size, size_run]; exact h.fits⟩

theorem decoded_wellFormed {v : View α} (h : v.WellFormed) : (decoded v).WellFormed :=
  View.wellFormed_of (decoded_elems_wellFormed h) (Nat.le_of_eq (size_run ..).symm)

theorem decoded_value (v : View α) {i : Nat} (h : i < v.size) :
    (decoded v).elems.value i = v.elems.value i := by
  simp [decoded, value, cell?, run, h, Cell.decode]

/-- Decoding a view gives this view. -/
theorem new_values_view {v : View α} (h : v.WellFormed) (hc : v.isContiguous = true) :
    (do (← Tensor.new (← v.values) v.shape).view) = .ok (decoded v) := by
  have hread : v.values = .ok (v.elems.run 0 v.size) := by
    rw [View.values, if_pos hc, read_eq_run h.elems (by rw [Nat.zero_add]; exact h.size_le hc)]
  have hnew : Tensor.new (v.elems.run 0 v.size) v.shape =
      .ok (.owning v.shape (.f32 (v.elems.run 0 v.size))) := by
    have hsize : (v.elems.run 0 v.size).size = v.shape.size := size_run ..
    rw [Tensor.new, Shape.numel_eq h.fits, ok_bind, if_pos hsize]
    rfl
  rw [hread, ok_bind, hnew, ok_bind]
  exact View.of_eq (decoded_elems_wellFormed h) (Nat.le_of_eq (size_run ..).symm)

theorem checkBatch_decoded (hf : BatchFits result a b w) (hw : checkBatch result a b w = .ok ()) :
    checkBatch result a (decoded b) w = .ok () := by
  have hb : b.contiguous = .ok b.elems := if_pos hf.bContiguous
  have hd : (decoded b).contiguous = .ok (decoded b).elems := if_pos (decoded_isContiguous b)
  have hshape : (decoded b).shape = b.shape := rfl
  simp only [checkBatch, hb, ok_bind] at hw
  simp only [checkBatch, hd, hshape, ok_bind]
  exact hw

theorem dot_decoded (hf : BatchFits result a b w) (i : Nat) {r : Nat} (hr : r < w.rowChunk) :
    w.dot a (decoded b) i r = w.dot a b i r := by
  have hrow := row_window_le hf.bRank (Nat.lt_of_lt_of_le (Nat.add_lt_add_left hr _) hf.bRows)
    hf.bColumns
  rw [BatchWindow.dot, BatchWindow.dot, dotSum, dotSum]
  refine Finset.sum_congr rfl fun k hk => ?_
  have hk := Finset.mem_range.mp hk
  have hlt : (w.bRow + r) * b.shape.last + w.bColumn + k < b.size :=
    Nat.lt_of_lt_of_le (Nat.add_lt_add_left hk _) hrow
  exact congrArg (_ * ·) (decoded_value b hlt)

theorem rowsInto_decoded (hf : BatchFits result a b w) (n : Nat) :
    rowsInto result w a (decoded b) e n = rowsInto result w a b e n := by
  induction n with
  | zero => rfl
  | succ n ih =>
    have hrow : rowOf w a (decoded b) n w.rowChunk = rowOf w a b n w.rowChunk :=
      congrArg Array.ofFn (funext fun r => dot_decoded hf n r.isLt)
    exact congrArg₂ (Elements.overwrite (n * result.last + w.rColumn)) hrow ih

/-- The vectorized backend, over any pool and with `b` decoded where it has no
kernel for a pair, leaves the destination as the reference backend does. -/
theorem batchDotProduct_agrees (p : Pool) (a b : View α) (w : BatchWindow) (result : Shape)
    (e : Elements α) (ha : a.WellFormed) (hb : b.WellFormed) (he : Receives result e)
    (hw : checkBatch result a b w = .ok ()) :
    ∃ e', Backend.reference.batchDotProduct a b w result e = .ok [] e' ∧
      (Backend.vector p).batchDotProductWithFallback a b w result e = .ok [] e' := by
  have hf := checkBatch_eq_ok hw
  refine ⟨rowsInto result w a b e a.shape.first, ?_, ?_⟩
  · exact (bind_ok (Reference.batchDotProduct_eq hf ha hb he hw)).trans rfl
  rw [Backend.batchDotProductWithFallback]
  by_cases hs : Kernel.supports a.dtype b.dtype = true
  · have hvector : (Backend.vector p).batchDotProduct a b w result e = .ok [] _ :=
      (bind_ok (Vector.batchDotProduct_eq p hf ha hb hs he hw)).trans rfl
    rw [hvector]
  · have hw' := checkBatch_decoded hf hw
    have hagain : (Backend.vector p).batchDotProduct a (decoded b) w result e =
        .ok [] (rowsInto result w a b e a.shape.first) := by
      rw [← rowsInto_decoded hf]
      exact (bind_ok (Vector.batchDotProduct_eq p (checkBatch_eq_ok hw') ha (decoded_wellFormed hb)
        (supports_f32 a.dtype) he hw')).trans rfl
    rw [Backend.batchDotProduct_refused p e hw hs, new_values_view hb hf.bContiguous]
    exact (bind_ok rfl).trans hagain

end

/-- A row of nibbles, each two. -/
def nibbleRow : View ℤ :=
  ⟨⟨[1, 32], by decide, by decide⟩, [32, 1], .q4 (.replicate 16 0x99) #[2]⟩

/-- A row of 16-bit patterns, each three. -/
def patternRow : View ℤ := ⟨⟨[1, 32], by decide, by decide⟩, [32, 1], .f16 (.replicate 32 3)⟩

/-- Columns inside both, three registers and a rest of them, the result in the second column. -/
def innerColumns : BatchWindow := ⟨1, 2, 27, 1, 0, 1⟩

/-- Three workers. -/
def threeWorkers : Pool := .ofThreads 1 3

/-- Nibbles times 16-bit patterns, for which there is no kernel. -/
theorem batchDotProduct_agrees_unsupportedPair :
    let result : Shape := ⟨[1, 2], by decide, by decide⟩
    nibbleRow.WellFormed ∧ patternRow.WellFormed ∧ Receives result (.f32 #[7, 7] : Elements ℤ) ∧
      checkBatch result nibbleRow patternRow innerColumns = .ok () ∧
      (Backend.vector threeWorkers).batchDotProductWithFallback nibbleRow patternRow innerColumns
        result (.f32 #[7, 7]) = .ok [] (.f32 #[7, 162]) := by
  intro result
  have ha : nibbleRow.WellFormed := View.wellFormed_of ⟨rfl, by decide⟩ (by decide)
  have hb : patternRow.WellFormed := View.wellFormed_of ⟨trivial, by decide⟩ (by decide)
  have he : Receives result (.f32 #[7, 7] : Elements ℤ) := ⟨rfl, by decide, by decide⟩
  have hw : checkBatch result nibbleRow patternRow innerColumns = .ok () := rfl
  obtain ⟨e', href, hvec⟩ :=
    batchDotProduct_agrees threeWorkers nibbleRow patternRow innerColumns result _ ha hb he hw
  have hval : Backend.reference.batchDotProduct nibbleRow patternRow innerColumns result
      (.f32 #[7, 7] : Elements ℤ) = .ok [] (.f32 #[7, 162]) := rfl
  rw [href] at hval
  obtain ⟨-, rfl⟩ := EStateM.Result.ok.inj hval
  exact ⟨ha, hb, he, hw, hvec⟩

end BlockTensor

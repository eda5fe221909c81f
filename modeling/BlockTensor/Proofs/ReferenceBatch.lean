import BlockTensor.Proofs.KernelDot
import BlockTensor.Proofs.NativeBatch
import BlockTensor.Proofs.Rewrite

/-!
# Reference batched dot products

The reference backend gives every element of the window of a result the encoded sum of
the products, from left to right, of the row of `a` and the row of `b` that it belongs
to, in any arithmetic, and leaves every other element as it was
(`Reference.batchDotProduct_sums`).

* `BatchWindow.cell?_overwriteRows`: rows that are written over a window do not reach
  one another, so each element of it keeps what was written for it.
-/

namespace BlockTensor

open Outcome Update Elements

variable {α : Type} [Scalar α]

section

variable {result : Shape} {w : BatchWindow} {e : Elements α}

/-- An element of the window holds what was written for it, any other one what it
held. -/
theorem BatchWindow.cell?_overwriteRows (d : Nat → Nat → α) (hr : result.rank = 2)
    (hcolumns : w.rColumn + w.rowChunk ≤ result.last) (he : Receives result e) {n : Nat}
    (hn : n ≤ result.first) :
    (∀ i < n, ∀ r < w.rowChunk,
      (w.overwriteRows result d e n).cell? (i * result.last + w.rColumn + r) =
        Cell.encode? e.dtype (d i r)) ∧
    ∀ p, (∀ i < n, ∀ r < w.rowChunk, p ≠ i * result.last + w.rColumn + r) →
      (w.overwriteRows result d e n).cell? p = e.cell? p := by
  induction n with
  | zero => exact ⟨nofun, fun _ _ => rfl⟩
  | succ n ih =>
    obtain ⟨hinside, houtside⟩ := ih (Nat.le_of_succ_le hn)
    have he' : Receives result (w.overwriteRows result d e n) :=
      he.of_layout (w.overwriteRows_layout ..)
    have hd : (w.overwriteRows result d e n).dtype = e.dtype :=
      dtype_eq_of_layout (w.overwriteRows_layout ..)
    have hle : n * result.last + w.rColumn + (Array.ofFn fun r : Fin w.rowChunk => d n r).size ≤
        (w.overwriteRows result d e n).size := by
      rw [Array.size_ofFn]
      exact Nat.le_trans (row_window_le hr hn hcolumns) he'.holds
    have hrow (p : Nat) := cell?_overwrite he'.float hle p
    rw [Array.size_ofFn, hd] at hrow
    refine ⟨fun i hi r hlt => ?_, fun p hp => ?_⟩
    · show (overwrite _ _ _).cell? _ = _
      rw [hrow]
      rcases Nat.lt_succ_iff_lt_or_eq.mp hi with hi | rfl
      · -- an earlier row ends before this one starts
        have hmul := Nat.mul_le_mul_right result.last hi
        rw [Nat.succ_mul] at hmul
        rw [if_neg (by omega)]
        exact hinside i hi r hlt
      · rw [if_pos (by omega), Nat.add_sub_cancel_left, Array.getElem?_ofFn, dif_pos hlt]
        rfl
    · show (overwrite _ _ _).cell? _ = _
      rw [hrow, if_neg fun hin => ?_]
      · exact houtside p fun i hi => hp i (Nat.lt_succ_of_lt hi)
      · exact hp n (Nat.lt_succ_self n) (p - (n * result.last + w.rColumn)) (by omega) (by omega)

end

/-- After a batched dot product, column `rColumn + (j - bRow)` of row `i` of the result
holds the encoding of the products of the windows of row `i` of `a` and row `j` of `b`,
summed from left to right from zero on. Every other element is what it was. -/
theorem Reference.batchDotProduct_sums (a b : View α) (w : BatchWindow) (result : Shape)
    (e : Elements α) (ha : a.WellFormed) (hb : b.WellFormed) (he : Receives result e)
    (hw : checkBatch result a b w = .ok ()) :
    ∃ e', Backend.reference.batchDotProduct a b w result e = .ok [] e' ∧
      (∀ i < a.shape.first, ∀ j, w.bRow ≤ j → j < w.bRow + w.rowChunk →
        ∃ xs ys, a.window i w.aColumn w.columns = .ok xs ∧
          b.window j w.bColumn w.columns = .ok ys ∧
          e'.cell? (Shape.linear result.dims [i, w.rColumn + (j - w.bRow)]) =
            Cell.encode? e.dtype (sumOfProducts xs ys)) ∧
      (∀ p, (∀ i < a.shape.first, ∀ j, w.bRow ≤ j → j < w.bRow + w.rowChunk →
          p ≠ Shape.linear result.dims [i, w.rColumn + (j - w.bRow)]) → e'.cell? p = e.cell? p) ∧
      e'.layout = e.layout := by
  have hf := checkBatch_eq_ok hw
  let d (i r : Nat) : α := inOrder a.elems (i * a.shape.last + w.aColumn) b.elems
    ((w.bRow + r) * b.shape.last + w.bColumn) w.columns
  have hrun : Reference.batchDotProduct a b w result e =
      .ok () (w.overwriteRows result d e a.shape.first) :=
    batchDotProduct_overwrites hf he hw fun i hi r hr =>
      dotElements_inOrder ha.elems.scaled hb.elems.scaled (hf.a_le ha hi) (hf.b_le hb hr)
  obtain ⟨hinside, houtside⟩ :=
    w.cell?_overwriteRows d hf.resultRank hf.rColumns he (Nat.le_of_eq hf.rows)
  have hposition (i r : Nat) : Shape.linear result.dims [i, w.rColumn + r] =
      i * result.last + w.rColumn + r := by
    rw [Shape.linear_matrix hf.resultRank, Nat.add_assoc]
  refine ⟨_, (bind_ok hrun).trans rfl, fun i hi j hlo hhi => ?_, fun p hp => ?_,
    w.overwriteRows_layout ..⟩
  · obtain ⟨r, rfl⟩ := Nat.exists_eq_add_of_le hlo
    have hr : r < w.rowChunk := by omega
    refine ⟨_, _, View.window_eq ha hf.aRank hf.aContiguous hi hf.aColumns,
      View.window_eq hb hf.bRank hf.bContiguous (Nat.lt_of_lt_of_le hhi hf.bRows) hf.bColumns, ?_⟩
    rw [Nat.add_sub_cancel_left, hposition, hinside i hi r hr, ← toList_run, ← toList_run]
    rfl
  · refine houtside p fun i hi r hr => ?_
    have hne := hp i hi (w.bRow + r) (Nat.le_add_right ..) (by omega)
    rwa [Nat.add_sub_cancel_left, hposition] at hne

/-- Columns on both sides of a block of `b`, the result in the first column. -/
def acrossBlocks : BatchWindow := ⟨10, 20, 24, 0, 1, 1⟩

set_option maxRecDepth 2000 in
/-- Bytes times nibbles, as 16-bit patterns. -/
theorem Reference.batchDotProduct_sums_acrossBlocks :
    byteRow.WellFormed ∧ nibbleRows.WellFormed ∧
      Receives productRow (.f16 #[7, 7] : Elements ℤ) ∧
      checkBatch productRow byteRow nibbleRows acrossBlocks = .ok () ∧
      ∃ e', Backend.reference.batchDotProduct byteRow nibbleRows acrossBlocks productRow
          (.f16 #[7, 7]) = .ok [] e' ∧
        e'.cell? 0 = some (.f16 192) ∧ e'.cell? 1 = some (.f16 7) := by
  have ha : byteRow.WellFormed := View.wellFormed_of ⟨rfl, by decide⟩ (by decide)
  have hb : nibbleRows.WellFormed := View.wellFormed_of ⟨rfl, by decide⟩ (by decide)
  have he : Receives productRow (.f16 #[7, 7] : Elements ℤ) := ⟨rfl, by decide, by decide⟩
  have hw : checkBatch productRow byteRow nibbleRows acrossBlocks = .ok () := rfl
  obtain ⟨e', hrun, hinside, houtside, -⟩ :=
    batchDotProduct_sums byteRow nibbleRows acrossBlocks productRow _ ha hb he hw
  refine ⟨ha, hb, he, hw, e', hrun, ?_, ?_⟩
  · obtain ⟨xs, ys, hxs, hys, hcell⟩ := hinside 0 (by decide) 1 (by decide) (by decide)
    have htwos : byteRow.window 0 10 24 = .ok (List.replicate 24 2) := rfl
    have hscaled : nibbleRows.window 1 20 24 =
        .ok (List.replicate 12 3 ++ List.replicate 12 5) := rfl
    obtain rfl := Except.ok.inj (htwos.symm.trans hxs)
    obtain rfl := Except.ok.inj (hscaled.symm.trans hys)
    exact hcell
  · refine houtside 1 fun i hi j hlo hhi => ?_
    obtain rfl : i = 0 := Nat.lt_one_iff.mp hi
    obtain rfl : j = 1 := Nat.le_antisymm (Nat.le_of_lt_succ hhi) hlo
    decide

end BlockTensor

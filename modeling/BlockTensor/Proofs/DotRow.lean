import BlockTensor.Backend.Basic
import BlockTensor.Proofs.Fill

/-!
# Rows of dot products

What a backend makes of a row of results depends on the dot products only, not on
how they were computed: `Reference.batchElement_eq_set` stores one of them, and
`Vector.batchRow_eq` says that a row computed in a buffer of its own, by any pool,
is the row of them. Of a pair that has no kernel the vectorized backend stores
nothing (`Backend.batchDotProduct_refused`).
-/

namespace BlockTensor

open Outcome Update

variable {α : Type} [Scalar α]

theorem Reference.batchElement_eq_set {result : Shape} {a b : View α} {w : BatchWindow} {i r : Nat}
    {d : α}
    (hdot : dotElements a.elems (i * a.shape.last + w.aColumn) b.elems
      ((w.bRow + r) * b.shape.last + w.bColumn) w.columns = .ok d) :
    batchElement result a b w i r = Elements.set (i * result.last + w.rColumn + r) d := by
  funext e
  rw [batchElement, hdot]
  exact bind_ok rfl

namespace Vector

variable {a : Elements α} {aStart : Nat} {b : View α} {w : BatchWindow} {d : Nat → α}

/-- The kernel computes `d r` from row `r` of the window of `b`. -/
def Computes (a : Elements α) (aStart : Nat) (b : View α) (w : BatchWindow) (d : Nat → α) : Prop :=
  ∀ r < w.rowChunk,
    Kernel.dot a aStart b.elems ((w.bRow + r) * b.shape.last + w.bColumn) w.columns =
      .ok (some (d r))

theorem setDot_fills (hdot : Computes a aStart b w d) {start r n : Nat}
    (hlt : start + r < w.rowChunk) :
    Fills n (setDot a aStart b w (w.bRow + start + r) r) (· = r) fun r => d (start + r) := by
  intro run hn
  refine ⟨run.setIfInBounds r (d (start + r)), ?_, by rw [Array.size_setIfInBounds, hn],
    fun j hj => ⟨?_, fun hne => ?_⟩⟩
  · rw [setDot, Nat.add_assoc w.bRow, hdot _ hlt]
    rfl
  · rintro rfl
    rw [Array.getElem?_setIfInBounds_self_of_lt (by omega)]
  · rw [Array.getElem?_setIfInBounds_ne (Ne.symm hne)]

/-- A run of results is computed one after the other. -/
theorem rowRun_eq (hdot : Computes a aStart b w d) {start len : Nat} {run : Array α}
    (hrun : run.size = len) (hle : start + len ≤ w.rowChunk) :
    rowRun a aStart b w start run = .ok () (Array.ofFn fun r : Fin len => d (start + r)) := by
  rw [rowRun, hrun]
  have hfills : Fills len
      ((List.range len).forM fun r => setDot a aStart b w (w.bRow + start + r) r)
      (fun j => ∃ r ∈ List.range len, j = r) (fun r => d (start + r)) :=
    fills_forM fun r hr => setDot_fills hdot (by have := List.mem_range.mp hr; omega)
  exact hfills.eq_ofFn (fun j hj => ⟨j, List.mem_range.mpr hj, rfl⟩) hrun

/-- In parallel or not, a row is the row of results. -/
theorem batchRow_eq (p : Pool) (hdot : Computes a aStart b w d) {row : Array α}
    (hrow : row.size = w.rowChunk) :
    batchRow p a aStart b w row = .ok () (Array.ofFn fun r : Fin w.rowChunk => d r) := by
  unfold batchRow
  split
  · exact p.updateChunks_eq (fun start len run hrun hle => rowRun_eq hdot hrun hle) hrow
  · have h := rowRun_eq hdot hrow (Nat.le_of_eq (Nat.zero_add _))
    simp only [Nat.zero_add] at h
    exact h

/-- Outside the full-precision encoding a row is computed first and then written at
once. -/
theorem batchRowInto_eq_write (p : Pool) {a b : View α} {w : BatchWindow} {d : Nat → α} {i : Nat}
    (hdot : Computes a.elems (i * a.shape.last + w.aColumn) b w d) (result : Shape)
    {e : Elements α} (he : e.dtype ≠ .f32) :
    batchRowInto p result a b w i e =
      Elements.write (i * result.last + w.rColumn)
        (Array.ofFn fun r : Fin w.rowChunk => d r) e := by
  have hrow := batchRow_eq p hdot (Array.size_replicate (n := w.rowChunk) (v := 0))
  unfold batchRowInto
  cases e with
  | f32 data => exact absurd rfl he
  | _ =>
    dsimp only
    rw [hrow]

end Vector

/-- A pair that has no kernel is refused before anything is stored. -/
theorem Backend.batchDotProduct_refused (p : Pool) {a b : View α} {w : BatchWindow} {result : Shape}
    (e : Elements α) (hw : checkBatch result a b w = .ok ())
    (hs : ¬Kernel.supports a.dtype b.dtype = true) :
    (Backend.vector p).batchDotProduct a b w result e =
      .error (.error (.unsupportedCombination "batch_dot_product" a.dtype b.dtype)) e := by
  have hvector : Vector.batchDotProduct p a b w result e =
      .error (.error (.unsupportedCombination "batch_dot_product" a.dtype b.dtype)) e := by
    rw [Vector.batchDotProduct, hw, Vector.checkSupported, if_neg hs]
    rfl
  simp only [batchDotProduct, bind, EStateM.bind, hvector]

end BlockTensor
